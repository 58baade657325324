import Nxweb.Proxy.Request

/-!
# One response for a proxied request

A response to the client is started when the backend answers and when an attempt fails for the
last time. The flag `response_sending_started` is set in both places, and it is looked at before
an attempt is given up or repeated, but not when a response of the backend arrives. After a local
`504` the request stays subscribed to its backend connection, so the answer may still come.

A run starts at most one response, and leaves the response alone afterwards, if and only if no
response of the backend is delivered after one was started (`proxyRequest_once_iff`). The
invariant is `Counted`: as long as an event can still come, the flag says how many responses were
started.
-/

namespace Nxweb

open Lib

/-- The fields of the response that must not change any more. -/
structure SameFields (resp resp' : HttpResponse) : Prop where
  status_eq : resp'.status = resp.status
  statusCode_eq : resp'.statusCode = resp.statusCode
  contentLength_eq : resp'.contentLength = resp.contentLength
  headers_eq : resp'.headers = resp.headers
  contentOut_eq : resp'.contentOut = resp.contentOut

theorem SameFields.refl (resp : HttpResponse) : SameFields resp resp := ⟨rfl, rfl, rfl, rfl, rfl⟩

/-- A transition after which at most one response has been started, and that leaves the fields of
a response that was started alone. -/
def OnceStep (s : ProxyRequest) (_ : ProxyEvent) (s' : ProxyRequest) : Prop :=
  s'.startCalls ≤ 1 ∧ (0 < s.startCalls → SameFields s.resp s'.resp)

/-- A response of the backend. -/
def ProxyEvent.IsResponse : ProxyEvent → Prop
  | .message (.responseReceived _ _) _ => True
  | _ => False

/-- A transition that is not a response of the backend to a request that has been answered. -/
def OnTime (s : ProxyRequest) (e : ProxyEvent) (_ : ProxyRequest) : Prop :=
  s.responseSendingStarted = true → ¬ e.IsResponse

/-- At most one response has been started, and while events can come the flag tells whether
there was one. -/
structure Counted (s : ProxyRequest) : Prop where
  le_one : s.startCalls ≤ 1
  started_iff : s.subscribed = true ∨ s.timerBackend = true →
    (s.startCalls = 1 ↔ s.responseSendingStarted = true)

/-- What the functions that give up or repeat an attempt do, seen from a state in which no
response was started: they start one and set the flag, or they start none. -/
theorem counted_failProxyRequest (env : ProxyEnv) {s : ProxyRequest}
    (hcalls : s.startCalls = 0) (hstarted : s.responseSendingStarted = false) :
    Counted (failProxyRequest env s) := by
  unfold failProxyRequest
  simp only [hstarted, Bool.false_eq_true, if_false, ProxyRequest.startSendingResponse]
  exact ⟨by simp [hcalls], by simp [hcalls]⟩

theorem counted_retryProxyRequest (env : ProxyEnv) {s : ProxyRequest} (connects : Bool)
    (hcalls : s.startCalls = 0) (htimer : s.timerBackend = false)
    (hstarted : s.responseSendingStarted = false) : Counted (retryProxyRequest env s connects) := by
  unfold retryProxyRequest startProxyRequest
  split_ifs
  · exact ⟨by simp [hcalls], by simp [hcalls]⟩
  · exact ⟨by simp [hcalls], by simp [htimer]⟩
  · exact ⟨by simp [hcalls], by simp [hcalls, hstarted]⟩

theorem OnceStep.of_counted {s s' : ProxyRequest} {e : ProxyEvent} (hcalls : s.startCalls = 0)
    (h : Counted s') : OnceStep s e s' :=
  ⟨h.le_one, fun hpos => absurd hpos (by omega)⟩

/-- A transition that neither starts a response nor touches the fields. -/
theorem OnceStep.of_same {s s' : ProxyRequest} {e : ProxyEvent} (h : Counted s)
    (hcalls : s'.startCalls = s.startCalls) (hresp : s'.resp = s.resp) : OnceStep s e s' :=
  ⟨hcalls ▸ h.le_one, fun _ => hresp ▸ .refl _⟩

/-- A request that can get events and has not been answered has started no response. -/
theorem Counted.startCalls_eq_zero {s : ProxyRequest} (h : Counted s)
    (hevents : s.subscribed = true ∨ s.timerBackend = true)
    (hstarted : s.responseSendingStarted = false) : s.startCalls = 0 := by
  have hle := h.le_one
  have hne : s.startCalls ≠ 1 := fun h1 => by
    simp [(h.started_iff hevents).mp h1] at hstarted
  omega

/-- The expiry of the backend timer. -/
theorem onceStep_timeout (env : ProxyEnv) {s : ProxyRequest} (connects : Bool) (e : ProxyEvent)
    (h : Counted s) (htimer : s.timerBackend = true) :
    OnceStep s e (timerBackendOnTimeout env { s with timerBackend := false } connects) ∧
      Counted (timerBackendOnTimeout env { s with timerBackend := false } connects) := by
  have hiff := h.started_iff (.inr htimer)
  unfold timerBackendOnTimeout
  split
  next => exact ⟨.of_same h rfl rfl, h.le_one, fun _ => hiff⟩
  next hpx _ =>
    by_cases hdone : hpx.reqBodySendingStarted = true ∨ s.responseSendingStarted = true
    · rw [if_pos hdone]
      exact ⟨.of_same h rfl rfl, h.le_one, fun _ => hiff⟩
    · rw [if_neg hdone]
      have hstarted : s.responseSendingStarted = false := by
        simpa using fun hs => hdone (.inr hs)
      have hcalls := h.startCalls_eq_zero (.inr htimer) hstarted
      have hcounted : Counted (if proxyRetryCount ≤ s.retryCount
          then failProxyRequest env { s with timerBackend := false }
          else retryProxyRequest env { s with timerBackend := false } connects) := by
        split_ifs
        · exact counted_failProxyRequest env hcalls hstarted
        · exact counted_retryProxyRequest env connects hcalls rfl hstarted
      exact ⟨.of_counted hcalls hcounted, hcounted⟩

/-- An error of the backend connection. -/
theorem onceStep_error (env : ProxyEnv) {s : ProxyRequest} (code : ℤ) (connects : Bool)
    (e : ProxyEvent) (h : Counted s) (hsub : s.subscribed = true) :
    OnceStep s e (proxyEventsSubOnMessage env s (.error code) connects) ∧
      Counted (proxyEventsSubOnMessage env s (.error code) connects) := by
  have hiff := h.started_iff (.inl hsub)
  simp only [proxyEventsSubOnMessage]
  by_cases hcomplete : s.proxyRequestComplete = true
  · rw [if_pos hcomplete]
    exact ⟨.of_same h rfl rfl, h.le_one, fun _ => hiff⟩
  rw [if_neg hcomplete]
  by_cases hstarted : s.responseSendingStarted = true
  · simp only [hstarted, if_true, failProxyRequest, ProxyRequest.finalizeConnection]
    exact ⟨.of_same h rfl rfl, h.le_one, by simp⟩
  rw [if_neg hstarted]
  rw [Bool.not_eq_true] at hstarted
  have hcalls := h.startCalls_eq_zero (.inl hsub) hstarted
  split
  next => exact ⟨.of_same h rfl rfl, h.le_one, fun _ => hiff⟩
  next hpx _ =>
    have hcounted : Counted (if proxyRetryCount ≤ s.retryCount ∨ hpx.reqBodySendingStarted = true
        then failProxyRequest env { s with proxyRequestError := true, timerBackend := false }
        else retryProxyRequest env { s with proxyRequestError := true, timerBackend := false }
          connects) := by
      split_ifs
      · exact counted_failProxyRequest env hcalls hstarted
      · exact counted_retryProxyRequest env connects hcalls rfl hstarted
    exact ⟨.of_counted hcalls hcounted, hcounted⟩

/-- A response of the backend is fine exactly if none was started before. -/
theorem onceStep_response (env : ProxyEnv) {s : ProxyRequest} (presp : HttpResponse) (now : ℤ)
    (connects : Bool) (e : ProxyEvent) (h : Counted s) (hsub : s.subscribed = true) :
    (OnceStep s e (proxyEventsSubOnMessage env s (.responseReceived presp now) connects) ↔
        s.responseSendingStarted = false) ∧
      (OnceStep s e (proxyEventsSubOnMessage env s (.responseReceived presp now) connects) →
        Counted (proxyEventsSubOnMessage env s (.responseReceived presp now) connects)) := by
  have hiff := h.started_iff (.inl hsub)
  simp only [proxyEventsSubOnMessage, ProxyRequest.startSendingResponse]
  cases hstarted : s.responseSendingStarted with
  | false =>
    have hcalls := h.startCalls_eq_zero (.inl hsub) hstarted
    have hcounted : ∀ s' : ProxyRequest, s'.startCalls = s.startCalls + 1 →
        s'.responseSendingStarted = true → Counted s' := fun s' h1 h2 =>
      ⟨by omega, fun _ => by simp [h1, h2, hcalls]⟩
    exact ⟨⟨fun _ => rfl, fun _ => .of_counted hcalls (hcounted _ rfl rfl)⟩,
      fun _ => hcounted _ rfl rfl⟩
  | true =>
    have hcalls := hiff.mpr hstarted
    have hnot : ∀ s' : ProxyRequest, s'.startCalls = s.startCalls + 1 → ¬ OnceStep s e s' :=
      fun s' h1 h2 => by have := h2.1; omega
    exact ⟨⟨fun hstep => absurd hstep (hnot _ rfl), by simp⟩, fun hstep => absurd hstep (hnot _ rfl)⟩

/-- From a counted state a transition is fine exactly if it is not a late response, and then the
state stays counted. -/
theorem proxyStep_once (env : ProxyEnv) (s : ProxyRequest) (e : ProxyEvent) (s' : ProxyRequest)
    (h : Counted s) (hstep : proxyStep env s e = some s') :
    (OnceStep s e s' ↔ OnTime s e s') ∧ (OnceStep s e s' → Counted s') := by
  have hfine : OnceStep s e s' ∧ Counted s' → ¬ e.IsResponse →
      (OnceStep s e s' ↔ OnTime s e s') ∧ (OnceStep s e s' → Counted s') :=
    fun hboth hresp => ⟨⟨fun _ _ => hresp, fun _ => hboth.1⟩, fun _ => hboth.2⟩
  cases proxyStep_cases hstep with
  | response presp now connects hsub =>
    obtain ⟨hiff, hkeep⟩ := onceStep_response env presp now connects
      (.message (.responseReceived presp now) connects) h hsub
    refine ⟨hiff.trans ?_, hkeep⟩
    simp [OnTime, ProxyEvent.IsResponse]
  | complete connects hsub => exact hfine ⟨.of_same h rfl rfl, h.le_one, h.started_iff⟩ id
  | error code connects hsub => exact hfine (onceStep_error env code connects _ h hsub) id
  | timeout connects htimer => exact hfine (onceStep_timeout env connects _ h htimer) id
  | bodySendingStarted hpx hhpx => exact hfine ⟨.of_same h rfl rfl, h.le_one, h.started_iff⟩ id
  | client state => exact hfine ⟨.of_same h rfl rfl, h.le_one, h.started_iff⟩ id
  | finalize =>
    exact hfine ⟨.of_same h rfl rfl, h.le_one, by simp [ProxyRequest.finalizeConnection]⟩ id

/-- Requests start counted. -/
theorem counted_beginProxyRequest (env : ProxyEnv) (hspState : HspState) (resp : HttpResponse)
    (pool : TimeDeltas) (connects : Bool) :
    Counted (beginProxyRequest env hspState resp pool connects) := by
  cases connects with
  | true => exact ⟨Nat.zero_le _, by simp [beginProxyRequest, startProxyRequest]⟩
  | false =>
    simp only [beginProxyRequest, startProxyRequest, Bool.false_eq_true, if_false,
      ProxyRequest.startSendingResponse]
    exact ⟨le_rfl, by simp⟩

/-- For every order of backend events and timer expiries: at most one response is started for
the request, and none of its fields is overwritten afterwards, if and only if no response of the
backend is delivered to a request that has been answered already. -/
theorem proxyRequest_once_iff (env : ProxyEnv) (hspState : HspState) (resp : HttpResponse)
    (pool : TimeDeltas) (connects : Bool) (es : List ProxyEvent) :
    Along (proxyStep env) OnceStep (beginProxyRequest env hspState resp pool connects) es ↔
      Along (proxyStep env) OnTime (beginProxyRequest env hspState resp pool connects) es :=
  along_iff (proxyStep_once env) es
    (counted_beginProxyRequest env hspState resp pool connects)

/-- A server in which `nxweb_start_sending_response` only starts the protocol. -/
def lateEnv : ProxyEnv := ⟨[], fun s => (.sendingHeaders, s.2)⟩

/-- The backend does not answer five attempts in time, so that the client gets a `504`; then the
last attempt is answered after all. -/
def lateRun : List ProxyEvent :=
  [.timeout true, .timeout true, .timeout true, .timeout true, .timeout true,
    .message (.responseReceived { statusCode := 200 } 0) true]

theorem lateRun_answers : (run (proxyStep lateEnv) (beginProxyRequest lateEnv .handling {} {} true)
    lateRun).map (fun s => (s.startCalls, s.resp.statusCode)) = some (2, 200) := by
  decide +kernel

/-- In this run a second response is started, and its status overwrites that of the first. -/
theorem proxyRequest_late_response :
    (run (proxyStep lateEnv) (beginProxyRequest lateEnv .handling {} {} true)
        (lateRun.take 5)).map (fun s => (s.startCalls, s.resp.statusCode)) = some (1, 504) ∧
      (run (proxyStep lateEnv) (beginProxyRequest lateEnv .handling {} {} true)
        lateRun).map (fun s => (s.startCalls, s.resp.statusCode)) = some (2, 200) ∧
      ¬ Along (proxyStep lateEnv) OnceStep (beginProxyRequest lateEnv .handling {} {} true)
        lateRun := by
  refine ⟨by decide +kernel, lateRun_answers, fun h => ?_⟩
  obtain ⟨s, hrun, heq⟩ := Option.map_eq_some_iff.mp lateRun_answers
  have hstart : (beginProxyRequest lateEnv .handling {} {} true).startCalls ≤ 1 := by
    decide +kernel
  have hle : s.startCalls ≤ 1 :=
    run_inv_of_along (I := fun s : ProxyRequest => s.startCalls ≤ 1)
      (fun _ _ _ _ _ hQ => hQ.1) hstart h hrun
  have htwo : s.startCalls = 2 := (Prod.mk.inj heq).1
  omega

end Nxweb
