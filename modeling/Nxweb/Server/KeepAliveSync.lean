import Nxweb.Lib.Machine
import Nxweb.Server.ConnectionSync

/-!
# Keep-alive connections stay in sync

A connection is armed for another request when the one before has been answered with `keep_alive`
set. What the client sends next is then read as headers, so the body of the answered request has to
be off the connection by then.

The places in the server that answer a request with its body pending clear `keep_alive`. The local
`504` of a proxied request does not, nor does a response that a handler starts by itself. Along
every run on which such responses wait for the end of the body or clear `keep_alive`, and on which
no read of a chunked body overtakes the first chunk, a connection is armed only in sync
(`rearm_inSync`). Without that condition the next header block can start inside a body
(`rearm_inside_body`).
-/

namespace Nxweb

open Lib

/-! ### The backend -/

/-- The event makes the proxied request start a response: the backend has answered, or the last
attempt is given up. -/
def ProxyEvent.Answers (p : ProxyRequest) : ProxyEvent → Prop
  | .message (.responseReceived _ _) _ => True
  | .message (.error _) _ =>
    p.proxyRequestComplete = false ∧ p.responseSendingStarted = false ∧
      ∃ hpx, p.hpx = some hpx ∧
        (proxyRetryCount ≤ p.retryCount ∨ hpx.reqBodySendingStarted = true)
  | .timeout _ =>
    p.responseSendingStarted = false ∧
      ∃ hpx, p.hpx = some hpx ∧ hpx.reqBodySendingStarted = false ∧
        proxyRetryCount ≤ p.retryCount
  | _ => False

/-- What an event of the backend leaves of the response record. -/
structure BackendStep (p p' : ProxyRequest) (e : ProxyEvent) : Prop where
  keepAlive_eq : p'.resp.keepAlive = p.resp.keepAlive
  answers : p'.startCalls ≠ p.startCalls → e.Answers p

theorem failProxyRequest_keepAlive (env : ServerEnv) (p : ProxyRequest) :
    (failProxyRequest env.proxyEnv p).resp.keepAlive = p.resp.keepAlive := by
  unfold failProxyRequest
  split_ifs <;> rfl

theorem retryProxyRequest_spec (env : ProxyEnv) (p : ProxyRequest) (connects : Bool) :
    (retryProxyRequest env p connects).resp.keepAlive = p.resp.keepAlive ∧
      (retryProxyRequest env p connects).startCalls = p.startCalls := by
  unfold retryProxyRequest startProxyRequest
  split_ifs <;> exact ⟨rfl, rfl⟩

theorem timeout_backendStep (env : ServerEnv) (p : ProxyRequest) (connects : Bool) :
    BackendStep p (timerBackendOnTimeout env.proxyEnv { p with timerBackend := false } connects)
      (.timeout connects) := by
  unfold timerBackendOnTimeout
  split
  next => exact ⟨rfl, fun h => absurd rfl h⟩
  next hpx hhpx =>
    split_ifs with hstarted hlast
    · exact ⟨rfl, fun h => absurd rfl h⟩
    · rw [not_or] at hstarted
      exact ⟨failProxyRequest_keepAlive env _, fun _ =>
        ⟨Bool.not_eq_true _ ▸ hstarted.2, hpx, hhpx, Bool.not_eq_true _ ▸ hstarted.1, hlast⟩⟩
    · obtain ⟨hkeep, hcalls⟩ :=
        retryProxyRequest_spec env.proxyEnv { p with timerBackend := false } connects
      exact ⟨hkeep, fun h => absurd hcalls h⟩

theorem error_backendStep (env : ServerEnv) (p : ProxyRequest) (code : ℤ) (connects : Bool) :
    BackendStep p (proxyEventsSubOnMessage env.proxyEnv p (.error code) connects)
      (.message (.error code) connects) := by
  simp only [proxyEventsSubOnMessage]
  by_cases hcomplete : p.proxyRequestComplete = true
  · rw [if_pos hcomplete]
    exact ⟨rfl, fun h => absurd rfl h⟩
  rw [if_neg hcomplete]
  by_cases hstarted : p.responseSendingStarted = true
  · simp only [hstarted, if_true, failProxyRequest]
    exact ⟨rfl, fun h => absurd rfl h⟩
  rw [if_neg hstarted]
  split
  next => exact ⟨rfl, fun h => absurd rfl h⟩
  next hpx hhpx =>
    split_ifs with hlast
    · exact ⟨failProxyRequest_keepAlive env _, fun _ =>
        ⟨Bool.not_eq_true _ ▸ hcomplete, Bool.not_eq_true _ ▸ hstarted, hpx, hhpx, hlast⟩⟩
    · obtain ⟨hkeep, hcalls⟩ := retryProxyRequest_spec env.proxyEnv
        { p with proxyRequestError := true, timerBackend := false } connects
      exact ⟨hkeep, fun h => absurd hcalls h⟩

theorem proxyStep_backendStep {env : ServerEnv} {p p' : ProxyRequest} {e : ProxyEvent}
    (h : proxyStep env.proxyEnv p e = some p') : BackendStep p p' e := by
  cases proxyStep_cases h with
  | response presp now connects hsub => exact ⟨rfl, fun _ => trivial⟩
  | error code connects hsub => exact error_backendStep env p code connects
  | timeout connects htimer => exact timeout_backendStep env p connects
  | complete | bodySendingStarted | client | finalize => exact ⟨rfl, fun h => absurd rfl h⟩

theorem Connection.Inv.stepProxy {env : ServerEnv} {c c' : Connection} {e : ProxyEvent}
    (hinv : c.Inv)
    (hsafe : c.hsp.state = .receivingBody → ∀ p, c.proxyView = some p → e.Answers p →
      c.hsp.rearms = false)
    (h : c.stepProxy env e = some c') : c'.Inv := by
  obtain ⟨p, hview, h⟩ := Option.bind_eq_some_iff.mp h
  obtain ⟨-, h⟩ := Option.ite_none_right_eq_some.mp h
  obtain ⟨p', hstep, h⟩ := Option.bind_eq_some_iff.mp h
  obtain ⟨hkeep, hanswers⟩ := proxyStep_backendStep hstep
  have hka : p'.resp.keepAlive = c.hsp.rearms := by
    obtain ⟨p₀, -, hview'⟩ := Option.bind_eq_some_iff.mp hview
    obtain ⟨resp, hresp, hp⟩ := Option.bind_eq_some_iff.mp hview'
    obtain rfl := Option.some.inj hp
    rw [rearms_of_resp hresp]
    exact hkeep
  unfold Connection.afterProxy at h
  split_ifs at h with habort hfinal hstart hretry
  · obtain rfl := Option.some.inj h
    exact ⟨hinv.sync, hinv.received, hinv.complete⟩
  · have hset : ({ c with proxy := some p' } : Connection).Inv :=
      ⟨hinv.sync, hinv.received, hinv.complete⟩
    refine (hset.stage_start (fun hk => hka.symm.trans hk) (fun hk => .inr fun hst => ?_) h).inv
    have hfalse := hsafe hst p hview (hanswers hstart)
    simp [hka, hfalse] at hk
  · obtain rfl := Option.some.inj h
    have hset : Quiet c { c with
        proxy := some p', hsp := { c.hsp with resp := some p'.resp, reqBodyOutPaired := false } } :=
      ⟨.refl _, rfl, rfl, rfl, rfl, rfl, rfl, fun hk => hka.symm.trans hk⟩
    unfold Hsp.reconnectProxyBody
    split_ifs
    · exact hinv.quiet (quiet_connectProxyBody hset)
    · exact hinv.quiet hset
  · obtain rfl := Option.some.inj h
    exact hinv.quiet ⟨.refl _, rfl, rfl, rfl, rfl, rfl, rfl, fun hk => hka.symm.trans hk⟩

/-! ### Whole runs -/

/-- A transition that answers a request only with its body off the connection, or closes the
connection: reads of the body are in order, callbacks and the backend start a response while the
body is being received only without `keep_alive`. -/
def Drains (c : Connection) (e : ConnEvent) (_ : Connection) : Prop :=
  match e with
  | .readBody size avail => c.hsp.InOrder c.sock size avail
  | .deliver cb => c.hsp.req.contentLength ≠ 0 →
    c.hsp.eventsPub.head? = some .requestReceived → cb.Close
  | .respond update => c.hsp.state = .receivingBody →
    ∀ resp, c.hsp.resp = some resp → (update.apply resp).keepAlive = false
  | .backend e => c.hsp.state = .receivingBody →
    ∀ p, c.proxyView = some p → e.Answers p → c.hsp.rearms = false
  | _ => True

/-- `request_cleanup` arms the connection for another request. -/
def Connection.Rearms (c : Connection) (e : ConnEvent) : Prop :=
  (∃ cb, e = .deliver cb) ∧ c.hsp.eventsPub.head? = some .requestComplete ∧ c.hsp.rearms = true

/-- A transition that arms the connection only when the body of the finished request has been
taken from it. -/
def RearmInSync (c : Connection) (e : ConnEvent) (_ : Connection) : Prop :=
  c.Rearms e → Consumed c.hsp.req c.taken

theorem Connection.Inv.deliver {env : ServerEnv} {c c' : Connection} {cb : Callbacks}
    (hinv : c.Inv) (hsafe : Drains c (.deliver cb) c') (h : c.deliver env cb = some c') :
    c'.Inv := by
  unfold Connection.deliver at h
  split at h
  next => cases h
  next msg msgs hmsgs =>
    have hpop := hinv.pop hmsgs
    cases msg with
    | requestReceived =>
      refine hpop.onRequestReceived (fun hlen => hsafe hlen ?_) h
      rw [hmsgs]
      rfl
    | requestBodyReceived =>
      have hst : c.hsp.state ≠ .receivingBody := by
        intro hst
        rcases hinv.received (by simp [hmsgs]) with hs | hs | hs <;> simp [hst] at hs
      dsimp only [Connection.onRequestBodyReceived] at h
      split at h
      next => cases h
      next hd _ =>
        split_ifs at h
        · obtain rfl := Option.some.inj h
          exact hpop
        · obtain ⟨c₁, hcall, h⟩ := Option.bind_eq_some_iff.mp h
          have hstage := hpop.stage_callback (.inr (.inr hst)) hcall
          exact (hstage.inv.stage_invoke (.inr fun h₁ => hst (hstage.receiving h₁)) h).inv
    | requestComplete =>
      obtain rfl := Option.some.inj h
      exact hinv.onRequestComplete hmsgs
    | requestChunkedEncodingError =>
      obtain rfl := Option.some.inj h
      exact ⟨hpop.sync, hpop.received, hpop.complete⟩

theorem connection_step_inv {env : ServerEnv} (c : Connection) (e : ConnEvent) (c' : Connection)
    (hinv : c.Inv) (hstep : c.step env e = some c') (hdrains : Drains c e c') : c'.Inv := by
  unfold Connection.step at hstep
  by_cases hclosed : c.closed = true
  · rw [if_pos hclosed] at hstep
    cases hstep
  rw [if_neg hclosed] at hstep
  cases e with
  | arrival =>
    obtain rfl := Option.some.inj hstep
    exact ⟨hinv.sync, hinv.received, hinv.complete⟩
  | readHeaders room avail => exact hinv.readHeaders hstep
  | readBody size avail => exact hinv.readBody hdrains hstep
  | deliver cb => exact hinv.deliver hdrains hstep
  | respond update =>
    obtain ⟨resp, hresp, h⟩ := Option.bind_eq_some_iff.mp hstep
    refine (hinv.stage_start (fun hk => ?_) (fun hk => .inr fun hst => ?_) h).inv
    · exact (rearms_of_resp hresp).trans (update.keepAlive_of resp hk)
    · simp [hdrains hst resp hresp] at hk
  | backend e => exact hinv.stepProxy hdrains hstep
  | write reply100 reply offer =>
    obtain ⟨hready, hmap⟩ := Option.ite_none_right_eq_some.mp hstep
    obtain ⟨⟨hsp', out'⟩, hwrite, rfl⟩ := Option.map_eq_some_iff.mp hmap
    refine hinv.sends out' (fun hmem => ?_) (dataOutDoWrite_sends hwrite)
    simp [(hinv.complete hmem).dataOut] at hready
  | writeBody data eof replies =>
    obtain ⟨hpaired, hmap⟩ := Option.ite_none_right_eq_some.mp hstep
    obtain ⟨⟨n, hsp', out'⟩, hwrite, rfl⟩ := Option.map_eq_some_iff.mp hmap
    refine hinv.sends _ (fun hmem => ?_) (respBodyInWriteOrSendfile_sends hwrite)
    simp [(hinv.complete hmem).unpaired] at hpaired
  | finalize =>
    obtain rfl := Option.some.inj hstep
    exact ⟨hinv.sync, hinv.received, hinv.complete⟩

theorem connect_inv (incoming : List UInt8) : (Connection.connect incoming).Inv :=
  ⟨rfl, by simp [Connection.connect], by simp [Connection.connect]⟩

/-- At the end of a request that keeps the connection open its body has been consumed. -/
theorem Connection.Inv.rearmInSync {c c' : Connection} {e : ConnEvent} (hinv : c.Inv) :
    RearmInSync c e c' := by
  rintro ⟨-, hhead, hrearms⟩
  have hmem : .requestComplete ∈ c.hsp.eventsPub := List.mem_of_head? hhead
  exact hinv.sync.of_sending (hinv.complete hmem).sending hrearms

/-- For every client and every run of its connection, whatever the handlers, the backends and the
timers do: if responses that are started while a body is being received close the connection, and
the reads of the body are in order, then the connection is armed for another request only when the
body of the last one has been taken from it. -/
theorem rearm_inSync (env : ServerEnv) (incoming : List UInt8) (es : List ConnEvent)
    (hdrains : Along (Connection.step env) Drains (Connection.connect incoming) es) :
    Along (Connection.step env) RearmInSync (Connection.connect incoming) es :=
  along_of_inv (fun c e c' hinv hstep hd =>
    ⟨hinv.rearmInSync, connection_step_inv c e c' hinv hstep hd⟩) (connect_inv incoming) hdrains

/-- A server whose parser finds a `POST` with a body of five bytes. -/
def postEnv : ServerEnv where
  revision := []
  parseHttpRequest := fun _ => some { postMethod := true, keepAlive := true, contentLength := 5 }
  openFile := fun _ => -1
  prepareResponseHeaders := fun _ => bytes "HTTP/1.1 504 Gateway Timeout\r\n\r\n"

def postHead : List UInt8 := bytes "POST / HTTP/1.1\r\nHost: a\r\nContent-Length: 5\r\n\r\n"

/-- A request whose body goes to memory, is answered then, and leaves the connection open. -/
def memoryRun : List ConnEvent :=
  [.readHeaders 4096 postHead.length, .deliver { handler := {} }, .arrival, .readBody 64 5,
    .deliver { handler := {}, request := .answer .none }, .write ⟨0, true⟩ ⟨4096, true⟩ none,
    .deliver { handler := {} }]

/-- Callbacks that do not start a response do not have to close the connection. -/
theorem close_of_not_starts {cb : Callbacks} (hselect : cb.select.starts = false)
    (hheaders : cb.onHeaders.starts = false) (hpost : cb.onPostData.starts = false) : cb.Close :=
  ⟨by simp [CallbackRun.Closes, hselect], by simp [CallbackRun.Closes, hheaders],
    by simp [CallbackRun.Closes, hpost]⟩

theorem memoryRun_drains : Along (Connection.step postEnv) Drains
    (Connection.connect (postHead ++ bytes "abcde")) memoryRun := by
  have hplain : (run (Connection.step postEnv) (Connection.connect (postHead ++ bytes "abcde"))
      (memoryRun.take 3)).map (fun c => c.hsp.req.chunkedEncoding) = some false := by
    decide +kernel
  intro c₁ h₁
  refine ⟨trivial, fun c₂ h₂ => ⟨fun _ _ => close_of_not_starts rfl rfl rfl, fun c₃ h₃ =>
    ⟨trivial, fun c₄ _ => ⟨fun hch => ?_, fun c₅ _ => ⟨fun _ _ => close_of_not_starts rfl rfl rfl,
      fun c₆ _ => ⟨trivial, fun c₇ _ => ⟨fun _ _ => close_of_not_starts rfl rfl rfl,
        trivial⟩⟩⟩⟩⟩⟩⟩
  have hrun : run (Connection.step postEnv) (Connection.connect (postHead ++ bytes "abcde"))
      (memoryRun.take 3) = some c₃ :=
    Option.bind_eq_some_iff.mpr ⟨c₁, h₁, Option.bind_eq_some_iff.mpr ⟨c₂, h₂,
      Option.bind_eq_some_iff.mpr ⟨c₃, h₃, rfl⟩⟩⟩
  rw [hrun, Option.map_some, Option.some.injEq] at hplain
  simp [hplain] at hch

theorem rearm_inSync_memory :
    Along (Connection.step postEnv) Drains (Connection.connect (postHead ++ bytes "abcde"))
        memoryRun ∧
      Along (Connection.step postEnv) RearmInSync (Connection.connect (postHead ++ bytes "abcde"))
        memoryRun :=
  ⟨memoryRun_drains, rearm_inSync postEnv (postHead ++ bytes "abcde") memoryRun memoryRun_drains⟩

/-- The callbacks of a request that the handler `http_proxy` takes. -/
def proxyCallbacks : Callbacks := { handler := { isProxy := true }, connects := true }

/-- The backend lets all attempts time out before the client has sent the body, and the client
gets a `504`. -/
def gatewayTimeoutRun : List ConnEvent :=
  [.readHeaders 4096 postHead.length, .deliver proxyCallbacks] ++
    List.replicate 5 (.backend (.timeout true)) ++
    [.write ⟨0, true⟩ ⟨4096, true⟩ (some {
      data := errorPage [] (bytes "Gateway Timeout"), eof := true
      replies := ⟨⟨0, true⟩, ⟨4096, true⟩, ⟨0, true⟩⟩, ready := false })]

theorem gatewayTimeoutRun_complete : (run (Connection.step postEnv)
    (Connection.connect (postHead ++ bytes "abcde")) gatewayTimeoutRun).map (fun c =>
      ((c.closed, c.hsp.eventsPub, c.hsp.rearms),
        (c.hsp.req.chunkedEncoding, c.hsp.req.contentLength, c.taken))) =
    some ((false, [.requestComplete], true), (false, 5, [])) := by
  decide +kernel

/-- In this run the connection is armed again with nothing of the body taken. -/
theorem rearm_inside_body : ¬ Along (Connection.step postEnv) RearmInSync
    (Connection.connect (postHead ++ bytes "abcde"))
    (gatewayTimeoutRun ++ [.deliver proxyCallbacks]) := by
  intro h
  obtain ⟨c, hrun, heq⟩ := Option.map_eq_some_iff.mp gatewayTimeoutRun_complete
  simp only [Prod.mk.injEq] at heq
  obtain ⟨⟨hclosed, hevents, hrearms⟩, hch, hlen, htaken⟩ := heq
  have hstep : c.step postEnv (.deliver proxyCallbacks) =
      some { c with hsp.eventsPub := [] }.onRequestComplete := by
    simp [Connection.step, hclosed, Connection.deliver, hevents]
  have hsync := (h.of_run hrun _ hstep).1 ⟨⟨_, rfl⟩, by rw [hevents]; rfl, hrearms⟩
  have hbody := hsync (.sized (bytes "abcde") (by decide)) ⟨hch, by rw [hlen]; rfl⟩
  rw [htaken] at hbody
  simp [RequestBody.wire, show bytes "abcde" ≠ [] by decide] at hbody

end Nxweb
