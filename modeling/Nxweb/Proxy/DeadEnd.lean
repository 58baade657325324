import Nxweb.Proxy.Request

/-!
# No dead end for a proxied request

A client that waits for its proxied request is answered, or its connection is closed, as long as
something can still happen: the request is subscribed to a live backend connection, and the
backend timer is set unless the backend has asked for the body (`Pending`).

A new attempt may find no backend. `start_proxy_request` then prepares a `502` and reports an
error, which `nxweb_http_proxy_handler_on_headers` passes to a caller that sends it. On a retry
the error is ignored: the request is left without connection, subscription and timer.

A run avoids dead ends if and only if every retry finds a backend (`noDeadEnd_iff`). Here the
client side moves as its protocol does (`HspState.advances`), so that a retry never meets it in
the middle of a response.
-/

namespace Nxweb

open Lib

/-! ### The client side -/

/-- The changes of `hsp->state` between the headers of a request and its end that the protocol
makes on its own: the body, if there is one, is received, and later the body of the response is
sent. `start_sending_response` does the rest. -/
def HspState.advances : HspState → HspState → Bool
  | .receivingHeaders, .receivingBody => true
  | .receivingHeaders, .handling => true
  | .receivingBody, .handling => true
  | .sendingHeaders, .sendingBody => true
  | _, _ => false

/-- No response has been started in these states. -/
def HspState.Unanswered (state : HspState) : Prop :=
  state = .receivingHeaders ∨ state = .receivingBody ∨ state = .handling

theorem HspState.Unanswered.advances {state state' : HspState} (h : state.Unanswered)
    (hadv : state.advances state' = true) : state'.Unanswered := by
  rcases h with rfl | rfl | rfl <;> cases state' <;>
    simp_all [HspState.advances, HspState.Unanswered]

/-- One event of a proxied request whose client side follows its protocol. -/
def proxiedStep (env : ProxyEnv) (s : ProxyRequest) (e : ProxyEvent) : Option ProxyRequest :=
  match e with
  | .client state => if s.hspState.advances state then proxyStep env s e else none
  | _ => proxyStep env s e

theorem proxiedStep_cases {env : ProxyEnv} {s s' : ProxyRequest} {e : ProxyEvent}
    (hstep : proxiedStep env s e = some s') :
    ProxyTransition env s e s' ∧ ∀ state, e = .client state → s.hspState.advances state = true := by
  unfold proxiedStep at hstep
  split at hstep
  next state =>
    obtain ⟨hadv, hstep⟩ := Option.ite_none_right_eq_some.mp hstep
    refine ⟨proxyStep_cases hstep, fun state' heq => ?_⟩
    obtain rfl := ProxyEvent.client.inj heq
    exact hadv
  next hne => exact ⟨proxyStep_cases hstep, fun state heq => absurd heq (hne state)⟩

/-! ### Dead ends -/

/-- An attempt is under way: events of the backend connection are delivered, and the timer is set
or the backend has reacted. -/
def Pending (s : ProxyRequest) : Prop :=
  ∃ hpx, s.hpx = some hpx ∧ s.subscribed = true ∧
    (s.timerBackend = true ∨ hpx.reqBodySendingStarted = true)

/-- The client has been answered, or its connection is closed, or an attempt is under way. -/
def NoDeadEnd (s : ProxyRequest) : Prop :=
  0 < s.startCalls ∨ s.connFinalized = true ∨ Pending s

/-- The next attempt finds a backend. Events that try none do not care. -/
def ProxyEvent.connects : ProxyEvent → Bool
  | .message _ connects => connects
  | .timeout connects => connects
  | _ => true

/-- The event makes the request give up its attempt and try again: the timer expires, or an error
is reported, before the backend has reacted and before the last attempt. -/
def ProxyEvent.Retries (s : ProxyRequest) : ProxyEvent → Prop
  | .timeout _ =>
    s.responseSendingStarted = false ∧ s.retryCount < proxyRetryCount ∧ s.hpx = some ⟨false⟩
  | .message (.error _) _ =>
    s.proxyRequestComplete = false ∧ s.responseSendingStarted = false ∧
      s.retryCount < proxyRetryCount ∧ s.hpx = some ⟨false⟩
  | _ => False

/-- A transition on which a retry finds a backend. -/
def RetryConnects (s : ProxyRequest) (e : ProxyEvent) (_ : ProxyRequest) : Prop :=
  e.Retries s → e.connects = true

/-- The invariant: no dead end; while events can come the flag tells whether a response was
started; and without a response the client side is where a retry expects it. -/
structure Awaited (s : ProxyRequest) : Prop where
  noDeadEnd : NoDeadEnd s
  started_iff : s.subscribed = true ∨ s.timerBackend = true →
    (0 < s.startCalls ↔ s.responseSendingStarted = true)
  unanswered : s.startCalls = 0 → s.hspState.Unanswered

theorem Awaited.pending {s : ProxyRequest} (h : Awaited s) (hcalls : s.startCalls = 0)
    (hfin : s.connFinalized = false) : Pending s := by
  rcases h.noDeadEnd with hpos | hfin' | hpend
  · omega
  · simp [hfin] at hfin'
  · exact hpend

/-- After a response was started there is no dead end any more. -/
theorem Awaited.of_started {s : ProxyRequest} (hcalls : 0 < s.startCalls)
    (hflag : s.subscribed = true ∨ s.timerBackend = true → s.responseSendingStarted = true) :
    Awaited s where
  noDeadEnd := .inl hcalls
  started_iff hevents := ⟨fun _ => hflag hevents, fun _ => hcalls⟩
  unanswered hzero := absurd hzero (by omega)

/-- A finalized connection is no dead end. -/
theorem awaited_finalizeConnection {s : ProxyRequest} (h : Awaited s) :
    Awaited s.finalizeConnection where
  noDeadEnd := .inr (.inl rfl)
  started_iff := by simp [ProxyRequest.finalizeConnection]
  unanswered := h.unanswered

/-- Giving up answers the client or closes its connection. -/
theorem awaited_failProxyRequest (env : ProxyEnv) {s : ProxyRequest}
    (hstarted : s.responseSendingStarted = false) : Awaited (failProxyRequest env s) := by
  unfold failProxyRequest
  rw [if_neg (by simp [hstarted])]
  exact .of_started (Nat.succ_pos _) fun _ => rfl

/-- Trying again ends in a dead end exactly if no backend is found. -/
theorem noDeadEnd_retryProxyRequest (env : ProxyEnv) {s : ProxyRequest} (connects : Bool)
    (hcalls : s.startCalls = 0) (hfin : s.connFinalized = false)
    (hstate : s.hspState.Unanswered) :
    (NoDeadEnd (retryProxyRequest env s connects) ↔ connects = true) ∧
      (connects = true → Awaited (retryProxyRequest env s connects)) := by
  have hstate' : s.hspState = .receivingHeaders ∨ s.hspState = .receivingBody ∨
      s.hspState = .handling := hstate
  unfold retryProxyRequest
  rw [if_pos hstate']
  cases connects with
  | true =>
    have hawaited : Awaited (startProxyRequest env
        { s with subscribed := false, hpx := none, retryCount := s.retryCount + 1 } true).2 :=
      { noDeadEnd := .inr (.inr ⟨{}, rfl, rfl, .inl rfl⟩)
        started_iff := fun _ => by simp [startProxyRequest, hcalls]
        unanswered := fun _ => hstate }
    exact ⟨⟨fun _ => rfl, fun _ => hawaited.noDeadEnd⟩, fun _ => hawaited⟩
  | false =>
    -- the `502` stays in the response record, and nobody sends it
    simp [NoDeadEnd, Pending, startProxyRequest, hcalls, hfin]

/-! ### The events -/

variable {env : ProxyEnv} {s : ProxyRequest}

/-- An event that tries no new attempt has to keep the invariant. -/
theorem deadEnd_of_awaited {s' : ProxyRequest} {e : ProxyEvent} (hawaited : Awaited s')
    (hretry : ¬ e.Retries s) :
    (NoDeadEnd s' ↔ RetryConnects s e s') ∧ (NoDeadEnd s' → Awaited s') :=
  ⟨⟨fun _ h => absurd h hretry, fun _ => hawaited.noDeadEnd⟩, fun _ => hawaited⟩

/-- The end of an attempt to which the backend has not reacted: the last one fails, any other is
repeated. -/
theorem deadEnd_giveUp {s₀ s' : ProxyRequest} {e : ProxyEvent} {last : Prop} [Decidable last]
    (hcalls : s₀.startCalls = 0) (hfin : s₀.connFinalized = false)
    (hstarted : s₀.responseSendingStarted = false) (hstate : s₀.hspState.Unanswered)
    (hretries : e.Retries s ↔ ¬ last)
    (hs' : (if last then failProxyRequest env s₀ else retryProxyRequest env s₀ e.connects) = s') :
    (NoDeadEnd s' ↔ RetryConnects s e s') ∧ (NoDeadEnd s' → Awaited s') := by
  by_cases hlast : last
  · rw [if_pos hlast] at hs'
    subst hs'
    exact deadEnd_of_awaited (awaited_failProxyRequest env hstarted)
      fun h => hretries.mp h hlast
  · rw [if_neg hlast] at hs'
    subst hs'
    obtain ⟨hiff, hkeep⟩ := noDeadEnd_retryProxyRequest env e.connects hcalls hfin hstate
    refine ⟨hiff.trans ⟨fun hconnects _ => hconnects, fun hretry => ?_⟩,
      fun hno => hkeep (hiff.mp hno)⟩
    exact hretry (hretries.mpr hlast)

/-- The expiry of the backend timer. -/
theorem deadEnd_timeout (connects : Bool) (h : Awaited s) (hfin : s.connFinalized = false)
    (htimer : s.timerBackend = true) {s' : ProxyRequest}
    (hs' : timerBackendOnTimeout env { s with timerBackend := false } connects = s') :
    (NoDeadEnd s' ↔ RetryConnects s (.timeout connects) s') ∧ (NoDeadEnd s' → Awaited s') := by
  have hiff := h.started_iff (.inr htimer)
  unfold timerBackendOnTimeout at hs'
  by_cases hstarted : s.responseSendingStarted = true
  · -- once the client is answered the expiry changes nothing but the timer
    have hcalls := hiff.mpr hstarted
    refine deadEnd_of_awaited ?_ (by simp [ProxyEvent.Retries, hstarted])
    split at hs'
    next =>
      subst hs'
      exact .of_started hcalls fun _ => hstarted
    next =>
      rw [if_pos (.inr hstarted)] at hs'
      subst hs'
      exact .of_started hcalls fun _ => hstarted
  have hcalls : s.startCalls = 0 := Nat.eq_zero_of_not_pos fun hpos => hstarted (hiff.mp hpos)
  rw [Bool.not_eq_true] at hstarted
  obtain ⟨⟨started⟩, hhpx, hsub, -⟩ := h.pending hcalls hfin
  split at hs'
  next hnone => simp [hhpx] at hnone
  next hpx heq =>
    obtain rfl := Option.some.inj (hhpx.symm.trans heq)
    cases started with
    | true =>
      rw [if_pos (.inl rfl)] at hs'
      subst hs'
      refine deadEnd_of_awaited ⟨.inr (.inr ⟨_, hhpx, hsub, .inr rfl⟩), fun _ => hiff,
        h.unanswered⟩ ?_
      simp [ProxyEvent.Retries, hhpx]
    | false =>
      rw [if_neg (by simp [hstarted])] at hs'
      refine @deadEnd_giveUp env s { s with timerBackend := false } s' _ _ _ hcalls hfin hstarted
        (h.unanswered hcalls) ?_ hs'
      simp [ProxyEvent.Retries, hhpx, hstarted]

/-- An error of the backend connection. -/
theorem deadEnd_error (code : ℤ) (connects : Bool) (h : Awaited s)
    (hfin : s.connFinalized = false) (hsub : s.subscribed = true) {s' : ProxyRequest}
    (hs' : proxyEventsSubOnMessage env s (.error code) connects = s') :
    (NoDeadEnd s' ↔ RetryConnects s (.message (.error code) connects) s') ∧
      (NoDeadEnd s' → Awaited s') := by
  have hiff := h.started_iff (.inl hsub)
  simp only [proxyEventsSubOnMessage] at hs'
  by_cases hcomplete : s.proxyRequestComplete = true
  · rw [if_pos hcomplete] at hs'
    subst hs'
    exact deadEnd_of_awaited ⟨h.noDeadEnd, h.started_iff, h.unanswered⟩
      (by simp [ProxyEvent.Retries, hcomplete])
  rw [if_neg hcomplete] at hs'
  by_cases hstarted : s.responseSendingStarted = true
  · rw [if_pos hstarted, failProxyRequest, if_pos hstarted] at hs'
    subst hs'
    exact deadEnd_of_awaited (awaited_finalizeConnection ⟨h.noDeadEnd, h.started_iff, h.unanswered⟩)
      (by simp [ProxyEvent.Retries, hstarted])
  rw [if_neg hstarted] at hs'
  have hcalls : s.startCalls = 0 := Nat.eq_zero_of_not_pos fun hpos => hstarted (hiff.mp hpos)
  rw [Bool.not_eq_true] at hstarted hcomplete
  obtain ⟨⟨started⟩, hhpx, -, -⟩ := h.pending hcalls hfin
  split at hs'
  next hnone => simp [hhpx] at hnone
  next hpx heq =>
    obtain rfl := Option.some.inj (hhpx.symm.trans heq)
    refine @deadEnd_giveUp env s { s with proxyRequestError := true, timerBackend := false } s' _ _
      _ hcalls hfin hstarted (h.unanswered hcalls) ?_ hs'
    simp [ProxyEvent.Retries, hhpx, hstarted, hcomplete]

/-- A response of the backend answers the client. -/
theorem deadEnd_response (presp : HttpResponse) (now : ℤ) (connects : Bool) {s' : ProxyRequest}
    (hs' : proxyEventsSubOnMessage env s (.responseReceived presp now) connects = s') :
    (NoDeadEnd s' ↔ RetryConnects s (.message (.responseReceived presp now) connects) s') ∧
      (NoDeadEnd s' → Awaited s') := by
  subst hs'
  exact deadEnd_of_awaited (.of_started (Nat.succ_pos _) fun _ => rfl) id

/-- The backend asks for the body. -/
theorem awaited_bodySendingStarted (hpx : BackendConn) (h : Awaited s) :
    Awaited { s with hpx := some { hpx with reqBodySendingStarted := true } } := by
  refine ⟨?_, h.started_iff, h.unanswered⟩
  rcases h.noDeadEnd with hpos | hfin | ⟨hpx', -, hsub, -⟩
  · exact .inl hpos
  · exact .inr (.inl hfin)
  · exact .inr (.inr ⟨_, rfl, hsub, .inr rfl⟩)

/-- From a state with the invariant an event leads to no dead end exactly if a retry it makes
finds a backend, and then the invariant is kept. -/
theorem proxiedStep_deadEnd (env : ProxyEnv) (s : ProxyRequest) (e : ProxyEvent)
    (s' : ProxyRequest) (h : Awaited s) (hstep : proxiedStep env s e = some s') :
    (NoDeadEnd s' ↔ RetryConnects s e s') ∧ (NoDeadEnd s' → Awaited s') := by
  have hfin : s.connFinalized = false := by
    by_contra hfin
    cases e <;> simp [proxiedStep, proxyStep, hfin] at hstep
  obtain ⟨htrans, hadv⟩ := proxiedStep_cases hstep
  cases htrans with
  | response presp now connects hsub => exact deadEnd_response presp now connects rfl
  | complete connects hsub =>
    exact deadEnd_of_awaited ⟨h.noDeadEnd, h.started_iff, h.unanswered⟩ id
  | error code connects hsub => exact deadEnd_error code connects h hfin hsub rfl
  | timeout connects htimer => exact deadEnd_timeout connects h hfin htimer rfl
  | bodySendingStarted hpx hhpx => exact deadEnd_of_awaited (awaited_bodySendingStarted hpx h) id
  | client state =>
    refine deadEnd_of_awaited ⟨h.noDeadEnd, h.started_iff, fun hcalls => ?_⟩ id
    exact (h.unanswered hcalls).advances (hadv state rfl)
  | finalize => exact deadEnd_of_awaited (awaited_finalizeConnection h) id

/-- A request is begun in a state with the invariant: if no backend is found, the error is
answered at once. -/
theorem awaited_beginProxyRequest (env : ProxyEnv) {hspState : HspState}
    (hstate : hspState.Unanswered) (resp : HttpResponse) (pool : TimeDeltas) (connects : Bool) :
    Awaited (beginProxyRequest env hspState resp pool connects) := by
  cases connects with
  | true =>
    exact ⟨.inr (.inr ⟨{}, rfl, rfl, .inl rfl⟩), fun _ => by
      simp [beginProxyRequest, startProxyRequest], fun _ => hstate⟩
  | false =>
    refine .of_started ?_ ?_ <;>
      simp [beginProxyRequest, startProxyRequest, ProxyRequest.startSendingResponse]

/-- For every order of backend events and timer expiries, with every attempt free to find a
backend or not: no state of a proxied request is a dead end if and only if every retry finds a
backend. The state in which the request is begun is none. -/
theorem noDeadEnd_iff (env : ProxyEnv) {hspState : HspState} (hstate : hspState.Unanswered)
    (resp : HttpResponse) (pool : TimeDeltas) (connects : Bool) (es : List ProxyEvent) :
    NoDeadEnd (beginProxyRequest env hspState resp pool connects) ∧
      (Along (proxiedStep env) (fun _ _ s => NoDeadEnd s)
          (beginProxyRequest env hspState resp pool connects) es ↔
        Along (proxiedStep env) RetryConnects
          (beginProxyRequest env hspState resp pool connects) es) := by
  have hbegin := awaited_beginProxyRequest env hstate resp pool connects
  exact ⟨hbegin.noDeadEnd, along_iff (proxiedStep_deadEnd env) es hbegin⟩

/-- A server whose filters and protocol leave the response as it is. -/
def quietEnv : ProxyEnv := ⟨[], id⟩

/-- The first backend resets the connection, and no other is found. -/
def abandonedRun : List ProxyEvent := [.message (.error (-1)) false]

/-- The retry leaves the request without connection, subscription and timer, and no response was
started. -/
theorem noDeadEnd_abandoned :
    (run (proxiedStep quietEnv) (beginProxyRequest quietEnv .handling {} {} true)
        abandonedRun).map (fun s => (s.startCalls, s.connFinalized, s.hpx, s.timerBackend)) =
      some (0, false, none, false) ∧
    ¬ Along (proxiedStep quietEnv) (fun _ _ s => NoDeadEnd s)
      (beginProxyRequest quietEnv .handling {} {} true) abandonedRun := by
  refine ⟨by decide +kernel, fun h => ?_⟩
  obtain ⟨hno, -⟩ := h _ rfl
  revert hno
  simp [NoDeadEnd, Pending, proxyEventsSubOnMessage, retryProxyRequest, startProxyRequest,
    beginProxyRequest, proxyRetryCount]

/-- Two attempts time out, and the third one is answered. -/
theorem noDeadEnd_iff_answered :
    HspState.Unanswered .handling ∧
      (Along (proxiedStep quietEnv) (fun _ _ s => NoDeadEnd s)
          (beginProxyRequest quietEnv .handling {} {} true)
          [.timeout true, .timeout true, .message (.responseReceived {} 0) true] ↔
        Along (proxiedStep quietEnv) RetryConnects
          (beginProxyRequest quietEnv .handling {} {} true)
          [.timeout true, .timeout true, .message (.responseReceived {} 0) true]) :=
  ⟨.inr (.inr rfl), (noDeadEnd_iff quietEnv (.inr (.inr rfl)) {} {} true _).2⟩

end Nxweb
