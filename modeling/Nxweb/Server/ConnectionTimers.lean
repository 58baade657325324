import Nxweb.Lib.Machine
import Nxweb.Server.ConnectionSync

/-!
# The timers of a client connection

The protocol of a client connection has a keep-alive timer, a read timer and a write timer. Each
state goes with at most one of them, which is handed over whenever the state changes. An expired
timer is off, and its message waits for the event loop, which closes the connection then; until that
happens, everything else can still happen.

`Hsp.Timed` is the invariant. It holds of every object that the functions of the protocol leave
behind, because the two paths that could arm a timer out of turn are never taken: the socket is not
written without a response or an interim response, and nothing is written after a request is
complete.
-/

namespace Nxweb

open Lib

/-- The timers of the protocol. -/
inductive HspTimer where
  | keepAlive
  | read
  | write
  deriving DecidableEq, Repr

/-- Whether a timer is linked into its queue. -/
def Hsp.armed (hsp : Hsp) : HspTimer → Bool
  | .keepAlive => hsp.timerKeepAlive
  | .read => hsp.timerRead
  | .write => hsp.timerWrite

/-- The timer has expired. -/
def Hsp.expire (hsp : Hsp) : HspTimer → Hsp
  | .keepAlive => { hsp with timerKeepAlive := false }
  | .read => { hsp with timerRead := false }
  | .write => { hsp with timerWrite := false }

/-- A connection, with the timers whose message has been published. -/
structure TimedConnection where
  conn : Connection
  expired : HspTimer → Bool

/-- What happens on a connection, and what its timers do. -/
inductive TimedEvent where
  | conn (e : ConnEvent)
  /-- `timer_keep_alive_on_timeout`, `timer_read_on_timeout` or `timer_write_on_timeout`. -/
  | expire (t : HspTimer)

/-- One event. -/
def TimedConnection.step (env : ServerEnv) (s : TimedConnection) :
    TimedEvent → Option TimedConnection
  | .conn e => (s.conn.step env e).map fun conn => { s with conn }
  | .expire t =>
    if s.conn.closed = false ∧ s.conn.hsp.armed t then
      some {
        conn := { s.conn with hsp := s.conn.hsp.expire t }
        expired := Function.update s.expired t true }
    else none

/-- A connection that a client has just opened. -/
def TimedConnection.connect (incoming : List UInt8) : TimedConnection where
  conn := .connect incoming
  expired := fun _ => false

/-- The timer that goes with the state. No timer is needed when the request is complete. -/
def Hsp.dueTimer (hsp : Hsp) : Option HspTimer :=
  match hsp.state with
  | .waitingForRequest => some .keepAlive
  | .receivingHeaders | .receivingBody => some .read
  | .handling => none
  | .sendingHeaders | .sendingBody =>
    if .requestComplete ∈ hsp.eventsPub then none else some .write

/-- No response has been started, and the interim response has not been written completely. -/
def Hsp.Interim (hsp : Hsp) : Prop :=
  (hsp.state = .receivingBody ∨ hsp.state = .handling) ∧ hsp.req.sending100Continue = true ∧
    ∃ c cs, hsp.respHeadersPtr = some (c :: cs)

/-- What holds between two callbacks. -/
structure Hsp.Timed (expired : HspTimer → Bool) (hsp : Hsp) : Prop where
  fault : hsp.timerFault = false
  armed : ∀ t, hsp.armed t = true → hsp.dueTimer = some t
  due : ∀ t, hsp.dueTimer = some t → hsp.armed t = true ∨ expired t = true
  complete : .requestComplete ∈ hsp.eventsPub → hsp.Done
  dataOut : hsp.dataOutReady = true → hsp.state.Sending ∨ hsp.Interim
  paired : hsp.respBodyInPaired = true → hsp.state.Sending

/-- A change that does not concern the timers. -/
structure Hsp.SameTimers (hsp hsp' : Hsp) : Prop where
  armed_eq : ∀ t, hsp'.armed t = hsp.armed t
  fault_eq : hsp'.timerFault = hsp.timerFault
  state_eq : hsp'.state = hsp.state
  events_eq : hsp'.eventsPub = hsp.eventsPub
  dataOut : hsp'.dataOutReady = true → hsp.dataOutReady = true
  paired_eq : hsp'.respBodyInPaired = hsp.respBodyInPaired
  interim : hsp.Interim → hsp'.Interim

variable {env : ServerEnv} {expired : HspTimer → Bool} {hsp hsp' : Hsp}

section Protocol

theorem Hsp.SameTimers.dueTimer_eq (h : hsp.SameTimers hsp') : hsp'.dueTimer = hsp.dueTimer := by
  rw [Hsp.dueTimer, Hsp.dueTimer, h.state_eq, h.events_eq]

theorem Hsp.Timed.still (h : hsp.Timed expired) (hsame : hsp.SameTimers hsp') :
    hsp'.Timed expired where
  fault := hsame.fault_eq.trans h.fault
  armed t ht := by
    rw [hsame.dueTimer_eq]
    exact h.armed t (hsame.armed_eq t ▸ ht)
  due t ht := by
    rw [hsame.armed_eq t]
    exact h.due t (hsame.dueTimer_eq ▸ ht)
  complete hmem := by
    obtain ⟨hsend, hout, hpair, hlast⟩ := h.complete (hsame.events_eq ▸ hmem)
    refine ⟨hsame.state_eq ▸ hsend, ?_, hsame.paired_eq.trans hpair, hsame.events_eq ▸ hlast⟩
    by_contra hready
    rw [hsame.dataOut (by simpa using hready)] at hout
    cases hout
  dataOut hready := by
    rw [hsame.state_eq]
    exact (h.dataOut (hsame.dataOut hready)).imp_right hsame.interim
  paired hpair := hsame.state_eq ▸ h.paired (hsame.paired_eq ▸ hpair)

/-- Only the timer of the state can be on. -/
theorem Hsp.Timed.off (h : hsp.Timed expired) (t : HspTimer) (ht : hsp.dueTimer ≠ some t) :
    hsp.armed t = false := by
  by_contra hon
  exact ht (h.armed t (by simpa using hon))

theorem Hsp.dueTimer_of_canStart (h : hsp.state.CanStart) : hsp.dueTimer ≠ some .write := by
  rcases h with h | h | h <;> simp [Hsp.dueTimer, h]

theorem Hsp.dueTimer_of_sending (h : hsp.state.Sending)
    (hopen : .requestComplete ∉ hsp.eventsPub) : hsp.dueTimer = some .write := by
  rcases h with h | h <;> simp [Hsp.dueTimer, h, hopen]

theorem HspState.Sending.not_canStart {st : HspState} (h : st.Sending) : ¬ st.CanStart := by
  rcases h with h | h <;> simp [HspState.CanStart, h]

/-- A response is started while the write timer and the keep-alive timer are off. -/
theorem Hsp.timed_of_start {resp : HttpResponse} (hst : hsp.state.CanStart)
    (hfault : hsp.timerFault = false) (hkeep : hsp.timerKeepAlive = false)
    (hwrite : hsp.timerWrite = false) (hopen : .requestComplete ∉ hsp.eventsPub)
    (hs : hsp.startSendingResponse env resp = some hsp') : hsp'.Timed expired := by
  have htimers : hsp'.timerKeepAlive = false ∧ hsp'.timerRead = false ∧ hsp'.timerWrite = true ∧
      hsp'.timerFault = false := by
    have hst' : hsp.state = .receivingHeaders ∨ hsp.state = .receivingBody ∨
        hsp.state = .handling := hst
    unfold Hsp.startSendingResponse at hs
    rw [if_pos hst'] at hs
    by_cases hchunked : resp.chunkedAutoencode = true ∧ resp.contentLength ≠ -1
    · rw [if_pos hchunked] at hs
      cases hs
    · rw [if_neg hchunked] at hs
      obtain rfl := Option.some.inj hs
      dsimp only
      split_ifs <;> simp [hkeep, hwrite, hfault]
  obtain ⟨hkeep', hread', hwrite', hfault'⟩ := htimers
  obtain ⟨-, hstart⟩ | ⟨hnot, -⟩ := startSendingResponse_spec hs
  · have hsend : hsp'.state.Sending := .inl hstart.state_eq
    have hopen' : .requestComplete ∉ hsp'.eventsPub := hstart.events_eq ▸ hopen
    have hdue := Hsp.dueTimer_of_sending hsend hopen'
    refine ⟨hfault', fun t ht => ?_, fun t ht => ?_, fun hmem => absurd hmem hopen',
      fun _ => .inl hsend, fun _ => hsend⟩
    · cases t with
      | keepAlive => simp [Hsp.armed, hkeep'] at ht
      | read => simp [Hsp.armed, hread'] at ht
      | write => exact hdue
    · obtain rfl := Option.some.inj (hdue.symm.trans ht)
      exact .inl hwrite'
  · exact absurd hst hnot

theorem Hsp.Timed.open_of_canStart (h : hsp.Timed expired) (hst : hsp.state.CanStart) :
    .requestComplete ∉ hsp.eventsPub :=
  fun hmem => (h.complete hmem).sending.not_canStart hst

theorem Hsp.Timed.startSendingResponse {resp : HttpResponse} (h : hsp.Timed expired)
    (hs : hsp.startSendingResponse env resp = some hsp') : hsp'.Timed expired := by
  by_cases hst : hsp.state.CanStart
  · have hkeep : hsp.dueTimer ≠ some .keepAlive := by
      rcases hst with hst | hst | hst <;> simp [Hsp.dueTimer, hst]
    exact Hsp.timed_of_start hst h.fault (h.off _ hkeep) (h.off _ (Hsp.dueTimer_of_canStart hst))
      (h.open_of_canStart hst) hs
  · obtain ⟨hcan, -⟩ | ⟨-, rfl⟩ := startSendingResponse_spec hs
    · exact absurd hcan hst
    · exact h

/-- Nothing is written before a request is there. -/
theorem Hsp.Timed.dataOut_closed (h : hsp.Timed expired)
    (hst : hsp.state = .waitingForRequest ∨ hsp.state = .receivingHeaders) :
    hsp.dataOutReady = false := by
  by_contra hready
  rcases h.dataOut (by simpa using hready) with hs | hs
  · rcases hs with hs | hs <;> simp [hs] at hst
  · rcases hs.1 with hs | hs <;> simp [hs] at hst

/-- The first bytes of a request. -/
theorem Hsp.Timed.collectHeaders (data : List UInt8) (h : hsp.Timed expired)
    (hst : hsp.state = .waitingForRequest ∨ hsp.state = .receivingHeaders) :
    (hsp.collectHeaders data).Timed expired ∧
      (hsp.collectHeaders data).state = .receivingHeaders := by
  have hclosed := h.dataOut_closed hst
  unfold Hsp.collectHeaders
  split_ifs with hwait
  · have hread : hsp.timerRead = false := h.off .read (by simp [Hsp.dueTimer, hwait])
    have hwrite : hsp.timerWrite = false := h.off .write (by simp [Hsp.dueTimer, hwait])
    refine ⟨⟨by simp [h.fault, hread], fun t ht => ?_, fun t ht => .inl ?_, fun hmem => ?_,
      fun hready => ?_, fun hpair => ?_⟩, rfl⟩
    · cases t with
      | keepAlive => simp [Hsp.armed] at ht
      | read => rfl
      | write => simp [Hsp.armed, hwrite] at ht
    · obtain rfl := Option.some.inj ht
      rfl
    · rcases (h.complete hmem).sending with hs | hs <;> simp [hs] at hwait
    · exact absurd hready (by simp [hclosed])
    · rcases h.paired hpair with hs | hs <;> simp [hs] at hwait
  · refine ⟨h.still ⟨fun t => by cases t <;> rfl, rfl, rfl, rfl, id, rfl, id⟩, ?_⟩
    exact hst.resolve_left hwait

/-- A request is handed on, with its body pending or not. -/
theorem Hsp.Timed.requestReceived (req : HttpRequest) (rest : List UInt8) (h : hsp.Timed expired)
    (hst : hsp.state = .receivingHeaders) : (hsp.requestReceived req rest).Timed expired := by
  have hclosed := h.dataOut_closed (.inr hst)
  have hfields : (hsp.requestReceived req rest).timerFault = false ∧
      (hsp.requestReceived req rest).timerKeepAlive = false ∧
      (hsp.requestReceived req rest).timerWrite = false ∧
      (hsp.requestReceived req rest).eventsPub = hsp.eventsPub ++ [.requestReceived] ∧
      (hsp.requestReceived req rest).respBodyInPaired = hsp.respBodyInPaired ∧
      ((hsp.requestReceived req rest).state = .receivingBody ∧
          (hsp.requestReceived req rest).timerRead = hsp.timerRead ∨
        (hsp.requestReceived req rest).state = .handling ∧
          (hsp.requestReceived req rest).timerRead = false) ∧
      ((hsp.requestReceived req rest).dataOutReady = true →
        (hsp.requestReceived req rest).req.sending100Continue = true ∧
          (hsp.requestReceived req rest).respHeadersPtr = some response100Continue) := by
    have hkeep : hsp.timerKeepAlive = false := h.off .keepAlive (by simp [Hsp.dueTimer, hst])
    have hwrite : hsp.timerWrite = false := h.off .write (by simp [Hsp.dueTimer, hst])
    unfold Hsp.requestReceived
    split_ifs <;> simp [Hsp.publish, h.fault, hkeep, hwrite, hclosed]
  generalize hsp.requestReceived req rest = r at hfields ⊢
  obtain ⟨hfault, hkeep, hwrite, hevents, hpaired, hstate, hout⟩ := hfields
  have hopen : .requestComplete ∉ r.eventsPub := by
    have := h.open_of_canStart (.inl hst)
    simp [hevents, this]
  have hinterim : r.dataOutReady = true → r.Interim := fun hready =>
    ⟨hstate.imp And.left And.left, (hout hready).1, _, _, (hout hready).2⟩
  have hunpaired : r.respBodyInPaired = true → r.state.Sending := fun hpair => by
    rcases h.paired (hpaired ▸ hpair) with hs | hs <;> simp [hs] at hst
  refine ⟨hfault, fun t ht => ?_, fun t ht => ?_, fun hmem => absurd hmem hopen,
    fun hready => .inr (hinterim hready), hunpaired⟩
  · cases t with
    | keepAlive => simp [Hsp.armed, hkeep] at ht
    | write => simp [Hsp.armed, hwrite] at ht
    | read =>
      rcases hstate with ⟨hs, -⟩ | ⟨-, hread⟩
      · simp [Hsp.dueTimer, hs]
      · simp [Hsp.armed, hread] at ht
  · rcases hstate with ⟨hs, hread⟩ | ⟨hs, -⟩
    · obtain rfl : t = .read := by simpa [Hsp.dueTimer, hs, eq_comm] using ht
      rw [show r.armed .read = hsp.timerRead from hread]
      exact h.due .read (by simp [Hsp.dueTimer, hst])
    · simp [Hsp.dueTimer, hs] at ht

/-- A read of the body is under way: all timers are off. -/
structure Hsp.Reading (hsp : Hsp) : Prop where
  state_eq : hsp.state = .receivingBody
  fault : hsp.timerFault = false
  off : ∀ t, hsp.armed t = false
  quiet : .requestComplete ∉ hsp.eventsPub
  dataOut : hsp.dataOutReady = true → hsp.Interim
  unpaired : hsp.respBodyInPaired = false

theorem receiveBody_sending100 {req req' : HttpRequest} {raw data : List UInt8} {err : Bool}
    (h : req.receiveBody raw = some (data, req', err)) :
    req'.sending100Continue = req.sending100Continue := by
  cases hch : req.chunkedEncoding with
  | false =>
    rw [receiveBody_plain hch] at h
    obtain ⟨rfl, rfl, rfl⟩ := h
    rfl
  | true =>
    simp only [HttpRequest.receiveBody, if_pos hch] at h
    obtain ⟨r, -, hret⟩ := Option.bind_eq_some_iff.mp h
    obtain ⟨rfl, rfl, rfl⟩ := hret
    rfl

theorem Hsp.Reading.receiveBody {raw data : List UInt8} (h : hsp.Reading)
    (hr : hsp.receiveBody raw = some (data, hsp')) : hsp'.Reading := by
  obtain ⟨req, err, hreq, rfl⟩ := receiveBody_cases hr
  refine ⟨h.state_eq, h.fault, fun t => ?_, ?_, fun hready => ?_, h.unpaired⟩
  · have := h.off t
    cases t <;> exact this
  · have := h.quiet
    cases err <;> simp [encodingError, this]
  · obtain ⟨hst, h100, hptr⟩ := h.dataOut hready
    exact ⟨hst, (receiveBody_sending100 hreq).trans h100, hptr⟩

/-- The body goes on: the read timer is set again. -/
theorem Hsp.Reading.setTimerRead (h : hsp.Reading) : hsp.setTimerRead.Timed expired := by
  have hdue : hsp.setTimerRead.dueTimer = some .read := by simp [Hsp.dueTimer, h.state_eq]
  refine ⟨?_, fun t ht => ?_, fun t ht => .inl ?_, fun hmem => absurd hmem h.quiet,
    fun hready => .inr (h.dataOut hready), fun hpair => ?_⟩
  · have hread : hsp.timerRead = false := h.off .read
    simp [h.fault, hread]
  · cases t with
    | keepAlive =>
      have hkeep : hsp.timerKeepAlive = false := h.off .keepAlive
      simp [Hsp.armed, hkeep] at ht
    | read => exact hdue
    | write =>
      have hwrite : hsp.timerWrite = false := h.off .write
      simp [Hsp.armed, hwrite] at ht
  · obtain rfl := Option.some.inj (hdue.symm.trans ht)
    rfl
  · simp [h.unpaired] at hpair

/-- The body is complete: no timer is needed. -/
theorem Hsp.Reading.bodyReceived (h : hsp.Reading) : hsp.bodyReceived.Timed expired := by
  have hquiet : .requestComplete ∉ hsp.bodyReceived.eventsPub := by
    have := h.quiet
    simp [Hsp.bodyReceived, Hsp.publish, this]
  refine ⟨h.fault, fun t ht => ?_, fun t ht => ?_, fun hmem => absurd hmem hquiet,
    fun hready => .inr ?_, fun hpair => ?_⟩
  · have hoff : hsp.bodyReceived.armed t = hsp.armed t := by cases t <;> rfl
    rw [hoff, h.off t] at ht
    cases ht
  · simp [Hsp.dueTimer, Hsp.bodyReceived] at ht
  · obtain ⟨-, h100, hptr⟩ := h.dataOut hready
    exact ⟨.inr rfl, h100, hptr⟩
  · exact absurd hpair (by simpa [Hsp.bodyReceived, Hsp.publish] using h.unpaired)

theorem Hsp.Reading.readBodyFromSocket {sock : Option Socket} {data : List UInt8} {size avail : ℕ}
    {r : BodyRead} (h : hsp.Reading)
    (hr : hsp.readBodyFromSocket sock data size avail = some r) : r.hsp.Timed expired := by
  have hchange : ∀ hin hout, Hsp.Reading { hsp with dataInReady := hin, reqBodyOutReady := hout } :=
    fun hin hout => ⟨h.state_eq, h.fault, fun t => by
      have := h.off t
      cases t <;> exact this, h.quiet, h.dataOut, h.unpaired⟩
  unfold Hsp.readBodyFromSocket at hr
  split_ifs at hr
  · cases sock with
    | none =>
      obtain rfl := Option.some.inj hr
      exact (hchange hsp.dataInReady false).setTimerRead
    | some sock =>
      obtain ⟨⟨data₂, hsp₂⟩, hrecv, hr⟩ := Option.bind_eq_some_iff.mp hr
      have h₂ : hsp₂.Reading := by
        refine Hsp.Reading.receiveBody ?_ hrecv
        split_ifs
        · exact h
        · exact hchange true false
      dsimp only at hr
      split_ifs at hr
      · obtain rfl := Option.some.inj hr
        exact h₂.bodyReceived
      · obtain rfl := Option.some.inj hr
        exact h₂.setTimerRead
  · obtain rfl := Option.some.inj hr
    exact h.setTimerRead

/-- A read of the body. -/
theorem Hsp.Timed.reqBodyOutRead {sock : Option Socket} {size avail : ℕ} {r : BodyRead}
    (h : hsp.Timed expired) (hr : hsp.reqBodyOutRead sock size avail = some r) :
    r.hsp.Timed expired := by
  have hidle : ∀ hin hout,
      Hsp.Timed expired { hsp with dataInReady := hin, reqBodyOutReady := hout } :=
    fun hin hout => h.still ⟨fun t => by cases t <;> rfl, rfl, rfl, rfl, id, rfl, id⟩
  unfold Hsp.reqBodyOutRead at hr
  split at hr
  next =>
    obtain rfl := Option.some.inj hr
    exact hidle hsp.dataInReady false
  next hst =>
    have h₀ : Hsp.Reading { hsp with timerRead := false } := by
      have hopen := h.open_of_canStart (.inr (.inl hst))
      refine ⟨hst, h.fault, fun t => ?_, hopen, fun hready => ?_, ?_⟩
      · cases t with
        | keepAlive => exact h.off .keepAlive (by simp [Hsp.dueTimer, hst])
        | read => rfl
        | write => exact h.off .write (by simp [Hsp.dueTimer, hst])
      · refine (h.dataOut hready).resolve_left ?_
        rintro (hs | hs) <;> simp [hst] at hs
      · by_contra hpair
        rcases h.paired (by simpa using hpair) with hs | hs <;> simp [hst] at hs
    by_cases hchunk : hsp.firstBodyChunk = []
    · rw [if_neg (not_not.mpr hchunk)] at hr
      exact h₀.readBodyFromSocket hr
    · rw [if_pos hchunk] at hr
      obtain ⟨⟨data, hsp₁⟩, hrecv, hr⟩ := Option.bind_eq_some_iff.mp hr
      have h₁ : hsp₁.Reading := by
        refine Hsp.Reading.receiveBody ?_ hrecv
        exact ⟨h₀.state_eq, h₀.fault, h₀.off, h₀.quiet, h₀.dataOut, h₀.unpaired⟩
      dsimp only at hr
      split_ifs at hr
      · obtain rfl := Option.some.inj hr
        exact h₁.bodyReceived
      · exact h₁.readBodyFromSocket hr
  next =>
    obtain rfl := Option.some.inj hr
    exact hidle true false

end Protocol

end Nxweb
