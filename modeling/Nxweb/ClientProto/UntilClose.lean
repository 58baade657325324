import Nxweb.ClientProto.Delivery

/-!
# Responses that end with the connection

A response without a length ends when the backend closes the connection. The close is reported to
`data_error_on_message`, which marks the body as complete, and the next read signals its end: after
a part of the first chunk if there is one, and otherwise after one read from the socket. What is
left behind is lost.

All bytes are delivered before the end is signalled if and only if every read that comes after the
report takes all that is left (`delivery_complete_iff`). The additional invariant is `CloseInv`:
after the close the socket stays ready as long as bytes are left.
-/

namespace Nxweb

open Lib

/-- Of a body without a length, a part from its beginning on has been delivered, and all bytes of
the backend once its end was signalled. -/
def CompleteAtEof (stream : List UInt8) (s : Delivery) : Prop :=
  s.Responding → s.hcp.resp.UntilClose →
    s.delivered <+: bytesAfterHeaders stream ∧
      (s.eof = true → s.delivered = bytesAfterHeaders stream)

/-- A read after the report of the close takes all that is left. -/
def TakesRest (s : Delivery) : DeliveryEvent → Prop
  | .read size _ =>
    s.hcp.state = .receivingBody → s.hcp.resp.UntilClose → s.hcp.responseBodyComplete = true →
      match s.hcp.firstBodyChunk with
      | some chunk => chunk.length ≤ size ∧ s.sock.incoming = []
      | none => 0 < size → s.sock.incoming.length ≤ size
  | _ => True

/-! ### After the close -/

/-- What holds when the backend has closed the connection. -/
structure Delivery.CloseInv (s : Delivery) : Prop where
  ready : s.closed = true → s.sock.incoming ≠ [] → s.sock.ready = true
  reported : s.hcp.responseBodyComplete = true →
    s.closed = true ∨ s.Responding ∧ ¬ s.hcp.resp.UntilClose

/-- A socket at which everything has arrived is read until it is empty before it gets unready. -/
theorem Socket.dataRecvRead_ready {sock : Socket} (h : sock.incoming ≠ [] → sock.ready = true)
    (size : ℕ) (hne : (sock.dataRecvRead size sock.incoming.length).2.incoming ≠ []) :
    (sock.dataRecvRead size sock.incoming.length).2.ready = true := by
  rw [Socket.dataRecvRead_incoming, ne_eq, List.drop_eq_nil_iff, not_le] at hne
  have hready : sock.ready = true := by
    refine h fun hnil => ?_
    rw [hnil] at hne
    simp at hne
  unfold Socket.dataRecvRead
  split_ifs with hsize
  · simp only [hready, Bool.true_and, beq_iff_eq, List.length_take]
    omega
  · exact hready

theorem Socket.readIfReady_ready {sock : Socket} (h : sock.incoming ≠ [] → sock.ready = true)
    (size : ℕ) (hne : (sock.readIfReady size sock.incoming.length).2.incoming ≠ []) :
    (sock.readIfReady size sock.incoming.length).2.ready = true := by
  unfold Socket.readIfReady at hne ⊢
  split_ifs with hready
  · rw [if_pos hready] at hne
    exact Socket.dataRecvRead_ready h size hne
  · rw [if_neg hready] at hne
    exact absurd (h hne) hready

theorem Delivery.CloseInv.headers {env : ClientEnv} {stream : List UInt8} {s s' : Delivery}
    {room avail : ℕ} (hinv : s.Inv stream) (hclose : s.CloseInv)
    (hstep : s.step env (.headers room avail) = some s') : s'.CloseInv := by
  simp only [Delivery.step] at hstep
  obtain ⟨⟨hst, -⟩, hstep⟩ := Option.ite_none_right_eq_some.mp hstep
  obtain ⟨⟨hcp', sock'⟩, hread, rfl⟩ := Option.map_eq_some_iff.mp hstep
  have hmore := hinv.not_complete (by rcases hst with h | h <;> simp [h])
  obtain ⟨h100, -⟩ := hinv.headers hst
  -- no response is under way, so only the close can have completed the body
  have hreported : s.hcp.responseBodyComplete = true → s.closed = true := by
    intro hbody
    rcases hclose.reported hbody with hclosed | ⟨hresp, -⟩
    · exact hclosed
    · rcases hresp with h | h
      · rw [h] at hst
        simp at hst
      · rw [hmore] at h
        cases h
  obtain ⟨rfl, hcases⟩ := hcp_dataInReadHeaders_cases hread
  obtain ⟨hopen, -, -, hcont, hbody⟩ := openHeaders_spec hst
  refine ⟨fun hclosed hne => ?_, fun hcomplete => ?_⟩
  · have hall : s.arrivedBytes avail = s.sock.incoming.length := if_pos hclosed
    rw [hall] at hne ⊢
    exact Socket.dataRecvRead_ready (hclose.ready hclosed) room hne
  · cases hcases with
    | pending => exact .inl (hreported (hbody.symm.trans hcomplete))
    | bad _ _ _ _ hbody' => exact .inl (hreported ((hbody'.trans hbody).symm.trans hcomplete))
    | received hfind hparse hrecv =>
      obtain ⟨hstate, -, hresp, -, hdone⟩ := headersReceived_fresh (hcont.trans h100) hrecv
      rcases hdone hcomplete with h | h
      · exact .inl (hreported (hbody.symm.trans h))
      · refine .inr ⟨.inl hstate, fun huntil => h ?_⟩
        rw [hresp] at huntil
        exact huntil

theorem Delivery.CloseInv.read {env : ClientEnv} {stream : List UInt8} {s s' : Delivery}
    {size avail : ℕ} (hinv : s.Inv stream) (hclose : s.CloseInv)
    (hstep : s.step env (.read size avail) = some s') : s'.CloseInv := by
  obtain ⟨r, hr, rfl⟩ := Option.map_eq_some_iff.mp hstep
  refine ⟨fun hclosed hne => ?_, fun hcomplete => ?_⟩
  · have hall : s.arrivedBytes avail = s.sock.incoming.length := if_pos hclosed
    rw [hall] at hr
    have hne' : r.sock.incoming ≠ [] := hne
    show r.sock.ready = true
    rcases respBodyOutRead_sock hr with hsock | ⟨n, hsock⟩
    · rw [hsock] at hne' ⊢
      exact hclose.ready hclosed hne'
    · rw [hsock] at hne' ⊢
      exact Socket.readIfReady_ready (hclose.ready hclosed) n hne'
  · by_cases hst : s.hcp.state = .receivingBody
    · obtain ⟨⟨hch, hlen, hdone⟩, hmore, hends⟩ :=
        respBodyOutRead_phase hst (hinv.not_complete (by simp [hst])) hr
      have hresp : (s.afterRead r).Responding := by
        cases he : r.eof with
        | true => exact .inr (hends he).2
        | false => exact .inl ((hmore he).1.trans hst)
      have huntil : (s.afterRead r).hcp.resp.UntilClose → s.hcp.resp.UntilClose :=
        fun h => ⟨hch.symm.trans h.1, hlen ▸ h.2⟩
      rcases hdone hcomplete with hbody | hlength
      · rcases hclose.reported hbody with hclosed | ⟨-, hnot⟩
        · exact .inl hclosed
        · exact .inr ⟨hresp, fun h => hnot (huntil h)⟩
      · exact .inr ⟨hresp, fun h => hlength (huntil h)⟩
    · obtain ⟨r', hr', -, -, -, hhcp⟩ :=
        respBodyOutRead_idle hst s.sock size (s.arrivedBytes avail)
      obtain rfl := Option.some.inj (hr'.symm.trans hr)
      have hcomplete' : r'.hcp.responseBodyComplete = true := hcomplete
      rw [hhcp] at hcomplete'
      rcases hclose.reported hcomplete' with hclosed | ⟨hresp, hnot⟩
      · exact .inl hclosed
      · refine .inr ⟨?_, ?_⟩
        · show r'.hcp.state = .receivingBody ∨ r'.hcp.requestComplete = true
          rw [hhcp]
          exact hresp
        · show ¬ r'.hcp.resp.UntilClose
          rw [hhcp]
          exact hnot

theorem delivery_closeInv {env : ClientEnv} {stream : List UInt8} {s s' : Delivery}
    {e : DeliveryEvent} (hinv : s.Inv stream) (hclose : s.CloseInv)
    (hstep : s.step env e = some s') : s'.CloseInv := by
  cases e with
  | arrival =>
    obtain rfl := Option.some.inj hstep
    exact ⟨fun _ _ => rfl, hclose.reported⟩
  | close =>
    obtain rfl := Option.some.inj hstep
    exact ⟨fun _ _ => rfl, fun _ => .inl rfl⟩
  | notify code =>
    obtain ⟨hguard, hstep⟩ := Option.ite_none_right_eq_some.mp hstep
    obtain rfl := Option.some.inj hstep
    refine ⟨hclose.ready, ?_⟩
    unfold Hcp.dataErrorOnMessage
    split_ifs with hhup
    · intro _
      rcases hguard with hclosed | ⟨h₁, h₂, h₃⟩
      · exact .inl hclosed
      · rcases hhup.1 with h | h | h
        · exact absurd h h₁
        · exact absurd h h₂
        · exact absurd h h₃
    · exact hclose.reported
    · exact hclose.reported
  | headers room avail => exact .headers hinv hclose hstep
  | read size avail => exact .read hinv hclose hstep

/-! ### The reads -/

/-- After the report of the close a read signals the end, unless it asks for nothing. -/
theorem UntilClose.signalsEof_iff {hcp : Hcp} (huntil : hcp.resp.UntilClose) (sock : Socket)
    (size avail : ℕ) :
    hcp.SignalsEof sock size avail ↔
      hcp.responseBodyComplete = true ∧ (hcp.firstBodyChunk = none → 0 < size) := by
  have hneg : ¬ 0 ≤ hcp.resp.contentLength := by
    have := huntil.2
    omega
  cases hchunk : hcp.firstBodyChunk with
  | none =>
    simp [Hcp.SignalsEof, Hcp.endsWithChunk, Hcp.firstPart, hchunk, hneg, and_comm]
  | some chunk =>
    simp only [Hcp.SignalsEof, Hcp.endsWithChunk, hchunk, Option.isSome_some, Bool.true_and, hneg,
      and_false, or_false, reduceCtorEq, false_implies, and_true]
    exact ⟨fun h => h.elim id And.right, .inl⟩

/-- What the last read takes is all that is left. -/
theorem takesRest_iff {s : Delivery} {stream : List UInt8} {size avail : ℕ} {r : RespRead}
    (hinv : s.Inv stream) (hclose : s.CloseInv) (hst : s.hcp.state = .receivingBody)
    (huntil : s.hcp.resp.UntilClose)
    (hread : PlainRead s.hcp s.sock size (s.arrivedBytes avail) r) :
    (s.hcp.SignalsEof s.sock size (s.arrivedBytes avail) →
        s.delivered ++ r.data = bytesAfterHeaders stream) ↔
      (s.hcp.responseBodyComplete = true →
        match s.hcp.firstBodyChunk with
        | some chunk => chunk.length ≤ size ∧ s.sock.incoming = []
        | none => 0 < size → s.sock.incoming.length ≤ size) := by
  obtain ⟨hbytes, -⟩ := hinv.body hst huntil.1
  rw [UntilClose.signalsEof_iff huntil, ← hbytes, List.append_assoc, List.append_cancel_left_eq,
    and_imp]
  refine forall_congr' fun hbody => ?_
  cases hchunk : s.hcp.firstBodyChunk with
  | none =>
    simp only [true_implies, Option.getD_none, List.nil_append]
    refine forall_congr' fun _ => ?_
    -- the response has no length, so the close was reported and everything has arrived
    have hclosed : s.closed = true :=
      (hclose.reported hbody).resolve_right fun h => h.2 huntil
    have hall : s.arrivedBytes avail = s.sock.incoming.length := if_pos hclosed
    have harrived : s.sock.arrived (s.arrivedBytes avail) = s.sock.incoming := by
      unfold Socket.arrived
      rw [hall]
      split_ifs with hready
      · exact List.take_length
      · by_contra hne
        exact hready (hclose.ready hclosed (Ne.symm hne))
    have hdata : r.data = s.sock.incoming.take size := by
      rw [hread.data_eq, Hcp.readPart, Hcp.secondPart, harrived]
      simp [Hcp.firstPart, Hcp.endsWithChunk, hchunk]
    rw [hdata, List.take_eq_self_iff]
  | some chunk =>
    simp only [reduceCtorEq, false_implies, true_implies, Option.getD_some]
    have hdata : r.data = chunk.take size := by
      rw [hread.data_eq, Hcp.readPart, Hcp.secondPart]
      simp [Hcp.firstPart, Hcp.endsWithChunk, hchunk, hbody]
    rw [hdata]
    constructor
    · intro heq
      have hlen := congrArg List.length heq
      rw [List.length_take, List.length_append] at hlen
      exact ⟨by omega, List.eq_nil_of_length_eq_zero (by omega)⟩
    · rintro ⟨hle, hnil⟩
      rw [hnil, List.append_nil, List.take_of_length_le hle]

theorem completeAtEof_iff_holds (stream : List UInt8) (s : Delivery) :
    CompleteAtEof stream s ↔ s.Holds fun resp delivered eof => resp.contentLength < 0 →
      delivered <+: bytesAfterHeaders stream ∧
        (eof = true → delivered = bytesAfterHeaders stream) := by
  simp only [CompleteAtEof, Delivery.Holds, HttpResponse.UntilClose, and_imp]

/-- The invariant with which the events are compared. -/
structure Delivery.CompleteInv (stream : List UInt8) (s : Delivery) : Prop where
  inv : s.Inv stream
  close : s.CloseInv
  complete : CompleteAtEof stream s

/-- One event loses bytes if and only if it is a read that ends the body too early. -/
theorem complete_step {env : ClientEnv} {stream : List UInt8} (s : Delivery) (e : DeliveryEvent)
    (s' : Delivery) (hI : s.CompleteInv stream) (hstep : s.step env e = some s') :
    (CompleteAtEof stream s' ↔ TakesRest s e) ∧
      (CompleteAtEof stream s' → s'.CompleteInv stream) := by
  obtain ⟨hinv, hclose, hcomplete⟩ := hI
  obtain ⟨hinv', hcases⟩ := delivery_step hinv hstep
  refine ⟨?_, fun h => ⟨hinv', delivery_closeInv hinv hclose hstep, h⟩⟩
  rw [completeAtEof_iff_holds]
  refine hcases.holds_iff hinv ((completeAtEof_iff_holds stream s).mp hcomplete) ?_ ?_ ?_
  · intro resp _
    exact ⟨List.nil_prefix, fun h => absurd h (by simp)⟩
  · intro e hother
    cases e with
    | read size avail =>
      intro hst huntil
      rcases hother size avail rfl with h | h
      · exact absurd hst h
      · exact absurd (h.symm.trans huntil.1) (by simp)
    | arrival | headers | close | notify => trivial
  · intro size avail r hst hplain hread
    have hresp : r.hcp.resp.chunkedEncoding = false ∧
        r.hcp.resp.contentLength = s.hcp.resp.contentLength := by
      rw [hread.resp_eq]
      exact ⟨hplain, rfl⟩
    obtain ⟨heof, -⟩ := hinv.early (hinv.not_complete (by simp [hst]))
    have hpre : s.delivered ++ r.data <+: bytesAfterHeaders stream := by
      rw [← (hinv.body hst hplain).1]
      exact hread.data_prefix s.delivered
    constructor
    · intro hholds _ huntil
      refine (takesRest_iff hinv hclose hst huntil hread).mp fun hsignals => ?_
      have hneg : r.hcp.resp.contentLength < 0 := hresp.2.symm ▸ huntil.2
      refine (hholds hread.responding hresp.1 hneg).2 ?_
      show (s.eof || r.eof) = true
      rw [hread.eof_iff.mpr hsignals, Bool.or_true]
    · intro htakes _ _ hneg
      have hneg' : s.hcp.resp.contentLength < 0 := hresp.2 ▸ hneg
      refine ⟨hpre, fun hend => ?_⟩
      have hsignals : r.eof = true := by
        have hend' : (s.eof || r.eof) = true := hend
        rwa [heof, Bool.false_or] at hend'
      exact (takesRest_iff hinv hclose hst ⟨hplain, hneg'⟩ hread).mpr (htakes hst ⟨hplain, hneg'⟩)
        (hread.eof_iff.mp hsignals)

/-- For every response without a length, fragmentation, sequence of read sizes, and every moment
at which the close is reported: all bytes of the backend are delivered before the end is signalled
if and only if every read after the report takes all that is left. -/
theorem delivery_complete_iff (env : ClientEnv) (hcp : Hcp) (sock : Socket)
    (es : List DeliveryEvent) :
    Along (Delivery.step env) (fun _ _ s' => CompleteAtEof sock.incoming s') (.start hcp sock) es ↔
      Along (Delivery.step env) (fun s e _ => TakesRest s e) (.start hcp sock) es := by
  refine along_iff complete_step es ⟨Delivery.start_inv hcp sock, ⟨?_, ?_⟩, fun hresp => ?_⟩
  · intro hclosed
    cases hclosed
  · intro hbody
    cases hbody
  · rcases hresp with h | h <;> cases h

/-- A parser that finds no length. -/
def closeEnv : ClientEnv where
  parseHttpResponse := fun _ => some {
    statusCode := 200, status := some (bytes "OK"), contentLength := -1 }

/-- A response whose body ends with the connection. -/
def closeResponse : List UInt8 := bytes "HTTP/1.0 200 OK\r\n\r\nabc"

/-- The consumer has room for one byte when it reads after the close was reported. -/
def closeDelivery : List DeliveryEvent :=
  [.headers 5120 19, .arrival, .close, .notify nxeRdhup, .read 1 0]

theorem closeDelivery_delivers :
    (run (Delivery.step closeEnv) (.start {} { incoming := closeResponse })
        closeDelivery).map (fun s => (s.hcp.requestComplete, s.hcp.resp.chunkedEncoding,
          s.hcp.resp.contentLength, s.eof, s.delivered)) =
      some (true, false, -1, true, bytes "a") := by
  decide +kernel

/-- In this run the end is signalled after the first of three bytes. -/
theorem delivery_truncated :
    ¬ Along (Delivery.step closeEnv) (fun _ _ s' => CompleteAtEof closeResponse s')
      (.start {} { incoming := closeResponse }) closeDelivery := by
  intro h
  obtain ⟨s, hrun, heq⟩ := Option.map_eq_some_iff.mp closeDelivery_delivers
  simp only [Prod.mk.injEq] at heq
  obtain ⟨hdone, hch, hlen, heof, hdel⟩ := heq
  have hcomplete : CompleteAtEof closeResponse s :=
    run_inv_of_along (I := CompleteAtEof closeResponse) (fun _ _ _ _ _ hQ => hQ)
      (fun hresp => by rcases hresp with h | h <;> cases h) h hrun
  have hall := (hcomplete (.inr hdone) ⟨hch, by rw [hlen]; decide⟩).2 heof
  rw [hdel] at hall
  exact absurd hall (by decide +kernel)

end Nxweb
