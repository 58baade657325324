import Nxweb.Buffer.IBuffer
import Nxweb.Lib.Machine
import Nxweb.ServerProto.RequestMessage

/-!
# Request bodies buffered to memory

Model of the two branches of `nxweb_http_server_connection_events_sub_on_message`
(`http_server.c`) that deal with a body no handler has asked for: after the headers an
`nxd_ibuffer` is connected to it, and when the body is complete the handler asserts that the
buffer holds as many bytes as the protocol has counted.

The protocol counts what it hands out, the buffer counts what it stores, and a closed buffer
stores nothing. The assertion holds if and only if no byte of the body is handed out to a closed
buffer (`onBodyReceived_isSome_iff`). For a body of known length that never happens, as the limit
is one more than the length, and neither does it for a body shorter than the fixed limit for
other bodies (`onBodyReceived_isSome_of_fits`). A chunked body may be longer.
-/

namespace Nxweb

open Lib

/-- A connection whose request body is collected in `conn->ib`. -/
structure MemoryBody where
  hsp : Hsp
  sock : Socket
  ib : IBuffer
  deriving DecidableEq, Repr

/-- The end of the branch for `NXD_HSP_REQUEST_RECEIVED`, for a request with a body whose stream
is not connected yet. `none` if there is no body, or a body that is refused as too large. -/
def receiveToMemory (hsp : Hsp) (sock : Socket) : Option MemoryBody :=
  if hsp.req.contentLength = 0 ∨ maxRequestBodySize < hsp.req.contentLength then none
  else some {
    hsp := hsp.bufferToMemory
    sock
    ib := {
      maxDataSize :=
        if 0 < hsp.req.contentLength then hsp.req.contentLength.toNat + 1
        else maxRequestBodySize } }

/-- The branch for `NXD_HSP_REQUEST_BODY_RECEIVED` up to the call of the handler; `none` if the
assertion fails. -/
def MemoryBody.onBodyReceived (s : MemoryBody) : Option MemoryBody :=
  if s.hsp.req.bufferingToMemory ∧ s.hsp.reqBodyOutPaired then
    if s.hsp.req.contentReceived = s.ib.getResult.1 then some { s with ib := s.ib.getResult.2 }
    else none
  else some s

/-- What can happen while the body is collected: the socket becomes ready, or the buffer reads.
The arena has room for `room` bytes then, and `avail` bytes have arrived at the socket. -/
inductive MemoryEvent where
  | arrival
  | read (room avail : ℕ)
  deriving DecidableEq, Repr

/-- One event. `nxb_make_room` provides for 32 bytes. -/
def MemoryBody.step (s : MemoryBody) : MemoryEvent → Option MemoryBody
  | .arrival => some { s with sock.ready := true }
  | .read room avail =>
    if 32 ≤ room then
      (s.ib.dataInDoRead room fun size => s.hsp.reqBodyOutRead (some s.sock) size avail).map
        fun (ib, r) => { hsp := r.hsp, sock := r.sock.getD s.sock, ib }
    else none

/-- A buffer that is closed gets no byte of the body. -/
def NoSwallow (s : MemoryBody) (e : MemoryEvent) (_ : MemoryBody) : Prop :=
  match e with
  | .arrival => True
  | .read _ avail => s.ib.closed = true →
    ∀ r, s.hsp.reqBodyOutRead (some s.sock) swallowSize avail = some r → r.data = []

/-! ### The two counters -/

/-- The body is being received or complete, and the buffer has stored at most what was counted. -/
structure MemoryBody.Inv (s : MemoryBody) : Prop where
  buffering : s.hsp.req.bufferingToMemory = true
  paired : s.hsp.reqBodyOutPaired = true
  body : s.hsp.InBody
  le : s.ib.dataSize ≤ s.hsp.req.contentReceived

/-- The bytes that were counted but not stored. -/
def MemoryBody.swallowed (s : MemoryBody) : ℕ := s.hsp.req.contentReceived - s.ib.dataSize

/-- What a read does to the connection. -/
theorem memoryRead_cases {s s' : MemoryBody} {room avail : ℕ}
    (hstep : s.step (.read room avail) = some s') :
    ∃ r, s'.hsp = r.hsp ∧ s'.sock = r.sock.getD s.sock ∧
      (s.ib.closed = true ∧ s.hsp.reqBodyOutRead (some s.sock) swallowSize avail = some r ∧
          s'.ib = s.ib.swallow r.eof ∨
        s.ib.closed = false ∧
          s.hsp.reqBodyOutRead (some s.sock) (s.ib.readSize room) avail = some r ∧
          s'.ib = s.ib.store r.data r.eof) := by
  obtain ⟨-, hmap⟩ := Option.ite_none_right_eq_some.mp hstep
  obtain ⟨⟨ib, r⟩, hread, rfl⟩ := Option.map_eq_some_iff.mp hmap
  exact ⟨r, rfl, rfl, IBuffer.dataInDoRead_cases hread⟩

/-- A transition keeps the invariant and loses no count, and the counters drift apart exactly if
the transition hands out bytes to a closed buffer. -/
theorem memoryStep_swallowed (s : MemoryBody) (e : MemoryEvent) (s' : MemoryBody) (hinv : s.Inv)
    (hstep : s.step e = some s') :
    s'.Inv ∧ s.swallowed ≤ s'.swallowed ∧ (s'.swallowed = s.swallowed ↔ NoSwallow s e s') := by
  have hle := hinv.le
  cases e with
  | arrival =>
    obtain rfl := Option.some.inj hstep
    exact ⟨⟨hinv.buffering, hinv.paired, hinv.body, hle⟩, le_rfl, fun _ => trivial, fun _ => rfl⟩
  | read room avail =>
    obtain ⟨r, hhsp, -, ⟨hclosed, hread, hib⟩ | ⟨hopen, hread, hib⟩⟩ := memoryRead_cases hstep
    all_goals
      obtain ⟨hbody, hcounts, hpaired, -⟩ := reqBodyOutRead_inBody hinv.body hread
      have hcount := hcounts.contentReceived_eq
      have hbuffering := hcounts.bufferingToMemory_eq.trans hinv.buffering
      rw [← hhsp] at hbody hcount hbuffering hpaired
    · have hsize : s'.ib.dataSize = s.ib.dataSize := by rw [hib]; rfl
      refine ⟨⟨hbuffering, hpaired.trans hinv.paired, hbody, by omega⟩, ?_, ?_⟩
      · simp only [MemoryBody.swallowed]
        omega
      · have hnil : r.data = [] ↔ r.data.length = 0 := List.length_eq_zero_iff.symm
        simp only [MemoryBody.swallowed, NoSwallow, hclosed, true_implies]
        constructor
        · intro h r' hr'
          obtain rfl := Option.some.inj (hread.symm.trans hr')
          exact hnil.mpr (by omega)
        · intro h
          have := hnil.mp (h r hread)
          omega
    · have hsize : s'.ib.dataSize = s.ib.dataSize + r.data.length := by
        rw [hib]
        exact (s.ib.store_dataSize r.data r.eof).1
      refine ⟨⟨hbuffering, hpaired.trans hinv.paired, hbody, by omega⟩, ?_, ?_⟩
      · simp only [MemoryBody.swallowed]
        omega
      · simp only [MemoryBody.swallowed, NoSwallow, hopen, Bool.false_eq_true, false_implies,
          iff_true]
        omega

/-- The assertion compares the two counters. -/
theorem MemoryBody.Inv.onBodyReceived_isSome {s : MemoryBody} (hinv : s.Inv) :
    s.onBodyReceived.isSome = true ↔ s.swallowed = 0 := by
  have hle := hinv.le
  have hsize : s.ib.getResult.1 = s.ib.dataSize := rfl
  unfold MemoryBody.onBodyReceived MemoryBody.swallowed
  rw [if_pos ⟨hinv.buffering, hinv.paired⟩, hsize]
  split_ifs with heq <;> simp <;> omega

/-- A request whose body goes to memory starts with nothing counted and nothing stored. -/
theorem receiveToMemory_inv {hsp : Hsp} {head : RequestHead} {rest : List UInt8} {sock : Socket}
    {s : MemoryBody}
    (hstart : receiveToMemory (hsp.requestReceived head.request rest) sock = some s) :
    s.Inv ∧ s.swallowed = 0 := by
  have hfresh := requestReceived_fresh hsp head rest
  generalize hsp.requestReceived head.request rest = hsp' at hfresh hstart
  unfold receiveToMemory at hstart
  by_cases hnone : hsp'.req.contentLength = 0 ∨ maxRequestBodySize < hsp'.req.contentLength
  · rw [if_pos hnone] at hstart
    cases hstart
  rw [if_neg hnone] at hstart
  obtain rfl := Option.some.inj hstart
  rw [not_or] at hnone
  have hlen : hsp'.req.contentLength = head.request.contentLength := by rw [hfresh.req_eq]
  have hcount : hsp'.req.contentReceived = 0 := by rw [hfresh.req_eq]; rfl
  have hmore : hsp'.req.chunkedContentComplete = false := by rw [hfresh.req_eq]; rfl
  have hstate := hfresh.state_eq
  rw [← hlen, if_pos hnone.1] at hstate
  refine ⟨⟨rfl, rfl, .inr ⟨hstate, ?_⟩, Nat.zero_le _⟩, by simp [MemoryBody.swallowed, Hsp.bufferToMemory, hcount]⟩
  simp only [Hsp.bufferToMemory, HttpRequest.isRequestBodyComplete, hmore, hcount]
  simp

/-- Along a run from there, nothing is lost exactly if no byte is handed out to a closed buffer. -/
theorem swallowed_eq_zero_iff {s₀ s : MemoryBody} {es : List MemoryEvent} (hinv : s₀.Inv)
    (hzero : s₀.swallowed = 0) (hrun : run MemoryBody.step s₀ es = some s) :
    s.Inv ∧ (s.swallowed = 0 ↔ Along MemoryBody.step NoSwallow s₀ es) := by
  obtain ⟨-, hiff⟩ := measure_eq_iff_along memoryStep_swallowed hinv hrun
  rw [hzero] at hiff
  exact ⟨run_inv (fun s e s' h hs => (memoryStep_swallowed s e s' h hs).1) hinv hrun, hiff⟩

/-- For every request with a body that goes to memory, every fragmentation and every room in the
arena: when the message that the body is complete is handled, the number of bytes in the buffer
is the number counted if and only if no byte of the body was handed out to a closed buffer. -/
theorem onBodyReceived_isSome_iff (hsp : Hsp) (head : RequestHead) (rest : List UInt8)
    (sock : Socket) {s₀ s : MemoryBody} {es : List MemoryEvent}
    (hstart : receiveToMemory (hsp.requestReceived head.request rest) sock = some s₀)
    (hrun : run MemoryBody.step s₀ es = some s) :
    s.onBodyReceived.isSome = true ↔ Along MemoryBody.step NoSwallow s₀ es := by
  obtain ⟨hinv₀, hzero⟩ := receiveToMemory_inv hstart
  obtain ⟨hinv, hiff⟩ := swallowed_eq_zero_iff hinv₀ hzero hrun
  rw [hinv.onBodyReceived_isSome, hiff]

theorem onBodyReceived_isSome_iff_ab :
    ∃ s₀ s, receiveToMemory (({} : Hsp).requestReceived
        ({ postMethod := true, contentLength := 2 } : RequestHead).request (bytes "a"))
        { incoming := bytes "bc" } = some s₀ ∧
      run MemoryBody.step s₀ [.read 64 2] = some s ∧
      (s.onBodyReceived.isSome = true ↔ Along MemoryBody.step NoSwallow s₀ [.read 64 2]) :=
  ⟨_, _, rfl, rfl, onBodyReceived_isSome_iff {} { postMethod := true, contentLength := 2 }
    (bytes "a") { incoming := bytes "bc" } rfl rfl⟩

/-! ### When bytes are lost -/

/-- A buffer closes at the end of the body or at its limit, and bytes are lost only at the
limit, and never of a body of known length. -/
structure MemoryBody.Limit (s : MemoryBody) : Prop extends s.Inv where
  max_eq : s.ib.maxDataSize =
    if 0 < s.hsp.req.contentLength then s.hsp.req.contentLength.toNat + 1 else maxRequestBodySize
  closed : s.ib.closed = true → s.hsp.state = .handling ∨ s.ib.maxDataSize - 1 ≤ s.ib.dataSize
  lost : 0 < s.swallowed →
    s.hsp.req.contentLength ≤ 0 ∧ s.ib.maxDataSize - 1 ≤ s.ib.dataSize

/-- A buffer for a body of known length closes only when the body is complete: its limit is one
more than the length. -/
theorem MemoryBody.Limit.handling_of_sized {s : MemoryBody} (hlimit : s.Limit)
    (hlen : 0 < s.hsp.req.contentLength) (hclosed : s.ib.closed = true) :
    s.hsp.state = .handling := by
  refine (hlimit.closed hclosed).elim id fun hfull => ?_
  rcases hlimit.body with hst | ⟨-, hmore⟩
  · exact hst
  · have hle := hlimit.le
    have hmax := hlimit.max_eq
    rw [if_pos hlen] at hmax
    simp only [HttpRequest.isRequestBodyComplete, decide_eq_false_iff_not, not_or, not_and] at hmore
    exact absurd (by omega) (hmore.1 hlen)

theorem memoryStep_limit (s : MemoryBody) (e : MemoryEvent) (s' : MemoryBody) (hlimit : s.Limit)
    (hstep : s.step e = some s') : s'.Limit := by
  have hsized := hlimit.handling_of_sized
  obtain ⟨hinv, hmax, hclosed, hlost⟩ := hlimit
  obtain ⟨hinv', -, hiff⟩ := memoryStep_swallowed s e s' hinv hstep
  cases e with
  | arrival =>
    obtain rfl := Option.some.inj hstep
    exact ⟨hinv', hmax, hclosed, hlost⟩
  | read room avail =>
    obtain ⟨r, hhsp, -, ⟨hclose, hread, hib⟩ | ⟨hopen, hread, hib⟩⟩ := memoryRead_cases hstep
    all_goals
      obtain ⟨-, hcounts, -, heof⟩ := reqBodyOutRead_inBody hinv.body hread
      have hlen : s'.hsp.req.contentLength = s.hsp.req.contentLength := by
        rw [hhsp, hcounts.contentLength_eq]
    · have hmax' : s'.ib.maxDataSize = s.ib.maxDataSize := by rw [hib]; rfl
      have hsize : s'.ib.dataSize = s.ib.dataSize := by rw [hib]; rfl
      by_cases hhandling : s.hsp.state = .handling
      · -- nothing is handed out any more
        obtain ⟨hdata, -, hsame⟩ := reqBodyOutRead_idle (by simp [hhandling]) hread
        have hkeep : s'.swallowed = s.swallowed := hiff.mpr fun _ r' hr' =>
          Option.some.inj (hread.symm.trans hr') ▸ hdata
        refine ⟨hinv', by rw [hmax', hlen]; exact hmax, fun _ => .inl ?_, ?_⟩
        · rw [hhsp, hsame]
          exact hhandling
        · rw [hkeep, hmax', hsize, hlen]
          exact hlost
      · have hfull := (hclosed hclose).resolve_left hhandling
        refine ⟨hinv', by rw [hmax', hlen]; exact hmax, fun _ => .inr ?_, fun _ => ⟨?_, ?_⟩⟩
        · rw [hmax', hsize]
          exact hfull
        · rw [hlen]
          by_contra hpos
          exact hhandling (hsized (not_le.mp hpos) hclose)
        · rw [hmax', hsize]
          exact hfull
    · obtain ⟨hsize, hmax'⟩ := s.ib.store_dataSize r.data r.eof
      rw [← hib] at hsize hmax'
      refine ⟨hinv', by rw [hmax', hlen]; exact hmax, fun hclose => ?_, fun hpos => ?_⟩
      · rw [hib] at hclose
        rcases IBuffer.store_closed hopen hclose with hend | hfull
        · exact .inl (hhsp ▸ heof hend)
        · exact .inr (by rw [hmax', hsize]; exact hfull)
      · have hkeep : s'.swallowed = s.swallowed := hiff.mpr fun hc => by simp [hopen] at hc
        obtain ⟨hneg, hfull⟩ := hlost (hkeep ▸ hpos)
        rw [hmax', hsize, hlen]
        exact ⟨hneg, hfull.trans (Nat.le_add_right _ _)⟩

theorem receiveToMemory_limit {hsp : Hsp} {head : RequestHead} {rest : List UInt8} {sock : Socket}
    {s : MemoryBody}
    (hstart : receiveToMemory (hsp.requestReceived head.request rest) sock = some s) :
    s.Limit := by
  obtain ⟨hinv, hzero⟩ := receiveToMemory_inv hstart
  unfold receiveToMemory at hstart
  split at hstart
  · cases hstart
  · obtain rfl := Option.some.inj hstart
    exact ⟨hinv, rfl, by simp, by simp [hzero]⟩

/-- Nothing is lost of a body of known length, nor of one that is shorter than the limit. -/
theorem onBodyReceived_isSome_of_fits {hsp : Hsp} {head : RequestHead} {rest : List UInt8}
    {sock : Socket} {s₀ s : MemoryBody} {es : List MemoryEvent}
    (hstart : receiveToMemory (hsp.requestReceived head.request rest) sock = some s₀)
    (hrun : run MemoryBody.step s₀ es = some s)
    (hfits : 0 < s.hsp.req.contentLength ∨ s.hsp.req.contentReceived < maxRequestBodySize) :
    s.onBodyReceived.isSome = true := by
  have hlimit : s.Limit := run_inv memoryStep_limit (receiveToMemory_limit hstart) hrun
  have hle := hlimit.le
  rw [hlimit.toInv.onBodyReceived_isSome]
  by_contra hpos
  obtain ⟨hneg, hfull⟩ := hlimit.lost (Nat.pos_of_ne_zero hpos)
  rw [hlimit.max_eq, if_neg (not_lt.mpr hneg)] at hfull
  unfold MemoryBody.swallowed at hpos
  omega

/-! ### A body that is too long -/

/-- A body that arrives byte by byte, behind the headers. -/
structure Bytewise (s : MemoryBody) : Prop extends s.Inv where
  chunk_eq : s.hsp.firstBodyChunk = []
  max_eq : s.ib.maxDataSize = maxRequestBodySize
  size_lt : s.ib.dataSize < maxRequestBodySize
  open_lt : s.ib.closed = false → s.ib.dataSize + 1 < maxRequestBodySize

/-- The buffer asks for at least a byte. -/
theorem Bytewise.askSize_pos {s : MemoryBody} (h : Bytewise s) : 1 ≤ s.ib.askSize 32 := by
  unfold IBuffer.askSize IBuffer.readSize swallowSize
  rw [h.max_eq]
  cases hclosed : s.ib.closed with
  | true => simp
  | false =>
    have := h.open_lt hclosed
    simp only [Bool.false_eq_true, if_false]
    split_ifs <;> omega

/-- A buffer that gets one byte at most stays below the limit. -/
theorem Bytewise.accept {s : MemoryBody} (h : Bytewise s) {data : List UInt8}
    (hdata : data.length ≤ 1) (eof : Bool) :
    (s.ib.accept data eof).maxDataSize = maxRequestBodySize ∧
      (s.ib.accept data eof).dataSize < maxRequestBodySize ∧
      ((s.ib.accept data eof).closed = false →
        (s.ib.accept data eof).dataSize + 1 < maxRequestBodySize) := by
  have hmax := h.max_eq
  unfold IBuffer.accept
  cases hclosed : s.ib.closed with
  | true =>
    have hstill : (s.ib.swallow eof).closed = true := hclosed
    simp only [if_true, hstill]
    exact ⟨hmax, h.size_lt, by simp⟩
  | false =>
    have hlt := h.open_lt hclosed
    obtain ⟨hsize, hmax'⟩ := s.ib.store_dataSize data eof
    simp only [Bool.false_eq_true, if_false]
    rw [hsize, hmax']
    refine ⟨hmax, by omega, fun hopen => ?_⟩
    by_contra hfull
    have hne : data ≠ [] := by
      rintro rfl
      exact hfull hlt
    have hclose : (s.ib.store data eof).closed = true :=
      IBuffer.store_closed_of_le hne (by omega)
    simp [hopen] at hclose

/-- The next byte arrives and is read. -/
theorem Bytewise.read {s : MemoryBody} {b : RequestBody} {fed out : List UInt8} (h : Bytewise s)
    (hbody : ReceivingFrom b false [] s.hsp s.sock fed out) :
    ∃ s' fed' out', run MemoryBody.step s [.arrival, .read 32 1] = some s' ∧ Bytewise s' ∧
      s'.sock.incoming.length < s.sock.incoming.length ∧
      (ReceivingFrom b false [] s'.hsp s'.sock fed' out' ∨
        ReceivedFrom b false [] s'.hsp s'.sock fed' out') := by
  have hbytes := hbody.bytes_eq
  rw [h.chunk_eq, List.append_nil, List.append_nil] at hbytes
  -- the body is not complete, so that there is a next byte
  obtain ⟨c, rest, hcons⟩ : ∃ c rest, s.sock.incoming = c :: rest := by
    refine List.exists_cons_of_ne_nil fun hnil => ?_
    have hlt := hbody.req.fed_lt
    rw [hnil, List.append_nil] at hbytes
    exact absurd hlt (by rw [hbytes]; exact lt_irrefl _)
  have hraw : ((Socket.mk true s.sock.incoming).arrived 1).take (s.ib.askSize 32) = [c] := by
    have hpos := h.askSize_pos
    simp [Socket.arrived, hcons, List.take_of_length_le, hpos]
  have hwire : fed ++ [c] ++ rest = b.wire ++ [] := by
    rw [List.append_nil, ← hbytes, hcons, List.append_assoc]
    rfl
  obtain ⟨data, req, hrecv, hshort, -⟩ := hbody.req.receive hwire
  rw [← hraw] at hrecv
  obtain ⟨r, sock', hread, rfl, hsock, hincoming, hout⟩ :=
    reqBodyOutRead_socket hbody.state_eq hbody.req.incomplete h.chunk_eq hrecv
  have hdo : s.ib.dataInDoRead 32
      (fun size => s.hsp.reqBodyOutRead (some ⟨true, s.sock.incoming⟩) size 1) =
      some (s.ib.accept r.data r.eof, r) := IBuffer.dataInDoRead_eq hread
  have hstep : run MemoryBody.step s [.arrival, .read 32 1] =
      some { hsp := r.hsp, sock := sock', ib := s.ib.accept r.data r.eof } := by
    simp [run, MemoryBody.step, hdo, hsock]
  have hready : ReceivingFrom b false [] s.hsp ⟨true, s.sock.incoming⟩ fed out :=
    ⟨hbody.state_eq, hbody.req, hbody.count, hbody.bytes_eq⟩
  obtain ⟨fed', sock'', hsock'', hafter⟩ :=
    hready.read (fun _ hlt => by simp [h.chunk_eq] at hlt) hread
  obtain rfl := Option.some.inj (hsock.symm.trans hsock'')
  obtain ⟨hmax, hlt, hopen⟩ := h.accept hshort r.eof
  refine ⟨_, fed ++ fed', out ++ r.data, hstep, ⟨?_, ?_, hmax, hlt, hopen⟩, ?_,
    hafter.imp And.left And.left⟩
  · exact run_inv (fun s e s' h hs => (memoryStep_swallowed s e s' h hs).1) h.toInv hstep
  · rw [hout.chunk_eq, h.chunk_eq, List.drop_nil]
  · rw [hincoming, hraw, hcons]
    simp

/-- A body can be received byte by byte, and the buffer stays below the limit then. -/
theorem Bytewise.receive {s : MemoryBody} {b : RequestBody} {fed out : List UInt8} (h : Bytewise s)
    (hbody : ReceivingFrom b false [] s.hsp s.sock fed out) :
    ∃ es s' fed' out', run MemoryBody.step s es = some s' ∧ Bytewise s' ∧
      ReceivedFrom b false [] s'.hsp s'.sock fed' out' := by
  induction hn : s.sock.incoming.length using Nat.strong_induction_on generalizing s fed out with
  | _ n ih =>
    subst hn
    obtain ⟨s₁, fed₁, out₁, hrun, hnext, hless, hmore | hdone⟩ := h.read hbody
    · obtain ⟨es, s', fed', out', hrun', hnext', hdone⟩ := ih _ hless hnext hmore rfl
      exact ⟨_, s', fed', out', run_append hrun hrun', hnext', hdone⟩
    · exact ⟨_, s₁, fed₁, out₁, hrun, hnext, hdone⟩

/-- A chunked body that is as long as the limit cannot be received in all fragmentations: if it
arrives byte by byte, the assertion fails. -/
theorem exists_onBodyReceived_none (m : ChunkedMessage)
    (hlong : maxRequestBodySize ≤ m.body.length) :
    ∃ s₀ es s, receiveToMemory (({} : Hsp).requestReceived
        ({ postMethod := true, chunkedEncoding := true } : RequestHead).request [])
        { incoming := m.wire } = some s₀ ∧
      run MemoryBody.step s₀ es = some s ∧ s.hsp.state = .handling ∧ s.onBodyReceived = none := by
  have hfresh : ReceivingFrom (.chunked m) false [] (({} : Hsp).requestReceived
      ({ postMethod := true, chunkedEncoding := true } : RequestHead).request [])
      { incoming := m.wire } [] [] :=
    requestReceived_receiving (.chunked m) {} { postMethod := true }
      (List.append_nil m.wire).symm
  obtain ⟨s₀, hstart⟩ : ∃ s₀, receiveToMemory (({} : Hsp).requestReceived
      ({ postMethod := true, chunkedEncoding := true } : RequestHead).request [])
      { incoming := m.wire } = some s₀ := ⟨_, rfl⟩
  have hinv := (receiveToMemory_inv hstart).1
  have hmax := (receiveToMemory_limit hstart).max_eq
  have hsize : s₀.ib.dataSize = 0 ∧ s₀.hsp.req.contentLength = -1 := by
    obtain rfl := Option.some.inj hstart
    exact ⟨rfl, rfl⟩
  have hbody : ReceivingFrom (.chunked m) false [] s₀.hsp s₀.sock [] [] := by
    obtain rfl := Option.some.inj hstart
    obtain ⟨hst, ⟨hmore, hlt, hframing⟩, hcount, hbytes⟩ := hfresh
    exact ⟨hst, ⟨hmore, hlt, hframing⟩, hcount, hbytes⟩
  have hchunk : s₀.hsp.firstBodyChunk = [] := by
    obtain rfl := Option.some.inj hstart
    rfl
  rw [hsize.2, if_neg (by omega)] at hmax
  have hbytewise : Bytewise s₀ :=
    ⟨hinv, hchunk, hmax, by rw [hsize.1]; decide, fun _ => by rw [hsize.1]; decide⟩
  obtain ⟨es, s, fed, out, hrun, hend, hdone⟩ := hbytewise.receive hbody
  refine ⟨s₀, es, s, hstart, hrun, hdone.state_eq, ?_⟩
  -- all of the body was counted, and not all of it stored
  have hcount : s.hsp.req.contentReceived = m.body.length := by
    rw [hdone.count, hdone.req.out_eq]
    rfl
  have hlt := hend.size_lt
  rw [← Option.not_isSome_iff_eq_none, hend.toInv.onBodyReceived_isSome, MemoryBody.swallowed]
  omega

/-- The chunk of 512001 zeros. -/
def longChunk : Chunk where
  digits := bytes "7D001"
  data := List.replicate 512001 0
  digits_hex := by decide +kernel
  hexValue_eq := by rw [List.length_replicate]; decide
  data_pos := by rw [List.length_replicate]; decide
  data_lt := by rw [List.length_replicate]; decide

/-- A client that sends one chunk of 512001 bytes makes the assertion fail. -/
theorem onBodyReceived_none_long :
    ∃ s₀ es s, receiveToMemory (({} : Hsp).requestReceived
        ({ postMethod := true, chunkedEncoding := true } : RequestHead).request [])
        { incoming := (ChunkedMessage.ofChunks [longChunk]).wire } = some s₀ ∧
      run MemoryBody.step s₀ es = some s ∧ s.hsp.state = .handling ∧ s.onBodyReceived = none :=
  exists_onBodyReceived_none _ (by
    show maxRequestBodySize ≤ (longChunk.data ++ []).length
    rw [List.append_nil]
    show maxRequestBodySize ≤ (List.replicate 512001 0).length
    rw [List.length_replicate]
    decide)

end Nxweb
