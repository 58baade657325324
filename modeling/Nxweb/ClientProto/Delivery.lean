import Nxweb.ClientProto.Transfer
import Nxweb.Lib.Machine
import Nxweb.ServerProto.HeaderSplit
import Nxweb.ServerProto.RequestBodySpec

/-!
# Delivering a response body

A backend connection is followed from the first byte of a response on. `data_in_do_read` collects
the headers in any fragments, and then the consumer of the body reads with any sizes. The backend
may close the connection when it has sent everything; from then on all its bytes have arrived, and
the event loop may report the close at any time.

A response that is not chunked is handed out as it comes. `PlainRead` says what one read does
then: it takes a part of the first chunk, and something from the socket behind it, unless the body
is known to be complete already. The invariant is `Delivery.Inv`: what was delivered, what is left
of the first chunk and what has not been read make up the bytes behind the header block.
-/

namespace Nxweb

open Lib

/-! ### The connection and its events -/

/-- A backend connection, the bytes the backend sends, the bytes returned to the consumer of the
body, and whether a read has signalled their end. -/
structure Delivery where
  hcp : Hcp
  sock : Socket
  closed : Bool := false
  delivered : List UInt8 := []
  eof : Bool := false
  deriving DecidableEq, Repr

/-- What can happen on the connection. -/
inductive DeliveryEvent where
  /-- The socket becomes ready. -/
  | arrival
  /-- The event loop reads headers into an arena with some room. -/
  | headers (room avail : ℕ)
  /-- The consumer reads. -/
  | read (size avail : ℕ)
  /-- The backend closes the connection. -/
  | close
  /-- An error of the socket, or the close, is reported. -/
  | notify (code : ℤ)
  deriving DecidableEq, Repr

/-- The number of bytes that have arrived. -/
def Delivery.arrivedBytes (s : Delivery) (avail : ℕ) : ℕ :=
  if s.closed then s.sock.incoming.length else avail

/-- The header block was refused, and nothing more is read. -/
def Delivery.Refused (s : Delivery) : Prop := HcpEvent.error hcpBadResponse ∈ s.hcp.eventsPub

instance (s : Delivery) : Decidable s.Refused :=
  inferInstanceAs (Decidable (HcpEvent.error hcpBadResponse ∈ s.hcp.eventsPub))

/-- The connection after a read. -/
def Delivery.afterRead (s : Delivery) (r : RespRead) : Delivery :=
  { s with
    hcp := r.hcp
    sock := r.sock
    delivered := s.delivered ++ r.data
    eof := s.eof || r.eof }

/-- One event. A close is reported only after it has happened. -/
def Delivery.step (env : ClientEnv) (s : Delivery) : DeliveryEvent → Option Delivery
  | .arrival => some { s with sock.ready := true }
  | .headers room avail =>
    if (s.hcp.state = .waitingForResponse ∨ s.hcp.state = .receivingHeaders) ∧ ¬ s.Refused then
      (s.hcp.dataInReadHeaders env s.sock room (s.arrivedBytes avail)).map fun (hcp, sock) =>
        { s with hcp, sock }
    else none
  | .read size avail =>
    (s.hcp.respBodyOutRead s.sock size (s.arrivedBytes avail)).map s.afterRead
  | .close => some { s with closed := true, sock.ready := true }
  | .notify code =>
    if s.closed ∨ (code ≠ nxeHup ∧ code ≠ nxeRdhup ∧ code ≠ nxeRdclosed) then
      some { s with hcp := s.hcp.dataErrorOnMessage code }
    else none

/-- A connection that has sent its request, before the first byte of the response. -/
def Delivery.start (hcp : Hcp) (sock : Socket) : Delivery where
  hcp := { hcp with
    state := .waitingForResponse
    readBuf := []
    receiving100Continue := false
    requestComplete := false
    responseBodyComplete := false
    eventsPub := [] }
  sock := sock

/-- The bytes behind the header block. -/
def bytesAfterHeaders (stream : List UInt8) : List UInt8 :=
  stream.drop (((findEndOfHttpHeaders stream).map Prod.snd).getD 0)

/-- The headers of a response have been received. -/
def Delivery.Responding (s : Delivery) : Prop :=
  s.hcp.state = .receivingBody ∨ s.hcp.requestComplete = true

/-! ### One read -/

/-- The part of the first chunk that a read takes. -/
def Hcp.firstPart (hcp : Hcp) (size : ℕ) : List UInt8 := (hcp.firstBodyChunk.getD []).take size

/-- A read returns with a part of the first chunk, since the body is known to be complete. -/
def Hcp.endsWithChunk (hcp : Hcp) : Bool :=
  hcp.firstBodyChunk.isSome && hcp.responseBodyComplete

/-- What a read takes from the socket. -/
def Hcp.secondPart (hcp : Hcp) (sock : Socket) (size avail : ℕ) : List UInt8 :=
  if hcp.endsWithChunk then []
  else (sock.arrived avail).take (size - (hcp.firstPart size).length)

/-- What a read returns. -/
def Hcp.readPart (hcp : Hcp) (sock : Socket) (size avail : ℕ) : List UInt8 :=
  hcp.firstPart size ++ hcp.secondPart sock size avail

/-- A read signals the end of the body. -/
def Hcp.SignalsEof (hcp : Hcp) (sock : Socket) (size avail : ℕ) : Prop :=
  hcp.endsWithChunk = true ∨
    (hcp.firstPart size).length < size ∧
      (hcp.responseBodyComplete = true ∨
        hcp.resp.contentLength ≤
            hcp.resp.contentReceived + (hcp.readPart sock size avail).length ∧
          0 ≤ hcp.resp.contentLength)

/-- What a read of a response that is not chunked leaves behind. -/
structure PlainRead (hcp : Hcp) (sock : Socket) (size avail : ℕ) (r : RespRead) : Prop where
  data_eq : r.data = hcp.readPart sock size avail
  incoming_eq : r.sock.incoming = sock.incoming.drop (hcp.secondPart sock size avail).length
  taken_eq : hcp.secondPart sock size avail =
    sock.incoming.take (hcp.secondPart sock size avail).length
  resp_eq : r.hcp.resp =
    { hcp.resp with contentReceived := hcp.resp.contentReceived + r.data.length }
  eof_iff : r.eof = true ↔ hcp.SignalsEof sock size avail
  more : r.eof = false → r.hcp.state = .receivingBody ∧ r.hcp.requestComplete = false ∧
    r.hcp.firstBodyChunk.getD [] = (hcp.firstBodyChunk.getD []).drop size
  done : r.eof = true → r.hcp.state = .idle ∧ r.hcp.requestComplete = true

@[simp]
theorem Hcp.endOfBody_state (hcp : Hcp) : hcp.endOfBody.state = .idle := rfl

@[simp]
theorem Hcp.endOfBody_requestComplete (hcp : Hcp) : hcp.endOfBody.requestComplete = true := rfl

@[simp]
theorem Hcp.endOfBody_resp (hcp : Hcp) : hcp.endOfBody.resp = hcp.resp := by
  unfold Hcp.endOfBody Hcp.completeRequest
  dsimp only
  split_ifs <;> rfl

/-- The part of a read that goes to the socket, after `data` was handed out. -/
structure SocketRead (hcp : Hcp) (sock : Socket) (data : List UInt8) (size avail : ℕ)
    (r : RespRead) : Prop where
  data_eq : r.data = data ++ (sock.arrived avail).take size
  incoming_eq : r.sock.incoming = sock.incoming.drop ((sock.arrived avail).take size).length
  resp_eq : r.hcp.resp = { hcp.resp with
    contentReceived := hcp.resp.contentReceived + ((sock.arrived avail).take size).length }
  eof_iff : r.eof = true ↔ 0 < size ∧ (hcp.responseBodyComplete = true ∨
    hcp.resp.contentLength ≤
        hcp.resp.contentReceived + (((sock.arrived avail).take size).length : ℤ) ∧
      0 ≤ hcp.resp.contentLength)
  more : r.eof = false → r.hcp.state = hcp.state ∧ r.hcp.requestComplete = hcp.requestComplete ∧
    r.hcp.firstBodyChunk = hcp.firstBodyChunk
  done : r.eof = true → r.hcp.state = .idle ∧ r.hcp.requestComplete = true

/-- The bytes of a body that is not chunked are counted, and complete it or not. -/
theorem hcp_receiveBody_plain (hcp : Hcp) (hplain : hcp.resp.chunkedEncoding = false)
    (raw : List UInt8) :
    ∃ complete, hcp.receiveBody raw = some (raw, { hcp with
      resp.contentReceived := hcp.resp.contentReceived + raw.length
      responseBodyComplete := complete }) ∧
      (complete = true ↔ hcp.responseBodyComplete = true ∨
        hcp.resp.contentLength ≤ hcp.resp.contentReceived + (raw.length : ℤ) ∧
          0 ≤ hcp.resp.contentLength) := by
  unfold Hcp.receiveBody
  rw [if_neg (by simp [hplain])]
  dsimp only
  rw [Nat.cast_add]
  split_ifs with hcomplete
  · exact ⟨true, rfl, by simp [hcomplete]⟩
  · exact ⟨hcp.responseBodyComplete, rfl, by simp [hcomplete]⟩

theorem readBodyFromSocket_plain (hcp : Hcp) (hplain : hcp.resp.chunkedEncoding = false)
    (sock : Socket) (data : List UInt8) (size avail : ℕ) :
    ∃ r, hcp.readBodyFromSocket sock data size avail = some r ∧
      SocketRead hcp sock data size avail r := by
  unfold Hcp.readBodyFromSocket
  by_cases hsize : 0 < size
  · rw [if_pos hsize]
    have hraw := sock.readIfReady_data size avail
    have hrest := sock.readIfReady_incoming size avail
    generalize sock.readIfReady size avail = rd at hraw hrest ⊢
    obtain ⟨raw, sock'⟩ := rd
    dsimp only at hraw hrest ⊢
    -- only the readiness of two streams depends on the socket
    obtain ⟨hcp', hhcp', hsame⟩ : ∃ hcp', (if sock'.ready then hcp else
        { hcp with respBodyOutReady := false, dataInReady := true }) = hcp' ∧
        hcp'.resp = hcp.resp ∧ hcp'.state = hcp.state ∧
        hcp'.requestComplete = hcp.requestComplete ∧
        hcp'.firstBodyChunk = hcp.firstBodyChunk ∧
        hcp'.responseBodyComplete = hcp.responseBodyComplete := by
      refine ⟨_, rfl, ?_⟩
      split_ifs <;> exact ⟨rfl, rfl, rfl, rfl, rfl⟩
    obtain ⟨hresp, hstate, hreq, hchunk, hbody⟩ := hsame
    rw [hhcp']
    obtain ⟨complete, hrecv, hcomplete⟩ :=
      hcp_receiveBody_plain hcp' (by rw [hresp, hplain]) raw
    rw [hresp, hbody] at hcomplete
    rw [hrecv, hresp]
    subst hraw
    cases complete with
    | true =>
      refine ⟨_, rfl, ?_⟩
      exact ⟨rfl, hrest, Hcp.endOfBody_resp _, ⟨fun _ => ⟨hsize, hcomplete.mp rfl⟩, fun _ => rfl⟩,
        fun h => absurd h (by simp), fun _ => ⟨rfl, rfl⟩⟩
    | false =>
      refine ⟨_, rfl, ?_⟩
      refine ⟨rfl, hrest, rfl, ⟨fun h => absurd h (by simp), fun h => ?_⟩,
        fun _ => ⟨hstate, hreq, hchunk⟩, fun h => absurd h (by simp)⟩
      exact absurd (hcomplete.mpr h.2) (by simp)
  · obtain rfl : size = 0 := by omega
    refine ⟨_, if_neg hsize, ?_⟩
    constructor <;> simp

/-- A read of a response that is not chunked. -/
theorem respBodyOutRead_plain {hcp : Hcp} (hplain : hcp.resp.chunkedEncoding = false)
    (hst : hcp.state = .receivingBody) (hmore : hcp.requestComplete = false) (sock : Socket)
    (size avail : ℕ) :
    ∃ r, hcp.respBodyOutRead sock size avail = some r ∧ PlainRead hcp sock size avail r := by
  have htaken : ∀ n, (sock.arrived avail).take n =
      sock.incoming.take ((sock.arrived avail).take n).length :=
    fun n => sock.arrived_take_eq n avail
  unfold Hcp.respBodyOutRead
  rw [if_neg (by simp [hmore]), if_neg (by simp [hst])]
  cases hchunk : hcp.firstBodyChunk with
  | none =>
    obtain ⟨r, hr, hread⟩ := readBodyFromSocket_plain hcp hplain sock [] size avail
    refine ⟨r, hr, ?_⟩
    have hsecond : hcp.secondPart sock size avail = (sock.arrived avail).take size := by
      simp [Hcp.secondPart, Hcp.endsWithChunk, Hcp.firstPart, hchunk]
    have hpart : hcp.readPart sock size avail = (sock.arrived avail).take size := by
      simp [Hcp.readPart, hsecond, Hcp.firstPart, hchunk]
    constructor
    · rw [hread.data_eq, hpart, List.nil_append]
    · rw [hread.incoming_eq, hsecond]
    · rw [hsecond]
      exact htaken size
    · rw [hread.resp_eq, hread.data_eq, List.nil_append]
    · rw [hread.eof_iff, Hcp.SignalsEof, hpart]
      simp [Hcp.endsWithChunk, Hcp.firstPart, hchunk]
    · intro heof
      obtain ⟨hstate, hreq, hnone⟩ := hread.more heof
      exact ⟨hstate.trans hst, hreq.trans hmore, by rw [hnone, hchunk]; simp⟩
    · exact hread.done
  | some chunk =>
    dsimp only
    have hfirst : hcp.firstPart size = chunk.take size := by simp [Hcp.firstPart, hchunk]
    by_cases hbody : hcp.responseBodyComplete = true
    · rw [if_pos hbody]
      refine ⟨_, rfl, ?_⟩
      have hends : hcp.endsWithChunk = true := by simp [Hcp.endsWithChunk, hchunk, hbody]
      have hsecond : hcp.secondPart sock size avail = [] := by simp [Hcp.secondPart, hends]
      constructor
      · simp [Hcp.readPart, hfirst, hsecond]
      · simp [hsecond]
      · simp [hsecond]
      · exact Hcp.endOfBody_resp _
      · exact ⟨fun _ => .inl hends, fun _ => rfl⟩
      · intro heof
        cases heof
      · exact fun _ => ⟨rfl, rfl⟩
    · rw [if_neg hbody]
      have hends : hcp.endsWithChunk = false := by simp [Hcp.endsWithChunk, hbody]
      have hsecond : hcp.secondPart sock size avail =
          (sock.arrived avail).take (size - (chunk.take size).length) := by
        simp [Hcp.secondPart, hends, hfirst]
      have hpart : hcp.readPart sock size avail =
          chunk.take size ++ (sock.arrived avail).take (size - (chunk.take size).length) := by
        rw [Hcp.readPart, hfirst, hsecond]
      obtain ⟨r, hr, hread⟩ := readBodyFromSocket_plain { hcp with
        firstBodyChunk := if chunk.length ≤ size then none else some (chunk.drop size)
        resp.contentReceived := hcp.resp.contentReceived + (chunk.take size).length }
        hplain sock (chunk.take size) (size - (chunk.take size).length) avail
      refine ⟨r, hr, ?_⟩
      constructor
      · rw [hread.data_eq, hpart]
      · rw [hread.incoming_eq, hsecond]
      · rw [hsecond]
        exact htaken _
      · rw [hread.resp_eq, hread.data_eq, List.length_append, ← Nat.add_assoc]
      · rw [hread.eof_iff, Hcp.SignalsEof, hpart, hends, hfirst]
        simp only [hbody, Bool.false_eq_true, false_or, List.length_append, Nat.cast_add,
          add_assoc, Nat.sub_pos_iff_lt]
      · intro heof
        obtain ⟨hstate, hreq, hrest⟩ := hread.more heof
        refine ⟨hstate.trans hst, hreq.trans hmore, ?_⟩
        rw [hrest, hchunk]
        show (if chunk.length ≤ size then none else some (chunk.drop size)).getD [] =
          chunk.drop size
        split_ifs with hle
        · exact (List.drop_eq_nil_of_le hle).symm
        · rfl
      · exact hread.done

/-- A read takes the bytes in their order: it goes to the socket only behind the first chunk. -/
theorem PlainRead.bytes_eq_append {hcp : Hcp} {sock : Socket} {size avail : ℕ} {r : RespRead}
    (h : PlainRead hcp sock size avail r) (pre : List UInt8) :
    pre ++ (hcp.firstPart size ++ hcp.secondPart sock size avail) ++
        (hcp.firstBodyChunk.getD []).drop size ++
        sock.incoming.drop (hcp.secondPart sock size avail).length =
      pre ++ hcp.firstBodyChunk.getD [] ++ sock.incoming := by
  have hsecond : hcp.secondPart sock size avail = [] ∨
      (hcp.firstBodyChunk.getD []).drop size = [] := by
    rcases le_or_gt (hcp.firstBodyChunk.getD []).length size with hle | hgt
    · exact .inr (List.drop_eq_nil_of_le hle)
    · refine .inl ?_
      unfold Hcp.secondPart Hcp.firstPart
      split_ifs
      · rfl
      · rw [List.length_take, min_eq_left hgt.le, Nat.sub_self, List.take_zero]
  have htaken : hcp.secondPart sock size avail ++
      sock.incoming.drop (hcp.secondPart sock size avail).length = sock.incoming := by
    have htake := h.taken_eq
    generalize hcp.secondPart sock size avail = second at htake
    calc second ++ sock.incoming.drop second.length
        = sock.incoming.take second.length ++ sock.incoming.drop second.length := by
          rw [← htake]
      _ = sock.incoming := List.take_append_drop _ _
  rcases hsecond with hnil | hnil
  · rw [hnil, Hcp.firstPart]
    simp [List.append_assoc, List.take_append_drop]
  · have hall : hcp.firstPart size = hcp.firstBodyChunk.getD [] := by
      rw [Hcp.firstPart, List.take_of_length_le (List.drop_eq_nil_iff.mp hnil)]
    rw [hnil, hall, List.append_nil, List.append_assoc pre, List.append_assoc _ _ (List.drop _ _),
      htaken, List.append_assoc]

/-- What a read returns comes from the beginning of the bytes that are left. -/
theorem PlainRead.data_prefix {hcp : Hcp} {sock : Socket} {size avail : ℕ} {r : RespRead}
    (h : PlainRead hcp sock size avail r) (pre : List UInt8) :
    pre ++ r.data <+: pre ++ hcp.firstBodyChunk.getD [] ++ sock.incoming := by
  rw [← h.bytes_eq_append pre, h.data_eq, Hcp.readPart, List.append_assoc _ (List.drop size _)]
  exact List.prefix_append _ _

/-! ### The phases of a response -/

/-- The response has no length, and ends with the connection. -/
def HttpResponse.UntilClose (resp : HttpResponse) : Prop :=
  resp.chunkedEncoding = false ∧ resp.contentLength < 0

/-- Bytes of the body are received in the same response, and complete it only if it has a length
or is chunked. -/
structure SameResponse (hcp hcp' : Hcp) : Prop where
  chunked_eq : hcp'.resp.chunkedEncoding = hcp.resp.chunkedEncoding
  length_eq : hcp'.resp.contentLength = hcp.resp.contentLength
  complete : hcp'.responseBodyComplete = true → hcp.responseBodyComplete = true ∨
    ¬ hcp.resp.UntilClose

/-- Whether the response is complete after a read, whatever its encoding. -/
structure ReadPhase (hcp : Hcp) (r : RespRead) : Prop where
  same : SameResponse hcp r.hcp
  more : r.eof = false → r.hcp.state = hcp.state ∧ r.hcp.requestComplete = hcp.requestComplete
  done : r.eof = true → r.hcp.state = .idle ∧ r.hcp.requestComplete = true

theorem receiveBody_phase {hcp hcp' : Hcp} {raw data : List UInt8}
    (h : hcp.receiveBody raw = some (data, hcp')) :
    SameResponse hcp hcp' ∧ hcp'.state = hcp.state ∧
      hcp'.requestComplete = hcp.requestComplete := by
  unfold Hcp.receiveBody at h
  split_ifs at h with hchunked
  · obtain ⟨r, -, h⟩ := Option.bind_eq_some_iff.mp h
    dsimp only at h
    split_ifs at h
    all_goals
      obtain ⟨-, rfl⟩ := Prod.mk.inj (Option.some.inj h)
      exact ⟨⟨rfl, rfl, fun _ => .inr fun hclose => by simp [hclose.1] at hchunked⟩, rfl, rfl⟩
  · dsimp only at h
    split_ifs at h with hlen
    · obtain ⟨-, rfl⟩ := Prod.mk.inj (Option.some.inj h)
      refine ⟨⟨rfl, rfl, fun _ => .inr fun hclose => ?_⟩, rfl, rfl⟩
      have hneg := hclose.2
      exact absurd hlen.2 (by omega)
    · obtain ⟨-, rfl⟩ := Prod.mk.inj (Option.some.inj h)
      exact ⟨⟨rfl, rfl, .inl⟩, rfl, rfl⟩

@[simp]
theorem Hcp.endOfBody_responseBodyComplete (hcp : Hcp) :
    hcp.endOfBody.responseBodyComplete = hcp.responseBodyComplete := by
  unfold Hcp.endOfBody Hcp.completeRequest
  dsimp only
  split_ifs <;> rfl

theorem SameResponse.endOfBody {hcp hcp' : Hcp} (h : SameResponse hcp hcp') :
    SameResponse hcp hcp'.endOfBody :=
  ⟨by simpa using h.chunked_eq, by simpa using h.length_eq, by simpa using h.complete⟩

theorem readBodyFromSocket_phase {hcp : Hcp} {sock : Socket} {data : List UInt8} {size avail : ℕ}
    {r : RespRead} (h : hcp.readBodyFromSocket sock data size avail = some r) :
    ReadPhase hcp r := by
  unfold Hcp.readBodyFromSocket at h
  split_ifs at h with hsize
  · generalize sock.readIfReady size avail = rd at h
    obtain ⟨raw, sock'⟩ := rd
    obtain ⟨⟨data₂, hcp'⟩, hrecv, h⟩ := Option.bind_eq_some_iff.mp h
    obtain ⟨hsame, hstate, hreq⟩ := receiveBody_phase hrecv
    dsimp only at hsame hstate hreq h
    have hstep : SameResponse hcp hcp' ∧ hcp'.state = hcp.state ∧
        hcp'.requestComplete = hcp.requestComplete := by
      split_ifs at hsame hstate hreq
      · exact ⟨hsame, hstate, hreq⟩
      · exact ⟨⟨hsame.chunked_eq, hsame.length_eq, hsame.complete⟩, hstate, hreq⟩
    by_cases hbody : hcp'.responseBodyComplete = true
    · rw [if_pos hbody] at h
      obtain rfl := Option.some.inj h
      exact ⟨hstep.1.endOfBody, fun he => absurd he (by simp), fun _ => ⟨rfl, rfl⟩⟩
    · rw [if_neg hbody] at h
      obtain rfl := Option.some.inj h
      exact ⟨hstep.1, fun _ => hstep.2, fun he => absurd he (by simp)⟩
  · obtain rfl := Option.some.inj h
    exact ⟨⟨rfl, rfl, .inl⟩, fun _ => ⟨rfl, rfl⟩, fun he => absurd he (by simp)⟩

/-- A read in the body either goes on or completes the response. -/
theorem respBodyOutRead_phase {hcp : Hcp} {sock : Socket} {size avail : ℕ} {r : RespRead}
    (hst : hcp.state = .receivingBody) (hmore : hcp.requestComplete = false)
    (h : hcp.respBodyOutRead sock size avail = some r) : ReadPhase hcp r := by
  unfold Hcp.respBodyOutRead at h
  rw [if_neg (by simp [hmore]), if_neg (by simp [hst])] at h
  split at h
  next chunk hchunk =>
    dsimp only at h
    by_cases hbody : hcp.responseBodyComplete = true
    · rw [if_pos hbody] at h
      obtain rfl := Option.some.inj h
      exact ⟨⟨by simp, by simp, fun _ => .inl hbody⟩, fun he => absurd he (by simp),
        fun _ => ⟨rfl, rfl⟩⟩
    · rw [if_neg hbody] at h
      obtain ⟨hsame, hmore', hdone⟩ := readBodyFromSocket_phase h
      exact ⟨⟨hsame.chunked_eq, hsame.length_eq, hsame.complete⟩, hmore', hdone⟩
  next => exact readBodyFromSocket_phase h

/-- What a read leaves of the socket. -/
theorem respBodyOutRead_sock {hcp : Hcp} {sock : Socket} {size avail : ℕ} {r : RespRead}
    (h : hcp.respBodyOutRead sock size avail = some r) :
    r.sock = sock ∨ ∃ n, r.sock = (sock.readIfReady n avail).2 := by
  have hsocket : ∀ {hcp : Hcp} {data : List UInt8} {n : ℕ},
      hcp.readBodyFromSocket sock data n avail = some r →
      r.sock = sock ∨ ∃ n, r.sock = (sock.readIfReady n avail).2 := by
    intro hcp data n h
    unfold Hcp.readBodyFromSocket at h
    split_ifs at h with hn
    · obtain ⟨⟨data₂, hcp'⟩, -, h⟩ := Option.bind_eq_some_iff.mp h
      dsimp only at h
      split_ifs at h
      all_goals
        obtain rfl := Option.some.inj h
        exact .inr ⟨n, rfl⟩
    · obtain rfl := Option.some.inj h
      exact .inl rfl
  unfold Hcp.respBodyOutRead at h
  split_ifs at h
  · obtain rfl := Option.some.inj h
    exact .inl rfl
  · obtain rfl := Option.some.inj h
    exact .inl rfl
  · split at h
    next chunk _ =>
      dsimp only at h
      by_cases hbody : hcp.responseBodyComplete = true
      · rw [if_pos hbody] at h
        obtain rfl := Option.some.inj h
        exact .inl rfl
      · rw [if_neg hbody] at h
        exact hsocket h
    next => exact hsocket h

/-- Before the body and after the response nothing is read. -/
theorem respBodyOutRead_idle {hcp : Hcp} (hst : hcp.state ≠ .receivingBody) (sock : Socket)
    (size avail : ℕ) :
    ∃ r, hcp.respBodyOutRead sock size avail = some r ∧ r.data = [] ∧
      r.eof = hcp.requestComplete ∧ r.sock = sock ∧
      r.hcp = { hcp with
        respBodyOutReady := false
        dataInReady := r.hcp.dataInReady } := by
  unfold Hcp.respBodyOutRead
  by_cases hdone : hcp.requestComplete = true
  · rw [if_pos hdone]
    exact ⟨_, rfl, rfl, hdone.symm, rfl, rfl⟩
  · rw [if_neg hdone, if_pos hst]
    exact ⟨_, rfl, rfl, by simp [hdone], rfl, rfl⟩

/-! ### The headers -/

/-- What reading headers can do: wait for more of them, refuse the response, or go on to its body.
Here `hcp` is the object with the new bytes in its arena. -/
inductive ResponseHeaders (env : ClientEnv) (hcp : Hcp) : Hcp → Prop
  | pending : ResponseHeaders env hcp hcp
  | bad {hcp' : Hcp} (hmem : HcpEvent.error hcpBadResponse ∈ hcp'.eventsPub)
      (hstate : hcp'.state = hcp.state) (hmore : hcp'.requestComplete = hcp.requestComplete)
      (h100 : hcp'.receiving100Continue = hcp.receiving100Continue)
      (hbody : hcp'.responseBodyComplete = hcp.responseBodyComplete) : ResponseHeaders env hcp hcp'
  | received {hcp' : Hcp} {e b : ℕ} {resp : HttpResponse}
      (hfind : findEndOfHttpHeaders hcp.readBuf = some (e, b))
      (hparse : env.parseHttpResponse (hcp.readBuf.take e) = some resp)
      (hrecv : hcp.headersReceived resp (hcp.readBuf.drop b) = some hcp') :
      ResponseHeaders env hcp hcp'

theorem hcp_dataInReadHeaders_cases {env : ClientEnv} {hcp hcp' : Hcp} {sock sock' : Socket}
    {room avail : ℕ} (h : hcp.dataInReadHeaders env sock room avail = some (hcp', sock')) :
    sock' = (sock.dataRecvRead room avail).2 ∧
      ResponseHeaders env { hcp.openHeaders with
        readBuf := hcp.openHeaders.readBuf ++ (sock.dataRecvRead room avail).1 } hcp' := by
  unfold Hcp.dataInReadHeaders at h
  generalize sock.dataRecvRead room avail = rd at h ⊢
  obtain ⟨data, sock₁⟩ := rd
  dsimp only at h ⊢
  generalize hcp.openHeaders = hcp at h ⊢
  by_cases hdata : data = []
  · rw [if_pos hdata] at h
    obtain ⟨rfl, rfl⟩ := h
    refine ⟨rfl, ?_⟩
    rw [hdata, List.append_nil]
    exact .pending
  rw [if_neg hdata] at h
  cases hfind : findEndOfHttpHeaders (hcp.readBuf ++ data) with
  | none =>
    simp only [hfind] at h
    split_ifs at h
    · obtain ⟨rfl, rfl⟩ := h
      exact ⟨rfl, .bad (by simp [Hcp.badResponse, Hcp.publish]) rfl rfl rfl rfl⟩
    · obtain ⟨rfl, rfl⟩ := h
      exact ⟨rfl, .pending⟩
  | some found =>
    obtain ⟨e, b⟩ := found
    simp only [hfind] at h
    cases hparse : env.parseHttpResponse ((hcp.readBuf ++ data).take e) with
    | none =>
      simp only [hparse] at h
      obtain ⟨rfl, rfl⟩ := h
      exact ⟨rfl, .bad (by simp [Hcp.badResponse, Hcp.publish]) rfl rfl rfl rfl⟩
    | some resp =>
      simp only [hparse] at h
      obtain ⟨hcp₁, hrecv, hret⟩ := Option.bind_eq_some_iff.mp h
      obtain ⟨rfl, rfl⟩ := hret
      exact ⟨rfl, .received hfind hparse hrecv⟩

/-- The header block that is found is that of the whole stream. -/
theorem headerBlock_eq {buf rest stream : List UInt8} {e b : ℕ} (hparts : buf ++ rest = stream)
    (hfind : findEndOfHttpHeaders buf = some (e, b)) :
    findEndOfHttpHeaders stream = some (e, b) ∧ stream.take e = buf.take e := by
  have hlt := findEndOfHttpHeaders_lt hfind
  have hle := findEndOfHttpHeaders_le hfind
  rw [← hparts]
  exact ⟨findEndOfHttpHeaders_append _ hfind, List.take_append_of_le_length (by omega)⟩

/-- What is known when the headers of a final response have been received. -/
structure ResponseFresh (hcp : Hcp) (resp : HttpResponse) (rest : List UInt8) (hcp' : Hcp) :
    Prop where
  state_eq : hcp'.state = .receivingBody
  more : hcp'.requestComplete = hcp.requestComplete
  resp_eq : hcp'.resp = { resp with contentReceived := 0, cdstate := hcp'.resp.cdstate }
  chunk_eq : resp.chunkedEncoding = false → hcp'.firstBodyChunk.getD [] = rest
  complete : hcp'.responseBodyComplete = true → hcp.responseBodyComplete = true ∨
    ¬ resp.UntilClose

theorem headersReceived_fresh {hcp hcp' : Hcp} {resp : HttpResponse} {rest : List UInt8}
    (h100 : hcp.receiving100Continue = false) (h : hcp.headersReceived resp rest = some hcp') :
    ResponseFresh hcp resp rest hcp' := by
  unfold Hcp.headersReceived at h
  dsimp only at h
  rw [if_neg (by simp [h100])] at h
  obtain ⟨hcp₁, hchunk, hret⟩ := Option.bind_eq_some_iff.mp h
  obtain rfl := Option.some.inj hret
  unfold Hcp.setFirstBodyChunk at hchunk
  dsimp only at hchunk
  split_ifs at hchunk with hnil hch hlen
  · obtain rfl := Option.some.inj hchunk
    exact ⟨rfl, rfl, rfl, fun _ => hnil.symm, .inl⟩
  · -- a chunked body, of which only the record is known
    obtain ⟨r, -, hchunk⟩ := Option.bind_eq_some_iff.mp hchunk
    split_ifs at hchunk
    all_goals
      obtain rfl := Option.some.inj hchunk
      exact ⟨rfl, rfl, rfl, fun hplain => absurd hch (by simp [hplain]),
        fun _ => .inr fun hclose => absurd hch (by simp [hclose.1])⟩
  · obtain rfl := Option.some.inj hchunk
    refine ⟨rfl, rfl, rfl, fun _ => rfl, fun _ => .inr fun hclose => ?_⟩
    have hneg := hclose.2
    exact absurd hlen.2 (by omega)
  · obtain rfl := Option.some.inj hchunk
    exact ⟨rfl, rfl, rfl, fun _ => rfl, .inl⟩

/-! ### The invariant -/

/-- Where the backend's bytes are. -/
structure Delivery.Inv (stream : List UInt8) (s : Delivery) : Prop where
  phase : (s.hcp.state = .waitingForResponse ∨ s.hcp.state = .receivingHeaders ∨
      s.hcp.state = .receivingBody) ∧ s.hcp.requestComplete = false ∨
    s.hcp.state = .idle ∧ s.hcp.requestComplete = true
  headers : s.hcp.state = .waitingForResponse ∨ s.hcp.state = .receivingHeaders →
    s.hcp.receiving100Continue = false ∧
      (¬ s.Refused → s.hcp.readBuf ++ s.sock.incoming = stream)
  early : s.hcp.requestComplete = false → s.eof = false ∧
    (s.hcp.state ≠ .receivingBody → s.delivered = [])
  late : s.hcp.requestComplete = true → s.eof = true
  body : s.hcp.state = .receivingBody → s.hcp.resp.chunkedEncoding = false →
    s.delivered ++ s.hcp.firstBodyChunk.getD [] ++ s.sock.incoming = bytesAfterHeaders stream ∧
      s.hcp.resp.contentReceived = s.delivered.length

theorem Delivery.start_inv (hcp : Hcp) (sock : Socket) :
    (Delivery.start hcp sock).Inv sock.incoming := by
  constructor
  · exact .inl ⟨.inl rfl, rfl⟩
  · exact fun _ => ⟨rfl, fun _ => rfl⟩
  · exact fun _ => ⟨rfl, fun _ => rfl⟩
  · intro hdone
    cases hdone
  · intro hst
    cases hst

/-- Only a connection that is idle has completed its response. -/
theorem Delivery.Inv.not_complete {stream : List UInt8} {s : Delivery} (hinv : s.Inv stream)
    (hst : s.hcp.state ≠ .idle) : s.hcp.requestComplete = false := by
  rcases hinv.phase with ⟨-, hmore⟩ | ⟨hidle, -⟩
  · exact hmore
  · exact absurd hidle hst

/-- Nothing is left to be known of a response that is complete. -/
theorem Delivery.Inv.of_done {stream : List UInt8} {s : Delivery} (hidle : s.hcp.state = .idle)
    (hdone : s.hcp.requestComplete = true) (heof : s.eof = true) : s.Inv stream := by
  constructor
  · exact .inr ⟨hidle, hdone⟩
  · intro hhead
    rw [hidle] at hhead
    simp at hhead
  · intro hmore
    exact absurd (hdone.symm.trans hmore) (by simp)
  · exact fun _ => heof
  · intro hbody
    rw [hidle] at hbody
    cases hbody

/-- The first call for a header block changes the state at most. -/
theorem openHeaders_spec {hcp : Hcp}
    (hst : hcp.state = .waitingForResponse ∨ hcp.state = .receivingHeaders) :
    hcp.openHeaders.state = .receivingHeaders ∧ hcp.openHeaders.readBuf = hcp.readBuf ∧
      hcp.openHeaders.requestComplete = hcp.requestComplete ∧
      hcp.openHeaders.receiving100Continue = hcp.receiving100Continue ∧
      hcp.openHeaders.responseBodyComplete = hcp.responseBodyComplete := by
  unfold Hcp.openHeaders
  split_ifs with hwait
  · exact ⟨rfl, rfl, rfl, rfl, rfl⟩
  · exact ⟨hst.resolve_left hwait, rfl, rfl, rfl, rfl⟩

/-- Reading headers keeps the invariant. -/
theorem Delivery.Inv.readHeaders {env : ClientEnv} {stream : List UInt8} {s s' : Delivery}
    {room avail : ℕ} (hinv : s.Inv stream) (hstep : s.step env (.headers room avail) = some s') :
    s'.Inv stream ∧ s'.delivered = [] ∧ s'.eof = false := by
  simp only [Delivery.step] at hstep
  obtain ⟨⟨hst, hok⟩, hstep⟩ := Option.ite_none_right_eq_some.mp hstep
  obtain ⟨⟨hcp', sock'⟩, hread, hs'⟩ := Option.map_eq_some_iff.mp hstep
  subst hs'
  have hmore := hinv.not_complete (by rcases hst with h | h <;> simp [h])
  obtain ⟨h100, hbytes⟩ := hinv.headers hst
  obtain ⟨heof, hdel⟩ := hinv.early hmore
  have hdel : s.delivered = [] := hdel (by rcases hst with h | h <;> simp [h])
  obtain ⟨rfl, hcases⟩ := hcp_dataInReadHeaders_cases hread
  obtain ⟨hopen, hbuf, hreq, hcont, -⟩ := openHeaders_spec hst
  rw [hbuf] at hcases
  -- the bytes that were read move from the socket to the arena
  have hparts : s.hcp.readBuf ++ (s.sock.dataRecvRead room (s.arrivedBytes avail)).1 ++
      (s.sock.dataRecvRead room (s.arrivedBytes avail)).2.incoming = stream := by
    rw [Socket.dataRecvRead_data, Socket.dataRecvRead_incoming, List.append_assoc,
      List.take_append_drop]
    exact hbytes hok
  generalize s.sock.dataRecvRead room (s.arrivedBytes avail) = rd at hcases hparts ⊢
  obtain ⟨data, sock'⟩ := rd
  dsimp only at hcases hparts ⊢
  refine ⟨?_, hdel, heof⟩
  cases hcases with
  | pending =>
    constructor
    · exact .inl ⟨.inr (.inl hopen), hreq.trans hmore⟩
    · exact fun _ => ⟨hcont.trans h100, fun _ => hparts⟩
    · exact fun _ => ⟨heof, fun _ => hdel⟩
    · exact fun hdone => absurd (hdone.symm.trans (hreq.trans hmore)) (by simp)
    · intro hbody
      exact absurd (hopen.symm.trans hbody) (by simp)
  | bad hmem hstate hreq' h100' _ =>
    constructor
    · exact .inl ⟨.inr (.inl (hstate.trans hopen)), (hreq'.trans hreq).trans hmore⟩
    · exact fun _ => ⟨(h100'.trans hcont).trans h100, fun hok' => absurd hmem hok'⟩
    · exact fun _ => ⟨heof, fun _ => hdel⟩
    · exact fun hdone => absurd (hdone.symm.trans ((hreq'.trans hreq).trans hmore)) (by simp)
    · intro hbody
      exact absurd ((hstate.trans hopen).symm.trans hbody) (by simp)
  | @received hcp' e b resp hfind hparse hrecv =>
    obtain ⟨hstate, hreq', hresp, hchunk, -⟩ := headersReceived_fresh (hcont.trans h100) hrecv
    constructor
    · exact .inl ⟨.inr (.inr hstate), (hreq'.trans hreq).trans hmore⟩
    · intro hhead
      rw [hstate] at hhead
      simp at hhead
    · exact fun _ => ⟨heof, fun hbody => absurd hstate hbody⟩
    · exact fun hdone => absurd (hdone.symm.trans ((hreq'.trans hreq).trans hmore)) (by simp)
    · intro _ hplain
      rw [hresp] at hplain
      refine ⟨?_, by rw [hresp, hdel]; rfl⟩
      -- the search has found the end of the headers of the whole stream
      have hle := findEndOfHttpHeaders_le hfind
      have hwhole : findEndOfHttpHeaders stream = some (e, b) := by
        rw [← hparts, findEndOfHttpHeaders_append _ hfind]
      rw [hdel, hchunk hplain, bytesAfterHeaders, hwhole, ← hparts, List.nil_append,
        Option.map_some, Option.getD_some, List.drop_append_of_le_length hle]

/-- A read of a response that is not chunked keeps the invariant, and is a `PlainRead`. -/
theorem Delivery.Inv.readPlain {env : ClientEnv} {stream : List UInt8} {s s' : Delivery}
    {size avail : ℕ} (hinv : s.Inv stream) (hst : s.hcp.state = .receivingBody)
    (hplain : s.hcp.resp.chunkedEncoding = false)
    (hstep : s.step env (.read size avail) = some s') :
    s'.Inv stream ∧ ∃ r, PlainRead s.hcp s.sock size (s.arrivedBytes avail) r ∧
      s' = s.afterRead r := by
  have hmore := hinv.not_complete (by simp [hst])
  obtain ⟨hbytes, hcount⟩ := hinv.body hst hplain
  obtain ⟨heof, -⟩ := hinv.early hmore
  obtain ⟨r, hr, hread⟩ :=
    respBodyOutRead_plain hplain hst hmore s.sock size (s.arrivedBytes avail)
  obtain ⟨r', hr', rfl⟩ := Option.map_eq_some_iff.mp hstep
  obtain rfl := Option.some.inj (hr.symm.trans hr')
  refine ⟨?_, r, hread, rfl⟩
  cases he : r.eof with
  | true =>
    obtain ⟨hidle, hdone⟩ := hread.done he
    exact .of_done hidle hdone (by simp [Delivery.afterRead, he])
  | false =>
    obtain ⟨hstate, hreq, hrest⟩ := hread.more he
    have hstate' : (s.afterRead r).hcp.state = .receivingBody := hstate
    constructor
    · exact .inl ⟨.inr (.inr hstate), hreq⟩
    · intro hhead
      rw [hstate'] at hhead
      simp at hhead
    · exact fun _ => ⟨by simp [Delivery.afterRead, heof, he], fun hbody => absurd hstate hbody⟩
    · exact fun hdone => absurd (hdone.symm.trans hreq) (by simp)
    · intro _ _
      refine ⟨?_, ?_⟩
      · show s.delivered ++ r.data ++ r.hcp.firstBodyChunk.getD [] ++ r.sock.incoming = _
        rw [hrest, hread.data_eq, hread.incoming_eq, ← hbytes, Hcp.readPart]
        exact hread.bytes_eq_append s.delivered
      · show r.hcp.resp.contentReceived = (s.delivered ++ r.data).length
        rw [hread.resp_eq, List.length_append, ← hcount]

/-- A read of a chunked response keeps what is known of it. -/
theorem Delivery.Inv.readChunked {env : ClientEnv} {stream : List UInt8} {s s' : Delivery}
    {size avail : ℕ} (hinv : s.Inv stream) (hst : s.hcp.state = .receivingBody)
    (hch : s.hcp.resp.chunkedEncoding = true) (hstep : s.step env (.read size avail) = some s') :
    s'.Inv stream ∧ s'.hcp.resp.chunkedEncoding = true := by
  have hmore := hinv.not_complete (by simp [hst])
  obtain ⟨heof, -⟩ := hinv.early hmore
  obtain ⟨r, hr, rfl⟩ := Option.map_eq_some_iff.mp hstep
  obtain ⟨⟨hch', -, -⟩, hgoes, hends⟩ := respBodyOutRead_phase hst hmore hr
  refine ⟨?_, hch'.trans hch⟩
  cases he : r.eof with
  | true =>
    obtain ⟨hidle, hdone⟩ := hends he
    exact .of_done hidle hdone (by simp [Delivery.afterRead, he])
  | false =>
    obtain ⟨hstate, hreq⟩ := hgoes he
    have hstate' : (s.afterRead r).hcp.state = .receivingBody := hstate.trans hst
    constructor
    · exact .inl ⟨.inr (.inr hstate'), hreq.trans hmore⟩
    · intro hhead
      rw [hstate'] at hhead
      simp at hhead
    · exact fun _ => ⟨by simp [Delivery.afterRead, heof, he], fun hbody => absurd hstate' hbody⟩
    · exact fun hdone => absurd (hdone.symm.trans (hreq.trans hmore)) (by simp)
    · intro _ hplain
      exact absurd ((hch'.trans hch).symm.trans hplain) (by simp)

/-- What an event that reads nothing leaves as it was. -/
structure Delivery.SameBytes (s s' : Delivery) : Prop where
  state_eq : s'.hcp.state = s.hcp.state
  complete_eq : s'.hcp.requestComplete = s.hcp.requestComplete
  h100 : s'.hcp.receiving100Continue = s.hcp.receiving100Continue
  resp_eq : s'.hcp.resp = s.hcp.resp
  chunk_eq : s'.hcp.firstBodyChunk = s.hcp.firstBodyChunk
  buf_eq : s'.hcp.readBuf = s.hcp.readBuf
  events : s.hcp.eventsPub ⊆ s'.hcp.eventsPub
  incoming_eq : s'.sock.incoming = s.sock.incoming
  delivered_eq : s'.delivered = s.delivered
  eof_eq : s'.eof = s.eof

theorem Delivery.Inv.same {stream : List UInt8} {s s' : Delivery} (hinv : s.Inv stream)
    (h : s.SameBytes s') : s'.Inv stream := by
  obtain ⟨hstate, hcomplete, h100, hresp, hchunk, hbuf, hevents, hin, hdel, heof⟩ := h
  constructor
  · rw [hstate, hcomplete]
    exact hinv.phase
  · rw [hstate, h100, hbuf, hin]
    intro hhead
    obtain ⟨hcont, hbytes⟩ := hinv.headers hhead
    exact ⟨hcont, fun hok => hbytes fun hmem => hok (hevents hmem)⟩
  · rw [hcomplete, hstate, heof, hdel]
    exact hinv.early
  · rw [hcomplete, heof]
    exact hinv.late
  · rw [hstate, hresp, hchunk, hin, hdel]
    exact hinv.body

theorem dataErrorOnMessage_same (s : Delivery) (code : ℤ) :
    s.SameBytes { s with hcp := s.hcp.dataErrorOnMessage code } := by
  unfold Hcp.dataErrorOnMessage
  split_ifs
  · exact ⟨rfl, rfl, rfl, rfl, rfl, rfl, fun _ h => h, rfl, rfl, rfl⟩
  · exact ⟨rfl, rfl, rfl, rfl, rfl, rfl, fun _ h => h, rfl, rfl, rfl⟩
  · exact ⟨rfl, rfl, rfl, rfl, rfl, rfl, fun _ h => List.mem_append_left _ h, rfl, rfl, rfl⟩

/-- A response goes on, or has been completed, by a read. -/
theorem PlainRead.responding {s : Delivery} {size avail : ℕ} {r : RespRead}
    (h : PlainRead s.hcp s.sock size avail r) : (s.afterRead r).Responding := by
  cases he : r.eof with
  | true => exact .inr (h.done he).2
  | false => exact .inl (h.more he).1

/-- What one event can do to a response. -/
inductive DeliveryStep (s : Delivery) : DeliveryEvent → Delivery → Prop
  /-- Nothing of the response is read, and an end that was signalled stays. -/
  | same {e : DeliveryEvent} {s' : Delivery} (hother : ∀ size avail, e ≠ .read size avail)
      (hsame : s.SameBytes s') : DeliveryStep s e s'
  /-- A read outside of the body gets nothing. -/
  | idle {size avail : ℕ} {s' : Delivery} (hst : s.hcp.state ≠ .receivingBody)
      (hst' : s'.hcp.state = s.hcp.state) (hdone : s'.hcp.requestComplete = s.hcp.requestComplete)
      (hresp : s'.hcp.resp = s.hcp.resp) (hdel : s'.delivered = s.delivered)
      (heof : s'.eof = (s.eof || s.hcp.requestComplete)) : DeliveryStep s (.read size avail) s'
  /-- Headers are read. -/
  | headers {room avail : ℕ} {s' : Delivery} (hdel : s'.delivered = []) (heof : s'.eof = false) :
      DeliveryStep s (.headers room avail) s'
  /-- A part of the body is read. -/
  | read {size avail : ℕ} {r : RespRead} (hst : s.hcp.state = .receivingBody)
      (hplain : s.hcp.resp.chunkedEncoding = false)
      (hread : PlainRead s.hcp s.sock size (s.arrivedBytes avail) r) :
      DeliveryStep s (.read size avail) (s.afterRead r)
  /-- A part of a chunked body is read. -/
  | chunked {size avail : ℕ} {s' : Delivery} (hch : s.hcp.resp.chunkedEncoding = true)
      (hch' : s'.hcp.resp.chunkedEncoding = true) : DeliveryStep s (.read size avail) s'

theorem delivery_step {env : ClientEnv} {stream : List UInt8} {s s' : Delivery}
    {e : DeliveryEvent} (hinv : s.Inv stream) (hstep : s.step env e = some s') :
    s'.Inv stream ∧ DeliveryStep s e s' := by
  cases e with
  | arrival =>
    obtain rfl := Option.some.inj hstep
    have hsame : s.SameBytes { s with sock.ready := true } :=
      ⟨rfl, rfl, rfl, rfl, rfl, rfl, fun _ h => h, rfl, rfl, rfl⟩
    exact ⟨hinv.same hsame, .same (fun _ _ h => by cases h) hsame⟩
  | close =>
    obtain rfl := Option.some.inj hstep
    have hsame : s.SameBytes { s with closed := true, sock.ready := true } :=
      ⟨rfl, rfl, rfl, rfl, rfl, rfl, fun _ h => h, rfl, rfl, rfl⟩
    exact ⟨hinv.same hsame, .same (fun _ _ h => by cases h) hsame⟩
  | notify code =>
    obtain ⟨-, hstep⟩ := Option.ite_none_right_eq_some.mp hstep
    obtain rfl := Option.some.inj hstep
    have hsame := dataErrorOnMessage_same s code
    exact ⟨hinv.same hsame, .same (fun _ _ h => by cases h) hsame⟩
  | headers room avail =>
    obtain ⟨hinv', hdel, heof⟩ := hinv.readHeaders hstep
    exact ⟨hinv', .headers hdel heof⟩
  | read size avail =>
    by_cases hst : s.hcp.state = .receivingBody
    · cases hch : s.hcp.resp.chunkedEncoding with
      | false =>
        obtain ⟨hinv', r, hread, rfl⟩ := hinv.readPlain hst hch hstep
        exact ⟨hinv', .read hst hch hread⟩
      | true =>
        obtain ⟨hinv', hch'⟩ := hinv.readChunked hst hch hstep
        exact ⟨hinv', .chunked hch hch'⟩
    · obtain ⟨r, hr, hdata, heof, hsock, hhcp⟩ :=
        respBodyOutRead_idle hst s.sock size (s.arrivedBytes avail)
      obtain ⟨r', hr', rfl⟩ := Option.map_eq_some_iff.mp hstep
      obtain rfl := Option.some.inj (hr.symm.trans hr')
      have hdel : (s.afterRead r).delivered = s.delivered := by
        simp [Delivery.afterRead, hdata]
      have heof' : (s.afterRead r).eof = (s.eof || s.hcp.requestComplete) := by
        simp [Delivery.afterRead, heof]
      have hhcp' : (s.afterRead r).hcp = _ := hhcp
      refine ⟨?_, .idle hst (by rw [hhcp']) (by rw [hhcp']) (by rw [hhcp']) hdel heof'⟩
      constructor
      · rw [hhcp']
        exact hinv.phase
      · intro hhead
        rw [hhcp'] at hhead
        obtain ⟨hcont, hbytes⟩ := hinv.headers hhead
        refine ⟨by rw [hhcp']; exact hcont, fun hok => ?_⟩
        have hok' : ¬ s.Refused := by
          intro hmem
          apply hok
          show _ ∈ (s.afterRead r).hcp.eventsPub
          rw [hhcp']
          exact hmem
        show (s.afterRead r).hcp.readBuf ++ r.sock.incoming = stream
        rw [hhcp', hsock]
        exact hbytes hok'
      · intro hmore
        rw [hhcp'] at hmore
        have hmore' : s.hcp.requestComplete = false := hmore
        obtain ⟨heof₀, hdel₀⟩ := hinv.early hmore'
        refine ⟨by rw [heof', heof₀, hmore']; rfl, fun _ => ?_⟩
        rw [hdel]
        exact hdel₀ hst
      · intro hdone
        rw [hhcp'] at hdone
        rw [heof', show s.hcp.requestComplete = true from hdone, Bool.or_true]
      · intro hbody
        rw [hhcp'] at hbody
        exact absurd hbody hst

/-- A property of a response that is not chunked, of the bytes that were delivered of it, and of
whether its end was signalled. -/
def Delivery.Holds (Q : HttpResponse → List UInt8 → Bool → Prop) (s : Delivery) : Prop :=
  s.Responding → s.hcp.resp.chunkedEncoding = false → Q s.hcp.resp s.delivered s.eof

/-- Whether an event keeps such a property depends on the reads of the body only. -/
theorem DeliveryStep.holds_iff {Q : HttpResponse → List UInt8 → Bool → Prop}
    {Fits : DeliveryEvent → Prop} {stream : List UInt8} {s s' : Delivery} {e : DeliveryEvent}
    (h : DeliveryStep s e s') (hinv : s.Inv stream) (hs : s.Holds Q)
    (hnil : ∀ resp, Q resp [] false)
    (hother : ∀ e, (∀ size avail, e = .read size avail →
      s.hcp.state ≠ .receivingBody ∨ s.hcp.resp.chunkedEncoding = true) → Fits e)
    (hread : ∀ size avail r, s.hcp.state = .receivingBody →
      s.hcp.resp.chunkedEncoding = false →
      PlainRead s.hcp s.sock size (s.arrivedBytes avail) r →
      ((s.afterRead r).Holds Q ↔ Fits (.read size avail))) :
    s'.Holds Q ↔ Fits e := by
  cases h with
  | same hne hsame =>
    refine iff_of_true ?_ (hother e fun size avail h => absurd h (hne size avail))
    intro hresp
    rw [Delivery.Responding, hsame.state_eq, hsame.complete_eq] at hresp
    rw [hsame.resp_eq, hsame.delivered_eq, hsame.eof_eq]
    exact hs hresp
  | idle hst hst' hdone hresp hdel heof =>
    refine iff_of_true ?_ (hother _ fun _ _ _ => .inl hst)
    intro hr
    have hdone' : s.hcp.requestComplete = true := by
      rcases hr with h | h
      · exact absurd (hst'.symm.trans h) hst
      · exact hdone.symm.trans h
    have heof' : s'.eof = s.eof := by rw [heof, hdone', Bool.or_true, hinv.late hdone']
    rw [hresp, hdel, heof']
    exact hs (.inr hdone')
  | headers hdel heof =>
    refine iff_of_true ?_ (hother _ fun _ _ h => by cases h)
    intro _ _
    rw [hdel, heof]
    exact hnil _
  | read hst hplain hr => exact hread _ _ _ hst hplain hr
  | chunked hch hch' =>
    refine iff_of_true ?_ (hother _ fun _ _ _ => .inr hch)
    intro _ hplain
    exact absurd (hch'.symm.trans hplain) (by simp)

end Nxweb
