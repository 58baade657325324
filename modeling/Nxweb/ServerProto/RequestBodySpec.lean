import Nxweb.Chunked.DecoderCorrectness
import Nxweb.ServerProto.RequestBody

/-!
# What one read of the request body does

`ReadOutcome` says what `req_body_out_read` leaves behind while the body is being received, for
all encodings: the bytes of the first chunk and then those of the socket are received, and the
read stops after the first part if that completes the body (`reqBodyOutRead_cases`).
-/

namespace Nxweb

/-! ### The socket -/

@[simp]
theorem Socket.dataRecvRead_data (sock : Socket) (size avail : ℕ) :
    (sock.dataRecvRead size avail).1 = sock.incoming.take (min avail size) := by
  unfold Socket.dataRecvRead
  split_ifs with h
  · rfl
  · simp [Nat.eq_zero_of_not_pos h]

@[simp]
theorem Socket.dataRecvRead_incoming (sock : Socket) (size avail : ℕ) :
    (sock.dataRecvRead size avail).2.incoming = sock.incoming.drop (min avail size) := by
  unfold Socket.dataRecvRead
  split_ifs with h
  · rfl
  · simp [Nat.eq_zero_of_not_pos h]

/-- The bytes that can be read from the socket. -/
def Socket.arrived (sock : Socket) (avail : ℕ) : List UInt8 :=
  if sock.ready then sock.incoming.take avail else []

/-- What is read of a socket that is asked only if it is ready. -/
theorem Socket.readIfReady_data (sock : Socket) (size avail : ℕ) :
    (sock.readIfReady size avail).1 = (sock.arrived avail).take size := by
  unfold Socket.readIfReady Socket.arrived
  split_ifs
  · rw [dataRecvRead_data, List.take_take, min_comm]
  · simp

theorem Socket.readIfReady_incoming (sock : Socket) (size avail : ℕ) :
    (sock.readIfReady size avail).2.incoming =
      sock.incoming.drop ((sock.arrived avail).take size).length := by
  unfold Socket.readIfReady Socket.arrived
  split_ifs
  · rw [dataRecvRead_incoming, List.take_take, List.length_take, ← List.drop_eq_drop_min, min_comm]
  · simp

theorem Socket.arrived_take_eq (sock : Socket) (size avail : ℕ) :
    (sock.arrived avail).take size =
      sock.incoming.take ((sock.arrived avail).take size).length := by
  unfold Socket.arrived
  split_ifs
  · rw [List.take_take, List.length_take, ← List.take_eq_take_min]
  · simp

/-! ### The parts of a read -/

@[simp]
theorem HttpRequest.count_contentReceived (req : HttpRequest) (n : ℕ) :
    (req.count n).contentReceived = req.contentReceived + n := rfl

@[simp]
theorem HttpRequest.count_contentLength (req : HttpRequest) (n : ℕ) :
    (req.count n).contentLength = req.contentLength := rfl

@[simp]
theorem HttpRequest.count_chunkedEncoding (req : HttpRequest) (n : ℕ) :
    (req.count n).chunkedEncoding = req.chunkedEncoding := rfl

@[simp]
theorem HttpRequest.count_chunkedContentComplete (req : HttpRequest) (n : ℕ) :
    (req.count n).chunkedContentComplete = req.chunkedContentComplete := rfl

@[simp]
theorem HttpRequest.count_zero (req : HttpRequest) : req.count 0 = req := rfl

@[simp]
theorem HttpRequest.count_count (req : HttpRequest) (m n : ℕ) :
    (req.count m).count n = req.count (m + n) := by
  simp [HttpRequest.count, add_assoc]

/-- A part of a body of known length is handed out as it is. -/
theorem receiveBody_plain {req : HttpRequest} (hplain : req.chunkedEncoding = false)
    (raw : List UInt8) : req.receiveBody raw = some (raw, req.count raw.length, false) := by
  simp [HttpRequest.receiveBody, hplain]

theorem decodeChunkedStream_nil (ds : ChunkedDecoderState) :
    decodeChunkedStream ds [] = some ⟨0, ds, [], 0⟩ := by
  simp [decodeChunkedStream, decodeLoop, decodeIter, DecodeFrame.enter, DecodeFrame.retLen]

/-- A part without bytes changes nothing. -/
theorem receiveBody_nil (req : HttpRequest) : req.receiveBody [] = some ([], req, false) := by
  cases hch : req.chunkedEncoding with
  | false => simp [receiveBody_plain hch]
  | true =>
    simp only [HttpRequest.receiveBody, if_pos hch, decodeChunkedStream_nil]
    simp [DecodeResult.kept]

/-- The request after `n` more bytes of its body: only the count and the decoder have changed. -/
structure Counts (req : HttpRequest) (n : ℕ) (req' : HttpRequest) : Prop where
  chunkedEncoding_eq : req'.chunkedEncoding = req.chunkedEncoding
  contentLength_eq : req'.contentLength = req.contentLength
  bufferingToMemory_eq : req'.bufferingToMemory = req.bufferingToMemory
  contentReceived_eq : req'.contentReceived = req.contentReceived + n

theorem Counts.refl (req : HttpRequest) : Counts req 0 req := ⟨rfl, rfl, rfl, rfl⟩

theorem Counts.trans {req₁ req₂ req₃ : HttpRequest} {m n : ℕ} (h₁ : Counts req₁ m req₂)
    (h₂ : Counts req₂ n req₃) : Counts req₁ (m + n) req₃ where
  chunkedEncoding_eq := h₂.chunkedEncoding_eq.trans h₁.chunkedEncoding_eq
  contentLength_eq := h₂.contentLength_eq.trans h₁.contentLength_eq
  bufferingToMemory_eq := h₂.bufferingToMemory_eq.trans h₁.bufferingToMemory_eq
  contentReceived_eq := by rw [h₂.contentReceived_eq, h₁.contentReceived_eq, add_assoc]

/-- Receiving a part counts what is handed out. -/
theorem receiveBody_counts {req req' : HttpRequest} {raw data : List UInt8} {err : Bool}
    (h : req.receiveBody raw = some (data, req', err)) : Counts req data.length req' := by
  cases hch : req.chunkedEncoding with
  | false =>
    rw [receiveBody_plain hch] at h
    obtain ⟨rfl, rfl, rfl⟩ := h
    exact ⟨rfl, rfl, rfl, rfl⟩
  | true =>
    simp only [HttpRequest.receiveBody, if_pos hch] at h
    obtain ⟨r, -, hret⟩ := Option.bind_eq_some_iff.mp h
    obtain ⟨rfl, rfl, rfl⟩ := hret
    exact ⟨rfl, rfl, rfl, rfl⟩

/-- What a read leaves behind when it has received the request `req`, after the encoding errors
`errs`. -/
structure ReadOutcome (hsp : Hsp) (size : ℕ) (errs : List HspMessage) (req : HttpRequest)
    (r : BodyRead) : Prop where
  req_eq : r.hsp.req = req
  chunk_eq : r.hsp.firstBodyChunk = hsp.firstBodyChunk.drop size
  readBuf_eq : r.hsp.readBuf = hsp.readBuf
  resp_eq : r.hsp.resp = hsp.resp
  paired_eq : r.hsp.reqBodyOutPaired = hsp.reqBodyOutPaired
  eof_eq : r.eof = req.isRequestBodyComplete
  state_eq : r.hsp.state = if req.isRequestBodyComplete then .handling else .receivingBody
  events_eq : r.hsp.eventsPub = hsp.eventsPub ++ errs ++
    if req.isRequestBodyComplete then [.requestBodyReceived] else []

theorem ReadOutcome.handling_iff {hsp : Hsp} {size : ℕ} {errs : List HspMessage}
    {req : HttpRequest} {r : BodyRead} (h : ReadOutcome hsp size errs req r) :
    r.hsp.state = .handling ↔ req.isRequestBodyComplete = true := by
  rw [h.state_eq]
  split_ifs with hdone <;> simp [hdone]

theorem ReadOutcome.receiving_iff {hsp : Hsp} {size : ℕ} {errs : List HspMessage}
    {req : HttpRequest} {r : BodyRead} (h : ReadOutcome hsp size errs req r) :
    r.hsp.state = .receivingBody ↔ req.isRequestBodyComplete = false := by
  rw [h.state_eq]
  split_ifs with hdone <;> simp [hdone]

/-- The message about an encoding error. -/
def encodingError (err : Bool) : List HspMessage :=
  if err then [.requestChunkedEncodingError] else []

/-- The two ways a read of the body can go. -/
inductive ReadCases (hsp : Hsp) (sock : Socket) (size avail : ℕ) (r : BodyRead) : Prop
  | first {data : List UInt8} {req : HttpRequest} {err : Bool}
      (hfirst : hsp.req.receiveBody (hsp.firstBodyChunk.take size) = some (data, req, err))
      (hdone : req.isRequestBodyComplete = true)
      (hdata : r.data = data) (hsock : r.sock = some sock)
      (hout : ReadOutcome hsp size (encodingError err) req r)
  | both {data₁ data₂ : List UInt8} {req₁ req₂ : HttpRequest} {err₁ err₂ : Bool} {sock' : Socket}
      (hfirst : hsp.req.receiveBody (hsp.firstBodyChunk.take size) = some (data₁, req₁, err₁))
      (hmore : req₁.isRequestBodyComplete = false)
      (hsecond : req₁.receiveBody ((sock.arrived avail).take (size - data₁.length)) =
        some (data₂, req₂, err₂))
      (hdata : r.data = data₁ ++ data₂) (hsock : r.sock = some sock')
      (hincoming : sock'.incoming =
        sock.incoming.drop ((sock.arrived avail).take (size - data₁.length)).length)
      (hout : ReadOutcome hsp size (encodingError err₁ ++ encodingError err₂) req₂ r)

/-- One part, seen from its result. -/
theorem receiveBody_cases {hsp hsp' : Hsp} {raw data : List UInt8}
    (h : hsp.receiveBody raw = some (data, hsp')) :
    ∃ req err, hsp.req.receiveBody raw = some (data, req, err) ∧
      hsp' = { hsp with req, eventsPub := hsp.eventsPub ++ encodingError err } := by
  obtain ⟨⟨data', req, err⟩, hreq, hret⟩ := Option.bind_eq_some_iff.mp h
  obtain ⟨rfl, rfl⟩ := Prod.mk.inj (Option.some.inj hret)
  refine ⟨req, err, hreq, ?_⟩
  cases err <;> simp [Hsp.publish, encodingError]

/-- The second part of a read, when the first one has not completed the body. -/
theorem readBodyFromSocket_cases {hsp : Hsp} {sock : Socket} {data : List UInt8} {size avail : ℕ}
    {r : BodyRead} (hst : hsp.state = .receivingBody)
    (hmore : hsp.req.isRequestBodyComplete = false)
    (hread : hsp.readBodyFromSocket (some sock) data size avail = some r) :
    ∃ data₂ req₂ err₂ sock',
      hsp.req.receiveBody ((sock.arrived avail).take size) = some (data₂, req₂, err₂) ∧
      r.data = data ++ data₂ ∧ r.sock = some sock' ∧
      sock'.incoming = sock.incoming.drop ((sock.arrived avail).take size).length ∧
      ReadOutcome hsp 0 (encodingError err₂) req₂ r := by
  unfold Hsp.readBodyFromSocket at hread
  by_cases hsize : 0 < size
  · have hraw := sock.readIfReady_data size avail
    have hrest := sock.readIfReady_incoming size avail
    rw [if_pos hsize] at hread
    dsimp only at hread
    generalize sock.readIfReady size avail = rd at hraw hrest hread
    obtain ⟨raw, sock'⟩ := rd
    dsimp only at hraw hrest hread
    subst hraw
    obtain ⟨⟨data₂, hsp₂⟩, hrecv, hret⟩ := Option.bind_eq_some_iff.mp hread
    obtain ⟨req₂, err₂, hreq, rfl⟩ := receiveBody_cases hrecv
    refine ⟨data₂, req₂, err₂, sock', ?_⟩
    dsimp only at hret
    -- an unready socket only asks for the next notification
    cases hready : sock'.ready <;> cases hdone : req₂.isRequestBodyComplete <;>
      simp only [hready, hdone, if_true, if_false, Bool.false_eq_true] at hreq hret <;>
      obtain rfl := Option.some.inj hret
    all_goals
      refine ⟨hreq, rfl, rfl, hrest, ?_⟩
      constructor <;> simp [hdone, hst, Hsp.bodyReceived, Hsp.publish]
  · obtain rfl : size = 0 := by omega
    rw [if_neg hsize] at hread
    obtain rfl := Option.some.inj hread
    refine ⟨[], hsp.req, false, sock, receiveBody_nil _, by simp, rfl, by simp, ?_⟩
    constructor <;> simp [hmore, hst, encodingError]

/-- What a read can do while the body is being received. -/
theorem reqBodyOutRead_cases {hsp : Hsp} {sock : Socket} {size avail : ℕ} {r : BodyRead}
    (hst : hsp.state = .receivingBody) (hmore : hsp.req.isRequestBodyComplete = false)
    (hread : hsp.reqBodyOutRead (some sock) size avail = some r) :
    ReadCases hsp sock size avail r := by
  simp only [Hsp.reqBodyOutRead, hst] at hread
  by_cases hchunk : hsp.firstBodyChunk = []
  · rw [if_neg (not_not.mpr hchunk)] at hread
    obtain ⟨data₂, req₂, err₂, sock', hrecv, hdata, hsock, hincoming, hout⟩ :=
      readBodyFromSocket_cases (by rfl) (by exact hmore) hread
    have hfirst : hsp.req.receiveBody (hsp.firstBodyChunk.take size) = some ([], hsp.req, false) := by
      rw [hchunk, List.take_nil, receiveBody_nil]
    refine .both hfirst hmore hrecv hdata hsock hincoming ?_
    obtain ⟨hreq, hchunk', hbuf, hresp, hpaired, heof, hstate, hevents⟩ := hout
    exact ⟨hreq, by simpa [hchunk] using hchunk', hbuf, hresp, hpaired, heof, hstate, hevents⟩
  · rw [if_pos hchunk] at hread
    obtain ⟨⟨data₁, hsp₁⟩, hrecv, hret⟩ := Option.bind_eq_some_iff.mp hread
    obtain ⟨req₁, err₁, hfirst, rfl⟩ := receiveBody_cases hrecv
    dsimp only at hret
    cases hdone : req₁.isRequestBodyComplete with
    | true =>
      simp only [hdone, if_true] at hret
      obtain rfl := Option.some.inj hret
      refine .first hfirst hdone rfl rfl ?_
      constructor <;> simp [hdone, Hsp.bodyReceived, Hsp.publish]
    | false =>
      simp only [hdone, if_false, Bool.false_eq_true] at hret
      obtain ⟨data₂, req₂, err₂, sock', hsecond, hdata, hsock, hincoming, hout⟩ :=
        readBodyFromSocket_cases rfl hdone hret
      refine .both hfirst hdone hsecond hdata hsock hincoming ?_
      obtain ⟨hreq, hchunk', hbuf, hresp, hpaired, heof, hstate, hevents⟩ := hout
      exact ⟨hreq, by simpa using hchunk', hbuf, hresp, hpaired, heof, hstate,
        by simpa using hevents⟩

/-- A read counts what it returns. -/
theorem ReadCases.counts {hsp : Hsp} {sock : Socket} {size avail : ℕ} {r : BodyRead}
    (h : ReadCases hsp sock size avail r) : Counts hsp.req r.data.length r.hsp.req := by
  rcases h with
    ⟨hfirst, -, hdata, -, hout⟩ | ⟨hfirst, -, hsecond, hdata, -, -, hout⟩
  · rw [hout.req_eq, hdata]
    exact receiveBody_counts hfirst
  · rw [hout.req_eq, hdata, List.length_append]
    exact (receiveBody_counts hfirst).trans (receiveBody_counts hsecond)

theorem eq_of_mem_encodingError {err : Bool} {msg : HspMessage} (h : msg ∈ encodingError err) :
    msg = .requestChunkedEncodingError := by
  cases err with
  | false => simp [encodingError] at h
  | true => simpa [encodingError] using h

/-- A read publishes encoding errors and the end of the body. -/
theorem ReadCases.exists_outcome {hsp : Hsp} {sock : Socket} {size avail : ℕ} {r : BodyRead}
    (h : ReadCases hsp sock size avail r) :
    ∃ errs, (∀ msg ∈ errs, msg = HspMessage.requestChunkedEncodingError) ∧
      ReadOutcome hsp size errs r.hsp.req r := by
  rcases h with ⟨-, -, -, -, hout⟩ | ⟨-, -, -, -, -, -, hout⟩
  · exact ⟨_, fun _ hmsg => eq_of_mem_encodingError hmsg, hout.req_eq ▸ hout⟩
  · refine ⟨_, fun msg hmsg => ?_, hout.req_eq ▸ hout⟩
    rcases List.mem_append.mp hmsg with hmsg | hmsg <;> exact eq_of_mem_encodingError hmsg

/-- A read at any other time returns nothing and changes only who is waiting for whom. -/
theorem reqBodyOutRead_idle {hsp : Hsp} {sock : Option Socket} {size avail : ℕ} {r : BodyRead}
    (hst : hsp.state ≠ .receivingBody) (hread : hsp.reqBodyOutRead sock size avail = some r) :
    r.data = [] ∧ r.sock = sock ∧
      r.hsp = { hsp with
        reqBodyOutReady := r.hsp.reqBodyOutReady, dataInReady := r.hsp.dataInReady } := by
  unfold Hsp.reqBodyOutRead at hread
  split at hread
  next => obtain rfl := Option.some.inj hread; exact ⟨rfl, rfl, rfl⟩
  next h => exact absurd h hst
  next => obtain rfl := Option.some.inj hread; exact ⟨rfl, rfl, rfl⟩

/-- The second part of a read returns if the decoder does. -/
theorem readBodyFromSocket_isSome {hsp : Hsp} {sock : Socket} {size avail : ℕ}
    {data data₂ : List UInt8} {req : HttpRequest} {err : Bool}
    (hrecv : hsp.req.receiveBody ((sock.arrived avail).take size) = some (data₂, req, err)) :
    ∃ r, hsp.readBodyFromSocket (some sock) data size avail = some r := by
  unfold Hsp.readBodyFromSocket
  by_cases hsize : 0 < size
  · have hraw := sock.readIfReady_data size avail
    rw [if_pos hsize]
    dsimp only
    generalize sock.readIfReady size avail = rd at hraw ⊢
    generalize hhsp : (if rd.2.ready then hsp
      else { hsp with reqBodyOutReady := false, dataInReady := true }) = hsp'
    have hreq : hsp'.req = hsp.req := by
      rw [← hhsp]
      split_ifs <;> rfl
    rw [← hraw, ← hreq] at hrecv
    obtain ⟨x, hx⟩ : ∃ x, hsp'.receiveBody rd.1 = some x := by
      simp only [Hsp.receiveBody, hrecv]
      exact ⟨_, rfl⟩
    simp only [hx, Option.bind_eq_bind, Option.bind_some]
    split_ifs <;> exact ⟨_, rfl⟩
  · rw [if_neg hsize]
    exact ⟨_, rfl⟩

/-- A read without a first chunk hands out what the socket has. -/
theorem reqBodyOutRead_socket {hsp : Hsp} {sock : Socket} {size avail : ℕ} {data : List UInt8}
    {req : HttpRequest} {err : Bool} (hst : hsp.state = .receivingBody)
    (hmore : hsp.req.isRequestBodyComplete = false) (hchunk : hsp.firstBodyChunk = [])
    (hrecv : hsp.req.receiveBody ((sock.arrived avail).take size) = some (data, req, err)) :
    ∃ r sock', hsp.reqBodyOutRead (some sock) size avail = some r ∧ r.data = data ∧
      r.sock = some sock' ∧
      sock'.incoming = sock.incoming.drop ((sock.arrived avail).take size).length ∧
      ReadOutcome hsp size (encodingError err) req r := by
  obtain ⟨r, hr⟩ : ∃ r, hsp.reqBodyOutRead (some sock) size avail = some r := by
    simp only [Hsp.reqBodyOutRead, hst, hchunk, ne_eq, not_true_eq_false, if_false]
    exact readBodyFromSocket_isSome hrecv
  rcases reqBodyOutRead_cases hst hmore hr with
    ⟨hfirst, hdone, -, -, -⟩ | ⟨hfirst, -, hsecond, hdata, hsock, hincoming, hout⟩
  · rw [hchunk, List.take_nil, receiveBody_nil] at hfirst
    obtain ⟨rfl, rfl, rfl⟩ := hfirst
    simp [hmore] at hdone
  · rw [hchunk, List.take_nil, receiveBody_nil] at hfirst
    obtain ⟨rfl, rfl, rfl⟩ := hfirst
    rw [List.length_nil, Nat.sub_zero] at hsecond hincoming
    obtain ⟨rfl, rfl, rfl⟩ := hrecv.symm.trans hsecond
    exact ⟨r, _, hr, hdata, hsock, hincoming, hout⟩

/-- A body is being received, or is complete. -/
def Hsp.InBody (hsp : Hsp) : Prop :=
  hsp.state = .handling ∨ hsp.state = .receivingBody ∧ hsp.req.isRequestBodyComplete = false

/-- A read counts what it returns and stays in the body, which is complete at `NXEF_EOF`. -/
theorem reqBodyOutRead_inBody {hsp : Hsp} {sock : Socket} {size avail : ℕ} {r : BodyRead}
    (hbody : hsp.InBody) (hread : hsp.reqBodyOutRead (some sock) size avail = some r) :
    r.hsp.InBody ∧ Counts hsp.req r.data.length r.hsp.req ∧
      r.hsp.reqBodyOutPaired = hsp.reqBodyOutPaired ∧ (r.eof = true → r.hsp.state = .handling) := by
  rcases hbody with hst | ⟨hst, hmore⟩
  · obtain ⟨hdata, -, hhsp⟩ := reqBodyOutRead_idle (by simp [hst]) hread
    rw [hhsp, hdata]
    exact ⟨.inl hst, .refl _, rfl, fun _ => hst⟩
  · have hcases := reqBodyOutRead_cases hst hmore hread
    obtain ⟨errs, -, hout⟩ := hcases.exists_outcome
    refine ⟨?_, hcases.counts, hout.paired_eq, fun heof => ?_⟩
    · cases hdone : r.hsp.req.isRequestBodyComplete with
      | true => exact .inl (hout.handling_iff.mpr hdone)
      | false => exact .inr ⟨hout.receiving_iff.mpr hdone, hdone⟩
    · exact hout.handling_iff.mpr (hout.eof_eq ▸ heof)

end Nxweb
