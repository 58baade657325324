import Nxweb.ServerProto.ResponseBody
import Nxweb.Chunked.DecoderCorrectness

/-!
# The response body reaches the client as one chunked message

The encoder can stop after any byte. Between two writes it is in one of three situations,
and in each of them the bytes written so far and the rest of the current template together
form a known string.

* `Between`: the data of some chunks `cs` has been written; what is left of the line end
  completes `chunksWire cs`.
* `InChunk`: the template is followed by the data of a chunk that has been promised in its
  size line; that many bytes stay on offer until they are taken.
* `InFinal`: the terminator is being written.

`EncoderInv` is kept by the writes of one call (`writeChunked_inv`) and hence along every run
of calls (`runCalls_inv`), and no assertion of the encoder fails on the way. Decoding is not
mentioned before the last step, which applies the round trip of `decodeChunkedStream` to the
message the encoder has produced.
-/

namespace Nxweb

open ChunkedMessage

/-! ### The three situations of the encoder -/

/-- The template of a chunk of `n` bytes. -/
def chunkTemplate (n : ℕ) : List UInt8 := crlf ++ uintToHexStringZeropad n 4 ++ crlf

/-- The line end of the last chunk and the terminator. -/
def finalTemplate : List UInt8 := bytes "\r\n0\r\n\r\n"

@[simp]
theorem length_chunkTemplate (n : ℕ) : (chunkTemplate n).length = 8 := by
  simp [chunkTemplate]

/-- No chunk is open: `accepted` bytes of the body have been written as chunks, up to what is
left of the last line end. -/
structure Between (body : List UInt8) (es : ChunkedEncoderState) (emitted : List UInt8)
    (accepted : ℕ) : Prop where
  finalChunk : es.finalChunk = false
  headerPrepared : es.headerPrepared = false
  pos_le : es.pos ≤ 2
  buf_take : es.buf.take 2 = crlf
  buf_drop : es.buf.drop 6 = crlf
  written : ∃ cs, emitted ++ crlf.drop es.pos = chunksWire cs ∧
    chunksData cs = body.take accepted

/-- A chunk is open: its size line has been fixed and all of its bytes that have not been
taken are on offer. -/
structure InChunk (body : List UInt8) (es : ChunkedEncoderState) (emitted : List UInt8)
    (accepted offered : ℕ) : Prop where
  finalChunk : es.finalChunk = false
  headerPrepared : es.headerPrepared = true
  pos_lt : es.pos < 8 + es.chunkSize
  chunkSize_pos : 0 < es.chunkSize
  chunkSize_le : es.chunkSize ≤ 0xffff
  buf_eq : es.buf = chunkTemplate es.chunkSize
  on_offer : es.chunkSize ≤ offered + (es.pos - 8)
  written : ∃ cs start, accepted = start + (es.pos - 8) ∧
    start + es.chunkSize ≤ body.length ∧ chunksData cs = body.take start ∧
    emitted ++ es.buf.drop es.pos = chunksWire cs ++ uintToHexStringZeropad es.chunkSize 4 ++
      crlf ++ (body.drop start).take (es.pos - 8)

/-- The whole body has been written and the terminator is under way. -/
structure InFinal (body : List UInt8) (es : ChunkedEncoderState) (emitted : List UInt8)
    (accepted : ℕ) (eof : Bool) : Prop where
  finalChunk : es.finalChunk = true
  eof_eq : eof = true
  accepted_eq : accepted = body.length
  pos_le : es.pos ≤ 7
  buf_take : es.buf.take 7 = finalTemplate
  written : ∃ cs, emitted ++ finalTemplate.drop es.pos = chunksWire cs ++ bytes "0\r\n\r\n" ∧
    chunksData cs = body

/-- Invariant of the encoder between two writes: `emitted` has reached the next ostream,
`accepted` bytes of the body have been taken, `offered` more are on offer, and `eof` says
whether the end of the body has been announced. -/
inductive EncoderInv (body : List UInt8) (es : ChunkedEncoderState) (emitted : List UInt8)
    (accepted offered : ℕ) (eof : Bool) : Prop where
  | between (h : Between body es emitted accepted)
  | inChunk (h : InChunk body es emitted accepted offered)
  | inFinal (h : InFinal body es emitted accepted eof)

/-- A fresh encoder has written nothing. -/
theorem between_init (body : List UInt8) : Between body encodeChunkedInit [] 0 where
  finalChunk := rfl
  headerPrepared := rfl
  pos_le := le_rfl
  buf_take := by decide
  buf_drop := by decide
  written := ⟨[], by decide, by simp⟩

/-- A larger offer, and an announced end, keep the invariant. -/
theorem EncoderInv.mono {body emitted : List UInt8} {es : ChunkedEncoderState}
    {accepted offered offered' : ℕ} {eof eof' : Bool}
    (h : EncoderInv body es emitted accepted offered eof) (hoffered : offered ≤ offered')
    (heof : eof = true → eof' = true) : EncoderInv body es emitted accepted offered' eof' := by
  cases h with
  | between h => exact .between h
  | inChunk h => exact .inChunk { h with on_offer := by have := h.on_offer; omega }
  | inFinal h => exact .inFinal { h with eof_eq := heof h.eof_eq }

/-! ### Advancing -/

/-- Inside a template or a chunk the position moves by the bytes written. -/
theorem encodeChunkedAdvance_of_lt {es : ChunkedEncoderState} {n : ℕ}
    (h : es.pos + n < 8 + es.chunkSize) :
    encodeChunkedAdvance es n = { es with pos := es.pos + n } := by
  unfold encodeChunkedAdvance
  by_cases h0 : n = 0
  · simp [h0]
  · rw [if_neg h0]
    exact if_neg (by simp only; omega)

/-- The last byte of a chunk takes the position back to the start of the template. -/
theorem encodeChunkedAdvance_of_eq {es : ChunkedEncoderState} {n : ℕ} (h0 : 0 < n)
    (h : es.pos + n = 8 + es.chunkSize) :
    encodeChunkedAdvance es n = { es with pos := 0, headerPrepared := false } := by
  unfold encodeChunkedAdvance
  rw [if_neg (by omega)]
  simp [h]

/-- Bytes written from a template leave the string formed with its rest unchanged. -/
theorem append_take_drop_template (emitted template : List UInt8) (pos n : ℕ) :
    emitted ++ (template.drop pos).take n ++ template.drop (pos + n) =
      emitted ++ template.drop pos := by
  rw [List.append_assoc, ← List.drop_drop, List.take_append_drop]

theorem Between.advance {body emitted : List UInt8} {es : ChunkedEncoderState} {accepted n : ℕ}
    (h : Between body es emitted accepted) (hn : n ≤ 2 - es.pos) :
    Between body (encodeChunkedAdvance es n) (emitted ++ (crlf.drop es.pos).take n) accepted := by
  have hpos := h.pos_le
  rw [encodeChunkedAdvance_of_lt (by omega)]
  refine { h with pos_le := by simp only; omega, written := ?_ }
  obtain ⟨cs, hwire, hdata⟩ := h.written
  exact ⟨cs, by rw [append_take_drop_template, hwire], hdata⟩

theorem InFinal.advance {body emitted : List UInt8} {es : ChunkedEncoderState} {accepted n : ℕ}
    {eof : Bool} (h : InFinal body es emitted accepted eof) (hn : n ≤ 7 - es.pos) :
    InFinal body (encodeChunkedAdvance es n) (emitted ++ (finalTemplate.drop es.pos).take n)
      accepted eof := by
  have hpos := h.pos_le
  rw [encodeChunkedAdvance_of_lt (by omega)]
  refine { h with pos_le := by simp only; omega, written := ?_ }
  obtain ⟨cs, hwire, hdata⟩ := h.written
  exact ⟨cs, by rw [append_take_drop_template, hwire], hdata⟩

/-- Writing bytes of the size line. -/
theorem InChunk.advance_header {body emitted : List UInt8} {es : ChunkedEncoderState}
    {accepted offered n : ℕ} (h : InChunk body es emitted accepted offered)
    (hn : n ≤ 8 - es.pos) :
    InChunk body (encodeChunkedAdvance es n) (emitted ++ (es.buf.drop es.pos).take n)
      accepted offered := by
  have hpos := h.pos_lt
  have hsize := h.chunkSize_pos
  have hsub : es.pos + n - 8 = es.pos - 8 := by omega
  rw [encodeChunkedAdvance_of_lt (by omega)]
  refine { h with pos_lt := by simp only; omega, on_offer := ?_, written := ?_ }
  · simpa only [hsub] using h.on_offer
  · obtain ⟨cs, start, hacc, hlen, hdata, hwire⟩ := h.written
    refine ⟨cs, start, by simpa only [hsub] using hacc, hlen, hdata, ?_⟩
    rw [append_take_drop_template, hwire, hsub]

/-- Writing bytes of the data, but not the last one. -/
theorem InChunk.advance_data {body emitted : List UInt8} {es : ChunkedEncoderState}
    {accepted offered n : ℕ} (h : InChunk body es emitted accepted offered) (hpos : 8 ≤ es.pos)
    (hn : es.pos + n < 8 + es.chunkSize) :
    InChunk body (encodeChunkedAdvance es n) (emitted ++ (body.drop accepted).take n)
      (accepted + n) (offered - n) := by
  have hoffer := h.on_offer
  rw [encodeChunkedAdvance_of_lt hn]
  refine { h with pos_lt := hn, on_offer := by simp only; omega, written := ?_ }
  obtain ⟨cs, start, hacc, hlen, hdata, hwire⟩ := h.written
  have hnil : ∀ k, es.buf.drop (es.pos + k) = [] := fun k =>
    List.drop_eq_nil_of_le (by rw [h.buf_eq, length_chunkTemplate]; omega)
  refine ⟨cs, start, by simp only; omega, hlen, hdata, ?_⟩
  have hsub : es.pos + n - 8 = (es.pos - 8) + n := by omega
  rw [hnil, List.append_nil, hsub, List.take_add, List.drop_drop, ← hacc, ← List.append_assoc,
    ← hwire]
  have := hnil 0
  rw [Nat.add_zero] at this
  rw [this, List.append_nil]

/-- Writing the last byte of the data closes the chunk. -/
theorem InChunk.close {body emitted : List UInt8} {es : ChunkedEncoderState}
    {accepted offered n : ℕ} (h : InChunk body es emitted accepted offered) (hpos : 8 ≤ es.pos)
    (hn : es.pos + n = 8 + es.chunkSize) :
    Between body (encodeChunkedAdvance es n) (emitted ++ (body.drop accepted).take n)
      (accepted + n) := by
  have hlt := h.pos_lt
  obtain ⟨cs, start, hacc, hlen, hdata, hwire⟩ := h.written
  rw [encodeChunkedAdvance_of_eq (by omega) hn]
  have hchunk : ((body.drop start).take es.chunkSize).length = es.chunkSize := by
    rw [List.length_take, List.length_drop]
    omega
  let c := Chunk.ofData ((body.drop start).take es.chunkSize)
    (by rw [hchunk]; exact h.chunkSize_pos) (by rw [hchunk]; exact h.chunkSize_le)
  refine ⟨h.finalChunk, rfl, Nat.zero_le _, ?_, ?_, cs ++ [c], ?_, ?_⟩
  · simp [h.buf_eq, chunkTemplate]
  · simp [h.buf_eq, chunkTemplate]
  · have hnil : es.buf.drop es.pos = [] :=
      List.drop_eq_nil_of_le (by rw [h.buf_eq, length_chunkTemplate]; omega)
    have htake : (body.drop start).take es.chunkSize =
        (body.drop start).take (es.pos - 8) ++ (body.drop accepted).take n := by
      rw [hacc, ← List.drop_drop, ← List.take_add]
      congr 1
      omega
    rw [hnil, List.append_nil] at hwire
    have hc : c.wire = uintToHexStringZeropad es.chunkSize 4 ++ crlf ++
        (body.drop start).take es.chunkSize ++ crlf := by
      simp only [c, Chunk.wire, Chunk.ofData, hchunk]
    simp only [List.drop_zero, chunksWire_append, chunksWire_cons, chunksWire_nil,
      List.append_nil, hc, htake, hwire, List.append_assoc]
  · have haccn : accepted + n = start + es.chunkSize := by omega
    rw [chunksData_append, hdata, haccn, List.take_add]
    simp [c, Chunk.ofData]

/-! ### The writes of one call -/

/-- The bytes a write takes, and how many. -/
theorem NextOs.write_spec (os : NextOs) (data : List UInt8) (reply : WriteReply) :
    ∃ n ≤ data.length, os.write data reply = (n, ⟨reply.ready, os.received ++ data.take n⟩) :=
  ⟨min reply.accept data.length, Nat.min_le_right _ _, rfl⟩

/-- Without an offer the encoder writes the line end that is due or, at the end of the body,
the terminator. -/
theorem sendTemplate_zero {body : List UInt8} {es : ChunkedEncoderState} {os : NextOs}
    {accepted : ℕ} {eof : Bool} (reply : WriteReply)
    (h : Between body es os.received accepted ∨ InFinal body es os.received accepted eof)
    (heof : eof = true → accepted = body.length) :
    ∃ w, sendTemplate es os 0 eof reply = some w ∧ w.chunkSize = 0 ∧
      (Between body w.es w.os.received accepted ∨
        InFinal body w.es w.os.received accepted eof) := by
  rcases h with h | h
  · have hpos := h.pos_le
    cases eof with
    | false =>
      have hsend : (es.buf.drop es.pos).take (2 - es.pos) = crlf.drop es.pos := by
        rw [List.take_drop, show es.pos + (2 - es.pos) = 2 by omega, h.buf_take]
      have henc : encodeChunkedStream es 0 false =
          some ⟨es, 0, crlf.drop es.pos, false, decide (2 - es.pos ≠ 0)⟩ := by
        simp [encodeChunkedStream, h.finalChunk, h.headerPrepared, h.pos_le, hsend]
      obtain ⟨n, hn, hwrite⟩ := os.write_spec (crlf.drop es.pos) reply
      rw [List.length_drop] at hn
      unfold sendTemplate
      rw [henc, Option.bind_eq_bind, Option.bind_some]
      by_cases hret : 2 - es.pos = 0
      · exact ⟨⟨es, os, 0, false, false⟩, by simp [hret], rfl, .inl h⟩
      · simp only [ne_eq, hret, not_false_eq_true, decide_true, if_true, hwrite]
        exact ⟨_, rfl, rfl, .inl (h.advance hn)⟩
    | true =>
      let buf := es.buf.take 2 ++ bytes "0\r\n\r\n" ++ es.buf.drop 7
      have hbuf : buf.take 7 = finalTemplate := by
        simp only [buf, h.buf_take]
        rfl
      have hfin : InFinal body { es with finalChunk := true, buf } os.received accepted true := by
        refine ⟨rfl, rfl, heof rfl, by simp only; omega, hbuf, ?_⟩
        obtain ⟨cs, hwire, hdata⟩ := h.written
        refine ⟨cs, ?_, by rw [hdata, heof rfl, List.take_length]⟩
        have hsplit : finalTemplate = crlf ++ bytes "0\r\n\r\n" := by decide
        rw [hsplit, List.drop_append_of_le_length (by simpa using hpos), ← List.append_assoc,
          hwire]
      have hsend : (buf.drop es.pos).take (7 - es.pos) = finalTemplate.drop es.pos := by
        rw [List.take_drop, show es.pos + (7 - es.pos) = 7 by omega, hbuf]
      have henc : encodeChunkedStream es 0 true =
          some ⟨{ es with finalChunk := true, buf }, 0, finalTemplate.drop es.pos, true, true⟩ := by
        simp [encodeChunkedStream, h.finalChunk, h.headerPrepared, h.pos_le, ← hsend, buf]
      obtain ⟨n, hn, hwrite⟩ := os.write_spec (finalTemplate.drop es.pos) reply
      rw [List.length_drop] at hn
      unfold sendTemplate
      rw [henc, Option.bind_eq_bind, Option.bind_some]
      simp only [if_true, hwrite]
      exact ⟨_, rfl, rfl, .inr (hfin.advance hn)⟩
  · have hpos := h.pos_le
    obtain rfl := h.eof_eq
    have hsend : (es.buf.drop es.pos).take (7 - es.pos) = finalTemplate.drop es.pos := by
      rw [List.take_drop, show es.pos + (7 - es.pos) = 7 by omega, h.buf_take]
    have henc : encodeChunkedStream es 0 true =
        some ⟨es, 0, finalTemplate.drop es.pos, true, true⟩ := by
      simp [encodeChunkedStream, h.finalChunk, hsend]
    obtain ⟨n, hn, hwrite⟩ := os.write_spec (finalTemplate.drop es.pos) reply
    rw [List.length_drop] at hn
    unfold sendTemplate
    rw [henc, Option.bind_eq_bind, Option.bind_some]
    simp only [if_true, hwrite]
    exact ⟨_, rfl, rfl, .inr (h.advance hn)⟩

/-- Opening a chunk for the bytes on offer. -/
theorem Between.open_chunk {body emitted : List UInt8} {es : ChunkedEncoderState}
    {accepted offered : ℕ} (h : Between body es emitted accepted) (hpos : 0 < offered)
    (hlen : accepted + offered ≤ body.length) :
    InChunk body { es with
      chunkSize := min offered 0xffff
      buf := es.buf.take 2 ++ uintToHexStringZeropad (min offered 0xffff) 4 ++ es.buf.drop 6
      headerPrepared := true } emitted accepted offered := by
  have hle := h.pos_le
  have hsub : es.pos - 8 = 0 := by omega
  refine ⟨h.finalChunk, rfl, by simp only; omega, by simp only; omega, by simp only; omega, ?_,
    by simp only; omega, ?_⟩
  · rw [h.buf_take, h.buf_drop]
    rfl
  · obtain ⟨cs, hwire, hdata⟩ := h.written
    refine ⟨cs, accepted, by simp only; omega, by simp only; omega, hdata, ?_⟩
    simp only [hsub, List.take_zero, List.append_nil, h.buf_take, h.buf_drop]
    rw [List.append_assoc crlf, List.drop_append_of_le_length (by simpa using hle),
      ← List.append_assoc, hwire, List.append_assoc]

/-- With an offer the encoder writes what is left of the size line of the open chunk, opening
one if necessary. Unless it was cut short, the data of the chunk comes next. -/
theorem sendTemplate_pos {body : List UInt8} {es : ChunkedEncoderState} {os : NextOs}
    {accepted offered : ℕ} {eof : Bool} (reply : WriteReply)
    (h : EncoderInv body es os.received accepted offered eof) (hpos : 0 < offered)
    (hlen : accepted + offered ≤ body.length) :
    ∃ w, sendTemplate es os offered eof reply = some w ∧
      InChunk body w.es w.os.received accepted offered ∧
      (w.skip = false → 8 ≤ w.es.pos ∧ w.chunkSize = w.es.chunkSize - (w.es.pos - 8)) := by
  -- the size line of an open chunk
  have hheader : ∀ es', InChunk body es' os.received accepted offered → es'.pos < 8 →
      encodeChunkedStream es offered eof =
        some ⟨es', es'.chunkSize, (es'.buf.drop es'.pos).take (8 - es'.pos), false, true⟩ →
      ∃ w, sendTemplate es os offered eof reply = some w ∧
        InChunk body w.es w.os.received accepted offered ∧
        (w.skip = false → 8 ≤ w.es.pos ∧ w.chunkSize = w.es.chunkSize - (w.es.pos - 8)) := by
    intro es' h' hlt henc
    have hbuf : (es'.buf.drop es'.pos).length = 8 - es'.pos := by
      rw [List.length_drop, h'.buf_eq, length_chunkTemplate]
    rw [List.take_of_length_le hbuf.le] at henc
    obtain ⟨n, hn, hwrite⟩ := os.write_spec (es'.buf.drop es'.pos) reply
    rw [hbuf] at hn
    have hadv := h'.advance_header hn
    unfold sendTemplate
    rw [henc, Option.bind_eq_bind, Option.bind_some]
    simp only [if_true, hwrite]
    refine ⟨_, rfl, hadv, fun hskip => ?_⟩
    have hall : n = 8 - es'.pos := by simpa [hbuf] using hskip
    have hsize := h'.chunkSize_pos
    rw [encodeChunkedAdvance_of_lt (by omega)]
    simp only
    omega
  cases h with
  | between h =>
    refine hheader _ (h.open_chunk hpos hlen) (by have := h.pos_le; simp only; omega) ?_
    simp [encodeChunkedStream, h.finalChunk, h.headerPrepared, h.pos_le,
      Nat.pos_iff_ne_zero.mp hpos]
  | inChunk h =>
    have hoffer := h.on_offer
    by_cases hlt : es.pos < 8
    · have hle : es.chunkSize ≤ offered := by omega
      refine hheader es h hlt ?_
      simp [encodeChunkedStream, h.finalChunk, h.headerPrepared, hlt, hle]
    · have hle : es.chunkSize - (es.pos - 8) ≤ offered := by omega
      have henc : encodeChunkedStream es offered eof =
          some ⟨es, es.chunkSize - (es.pos - 8), [], false, false⟩ := by
        simp [encodeChunkedStream, h.finalChunk, h.headerPrepared, hlt, hle]
      unfold sendTemplate
      rw [henc, Option.bind_eq_bind, Option.bind_some]
      exact ⟨_, rfl, h, fun _ => ⟨Nat.not_lt.mp hlt, rfl⟩⟩
  | inFinal h =>
    have := h.accepted_eq
    omega

/-- One call keeps the invariant, whatever the next ostream accepts, and no assertion fails. -/
theorem writeChunked_inv {body data : List UInt8} {es : ChunkedEncoderState} {os : NextOs}
    {accepted : ℕ} {eof : Bool} (replies : WriteReplies)
    (h : EncoderInv body es os.received accepted data.length eof)
    (hdata : data = (body.drop accepted).take data.length)
    (hlen : accepted + data.length ≤ body.length)
    (heof : eof = true → accepted + data.length = body.length) :
    ∃ n es' os', writeChunked es os data eof replies = some (n, es', os') ∧ n ≤ data.length ∧
      EncoderInv body es' os'.received (accepted + n) (data.length - n) eof := by
  unfold writeChunked
  by_cases hzero : data.length = 0
  · -- nothing on offer: the template is written twice, the second time usually nothing
    have hnot : Between body es os.received accepted ∨
        InFinal body es os.received accepted eof := by
      cases h with
      | between h => exact .inl h
      | inFinal h => exact .inr h
      | inChunk h =>
        have h1 := h.on_offer
        have h2 := h.pos_lt
        have h3 := h.chunkSize_pos
        omega
    have hlift : ∀ {es' e'}, Between body es' e' accepted ∨ InFinal body es' e' accepted eof →
        EncoderInv body es' e' (accepted + 0) (data.length - 0) eof := by
      rintro es' e' (h | h)
      · exact .between h
      · exact .inFinal h
    have heof' : eof = true → accepted = body.length := fun h => by have := heof h; omega
    obtain ⟨w, hw, hsize, hinv⟩ := sendTemplate_zero replies.header hnot heof'
    rw [hzero, hw, Option.bind_eq_bind, Option.bind_some]
    simp only [hsize, ne_eq, not_true_eq_false, and_false, if_false, if_true]
    by_cases hskip : w.skip = true
    · exact ⟨0, w.es, w.os, by simp [hskip], Nat.zero_le _, by simpa [hzero] using hlift hinv⟩
    · obtain ⟨w', hw', -, hinv'⟩ := sendTemplate_zero replies.trailer hinv heof'
      refine ⟨0, w'.es, w'.os, ?_, Nat.zero_le _, by simpa [hzero] using hlift hinv'⟩
      simp only [hskip]
      rw [hw']
      rfl
  · obtain ⟨w, hw, hchunk, hready⟩ :=
      sendTemplate_pos replies.header h (Nat.pos_of_ne_zero hzero) hlen
    rw [hw, Option.bind_eq_bind, Option.bind_some]
    by_cases hskip : w.skip = true
    · refine ⟨0, w.es, w.os, ?_, Nat.zero_le _, .inChunk hchunk⟩
      simp [hskip]
    · rw [Bool.not_eq_true] at hskip
      obtain ⟨hpos, hsize⟩ := hready hskip
      have hlt := hchunk.pos_lt
      have hoffer := hchunk.on_offer
      have hne : w.chunkSize ≠ 0 := by omega
      have hle : w.chunkSize ≤ data.length := by omega
      obtain ⟨n, hn, hwrite⟩ := w.os.write_spec (data.take w.chunkSize) replies.data
      rw [List.length_take, Nat.min_eq_left hle] at hn
      have htake : (data.take w.chunkSize).take n = (body.drop accepted).take n := by
        rw [List.take_take, Nat.min_eq_left hn, hdata, List.take_take]
        congr 1
        omega
      rw [htake] at hwrite
      simp only [hskip, hne, hwrite, Bool.false_eq_true, not_false_eq_true, ne_eq, and_self,
        if_true, decide_eq_true_eq]
      by_cases hall : n = w.chunkSize
      · -- the chunk is complete: its line end, or the terminator, follows
        have hbetween := hchunk.close hpos (show w.es.pos + n = 8 + w.es.chunkSize by omega)
        rw [if_neg (not_not.mpr hall)]
        set cwf := if w.chunkSize = data.length then eof else false with hcwf
        have hcwf' : cwf = true → eof = true ∧ w.chunkSize = data.length := by
          rw [hcwf]
          split_ifs with heq
          · exact fun h => ⟨h, heq⟩
          · simp
        obtain ⟨w', hw', -, hinv⟩ := @sendTemplate_zero body _
          ⟨replies.data.ready, w.os.received ++ (body.drop accepted).take n⟩ (accepted + n) cwf
          replies.trailer (.inl hbetween) fun h => by
            obtain ⟨he, heq⟩ := hcwf' h
            have := heof he
            omega
        refine ⟨n, w'.es, w'.os, by rw [hw']; rfl, by omega, ?_⟩
        rcases hinv with h | h
        · exact .between h
        · exact .inFinal { h with eof_eq := (hcwf' h.eof_eq).1 }
      · refine ⟨n, _, _, by rw [if_pos hall]; rfl, by omega, .inChunk ?_⟩
        exact hchunk.advance_data hpos (by omega)

/-! ### Runs of calls -/

/-- What the outside of the protocol object sees of the transfer of a body: the object, the
ostream it writes to, the number of body bytes taken from the producer, how many of the bytes
of the last offer are still outstanding, and whether the end of the body was announced. -/
structure BodyTransfer where
  hsp : Hsp
  os : NextOs
  accepted : ℕ := 0
  outstanding : ℕ := 0
  eofSeen : Bool := false

/-- One call of `resp_body_in_write_or_sendfile`: the number of bytes offered, the `NXEF_EOF`
bit, whether the next ostream is ready when the call is made, and its answers. -/
structure BodyCall where
  size : ℕ
  eof : Bool
  osReady : Bool
  replies : WriteReplies
  deriving DecidableEq

/-- The offers a producer may make. It offers bytes of the body from the first one that has
not been taken, never fewer than are outstanding, and announces the end of the body only with
an offer that reaches it, and from then on always. -/
structure BodyCall.Valid (body : List UInt8) (t : BodyTransfer) (c : BodyCall) : Prop where
  in_body : t.accepted + c.size ≤ body.length
  no_shrink : t.outstanding ≤ c.size
  eof_at_end : c.eof = true → t.accepted + c.size = body.length
  eof_stays : t.eofSeen = true → c.eof = true

instance (body : List UInt8) (t : BodyTransfer) (c : BodyCall) : Decidable (c.Valid body t) :=
  decidable_of_iff (t.accepted + c.size ≤ body.length ∧ t.outstanding ≤ c.size ∧
      (c.eof = true → t.accepted + c.size = body.length) ∧ (t.eofSeen = true → c.eof = true))
    ⟨fun ⟨h1, h2, h3, h4⟩ => ⟨h1, h2, h3, h4⟩, fun ⟨h1, h2, h3, h4⟩ => ⟨h1, h2, h3, h4⟩⟩

/-- The effect of one call on the transfer, `none` if an assertion fails. -/
def BodyTransfer.call (body : List UInt8) (t : BodyTransfer) (c : BodyCall) :
    Option BodyTransfer := do
  let data := (body.drop t.accepted).take c.size
  let (n, hsp, nextOs) ← respBodyInWriteOrSendfile t.hsp
    (some { t.os with ready := c.osReady }) data c.eof c.replies
  let os ← nextOs
  return {
    hsp, os, accepted := t.accepted + n, outstanding := c.size - n
    eofSeen := t.eofSeen || c.eof }

/-- Successive calls. -/
def BodyTransfer.run (body : List UInt8) (t : BodyTransfer) : List BodyCall → Option BodyTransfer
  | [] => some t
  | c :: cs => do
    let t' ← t.call body c
    t'.run body cs

/-- Every call of the list is one the producer may make when its turn comes. -/
def BodyTransfer.ValidCalls (body : List UInt8) (t : BodyTransfer) : List BodyCall → Prop
  | [] => True
  | c :: cs => c.Valid body t ∧ ∀ t' ∈ t.call body c, t'.ValidCalls body cs

instance BodyTransfer.decidableValidCalls (body : List UInt8) (t : BodyTransfer) :
    (cs : List BodyCall) → Decidable (t.ValidCalls body cs)
  | [] => isTrue trivial
  | c :: cs =>
    have : Decidable (∀ t' ∈ t.call body c, t'.ValidCalls body cs) :=
      match t.call body c with
      | none => isTrue (by simp)
      | some t' =>
        @decidable_of_iff _ (t'.ValidCalls body cs)
          ⟨fun h _ ht => Option.some.inj ht ▸ h, fun h => h t' rfl⟩
          (decidableValidCalls body t' cs)
    inferInstanceAs (Decidable (_ ∧ _))

/-- Invariant of a transfer: the protocol object is sending a body with automatic encoding and
its encoder satisfies `EncoderInv`. -/
structure BodyTransfer.Inv (body : List UInt8) (t : BodyTransfer) (resp : HttpResponse) :
    Prop where
  state_eq : t.hsp.state = .sendingBody
  resp_eq : t.hsp.resp = some resp
  autoencode : resp.chunkedAutoencode = true
  encoder : EncoderInv body resp.cestate t.os.received t.accepted t.outstanding t.eofSeen

/-- With automatic encoding a call to a ready ostream leaves the encoder and the ostream as
`writeChunked` does. -/
theorem respBodyInWriteOrSendfile_ready {hsp : Hsp} {resp : HttpResponse} {os os' : NextOs}
    {data : List UInt8} {eof : Bool} {replies : WriteReplies} {n : ℕ} {es' : ChunkedEncoderState}
    (hstate : hsp.state = .sendingBody) (hresp : hsp.resp = some resp)
    (hauto : resp.chunkedAutoencode = true) (hready : os.ready = true)
    (hw : writeChunked resp.cestate os data eof replies = some (n, es', os')) :
    ∃ hsp', respBodyInWriteOrSendfile hsp (some os) data eof replies = some (n, hsp', some os') ∧
      hsp'.state = .sendingBody ∧
      hsp'.resp = some { resp with cestate := es', bytesSent := resp.bytesSent + n } := by
  simp only [respBodyInWriteOrSendfile, Hsp.passOn, HttpResponse.writeBody, hstate, hresp, hauto,
    hready, hw, or_true, if_true, Option.map_some, Option.pure_def, Option.bind_eq_bind,
    Option.bind_some]
  split_ifs
  all_goals exact ⟨_, rfl, rfl, by simp [Hsp.requestComplete, Hsp.publish]⟩

/-- A call while the ostream is not ready changes nothing that is written. -/
theorem respBodyInWriteOrSendfile_not_ready {hsp : Hsp} {resp : HttpResponse} {os : NextOs}
    {data : List UInt8} {eof : Bool} {replies : WriteReplies}
    (hstate : hsp.state = .sendingBody) (hresp : hsp.resp = some resp)
    (hauto : resp.chunkedAutoencode = true) (hready : os.ready = false) :
    ∃ hsp', respBodyInWriteOrSendfile hsp (some os) data eof replies = some (0, hsp', some os) ∧
      hsp'.state = .sendingBody ∧ hsp'.resp = some resp := by
  simp only [respBodyInWriteOrSendfile, Hsp.passOn, hstate, hresp, hauto, hready, or_true, if_true,
    if_false, Option.map_some, Option.pure_def, Option.bind_eq_bind, Option.bind_some,
    Bool.false_eq_true, Nat.add_zero]
  split_ifs
  all_goals exact ⟨_, rfl, rfl, by simp [Hsp.requestComplete, Hsp.publish, ← hauto]⟩

/-- A valid call keeps the invariant, and no assertion fails in it. -/
theorem BodyTransfer.Inv.call {body : List UInt8} {t : BodyTransfer} {resp : HttpResponse}
    (h : t.Inv body resp) {c : BodyCall} (hc : c.Valid body t) :
    ∃ t' resp', t.call body c = some t' ∧ t'.Inv body resp' := by
  have hsize : ((body.drop t.accepted).take c.size).length = c.size := by
    have := hc.in_body
    rw [List.length_take, List.length_drop]
    omega
  have henc := h.encoder.mono hc.no_shrink hc.eof_stays
  have heof : (t.eofSeen || c.eof) = c.eof := by
    cases hseen : t.eofSeen with
    | false => rfl
    | true => rw [hc.eof_stays hseen]; rfl
  cases hready : c.osReady with
  | false =>
    obtain ⟨hsp', hcall, hstate', hresp'⟩ :=
      @respBodyInWriteOrSendfile_not_ready _ _ ⟨false, t.os.received⟩
        ((body.drop t.accepted).take c.size) c.eof c.replies h.state_eq h.resp_eq h.autoencode rfl
    refine ⟨⟨hsp', ⟨false, t.os.received⟩, t.accepted, c.size, t.eofSeen || c.eof⟩, resp, ?_,
      hstate', hresp', h.autoencode, by simpa only [heof] using henc⟩
    simp only [BodyTransfer.call, hready, hcall]
    rfl
  | true =>
    obtain ⟨n, es', os', hw, -, hinv⟩ := @writeChunked_inv body
      ((body.drop t.accepted).take c.size) resp.cestate ⟨true, t.os.received⟩ t.accepted
      c.eof c.replies (by rw [hsize]; exact henc) (by rw [hsize]) (by rw [hsize]; exact hc.in_body)
      (by rw [hsize]; exact hc.eof_at_end)
    obtain ⟨hsp', hcall, hstate', hresp'⟩ :=
      respBodyInWriteOrSendfile_ready h.state_eq h.resp_eq h.autoencode rfl hw
    rw [hsize] at hinv
    refine ⟨⟨hsp', os', t.accepted + n, c.size - n, t.eofSeen || c.eof⟩, _, ?_,
      hstate', hresp', h.autoencode, by simpa only [heof] using hinv⟩
    simp only [BodyTransfer.call, hready, hcall]
    rfl

/-- The invariant holds after every run of valid calls, and no assertion fails on the way. -/
theorem BodyTransfer.Inv.run {body : List UInt8} {t : BodyTransfer} {resp : HttpResponse}
    (h : t.Inv body resp) {cs : List BodyCall} (hcs : t.ValidCalls body cs) :
    ∃ t' resp', t.run body cs = some t' ∧ t'.Inv body resp' := by
  induction cs generalizing t resp with
  | nil => exact ⟨t, resp, rfl, h⟩
  | cons c cs ih =>
    obtain ⟨t₁, resp₁, hcall, h₁⟩ := h.call hcs.1
    obtain ⟨t', resp', hrun, h'⟩ := ih h₁ (hcs.2 t₁ hcall)
    exact ⟨t', resp', by simp only [BodyTransfer.run, hcall, Option.bind_eq_bind,
      Option.bind_some, hrun], h'⟩

/-! ### The message -/

/-- A byte string is a chunked message that carries the given body: it is well formed, and a
fresh decoder turns it back into the body and reports the end. -/
def IsMessageOf (body wire : List UInt8) : Prop :=
  (∃ m : ChunkedMessage, m.wire = wire ∧ m.body = body) ∧
    ∃ r, decodeChunkedStream .zero wire = some r ∧ r.code = 1 ∧ r.kept = body

theorem isMessageOf_wire (m : ChunkedMessage) : IsMessageOf m.body m.wire :=
  ⟨⟨m, rfl, rfl⟩, decodeChunkedStream_wire m⟩

/-- A complete encoder has written a message that carries the body. -/
theorem EncoderInv.complete {body emitted : List UInt8} {es : ChunkedEncoderState}
    {accepted offered : ℕ} {eof : Bool} (h : EncoderInv body es emitted accepted offered eof)
    (hes : encodeChunkedIsComplete es = true) : IsMessageOf body emitted := by
  rw [encodeChunkedIsComplete, Bool.and_eq_true, beq_iff_eq] at hes
  obtain ⟨hfinal, hpos⟩ := hes
  cases h with
  | between h => simp [h.finalChunk] at hfinal
  | inChunk h => simp [h.finalChunk] at hfinal
  | inFinal h =>
    obtain ⟨cs, hwire, hdata⟩ := h.written
    have hdrop : finalTemplate.drop 7 = [] := by decide
    have hm : (ofChunks cs).wire = emitted := by
      rw [hpos, hdrop, List.append_nil] at hwire
      rw [hwire, ChunkedMessage.wire, List.append_assoc, List.append_assoc]
      rfl
    have := isMessageOf_wire (ofChunks cs)
    rwa [hm, show (ofChunks cs).body = body from hdata] at this

/-- Until the encoder is complete, what it has written can be continued, by at least one byte,
to a message that carries the body. -/
theorem EncoderInv.incomplete {body emitted : List UInt8} {es : ChunkedEncoderState}
    {accepted offered : ℕ} {eof : Bool} (h : EncoderInv body es emitted accepted offered eof)
    (hes : encodeChunkedIsComplete es = false) :
    ∃ rest, rest ≠ [] ∧ IsMessageOf body (emitted ++ rest) := by
  -- it is enough to continue to a list of chunks that carries an initial part of the body
  have hfinish : ∀ cs k mid, chunksData cs = body.take k → emitted ++ mid = chunksWire cs →
      ∃ rest, rest ≠ [] ∧ IsMessageOf body (emitted ++ rest) := by
    intro cs k mid hdata hmid
    let m := ofChunks (cs ++ (body.drop k).map Chunk.ofByte)
    have hbody : m.body = body := by
      simp only [m, ChunkedMessage.body, ofChunks, chunksData_append, chunksData_map_ofByte, hdata,
        List.take_append_drop]
    refine ⟨mid ++ (chunksWire ((body.drop k).map Chunk.ofByte) ++ m.zeros ++ crlf ++ crlf),
      by simp, ?_⟩
    have := isMessageOf_wire m
    rw [hbody] at this
    simpa only [m, ChunkedMessage.wire, ofChunks, chunksWire_append, ← hmid,
      List.append_assoc] using this
  cases h with
  | between h =>
    obtain ⟨cs, hwire, hdata⟩ := h.written
    exact hfinish cs accepted _ hdata hwire
  | inChunk h =>
    obtain ⟨cs, start, hacc, hlen, hdata, hwire⟩ := h.written
    have hchunk : ((body.drop start).take es.chunkSize).length = es.chunkSize := by
      rw [List.length_take, List.length_drop]
      omega
    let c := Chunk.ofData ((body.drop start).take es.chunkSize)
      (by rw [hchunk]; exact h.chunkSize_pos) (by rw [hchunk]; exact h.chunkSize_le)
    have hsplit : (body.drop start).take es.chunkSize = (body.drop start).take (es.pos - 8) ++
        (body.drop accepted).take (es.chunkSize - (es.pos - 8)) := by
      have := h.pos_lt
      rw [hacc, ← List.drop_drop, ← List.take_add]
      congr 1
      omega
    refine hfinish (cs ++ [c]) (start + es.chunkSize)
      (es.buf.drop es.pos ++ (body.drop accepted).take (es.chunkSize - (es.pos - 8)) ++ crlf) ?_ ?_
    · rw [chunksData_append, hdata, List.take_add]
      simp [c, Chunk.ofData]
    · have hc : c.wire = uintToHexStringZeropad es.chunkSize 4 ++ crlf ++
          (body.drop start).take es.chunkSize ++ crlf := by
        simp only [c, Chunk.wire, Chunk.ofData, hchunk]
      rw [← List.append_assoc, ← List.append_assoc, hwire, chunksWire_append, chunksWire_cons,
        chunksWire_nil, List.append_nil, hc, hsplit]
      simp only [List.append_assoc]
  | inFinal h =>
    have hpos : es.pos ≠ 7 := by
      intro heq
      simp [encodeChunkedIsComplete, h.finalChunk, heq] at hes
    obtain ⟨cs, hwire, hdata⟩ := h.written
    refine ⟨finalTemplate.drop es.pos, ?_, ?_⟩
    · have := h.pos_le
      rw [ne_eq, List.drop_eq_nil_iff]
      simp only [finalTemplate]
      have : (bytes "\r\n0\r\n\r\n").length = 7 := by decide
      omega
    · have hm : (ofChunks cs).wire = emitted ++ finalTemplate.drop es.pos := by
        rw [hwire, ChunkedMessage.wire, List.append_assoc, List.append_assoc]
        rfl
      have := isMessageOf_wire (ofChunks cs)
      rwa [hm, show (ofChunks cs).body = body from hdata] at this

/-- Encoder and decoder are inverse over whole streams. Whatever valid offers the producer
makes and however few bytes of each write the next ostream accepts, no assertion fails; when the
encoder is complete, the bytes that reached the ostream are a chunked message that decodes to
the body, and before that they are a proper initial part of such a message. -/
theorem respBody_run {hsp : Hsp} {resp : HttpResponse} (body : List UInt8) (cs : List BodyCall)
    (hstate : hsp.state = .sendingBody) (hresp : hsp.resp = some resp)
    (hauto : resp.chunkedAutoencode = true) (hinit : resp.cestate = encodeChunkedInit)
    (hcs : BodyTransfer.ValidCalls body { hsp, os := ⟨true, []⟩ } cs) :
    ∃ t resp', BodyTransfer.run body { hsp, os := ⟨true, []⟩ } cs = some t ∧
      t.hsp.resp = some resp' ∧
      (encodeChunkedIsComplete resp'.cestate = true → IsMessageOf body t.os.received) ∧
      (encodeChunkedIsComplete resp'.cestate = false →
        ∃ rest, rest ≠ [] ∧ IsMessageOf body (t.os.received ++ rest)) := by
  have hinv : BodyTransfer.Inv body { hsp, os := ⟨true, []⟩ } resp :=
    ⟨hstate, hresp, hauto, .between (hinit ▸ between_init body)⟩
  obtain ⟨t, resp', hrun, h⟩ := hinv.run hcs
  exact ⟨t, resp', hrun, h.resp_eq, h.encoder.complete, h.encoder.incomplete⟩

/-- The body `ab` in two offers: the size line is cut by the first write, the second call
completes the message. -/
theorem respBody_run_ab :
    let hsp : Hsp := {
      state := .sendingBody
      resp := some { chunkedAutoencode := true, cestate := encodeChunkedInit } }
    let short : WriteReply := ⟨1, true⟩
    let full : WriteReply := ⟨100, true⟩
    let cs : List BodyCall := [
      ⟨1, false, true, ⟨short, full, full⟩⟩, ⟨2, true, true, ⟨full, full, full⟩⟩,
      ⟨1, true, true, ⟨full, full, full⟩⟩]
    BodyTransfer.ValidCalls (bytes "ab") { hsp, os := ⟨true, []⟩ } cs ∧
    ∃ t resp', BodyTransfer.run (bytes "ab") { hsp, os := ⟨true, []⟩ } cs = some t ∧
      t.hsp.resp = some resp' ∧
      (encodeChunkedIsComplete resp'.cestate = true →
        IsMessageOf (bytes "ab") t.os.received) ∧
      (encodeChunkedIsComplete resp'.cestate = false →
        ∃ rest, rest ≠ [] ∧ IsMessageOf (bytes "ab") (t.os.received ++ rest)) := by
  intro hsp short full cs
  have hcs : BodyTransfer.ValidCalls (bytes "ab") { hsp, os := ⟨true, []⟩ } cs := by decide
  exact ⟨hcs, respBody_run (bytes "ab") cs rfl rfl rfl rfl hcs⟩

end Nxweb
