import Nxweb.Chunked.DecoderCorrectness

/-!
# Chunk extensions and trailers

A chunked message may say more than its chunks. Behind the size a size line may go on with
extensions, and behind the last size line there may be lines with headers. None of it belongs to the
body.

The streaming decoder knows neither. It returns `-1` at the first byte of them, and what it has
decoded until then is not taken out of the buffer.

## Main definitions

* `ExtendedChunk`, `ExtendedMessage`: chunked messages with extensions and trailers;
* `ExtendedMessage.Plain`: a message that has none.

## Main results

* `ExtendedMessage.wire_of_plain`: without them it is a `ChunkedMessage`;
* `ExtendedMessage.decodeChunkedStream_of_not_plain`: with them the streaming decoder refuses it.
-/

namespace Nxweb

/-! ### Messages -/

/-- What a size line may have behind its size: nothing, or extensions, which begin with a semicolon
that blanks may precede. -/
structure IsExtension (ext : List UInt8) : Prop where
  starts : ext = [] ∨ ∃ blanks rest, ext = blanks ++ 59 :: rest ∧ ∀ c ∈ blanks, c = 32 ∨ c = 9
  line : ∀ c ∈ ext, c ≠ cr ∧ c ≠ lf ∧ c ≠ 0

/-- A chunk with the extensions of its size line. -/
structure ExtendedChunk extends Chunk where
  ext : List UInt8
  ext_ok : IsExtension ext

/-- The size line, the data and the line end after the data. -/
def ExtendedChunk.wire (c : ExtendedChunk) : List UInt8 :=
  c.digits ++ c.ext ++ crlf ++ c.data ++ crlf

/-- A whole chunked message: its chunks, the last size line, and the lines of the trailer. -/
structure ExtendedMessage where
  chunks : List ExtendedChunk
  zeros : List UInt8
  zeros_ne_nil : zeros ≠ []
  zeros_eq : ∀ c ∈ zeros, c = 48
  lastExt : List UInt8
  lastExt_ok : IsExtension lastExt
  trailers : List (List UInt8)
  trailers_ok : ∀ line ∈ trailers, line ≠ [] ∧ ∀ c ∈ line, c ≠ cr ∧ c ≠ lf

namespace ExtendedMessage

/-- The bytes of a list of chunks, without a terminator. -/
def chunksWire (cs : List ExtendedChunk) : List UInt8 := (cs.map ExtendedChunk.wire).flatten

/-- The lines of the trailer. -/
def trailersWire (lines : List (List UInt8)) : List UInt8 := (lines.map (· ++ crlf)).flatten

/-- The message as it appears on the wire. -/
def wire (m : ExtendedMessage) : List UInt8 :=
  chunksWire m.chunks ++ m.zeros ++ m.lastExt ++ crlf ++ trailersWire m.trailers ++ crlf

/-- The message with the extensions and the trailer left out. -/
def toMessage (m : ExtendedMessage) : ChunkedMessage where
  chunks := m.chunks.map ExtendedChunk.toChunk
  zeros := m.zeros
  zeros_ne_nil := m.zeros_ne_nil
  zeros_eq := m.zeros_eq

/-- The message has neither extensions nor a trailer. -/
structure Plain (m : ExtendedMessage) : Prop where
  chunks : ∀ c ∈ m.chunks, c.ext = []
  lastExt : m.lastExt = []
  trailers : m.trailers = []

@[simp] theorem chunksWire_nil : chunksWire [] = [] := rfl

@[simp]
theorem chunksWire_cons (c : ExtendedChunk) (cs : List ExtendedChunk) :
    chunksWire (c :: cs) = c.wire ++ chunksWire cs := rfl

/-- A chunk without extensions. -/
theorem wire_of_ext_nil {c : ExtendedChunk} (h : c.ext = []) : c.wire = c.toChunk.wire := by
  rw [ExtendedChunk.wire, h, List.append_nil, Chunk.wire]

theorem wire_of_plain {m : ExtendedMessage} (h : m.Plain) : m.wire = m.toMessage.wire := by
  have hchunks : chunksWire m.chunks = ChunkedMessage.chunksWire m.toMessage.chunks := by
    rw [chunksWire, ChunkedMessage.chunksWire, toMessage, List.map_map]
    congr 1
    apply List.map_congr_left
    intro c hc
    exact wire_of_ext_nil (h.chunks c hc)
  rw [wire, h.lastExt, h.trailers, hchunks, ChunkedMessage.wire]
  simp [trailersWire, toMessage]

/-- The body is shorter than the message. -/
theorem length_body_lt (m : ExtendedMessage) : m.toMessage.body.length < m.wire.length := by
  have hchunks (cs : List ExtendedChunk) :
      (ChunkedMessage.chunksData (cs.map ExtendedChunk.toChunk)).length ≤
        (chunksWire cs).length := by
    induction cs with
    | nil => exact le_rfl
    | cons c cs ih =>
      rw [List.map_cons, ChunkedMessage.chunksData_cons, chunksWire_cons]
      simp only [List.length_append, ExtendedChunk.wire]
      omega
  have h := hchunks m.chunks
  simp only [wire, toMessage, ChunkedMessage.body, List.length_append, crlf, List.length_cons]
  omega

end ExtendedMessage

/-- Extensions begin with a byte that neither belongs to a number nor ends the line. -/
theorem IsExtension.exists_cons {ext : List UInt8} (h : IsExtension ext) (hne : ext ≠ []) :
    ∃ c rest, ext = c :: rest ∧ (c = 59 ∨ c = 32 ∨ c = 9) := by
  rcases h.starts with rfl | ⟨blanks, rest, rfl, hblank⟩
  · exact absurd rfl hne
  · cases blanks with
    | nil => exact ⟨59, rest, rfl, .inl rfl⟩
    | cons b blanks => exact ⟨b, blanks ++ 59 :: rest, rfl, .inr (hblank b (by simp))⟩

/-! ### The streaming decoder -/

/-- The decoder comes to an error. -/
def Stops (ds : ChunkedDecoderState) (cs : List UInt8) : Prop :=
  (feed ds cs).code = -1 ∧ SizesFit ds cs

/-- What comes before the error is read. -/
theorem Feeds.stops {ds ds' : ChunkedDecoderState} {xs ys out : List UInt8}
    (h : Feeds ds xs ds' out) (hstops : Stops ds' ys) : Stops ds (xs ++ ys) := by
  have hcode : (feed ds xs).code = 0 := by rw [h.feed_eq]
  constructor
  · rw [feed_append hcode, h.feed_eq]
    exact hstops.1
  · rw [sizesFit_append hcode, h.feed_eq]
    exact ⟨h.fit, hstops.2⟩

theorem stops_of_error {ds ds' : ChunkedDecoderState} {c : UInt8} {cs : List UInt8}
    (h0 : 0 ≤ ds.chunkBytesLeft) (h : byteStep ds c = .error ds') : Stops ds (c :: cs) := by
  constructor
  · simp only [feed, h]
  · simp only [SizesFit, h]
    exact ⟨h0, trivial⟩

/-- The size line is not read behind the size. -/
theorem stops_of_extension {digits ext : List UInt8} (hhex : ∀ c ∈ digits, hexDigitVal c ≠ none)
    (hlt : hexValue digits < 2 ^ 63) (hext : IsExtension ext) (hne : ext ≠ [])
    (rest : List UInt8) : Stops .zero (digits ++ ext ++ rest) := by
  have hdigits := @feeds_digits .zero rfl digits hhex 0 rfl hlt
  obtain ⟨c, tail, rfl, hc⟩ := hext.exists_cons hne
  rw [List.append_assoc]
  apply hdigits.stops
  rw [List.cons_append]
  apply stops_of_error hdigits.nonneg_right
  rcases hc with rfl | rfl | rfl <;> rfl

/-- The chunks in front of the first extension are read. -/
theorem stops_chunks {cs : List ExtendedChunk} {rest : List UInt8}
    (h : (∃ c ∈ cs, c.ext ≠ []) ∨ Stops .zero rest) :
    Stops .zero (ExtendedMessage.chunksWire cs ++ rest) := by
  induction cs with
  | nil =>
    rcases h with ⟨c, hc, -⟩ | h
    · cases hc
    · exact h
  | cons c cs ih =>
    rw [ExtendedMessage.chunksWire_cons, List.append_assoc]
    -- a chunk with extensions stops the decoder, whatever is behind it
    by_cases hext : c.ext = []
    · rw [ExtendedMessage.wire_of_ext_nil hext]
      apply (feeds_chunk c.toChunk).stops
      apply ih
      refine h.imp_left ?_
      rintro ⟨c', hc', hne⟩
      rcases List.mem_cons.mp hc' with rfl | hc'
      · exact absurd hext hne
      · exact ⟨c', hc', hne⟩
    · have hlt : hexValue c.digits < 2 ^ 63 := by
        rw [c.hexValue_eq]
        exact c.data_lt
      have h := stops_of_extension c.digits_hex hlt c.ext_ok hext
        (crlf ++ c.data ++ crlf ++ (ExtendedMessage.chunksWire cs ++ rest))
      simpa only [ExtendedChunk.wire, List.append_assoc] using h

/-- Behind the last size line only the end of the message is read. -/
theorem stops_trailer {lines : List (List UInt8)} (hne : lines ≠ [])
    (hlines : ∀ line ∈ lines, line ≠ [] ∧ ∀ c ∈ line, c ≠ cr ∧ c ≠ lf) (rest : List UInt8) :
    Stops ⟨.data, true, false, 0⟩ (ExtendedMessage.trailersWire lines ++ rest) := by
  obtain ⟨line, lines, rfl⟩ := List.exists_cons_of_ne_nil hne
  obtain ⟨hline, hbytes⟩ := hlines line (by simp)
  obtain ⟨c, line, rfl⟩ := List.exists_cons_of_ne_nil hline
  have hc : c ≠ cr := (hbytes c (by simp)).1
  have herror : byteStep ⟨.data, true, false, 0⟩ c = .error ⟨.cr1, true, false, 0⟩ := by
    simp [byteStep, hc]
  exact stops_of_error le_rfl herror

namespace ExtendedMessage

theorem stops_of_not_plain {m : ExtendedMessage} (h : ¬ m.Plain) (extra : List UInt8) :
    Stops .zero (m.wire ++ extra) := by
  have hwire : m.wire ++ extra = chunksWire m.chunks ++ (m.zeros ++ m.lastExt ++
      (crlf ++ (trailersWire m.trailers ++ (crlf ++ extra)))) := by
    simp only [wire, List.append_assoc]
  have hhex : ∀ c ∈ m.zeros, hexDigitVal c ≠ none := by
    intro c hc
    rw [m.zeros_eq c hc]
    decide
  have hvalue : hexValue m.zeros = 0 := hexValueFrom_zeros m.zeros_eq
  rw [hwire]
  apply stops_chunks
  by_cases hchunks : ∃ c ∈ m.chunks, c.ext ≠ []
  · exact .inl hchunks
  right
  by_cases hlast : m.lastExt = []
  · -- then there is a trailer
    have htrailers : m.trailers ≠ [] := by
      intro htrailers
      refine h ⟨fun c hc => ?_, hlast, htrailers⟩
      by_contra hext
      exact hchunks ⟨c, hc, hext⟩
    have hzeros := @feeds_digits .zero rfl m.zeros hhex 0 rfl (by
      rw [← hexValue, hvalue]
      decide)
    rw [← hexValue, hvalue] at hzeros
    rw [hlast, List.append_nil]
    apply hzeros.stops
    apply (@feeds_size_crlf .zero rfl (by decide)).stops
    exact stops_trailer htrailers m.trailers_ok _
  · exact stops_of_extension hhex (by rw [hvalue]; decide) m.lastExt_ok hlast _

end ExtendedMessage

/-- An iteration that returns an error leaves `*buf_len` alone. -/
theorem decodeIter_error {f : DecodeFrame} {r : DecodeResult} (h : decodeIter f = .ret r)
    (hcode : r.code < 0) : r.bufLen = f.bufLen := by
  -- only the returns of `0` and `1` set it
  have hlen {g : DecodeFrame} {code len : ℤ} (hnonneg : 0 ≤ code)
      (hret : g.retLen code len = .ret r) : False := by
    cases hret
    exact absurd hcode (not_lt.mpr hnonneg)
  have hret {g : DecodeFrame} {code : ℤ} (hsame : g.bufLen = f.bufLen)
      (hret : g.ret code = .ret r) : r.bufLen = f.bufLen := by
    cases hret
    exact hsame
  by_cases hlt : f.p < f.bufEnd
  case neg =>
    rw [decodeIter, if_neg hlt] at h
    exact (hlen le_rfl h).elim
  cases hbyte : byteAt f.buf f.p with
  | none => simp [decodeIter, hlt, hbyte] at h
  | some c =>
    rw [decodeIter, if_pos hlt, hbyte] at h
    cases hst : f.ds.state with
    | data =>
      simp only [hst] at h
      split_ifs at h
      exact (hlen le_rfl h).elim
    | cr1 =>
      simp only [hst] at h
      split_ifs at h
      exact hret rfl h
    | lf1 =>
      simp only [hst] at h
      split_ifs at h
      · exact hret rfl h
      · exact (hlen zero_le_one h).elim
    | size =>
      simp only [hst] at h
      split_ifs at h
      cases hv : hexDigitVal c with
      | none =>
        rw [hv] at h
        exact hret rfl h
      | some v =>
        rw [hv] at h
        cases h
    | lf2 =>
      simp only [hst] at h
      split_ifs at h
      exact hret rfl h

theorem decodeLoop_error {fuel : ℕ} {f : DecodeFrame} {r : DecodeResult}
    (h : decodeLoop fuel f = some r) (hcode : r.code < 0) : r.bufLen = f.bufLen := by
  induction fuel generalizing f with
  | zero => cases h
  | succ fuel ih =>
    rw [decodeLoop] at h
    cases hiter : decodeIter f with
    | next f' =>
      rw [hiter] at h
      exact (ih h).trans (decodeIter_next hiter).2.1
    | ret r' =>
      rw [hiter] at h
      obtain rfl := Option.some.inj h
      exact decodeIter_error hiter hcode
    | fault =>
      rw [hiter] at h
      cases h

/-- The streaming decoder refuses a message with extensions or a trailer, and `*buf_len` stays. -/
theorem ExtendedMessage.decodeChunkedStream_of_not_plain {m : ExtendedMessage} (h : ¬ m.Plain)
    (extra : List UInt8) :
    ∃ r, decodeChunkedStream .zero (m.wire ++ extra) = some r ∧ r.code = -1 ∧
      r.bufLen = (m.wire ++ extra).length := by
  obtain ⟨hcode, hfit⟩ := m.stops_of_not_plain h extra
  obtain ⟨r, hr, hr', -⟩ := decodeChunkedStream_eq_feed rfl hfit
  rw [hcode] at hr'
  refine ⟨r, hr, hr', ?_⟩
  rw [decodeLoop_error hr (by rw [hr']; decide), DecodeFrame.enter]

end Nxweb
