import Nxweb.Chunked.Decoder
import Nxweb.Chunked.Message

/-!
# Correctness of the streaming chunked decoder

The decoder is compared with `feed`, which reads a byte string one byte at a time and
knows nothing of buffers and cursors. Two facts carry the development.

* In decoding mode and as long as no chunk size wraps, one call on a buffer does what
  `feed` does on its bytes (`decodeChunkedStream_eq_feed`). The invariant of the loop is
  `View`: the buffer is the decoded output, a gap left by size lines, and the unread rest,
  and the gap is empty while chunk data is being read, so that data is decoded in place.
* `feed` reads a concatenation part by part (`feed_append`), which makes the decoder
  independent of where the buffers are cut.

On the wire form of a `ChunkedMessage`, `feed` stops at the last byte with the body as
output (`feed_wire`), and so do the calls on any split of it (`decodeBuffers_wire`).
-/

namespace Nxweb

/-! ### Reading byte by byte -/

/-- Effect of one byte on the decoder. -/
inductive ByteStep where
  | more (ds : ChunkedDecoderState) (out : List UInt8)
  | error (ds : ChunkedDecoderState)
  | done (ds : ChunkedDecoderState)

/-- The decoder reads one byte. After the last data byte it waits for a carriage return;
a chunk without data bytes waits for it from the start. -/
def byteStep (ds : ChunkedDecoderState) (c : UInt8) : ByteStep :=
  match ds.state with
  | .data =>
    if 1 < ds.chunkBytesLeft then
      .more { ds with chunkBytesLeft := ds.chunkBytesLeft - 1 } [c]
    else if ds.chunkBytesLeft = 1 then
      .more { ds with chunkBytesLeft := 0, state := .cr1 } [c]
    else if c = cr then .more { ds with chunkBytesLeft := 0, state := .lf1 } []
    else .error { ds with chunkBytesLeft := 0, state := .cr1 }
  | .cr1 => if c = cr then .more { ds with state := .lf1 } [] else .error ds
  | .lf1 =>
    if c = lf then
      if ds.finalChunk then .done ds else .more { ds with state := .size } []
    else .error ds
  | .size =>
    if c = cr then
      .more { ds with
        finalChunk := ds.finalChunk || ds.chunkBytesLeft == 0, state := .lf2 } []
    else
      match hexDigitVal c with
      | none => .error ds
      | some v =>
        .more { ds with chunkBytesLeft := toSsize (ds.chunkBytesLeft * 16 + v) } []
  | .lf2 => if c = lf then .more { ds with state := .data } [] else .error ds

/-- Outcome of reading a byte string: the return code, the state and the data bytes. -/
structure FeedResult where
  code : ℤ
  ds : ChunkedDecoderState
  out : List UInt8

/-- The decoder reads a byte string and stops at an error or at the end of the message. -/
def feed (ds : ChunkedDecoderState) : List UInt8 → FeedResult
  | [] => ⟨0, ds, []⟩
  | c :: cs =>
    match byteStep ds c with
    | .more ds' out => { feed ds' cs with out := out ++ (feed ds' cs).out }
    | .error ds' => ⟨-1, ds', []⟩
    | .done ds' => ⟨1, ds', []⟩

/-- No chunk size wraps to a negative number while the bytes are read. -/
def SizesFit (ds : ChunkedDecoderState) : List UInt8 → Prop
  | [] => 0 ≤ ds.chunkBytesLeft
  | c :: cs => 0 ≤ ds.chunkBytesLeft ∧
    match byteStep ds c with
    | .more ds' _ => SizesFit ds' cs
    | _ => True

theorem SizesFit.nonneg {ds : ChunkedDecoderState} {cs : List UInt8} (h : SizesFit ds cs) :
    0 ≤ ds.chunkBytesLeft := by
  cases cs with
  | nil => exact h
  | cons c cs => exact h.1

theorem feed_cons_more {ds ds' : ChunkedDecoderState} {c : UInt8} {out : List UInt8}
    (h : byteStep ds c = .more ds' out) (cs : List UInt8) :
    feed ds (c :: cs) = { feed ds' cs with out := out ++ (feed ds' cs).out } := by
  simp only [feed, h]

theorem SizesFit.of_more {ds ds' : ChunkedDecoderState} {c : UInt8} {cs out : List UInt8}
    (hfit : SizesFit ds (c :: cs)) (h : byteStep ds c = .more ds' out) : SizesFit ds' cs := by
  have := hfit.2
  rwa [h] at this

/-- A string that is read to its end hands its state over to what follows. -/
theorem feed_append {ds : ChunkedDecoderState} {xs : List UInt8} (h : (feed ds xs).code = 0)
    (ys : List UInt8) :
    feed ds (xs ++ ys) =
      { feed (feed ds xs).ds ys with out := (feed ds xs).out ++ (feed (feed ds xs).ds ys).out } := by
  induction xs generalizing ds with
  | nil => simp [feed]
  | cons c cs ih =>
    rw [List.cons_append]
    cases hstep : byteStep ds c with
    | error ds' => simp [feed, hstep] at h
    | done ds' => simp [feed, hstep] at h
    | more ds' out =>
      rw [feed_cons_more hstep] at h ⊢
      rw [feed_cons_more hstep, ih h]
      simp

/-- If a string is read to its end, so is each initial part of it. -/
theorem feed_code_of_append {ds : ChunkedDecoderState} {xs ys : List UInt8}
    (h : (feed ds (xs ++ ys)).code = 0) : (feed ds xs).code = 0 := by
  induction xs generalizing ds with
  | nil => rfl
  | cons c cs ih =>
    rw [List.cons_append] at h
    cases hstep : byteStep ds c with
    | error ds' => simp [feed, hstep] at h
    | done ds' => simp [feed, hstep] at h
    | more ds' out =>
      rw [feed_cons_more hstep] at h ⊢
      exact ih h

/-- Sizes that fit along a concatenation fit along both parts. -/
theorem sizesFit_append {ds : ChunkedDecoderState} {xs : List UInt8}
    (hcode : (feed ds xs).code = 0) (ys : List UInt8) :
    SizesFit ds (xs ++ ys) ↔ SizesFit ds xs ∧ SizesFit (feed ds xs).ds ys := by
  induction xs generalizing ds with
  | nil => exact ⟨fun h => ⟨h.nonneg, h⟩, fun h => h.2⟩
  | cons c cs ih =>
    cases hstep : byteStep ds c with
    | error ds' => simp [feed, hstep] at hcode
    | done ds' => simp [feed, hstep] at hcode
    | more ds' out =>
      rw [feed_cons_more hstep] at hcode ⊢
      simp only [List.cons_append, SizesFit, hstep, ih hcode, and_assoc]

/-! ### Reading the parts of a message -/

/-- The bytes `xs` are read from `ds` to their end without a size wrapping, leaving `ds'`
and the data `out`. -/
structure Feeds (ds : ChunkedDecoderState) (xs : List UInt8) (ds' : ChunkedDecoderState)
    (out : List UInt8) : Prop where
  feed_eq : feed ds xs = ⟨0, ds', out⟩
  fit : SizesFit ds xs

theorem Feeds.append {ds ds' ds'' : ChunkedDecoderState} {xs ys out out' : List UInt8}
    (hx : Feeds ds xs ds' out) (hy : Feeds ds' ys ds'' out') :
    Feeds ds (xs ++ ys) ds'' (out ++ out') := by
  have hcode : (feed ds xs).code = 0 := by rw [hx.feed_eq]
  constructor
  · rw [feed_append hcode, hx.feed_eq, hy.feed_eq]
  · rw [sizesFit_append hcode, hx.feed_eq]
    exact ⟨hx.fit, hy.fit⟩

theorem Feeds.nil {ds : ChunkedDecoderState} (h : 0 ≤ ds.chunkBytesLeft) : Feeds ds [] ds [] :=
  ⟨rfl, h⟩

/-- A single byte that moves the decoder on. -/
theorem Feeds.byte {ds ds' : ChunkedDecoderState} {c : UInt8} {out : List UInt8}
    (h0 : 0 ≤ ds.chunkBytesLeft) (h : byteStep ds c = .more ds' out)
    (h1 : 0 ≤ ds'.chunkBytesLeft) : Feeds ds [c] ds' out := by
  constructor
  · simp [feed, h]
  · simp only [SizesFit, h]
    exact ⟨h0, h1⟩

/-- The state reached has a size that fits. -/
theorem Feeds.nonneg_right {ds ds' : ChunkedDecoderState} {xs out : List UInt8}
    (h : Feeds ds xs ds' out) : 0 ≤ ds'.chunkBytesLeft := by
  have hcode : (feed ds xs).code = 0 := by rw [h.feed_eq]
  have := ((sizesFit_append hcode []).mp (by simpa using h.fit)).2
  rwa [h.feed_eq] at this

/-- Both parts of a string that is read to its end are read to their ends. -/
theorem Feeds.split {ds ds' : ChunkedDecoderState} {xs ys out : List UInt8}
    (h : Feeds ds (xs ++ ys) ds' out) :
    ∃ ds₁ out₁ out₂, Feeds ds xs ds₁ out₁ ∧ Feeds ds₁ ys ds' out₂ ∧ out = out₁ ++ out₂ := by
  have hcode : (feed ds xs).code = 0 :=
    feed_code_of_append (congrArg FeedResult.code h.feed_eq)
  obtain ⟨hfitx, hfity⟩ := (sizesFit_append hcode ys).mp h.fit
  have hall := h.feed_eq
  rw [feed_append hcode, FeedResult.mk.injEq] at hall
  obtain ⟨hy, hds, hout⟩ := hall
  refine ⟨(feed ds xs).ds, (feed ds xs).out, (feed (feed ds xs).ds ys).out, ⟨?_, hfitx⟩,
    ⟨?_, hfity⟩, hout.symm⟩
  · rw [← hcode]
  · rw [← hy, ← hds]

/-- A string that is read to its end, and the byte that ends the message; what follows it is not
looked at. -/
theorem Feeds.done {ds ds' : ChunkedDecoderState} {xs out : List UInt8} {c : UInt8}
    (h : Feeds ds xs ds' out) (hdone : byteStep ds' c = .done ds') (ys : List UInt8) :
    feed ds (xs ++ c :: ys) = ⟨1, ds', out⟩ ∧ SizesFit ds (xs ++ c :: ys) := by
  have hcode : (feed ds xs).code = 0 := by rw [h.feed_eq]
  have hlast : feed ds' (c :: ys) = ⟨1, ds', []⟩ := by simp [feed, hdone]
  constructor
  · rw [feed_append hcode, h.feed_eq, hlast, List.append_nil]
  · rw [sizesFit_append hcode, h.feed_eq]
    exact ⟨h.fit, h.nonneg_right, by simp only [hdone]⟩

/-- The digits of a size line are accumulated. -/
theorem feeds_digits {ds : ChunkedDecoderState} (hst : ds.state = .size) {digits : List UInt8}
    (hhex : ∀ c ∈ digits, hexDigitVal c ≠ none) {acc : ℕ} (hacc : ds.chunkBytesLeft = acc)
    (hlt : hexValueFrom acc digits < 2 ^ 63) :
    Feeds ds digits { ds with chunkBytesLeft := hexValueFrom acc digits } [] := by
  induction digits generalizing ds acc with
  | nil =>
    have hds : { ds with chunkBytesLeft := (hexValueFrom acc [] : ℤ) } = ds := by
      simp [hexValueFrom, ← hacc]
    rw [hds]
    exact .nil (by omega)
  | cons c cs ih =>
    obtain ⟨v, hv⟩ := Option.ne_none_iff_exists'.mp (hhex c (by simp))
    have hval : hexValueFrom acc (c :: cs) = hexValueFrom (acc * 16 + v) cs := by
      simp [hexValueFrom, hv]
    have hle : acc * 16 + v < 2 ^ 63 :=
      lt_of_le_of_lt (le_hexValueFrom _ cs) (hval ▸ hlt)
    have hne : c ≠ cr := by
      rintro rfl
      simp at hv
    have hstep : byteStep ds c =
        .more { ds with chunkBytesLeft := ((acc * 16 + v : ℕ) : ℤ) } [] := by
      simp only [byteStep, hst, hne, hv, hacc, if_false]
      rw [toSsize_of_lt (by positivity) (by exact_mod_cast hle)]
      push_cast
      rfl
    have hrest := @ih { ds with chunkBytesLeft := ((acc * 16 + v : ℕ) : ℤ) } hst
      (fun c hc => hhex c (by simp [hc])) _ rfl (hval ▸ hlt)
    rw [hval]
    exact (Feeds.byte (by omega) hstep (by positivity)).append hrest

/-- Chunk data is copied to the output. -/
theorem feeds_data {ds : ChunkedDecoderState} (hst : ds.state = .data) {xs : List UInt8}
    (hlt : (xs.length : ℤ) < ds.chunkBytesLeft) :
    Feeds ds xs { ds with chunkBytesLeft := ds.chunkBytesLeft - xs.length } xs := by
  induction xs generalizing ds with
  | nil => simpa using Feeds.nil (show 0 ≤ ds.chunkBytesLeft by simpa using hlt.le)
  | cons c cs ih =>
    rw [List.length_cons] at hlt
    push_cast at hlt
    have hstep : byteStep ds c =
        .more { ds with chunkBytesLeft := ds.chunkBytesLeft - 1 } [c] := by
      simp only [byteStep, hst]
      rw [if_pos (by omega)]
    have hrest := @ih { ds with chunkBytesLeft := ds.chunkBytesLeft - 1 } hst
      (by simp only; omega)
    have hall := (Feeds.byte (by omega) hstep (by simp only; omega)).append hrest
    have hsub : ds.chunkBytesLeft - 1 - (cs.length : ℤ) =
        ds.chunkBytesLeft - ((c :: cs).length : ℤ) := by
      rw [List.length_cons]; push_cast; ring
    simpa [hsub] using hall

/-- The data of a whole chunk is copied to the output, and a line end is expected next. -/
theorem feeds_data_all {ds : ChunkedDecoderState} (hst : ds.state = .data) {xs : List UInt8}
    (hpos : 0 < xs.length) (hlen : ds.chunkBytesLeft = xs.length) :
    Feeds ds xs { ds with chunkBytesLeft := 0, state := .cr1 } xs := by
  -- all bytes but the last leave the decoder inside the chunk
  obtain ⟨ys, y, rfl⟩ : ∃ ys y, xs = ys ++ [y] :=
    ⟨xs.dropLast, xs.getLast (List.ne_nil_of_length_pos hpos),
      (List.dropLast_append_getLast _).symm⟩
  rw [List.length_append, List.length_singleton] at hlen
  push_cast at hlen
  have hys := feeds_data hst (show (ys.length : ℤ) < ds.chunkBytesLeft by omega)
  have hleft : ds.chunkBytesLeft - (ys.length : ℤ) = 1 := by omega
  rw [hleft] at hys
  refine hys.append (Feeds.byte (by simp) ?_ (by simp))
  simp [byteStep, hst]

/-- The line end after a size line. -/
theorem feeds_size_crlf {ds : ChunkedDecoderState} (hst : ds.state = .size)
    (h0 : 0 ≤ ds.chunkBytesLeft) :
    Feeds ds crlf { ds with
      finalChunk := ds.finalChunk || ds.chunkBytesLeft == 0, state := .data } [] := by
  have hcr : Feeds ds [cr] { ds with
      finalChunk := ds.finalChunk || ds.chunkBytesLeft == 0, state := .lf2 } [] :=
    .byte h0 (by simp [byteStep, hst]) h0
  exact hcr.append (.byte h0 (by simp [byteStep]) h0)

/-- A chunk is read from a state that expects a size line to such a state again. -/
theorem feeds_chunk (c : Chunk) : Feeds .zero c.wire .zero c.data := by
  have hdigits : Feeds .zero c.digits
      { ChunkedDecoderState.zero with chunkBytesLeft := (c.data.length : ℤ) } [] := by
    have hval : hexValueFrom 0 c.digits = c.data.length := c.hexValue_eq
    have h := @feeds_digits .zero rfl c.digits c.digits_hex 0 rfl (hval ▸ c.data_lt)
    rwa [hval] at h
  have hpos := c.data_pos
  have hsize := @feeds_size_crlf
    { ChunkedDecoderState.zero with chunkBytesLeft := (c.data.length : ℤ) } rfl (by simp)
  have hdata := @feeds_data_all
    { ChunkedDecoderState.zero with chunkBytesLeft := (c.data.length : ℤ), state := .data } rfl
    c.data hpos rfl
  have hnz : ((c.data.length : ℤ) == 0) = false := by
    rw [beq_eq_false_iff_ne]; omega
  simp only [ChunkedDecoderState.zero, hnz, Bool.or_false] at hsize hdata
  have hcr : Feeds ⟨.cr1, false, false, 0⟩ [cr] ⟨.lf1, false, false, 0⟩ [] :=
    .byte (by decide) rfl (by decide)
  have hlf : Feeds ⟨.lf1, false, false, 0⟩ [lf] .zero [] := .byte (by decide) rfl (by decide)
  simpa [Chunk.wire] using (((hdigits.append hsize).append hdata).append hcr).append hlf

/-- A list of chunks is read chunk by chunk. -/
theorem feeds_chunks (cs : List Chunk) :
    Feeds .zero (ChunkedMessage.chunksWire cs) .zero (ChunkedMessage.chunksData cs) := by
  induction cs with
  | nil => exact .nil (by decide)
  | cons c cs ih => exact (feeds_chunk c).append ih

/-- Zeros denote zero. -/
theorem hexValueFrom_zeros {zs : List UInt8} (h : ∀ c ∈ zs, c = 48) : hexValueFrom 0 zs = 0 := by
  induction zs with
  | nil => rfl
  | cons z zs ih =>
    rw [h z (by simp)]
    exact ih fun c hc => h c (by simp [hc])

/-- A message is read up to its last byte, with the body as output; at the last byte the
decoder reports the end. -/
theorem feeds_wire (m : ChunkedMessage) :
    ∃ pre ds, m.wire = pre ++ [lf] ∧ Feeds .zero pre ds m.body ∧ byteStep ds lf = .done ds := by
  have hzeros : Feeds .zero m.zeros .zero [] := by
    have hval := hexValueFrom_zeros m.zeros_eq
    have h := @feeds_digits .zero rfl m.zeros
      (fun c hc => by rw [m.zeros_eq c hc]; decide) 0 rfl (by rw [hval]; decide)
    rwa [hval] at h
  have hsize := @feeds_size_crlf .zero rfl (by decide)
  have hcr : Feeds ⟨.data, true, false, 0⟩ [cr] ⟨.lf1, true, false, 0⟩ [] :=
    .byte (by decide) rfl (by decide)
  refine ⟨ChunkedMessage.chunksWire m.chunks ++ m.zeros ++ crlf ++ [cr],
    ⟨.lf1, true, false, 0⟩, by simp [ChunkedMessage.wire], ?_, rfl⟩
  simpa [ChunkedMessage.body] using
    (((feeds_chunks m.chunks).append hzeros).append hsize).append hcr

/-! ### The loop reads what `feed` reads -/

/-- The buffer as the loop sees it in decoding mode: the decoded bytes `out` up to `d`, the
unread bytes `rest` between `p` and `end`. While chunk data is read the two cursors agree. -/
structure View (f : DecodeFrame) (out rest : List UInt8) : Prop where
  monitorOnly : f.ds.monitorOnly = false
  layout : ∃ gap tail, f.buf = out ++ gap ++ rest ++ tail ∧ f.p = (out ++ gap).length ∧
    (f.ds.state = .data → gap = [])
  d_eq : f.d = out.length
  bufEnd_eq : f.bufEnd = f.p + rest.length

/-- A call starts with everything unread. -/
theorem View.enter {ds : ChunkedDecoderState} (h : ds.monitorOnly = false) (buf : List UInt8) :
    View (.enter ds buf) [] buf where
  monitorOnly := h
  layout := ⟨[], [], by simp [DecodeFrame.enter]⟩
  d_eq := rfl
  bufEnd_eq := by simp [DecodeFrame.enter]

/-- The byte under the read cursor is the first unread one. -/
theorem View.byteAt_p {f : DecodeFrame} {out rest : List UInt8} {c : UInt8}
    (hv : View f out (c :: rest)) : byteAt f.buf f.p = some c := by
  obtain ⟨gap, tail, hbuf, hp, -⟩ := hv.layout
  rw [byteAt, if_pos (by omega), hp, Int.toNat_natCast, hbuf, List.append_assoc,
    List.getElem?_append_right le_rfl]
  simp

/-- The bytes below the write cursor are the decoded ones. -/
theorem View.take_d {f : DecodeFrame} {out rest : List UInt8} (hv : View f out rest) :
    f.buf.take f.d.toNat = out := by
  obtain ⟨gap, tail, hbuf, -, -⟩ := hv.layout
  rw [hv.d_eq, Int.toNat_natCast, hbuf, List.append_assoc, List.append_assoc, List.take_left]

/-- Moving the read cursor over one byte. -/
theorem View.advance {f : DecodeFrame} {out rest : List UInt8} {c : UInt8}
    (hv : View f out (c :: rest)) (ds : ChunkedDecoderState) (hds : ds.monitorOnly = false)
    (code : CdsCode) (hcode : code ≠ .data) :
    View ({ f with ds := ds }.advance code) out rest := by
  obtain ⟨gap, tail, hbuf, hp, -⟩ := hv.layout
  refine ⟨hds, ⟨gap ++ [c], tail, by simp [DecodeFrame.advance, hbuf], ?_, fun h => ?_⟩,
    hv.d_eq, ?_⟩
  · simp [DecodeFrame.advance, hp]; ring
  · exact absurd h hcode
  · have := hv.bufEnd_eq
    rw [List.length_cons] at this
    push_cast at this
    simp only [DecodeFrame.advance]
    omega

/-- The frame after the line end of a size line: the rest of the buffer has been moved down
to the write cursor. -/
theorem View.moved {f : DecodeFrame} {out rest : List UInt8} {c : UInt8}
    (hv : View f out (c :: rest)) :
    View { f.advance .data with
      buf := memmove f.buf f.d.toNat (f.p + 1).toNat (f.bufEnd - (f.p + 1)).toNat
      bufEnd := f.bufEnd - (f.p + 1 - f.d)
      p := f.d } out rest := by
  obtain ⟨gap, tail, hbuf, hp, -⟩ := hv.layout
  have hend := hv.bufEnd_eq
  rw [List.length_cons] at hend
  push_cast at hend
  have hlen : (f.bufEnd - (f.p + 1)).toNat = rest.length := by omega
  have hd : f.d.toNat = out.length := by rw [hv.d_eq]; simp
  have hp1 : (f.p + 1).toNat = (out ++ gap ++ [c]).length := by
    rw [hp]; simp; omega
  have hdrop : f.buf.drop (out ++ gap ++ [c]).length = rest ++ tail := by
    have : f.buf = (out ++ gap ++ [c]) ++ (rest ++ tail) := by simp [hbuf]
    rw [this, List.drop_left]
  refine ⟨hv.monitorOnly, ⟨[], f.buf.drop (out.length + rest.length), ?_, ?_, fun _ => rfl⟩,
    hv.d_eq, ?_⟩
  · have htake := hv.take_d
    rw [hd] at htake
    simp only [memmove, hlen, hd, hp1, hdrop, htake, List.take_left, List.append_nil]
  · simp [hv.d_eq]
  · simp only
    omega

/-- A call leaves these bytes, and says how many they are. -/
structure DecodeResult.Leaves (r : DecodeResult) (out : List UInt8) : Prop where
  kept_eq : r.kept = out
  bufLen_eq : r.bufLen = out.length

/-- The loop on a frame with nothing left to read. -/
theorem decodeIter_nil {f : DecodeFrame} {out : List UInt8} (hv : View f out []) :
    ∃ r, decodeIter f = .ret r ∧ r.code = 0 ∧ r.ds = f.ds ∧ r.Leaves out := by
  obtain ⟨gap, tail, hbuf, hp, -⟩ := hv.layout
  have hend := hv.bufEnd_eq
  rw [List.length_nil] at hend
  refine ⟨_, by rw [decodeIter, if_neg (by push_cast at hend; omega)]; rfl, rfl, rfl, ?_, ?_⟩
  · simp [DecodeResult.kept, hv.monitorOnly, hv.d_eq, hbuf]
  · simp [hv.monitorOnly, hv.d_eq]

/-- Data that does not finish the chunk ends the call. -/
theorem decodeIter_data_lt {f : DecodeFrame} {out rest : List UInt8} {c : UInt8}
    (hv : View f out (c :: rest)) (hst : f.ds.state = .data)
    (hlt : ((c :: rest).length : ℤ) < f.ds.chunkBytesLeft) :
    ∃ r, decodeIter f = .ret r ∧ r.code = 0 ∧
      r.ds = { f.ds with chunkBytesLeft := f.ds.chunkBytesLeft - (c :: rest).length } ∧
      r.Leaves (out ++ c :: rest) := by
  obtain ⟨gap, tail, hbuf, hp, hgap⟩ := hv.layout
  have hend := hv.bufEnd_eq
  have hsub : f.bufEnd - f.p = (c :: rest).length := by omega
  refine ⟨{
    code := 0
    ds := { f.ds with chunkBytesLeft := f.ds.chunkBytesLeft - (c :: rest).length }
    buf := f.buf
    bufLen := if f.ds.monitorOnly then f.bufLen else f.bufEnd.toNat }, ?_, rfl, rfl, ?_⟩
  · rw [decodeIter, if_pos (by rw [hend]; simp), hv.byteAt_p]
    simp only [hst, hsub]
    rw [if_neg (by omega)]
    rfl
  · have hlen : f.bufEnd.toNat = (out ++ c :: rest).length := by
      rw [hend, hp, hgap hst]; simp; omega
    refine ⟨?_, by simp only [hv.monitorOnly, Bool.false_eq_true, if_false, hlen]⟩
    simp only [DecodeResult.kept, hv.monitorOnly, Bool.false_eq_true, if_false, hlen, hbuf,
      hgap hst, List.append_nil]
    exact List.take_left

/-- Data that finishes the chunk stays where it is and moves both cursors. -/
theorem decodeIter_data_ge {f : DecodeFrame} {out xs ys : List UInt8}
    (hv : View f out (xs ++ ys)) (hne : xs ++ ys ≠ []) (hst : f.ds.state = .data)
    (hlen : f.ds.chunkBytesLeft = xs.length) :
    ∃ f', decodeIter f = .next f' ∧ View f' (out ++ xs) ys ∧
      f'.ds = { f.ds with chunkBytesLeft := 0, state := .cr1 } := by
  obtain ⟨gap, tail, hbuf, hp, hgap⟩ := hv.layout
  have hend := hv.bufEnd_eq
  rw [List.length_append] at hend
  push_cast at hend
  obtain ⟨c, rest, hcons⟩ := List.exists_cons_of_ne_nil hne
  have hpos : 0 < (xs ++ ys).length := List.length_pos_iff.mpr hne
  rw [List.length_append] at hpos
  have hbyte : byteAt f.buf f.p = some c := by
    rw [hcons] at hv
    exact hv.byteAt_p
  refine ⟨{ f with
    ds := { f.ds with chunkBytesLeft := 0, state := .cr1 }
    p := f.p + f.ds.chunkBytesLeft
    d := f.p + f.ds.chunkBytesLeft }, ?_,
    ⟨hv.monitorOnly, ⟨[], tail, ?_, ?_, fun _ => rfl⟩, ?_, ?_⟩, rfl⟩
  · rw [decodeIter, if_pos (by omega), hbyte]
    simp only [hst]
    rw [if_pos (by omega)]
  · simp [hbuf, hgap hst]
  · simp [hp, hgap hst, hlen]
  · simp [hp, hgap hst, hlen]
  · simp only [hlen]
    omega

/-- Outside chunk data, one iteration does what `byteStep` does. -/
theorem decodeIter_byte {f : DecodeFrame} {out rest : List UInt8} {c : UInt8}
    (hv : View f out (c :: rest)) (hst : f.ds.state ≠ .data) :
    match byteStep f.ds c with
    | .more ds' _ => ∃ f', decodeIter f = .next f' ∧ View f' out rest ∧ f'.ds = ds'
    | .error ds' => ∃ r, decodeIter f = .ret r ∧ r.code = -1 ∧ r.ds = ds'
    | .done ds' => ∃ r, decodeIter f = .ret r ∧ r.code = 1 ∧ r.ds = ds' ∧ r.Leaves out := by
  have hmon := hv.monitorOnly
  have hiter : f.p < f.bufEnd := by
    have := hv.bufEnd_eq
    rw [List.length_cons] at this
    omega
  have hkept := hv.take_d
  rw [decodeIter, if_pos hiter, hv.byteAt_p]
  unfold byteStep
  cases hcode : f.ds.state with
  | data => exact absurd hcode hst
  | cr1 =>
    by_cases hc : c = cr
    · simp only [hc, ne_eq, not_true_eq_false, if_false, if_true]
      exact ⟨_, rfl, hv.advance f.ds hmon .lf1 (by decide), rfl⟩
    · simp only [hc, ne_eq, not_false_eq_true, if_false, if_true]
      exact ⟨_, rfl, rfl, rfl⟩
  | lf1 =>
    by_cases hc : c = lf
    · simp only [hc, ne_eq, not_true_eq_false, if_false, if_true]
      cases hfin : f.ds.finalChunk with
      | true =>
        simp only [if_true]
        exact ⟨_, rfl, rfl, rfl, by simp [DecodeResult.kept, hmon, hkept], by simp [hmon, hv.d_eq]⟩
      | false =>
        simp only [Bool.false_eq_true, if_false]
        exact ⟨_, rfl, hv.advance f.ds hmon .size (by decide), by simp [DecodeFrame.advance, hfin]⟩
    · simp only [hc, ne_eq, not_false_eq_true, if_false, if_true]
      exact ⟨_, rfl, rfl, rfl⟩
  | size =>
    by_cases hc : c = cr
    · simp only [hc, if_true]
      exact ⟨_, rfl, hv.advance { f.ds with
        finalChunk := f.ds.finalChunk || f.ds.chunkBytesLeft == 0 } hmon .lf2 (by decide), rfl⟩
    · simp only [hc, if_false]
      cases hv' : hexDigitVal c with
      | none => exact ⟨_, rfl, rfl, rfl⟩
      | some v =>
        refine ⟨_, rfl, hv.advance { f.ds with
          chunkBytesLeft := toSsize (f.ds.chunkBytesLeft * 16 + v) } hmon .size (by decide), ?_⟩
        simp [DecodeFrame.advance]
  | lf2 =>
    by_cases hc : c = lf
    · simp only [hc, ne_eq, not_true_eq_false, if_false, if_true]
      have hmon' : (f.advance .data).ds.monitorOnly = false := hmon
      simp only [hmon', Bool.false_eq_true, if_false]
      exact ⟨_, rfl, hv.moved, rfl⟩
    · simp only [hc, ne_eq, not_false_eq_true, if_false, if_true]
      exact ⟨_, rfl, rfl, rfl⟩

/-- A chunk whose data is complete waits for a carriage return, whether or not it has been
told so. -/
theorem feed_data_zero {ds : ChunkedDecoderState} (hst : ds.state = .data)
    (h0 : ds.chunkBytesLeft = 0) {cs : List UInt8} (hne : cs ≠ []) :
    feed ds cs = feed { ds with chunkBytesLeft := 0, state := .cr1 } cs := by
  obtain ⟨c, cs, rfl⟩ := List.exists_cons_of_ne_nil hne
  have : byteStep ds c = byteStep { ds with chunkBytesLeft := 0, state := .cr1 } c := by
    simp [byteStep, hst, h0]
  simp only [feed, this]

theorem sizesFit_data_zero {ds : ChunkedDecoderState} (hst : ds.state = .data)
    (h0 : ds.chunkBytesLeft = 0) {cs : List UInt8} (hfit : SizesFit ds cs) :
    SizesFit { ds with chunkBytesLeft := 0, state := .cr1 } cs := by
  cases cs with
  | nil => simp [SizesFit]
  | cons c cs =>
    have : byteStep ds c = byteStep { ds with chunkBytesLeft := 0, state := .cr1 } c := by
      simp [byteStep, hst, h0]
    refine ⟨by simp, ?_⟩
    rw [← this]
    exact hfit.2

/-- Data that finishes the chunk is output, and reading goes on at the line end. -/
theorem feed_data_ge {ds : ChunkedDecoderState} (hst : ds.state = .data) {xs ys : List UInt8}
    (hlen : ds.chunkBytesLeft = xs.length) (hne : xs ++ ys ≠ []) (hfit : SizesFit ds (xs ++ ys)) :
    let ds' := { ds with chunkBytesLeft := 0, state := .cr1 }
    feed ds (xs ++ ys) = { feed ds' ys with out := xs ++ (feed ds' ys).out } ∧ SizesFit ds' ys := by
  intro ds'
  rcases Nat.eq_zero_or_pos xs.length with h0 | hpos
  · obtain rfl := List.eq_nil_of_length_eq_zero h0
    rw [List.nil_append] at hne hfit ⊢
    rw [feed_data_zero hst (by simpa using hlen) hne]
    exact ⟨rfl, sizesFit_data_zero hst (by simpa using hlen) hfit⟩
  · have hx := feeds_data_all hst hpos hlen
    have hcode : (feed ds xs).code = 0 := by rw [hx.feed_eq]
    rw [sizesFit_append hcode, hx.feed_eq] at hfit
    rw [feed_append hcode, hx.feed_eq]
    exact ⟨rfl, hfit.2⟩

/-- The bytes at hand reach to the end of the chunk. -/
theorem exists_chunk_end {cs : List UInt8} {left : ℤ} (h0 : 0 ≤ left) (hge : left ≤ cs.length) :
    ∃ xs ys, cs = xs ++ ys ∧ left = xs.length := by
  refine ⟨cs.take left.toNat, cs.drop left.toNat, (List.take_append_drop _ _).symm, ?_⟩
  rw [List.length_take, min_eq_left (by omega)]
  omega

/-- What the loop needs to know of its iterations, for a description `V` of the frame by the
bytes already put out and those not yet read, and a description `K` of a result by its output. -/
structure IterSpec (V : DecodeFrame → List UInt8 → List UInt8 → Prop)
    (K : DecodeResult → List UInt8 → Prop) : Prop where
  nil : ∀ {f out}, V f out [] →
    ∃ r, decodeIter f = .ret r ∧ r.code = 0 ∧ r.ds = f.ds ∧ K r out
  data_lt : ∀ {f out c rest}, V f out (c :: rest) → f.ds.state = .data →
    ((c :: rest).length : ℤ) < f.ds.chunkBytesLeft →
    ∃ r, decodeIter f = .ret r ∧ r.code = 0 ∧
      r.ds = { f.ds with chunkBytesLeft := f.ds.chunkBytesLeft - (c :: rest).length } ∧
      K r (out ++ c :: rest)
  data_ge : ∀ {f out xs ys}, V f out (xs ++ ys) → xs ++ ys ≠ [] → f.ds.state = .data →
    f.ds.chunkBytesLeft = (xs.length : ℤ) →
    ∃ f', decodeIter f = .next f' ∧ V f' (out ++ xs) ys ∧
      f'.ds = { f.ds with chunkBytesLeft := 0, state := .cr1 }
  byte : ∀ {f out c rest}, V f out (c :: rest) → f.ds.state ≠ .data →
    match byteStep f.ds c with
    | .more ds' _ => ∃ f', decodeIter f = .next f' ∧ V f' out rest ∧ f'.ds = ds'
    | .error ds' => ∃ r, decodeIter f = .ret r ∧ r.code = -1 ∧ r.ds = ds'
    | .done ds' => ∃ r, decodeIter f = .ret r ∧ r.code = 1 ∧ r.ds = ds' ∧ K r out

theorem iterSpec_view : IterSpec View DecodeResult.Leaves :=
  ⟨decodeIter_nil, decodeIter_data_lt, decodeIter_data_ge, decodeIter_byte⟩

/-- The loop ends, with the code and state of `feed` and its output behind the bytes already
decoded. Fuel is spent twice per byte: an iteration that finishes a chunk without data
consumes nothing. -/
theorem IterSpec.decodeLoop_eq_feed {V : DecodeFrame → List UInt8 → List UInt8 → Prop}
    {K : DecodeResult → List UInt8 → Prop} (hspec : IterSpec V K) {fuel : ℕ} {f : DecodeFrame}
    {out rest : List UInt8} (hv : V f out rest) (hfit : SizesFit f.ds rest)
    (hfuel : 2 * rest.length + (if f.ds.state = .data then 1 else 0) < fuel) :
    ∃ r, decodeLoop fuel f = some r ∧ r.code = (feed f.ds rest).code ∧
      r.ds = (feed f.ds rest).ds ∧ (0 ≤ r.code → K r (out ++ (feed f.ds rest).out)) := by
  induction fuel generalizing f out rest with
  | zero => omega
  | succ fuel ih =>
    cases rest with
    | nil =>
      obtain ⟨r, hr, hcode, hds, hkept⟩ := hspec.nil hv
      refine ⟨r, by simp only [decodeLoop, hr], hcode, hds, fun _ => ?_⟩
      simpa [feed] using hkept
    | cons c rest =>
      by_cases hst : f.ds.state = .data
      · -- inside chunk data: either the buffer ends first, or the chunk does
        rcases lt_or_ge ((c :: rest).length : ℤ) f.ds.chunkBytesLeft with hlt | hge
        · obtain ⟨r, hr, hcode, hds, hkept⟩ := hspec.data_lt hv hst hlt
          have hfeed := (feeds_data hst hlt).feed_eq
          refine ⟨r, by simp only [decodeLoop, hr], ?_, ?_, fun _ => ?_⟩
          · rw [hfeed, hcode]
          · rw [hfeed, hds]
          · rw [hfeed]
            exact hkept
        · obtain ⟨xs, ys, hsplit, hlen⟩ := exists_chunk_end hfit.nonneg hge
          have hne : xs ++ ys ≠ [] := by rw [← hsplit]; simp
          rw [hsplit] at hv hfit hfuel ⊢
          obtain ⟨f', hnext, hv', hds'⟩ := hspec.data_ge hv hne hst hlen
          obtain ⟨hfeed, hfit'⟩ := feed_data_ge hst hlen hne hfit
          rw [← hds'] at hfeed hfit'
          obtain ⟨r, hr, hcode, hds, hkept⟩ := ih hv' hfit' (by
            rw [List.length_append, if_pos hst] at hfuel
            have : f'.ds.state ≠ .data := by rw [hds']; simp
            rw [if_neg this]
            omega)
          refine ⟨r, by simp only [decodeLoop, hnext, hr], ?_, ?_, fun h => ?_⟩
          · rw [hfeed, hcode]
          · rw [hfeed, hds]
          · rw [hfeed]
            simpa using hkept h
      · have hbyte := hspec.byte hv hst
        cases hstep : byteStep f.ds c with
        | error ds' =>
          rw [hstep] at hbyte
          obtain ⟨r, hr, hcode, hds⟩ := hbyte
          refine ⟨r, by simp only [decodeLoop, hr], ?_, ?_, fun h => ?_⟩
          · simp [feed, hstep, hcode]
          · simp [feed, hstep, hds]
          · omega
        | done ds' =>
          rw [hstep] at hbyte
          obtain ⟨r, hr, hcode, hds, hkept⟩ := hbyte
          refine ⟨r, by simp only [decodeLoop, hr], ?_, ?_, fun _ => ?_⟩
          · simp [feed, hstep, hcode]
          · simp [feed, hstep, hds]
          · simpa [feed, hstep] using hkept
        | more ds' o =>
          rw [hstep] at hbyte
          obtain ⟨f', hnext, hv', hds'⟩ := hbyte
          have hout : o = [] := by
            unfold byteStep at hstep
            split at hstep <;> (try split_ifs at hstep) <;> simp_all
            split at hstep <;> simp_all
          obtain ⟨r, hr, hcode, hds, hkept⟩ := ih hv' (hds' ▸ hfit.of_more hstep) (by
            rw [List.length_cons, if_neg hst] at hfuel
            split <;> omega)
          rw [hds'] at hcode hds hkept
          rw [feed_cons_more hstep, hout]
          exact ⟨r, by simp only [decodeLoop, hnext, hr], hcode, hds, by simpa using hkept⟩

/-- In decoding mode one call does what `feed` does, as long as no size wraps. -/
theorem decodeChunkedStream_leaves {ds : ChunkedDecoderState} (hmon : ds.monitorOnly = false)
    {buf : List UInt8} (hfit : SizesFit ds buf) :
    ∃ r, decodeChunkedStream ds buf = some r ∧ r.code = (feed ds buf).code ∧
      r.ds = (feed ds buf).ds ∧ (0 ≤ r.code → r.Leaves (feed ds buf).out) := by
  have h := @IterSpec.decodeLoop_eq_feed _ _ iterSpec_view (2 * buf.length + 2) _ _ _
    (View.enter hmon buf) hfit (by split <;> omega)
  rwa [List.nil_append] at h

theorem decodeChunkedStream_eq_feed {ds : ChunkedDecoderState} (hmon : ds.monitorOnly = false)
    {buf : List UInt8} (hfit : SizesFit ds buf) :
    ∃ r, decodeChunkedStream ds buf = some r ∧ r.code = (feed ds buf).code ∧
      r.ds = (feed ds buf).ds ∧ (0 ≤ r.code → r.kept = (feed ds buf).out) := by
  obtain ⟨r, hr, hcode, hds, hleaves⟩ := decodeChunkedStream_leaves hmon hfit
  exact ⟨r, hr, hcode, hds, fun h => (hleaves h).kept_eq⟩

/-! ### Whole messages -/

/-- Reading does not change the mode. -/
theorem byteStep_monitorOnly {ds ds' : ChunkedDecoderState} {c : UInt8} {out : List UInt8}
    (h : byteStep ds c = .more ds' out) : ds'.monitorOnly = ds.monitorOnly := by
  unfold byteStep at h
  split at h
  case h_4 =>
    split_ifs at h
    · cases h; rfl
    · split at h <;> cases h
      rfl
  all_goals split_ifs at h <;> cases h <;> rfl

theorem feed_monitorOnly {ds : ChunkedDecoderState} {cs : List UInt8}
    (hcode : (feed ds cs).code = 0) : (feed ds cs).ds.monitorOnly = ds.monitorOnly := by
  induction cs generalizing ds with
  | nil => rfl
  | cons c cs ih =>
    cases hstep : byteStep ds c with
    | error ds' => simp [feed, hstep] at hcode
    | done ds' => simp [feed, hstep] at hcode
    | more ds' out =>
      rw [feed_cons_more hstep] at hcode ⊢
      rw [ih hcode, byteStep_monitorOnly hstep]

theorem byteStep_out_length {ds ds' : ChunkedDecoderState} {c : UInt8} {out : List UInt8}
    (h : byteStep ds c = .more ds' out) : out.length ≤ 1 := by
  unfold byteStep at h
  split at h
  case h_4 =>
    split_ifs at h
    · cases h; simp
    · split at h <;> cases h
      simp
  all_goals split_ifs at h <;> cases h <;> simp

/-- The data is not longer than what was read. -/
theorem feed_out_length (ds : ChunkedDecoderState) (cs : List UInt8) :
    (feed ds cs).out.length ≤ cs.length := by
  induction cs generalizing ds with
  | nil => exact le_rfl
  | cons c cs ih =>
    cases hstep : byteStep ds c with
    | error ds' => simp [feed, hstep]
    | done ds' => simp [feed, hstep]
    | more ds' out =>
      have hone := byteStep_out_length hstep
      have hrest := ih ds'
      rw [feed_cons_more hstep, List.length_append, List.length_cons]
      omega

/-- A message in one buffer is decoded to its body. -/
theorem decodeChunkedStream_wire (m : ChunkedMessage) :
    ∃ r, decodeChunkedStream .zero m.wire = some r ∧ r.code = 1 ∧ r.kept = m.body := by
  obtain ⟨pre, ds, hwire, hpre, hdone⟩ := feeds_wire m
  obtain ⟨hfeed, hfit⟩ := hpre.done hdone []
  obtain ⟨r, hr, hcode, -, hkept⟩ := decodeChunkedStream_eq_feed rfl hfit
  rw [hfeed] at hcode hkept
  exact ⟨r, hwire ▸ hr, hcode, hkept (by rw [hcode]; exact zero_le_one)⟩

/-- The calls after the first one start in the state it left. -/
theorem decodeBuffers_cons {ds : ChunkedDecoderState} {buf : List UInt8} {r : DecodeResult}
    (h : decodeChunkedStream ds buf = some r) (bufs : List (List UInt8)) :
    decodeBuffers ds (buf :: bufs) = (decodeBuffers r.ds bufs).map (r :: ·) := by
  rw [decodeBuffers, h]
  cases hrest : decodeBuffers r.ds bufs <;> simp [hrest]

/-- An empty buffer changes nothing. -/
theorem decodeBuffers_empty {ds : ChunkedDecoderState} (hmon : ds.monitorOnly = false)
    (h0 : 0 ≤ ds.chunkBytesLeft) {bufs : List (List UInt8)} (hbufs : ∀ b ∈ bufs, b = []) :
    ∃ rs, decodeBuffers ds bufs = some rs ∧
      rs.map DecodeResult.code = List.replicate bufs.length 0 ∧
      (rs.map DecodeResult.kept).flatten = [] := by
  induction bufs with
  | nil => exact ⟨[], rfl, rfl, rfl⟩
  | cons b bufs ih =>
    obtain ⟨rs, hrs, hcodes, hout⟩ := ih fun b hb => hbufs b (by simp [hb])
    obtain rfl := hbufs b (by simp)
    obtain ⟨r, hr, hcode, hds, hkept⟩ :=
      decodeChunkedStream_eq_feed hmon (show SizesFit ds [] from h0)
    have hcode0 : r.code = 0 := hcode
    have hkept0 : r.kept = [] := hkept (by rw [hcode0])
    have hds0 : r.ds = ds := hds
    refine ⟨r :: rs, by rw [decodeBuffers_cons hr, hds0, hrs]; rfl, ?_, ?_⟩
    · simp [hcode0, hcodes, List.replicate_succ]
    · simp [hkept0, hout]

/-- Buffers that are read to their end return `0` and hand their state over to the buffers
after them. -/
theorem decodeBuffers_feeds {ds ds' : ChunkedDecoderState} (hmon : ds.monitorOnly = false)
    {bufs : List (List UInt8)} {out : List UInt8} (h : Feeds ds bufs.flatten ds' out) :
    ∃ rs, rs.map DecodeResult.code = List.replicate bufs.length 0 ∧
      (rs.map DecodeResult.kept).flatten = out ∧
      ∀ tail, decodeBuffers ds (bufs ++ tail) = (decodeBuffers ds' tail).map (rs ++ ·) := by
  induction bufs generalizing ds out with
  | nil =>
    have hds : ds = ds' := by simpa [feed] using congrArg FeedResult.ds h.feed_eq
    have hout : [] = out := by simpa [feed] using congrArg FeedResult.out h.feed_eq
    exact ⟨[], rfl, hout, fun tail => by simp [hds]⟩
  | cons b bufs ih =>
    rw [List.flatten_cons] at h
    obtain ⟨ds₁, out₁, out₂, hb, hrest, rfl⟩ := h.split
    have hcode : (feed ds b).code = 0 := by rw [hb.feed_eq]
    have hmon₁ : ds₁.monitorOnly = false := by
      have := feed_monitorOnly hcode
      rwa [hb.feed_eq, hmon] at this
    obtain ⟨rs, hcodes, hout, htail⟩ := ih hmon₁ hrest
    obtain ⟨r, hr, hrcode, hds, hkept⟩ := decodeChunkedStream_eq_feed hmon hb.fit
    rw [hb.feed_eq] at hrcode hds hkept
    refine ⟨r :: rs, by simp [hrcode, hcodes, List.replicate_succ], ?_, fun tail => ?_⟩
    · rw [List.map_cons, List.flatten_cons, hkept hrcode.ge, hout]
    · rw [List.cons_append, decodeBuffers_cons hr, hds, htail, Option.map_map]
      rfl

/-- Buffers that are not all empty have a last one that is not. -/
theorem exists_last_nonempty {α : Type*} {bufs : List (List α)} (h : bufs.flatten ≠ []) :
    ∃ before last after, bufs = before ++ last :: after ∧ last ≠ [] ∧ ∀ b ∈ after, b = [] := by
  induction bufs with
  | nil => simp at h
  | cons b bufs ih =>
    by_cases hrest : bufs.flatten = []
    · refine ⟨[], b, bufs, rfl, ?_, List.flatten_eq_nil_iff.mp hrest⟩
      rintro rfl
      exact h (by simpa using hrest)
    · obtain ⟨before, last, after, rfl, hlast, hafter⟩ := ih hrest
      exact ⟨b :: before, last, after, rfl, hlast, hafter⟩

/-- The decoder does not depend on where a message is cut. Fed buffer by buffer from the
zero state, it returns `0` for every buffer before the one with the last byte and `1` for
that one, and the bytes left in the buffers are together the body. Buffers behind the last
byte are empty. -/
theorem decodeBuffers_wire (m : ChunkedMessage) (bufs : List (List UInt8))
    (h : bufs.flatten = m.wire) :
    ∃ before last after rs, bufs = before ++ last :: after ∧ last ≠ [] ∧
      (∀ b ∈ after, b = []) ∧ decodeBuffers .zero bufs = some rs ∧
      rs.map DecodeResult.code =
        List.replicate before.length 0 ++ 1 :: List.replicate after.length 0 ∧
      (rs.map DecodeResult.kept).flatten = m.body := by
  obtain ⟨before, last, after, rfl, hlast, hafter⟩ :=
    exists_last_nonempty (h ▸ m.wire_ne_nil)
  obtain ⟨pre, ds, hwire, hpre, hdone⟩ := feeds_wire m
  -- the last byte of the message is the last byte of `last`
  have hflat : before.flatten ++ last = pre ++ [lf] := by
    rw [← hwire, ← h, List.flatten_append, List.flatten_cons, List.flatten_eq_nil_iff.mpr hafter,
      List.append_nil]
  obtain ⟨init, c, rfl⟩ : ∃ init c, last = init ++ [c] :=
    ⟨last.dropLast, last.getLast hlast, (List.dropLast_append_getLast hlast).symm⟩
  rw [← List.append_assoc] at hflat
  obtain ⟨rfl, hc⟩ := List.append_inj' hflat rfl
  obtain rfl : c = lf := by simpa using hc
  -- the buffers before it are read to their end, and so is the rest of `last`
  obtain ⟨ds₁, out₁, out₂, hbefore, hinit, hbody⟩ := hpre.split
  have hmon₁ : ds₁.monitorOnly = false := by
    have := feed_monitorOnly (congrArg FeedResult.code hbefore.feed_eq)
    rwa [hbefore.feed_eq] at this
  have hmon : ds.monitorOnly = false := by
    have := feed_monitorOnly (congrArg FeedResult.code hinit.feed_eq)
    rwa [hinit.feed_eq, hmon₁] at this
  obtain ⟨rs, hcodes, hout, htail⟩ := decodeBuffers_feeds rfl hbefore
  obtain ⟨hfeed, hfit⟩ := hinit.done hdone []
  obtain ⟨r, hr, hrcode, hrds, hrkept⟩ := decodeChunkedStream_eq_feed hmon₁ hfit
  rw [hfeed] at hrcode hrds hrkept
  obtain ⟨rs', hrs', hcodes', hout'⟩ := decodeBuffers_empty hmon hinit.nonneg_right hafter
  refine ⟨before, init ++ [lf], after, rs ++ r :: rs', rfl, hlast, hafter, ?_, ?_, ?_⟩
  · rw [htail, decodeBuffers_cons hr, hrds, hrs']
    rfl
  · simp [hcodes, hcodes', hrcode]
  · rw [List.map_append, List.map_cons, List.flatten_append, List.flatten_cons, hout, hout',
      hrkept (by rw [hrcode]; exact zero_le_one), List.append_nil, hbody]

/-- A message with the chunk `ab`, cut inside its size line, its data and its terminator. -/
theorem decodeBuffers_wire_ab :
    ∃ m : ChunkedMessage, m.body = bytes "ab" ∧
      [bytes "0", bytes "2\r\na", [], bytes "b\r\n0\r\n\r", bytes "\n", []].flatten = m.wire ∧
      ∃ before last after rs,
        [bytes "0", bytes "2\r\na", [], bytes "b\r\n0\r\n\r", bytes "\n", []] =
          before ++ last :: after ∧ last ≠ [] ∧ (∀ b ∈ after, b = []) ∧
        decodeBuffers .zero
          [bytes "0", bytes "2\r\na", [], bytes "b\r\n0\r\n\r", bytes "\n", []] = some rs ∧
        rs.map DecodeResult.code =
          List.replicate before.length 0 ++ 1 :: List.replicate after.length 0 ∧
        (rs.map DecodeResult.kept).flatten = m.body :=
  ⟨.ofChunks [⟨bytes "02", bytes "ab", by decide +kernel, by decide, by decide, by decide⟩],
    by decide, by decide, decodeBuffers_wire _ _ (by decide)⟩

end Nxweb
