import Nxweb.Chunked.DecoderCorrectness

/-!
# The chunked decoder in monitoring mode

With `monitor_only` set the decoder follows the chunks but leaves the buffer and its length
alone. It returns what `feed` returns (`decodeChunkedStream_monitor`), and `feed` itself does not
depend on the mode (`feed_setMode`), so that a message is followed to its last byte in either mode
(`feeds_wire_mode`).
-/

namespace Nxweb

/-! ### The mode does not matter for reading -/

/-- The decoder state in the given mode. -/
def ChunkedDecoderState.setMode (ds : ChunkedDecoderState) (mode : Bool) : ChunkedDecoderState :=
  { ds with monitorOnly := mode }

/-- What a byte does, with the mode of the state it leaves. -/
def ByteStep.setMode (mode : Bool) : ByteStep → ByteStep
  | .more ds out => .more (ds.setMode mode) out
  | .error ds => .error (ds.setMode mode)
  | .done ds => .done (ds.setMode mode)

/-- A byte does the same in either mode. -/
theorem byteStep_setMode (ds : ChunkedDecoderState) (mode : Bool) (c : UInt8) :
    byteStep (ds.setMode mode) c = (byteStep ds c).setMode mode := by
  obtain ⟨state, finalChunk, monitorOnly, left⟩ := ds
  unfold byteStep
  cases state with
  | size =>
    dsimp only [ChunkedDecoderState.setMode]
    split_ifs
    · rfl
    · cases hexDigitVal c <;> rfl
  | _ =>
    simp only [ChunkedDecoderState.setMode, apply_ite (ByteStep.setMode mode)]
    rfl

/-- So do all bytes of a buffer. -/
theorem feed_setMode (ds : ChunkedDecoderState) (mode : Bool) (cs : List UInt8) :
    feed (ds.setMode mode) cs = { feed ds cs with ds := (feed ds cs).ds.setMode mode } := by
  induction cs generalizing ds with
  | nil => rfl
  | cons c cs ih =>
    simp only [feed, byteStep_setMode]
    cases byteStep ds c with
    | more ds' out => simp only [ByteStep.setMode, ih]
    | error ds' => rfl
    | done ds' => rfl

/-- No size wraps in one mode if and only if none does in the other. -/
theorem sizesFit_setMode {ds : ChunkedDecoderState} (mode : Bool) {cs : List UInt8} :
    SizesFit (ds.setMode mode) cs ↔ SizesFit ds cs := by
  induction cs generalizing ds with
  | nil => rfl
  | cons c cs ih =>
    simp only [SizesFit, byteStep_setMode]
    refine and_congr Iff.rfl ?_
    cases byteStep ds c with
    | more ds' out => exact ih
    | error ds' => rfl
    | done ds' => rfl

/-- Bytes that are followed in one mode are followed in the other. -/
theorem Feeds.setMode {ds ds' : ChunkedDecoderState} {xs out : List UInt8}
    (h : Feeds ds xs ds' out) (mode : Bool) : Feeds (ds.setMode mode) xs (ds'.setMode mode) out :=
  ⟨by rw [feed_setMode, h.feed_eq], (sizesFit_setMode mode).mpr h.fit⟩

/-- A message is followed to its last byte in either mode. -/
theorem feeds_wire_mode (m : ChunkedMessage) (mode : Bool) :
    ∃ pre ds, m.wire = pre ++ [lf] ∧ Feeds (ChunkedDecoderState.zero.setMode mode) pre ds m.body ∧
      byteStep ds lf = .done ds := by
  obtain ⟨pre, ds, hwire, hpre, hdone⟩ := feeds_wire m
  exact ⟨pre, ds.setMode mode, hwire, hpre.setMode mode, by rw [byteStep_setMode, hdone]; rfl⟩

/-! ### The loop leaves the buffer alone -/

/-- The buffer as the loop sees it in monitoring mode: nothing moves but the read cursor. -/
structure MonitorView (buf : List UInt8) (f : DecodeFrame) (out rest : List UInt8) : Prop where
  monitorOnly : f.ds.monitorOnly = true
  buf_eq : f.buf = buf
  bufLen_eq : f.bufLen = buf.length
  bufEnd_eq : f.bufEnd = buf.length
  layout : ∃ before, buf = before ++ rest ∧ f.p = before.length

/-- The buffer is as it was. -/
def Untouched (buf : List UInt8) (r : DecodeResult) (_ : List UInt8) : Prop :=
  r.buf = buf ∧ r.bufLen = buf.length

variable {buf : List UInt8}

/-- The byte at the read cursor. -/
theorem MonitorView.byteAt_p {f : DecodeFrame} {out rest : List UInt8} {c : UInt8}
    (hv : MonitorView buf f out (c :: rest)) : f.p < f.bufEnd ∧ byteAt f.buf f.p = some c := by
  obtain ⟨before, hbuf, hp⟩ := hv.layout
  constructor
  · rw [hv.bufEnd_eq, hp, hbuf, List.length_append, List.length_cons]
    omega
  · rw [byteAt, if_pos (by omega), hv.buf_eq, hbuf, hp]
    simp

/-- The read cursor moves over one byte, and the write cursor is not used. -/
theorem MonitorView.advance {f : DecodeFrame} {out rest : List UInt8} {c : UInt8}
    (hv : MonitorView buf f out (c :: rest)) (ds : ChunkedDecoderState)
    (hmon : ds.monitorOnly = true) (code : CdsCode) :
    MonitorView buf ({ f with ds }.advance code) out rest := by
  obtain ⟨before, hbuf, hp⟩ := hv.layout
  refine ⟨hmon, hv.buf_eq, hv.bufLen_eq, hv.bufEnd_eq, before ++ [c], by simp [hbuf], ?_⟩
  simp [DecodeFrame.advance, hp]

/-- A buffer that ends inside a chunk. -/
theorem monitorIter_data_lt {f : DecodeFrame} {out rest : List UInt8} {c : UInt8}
    (hv : MonitorView buf f out (c :: rest)) (hst : f.ds.state = .data)
    (hlt : ((c :: rest).length : ℤ) < f.ds.chunkBytesLeft) :
    ∃ r, decodeIter f = .ret r ∧ r.code = 0 ∧
      r.ds = { f.ds with chunkBytesLeft := f.ds.chunkBytesLeft - (c :: rest).length } ∧
      Untouched buf r (out ++ c :: rest) := by
  obtain ⟨before, hbuf, hp⟩ := hv.layout
  obtain ⟨hiter, hbyte⟩ := hv.byteAt_p
  have hsub : f.bufEnd - f.p = (c :: rest).length := by
    rw [hv.bufEnd_eq, hp, hbuf, List.length_append]
    push_cast
    ring
  rw [decodeIter, if_pos hiter, hbyte]
  simp only [hst, hsub]
  rw [if_neg (by omega)]
  exact ⟨_, rfl, rfl, rfl, hv.buf_eq, by simp [hv.monitorOnly, hv.bufLen_eq]⟩

/-- The last byte of a chunk is in the buffer. -/
theorem monitorIter_data_ge {f : DecodeFrame} {out xs ys : List UInt8}
    (hv : MonitorView buf f out (xs ++ ys)) (hne : xs ++ ys ≠ []) (hst : f.ds.state = .data)
    (hlen : f.ds.chunkBytesLeft = (xs.length : ℤ)) :
    ∃ f', decodeIter f = .next f' ∧ MonitorView buf f' (out ++ xs) ys ∧
      f'.ds = { f.ds with chunkBytesLeft := 0, state := .cr1 } := by
  obtain ⟨before, hbuf, hp⟩ := hv.layout
  obtain ⟨c, rest, hcons⟩ := List.exists_cons_of_ne_nil hne
  obtain ⟨hiter, hbyte⟩ := (hcons ▸ hv).byteAt_p
  have hend := hv.bufEnd_eq
  rw [hbuf, List.length_append, List.length_append] at hend
  push_cast at hend
  rw [decodeIter, if_pos hiter, hbyte]
  simp only [hst]
  rw [if_pos (by omega)]
  refine ⟨_, rfl, ⟨hv.monitorOnly, hv.buf_eq, hv.bufLen_eq, hv.bufEnd_eq, before ++ xs,
    by simp [hbuf], ?_⟩, rfl⟩
  simp [hp, hlen]

/-- Outside the data, an iteration is one byte step. -/
theorem monitorIter_byte {f : DecodeFrame} {out rest : List UInt8} {c : UInt8}
    (hv : MonitorView buf f out (c :: rest)) (hst : f.ds.state ≠ .data) :
    match byteStep f.ds c with
    | .more ds' _ => ∃ f', decodeIter f = .next f' ∧ MonitorView buf f' out rest ∧ f'.ds = ds'
    | .error ds' => ∃ r, decodeIter f = .ret r ∧ r.code = -1 ∧ r.ds = ds'
    | .done ds' => ∃ r, decodeIter f = .ret r ∧ r.code = 1 ∧ r.ds = ds' ∧ Untouched buf r out := by
  have hmon := hv.monitorOnly
  obtain ⟨hiter, hbyte⟩ := hv.byteAt_p
  rw [decodeIter, if_pos hiter, hbyte]
  unfold byteStep
  cases hcode : f.ds.state with
  | data => exact absurd hcode hst
  | cr1 =>
    by_cases hc : c = cr
    · simp only [hc, ne_eq, not_true_eq_false, if_false, if_true]
      exact ⟨_, rfl, hv.advance f.ds hmon .lf1, rfl⟩
    · simp only [hc, ne_eq, not_false_eq_true, if_false, if_true]
      exact ⟨_, rfl, rfl, rfl⟩
  | lf1 =>
    by_cases hc : c = lf
    · simp only [hc, ne_eq, not_true_eq_false, if_false, if_true]
      cases hfin : f.ds.finalChunk with
      | true =>
        simp only [if_true]
        exact ⟨_, rfl, rfl, rfl, hv.buf_eq, by simp [hmon, hv.bufLen_eq]⟩
      | false =>
        simp only [Bool.false_eq_true, if_false]
        exact ⟨_, rfl, hv.advance f.ds hmon .size, by simp [DecodeFrame.advance, hfin]⟩
    · simp only [hc, ne_eq, not_false_eq_true, if_false, if_true]
      exact ⟨_, rfl, rfl, rfl⟩
  | size =>
    by_cases hc : c = cr
    · simp only [hc, if_true]
      exact ⟨_, rfl, hv.advance { f.ds with
        finalChunk := f.ds.finalChunk || f.ds.chunkBytesLeft == 0 } hmon .lf2, rfl⟩
    · simp only [hc, if_false]
      cases hv' : hexDigitVal c with
      | none => exact ⟨_, rfl, rfl, rfl⟩
      | some v =>
        refine ⟨_, rfl, hv.advance { f.ds with
          chunkBytesLeft := toSsize (f.ds.chunkBytesLeft * 16 + v) } hmon .size, ?_⟩
        simp [DecodeFrame.advance]
  | lf2 =>
    by_cases hc : c = lf
    · simp only [hc, ne_eq, not_true_eq_false, if_false, if_true]
      have hmon' : (f.advance .data).ds.monitorOnly = true := hmon
      simp only [hmon', if_true]
      exact ⟨_, rfl, hv.advance f.ds hmon .data, rfl⟩
    · simp only [hc, ne_eq, not_false_eq_true, if_false, if_true]
      exact ⟨_, rfl, rfl, rfl⟩

/-- In monitoring mode, the loop takes the steps of `feed`. -/
theorem iterSpec_monitorView (buf : List UInt8) : IterSpec (MonitorView buf) (Untouched buf) where
  nil := by
    intro f out hv
    obtain ⟨before, hbuf, hp⟩ := hv.layout
    have hend : ¬ f.p < f.bufEnd := by
      rw [hv.bufEnd_eq, hp, hbuf]
      simp
    rw [decodeIter, if_neg hend]
    exact ⟨_, rfl, rfl, rfl, hv.buf_eq, by simp [hv.monitorOnly, hv.bufLen_eq]⟩
  data_lt := monitorIter_data_lt
  data_ge := monitorIter_data_ge
  byte := monitorIter_byte

/-- In monitoring mode one call returns what `feed` returns and keeps the whole buffer, as long
as no size wraps. -/
theorem decodeChunkedStream_monitor {ds : ChunkedDecoderState} (hmon : ds.monitorOnly = true)
    {buf : List UInt8} (hfit : SizesFit ds buf) :
    ∃ r, decodeChunkedStream ds buf = some r ∧ r.code = (feed ds buf).code ∧
      r.ds = (feed ds buf).ds ∧ (0 ≤ r.code → r.kept = buf) := by
  obtain ⟨r, hr, hcode, hds, hbuf⟩ := @IterSpec.decodeLoop_eq_feed _ _ (iterSpec_monitorView buf)
    (2 * buf.length + 2) (.enter ds buf) [] buf ⟨hmon, rfl, rfl, rfl, [], rfl, rfl⟩ hfit
    (by split <;> omega)
  refine ⟨r, hr, hcode, hds, fun h => ?_⟩
  obtain ⟨hsame, hlen⟩ := hbuf h
  rw [DecodeResult.kept, hsame, hlen, List.take_length]

end Nxweb
