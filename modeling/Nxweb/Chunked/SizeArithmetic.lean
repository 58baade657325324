import Nxweb.Chunked.Monitor
import Nxweb.Chunked.SizeLine

/-!
# The chunk size and the cursors of the decoder

While the decoder reads, its size word should not be negative, it should hold the value of the
digits when a size line ends, and the cursors should stay in the buffer (`DecodeFrame.Exact`). The
word is shifted without a look at the number of digits, so this depends on the size lines: it holds
in every iteration of every call exactly if the sizes are in range (`sizesExact_iff`), in either
mode and however the message is cut into buffers.

A cursor can only be moved out of the buffer by a negative size (`DecodeFrame.InBuffer.next`).
-/

namespace Nxweb

/-! ### Sizes that are exact in a frame -/

/-- The digits of the current size line after an iteration. -/
def DecodeFrame.digitsAfter (f : DecodeFrame) (digits : List UInt8) : List UInt8 :=
  match f.ds.state, byteAt f.buf f.p with
  | .size, some c => if c = cr then digits else digits ++ [c]
  | .lf1, _ => []
  | _, _ => digits

/-- The size is exact and the cursors are in the buffer, which has `size` bytes, when `digits` have
been read on the current size line. -/
structure DecodeFrame.Exact (f : DecodeFrame) (size : ℕ) (digits : List UInt8) : Prop where
  nonneg : 0 ≤ f.ds.chunkBytesLeft
  /-- When the size line is left, the word holds its value. -/
  size_eq : f.ds.state = .lf2 → f.ds.chunkBytesLeft = hexValue digits
  p_mem : 0 ≤ f.p ∧ f.p ≤ size
  d_mem : 0 ≤ f.d ∧ f.d ≤ size
  bufEnd_mem : 0 ≤ f.bufEnd ∧ f.bufEnd ≤ size
  bufLen_le : f.bufLen ≤ size

/-- `P` holds of every frame of the loop, and the loop returns a result with `Q`; both also look at
the digits read on the current size line. -/
def EveryFrame (P : DecodeFrame → List UInt8 → Prop) (Q : DecodeResult → List UInt8 → Prop) :
    ℕ → DecodeFrame → List UInt8 → Prop
  | 0, _, _ => False
  | fuel + 1, f, digits => P f digits ∧
    match decodeIter f with
    | .next f' => EveryFrame P Q fuel f' (f.digitsAfter digits)
    | .ret r => Q r digits
    | .fault => False

/-- The sizes are exact and the cursors stay in the buffers, in successive calls that go on until
one of them returns `-1`. -/
def SizesExact (ds : ChunkedDecoderState) (digits : List UInt8) : List (List UInt8) → Prop
  | [] => True
  | buf :: bufs =>
    EveryFrame (fun f digits => f.Exact buf.length digits)
      (fun r digits => r.bufLen ≤ buf.length ∧
        (r.code ≠ -1 → 0 ≤ r.ds.chunkBytesLeft ∧ SizesExact r.ds digits bufs))
      (2 * buf.length + 2) (.enter ds buf) digits

/-- The loop is the one of the call. -/
theorem EveryFrame.decodeLoop {P : DecodeFrame → List UInt8 → Prop}
    {Q : DecodeResult → List UInt8 → Prop} {fuel : ℕ} {f : DecodeFrame} {digits : List UInt8}
    (h : EveryFrame P Q fuel f digits) :
    ∃ r digits', Nxweb.decodeLoop fuel f = some r ∧ Q r digits' := by
  induction fuel generalizing f digits with
  | zero => cases h
  | succ fuel ih =>
    have hrest := h.2
    rw [Nxweb.decodeLoop]
    cases hiter : decodeIter f with
    | next f' =>
      rw [hiter] at hrest
      exact ih hrest
    | ret r =>
      rw [hiter] at hrest
      exact ⟨r, digits, rfl, hrest⟩
    | fault =>
      rw [hiter] at hrest
      cases hrest

/-! ### The cursors -/

/-- The cursors are in the buffer, in their order. -/
structure DecodeFrame.InBuffer (f : DecodeFrame) (size : ℕ) : Prop where
  length_buf : f.buf.length = size
  bufLen_eq : f.bufLen = size
  d_nonneg : 0 ≤ f.d
  d_le_p : f.d ≤ f.p
  p_le : f.p ≤ f.bufEnd
  bufEnd_le : f.bufEnd ≤ size

theorem length_memmove {buf : List UInt8} {dst src n : ℕ} (hdst : dst ≤ src)
    (hsrc : src + n ≤ buf.length) : (memmove buf dst src n).length = buf.length := by
  simp only [memmove, List.length_append, List.length_take, List.length_drop]
  omega

theorem DecodeFrame.inBuffer_enter (ds : ChunkedDecoderState) (buf : List UInt8) :
    (DecodeFrame.enter ds buf).InBuffer buf.length :=
  ⟨rfl, rfl, le_rfl, le_rfl, Int.natCast_nonneg _, le_rfl⟩

/-- A size that is not negative leaves the cursors in the buffer. -/
theorem DecodeFrame.InBuffer.next {f f' : DecodeFrame} {size : ℕ} (h : f.InBuffer size)
    (hleft : 0 ≤ f.ds.chunkBytesLeft) (hiter : decodeIter f = .next f') : f'.InBuffer size := by
  obtain ⟨hlt, hlen, -, ⟨hbuf, hend, ⟨hp, hd⟩ | ⟨hle, hp, hd⟩⟩ | ⟨-, hp, hd, hend, hbuf⟩⟩ :=
    decodeIter_next hiter
  · have hdp := h.d_le_p
    exact ⟨hbuf ▸ h.length_buf, hlen.trans h.bufLen_eq, hd ▸ h.d_nonneg, by omega, by omega,
      hend ▸ h.bufEnd_le⟩
  · have hd0 := h.d_nonneg
    have hdp := h.d_le_p
    exact ⟨hbuf ▸ h.length_buf, hlen.trans h.bufLen_eq, by omega, by omega, by omega,
      hend ▸ h.bufEnd_le⟩
  · have hd0 := h.d_nonneg
    have hdp := h.d_le_p
    have hle := h.bufEnd_le
    have hsize := h.length_buf
    refine ⟨?_, hlen.trans h.bufLen_eq, by omega, by omega, by omega, by omega⟩
    rw [hbuf, length_memmove (by omega) (by omega), hsize]

theorem DecodeFrame.InBuffer.ret {f : DecodeFrame} {r : DecodeResult} {size : ℕ}
    (h : f.InBuffer size) (hiter : decodeIter f = .ret r) : r.bufLen ≤ size := by
  have hlen := h.bufLen_eq
  have hd := h.d_nonneg
  have hdp := h.d_le_p
  have hp := h.p_le
  have hend := h.bufEnd_le
  obtain ⟨-, hret | ⟨-, hret | hret⟩⟩ := decodeIter_ret hiter <;> omega

/-! ### The sizes -/

/-- The digits belong to the position. -/
def ChunkPos.HasDigits (digits : List UInt8) : ChunkPos → Prop
  | .size ds => ds = digits
  | .sizeEnd n => n = hexValue digits
  | _ => True

theorem ChunkPos.hasDigits_data (digits : List UInt8) {n : ℕ} {final : Bool} :
    (ChunkPos.data n final).HasDigits digits := trivial

theorem ChunkPos.hasDigits_lineEnd (digits : List UInt8) {final : Bool} :
    (ChunkPos.lineEnd final).HasDigits digits := trivial

/-- A frame is exact if its position is in range, and only then. -/
theorem exact_iff {f : DecodeFrame} {size : ℕ} {digits : List UInt8} {pos : ChunkPos}
    (hbuf : f.InBuffer size) (hpos : pos.Matches f.ds) (hdigits : pos.HasDigits digits) :
    f.Exact size digits ↔ pos.InRange := by
  constructor
  · intro h
    cases pos with
    | size ds =>
      obtain ⟨-, -, hleft⟩ := hpos
      have hnonneg := h.nonneg
      rw [hleft] at hnonneg
      exact (toSsize_nonneg_iff _).mp hnonneg
    | sizeEnd n =>
      obtain ⟨hst, -, hleft⟩ := hpos
      have hsize := h.size_eq hst
      rw [hleft, ← show n = hexValue digits from hdigits] at hsize
      exact (toSsize_eq_iff n).mp hsize
    | data n final => trivial
    | lineEnd final => trivial
  · intro hr
    have hd := hbuf.d_nonneg
    have hdp := hbuf.d_le_p
    have hp := hbuf.p_le
    have hend := hbuf.bufEnd_le
    refine ⟨hpos.nonneg hr, fun hst => ?_, by omega, by omega, by omega, hbuf.bufLen_eq.le⟩
    cases pos with
    | size ds =>
      rw [hpos.1] at hst
      cases hst
    | sizeEnd n =>
      rw [hpos.2.2, (toSsize_eq_iff n).mpr hr, show n = hexValue digits from hdigits]
    | data n final =>
      obtain ⟨⟨hst', -⟩ | ⟨hst', -⟩, -⟩ := hpos <;> rw [hst'] at hst <;> cases hst
    | lineEnd final =>
      rw [hpos.1] at hst
      cases hst

/-- The digits stay with the position. -/
theorem ChunkPos.HasDigits.next {f : DecodeFrame} {digits : List UInt8} {pos pos' : ChunkPos}
    {c : UInt8} (h : pos.HasDigits digits) (hpos : pos.Matches f.ds)
    (hbyte : byteAt f.buf f.p = some c) (hnext : pos.next c = some pos') :
    pos'.HasDigits (f.digitsAfter digits) := by
  cases pos with
  | size ds =>
    obtain ⟨hst, -, -⟩ := hpos
    obtain rfl : ds = digits := h
    simp only [DecodeFrame.digitsAfter, hst, hbyte]
    simp only [ChunkPos.next] at hnext
    split_ifs at hnext ⊢ <;> obtain rfl := Option.some.inj hnext <;> rfl
  | sizeEnd n =>
    simp only [ChunkPos.next] at hnext
    split_ifs at hnext
    obtain rfl := Option.some.inj hnext
    trivial
  | data n final =>
    cases n with
    | zero =>
      simp only [ChunkPos.next] at hnext
      split_ifs at hnext
      obtain rfl := Option.some.inj hnext
      trivial
    | succ n =>
      obtain rfl := Option.some.inj hnext
      trivial
  | lineEnd final =>
    obtain ⟨hst, -, -⟩ := hpos
    simp only [ChunkPos.next] at hnext
    split_ifs at hnext
    obtain rfl := Option.some.inj hnext
    simp only [DecodeFrame.digitsAfter, hst]
    rfl

/-! ### One call -/

section Loop

variable {V : DecodeFrame → List UInt8 → List UInt8 → Prop} {K : DecodeResult → List UInt8 → Prop}
  {size : ℕ} {later : List UInt8} {After : ChunkedDecoderState → List UInt8 → Prop}

/-- The sizes are exact in all frames of a call, and in the calls after it. -/
abbrev CallExact (size : ℕ) (After : ChunkedDecoderState → List UInt8 → Prop) :
    ℕ → DecodeFrame → List UInt8 → Prop :=
  EveryFrame (fun f digits => f.Exact size digits) fun r digits => r.bufLen ≤ size ∧
    (r.code ≠ -1 → 0 ≤ r.ds.chunkBytesLeft ∧ After r.ds digits)

/-- After an iteration that goes on, it is about the next frame. -/
theorem callExact_of_next {fuel : ℕ} {f f' : DecodeFrame} {digits : List UInt8}
    (hexact : f.Exact size digits) (hiter : decodeIter f = .next f') :
    CallExact size After (fuel + 1) f digits ↔
      CallExact size After fuel f' (f.digitsAfter digits) := by
  simp only [CallExact, EveryFrame, hiter]
  exact and_iff_right hexact

theorem callExact_of_ret {fuel : ℕ} {f : DecodeFrame} {r : DecodeResult} {digits : List UInt8}
    (hbuf : f.InBuffer size) (hexact : f.Exact size digits) (hiter : decodeIter f = .ret r) :
    CallExact size After (fuel + 1) f digits ↔
      (r.code ≠ -1 → 0 ≤ r.ds.chunkBytesLeft ∧ After r.ds digits) := by
  simp only [CallExact, EveryFrame, hiter]
  rw [and_iff_right hexact, and_iff_right (hbuf.ret hiter)]

/-- A call is exact, with what follows it, if the sizes are in range in what it has not read yet
and in what follows. -/
theorem callExact_iff (hspec : IterSpec V K)
    (hbyteAt : ∀ {f out c rest}, V f out (c :: rest) → byteAt f.buf f.p = some c)
    (hafter : ∀ {ds pos digits}, pos.Matches ds → pos.HasDigits digits → pos.InRange →
      (After ds digits ↔ SizesInRange pos later))
    {fuel : ℕ} {f : DecodeFrame} {out rest digits : List UInt8} {pos : ChunkPos}
    (hv : V f out rest) (hbuf : f.InBuffer size) (hpos : pos.Matches f.ds)
    (hdigits : pos.HasDigits digits)
    (hfuel : 2 * rest.length + (if f.ds.state = .data then 1 else 0) < fuel) :
    CallExact size After fuel f digits ↔ SizesInRange pos (rest ++ later) := by
  induction fuel generalizing f out rest digits pos with
  | zero => omega
  | succ fuel ih =>
    have hexact := exact_iff hbuf hpos hdigits
    by_cases hr : pos.InRange
    case neg =>
      exact iff_of_false (fun h => hr (hexact.mp h.1)) fun h => hr h.inRange
    have hleft := hpos.nonneg hr
    cases rest with
    | nil =>
      obtain ⟨r, hret, hcode, hds, -⟩ := hspec.nil hv
      rw [callExact_of_ret hbuf (hexact.mpr hr) hret, hcode, hds, List.nil_append,
        ← hafter hpos hdigits hr]
      simp [hleft]
    | cons c rest =>
      by_cases hst : f.ds.state = .data
      · obtain ⟨n, final, rfl, hn, hfin⟩ := hpos.of_data hst
        rcases lt_or_ge ((c :: rest).length : ℤ) f.ds.chunkBytesLeft with hlt | hge
        · -- the buffer ends inside the chunk
          obtain ⟨r, hret, hcode, hds, -⟩ := hspec.data_lt hv hst hlt
          obtain ⟨m, rfl⟩ : ∃ m, n = (c :: rest).length + m :=
            ⟨n - (c :: rest).length, by omega⟩
          have hmatch : (ChunkPos.data m final).Matches r.ds := by
            rw [hds]
            exact ⟨.inl ⟨hst, by rw [hn]; push_cast; ring⟩, hfin⟩
          rw [callExact_of_ret hbuf (hexact.mpr hr) hret, hcode, sizesInRange_data,
            ← hafter hmatch (ChunkPos.hasDigits_data digits) trivial]
          simp [hmatch.nonneg trivial]
        · obtain ⟨xs, ys, hsplit, hlen⟩ := exists_chunk_end (by omega) hge
          have hne : xs ++ ys ≠ [] := by rw [← hsplit]; simp
          rw [hsplit] at hv hfuel ⊢
          obtain ⟨f', hnext, hv', hds'⟩ := hspec.data_ge hv hne hst hlen
          have hmatch : (ChunkPos.data 0 final).Matches f'.ds := by
            rw [hds']
            exact ⟨.inr ⟨rfl, rfl, rfl⟩, hfin⟩
          obtain rfl : n = xs.length + 0 := by omega
          rw [callExact_of_next (hexact.mpr hr) hnext, List.append_assoc, sizesInRange_data]
          refine ih hv' (hbuf.next hleft hnext) hmatch trivial ?_
          rw [List.length_append, if_pos hst] at hfuel
          rw [hds', if_neg (by simp)]
          omega
      · have hbyte := hspec.byte hv hst
        have hstep := hpos.byteStep hr c
        rw [List.cons_append]
        cases hb : byteStep f.ds c with
        | more ds' o =>
          rw [hb] at hbyte hstep
          obtain ⟨f', hnext, hv', hds'⟩ := hbyte
          obtain ⟨pos', hpnext, hpos'⟩ := hstep
          rw [callExact_of_next (hexact.mpr hr) hnext, sizesInRange_cons_some hpnext,
            and_iff_right hr]
          refine ih hv' (hbuf.next hleft hnext) (hds' ▸ hpos')
            (hdigits.next hpos (hbyteAt hv) hpnext) ?_
          rw [List.length_cons, if_neg hst] at hfuel
          split <;> omega
        | error ds' =>
          rw [hb] at hbyte hstep
          obtain ⟨r, hret, hcode, -⟩ := hbyte
          rw [callExact_of_ret hbuf (hexact.mpr hr) hret, sizesInRange_cons_none hstep.1, hcode]
          simpa using hr
        | done ds' =>
          rw [hb] at hbyte hstep
          obtain ⟨r, hret, hcode, hds, -⟩ := hbyte
          obtain ⟨hnone, hpos', rfl⟩ := hstep
          rw [callExact_of_ret hbuf (hexact.mpr hr) hret, sizesInRange_cons_none hnone, hds]
          refine iff_of_true (fun _ => ?_) hr
          refine ⟨hpos'.nonneg trivial, ?_⟩
          exact (hafter hpos' (ChunkPos.hasDigits_lineEnd digits) trivial).mpr
            (sizesInRange_lineEnd_true later)

end Loop

/-! ### Consecutive buffers -/

theorem sizesExact_iff_from {ds : ChunkedDecoderState} {pos : ChunkPos} {digits : List UInt8}
    (hpos : pos.Matches ds) (hdigits : pos.HasDigits digits) (hr : pos.InRange)
    (bufs : List (List UInt8)) :
    SizesExact ds digits bufs ↔ SizesInRange pos bufs.flatten := by
  induction bufs generalizing ds pos digits with
  | nil => exact iff_of_true trivial hr
  | cons buf bufs ih =>
    have hbuf := DecodeFrame.inBuffer_enter ds buf
    have hfuel : 2 * buf.length + (if ds.state = .data then 1 else 0) < 2 * buf.length + 2 := by
      split <;> omega
    rw [List.flatten_cons]
    cases hmon : ds.monitorOnly with
    | false =>
      exact callExact_iff iterSpec_view View.byteAt_p (fun hp hd hr => ih hp hd hr)
        (View.enter hmon buf) hbuf hpos hdigits hfuel
    | true =>
      have hview : MonitorView buf (.enter ds buf) [] buf := ⟨hmon, rfl, rfl, rfl, [], rfl, rfl⟩
      exact callExact_iff (iterSpec_monitorView buf) (fun hv => hv.byteAt_p.2)
        (fun hp hd hr => ih hp hd hr) hview hbuf hpos hdigits hfuel

/-- The chunk sizes are exact and the cursors stay in the buffers, in either mode and however the
bytes are cut into buffers, exactly if on every size line a signed word can hold the digits. -/
theorem sizesExact_iff (mode : Bool) (bufs : List (List UInt8)) :
    SizesExact { ChunkedDecoderState.zero with monitorOnly := mode } [] bufs ↔
      SizesInRange (.size []) bufs.flatten :=
  sizesExact_iff_from (ChunkPos.matches_zero mode) rfl (by decide) bufs

/-- A size line of seventeen digits is worth `2 ^ 64`, and the decoder takes it for the last one. -/
theorem not_sizesExact_wrapped :
    ¬ SizesExact .zero [] [bytes "10000000000000000\r\n"] := by
  have hiff : SizesExact .zero [] [bytes "10000000000000000\r\n"] ↔ _ :=
    sizesExact_iff_from (ChunkPos.matches_zero false) rfl (by decide) _
  rw [hiff]
  decide

end Nxweb
