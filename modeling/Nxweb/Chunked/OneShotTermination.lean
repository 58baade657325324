import Nxweb.Chunked.OneShotCorrectness

/-!
# When the one-shot decoders return

`strtol` reads a sign, so a size line can hold a negative number, and the position of the two loops
then goes back. Where it lands behind a line end inside the buffer the loop goes on from there: the
verifier may come to the same size line again and again, and the decoder copies a negative number of
bytes. Where it lands in front of the buffer, the bytes that are compared lie outside the memory.

## Main results

* `chunkLoopsReturn`: a verifier that never accepts a negative size returns and keeps its position
  in the buffer, and the decoder does so exactly if it never accepts one;
* `not_chunkLoopsReturn_negative`: a buffer on which the verifier does not return.
-/

namespace Nxweb

open Lib Relation

/-- A negative size that is read at the position is not accepted: the position behind the chunk is
at or behind the end of the buffer, or there is no line end in front of it. -/
def OneShotFrame.NoStepBack (bufLen : ℕ) (f : OneShotFrame) : Prop :=
  ∀ chunkSize chunkData, chunkHead f.buf f.p.toNat = .line chunkSize chunkData → chunkSize < 0 →
    bufLen ≤ chunkData + chunkSize + 2 ∨
      (0 ≤ chunkData + chunkSize ∧ ¬ (byteAt f.buf (chunkData + chunkSize) = some cr ∧
        byteAt f.buf (chunkData + chunkSize + 1) = some lf))

/-- Neither the position nor what it becomes in this turn lies in front of the buffer. -/
def OneShotFrame.PositionKept (f : OneShotFrame) : Prop :=
  0 ≤ f.p ∧ ∀ chunkSize chunkData, chunkHead f.buf f.p.toNat = .line chunkSize chunkData →
    chunkSize ≠ 0 → 0 ≤ chunkData + chunkSize + 2

/-- A loop returns, and its position never lies in front of the buffer. -/
def LoopReturns (turn : OneShotFrame → Turn OneShotFrame (ℤ × List UInt8)) (buf : List UInt8) :
    Prop :=
  LoopEnds turn (.enter buf) ∧ ∀ f, LoopReaches turn (.enter buf) f → f.PositionKept

/-! ### One size line -/

/-- The data begins behind the position. -/
theorem lt_of_chunkHead {buf : List UInt8} {p chunkData : ℕ} {chunkSize : ℤ}
    (h : chunkHead buf p = .line chunkSize chunkData) : p < chunkData := by
  unfold chunkHead at h
  split_ifs at h
  dsimp only at h
  split_ifs at h
  injection h with _ hdata
  omega

/-- A zero at or behind the position bounds what the string functions read. -/
theorem chunkHead_ne_unbounded {buf : List UInt8} {p n : ℕ} (hzero : buf[n]? = some 0)
    (hle : p ≤ n) : chunkHead buf p ≠ .unbounded := by
  have hmem : 0 ∈ buf.drop p := by
    apply List.mem_of_getElem? (i := n - p)
    rw [List.getElem?_drop, ← hzero]
    congr 1
    omega
  unfold chunkHead
  rw [if_pos hmem]
  dsimp only
  split_ifs <;> simp

/-- What has been read when the loops accept a chunk. -/
theorem readChunk_eq_chunk {buf : List UInt8} {bufLen chunkData : ℕ} {p chunkSize p' : ℤ}
    (h : readChunk buf bufLen p = .chunk chunkSize chunkData p') :
    0 ≤ p ∧ chunkHead buf p.toNat = .line chunkSize chunkData ∧ chunkSize ≠ 0 ∧
      p' = chunkData + chunkSize + 2 ∧ p' < bufLen ∧
      byteAt buf (chunkData + chunkSize) = some cr ∧
      byteAt buf (chunkData + chunkSize + 1) = some lf := by
  unfold readChunk at h
  split_ifs at h with hp
  cases hhead : chunkHead buf p.toNat with
  | unbounded => simp [hhead] at h
  | noLine => simp [hhead] at h
  | line size data =>
    simp only [hhead] at h
    split_ifs at h with h0 hend
    rw [show (data : ℤ) + size + 2 - 2 = data + size by ring,
      show (data : ℤ) + size + 2 - 1 = data + size + 1 by ring] at h
    split at h
    · rename_i c c' hc hc'
      split_ifs at h with hcrlf
      injection h with hsize hdata hp'
      subst hsize hdata hp'
      push Not at hcrlf
      obtain ⟨rfl, rfl⟩ := hcrlf
      exact ⟨by omega, rfl, h0, rfl, by omega, hc, hc'⟩
    · cases h

/-- A turn does not fault where no negative size is accepted. -/
theorem readChunk_ne_fault {f : OneShotFrame} {bufLen n : ℕ} (hlen : bufLen ≤ n)
    (hzero : f.buf[n]? = some 0) (hp : 0 ≤ f.p ∧ f.p ≤ n) (hback : f.NoStepBack bufLen) :
    readChunk f.buf bufLen f.p ≠ .fault := by
  have hn : n < f.buf.length := (List.getElem?_eq_some_iff.mp hzero).1
  unfold readChunk
  rw [if_neg (by omega)]
  cases hhead : chunkHead f.buf f.p.toNat with
  | unbounded => exact absurd hhead (chunkHead_ne_unbounded hzero (by omega))
  | noLine => simp
  | line size data =>
    dsimp only
    split_ifs with h0 hend
    · simp
    · simp
    -- both bytes lie in the memory
    have hnonneg : 0 ≤ data + size := by
      rcases lt_or_ge size 0 with hneg | hpos
      · rcases hback size data hhead hneg with hge | ⟨hge, -⟩
        · omega
        · exact hge
      · omega
    have hbyte : ∀ i : ℤ, 0 ≤ i → i < bufLen → ∃ c, byteAt f.buf i = some c := by
      intro i h0 hi
      have hlt : i.toNat < f.buf.length := by omega
      exact ⟨f.buf[i.toNat], by rw [byteAt, if_pos h0, List.getElem?_eq_getElem hlt]⟩
    obtain ⟨c, hc⟩ := hbyte (data + size + 2 - 2) (by omega) (by omega)
    obtain ⟨c', hc'⟩ := hbyte (data + size + 2 - 1) (by omega) (by omega)
    rw [hc, hc']
    dsimp only
    split_ifs <;> simp

/-- An accepted chunk has a positive size, and the position moves on. -/
theorem chunk_forward {f : OneShotFrame} {bufLen chunkData : ℕ} {chunkSize p' : ℤ}
    (hback : f.NoStepBack bufLen)
    (hread : readChunk f.buf bufLen f.p = .chunk chunkSize chunkData p') :
    0 < chunkSize ∧ f.p < chunkData ∧ p' = chunkData + chunkSize + 2 ∧ p' < bufLen := by
  obtain ⟨hp, hhead, h0, hp', hlt, hcr, hlf⟩ := readChunk_eq_chunk hread
  have hdata := lt_of_chunkHead hhead
  refine ⟨?_, by omega, hp', hlt⟩
  by_contra hle
  rcases hback chunkSize chunkData hhead (by omega) with hge | ⟨-, hcrlf⟩
  · omega
  · exact hcrlf ⟨hcr, hlf⟩

/-- Where a negative size is accepted, or leads in front of the buffer, the decoder faults. -/
theorem decodeChunkedTurn_fault {f : OneShotFrame} {bufLen : ℕ} (hp : 0 ≤ f.p)
    (hback : ¬ f.NoStepBack bufLen) : decodeChunkedTurn bufLen f = .fault := by
  unfold OneShotFrame.NoStepBack at hback
  push Not at hback
  obtain ⟨size, data, hhead, hneg, hlt, hcrlf⟩ := hback
  have hread : readChunk f.buf bufLen f.p = .fault ∨
      readChunk f.buf bufLen f.p = .chunk size data (data + size + 2) := by
    unfold readChunk
    rw [if_neg (by omega), hhead]
    dsimp only
    rw [if_neg (by omega), if_neg (by omega),
      show (data : ℤ) + size + 2 - 2 = data + size by ring,
      show (data : ℤ) + size + 2 - 1 = data + size + 1 by ring]
    rcases lt_or_ge (data + size : ℤ) 0 with hbefore | hge
    · left
      rw [byteAt, if_neg (by omega)]
    · obtain ⟨hcr, hlf⟩ := hcrlf hge
      right
      rw [hcr, hlf]
      rfl
  unfold decodeChunkedTurn
  rcases hread with hread | hread
  · rw [hread]
  · rw [hread]
    dsimp only
    rw [if_pos hneg]

/-! ### The loops -/

/-- The position lies in the memory in front of a zero byte, and the decoded bytes lie in front of
the position. -/
structure OneShotFrame.InMemory (n : ℕ) (f : OneShotFrame) : Prop where
  zero : f.buf[n]? = some 0
  p_nonneg : 0 ≤ f.p
  p_le : f.p ≤ n
  d_le : f.d ≤ f.p

theorem OneShotFrame.inMemory_enter {buf : List UInt8} {n : ℕ} (h : buf[n]? = some 0) :
    (OneShotFrame.enter buf).InMemory n where
  zero := h
  p_nonneg := le_rfl
  p_le := Int.natCast_nonneg n
  d_le := le_rfl

theorem OneShotFrame.InMemory.positionKept {f : OneShotFrame} {bufLen n : ℕ} (h : f.InMemory n)
    (hback : f.NoStepBack bufLen) : f.PositionKept := by
  refine ⟨h.p_nonneg, fun size data hhead hne => ?_⟩
  rcases lt_or_ge size 0 with hneg | hpos
  · rcases hback size data hhead hneg with hge | ⟨hge, -⟩ <;> omega
  · omega

variable {bufLen n : ℕ} {turn : OneShotFrame → Turn OneShotFrame (ℤ × List UInt8)}
  {buf : List UInt8}

/-- What a turn does where no negative size is accepted. -/
def MovesOn (bufLen n : ℕ) (turn : OneShotFrame → Turn OneShotFrame (ℤ × List UInt8)) : Prop :=
  ∀ f, f.InMemory n → f.NoStepBack bufLen → turn f ≠ .fault ∧
    ∀ f', turn f = .next f' → f'.InMemory n ∧ f.p < f'.p ∧ f'.p < bufLen

theorem movesOn_verifyChunkedTurn (hlen : bufLen ≤ n) :
    MovesOn bufLen n (verifyChunkedTurn bufLen) := by
  intro f hf hback
  have hfault := readChunk_ne_fault hlen hf.zero ⟨hf.p_nonneg, hf.p_le⟩ hback
  unfold verifyChunkedTurn
  cases hread : readChunk f.buf bufLen f.p with
  | fault => exact absurd hread hfault
  | malformed => simp
  | last => simp
  | chunk size data p' =>
    obtain ⟨hpos, hdata, hp', hlt⟩ := chunk_forward hback hread
    refine ⟨by simp, fun f' hf' => ?_⟩
    obtain rfl := Turn.next.inj hf'
    have hd := hf.d_le
    have hp := hf.p_nonneg
    exact ⟨⟨hf.zero, by dsimp only; omega, by dsimp only; omega, by dsimp only; omega⟩,
      by dsimp only; omega, hlt⟩

theorem movesOn_decodeChunkedTurn (hlen : bufLen ≤ n) :
    MovesOn bufLen n (decodeChunkedTurn bufLen) := by
  intro f hf hback
  have hfault := readChunk_ne_fault hlen hf.zero ⟨hf.p_nonneg, hf.p_le⟩ hback
  have hn : n < f.buf.length := (List.getElem?_eq_some_iff.mp hf.zero).1
  unfold decodeChunkedTurn
  cases hread : readChunk f.buf bufLen f.p with
  | fault => exact absurd hread hfault
  | malformed => simp
  | last => simp
  | chunk size data p' =>
    obtain ⟨hpos, hdata, hp', hlt⟩ := chunk_forward hback hread
    dsimp only
    rw [if_neg (by omega)]
    refine ⟨by simp, fun f' hf' => ?_⟩
    obtain rfl := Turn.next.inj hf'
    have hd := hf.d_le
    have hp := hf.p_nonneg
    -- the data moves to the front, so the zero stays where it is
    have hzero : (memmove f.buf f.d data size.toNat)[n]? = some 0 := by
      have hdrop := @drop_memmove f.buf f.d data size.toNat n (by omega) (by omega) (by omega)
      have hget := congrArg (fun l => l[0]?) hdrop
      simpa [List.getElem?_drop, hf.zero] using hget
    exact ⟨⟨hzero, by dsimp only; omega, by dsimp only; omega, by dsimp only; omega⟩,
      by dsimp only; omega, hlt⟩

/-- The states that are reached lie in the memory, as long as no negative size is accepted. -/
theorem inMemory_of_reaches (hturn : MovesOn bufLen n turn) (hzero : buf[n]? = some 0)
    (hback : ∀ f, LoopReaches turn (.enter buf) f → f.NoStepBack bufLen) {f : OneShotFrame}
    (hreach : LoopReaches turn (.enter buf) f) : f.InMemory n := by
  induction hreach with
  | refl => exact OneShotFrame.inMemory_enter hzero
  | tail hreach hnext ih => exact ((hturn _ ih (hback _ hreach)).2 _ hnext).1

/-- A loop that never accepts a negative size returns. -/
theorem MovesOn.loopReturns (hturn : MovesOn bufLen n turn) (hzero : buf[n]? = some 0)
    (hback : ∀ f, LoopReaches turn (.enter buf) f → f.NoStepBack bufLen) :
    LoopReturns turn buf := by
  constructor
  · -- the bytes between the position and the end of the buffer become fewer
    apply loopEnds_of_measure fun f => ((bufLen : ℤ) - f.p).toNat
    intro f hreach
    obtain ⟨hfault, hnext⟩ := hturn f (inMemory_of_reaches hturn hzero hback hreach)
      (hback f hreach)
    refine ⟨hfault, fun f' hf' => ?_⟩
    obtain ⟨-, hlt, hlt'⟩ := hnext f' hf'
    omega
  · intro f hreach
    exact (inMemory_of_reaches hturn hzero hback hreach).positionKept (hback f hreach)

/-- Every run of the verifier that accepts no negative size, in a buffer in front of a zero byte,
returns with its position in the buffer. The decoder does so exactly if it accepts none. -/
theorem chunkLoopsReturn (content behind : List UInt8) (bufLen : ℕ) (hlen : bufLen ≤ content.length) :
    ((∀ f, LoopReaches (verifyChunkedTurn bufLen) (.enter (content ++ 0 :: behind)) f →
        f.NoStepBack bufLen) →
      LoopReturns (verifyChunkedTurn bufLen) (content ++ 0 :: behind)) ∧
    ((∀ f, LoopReaches (decodeChunkedTurn bufLen) (.enter (content ++ 0 :: behind)) f →
        f.NoStepBack bufLen) ↔
      LoopReturns (decodeChunkedTurn bufLen) (content ++ 0 :: behind)) := by
  have hzero : (content ++ 0 :: behind)[content.length]? = some 0 := by simp
  refine ⟨(movesOn_verifyChunkedTurn hlen).loopReturns hzero,
    (movesOn_decodeChunkedTurn hlen).loopReturns hzero, ?_⟩
  rintro ⟨hends, hkept⟩ f hreach
  by_contra hback
  exact not_loopEnds_of_reaches_fault hreach
    (decodeChunkedTurn_fault (hkept f hreach).1 hback) hends

/-- A size that is not negative. -/
theorem OneShotFrame.noStepBack_of_head {f : OneShotFrame} {chunkSize : ℤ} {chunkData : ℕ}
    (hhead : chunkHead f.buf f.p.toNat = .line chunkSize chunkData) (h0 : 0 ≤ chunkSize) :
    f.NoStepBack bufLen := by
  intro size data hhead' hneg
  rw [hhead] at hhead'
  injection hhead' with hsize
  omega

/-- Both loops on a message with one chunk. -/
theorem chunkLoopsReturn_one :
    LoopReturns (verifyChunkedTurn 11) (bytes "1\r\na\r\n0\r\n\r\n" ++ 0 :: []) ∧
      LoopReturns (decodeChunkedTurn 11) (bytes "1\r\na\r\n0\r\n\r\n" ++ 0 :: []) := by
  obtain ⟨hverify, hdecode⟩ :=
    chunkLoopsReturn (bytes "1\r\na\r\n0\r\n\r\n") [] 11 (by decide)
  constructor
  · apply hverify
    intro f hreach
    have hstate : f = .enter (bytes "1\r\na\r\n0\r\n\r\n" ++ 0 :: []) ∨
        f = ⟨bytes "1\r\na\r\n0\r\n\r\n" ++ 0 :: [], 6, 0, 1⟩ := by
      apply hreach.inv (Or.inl rfl)
      rintro s s' (rfl | rfl) hnext
      · exact .inr (Turn.next.inj (hnext.symm.trans (by decide)))
      · rw [show verifyChunkedTurn 11 _ =
          .ret (1, bytes "1\r\na\r\n0\r\n\r\n" ++ 0 :: []) by decide] at hnext
        cases hnext
    rcases hstate with rfl | rfl
    · exact OneShotFrame.noStepBack_of_head (show _ = ChunkHead.line 1 3 by decide) (by decide)
    · exact OneShotFrame.noStepBack_of_head (show _ = ChunkHead.line 0 9 by decide) (by decide)
  · apply hdecode.mp
    intro f hreach
    have hstate : f = .enter (bytes "1\r\na\r\n0\r\n\r\n" ++ 0 :: []) ∨
        f = ⟨bytes "a\r\na\r\n0\r\n\r\n" ++ 0 :: [], 6, 1, 1⟩ := by
      apply hreach.inv (Or.inl rfl)
      rintro s s' (rfl | rfl) hnext
      · exact .inr (Turn.next.inj (hnext.symm.trans (by decide)))
      · rw [show decodeChunkedTurn 11 _ =
          .ret (1, (bytes "a\r\na\r\n0\r\n\r\n" ++ 0 :: []).set 1 0) by decide] at hnext
        cases hnext
    rcases hstate with rfl | rfl
    · exact OneShotFrame.noStepBack_of_head (show _ = ChunkHead.line 1 3 by decide) (by decide)
    · exact OneShotFrame.noStepBack_of_head (show _ = ChunkHead.line 0 9 by decide) (by decide)

/-- A line with a negative number that leads back to it. The verifier never returns, and the
decoder copies a negative number of bytes. -/
theorem not_chunkLoopsReturn_negative :
    6 ≤ (bytes "\r\n-6\r\n").length ∧
      ¬ LoopReturns (verifyChunkedTurn 6) (bytes "\r\n-6\r\n" ++ 0 :: []) ∧
      ¬ LoopReturns (decodeChunkedTurn 6) (bytes "\r\n-6\r\n" ++ 0 :: []) := by
  refine ⟨by decide, fun h => ?_, fun h => ?_⟩
  · refine not_loopEnds_of_inv (I := fun f => f.buf = bytes "\r\n-6\r\n" ++ 0 :: [] ∧
      (f.p = 0 ∨ f.p = 2)) ?_ ⟨rfl, .inl rfl⟩ h.1
    rintro ⟨_, p, d, size⟩ ⟨rfl, hp⟩
    refine ⟨⟨bytes "\r\n-6\r\n" ++ 0 :: [], 2, d, size + -6⟩, ?_, rfl, .inr rfl⟩
    have hread : readChunk (bytes "\r\n-6\r\n" ++ 0 :: []) 6 p = .chunk (-6) 6 2 := by
      rcases hp with rfl | rfl <;> decide
    simp only [verifyChunkedTurn, hread]
  · exact not_loopEnds_of_reaches_fault ReflTransGen.refl (by decide) h.1

end Nxweb
