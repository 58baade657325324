import Nxweb.Chunked.DecoderCorrectness

/-!
# The sizes of a chunked message

The decoder keeps the size of a chunk in a signed word that wraps. `ChunkPos` says how far a
chunked message has been read without any word: the digits of a size line are a list, and the
number of data bytes to come is a natural number. A byte string stays in range if the word can
hold the value of the digits at every point of its size lines (`SizesInRange`).

The decoder state follows the position as long as it is in range (`ChunkPos.Matches.byteStep`), and
then no size wraps (`ChunkPos.Matches.sizesFit`).
-/

namespace Nxweb

/-! ### Positions in a chunked message -/

/-- How far a chunked message has been read. The flags tell the last chunk. -/
inductive ChunkPos where
  /-- On a size line, behind some digits. -/
  | size (digits : List UInt8)
  /-- In front of the line feed of a size line. -/
  | sizeEnd (n : ℕ)
  /-- In front of `n` data bytes and a carriage return. -/
  | data (n : ℕ) (final : Bool)
  /-- In front of the line feed behind the data. -/
  | lineEnd (final : Bool)
  deriving DecidableEq, Repr

/-- The position behind a byte; `none` if the message ends with it, or it may not stand there. -/
def ChunkPos.next : ChunkPos → UInt8 → Option ChunkPos
  | .size digits, c =>
    if c = cr then some (.sizeEnd (hexValue digits))
    else if hexDigitVal c = none then none
    else some (.size (digits ++ [c]))
  | .sizeEnd n, c => if c = lf then some (.data n (decide (n = 0))) else none
  | .data 0 final, c => if c = cr then some (.lineEnd final) else none
  | .data (n + 1) final, _ => some (.data n final)
  | .lineEnd final, c => if c = lf ∧ final = false then some (.size []) else none

/-- A signed word shows the digits read so far as a number that is not negative, and holds the
value of a whole size line. -/
def ChunkPos.InRange : ChunkPos → Prop
  | .size digits => hexValue digits % 2 ^ 64 < 2 ^ 63
  | .sizeEnd n => n < 2 ^ 63
  | _ => True

instance : DecidablePred ChunkPos.InRange
  | .size _ => inferInstanceAs (Decidable (_ < _))
  | .sizeEnd _ => inferInstanceAs (Decidable (_ < _))
  | .data _ _ => inferInstanceAs (Decidable True)
  | .lineEnd _ => inferInstanceAs (Decidable True)

/-- Every position of the byte string is in range. -/
def SizesInRange : ChunkPos → List UInt8 → Prop
  | pos, [] => pos.InRange
  | pos, c :: cs => pos.InRange ∧
    match pos.next c with
    | none => True
    | some pos' => SizesInRange pos' cs

instance decidableSizesInRange : ∀ pos cs, Decidable (SizesInRange pos cs)
  | pos, [] => inferInstanceAs (Decidable pos.InRange)
  | pos, c :: cs =>
    have : Decidable (match pos.next c with
        | none => True
        | some pos' => SizesInRange pos' cs) :=
      match pos.next c with
      | none => isTrue trivial
      | some pos' => decidableSizesInRange pos' cs
    inferInstanceAs (Decidable (_ ∧ _))

theorem SizesInRange.inRange {pos : ChunkPos} {cs : List UInt8} (h : SizesInRange pos cs) :
    pos.InRange := by
  cases cs with
  | nil => exact h
  | cons c cs => exact h.1

theorem sizesInRange_cons_some {pos pos' : ChunkPos} {c : UInt8} (h : pos.next c = some pos')
    (cs : List UInt8) : SizesInRange pos (c :: cs) ↔ pos.InRange ∧ SizesInRange pos' cs := by
  simp only [SizesInRange, h]

theorem sizesInRange_cons_none {pos : ChunkPos} {c : UInt8} (h : pos.next c = none)
    (cs : List UInt8) : SizesInRange pos (c :: cs) ↔ pos.InRange := by
  simp only [SizesInRange, h, and_true]

/-- Data bytes have no size. -/
theorem sizesInRange_data (xs : List UInt8) (n : ℕ) (final : Bool) (ys : List UInt8) :
    SizesInRange (.data (xs.length + n) final) (xs ++ ys) ↔ SizesInRange (.data n final) ys := by
  induction xs with
  | nil => rw [List.length_nil, Nat.zero_add, List.nil_append]
  | cons x xs ih =>
    have hnext : (ChunkPos.data ((x :: xs).length + n) final).next x =
        some (.data (xs.length + n) final) := by
      rw [List.length_cons, Nat.add_right_comm]
      rfl
    rw [List.cons_append, sizesInRange_cons_some hnext, ih]
    exact and_iff_right trivial

/-- Behind the last chunk there is no size line. -/
theorem sizesInRange_lineEnd_true (cs : List UInt8) : SizesInRange (.lineEnd true) cs := by
  cases cs with
  | nil => trivial
  | cons c cs => exact ⟨trivial, by simp [ChunkPos.next]⟩

/-! ### The state of the decoder -/

theorem toSsize_nonneg_iff (n : ℕ) : 0 ≤ toSsize n ↔ n % 2 ^ 64 < 2 ^ 63 := by
  unfold toSsize Int.bmod
  dsimp only
  split_ifs <;> omega

theorem toSsize_eq_iff (n : ℕ) : toSsize n = n ↔ n < 2 ^ 63 := by
  unfold toSsize Int.bmod
  dsimp only
  split_ifs <;> omega

/-- Digits are added to the word as to the value. -/
theorem toSsize_digit (n v : ℕ) :
    toSsize (toSsize n * 16 + v) = toSsize ((n * 16 + v : ℕ) : ℤ) := by
  unfold toSsize
  push_cast
  rw [Int.add_bmod, Int.mul_bmod, Int.bmod_bmod, ← Int.mul_bmod, ← Int.add_bmod]

theorem hexValue_append_singleton (digits : List UInt8) (c : UInt8) :
    hexValue (digits ++ [c]) = hexValue digits * 16 + (hexDigitVal c).getD 0 := by
  rw [hexValue, hexValueFrom_append]
  rfl

/-- The decoder is where the message is. -/
def ChunkPos.Matches (ds : ChunkedDecoderState) : ChunkPos → Prop
  | .size digits =>
    ds.state = .size ∧ ds.finalChunk = false ∧ ds.chunkBytesLeft = toSsize (hexValue digits)
  | .sizeEnd n =>
    ds.state = .lf2 ∧ ds.finalChunk = decide (toSsize n = 0) ∧ ds.chunkBytesLeft = toSsize n
  | .data n final =>
    (ds.state = .data ∧ ds.chunkBytesLeft = n ∨
      ds.state = .cr1 ∧ n = 0 ∧ ds.chunkBytesLeft = 0) ∧ ds.finalChunk = final
  | .lineEnd final => ds.state = .lf1 ∧ ds.finalChunk = final ∧ ds.chunkBytesLeft = 0

/-- A message starts with a size line. -/
theorem ChunkPos.matches_zero (mode : Bool) :
    (ChunkPos.size []).Matches { ChunkedDecoderState.zero with monitorOnly := mode } :=
  ⟨rfl, rfl, rfl⟩

namespace ChunkPos.Matches

variable {ds : ChunkedDecoderState} {pos : ChunkPos}

theorem nonneg (h : pos.Matches ds) (hr : pos.InRange) : 0 ≤ ds.chunkBytesLeft := by
  cases pos with
  | size digits =>
    obtain ⟨-, -, hleft⟩ := h
    rw [hleft]
    exact (toSsize_nonneg_iff _).mpr hr
  | sizeEnd n =>
    obtain ⟨-, -, hleft⟩ := h
    rw [hleft, (toSsize_eq_iff n).mpr hr]
    exact Int.natCast_nonneg n
  | data n final =>
    obtain ⟨⟨-, hleft⟩ | ⟨-, -, hleft⟩, -⟩ := h <;> omega
  | lineEnd final =>
    obtain ⟨-, -, hleft⟩ := h
    omega

/-- Chunk data is read at a position in the data. -/
theorem of_data (h : pos.Matches ds) (hst : ds.state = .data) :
    ∃ n final, pos = .data n final ∧ ds.chunkBytesLeft = n ∧ ds.finalChunk = final := by
  cases pos with
  | size digits => simp [ChunkPos.Matches, hst] at h
  | sizeEnd n => simp [ChunkPos.Matches, hst] at h
  | lineEnd final => simp [ChunkPos.Matches, hst] at h
  | data n final =>
    obtain ⟨⟨-, hleft⟩ | ⟨hst', -⟩, hfin⟩ := h
    · exact ⟨n, final, rfl, hleft, hfin⟩
    · rw [hst] at hst'
      cases hst'

/-- The decoder follows the message as long as the sizes are in range. -/
theorem byteStep (h : pos.Matches ds) (hr : pos.InRange) (c : UInt8) :
    match Nxweb.byteStep ds c with
    | .more ds' _ => ∃ pos', pos.next c = some pos' ∧ pos'.Matches ds'
    | .error ds' => pos.next c = none ∧ pos.Matches ds'
    | .done ds' => pos.next c = none ∧ pos.Matches ds' ∧ pos = .lineEnd true := by
  cases pos with
  | size digits =>
    obtain ⟨hst, hfin, hleft⟩ := h
    simp only [Nxweb.byteStep, hst]
    by_cases hc : c = cr
    · rw [if_pos hc]
      refine ⟨_, if_pos hc, rfl, ?_, hleft⟩
      simp only [hfin, hleft, Bool.false_or]
      rfl
    · rw [if_neg hc]
      cases hv : hexDigitVal c with
      | none => exact ⟨by simp [next, hc, hv], hst, hfin, hleft⟩
      | some v =>
        refine ⟨.size (digits ++ [c]), by simp [next, hc, hv], rfl, hfin, ?_⟩
        rw [hleft, toSsize_digit, hexValue_append_singleton, hv, Option.getD_some]
  | sizeEnd n =>
    obtain ⟨hst, hfin, hleft⟩ := h
    simp only [Nxweb.byteStep, hst]
    have hn : toSsize n = n := (toSsize_eq_iff n).mpr hr
    by_cases hc : c = lf
    · rw [if_pos hc]
      refine ⟨_, if_pos hc, .inl ⟨rfl, hleft.trans hn⟩, ?_⟩
      simp [hfin, hn]
    · rw [if_neg hc]
      exact ⟨if_neg hc, hst, hfin, hleft⟩
  | data n final =>
    obtain ⟨⟨hst, hleft⟩ | ⟨hst, rfl, hleft⟩, hfin⟩ := h
    · simp only [Nxweb.byteStep, hst, hleft]
      cases n with
      | zero =>
        rw [if_neg (by omega), if_neg (by omega)]
        by_cases hc : c = cr
        · rw [if_pos hc]
          exact ⟨_, if_pos hc, rfl, hfin, rfl⟩
        · rw [if_neg hc]
          exact ⟨if_neg hc, .inr ⟨rfl, rfl, rfl⟩, hfin⟩
      | succ n =>
        by_cases hlast : n = 0
        · rw [if_neg (by omega), if_pos (by omega)]
          exact ⟨_, rfl, .inr ⟨rfl, hlast, rfl⟩, hfin⟩
        · rw [if_pos (by omega)]
          exact ⟨_, rfl, .inl ⟨rfl, by push_cast; ring⟩, hfin⟩
    · simp only [Nxweb.byteStep, hst]
      by_cases hc : c = cr
      · rw [if_pos hc]
        exact ⟨_, if_pos hc, rfl, hfin, hleft⟩
      · rw [if_neg hc]
        exact ⟨if_neg hc, .inr ⟨hst, rfl, hleft⟩, hfin⟩
  | lineEnd final =>
    obtain ⟨hst, rfl, hleft⟩ := h
    simp only [Nxweb.byteStep, hst]
    by_cases hc : c = lf
    · rw [if_pos hc]
      cases hfin : ds.finalChunk with
      | true => exact ⟨by simp [next], ⟨hst, hfin, hleft⟩, rfl⟩
      | false => exact ⟨.size [], by simp [next, hc], rfl, rfl, hleft⟩
    · rw [if_neg hc]
      exact ⟨by simp [next, hc], hst, rfl, hleft⟩

end ChunkPos.Matches

/-! ### Reading a buffer -/

/-- The position a call leaves behind. -/
def ChunkPos.after : ChunkPos → List UInt8 → ChunkPos
  | pos, [] => pos
  | pos, c :: cs =>
    match pos.next c with
    | none => pos
    | some pos' => pos'.after cs

/-- As long as the sizes are in range, none of them wraps, and the decoder is where the message
is. -/
theorem ChunkPos.Matches.sizesFit {ds : ChunkedDecoderState} {pos : ChunkPos} {cs : List UInt8}
    (h : pos.Matches ds) (hr : SizesInRange pos cs) :
    SizesFit ds cs ∧ (pos.after cs).Matches (feed ds cs).ds := by
  induction cs generalizing ds pos with
  | nil => exact ⟨h.nonneg hr, h⟩
  | cons c cs ih =>
    have hpos := hr.inRange
    have hbyte := h.byteStep hpos c
    cases hstep : Nxweb.byteStep ds c with
    | more ds' out =>
      rw [hstep] at hbyte
      obtain ⟨pos', hnext, hmatch⟩ := hbyte
      rw [sizesInRange_cons_some hnext] at hr
      obtain ⟨hfit, hafter⟩ := ih hmatch hr.2
      rw [feed_cons_more hstep]
      exact ⟨⟨h.nonneg hpos, by rwa [hstep]⟩, by simpa only [ChunkPos.after, hnext] using hafter⟩
    | error ds' =>
      rw [hstep] at hbyte
      obtain ⟨hnext, hmatch⟩ := hbyte
      refine ⟨⟨h.nonneg hpos, by rw [hstep]; trivial⟩, ?_⟩
      simpa only [ChunkPos.after, hnext, feed, hstep] using hmatch
    | done ds' =>
      rw [hstep] at hbyte
      obtain ⟨hnext, hmatch, -⟩ := hbyte
      refine ⟨⟨h.nonneg hpos, by rw [hstep]; trivial⟩, ?_⟩
      simpa only [ChunkPos.after, hnext, feed, hstep] using hmatch

end Nxweb
