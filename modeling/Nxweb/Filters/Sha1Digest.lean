import Nxweb.Filters.Sha1
import Nxweb.Lib.BlockChain

/-!
# The digest of a message

SHA-1 as the standard defines it: the message is padded to whole blocks, and a compression function
is folded over these. `sha1.c` gets the message in any number of pieces, and keeps a block and two
counters.

## Main results

* `sha1ProcessMessageBlock_eq`: a block is processed as the standard says;
* `sha1Calls_eq`: every sequence of calls answers with the digests of the message so far, also at
  the limit of `2 ^ 61` octets, and whatever was in the context before;
* `sha1sign_eq`: what `sha1sign` writes are the digits of the digest.
-/

namespace Nxweb

open Lib

/-! ### The standard -/

/-- `f(t; B, C, D)`. -/
def sha1Function (t : ℕ) (B C D : BitVec 32) : BitVec 32 :=
  if t < 20 then (B &&& C) ||| (~~~B &&& D)
  else if t < 40 then B ^^^ C ^^^ D
  else if t < 60 then (B &&& C) ||| (B &&& D) ||| (C &&& D)
  else B ^^^ C ^^^ D

/-- `K(t)`. -/
def sha1Constant (t : ℕ) : BitVec 32 :=
  if t < 20 then 0x5A827999
  else if t < 40 then 0x6ED9EBA1
  else if t < 60 then 0x8F1BBCDC
  else 0xCA62C1D6

/-- The word of four octets, the first one in the highest bits. -/
def sha1BlockWord (block : List UInt8) (t : ℕ) : BitVec 32 :=
  (block.getD (t * 4) 0).toBitVec ++ (block.getD (t * 4 + 1) 0).toBitVec ++
    (block.getD (t * 4 + 2) 0).toBitVec ++ (block.getD (t * 4 + 3) 0).toBitVec

/-- `W(t)`. -/
def sha1Schedule (block : List UInt8) (t : ℕ) : BitVec 32 :=
  if t < 16 then sha1BlockWord block t
  else
    (sha1Schedule block (t - 3) ^^^ sha1Schedule block (t - 8) ^^^ sha1Schedule block (t - 14) ^^^
      sha1Schedule block (t - 16)).rotateLeft 1
termination_by t

/-- One step of the 80. -/
def sha1Step (W : ℕ → BitVec 32) (r : Sha1Words) (t : ℕ) : Sha1Words where
  a := r.a.rotateLeft 5 + sha1Function t r.b r.c r.d + r.e + W t + sha1Constant t
  b := r.a
  c := r.b.rotateLeft 30
  d := r.c
  e := r.d

/-- The sums of the words. -/
def Sha1Words.add (h r : Sha1Words) : Sha1Words :=
  ⟨h.a + r.a, h.b + r.b, h.c + r.c, h.d + r.d, h.e + r.e⟩

/-- The words after one more block. -/
def sha1Compress (h : Sha1Words) (block : List UInt8) : Sha1Words :=
  h.add ((List.range 80).foldl (sha1Step (sha1Schedule block)) h)

/-- A number of bits in eight octets. -/
def sha1LengthOctets (n : ℕ) : List UInt8 :=
  [56, 48, 40, 32, 24, 16, 8, 0].map fun shift => UInt8.ofNat (n >>> shift)

/-- The message, a one, as many zeros as it takes, and the length of the message in bits. -/
def sha1Pad (message : List UInt8) : List UInt8 :=
  message ++ ([0x80] ++ List.replicate ((119 - message.length % 64) % 64) 0 ++
    sha1LengthOctets (8 * message.length))

/-- The digest of a message. -/
def sha1 (message : List UInt8) : Sha1Words :=
  chain sha1Compress 64 sha1InitialDigest (sha1Pad message)

/-! ### One block -/

theorem and_ones (x : BitVec 32) : x &&& 0xFFFFFFFF = x := BitVec.and_allOnes

theorem sha1CircularShift_eq {bits : ℕ} (hbits : bits < 32) (word : BitVec 32) :
    sha1CircularShift bits word = word.rotateLeft bits := by
  rw [sha1CircularShift, and_ones, BitVec.rotateLeft_def, Nat.mod_eq_of_lt hbits]

theorem toNat_sha1Octet_shiftLeft (b : UInt8) {shift : ℕ} (hshift : shift ≤ 24) :
    (sha1Octet b <<< shift).toNat = b.toNat <<< shift := by
  have hb := b.toNat_lt
  have hlt : b.toNat <<< shift < 2 ^ 32 := by
    rw [Nat.shiftLeft_eq]
    calc b.toNat * 2 ^ shift ≤ 255 * 2 ^ 24 :=
          Nat.mul_le_mul (by omega) (Nat.pow_le_pow_right two_pos hshift)
      _ < 2 ^ 32 := by norm_num
  rw [sha1Octet, BitVec.toNat_shiftLeft, BitVec.toNat_ofNat,
    Nat.mod_eq_of_lt (by omega : b.toNat < 2 ^ 32), Nat.mod_eq_of_lt hlt]

/-- Four octets, shifted to their places. -/
theorem sha1Octets_eq (b₀ b₁ b₂ b₃ : UInt8) :
    (sha1Octet b₀ <<< 24) ||| (sha1Octet b₁ <<< 16) ||| (sha1Octet b₂ <<< 8) ||| sha1Octet b₃ =
      (b₀.toBitVec ++ b₁.toBitVec ++ b₂.toBitVec ++ b₃.toBitVec : BitVec 32) := by
  have h₃ := toNat_sha1Octet_shiftLeft b₃ (Nat.zero_le 24)
  rw [BitVec.shiftLeft_zero, Nat.shiftLeft_zero] at h₃
  apply BitVec.eq_of_toNat_eq
  simp only [BitVec.toNat_or, toNat_sha1Octet_shiftLeft _ (by omega : 24 ≤ 24),
    toNat_sha1Octet_shiftLeft _ (by omega : 16 ≤ 24),
    toNat_sha1Octet_shiftLeft _ (by omega : 8 ≤ 24), h₃, BitVec.toNat_append,
    Nat.shiftLeft_or_distrib, ← Nat.shiftLeft_add, UInt8.toNat_toBitVec]

section Block

variable {block : Vector UInt8 64}

theorem sha1LoadWord_eq {W : List (BitVec 32)} {t : ℕ} (ht : t < 16) :
    sha1LoadWord block W t = some (W ++ [sha1Schedule block.toList t]) := by
  have hread (i : ℕ) (hi : i < 64) : block[i]? = some (block.toList.getD i 0) := by
    rw [← Vector.getElem?_toList, List.getD_eq_getElem?_getD,
      List.getElem?_eq_getElem (by simpa using hi), Option.getD_some]
  rw [sha1LoadWord, hread _ (by omega), hread _ (by omega), hread _ (by omega), hread _ (by omega),
    sha1Schedule, if_pos ht, sha1BlockWord, ← sha1Octets_eq]
  rfl

theorem sha1LoadWords_eq {n : ℕ} (hn : n ≤ 16) :
    (List.range n).foldlM (sha1LoadWord block) [] =
      some ((List.range n).map (sha1Schedule block.toList)) := by
  induction n with
  | zero => rfl
  | succ n ih =>
    rw [List.range_succ, List.foldlM_append, ih (by omega), List.map_append]
    simp [sha1LoadWord_eq (by omega : n < 16)]

/-- The words that are read have all been written. -/
theorem sha1ExpandWord_eq {t : ℕ} (ht : 16 ≤ t) :
    sha1ExpandWord ((List.range t).map (sha1Schedule block.toList)) t =
      some ((List.range (t + 1)).map (sha1Schedule block.toList)) := by
  have hread (i : ℕ) (hi : i < t) : ((List.range t).map (sha1Schedule block.toList))[i]? =
      some (sha1Schedule block.toList i) := by
    rw [List.getElem?_map, List.getElem?_range hi, Option.map_some]
  rw [sha1ExpandWord, hread _ (by omega), hread _ (by omega), hread _ (by omega),
    hread _ (by omega), List.range_succ, List.map_append, List.map_singleton, sha1Schedule.eq_1 _ t,
    if_neg (by omega), ← sha1CircularShift_eq (by omega)]
  rfl

theorem sha1ExpandWords_eq (n : ℕ) :
    (List.range' 16 n).foldlM sha1ExpandWord ((List.range 16).map (sha1Schedule block.toList)) =
      some ((List.range (16 + n)).map (sha1Schedule block.toList)) := by
  induction n with
  | zero => rfl
  | succ n ih =>
    rw [List.range'_concat, List.foldlM_append, ih]
    simp [sha1ExpandWord_eq (by omega : 16 ≤ 16 + n), Nat.add_assoc]

theorem sha1Turn_eq {f : BitVec 32 → BitVec 32 → BitVec 32 → BitVec 32} {k : BitVec 32}
    {W : List (BitVec 32)} {w : ℕ → BitVec 32} {t : ℕ} (hf : sha1Function t = f)
    (hk : sha1Constant t = k) (hW : W[t]? = some (w t)) (r : Sha1Words) :
    sha1Turn f k W r t = some (sha1Step w r t) := by
  simp only [sha1Turn, hW, Option.bind_eq_bind, Option.bind_some, and_ones,
    sha1CircularShift_eq (by omega : 5 < 32), sha1CircularShift_eq (by omega : 30 < 32), sha1Step,
    hf, hk]

/-- One of the four loops over the word buffers. -/
theorem sha1Turns_eq {f : BitVec 32 → BitVec 32 → BitVec 32 → BitVec 32} {k : BitVec 32}
    {W : List (BitVec 32)} {w : ℕ → BitVec 32} (lo n : ℕ)
    (hf : ∀ t, lo ≤ t → t < lo + n → sha1Function t = f ∧ sha1Constant t = k ∧ W[t]? = some (w t))
    (r : Sha1Words) :
    (List.range' lo n).foldlM (sha1Turn f k W) r =
      some ((List.range' lo n).foldl (sha1Step w) r) := by
  induction n with
  | zero => rfl
  | succ n ih =>
    obtain ⟨hf', hk, hW⟩ := hf (lo + n) (by omega) (by omega)
    rw [List.range'_concat, List.foldlM_append, List.foldl_append,
      ih fun t hlo hlt => hf t hlo (by omega)]
    simp [sha1Turn_eq hf' hk hW]

theorem bind_of_eq_some {α β : Type} {x : Option α} {a : α} (h : x = some a) (f : α → Option β) :
    (x >>= f) = f a := by
  rw [h]
  rfl

/-- A block is processed as the standard says. -/
theorem sha1ProcessMessageBlock_eq (context : Sha1Context) :
    sha1ProcessMessageBlock context = some { context with
      messageDigest := sha1Compress context.messageDigest context.messageBlock.toList
      messageBlockIndex := 0 } := by
  have hrange : List.range 80 =
      List.range' 0 20 ++ (List.range' 20 20 ++ (List.range' 40 20 ++ List.range' 60 20)) := rfl
  have hread (t : ℕ) (ht : t < 80) :
      ((List.range (16 + 64)).map (sha1Schedule context.messageBlock.toList))[t]? =
        some (sha1Schedule context.messageBlock.toList t) := by
    rw [List.getElem?_map, List.getElem?_range (by omega), Option.map_some]
  -- the functions and the constants of the four loops
  have hturns₁ := sha1Turns_eq 0 20 fun t hlo hlt =>
    ⟨funext₃ fun B C D => if_pos (by omega), if_pos (by omega), hread t (by omega)⟩
  have hturns₂ := sha1Turns_eq 20 20 fun t hlo hlt =>
    ⟨funext₃ fun B C D => (if_neg (by omega)).trans (if_pos (by omega)),
      (if_neg (by omega)).trans (if_pos (by omega)), hread t (by omega)⟩
  have hturns₃ := sha1Turns_eq 40 20 fun t hlo hlt =>
    ⟨funext₃ fun B C D => ((if_neg (by omega)).trans (if_neg (by omega))).trans (if_pos (by omega)),
      ((if_neg (by omega)).trans (if_neg (by omega))).trans (if_pos (by omega)),
      hread t (by omega)⟩
  have hturns₄ := sha1Turns_eq 60 20 fun t hlo hlt =>
    ⟨funext₃ fun B C D => ((if_neg (by omega)).trans (if_neg (by omega))).trans (if_neg (by omega)),
      ((if_neg (by omega)).trans (if_neg (by omega))).trans (if_neg (by omega)),
      hread t (by omega)⟩
  rw [sha1ProcessMessageBlock, bind_of_eq_some (sha1LoadWords_eq le_rfl),
    bind_of_eq_some (sha1ExpandWords_eq 64)]
  dsimp only
  rw [bind_of_eq_some (hturns₁ _), bind_of_eq_some (hturns₂ _), bind_of_eq_some (hturns₃ _),
    bind_of_eq_some (hturns₄ _), ← List.foldl_append, ← List.foldl_append, ← List.foldl_append,
    ← hrange]
  simp only [and_ones]
  rfl

end Block

/-! ### The message -/

namespace Sha1Context

/-- The message block begins with these octets, and the index is behind them. -/
structure Filled (context : Sha1Context) (rest : List UInt8) : Prop where
  index : context.messageBlockIndex = rest.length
  begins : rest <+: context.messageBlock.toList

theorem Filled.length_le {context : Sha1Context} {rest : List UInt8} (h : context.Filled rest) :
    rest.length ≤ 64 := by
  have hle := h.begins.length_le
  rwa [Vector.length_toList] at hle

/-- One more octet in a block that is not full. The rest of the context is as it was. -/
theorem store_eq (context : Sha1Context) {rest : List UInt8}
    (h : rest <+: context.messageBlock.toList) {i : ℕ} (hi : rest.length = i) (hlt : i < 64)
    (b : UInt8) :
    ∃ messageBlock, context.store i b = some { context with messageBlock } ∧
      (rest ++ [b]) <+: messageBlock.toList := by
  subst hi
  refine ⟨context.messageBlock.set rest.length b hlt, dif_pos hlt, ?_⟩
  obtain ⟨behind, hblock⟩ := h
  have hlen : rest.length + behind.length = 64 := by
    rw [← List.length_append, hblock, Vector.length_toList]
  obtain ⟨c, behind, rfl⟩ := List.exists_cons_of_length_pos (by omega : 0 < behind.length)
  refine ⟨behind, ?_⟩
  rw [Vector.toList_set, ← hblock, List.set_append_right _ _ le_rfl, Nat.sub_self]
  simp

theorem Filled.push_eq {context : Sha1Context} {rest : List UInt8} (h : context.Filled rest)
    (hlt : rest.length < 64) (b : UInt8) :
    ∃ messageBlock, context.push b = some { context with
        messageBlock
        messageBlockIndex := rest.length + 1 } ∧
      (rest ++ [b]) <+: messageBlock.toList := by
  obtain ⟨messageBlock, hstore, hbegins⟩ := store_eq context h.begins rfl hlt b
  refine ⟨messageBlock, ?_, hbegins⟩
  rw [push, h.index, bind_of_eq_some hstore]

/-- The rest of the block is filled with zeros, up to a limit. -/
theorem Filled.fillZero_eq {context : Sha1Context} {rest : List UInt8} (h : context.Filled rest)
    {limit n fuel : ℕ} (hn : rest.length + n = limit) (hlimit : limit ≤ 64) (hfuel : n < fuel) :
    ∃ messageBlock, sha1FillZero limit fuel context = some { context with
        messageBlock
        messageBlockIndex := limit } ∧
      (rest ++ List.replicate n 0) <+: messageBlock.toList := by
  induction n generalizing context rest fuel with
  | zero =>
    obtain ⟨fuel, rfl⟩ := Nat.exists_eq_succ_of_ne_zero hfuel.ne'
    refine ⟨context.messageBlock, ?_, by simpa using h.begins⟩
    rw [sha1FillZero, h.index, if_neg (by omega), ← (by simpa using hn : rest.length = limit),
      ← h.index]
  | succ n ih =>
    obtain ⟨fuel, rfl⟩ := Nat.exists_eq_succ_of_ne_zero (Nat.ne_zero_of_lt hfuel)
    obtain ⟨messageBlock, hpush, hbegins⟩ := h.push_eq (by omega) 0
    have hfilled : ({ context with
        messageBlock
        messageBlockIndex := rest.length + 1 } : Sha1Context).Filled (rest ++ [0]) :=
      ⟨by simp, hbegins⟩
    obtain ⟨messageBlock', hfill, hbegins'⟩ := ih hfilled (by simp; omega)
      (by omega : n < fuel)
    refine ⟨messageBlock', ?_, ?_⟩
    · rw [sha1FillZero, h.index, if_pos (by omega), bind_of_eq_some hpush, hfill]
    · rwa [List.append_assoc] at hbegins'

/-- The two counters hold the length of a message, in bits. -/
def Counts (context : Sha1Context) (n : ℕ) : Prop :=
  context.lengthLow.toNat + 2 ^ 32 * context.lengthHigh.toNat = 8 * n

/-- One more octet is counted, unless the counters overflow. -/
theorem Counts.addOctet {context : Sha1Context} {n : ℕ} (h : context.Counts n) :
    ∃ lengthLow lengthHigh, context.addOctet = { context with
        lengthLow, lengthHigh
        corrupted := context.corrupted || decide (2 ^ 61 ≤ n + 1) } ∧
      (n + 1 < 2 ^ 61 → lengthLow.toNat + 2 ^ 32 * lengthHigh.toNat = 8 * (n + 1)) := by
  have hlow := context.lengthLow.isLt
  have hhigh := context.lengthHigh.isLt
  have hlow' : (context.lengthLow + 8).toNat = (context.lengthLow.toNat + 8) % 2 ^ 32 :=
    BitVec.toNat_add _ _
  have hhigh' : (context.lengthHigh + 1).toNat = (context.lengthHigh.toNat + 1) % 2 ^ 32 :=
    BitVec.toNat_add _ _
  have hzero : (0 : BitVec 32).toNat = 0 := rfl
  rw [Counts] at h
  by_cases hwrap : context.lengthLow + 8 = 0
  · -- the first word is zero again
    rw [hwrap, hzero] at hlow'
    have hcorrupted : decide (context.lengthHigh + 1 = 0) = decide (2 ^ 61 ≤ n + 1) := by
      rw [decide_eq_decide, ← BitVec.toNat_inj, hhigh', hzero]
      omega
    have haddOctet : context.addOctet = { context with
        lengthLow := 0
        lengthHigh := context.lengthHigh + 1
        corrupted := context.corrupted || decide (2 ^ 61 ≤ n + 1) } := by
      rw [Sha1Context.addOctet, and_ones, and_ones, hwrap]
      dsimp only
      rw [if_pos rfl, hcorrupted]
    refine ⟨0, context.lengthHigh + 1, haddOctet, fun hlt => ?_⟩
    rw [hzero, hhigh']
    omega
  · have hne : (context.lengthLow.toNat + 8) % 2 ^ 32 ≠ 0 := by
      rwa [← hlow', ← hzero, Ne, BitVec.toNat_inj]
    have haddOctet : context.addOctet = { context with
        lengthLow := context.lengthLow + 8
        corrupted := context.corrupted || decide (2 ^ 61 ≤ n + 1) } := by
      rw [Sha1Context.addOctet, and_ones]
      dsimp only
      rw [if_neg hwrap, decide_eq_false (by omega : ¬ 2 ^ 61 ≤ n + 1), Bool.or_false]
    refine ⟨context.lengthLow + 8, context.lengthHigh, haddOctet, fun hlt => ?_⟩
    rw [hlow']
    omega

/-- What is true of a context that has taken in a message. -/
structure Holds (context : Sha1Context) (message : List UInt8) : Prop where
  length_lt : message.length < 2 ^ 61
  counts : context.Counts message.length
  absorbed : ∃ rest, context.Filled rest ∧
    Absorbed sha1Compress 64 sha1InitialDigest message context.messageDigest rest
  computed : context.computed = false
  corrupted : context.corrupted = false

end Sha1Context

open Sha1Context

theorem sha1Reset_holds (context : Sha1Context) : (sha1Reset context).Holds [] where
  length_lt := by simp
  counts := rfl
  absorbed := ⟨[], ⟨rfl, List.nil_prefix⟩, .nil (by omega)⟩
  computed := rfl
  corrupted := rfl

/-- One turn of the loop of `SHA1Input`. -/
theorem Sha1Context.Holds.inputLoop_cons {context : Sha1Context} {message : List UInt8}
    (h : context.Holds message) (b : UInt8) (bs : List UInt8) :
    ∃ context', sha1InputLoop context (b :: bs) = sha1InputLoop context' bs ∧
      (if message.length + 1 < 2 ^ 61 then context'.Holds (message ++ [b])
        else context'.corrupted = true) := by
  obtain ⟨rest, hfilled, habsorbed⟩ := h.absorbed
  obtain ⟨messageBlock, hpush, hbegins⟩ := hfilled.push_eq habsorbed.rest_lt b
  have hcounts : ({ context with
      messageBlock
      messageBlockIndex := rest.length + 1 } : Sha1Context).Counts message.length := h.counts
  obtain ⟨lengthLow, lengthHigh, haddOctet, hcounts'⟩ := hcounts.addOctet
  have hcorrupted : message.length + 1 < 2 ^ 61 →
      (context.corrupted || decide (2 ^ 61 ≤ message.length + 1)) = false := by
    intro hlt
    rw [h.corrupted, Bool.false_or, decide_eq_false (by omega)]
  have hlength : (message ++ [b]).length = message.length + 1 := List.length_append
  rw [sha1InputLoop, h.corrupted, if_neg Bool.false_ne_true, bind_of_eq_some hpush]
  dsimp only
  rw [haddOctet]
  dsimp only
  by_cases hfull : rest.length + 1 = 64
  · -- the block is complete
    have hblock : rest ++ [b] = messageBlock.toList :=
      hbegins.eq_of_length (by simpa using hfull)
    rw [if_pos hfull, bind_of_eq_some (sha1ProcessMessageBlock_eq _)]
    refine ⟨_, rfl, ?_⟩
    split_ifs with hlt
    · exact {
        length_lt := hlength.trans_lt hlt
        counts := (hcounts' hlt).trans (congrArg (8 * ·) hlength.symm)
        absorbed := by
          refine ⟨[], ⟨rfl, List.nil_prefix⟩, ?_⟩
          dsimp only
          rw [← hblock]
          exact habsorbed.full [b] (by simpa using hfull)
        computed := h.computed
        corrupted := hcorrupted hlt }
    · exact (Bool.or_eq_true _ _).mpr (.inr (decide_eq_true (not_lt.mp hlt)))
  · rw [if_neg hfull]
    refine ⟨_, rfl, ?_⟩
    split_ifs with hlt
    · have hrest := habsorbed.rest_lt
      exact {
        length_lt := hlength.trans_lt hlt
        counts := (hcounts' hlt).trans (congrArg (8 * ·) hlength.symm)
        absorbed := ⟨rest ++ [b], ⟨by simp, hbegins⟩, habsorbed.append [b] (by simp; omega)⟩
        computed := h.computed
        corrupted := hcorrupted hlt }
    · exact (Bool.or_eq_true _ _).mpr (.inr (decide_eq_true (not_lt.mp hlt)))

/-- A context that is corrupted takes in nothing. -/
theorem sha1InputLoop_of_corrupted {context : Sha1Context} (h : context.corrupted = true)
    (bs : List UInt8) : sha1InputLoop context bs = some context := by
  cases bs with
  | nil => rfl
  | cons b bs => rw [sha1InputLoop, if_pos h]

/-- The loop of `SHA1Input`. -/
theorem Sha1Context.Holds.inputLoop_eq {context : Sha1Context} {message : List UInt8}
    (h : context.Holds message) (bs : List UInt8) :
    ∃ context', sha1InputLoop context bs = some context' ∧
      (if (message ++ bs).length < 2 ^ 61 then context'.Holds (message ++ bs)
        else context'.corrupted = true) := by
  induction bs generalizing context message with
  | nil =>
    refine ⟨context, rfl, ?_⟩
    rw [List.append_nil, if_pos h.length_lt]
    exact h
  | cons b bs ih =>
    obtain ⟨context₁, hloop, hcontext₁⟩ := h.inputLoop_cons b bs
    split_ifs at hcontext₁ with hlt
    · obtain ⟨context', hloop', hcontext'⟩ := ih hcontext₁
      rw [List.append_assoc] at hcontext'
      exact ⟨context', hloop.trans hloop', hcontext'⟩
    · refine ⟨context₁, hloop.trans (sha1InputLoop_of_corrupted hcontext₁ bs), ?_⟩
      rw [if_neg (by simp; omega)]
      exact hcontext₁

/-! ### The padding -/

theorem octet_eq_iff {m n : ℕ} : UInt8.ofNat m = UInt8.ofNat n ↔ m % 256 = n % 256 := by
  rw [← UInt8.toNat_inj, UInt8.toNat_ofNat', UInt8.toNat_ofNat']

theorem sha1LengthOctet_eq (word : BitVec 32) (shift : ℕ) :
    sha1LengthOctet word shift = UInt8.ofNat (word.toNat >>> shift) := by
  have hand : (0xFF : BitVec 32).toNat = 2 ^ 8 - 1 := rfl
  rw [sha1LengthOctet, octet_eq_iff, BitVec.toNat_and, BitVec.toNat_ushiftRight, hand,
    Nat.and_two_pow_sub_one_eq_mod]
  exact Nat.mod_mod _ _

/-- The octets of the two counters are those of the length. -/
theorem Sha1Context.Counts.lengthOctets_eq {context : Sha1Context} {n : ℕ} (h : context.Counts n) :
    [sha1LengthOctet context.lengthHigh 24, sha1LengthOctet context.lengthHigh 16,
      sha1LengthOctet context.lengthHigh 8, sha1LengthOctet context.lengthHigh 0,
      sha1LengthOctet context.lengthLow 24, sha1LengthOctet context.lengthLow 16,
      sha1LengthOctet context.lengthLow 8, sha1LengthOctet context.lengthLow 0] =
      sha1LengthOctets (8 * n) := by
  have hlow := context.lengthLow.isLt
  rw [Counts] at h
  simp only [sha1LengthOctet_eq, sha1LengthOctets, List.map_cons, List.map_nil, List.cons.injEq,
    octet_eq_iff, Nat.shiftRight_eq_div_pow, ← h, and_true]
  norm_num only
  omega

/-- The last eight octets of a block. -/
theorem sha1StoreLength_eq {context : Sha1Context} {rest : List UInt8} {n : ℕ}
    (h : context.Counts n) (hbegins : rest <+: context.messageBlock.toList)
    (hlen : rest.length = 56) :
    ∃ messageBlock, sha1StoreLength context = some { context with messageBlock } ∧
      rest ++ sha1LengthOctets (8 * n) = messageBlock.toList := by
  rw [← h.lengthOctets_eq, sha1StoreLength]
  obtain ⟨block₀, hstore, h₀⟩ := store_eq context hbegins hlen (by omega)
    (sha1LengthOctet context.lengthHigh 24)
  rw [bind_of_eq_some hstore]
  obtain ⟨block₁, hstore, h₁⟩ := store_eq { context with messageBlock := block₀ } h₀
    (by simp [hlen] : _ = 57) (by omega) (sha1LengthOctet context.lengthHigh 16)
  rw [bind_of_eq_some hstore]
  obtain ⟨block₂, hstore, h₂⟩ := store_eq { context with messageBlock := block₁ } h₁
    (by simp [hlen] : _ = 58) (by omega) (sha1LengthOctet context.lengthHigh 8)
  rw [bind_of_eq_some hstore]
  obtain ⟨block₃, hstore, h₃⟩ := store_eq { context with messageBlock := block₂ } h₂
    (by simp [hlen] : _ = 59) (by omega) (sha1LengthOctet context.lengthHigh 0)
  rw [bind_of_eq_some hstore]
  obtain ⟨block₄, hstore, h₄⟩ := store_eq { context with messageBlock := block₃ } h₃
    (by simp [hlen] : _ = 60) (by omega) (sha1LengthOctet context.lengthLow 24)
  rw [bind_of_eq_some hstore]
  obtain ⟨block₅, hstore, h₅⟩ := store_eq { context with messageBlock := block₄ } h₄
    (by simp [hlen] : _ = 61) (by omega) (sha1LengthOctet context.lengthLow 16)
  rw [bind_of_eq_some hstore]
  obtain ⟨block₆, hstore, h₆⟩ := store_eq { context with messageBlock := block₅ } h₅
    (by simp [hlen] : _ = 62) (by omega) (sha1LengthOctet context.lengthLow 8)
  rw [bind_of_eq_some hstore]
  obtain ⟨block₇, hstore, h₇⟩ := store_eq { context with messageBlock := block₆ } h₆
    (by simp [hlen] : _ = 63) (by omega) (sha1LengthOctet context.lengthLow 0)
  refine ⟨block₇, hstore, ?_⟩
  rw [← h₇.eq_of_length (by simp [hlen])]
  simp

/-- Between the message and its length are a one and as many zeros as it takes. -/
theorem Sha1Context.Holds.padZeros_eq {context : Sha1Context} {message : List UInt8}
    (h : context.Holds message) :
    ∃ context' rest, sha1PadZeros context = some context' ∧ rest.length = 56 ∧
      rest <+: context'.messageBlock.toList ∧ context'.Counts message.length ∧
      context'.corrupted = false ∧
      Absorbed sha1Compress 64 sha1InitialDigest
        (message ++ ([0x80] ++ List.replicate ((119 - message.length % 64) % 64) 0))
        context'.messageDigest rest := by
  obtain ⟨rest, hfilled, habsorbed⟩ := h.absorbed
  have hrest := habsorbed.rest_lt
  obtain ⟨block₁, hpush, h₁⟩ := hfilled.push_eq hrest 0x80
  have hfilled₁ : ({ context with
      messageBlock := block₁
      messageBlockIndex := rest.length + 1 } : Sha1Context).Filled (rest ++ [0x80]) :=
    ⟨by simp, h₁⟩
  rw [sha1PadZeros, hfilled.index, ← habsorbed.length_rest]
  by_cases hroom : rest.length > 55
  · -- the length goes into another block
    have hzeros : (119 - rest.length) % 64 = (63 - rest.length) + 56 := by omega
    have hlen : (rest ++ [0x80]).length + (63 - rest.length) = 64 := by simp; omega
    obtain ⟨block₂, hfill₂, h₂⟩ :=
      hfilled₁.fillZero_eq hlen le_rfl (by omega : 63 - rest.length < 65)
    have hblock : rest ++ ([0x80] ++ List.replicate (63 - rest.length) 0) = block₂.toList := by
      rw [← List.append_assoc]
      apply h₂.eq_of_length
      rw [List.length_append, List.length_replicate, hlen, Vector.length_toList]
    have hfull := habsorbed.full ([0x80] ++ List.replicate (63 - rest.length) 0)
      (by simp; omega)
    have hfilled₂ : ({ context with
        messageDigest := sha1Compress context.messageDigest block₂.toList
        messageBlock := block₂
        messageBlockIndex := 0 } : Sha1Context).Filled [] := ⟨rfl, List.nil_prefix⟩
    obtain ⟨block₃, hfill₃, h₃⟩ :=
      hfilled₂.fillZero_eq (Nat.zero_add 56) (by omega) (by omega : 56 < 65)
    rw [if_pos hroom, bind_of_eq_some hpush, bind_of_eq_some hfill₂,
      bind_of_eq_some (sha1ProcessMessageBlock_eq _), hfill₃]
    refine ⟨_, _, rfl, List.length_replicate, h₃, ?_, h.corrupted, ?_⟩
    · rw [Counts]
      exact h.counts
    · rw [hzeros, List.replicate_add, ← List.append_assoc [0x80], ← List.append_assoc message,
        ← hblock]
      exact hfull.append _ (by simp)
  · have hzeros : (119 - rest.length) % 64 = 55 - rest.length := by omega
    have hlen : (rest ++ [0x80]).length + (55 - rest.length) = 56 := by simp; omega
    obtain ⟨block₂, hfill₂, h₂⟩ :=
      hfilled₁.fillZero_eq hlen (by omega) (by omega : 55 - rest.length < 65)
    rw [if_neg hroom, bind_of_eq_some hpush, hfill₂]
    refine ⟨_, _, rfl, ?_, h₂, h.counts, h.corrupted, ?_⟩
    · rw [List.length_append, List.length_replicate, hlen]
    · rw [hzeros, List.append_assoc]
      exact habsorbed.append _ (by simp; omega)

/-- What `SHA1PadMessage` leaves in a context is the digest of the message. -/
theorem Sha1Context.Holds.padMessage_eq {context : Sha1Context} {message : List UInt8}
    (h : context.Holds message) :
    ∃ context', sha1PadMessage context = some context' ∧ context'.messageDigest = sha1 message ∧
      context'.corrupted = false := by
  obtain ⟨context₁, rest, hpad, hlen, hbegins, hcounts, hcorrupted, habsorbed⟩ := h.padZeros_eq
  obtain ⟨block, hstore, hblock⟩ := sha1StoreLength_eq hcounts hbegins hlen
  rw [sha1PadMessage, bind_of_eq_some hpad, bind_of_eq_some hstore, sha1ProcessMessageBlock_eq]
  refine ⟨_, rfl, ?_, hcorrupted⟩
  have hfull := habsorbed.full (sha1LengthOctets (8 * message.length))
    (by simp [hlen, sha1LengthOctets])
  rw [hblock, List.append_assoc] at hfull
  exact hfull.eq_chain

/-! ### Sequences of calls -/

/-- A call of a function of `sha1.h`, after `SHA1Reset`. -/
inductive Sha1Call where
  | input (message : List UInt8)
  | result

/-- The calls, and for each `SHA1Result` the digest, `none` if it fails. -/
def sha1Calls (context : Sha1Context) : List Sha1Call → Option (List (Option Sha1Words))
  | [] => some []
  | .input message :: calls => do sha1Calls (← sha1Input context message) calls
  | .result :: calls => do
    let (context, ok) ← sha1Result context
    let answers ← sha1Calls context calls
    some ((if ok then some context.messageDigest else none) :: answers)

/-- What a context stands for. -/
inductive Sha1State where
  | taking (message : List UInt8)
  | computed (message : List UInt8)
  | corrupted

/-- Nothing may follow on a result, and there may be less than `2 ^ 61` octets. -/
def Sha1State.input (message' : List UInt8) : Sha1State → Sha1State
  | .taking message =>
    if (message ++ message').length < 2 ^ 61 then .taking (message ++ message') else .corrupted
  | .computed message => if message' = [] then .computed message else .corrupted
  | .corrupted => .corrupted

/-- What the calls answer. -/
def Sha1State.answers : Sha1State → List Sha1Call → List (Option Sha1Words)
  | _, [] => []
  | state, .input message :: calls => answers (state.input message) calls
  | .taking message, .result :: calls =>
    some (sha1 message) :: answers (.computed message) calls
  | .computed message, .result :: calls =>
    some (sha1 message) :: answers (.computed message) calls
  | .corrupted, .result :: calls => none :: answers .corrupted calls

/-- The context stands for a state. -/
def Sha1Context.Shows (context : Sha1Context) : Sha1State → Prop
  | .taking message => context.Holds message
  | .computed message => context.messageDigest = sha1 message ∧ context.computed = true ∧
      context.corrupted = false
  | .corrupted => context.corrupted = true

theorem Sha1State.input_nil {context : Sha1Context} {state : Sha1State} (h : context.Shows state) :
    state.input [] = state := by
  cases state with
  | taking message =>
    rw [input, List.append_nil, if_pos h.length_lt]
  | computed message => rfl
  | corrupted => rfl

theorem Sha1Context.Shows.input_eq {context : Sha1Context} {state : Sha1State}
    (h : context.Shows state) (message' : List UInt8) :
    ∃ context', sha1Input context message' = some context' ∧
      context'.Shows (state.input message') := by
  rw [sha1Input]
  by_cases hnil : message' = []
  · rw [hnil, if_pos List.length_nil, Sha1State.input_nil h]
    exact ⟨context, rfl, h⟩
  rw [if_neg (List.length_eq_zero_iff.not.mpr hnil)]
  cases state with
  | taking message =>
    rw [h.computed, h.corrupted, Bool.or_false, if_neg Bool.false_ne_true]
    obtain ⟨context', hloop, hcontext'⟩ := h.inputLoop_eq message'
    refine ⟨context', hloop, ?_⟩
    rw [Sha1State.input]
    split_ifs at hcontext' ⊢ with hlt
    · exact hcontext'
    · exact hcontext'
  | computed message =>
    rw [h.2.1, Bool.true_or, if_pos rfl, Sha1State.input, if_neg hnil]
    exact ⟨_, rfl, rfl⟩
  | corrupted =>
    rw [(h : context.corrupted = true), Bool.or_true, if_pos rfl]
    exact ⟨_, rfl, rfl⟩

/-- What `SHA1Result` answers, and what the context stands for after it. -/
theorem Sha1Context.Shows.result_eq {context : Sha1Context} {state : Sha1State}
    (h : context.Shows state) (calls : List Sha1Call) :
    ∃ context' ok state', sha1Result context = some (context', ok) ∧ context'.Shows state' ∧
      state.answers (.result :: calls) =
        (if ok then some context'.messageDigest else none) :: state'.answers calls := by
  rw [sha1Result]
  cases state with
  | taking message =>
    rw [h.corrupted, if_neg Bool.false_ne_true, h.computed, Bool.not_false, if_pos rfl]
    obtain ⟨context', hpad, hdigest, hcorrupted⟩ := h.padMessage_eq
    rw [bind_of_eq_some hpad]
    refine ⟨_, true, .computed message, rfl, ⟨hdigest, rfl, hcorrupted⟩, ?_⟩
    rw [Sha1State.answers, if_pos rfl]
    dsimp only
    rw [hdigest]
  | computed message =>
    obtain ⟨hdigest, hcomputed, hcorrupted⟩ := h
    rw [hcorrupted, if_neg Bool.false_ne_true, hcomputed, Bool.not_true,
      if_neg Bool.false_ne_true]
    refine ⟨context, true, .computed message, rfl, ⟨hdigest, hcomputed, hcorrupted⟩, ?_⟩
    rw [if_pos rfl, hdigest]
    rfl
  | corrupted =>
    have hcorrupted : context.corrupted = true := h
    rw [if_pos hcorrupted]
    exact ⟨context, false, .corrupted, rfl, h, rfl⟩

theorem Sha1Context.Shows.calls_eq {context : Sha1Context} {state : Sha1State}
    (h : context.Shows state) (calls : List Sha1Call) :
    sha1Calls context calls = some (state.answers calls) := by
  induction calls generalizing context state with
  | nil =>
    cases state with
    | taking message => rfl
    | computed message => rfl
    | corrupted => rfl
  | cons call calls ih =>
    cases call with
    | input message =>
      obtain ⟨context', hinput, hcontext'⟩ := h.input_eq message
      rw [sha1Calls, bind_of_eq_some hinput, ih hcontext', Sha1State.answers]
    | result =>
      obtain ⟨context', ok, state', hresult, hcontext', hanswers⟩ := h.result_eq calls
      rw [sha1Calls, bind_of_eq_some hresult, hanswers]
      dsimp only
      rw [bind_of_eq_some (ih hcontext')]

/-- Every sequence of calls answers with the digests of the message so far. The octets that are in
the context before `SHA1Reset` never matter, and a message may be in any number of pieces. -/
theorem sha1Calls_eq (context : Sha1Context) (calls : List Sha1Call) :
    sha1Calls (sha1Reset context) calls = some ((Sha1State.taking []).answers calls) := by
  have h : (sha1Reset context).Shows (.taking []) := sha1Reset_holds context
  exact h.calls_eq calls

/-- `sha1sign` writes the digits of the digest of the string and the key. -/
theorem sha1sign_eq (context : Sha1Context) {str key : List UInt8} (hstr : str.length < 2 ^ 32)
    (hkey : key.length < 2 ^ 32) :
    sha1sign context str key =
      some ([(sha1 (str ++ key)).a, (sha1 (str ++ key)).b, (sha1 (str ++ key)).c,
        (sha1 (str ++ key)).d, (sha1 (str ++ key)).e].flatMap sha1WordDigits) := by
  have h : (sha1Reset context).Shows (.taking []) := sha1Reset_holds context
  obtain ⟨context₁, hinput₁, h₁⟩ := h.input_eq str
  obtain ⟨context₂, hinput₂, h₂⟩ := h₁.input_eq key
  rw [Sha1State.input, List.nil_append, if_pos (by omega), Sha1State.input, if_pos (by simp; omega)]
    at h₂
  obtain ⟨context₃, hpad, hdigest, -⟩ := Holds.padMessage_eq h₂
  rw [sha1sign, Nat.mod_eq_of_lt hkey, List.take_length]
  dsimp only
  rw [bind_of_eq_some hinput₁, bind_of_eq_some hinput₂, sha1Result, h₂.corrupted,
    if_neg Bool.false_ne_true, h₂.computed, Bool.not_false, if_pos rfl, bind_of_eq_some hpad]
  simp [hdigest]

/-- The first example of the standard, in two pieces. -/
example : sha1sign ⟨⟨1, 2, 3, 4, 5⟩, 6, 7, Vector.replicate 64 8, 9, true, true⟩ (bytes "ab")
    (bytes "c") = some (bytes "A9993E364706816ABA3E25717850C26C9CD0D89D") := by
  decide +kernel

end Nxweb
