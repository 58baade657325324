import Mathlib.Data.BitVec
import Mathlib.Logic.Function.Basic
import Mathlib.Tactic

/-!
# Request ids

Model of `nxweb_generate_unique_id` (`http_server.h`). An id is packed of the number of the network
thread, of the time and of a counter that the thread keeps. The threads do not share their counters,
so that the calls of different threads can be put in any one order.

The mask for the time is an `int` expression, which overflows to a negative number. Widened to 64
bits it keeps all higher bits of the time as well, and those from bit 40 on fall into the byte of the
thread.

## Main results

* `uniqueId_eq_iff`: what two equal ids have in common;
* `idsUnique_iff`: the ids of a run are unique if and only if no two calls of different threads agree
  in their counters, in the middle bits of the time, and in the bytes that the thread number and the
  higher bits of the time make up together;
* `idsUnique_of_lt`: they are unique while the clock is below `2 ^ 40` microseconds.
-/

namespace Nxweb

/-! ### Calls -/

/-- `0xfffff<<20`, an `int` that is widened to 64 bits. -/
def timeMask : BitVec 64 := ((0xfffff : BitVec 32) <<< 20).signExtend 64

/-- The id of a thread, at a time in microseconds, for the value of its counter. -/
def uniqueId (threadNum : BitVec 8) (currentTime uniqueNum : BitVec 64) : BitVec 64 :=
  (threadNum.setWidth 64 <<< 56) ||| ((currentTime &&& timeMask) <<< 16) |||
    (uniqueNum &&& 0xfffffffff)

/-- A call of `nxweb_generate_unique_id`: the number of the thread, and the time of its loop. -/
structure IdCall where
  threadNum : BitVec 8
  currentTime : BitVec 64
  deriving DecidableEq, Repr

/-- `nxweb_generate_unique_id`, with the `unique_num` of every thread. -/
def nxwebGenerateUniqueId (nums : BitVec 8 → BitVec 64) (call : IdCall) :
    (BitVec 8 → BitVec 64) × BitVec 64 :=
  let num := nums call.threadNum + 1
  (Function.update nums call.threadNum num, uniqueId call.threadNum call.currentTime num)

/-- The ids that are generated by calls in a row. -/
def generatedIds (nums : BitVec 8 → BitVec 64) : List IdCall → List (BitVec 64)
  | [] => []
  | call :: calls =>
    let (nums, id) := nxwebGenerateUniqueId nums call
    id :: generatedIds nums calls

/-- The number of calls of a thread. -/
def callCount (threadNum : BitVec 8) (calls : List IdCall) : ℕ :=
  calls.countP (·.threadNum = threadNum)

/-- Two ids are different if different threads have generated them, or the same one by calls that are
fewer than `2 ^ 36` of its calls apart. -/
def IdsUnique (nums : BitVec 8 → BitVec 64) (calls : List IdCall) : Prop :=
  ∀ i j x y, i < j → calls[i]? = some x → calls[j]? = some y →
    (x.threadNum = y.threadNum → callCount x.threadNum ((calls.take (j + 1)).drop (i + 1)) < 2 ^ 36) →
    (generatedIds nums calls)[i]? ≠ (generatedIds nums calls)[j]?

/-- The counter of a call. -/
def callNum (nums : BitVec 8 → BitVec 64) (calls : List IdCall) (i : ℕ) (call : IdCall) : BitVec 64 :=
  nums call.threadNum + BitVec.ofNat 64 (callCount call.threadNum (calls.take (i + 1)))

/-- Bits 20 to 39 of the time. They change about once a second. -/
def IdCall.second (call : IdCall) : BitVec 20 := call.currentTime.extractLsb' 20 20

/-- Bits 40 to 47 of the time, which are clear for `2 ^ 40` microseconds, nearly 13 days. -/
def IdCall.fortnight (call : IdCall) : BitVec 8 := call.currentTime.extractLsb' 40 8

/-! ### The fields of an id -/

theorem getLsbD_timeMask (i : ℕ) : timeMask.getLsbD i = decide (20 ≤ i ∧ i < 64) := by
  have hmask : timeMask = BitVec.allOnes 64 <<< 20 := by decide
  rw [hmask, BitVec.getLsbD_shiftLeft, BitVec.getLsbD_allOnes, Bool.eq_iff_iff]
  simp only [Bool.and_eq_true, Bool.not_eq_true', decide_eq_true_eq, decide_eq_false_iff_not]
  omega

theorem getLsbD_numMask (i : ℕ) : (0xfffffffff : BitVec 64).getLsbD i = decide (i < 36) := by
  have hmask : (0xfffffffff : BitVec 64) = (BitVec.allOnes 36).setWidth 64 := by decide
  rw [hmask, BitVec.getLsbD_setWidth, BitVec.getLsbD_allOnes, Bool.eq_iff_iff]
  simp only [Bool.and_eq_true, decide_eq_true_eq]
  omega

/-- The low bits are those of the counter, the middle ones those of the time, and both the thread and
the time are in the highest byte. -/
theorem getLsbD_uniqueId (threadNum : BitVec 8) (currentTime uniqueNum : BitVec 64) (i : ℕ) :
    (uniqueId threadNum currentTime uniqueNum).getLsbD i =
      if i < 36 then uniqueNum.getLsbD i
      else if i < 56 then currentTime.getLsbD (i - 16)
      else if i < 64 then threadNum.getLsbD (i - 56) || currentTime.getLsbD (i - 16)
      else false := by
  simp only [uniqueId, BitVec.getLsbD_or, BitVec.getLsbD_shiftLeft, BitVec.getLsbD_and,
    BitVec.getLsbD_setWidth, getLsbD_timeMask, getLsbD_numMask]
  split_ifs with hnum hsecond hbyte
  · -- neither the time nor the thread reaches down to the counter
    have htime : ¬ (20 ≤ i - 16 ∧ i - 16 < 64) := by omega
    simp [hnum, htime, show i < 56 by omega]
  · simp [hnum, hsecond, show i < 64 by omega, show ¬ i < 16 by omega,
      show 20 ≤ i - 16 ∧ i - 16 < 64 by omega]
  · simp [hnum, hsecond, hbyte, show i - 56 < 64 by omega, show ¬ i < 16 by omega,
      show 20 ≤ i - 16 ∧ i - 16 < 64 by omega]
  · simp [hnum, hbyte]

/-- Two equal ids agree in their counters, in the second, and in the byte of the thread and the
higher bits of the time. -/
theorem uniqueId_eq_iff {t t' : BitVec 8} {c c' n n' : BitVec 64} :
    uniqueId t c n = uniqueId t' c' n' ↔
      n.setWidth 36 = n'.setWidth 36 ∧ c.extractLsb' 20 20 = c'.extractLsb' 20 20 ∧
        t ||| c.extractLsb' 40 8 = t' ||| c'.extractLsb' 40 8 := by
  constructor
  · intro h
    have hbit : ∀ i, (uniqueId t c n).getLsbD i = (uniqueId t' c' n').getLsbD i := fun i => by
      rw [h]
    simp only [getLsbD_uniqueId] at hbit
    refine ⟨?_, ?_, ?_⟩
    · ext i hi
      simpa [hi] using hbit i
    · ext i hi
      have hi' := hbit (i + 36)
      rw [if_neg (by omega), if_pos (by omega), if_neg (by omega), if_pos (by omega)] at hi'
      simpa [hi, Nat.add_comm 20] using hi'
    · ext i hi
      have hi' := hbit (i + 56)
      rw [if_neg (by omega), if_neg (by omega), if_pos (by omega), if_neg (by omega),
        if_neg (by omega), if_pos (by omega)] at hi'
      simpa [hi, Nat.add_comm 40] using hi'
  · rintro ⟨hnum, hsecond, hbyte⟩
    apply BitVec.eq_of_getLsbD_eq
    intro i _
    simp only [getLsbD_uniqueId]
    split_ifs with hi hi'
    · have h := congrArg (·.getLsbD i) hnum
      simpa [hi] using h
    · have h := congrArg (·.getLsbD (i - 36)) hsecond
      simpa [show i - 36 < 20 by omega, show 20 + (i - 36) = i - 16 by omega] using h
    · have h := congrArg (·.getLsbD (i - 56)) hbyte
      simpa [show i - 56 < 8 by omega, show 40 + (i - 56) = i - 16 by omega] using h

/-! ### The ids of a run -/

section Run

variable {nums : BitVec 8 → BitVec 64} {calls : List IdCall}

/-- A call finds the counter of its thread advanced by the earlier calls of the thread. -/
theorem getElem?_generatedIds (nums : BitVec 8 → BitVec 64) (calls : List IdCall) (i : ℕ) :
    (generatedIds nums calls)[i]? =
      calls[i]?.map fun x => uniqueId x.threadNum x.currentTime (callNum nums calls i x) := by
  induction calls generalizing nums i with
  | nil => rfl
  | cons call calls ih =>
    rw [generatedIds]
    cases i with
    | zero => simp [nxwebGenerateUniqueId, callNum, callCount]
    | succ i =>
      rw [List.getElem?_cons_succ, List.getElem?_cons_succ, ih]
      congr 1
      funext x
      -- the first call has advanced the counter of its own thread only
      have hnum : callNum (nxwebGenerateUniqueId nums call).1 calls i x =
          callNum nums (call :: calls) (i + 1) x := by
        unfold callNum callCount nxwebGenerateUniqueId
        by_cases hx : call.threadNum = x.threadNum
        · simp only [hx, Function.update_self, List.take_succ_cons, List.countP_cons, decide_true,
            if_true, BitVec.ofNat_add]
          rw [BitVec.add_assoc, BitVec.add_comm 1]
          rfl
        · simp only [Function.update_of_ne (Ne.symm hx), List.take_succ_cons, List.countP_cons, hx,
            decide_false, Bool.false_eq_true, if_false, Nat.add_zero]
      rw [hnum]

theorem callNum_eq_add {i j : ℕ} (hij : i < j) (calls : List IdCall) {x y : IdCall}
    (hxy : x.threadNum = y.threadNum) :
    callNum nums calls j y = callNum nums calls i x +
      BitVec.ofNat 64 (callCount x.threadNum ((calls.take (j + 1)).drop (i + 1))) := by
  have hsplit : callCount x.threadNum (calls.take (j + 1)) =
      callCount x.threadNum (calls.take (i + 1)) +
        callCount x.threadNum ((calls.take (j + 1)).drop (i + 1)) := by
    have htake : calls.take (i + 1) = (calls.take (j + 1)).take (i + 1) := by
      rw [List.take_take, Nat.min_eq_left (by omega)]
    unfold callCount
    rw [htake, ← List.countP_append, List.take_append_drop]
  rw [callNum, callNum, ← hxy, hsplit, BitVec.ofNat_add, BitVec.add_assoc]

/-- The counter of a thread comes round after `2 ^ 36` calls. -/
theorem setWidth_add_ofNat_ne {n : BitVec 64} {k : ℕ} (hpos : 0 < k) (hlt : k < 2 ^ 36) :
    (n + BitVec.ofNat 64 k).setWidth 36 ≠ n.setWidth 36 := by
  intro h
  have hnat := congrArg BitVec.toNat h
  simp only [BitVec.toNat_setWidth, BitVec.toNat_add, BitVec.toNat_ofNat] at hnat
  omega

/-- The ids of a run are unique if and only if no two calls of different threads agree in all
fields. -/
theorem idsUnique_iff (nums : BitVec 8 → BitVec 64) (calls : List IdCall) :
    IdsUnique nums calls ↔
      ∀ i j x y, i < j → calls[i]? = some x → calls[j]? = some y → x.threadNum ≠ y.threadNum →
        (callNum nums calls i x).setWidth 36 = (callNum nums calls j y).setWidth 36 →
        x.second = y.second → x.threadNum ||| x.fortnight ≠ y.threadNum ||| y.fortnight := by
  have hids : ∀ {i j x y}, calls[i]? = some x → calls[j]? = some y →
      ((generatedIds nums calls)[i]? = (generatedIds nums calls)[j]? ↔
        (callNum nums calls i x).setWidth 36 = (callNum nums calls j y).setWidth 36 ∧
          x.second = y.second ∧ x.threadNum ||| x.fortnight = y.threadNum ||| y.fortnight) := by
    intro i j x y hi hj
    rw [getElem?_generatedIds, getElem?_generatedIds, hi, hj, Option.map_some, Option.map_some,
      Option.some_inj]
    exact uniqueId_eq_iff
  constructor
  · intro h i j x y hij hi hj hne hnum hsecond hbyte
    exact h i j x y hij hi hj (fun heq => absurd heq hne) ((hids hi hj).mpr ⟨hnum, hsecond, hbyte⟩)
  · intro h i j x y hij hi hj hclose heq
    obtain ⟨hnum, hsecond, hbyte⟩ := (hids hi hj).mp heq
    by_cases hne : x.threadNum = y.threadNum
    · -- the counters are the values of one counter, which are too close to agree
      have hpos : 0 < callCount x.threadNum ((calls.take (j + 1)).drop (i + 1)) := by
        refine List.countP_pos_iff.mpr ⟨y, ?_, by simp [hne]⟩
        apply List.mem_of_getElem? (i := j - (i + 1))
        rw [List.getElem?_drop, List.getElem?_take_of_lt (by omega)]
        rwa [show i + 1 + (j - (i + 1)) = j by omega]
      rw [callNum_eq_add hij calls hne] at hnum
      exact setWidth_add_ofNat_ne hpos (hclose hne) hnum.symm
    · exact h i j x y hij hi hj hne hnum hsecond hbyte

/-- While the clock is low, the thread has its byte for itself. -/
theorem idsUnique_of_lt (h : ∀ x ∈ calls, x.currentTime.toNat < 2 ^ 40) : IdsUnique nums calls := by
  have hclear : ∀ x ∈ calls, x.fortnight = 0#8 := by
    intro x hx
    apply BitVec.eq_of_toNat_eq
    have hlt := h x hx
    simp only [IdCall.fortnight, BitVec.extractLsb'_toNat, Nat.shiftRight_eq_div_pow]
    rw [Nat.div_eq_of_lt hlt]
    rfl
  refine (idsUnique_iff nums calls).mpr fun i j x y _ hi hj hne _ _ hbyte => hne ?_
  rwa [hclear x (List.mem_of_getElem? hi), hclear y (List.mem_of_getElem? hj), BitVec.or_zero,
    BitVec.or_zero] at hbyte

end Run

/-- After 13 days, the first thread generates the id that the second one has generated at first. -/
theorem not_idsUnique_fortnight : ¬ IdsUnique (fun _ => 0) [⟨1, 0⟩, ⟨0, 2 ^ 40⟩] := by
  intro h
  exact h 0 1 ⟨1, 0⟩ ⟨0, 2 ^ 40⟩ (by decide) rfl rfl (by decide) (by decide)

end Nxweb
