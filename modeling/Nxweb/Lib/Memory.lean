import Mathlib.Data.List.Range
import Mathlib.Tactic

/-!
# Flat memory

A memory is a map from addresses to cells. `readAt` reads a range of it, `writeAt` writes one. What
a range holds after a `writeAt` is known when the range is the one written (`readAt_writeAt`) or lies
apart from it (`readAt_writeAt_of_apart`), and ranges are cut with `readAt_add`.
-/

namespace Lib

variable {α : Type*} {mem : ℕ → α} {a b m n : ℕ} {data : List α}

/-- The cells `a`, `a + 1`, …, `a + n - 1`. -/
def readAt (mem : ℕ → α) (a n : ℕ) : List α :=
  (List.range' a n).map mem

/-- Write the cells from `a` on. -/
def writeAt (mem : ℕ → α) (a : ℕ) (data : List α) (x : ℕ) : α :=
  if a ≤ x then (data[x - a]?).getD (mem x) else mem x

/-- The `m` cells from `a` on and the `n` cells from `b` on have no cell in common. -/
def Apart (a m b n : ℕ) : Prop :=
  a + m ≤ b ∨ b + n ≤ a

instance : Decidable (Apart a m b n) := inferInstanceAs (Decidable (_ ∨ _))

theorem Apart.symm (h : Apart a m b n) : Apart b n a m :=
  Or.symm h

@[simp]
theorem length_readAt : (readAt mem a n).length = n := by
  simp [readAt]

theorem readAt_add : readAt mem a (m + n) = readAt mem a m ++ readAt mem (a + m) n := by
  rw [readAt, readAt, readAt, ← List.map_append, ← List.range'_append_1]

theorem readAt_congr {mem' : ℕ → α} (h : ∀ x, a ≤ x → x < a + n → mem x = mem' x) :
    readAt mem a n = readAt mem' a n := by
  refine List.map_congr_left fun x hx => ?_
  obtain ⟨hl, hr⟩ := List.mem_range'_1.mp hx
  exact h x hl hr

/-- The beginning of a range. -/
theorem readAt_take (h : m ≤ n) : (readAt mem a n).take m = readAt mem a m := by
  obtain ⟨k, rfl⟩ := Nat.exists_eq_add_of_le h
  rw [readAt_add]
  exact List.take_left' length_readAt

/-- The rest of a range. -/
theorem readAt_drop (h : m ≤ n) : (readAt mem a n).drop m = readAt mem (a + m) (n - m) := by
  obtain ⟨k, rfl⟩ := Nat.exists_eq_add_of_le h
  rw [readAt_add, Nat.add_sub_cancel_left]
  exact List.drop_left' length_readAt

theorem writeAt_nil : writeAt mem a [] = mem := by
  funext x
  simp [writeAt]

/-- What has been written is read back. -/
@[simp]
theorem readAt_writeAt : readAt (writeAt mem a data) a data.length = data := by
  refine List.ext_getElem (by simp) fun i hi hi' => ?_
  simp [readAt, writeAt, hi']

/-- A `writeAt` leaves what lies apart from it alone. -/
theorem readAt_writeAt_of_apart (h : Apart b n a data.length) :
    readAt (writeAt mem a data) b n = readAt mem b n := by
  refine readAt_congr fun x hl hr => ?_
  rw [writeAt]
  split
  next hx =>
    have hout : data.length ≤ x - a := by
      rcases h with h | h <;> omega
    rw [List.getElem?_eq_none hout, Option.getD_none]
  next => rfl

/-- Writing what is there changes nothing. -/
theorem writeAt_readAt : writeAt mem a (readAt mem a n) = mem := by
  funext x
  rw [writeAt]
  split
  next hx =>
    by_cases hn : x - a < n
    · simp [readAt, hn, Nat.add_sub_cancel' hx]
    · rw [List.getElem?_eq_none (by simpa using hn), Option.getD_none]
  next => rfl

end Lib
