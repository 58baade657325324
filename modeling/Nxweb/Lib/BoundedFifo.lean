import Mathlib.Data.List.Basic
import Mathlib.Tactic

/-!
# A bounded queue, and cells that hold one

`Fifo` is a queue together with all that went into it and all that came out of it. Its steps put
something in while there is room, and take the first thing out (`Fifo.Step`). Whatever is done to
it, what came out and what is in the queue is what went in, in that order (`Fifo.Step.ordered`).

Such a queue can be held in `n` cells by two indices that go round: `head` is the first cell that
is in use, `tail` the first one that is not. One cell always stays free, so that the indices are
equal for an empty queue only. `ringSpan` is the number of cells in use and `ringCells` what they
hold.
-/

namespace Lib

variable {α : Type*}

/-! ### Queues -/

/-- A queue, with all that went into it and all that came out of it. -/
@[ext]
structure Fifo (α : Type*) where
  queue : List α
  pushed : List α
  popped : List α

namespace Fifo

/-- What can be done to a queue that has room for `cap` things. -/
inductive Step (cap : ℕ) (f : Fifo α) : Fifo α → Prop
  /-- Nothing is done. -/
  | skip : Step cap f f
  /-- Something is put in while there is room. -/
  | push (x : α) (h : f.queue.length < cap) :
      Step cap f ⟨f.queue ++ [x], f.pushed ++ [x], f.popped⟩
  /-- The first thing is taken out. -/
  | pop (x : α) (q : List α) (h : f.queue = x :: q) : Step cap f ⟨q, f.pushed, f.popped ++ [x]⟩

/-- Everything comes out once and in order, and the queue is not too long. -/
structure Ordered (cap : ℕ) (f : Fifo α) : Prop where
  order : f.pushed = f.popped ++ f.queue
  fits : f.queue.length ≤ cap

/-- A step keeps the order. -/
theorem Step.ordered {cap : ℕ} {f f' : Fifo α} (h : Step cap f f') (hf : f.Ordered cap) :
    f'.Ordered cap := by
  obtain ⟨horder, hfits⟩ := hf
  cases h with
  | skip => exact ⟨horder, hfits⟩
  | push x hroom =>
    refine ⟨by rw [horder, List.append_assoc], ?_⟩
    rw [List.length_append, List.length_singleton]
    omega
  | pop x q hq =>
    rw [hq, List.length_cons] at hfits
    exact ⟨by rw [horder, hq, List.append_cons], (Nat.le_succ _).trans hfits⟩

end Fifo

/-! ### Indices -/

/-- The number of cells from `head` up to `tail`, going round. -/
def ringSpan (n head tail : ℕ) : ℕ :=
  if head ≤ tail then tail - head else tail + n - head

variable {n head tail : ℕ}

/-- An index that goes round once. -/
theorem add_mod_of_lt {k : ℕ} (hh : head < n) (hk : k ≤ n) :
    (head + k) % n = if head + k < n then head + k else head + k - n := by
  split_ifs with h
  · exact Nat.mod_eq_of_lt h
  · rw [Nat.mod_eq_sub_mod (by omega), Nat.mod_eq_of_lt (by omega)]

theorem ringSpan_lt (hh : head < n) (ht : tail < n) : ringSpan n head tail < n := by
  rw [ringSpan]
  split_ifs <;> omega

/-- The cells are all free exactly if the indices are equal. -/
theorem ringSpan_eq_zero_iff (hh : head < n) : ringSpan n head tail = 0 ↔ head = tail := by
  rw [ringSpan]
  split_ifs <;> omega

/-- The cells are full exactly if the index behind `tail` is `head`. -/
theorem ringSpan_eq_iff (hh : head < n) (ht : tail < n) :
    ringSpan n head tail = n - 1 ↔ head = (tail + 1) % n := by
  rw [ringSpan, add_mod_of_lt ht (by omega)]
  split_ifs <;> omega

/-- One more cell is in use. -/
theorem ringSpan_tail_succ (hh : head < n) (ht : tail < n)
    (hroom : ringSpan n head tail < n - 1) :
    ringSpan n head ((tail + 1) % n) = ringSpan n head tail + 1 := by
  rw [ringSpan, ringSpan, add_mod_of_lt ht (by omega)] at *
  split_ifs at * <;> omega

/-- One cell less is in use. -/
theorem ringSpan_head_succ (hh : head < n) (ht : tail < n) (hpos : 0 < ringSpan n head tail) :
    ringSpan n ((head + 1) % n) tail + 1 = ringSpan n head tail := by
  rw [ringSpan, ringSpan, add_mod_of_lt hh (by omega)] at *
  split_ifs at * <;> omega

/-- The first free cell is behind the cells in use. -/
theorem add_ringSpan_mod (hh : head < n) (ht : tail < n) :
    (head + ringSpan n head tail) % n = tail := by
  rw [add_mod_of_lt hh (ringSpan_lt hh ht).le, ringSpan]
  split_ifs <;> omega

/-- The first free cell is not in use. -/
theorem add_mod_ne_tail {k : ℕ} (hh : head < n) (ht : tail < n) (hk : k < ringSpan n head tail) :
    (head + k) % n ≠ tail := by
  have hspan := ringSpan_lt hh ht
  rw [add_mod_of_lt hh (by omega)]
  rw [ringSpan] at hk
  split_ifs at * <;> omega

/-! ### Cells -/

/-- What the cells in use hold, from the first one on. -/
def ringCells (cells : ℕ → α) (n head tail : ℕ) : List α :=
  (List.range (ringSpan n head tail)).map fun k => cells ((head + k) % n)

variable {cells : ℕ → α}

@[simp]
theorem length_ringCells : (ringCells cells n head tail).length = ringSpan n head tail := by
  simp [ringCells]

/-- A write to the first free cell does not change what the cells in use hold. -/
theorem ringCells_update_tail (hh : head < n) (ht : tail < n) (x : α) :
    ringCells (Function.update cells tail x) n head tail = ringCells cells n head tail := by
  refine List.map_congr_left fun k hk => ?_
  rw [Function.update_of_ne (add_mod_ne_tail hh ht (List.mem_range.mp hk))]

/-- With `tail` one cell further, what that cell holds is behind the rest. -/
theorem ringCells_tail_succ (hh : head < n) (ht : tail < n)
    (hroom : ringSpan n head tail < n - 1) :
    ringCells cells n head ((tail + 1) % n) = ringCells cells n head tail ++ [cells tail] := by
  rw [ringCells, ringSpan_tail_succ hh ht hroom, List.range_succ, List.map_append,
    List.map_singleton, add_ringSpan_mod hh ht, ringCells]

/-- With `head` one cell further, what the first cell held is gone. -/
theorem ringCells_head_succ (hh : head < n) (ht : tail < n) (hpos : 0 < ringSpan n head tail) :
    ringCells cells n head tail = cells head :: ringCells cells n ((head + 1) % n) tail := by
  rw [ringCells, ← ringSpan_head_succ hh ht hpos, List.range_succ_eq_map, List.map_cons,
    List.map_map, Nat.add_zero, Nat.mod_eq_of_lt hh, ringCells]
  refine congrArg _ (List.map_congr_left fun k _ => ?_)
  rw [Function.comp_apply, Nat.mod_add_mod, Nat.succ_eq_add_one, Nat.add_comm k, Nat.add_assoc]

end Lib
