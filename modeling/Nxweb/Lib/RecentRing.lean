import Mathlib.Data.List.Rotate

/-!
# The last entries of a log, kept in a ring

A list of cells is written at one index after another, and from the last cell the index goes back
to the first one. The cells then hold the last entries of the log of all writes, and the filling
they started with where the log is shorter than they are (`KeepsRecent`).

The cells in their own order are a permutation of the last entries, so what does not depend on
an order is the same for both (`KeepsRecent.perm_filter`).
-/

namespace Lib

variable {α : Type*}

/-- The last `n` entries of a log, all of them if there are fewer. -/
def recent (n : ℕ) (log : List α) : List α := log.drop (log.length - n)

@[simp]
theorem recent_nil (n : ℕ) : recent n ([] : List α) = [] := by
  simp [recent]

/-- Read from `idx` on, the cells hold the last entries of the log behind what is left of their
filling. -/
def KeepsRecent (cells : List α) (idx : ℕ) (filling : α) (log : List α) : Prop :=
  cells.rotate idx = (List.replicate cells.length filling ++ log).drop log.length

/-- A write at the index is the youngest entry, and takes the place of the oldest one. -/
theorem rotate_set_succ {cells : List α} {idx : ℕ} (h : idx < cells.length) (a : α) :
    (cells.set idx a).rotate (idx + 1) = (cells.rotate idx).tail ++ [a] := by
  have hsplit : cells = cells.take idx ++ cells[idx] :: cells.drop (idx + 1) := by
    rw [List.cons_getElem_drop_succ, List.take_append_drop]
  have hlen : (cells.take idx).length = idx := List.length_take_of_le h.le
  have hrotate : cells.rotate idx = cells[idx] :: cells.drop (idx + 1) ++ cells.take idx := by
    rw [List.rotate_eq_drop_append_take h.le, List.cons_getElem_drop_succ]
  have hset : cells.set idx a = cells.take idx ++ [a] ++ cells.drop (idx + 1) := by
    rw [List.set_eq_take_append_cons_drop, if_pos h, List.append_cons]
  have hidx : idx + 1 = (cells.take idx ++ [a]).length := by
    rw [List.length_append, hlen, List.length_singleton]
  rw [hset, hidx, List.rotate_append_length_eq, ← hidx, hrotate, List.cons_append, List.tail_cons,
    List.append_assoc]

/-- Cells that hold nothing but the filling keep the last entries of the empty log. -/
theorem keepsRecent_replicate (n idx : ℕ) (filling : α) :
    KeepsRecent (List.replicate n filling) idx filling [] := by
  simp [KeepsRecent]

/-- A write at the index, and the step to the next index, keep the last entries of the log with
what was written. -/
theorem KeepsRecent.write {cells log : List α} {idx : ℕ} {filling : α}
    (h : KeepsRecent cells idx filling log) (hidx : idx < cells.length) (a : α) :
    KeepsRecent (cells.set idx a) ((idx + 1) % cells.length) filling (log ++ [a]) := by
  have hmod : (cells.set idx a).rotate ((idx + 1) % cells.length) =
      (cells.set idx a).rotate (idx + 1) := by
    have := List.rotate_mod (cells.set idx a) (idx + 1)
    rwa [List.length_set] at this
  have hle : log.length + 1 ≤ (List.replicate cells.length filling ++ log).length := by
    rw [List.length_append, List.length_replicate]
    omega
  rw [KeepsRecent, hmod, rotate_set_succ hidx, h, List.tail_drop, List.length_set,
    List.length_append, List.length_singleton, ← List.append_assoc,
    List.drop_append_of_le_length hle]

/-- Without the filling, the cells are the last entries in another order. -/
theorem KeepsRecent.perm_filter {cells log : List α} {idx : ℕ} {filling : α}
    (h : KeepsRecent cells idx filling log) {p : α → Bool} (hp : p filling = false) :
    (cells.filter p).Perm ((recent cells.length log).filter p) := by
  have hrotate : ((cells.rotate idx).filter p).Perm (cells.filter p) :=
    (List.rotate_perm cells idx).filter p
  have hfilter : (cells.rotate idx).filter p = (recent cells.length log).filter p := by
    rw [h, List.drop_append, List.drop_replicate, List.filter_append, List.filter_replicate,
      List.length_replicate, recent]
    simp [hp]
  rw [← hfilter]
  exact hrotate.symm

end Lib
