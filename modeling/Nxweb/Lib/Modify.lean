import Mathlib.Data.List.Basic
import Mathlib.Tactic

/-!
# Changing one element of a list

`List.modify` stands for a write through a pointer into a list of records. These lemmas say what such
a write leaves unchanged, and where it takes place.
-/

namespace Lib

variable {α β : Type*}

/-- A change of one element commutes with a map. -/
theorem map_modify {f : α → α} {e : β → β} {g : α → β} (h : ∀ a, g (f a) = e (g a))
    (l : List α) (k : ℕ) : (l.modify k f).map g = (l.map g).modify k e := by
  refine List.ext_getElem? fun i => ?_
  simp only [List.getElem?_map, List.getElem?_modify]
  cases l[i]? with
  | none => rfl
  | some a => by_cases hi : k = i <;> simp [hi, h]

/-- A map does not see a change that it does not see at any element. -/
theorem map_modify_of_eq {f : α → α} {g : α → β} (h : ∀ a, g (f a) = g a) (l : List α) (k : ℕ) :
    (l.modify k f).map g = l.map g :=
  (map_modify (e := id) h l k).trans (List.modify_id ..)

theorem modify_eq_self_of_mem {f : α → α} {l : List α} (h : ∀ a ∈ l, f a = a) (k : ℕ) :
    l.modify k f = l := by
  refine List.ext_getElem? fun i => ?_
  rw [List.getElem?_modify]
  cases ha : l[i]? with
  | none => rfl
  | some a => by_cases hi : k = i <;> simp [hi, h a (List.mem_of_getElem? ha)]

theorem modify_append_cons (f : α → α) (l₁ l₂ : List α) (a : α) :
    (l₁ ++ a :: l₂).modify l₁.length f = l₁ ++ f a :: l₂ := by
  induction l₁ with
  | nil => rfl
  | cons b l₁ ih => exact congrArg (b :: ·) ih

end Lib
