import Mathlib.Data.List.Infix
import Mathlib.Data.Nat.Find

/-!
# The first occurrence of a pattern

A pattern occurs in a text at the places where the text has it as a prefix of what is left there.
Its first occurrence splits the text in two. The split does not change when the text is continued, so
that a search which has found it need not be repeated.
-/

namespace Lib

variable {α : Type} {pat u : List α} {i j : ℕ}

/-- The pattern occurs at this place and at none in front of it. -/
structure FirstAt (pat u : List α) (i : ℕ) : Prop where
  occurs : pat <+: u.drop i
  first : ∀ j < i, ¬ pat <+: u.drop j

namespace FirstAt

theorem unique (h : FirstAt pat u i) (h' : FirstAt pat u j) : i = j := by
  rcases Nat.lt_trichotomy i j with hlt | heq | hlt
  · exact absurd h.occurs (h'.first i hlt)
  · exact heq
  · exact absurd h'.occurs (h.first j hlt)

theorem zero (h : pat <+: u) : FirstAt pat u 0 := ⟨h, fun _ hj => absurd hj (Nat.not_lt_zero _)⟩

/-- Where the pattern does not occur at once, the search goes on behind the first element. -/
theorem cons_iff {c : α} (h : ¬ pat <+: c :: u) : FirstAt pat (c :: u) (i + 1) ↔ FirstAt pat u i := by
  constructor
  · intro hfirst
    exact ⟨hfirst.occurs, fun j hj => hfirst.first (j + 1) (Nat.succ_lt_succ hj)⟩
  · rintro ⟨hoccurs, hfirst⟩
    refine ⟨hoccurs, fun j hj => ?_⟩
    cases j with
    | zero => exact h
    | succ j => exact hfirst j (Nat.lt_of_succ_lt_succ hj)

theorem ne_zero (h : FirstAt pat u i) (hpat : ¬ pat <+: u) : i ≠ 0 := by
  rintro rfl
  exact hpat h.occurs

theorem le_length (h : FirstAt pat u i) : i ≤ u.length := by
  rcases Nat.lt_or_ge u.length i with hlt | hle
  · -- nothing is left there, so that the pattern is empty
    have hocc := h.occurs
    rw [List.drop_eq_nil_of_le hlt.le, List.prefix_nil] at hocc
    exact absurd (hocc ▸ List.nil_prefix) (h.first 0 (by omega))
  · exact hle

/-- The text in front of the occurrence and the text behind it. -/
theorem eq_append (h : FirstAt pat u i) : u = u.take i ++ pat ++ u.drop (i + pat.length) := by
  have hsplit := (List.prefix_iff_eq_append.mp h.occurs).symm
  rw [List.drop_drop] at hsplit
  rw [List.append_assoc, ← hsplit, List.take_append_drop]

/-- What is appended to the text does not matter. -/
theorem append (h : FirstAt pat u i) (v : List α) : FirstAt pat (u ++ v) i := by
  have hi := h.le_length
  have hlen := h.occurs.length_le
  rw [List.length_drop] at hlen
  refine ⟨?_, fun j hj hocc => h.first j hj ?_⟩
  · rw [List.drop_append_of_le_length hi]
    exact h.occurs.trans (List.prefix_append _ _)
  · -- an earlier occurrence ends in front of what is appended
    rw [List.drop_append_of_le_length (by omega)] at hocc
    apply List.prefix_of_prefix_length_le hocc (List.prefix_append _ _)
    rw [List.length_drop]
    omega

end FirstAt

/-- Where there is an occurrence, there is a first one. -/
theorem exists_firstAt (h : pat <+: u.drop j) : ∃ i, FirstAt pat u i := by
  classical
  have hex : ∃ j, pat <+: u.drop j := ⟨j, h⟩
  exact ⟨Nat.find hex, Nat.find_spec hex, fun _ hj => Nat.find_min hex hj⟩

end Lib
