import Mathlib.Logic.Relation
import Mathlib.Tactic

/-!
# Loops that may fault

A loop is given by what one turn of it does: it goes on in a new state, returns, or commits a
fault, after which nothing can be said. A loop ends if it returns after finitely many turns.

## Main results

* `loopEnds_of_measure`: a loop ends if no turn faults and each turn decreases a measure;
* `exists_reaches_of_measure`: a loop reaches what its turns come closer to;
* `not_loopEnds_of_inv`: a loop that keeps going does not end;
* `not_loopEnds_of_reaches_fault`: neither does one that reaches a fault.
-/

namespace Lib

open Relation

/-- What one turn of a loop does. -/
inductive Turn (σ ρ : Type*) where
  | next (s : σ)
  | ret (r : ρ)
  | fault
  deriving DecidableEq, Repr

/-- A turn that may fail on the way. -/
def Turn.orFault {σ ρ : Type*} (x : Option (Turn σ ρ)) : Turn σ ρ := x.getD .fault

variable {σ ρ : Type*} {turn : σ → Turn σ ρ} {I : σ → Prop} {s s' : σ}

/-- The loop, with at most so many turns. -/
def loop (turn : σ → Turn σ ρ) : ℕ → σ → Option ρ
  | 0, _ => none
  | fuel + 1, s =>
    match turn s with
    | .next s' => loop turn fuel s'
    | .ret r => some r
    | .fault => none

/-- The states that turns of the loop lead to. -/
def LoopReaches (turn : σ → Turn σ ρ) : σ → σ → Prop :=
  ReflTransGen fun s s' => turn s = .next s'

/-- The loop returns after finitely many turns. -/
def LoopEnds (turn : σ → Turn σ ρ) (s : σ) : Prop := ∃ fuel r, loop turn fuel s = some r

theorem orFault_eq_next {x : Option (Turn σ ρ)} (h : Turn.orFault x = .next s') :
    x = some (.next s') := by
  cases x with
  | none => cases h
  | some t => exact congrArg some h

theorem orFault_eq_ret {x : Option (Turn σ ρ)} {r : ρ} (h : Turn.orFault x = .ret r) :
    x = some (.ret r) := by
  cases x with
  | none => cases h
  | some t => exact congrArg some h

theorem loop_of_next (h : turn s = .next s') (fuel : ℕ) :
    loop turn (fuel + 1) s = loop turn fuel s' := by
  rw [loop, h]

theorem loop_of_ret {r : ρ} (h : turn s = .ret r) (fuel : ℕ) :
    loop turn (fuel + 1) s = some r := by
  rw [loop, h]

theorem loopEnds_of_ret {r : ρ} (h : turn s = .ret r) : LoopEnds turn s :=
  ⟨1, r, loop_of_ret h 0⟩

/-- What a loop returns does not depend on the number of turns it may take. -/
theorem loop_unique {n n' : ℕ} {r r' : ρ} (h : loop turn n s = some r)
    (h' : loop turn n' s = some r') : r = r' := by
  induction n generalizing n' s with
  | zero => cases h
  | succ n ih =>
    cases n' with
    | zero => cases h'
    | succ n' =>
      cases hturn : turn s with
      | fault => simp [loop, hturn] at h
      | ret r₁ =>
        rw [loop_of_ret hturn] at h h'
        exact Option.some.inj (h.symm.trans h')
      | next s' =>
        rw [loop_of_next hturn] at h h'
        exact ih h h'

/-- A loop returns what it returns after one turn. -/
theorem loop_eq_some_iff_of_next {r : ρ} (h : turn s = .next s') :
    (∃ fuel, loop turn fuel s = some r) ↔ ∃ fuel, loop turn fuel s' = some r := by
  constructor
  · rintro ⟨fuel, hloop⟩
    cases fuel with
    | zero => exact absurd hloop (by simp [loop])
    | succ fuel =>
      rw [loop_of_next h] at hloop
      exact ⟨fuel, hloop⟩
  · rintro ⟨fuel, hloop⟩
    exact ⟨fuel + 1, (loop_of_next h fuel).trans hloop⟩

/-- A loop returns what it returns from a state that it reaches. -/
theorem loop_eq_some_iff_of_reaches {r : ρ} (hreach : LoopReaches turn s s') :
    (∃ fuel, loop turn fuel s = some r) ↔ ∃ fuel, loop turn fuel s' = some r := by
  induction hreach with
  | refl => rfl
  | tail _ hnext ih => exact ih.trans (loop_eq_some_iff_of_next hnext)

/-- A loop ends if it does so from a state that it reaches. -/
theorem loopEnds_iff_of_reaches (hreach : LoopReaches turn s s') :
    LoopEnds turn s ↔ LoopEnds turn s' := by
  rw [LoopEnds, LoopEnds, exists_comm, exists_comm (α := ℕ)]
  exact exists_congr fun r => loop_eq_some_iff_of_reaches hreach

/-- A loop ends if it does so after one turn. -/
theorem loopEnds_iff_of_next (h : turn s = .next s') : LoopEnds turn s ↔ LoopEnds turn s' :=
  loopEnds_iff_of_reaches (ReflTransGen.single h)

/-- What every turn keeps holds in all states that are reached. -/
theorem LoopReaches.inv (h : LoopReaches turn s s') (hs : I s)
    (hturn : ∀ s s', I s → turn s = .next s' → I s') : I s' := by
  induction h with
  | refl => exact hs
  | tail _ hnext ih => exact hturn _ _ ih hnext

/-- A loop ends if no turn faults and each turn decreases a measure, in the states that are
reached. -/
theorem loopEnds_of_measure (μ : σ → ℕ)
    (hturn : ∀ s', LoopReaches turn s s' → turn s' ≠ .fault ∧
      ∀ s'', turn s' = .next s'' → μ s'' < μ s') : LoopEnds turn s := by
  induction hm : μ s using Nat.strong_induction_on generalizing s with
  | _ m ih =>
    obtain ⟨hfault, hdecr⟩ := hturn s ReflTransGen.refl
    cases hs : turn s with
    | fault => exact absurd hs hfault
    | ret r => exact loopEnds_of_ret hs
    | next s' =>
      have hlt : μ s' < m := hm ▸ hdecr s' hs
      rw [loopEnds_iff_of_next hs]
      apply ih (μ s') hlt _ rfl
      intro s'' hreach
      exact hturn s'' (ReflTransGen.head hs hreach)

/-- A loop reaches a state with the property `P` if every other state with the invariant has a
next one with the invariant and a smaller measure. -/
theorem exists_reaches_of_measure {P : σ → Prop} {J : σ → ℕ → Prop}
    (hturn : ∀ s m, J s m → ¬ P s → ∃ s' m', turn s = .next s' ∧ J s' m' ∧ m' < m) {m : ℕ}
    (hs : J s m) : ∃ s' m', LoopReaches turn s s' ∧ J s' m' ∧ P s' := by
  induction m using Nat.strong_induction_on generalizing s with
  | _ m ih =>
    by_cases hP : P s
    · exact ⟨s, m, ReflTransGen.refl, hs, hP⟩
    · obtain ⟨s₁, m₁, hnext, hs₁, hlt⟩ := hturn s m hs hP
      obtain ⟨s', m', hreach, hs', hP'⟩ := ih m₁ hlt hs₁
      exact ⟨s', m', ReflTransGen.head hnext hreach, hs', hP'⟩

/-- A loop whose states all lead to further ones does not end. -/
theorem not_loopEnds_of_inv (hturn : ∀ s, I s → ∃ s', turn s = .next s' ∧ I s') (hs : I s) :
    ¬ LoopEnds turn s := by
  rintro ⟨fuel, r, hloop⟩
  induction fuel generalizing s with
  | zero => exact absurd hloop (by simp [loop])
  | succ fuel ih =>
    obtain ⟨s', hnext, hs'⟩ := hturn s hs
    rw [loop_of_next hnext] at hloop
    exact ih hs' hloop

/-- A loop that reaches a fault does not end. -/
theorem not_loopEnds_of_reaches_fault (hreach : LoopReaches turn s s') (hfault : turn s' = .fault) :
    ¬ LoopEnds turn s := by
  induction hreach using ReflTransGen.head_induction_on with
  | refl =>
    rintro ⟨fuel, r, hloop⟩
    cases fuel <;> simp [loop, hfault] at hloop
  | head hnext _ ih => rwa [loopEnds_iff_of_next hnext]

end Lib
