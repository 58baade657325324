import Mathlib.Order.Filter.AtTopBot.Basic
import Nxweb.Lib.Machine

/-!
# Fair executions of a machine

An execution goes on forever. At each time an event happens or nothing does, so that a run that
stops is the beginning of an execution, too.

An execution is fair to an event that happens again and again if it can happen again and again
(`Execution.FairTo`). The rule `Execution.eventually` reasons about fair executions: a goal is
reached if a rank never grows before, the event makes it smaller, and the event becomes possible
again and again.
-/

namespace Lib

open Filter

variable {σ ε : Type*}

/-- An execution of a machine. -/
structure Execution (step : σ → ε → Option σ) where
  state : ℕ → σ
  /-- What happens at a time. -/
  event : ℕ → Option ε
  next : ∀ n, (event n).elim (some (state n)) (step (state n)) = some (state (n + 1))

namespace Execution

variable {step : σ → ε → Option σ} (x : Execution step)

/-- If the event can happen again and again, then it does. -/
def FairTo (e : ε) : Prop :=
  (∃ᶠ n in atTop, (step (x.state n) e).isSome) → ∃ᶠ n in atTop, x.event n = some e

/-- At each time nothing changes, or there is a step. -/
theorem next_cases (n : ℕ) :
    x.event n = none ∧ x.state (n + 1) = x.state n ∨
      ∃ e, x.event n = some e ∧ step (x.state n) e = some (x.state (n + 1)) := by
  have hnext := x.next n
  cases he : x.event n with
  | none =>
    rw [he] at hnext
    exact .inl ⟨rfl, (Option.some.inj hnext).symm⟩
  | some e =>
    rw [he] at hnext
    exact .inr ⟨e, rfl, hnext⟩

/-- What all steps keep holds from some time on. -/
theorem inv {I : σ → Prop} (hstep : ∀ s e s', I s → step s e = some s' → I s') {m n : ℕ}
    (hmn : m ≤ n) (hm : I (x.state m)) : I (x.state n) := by
  induction n, hmn using Nat.le_induction with
  | base => exact hm
  | succ n _ ih =>
    obtain ⟨-, heq⟩ | ⟨e, -, he⟩ := x.next_cases n
    · rwa [heq]
    · exact hstep _ e _ ih he

/-- Before the goal `Q` is reached, `R` stays true and the rank does not grow. -/
theorem until_goal {R Q : σ → Prop} {rank : σ → ℕ}
    (hstep : ∀ s e s', R s → step s e = some s' → Q s' ∨ R s' ∧ rank s' ≤ rank s) {m n : ℕ}
    (hmn : m ≤ n) (hm : R (x.state m)) (hnever : ∀ k ≥ m, ¬Q (x.state k)) :
    R (x.state n) ∧ rank (x.state n) ≤ rank (x.state m) := by
  induction n, hmn using Nat.le_induction with
  | base => exact ⟨hm, le_rfl⟩
  | succ n hmn ih =>
    obtain ⟨-, heq⟩ | ⟨e, -, he⟩ := x.next_cases n
    · rwa [heq]
    · obtain ⟨hR, hrank⟩ := (hstep _ e _ ih.1 he).resolve_left (hnever _ (Nat.le_succ_of_le hmn))
      exact ⟨hR, hrank.trans ih.2⟩

/-- The goal `Q` is reached if the rank does not grow before, the event `e` makes it smaller, and
`e` can happen again and again. -/
theorem eventually {e : ε} (hfair : x.FairTo e) {R Q : σ → Prop} {rank : σ → ℕ}
    (hstep : ∀ s e' s', R s → step s e' = some s' →
      Q s' ∨ R s' ∧ (rank s' < rank s ∨ e' ≠ e ∧ rank s' ≤ rank s))
    (henabled : ∀ n, R (x.state n) → ∃ m ≥ n, Q (x.state m) ∨ (step (x.state m) e).isSome)
    {n : ℕ} (hn : R (x.state n)) : ∃ m ≥ n, Q (x.state m) := by
  induction hr : rank (x.state n) using Nat.strong_induction_on generalizing n with
  | h r ih =>
    by_contra! hnever
    have hkeep : ∀ m ≥ n, R (x.state m) ∧ rank (x.state m) ≤ rank (x.state n) := fun m hm =>
      x.until_goal (fun s e' s' hR he =>
        (hstep s e' s' hR he).imp_right (And.imp_right (Or.elim · le_of_lt And.right))) hm hn hnever
    -- so the event can happen again and again, and happens once more
    have henabled' : ∃ᶠ m in atTop, (step (x.state m) e).isSome := by
      refine frequently_atTop.mpr fun a => ?_
      obtain ⟨m, hm, hQ | hsome⟩ := henabled (max a n) (hkeep _ (le_max_right a n)).1
      · exact absurd hQ (hnever m ((le_max_right a n).trans hm))
      · exact ⟨m, (le_max_left a n).trans hm, hsome⟩
    obtain ⟨m, hm, hevent⟩ := frequently_atTop.mp (hfair henabled') n
    have he : step (x.state m) e = some (x.state (m + 1)) := by
      have hnext := x.next m
      rwa [hevent] at hnext
    obtain ⟨hR, hrank⟩ := (hstep _ _ _ (hkeep m hm).1 he).resolve_left
      (hnever _ (Nat.le_succ_of_le hm))
    have hless : rank (x.state (m + 1)) < rank (x.state m) :=
      hrank.resolve_right fun hne => hne.1 rfl
    obtain ⟨k, hk, hQ⟩ := ih _ (hr ▸ hless.trans_le (hkeep m hm).2) hR rfl
    exact hnever k ((Nat.le_succ_of_le hm).trans hk) hQ

end Execution

end Lib
