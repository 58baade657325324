import Mathlib.Data.List.Infix
import Mathlib.Tactic

/-!
# Runs of a machine

A machine has states `σ` and events `ε`, and a step function that says what an event does in a
state, or that the event cannot happen there. A run is a list of events.

`Along` says that every transition of a run has a property. Two rules reason about it: an
invariant turns a property of single transitions into one of all runs (`along_of_step`, and
`along_of_inv` for runs with a property that is known), and two
properties that agree wherever an invariant holds agree along all runs (`along_iff`). What a run
leads to is `run`, with its own invariant rule (`run_inv`). A measure that never decreases is the
same at the end of a run if and only if no transition has increased it (`measure_eq_iff_along`).
-/

namespace Lib

variable {σ ε : Type*}

/-- The state after a run, `none` if some event cannot happen. -/
def run (step : σ → ε → Option σ) : σ → List ε → Option σ
  | s, [] => some s
  | s, e :: es => (step s e).bind fun s' => run step s' es

/-- Every transition of the run, up to an event that cannot happen, has the property. -/
def Along (step : σ → ε → Option σ) (P : σ → ε → σ → Prop) : σ → List ε → Prop
  | _, [] => True
  | s, e :: es => ∀ s', step s e = some s' → P s e s' ∧ Along step P s' es

/-- What holds along a given run can be checked. -/
instance Along.decidable (step : σ → ε → Option σ) (P : σ → ε → σ → Prop)
    [∀ s e s', Decidable (P s e s')] (s : σ) (es : List ε) : Decidable (Along step P s es) :=
  match es with
  | [] => isTrue trivial
  | e :: es =>
    match h : step s e with
    | none => isTrue fun s' hs' => by simp [h] at hs'
    | some s' =>
      have := Along.decidable step P s' es
      decidable_of_iff (P s e s' ∧ Along step P s' es) <| by
        simp [Along, h]

variable {step : σ → ε → Option σ} {P Q : σ → ε → σ → Prop} {I : σ → Prop}

theorem run_single {s s' : σ} {e : ε} (h : step s e = some s') : run step s [e] = some s' :=
  Option.bind_eq_some_iff.mpr ⟨s', h, rfl⟩

/-- A run continues where the one before it has led to. -/
theorem run_append {s s' s'' : σ} {es es' : List ε} (h : run step s es = some s')
    (h' : run step s' es' = some s'') : run step s (es ++ es') = some s'' := by
  induction es generalizing s with
  | nil =>
    obtain rfl := Option.some.inj h
    exact h'
  | cons e es ih =>
    obtain ⟨s₁, hs₁, hrest⟩ := Option.bind_eq_some_iff.mp h
    exact Option.bind_eq_some_iff.mpr ⟨s₁, hs₁, ih hrest⟩

/-- Two properties hold along a run together. -/
theorem Along.and {s : σ} {es : List ε} (hP : Along step P s es) (hQ : Along step Q s es) :
    Along step (fun s e s' => P s e s' ∧ Q s e s') s es := by
  induction es generalizing s with
  | nil => trivial
  | cons e es ih =>
    intro s' hs'
    obtain ⟨hPs, hPrest⟩ := hP s' hs'
    obtain ⟨hQs, hQrest⟩ := hQ s' hs'
    exact ⟨⟨hPs, hQs⟩, ih hPrest hQrest⟩

/-- What holds along a run holds along its rest. -/
theorem Along.of_run {s s' : σ} {es es' : List ε} (h : Along step P s (es ++ es'))
    (hrun : run step s es = some s') : Along step P s' es' := by
  induction es generalizing s with
  | nil =>
    obtain rfl := Option.some.inj hrun
    exact h
  | cons e es ih =>
    obtain ⟨s₁, hs₁, hrest⟩ := Option.bind_eq_some_iff.mp hrun
    exact ih (h s₁ hs₁).2 hrest

/-- The state after a run has what all steps keep. -/
theorem run_inv (hstep : ∀ s e s', I s → step s e = some s' → I s') {s s' : σ} {es : List ε}
    (hs : I s) (hrun : run step s es = some s') : I s' := by
  induction es generalizing s with
  | nil =>
    obtain rfl := Option.some.inj hrun
    exact hs
  | cons e es ih =>
    obtain ⟨s₁, hs₁, hrest⟩ := Option.bind_eq_some_iff.mp hrun
    exact ih (hstep s e s₁ hs hs₁) hrest

/-- Along a run on which `Q` holds, what every `Q` transition keeps holds and so does what it
guarantees. -/
theorem along_of_inv
    (hstep : ∀ s e s', I s → step s e = some s' → Q s e s' → P s e s' ∧ I s') {s : σ}
    {es : List ε} (hs : I s) (hQ : Along step Q s es) : Along step P s es := by
  induction es generalizing s with
  | nil => trivial
  | cons e es ih =>
    intro s' hs'
    obtain ⟨hQs, hrest⟩ := hQ s' hs'
    obtain ⟨hP, hI⟩ := hstep s e s' hs hs' hQs
    exact ⟨hP, ih hI hrest⟩

/-- What every step guarantees in a state with the invariant, and keeps, holds along every run. -/
theorem along_of_step (hstep : ∀ s e s', I s → step s e = some s' → P s e s' ∧ I s') {s : σ}
    (es : List ε) (hs : I s) : Along step P s es := by
  induction es generalizing s with
  | nil => trivial
  | cons e es ih =>
    intro s' hs'
    obtain ⟨hP, hI⟩ := hstep s e s' hs hs'
    exact ⟨hP, ih hI⟩

/-- The state after a run on which `Q` holds has what every `Q` transition keeps. -/
theorem run_inv_of_along (hstep : ∀ s e s', I s → step s e = some s' → Q s e s' → I s')
    {s s' : σ} {es : List ε} (hs : I s) (hQ : Along step Q s es)
    (hrun : run step s es = some s') : I s' := by
  induction es generalizing s with
  | nil =>
    obtain rfl := Option.some.inj hrun
    exact hs
  | cons e es ih =>
    obtain ⟨s₁, hs₁, hrest⟩ := Option.bind_eq_some_iff.mp hrun
    obtain ⟨hQs, hQrest⟩ := hQ s₁ hs₁
    exact ih (hstep s e s₁ hs hs₁ hQs) hQrest hrest

/-- Properties that agree on every transition from a state with the invariant, and keep it,
agree along every run. -/
theorem along_iff
    (hstep : ∀ s e s', I s → step s e = some s' → (P s e s' ↔ Q s e s') ∧ (P s e s' → I s'))
    {s : σ} (es : List ε) (hs : I s) : Along step P s es ↔ Along step Q s es := by
  constructor
  · refine along_of_inv (fun s e s' hI hs' hP => ?_) hs
    obtain ⟨hiff, hkeep⟩ := hstep s e s' hI hs'
    exact ⟨hiff.mp hP, hkeep hP⟩
  · refine along_of_inv (fun s e s' hI hs' hQ => ?_) hs
    obtain ⟨hiff, hkeep⟩ := hstep s e s' hI hs'
    exact ⟨hiff.mpr hQ, hkeep (hiff.mpr hQ)⟩

/-- A measure that no transition decreases is unchanged by a run exactly if every transition of
the run leaves it unchanged. -/
theorem measure_eq_iff_along {D : σ → ℕ}
    (hstep : ∀ s e s', I s → step s e = some s' → I s' ∧ D s ≤ D s' ∧ (D s' = D s ↔ Q s e s'))
    {s s' : σ} {es : List ε} (hs : I s) (hrun : run step s es = some s') :
    D s ≤ D s' ∧ (D s' = D s ↔ Along step Q s es) := by
  induction es generalizing s with
  | nil =>
    obtain rfl := Option.some.inj hrun
    exact ⟨le_rfl, fun _ => trivial, fun _ => rfl⟩
  | cons e es ih =>
    obtain ⟨s₁, hs₁, hrest⟩ := Option.bind_eq_some_iff.mp hrun
    obtain ⟨hI, hle, hiff⟩ := hstep s e s₁ hs hs₁
    obtain ⟨hle', hiff'⟩ := ih hI hrest
    refine ⟨hle.trans hle', fun heq => ?_, fun hall => ?_⟩
    · intro s₂ hs₂
      obtain rfl := Option.some.inj (hs₁.symm.trans hs₂)
      exact ⟨hiff.mp (by omega), hiff'.mp (by omega)⟩
    · obtain ⟨hQ, hall'⟩ := hall s₁ hs₁
      rw [hiff'.mpr hall', hiff.mpr hQ]

end Lib
