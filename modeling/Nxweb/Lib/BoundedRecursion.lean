import Mathlib.Data.Fintype.Card
import Mathlib.Data.List.Forall2
import Mathlib.Data.Set.Finite.Basic
import Mathlib.Logic.Relation
import Mathlib.Tactic

/-!
# When a recursion terminates

`R a b` says that a recursion that is called with `a` calls itself with `b`, and `ok n a` that the
call with `a` succeeds when the depth of the recursion is bounded by `n`. Where each call makes
finitely many others, some bound is enough for `a` exactly if `a` is accessible
(`Calls.exists_depth_iff_acc`). Where only finitely many calls can be reached, this is so exactly if
none of them leads back to itself (`acc_iff_forall_not_cycle`). A call that makes a list of others
succeeds if all of these do (`isSome_mapM_iff`).
-/

namespace Lib

open Relation

variable {α : Type*} {R : α → α → Prop}

/-- A call succeeds with a bound if all calls it makes do with a smaller one. `V` are the calls that
can be made at all. -/
structure Calls (R : α → α → Prop) (V : α → Prop) (ok : ℕ → α → Prop) : Prop where
  zero : ∀ a, ¬ ok 0 a
  succ : ∀ n a, V a → (ok (n + 1) a ↔ ∀ b, R a b → ok n b)
  valid : ∀ a b, V a → R a b → V b

variable {V : α → Prop} {ok : ℕ → α → Prop}

/-- What succeeds with a bound also succeeds with a larger one. -/
theorem Calls.mono (h : Calls R V ok) {n k : ℕ} {a : α} (ha : V a) (hok : ok n a) (hle : n ≤ k) :
    ok k a := by
  induction n generalizing a k with
  | zero => exact absurd hok (h.zero a)
  | succ n ih =>
    obtain ⟨k, rfl⟩ : ∃ j, k = j + 1 := ⟨k - 1, by omega⟩
    rw [h.succ k a ha]
    intro b hb
    exact ih (h.valid a b ha hb) ((h.succ n a ha).mp hok b hb) (by omega)

/-- A recursion terminates exactly if there is no infinite chain of calls. -/
theorem Calls.exists_depth_iff_acc (h : Calls R V ok) (hfin : ∀ a, V a → {b | R a b}.Finite) {a : α}
    (ha : V a) : (∃ n, ok n a) ↔ Acc (flip R) a := by
  constructor
  · rintro ⟨n, hok⟩
    induction n generalizing a with
    | zero => exact absurd hok (h.zero a)
    | succ n ih =>
      exact Acc.intro a fun b hb => ih (h.valid a b ha hb) ((h.succ n a ha).mp hok b hb)
  · intro hacc
    induction hacc with
    | intro a _ ih =>
      have hdepth : ∀ b ∈ {b | R a b}, ∃ n, ok n b := fun b hb => ih b hb (h.valid a b ha hb)
      choose! depth hdepth using hdepth
      obtain ⟨n, hn⟩ := ((hfin a ha).image depth).bddAbove
      refine ⟨n + 1, (h.succ n a ha).mpr fun b hb => ?_⟩
      exact h.mono (h.valid a b ha hb) (hdepth b hb) (hn ⟨b, hb, rfl⟩)

/-- A list of calls succeeds with what each of them gives. -/
theorem mapM_eq_some_iff {β γ : Type*} {f : β → Option γ} {l : List β} {l' : List γ} :
    l.mapM f = some l' ↔ List.Forall₂ (fun b c => f b = some c) l l' := by
  induction l generalizing l' with
  | nil => simp [eq_comm]
  | cons b l ih =>
    simp only [List.mapM_cons, Option.pure_def, Option.bind_eq_bind, Option.bind_eq_some_iff,
      Option.some.injEq, List.forall₂_cons_left_iff, ih]
    constructor
    · rintro ⟨c, hc, l', hl', rfl⟩
      exact ⟨c, l', hc, hl', rfl⟩
    · rintro ⟨c, l', hc, hl', rfl⟩
      exact ⟨c, hc, l', hl', rfl⟩

/-- A list of calls succeeds if all of them do. -/
theorem isSome_mapM_iff {β γ : Type*} {f : β → Option γ} {l : List β} :
    (l.mapM f).isSome ↔ ∀ b ∈ l, (f b).isSome := by
  induction l with
  | nil => simp
  | cons b l ih =>
    simp only [List.mapM_cons, Option.pure_def, Option.bind_eq_bind, List.forall_mem_cons, ← ih]
    cases f b with
    | none => simp
    | some c => cases l.mapM f <;> simp

/-- What is accessible is not called by itself. -/
theorem not_cycle_of_acc {r : α → α → Prop} {a : α} (h : Acc r a) : ¬ r a a := by
  induction h with
  | intro a _ ih => exact fun haa => ih a haa haa

/-- If finitely many calls can be reached from `a`, it is accessible exactly if none of them leads
back to itself. -/
theorem acc_iff_forall_not_cycle {a : α} (hfin : {b | ReflTransGen R a b}.Finite) :
    Acc (flip R) a ↔ ∀ b, ReflTransGen R a b → ¬ TransGen R b b := by
  constructor
  · intro hacc b hab
    have hb : Acc (flip R) b := by
      induction hab with
      | refl => exact hacc
      | tail _ hstep ih => exact ih.inv hstep
    exact fun hcycle => not_cycle_of_acc hb.transGen (transGen_swap.mpr hcycle)
  · intro hcycle
    have : Finite {b // ReflTransGen R a b} := hfin
    let above : {b // ReflTransGen R a b} → {b // ReflTransGen R a b} → Prop :=
      fun c b => TransGen R b.1 c.1
    have : IsTrans _ above := ⟨fun _ _ _ hcb hba => hba.trans hcb⟩
    have : Std.Irrefl above := ⟨fun b => hcycle b.1 b.2⟩
    have hwf := Finite.wellFounded_of_trans_of_irrefl above
    suffices hall : ∀ b : {b // ReflTransGen R a b}, Acc (flip R) b.1 from hall ⟨a, .refl⟩
    intro b
    induction b using hwf.induction with
    | _ b ih =>
      exact Acc.intro b.1 fun c hbc => ih ⟨c, b.2.tail hbc⟩ (.single hbc)

end Lib
