import Nxweb.Event.Streams

/-!
# Streams lose no wake-up

Whenever both ends of a pair are ready, the event of the pair is on the queue or the pair is the
one whose event is being delivered. The invariant is stated with a set of pairs that are exempt
from this, and every operation says which exemptions it ends.

While a pair is being delivered, four calls end its exemption: making an end of it not ready,
disconnecting it, and making its output stream ready. After any of them the event is on the queue
again if the pair is busy, and then it must not be queued a second time, which is what
`stream_event_deliver` attempts when it has used up its fifty rounds.
-/

namespace Nxweb

open Lib

variable {ι ο : Type*} [DecidableEq ι] [DecidableEq ο]

/-- The call makes an end of the pair not ready, or its output stream ready, or ends the pair. -/
def StreamOp.disturbs (i : ι) (o : ο) : StreamOp ι ο → Bool
  | .connect _ _ => false
  | .disconnect i' o' => i' = i && o' = o
  | .isSetReady _ => false
  | .isUnsetReady i' => i' = i
  | .osSetReady o' => o' = o
  | .osUnsetReady o' => o' = o

namespace StreamLoop

/-- Pairs are symmetric, the queue holds events of pairs only, addressed to them, and the events of
all pairs with two ready ends that are not exempt. -/
structure Inv (exempt : ι → ο → Prop) (s : StreamLoop ι ο) : Prop where
  queue : ∃ l, s.queue.Holds l ∧ ∀ i, i ∈ l ↔ s.linked i = true
  symm : ∀ i o, s.isPair i = some o ↔ s.osPair o = some i
  addressed : ∀ i, s.linked i = true → ∃ o, s.isPair i = some o ∧ s.receiver i = some o
  wake : ∀ i o, s.isPair i = some o → s.isReady i = true → s.osReady o = true →
    s.linked i = true ∨ exempt i o

variable {s s' : StreamLoop ι ο} {exempt : ι → ο → Prop} {i : ι} {o : ο}

section Operations

omit [DecidableEq ι] [DecidableEq ο] in
/-- A stream without a pair has no event on the queue. -/
theorem Inv.linked_eq_false (h : s.Inv exempt) (hi : s.isPair i = none) : s.linked i = false := by
  by_contra hne
  obtain ⟨o, ho, -⟩ := h.addressed i (by simpa using hne)
  simp [hi] at ho

omit [DecidableEq ο] in
/-- Queueing the event of a pair does not fail if it is not queued, and ends the exemption of the
pair. -/
theorem Inv.emit (h : s.Inv fun i' o' => exempt i' o' ∨ i' = i ∧ o' = o)
    (hpair : s.isPair i = some o) (hlinked : s.linked i = false) :
    s.emit i o = .ok { s with
        receiver := Function.update s.receiver i (some o)
        queue := s.queue.pushBack i
        linked := Function.update s.linked i true } ∧
      Inv exempt { s with
        receiver := Function.update s.receiver i (some o)
        queue := s.queue.pushBack i
        linked := Function.update s.linked i true } := by
  refine ⟨by simp [StreamLoop.emit, link, hlinked], ?_, h.symm, fun i' hi' => ?_,
    fun i' o' hp hir hor => ?_⟩
  · obtain ⟨l, hl, hmem⟩ := h.queue
    have hout : i ∉ l := fun hin => by simp [(hmem i).mp hin] at hlinked
    refine ⟨l ++ [i], hl.pushBack hout, fun i' => ?_⟩
    by_cases heq : i' = i
    · simp [heq]
    · simpa [heq] using hmem i'
  · by_cases heq : i' = i
    · subst heq
      exact ⟨o, hpair, by simp⟩
    · simpa [heq] using h.addressed i' (by simpa [heq] using hi')
  · by_cases heq : i' = i
    · exact .inl (by simp [heq])
    · rcases h.wake i' o' hp hir hor with hw | hw | ⟨hw, -⟩
      · exact .inl (by simpa [heq] using hw)
      · exact .inr hw
      · exact absurd hw heq

omit [DecidableEq ο] in
/-- Making an input stream ready. -/
theorem Inv.isSetReady (h : s.Inv exempt) (i : ι) :
    ∃ s', s.isSetReady i = .ok s' ∧ s'.Inv exempt := by
  unfold StreamLoop.isSetReady
  split
  next => exact ⟨s, rfl, h⟩
  next hready =>
    cases hpair : s.isPair i with
    | none =>
      refine ⟨{ s with isReady := Function.update s.isReady i true }, by simp [hpair], h.queue,
        h.symm, h.addressed, fun i' o' hp hir hor => h.wake i' o' hp ?_ hor⟩
      have heq : i' ≠ i := by
        rintro rfl
        simp [hpair] at hp
      simpa [heq] using hir
    | some o =>
      have h₁ : Inv (fun i' o' => exempt i' o' ∨ i' = i ∧ o' = o)
          { s with isReady := Function.update s.isReady i true } := by
        refine ⟨h.queue, h.symm, h.addressed, fun i' o' hp hir hor => ?_⟩
        by_cases heq : i' = i
        · subst heq
          exact .inr (.inr ⟨rfl, Option.some.inj (hp.symm.trans hpair)⟩)
        · exact (h.wake i' o' hp (by simpa [heq] using hir) hor).imp_right .inl
      by_cases hcond : (s.osReady o && !s.linked i) = true
      · have hlinked : s.linked i = false := by simp_all
        obtain ⟨hemit, hinv⟩ := h₁.emit hpair hlinked
        exact ⟨_, by simp only [hpair, hcond, if_true, hemit], hinv⟩
      · refine ⟨{ s with isReady := Function.update s.isReady i true }, by simp [hpair, hcond],
          h₁.queue, h₁.symm, h₁.addressed, fun i' o' hp hir hor => ?_⟩
        rcases h₁.wake i' o' hp hir hor with hw | hw | ⟨rfl, rfl⟩
        · exact .inl hw
        · exact .inr hw
        · have hor : s.osReady o' = true := hor
          exact .inl (by simpa [hor] using hcond)

/-- Making an output stream ready ends the exemption of its pair. -/
theorem Inv.osSetReady (h : s.Inv exempt) (o : ο) :
    ∃ s', s.osSetReady o = .ok s' ∧ s'.Inv fun i' o' => exempt i' o' ∧ o' ≠ o := by
  unfold StreamLoop.osSetReady
  cases hpair : s.osPair o with
  | none =>
    refine ⟨{ s with osReady := Function.update s.osReady o true }, by simp [hpair], h.queue,
      h.symm, h.addressed, fun i' o' hp hir hor => ?_⟩
    have heq : o' ≠ o := by
      rintro rfl
      rw [h.symm, hpair] at hp
      cases hp
    exact (h.wake i' o' hp hir (by simpa [heq] using hor)).imp_right (⟨·, heq⟩)
  | some i =>
    have hpair' : s.isPair i = some o := (h.symm i o).mpr hpair
    have h₁ : Inv (fun i' o' => (exempt i' o' ∧ o' ≠ o) ∨ i' = i ∧ o' = o)
        { s with osReady := Function.update s.osReady o true } := by
      refine ⟨h.queue, h.symm, h.addressed, fun i' o' hp hir hor => ?_⟩
      by_cases heq : o' = o
      · subst heq
        have : s.osPair o' = some i' := (h.symm i' o').mp hp
        exact .inr (.inr ⟨Option.some.inj (this.symm.trans hpair), rfl⟩)
      · exact (h.wake i' o' hp hir (by simpa [heq] using hor)).imp_right fun hw => .inl ⟨hw, heq⟩
    by_cases hcond : (s.isReady i && !s.linked i) = true
    · have hlinked : s.linked i = false := by simp_all
      obtain ⟨hemit, hinv⟩ := h₁.emit hpair' hlinked
      exact ⟨_, by simp only [hpair, hcond, if_true, hemit], hinv⟩
    · refine ⟨{ s with osReady := Function.update s.osReady o true }, by simp [hpair, hcond],
        h₁.queue, h₁.symm, h₁.addressed, fun i' o' hp hir hor => ?_⟩
      rcases h₁.wake i' o' hp hir hor with hw | hw | ⟨rfl, rfl⟩
      · exact .inl hw
      · exact .inr hw
      · have hir : s.isReady i' = true := hir
        exact .inl (by simpa [hir] using hcond)

/-- Connecting two ends that have no pair. -/
theorem Inv.connect (h : s.Inv exempt) (hi : s.isPair i = none) (ho : s.osPair o = none) :
    ∃ s', s.connect i o = .ok s' ∧ s'.Inv exempt := by
  have hlinked := h.linked_eq_false hi
  have h₁ : Inv (fun i' o' => exempt i' o' ∨ i' = i ∧ o' = o)
      { s with isPair := Function.update s.isPair i (some o)
               osPair := Function.update s.osPair o (some i) } := by
    refine ⟨h.queue, fun i' o' => ?_, fun i' hi' => ?_, fun i' o' hp hir hor => ?_⟩
    · show Function.update s.isPair i (some o) i' = some o' ↔
        Function.update s.osPair o (some i) o' = some i'
      have hsymm := h.symm i' o'
      by_cases hii : i' = i
      · subst hii
        by_cases hoo : o' = o
        · simp [hoo]
        · have hnot : s.osPair o' ≠ some i' := fun hp => by simp [hsymm.mpr hp] at hi
          simp [hoo, Ne.symm hoo, hnot]
      · by_cases hoo : o' = o
        · subst hoo
          have hnot : s.isPair i' ≠ some o' := fun hp => by simp [hsymm.mp hp] at ho
          simp [hii, Ne.symm hii, hnot]
        · simpa [hii, hoo] using hsymm
    · have hne : i' ≠ i := by
        rintro rfl
        simp [hlinked] at hi'
      simpa [hne] using h.addressed i' hi'
    · by_cases hii : i' = i
      · subst hii
        exact .inr (.inr ⟨rfl, by simpa using Eq.symm hp⟩)
      · exact (h.wake i' o' (by simpa [hii] using hp) hir hor).imp_right .inl
  unfold StreamLoop.connect
  by_cases hcond : (s.isReady i && s.osReady o) = true
  · obtain ⟨hemit, hinv⟩ := h₁.emit (by simp) hlinked
    exact ⟨_, by simp only [hcond, if_true, hemit], hinv⟩
  · refine ⟨_, by simp only [hcond]; rfl, h₁.queue, h₁.symm, h₁.addressed,
      fun i' o' hp hir hor => ?_⟩
    rcases h₁.wake i' o' hp hir hor with hw | hw | ⟨rfl, rfl⟩
    · exact .inl hw
    · exact .inr hw
    · have hir : s.isReady i' = true := hir
      have hor : s.osReady o' = true := hor
      simp [hir, hor] at hcond

/-- Disconnecting a pair takes its event off the queue. -/
theorem Inv.disconnect (h : s.Inv exempt)
    (hpair : s.isPair i = some o ∧ s.osPair o = some i ∨ s.isPair i = none ∧ s.osPair o = none) :
    (s.disconnect i o).Inv fun i' o' => exempt i' o' ∧ ¬ (i' = i ∧ o' = o) := by
  -- no other stream has one of the two ends as its pair
  have hsymm : ∀ i' o', Function.update s.isPair i none i' = some o' ↔
      Function.update s.osPair o none o' = some i' := by
    intro i' o'
    have hs := h.symm i' o'
    by_cases hii : i' = i
    · subst hii
      by_cases hoo : o' = o
      · simp [hoo]
      · have hnot : s.osPair o' ≠ some i' := by
          intro hp
          rcases hpair with ⟨hi, -⟩ | ⟨hi, -⟩
          · exact hoo (Option.some.inj ((hs.mpr hp).symm.trans hi))
          · simp [hs.mpr hp] at hi
        simp [hoo, hnot]
    · by_cases hoo : o' = o
      · subst hoo
        have hnot : s.isPair i' ≠ some o' := by
          intro hp
          rcases hpair with ⟨-, ho⟩ | ⟨-, ho⟩
          · exact hii (Option.some.inj ((hs.mp hp).symm.trans ho))
          · simp [hs.mp hp] at ho
        simp [hii, hnot]
      · simpa [hii, hoo] using hs
  have hwake : ∀ i' o', Function.update s.isPair i none i' = some o' → s.isReady i' = true →
      s.osReady o' = true → i' ≠ i ∧ (s.linked i' = true ∨ exempt i' o') := by
    intro i' o' hp hir hor
    by_cases hii : i' = i
    · simp [hii] at hp
    · exact ⟨hii, h.wake i' o' (by simpa [hii] using hp) hir hor⟩
  obtain ⟨l, hl, hmem⟩ := h.queue
  by_cases hlinked : s.linked i = true
  · rw [show s.disconnect i o = _ from if_pos hlinked]
    obtain ⟨as, bs, rfl⟩ := List.append_of_mem ((hmem i).mpr hlinked)
    obtain ⟨ha, hb⟩ := hl.not_mem_sides
    refine ⟨⟨as ++ bs, hl.unlink, fun i' => ?_⟩, hsymm, fun i' hi' => ?_,
      fun i' o' hp hir hor => ?_⟩
    · show i' ∈ as ++ bs ↔ Function.update s.linked i false i' = true
      by_cases heq : i' = i
      · simp [heq, ha, hb]
      · simpa [heq] using hmem i'
    · have hi' : Function.update s.linked i false i' = true := hi'
      have heq : i' ≠ i := by
        rintro rfl
        simp at hi'
      show ∃ o', Function.update s.isPair i none i' = some o' ∧ s.receiver i' = some o'
      simpa [heq] using h.addressed i' (by simpa [heq] using hi')
    · obtain ⟨hii, hw⟩ := hwake i' o' hp hir hor
      refine hw.imp (fun hw => ?_) (⟨·, fun heq => hii heq.1⟩)
      show Function.update s.linked i false i' = true
      simpa [hii] using hw
  · rw [show s.disconnect i o = _ from if_neg hlinked]
    refine ⟨⟨l, hl, hmem⟩, hsymm, fun i' hi' => ?_, fun i' o' hp hir hor => ?_⟩
    · have heq : i' ≠ i := fun heq => hlinked (heq ▸ hi')
      show ∃ o', Function.update s.isPair i none i' = some o' ∧ s.receiver i' = some o'
      simpa [heq] using h.addressed i' hi'
    · obtain ⟨hii, hw⟩ := hwake i' o' hp hir hor
      exact hw.imp_right (⟨·, fun heq => hii heq.1⟩)

/-- No call fails an assertion, and every one ends the exemptions of the pairs it disturbs. -/
theorem Inv.exec {op : StreamOp ι ο} (h : s.Inv exempt) :
    s.exec op ≠ .error .assertion ∧ ∀ s', s.exec op = .ok s' →
      s'.Inv fun i o => exempt i o ∧ op.disturbs i o = false := by
  cases op with
  | connect i o =>
    by_cases hpair : s.isPair i = none ∧ s.osPair o = none
    · obtain ⟨s₁, hs₁, hinv⟩ := h.connect hpair.1 hpair.2
      rw [show s.exec (.connect i o) = _ from if_pos hpair, hs₁]
      refine ⟨by simp, fun s' hs' => ?_⟩
      obtain rfl := Except.ok.inj hs'
      simpa [StreamOp.disturbs] using hinv
    · simp [StreamLoop.exec, hpair]
  | disconnect i o =>
    by_cases hpair : s.isPair i = some o ∧ s.osPair o = some i ∨
      s.isPair i = none ∧ s.osPair o = none
    · rw [show s.exec (.disconnect i o) = _ from if_pos hpair]
      refine ⟨by simp, fun s' hs' => ?_⟩
      obtain rfl := Except.ok.inj hs'
      have hinv := h.disconnect hpair
      refine ⟨hinv.queue, hinv.symm, hinv.addressed, fun i' o' hp hir hor => ?_⟩
      refine (hinv.wake i' o' hp hir hor).imp_right fun hw => ⟨hw.1, ?_⟩
      have hne := hw.2
      simp only [StreamOp.disturbs, Bool.and_eq_false_iff, decide_eq_false_iff_not]
      by_contra hboth
      simp only [not_or, not_not] at hboth
      exact hne ⟨hboth.1.symm, hboth.2.symm⟩
    · rw [show s.exec (.disconnect i o) = _ from if_neg hpair]
      simp
  | isSetReady i =>
    obtain ⟨s₁, hs₁, hinv⟩ := h.isSetReady i
    refine ⟨by simp [StreamLoop.exec, hs₁], fun s' hs' => ?_⟩
    obtain rfl := Except.ok.inj (hs₁.symm.trans hs')
    simpa [StreamOp.disturbs] using hinv
  | isUnsetReady i =>
    refine ⟨by simp [StreamLoop.exec], fun s' hs' => ?_⟩
    obtain rfl := Except.ok.inj hs'
    refine ⟨h.queue, h.symm, h.addressed, fun i' o' hp hir hor => ?_⟩
    have heq : i' ≠ i := by
      rintro rfl
      simp at hir
    refine (h.wake i' o' hp (by simpa [heq] using hir) hor).imp_right fun hw => ⟨hw, ?_⟩
    simpa [StreamOp.disturbs] using Ne.symm heq
  | osSetReady o =>
    obtain ⟨s₁, hs₁, hinv⟩ := h.osSetReady o
    refine ⟨by simp [StreamLoop.exec, hs₁], fun s' hs' => ?_⟩
    obtain rfl := Except.ok.inj (hs₁.symm.trans hs')
    refine ⟨hinv.queue, hinv.symm, hinv.addressed, fun i' o' hp hir hor => ?_⟩
    refine (hinv.wake i' o' hp hir hor).imp_right fun hw => ⟨hw.1, ?_⟩
    simpa [StreamOp.disturbs] using Ne.symm hw.2
  | osUnsetReady o =>
    refine ⟨by simp [StreamLoop.exec], fun s' hs' => ?_⟩
    obtain rfl := Except.ok.inj hs'
    refine ⟨h.queue, h.symm, h.addressed, fun i' o' hp hir hor => ?_⟩
    have heq : o' ≠ o := by
      rintro rfl
      simp at hor
    refine (h.wake i' o' hp hir (by simpa [heq] using hor)).imp_right fun hw => ⟨hw, ?_⟩
    simpa [StreamOp.disturbs] using Ne.symm heq

end Operations

section Calm

/-- What `stream_event_deliver` looks at is the same for a pair. -/
def SameFor (i : ι) (o : ο) (s s' : StreamLoop ι ο) : Prop :=
  s'.busy i o = s.busy i o ∧ s'.linked i = s.linked i ∧ s'.receiver i = s.receiver i

omit [DecidableEq ο] in
theorem SameFor.trans {s'' : StreamLoop ι ο} (h : SameFor i o s s') (h' : SameFor i o s' s'') :
    SameFor i o s s'' :=
  ⟨h'.1.trans h.1, h'.2.1.trans h.2.1, h'.2.2.trans h.2.2⟩

omit [DecidableEq ο] in
/-- Queueing the event of another stream. -/
theorem emit_sameFor {i' : ι} {o' : ο} (hne : i ≠ i') (hemit : s.emit i' o' = .ok s') :
    SameFor i o s s' := by
  unfold StreamLoop.emit link at hemit
  split at hemit
  next => cases hemit
  next =>
    obtain rfl := Except.ok.inj hemit
    simp [SameFor, busy, hne]

omit [DecidableEq ο] in
theorem busy_iff : s.busy i o = true ↔
    s.isReady i = true ∧ s.osReady o = true ∧ s.osPair o = some i := by
  simp [busy, and_assoc]

/-- A call that does not disturb a busy pair makes no difference to it. -/
theorem Inv.exec_sameFor {op : StreamOp ι ο} (h : s.Inv exempt) (hbusy : s.busy i o = true)
    (hop : op.disturbs i o = false) (hexec : s.exec op = .ok s') : SameFor i o s s' := by
  obtain ⟨hir, hor, hop'⟩ := busy_iff.mp hbusy
  have hip : s.isPair i = some o := (h.symm i o).mpr hop'
  cases op with
  | connect i' o' =>
    by_cases hpair : s.isPair i' = none ∧ s.osPair o' = none
    · rw [show s.exec (.connect i' o') = _ from if_pos hpair] at hexec
      have hii : i ≠ i' := by
        rintro rfl
        simp [hip] at hpair
      have hoo : o ≠ o' := by
        rintro rfl
        simp [hop'] at hpair
      simp only [StreamLoop.connect] at hexec
      have hsame : SameFor i o s
          { s with isPair := Function.update s.isPair i' (some o')
                   osPair := Function.update s.osPair o' (some i') } := by
        simp [SameFor, busy, hoo]
      split at hexec
      next =>
        exact hsame.trans (emit_sameFor hii hexec)
      next =>
        obtain rfl := Except.ok.inj hexec
        exact hsame
    · simp [StreamLoop.exec, hpair] at hexec
  | disconnect i' o' =>
    by_cases hpair : s.isPair i' = some o' ∧ s.osPair o' = some i' ∨
      s.isPair i' = none ∧ s.osPair o' = none
    · rw [show s.exec (.disconnect i' o') = _ from if_pos hpair] at hexec
      obtain rfl := Except.ok.inj hexec
      have hnot : ¬ (i' = i ∧ o' = o) := by
        intro heq
        simp [StreamOp.disturbs, heq] at hop
      have hii : i ≠ i' := by
        rintro rfl
        rcases hpair with ⟨hp, -⟩ | ⟨hp, -⟩
        · exact hnot ⟨rfl, Option.some.inj (hp.symm.trans hip)⟩
        · simp [hip] at hp
      have hoo : o ≠ o' := by
        rintro rfl
        rcases hpair with ⟨-, hp⟩ | ⟨-, hp⟩
        · exact hii (Option.some.inj (hop'.symm.trans hp))
        · simp [hop'] at hp
      by_cases hlinked : s.linked i' = true
      · rw [show s.disconnect i' o' = _ from if_pos hlinked]
        simp [SameFor, busy, unlink, hii, hoo]
      · rw [show s.disconnect i' o' = _ from if_neg hlinked]
        simp [SameFor, busy, hoo]
    · rw [show s.exec (.disconnect i' o') = _ from if_neg hpair] at hexec
      cases hexec
  | isSetReady i' =>
    by_cases hii : i = i'
    · subst hii
      obtain rfl : s = s' := by simpa [StreamLoop.exec, StreamLoop.isSetReady, hir] using hexec
      exact ⟨rfl, rfl, rfl⟩
    · have hsame : SameFor i o s { s with isReady := Function.update s.isReady i' true } := by
        simp [SameFor, busy, hii]
      rw [StreamLoop.exec, StreamLoop.isSetReady] at hexec
      split at hexec
      next =>
        obtain rfl := Except.ok.inj hexec
        exact ⟨rfl, rfl, rfl⟩
      next =>
        simp only at hexec
        split at hexec
        next =>
          split at hexec
          next =>
            exact hsame.trans (emit_sameFor hii hexec)
          next =>
            obtain rfl := Except.ok.inj hexec
            exact hsame
        next =>
          obtain rfl := Except.ok.inj hexec
          exact hsame
  | isUnsetReady i' =>
    obtain rfl := Except.ok.inj hexec
    have hii : i' ≠ i := by simpa [StreamOp.disturbs] using hop
    simp [SameFor, busy, Ne.symm hii]
  | osSetReady o' =>
    have hoo : o' ≠ o := by simpa [StreamOp.disturbs] using hop
    have hsame : SameFor i o s { s with osReady := Function.update s.osReady o' true } := by
      simp [SameFor, busy, Ne.symm hoo]
    rw [StreamLoop.exec, StreamLoop.osSetReady] at hexec
    simp only at hexec
    split at hexec
    next i' hp =>
      have hii : i ≠ i' := by
        rintro rfl
        exact hoo (Option.some.inj (((h.symm i o').mpr hp).symm.trans hip))
      split at hexec
      next =>
        exact hsame.trans (emit_sameFor hii hexec)
      next =>
        obtain rfl := Except.ok.inj hexec
        exact hsame
    next =>
      obtain rfl := Except.ok.inj hexec
      exact hsame
  | osUnsetReady o' =>
    obtain rfl := Except.ok.inj hexec
    have hoo : o' ≠ o := by simpa [StreamOp.disturbs] using hop
    simp [SameFor, busy, Ne.symm hoo]

end Calm

section Delivery

/-- Only this pair is exempt, and only if it has not been disturbed. -/
def exemptOnly (i : ι) (o : ο) (disturbed : Bool) : ι → ο → Prop :=
  fun i' o' => (i' = i ∧ o' = o) ∧ disturbed = false

/-- The event of a pair is being delivered. As long as no callback has disturbed the pair it is busy
and its event is off the queue. -/
structure Delivering (i : ι) (o : ο) (disturbed : Bool) (s : StreamLoop ι ο) : Prop where
  inv : s.Inv (exemptOnly i o disturbed)
  calm : disturbed = false → s.busy i o = true ∧ s.linked i = false ∧ s.receiver i = some o

variable {disturbed : Bool}

theorem Delivering.exec {op : StreamOp ι ο} (h : Delivering i o disturbed s)
    (hexec : s.exec op = .ok s') : Delivering i o (disturbed || op.disturbs i o) s' := by
  have hinv := h.inv.exec.2 s' hexec
  refine ⟨⟨hinv.queue, hinv.symm, hinv.addressed, fun i' o' hp hir hor => ?_⟩, fun hcalm => ?_⟩
  · refine (hinv.wake i' o' hp hir hor).imp_right fun ⟨⟨⟨hi', ho'⟩, hd⟩, hop⟩ => ?_
    subst hi' ho'
    exact ⟨⟨rfl, rfl⟩, by simp [hd, hop]⟩
  · obtain ⟨hd, hop⟩ := Bool.or_eq_false_iff.mp hcalm
    obtain ⟨hbusy, hlinked, hreceiver⟩ := h.calm hd
    obtain ⟨hb, hl, hr⟩ := h.inv.exec_sameFor hbusy hop hexec
    exact ⟨hb.trans hbusy, hl.trans hlinked, hr.trans hreceiver⟩

theorem Delivering.execAll {ops : List (StreamOp ι ο)} (h : Delivering i o disturbed s)
    (hexec : s.execAll ops = .ok s') :
    Delivering i o (disturbed || ops.any (·.disturbs i o)) s' := by
  induction ops generalizing s disturbed with
  | nil =>
    obtain rfl := Except.ok.inj hexec
    simpa using h
  | cons op ops ih =>
    unfold StreamLoop.execAll at hexec
    split at hexec
    next s₁ hs₁ =>
      have := ih (h.exec hs₁) hexec
      rwa [Bool.or_assoc, ← List.any_cons] at this
    next => cases hexec

omit [DecidableEq ο] in
/-- A pair that is not busy when its event has been delivered needs no exemption. -/
theorem Delivering.inv_of_not_busy (h : Delivering i o disturbed s)
    (hbusy : s.busy i o = false) : s.Inv fun _ _ => False := by
  refine ⟨h.inv.queue, h.inv.symm, h.inv.addressed, fun i' o' hp hir hor => ?_⟩
  rcases h.inv.wake i' o' hp hir hor with hw | ⟨-, hd⟩
  · exact .inl hw
  · simp [(h.calm hd).1] at hbusy

/-- All rounds of a delivery: either the pair is no longer busy, or the rounds are used up. -/
theorem Delivering.rounds {script : ℕ → List (StreamOp ι ο)} {b : Bool} (count n : ℕ)
    (h : Delivering i o disturbed s) (hrounds : rounds script i o count n s = .ok (s', b)) :
    (b = false → s'.Inv fun _ _ => False) ∧
      (b = true → s'.busy i o = true ∧ Delivering i o
        (disturbed || (List.range' n count).any fun k => (script k).any (·.disturbs i o)) s') := by
  induction count generalizing n s disturbed with
  | zero =>
    obtain ⟨rfl, rfl⟩ := Prod.mk.inj (Except.ok.inj hrounds)
    exact ⟨h.inv_of_not_busy, fun hbusy => ⟨hbusy, by simpa using h⟩⟩
  | succ count ih =>
    by_cases hbusy : s.busy i o = true
    · rw [StreamLoop.rounds, if_pos hbusy] at hrounds
      cases hexec : s.execAll (script n) with
      | error e => simp [hexec] at hrounds
      | ok s₁ =>
        simp only [hexec] at hrounds
        obtain ⟨hidle, hused⟩ := ih (n + 1) (h.execAll hexec) hrounds
        refine ⟨hidle, fun hb => ?_⟩
        rw [List.range'_succ, List.any_cons, ← Bool.or_assoc]
        exact hused hb
    · rw [StreamLoop.rounds, if_neg hbusy] at hrounds
      obtain ⟨rfl, rfl⟩ := Prod.mk.inj (Except.ok.inj hrounds)
      exact ⟨fun _ => h.inv_of_not_busy (by simpa using hbusy), by simp⟩

omit [DecidableEq ο] in
/-- Taking the event at the head of the queue off it. -/
theorem Inv.takeEvent {evt : ι} (h : s.Inv fun _ _ => False)
    (hfirst : s.queue.first = some evt) :
    ∃ o, s.receiver evt = some o ∧ s.osPair o = some evt ∧
      (s.takeEvent evt).Inv (exemptOnly evt o false) ∧
      (s.takeEvent evt).linked evt = false := by
  obtain ⟨l, hl, hmem⟩ := h.queue
  cases l with
  | nil => simp [hl.first_eq] at hfirst
  | cons i l =>
    obtain rfl : i = evt := by simpa [hl.first_eq] using hfirst
    obtain ⟨o, hpair, hreceiver⟩ := h.addressed i ((hmem i).mp (by simp))
    have hil : i ∉ l := (List.nodup_cons.mp hl.nodup).1
    have hqueue : (s.takeEvent i).queue = s.queue.unlink i := hl.unlink_first
    refine ⟨o, hreceiver, (h.symm i o).mp hpair,
      ⟨⟨l, ?_, fun i' => ?_⟩, h.symm, fun i' hi' => ?_, fun i' o' hp hir hor => ?_⟩, ?_⟩
    · rw [hqueue]
      exact (show s.queue.Holds ([] ++ i :: l) from hl).unlink
    · show i' ∈ l ↔ Function.update s.linked i false i' = true
      by_cases heq : i' = i
      · simp [heq, hil]
      · simpa [heq] using hmem i'
    · have hi' : Function.update s.linked i false i' = true := hi'
      have heq : i' ≠ i := by
        rintro rfl
        simp at hi'
      exact h.addressed i' (by simpa [heq] using hi')
    · by_cases heq : i' = i
      · subst heq
        exact .inr ⟨⟨rfl, Option.some.inj (hp.symm.trans hpair)⟩, rfl⟩
      · refine .inl ?_
        have hw := (h.wake i' o' hp hir hor).resolve_right id
        show Function.update s.linked i false i' = true
        simpa [heq] using hw
    · show Function.update s.linked i false i = false
      simp

omit [DecidableEq ο] in
/-- Putting the event back on the queue at the end of a delivery works exactly if no callback has
disturbed the pair. -/
theorem Delivering.link (h : Delivering i o disturbed s) (hbusy : s.busy i o = true) :
    (disturbed = true → s.link i = .error .assertion) ∧
      (disturbed = false → ∃ s', s.link i = .ok s' ∧ s'.Inv fun _ _ => False) := by
  obtain ⟨hir, hor, hop⟩ := busy_iff.mp hbusy
  have hpair : s.isPair i = some o := (h.inv.symm i o).mpr hop
  refine ⟨fun hd => ?_, fun hd => ?_⟩
  · rcases h.inv.wake i o hpair hir hor with hw | ⟨-, hd'⟩
    · simp [StreamLoop.link, hw]
    · simp [hd] at hd'
  · obtain ⟨-, hlinked, hreceiver⟩ := h.calm hd
    have hexempt : s.Inv fun i' o' => False ∨ i' = i ∧ o' = o := by
      refine ⟨h.inv.queue, h.inv.symm, h.inv.addressed, fun i' o' hp hir hor => ?_⟩
      exact (h.inv.wake i' o' hp hir hor).imp_right fun hw => .inr hw.1
    obtain ⟨hemit, hinv⟩ := hexempt.emit hpair hlinked
    -- the receiver is the one the event has already
    have hsame : { s with receiver := Function.update s.receiver i (some o) } = s := by
      rw [← hreceiver, Function.update_eq_self]
    rw [emit, hsame] at hemit
    exact ⟨_, hemit, hinv⟩

end Delivery

section Runs

variable {hasWrite : ι → Bool} {hasRead : ο → Bool} {script : ℕ → List (StreamOp ι ο)}

/-- The delivery of the event of `evt` to `o` uses up its fifty rounds and ends in `s'`. -/
def Exhausts (hasWrite : ι → Bool) (hasRead : ο → Bool) (script : ℕ → List (StreamOp ι ο))
    (s : StreamLoop ι ο) (evt : ι) (o : ο) (s' : StreamLoop ι ο) : Prop :=
  s.queue.first = some evt ∧ s.receiver evt = some o ∧ ∃ i, s.osPair o = some i ∧
    (hasWrite i || hasRead o) = true ∧
    rounds script i o 50 0 (s.takeEvent evt) = .ok (s', true)

/-- The end of a delivery that has used up its rounds. -/
theorem Exhausts.processEvent_eq {evt : ι} (h : s.Exhausts hasWrite hasRead script evt o s') :
    s.processEvent hasWrite hasRead script = s'.link evt := by
  obtain ⟨hfirst, hreceiver, i, hpair, hclass, hrounds⟩ := h
  have hreceiver' : (s.takeEvent evt).receiver evt = some o := hreceiver
  have hpair' : (s.takeEvent evt).osPair o = some i := hpair
  simp only [processEvent, hfirst, streamEventDeliver, hreceiver', hpair', hclass, if_true,
    hrounds]

/-- What the rounds have left behind when they are used up. -/
theorem Inv.exhausts {evt : ι} (h : s.Inv fun _ _ => False)
    (hex : s.Exhausts hasWrite hasRead script evt o s') :
    s'.busy evt o = true ∧ Delivering evt o
      ((List.range' 0 50).any fun k => (script k).any (·.disturbs evt o)) s' := by
  obtain ⟨hfirst, hreceiver, i, hpair, -, hrounds⟩ := hex
  obtain ⟨o', hreceiver', hpair', hinv, hlinked⟩ := h.takeEvent hfirst
  obtain rfl : o' = o := Option.some.inj (hreceiver'.symm.trans hreceiver)
  obtain rfl : i = evt := Option.some.inj (hpair.symm.trans hpair')
  by_cases hbusy : (s.takeEvent i).busy i o' = true
  · have hstart : Delivering i o' false (s.takeEvent i) :=
      ⟨hinv, fun _ => ⟨hbusy, hlinked, hreceiver⟩⟩
    simpa using (hstart.rounds 50 0 hrounds).2 rfl
  · rw [StreamLoop.rounds, if_neg hbusy] at hrounds
    simp at hrounds

/-- Processing an event loses no wake-up. -/
theorem Inv.processEvent (h : s.Inv fun _ _ => False)
    (hproc : s.processEvent hasWrite hasRead script = .ok s') : s'.Inv fun _ _ => False := by
  cases hfirst : s.queue.first with
  | none =>
    obtain rfl : s = s' := by simpa [StreamLoop.processEvent, hfirst] using hproc
    exact h
  | some evt =>
    obtain ⟨o, hreceiver, hpair, hinv, hlinked⟩ := h.takeEvent hfirst
    have hreceiver' : (s.takeEvent evt).receiver evt = some o := hreceiver
    have hpair' : (s.takeEvent evt).osPair o = some evt := hpair
    simp only [StreamLoop.processEvent, hfirst, streamEventDeliver, hreceiver', hpair'] at hproc
    split at hproc
    next hclass =>
      cases hrounds : rounds script evt o 50 0 (s.takeEvent evt) with
      | error e => simp [hrounds] at hproc
      | ok res =>
        obtain ⟨s₁, b⟩ := res
        cases b with
        | true =>
          have hex : s.Exhausts hasWrite hasRead script evt o s₁ :=
            ⟨hfirst, hreceiver, evt, hpair, hclass, hrounds⟩
          obtain ⟨hbusy, hdel⟩ := h.exhausts hex
          obtain ⟨hbad, hgood⟩ := hdel.link hbusy
          simp only [hrounds] at hproc
          cases hd : (List.range' 0 50).any fun k => (script k).any (·.disturbs evt o) with
          | true => simp [hbad hd] at hproc
          | false =>
            obtain ⟨s₂, hs₂, hinv₂⟩ := hgood hd
            obtain rfl := Except.ok.inj (hs₂.symm.trans hproc)
            exact hinv₂
        | false =>
          simp only [hrounds] at hproc
          obtain rfl := Except.ok.inj hproc
          by_cases hbusy : (s.takeEvent evt).busy evt o = true
          · have hstart : Delivering evt o false (s.takeEvent evt) :=
              ⟨hinv, fun _ => ⟨hbusy, hlinked, hreceiver⟩⟩
            exact (hstart.rounds 50 0 hrounds).1 rfl
          · -- an end was made not ready after the event was queued
            rw [StreamLoop.rounds, if_neg hbusy] at hrounds
            obtain ⟨rfl, -⟩ := Prod.mk.inj (Except.ok.inj hrounds)
            refine ⟨hinv.queue, hinv.symm, hinv.addressed, fun i' o' hp hir hor => ?_⟩
            refine (hinv.wake i' o' hp hir hor).imp_right fun ⟨⟨hi', ho'⟩, _⟩ => ?_
            subst hi' ho'
            exact hbusy (busy_iff.mpr ⟨hir, hor, hpair'⟩)
    next => cases hproc

/-- Everything that returns loses no wake-up. -/
theorem Inv.step {e : StreamEvent ι ο} (h : s.Inv fun _ _ => False)
    (hstep : s.step hasWrite hasRead e = some s') : s'.Inv fun _ _ => False := by
  cases e with
  | op op =>
    cases hexec : s.exec op with
    | error e => simp [StreamLoop.step, hexec, Except.toOption] at hstep
    | ok s₁ =>
      obtain rfl : s₁ = s' := by simpa [StreamLoop.step, hexec, Except.toOption] using hstep
      have hinv := h.exec.2 s₁ hexec
      exact ⟨hinv.queue, hinv.symm, hinv.addressed, fun i' o' hp hir hor =>
        (hinv.wake i' o' hp hir hor).imp_right And.left⟩
  | process script =>
    cases hproc : s.processEvent hasWrite hasRead script with
    | error e => simp [StreamLoop.step, hproc, Except.toOption] at hstep
    | ok s₁ =>
      obtain rfl : s₁ = s' := by simpa [StreamLoop.step, hproc, Except.toOption] using hstep
      exact h.processEvent hproc

omit [DecidableEq ι] [DecidableEq ο] in
theorem inv_init : (init : StreamLoop ι ο).Inv fun _ _ => False where
  queue := ⟨[], DList.holds_nil rfl rfl, by simp [init]⟩
  symm := by simp [init]
  addressed := by simp [init]
  wake := by simp [init]

/-- Streams that have lost no wake-up. -/
structure Settled (s : StreamLoop ι ο) : Prop where
  /-- Pairs are symmetric. -/
  symm : ∀ i o, s.isPair i = some o ↔ s.osPair o = some i
  /-- The queue is a doubly linked list. It has the event of every pair with two ready ends once,
  addressed to the output stream of the pair, and no event of a stream without a pair. -/
  queue : ∃ l, s.queue.Holds l ∧
    (∀ i o, s.isPair i = some o → s.isReady i = true → s.osReady o = true →
      l.count i = 1 ∧ s.receiver i = some o) ∧
    ∀ i, s.isPair i = none → i ∉ l

omit [DecidableEq ο] in
theorem Inv.settled (h : s.Inv fun _ _ => False) : s.Settled := by
  obtain ⟨l, hl, hmem⟩ := h.queue
  refine ⟨h.symm, l, hl, fun i o hp hir hor => ?_, fun i hi hin => ?_⟩
  · have hlinked := (h.wake i o hp hir hor).resolve_right id
    obtain ⟨o', hp', hreceiver⟩ := h.addressed i hlinked
    refine ⟨List.count_eq_one_of_mem hl.nodup ((hmem i).mpr hlinked), ?_⟩
    rwa [← Option.some.inj (hp'.symm.trans hp)]
  · have hlinked := (hmem i).mp hin
    simp [h.linked_eq_false hi] at hlinked

/-- No wake-up is lost, whatever is done to streams from outside and from callbacks. Where ends are
disconnected that are not a pair, or an assertion fails, the step has no result, and the run ends
before it. -/
theorem streams_settled (hasWrite : ι → Bool) (hasRead : ο → Bool) (es : List (StreamEvent ι ο))
    (s : StreamLoop ι ο) (hrun : run (step hasWrite hasRead) init es = some s) : s.Settled := by
  have h : s.Inv fun _ _ => False := run_inv (fun _ _ _ h hstep => h.step hstep) inv_init hrun
  exact h.settled

/-- A pair is connected, its ends become ready, and its event is delivered by callbacks that do
nothing but make the output stream not ready in the end. -/
theorem streams_settled_delivery :
    ∃ s : StreamLoop ℕ ℕ, run (step (fun _ => true) fun _ => false) init
        [.op (.connect 0 0), .op (.osSetReady 0), .op (.isSetReady 0),
          .process fun n => if n = 3 then [.osUnsetReady 0] else []] = some s ∧ s.Settled := by
  refine ⟨_, rfl, ?_⟩
  exact streams_settled (fun _ => true) (fun _ => false)
    [.op (.connect 0 0), .op (.osSetReady 0), .op (.isSetReady 0),
      .process fun n => if n = 3 then [.osUnsetReady 0] else []] _ rfl

/-- When the fifty rounds of a delivery are used up, the event can be put back on the queue exactly
if none of the callbacks has made an end of the pair not ready, its output stream ready, or
disconnected the pair. -/
theorem requeue_succeeds_iff (hasWrite : ι → Bool) (hasRead : ο → Bool)
    (es : List (StreamEvent ι ο)) (s : StreamLoop ι ο)
    (hrun : run (step hasWrite hasRead) init es = some s) (script : ℕ → List (StreamOp ι ο))
    (evt : ι) (o : ο) (s' : StreamLoop ι ο) (hex : s.Exhausts hasWrite hasRead script evt o s') :
    (∃ s'', s.processEvent hasWrite hasRead script = .ok s'') ↔
      ∀ n < 50, ∀ op ∈ script n, op.disturbs evt o = false := by
  have h : s.Inv fun _ _ => False := run_inv (fun _ _ _ h hstep => h.step hstep) inv_init hrun
  obtain ⟨hbusy, hdel⟩ := h.exhausts hex
  obtain ⟨hbad, hgood⟩ := hdel.link hbusy
  have hany : ((List.range' 0 50).any fun k => (script k).any (·.disturbs evt o)) = false ↔
      ∀ n < 50, ∀ op ∈ script n, op.disturbs evt o = false := by
    simp [List.any_eq_false, List.mem_range'_1]
  rw [hex.processEvent_eq, ← hany]
  constructor
  · rintro ⟨s'', hs''⟩
    rw [← Bool.not_eq_true]
    intro hd
    simp [hbad hd] at hs''
  · intro hd
    obtain ⟨s'', hs'', -⟩ := hgood hd
    exact ⟨s'', hs''⟩

/-- A pair that stays busy for fifty rounds without being disturbed is put back on the queue. -/
theorem requeue_succeeds_iff_undisturbed :
    ∃ s s' : StreamLoop ℕ ℕ, run (step (fun _ => true) fun _ => false) init
        [.op (.connect 0 0), .op (.osSetReady 0), .op (.isSetReady 0)] = some s ∧
      s.Exhausts (fun _ => true) (fun _ => false) (fun _ => []) 0 0 s' ∧
      ((∃ s'', s.processEvent (fun _ => true) (fun _ => false) (fun _ => []) = .ok s'') ↔
        ∀ n < 50, ∀ op ∈ ([] : List (StreamOp ℕ ℕ)), op.disturbs 0 0 = false) := by
  refine ⟨_, _, rfl, ⟨rfl, rfl, 0, rfl, rfl, rfl⟩, ?_⟩
  exact requeue_succeeds_iff (fun _ => true) (fun _ => false)
    [.op (.connect 0 0), .op (.osSetReady 0), .op (.isSetReady 0)] _ rfl (fun _ => []) 0 0 _
    ⟨rfl, rfl, 0, rfl, rfl, rfl⟩

/-- The first callback makes the output stream not ready and ready again, as `data_in_do_read` of
the HTTP client protocol does when the headers of a response are complete, and the pair stays busy
for all fifty rounds. -/
theorem requeue_fails :
    ¬ ∀ (es : List (StreamEvent ℕ ℕ)) (s s' : StreamLoop ℕ ℕ)
        (script : ℕ → List (StreamOp ℕ ℕ)) (evt o : ℕ),
      run (step (fun _ => true) fun _ => false) init es = some s →
      s.Exhausts (fun _ => true) (fun _ => false) script evt o s' →
      ∃ s'', s.processEvent (fun _ => true) (fun _ => false) script = .ok s'' := by
  intro hall
  obtain ⟨s'', hs''⟩ := hall [.op (.connect 0 0), .op (.osSetReady 0), .op (.isSetReady 0)] _ _
    (fun n => if n = 0 then [.osUnsetReady 0, .osSetReady 0] else []) 0 0 rfl
    ⟨rfl, rfl, 0, rfl, rfl, rfl⟩
  cases hs''

end Runs

end StreamLoop

end Nxweb
