import Nxweb.Event.Timers

/-!
# Timer queues are sound

Because all timers of a queue have the same timeout and the clock does not go back, appending
keeps a queue sorted, and a timer that is set while timers are processed is never due. So the
timers that are due when `nxe_process_timers` is called only become fewer while it runs, which is
why it ends and why every one of them fires once or is unset.
-/

namespace Nxweb

open Lib

variable {τ : Type*}

namespace TimerLoop

/-- The queues hold the lists `L`, and no timer is on two of them. -/
structure Linked (loop : TimerLoop τ) (L : QueueIdx → List τ) : Prop where
  holds : ∀ q, (loop.queue q).Holds (L q)
  disjoint : ∀ q q' t, t ∈ L q → t ∈ L q' → q' = q

variable {loop : TimerLoop τ} {L : QueueIdx → List τ} {q : QueueIdx} {t : τ}

/-- The links of a queue that other cells are written for. -/
theorem queue_setQueue_self (d : DList τ) : (loop.setQueue q d).queue q = d := by
  simp [queue, setQueue]

/-- A queue whose timers keep their links keeps its list. -/
theorem Linked.setQueue_of_ne (h : loop.Linked L) {d : DList τ} {q' : QueueIdx} (hq : q' ≠ q)
    (hsame : ∀ t ∈ L q', (loop.queue q).SameAt d t) :
    ((loop.setQueue q d).queue q').Holds (L q') :=
  (h.holds q').congr (by simp [queue, setQueue, hq]) (by simp [queue, setQueue, hq]) hsame

/-- A timer is on one queue only. -/
theorem Linked.not_mem_of_ne (h : loop.Linked L) {q' : QueueIdx} (ht : t ∈ L q) (hq : q' ≠ q) :
    t ∉ L q' :=
  fun ht' => hq (h.disjoint q q' t ht ht')

/-- A timer that is taken off its queue is on none. -/
theorem Linked.not_mem_unlink (h : loop.Linked L) {as bs : List τ} (hL : L q = as ++ t :: bs)
    (q' : QueueIdx) : t ∉ Function.update L q (as ++ bs) q' := by
  by_cases hq : q' = q
  · subst hq
    rw [Function.update_self, List.mem_append, not_or]
    exact (hL ▸ h.holds q').not_mem_sides
  · rw [Function.update_of_ne hq]
    exact h.not_mem_of_ne (by simp [hL]) hq

variable [DecidableEq τ]

/-- A timer that is on no queue goes to the end of one. -/
theorem Linked.pushBack (h : loop.Linked L) (ht : ∀ q', t ∉ L q') :
    (loop.setQueue q ((loop.queue q).pushBack t)).Linked (Function.update L q (L q ++ [t])) where
  holds q' := by
    by_cases hq : q' = q
    · subst hq
      rw [Function.update_self, queue_setQueue_self]
      exact (h.holds q').pushBack (ht q')
    · rw [Function.update_of_ne hq]
      refine h.setQueue_of_ne hq fun t' ht' => (h.holds q).pushBack_sameAt (fun hmem => ?_) ?_
      · exact hq (h.disjoint q q' t' hmem ht')
      · exact fun heq => ht q' (heq ▸ ht')
  disjoint q₁ q₂ t' h₁ h₂ := by
    -- Only the timer itself is new on its queue.
    have hcases : ∀ q', t' ∈ Function.update L q (L q ++ [t]) q' →
        t' ∈ L q' ∨ q' = q ∧ t' = t := by
      intro q' hmem
      by_cases hq : q' = q
      · subst hq
        rw [Function.update_self, List.mem_append, List.mem_singleton] at hmem
        exact hmem.imp_right fun heq => ⟨rfl, heq⟩
      · rw [Function.update_of_ne hq] at hmem
        exact .inl hmem
    rcases hcases q₁ h₁ with hold₁ | ⟨hq₁, heq⟩
    · rcases hcases q₂ h₂ with hold₂ | ⟨-, heq⟩
      · exact h.disjoint q₁ q₂ t' hold₁ hold₂
      · exact absurd (heq ▸ hold₁) (ht q₁)
    · rcases hcases q₂ h₂ with hold₂ | ⟨hq₂, -⟩
      · exact absurd (heq ▸ hold₂) (ht q₂)
      · exact hq₂.trans hq₁.symm

/-- A timer is taken off its queue. -/
theorem Linked.unlink (h : loop.Linked L) {as bs : List τ} (hL : L q = as ++ t :: bs) :
    (loop.setQueue q ((loop.queue q).unlink t)).Linked (Function.update L q (as ++ bs)) where
  holds q' := by
    have hmem : t ∈ L q := by simp [hL]
    by_cases hq : q' = q
    · subst hq
      rw [Function.update_self, queue_setQueue_self]
      exact (hL ▸ h.holds q').unlink
    · rw [Function.update_of_ne hq]
      refine h.setQueue_of_ne hq fun t' ht' => ?_
      exact (h.holds q).unlink_sameAt hmem (h.not_mem_of_ne ht' (Ne.symm hq))
  disjoint q₁ q₂ t' h₁ h₂ := by
    have hsub : ∀ q', Function.update L q (as ++ bs) q' ⊆ L q' := by
      intro q' x hx
      by_cases hq : q' = q
      · subst hq
        rw [Function.update_self] at hx
        rw [hL]
        simp only [List.mem_append, List.mem_cons] at hx ⊢
        exact hx.imp_right .inr
      · rwa [Function.update_of_ne hq] at hx
    exact h.disjoint q₁ q₂ t' (hsub q₁ h₁) (hsub q₂ h₂)

end TimerLoop

namespace TimerRun

/-- The queues hold the lists `L`, in order, and these are the timers that are set. -/
structure Queues (s : TimerRun τ) (L : QueueIdx → List τ) : Prop where
  holds : ∀ q, (s.loop.queue q).Holds (L q)
  mem : ∀ q t, t ∈ L q ↔ s.loop.absTime t ≠ 0 ∧ s.queueOf t = q
  sorted : ∀ q, (L q).Pairwise fun t t' => s.loop.absTime t ≤ s.loop.absTime t'
  bound : ∀ q, ∀ t ∈ L q, s.loop.absTime t ≤ s.loop.currentTime + s.loop.timeout q
  large : ∀ t, s.loop.absTime t ≠ 0 → 250000 < s.loop.absTime t
  unlinked : ∀ t, s.loop.absTime t = 0 → s.loop.next t = none ∧ s.loop.prev t = none
  timeouts : ∀ q, 250000 < s.loop.timeout q ∧ s.loop.currentTime + s.loop.timeout q < 2 ^ 64

variable {s s' : TimerRun τ} {L : QueueIdx → List τ} {q : QueueIdx} {t : τ}

section Operations

/-- The queues are linked. -/
theorem Queues.linked (h : s.Queues L) : s.loop.Linked L where
  holds := h.holds
  disjoint q q' t ht ht' := ((h.mem q' t).mp ht').2.symm.trans ((h.mem q t).mp ht).2

/-- A timer is on one queue only. -/
theorem Queues.not_mem_of_ne (h : s.Queues L) {q' : QueueIdx} (ht : t ∈ L q) (hq : q' ≠ q) :
    t ∉ L q' :=
  h.linked.not_mem_of_ne ht hq

/-- The test for due timers does not underflow. -/
theorem Queues.isDue_iff (h : s.Queues L) (ht : s.loop.absTime t ≠ 0) :
    s.loop.isDue t = true ↔ s.loop.absTime t ≤ s.loop.currentTime + 250000 := by
  have hlarge := h.large t ht
  have hbound := h.bound (s.queueOf t) t ((h.mem _ t).mpr ⟨ht, rfl⟩)
  have hrange := (h.timeouts (s.queueOf t)).2
  have hsub : (s.loop.absTime t + 2 ^ 64 - 250000) % 2 ^ 64 = s.loop.absTime t - 250000 := by
    omega
  simp only [TimerLoop.isDue, hsub, decide_eq_true_eq]
  omega

variable [DecidableEq τ]

/-- Setting a timer fails its assertion exactly if the timer is set. -/
theorem Queues.setTimer_isSome (h : s.Queues L) :
    (s.loop.setTimer q t).isSome ↔ s.loop.absTime t = 0 := by
  constructor
  · intro hsome
    by_contra hne
    simp [TimerLoop.setTimer, hne] at hsome
  · intro hzero
    obtain ⟨hn, hp⟩ := h.unlinked t hzero
    simp [TimerLoop.setTimer, hzero, hn, hp]

/-- A timer that is set goes to the end of its queue. -/
theorem Queues.set {loop : TimerLoop τ} (h : s.Queues L)
    (hset : s.loop.setTimer q t = some loop) :
    Queues { s with loop, queueOf := Function.update s.queueOf t q }
        (Function.update L q (L q ++ [t])) ∧
      loop.currentTime = s.loop.currentTime ∧
      loop.absTime = Function.update s.loop.absTime t (s.loop.currentTime + s.loop.timeout q) := by
  have hzero : s.loop.absTime t = 0 := h.setTimer_isSome.mp (by rw [hset]; rfl)
  obtain ⟨hn, hp⟩ := h.unlinked t hzero
  obtain ⟨htimeout, hrange⟩ := h.timeouts q
  simp only [TimerLoop.setTimer, hzero, hn, hp, and_self, if_true, Nat.mod_eq_of_lt hrange,
    Option.some.injEq] at hset
  subst hset
  have hout : ∀ q', t ∉ L q' := fun q' ht => ((h.mem q' t).mp ht).1 hzero
  have hkeep : ∀ q', ∀ t' ∈ L q',
      Function.update s.loop.absTime t (s.loop.currentTime + s.loop.timeout q) t' =
        s.loop.absTime t' := by
    intro q' t' ht'
    have hne : t' ≠ t := fun heq => hout q' (heq ▸ ht')
    rw [Function.update_of_ne hne]
  refine ⟨⟨fun q' => ?_, fun q' t' => ?_, fun q' => ?_, fun q' t' ht' => ?_, fun t' ht' => ?_,
    fun t' ht' => ?_, h.timeouts⟩, rfl, rfl⟩
  · exact (h.linked.pushBack hout).holds q'
  · show t' ∈ Function.update L q (L q ++ [t]) q' ↔
      Function.update s.loop.absTime t _ t' ≠ 0 ∧ Function.update s.queueOf t q t' = q'
    by_cases ht : t' = t
    · subst ht
      by_cases hq : q' = q
      · subst hq
        simp only [Function.update_self, List.mem_append, List.mem_singleton, or_true, true_iff,
          and_true]
        omega
      · simp [Function.update_of_ne hq, hout q', Ne.symm hq]
    · rw [Function.update_of_ne ht, Function.update_of_ne ht, ← h.mem q' t']
      by_cases hq : q' = q
      · subst hq
        simp [ht]
      · rw [Function.update_of_ne hq]
  · -- all timers of the queue expire no later than the new one
    show (Function.update L q (L q ++ [t]) q').Pairwise fun a b =>
      Function.update s.loop.absTime t (s.loop.currentTime + s.loop.timeout q) a ≤
        Function.update s.loop.absTime t (s.loop.currentTime + s.loop.timeout q) b
    have hold : (L q').Pairwise fun a b =>
        Function.update s.loop.absTime t (s.loop.currentTime + s.loop.timeout q) a ≤
          Function.update s.loop.absTime t (s.loop.currentTime + s.loop.timeout q) b := by
      refine (h.sorted q').imp_of_mem fun {a b} ha hb hab => ?_
      rwa [hkeep q' a ha, hkeep q' b hb]
    by_cases hq : q' = q
    · subst hq
      rw [Function.update_self, List.pairwise_append]
      refine ⟨hold, List.pairwise_singleton _ _, fun a ha b hb => ?_⟩
      obtain rfl := List.mem_singleton.mp hb
      rw [Function.update_self, hkeep q' a ha]
      exact h.bound q' a ha
    · rwa [Function.update_of_ne hq]
  · show Function.update s.loop.absTime t _ t' ≤ s.loop.currentTime + s.loop.timeout q'
    by_cases hq : q' = q
    · subst hq
      rw [Function.update_self] at ht'
      rcases List.mem_append.mp ht' with ht' | ht'
      · rw [hkeep q' t' ht']
        exact h.bound q' t' ht'
      · obtain rfl := List.mem_singleton.mp ht'
        rw [Function.update_self]
    · rw [Function.update_of_ne hq] at ht'
      rw [hkeep q' t' ht']
      exact h.bound q' t' ht'
  · show 250000 < Function.update s.loop.absTime t _ t'
    by_cases ht : t' = t
    · subst ht
      rw [Function.update_self]
      omega
    · have ht' : Function.update s.loop.absTime t _ t' ≠ 0 := ht'
      rw [Function.update_of_ne ht] at ht' ⊢
      exact h.large t' ht'
  · have ht' : Function.update s.loop.absTime t _ t' = 0 := ht'
    by_cases ht : t' = t
    · subst ht
      rw [Function.update_self] at ht'
      omega
    · rw [Function.update_of_ne ht] at ht'
      have hnot : t' ∉ L q := fun hmem => ((h.mem q t').mp hmem).1 ht'
      obtain ⟨hn', hp'⟩ := (h.holds q).pushBack_sameAt hnot ht
      obtain ⟨hn₀, hp₀⟩ := h.unlinked t' ht'
      exact ⟨hn'.trans hn₀, hp'.trans hp₀⟩

/-- A timer that is unset leaves its queue. -/
theorem Queues.unset {as bs : List τ} (h : s.Queues L) (hL : L q = as ++ t :: bs)
    (log : List (TimerAct τ)) :
    Queues { s with loop := s.loop.unsetTimer q t, log } (Function.update L q (as ++ bs)) ∧
      (s.loop.unsetTimer q t).absTime = Function.update s.loop.absTime t 0 := by
  have hmem : t ∈ L q := by simp [hL]
  have hne : s.loop.absTime t ≠ 0 := ((h.mem q t).mp hmem).1
  have hloop : s.loop.unsetTimer q t =
      { s.loop.setQueue q ((s.loop.queue q).unlink t) with
        absTime := Function.update s.loop.absTime t 0 } := by
    simp [TimerLoop.unsetTimer, hne]
  rw [hloop]
  have hholds : (s.loop.queue q).Holds (as ++ t :: bs) := hL ▸ h.holds q
  -- what remains of every queue is part of it, and does not contain the timer
  have hsub : ∀ q', (Function.update L q (as ++ bs) q').Sublist (L q') := by
    intro q'
    by_cases hq : q' = q
    · subst hq
      simp [hL]
    · rw [Function.update_of_ne hq]
  have hout := h.linked.not_mem_unlink hL
  have hkeep : ∀ q', ∀ t' ∈ Function.update L q (as ++ bs) q',
      Function.update s.loop.absTime t 0 t' = s.loop.absTime t' := by
    intro q' t' ht'
    have hne : t' ≠ t := fun heq => hout q' (heq ▸ ht')
    rw [Function.update_of_ne hne]
  refine ⟨⟨fun q' => ?_, fun q' t' => ?_, fun q' => ?_, fun q' t' ht' => ?_, fun t' ht' => ?_,
    fun t' ht' => ?_, h.timeouts⟩, rfl⟩
  · exact (h.linked.unlink hL).holds q'
  · show t' ∈ Function.update L q (as ++ bs) q' ↔
      Function.update s.loop.absTime t 0 t' ≠ 0 ∧ s.queueOf t' = q'
    by_cases ht : t' = t
    · subst ht
      simp [hout q']
    · rw [Function.update_of_ne ht, ← h.mem q' t']
      by_cases hq : q' = q
      · subst hq
        simp [hL, ht]
      · rw [Function.update_of_ne hq]
  · refine ((h.sorted q').sublist (hsub q')).imp_of_mem fun {a b} ha hb hab => ?_
    show Function.update s.loop.absTime t 0 a ≤ Function.update s.loop.absTime t 0 b
    rwa [hkeep q' a ha, hkeep q' b hb]
  · show Function.update s.loop.absTime t 0 t' ≤ s.loop.currentTime + s.loop.timeout q'
    rw [hkeep q' t' ht']
    exact h.bound q' t' ((hsub q').mem ht')
  · show 250000 < Function.update s.loop.absTime t 0 t'
    have ht' : Function.update s.loop.absTime t 0 t' ≠ 0 := ht'
    by_cases ht : t' = t
    · subst ht
      simp at ht'
    · rw [Function.update_of_ne ht] at ht' ⊢
      exact h.large t' ht'
  · show ((s.loop.queue q).unlink t).next t' = none ∧ ((s.loop.queue q).unlink t).prev t' = none
    have ht' : Function.update s.loop.absTime t 0 t' = 0 := ht'
    by_cases ht : t' = t
    · subst ht
      exact ⟨DList.unlink_next_self, DList.unlink_prev_self⟩
    · rw [Function.update_of_ne ht] at ht'
      have hnot : t' ∉ L q := fun hmem' => ((h.mem q t').mp hmem').1 ht'
      obtain ⟨hn', hp'⟩ := (h.holds q).unlink_sameAt hmem hnot
      obtain ⟨hn₀, hp₀⟩ := h.unlinked t' ht'
      exact ⟨hn'.trans hn₀, hp'.trans hp₀⟩

/-- Taking a timer off the head of its queue is unsetting it. -/
theorem Queues.takeFirst_eq {l : List τ} (h : s.Queues L) (hL : L q = t :: l) :
    s.loop.takeFirst q t = s.loop.unsetTimer q t := by
  have hne : s.loop.absTime t ≠ 0 := ((h.mem q t).mp (by simp [hL])).1
  have hpop : (s.loop.queue q).popFront t = (s.loop.queue q).unlink t :=
    (show (s.loop.queue q).Holds (t :: l) from hL ▸ h.holds q).popFront_eq
  simp [TimerLoop.takeFirst, TimerLoop.unsetTimer, hne, hpop]

end Operations

section Due

/-- The timers of a list that `nxe_process_timers` would let fire. -/
def dueIn (s : TimerRun τ) (l : List τ) : List τ :=
  l.filter fun t => s.loop.absTime t ≤ s.loop.currentTime + 250000

theorem mem_dueIn {l : List τ} :
    t ∈ s.dueIn l ↔ t ∈ l ∧ s.loop.absTime t ≤ s.loop.currentTime + 250000 := by
  simp [dueIn]

variable [DecidableEq τ]

/-- A timer that is set now is not due. -/
theorem Queues.dueIn_set {loop : TimerLoop τ} (h : s.Queues L)
    (hset : s.loop.setTimer q t = some loop) (q' : QueueIdx) :
    dueIn { s with loop, queueOf := Function.update s.queueOf t q }
      (Function.update L q (L q ++ [t]) q') = s.dueIn (L q') := by
  obtain ⟨-, htime, habs⟩ := h.set hset
  have hzero : s.loop.absTime t = 0 := h.setTimer_isSome.mp (by rw [hset]; rfl)
  have hout : ∀ t' ∈ L q', t' ≠ t := fun t' ht' heq =>
    ((h.mem q' t').mp ht').1 (heq ▸ hzero)
  have hold : dueIn { s with loop, queueOf := Function.update s.queueOf t q } (L q') =
      s.dueIn (L q') := by
    refine List.filter_congr fun t' ht' => ?_
    simp [habs, htime, hout t' ht']
  by_cases hq : q' = q
  · subst hq
    have htimeout := (h.timeouts q').1
    rw [Function.update_self, dueIn, List.filter_append]
    rw [show List.filter _ (L q') = _ from hold]
    have hnew : ¬ s.loop.timeout q' ≤ 250000 := by omega
    simp [habs, htime, hnew]
  · rwa [Function.update_of_ne hq]

/-- A timer that is unset is the only one that is no longer due. -/
theorem Queues.dueIn_unset {as bs : List τ} (h : s.Queues L) (hL : L q = as ++ t :: bs)
    (log : List (TimerAct τ)) (q' : QueueIdx) :
    dueIn { s with loop := s.loop.unsetTimer q t, log } (Function.update L q (as ++ bs) q') =
      (s.dueIn (L q')).filter (· ≠ t) := by
  obtain ⟨-, habs⟩ := h.unset hL log
  have hmem : t ∈ L q := by simp [hL]
  have hne : s.loop.absTime t ≠ 0 := ((h.mem q t).mp hmem).1
  have htime : (s.loop.unsetTimer q t).currentTime = s.loop.currentTime := by
    simp [TimerLoop.unsetTimer, hne, TimerLoop.setQueue]
  have hlist : Function.update L q (as ++ bs) q' = (L q').filter (· ≠ t) := by
    by_cases hq : q' = q
    · subst hq
      have hholds : (s.loop.queue q').Holds (as ++ t :: bs) := hL ▸ h.holds q'
      obtain ⟨ha, hb⟩ := hholds.not_mem_sides
      have hfa : as.filter (· ≠ t) = as :=
        List.filter_eq_self.mpr fun x hx => by simpa using fun heq : x = t => ha (heq ▸ hx)
      have hfb : bs.filter (· ≠ t) = bs :=
        List.filter_eq_self.mpr fun x hx => by simpa using fun heq : x = t => hb (heq ▸ hx)
      simp only [Function.update_self, hL, List.filter_append, List.filter_cons, hfa, hfb]
      simp
    · rw [Function.update_of_ne hq]
      refine (List.filter_eq_self.mpr fun x hx => ?_).symm
      have hxt : x ≠ t := fun heq => h.not_mem_of_ne hmem hq (heq ▸ hx)
      simpa using hxt
  rw [hlist, dueIn, dueIn, List.filter_filter, List.filter_filter]
  refine List.filter_congr fun t' _ => ?_
  by_cases ht : t' = t
  · simp [ht]
  · simp [habs, htime, ht]

end Due

section Progress

variable {s₀ : TimerRun τ} {L₀ : QueueIdx → List τ}

/-- What holds while `nxe_process_timers` runs that was called in `s₀`: the timers that are due are
some of those that were due at the call, none of which a callback has unset, behind those that
have fired. -/
structure Progress (s₀ : TimerRun τ) (L₀ : QueueIdx → List τ) (s : TimerRun τ)
    (L : QueueIdx → List τ) : Prop where
  start : s₀.Queues L₀
  queues : s.Queues L
  time : s.loop.currentTime = s₀.loop.currentTime
  order : ∀ q, (s.fired.filter (s₀.queueOf · = q) ++ s.dueIn (L q)).Sublist (L₀ q)
  absTime_eq : ∀ q, ∀ t ∈ s.dueIn (L q), s.loop.absTime t = s₀.loop.absTime t
  all : ∀ q, ∀ t ∈ s₀.dueIn (L₀ q), t ∈ s.dueIn (L q) ∨ t ∈ s.fired ∨ .unset t ∈ s.log
  due : ∀ t ∈ s.fired, ∃ q, t ∈ s₀.dueIn (L₀ q)
  kept : ∀ q, ∀ t ∈ s.dueIn (L q), .unset t ∉ s.log
  fired_first : ∀ l t l', s.log = l ++ .fired t :: l' → .unset t ∉ l

/-- Before the first timer fires. -/
theorem Queues.progress (h : s.Queues L) : Progress s L { s with log := [] } L where
  start := h
  queues := ⟨h.holds, h.mem, h.sorted, h.bound, h.large, h.unlinked, h.timeouts⟩
  time := rfl
  order q := by simp [fired, dueIn]
  absTime_eq _ _ _ := rfl
  all _ _ ht := .inl ht
  due := by simp [fired]
  kept := by simp
  fired_first := by simp

/-- What is said about the order of acts holds when one more is added. -/
theorem fired_first_concat {log l l' : List (TimerAct τ)} {act : TimerAct τ}
    (h : ∀ l t l', log = l ++ .fired t :: l' → .unset t ∉ l)
    (hact : ∀ t, act = .fired t → .unset t ∉ log)
    (heq : log ++ [act] = l ++ .fired t :: l') : .unset t ∉ l := by
  rcases l'.eq_nil_or_concat with rfl | ⟨l', a, rfl⟩
  · obtain ⟨rfl, hacts⟩ := List.append_inj' heq rfl
    exact hact t (List.cons.inj hacts).1
  · have heq' : log ++ [act] = (l ++ .fired t :: l') ++ [a] := by simpa using heq
    exact h l t l' (List.append_inj' heq' rfl).1

variable [DecidableEq τ]

/-- Setting a timer makes no difference to those that are due. -/
theorem Progress.set {loop : TimerLoop τ} (h : Progress s₀ L₀ s L)
    (hset : s.loop.setTimer q t = some loop) :
    Progress s₀ L₀ { s with loop, queueOf := Function.update s.queueOf t q }
      (Function.update L q (L q ++ [t])) := by
  obtain ⟨hqueues, htime, habs⟩ := h.queues.set hset
  have hzero : s.loop.absTime t = 0 := h.queues.setTimer_isSome.mp (by rw [hset]; rfl)
  have hdue := h.queues.dueIn_set hset
  refine ⟨h.start, hqueues, htime.trans h.time, fun q' => ?_, fun q' t' ht' => ?_,
    fun q' t' ht' => ?_, h.due, fun q' t' ht' => ?_, h.fired_first⟩
  · rw [hdue q']
    exact h.order q'
  · rw [hdue q'] at ht'
    have hne : t' ≠ t := by
      rintro rfl
      exact ((h.queues.mem q' t').mp (mem_dueIn.mp ht').1).1 hzero
    rw [← h.absTime_eq q' t' ht']
    simp [habs, hne]
  · rw [hdue q']
    exact h.all q' t' ht'
  · rw [hdue q'] at ht'
    exact h.kept q' t' ht'

/-- A timer that leaves its queue, because it is unset or because it is due at the head of the
queue and fires, leaves the others that are due. -/
theorem Progress.remove {as bs : List τ} {act : TimerAct τ} (h : Progress s₀ L₀ s L)
    (hL : L q = as ++ t :: bs)
    (hact : act = .unset t ∨ act = .fired t ∧ as = [] ∧ t ∈ s.dueIn (L q)) :
    Progress s₀ L₀ { s with loop := s.loop.unsetTimer q t, log := s.log ++ [act] }
      (Function.update L q (as ++ bs)) := by
  obtain ⟨hqueues, habs⟩ := h.queues.unset hL (s.log ++ [act])
  have hdue := h.queues.dueIn_unset hL (s.log ++ [act])
  have hne : s.loop.absTime t ≠ 0 := ((h.queues.mem q t).mp (by simp [hL])).1
  have htime : (s.loop.unsetTimer q t).currentTime = s.loop.currentTime := by
    simp [TimerLoop.unsetTimer, hne, TimerLoop.setQueue]
  have hrest : ∀ q', ((s.dueIn (L q')).filter (· ≠ t)).Sublist (s.dueIn (L q')) :=
    fun q' => List.filter_sublist
  -- the timers that have fired, for either act
  have hfired : fired { s with loop := s.loop.unsetTimer q t, log := s.log ++ [act] } = s.fired ∧
        act = .unset t ∨
      fired { s with loop := s.loop.unsetTimer q t, log := s.log ++ [act] } = s.fired ++ [t] ∧
        act = .fired t ∧ as = [] ∧ t ∈ s.dueIn (L q) := by
    rcases hact with rfl | ⟨rfl, hhead⟩
    · exact .inl ⟨by simp [fired], rfl⟩
    · exact .inr ⟨by simp [fired], rfl, hhead⟩
  refine ⟨h.start, hqueues, htime.trans h.time, fun q' => ?_, fun q' t' ht' => ?_,
    fun q' t' ht' => ?_, fun t' ht' => ?_, fun q' t' ht' => ?_, fun l t' l' heq => ?_⟩
  · rw [hdue q']
    rcases hfired with ⟨hfired, -⟩ | ⟨hfired, -, rfl, ht⟩
    · rw [hfired]
      exact ((hrest q').append_left _).trans (h.order q')
    · have hstart : t ∈ L₀ q := (h.order q).mem (List.mem_append_right _ ht)
      have hqueue : s₀.queueOf t = q := ((h.start.mem q t).mp hstart).2
      rw [hfired, List.filter_append]
      by_cases hq : q' = q
      · -- the timer moves from the head of those that are due to the end of those that have fired
        subst hq
        have hnodup := (h.queues.holds q').nodup
        rw [hL, List.nil_append, List.nodup_cons] at hnodup
        have hhead : s.dueIn (L q') = t :: s.dueIn bs := by
          rw [hL]
          exact List.filter_cons_of_pos (by simpa using (mem_dueIn.mp ht).2)
        have htail : (s.dueIn (L q')).filter (· ≠ t) = s.dueIn bs := by
          rw [hhead, List.filter_cons_of_neg (by simp)]
          refine List.filter_eq_self.mpr fun x hx => ?_
          simpa using fun heq : x = t => hnodup.1 (heq ▸ (mem_dueIn.mp hx).1)
        have horder := h.order q'
        rw [hhead] at horder
        rw [htail]
        simpa [hqueue] using horder
      · have hnone : [t].filter (s₀.queueOf · = q') = [] := by
          simp [hqueue, Ne.symm hq]
        rw [hnone, List.append_nil]
        exact ((hrest q').append_left _).trans (h.order q')
  · rw [hdue q', List.mem_filter] at ht'
    have hne' : t' ≠ t := by simpa using ht'.2
    rw [← h.absTime_eq q' t' ht'.1]
    simp [habs, hne']
  · rw [hdue q', List.mem_filter]
    by_cases ht : t' = t
    · subst ht
      rcases hfired with ⟨-, rfl⟩ | ⟨hfired, -⟩
      · simp
      · simp [hfired]
    · have hmono : t' ∈ s.fired → t' ∈
          fired { s with loop := s.loop.unsetTimer q t, log := s.log ++ [act] } := by
        intro hin
        rcases hfired with ⟨hfired, -⟩ | ⟨hfired, -⟩ <;> simp [hfired, hin]
      rcases h.all q' t' ht' with hin | hin | hin
      · exact .inl ⟨hin, by simpa using ht⟩
      · exact .inr (.inl (hmono hin))
      · exact .inr (.inr (List.mem_append_left _ hin))
  · rcases hfired with ⟨hfired, -⟩ | ⟨hfired, -, -, ht⟩
    · exact h.due t' (hfired ▸ ht')
    · rw [hfired] at ht'
      rcases List.mem_append.mp ht' with ht' | ht'
      · exact h.due t' ht'
      · obtain rfl := List.mem_singleton.mp ht'
        refine ⟨q, mem_dueIn.mpr ⟨(h.order q).mem (List.mem_append_right _ ht), ?_⟩⟩
        rw [← h.absTime_eq q t' ht, ← h.time]
        exact (mem_dueIn.mp ht).2
  · rw [hdue q', List.mem_filter] at ht'
    have hne' : t' ≠ t := by simpa using ht'.2
    have hkept := h.kept q' t' ht'.1
    rcases hact with rfl | ⟨rfl, -⟩
    · simpa [hne'] using hkept
    · simpa using hkept
  · refine fired_first_concat h.fired_first (fun t'' heq' => ?_) heq
    rcases hact with rfl | ⟨rfl, -, ht⟩
    · simp at heq'
    · obtain rfl := TimerAct.fired.inj heq'
      exact h.kept q t ht

/-- A timer that is due at the head of its queue fires in its turn. -/
theorem Progress.fire {l : List τ} (h : Progress s₀ L₀ s L) (hL : L q = t :: l)
    (ht : t ∈ s.dueIn (L q)) : Progress s₀ L₀ (s.fire q t) (Function.update L q l) := by
  have hremove := h.remove (show L q = [] ++ t :: l from hL) (.inr ⟨rfl, rfl, ht⟩)
  rw [TimerRun.fire, h.queues.takeFirst_eq hL]
  exact hremove

/-- What an operation of a callback does while timers are processed. -/
theorem Progress.exec {op : TimerOp τ} (h : Progress s₀ L₀ s L) (hexec : s.exec op = .ok s') :
    ∃ L', Progress s₀ L₀ s' L' ∧ ∀ q, (s'.dueIn (L' q)).Sublist (s.dueIn (L q)) := by
  cases op with
  | set q t =>
    cases hset : s.loop.setTimer q t with
    | none => simp [TimerRun.exec, hset] at hexec
    | some loop =>
      obtain rfl : _ = s' := by simpa [TimerRun.exec, hset] using hexec
      refine ⟨_, h.set hset, fun q' => ?_⟩
      rw [h.queues.dueIn_set hset q']
  | unset t =>
    obtain rfl := Except.ok.inj hexec
    by_cases hzero : s.loop.absTime t = 0
    · refine ⟨L, ?_, fun q => ?_⟩
      · simpa [TimerLoop.unsetTimer, hzero] using h
      · simp [TimerLoop.unsetTimer, hzero, dueIn]
    · have hmem : t ∈ L (s.queueOf t) := (h.queues.mem _ t).mpr ⟨hzero, rfl⟩
      obtain ⟨as, bs, hL⟩ := List.append_of_mem hmem
      rw [if_neg hzero]
      refine ⟨_, h.remove hL (.inl rfl), fun q' => ?_⟩
      rw [h.queues.dueIn_unset hL _ q']
      exact List.filter_sublist

/-- What a callback does while timers are processed. -/
theorem Progress.execAll {ops : List (TimerOp τ)} (h : Progress s₀ L₀ s L)
    (hexec : s.execAll ops = .ok s') :
    ∃ L', Progress s₀ L₀ s' L' ∧ ∀ q, (s'.dueIn (L' q)).Sublist (s.dueIn (L q)) := by
  induction ops generalizing s L with
  | nil =>
    obtain rfl := Except.ok.inj hexec
    exact ⟨L, h, fun q => List.Sublist.refl _⟩
  | cons op ops ih =>
    unfold TimerRun.execAll at hexec
    split at hexec
    next s₁ hs₁ =>
      obtain ⟨L₁, h₁, hsub₁⟩ := h.exec hs₁
      obtain ⟨L', h', hsub'⟩ := ih h₁ hexec
      exact ⟨L', h', fun q => (hsub' q).trans (hsub₁ q)⟩
    next => cases hexec

/-- Callbacks that do not return have failed an assertion. -/
theorem execAll_error {ops : List (TimerOp τ)} {e : TimerStop} (h : s.execAll ops = .error e) :
    e = .assertion := by
  induction ops generalizing s with
  | nil => cases h
  | cons op ops ih =>
    unfold TimerRun.execAll at h
    split at h
    next => exact ih h
    next e' he' =>
      obtain rfl := Except.error.inj h
      cases op with
      | set q t =>
        cases hset : s.loop.setTimer q t with
        | some loop => simp [TimerRun.exec, hset] at he'
        | none => simpa [TimerRun.exec, hset] using he'.symm
      | unset t => simp [TimerRun.exec] at he'

omit [DecidableEq τ] in
/-- If the head of a queue is not due, nothing of the queue is. -/
theorem Queues.dueIn_eq_nil (h : s.Queues L)
    (hhead : s.loop.dueHead q = none) : s.dueIn (L q) = [] := by
  cases hL : L q with
  | nil => rfl
  | cons t l =>
    have hfirst : s.loop.first q = some t := by
      rw [show s.loop.first q = (L q).head? from (h.holds q).first_eq, hL]
      rfl
    have hset : s.loop.absTime t ≠ 0 := ((h.mem q t).mp (by simp [hL])).1
    have hlate : s.loop.currentTime + 250000 < s.loop.absTime t := by
      have hnot : s.loop.isDue t = false := by simpa [TimerLoop.dueHead, hfirst] using hhead
      by_contra hle
      simp [(h.isDue_iff hset).mpr (by omega)] at hnot
    have hsorted := h.sorted q
    rw [hL, List.pairwise_cons] at hsorted
    refine List.filter_eq_nil_iff.mpr fun t' ht' => ?_
    rw [decide_eq_true_eq, not_le]
    rcases List.mem_cons.mp ht' with rfl | ht'
    · exact hlate
    · exact hlate.trans_le (hsorted.1 t' ht')

omit [DecidableEq τ] in
/-- If the head of a queue is due, it is the first timer of the queue that is. -/
theorem Queues.dueIn_eq_cons (h : s.Queues L) (hhead : s.loop.dueHead q = some t) :
    ∃ l, L q = t :: l ∧ s.dueIn (L q) = t :: s.dueIn l := by
  obtain ⟨hfirst, hdue⟩ := Option.filter_eq_some_iff.mp hhead
  have hcell := (h.holds q).first_eq
  cases hL : L q with
  | nil =>
    rw [hL] at hcell
    exact absurd (hfirst.symm.trans hcell) (by simp)
  | cons t' l =>
    rw [hL] at hcell
    obtain rfl : t = t' := Option.some.inj (hfirst.symm.trans hcell)
    have hset : s.loop.absTime t ≠ 0 := ((h.mem q t).mp (by simp [hL])).1
    refine ⟨l, rfl, List.filter_cons_of_pos ?_⟩
    simpa using (h.isDue_iff hset).mp hdue

/-- The inner loop of `nxe_process_timers` leaves no timer of its queue due, and ends after as many
rounds as there were such timers. -/
theorem Progress.drain (script : ℕ → List (TimerOp τ)) (fuel : ℕ) (h : Progress s₀ L₀ s L) :
    (∀ s', drain script q fuel s = .ok s' → ∃ L', Progress s₀ L₀ s' L' ∧
      (∀ q', (s'.dueIn (L' q')).Sublist (s.dueIn (L q'))) ∧ s'.dueIn (L' q) = []) ∧
      ((s.dueIn (L q)).length ≤ fuel → drain script q fuel s ≠ .error .fuel) := by
  induction fuel generalizing s L with
  | zero =>
    cases hhead : s.loop.dueHead q with
    | none =>
      simp only [TimerRun.drain, hhead]
      refine ⟨fun s' hs' => ?_, fun _ => by simp⟩
      obtain rfl := Except.ok.inj hs'
      exact ⟨L, h, fun _ => List.Sublist.refl _, h.queues.dueIn_eq_nil hhead⟩
    | some t =>
      obtain ⟨l, -, hdue⟩ := h.queues.dueIn_eq_cons hhead
      simp [TimerRun.drain, hhead, hdue]
  | succ fuel ih =>
    cases hhead : s.loop.dueHead q with
    | none =>
      simp only [TimerRun.drain, hhead]
      refine ⟨fun s' hs' => ?_, fun _ => by simp⟩
      obtain rfl := Except.ok.inj hs'
      exact ⟨L, h, fun _ => List.Sublist.refl _, h.queues.dueIn_eq_nil hhead⟩
    | some t =>
      obtain ⟨l, hL, hdue⟩ := h.queues.dueIn_eq_cons hhead
      have hfire := h.fire hL (by simp [hdue])
      -- the timer that fires is no longer due, the others are as before
      have hfireDue : ∀ q', (s.fire q t).dueIn (Function.update L q l q') =
          (s.dueIn (L q')).filter (· ≠ t) := by
        intro q'
        have := h.queues.dueIn_unset (show L q = [] ++ t :: l from hL) (s.log ++ [.fired t]) q'
        rwa [TimerRun.fire, h.queues.takeFirst_eq hL]
      simp only [TimerRun.drain, hhead]
      cases hexec : (s.fire q t).execAll (script s.fired.length) with
      | error e =>
        obtain rfl := execAll_error hexec
        simp
      | ok s₁ =>
        obtain ⟨L₁, h₁, hsub₁⟩ := hfire.execAll hexec
        obtain ⟨hok, hfuel⟩ := ih h₁
        have hsub : ∀ q', (s₁.dueIn (L₁ q')).Sublist ((s.dueIn (L q')).filter (· ≠ t)) :=
          fun q' => hfireDue q' ▸ hsub₁ q'
        refine ⟨fun s' hs' => ?_, fun hlen => hfuel ?_⟩
        · obtain ⟨L', h', hsub', hnil⟩ := hok s' hs'
          exact ⟨L', h', fun q' => (hsub' q').trans ((hsub q').trans List.filter_sublist), hnil⟩
        · have hle := (hsub q).length_le
          rw [hdue, List.filter_cons_of_neg (by simp)] at hle
          have hle' := List.length_filter_le (· ≠ t) (s.dueIn l)
          rw [hdue, List.length_cons] at hlen
          omega

/-- `nxe_process_timers` leaves no timer of the queues it has processed due, and ends. -/
theorem Progress.drainAll (script : ℕ → List (TimerOp τ)) (fuel : ℕ) (qs : List QueueIdx)
    (h : Progress s₀ L₀ s L) :
    (∀ s', drainAll script fuel qs s = .ok s' → ∃ L', Progress s₀ L₀ s' L' ∧
      (∀ q, (s'.dueIn (L' q)).Sublist (s.dueIn (L q))) ∧ ∀ q ∈ qs, s'.dueIn (L' q) = []) ∧
      ((∀ q, (s.dueIn (L q)).length ≤ fuel) → drainAll script fuel qs s ≠ .error .fuel) := by
  induction qs generalizing s L with
  | nil =>
    refine ⟨fun s' hs' => ?_, fun _ => by simp [TimerRun.drainAll]⟩
    obtain rfl := Except.ok.inj hs'
    exact ⟨L, h, fun _ => List.Sublist.refl _, by simp⟩
  | cons q qs ih =>
    obtain ⟨hok, hfuel⟩ := h.drain (q := q) script fuel
    unfold TimerRun.drainAll
    cases hdrain : TimerRun.drain script q fuel s with
    | error e =>
      refine ⟨by simp, fun hlen heq => hfuel (hlen q) ?_⟩
      rw [hdrain]
      exact heq
    | ok s₁ =>
      obtain ⟨L₁, h₁, hsub₁, hnil₁⟩ := hok s₁ hdrain
      obtain ⟨hok', hfuel'⟩ := ih h₁
      refine ⟨fun s' hs' => ?_, fun hlen => hfuel' fun q' => ?_⟩
      · obtain ⟨L', h', hsub', hnil'⟩ := hok' s' hs'
        refine ⟨L', h', fun q' => (hsub' q').trans (hsub₁ q'), fun q' hq' => ?_⟩
        rcases List.mem_cons.mp hq' with rfl | hq'
        · exact List.eq_nil_of_sublist_nil (hnil₁ ▸ hsub' q')
        · exact hnil' q' hq'
      · exact (hsub₁ q').length_le.trans (hlen q')

end Progress

section Closest

/-- The queue found among some queues is one whose head expires no later than their heads. -/
structure Closest (loop : TimerLoop τ) (qs : List QueueIdx) (closest : Option QueueIdx) : Prop where
  none_left : closest = none → ∀ q ∈ qs, loop.first q = none
  head_le : ∀ q ∈ closest, ∃ t, loop.first q = some t ∧
    ∀ q' ∈ qs, ∀ t' ∈ loop.first q', loop.absTime t ≤ loop.absTime t'

theorem Closest.closer {loop : TimerLoop τ} {qs : List QueueIdx} {closest : Option QueueIdx}
    (h : Closest loop qs closest) (q : QueueIdx) :
    Closest loop (qs ++ [q]) (loop.closer closest q) := by
  unfold TimerLoop.closer
  split
  next hq =>
    -- an empty queue changes nothing
    refine ⟨fun hnone q' hq' => ?_, fun q₁ hq₁ => ?_⟩
    · rcases List.mem_append.mp hq' with hq' | hq'
      · exact h.none_left hnone q' hq'
      · rw [List.mem_singleton.mp hq', hq]
    · obtain ⟨t, ht, hle⟩ := h.head_le q₁ hq₁
      refine ⟨t, ht, fun q' hq' t' ht' => ?_⟩
      rcases List.mem_append.mp hq' with hq' | hq'
      · exact hle q' hq' t' ht'
      · rw [List.mem_singleton.mp hq', hq] at ht'
        cases ht'
  next t hq =>
    split
    next =>
      refine ⟨by simp, fun q₁ hq₁ => ?_⟩
      obtain rfl := Option.some.inj hq₁
      refine ⟨t, hq, fun q' hq' t' ht' => ?_⟩
      rcases List.mem_append.mp hq' with hq' | hq'
      · rw [h.none_left rfl q' hq'] at ht'
        cases ht'
      · rw [List.mem_singleton.mp hq', hq] at ht'
        exact (Option.some.inj ht') ▸ le_rfl
    next q₀ =>
      obtain ⟨t₀, ht₀, hle⟩ := h.head_le q₀ rfl
      simp only [ht₀]
      by_cases hlt : loop.absTime t < loop.absTime t₀
      · rw [if_pos hlt]
        refine ⟨by simp, fun q₁ hq₁ => ?_⟩
        obtain rfl := Option.some.inj hq₁
        refine ⟨t, hq, fun q' hq' t' ht' => ?_⟩
        rcases List.mem_append.mp hq' with hq' | hq'
        · exact hlt.le.trans (hle q' hq' t' ht')
        · rw [List.mem_singleton.mp hq', hq] at ht'
          exact (Option.some.inj ht') ▸ le_rfl
      · rw [if_neg hlt]
        refine ⟨by simp, fun q₁ hq₁ => ?_⟩
        obtain rfl := Option.some.inj hq₁
        refine ⟨t₀, ht₀, fun q' hq' t' ht' => ?_⟩
        rcases List.mem_append.mp hq' with hq' | hq'
        · exact hle q' hq' t' ht'
        · rw [List.mem_singleton.mp hq', hq] at ht'
          exact (Option.some.inj ht') ▸ (not_lt.mp hlt)

theorem Closest.foldl {loop : TimerLoop τ} {qs : List QueueIdx} {closest : Option QueueIdx}
    (h : Closest loop qs closest) (qs' : List QueueIdx) :
    Closest loop (qs ++ qs') (qs'.foldl loop.closer closest) := by
  induction qs' generalizing qs closest with
  | nil => simpa using h
  | cons q qs' ih => simpa using ih (h.closer q)

/-- `nxe_closest_tq` finds the queue of a timer that expires first. -/
theorem Queues.closestTq (h : s.Queues L) :
    (s.loop.closestTq = none → ∀ t, s.loop.absTime t = 0) ∧
      ∀ q, s.loop.closestTq = some q → ∃ t, s.loop.first q = some t ∧ s.loop.absTime t ≠ 0 ∧
        ∀ t', s.loop.absTime t' ≠ 0 → s.loop.absTime t ≤ s.loop.absTime t' := by
  have hstart : Closest s.loop [] none := ⟨by simp, by simp⟩
  have hclosest := hstart.foldl (List.finRange 8)
  -- the head of the queue of a timer expires no later than the timer
  have hhead : ∀ t, s.loop.absTime t ≠ 0 → ∃ t₁, s.loop.first (s.queueOf t) = some t₁ ∧
      s.loop.absTime t₁ ≤ s.loop.absTime t := by
    intro t ht
    have hmem : t ∈ L (s.queueOf t) := (h.mem _ t).mpr ⟨ht, rfl⟩
    have hfirst : s.loop.first (s.queueOf t) = _ := (h.holds (s.queueOf t)).first_eq
    have hsorted := h.sorted (s.queueOf t)
    generalize L (s.queueOf t) = l at hmem hfirst hsorted
    cases l with
    | nil => simp at hmem
    | cons t₁ l =>
      refine ⟨t₁, hfirst, ?_⟩
      rcases List.mem_cons.mp hmem with rfl | hmem
      · exact le_rfl
      · exact (List.pairwise_cons.mp hsorted).1 t hmem
  refine ⟨fun hnone t => ?_, fun q hq => ?_⟩
  · by_contra ht
    obtain ⟨t₁, ht₁, -⟩ := hhead t ht
    have := hclosest.none_left hnone (s.queueOf t) (by simp)
    rw [ht₁] at this
    cases this
  · obtain ⟨t, ht, hle⟩ := hclosest.head_le q hq
    have hmem : t ∈ L q := (h.holds q).mem_of_first ht
    refine ⟨t, ht, ((h.mem q t).mp hmem).1, fun t' ht' => ?_⟩
    obtain ⟨t₁, ht₁, hle₁⟩ := hhead t' ht'
    exact (hle (s.queueOf t') (by simp) t₁ ht₁).trans hle₁

end Closest

section Runs

/-- What a call of `nxe_process_timers` in `s` that has returned in `s'` has done. -/
structure Processed (s s' : TimerRun τ) : Prop where
  /-- No timer has fired twice. -/
  nodup : s'.fired.Nodup
  /-- Only timers that were due have fired. -/
  fired_due : ∀ t ∈ s'.fired,
    s.loop.absTime t ≠ 0 ∧ s.loop.absTime t ≤ s.loop.currentTime + 250000
  /-- Every timer that was due has fired, or a callback has unset it. -/
  fires : ∀ t, s.loop.absTime t ≠ 0 → s.loop.absTime t ≤ s.loop.currentTime + 250000 →
    t ∈ s'.fired ∨ .unset t ∈ s'.log
  /-- A timer that a callback has unset does not fire afterwards. -/
  unset_first : ∀ l t l', s'.log = l ++ .fired t :: l' → .unset t ∉ l
  /-- The timers of one queue fire in the order of the queue. -/
  in_order : ∀ q, ∃ l, (s.loop.queue q).Holds l ∧ (s'.fired.filter (s.queueOf · = q)).Sublist l
  /-- No timer is left that is due. -/
  none_left : ∀ t, s'.loop.absTime t ≠ 0 → s.loop.currentTime + 250000 < s'.loop.absTime t

/-- No timer is on any queue at the start. -/
theorem queues_init {timeout : QueueIdx → ℕ} {now : ℕ} (htimeout : ∀ q, 250000 < timeout q)
    (hnow : ∀ q, now + timeout q < 2 ^ 64) :
    (init timeout now : TimerRun τ).Queues fun _ => [] where
  holds _ := DList.holds_nil rfl rfl
  mem := by simp [init]
  sorted := by simp
  bound := by simp
  large := by simp [init]
  unlinked := by simp [init]
  timeouts q := ⟨htimeout q, hnow q⟩

variable [DecidableEq τ]

theorem Queues.processTimers {script : ℕ → List (TimerOp τ)} {fuel : ℕ} (h : s.Queues L)
    (hs' : s.processTimers script fuel = .ok s') : (∃ L', s'.Queues L') ∧ s.Processed s' := by
  obtain ⟨L', h', -, hnil⟩ := (h.progress.drainAll script fuel (List.finRange 8)).1 s' hs'
  refine ⟨⟨L', h'.queues⟩, ?_, fun t ht => ?_, fun t ht hdue => ?_, h'.fired_first, fun q => ?_,
    fun t ht => ?_⟩
  · -- two firings of a timer would be two in its queue
    refine List.nodup_iff_count_le_one.mpr fun t => ?_
    have hsub : (s'.fired.filter (s.queueOf · = s.queueOf t)).Sublist (L (s.queueOf t)) :=
      (List.sublist_append_left _ _).trans (h'.order (s.queueOf t))
    have hone := List.nodup_iff_count_le_one.mp ((h.holds (s.queueOf t)).nodup.sublist hsub) t
    rwa [List.count_filter (by simp)] at hone
  · obtain ⟨q, hq⟩ := h'.due t ht
    obtain ⟨hmem, hdue⟩ := mem_dueIn.mp hq
    exact ⟨((h.mem q t).mp hmem).1, hdue⟩
  · have hmem : t ∈ s.dueIn (L (s.queueOf t)) :=
      mem_dueIn.mpr ⟨(h.mem _ t).mpr ⟨ht, rfl⟩, hdue⟩
    rcases h'.all _ t hmem with hin | hin
    · rw [hnil _ (by simp)] at hin
      cases hin
    · exact hin
  · exact ⟨L q, h.holds q, (List.sublist_append_left _ _).trans (h'.order q)⟩
  · have hmem : t ∈ L' (s'.queueOf t) := (h'.queues.mem _ t).mpr ⟨ht, rfl⟩
    have hnot : t ∉ s'.dueIn (L' (s'.queueOf t)) := by simp [hnil _ (List.mem_finRange _)]
    rw [mem_dueIn, not_and, not_le, h'.time] at hnot
    exact hnot hmem

/-- An operation outside of callbacks. -/
theorem Queues.exec {op : TimerOp τ} (h : s.Queues L) (hexec : s.exec op = .ok s') :
    ∃ L', s'.Queues L' := by
  cases op with
  | set q t =>
    cases hset : s.loop.setTimer q t with
    | none => simp [TimerRun.exec, hset] at hexec
    | some loop =>
      obtain rfl : _ = s' := by simpa [TimerRun.exec, hset] using hexec
      exact ⟨_, (h.set hset).1⟩
  | unset t =>
    obtain rfl := Except.ok.inj hexec
    by_cases hzero : s.loop.absTime t = 0
    · exact ⟨L, by simpa [TimerLoop.unsetTimer, hzero] using h⟩
    · have hmem : t ∈ L (s.queueOf t) := (h.mem _ t).mpr ⟨hzero, rfl⟩
      obtain ⟨as, bs, hL⟩ := List.append_of_mem hmem
      exact ⟨_, (h.unset hL _).1⟩

/-- Every event keeps the queues in order. -/
theorem Queues.step {e : TimerEvent τ} (h : s.Queues L) (hstep : s.step e = some s') :
    ∃ L', s'.Queues L' := by
  cases e with
  | tick now =>
    by_cases hclock : s.ClockAllows now
    · obtain rfl : _ = s' := by simpa [TimerRun.step, hclock] using hstep
      obtain ⟨hle, hrange⟩ := hclock
      exact ⟨L, h.holds, h.mem, h.sorted,
        fun q t ht => (h.bound q t ht).trans (Nat.add_le_add_right hle _), h.large, h.unlinked,
        fun q => ⟨(h.timeouts q).1, hrange q⟩⟩
    · simp [TimerRun.step, hclock] at hstep
  | op op =>
    cases hexec : s.exec op with
    | ok s₁ =>
      obtain rfl : s₁ = s' := by simpa [TimerRun.step, hexec, Except.toOption] using hstep
      exact h.exec hexec
    | error e => simp [TimerRun.step, hexec, Except.toOption] at hstep
  | process script fuel =>
    cases hproc : s.processTimers script fuel with
    | ok s₁ =>
      obtain rfl : s₁ = s' := by simpa [TimerRun.step, hproc, Except.toOption] using hstep
      exact (h.processTimers hproc).1
    | error e => simp [TimerRun.step, hproc, Except.toOption] at hstep

/-- Timers that are in order. -/
structure Sound (s : TimerRun τ) : Prop where
  /-- Every queue is a doubly linked list, sorted by expiry, of the timers that are set on it. -/
  queues : ∀ q, ∃ l, (s.loop.queue q).Holds l ∧
    (l.Pairwise fun t t' => s.loop.absTime t ≤ s.loop.absTime t') ∧
    ∀ t, t ∈ l ↔ s.loop.absTime t ≠ 0 ∧ s.queueOf t = q
  /-- The assertion of `nxe_set_timer` fails only for a timer that is set. -/
  assertion : ∀ q t, (s.loop.setTimer q t).isSome ↔ s.loop.absTime t = 0
  /-- `nxe_process_timers` ends, whatever the callbacks do. -/
  terminates : ∀ script, ∃ n, ∀ fuel, n ≤ fuel → s.processTimers script fuel ≠ .error .fuel
  /-- `nxe_process_timers` lets the timers fire that are due. -/
  process : ∀ script fuel s', s.processTimers script fuel = .ok s' → s.Processed s'
  /-- `nxe_closest_tq` finds no queue only if no timer is set. -/
  closest_none : s.loop.closestTq = none → ∀ t, s.loop.absTime t = 0
  /-- `nxe_closest_tq` finds a queue whose head expires first of all timers. -/
  closest_some : ∀ q, s.loop.closestTq = some q → ∃ t, s.loop.first q = some t ∧
    s.loop.absTime t ≠ 0 ∧ ∀ t', s.loop.absTime t' ≠ 0 → s.loop.absTime t ≤ s.loop.absTime t'

theorem Queues.sound (h : s.Queues L) : s.Sound where
  queues q := ⟨L q, h.holds q, h.sorted q, h.mem q⟩
  assertion _ _ := h.setTimer_isSome
  terminates script := by
    -- no queue has more timers that are due than all queues together
    refine ⟨∑ q, (s.dueIn (L q)).length, fun fuel hfuel => ?_⟩
    refine (h.progress.drainAll script fuel (List.finRange 8)).2 fun q => le_trans ?_ hfuel
    exact Finset.single_le_sum (f := fun q => (s.dueIn (L q)).length) (fun _ _ => Nat.zero_le _)
      (Finset.mem_univ q)
  process _ _ _ hs' := (h.processTimers hs').2
  closest_none := h.closestTq.1
  closest_some := h.closestTq.2

/-- Timers are in order after any sequence of clock readings that do not go back, operations on
timers and calls of `nxe_process_timers` with any callbacks, if all timeouts are larger than a
quarter of a second. -/
theorem timers_sound (timeout : QueueIdx → ℕ) (now : ℕ) (htimeout : ∀ q, 250000 < timeout q)
    (hnow : ∀ q, now + timeout q < 2 ^ 64) (es : List (TimerEvent τ)) (s : TimerRun τ)
    (hrun : run step (init timeout now) es = some s) : s.Sound := by
  obtain ⟨L, h⟩ : ∃ L, s.Queues L :=
    run_inv (I := fun s : TimerRun τ => ∃ L, s.Queues L)
      (fun _ _ _ ⟨_, h⟩ hstep => h.step hstep) ⟨_, queues_init htimeout hnow⟩ hrun
  exact h.sound

/-- Timers `0` and `1` are set on the queue of the keep-alive timers and become due together; the
callback of the first unsets the second and sets the first again. -/
theorem timers_sound_run :
    ∃ s : TimerRun ℕ, run step (init (fun _ => 500000) 10)
        [.op (.set 0 0), .op (.set 0 1), .tick 400000,
          .process (fun _ => [.unset 1, .set 0 0]) 3] = some s ∧
      s.log = [.fired 0, .unset 1] ∧ s.Sound := by
  refine ⟨_, rfl, by decide, ?_⟩
  exact timers_sound (fun _ => 500000) 10 (by decide) (by decide)
    [.op (.set 0 0), .op (.set 0 1), .tick 400000,
      .process (fun _ => [.unset 1, .set 0 0]) 3] _ rfl

end Runs

end TimerRun

end Nxweb
