import Mathlib.Data.List.TakeWhile
import Nxweb.Event.TimerQueues
import Nxweb.Lib.Loop

/-!
# Does `nxe_process_timers` return?

`nxe_process_timers` takes a timer off the head of a queue as long as that timer is due. Its clock
is not read again meanwhile. A timer that its callback sets again goes to the end of the queue, so
whether the loop ends depends on whether a timer that is set now is due at once.

The callbacks here are those of `accept_retry_on_timeout`: `accept_connection` unsets the timer
and sets it again if `accept4` fails. Timeouts are arbitrary: `nxweb_set_timeout` checks the index
of the queue only.

## Main statements

* `processTimers_eq_ok_iff`: the call with a bound on its rounds and the call without one have
  the same results;
* `returns_iff`: when the call returns, whatever the attempts to accept do.
-/

namespace Nxweb

open Lib

variable {τ : Type*}

/-- A timer that is set now on the queue is due at once. -/
def TimerLoop.DueAtOnce (loop : TimerLoop τ) (q : QueueIdx) : Prop :=
  ((loop.currentTime + loop.timeout q) % 2 ^ 64 + 2 ^ 64 - 250000) % 2 ^ 64 ≤ loop.currentTime

/-- On a clock and with a timeout of 64 bits, a timer is not due at once exactly if the timeout is
longer than a quarter of a second and the sum stays in range, or if the sum is shorter than a
quarter of a second. -/
theorem TimerLoop.not_dueAtOnce_iff {loop : TimerLoop τ} {q : QueueIdx}
    (hnow : loop.currentTime < 2 ^ 64) (htimeout : loop.timeout q < 2 ^ 64) :
    ¬ loop.DueAtOnce q ↔
      250000 < loop.timeout q ∧ loop.currentTime + loop.timeout q < 2 ^ 64 + 250000 ∨
        loop.currentTime + loop.timeout q < 250000 := by
  rw [DueAtOnce]
  omega

/-- Whether a timer is due depends on when it expires and on the clock. -/
theorem TimerLoop.isDue_congr {loop loop' : TimerLoop τ} {t : τ}
    (habs : loop'.absTime t = loop.absTime t) (hnow : loop'.currentTime = loop.currentTime) :
    loop'.isDue t = loop.isDue t := by
  rw [isDue, isDue, habs, hnow]

/-- A timer that was set a moment ago is due exactly if timers set now are due at once. -/
theorem TimerLoop.isDue_iff_dueAtOnce {loop loop' : TimerLoop τ} {q : QueueIdx} {t : τ}
    (habs : loop'.absTime t = (loop.currentTime + loop.timeout q) % 2 ^ 64)
    (hnow : loop'.currentTime = loop.currentTime) : loop'.isDue t ↔ loop.DueAtOnce q := by
  rw [isDue, habs, hnow, decide_eq_true_iff, DueAtOnce]

/-- The timer that a round takes off is the first of its queue. -/
theorem TimerLoop.Linked.dueHead_eq_some_iff {loop : TimerLoop τ} {L : QueueIdx → List τ}
    (h : loop.Linked L) {q : QueueIdx} {t : τ} :
    loop.dueHead q = some t ↔ (∃ l, L q = t :: l) ∧ loop.isDue t := by
  have hfirst : loop.first q = (L q).head? := (h.holds q).first_eq
  rw [dueHead, hfirst, Option.filter_eq_some_iff, List.head?_eq_some_iff]

/-- The head of a list with a property depends on the property of its entries. -/
theorem takeWhile_congr {α : Type*} {p p' : α → Bool} {l : List α} (h : ∀ x ∈ l, p x = p' x) :
    l.takeWhile p = l.takeWhile p' := by
  induction l with
  | nil => rfl
  | cons x l ih =>
    rw [List.takeWhile_cons, List.takeWhile_cons, h x List.mem_cons_self,
      ih fun y hy => h y (List.mem_cons_of_mem x hy)]

/-- An entry behind one without the property, or itself without it, does not count to those with
the property at the head of a list. -/
theorem takeWhile_append_singleton {α : Type*} {p : α → Bool} {l : List α} {x : α}
    (h : ¬ ∀ y ∈ l ++ [x], p y) : (l ++ [x]).takeWhile p = l.takeWhile p := by
  rw [List.takeWhile_append]
  split_ifs with hall
  · have hl : l.takeWhile p = l := (List.takeWhile_prefix p).eq_of_length hall
    have hx : ¬ p x := fun hx => h fun y hy => by
      rcases List.mem_append.mp hy with hmem | hmem
      · exact List.takeWhile_eq_self_iff.mp hl y hmem
      · rwa [List.mem_singleton.mp hmem]
    rw [List.takeWhile_cons_of_neg hx, List.append_nil, hl]
  · rfl

/-- The queue never runs out of timers that are due, if all of them are set again. -/
def TimerLoop.Endless (loop : TimerLoop τ) (q : QueueIdx) (l : List τ) : Prop :=
  l ≠ [] ∧ (∀ t ∈ l, loop.isDue t) ∧ loop.DueAtOnce q

namespace TimerRun

variable [DecidableEq τ]

/-! ### The call, round by round -/

/-- One round of the loops of `nxe_process_timers`, with the queues that are left; the first of
them is being processed. The callback may depend on the number of timers that have fired. -/
def processTurn (callback : ℕ → QueueIdx → τ → List (TimerOp τ)) :
    List QueueIdx × TimerRun τ → Turn (List QueueIdx × TimerRun τ) (TimerRun τ)
  | ([], s) => .ret s
  | (q :: qs, s) =>
    match s.loop.dueHead q with
    | none => .next (qs, s)
    | some t =>
      match (s.fire q t).execAll (callback s.fired.length q t) with
      | .ok s' => .next (q :: qs, s')
      | .error _ => .fault

/-- A call of `nxe_process_timers` returns. -/
def Returns (callback : ℕ → QueueIdx → τ → List (TimerOp τ)) (s : TimerRun τ) : Prop :=
  LoopEnds (processTurn callback) (List.finRange 8, { s with log := [] })

/-- What `accept_retry_on_timeout` does to timers: `accept_connection` unsets the timer that has
fired, and sets it again if its attempt fails. -/
def acceptRetry (fails : ℕ → Bool) (n : ℕ) (q : QueueIdx) (t : τ) : List (TimerOp τ) :=
  .unset t :: if fails n then [.set q t] else []

variable {callback : ℕ → QueueIdx → τ → List (TimerOp τ)} {s s' : TimerRun τ} {q : QueueIdx}
  {qs : List QueueIdx} {t : τ}

theorem processTurn_of_dueHead_none (h : s.loop.dueHead q = none) :
    processTurn callback (q :: qs, s) = .next (qs, s) := by
  simp only [processTurn, h]

theorem processTurn_of_dueHead (h : s.loop.dueHead q = some t)
    (hcall : (s.fire q t).execAll (callback s.fired.length q t) = .ok s') :
    processTurn callback (q :: qs, s) = .next (q :: qs, s') := by
  simp only [processTurn, h, hcall]

/-! ### The same call with a bound -/

section Bounded

variable {script : ℕ → List (TimerOp τ)}

/-- The inner loop has ended with the first queue. -/
theorem loop_of_drain {fuel : ℕ} (h : drain script q fuel s = .ok s') :
    LoopReaches (processTurn fun n _ _ => script n) (q :: qs, s) (qs, s') := by
  induction fuel generalizing s with
  | zero =>
    cases hdue : s.loop.dueHead q with
    | some t => simp [drain, hdue] at h
    | none =>
      simp only [drain, hdue, Except.ok.injEq] at h
      subst h
      exact .single (processTurn_of_dueHead_none hdue)
  | succ fuel ih =>
    cases hdue : s.loop.dueHead q with
    | none =>
      simp only [drain, hdue, Except.ok.injEq] at h
      subst h
      exact .single (processTurn_of_dueHead_none hdue)
    | some t =>
      cases hcall : (s.fire q t).execAll (script s.fired.length) with
      | error e => simp [drain, hdue, hcall] at h
      | ok s₁ =>
        simp only [drain, hdue, hcall] at h
        exact .head (processTurn_of_dueHead hdue hcall) (ih h)

/-- More rounds do not change a result. -/
theorem drain_succ {fuel : ℕ} (h : drain script q fuel s = .ok s') :
    drain script q (fuel + 1) s = .ok s' := by
  induction fuel generalizing s with
  | zero =>
    cases hdue : s.loop.dueHead q with
    | some t => simp [drain, hdue] at h
    | none => simpa [drain, hdue] using h
  | succ fuel ih =>
    cases hdue : s.loop.dueHead q with
    | none => simpa [drain, hdue] using h
    | some t =>
      cases hcall : (s.fire q t).execAll (script s.fired.length) with
      | error e => simp [drain, hdue, hcall] at h
      | ok s₁ =>
        rw [drain] at h ⊢
        simp only [hdue, hcall] at h ⊢
        exact ih h

theorem drainAll_succ {fuel : ℕ} (h : drainAll script fuel qs s = .ok s') :
    drainAll script (fuel + 1) qs s = .ok s' := by
  induction qs generalizing s with
  | nil => exact h
  | cons q qs ih =>
    cases hdrain : drain script q fuel s with
    | error e => simp [drainAll, hdrain] at h
    | ok s₁ =>
      simp only [drainAll, hdrain, drain_succ hdrain] at h ⊢
      exact ih h

theorem loop_of_drainAll {fuel : ℕ} (h : drainAll script fuel qs s = .ok s') :
    LoopReaches (processTurn fun n _ _ => script n) (qs, s) ([], s') := by
  induction qs generalizing s with
  | nil =>
    obtain rfl := Except.ok.inj h
    exact .refl
  | cons q qs ih =>
    cases hdrain : drain script q fuel s with
    | error e => simp [drainAll, hdrain] at h
    | ok s₁ =>
      simp only [drainAll, hdrain] at h
      exact (loop_of_drain hdrain).trans (ih h)

/-- A call that returns after some rounds needs no more of them in any of its loops. -/
theorem drainAll_of_loop {n : ℕ}
    (h : Lib.loop (processTurn fun n _ _ => script n) n (qs, s) = some s') :
    ∃ fuel, drainAll script fuel qs s = .ok s' := by
  induction n generalizing qs s with
  | zero => simp [Lib.loop] at h
  | succ n ih =>
    cases qs with
    | nil =>
      obtain rfl : s = s' := by simpa [Lib.loop, processTurn] using h
      exact ⟨0, rfl⟩
    | cons q qs =>
      cases hdue : s.loop.dueHead q with
      | none =>
        rw [loop_of_next (processTurn_of_dueHead_none hdue)] at h
        obtain ⟨fuel, hfuel⟩ := ih h
        have hdrain : drain script q fuel s = .ok s := by
          cases fuel <;> simp only [drain, hdue]
        exact ⟨fuel, by simpa only [drainAll, hdrain] using hfuel⟩
      | some t =>
        cases hcall : (s.fire q t).execAll (script s.fired.length) with
        | error e => simp [Lib.loop, processTurn, hdue, hcall] at h
        | ok s₁ =>
          rw [loop_of_next (processTurn_of_dueHead hdue hcall)] at h
          obtain ⟨fuel, hfuel⟩ := ih h
          refine ⟨fuel + 1, ?_⟩
          cases hdrain : drain script q fuel s₁ with
          | error e => simp [drainAll, hdrain] at hfuel
          | ok s₂ =>
            have hround : drain script q (fuel + 1) s = .ok s₂ := by
              rw [drain]
              simp only [hdue, hcall, hdrain]
            simp only [drainAll, hdrain, hround] at hfuel ⊢
            exact drainAll_succ hfuel

/-- With callbacks that do not depend on the timer, `nxe_process_timers` has the same results with
a bound on its rounds, if that is large enough, and without one. -/
theorem processTimers_eq_ok_iff :
    (∃ fuel, s.processTimers script fuel = .ok s') ↔
      ∃ n, Lib.loop (processTurn fun n _ _ => script n) n
        (List.finRange 8, { s with log := [] }) = some s' := by
  constructor
  · rintro ⟨fuel, h⟩
    rw [loop_eq_some_iff_of_reaches (loop_of_drainAll h)]
    exact ⟨1, rfl⟩
  · rintro ⟨n, h⟩
    exact drainAll_of_loop h

end Bounded

/-! ### One round -/

/-- A timer that fires is taken off its queue, and goes to the end of it if its callback sets it
again. -/
theorem exec_acceptRetry {L : QueueIdx → List τ} {l : List τ} (h : s.loop.Linked L)
    (hL : L q = t :: l) (fails : ℕ → Bool) (n : ℕ) :
    ∃ s', (s.fire q t).execAll (acceptRetry fails n q t) = .ok s' ∧
      s'.loop.Linked (Function.update L q (if fails n then l ++ [t] else l)) ∧
      s'.loop.currentTime = s.loop.currentTime ∧ s'.loop.timeout = s.loop.timeout ∧
      s'.loop.absTime = Function.update s.loop.absTime t
        (if fails n then (s.loop.currentTime + s.loop.timeout q) % 2 ^ 64 else 0) := by
  have hL' : L q = [] ++ t :: l := hL
  have hpop : s.loop.takeFirst q t =
      { s.loop.setQueue q ((s.loop.queue q).unlink t) with
        absTime := Function.update s.loop.absTime t 0 } := by
    have hholds : (s.loop.queue q).Holds (t :: l) := hL ▸ h.holds q
    rw [TimerLoop.takeFirst, hholds.popFront_eq]
  have htaken : (s.fire q t).loop.Linked (Function.update L q l) := by
    have hunlink := h.unlink hL'
    rw [fire, hpop]
    exact ⟨hunlink.holds, hunlink.disjoint⟩
  have hout : ∀ q', t ∉ Function.update L q l q' := h.not_mem_unlink hL'
  have habs : (s.fire q t).loop.absTime = Function.update s.loop.absTime t 0 := rfl
  have hfree : (s.fire q t).loop.absTime t = 0 ∧ (s.fire q t).loop.next t = none ∧
      (s.fire q t).loop.prev t = none := by
    rw [fire, hpop]
    exact ⟨Function.update_self .., DList.unlink_next_self, DList.unlink_prev_self⟩
  -- The timer that has just fired is not set, so unsetting it does nothing.
  have hunset : (s.fire q t).exec (.unset t) = .ok (s.fire q t) := by
    rw [exec, TimerLoop.unsetTimer, if_pos hfree.1, if_pos hfree.1]
  rw [acceptRetry, execAll, hunset]
  cases fails n with
  | false => exact ⟨_, rfl, htaken, rfl, rfl, habs⟩
  | true =>
    have hpush := htaken.pushBack (q := q) hout
    rw [Function.update_idem, Function.update_self] at hpush
    have hset : (s.fire q t).loop.setTimer q t =
        some { (s.fire q t).loop.setQueue q (((s.fire q t).loop.queue q).pushBack t) with
          absTime := Function.update (s.fire q t).loop.absTime t
            ((s.loop.currentTime + s.loop.timeout q) % 2 ^ 64) } := if_pos hfree
    simp only [if_true, execAll, exec, hset]
    refine ⟨_, rfl, ⟨hpush.holds, hpush.disjoint⟩, rfl, rfl, ?_⟩
    rw [habs, Function.update_idem]

/-! ### One queue -/

/-- What holds while one queue is processed: the clock, the timeouts and the timers on other
queues are as they were. -/
structure Processing (s : TimerRun τ) (L : QueueIdx → List τ) (q : QueueIdx) (s' : TimerRun τ)
    (L' : QueueIdx → List τ) : Prop where
  linked : s'.loop.Linked L'
  currentTime : s'.loop.currentTime = s.loop.currentTime
  timeout : s'.loop.timeout = s.loop.timeout
  others : ∀ q', q' ≠ q → L' q' = L q' ∧ ∀ t ∈ L q', s'.loop.absTime t = s.loop.absTime t

variable {L L' : QueueIdx → List τ}

/-- A round on the queue. -/
theorem Processing.round {s₁ : TimerRun τ} {l : List τ} (h : Processing s L q s₁ L')
    (hL : L' q = t :: l) (fails : ℕ → Bool) (n : ℕ) :
    ∃ s₂, (s₁.fire q t).execAll (acceptRetry fails n q t) = .ok s₂ ∧
      Processing s L q s₂ (Function.update L' q (if fails n then l ++ [t] else l)) ∧
      (∀ t' ∈ l, s₂.loop.isDue t' = s₁.loop.isDue t') ∧
      (fails n → (s₂.loop.isDue t ↔ s₁.loop.DueAtOnce q)) := by
  obtain ⟨s₂, hexec, hlinked, hnow, htimeout, habs⟩ := exec_acceptRetry h.linked hL fails n
  have hmem : t ∈ L' q := by simp [hL]
  have hother : ∀ t', t' ≠ t → s₂.loop.absTime t' = s₁.loop.absTime t' := fun t' hne => by
    rw [habs, Function.update_of_ne hne]
  refine ⟨s₂, hexec, ⟨hlinked, hnow.trans h.currentTime, htimeout.trans h.timeout,
    fun q' hq => ?_⟩, fun t' ht' => ?_, fun hfails => ?_⟩
  · obtain ⟨hlist, hsame⟩ := h.others q' hq
    rw [Function.update_of_ne hq]
    refine ⟨hlist, fun t' ht' => ?_⟩
    have hne : t' ≠ t := by
      rintro rfl
      exact h.linked.not_mem_of_ne hmem hq (hlist ▸ ht')
    rw [hother t' hne, hsame t' ht']
  · have hnodup : (t :: l).Nodup := hL ▸ (h.linked.holds q).nodup
    have hne : t' ≠ t := fun heq => (List.nodup_cons.mp hnodup).1 (heq ▸ ht')
    exact TimerLoop.isDue_congr (hother t' hne) hnow
  · refine TimerLoop.isDue_iff_dueAtOnce ?_ hnow
    rw [habs, Function.update_self, if_pos hfails]

omit [DecidableEq τ] in
/-- Other queues are as endless as before. -/
theorem Processing.endless_iff (h : Processing s L q s' L') {q' : QueueIdx} (hq : q' ≠ q) :
    s'.loop.Endless q' (L' q') ↔ s.loop.Endless q' (L q') := by
  obtain ⟨hlist, hsame⟩ := h.others q' hq
  have hdue : (∀ t ∈ L q', s'.loop.isDue t) ↔ ∀ t ∈ L q', s.loop.isDue t :=
    forall₂_congr fun t ht => by rw [TimerLoop.isDue_congr (hsame t ht) h.currentTime]
  rw [TimerLoop.Endless, TimerLoop.Endless, hlist, hdue, TimerLoop.DueAtOnce, TimerLoop.DueAtOnce,
    h.currentTime, h.timeout]

/-- A queue that is not endless is done after finitely many rounds. -/
theorem reaches_processing (h : s.loop.Linked L) (hends : ¬ s.loop.Endless q (L q))
    (fails : ℕ → Bool) (qs : List QueueIdx) :
    ∃ s' L', LoopReaches (processTurn (acceptRetry fails)) (q :: qs, s) (qs, s') ∧
      Processing s L q s' L' := by
  -- The timers at the head of the queue that are due become fewer.
  let J : List QueueIdx × TimerRun τ → ℕ → Prop := fun x m =>
    ∃ s₁ L₁, x = (q :: qs, s₁) ∧ Processing s L q s₁ L₁ ∧ ¬ s₁.loop.Endless q (L₁ q) ∧
      m = ((L₁ q).takeWhile s₁.loop.isDue).length
  have hstart : J (q :: qs, s) ((L q).takeWhile s.loop.isDue).length :=
    ⟨s, L, rfl, ⟨h, rfl, rfl, fun _ _ => ⟨rfl, fun _ _ => rfl⟩⟩, hends, rfl⟩
  have hround : ∀ x m, J x m → ¬ x.2.loop.dueHead q = none →
      ∃ x' m', processTurn (acceptRetry fails) x = .next x' ∧ J x' m' ∧ m' < m := by
    rintro _ _ ⟨s₁, L₁, rfl, h₁, hends₁, rfl⟩ hdue
    obtain ⟨t, hhead⟩ := Option.ne_none_iff_exists'.mp hdue
    obtain ⟨⟨l, hl⟩, ht⟩ := h₁.linked.dueHead_eq_some_iff.mp hhead
    obtain ⟨s₂, hexec, h₂, hsame, hagain⟩ := h₁.round hl fails s₁.fired.length
    -- What stood behind the timer is due or not as before.
    have hl₂ : l.takeWhile s₂.loop.isDue = l.takeWhile s₁.loop.isDue :=
      takeWhile_congr hsame
    have hless : (l.takeWhile s₁.loop.isDue).length <
        ((L₁ q).takeWhile s₁.loop.isDue).length := by
      rw [hl, List.takeWhile_cons_of_pos ht]
      exact Nat.lt_succ_self _
    have hnow : s₂.loop.DueAtOnce q ↔ s₁.loop.DueAtOnce q := by
      rw [TimerLoop.DueAtOnce, TimerLoop.DueAtOnce, h₂.currentTime, h₂.timeout, h₁.currentTime,
        h₁.timeout]
    have hback : (∀ t' ∈ l, s₂.loop.isDue t') → ¬ s₁.loop.DueAtOnce q := by
      intro hall hat
      refine hends₁ ⟨by simp [hl], fun t' ht' => ?_, hat⟩
      rw [hl, List.mem_cons] at ht'
      rcases ht' with rfl | ht'
      · exact ht
      · exact hsame t' ht' ▸ hall t' ht'
    refine ⟨_, _, processTurn_of_dueHead hhead hexec, ⟨s₂, _, rfl, h₂, ?_, rfl⟩, ?_⟩
    all_goals rw [Function.update_self]
    · rintro ⟨-, hall, hat⟩
      refine hback (fun t' ht' => hall t' ?_) (hnow.mp hat)
      split_ifs
      · exact List.mem_append_left _ ht'
      · exact ht'
    · split_ifs with hfails
      · have hnot : ¬ ∀ t' ∈ l ++ [t], s₂.loop.isDue t' := fun hall =>
          hback (fun t' ht' => hall t' (List.mem_append_left _ ht'))
            ((hagain hfails).mp (hall t List.mem_concat_self))
        rwa [takeWhile_append_singleton hnot, hl₂]
      · rwa [hl₂]
  obtain ⟨_, _, hreach, ⟨s', L', rfl, h', -, -⟩, hnone⟩ := exists_reaches_of_measure hround hstart
  exact ⟨s', L', hreach.tail (processTurn_of_dueHead_none hnone), h'⟩

/-- An endless queue is processed for ever if every attempt to accept fails. -/
theorem not_loopEnds_of_endless (h : s.loop.Linked L) (hendless : s.loop.Endless q (L q))
    (qs : List QueueIdx) :
    ¬ LoopEnds (processTurn (acceptRetry fun _ => true)) (q :: qs, s) := by
  let I : List QueueIdx × TimerRun τ → Prop := fun x =>
    ∃ s₁ L₁, x = (q :: qs, s₁) ∧ Processing s L q s₁ L₁ ∧ s₁.loop.Endless q (L₁ q)
  have hstart : I (q :: qs, s) :=
    ⟨s, L, rfl, ⟨h, rfl, rfl, fun _ _ => ⟨rfl, fun _ _ => rfl⟩⟩, hendless⟩
  refine not_loopEnds_of_inv (I := I) ?_ hstart
  rintro _ ⟨s₁, L₁, rfl, h₁, hne, hdue, hat⟩
  obtain ⟨t, l, hl⟩ := List.exists_cons_of_ne_nil hne
  have hhead : s₁.loop.dueHead q = some t :=
    h₁.linked.dueHead_eq_some_iff.mpr ⟨⟨l, hl⟩, hdue t (by simp [hl])⟩
  obtain ⟨s₂, hexec, h₂, hsame, hagain⟩ := h₁.round hl (fun _ => true) s₁.fired.length
  refine ⟨_, processTurn_of_dueHead hhead hexec, s₂, _, rfl, h₂, ?_⟩
  rw [Function.update_self, if_pos rfl]
  refine ⟨List.concat_ne_nil t l, fun t' ht' => ?_, ?_⟩
  · rcases List.mem_append.mp ht' with hmem | hmem
    · rw [hsame t' hmem]
      exact hdue t' (hl ▸ List.mem_cons_of_mem t hmem)
    · rw [List.mem_singleton.mp hmem]
      exact (hagain rfl).mpr hat
  · rw [TimerLoop.DueAtOnce, h₂.currentTime, h₂.timeout]
    rwa [TimerLoop.DueAtOnce, h₁.currentTime, h₁.timeout] at hat

/-! ### All queues -/

/-- The loops end if no queue is endless. -/
theorem loopEnds_of_not_endless (h : s.loop.Linked L) (hnodup : qs.Nodup)
    (hends : ∀ q ∈ qs, ¬ s.loop.Endless q (L q)) (fails : ℕ → Bool) :
    LoopEnds (processTurn (acceptRetry fails)) (qs, s) := by
  induction qs generalizing s L with
  | nil => exact loopEnds_of_ret rfl
  | cons q qs ih =>
    obtain ⟨hnot, hnodup'⟩ := List.nodup_cons.mp hnodup
    obtain ⟨s', L', hreach, h'⟩ :=
      reaches_processing h (hends q List.mem_cons_self) fails qs
    rw [loopEnds_iff_of_reaches hreach]
    refine ih h'.linked hnodup' fun q' hq' => ?_
    rw [h'.endless_iff fun heq => hnot (heq ▸ hq')]
    exact hends q' (List.mem_cons_of_mem q hq')

/-- The loops do not end if some queue is endless and every attempt to accept fails. -/
theorem not_loopEnds_of_exists_endless (h : s.loop.Linked L) (hnodup : qs.Nodup)
    (hendless : ∃ q ∈ qs, s.loop.Endless q (L q)) :
    ¬ LoopEnds (processTurn (acceptRetry fun _ => true)) (qs, s) := by
  induction qs generalizing s L with
  | nil => simp at hendless
  | cons q qs ih =>
    by_cases hq : s.loop.Endless q (L q)
    · exact not_loopEnds_of_endless h hq qs
    · -- The queues before an endless one come to an end.
      obtain ⟨hnot, hnodup'⟩ := List.nodup_cons.mp hnodup
      obtain ⟨s', L', hreach, h'⟩ := reaches_processing h hq (fun _ => true) qs
      rw [loopEnds_iff_of_reaches hreach]
      obtain ⟨q', hq', hend'⟩ := hendless
      have hmem : q' ∈ qs := (List.mem_cons.mp hq').resolve_left fun heq => hq (heq ▸ hend')
      refine ih h'.linked hnodup' ⟨q', hmem, ?_⟩
      rwa [h'.endless_iff fun heq => hnot (heq ▸ hmem)]

/-- A call of `nxe_process_timers` returns for all outcomes of the attempts to accept if and only
if, for every queue that has timers and whose timers are all due, the timeout is longer than a
quarter of a second and stays in the range of times (or the clock has just started). -/
theorem returns_iff (h : s.loop.Linked L) (hnow : s.loop.currentTime < 2 ^ 64)
    (htimeout : ∀ q, s.loop.timeout q < 2 ^ 64) :
    (∀ fails, s.Returns (acceptRetry fails)) ↔
      ∀ q, L q ≠ [] → (∀ t ∈ L q, s.loop.isDue t) →
        250000 < s.loop.timeout q ∧ s.loop.currentTime + s.loop.timeout q < 2 ^ 64 + 250000 ∨
          s.loop.currentTime + s.loop.timeout q < 250000 := by
  have hiff : (∀ q, ¬ s.loop.Endless q (L q)) ↔ ∀ q, L q ≠ [] → (∀ t ∈ L q, s.loop.isDue t) →
      250000 < s.loop.timeout q ∧ s.loop.currentTime + s.loop.timeout q < 2 ^ 64 + 250000 ∨
        s.loop.currentTime + s.loop.timeout q < 250000 := by
    refine forall_congr' fun q => ?_
    rw [← TimerLoop.not_dueAtOnce_iff hnow (htimeout q), TimerLoop.Endless]
    simp only [not_and]
  rw [← hiff]
  constructor
  · intro hreturns q hendless
    exact not_loopEnds_of_exists_endless (s := { s with log := [] }) h (List.nodup_finRange 8)
      ⟨q, List.mem_finRange q, hendless⟩ (hreturns fun _ => true)
  · intro hends fails
    exact loopEnds_of_not_endless (s := { s with log := [] }) h (List.nodup_finRange 8)
      (fun q _ => hends q) fails

/-! ### A listening socket whose attempts to accept fail -/

/-- `nxweb_set_timeout`. -/
def nxwebSetTimeout (timeouts : QueueIdx → ℕ) (timerIdx : QueueIdx) (timeout : ℕ) :
    QueueIdx → ℕ :=
  Function.update timeouts timerIdx timeout

/-- The only timer that is set, and the clock is read later. -/
theorem run_set_tick (timeout : QueueIdx → ℕ) (now now' : ℕ) (q : QueueIdx) (t : τ)
    (hclock : now ≤ now' ∧ ∀ q', now' + timeout q' < 2 ^ 64) :
    ∃ s, run step (init timeout now) [.op (.set q t), .tick now'] = some s ∧
      s.loop.Linked (Function.update (fun _ => []) q [t]) ∧ s.loop.currentTime = now' ∧
      s.loop.timeout = timeout ∧ s.loop.absTime t = now + timeout q := by
  have hempty : (init (τ := τ) timeout now).loop.Linked fun _ => [] :=
    ⟨fun _ => DList.holds_nil rfl rfl, fun _ _ _ ht => absurd ht List.not_mem_nil⟩
  have hpush := hempty.pushBack (q := q) (t := t) fun _ => List.not_mem_nil
  have hrange : (now + timeout q) % 2 ^ 64 = now + timeout q :=
    Nat.mod_eq_of_lt ((Nat.add_le_add_right hclock.1 _).trans_lt (hclock.2 q))
  obtain ⟨loop, hset, hlinked, hnow, htimeout, habs⟩ : ∃ loop,
      (init timeout now).loop.setTimer q t = some loop ∧
        loop.Linked (Function.update (fun _ => []) q [t]) ∧ loop.currentTime = now ∧
        loop.timeout = timeout ∧ loop.absTime t = now + timeout q :=
    ⟨_, if_pos ⟨rfl, rfl, rfl⟩, ⟨hpush.holds, hpush.disjoint⟩, rfl, rfl,
      (Function.update_self ..).trans hrange⟩
  let s₁ : TimerRun τ := { init timeout now with loop, queueOf := Function.update (fun _ => 0) t q }
  have hop : (init timeout now).step (.op (.set q t)) = some s₁ := by
    simp only [step, exec, hset, Except.toOption]
    rfl
  have htick : s₁.step (.tick now') = some { s₁ with loop := { loop with currentTime := now' } } :=
    if_pos ⟨hnow.trans_le hclock.1, fun q' => htimeout ▸ hclock.2 q'⟩
  exact ⟨_, run_append (run_single hop) (run_single htick), ⟨hlinked.holds, hlinked.disjoint⟩, rfl,
    htimeout, habs⟩

/-- The timeouts that `nxweb_set_timeout` changes, as they are at first. -/
def nxeTimeouts : QueueIdx → ℕ :=
  ![60000000, 30000000, 30000000, 2000000, 1500000, 500000, 0, 0]

/-- With the timeout of a quarter of a second for another attempt, and no attempt that succeeds,
the call does not return. -/
theorem not_returns :
    ∃ s : TimerRun Unit,
      run step (init (nxwebSetTimeout nxeTimeouts 5 250000) 1000000)
        [.op (.set 5 ()), .tick 1300000] = some s ∧
      ¬ s.Returns (acceptRetry fun _ => true) := by
  obtain ⟨s, hrun, hlinked, hnow, htimeout, habs⟩ :=
    run_set_tick (nxwebSetTimeout nxeTimeouts 5 250000) 1000000 1300000 5 ()
      ⟨by decide, by decide⟩
  refine ⟨s, hrun, ?_⟩
  refine not_loopEnds_of_exists_endless (s := { s with log := [] }) hlinked
    (List.nodup_finRange 8) ⟨5, List.mem_finRange 5, ?_, fun t _ => ?_, ?_⟩
  · simp
  · rw [TimerLoop.isDue, habs, hnow]
    decide
  · rw [TimerLoop.DueAtOnce, hnow, htimeout]
    decide

/-- With the timeouts as they are at first, the call returns. -/
theorem returns_iff_default :
    ∃ s : TimerRun Unit,
      run step (init nxeTimeouts 1000000) [.op (.set 5 ()), .tick 1300000] = some s ∧
      ∀ fails, s.Returns (acceptRetry fails) := by
  obtain ⟨s, hrun, hlinked, hnow, htimeout, habs⟩ :=
    run_set_tick nxeTimeouts 1000000 1300000 5 () ⟨by decide, by decide⟩
  refine ⟨s, hrun, (returns_iff hlinked (by omega) ?_).mpr fun q hne hdue => ?_⟩
  · rw [htimeout]
    decide
  · have hq : q = 5 := by
      by_contra hq
      exact hne (Function.update_of_ne hq _ _)
    subst hq
    rw [hnow, htimeout]
    decide

end TimerRun

end Nxweb
