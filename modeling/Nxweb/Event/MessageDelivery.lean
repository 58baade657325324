import Nxweb.Event.Messages

/-!
# Messages are delivered exactly

The active events of a subscriber are those events of the queue that are addressed to it, in the
order of the queue, and together with what was delivered to it they are what was published to it.
An event object is in use as long as it is on the queue or being delivered. These facts are kept by
everything that subscribers do, also while an event is being delivered.
-/

namespace Nxweb

open Lib

variable {π σ ε δ : Type*} [DecidableEq σ] [DecidableEq ε]

namespace MessageLoop

/-- The queue holds the events `l`; they and the event that is being delivered are the objects in
use. -/
structure Stored (current : Option ε) (l : List ε) (s : MessageLoop π σ ε δ) : Prop where
  queue : s.queue.Holds l
  linked : ∀ e, e ∈ l ↔ s.linked e = true
  inUse_nodup : s.inUse.Nodup
  inUse : ∀ e, e ∈ s.inUse ↔ e ∈ l ∨ current = some e
  current : ∀ e, current = some e → e ∉ l

/-- Every event of the queue is addressed to somebody who has subscribed to its publisher, and the
lists of subscribers and of their events say so. -/
structure Inv (current : Option ε) (l : List ε) (s : MessageLoop π σ ε δ) : Prop where
  stored : s.Stored current l
  evts : ∀ sub, s.evts sub = l.filter (s.receiver · = sub)
  source : ∀ e ∈ l, s.pub (s.receiver e) = some (s.source e)
  subs : ∀ p sub, sub ∈ s.subs p ↔ s.pub sub = some p
  subs_nodup : ∀ p, (s.subs p).Nodup
  sent : ∀ sub, s.pub sub ≠ none →
    s.received sub ++ (s.evts sub).map (fun e => (s.source e, s.data e)) = s.sent sub
  pubLoop : ∀ p, s.pubLoop p = false → s.subs p = []

variable {s s' : MessageLoop π σ ε δ} {current : Option ε} {l : List ε} {e : ε} {sub : σ} {p : π}

section Queue

omit [DecidableEq σ] in
/-- Unlinking an event of the queue. -/
theorem Stored.unlink {as bs : List ε} (h : s.Stored current l) (hl : l = as ++ e :: bs) :
    ∃ q f, s.unlink e = .ok { s with queue := q, linked := f } ∧
      q = s.queue.unlink e ∧ q.Holds (as ++ bs) ∧ ∀ e', e' ∈ as ++ bs ↔ f e' = true := by
  have hlinked : s.linked e = true := (h.linked e).mp (by simp [hl])
  have hholds : s.queue.Holds (as ++ e :: bs) := hl ▸ h.queue
  obtain ⟨ha, hb⟩ := hholds.not_mem_sides
  refine ⟨_, _, if_pos hlinked, rfl, hholds.unlink, fun e' => ?_⟩
  by_cases heq : e' = e
  · simp [heq, ha, hb]
  · have := h.linked e'
    simpa [heq, hl] using this

omit [DecidableEq σ] in
/-- Taking events off the queue and returning them to the pool. -/
theorem Stored.dropEvents (es : List ε) (h : s.Stored current l) (hnodup : es.Nodup)
    (hes : ∀ e ∈ es, e ∈ l) :
    ∃ q f u, s.dropEvents es = .ok { s with queue := q, linked := f, inUse := u } ∧
      Stored current (l.filter (· ∉ es)) { s with queue := q, linked := f, inUse := u } := by
  induction es generalizing s l with
  | nil => exact ⟨s.queue, s.linked, s.inUse, rfl, by simpa using h⟩
  | cons e es ih =>
    obtain ⟨he, hnodup⟩ := List.nodup_cons.mp hnodup
    obtain ⟨as, bs, hl⟩ := List.append_of_mem (hes e (by simp))
    have hholds : s.queue.Holds (as ++ e :: bs) := hl ▸ h.queue
    obtain ⟨ha, hb⟩ := hholds.not_mem_sides
    obtain ⟨q, f, hunlink, -, hq, hf⟩ := h.unlink hl
    have huse : e ∈ s.inUse := (h.inUse e).mpr (.inl (by simp [hl]))
    have h₁ : Stored current (as ++ bs)
        { s with queue := q, linked := f, inUse := s.inUse.erase e } := by
      refine ⟨hq, hf, h.inUse_nodup.erase e, fun e' => ?_, fun e' he' hin => ?_⟩
      · rw [h.inUse_nodup.mem_erase_iff, h.inUse e', hl]
        by_cases heq : e' = e
        · subst heq
          have hcur : current ≠ some e' := fun hc => h.current e' hc (by simp [hl])
          simp [ha, hb, hcur]
        · simp [heq]
      · refine h.current e' he' ?_
        rw [hl]
        rcases List.mem_append.mp hin with hin | hin <;> simp [hin]
    have hrest : ∀ e' ∈ es, e' ∈ as ++ bs := fun e' he' => by
      have hne : e' ≠ e := fun heq => he (heq ▸ he')
      simpa [hl, hne] using hes e' (by simp [he'])
    obtain ⟨q', f', u', hdrop, hstored⟩ := ih h₁ hnodup hrest
    refine ⟨q', f', u', ?_, ?_⟩
    · simp only [MessageLoop.dropEvents, hunlink, free, huse, if_true]
      exact hdrop
    · convert hstored using 1
      have hfa : ∀ xs : List ε, e ∉ xs → xs.filter (· ∉ e :: es) = xs.filter (· ∉ es) := by
        intro xs hxs
        refine List.filter_congr fun x hx => ?_
        have hne : x ≠ e := fun heq => hxs (heq ▸ hx)
        simp [hne]
      rw [hl, List.filter_append, List.filter_append, hfa as ha,
        List.filter_cons_of_neg (by simp), hfa bs hb]

end Queue

section Operations

variable [DecidableEq π]

omit [DecidableEq π] [DecidableEq ε] in
/-- Nothing on the queue is addressed to somebody who has not subscribed. -/
theorem Inv.evts_eq_nil (h : s.Inv current l) (hsub : s.pub sub = none) : s.evts sub = [] := by
  rw [h.evts, List.filter_eq_nil_iff]
  intro e he heq
  have hsource := h.source e he
  rw [show s.receiver e = sub by simpa using heq, hsub] at hsource
  cases hsource

omit [DecidableEq ε] in
theorem Inv.subscribe (h : s.Inv current l) (hsubs : s.subscribe p sub = .ok s') :
    s'.Inv current l := by
  by_cases hnone : s.pub sub = none
  · rw [show s.subscribe p sub = _ from if_pos hnone] at hsubs
    obtain rfl := Except.ok.inj hsubs
    have hout : ∀ p', sub ∉ s.subs p' := fun p' hin => by simp [(h.subs p' sub).mp hin] at hnone
    refine ⟨⟨h.stored.queue, h.stored.linked, h.stored.inUse_nodup, h.stored.inUse,
      h.stored.current⟩, h.evts, fun e he => ?_, fun p' sub' => ?_, fun p' => ?_,
      fun sub' hsub' => ?_, fun p' hp' => ?_⟩
    · have hne : s.receiver e ≠ sub := fun heq => by
        have hsource := h.source e he
        simp [heq, hnone] at hsource
      simpa [hne] using h.source e he
    · show sub' ∈ Function.update s.subs p (sub :: s.subs p) p' ↔
        Function.update s.pub sub (some p) sub' = some p'
      by_cases hp : p' = p
      · subst hp
        by_cases hs : sub' = sub
        · simp [hs]
        · simpa [hs] using h.subs p' sub'
      · by_cases hs : sub' = sub
        · subst hs
          simp [hp, Ne.symm hp, hout p']
        · simpa [hp, hs] using h.subs p' sub'
    · show (Function.update s.subs p (sub :: s.subs p) p').Nodup
      by_cases hp : p' = p
      · subst hp
        simpa using ⟨hout p', h.subs_nodup p'⟩
      · simpa [hp] using h.subs_nodup p'
    · show Function.update s.received sub [] sub' ++ _ = Function.update s.sent sub [] sub'
      by_cases hs : sub' = sub
      · subst hs
        simp [h.evts_eq_nil hnone]
      · have hsub' : Function.update s.pub sub (some p) sub' ≠ none := hsub'
        simpa [hs] using h.sent sub' (by simpa [hs] using hsub')
    · have hp' : Function.update s.pubLoop p true p' = false := hp'
      have hp : p' ≠ p := by
        rintro rfl
        simp at hp'
      show Function.update s.subs p (sub :: s.subs p) p' = []
      simpa [hp] using h.pubLoop p' (by simpa [hp] using hp')
  · rw [show s.subscribe p sub = _ from if_neg hnone] at hsubs
    cases hsubs

/-- Unsubscribing takes exactly the events of the subscriber off the queue. -/
theorem Inv.unsubscribe (h : s.Inv current l) (hpub : s.pub sub = some p) :
    ∃ s', s.unsubscribe p sub = .ok s' ∧ s'.Inv current (l.filter (s.receiver · ≠ sub)) := by
  have hmem : sub ∈ s.subs p := (h.subs p sub).mpr hpub
  have hevts := h.evts sub
  have hstored : Stored current l
      { s with subs := Function.update s.subs p ((s.subs p).erase sub)
               pub := Function.update s.pub sub none } :=
    ⟨h.stored.queue, h.stored.linked, h.stored.inUse_nodup, h.stored.inUse, h.stored.current⟩
  have hnodup : (s.evts sub).Nodup := hevts ▸ h.stored.queue.nodup.filter _
  have hin : ∀ e ∈ s.evts sub, e ∈ l := fun e he => by
    rw [hevts] at he
    exact (List.mem_filter.mp he).1
  obtain ⟨q, f, u, hdrop, hstored'⟩ := hstored.dropEvents (s.evts sub) hnodup hin
  -- what is not an event of the subscriber is addressed to somebody else
  have hrest : l.filter (· ∉ s.evts sub) = l.filter (s.receiver · ≠ sub) := by
    refine List.filter_congr fun e he => ?_
    simp [hevts, he]
  rw [hrest] at hstored'
  refine ⟨{ s with
    subs := Function.update s.subs p ((s.subs p).erase sub)
    pub := Function.update s.pub sub none
    queue := q, linked := f, inUse := u
    evts := Function.update s.evts sub [] }, ?_, ⟨?_, fun sub' => ?_, fun e he => ?_,
      fun p' sub' => ?_, fun p' => ?_, fun sub' hsub' => ?_, fun p' hp' => ?_⟩⟩
  · simp only [MessageLoop.unsubscribe, hpub, hmem, if_true]
    rw [hdrop]
  · exact ⟨hstored'.queue, hstored'.linked, hstored'.inUse_nodup, hstored'.inUse, hstored'.current⟩
  · show Function.update s.evts sub [] sub' =
      (l.filter (s.receiver · ≠ sub)).filter (s.receiver · = sub')
    rw [List.filter_filter]
    by_cases hs : sub' = sub
    · subst hs
      rw [Function.update_self]
      refine (List.filter_eq_nil_iff.mpr fun e _ => ?_).symm
      simp
    · rw [Function.update_of_ne hs, h.evts sub']
      refine List.filter_congr fun e _ => ?_
      by_cases heq : s.receiver e = sub'
      · simp [heq, hs]
      · simp [heq]
  · obtain ⟨hel, hne⟩ := List.mem_filter.mp he
    have hne : s.receiver e ≠ sub := by simpa using hne
    show Function.update s.pub sub none (s.receiver e) = some (s.source e)
    rw [Function.update_of_ne hne]
    exact h.source e hel
  · show sub' ∈ Function.update s.subs p ((s.subs p).erase sub) p' ↔
      Function.update s.pub sub none sub' = some p'
    by_cases hs : sub' = sub
    · subst hs
      by_cases hp : p' = p
      · subst hp
        simp [(h.subs_nodup p').mem_erase_iff]
      · have hnot : sub' ∉ s.subs p' := fun hin =>
          hp (Option.some.inj (((h.subs p' sub').mp hin).symm.trans hpub))
        simp [hp, hnot]
    · by_cases hp : p' = p
      · subst hp
        simpa [(h.subs_nodup p').mem_erase_iff, hs] using h.subs p' sub'
      · simpa [hp, hs] using h.subs p' sub'
  · show (Function.update s.subs p ((s.subs p).erase sub) p').Nodup
    by_cases hp : p' = p
    · subst hp
      simpa using (h.subs_nodup p').erase sub
    · simpa [hp] using h.subs_nodup p'
  · have hsub' : Function.update s.pub sub none sub' ≠ none := hsub'
    have hs : sub' ≠ sub := by
      rintro rfl
      simp at hsub'
    show s.received sub' ++ (Function.update s.evts sub [] sub').map _ = s.sent sub'
    rw [Function.update_of_ne hs]
    exact h.sent sub' (by simpa [hs] using hsub')
  · have hp : p' ≠ p := by
      rintro rfl
      have := h.pubLoop p' hp'
      simp [this] at hmem
    show Function.update s.subs p ((s.subs p).erase sub) p' = []
    rw [Function.update_of_ne hp]
    exact h.pubLoop p' hp'

omit [DecidableEq π] in
/-- Publishing to one subscriber puts an event for it at the end of the queue. -/
theorem Inv.publishTo {d : δ} (h : s.Inv current l) (hpub : s.pub sub = some p)
    (he : e ∉ s.inUse) :
    ∃ s', s.publishTo p d sub e = .ok s' ∧ s'.Inv current (l ++ [e]) ∧ s'.pub = s.pub := by
  have hnot := mt (h.stored.inUse e).mpr he
  rw [not_or] at hnot
  obtain ⟨hel, hcur⟩ := hnot
  have hne : ∀ e' ∈ l, e' ≠ e := fun e' he' heq => hel (heq ▸ he')
  refine ⟨{ s with
    inUse := e :: s.inUse
    receiver := Function.update s.receiver e sub
    data := Function.update s.data e d
    source := Function.update s.source e p
    linked := Function.update (Function.update s.linked e false) e true
    queue := s.queue.pushBack e
    sent := Function.update s.sent sub (s.sent sub ++ [(p, d)])
    evts := Function.update s.evts sub (s.evts sub ++ [e]) }, ?_,
    ⟨⟨h.stored.queue.pushBack hel, fun e' => ?_, List.nodup_cons.mpr ⟨he, h.stored.inUse_nodup⟩,
      fun e' => ?_, fun e' he' hin => ?_⟩, fun sub' => ?_, fun e' he' => ?_, h.subs, h.subs_nodup,
      fun sub' hsub' => ?_, h.pubLoop⟩, rfl⟩
  · simp [MessageLoop.publishTo, he, link]
  · show e' ∈ l ++ [e] ↔ Function.update (Function.update s.linked e false) e true e' = true
    by_cases heq : e' = e
    · simp [heq]
    · simpa [heq] using h.stored.linked e'
  · show e' ∈ e :: s.inUse ↔ e' ∈ l ++ [e] ∨ current = some e'
    by_cases heq : e' = e
    · simp [heq]
    · simpa [heq] using h.stored.inUse e'
  · rcases List.mem_append.mp hin with hin | hin
    · exact h.stored.current e' he' hin
    · rw [List.mem_singleton.mp hin] at he'
      exact hcur he'
  · show Function.update s.evts sub (s.evts sub ++ [e]) sub' =
      (l ++ [e]).filter (Function.update s.receiver e sub · = sub')
    have hold : l.filter (Function.update s.receiver e sub · = sub') =
        l.filter (s.receiver · = sub') := by
      refine List.filter_congr fun e' he' => ?_
      simp [hne e' he']
    rw [List.filter_append, hold, ← h.evts sub']
    by_cases hs : sub' = sub
    · simp [hs]
    · simp [hs, Ne.symm hs]
  · show s.pub (Function.update s.receiver e sub e') = some (Function.update s.source e p e')
    rcases List.mem_append.mp he' with he' | he'
    · simpa [hne e' he'] using h.source e' he'
    · obtain rfl := List.mem_singleton.mp he'
      simpa using hpub
  · show s.received sub' ++ (Function.update s.evts sub (s.evts sub ++ [e]) sub').map
        (fun e' => (Function.update s.source e p e', Function.update s.data e d e')) =
      Function.update s.sent sub (s.sent sub ++ [(p, d)]) sub'
    have hold : ∀ sub'', (s.evts sub'').map
        (fun e' => (Function.update s.source e p e', Function.update s.data e d e')) =
        (s.evts sub'').map fun e' => (s.source e', s.data e') := by
      intro sub''
      refine List.map_congr_left fun e' he' => ?_
      rw [h.evts sub''] at he'
      simp [hne e' (List.mem_filter.mp he').1]
    by_cases hs : sub' = sub
    · subst hs
      rw [Function.update_self, Function.update_self, List.map_append, hold,
        ← h.sent sub' hsub', List.append_assoc]
      simp
    · rw [Function.update_of_ne hs, Function.update_of_ne hs, hold]
      exact h.sent sub' hsub'

omit [DecidableEq π] in
/-- Publishing to all subscribers. -/
theorem Inv.publishAll {d : δ} (subs : List σ) (objs : List ε) (h : s.Inv current l)
    (hsubs : ∀ sub ∈ subs, s.pub sub = some p) :
    (∀ stop, s.publishAll p d subs objs = .error stop → stop = .misuse) ∧
      ∀ s', s.publishAll p d subs objs = .ok s' → ∃ l', s'.Inv current l' := by
  induction subs generalizing s l objs with
  | nil =>
    refine ⟨by simp [MessageLoop.publishAll], fun s' hs' => ?_⟩
    obtain rfl : s = s' := by simpa [MessageLoop.publishAll] using hs'
    exact ⟨l, h⟩
  | cons sub subs ih =>
    cases objs with
    | nil => simp [MessageLoop.publishAll, eq_comm]
    | cons e objs =>
      by_cases he : e ∈ s.inUse
      · simp [MessageLoop.publishAll, MessageLoop.publishTo, he, eq_comm]
      · obtain ⟨s₁, hs₁, h₁, hpub₁⟩ := h.publishTo (d := d) (hsubs sub (by simp)) he
        have hrest : ∀ sub' ∈ subs, s₁.pub sub' = some p := fun sub' hsub' => by
          rw [hpub₁]
          exact hsubs sub' (by simp [hsub'])
        simpa only [MessageLoop.publishAll, hs₁] using ih objs h₁ hrest

/-- No operation fails an assertion about events or returns an object twice. -/
theorem Inv.exec (op : MessageOp π σ ε δ) (h : s.Inv current l) :
    (∀ stop, s.exec op = .error stop → stop = .misuse) ∧
      ∀ s', s.exec op = .ok s' → ∃ l', s'.Inv current l' := by
  cases op with
  | subscribe p sub =>
    refine ⟨fun stop hstop => ?_, fun s' hs' => ⟨l, h.subscribe hs'⟩⟩
    rw [MessageLoop.exec, MessageLoop.subscribe] at hstop
    split at hstop
    next => cases hstop
    next => exact (Except.error.inj hstop).symm
  | unsubscribe p sub =>
    by_cases hpub : s.pub sub = some p
    · obtain ⟨s₁, hs₁, h₁⟩ := h.unsubscribe hpub
      simp only [MessageLoop.exec, hs₁]
      refine ⟨by simp, fun s' hs' => ?_⟩
      obtain rfl := Except.ok.inj hs'
      exact ⟨_, h₁⟩
    · simp [MessageLoop.exec, MessageLoop.unsubscribe, hpub, eq_comm]
  | publish p d objs =>
    by_cases hloop : s.pubLoop p = true
    · simp only [MessageLoop.exec, MessageLoop.publish, hloop, if_true]
      exact h.publishAll (s.subs p) objs fun sub hsub => (h.subs p sub).mp hsub
    · refine ⟨by simp [MessageLoop.exec, MessageLoop.publish, hloop], fun s' hs' => ?_⟩
      obtain rfl : s = s' := by simpa [MessageLoop.exec, MessageLoop.publish, hloop] using hs'
      exact ⟨l, h⟩

theorem Inv.execAll (ops : List (MessageOp π σ ε δ)) (h : s.Inv current l) :
    (∀ stop, s.execAll ops = .error stop → stop = .misuse) ∧
      ∀ s', s.execAll ops = .ok s' → ∃ l', s'.Inv current l' := by
  induction ops generalizing s l with
  | nil =>
    refine ⟨by simp [MessageLoop.execAll], fun s' hs' => ?_⟩
    obtain rfl : s = s' := by simpa [MessageLoop.execAll] using hs'
    exact ⟨l, h⟩
  | cons op ops ih =>
    obtain ⟨hstop, hok⟩ := h.exec op
    cases hexec : s.exec op with
    | error stop =>
      obtain rfl := hstop stop hexec
      simp [MessageLoop.execAll, hexec, eq_comm]
    | ok s₁ =>
      obtain ⟨l₁, h₁⟩ := hok s₁ hexec
      simpa only [MessageLoop.execAll, hexec] using ih h₁

end Operations

section Loop

variable [DecidableEq π]

omit [DecidableEq π] in
/-- The event at the head of the queue is the first active event of its receiver, which has
subscribed to the publisher of the event. While it is being delivered it is on neither list. -/
theorem Inv.deliver (h : s.Inv none (e :: l)) :
    ∃ q f rest, { s with queue := { s.queue with first := s.queue.next e } }.unlink e =
        .ok { s with queue := q, linked := f } ∧
      s.pub (s.receiver e) = some (s.source e) ∧ s.evts (s.receiver e) = e :: rest ∧
      Inv (some e) l { s with
        queue := q
        linked := f
        evts := Function.update s.evts (s.receiver e) rest
        received := Function.update s.received (s.receiver e)
          (s.received (s.receiver e) ++ [(s.source e, s.data e)]) } := by
  have hlinked : s.linked e = true := (h.stored.linked e).mp (by simp)
  have hel : e ∉ l := (List.nodup_cons.mp h.stored.queue.nodup).1
  obtain ⟨q, f, hunlink, hqueue, hq, hf⟩ :=
    h.stored.unlink (show e :: l = [] ++ e :: l from rfl)
  have hunlink' : { s with queue := { s.queue with first := s.queue.next e } }.unlink e =
      .ok { s with queue := q, linked := f } := by
    have hfields := Except.ok.inj ((if_pos hlinked).symm.trans hunlink)
    have hf' : Function.update s.linked e false = f := congrArg MessageLoop.linked hfields
    refine (if_pos hlinked).trans ?_
    rw [h.stored.queue.unlink_first, ← hqueue, hf']
  have hevts : s.evts (s.receiver e) = e :: l.filter (s.receiver · = s.receiver e) := by
    rw [h.evts, List.filter_cons_of_pos (by simp)]
  have hpub := h.source e (by simp)
  refine ⟨q, f, _, hunlink', hpub, hevts, ⟨hq, hf, h.stored.inUse_nodup, fun e' => ?_,
    fun e' he' => ?_⟩, fun sub' => ?_, fun e' he' => h.source e' (List.mem_cons_of_mem _ he'),
    h.subs, h.subs_nodup, fun sub' hsub' => ?_, h.pubLoop⟩
  · show e' ∈ s.inUse ↔ e' ∈ l ∨ some e = some e'
    rw [h.stored.inUse e', List.mem_cons, Option.some.injEq]
    constructor
    · rintro ((rfl | hin) | hcur)
      · exact .inr rfl
      · exact .inl hin
      · cases hcur
    · rintro (hin | rfl)
      · exact .inl (.inr hin)
      · exact .inl (.inl rfl)
  · obtain rfl := Option.some.inj he'
    exact hel
  · show Function.update s.evts (s.receiver e) _ sub' = l.filter (s.receiver · = sub')
    by_cases hs : sub' = s.receiver e
    · subst hs
      simp
    · rw [Function.update_of_ne hs, h.evts sub',
        List.filter_cons_of_neg (by simpa using Ne.symm hs)]
  · show Function.update s.received (s.receiver e) _ sub' ++
      (Function.update s.evts (s.receiver e) _ sub').map _ = s.sent sub'
    have hsent := h.sent sub' hsub'
    by_cases hs : sub' = s.receiver e
    · subst hs
      rw [Function.update_self, Function.update_self, ← hsent, hevts]
      simp
    · rw [Function.update_of_ne hs, Function.update_of_ne hs]
      exact hsent

/-- Taking an event off the queue and calling its receiver fails no assertion, whatever the receiver
does. -/
theorem Inv.deliverNext (ops : List (MessageOp π σ ε δ)) (h : s.Inv none l) :
    (∀ stop, s.deliverNext ops = .error stop → stop = .misuse) ∧
      ∀ c s', s.deliverNext ops = .ok (c, s') → ∃ l', s'.Inv c l' := by
  cases l with
  | nil =>
    have hfirst : s.queue.first = none := h.stored.queue.first_eq
    refine ⟨by simp [MessageLoop.deliverNext, hfirst], fun c s' hs' => ?_⟩
    obtain ⟨rfl, rfl⟩ : none = c ∧ s = s' := by
      simpa [MessageLoop.deliverNext, hfirst] using hs'
    exact ⟨[], h⟩
  | cons e l =>
    have hfirst : s.queue.first = some e := h.stored.queue.first_eq
    obtain ⟨q, f, rest, hunlink, hpub, hevts, h₁⟩ := h.deliver
    obtain ⟨hstop, hok⟩ := h₁.execAll ops
    simp only [MessageLoop.deliverNext, hfirst, hunlink, messageEventDeliver, hpub, hevts, if_true]
    cases hexec : MessageLoop.execAll _ ops with
    | error stop =>
      obtain rfl := hstop stop hexec
      simp [eq_comm]
    | ok s₂ =>
      refine ⟨by simp, fun c s' hs' => ?_⟩
      obtain ⟨rfl, rfl⟩ : some e = c ∧ s₂ = s' := by simpa using hs'
      exact hok s₂ hexec

omit [DecidableEq π] in
/-- The event that has been delivered is returned to the pool. -/
theorem Inv.free (h : s.Inv (some e) l) :
    ∃ s', s.free e = .ok s' ∧ s'.Inv none l := by
  have huse : e ∈ s.inUse := (h.stored.inUse e).mpr (.inr rfl)
  have hel : e ∉ l := h.stored.current e rfl
  refine ⟨_, if_pos huse, ⟨h.stored.queue, h.stored.linked, h.stored.inUse_nodup.erase e,
    fun e' => ?_, by simp⟩, h.evts, h.source, h.subs, h.subs_nodup, h.sent, h.pubLoop⟩
  show e' ∈ s.inUse.erase e ↔ e' ∈ l ∨ none = some e'
  rw [h.stored.inUse_nodup.mem_erase_iff, h.stored.inUse e']
  by_cases heq : e' = e
  · simp [heq, hel]
  · simp [heq, Ne.symm heq]

/-- Processing an event fails no assertion and returns the event to the pool. -/
theorem Inv.processEvent (ops : List (MessageOp π σ ε δ)) (h : s.Inv none l) :
    (∀ stop, s.processEvent ops = .error stop → stop = .misuse) ∧
      ∀ s', s.processEvent ops = .ok s' → ∃ l', s'.Inv none l' := by
  obtain ⟨hstop, hok⟩ := h.deliverNext ops
  rw [MessageLoop.processEvent]
  cases hdel : s.deliverNext ops with
  | error stop =>
    obtain rfl := hstop stop hdel
    simp [eq_comm]
  | ok next =>
    obtain ⟨c, s₁⟩ := next
    obtain ⟨l₁, h₁⟩ := hok c s₁ hdel
    cases c with
    | none =>
      refine ⟨by simp, fun s' hs' => ?_⟩
      obtain rfl : s₁ = s' := by simpa using hs'
      exact ⟨l₁, h₁⟩
    | some e =>
      obtain ⟨s₂, hs₂, h₂⟩ := h₁.free
      simp only [hs₂]
      refine ⟨by simp, fun s' hs' => ?_⟩
      obtain rfl := Except.ok.inj hs'
      exact ⟨l₁, h₂⟩

theorem Inv.step {ev : MessageEvent π σ ε δ} (h : s.Inv none l) (hstep : s.step ev = some s') :
    ∃ l', s'.Inv none l' := by
  cases ev with
  | op op =>
    cases hexec : s.exec op with
    | error stop => simp [MessageLoop.step, hexec, Except.toOption] at hstep
    | ok s₁ =>
      obtain rfl : s₁ = s' := by simpa [MessageLoop.step, hexec, Except.toOption] using hstep
      exact (h.exec op).2 s₁ hexec
  | process ops =>
    cases hproc : s.processEvent ops with
    | error stop => simp [MessageLoop.step, hproc, Except.toOption] at hstep
    | ok s₁ =>
      obtain rfl : s₁ = s' := by simpa [MessageLoop.step, hproc, Except.toOption] using hstep
      exact (h.processEvent ops).2 s₁ hproc

end Loop

section Runs

/-- What holds of messages when the queue holds the events `l` and the event `current`, if there is
one, is being delivered. -/
structure Exact (current : Option ε) (l : List ε) (s : MessageLoop π σ ε δ) : Prop where
  queue : s.queue.Holds l
  /-- The active events of a subscriber are the events of the queue that are addressed to it, in
  the order of the queue. -/
  evts : ∀ sub, s.evts sub = l.filter (s.receiver · = sub)
  /-- What was delivered to a subscriber and what its active events carry is what was published to
  it, in the order of publication. -/
  sent : ∀ sub, s.pub sub ≠ none →
    s.received sub ++ (s.evts sub).map (fun e => (s.source e, s.data e)) = s.sent sub
  /-- Everything has been delivered once the queue is empty. -/
  drained : s.queue.first = none → ∀ sub, s.pub sub ≠ none → s.received sub = s.sent sub
  /-- Nothing is waiting for those who have not subscribed. -/
  unsubscribed : ∀ sub, s.pub sub = none → s.evts sub = []
  /-- A subscriber has active events only of the publisher that it has subscribed to. -/
  source : ∀ sub, ∀ e ∈ s.evts sub, s.pub sub = some (s.source e)
  /-- The objects in use are the events of the queue and the event that is being delivered, each of
  them once. -/
  inUse_nodup : s.inUse.Nodup
  inUse : ∀ e, e ∈ s.inUse ↔ e ∈ l ∨ current = some e
  current : ∀ e, current = some e → e ∉ l

omit [DecidableEq ε] in
theorem Inv.exact (h : s.Inv current l) : s.Exact current l where
  queue := h.stored.queue
  evts := h.evts
  sent := h.sent
  drained hfirst sub hsub := by
    have hnil : l = [] := List.head?_eq_none_iff.mp (h.stored.queue.first_eq.symm.trans hfirst)
    have hevts : s.evts sub = [] := by rw [h.evts, hnil, List.filter_nil]
    simpa [hevts] using h.sent sub hsub
  unsubscribed sub hsub := h.evts_eq_nil hsub
  source sub e he := by
    rw [h.evts] at he
    obtain ⟨hel, hrec⟩ := List.mem_filter.mp he
    rw [← show s.receiver e = sub by simpa using hrec]
    exact h.source e hel
  inUse_nodup := h.stored.inUse_nodup
  inUse := h.stored.inUse
  current := h.stored.current

omit [DecidableEq ε] in
theorem inv_init (memory : MessageLoop π σ ε δ) : (init memory).Inv none [] := by
  refine ⟨⟨DList.holds_nil rfl rfl, by simp [init], by simp [init], by simp [init], by simp⟩, ?_,
    ?_, ?_, ?_, ?_, ?_⟩ <;> simp [init]

variable [DecidableEq π]

/-- In every run, whatever is subscribed, unsubscribed and published, also by subscribers that are
being called, messages are delivered exactly, also as seen from within the subscribers. No call
fails an assertion about events or returns an event object that is not in use. -/
theorem messages_exact (memory : MessageLoop π σ ε δ) (es : List (MessageEvent π σ ε δ))
    (s : MessageLoop π σ ε δ) (hrun : run step (init memory) es = some s) :
    (∃ l, s.Exact none l) ∧
      (∀ ops c s', s.deliverNext ops = .ok (c, s') → ∃ l, s'.Exact c l) ∧
      (∀ op stop, s.exec op = .error stop → stop = .misuse) ∧
      ∀ ops stop, s.processEvent ops = .error stop → stop = .misuse := by
  obtain ⟨l, h⟩ : ∃ l, s.Inv none l :=
    run_inv (I := fun s : MessageLoop π σ ε δ => ∃ l, s.Inv none l)
      (fun _ _ _ ⟨_, h⟩ hstep => h.step hstep) ⟨[], inv_init memory⟩ hrun
  refine ⟨⟨l, h.exact⟩, fun ops c s' hs' => ?_, fun op => (h.exec op).1,
    fun ops => (h.processEvent ops).1⟩
  obtain ⟨l', h'⟩ := (h.deliverNext ops).2 c s' hs'
  exact ⟨l', h'.exact⟩

/-- Two subscribers and three messages; the one that is called first unsubscribes itself when it
gets the second message, and publishes a last one before that. -/
theorem messages_exact_unsubscribing :
    ∃ s : MessageLoop ℕ ℕ ℕ String, run step
        (init ⟨fun _ => false, fun _ => [], fun _ => none, fun _ => [], fun _ => 0, fun _ => "",
          fun _ => false, ⟨fun _ => none, fun _ => none, none, none⟩, [], fun _ => 0, fun _ => [],
          fun _ => []⟩)
        [.op (.subscribe 0 1), .op (.subscribe 0 2), .op (.publish 0 "a" [10, 11]),
          .process [], .op (.publish 0 "b" [10, 12]), .process [],
          .process [.publish 0 "c" [11, 13], .unsubscribe 0 2]] = some s ∧
      s.received 1 = [(0, "a")] ∧ s.sent 1 = [(0, "a"), (0, "b"), (0, "c")] ∧
      s.evts 2 = [] ∧ s.inUse = [13, 12] ∧ ∃ l, s.Exact none l := by
  refine ⟨_, rfl, by decide, by decide, by decide, by decide, ?_⟩
  exact (messages_exact ⟨fun _ => false, fun _ => [], fun _ => none, fun _ => [], fun _ => 0,
      fun _ => "", fun _ => false, ⟨fun _ => none, fun _ => none, none, none⟩, [], fun _ => 0,
      fun _ => [], fun _ => []⟩
    [.op (.subscribe 0 1), .op (.subscribe 0 2), .op (.publish 0 "a" [10, 11]),
      .process [], .op (.publish 0 "b" [10, 12]), .process [],
      .process [.publish 0 "c" [11, 13], .unsubscribe 0 2]] _ rfl).1

end Runs

end MessageLoop

end Nxweb
