import Nxweb.Server.RequestFinalizers

/-!
# Finalizers are called exactly once

Every callback that was installed for a request is called exactly once when the request is over,
however often `_nxweb_call_request_finalizers` was called (`FinalizedOnce`), with two exceptions.
The function clears `on_complete` in the handler, which all requests share: only the first request
of a handler that completes gets the call. And a handler that is refused by its cache-key callback
leaves the data of its filters behind (`Nxweb.Server.SelectHandlerUndo`), which the next selection
overwrites.

In a run without these two every request that is over has been finalized once
(`finalizerRun_once`). The invariant (`Accounted`) counts: the calls made so far and those that are
still installed are the calls that are due.
-/

namespace Nxweb

open Lib

/-- The handlers after registration. -/
abbrev Registered := ℕ → HandlerCallbacks

/-- The `on_complete` callback of a handler, if it was registered with one. -/
def completeCalls (registered : Registered) (handler : Option ℕ) : List FinalizerCall :=
  (handler.toList.filter fun h => (registered h).onComplete).map .onComplete

/-- All calls that are due for a request: those of its finalizers, and `on_complete` if its handler
was registered with one. -/
def RequestState.dueCalls (registered : Registered) (r : RequestState) : List FinalizerCall :=
  r.due ++ completeCalls registered r.own

/-- Every call that is due has been made exactly once, and no other. -/
def FinalizedOnce (registered : Registered) (r : RequestState) : Prop :=
  r.calls.Perm (r.dueCalls registered) ∧ (r.dueCalls registered).Nodup

/-- The finalizers of the filters that are initialised for a handler. -/
def RequestState.pendingFilters (registered : Registered) (r : RequestState) :
    List FinalizerCall :=
  r.handler.toList.flatMap fun h => filterCalls h (registered h).filters r.filterData

/-- What the next call of the finalizers has to call. -/
def RequestState.pending (registered : Registered) (r : RequestState) : List FinalizerCall :=
  r.reqFinalize.toList.map FinalizerCall.reqFinalize ++ dataCalls r.dataChain ++
    r.pendingFilters registered ++ completeCalls registered r.handler

/-- The number of the installation. -/
def FinalizerCall.installed? : FinalizerCall → Option ℕ
  | .reqFinalize n => some n
  | .requestData n => some n
  | .filter _ _ n => some n
  | .onComplete _ => none

/-- The invariant of a request: the calls made and those that are still to be made are those that
are due, and installations are numbered below `n`. -/
structure Accounted (registered : Registered) (n : ℕ) (r : RequestState) : Prop where
  perm : (r.calls ++ r.pending registered).Perm (r.dueCalls registered)
  nodup : r.due.Nodup
  installed : ∀ call ∈ r.due, ∃ m < n, call.installed? = some m
  own_eq : r.completed = false → r.own = r.handler

variable {registered : Registered} {n : ℕ} {r : RequestState}

/-! ### Calls -/

theorem installed?_of_mem_completeCalls {handler : Option ℕ} {call : FinalizerCall}
    (h : call ∈ completeCalls registered handler) : call.installed? = none := by
  obtain ⟨_, -, rfl⟩ := List.mem_map.mp h
  rfl

theorem nodup_completeCalls (handler : Option ℕ) : (completeCalls registered handler).Nodup := by
  refine List.Nodup.map (fun a b h => FinalizerCall.onComplete.inj h) (List.Nodup.filter _ ?_)
  cases handler <;> simp

/-- Calls that are due are pairwise different. -/
theorem Accounted.nodup_dueCalls (h : Accounted registered n r) :
    (r.dueCalls registered).Nodup := by
  refine List.nodup_append.mpr ⟨h.nodup, nodup_completeCalls r.own, ?_⟩
  rintro call hdue _ hcomplete rfl
  obtain ⟨m, -, hm⟩ := h.installed call hdue
  rw [installed?_of_mem_completeCalls hcomplete] at hm
  cases hm

/-- If nothing is pending, the request has been finalized once. -/
theorem Accounted.finalizedOnce (h : Accounted registered n r) (hpending : r.pending registered = []) :
    FinalizedOnce registered r := by
  refine ⟨?_, h.nodup_dueCalls⟩
  have hperm := h.perm
  rwa [hpending, List.append_nil] at hperm

theorem mem_filterCalls {h : ℕ} {filters : List Bool} {filterData : ℕ → Option ℕ}
    {call : FinalizerCall} (hmem : call ∈ filterCalls h filters filterData) :
    ∃ i m, i < filters.length ∧ filterData i = some m ∧ call = .filter h i m := by
  obtain ⟨⟨b, i⟩, hslot, hcall⟩ := List.mem_filterMap.mp hmem
  obtain ⟨-, hlt, -⟩ := List.mem_zipIdx hslot
  simp only at hcall
  split_ifs at hcall
  obtain ⟨m, hm, rfl⟩ := Option.map_eq_some_iff.mp hcall
  exact ⟨i, m, by omega, hm, rfl⟩

/-- Slots are numbered, so their calls are different. -/
theorem nodup_filterCalls (h : ℕ) (filters : List Bool) (filterData : ℕ → Option ℕ) :
    (filterCalls h filters filterData).Nodup := by
  have hslots : filters.zipIdx.Nodup := by
    refine List.Nodup.of_map Prod.snd ?_
    rw [List.zipIdx_map_snd]
    exact List.nodup_range'
  refine hslots.filterMap ?_
  rintro ⟨b, i⟩ ⟨b', i'⟩ call hcall hcall'
  -- only slots whose filter has the callback make calls, and a call names its slot
  cases b <;> cases b' <;> simp_all
  obtain ⟨m, -, rfl⟩ := hcall
  obtain ⟨m', -, heq⟩ := hcall'
  exact (FinalizerCall.filter.inj heq).2.1.symm

@[simp]
theorem filterCalls_clearSlots (h : ℕ) (filters : List Bool) (filterData : ℕ → Option ℕ) :
    filterCalls h filters (clearSlots filters filterData) = [] := by
  refine List.eq_nil_iff_forall_not_mem.mpr fun call hmem => ?_
  obtain ⟨i, m, hi, hdata, -⟩ := mem_filterCalls hmem
  simp [clearSlots, hi] at hdata

@[simp]
theorem dataCalls_clearData (chain : List RequestData) : dataCalls (clearData chain) = [] := by
  simp [dataCalls, clearData, List.filterMap_map]

theorem dataCalls_cons (d : RequestData) (chain : List RequestData) :
    dataCalls (d :: chain) = d.finalize.toList.map FinalizerCall.requestData ++ dataCalls chain := by
  cases hd : d.finalize <;> simp [dataCalls, hd]

/-- The call for one piece of request data, apart from the others. -/
theorem perm_dataCalls_middle (front : List RequestData) (d : RequestData)
    (back : List RequestData) :
    (dataCalls (front ++ d :: back)).Perm (dataCalls front ++ dataCalls back ++
      d.finalize.toList.map FinalizerCall.requestData) := by
  rw [dataCalls, List.filterMap_append, ← dataCalls, ← dataCalls, dataCalls_cons,
    List.append_assoc]
  exact List.perm_append_comm.append_left _

/-! ### The operations -/

theorem accounted_begin : Accounted registered n {} := by
  refine ⟨?_, List.nodup_nil, by simp, by simp⟩
  simp [RequestState.pending, RequestState.pendingFilters, RequestState.dueCalls, dataCalls,
    completeCalls]

theorem Accounted.mono {m : ℕ} (h : Accounted registered n r) (hle : n ≤ m) :
    Accounted registered m r :=
  { h with installed := fun call hmem =>
      let ⟨k, hk, heq⟩ := h.installed call hmem
      ⟨k, hk.trans_le hle, heq⟩ }

/-- A call of the finalizers makes all pending calls, provided that nobody has cleared the
`on_complete` callback before. -/
theorem callRequestFinalizers_spec {handlers : ℕ → HandlerCallbacks}
    (hfilters : ∀ h, (handlers h).filters = (registered h).filters)
    (hcomplete : ∀ h, r.handler = some h →
      (handlers h).onComplete = (registered h).onComplete) :
    (callRequestFinalizers handlers r).2.calls = r.calls ++ r.pending registered ∧
      (callRequestFinalizers handlers r).2.pending registered = [] ∧
      (callRequestFinalizers handlers r).2.due = r.due ∧
      (callRequestFinalizers handlers r).2.own = r.own ∧
      (callRequestFinalizers handlers r).2.completed = true := by
  unfold callRequestFinalizers
  cases hh : r.handler with
  | none =>
    simp [RequestState.pending, RequestState.pendingFilters, completeCalls, hh]
  | some h =>
    have heq := hcomplete h hh
    simp only [hfilters]
    split_ifs with hon
    · rw [heq] at hon
      simp [RequestState.pending, RequestState.pendingFilters, completeCalls, hh, hon]
    · rw [heq] at hon
      simp [RequestState.pending, RequestState.pendingFilters, completeCalls, hh, hon]

/-- The filters of the handlers are never changed. -/
theorem callRequestFinalizers_filters (handlers : ℕ → HandlerCallbacks) (r : RequestState) (h : ℕ) :
    ((callRequestFinalizers handlers r).1 h).filters = (handlers h).filters := by
  unfold callRequestFinalizers
  cases r.handler with
  | none => rfl
  | some h' =>
    simp only
    split_ifs
    · by_cases heq : h = h'
      · subst heq
        simp
      · simp [Function.update_of_ne heq]
    · rfl

theorem Accounted.callRequestFinalizers {handlers : ℕ → HandlerCallbacks}
    (h : Accounted registered n r) (hfilters : ∀ h, (handlers h).filters = (registered h).filters)
    (hcomplete : ∀ h, r.handler = some h →
      (handlers h).onComplete = (registered h).onComplete) :
    Accounted registered n (callRequestFinalizers handlers r).2 ∧
      FinalizedOnce registered (callRequestFinalizers handlers r).2 := by
  obtain ⟨hcalls, hpending, hdue, hown, hcompleted⟩ :=
    callRequestFinalizers_spec (r := r) hfilters hcomplete
  have haccounted : Accounted registered n (Nxweb.callRequestFinalizers handlers r).2 :=
    { perm := by
        rw [hcalls, hpending, List.append_nil, RequestState.dueCalls, hdue, hown]
        exact h.perm
      nodup := hdue ▸ h.nodup
      installed := hdue ▸ h.installed
      own_eq := fun hfalse => by simp [hcompleted] at hfalse }
  exact ⟨haccounted, haccounted.finalizedOnce hpending⟩

/-- What is installed has a new number; it may replace something that was due. -/
theorem Accounted.install {m : ℕ} {r' : RequestState} {old new : List FinalizerCall}
    (h : Accounted registered n r)
    (hperm : (r'.calls ++ r'.pending registered).Perm (r'.dueCalls registered))
    (hdue : r'.due = old ++ new) (hold : old.Sublist r.due) (hnew : new.Nodup)
    (hinstalled : ∀ call ∈ new, ∃ k, n ≤ k ∧ k < m ∧ call.installed? = some k) (hle : n ≤ m)
    (hown : r'.completed = false → r'.own = r'.handler) : Accounted registered m r' where
  perm := hperm
  nodup := by
    rw [hdue]
    refine List.nodup_append.mpr ⟨h.nodup.sublist hold, hnew, ?_⟩
    rintro call hmem _ hcall rfl
    obtain ⟨k, hk, hsome⟩ := h.installed call (hold.subset hmem)
    obtain ⟨k', hk', -, hsome'⟩ := hinstalled call hcall
    obtain rfl := Option.some.inj (hsome.symm.trans hsome')
    omega
  installed call hmem := by
    rw [hdue] at hmem
    rcases List.mem_append.mp hmem with hmem | hcall
    · obtain ⟨k, hk, hsome⟩ := h.installed call (hold.subset hmem)
      exact ⟨k, by omega, hsome⟩
    · obtain ⟨k, -, hk, hsome⟩ := hinstalled call hcall
      exact ⟨k, hk, hsome⟩
  own_eq := hown

theorem Accounted.setReqFinalize (h : Accounted registered n r) (hnone : r.reqFinalize = none) :
    Accounted registered (n + 1)
      { r with reqFinalize := some n, due := r.due ++ [.reqFinalize n] } := by
  refine h.install ?_ rfl (.refl _) (List.nodup_singleton _) ?_ (Nat.le_succ n) h.own_eq
  · have hperm := h.perm
    simp only [RequestState.pending, hnone, Option.toList_none, List.map_nil, List.nil_append,
      RequestState.dueCalls] at hperm
    simp only [RequestState.pending, RequestState.dueCalls, Option.toList_some, List.map_cons,
      List.map_nil, List.append_assoc, List.cons_append, List.nil_append] at hperm ⊢
    exact (List.perm_middle.trans (hperm.cons _)).trans List.perm_middle.symm
  · simp only [List.mem_singleton, forall_eq]
    exact ⟨n, le_rfl, Nat.lt_succ_self n, rfl⟩

/-- The calls of request data to which one piece is added in the place of another. -/
theorem Accounted.perm_replace {chain : List RequestData}
    {due rest replaced new : List FinalizerCall} (h : Accounted registered n r)
    (hinstalled : ∀ call ∈ replaced, call.installed?.isSome = true)
    (hbefore : (dataCalls r.dataChain).Perm (rest ++ replaced))
    (hafter : (dataCalls chain).Perm (rest ++ new))
    (hdue : due = r.due.diff replaced ++ new) :
    (r.calls ++ { r with dataChain := chain, due }.pending registered).Perm
      ({ r with dataChain := chain, due }.dueCalls registered) := by
  refine List.perm_iff_count.mpr fun call => ?_
  have hcount := h.perm.count_eq call
  simp only [RequestState.pending, RequestState.pendingFilters, RequestState.dueCalls, hdue,
    List.count_append, List.count_diff, hbefore.count_eq, hafter.count_eq] at hcount ⊢
  have hle : replaced.count call = 0 ∨ (completeCalls registered r.own).count call = 0 := by
    by_cases hmem : call ∈ replaced
    · refine .inr (List.count_eq_zero.mpr fun hcomplete => ?_)
      have hsome := hinstalled call hmem
      rw [installed?_of_mem_completeCalls hcomplete] at hsome
      cases hsome
    · exact .inl (List.count_eq_zero.mpr hmem)
  omega

/-- Request data that is replaced is no longer due. -/
theorem Accounted.setRequestData (h : Accounted registered n r) (key : Option ℕ)
    (finalize : Bool) : Accounted registered (n + 1) (setRequestData r key finalize n) := by
  unfold Nxweb.setRequestData
  generalize hinstalled : (if finalize then some n else none) = installed
  have hnew : ∀ call ∈ installed.toList.map FinalizerCall.requestData,
      ∃ k, n ≤ k ∧ k < n + 1 ∧ call.installed? = some k := by
    subst hinstalled
    intro call hmem
    cases finalize with
    | false => simp at hmem
    | true =>
      obtain rfl : call = .requestData n := by simpa using hmem
      exact ⟨n, le_rfl, Nat.lt_succ_self n, rfl⟩
  have hnodup : (installed.toList.map FinalizerCall.requestData).Nodup := by
    cases installed <;> simp
  simp only
  split
  next =>
    have hafter : (dataCalls (⟨key, installed⟩ :: r.dataChain)).Perm
        (dataCalls r.dataChain ++ installed.toList.map FinalizerCall.requestData) := by
      rw [dataCalls_cons]
      exact List.perm_append_comm
    have hbefore : (dataCalls r.dataChain).Perm (dataCalls r.dataChain ++ []) := by
      rw [List.append_nil]
    have hperm := h.perm_replace (by simp) hbefore hafter rfl
    exact h.install hperm rfl (.refl _) hnodup hnew (Nat.le_succ n) h.own_eq
  next i hfind =>
    obtain ⟨hi, -, -⟩ := List.findIdx?_eq_some_iff_getElem.mp hfind
    rw [List.getElem?_eq_getElem hi, Option.bind_some]
    have hbefore := perm_dataCalls_middle (r.dataChain.take i) r.dataChain[i]
      (r.dataChain.drop (i + 1))
    have hafter := perm_dataCalls_middle (r.dataChain.take i)
      { r.dataChain[i] with finalize := installed } (r.dataChain.drop (i + 1))
    rw [← List.drop_eq_getElem_cons hi, List.take_append_drop] at hbefore
    rw [← List.modify_eq_take_cons_drop (f := fun d => { d with finalize := installed }) hi]
      at hafter
    have hperm := h.perm_replace (by simp [FinalizerCall.installed?]) hbefore hafter rfl
    exact h.install hperm rfl (List.diff_sublist _ _) hnodup hnew (Nat.le_succ n) h.own_eq

/-- A handler is selected when no filter of another one waits for its finalizer. -/
theorem Accounted.select (h : Accounted registered n r) (hcompleted : r.completed = false)
    (hfilters : r.pendingFilters registered = []) (handler : ℕ) (inits : ℕ → Bool)
    (outcome : SelectOutcome) :
    Accounted registered (n + (registered handler).filters.length)
      (select r handler (registered handler).filters inits outcome n) := by
  -- before, only `on_complete` is left of the handler that was selected, and it cancels
  have hbase : (r.calls ++ (r.reqFinalize.toList.map FinalizerCall.reqFinalize ++
      dataCalls r.dataChain)).Perm r.due := by
    have hperm := h.perm
    rw [RequestState.pending, hfilters, List.append_nil, ← List.append_assoc,
      RequestState.dueCalls, h.own_eq hcompleted] at hperm
    exact (List.perm_append_right_iff _).mp hperm
  set filterData : ℕ → Option ℕ := fun i =>
    if i < (registered handler).filters.length then (if inits i then some (n + i) else none)
    else r.filterData i with hdata
  have hnew : ∀ call ∈ filterCalls handler (registered handler).filters filterData,
      ∃ k, n ≤ k ∧ k < n + (registered handler).filters.length ∧ call.installed? = some k := by
    intro call hmem
    obtain ⟨i, m, hi, hsome, rfl⟩ := mem_filterCalls hmem
    simp only [hdata, hi, if_true] at hsome
    obtain ⟨-, heq⟩ := Option.ite_none_right_eq_some.mp hsome
    obtain rfl := Option.some.inj heq
    exact ⟨n + i, by omega, by omega, rfl⟩
  have hselected : Accounted registered (n + (registered handler).filters.length)
      { r with
        handler := some handler, own := some handler, filterData
        due := r.due ++ filterCalls handler (registered handler).filters filterData } := by
    refine h.install ?_ rfl (.refl _) (nodup_filterCalls _ _ _) hnew (by omega) fun _ => rfl
    rw [RequestState.pending, ← List.append_assoc, RequestState.dueCalls, ← List.append_assoc]
    refine List.Perm.append_right _ ?_
    simpa [RequestState.pendingFilters] using hbase.append_right _
  have hrefused : Accounted registered (n + (registered handler).filters.length)
      { r with
        handler := none, own := none
        filterData := clearSlots (registered handler).filters filterData
        calls := r.calls ++ filterCalls handler (registered handler).filters filterData
        due := r.due ++ filterCalls handler (registered handler).filters filterData } := by
    refine h.install ?_ rfl (.refl _) (nodup_filterCalls _ _ _) hnew (by omega) fun _ => rfl
    have hswap : (filterCalls handler (registered handler).filters filterData ++
        (r.reqFinalize.toList.map FinalizerCall.reqFinalize ++ dataCalls r.dataChain)).Perm _ :=
      List.perm_append_comm
    have hcomm := hswap.append_left r.calls
    rw [← List.append_assoc, ← List.append_assoc r.calls (_ ++ _)] at hcomm
    simpa [RequestState.pending, RequestState.pendingFilters, RequestState.dueCalls,
      completeCalls] using hcomm.trans (hbase.append_right _)
  cases outcome with
  | selected => exact hselected
  | refusedByKey => exact hselected
  | refused => exact hrefused

/-! ### Runs -/

/-- The invariant of the server: filters are those of registration, every request is accounted
for, and requests that are over were finalized once. -/
structure ServerAccounted (registered : Registered) (s : FinalizerState) : Prop where
  filters_eq : ∀ h, (s.handlers h).filters = (registered h).filters
  conns : ∀ c r, s.conns c = some r → Accounted registered s.installs r
  finished : ∀ r ∈ s.finished, FinalizedOnce registered r

/-- The request of a connection completes while the `on_complete` callback of its handler is as it
was registered. -/
def OnCompleteKept (registered : Registered) (s : FinalizerState) (c : ℕ) : Prop :=
  ∀ r h, s.conns c = some r → r.handler = some h →
    (s.handlers h).onComplete = (registered h).onComplete

/-- A transition that loses no callback: when the finalizers are called, no request of the same
handler has cleared its `on_complete` before; and when a handler is selected, no filter of a handler
that was refused is waiting for its finalizer. -/
def LosesNone (registered : Registered) (s : FinalizerState) (e : FinalizerEvent)
    (_ : FinalizerState) : Prop :=
  match e with
  | .select c _ _ _ => ∀ r, s.conns c = some r → r.pendingFilters registered = []
  | .callFinalizers c => OnCompleteKept registered s c
  | .finish c => OnCompleteKept registered s c
  | _ => True

/-- Connections other than the one of an event are left alone. -/
theorem ServerAccounted.update {s : FinalizerState} {m c : ℕ} {r' : Option RequestState}
    (h : ServerAccounted registered s) (hle : s.installs ≤ m)
    (hr : ∀ r, r' = some r → Accounted registered m r) (c' : ℕ) (r : RequestState)
    (hconn : Function.update s.conns c r' c' = some r) : Accounted registered m r := by
  by_cases hc : c' = c
  · subst hc
    rw [Function.update_self] at hconn
    exact hr r hconn
  · rw [Function.update_of_ne hc] at hconn
    exact (h.conns c' r hconn).mono hle

/-- A transition that loses no callback keeps the invariant. -/
theorem finalizerStep_accounted (s : FinalizerState) (e : FinalizerEvent) (s' : FinalizerState)
    (h : ServerAccounted registered s) (hstep : finalizerStep s e = some s')
    (hlose : LosesNone registered s e s') : ServerAccounted registered s' := by
  cases e with
  | begin c =>
    obtain ⟨-, heq⟩ := Option.ite_none_right_eq_some.mp hstep
    obtain rfl := Option.some.inj heq
    refine ⟨h.filters_eq, h.update le_rfl ?_, h.finished⟩
    rintro r ⟨⟩
    exact accounted_begin
  | select c handler inits outcome =>
    obtain ⟨r, hr, hrest⟩ := Option.bind_eq_some_iff.mp hstep
    obtain ⟨hcompleted, heq⟩ := Option.ite_none_left_eq_some.mp hrest
    obtain rfl := Option.some.inj heq
    refine ⟨h.filters_eq, h.update (Nat.le_add_right _ _) ?_, h.finished⟩
    rintro _ ⟨⟩
    rw [h.filters_eq]
    exact (h.conns c r hr).select (by simpa using hcompleted) (hlose r hr) handler inits outcome
  | setReqFinalize c =>
    obtain ⟨r, hr, hrest⟩ := Option.bind_eq_some_iff.mp hstep
    obtain ⟨hnone, heq⟩ := Option.ite_none_right_eq_some.mp hrest
    obtain rfl := Option.some.inj heq
    refine ⟨h.filters_eq, h.update (Nat.le_succ _) ?_, h.finished⟩
    rintro _ ⟨⟩
    exact (h.conns c r hr).setReqFinalize hnone
  | setRequestData c key finalize =>
    obtain ⟨r, hr, rfl⟩ := Option.map_eq_some_iff.mp hstep
    refine ⟨h.filters_eq, h.update (Nat.le_succ _) ?_, h.finished⟩
    rintro _ ⟨⟩
    exact (h.conns c r hr).setRequestData key finalize
  | callFinalizers c =>
    obtain ⟨r, hr, rfl⟩ := Option.map_eq_some_iff.mp hstep
    obtain ⟨haccounted, -⟩ := (h.conns c r hr).callRequestFinalizers h.filters_eq
      fun handler hhandler => hlose r handler hr hhandler
    refine ⟨fun handler => ?_, h.update le_rfl ?_, h.finished⟩
    · exact (callRequestFinalizers_filters s.handlers r handler).trans (h.filters_eq handler)
    · rintro _ ⟨⟩
      exact haccounted
  | finish c =>
    obtain ⟨r, hr, rfl⟩ := Option.map_eq_some_iff.mp hstep
    obtain ⟨-, hfinalized⟩ := (h.conns c r hr).callRequestFinalizers h.filters_eq
      fun handler hhandler => hlose r handler hr hhandler
    refine ⟨fun handler => ?_, h.update le_rfl (by simp), fun r' hmem => ?_⟩
    · exact (callRequestFinalizers_filters s.handlers r handler).trans (h.filters_eq handler)
    · rcases List.mem_append.mp hmem with hold | hnew
      · exact h.finished r' hold
      · obtain rfl := List.mem_singleton.mp hnew
        exact hfinalized

/-- The handlers of a server, each registered with or without a base handler. -/
def registerHandlers (defs : ℕ → HandlerCallbacks × Option HandlerCallbacks) : Registered :=
  fun h => registerHandler (defs h).1 (defs h).2

/-- For every sequence of requests on any number of connections that share the registered handlers,
and with the finalizers called any number of times for a request: in a run that loses no callback,
every request that is over got each call that was due exactly once. -/
theorem finalizerRun_once (defs : ℕ → HandlerCallbacks × Option HandlerCallbacks)
    (es : List FinalizerEvent)
    (hlose : Along finalizerStep (LosesNone (registerHandlers defs))
      { handlers := registerHandlers defs } es) :
    Along finalizerStep
      (fun _ _ s => ∀ r ∈ s.finished, FinalizedOnce (registerHandlers defs) r)
      { handlers := registerHandlers defs } es := by
  refine along_of_inv (I := ServerAccounted (registerHandlers defs)) (fun s e s' hI hs hQ => ?_)
    ⟨fun _ => rfl, by simp, by simp⟩ hlose
  have hkept := finalizerStep_accounted s e s' hI hs hQ
  exact ⟨hkept.finished, hkept⟩

/-- Handlers that inherit `on_complete` from a base handler and have no filters. -/
def plainDefs (_ : ℕ) : HandlerCallbacks × Option HandlerCallbacks :=
  ({}, some { onComplete := true })

/-- A request with two finalizers completes on connection `0`, where the finalizers are called
twice. -/
def oneRequest : List FinalizerEvent :=
  [.begin 0, .select 0 7 (fun _ => false) .selected, .setReqFinalize 0,
    .setRequestData 0 none true, .callFinalizers 0, .finish 0]

/-- All four calls are made once. -/
theorem finalizerRun_once_oneRequest :
    Along finalizerStep (LosesNone (registerHandlers plainDefs))
        { handlers := registerHandlers plainDefs } oneRequest ∧
      Along finalizerStep
        (fun _ _ s => ∀ r ∈ s.finished, FinalizedOnce (registerHandlers plainDefs) r)
        { handlers := registerHandlers plainDefs } oneRequest := by
  have hlose : Along finalizerStep (LosesNone (registerHandlers plainDefs))
      { handlers := registerHandlers plainDefs } oneRequest := by
    rintro _ ⟨⟩
    refine ⟨trivial, ?_⟩
    rintro _ ⟨⟩
    refine ⟨by rintro _ ⟨⟩; rfl, ?_⟩
    rintro _ ⟨⟩
    refine ⟨trivial, ?_⟩
    rintro _ ⟨⟩
    refine ⟨trivial, ?_⟩
    rintro _ ⟨⟩
    refine ⟨by rintro _ _ ⟨⟩ ⟨⟩; rfl, ?_⟩
    rintro _ ⟨⟩
    exact ⟨by rintro _ _ ⟨⟩ ⟨⟩, trivial⟩
  exact ⟨hlose, finalizerRun_once plainDefs oneRequest hlose⟩

/-- Two connections serve one request each, with the same handler. -/
def twoRequests : List FinalizerEvent :=
  [.begin 0, .begin 1, .select 0 7 (fun _ => false) .selected,
    .select 1 7 (fun _ => false) .selected, .finish 0, .finish 1]

/-- The callback `on_complete` of the handler is called for the first request only. -/
theorem finalizerRun_second_request :
    (run finalizerStep { handlers := registerHandlers plainDefs } twoRequests).map
        (fun s => s.finished.map fun r => (r.own, r.calls)) =
      some [(some 7, [.onComplete 7]), (some 7, [])] ∧
    ¬ Along finalizerStep
      (fun _ _ s => ∀ r ∈ s.finished, FinalizedOnce (registerHandlers plainDefs) r)
      { handlers := registerHandlers plainDefs } twoRequests := by
  have hrun : (run finalizerStep { handlers := registerHandlers plainDefs } twoRequests).map
      (fun s => s.finished.map fun r => (r.own, r.calls)) =
        some [(some 7, [.onComplete 7]), (some 7, [])] := by rfl
  refine ⟨hrun, fun h => ?_⟩
  obtain ⟨s, hs, heq⟩ := Option.map_eq_some_iff.mp hrun
  have honce : ∀ r ∈ s.finished, FinalizedOnce (registerHandlers plainDefs) r :=
    run_inv_of_along (I := fun s : FinalizerState =>
      ∀ r ∈ s.finished, FinalizedOnce (registerHandlers plainDefs) r)
      (fun _ _ _ _ _ hQ => hQ) (by simp) h hs
  have hmem : (some 7, []) ∈ s.finished.map fun r => (r.own, r.calls) := by simp [heq]
  obtain ⟨r, hr, hr'⟩ := List.mem_map.mp hmem
  obtain ⟨hown, hcalls⟩ := Prod.mk.inj hr'
  have hlen := (honce r hr).1.length_eq
  simp [hcalls, RequestState.dueCalls, completeCalls, hown, registerHandlers, registerHandler,
    plainDefs] at hlen

end Nxweb
