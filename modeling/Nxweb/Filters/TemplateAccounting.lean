import Nxweb.Filters.TemplateLoader

/-!
# Counting the loads of a template

`files_pending` counts the files that are being loaded, and the context is merged and sent when it
reaches zero. It goes down in six places: a file ends, well or with an error or behind the size
limit, a response is empty, and a subrequest fails. A subrequest tells its failure at most once, and
that its response is ready at most once (`TfRun.step`), but it can tell both, and its stream can end
besides.

The counter is the number of loads that have not come to an end yet, and the context is merged once
and only when all of them have, exactly along the runs that bring no load to an end twice
(`along_accounted_iff`).

## Main definitions

* `TfRun`, `LoadEvent`, `TfRun.step`: the context with the connections of its subrequests;
* `TfRun.Accounted`: what the counter stands for;
* `EndsOnce`: the transitions on which no load ends again.
-/

namespace Nxweb

open Lib

/-- The flags of the connection of a subrequest, and whether its load has come to an end. The load
of the file that the filter is applied to has no subrequest. -/
structure TfSubrequest where
  responseReady : Bool := false
  subrequestFailed : Bool := false
  ended : Bool := false
  deriving DecidableEq, Repr

/-- The context, and the connections by the number of their buffers. -/
structure TfRun where
  ctx : TfContext
  subs : List TfSubrequest
  deriving DecidableEq, Repr

/-- What happens to load `id`: its connection gets `NXD_HSP_RESPONSE_READY`, with a response that
has some status and content length, or is finalized after an error; or a fragment of its file
arrives. -/
inductive LoadEvent where
  | responseReady (id status : ℕ) (contentLength : ℤ)
  | connectionFinalize (id : ℕ)
  | write (id : ℕ) (data : List UInt8) (eof : Bool) (outcome : ParseOutcome)
  deriving DecidableEq, Repr

/-- `tf_on_subrequest_ready`, as an event of the context. -/
def onSubrequestReady (id : ℕ) (sub : TfSubrequest) (status : ℕ) (contentLength : ℤ) : TfEvent :=
  if ¬ sub.subrequestFailed ∧ (status = 0 ∨ status = 200) then
    if contentLength = 0 then .emptyResponse id else .ready id
  else .failed id

/-- The event brings the load to an end. -/
def TfEvent.ends : TfEvent → Bool
  | .ready _ => false
  | .emptyResponse _ => true
  | .failed _ => true
  | .write _ _ eof _ => eof

/-- The context takes an event of load `id`, whose connection is `sub` afterwards. Files that are
loaded from now on have new connections. -/
def TfRun.apply (s : TfRun) (id : ℕ) (sub : TfSubrequest) (e : TfEvent) : Option TfRun :=
  (tfStep s.ctx e).map fun ctx =>
    { ctx
      subs := s.subs.set id { sub with ended := sub.ended || e.ends } ++
        List.replicate (ctx.tfbs.length - s.ctx.tfbs.length) {} }

/-- One event; `none` is also a failed assertion. -/
def TfRun.step (s : TfRun) : LoadEvent → Option TfRun
  | .responseReady id status contentLength => do
    let sub ← s.subs[id]?
    -- `assert(!conn->response_ready)`
    if id = 0 ∨ sub.responseReady then none
    else
      s.apply id { sub with responseReady := true }
        (onSubrequestReady id sub status contentLength)
  | .connectionFinalize id => do
    let sub ← s.subs[id]?
    if id = 0 then none
    else if sub.subrequestFailed then some s
    else
      let sub := { sub with subrequestFailed := true }
      s.apply id sub (onSubrequestReady id sub 0 0)
  | .write id data eof outcome => do
    let sub ← s.subs[id]?
    s.apply id sub (.write id data eof outcome)

/-- The filter is applied to a file. -/
def TfRun.init : TfRun where
  ctx := .init
  subs := [{}]

/-- The number of loads that have not come to an end. -/
def TfRun.loading (s : TfRun) : ℕ := s.subs.countP fun sub => !sub.ended

/-- The counter is the number of loads that have not come to an end, and the context has been
merged once if there are none, and not at all otherwise. -/
structure TfRun.Accounted (s : TfRun) : Prop where
  pending_eq : s.ctx.filesPending = s.loading
  pending_nonneg : 0 ≤ s.ctx.filesPending
  merges_eq : s.ctx.merges = if ∀ sub ∈ s.subs, sub.ended then 1 else 0

instance (s : TfRun) : Decidable s.Accounted :=
  decidable_of_iff (s.ctx.filesPending = s.loading ∧ 0 ≤ s.ctx.filesPending ∧
    s.ctx.merges = if ∀ sub ∈ s.subs, sub.ended then 1 else 0)
    ⟨fun ⟨h₁, h₂, h₃⟩ => ⟨h₁, h₂, h₃⟩, fun h => ⟨h.pending_eq, h.pending_nonneg, h.merges_eq⟩⟩

/-- A transition on which no load comes to an end that has come to one before. -/
def EndsOnce (s : TfRun) (e : LoadEvent) (_ : TfRun) : Prop :=
  match e with
  | .responseReady id status contentLength => ∀ sub ∈ s.subs[id]?,
      (onSubrequestReady id sub status contentLength).ends = true → sub.ended = false
  | .connectionFinalize id => ∀ sub ∈ s.subs[id]?,
      sub.subrequestFailed = false → sub.ended = false
  | .write id _ eof _ => ∀ sub ∈ s.subs[id]?, eof = true → sub.ended = false

/-! ### What an event does to the counter -/

@[simp] theorem TfContext.checkComplete_filesPending (ctx : TfContext) :
    ctx.checkComplete.filesPending = ctx.filesPending := by
  unfold TfContext.checkComplete
  split_ifs <;> rfl

@[simp] theorem TfContext.checkComplete_tfbs (ctx : TfContext) :
    ctx.checkComplete.tfbs = ctx.tfbs := by
  unfold TfContext.checkComplete
  split_ifs <;> rfl

theorem TfContext.checkComplete_merges (ctx : TfContext) :
    ctx.checkComplete.merges = ctx.merges + if ctx.filesPending = 0 then 1 else 0 := by
  unfold TfContext.checkComplete
  split_ifs <;> rfl

/-- Every file to load has a buffer and is counted. -/
theorem TfContext.foldl_load (loads : List TfTarget) (ctx : TfContext) :
    (loads.foldl TfContext.load ctx).tfbs.length = ctx.tfbs.length + loads.length ∧
      (loads.foldl TfContext.load ctx).filesPending = ctx.filesPending + loads.length ∧
      (loads.foldl TfContext.load ctx).merges = ctx.merges := by
  induction loads generalizing ctx with
  | nil => simp
  | cons target loads ih =>
    obtain ⟨htfbs, hpending, hmerges⟩ := ih (ctx.load target)
    rw [List.foldl_cons, htfbs, hpending, hmerges]
    refine ⟨?_, ?_, rfl⟩
    · simp [TfContext.load]
      omega
    · simp [TfContext.load]
      ring

/-- The end of a file is counted off, after the files that it makes the context load are counted. -/
theorem TfContext.finishFile_effect (ctx : TfContext) (id : ℕ) (tfb : TfBuffer)
    (outcome : ParseOutcome) :
    ∃ n : ℕ, (ctx.finishFile id tfb outcome).tfbs.length = ctx.tfbs.length + n ∧
      (ctx.finishFile id tfb outcome).filesPending = ctx.filesPending + n - 1 ∧
      (ctx.finishFile id tfb outcome).merges = ctx.merges := by
  unfold TfContext.finishFile
  split_ifs
  · exact ⟨0, rfl, by simp, rfl⟩
  · cases tfb.target with
    | file =>
      obtain ⟨htfbs, hpending, hmerges⟩ := TfContext.foldl_load outcome.loads
        { ctx with
          nxb := ctx.nxb.finishStream.2
          passed := ctx.passed ++ [(id, ctx.nxb.finishStream.1)] }
      refine ⟨outcome.loads.length, htfbs, ?_, hmerges⟩
      simp only [TfContext.parseFile]
      rw [hpending]
    | block => exact ⟨0, rfl, by simp, rfl⟩

theorem TfContext.collect_effect (ctx : TfContext) (tfb : TfBuffer) (data : List UInt8) :
    (ctx.collect tfb data).1.tfbs = ctx.tfbs ∧
      (ctx.collect tfb data).1.filesPending = ctx.filesPending ∧
      (ctx.collect tfb data).1.merges = ctx.merges := by
  unfold TfContext.collect
  dsimp only
  split_ifs <;> exact ⟨rfl, rfl, rfl⟩

/-- What an event does to the counter: an end of a load is counted off once, and the context is
merged if that leaves nothing to count. -/
structure LoadCounts (ctx ctx' : TfContext) (ends : Bool) (n : ℕ) : Prop where
  tfbs : ctx'.tfbs.length = ctx.tfbs.length + n
  filesPending : ctx'.filesPending = ctx.filesPending + n - if ends then 1 else 0
  merges : ctx'.merges = ctx.merges + if ends = true ∧ ctx'.filesPending = 0 then 1 else 0
  /-- Only the end of a file makes the context load others. -/
  loads : ends = false → n = 0

/-- Only the buffers, the counter and the merges of the context before matter. -/
theorem LoadCounts.of_eq {ctx₁ ctx ctx' : TfContext} {ends : Bool} {n : ℕ}
    (h : LoadCounts ctx₁ ctx' ends n) (htfbs : ctx₁.tfbs.length = ctx.tfbs.length)
    (hpending : ctx₁.filesPending = ctx.filesPending) (hmerges : ctx₁.merges = ctx.merges) :
    LoadCounts ctx ctx' ends n :=
  ⟨htfbs ▸ h.tfbs, hpending ▸ h.filesPending, hmerges ▸ h.merges, h.loads⟩

theorem TfContext.finishFile_counts (ctx : TfContext) (id : ℕ) (tfb : TfBuffer)
    (outcome : ParseOutcome) :
    ∃ n, LoadCounts ctx (ctx.finishFile id tfb outcome).checkComplete true n := by
  obtain ⟨n, htfbs, hpending, hmerges⟩ := ctx.finishFile_effect id tfb outcome
  refine ⟨n, by rw [checkComplete_tfbs, htfbs], by simp [hpending], ?_, by simp⟩
  simp [TfContext.checkComplete_merges, hmerges]

theorem tfStep_counts {ctx ctx' : TfContext} {e : TfEvent} (h : tfStep ctx e = some ctx') :
    ∃ n, LoadCounts ctx ctx' e.ends n := by
  cases e with
  | ready id =>
    obtain ⟨tfb, -, rfl⟩ := Option.map_eq_some_iff.mp h
    exact ⟨0, by simp, by simp [TfEvent.ends], by simp [TfEvent.ends], fun _ => rfl⟩
  | emptyResponse id =>
    obtain ⟨tfb, -, rfl⟩ := Option.map_eq_some_iff.mp h
    refine ⟨0, by simp, by simp [TfEvent.ends], ?_, fun _ => rfl⟩
    simp [TfEvent.ends, TfContext.checkComplete_merges]
  | failed id =>
    obtain ⟨tfb, -, rfl⟩ := Option.map_eq_some_iff.mp h
    refine ⟨0, by simp, by simp [TfEvent.ends], ?_, fun _ => rfl⟩
    simp [TfEvent.ends, TfContext.checkComplete_merges]
  | write id data eof outcome =>
    obtain ⟨tfb, -, h⟩ := Option.bind_eq_some_iff.mp h
    split_ifs at h
    obtain rfl := Option.some.inj h
    obtain ⟨htfbs, hpending, hmerges⟩ := ctx.collect_effect tfb data
    unfold TfContext.dataInWrite
    cases eof with
    | false => exact ⟨0, by simp [htfbs], by simp [hpending, TfEvent.ends],
        by simp [hmerges, TfEvent.ends], fun _ => rfl⟩
    | true =>
      simp only [if_true]
      obtain ⟨n, hn⟩ := TfContext.finishFile_counts _ id _ outcome
      exact ⟨n, hn.of_eq (by rw [List.length_set, htfbs]) hpending hmerges⟩

/-! ### The connections -/

section Loads

variable {s s' : TfRun} {id : ℕ} {sub sub' : TfSubrequest} {e : TfEvent}

/-- The number of loads that are going on after an event of load `id`. -/
theorem TfRun.apply_loading (hsub : s.subs[id]? = some sub) (hended : sub'.ended = sub.ended)
    (h : s.apply id sub' e = some s') :
    ∃ n, LoadCounts s.ctx s'.ctx e.ends n ∧
      s'.loading + (if e.ends = true ∧ sub.ended = false then 1 else 0) = s.loading + n := by
  obtain ⟨ctx, hstep, rfl⟩ := Option.map_eq_some_iff.mp h
  obtain ⟨n, hcounts⟩ := tfStep_counts hstep
  have hn : ctx.tfbs.length - s.ctx.tfbs.length = n := by
    rw [hcounts.tfbs]
    omega
  obtain ⟨hlt, hget⟩ := List.getElem?_eq_some_iff.mp hsub
  refine ⟨n, hcounts, ?_⟩
  have hpos : sub.ended = false → 0 < s.subs.countP fun sub => !sub.ended := fun hfalse =>
    List.countP_pos_iff.mpr ⟨sub, List.mem_of_getElem? hsub, by simp [hfalse]⟩
  simp only [TfRun.loading, hn, List.countP_append, List.countP_set hlt, hget, hended,
    List.countP_replicate]
  generalize (s.subs.countP fun sub => !sub.ended) = loading at hpos ⊢
  cases hfalse : sub.ended <;> cases e.ends <;> simp [hfalse] at hpos ⊢
  all_goals omega

/-- All loads have come to an end if none is going on. -/
theorem TfRun.loading_eq_zero_iff : s.loading = 0 ↔ ∀ sub ∈ s.subs, sub.ended = true := by
  simp [TfRun.loading]

/-- An event that ends no load twice keeps the count, and one that does breaks it. -/
theorem TfRun.Accounted.apply_iff (hs : s.Accounted) (hsub : s.subs[id]? = some sub)
    (hended : sub'.ended = sub.ended) (h : s.apply id sub' e = some s') :
    s'.Accounted ↔ (e.ends = true → sub.ended = false) := by
  obtain ⟨n, hcounts, hloading⟩ := TfRun.apply_loading hsub hended h
  have hpending := hs.pending_eq
  have hmerges := hs.merges_eq
  have hpending' := hcounts.filesPending
  have hmerges' := hcounts.merges
  simp only [← TfRun.loading_eq_zero_iff] at hmerges
  constructor
  · intro h' hends
    by_contra hnot
    -- the load is counted off, but the number of loads is the same
    have heq := h'.pending_eq
    rw [if_pos hends] at hpending'
    rw [if_neg (by simp [hnot])] at hloading
    omega
  · intro honce
    cases hends : e.ends with
    | false =>
      have hn := hcounts.loads hends
      rw [if_neg (by simp [hends])] at hpending' hmerges' hloading
      refine ⟨by omega, by omega, ?_⟩
      simp only [← TfRun.loading_eq_zero_iff]
      rw [hmerges', hmerges, show s'.loading = s.loading by omega]
      rfl
    | true =>
      rw [if_pos hends] at hpending'
      rw [if_pos ⟨hends, honce hends⟩] at hloading
      -- something was loading, so the context was not merged before
      have hone : s.loading ≠ 0 := fun hzero => by
        have hall := TfRun.loading_eq_zero_iff.mp hzero sub (List.mem_of_getElem? hsub)
        rw [honce hends] at hall
        cases hall
      have hsame : s'.ctx.filesPending = s'.loading := by omega
      refine ⟨hsame, by omega, ?_⟩
      simp only [← TfRun.loading_eq_zero_iff]
      rw [hmerges', hmerges, if_neg hone, Nat.zero_add, hsame]
      simp [hends]

/-- An event that the connection passes on, in the terms of its load. -/
theorem TfRun.step_cases {ev : LoadEvent} (h : s.step ev = some s') :
    (s' = s ∧ EndsOnce s ev s') ∨ ∃ id sub sub' e, s.subs[id]? = some sub ∧
      sub'.ended = sub.ended ∧ s.apply id sub' e = some s' ∧
      (EndsOnce s ev s' ↔ (e.ends = true → sub.ended = false)) := by
  cases ev with
  | responseReady id status contentLength =>
    obtain ⟨sub, hsub, h⟩ := Option.bind_eq_some_iff.mp h
    split_ifs at h
    refine .inr ⟨id, sub, { sub with responseReady := true }, _, hsub, rfl, h, ?_⟩
    simp [EndsOnce, hsub]
  | connectionFinalize id =>
    obtain ⟨sub, hsub, h⟩ := Option.bind_eq_some_iff.mp h
    split_ifs at h with hid hfailed
    · obtain rfl := Option.some.inj h
      exact .inl ⟨rfl, by simp [EndsOnce, hsub, hfailed]⟩
    · refine .inr ⟨id, sub, { sub with subrequestFailed := true }, _, hsub, rfl, h, ?_⟩
      simp [EndsOnce, hsub, hfailed, onSubrequestReady, TfEvent.ends]
  | write id data eof outcome =>
    obtain ⟨sub, hsub, h⟩ := Option.bind_eq_some_iff.mp h
    refine .inr ⟨id, sub, _, _, hsub, rfl, h, ?_⟩
    simp [EndsOnce, hsub, TfEvent.ends]

end Loads

theorem TfRun.accounted_init : TfRun.init.Accounted := by decide

/-- The counter is right, and the context is merged once and when everything has been loaded,
along the runs on which no load comes to an end twice, and only along these. -/
theorem along_accounted_iff (es : List LoadEvent) :
    Along TfRun.step (fun _ _ s' => s'.Accounted) .init es ↔ Along TfRun.step EndsOnce .init es := by
  refine along_iff (I := TfRun.Accounted) (fun s e s' hs h => ?_) es TfRun.accounted_init
  refine ⟨?_, id⟩
  obtain ⟨rfl, honce⟩ | ⟨id, sub, sub', e', hsub, hended, happly, hiff⟩ := TfRun.step_cases h
  · exact iff_of_true hs honce
  · rw [hiff]
    exact hs.apply_iff hsub hended happly

/-- A file that includes another one. The backend of the included file sends its headers and
resets the connection: the subrequest fails, and its response is ready after that. -/
def failedWhenReady : List LoadEvent :=
  [.write 0 (bytes "x") true ⟨[.block], true⟩, .connectionFinalize 1, .responseReady 1 200 (-1)]

/-- The failure of the included file is counted twice, and the counter is negative. -/
theorem not_along_accounted :
    ¬ Along TfRun.step (fun _ _ s' => s'.Accounted) .init failedWhenReady := by
  decide

end Nxweb
