import Nxweb.Server.SelectHandler
import Nxweb.Modules.Sendfile

/-!
# When a refused handler leaves no trace

A handler that refuses a request is left without a trace exactly if the refusal does not come
from its cache-key callback, and the file information in the response is one that the code
recognises as set (`selectHandler_next_iff`). The callbacks keep filter data where they find it
(`SameSlots`), so the filters that are finalized are the ones that were initialised.
-/

namespace Nxweb

open Lib

variable {W P : Type}

/-! ### Filter data stays in its slots -/

/-- The same slots are in use. -/
def SameSlots (c c' : Conn W P) : Prop :=
  ∀ i, (c'.filterData i).isSome = (c.filterData i).isSome

theorem SameSlots.refl (c : Conn W P) : SameSlots c c := fun _ => rfl

theorem SameSlots.trans {c c' c'' : Conn W P} (h : SameSlots c c') (h' : SameSlots c' c'') :
    SameSlots c c'' := fun i => (h' i).trans (h i)

/-- Changing other parts of the connection keeps the slots. -/
theorem SameSlots.with_ex (c : Conn W P) (ex : Exchange W) : SameSlots c { c with ex } :=
  fun _ => rfl

/-- A filter that takes part has its data in its slot, and writes it back there. -/
theorem SameSlots.set_active {c : Conn W P} {i : ℕ} {fdata : FilterData P}
    (h : c.activeFilterData i = some fdata) (ex : Exchange W) (fdata' : FilterData P) :
    SameSlots c ({ c with ex }.setFilterData i (some fdata')) := by
  have hi : (c.filterData i).isSome := by
    obtain ⟨hsome, -⟩ := Option.filter_eq_some_iff.mp h
    rw [hsome]
    rfl
  intro j
  by_cases hj : j = i
  · subst hj
    simp [Conn.setFilterData, hi]
  · simp [Conn.setFilterData, Function.update_of_ne hj]

/-- A fold of steps that keep the slots keeps them. -/
theorem SameSlots.foldl {β : Type} {f : β → Filter W P × ℕ → β} {conn : β → Conn W P}
    (hf : ∀ b s, SameSlots (conn b) (conn (f b s))) (ss : List (Filter W P × ℕ)) (b : β) :
    SameSlots (conn b) (conn (ss.foldl f b)) := by
  induction ss generalizing b with
  | nil => exact .refl _
  | cons s ss ih => exact (hf b s).trans (ih _)

theorem sameSlots_decodeUri (u : Option CStr × Conn W P) (s : Filter W P × ℕ) :
    SameSlots u.2 (decodeUri u s).2 := by
  unfold decodeUri
  split
  next fdata f hdata _ => exact .set_active hdata _ _
  next => exact .refl _

theorem sameSlots_translateCacheKey {k k' : List UInt8 × Conn W P} {s : Filter W P × ℕ}
    (h : translateCacheKey k s = some k') : SameSlots k.2 k'.2 := by
  unfold translateCacheKey at h
  split at h
  next fdata f hdata _ =>
    simp only at h
    split_ifs at h
    · cases h
      exact .set_active hdata _ _
    · split at h
      · cases h
        exact .set_active hdata _ _
      · cases h
  next =>
    cases h
    exact .refl _

theorem sameSlots_foldlM_translateCacheKey {k k' : List UInt8 × Conn W P}
    {ss : List (Filter W P × ℕ)} (h : ss.foldlM translateCacheKey k = some k') :
    SameSlots k.2 k'.2 := by
  induction ss generalizing k with
  | nil =>
    cases h
    exact .refl _
  | cons s ss ih =>
    rw [List.foldlM_cons] at h
    obtain ⟨k₁, hk₁, hrest⟩ := Option.bind_eq_some_iff.mp h
    exact (sameSlots_translateCacheKey hk₁).trans (ih hrest)

/-- Filters that do not serve the request keep the slots. -/
theorem sameSlots_serveFromCache {env : ServerFunctions W} {h : Handler W P} {checkTime : ℤ}
    {c c' : Conn W P} {ss : List (Filter W P × ℕ)}
    (hserve : serveFromCache env h checkTime c ss = (false, c')) : SameSlots c c' := by
  induction ss generalizing c with
  | nil =>
    cases hserve
    exact .refl _
  | cons s ss ih =>
    unfold serveFromCache at hserve
    split at hserve
    next fdata f hdata _ =>
      simp only at hserve
      by_cases hr : (f fdata checkTime c.ex).1 = .ok
      · rw [if_pos hr] at hserve
        split at hserve <;> simp at hserve
      · rw [if_neg hr] at hserve
        exact (SameSlots.set_active hdata _ _).trans (ih hserve)
    next => exact ih hserve

theorem sameSlots_tryMemcache {env : ServerFunctions W} {h : Handler W P} {key : List UInt8}
    {c c' : Conn W P} {res : CacheTryResult} (htry : tryMemcache env h key c = (res, c')) :
    SameSlots c c' := by
  unfold tryMemcache at htry
  split_ifs at htry
  · cases htry
    exact .with_ex c _
  · cases htry
    exact .refl c

/-- Caches that do not serve the request keep the slots. -/
theorem sameSlots_consultCaches {env : ServerFunctions W} {h : Handler W P} {key : List UInt8}
    {c c' : Conn W P} (hcons : consultCaches env h key c = some (false, c')) :
    SameSlots c c' := by
  unfold consultCaches at hcons
  obtain ⟨⟨key', c₁⟩, hkey, hrest⟩ := Option.bind_eq_some_iff.mp hcons
  simp only [Option.pure_def] at hrest
  split at hrest
  next => simp at hrest
  next res c₂ _ htry =>
    have hslots := (sameSlots_foldlM_translateCacheKey hkey).trans
      ((SameSlots.with_ex c₁ _).trans (sameSlots_tryMemcache htry))
    by_cases hnot : c₂.ex.NotModified
    · rw [if_pos hnot] at hrest
      simp at hrest
    · rw [if_neg hnot] at hrest
      exact hslots.trans (sameSlots_serveFromCache (Option.some.inj hrest))

/-- A request that gets to its handler keeps the slots. -/
theorem sameSlots_checkCache {env : ServerFunctions W} {h : Handler W P} {c c' : Conn W P}
    (hcheck : checkCache env h c = some (.proceed c')) : SameSlots c c' := by
  unfold checkCache at hcheck
  split at hcheck
  next =>
    cases hcheck
    exact .refl c
  next f _ =>
    simp only at hcheck
    by_cases hr : (f c.ex).1 = .next
    · rw [if_pos hr] at hcheck
      simp at hcheck
    · rw [if_neg hr] at hcheck
      split at hcheck
      next b key _ =>
        obtain ⟨⟨served, c₁⟩, hcons, hrest⟩ := Option.bind_eq_some_iff.mp hcheck
        cases served with
        | true => simp at hrest
        | false =>
          obtain rfl : c₁ = c' := by simpa using hrest
          exact (SameSlots.with_ex c _).trans (sameSlots_consultCaches hcons)
      next =>
        cases hcheck
        exact .with_ex c _

/-! ### Initialising and finalizing -/

/-- Slots of a handler are numbered without repetition. -/
theorem nodup_slots (h : Handler W P) : (h.slots.map Prod.snd).Nodup := by
  rw [Handler.slots, List.zipIdx_map_snd]
  exact List.nodup_range'

theorem initFilter_filterData_of_ne {c : Conn W P} {s : Filter W P × ℕ} {i : ℕ} (hi : i ≠ s.2) :
    (initFilter c s).filterData i = c.filterData i := by
  simp [initFilter, Conn.setFilterData, Function.update_of_ne hi]

/-- Initialisation leaves other slots alone. -/
theorem foldl_initFilter_filterData {c : Conn W P} {ss : List (Filter W P × ℕ)} {i : ℕ}
    (hi : i ∉ ss.map Prod.snd) : (ss.foldl initFilter c).filterData i = c.filterData i := by
  induction ss generalizing c with
  | nil => rfl
  | cons s ss ih =>
    simp only [List.map_cons, List.mem_cons, not_or] at hi
    rw [List.foldl_cons, ih hi.2, initFilter_filterData_of_ne hi.1]

theorem finalizeFilter_filterData (c : Conn W P) (s : Filter W P × ℕ) :
    (finalizeFilter c s).filterData = Function.update c.filterData s.2 none := by
  unfold finalizeFilter
  split <;> rfl

/-- Finalizing clears the slots of the filters and leaves the others alone. -/
theorem foldl_finalizeFilter_filterData (c : Conn W P) (ss : List (Filter W P × ℕ)) (i : ℕ) :
    (ss.foldl finalizeFilter c).filterData i =
      if i ∈ ss.map Prod.snd then none else c.filterData i := by
  induction ss generalizing c with
  | nil => simp
  | cons s ss ih =>
    rw [List.foldl_cons, ih, finalizeFilter_filterData]
    by_cases hi : i = s.2
    · simp [hi]
    · rw [Function.update_of_ne hi]
      simp only [List.map_cons, List.mem_cons, hi, false_or]

theorem finalized_subset_finalizeFilter (c : Conn W P) (s : Filter W P × ℕ) :
    c.finalized ⊆ (finalizeFilter c s).finalized := by
  unfold finalizeFilter
  split
  · exact List.subset_append_left _ _
  · exact List.Subset.refl _

theorem finalized_subset_foldl (c : Conn W P) (ss : List (Filter W P × ℕ)) :
    c.finalized ⊆ (ss.foldl finalizeFilter c).finalized := by
  induction ss generalizing c with
  | nil => exact List.Subset.refl _
  | cons s ss ih => exact List.Subset.trans (finalized_subset_finalizeFilter c s) (ih _)

/-- Every filter that has data is finalized. -/
theorem mem_finalized_foldl {c : Conn W P} {ss : List (Filter W P × ℕ)}
    (hnodup : (ss.map Prod.snd).Nodup) {s : Filter W P × ℕ} (hs : s ∈ ss)
    (hfin : s.1.finalize.isSome) (hdata : (c.filterData s.2).isSome) :
    s.2 ∈ (ss.foldl finalizeFilter c).finalized := by
  induction ss generalizing c with
  | nil => simp at hs
  | cons t ss ih =>
    rw [List.map_cons, List.nodup_cons] at hnodup
    rcases List.mem_cons.mp hs with rfl | hs
    · refine finalized_subset_foldl _ ss ?_
      obtain ⟨fdata, hfdata⟩ := Option.isSome_iff_exists.mp hdata
      obtain ⟨f, hf⟩ := Option.isSome_iff_exists.mp hfin
      simp [finalizeFilter, hfdata, hf, Conn.setFilterData]
    · refine ih hnodup.2 hs ?_
      have hne : s.2 ≠ t.2 := fun heq =>
        hnodup.1 (heq ▸ List.mem_map_of_mem hs)
      rw [finalizeFilter_filterData, Function.update_of_ne hne]
      exact hdata

/-! ### Refusals -/

/-- The connection as the dispatcher has it between two handlers. -/
structure Conn.Idle (c : Conn W P) : Prop where
  handler_eq : c.handler = none
  handlerParam_eq : c.handlerParam = 0
  filterData_eq : c.filterData = fun _ => none

/-- The filters of the handler have been initialised, and nothing else has happened. -/
def filtersInitialised (h : Handler W P) (handlerParam : ℕ) (c : Conn W P) : Conn W P :=
  h.slots.foldl initFilter (selecting h handlerParam c)

/-- No trace of the handler is left: the fields it may have changed are as before the call or
cleared, and all its filters that were initialised have been finalized. -/
structure Restored (h : Handler W P) (handlerParam : ℕ) (c c' : Conn W P) : Prop where
  uri_eq : c'.ex.req.uri = c.ex.req.uri
  ifModifiedSince_eq : c'.ex.req.ifModifiedSince = c.ex.req.ifModifiedSince
  handler_eq : c'.handler = c.handler
  handlerParam_eq : c'.handlerParam = c.handlerParam
  filterData_eq : c'.filterData = c.filterData
  finalized : ∀ s ∈ h.slots, s.1.finalize.isSome →
    ((filtersInitialised h handlerParam c).filterData s.2).isSome → s.2 ∈ c'.finalized
  cacheKey_eq : c'.ex.resp.cacheKey = none
  lastModified_eq : c'.ex.resp.lastModified = 0
  mtype_eq : c'.ex.resp.mtype = none
  contentType_eq : c'.ex.resp.contentType = none
  contentCharset_eq : c'.ex.resp.contentCharset = none
  sendfilePath_eq : c'.ex.resp.sendfilePath = none
  sendfileInfo_eq : c'.ex.resp.sendfileInfo = {}

/-- The cache-key callback is asked and answers `NXWEB_NEXT`. -/
def KeyRefused (h : Handler W P) (handlerParam : ℕ) (c : Conn W P) : Prop :=
  ∃ f, cacheKeyCallback h (initFilters h (selecting h handlerParam c)) = some f ∧
    (f (initFilters h (selecting h handlerParam c)).ex).1 = .next

/-- The file information is empty unless it has an inode number, by which the code tells. -/
def InfoRecognised (c : Conn W P) : Prop :=
  c.ex.resp.sendfileInfo.stIno = 0 → c.ex.resp.sendfileInfo = {}

/-- Filters do not change the selected handler. -/
theorem initFilters_handler (h : Handler W P) (c : Conn W P) :
    (initFilters h c).handler = c.handler := by
  have hinit : ∀ (ss : List (Filter W P × ℕ)) (c : Conn W P),
      (ss.foldl initFilter c).handler = c.handler := by
    intro ss
    induction ss with
    | nil => exact fun _ => rfl
    | cons s ss ih => exact fun c => ih _
  have hdecode : ∀ (ss : List (Filter W P × ℕ)) (u : Option CStr × Conn W P),
      (ss.foldl decodeUri u).2.handler = u.2.handler := by
    intro ss
    induction ss with
    | nil => exact fun _ => rfl
    | cons s ss ih =>
      intro u
      rw [List.foldl_cons, ih]
      unfold decodeUri
      split <;> rfl
  rw [initFilters]
  exact (hdecode _ _).trans (hinit _ _)

/-- After the filters have seen the URI, the slots in use are those that were initialised. -/
theorem sameSlots_initFilters (h : Handler W P) (c : Conn W P) :
    SameSlots (h.slots.foldl initFilter c) (initFilters h c) :=
  (SameSlots.foldl sameSlots_decodeUri h.slots.reverse (_, h.slots.foldl initFilter c)).trans
    (.with_ex _ _)

/-- How a handler can come to refuse a request. -/
theorem runSelect_next {env : ServerFunctions W} {h : Handler W P} {handlerParam : ℕ}
    {c c₁ : Conn W P} {returned : Bool}
    (hrun : runSelect env h handlerParam c = some (returned, .next, c₁)) :
    (returned = true ∧ KeyRefused h handlerParam c ∧ c₁.handler = some h.id) ∨
      (returned = false ∧ ¬ KeyRefused h handlerParam c ∧
        SameSlots (filtersInitialised h handlerParam c) c₁) := by
  unfold runSelect at hrun
  obtain ⟨stage, hstage, hrest⟩ := Option.bind_eq_some_iff.mp hrun
  cases stage with
  | served c₂ => simp at hrest
  | refused c₂ =>
    obtain ⟨rfl, rfl⟩ : true = returned ∧ c₂ = c₁ := by simpa using hrest
    refine .inl ⟨rfl, ?_⟩
    unfold checkCache at hstage
    split at hstage
    next => simp at hstage
    next f hf =>
      simp only at hstage
      by_cases hr : (f (initFilters h (selecting h handlerParam c)).ex).1 = .next
      · refine ⟨⟨f, hf, hr⟩, ?_⟩
        rw [if_pos hr] at hstage
        obtain rfl : _ = c₂ := CacheStage.refused.inj (Option.some.inj hstage)
        exact initFilters_handler h _
      · rw [if_neg hr] at hstage
        split at hstage
        next =>
          obtain ⟨⟨served, c₃⟩, -, heq⟩ := Option.bind_eq_some_iff.mp hstage
          cases served <;> simp at heq
        next => simp at hstage
  | proceed c₂ =>
    have hslots : SameSlots (filtersInitialised h handlerParam c) c₂ :=
      (sameSlots_initFilters h _).trans (sameSlots_checkCache hstage)
    have hkey : ¬ KeyRefused h handlerParam c := by
      rintro ⟨f, hf, hr⟩
      unfold checkCache at hstage
      rw [hf] at hstage
      simp only at hstage
      rw [if_pos hr] at hstage
      simp at hstage
    cases hsel : h.onSelect with
    | none => simp [hsel] at hrest
    | some f =>
      simp only [hsel, Option.pure_def, Option.some.injEq, Prod.mk.injEq] at hrest
      obtain ⟨rfl, -, rfl⟩ := hrest
      exact .inr ⟨rfl, hkey, hslots.trans (.with_ex c₂ _)⟩

/-- A connection on which all slots of the handler's filters are cleared is idle again. -/
theorem finalizeFilters_filterData {h : Handler W P} {handlerParam : ℕ} {c c₁ : Conn W P}
    (hidle : c.Idle) (hslots : SameSlots (filtersInitialised h handlerParam c) c₁) :
    (finalizeFilters h c₁).filterData = c.filterData := by
  funext i
  rw [finalizeFilters, foldl_finalizeFilter_filterData, hidle.filterData_eq]
  split_ifs with hi
  · rfl
  · have hnone : (c₁.filterData i).isSome = false := by
      rw [hslots i, filtersInitialised, foldl_initFilter_filterData hi]
      simp [selecting, hidle.filterData_eq]
    simpa using hnone

/-- Handler selection is atomic for a refusal if and only if the refusal does not come from the
cache-key callback, and the file information the handler leaves is recognised as set. -/
theorem selectHandler_next_iff {env : ServerFunctions W} {h : Handler W P} {handlerParam : ℕ}
    {c c' : Conn W P} (hidle : c.Idle)
    (hsel : selectHandler env h handlerParam c = some (.next, c')) :
    Restored h handlerParam c c' ↔ ¬ KeyRefused h handlerParam c ∧
      ∀ c₁, runSelect env h handlerParam c = some (false, .next, c₁) →
        InfoRecognised (finalizeFilters h c₁) := by
  unfold selectHandler at hsel
  obtain ⟨⟨returned, r, c₁⟩, hrun, hrest⟩ := Option.bind_eq_some_iff.mp hsel
  obtain rfl : r = .next := by
    simp only [Option.pure_def] at hrest
    split_ifs at hrest
    · exact (Prod.mk.inj (Option.some.inj hrest)).1
    · exact (Prod.mk.inj (Option.some.inj hrest)).1
  rcases runSelect_next hrun with ⟨rfl, hkey, hhandler⟩ | ⟨rfl, hkey, hslots⟩
  · obtain rfl : c₁ = c' := by simpa using hrest
    constructor
    · intro hres
      have := hres.handler_eq
      rw [hhandler, hidle.handler_eq] at this
      cases this
    · exact fun hcond => absurd hkey hcond.1
  · obtain rfl :
        restoreFields c.ex.req.uri c.ex.req.ifModifiedSince (finalizeFilters h c₁) = c' := by
      simpa using hrest
    constructor
    · intro hres
      refine ⟨hkey, fun c₂ hrun₂ hino => ?_⟩
      obtain rfl : c₁ = c₂ := by
        rw [hrun] at hrun₂
        simpa using hrun₂
      have := hres.sendfileInfo_eq
      rwa [restoreFields, if_neg (by simpa using hino)] at this
    · intro hcond
      refine ⟨rfl, rfl, hidle.handler_eq.symm, hidle.handlerParam_eq.symm,
        finalizeFilters_filterData hidle hslots, fun s hs hfin hdata => ?_, rfl, rfl, rfl, rfl, rfl,
        rfl, ?_⟩
      · exact mem_finalized_foldl (nodup_slots h) hs hfin (by rw [hslots]; exact hdata)
      · simp only [restoreFields]
        split_ifs with hino
        · rfl
        · exact hcond.2 c₁ hrun (not_not.mp hino)

/-! ### Two handlers -/

/-- A server without a memory cache. -/
def plainServer : ServerFunctions Unit where
  cacheTry := fun _ _ ex => (.miss, ex)
  cacheStoreResponse := id
  startSendingResponse := id
  currentHttpTime := fun _ => 0

/-- A filter that only has data. -/
def plainFilter : Filter Unit Unit where
  init := fun ex => (some { priv := () }, ex)
  finalize := some fun _ ex => ex

/-- The sendfile handler for the directory `www`, with a filter. No file is found. -/
def wwwSelection : Handler Unit Unit where
  id := 1
  filters := [plainFilter]
  onGenerateCacheKey := some fun ex =>
    match sendfileGenerateCacheKey (fun _ => none) wwwHandler ex.req ex.resp [] with
    | some (r, resp) => (r, { ex with resp })
    | none => (.error, ex)
  onSelect := some fun ex => (.next, ex)

/-- An idle connection with a GET request for a URI. -/
def getConn (uri : List UInt8) (h : 0 ∉ uri) : Conn Unit Unit where
  ex := { req := { getMethod := true, uri := some ⟨uri, h⟩ }, resp := {}, world := () }

/-- The path `/..` is refused by the cache-key callback of the sendfile handler. The next handler
finds this one still selected, with the data of its filter in place. -/
theorem selectHandler_refused_dotdot :
    ∃ c', selectHandler plainServer wwwSelection 0 (getConn (bytes "/..") (by decide)) =
        some (.next, c') ∧
      c'.handler = some 1 ∧ (c'.filterData 0).isSome ∧ c'.finalized = [] ∧
      ¬ Restored wwwSelection 0 (getConn (bytes "/..") (by decide)) c' := by
  refine ⟨_, rfl, rfl, rfl, rfl, fun hres => ?_⟩
  have := hres.handler_eq
  cases this

/-- A file that does not exist is refused by `on_select`, and no trace is left. -/
theorem selectHandler_next_missing_file :
    ∃ c', (getConn (bytes "/a") (by decide)).Idle ∧
      selectHandler plainServer wwwSelection 0 (getConn (bytes "/a") (by decide)) =
        some (.next, c') ∧
      (Restored wwwSelection 0 (getConn (bytes "/a") (by decide)) c' ↔
        ¬ KeyRefused wwwSelection 0 (getConn (bytes "/a") (by decide)) ∧
        ∀ c₁, runSelect plainServer wwwSelection 0 (getConn (bytes "/a") (by decide)) =
          some (false, .next, c₁) → InfoRecognised (finalizeFilters wwwSelection c₁)) :=
  ⟨_, ⟨rfl, rfl, rfl⟩, rfl, selectHandler_next_iff ⟨rfl, rfl, rfl⟩ rfl⟩

end Nxweb
