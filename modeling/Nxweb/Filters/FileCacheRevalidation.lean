import Nxweb.Filters.FileCacheCondition
import Nxweb.Server.SelectHandlerUndo

/-!
# The condition of the client behind file caches

The file caches of a handler are asked for a response, the last one first, and each that has none
to serve may change `if_modified_since` of the request. While the response passes, the first one
first, they put back what they have found there. Each of them undoes its own change only, so the
changes have to be nested: `Unwinds` says of a chain of filters, with the data they have at a
moment, what the field will be when the response has passed all of them.

The other filters of the chain, and the rest of the server, do not write the field. If the caches
have been asked and the response has passed the filters behind without a delay, the field has the
value that the client has sent (`Answered.condition_restored`).
-/

namespace Nxweb

open Lib

variable {W P : Type}

/-! ### Chains of filters -/

/-- The filter is a file cache. -/
def Filter.IsFileCache (sys : FileCacheSystem W) (f : Filter W (FilterPriv P)) : Prop :=
  ∃ cacheDir translated, f = fileCacheFilter sys cacheDir translated

/-- No callback of the filter writes the condition of the client. -/
structure Filter.KeepsCondition (f : Filter W P) : Prop where
  init : ∀ ex, SameCondition ex (f.init ex).2
  decodeUri : ∀ g ∈ f.decodeUri, ∀ fdata uri ex, SameCondition ex (g fdata uri ex).2.2
  translateCacheKey : ∀ g ∈ f.translateCacheKey, ∀ fdata key ex,
    SameCondition ex (g fdata key ex).2.2
  serveFromCache : ∀ g ∈ f.serveFromCache, ∀ fdata checkTime ex,
    SameCondition ex (g fdata checkTime ex).2.2
  doFilter : ∀ g ∈ f.doFilter, ∀ fdata ex, SameCondition ex (g fdata ex).2.2

/-- What the filter with this data will make of the condition. -/
def Conn.restoreAt (c : Conn W (FilterPriv P)) (i : ℕ) (x : ℤ) : ℤ :=
  ((c.activeFilterData i).bind fun fdata => fdata.priv.fcache).elim x
    fun fc => fc.restoreCondition x

/-- If the condition is `x` and the response passes these filters, it is `v` then. -/
inductive Unwinds (sys : FileCacheSystem W) (c : Conn W (FilterPriv P)) :
    List (Filter W (FilterPriv P) × ℕ) → ℤ → ℤ → Prop
  | nil (x : ℤ) : Unwinds sys c [] x x
  | keeps {s : Filter W (FilterPriv P) × ℕ} {ss : List (Filter W (FilterPriv P) × ℕ)} {x v : ℤ}
      (hs : s.1.KeepsCondition) (h : Unwinds sys c ss x v) : Unwinds sys c (s :: ss) x v
  | cache {s : Filter W (FilterPriv P) × ℕ} {ss : List (Filter W (FilterPriv P) × ℕ)} {x v : ℤ}
      (hs : s.1.IsFileCache sys) (h : Unwinds sys c ss (c.restoreAt s.2 x) v) :
      Unwinds sys c (s :: ss) x v

section Chain

variable {sys : FileCacheSystem W} {c c' : Conn W (FilterPriv P)}
  {ss : List (Filter W (FilterPriv P) × ℕ)} {x v : ℤ}

/-- Only the data of these filters matter. -/
theorem Unwinds.congr (h : Unwinds sys c ss x v)
    (hsame : ∀ i ∈ ss.map Prod.snd, c'.filterData i = c.filterData i) : Unwinds sys c' ss x v := by
  induction h with
  | nil x => exact .nil x
  | keeps hs _ ih => exact .keeps hs (ih fun i hi => hsame i (by simp [hi]))
  | @cache s ss x v hs _ ih =>
    refine .cache hs ?_
    have hrestore : c'.restoreAt s.2 x = c.restoreAt s.2 x := by
      rw [Conn.restoreAt, Conn.restoreAt, Conn.activeFilterData, Conn.activeFilterData,
        hsame s.2 (by simp)]
    rw [hrestore]
    exact ih fun i hi => hsame i (by simp [hi])

theorem Conn.setFilterData_of_ne (c : Conn W P) {i j : ℕ} {fdata : Option (FilterData P)}
    (hij : i ≠ j) : (c.setFilterData j fdata).filterData i = c.filterData i :=
  Function.update_of_ne hij _ _

theorem Conn.setFilterData_self (c : Conn W P) (i : ℕ) (fdata : Option (FilterData P)) :
    (c.setFilterData i fdata).filterData i = fdata :=
  Function.update_self _ _ _

/-- The data of another filter do not matter. -/
theorem Unwinds.set (h : Unwinds sys c ss x v) {i : ℕ} {ex : Exchange W}
    {fdata : FilterData (FilterPriv P)} (hi : i ∉ ss.map Prod.snd) :
    Unwinds sys ({ c with ex }.setFilterData i (some fdata)) ss x v :=
  h.congr fun _ hj => Conn.setFilterData_of_ne _ fun hji => hi (hji ▸ hj)

/-- The response passes one filter that does not delay it. -/
theorem runFilters_cons {s : Filter W (FilterPriv P) × ℕ}
    (hrun : runFilters c (s :: ss) = (false, c')) :
    (runFilters c ss = (false, c') ∧ (c.activeFilterData s.2 = none ∨ s.1.doFilter = none)) ∨
      ∃ fdata f, c.activeFilterData s.2 = some fdata ∧ s.1.doFilter = some f ∧
        runFilters ({ c with ex := (f fdata c.ex).2.2 }.setFilterData s.2
          (some (f fdata c.ex).2.1)) ss = (false, c') := by
  rw [runFilters] at hrun
  split at hrun
  next fdata f hdata hf =>
    dsimp only at hrun
    by_cases hdelay : (f fdata c.ex).1 = .delay
    · rw [if_pos hdelay] at hrun
      exact absurd (Prod.mk.inj hrun).1 (by simp)
    · rw [if_neg hdelay] at hrun
      exact .inr ⟨fdata, f, hdata, hf, hrun⟩
  next hno =>
    refine .inl ⟨hrun, ?_⟩
    cases hdata : c.activeFilterData s.2 with
    | none => exact .inl rfl
    | some fdata =>
      cases hf : s.1.doFilter with
      | none => exact .inr rfl
      | some f => exact absurd hf (hno fdata f hdata)

/-- A response that passes the filters without a delay leaves the condition as it was to be. -/
theorem runFilters_unwinds (h : Unwinds sys c ss c.ex.req.ifModifiedSince v)
    (hnodup : (ss.map Prod.snd).Nodup) (hrun : runFilters c ss = (false, c')) :
    c'.ex.req.ifModifiedSince = v := by
  induction ss generalizing c with
  | nil =>
    cases hrun
    cases h
    rfl
  | cons s ss ih =>
    obtain ⟨hs, hnodup⟩ := List.nodup_cons.mp hnodup
    rcases runFilters_cons hrun with ⟨hrun, hskip⟩ | ⟨fdata, f, hdata, hf, hrun⟩
    · cases h with
      | keeps _ h => exact ih h hnodup hrun
      | cache hcache h =>
        obtain ⟨cacheDir, translated, hcache⟩ := hcache
        have hactive : c.activeFilterData s.2 = none :=
          hskip.resolve_right (by simp [hcache, fileCacheFilter])
        rw [Conn.restoreAt, hactive] at h
        exact ih h hnodup hrun
    · cases h with
      | keeps hkeeps h =>
        have hsame := hkeeps.doFilter f hf fdata c.ex
        refine ih (.set ?_ hs) hnodup hrun
        exact hsame.ifModifiedSince_eq.symm ▸ h
      | cache hcache h =>
        obtain ⟨cacheDir, translated, hcache⟩ := hcache
        rw [hcache] at hf
        obtain rfl := Option.some.inj hf
        refine ih (.set ?_ hs) hnodup hrun
        rw [Conn.restoreAt, hdata] at h
        show Unwinds sys c ss (fdata.onFcache (fcDoFilter sys) c.ex).2.2.req.ifModifiedSince v
        unfold FilterData.onFcache
        cases hfc : fdata.priv.fcache with
        | none => simpa [hfc] using h
        | some fc =>
          have hundo := (fcDoFilter_undo sys fc c.ex).ifModifiedSince_eq
          dsimp only at hundo ⊢
          rw [hundo]
          simpa [hfc] using h

/-! ### Asking the caches -/

/-- The filters of the handler are file caches, or leave the condition alone. -/
def Handler.CachesOnly (sys : FileCacheSystem W) (h : Handler W (FilterPriv P)) : Prop :=
  ∀ f ∈ h.filters, f.IsFileCache sys ∨ f.KeepsCondition

/-- The rest of the server does not write the condition. -/
structure ServerFunctions.KeepsCondition (env : ServerFunctions W) : Prop where
  cacheTry : ∀ key t ex, SameCondition ex (env.cacheTry key t ex).2
  cacheStoreResponse : ∀ ex, SameCondition ex (env.cacheStoreResponse ex)
  startSendingResponse : ∀ ex, SameCondition ex (env.startSendingResponse ex)

/-- The condition is the one of the client, no filter has run, and no file cache among these
filters has been asked. -/
structure Unasked (sys : FileCacheSystem W) (ss : List (Filter W (FilterPriv P) × ℕ)) (v : ℤ)
    (c : Conn W (FilterPriv P)) : Prop where
  ifModifiedSince_eq : c.ex.req.ifModifiedSince = v
  runFilterIdx_eq : c.ex.resp.runFilterIdx = 0
  fresh : ∀ s ∈ ss, s.1.IsFileCache sys → ∀ fdata ∈ c.filterData s.2, ∀ fc ∈ fdata.priv.fcache,
    fc.Fresh

/-- A cache that has not been asked puts nothing back. -/
theorem Conn.restoreAt_fresh {i : ℕ}
    (hfresh : ∀ fdata ∈ c.filterData i, ∀ fc ∈ fdata.priv.fcache, fc.Fresh) (x : ℤ) :
    c.restoreAt i x = x := by
  unfold Conn.restoreAt
  cases hdata : c.activeFilterData i with
  | none => rfl
  | some fdata =>
    cases hfc : fdata.priv.fcache with
    | none => simp [hfc]
    | some fc =>
      have hslot := (Option.filter_eq_some_iff.mp hdata).1
      simpa [hfc] using (hfresh fdata hslot fc hfc).restoreCondition x

/-- A response that passes caches none of which has been asked finds the condition as it is. -/
theorem Unasked.unwinds (h : Unasked sys ss v c)
    (hchain : ∀ s ∈ ss, s.1.IsFileCache sys ∨ s.1.KeepsCondition) (x : ℤ) :
    Unwinds sys c ss x x := by
  have hrest : ∀ ss', ss' ⊆ ss → Unwinds sys c ss' x x := by
    intro ss' hsub
    induction ss' with
    | nil => exact .nil x
    | cons s ss' ih =>
      obtain ⟨hs, hsub⟩ := List.cons_subset.mp hsub
      rcases hchain s hs with hcache | hkeeps
      · refine .cache hcache ?_
        rw [Conn.restoreAt_fresh (h.fresh s hs hcache)]
        exact ih hsub
      · exact .keeps hkeeps (ih hsub)
  exact hrest ss (List.Subset.refl ss)

theorem Conn.restoreAt_set (c : Conn W (FilterPriv P)) (ex : Exchange W) (i : ℕ)
    {fdata : FilterData (FilterPriv P)} (hactive : (!fdata.bypass) = true) {x : ℤ} :
    ({ c with ex }.setFilterData i (some fdata)).restoreAt i x =
      fdata.priv.fcache.elim x fun fc => fc.restoreCondition x := by
  simp [Conn.restoreAt, Conn.activeFilterData, Conn.setFilterData, Option.filter, hactive]

/-- The data of a file cache after it has been asked for the first time. -/
theorem onFcache_undo {fdata fdata' : FilterData (FilterPriv P)} {checkTime : ℤ}
    {ex ex' : Exchange W} {r : NxwebResult} (hfresh : ∀ fc ∈ fdata.priv.fcache, fc.Fresh)
    (hr : fdata.onFcache (fun fc ex => serveFromFileCache sys fdata.cacheKey fc checkTime ex) ex =
      (r, fdata', ex')) :
    fdata'.bypass = fdata.bypass ∧
      (fdata'.priv.fcache.elim ex'.req.ifModifiedSince
        fun fc => fc.restoreCondition ex'.req.ifModifiedSince) = ex.req.ifModifiedSince ∧
      ex'.resp.runFilterIdx = ex.resp.runFilterIdx ∧
      (r = .ok → ex'.req.ifModifiedSince = ex.req.ifModifiedSince) := by
  unfold FilterData.onFcache at hr
  cases hfc : fdata.priv.fcache with
  | none =>
    simp only [hfc] at hr
    cases hr
    exact ⟨rfl, by simp [hfc], rfl, fun _ => rfl⟩
  | some fc =>
    simp only [hfc] at hr
    generalize hserve : serveFromFileCache sys fdata.cacheKey fc checkTime ex = res at hr
    obtain ⟨r', fc', ex''⟩ := res
    cases hr
    obtain ⟨hidx, hundo, hok⟩ :=
      serveFromFileCache_undo sys fdata.cacheKey (hfresh fc hfc) checkTime ex hserve
    exact ⟨rfl, hundo, hidx, hok⟩

/-- One filter is asked, and does not serve the response: the response will pass it, and find the
condition as before. -/
theorem Unwinds.ask {s : Filter W (FilterPriv P) × ℕ} {ex : Exchange W}
    {fdata fdata' : FilterData (FilterPriv P)}
    {f : FilterData (FilterPriv P) → ℤ → Exchange W →
      NxwebResult × FilterData (FilterPriv P) × Exchange W} {checkTime : ℤ} {r : NxwebResult}
    (h : Unwinds sys c ss c.ex.req.ifModifiedSince v) (hs : s.2 ∉ ss.map Prod.snd)
    (hchain : s.1.IsFileCache sys ∨ s.1.KeepsCondition)
    (hdata : c.activeFilterData s.2 = some fdata)
    (hfresh : s.1.IsFileCache sys → ∀ fc ∈ fdata.priv.fcache, fc.Fresh)
    (hf : s.1.serveFromCache = some f) (hr : f fdata checkTime c.ex = (r, fdata', ex)) :
    Unwinds sys ({ c with ex }.setFilterData s.2 (some fdata')) (s :: ss)
        ex.req.ifModifiedSince v ∧
      ex.resp.runFilterIdx = c.ex.resp.runFilterIdx ∧
      (r = .ok → ex.req.ifModifiedSince = c.ex.req.ifModifiedSince) := by
  rcases hchain with hcache | hkeeps
  · have hcache' := hcache
    obtain ⟨cacheDir, translated, hfile⟩ := hcache
    rw [hfile] at hf
    obtain rfl := Option.some.inj hf
    -- the filter takes part after it has been asked, since it keeps the flag that says so
    obtain ⟨hslot, hactive⟩ := Option.filter_eq_some_iff.mp hdata
    obtain ⟨hbypass, hundo, hidx, hok⟩ := onFcache_undo (hfresh hcache') hr
    refine ⟨.cache hcache' ?_, hidx, hok⟩
    rw [Conn.restoreAt_set c ex s.2 (hbypass ▸ hactive), hundo]
    exact h.set hs
  · have hsame := hkeeps.serveFromCache f hf fdata checkTime c.ex
    rw [hr] at hsame
    refine ⟨.keeps hkeeps (.set ?_ hs), hsame.runFilterIdx_eq, fun _ => hsame.ifModifiedSince_eq⟩
    exact hsame.ifModifiedSince_eq.symm ▸ h

/-- Where a filter of a handler stands. -/
theorem slots_split {h : Handler W P} {as bs : List (Filter W P × ℕ)} {s : Filter W P × ℕ}
    (hslots : h.slots = as ++ s :: bs) :
    s.1 ∈ h.filters ∧ h.slots.drop (s.2 + 1) = bs ∧ s.2 ∉ as.map Prod.snd ∧
      s.2 ∉ bs.map Prod.snd := by
  have hmem : s ∈ h.slots := by simp [hslots]
  have hget : h.slots[as.length]? = some s := by simp [hslots]
  have hnum : s.2 = as.length := by
    rw [Handler.slots, List.getElem?_zipIdx] at hget
    obtain ⟨f, -, hs⟩ := Option.map_eq_some_iff.mp hget
    simp [← hs]
  have hnodup := nodup_slots h
  rw [hslots, List.map_append, List.map_cons, List.nodup_append] at hnodup
  obtain ⟨-, hright, hdisj⟩ := hnodup
  refine ⟨?_, ?_, fun has => hdisj _ has _ (by simp) rfl, (List.nodup_cons.mp hright).1⟩
  · have hpos := List.mem_zipIdx_iff_getElem?.mp hmem
    exact List.mem_of_getElem? hpos
  · rw [hslots, hnum]
    simp

/-- A filter that delays the response leaves its place behind. -/
theorem runFilters_delayed (hrun : runFilters c ss = (true, c')) :
    c'.ex.resp.runFilterIdx ≠ 0 := by
  induction ss generalizing c with
  | nil => cases hrun
  | cons s ss ih =>
    rw [runFilters] at hrun
    split at hrun
    next fdata f _ _ =>
      dsimp only at hrun
      by_cases hdelay : (f fdata c.ex).1 = .delay
      · rw [if_pos hdelay] at hrun
        obtain rfl := (Prod.mk.inj hrun).2
        simp
      · rw [if_neg hdelay] at hrun
        exact ih hrun
    next => exact ih hrun

/-- After the caches have been asked: if one of them has served the response, and no filter behind
has delayed it, the condition is that of the client, which is `v`; otherwise the response can still
pass all filters, and the condition will be `v` then. -/
def Settled (sys : FileCacheSystem W) (h : Handler W (FilterPriv P)) (v : ℤ) (served : Bool)
    (c : Conn W (FilterPriv P)) : Prop :=
  if served then c.ex.resp.runFilterIdx = 0 → c.ex.req.ifModifiedSince = v
  else c.ex.resp.runFilterIdx = 0 ∧ Unwinds sys c h.slots c.ex.req.ifModifiedSince v

/-- The filters `ss`, the last one first, are asked after those behind them, `done`. -/
theorem serveFromCache_unwinds {env : ServerFunctions W} {h : Handler W (FilterPriv P)}
    {checkTime : ℤ} {done : List (Filter W (FilterPriv P) × ℕ)} {served : Bool}
    (hchain : h.CachesOnly sys) (henv : env.KeepsCondition) (hslots : h.slots = ss.reverse ++ done)
    (hfresh : ∀ s ∈ ss, s.1.IsFileCache sys → ∀ fdata ∈ c.filterData s.2,
      ∀ fc ∈ fdata.priv.fcache, fc.Fresh)
    (hidx : c.ex.resp.runFilterIdx = 0)
    (hunwinds : Unwinds sys c done c.ex.req.ifModifiedSince v)
    (hserve : serveFromCache env h checkTime c ss = (served, c')) : Settled sys h v served c' := by
  induction ss generalizing c done with
  | nil =>
    cases hserve
    exact ⟨hidx, hslots ▸ hunwinds⟩
  | cons s ss ih =>
    have hslots' : h.slots = ss.reverse ++ s :: done := by simpa using hslots
    obtain ⟨hmem, hdrop, hbefore, hbehind⟩ := slots_split hslots'
    have hbefore' : ∀ t ∈ ss, t.2 ≠ s.2 := fun t ht hts =>
      hbefore (List.mem_map.mpr ⟨t, by simpa using ht, hts⟩)
    have hkind := hchain s.1 hmem
    have hsfresh := hfresh s (by simp)
    have hssfresh := fun t (ht : t ∈ ss) => hfresh t (by simp [ht])
    rw [serveFromCache] at hserve
    split at hserve
    next fdata f hdata hf =>
      dsimp only at hserve
      have hslot := (Option.filter_eq_some_iff.mp hdata).1
      obtain ⟨hunwinds', hidx₁, hok⟩ := hunwinds.ask hbehind hkind hdata
        (fun hcache => hsfresh hcache fdata hslot) hf (Eq.refl (f fdata checkTime c.ex))
      by_cases hr : (f fdata checkTime c.ex).1 = .ok
      · rw [if_pos hr, hdrop] at hserve
        generalize hpass : runFilters ({ c with ex := (f fdata checkTime c.ex).2.2 }.setFilterData
          s.2 (some (f fdata checkTime c.ex).2.1)) done = pass at hserve
        obtain ⟨delayed, c₂⟩ := pass
        cases delayed with
        | true =>
          obtain ⟨rfl, rfl⟩ := Prod.mk.inj hserve
          exact fun hidx' => absurd hidx' (runFilters_delayed hpass)
        | false =>
          obtain ⟨rfl, rfl⟩ := Prod.mk.inj hserve
          have hnodup : (done.map Prod.snd).Nodup := by
            have hall := nodup_slots h
            rw [hslots, List.map_append] at hall
            exact (List.nodup_append.mp hall).2.1
          have hbehind' : Unwinds sys ({ c with ex := (f fdata checkTime c.ex).2.2 }.setFilterData
              s.2 (some (f fdata checkTime c.ex).2.1)) done
              (f fdata checkTime c.ex).2.2.req.ifModifiedSince v := by
            rw [hok hr]
            exact hunwinds.set hbehind
          have hpassed := runFilters_unwinds hbehind' hnodup hpass
          refine fun _ => (henv.startSendingResponse _).ifModifiedSince_eq.trans ?_
          split_ifs
          · exact (henv.cacheStoreResponse _).ifModifiedSince_eq.trans hpassed
          · exact hpassed
      · rw [if_neg hr] at hserve
        refine ih hslots' (fun t ht hcache fdata' hfdata' => ?_)
          (hidx₁.trans hidx) hunwinds' hserve
        rw [Conn.setFilterData_of_ne _ (hbefore' t ht)] at hfdata'
        exact hssfresh t ht hcache fdata' hfdata'
    next =>
      refine ih hslots' hssfresh hidx ?_ hserve
      rcases hkind with hcache | hkeeps
      · refine .cache hcache ?_
        rw [Conn.restoreAt_fresh (hsfresh hcache)]
        exact hunwinds
      · exact .keeps hkeeps hunwinds

/-! ### Before the caches are asked -/

section Kind

variable {f : Filter W (FilterPriv P)} (hkind : f.IsFileCache sys ∨ f.KeepsCondition)
include hkind

theorem kind_init (ex : Exchange W) : SameCondition ex (f.init ex).2 ∧
    (f.IsFileCache sys → ∀ fdata ∈ (f.init ex).1, ∀ fc ∈ fdata.priv.fcache, fc.Fresh) := by
  have hfresh : f.IsFileCache sys → ∀ fdata ∈ (f.init ex).1,
      ∀ fc ∈ fdata.priv.fcache, fc.Fresh := by
    rintro ⟨cacheDir, translated, rfl⟩ fdata hfdata fc hfc
    obtain rfl := Option.some.inj hfdata
    obtain rfl := Option.some.inj hfc
    exact ⟨rfl, rfl⟩
  refine ⟨?_, hfresh⟩
  rcases hkind with ⟨cacheDir, translated, rfl⟩ | hkeeps
  · exact .refl ex
  · exact hkeeps.init ex

theorem kind_decodeUri {g : FilterData (FilterPriv P) → Option CStr → Exchange W →
      Option CStr × FilterData (FilterPriv P) × Exchange W} (hg : f.decodeUri = some g)
    (fdata : FilterData (FilterPriv P)) (uri : Option CStr) (ex : Exchange W) :
    SameCondition ex (g fdata uri ex).2.2 ∧ ¬ f.IsFileCache sys := by
  have hno : ¬ f.IsFileCache sys := by
    rintro ⟨cacheDir, translated, rfl⟩
    cases hg
  exact ⟨(hkind.resolve_left hno).decodeUri g hg fdata uri ex, hno⟩

theorem kind_translateCacheKey {g : FilterData (FilterPriv P) → List UInt8 → Exchange W →
      NxwebResult × FilterData (FilterPriv P) × Exchange W} (hg : f.translateCacheKey = some g)
    (fdata : FilterData (FilterPriv P)) (key : List UInt8) (ex : Exchange W) :
    SameCondition ex (g fdata key ex).2.2 ∧
      (f.IsFileCache sys → (g fdata key ex).2.1.priv = fdata.priv) := by
  have hpriv : f.IsFileCache sys → (g fdata key ex).2.1.priv = fdata.priv := by
    rintro ⟨cacheDir, translated, rfl⟩
    obtain rfl := Option.some.inj hg
    rfl
  refine ⟨?_, hpriv⟩
  rcases hkind with ⟨cacheDir, translated, rfl⟩ | hkeeps
  · obtain rfl := Option.some.inj hg
    exact .refl ex
  · exact hkeeps.translateCacheKey g hg fdata key ex

end Kind

/-- Filters of a handler in the same slot are the same. -/
theorem slots_inj {h : Handler W P} {s t : Filter W P × ℕ} (hs : s ∈ h.slots) (ht : t ∈ h.slots)
    (hst : s.2 = t.2) : s = t := by
  have hs' := List.mem_zipIdx_iff_getElem?.mp hs
  have ht' := List.mem_zipIdx_iff_getElem?.mp ht
  rw [hst, ht'] at hs'
  exact Prod.ext (Option.some.inj hs').symm hst

section Prelude

variable {h : Handler W (FilterPriv P)}

/-- A filter writes its own data, and the condition stays. -/
theorem Unasked.set (hun : Unasked sys h.slots v c) {s : Filter W (FilterPriv P) × ℕ}
    (hs : s ∈ h.slots) {ex : Exchange W} (hsame : SameCondition c.ex ex)
    {fdata : FilterData (FilterPriv P)}
    (hfresh : s.1.IsFileCache sys → ∀ fc ∈ fdata.priv.fcache, fc.Fresh) :
    Unasked sys h.slots v ({ c with ex }.setFilterData s.2 (some fdata)) where
  ifModifiedSince_eq := hsame.ifModifiedSince_eq.trans hun.ifModifiedSince_eq
  runFilterIdx_eq := hsame.runFilterIdx_eq.trans hun.runFilterIdx_eq
  fresh t ht hcache fdata' hfdata' := by
    by_cases hts : t.2 = s.2
    · obtain rfl := slots_inj ht hs hts
      rw [Conn.setFilterData_self] at hfdata'
      obtain rfl := Option.some.inj hfdata'
      exact hfresh hcache
    · rw [Conn.setFilterData_of_ne _ hts] at hfdata'
      exact hun.fresh t ht hcache fdata' hfdata'

/-- What is done outside of the filters keeps the condition. -/
theorem Unasked.with_ex (hun : Unasked sys h.slots v c) {ex : Exchange W}
    (hsame : SameCondition c.ex ex) : Unasked sys h.slots v { c with ex } where
  ifModifiedSince_eq := hsame.ifModifiedSince_eq.trans hun.ifModifiedSince_eq
  runFilterIdx_eq := hsame.runFilterIdx_eq.trans hun.runFilterIdx_eq
  fresh := hun.fresh

/-- The filters have been initialised. -/
theorem foldl_initFilter_unasked (hchain : ∀ s ∈ ss, s.1.IsFileCache sys ∨ s.1.KeepsCondition)
    (hnodup : (ss.map Prod.snd).Nodup) (hims : c.ex.req.ifModifiedSince = v)
    (hidx : c.ex.resp.runFilterIdx = 0) : Unasked sys ss v (ss.foldl initFilter c) := by
  induction ss generalizing c with
  | nil => exact ⟨hims, hidx, by simp⟩
  | cons s ss ih =>
    obtain ⟨hs, hnodup⟩ := List.nodup_cons.mp hnodup
    obtain ⟨hsame, hfresh⟩ := kind_init (hchain s (by simp)) c.ex
    have hrest := ih (c := initFilter c s) (fun t ht => hchain t (by simp [ht])) hnodup
      (hsame.ifModifiedSince_eq.trans hims) (hsame.runFilterIdx_eq.trans hidx)
    refine ⟨hrest.ifModifiedSince_eq, hrest.runFilterIdx_eq, fun t ht hcache fdata hfdata => ?_⟩
    rcases List.mem_cons.mp ht with rfl | ht
    · rw [List.foldl_cons, foldl_initFilter_filterData hs] at hfdata
      rw [initFilter, Conn.setFilterData_self] at hfdata
      exact hfresh hcache fdata hfdata
    · exact hrest.fresh t ht hcache fdata hfdata

theorem CachesOnly.slots (hchain : h.CachesOnly sys) {s : Filter W (FilterPriv P) × ℕ}
    (hs : s ∈ h.slots) : s.1.IsFileCache sys ∨ s.1.KeepsCondition :=
  hchain s.1 (List.mem_of_getElem? (List.mem_zipIdx_iff_getElem?.mp hs))

theorem foldl_decodeUri_unasked (hchain : h.CachesOnly sys) (hss : ss ⊆ h.slots)
    {u : Option CStr × Conn W (FilterPriv P)} (hun : Unasked sys h.slots v u.2) :
    Unasked sys h.slots v (ss.foldl decodeUri u).2 := by
  induction ss generalizing u with
  | nil => exact hun
  | cons s ss ih =>
    obtain ⟨hs, hss⟩ := List.cons_subset.mp hss
    refine ih hss ?_
    unfold decodeUri
    split
    next fdata g hdata hg =>
      obtain ⟨hsame, hno⟩ := kind_decodeUri (CachesOnly.slots hchain hs) hg fdata u.1 u.2.ex
      exact hun.set hs hsame fun hcache => absurd hcache hno
    next => exact hun

theorem initFilters_unasked (hchain : h.CachesOnly sys) (hidx : c.ex.resp.runFilterIdx = 0) :
    Unasked sys h.slots c.ex.req.ifModifiedSince (initFilters h c) := by
  have hinit : Unasked sys h.slots c.ex.req.ifModifiedSince (h.slots.foldl initFilter c) :=
    foldl_initFilter_unasked (fun s hs => CachesOnly.slots hchain hs) (nodup_slots h) rfl hidx
  have hdecode := foldl_decodeUri_unasked (u := ((h.slots.foldl initFilter c).ex.req.uri,
    h.slots.foldl initFilter c)) hchain (List.reverse_subset.mpr (List.Subset.refl _)) hinit
  exact hdecode.with_ex ⟨rfl, rfl⟩

theorem translateCacheKey_unasked (hchain : h.CachesOnly sys)
    {s : Filter W (FilterPriv P) × ℕ} (hs : s ∈ h.slots)
    {k k' : List UInt8 × Conn W (FilterPriv P)} (hun : Unasked sys h.slots v k.2)
    (htrans : translateCacheKey k s = some k') : Unasked sys h.slots v k'.2 := by
  unfold translateCacheKey at htrans
  split at htrans
  next fdata g hdata hg =>
    obtain ⟨hsame, hpriv⟩ := kind_translateCacheKey (CachesOnly.slots hchain hs) hg fdata k.1 k.2.ex
    have hslot := (Option.filter_eq_some_iff.mp hdata).1
    have hset : Unasked sys h.slots v ({ k.2 with ex := (g fdata k.1 k.2.ex).2.2 }.setFilterData s.2
        (some (g fdata k.1 k.2.ex).2.1)) :=
      hun.set hs hsame fun hcache => hpriv hcache ▸ hun.fresh s hs hcache fdata hslot
    dsimp only at htrans
    split_ifs at htrans
    · obtain rfl := Option.some.inj htrans
      exact hset
    · split at htrans
      · obtain rfl := Option.some.inj htrans
        exact hset
      · cases htrans
  next =>
    obtain rfl := Option.some.inj htrans
    exact hun

theorem foldlM_translateCacheKey_unasked (hchain : h.CachesOnly sys) (hss : ss ⊆ h.slots)
    {k k' : List UInt8 × Conn W (FilterPriv P)} (hun : Unasked sys h.slots v k.2)
    (htrans : ss.foldlM translateCacheKey k = some k') : Unasked sys h.slots v k'.2 := by
  induction ss generalizing k with
  | nil =>
    obtain rfl := Option.some.inj htrans
    exact hun
  | cons s ss ih =>
    obtain ⟨hs, hss⟩ := List.cons_subset.mp hss
    rw [List.foldlM_cons] at htrans
    obtain ⟨k₁, hk₁, hrest⟩ := Option.bind_eq_some_iff.mp htrans
    exact ih hss (translateCacheKey_unasked hchain hs hun hk₁) hrest

/-! ### Selecting the handler -/

variable {env : ServerFunctions W}

/-- A connection on which no cache has been asked is settled. -/
theorem Unasked.settled (hchain : h.CachesOnly sys) (hun : Unasked sys h.slots v c) :
    Settled sys h v false c := by
  refine ⟨hun.runFilterIdx_eq, ?_⟩
  rw [hun.ifModifiedSince_eq]
  exact hun.unwinds (fun s hs => CachesOnly.slots hchain hs) v

theorem consultCaches_settled (hchain : h.CachesOnly sys) (henv : env.KeepsCondition)
    {key : List UInt8} {served : Bool} (hun : Unasked sys h.slots v c)
    (hcons : consultCaches env h key c = some (served, c')) : Settled sys h v served c' := by
  unfold consultCaches at hcons
  obtain ⟨⟨key', c₁⟩, hkey, hrest⟩ := Option.bind_eq_some_iff.mp hcons
  have hun₁ := foldlM_translateCacheKey_unasked hchain (List.Subset.refl _) hun hkey
  have hun₂ : ∀ {res c₂}, tryMemcache env h key' { c₁ with ex := c₁.ex.setCacheKey key' } =
      (res, c₂) → Unasked sys h.slots v c₂ := by
    intro res c₂ htry
    have hkey : Unasked sys h.slots v { c₁ with ex := c₁.ex.setCacheKey key' } :=
      hun₁.with_ex ⟨rfl, rfl⟩
    unfold tryMemcache at htry
    split_ifs at htry
    · obtain ⟨-, rfl⟩ := Prod.mk.inj htry
      exact hkey.with_ex (henv.cacheTry _ _ _)
    · obtain ⟨-, rfl⟩ := Prod.mk.inj htry
      exact hkey
  simp only [Option.pure_def] at hrest
  split at hrest
  next c₂ htry =>
    obtain ⟨rfl, rfl⟩ := Prod.mk.inj (Option.some.inj hrest)
    exact fun _ => ((hun₂ htry).with_ex (henv.startSendingResponse _)).ifModifiedSince_eq
  next res c₂ _ htry =>
    have hun := hun₂ htry
    by_cases hnot : c₂.ex.NotModified
    · rw [if_pos hnot] at hrest
      obtain ⟨rfl, rfl⟩ := Prod.mk.inj (Option.some.inj hrest)
      intro _
      exact (henv.startSendingResponse _).ifModifiedSince_eq.trans hun.ifModifiedSince_eq
    · rw [if_neg hnot] at hrest
      have hnone : Unwinds sys c₂ [] c₂.ex.req.ifModifiedSince v := by
        rw [hun.ifModifiedSince_eq]
        exact .nil v
      refine serveFromCache_unwinds hchain henv (by simp) (fun s hs => ?_) hun.runFilterIdx_eq
        hnone (Option.some.inj hrest)
      exact hun.fresh s (List.mem_reverse.mp hs)

/-- The callbacks of the handler do not write the condition. -/
structure Handler.KeepsCondition (h : Handler W P) : Prop where
  onGenerateCacheKey : ∀ g ∈ h.onGenerateCacheKey, ∀ ex, SameCondition ex (g ex).2
  onSelect : ∀ g ∈ h.onSelect, ∀ ex, SameCondition ex (g ex).2

/-- What is known when the caches have been dealt with. -/
def CacheStage.Settled (sys : FileCacheSystem W) (h : Handler W (FilterPriv P)) (v : ℤ) :
    CacheStage W (FilterPriv P) → Prop
  | .refused _ => True
  | .served c => Nxweb.Settled sys h v true c
  | .proceed c => Nxweb.Settled sys h v false c

theorem checkCache_settled (hchain : h.CachesOnly sys) (hkeeps : h.KeepsCondition)
    (henv : env.KeepsCondition) {stage : CacheStage W (FilterPriv P)}
    (hun : Unasked sys h.slots v c) (hcheck : checkCache env h c = some stage) :
    stage.Settled sys h v := by
  unfold checkCache at hcheck
  split at hcheck
  next =>
    obtain rfl := Option.some.inj hcheck
    exact hun.settled hchain
  next g hg =>
    have hg' : g ∈ h.onGenerateCacheKey := by
      unfold cacheKeyCallback at hg
      split_ifs at hg
      exact hg
    have hun' := hun.with_ex (hkeeps.onGenerateCacheKey g hg' c.ex)
    dsimp only at hcheck
    by_cases hr : (g c.ex).1 = .next
    · rw [if_pos hr] at hcheck
      obtain rfl := Option.some.inj hcheck
      trivial
    · rw [if_neg hr] at hcheck
      split at hcheck
      next =>
        obtain ⟨⟨served, c₁⟩, hcons, hrest⟩ := Option.bind_eq_some_iff.mp hcheck
        obtain rfl := Option.some.inj hrest
        have hsettled := consultCaches_settled hchain henv hun' hcons
        cases served <;> exact hsettled
      next =>
        obtain rfl := Option.some.inj hcheck
        exact hun'.settled hchain

/-- The rest of the server leaves the filter data alone. -/
theorem Settled.with_ex {ex : Exchange W} (hset : Settled sys h v false c)
    (hsame : SameCondition c.ex ex) : Settled sys h v false { c with ex } := by
  obtain ⟨hidx, hunwinds⟩ := hset
  refine ⟨hsame.runFilterIdx_eq.trans hidx, ?_⟩
  rw [hsame.ifModifiedSince_eq]
  exact hunwinds.congr fun _ _ => rfl

theorem runSelect_settled {handlerParam : ℕ} {served : Bool} (hchain : h.CachesOnly sys)
    (hkeeps : h.KeepsCondition) (henv : env.KeepsCondition) (hidx : c.ex.resp.runFilterIdx = 0)
    (hrun : runSelect env h handlerParam c = some (served, .ok, c')) :
    Settled sys h c.ex.req.ifModifiedSince served c' := by
  obtain ⟨stage, hcheck, hrest⟩ := Option.bind_eq_some_iff.mp hrun
  have hun : Unasked sys h.slots c.ex.req.ifModifiedSince
      (initFilters h (selecting h handlerParam c)) :=
    initFilters_unasked (c := selecting h handlerParam c) hchain hidx
  have hstage := checkCache_settled hchain hkeeps henv hun hcheck
  cases stage with
  | refused c₁ => cases hrest
  | served c₁ =>
    obtain ⟨rfl, rfl⟩ : true = served ∧ c₁ = c' := by simpa using hrest
    exact hstage
  | proceed c₁ =>
    dsimp only at hrest
    cases hsel : h.onSelect with
    | none =>
      obtain ⟨rfl, rfl⟩ : false = served ∧ c₁ = c' := by simpa [hsel] using hrest
      exact hstage
    | some g =>
      obtain ⟨rfl, -, rfl⟩ : false = served ∧ (g c₁.ex).1 = .ok ∧
          { c₁ with ex := (g c₁.ex).2 } = c' := by simpa [hsel] using hrest
      exact hstage.with_ex (hkeeps.onSelect g hsel c₁.ex)

/-- A response that can pass all filters passes them. -/
theorem Settled.startSendingResponse {setupContentOut : Exchange W → Exchange W}
    (henv : env.KeepsCondition) (hset : Settled sys h v false c)
    (hsetup : ∀ ex, SameCondition ex (setupContentOut ex))
    (hpass : startSendingResponse env setupContentOut h c = (false, c')) :
    c'.ex.req.ifModifiedSince = v := by
  obtain ⟨hidx, hunwinds⟩ := hset.with_ex (hsetup c.ex)
  unfold Nxweb.startSendingResponse at hpass
  dsimp only at hpass hidx
  rw [hidx, List.drop_zero] at hpass
  split at hpass
  next => cases hpass
  next c₁ hrun =>
    obtain ⟨-, rfl⟩ := Prod.mk.inj hpass
    have hpassed := runFilters_unwinds hunwinds (nodup_slots h) hrun
    refine (henv.startSendingResponse _).ifModifiedSince_eq.trans ?_
    split_ifs
    · exact (henv.cacheStoreResponse _).ifModifiedSince_eq.trans hpassed
    · exact hpassed

end Prelude

end Chain

/-- A response goes out: the handler has been selected, and either a cache has served the response
without a delay, or the handler and its backend have made one of their own, and the filters have
not delayed it. -/
inductive Answered (env : ServerFunctions W) (setupContentOut : Exchange W → Exchange W)
    (h : Handler W P) (handlerParam : ℕ) (c : Conn W P) : Conn W P → Prop
  | served {c' : Conn W P} (hrun : runSelect env h handlerParam c = some (true, .ok, c'))
      (hdone : c'.ex.resp.runFilterIdx = 0) : Answered env setupContentOut h handlerParam c c'
  | passed {c' c'' : Conn W P} (hrun : runSelect env h handlerParam c = some (false, .ok, c'))
      (backend : Exchange W → Exchange W) (hbackend : SameCondition c'.ex (backend c'.ex))
      (hpass : startSendingResponse env setupContentOut h { c' with ex := backend c'.ex } =
        (false, c'')) : Answered env setupContentOut h handlerParam c c''

/-- The filters of a handler are any number of file caches, in any states of their files, among
others that do not write the condition of the client. When a response goes out, whatever the
backend has answered, `if_modified_since` has the value that the client has sent. -/
theorem Answered.condition_restored {sys : FileCacheSystem W} {env : ServerFunctions W}
    {setupContentOut : Exchange W → Exchange W} {h : Handler W (FilterPriv P)}
    {handlerParam : ℕ} {c c' : Conn W (FilterPriv P)} (hchain : h.CachesOnly sys)
    (hkeeps : h.KeepsCondition) (henv : env.KeepsCondition)
    (hsetup : ∀ ex, SameCondition ex (setupContentOut ex)) (hidx : c.ex.resp.runFilterIdx = 0)
    (hans : Answered env setupContentOut h handlerParam c c') :
    c'.ex.req.ifModifiedSince = c.ex.req.ifModifiedSince := by
  cases hans with
  | served hrun hdone => exact runSelect_settled hchain hkeeps henv hidx hrun hdone
  | passed hrun backend hbackend hpass =>
    have hset := runSelect_settled hchain hkeeps henv hidx hrun
    exact (hset.with_ex hbackend).startSendingResponse henv hsetup hpass

/-! ### Two caches -/

/-- A file that has expired is in the directory `a`; the directory `b` is empty. -/
def staleFiles : FileCacheSystem Unit where
  openRead path w := (if path = bytes "a/k.nxc" then some 3 else none, w)
  openCreate _ w := (none, w)
  fstat _ _ := some { stMtime := 1 }
  lseek _ _ w := (true, w)
  readHeader _ w :=
    (some { signature := nxfcSignature, headerSize := fcHeaderSize, lastModified := 7 }, w)
  readData _ _ w := (some [], w)
  writeHeader _ _ w := (true, w)
  writeData _ _ w := (true, w)
  close _ w := w
  unlink _ w := w
  utime _ _ w := w
  mkpath _ w := (true, w)
  currentHttpTime _ := 10
  connectDataIn w := w
  server :=
    { revision := [], parseHttpRequest := fun _ => none, openFile := fun _ => -1
      prepareResponseHeaders := fun _ => [] }

/-- A handler behind two file caches. -/
def twoCaches : Handler Unit (FilterPriv Unit) where
  id := 1
  filters :=
    [fileCacheFilter staleFiles (bytes "a") .ok, fileCacheFilter staleFiles (bytes "b") .ok]
  onGenerateCacheKey := some fun ex =>
    (.ok, { ex with resp := { ex.resp with cacheKey := some (bytes "k") } })

/-- A server whose clock is at 10. -/
def lateServer : ServerFunctions Unit :=
  { plainServer with currentHttpTime := fun _ => 10 }

/-- The client has a version of time 5. -/
def conditionalGet : Conn Unit (FilterPriv Unit) where
  ex := { req := { getMethod := true, ifModifiedSince := 5 }, resp := {}, world := () }

/-- The second cache has no file and drops the condition, and the first one then asks for a newer
version than its own. The backend answers that there is none. -/
theorem condition_restored_twoCaches :
    ∃ c', twoCaches.CachesOnly staleFiles ∧ twoCaches.KeepsCondition ∧
      lateServer.KeepsCondition ∧ Answered lateServer id twoCaches 0 conditionalGet c' ∧
      c'.ex.req.ifModifiedSince = conditionalGet.ex.req.ifModifiedSince := by
  have hchain : twoCaches.CachesOnly staleFiles := by
    intro f hf
    rcases List.mem_cons.mp hf with rfl | hf
    · exact .inl ⟨_, _, rfl⟩
    · obtain rfl := List.mem_singleton.mp hf
      exact .inl ⟨_, _, rfl⟩
  have hkeeps : twoCaches.KeepsCondition :=
    ⟨fun g hg ex => by cases hg; exact ⟨rfl, rfl⟩, fun g hg => by cases hg⟩
  have henv : lateServer.KeepsCondition := ⟨fun _ _ _ => .refl _, .refl, .refl⟩
  obtain ⟨c', hans⟩ : ∃ c', Answered lateServer id twoCaches 0 conditionalGet c' :=
    ⟨_, .passed rfl (fun ex => { ex with resp := { ex.resp with statusCode := 304 } }) ⟨rfl, rfl⟩
      rfl⟩
  exact ⟨c', hchain, hkeeps, henv, hans,
    Answered.condition_restored hchain hkeeps henv (fun _ => .refl _) rfl hans⟩

end Nxweb
