import Nxweb.Filters.FileCache

/-!
# The condition of the client and one file cache

A file cache that has no file, or one that has expired, changes `if_modified_since` of the request
when it is asked, and puts back what it has found there when the response comes by. What it does to
the request and to the record of its own data, in every state of its file and for every response,
is stated here: asked for the first time it leaves a record from which the condition can be put
back (`serveFromFileCache_undo`), and `do_filter` puts it back (`fcDoFilter_undo`).
-/

namespace Nxweb

open Lib

variable {W : Type}

/-- The condition of the client and the place in the chain of filters are as before. -/
structure SameCondition (ex ex' : Exchange W) : Prop where
  ifModifiedSince_eq : ex'.req.ifModifiedSince = ex.req.ifModifiedSince
  runFilterIdx_eq : ex'.resp.runFilterIdx = ex.resp.runFilterIdx

/-- Nothing has been done. -/
theorem SameCondition.refl (ex : Exchange W) : SameCondition ex ex := ⟨rfl, rfl⟩

/-- Two steps that keep the condition. -/
theorem SameCondition.trans {ex ex' ex'' : Exchange W} (h : SameCondition ex ex')
    (h' : SameCondition ex' ex'') : SameCondition ex ex'' where
  ifModifiedSince_eq := h'.ifModifiedSince_eq.trans h.ifModifiedSince_eq
  runFilterIdx_eq := h'.runFilterIdx_eq.trans h.runFilterIdx_eq

/-! ### One file cache -/

/-- Nothing is to be put back. -/
def FcFilterData.Fresh (fc : FcFilterData) : Prop :=
  fc.ifModifiedSinceOriginal = 0 ∧ fc.revalidationMode = false

/-- The same is to be put back. -/
structure FcFilterData.SameMark (fc fc' : FcFilterData) : Prop where
  original_eq : fc'.ifModifiedSinceOriginal = fc.ifModifiedSinceOriginal
  mode_eq : fc'.revalidationMode = fc.revalidationMode

section FileCache

variable {sys : FileCacheSystem W} {fc fc' : FcFilterData}

/-- A record that nothing was noted in puts nothing back. -/
theorem FcFilterData.Fresh.restoreCondition (h : fc.Fresh) (x : ℤ) : fc.restoreCondition x = x := by
  simp [FcFilterData.restoreCondition, h.1, h.2]

/-- What is put back depends on the two fields only. -/
theorem FcFilterData.SameMark.restoreCondition (h : fc.SameMark fc') (x : ℤ) :
    fc'.restoreCondition x = fc.restoreCondition x := by
  rw [FcFilterData.restoreCondition, FcFilterData.restoreCondition, h.original_eq, h.mode_eq]

/-- Reading the header of an open file notes nothing. -/
theorem readOpened_sameMark (sys : FileCacheSystem W) (fc : FcFilterData) (w : W) :
    fc.SameMark (fc.readOpened sys w).2.1 := by
  unfold FcFilterData.readOpened
  split
  · exact ⟨rfl, rfl⟩
  · dsimp only
    split
    · exact ⟨rfl, rfl⟩
    · split_ifs <;> exact ⟨rfl, rfl⟩

/-- Nor does opening the file. -/
theorem readHeader_sameMark (sys : FileCacheSystem W) (fc : FcFilterData) (w : W) :
    fc.SameMark (fc.readHeader sys w).2.1 := by
  unfold FcFilterData.readHeader
  split_ifs
  · exact ⟨rfl, rfl⟩
  · split
    · exact ⟨rfl, rfl⟩
    next fd w' _ =>
      have hread := readOpened_sameMark sys { fc with fd := (fd : ℕ) } w'
      exact ⟨hread.original_eq, hread.mode_eq⟩

/-- Nor does reading the body. -/
theorem readData_sameMark (sys : FileCacheSystem W) (fc : FcFilterData) (resp : HttpResponse)
    (w : W) : fc.SameMark (fc.readData sys resp w).2.1 ∧
      (fc.readData sys resp w).2.2.1.runFilterIdx = resp.runFilterIdx := by
  unfold FcFilterData.readData
  split <;> exact ⟨⟨rfl, rfl⟩, rfl⟩

/-- A cached response changes neither the condition nor what is to be put back. -/
theorem serve_same (sys : FileCacheSystem W) (fc : FcFilterData) (curTime : ℤ) (ex : Exchange W) :
    fc.SameMark (fc.serve sys curTime ex).2.1 ∧ SameCondition ex (fc.serve sys curTime ex).2.2 := by
  unfold FcFilterData.serve
  have hheader := readHeader_sameMark sys fc ex.world
  split
  next fc₁ w heq =>
    rw [heq] at hheader
    exact ⟨hheader, rfl, rfl⟩
  next fc₁ w heq =>
    rw [heq] at hheader
    obtain ⟨hmark, hidx⟩ := readData_sameMark sys fc₁ ex.resp w
    have hboth : ∀ {fc₂ : FcFilterData}, fc₁.SameMark fc₂ → fc.SameMark fc₂ := fun h =>
      ⟨h.original_eq.trans hheader.original_eq, h.mode_eq.trans hheader.mode_eq⟩
    split
    next fc₂ resp w' heq' =>
      rw [heq'] at hmark hidx
      exact ⟨hboth hmark, rfl, hidx⟩
    next fc₂ resp w' heq' =>
      rw [heq'] at hmark hidx
      refine ⟨hboth hmark, rfl, ?_⟩
      dsimp only
      split_ifs <;> exact hidx

/-- A cache that is asked for the first time can put back the condition that it was asked under. -/
theorem serveFromFileCache_undo (sys : FileCacheSystem W) (cacheKey : Option (List UInt8))
    (hfresh : fc.Fresh) (checkTime : ℤ) (ex : Exchange W) {r : NxwebResult} {ex' : Exchange W}
    (h : serveFromFileCache sys cacheKey fc checkTime ex = (r, fc', ex')) :
    ex'.resp.runFilterIdx = ex.resp.runFilterIdx ∧
      fc'.restoreCondition ex'.req.ifModifiedSince = ex.req.ifModifiedSince ∧
      (r = .ok → ex'.req.ifModifiedSince = ex.req.ifModifiedSince) := by
  unfold serveFromFileCache at h
  split at h
  · cases h
    exact ⟨rfl, hfresh.restoreCondition _, fun _ => rfl⟩
  next key =>
    have hheader := readHeader_sameMark sys (fc.buildCacheFpath key) ex.world
    split at h
    next fc₁ w heq =>
      rw [heq] at hheader
      dsimp only at h
      split_ifs at h with hims
      · cases h
        refine ⟨rfl, ?_, fun hr => by cases hr⟩
        simp [FcFilterData.restoreCondition, hims]
      · cases h
        exact ⟨rfl, (hheader.restoreCondition _).trans (hfresh.restoreCondition _), fun _ => rfl⟩
    next fc₁ w heq =>
      rw [heq] at hheader
      dsimp only at h
      split_ifs at h
      · cases h
        refine ⟨rfl, ?_, fun hr => by cases hr⟩
        simp [FcFilterData.restoreCondition]
      · obtain ⟨hmark, hsame⟩ := serve_same sys fc₁ checkTime { ex with world := w }
        rw [h] at hmark hsame
        refine ⟨hsame.runFilterIdx_eq, ?_, fun _ => hsame.ifModifiedSince_eq⟩
        rw [hmark.restoreCondition, hheader.restoreCondition, hsame.ifModifiedSince_eq]
        exact hfresh.restoreCondition _

/-- An old file that is served once more keeps the condition. -/
theorem serveStale_same (sys : FileCacheSystem W) (fc : FcFilterData) (curTime : ℤ)
    (ex : Exchange W) : SameCondition ex (serveStale sys fc curTime ex).2.2 := by
  have hsame := (serve_same sys fc curTime ex).2
  unfold serveStale
  split
  next heq =>
    rw [heq] at hsame
    exact hsame
  next heq =>
    rw [heq] at hsame
    exact ⟨hsame.ifModifiedSince_eq, hsame.runFilterIdx_eq⟩

/-- When the response comes by, the cache puts the condition back, whatever it does with the
response. -/
theorem revalidateFileCache_undo (sys : FileCacheSystem W) (fc : FcFilterData) (ex : Exchange W) :
    SameCondition { ex with req := { ex.req with
      ifModifiedSince := fc.restoreCondition ex.req.ifModifiedSince } }
      (revalidateFileCache sys fc ex).2.2 := by
  unfold revalidateFileCache
  generalize { ex with req := { ex.req with
    ifModifiedSince := fc.restoreCondition ex.req.ifModifiedSince } } = ex₁
  dsimp only
  have hstale := serveStale_same sys fc (sys.currentHttpTime ex₁.world) ex₁
  by_cases hmode : ¬ fc.revalidationMode = true
  · rw [if_pos hmode]
    exact .refl _
  rw [if_neg hmode]
  by_cases h304 : ex₁.resp.statusCode = 304
  · rw [if_pos h304]
    split
    next heq =>
      rw [heq] at hstale
      split_ifs <;> exact ⟨hstale.ifModifiedSince_eq, hstale.runFilterIdx_eq⟩
    next => exact hstale
  rw [if_neg h304]
  split_ifs
  · exact hstale
  · exact ⟨rfl, rfl⟩
  · exact .refl _

/-- The chain of filters goes on where it was. -/
theorem setupContentOut_runFilterIdx (env : ServerEnv) (resp : HttpResponse) :
    (resp.setupContentOut env).runFilterIdx = resp.runFilterIdx := by
  unfold HttpResponse.setupContentOut
  split_ifs
  · rfl
  · rfl
  · rfl
  · split <;> rfl

/-- Opening a file to store the response keeps the condition. -/
theorem storeAs_same (sys : FileCacheSystem W) (fc : FcFilterData) (fpath : List UInt8)
    (curTime expiresTime : ℤ) (ex : Exchange W) :
    SameCondition ex (storeAs sys fc fpath curTime expiresTime ex).2.2 := by
  unfold storeAs
  dsimp only
  split
  · exact ⟨rfl, rfl⟩
  · split <;> exact ⟨rfl, rfl⟩

/-- So does storing as a whole, also where it is refused. -/
theorem storeFileCache_same (sys : FileCacheSystem W) (fc : FcFilterData) (ex : Exchange W) :
    SameCondition ex (storeFileCache sys fc ex).2.2 := by
  unfold storeFileCache
  split
  · exact .refl _
  dsimp only
  have hsetup : SameCondition ex { ex with resp := ex.resp.setupContentOut sys.server } :=
    ⟨rfl, setupContentOut_runFilterIdx _ _⟩
  split_ifs
  · exact .refl _
  · exact .refl _
  · exact hsetup
  · split <;> exact hsetup
  · split
    · exact hsetup
    · exact hsetup.trans (storeAs_same sys fc _ _ _ _)

/-- `do_filter` puts the condition back, and storing the response keeps it. -/
theorem fcDoFilter_undo (sys : FileCacheSystem W) (fc : FcFilterData) (ex : Exchange W) :
    SameCondition { ex with req := { ex.req with
      ifModifiedSince := fc.restoreCondition ex.req.ifModifiedSince } }
      (fcDoFilter sys fc ex).2.2 := by
  have hundo := revalidateFileCache_undo sys fc ex
  unfold fcDoFilter
  split
  next heq =>
    rw [heq] at hundo
    exact hundo.trans (storeFileCache_same sys _ _)
  next => exact hundo

end FileCache

end Nxweb
