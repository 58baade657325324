import Nxweb.Filters.FileCacheRoundTrip

/-!
# Requests that store the same response

The connections of all network threads use the same cache files. Each of them writes a response as
it passes by, into a file with a temporary name that must not exist before, and links that file to
its name at the end. Here any number of requests do this for one cache key, and their system calls
come in any order. Any of these calls may fail, and a connection may be closed in the middle. A
header of which only a part has been written counts as not written.

A file with the name of the cache file is always one that a request has written to the end, and it
is never written again. The name can only be taken when a request comes to link its file if the call
that should have removed the name has failed.

## Main definitions

* `FcPoint`, `FcStore.proceed`: a request between two system calls, and what the next one does;
* `FcRace.step`: one request takes a step;
* `FcRace.Inv`: what is true of the disk and of the requests at every moment.

## Main results

* `storeResponse_eq_run`: the steps of one request alone are those of `storeResponse`;
* `fcRace_complete`: whoever opens the cache file finds a complete response, which stays as it is.
-/

namespace Nxweb

open Lib

/-- The next system call of a request that stores its response. -/
inductive FcPoint where
  /-- The request is not in one of the functions below, and `fd` is `0` or `-1`. -/
  | idle
  /-- `fc_store_begin` writes the header. -/
  | header
  /-- `fc_store_begin` writes the data. -/
  | data
  /-- The request is not in one of the functions below, and `fd` is the cache file. -/
  | storing
  /-- `fc_store_append` writes what has been passed on. With the last part it is followed by
  `fc_store_close`. -/
  | append (chunk : List UInt8) (last : Bool)
  /-- `fc_store_close` sets the times. -/
  | futimes
  | close
  | unlinkCache
  | link
  | unlinkTmp
  /-- `fc_store_abort` and `_nxweb_fc_finalize` close the file. -/
  | abortClose
  | abortUnlink
  deriving DecidableEq, Repr

/-- A request that may store its response. -/
structure FcStore where
  point : FcPoint := .idle
  /-- `fc_store_begin` has been called. -/
  begun : Bool := false
  fd : ℤ := 0
  /-- The number of the file that has been created. -/
  file : ℕ := 0
  /-- What has been passed on to the next stream, and whether it has got the end of the stream. -/
  passed : List UInt8 := []
  ended : Bool := false
  /-- `unlink(cache_fpath)` has not failed. -/
  cleared : Bool := false
  deriving DecidableEq, Repr

/-- What happens next in a request. -/
inductive FcMove where
  /-- `fc_store_begin` is called, and opens the temporary file. -/
  | create (ok : Bool)
  /-- The next system call. If it is a write of data and fails, `k` bytes have been written. -/
  | proceed (ok : Bool) (k : ℕ)
  /-- `fc_data_in_write_or_sendfile`: the next stream has taken these bytes, and with them the end
  of the stream. What came from a file has to be read again, which may fail. -/
  | pass (chunk : List UInt8) (eof : Bool) (copied : Bool)
  /-- `_nxweb_fc_finalize`. -/
  | finalize
  deriving DecidableEq, Repr

/-- The requests, and the disk that they share. -/
structure FcRace (ι : Type) where
  disk : CacheDisk
  reqs : ι → FcStore

/-- The name of the temporary file. -/
def tmpPath (fpath : List UInt8) : List UInt8 := fpath ++ bytes ".tmp"

variable {ι : Type} {fpath : List UInt8}

/-- `fc_store_begin` up to the first write. -/
def FcStore.create (fpath : List UInt8) (ok : Bool) (req : FcStore) (d : CacheDisk) :
    Option (FcStore × CacheDisk) :=
  if req.begun then none
  else if ok = false then some ({ req with begun := true, fd := -1 }, d)
  else
    match d.openCreate (tmpPath fpath) with
    | (none, d') => some ({ req with begun := true, fd := -1 }, d')
    | (some fd, d') =>
      some ({ req with begun := true, fd := (fd : ℕ), file := d.nextFile, point := .header }, d')

/-- The next system call of a request. One that fails changes nothing, except that a part of the
data may have been written. What `close`, `unlink` and `futimes` return is not looked at. -/
def FcStore.proceed (fpath : List UInt8) (resp : HttpResponse) (expiresTime : ℤ) (ok : Bool) (k : ℕ)
    (req : FcStore) (d : CacheDisk) : Option (FcStore × CacheDisk) :=
  match req.point with
  | .idle => none
  | .storing => none
  | .header =>
    if ok then some ({ req with point := .data }, (d.writeHeader req.fd resp.cacheData.1).2)
    else some ({ req with point := .abortClose }, d)
  | .data =>
    if ok then some ({ req with point := .storing }, (d.writeData req.fd resp.cacheData.2).2)
    else
      some ({ req with point := .abortClose }, (d.writeData req.fd (resp.cacheData.2.take k)).2)
  | .append chunk last =>
    if ok then
      some ({ req with point := if last then .futimes else .storing },
        (d.writeData req.fd chunk).2)
    else some ({ req with point := .abortClose }, (d.writeData req.fd (chunk.take k)).2)
  | .futimes =>
    some ({ req with point := .close }, if ok then d.futimes req.fd expiresTime else d)
  | .close =>
    some ({ req with point := .unlinkCache, fd := 0 }, if ok then d.close req.fd else d)
  | .unlinkCache =>
    some ({ req with point := .link, cleared := ok }, if ok then d.unlink fpath else d)
  | .link =>
    some ({ req with point := .unlinkTmp }, if ok then (d.link (tmpPath fpath) fpath).2 else d)
  | .unlinkTmp =>
    some ({ req with point := .idle }, if ok then d.unlink (tmpPath fpath) else d)
  | .abortClose =>
    some ({ req with point := .abortUnlink, fd := -1 }, if ok then d.close req.fd else d)
  | .abortUnlink =>
    some ({ req with point := .idle }, if ok then d.unlink (tmpPath fpath) else d)

/-- `fc_data_in_write_or_sendfile`, up to the next system call. It is connected behind
`fc_store_begin`, and nothing comes behind the end of the stream. -/
def FcStore.pass (chunk : List UInt8) (eof copied : Bool) (req : FcStore) : Option FcStore :=
  if req.begun = false ∨ req.ended = true then none
  else
    let req' := { req with passed := req.passed ++ chunk, ended := eof }
    match req.point with
    | .idle => some req'
    | .storing =>
      if chunk ≠ [] then
        some { req' with point := if copied then .append chunk eof else .abortClose }
      else some { req' with point := if eof then .futimes else .storing }
    | _ => none

/-- One step of a request on the disk. -/
def FcStore.move (fpath : List UInt8) (resp : HttpResponse) (expiresTime : ℤ) (req : FcStore)
    (d : CacheDisk) : FcMove → Option (FcStore × CacheDisk)
  | .create ok => req.create fpath ok d
  | .proceed ok k => req.proceed fpath resp expiresTime ok k d
  | .pass chunk eof copied => (req.pass chunk eof copied).map fun req' => (req', d)
  | .finalize =>
    if req.point = .storing then some ({ req with point := .abortClose }, d) else none

/-- One of the requests takes a step. -/
def FcRace.step [DecidableEq ι] (fpath : List UInt8) (resp : ι → HttpResponse) (expiresTime : ι → ℤ)
    (s : FcRace ι) (e : ι × FcMove) : Option (FcRace ι) :=
  ((s.reqs e.1).move fpath (resp e.1) (expiresTime e.1) s.disk e.2).map fun (req, disk) =>
    { disk, reqs := Function.update s.reqs e.1 req }

/-! ### The invariant -/

/-- A file is what a request has to store. -/
def FcStore.Complete (resp : HttpResponse) (req : FcStore) (d : CacheDisk) (i : ℕ) : Prop :=
  req.ended = true ∧ (d.files i).header = some resp.cacheData.1 ∧
    (d.files i).content = resp.cacheData.2 ++ req.passed

/-- What is true of the file of a request. -/
def FcStore.Mine (fpath : List UInt8) (resp : HttpResponse) (req : FcStore) (d : CacheDisk) :
    Prop :=
  match req.point with
  | .idle => True
  | .header => req.passed = [] ∧ d.opened req.fd = some (req.file, 0) ∧ d.files req.file = {} ∧
      d.names fpath ≠ some req.file
  | .data => req.passed = [] ∧ d.Writing req.fd req.file resp.cacheData.1 [] ∧
      d.names fpath ≠ some req.file
  | .storing => d.Writing req.fd req.file resp.cacheData.1 (resp.cacheData.2 ++ req.passed) ∧
      d.names fpath ≠ some req.file
  | .append chunk last => (∃ before, req.passed = before ++ chunk ∧
      d.Writing req.fd req.file resp.cacheData.1 (resp.cacheData.2 ++ before)) ∧
      req.ended = last ∧ d.names fpath ≠ some req.file
  | .futimes => req.ended = true ∧
      d.Writing req.fd req.file resp.cacheData.1 (resp.cacheData.2 ++ req.passed) ∧
      d.names fpath ≠ some req.file
  | .close => req.ended = true ∧
      d.Writing req.fd req.file resp.cacheData.1 (resp.cacheData.2 ++ req.passed) ∧
      d.names fpath ≠ some req.file
  | .unlinkCache => req.Complete resp d req.file ∧ d.names fpath ≠ some req.file
  | .link => req.Complete resp d req.file ∧ d.names fpath ≠ some req.file ∧
      (req.cleared = true → d.names fpath = none)
  | .unlinkTmp => True
  | .abortClose => d.names fpath ≠ some req.file
  | .abortUnlink => d.names fpath ≠ some req.file

/-- What is true of the disk and of the requests at every moment. -/
structure FcRace.Inv (fpath : List UInt8) (resp : ι → HttpResponse) (d₀ : CacheDisk)
    (s : FcRace ι) : Prop where
  named : ∀ path i, s.disk.names path = some i → i < s.disk.nextFile
  /-- The temporary name is a lock. -/
  unique : ∀ r r', (s.reqs r).point ≠ .idle → (s.reqs r').point ≠ .idle → r = r'
  holds : ∀ r, (s.reqs r).point ≠ .idle →
    s.disk.names (tmpPath fpath) = some (s.reqs r).file
  mine : ∀ r, (s.reqs r).Mine fpath (resp r) s.disk
  fresh : ∀ r, (s.reqs r).begun = false → s.reqs r = {}
  target : ∀ i, s.disk.names fpath = some i →
    d₀.names fpath = some i ∧ s.disk.files i = d₀.files i ∨
      ∃ r, (s.reqs r).Complete (resp r) s.disk i

/-- A file that is not written any more. -/
structure FcRace.Frozen (s : FcRace ι) (i : ℕ) : Prop where
  lt : i < s.disk.nextFile
  free : ∀ r, (s.reqs r).point = .idle ∨ (s.reqs r).point = .unlinkTmp ∨ (s.reqs r).file ≠ i

/-- What a step of one request does to it and to the disk. -/
structure FcStore.Effect (fpath : List UInt8) (resp : HttpResponse) (req req' : FcStore)
    (d d' : CacheDisk) : Prop where
  mine : req'.Mine fpath resp d'
  begun : req'.begun = true
  stays : req.point = .idle → req'.point = .idle → d' = d
  creates : req.point = .idle → req'.point ≠ .idle →
    d.names (tmpPath fpath) = none ∧ req'.file = d.nextFile
  same : req.point ≠ .idle → req'.point ≠ .idle → req'.file = req.file
  last : req.point = .unlinkTmp → req'.point = .idle
  holds : req'.point ≠ .idle → d'.names (tmpPath fpath) = some req'.file
  nextFile : d.nextFile ≤ d'.nextFile
  named : ∀ path i, d'.names path = some i → i < d'.nextFile
  files : ∀ i < d.nextFile, (req.point = .idle ∨ req.point = .unlinkTmp ∨ req.file ≠ i) →
    d'.files i = d.files i
  target : ∀ i, d'.names fpath = some i → d.names fpath = some i ∧
      (req.point = .idle ∨ req.point = .unlinkTmp ∨ req.file ≠ i) ∨
    req'.point = .unlinkTmp ∧ req'.file = i ∧ req'.Complete resp d' i
  ended : req.ended = true → req'.ended = true ∧ req'.passed = req.passed

theorem tmpPath_ne (fpath : List UInt8) : tmpPath fpath ≠ fpath := by
  intro h
  have hlen := congrArg List.length h
  rw [tmpPath, List.length_append, Nat.add_eq_left] at hlen
  exact absurd hlen (by decide)

section Moves

variable {resp : HttpResponse} {expiresTime : ℤ} {req req' : FcStore} {d d' : CacheDisk}

/-- The temporary file cannot be opened. -/
theorem FcStore.Effect.of_notOpened
    (hnamed : ∀ path i, d.names path = some i → i < d.nextFile) :
    ({} : FcStore).Effect fpath resp { begun := true, fd := -1 } d d where
  mine := trivial
  begun := rfl
  stays _ _ := rfl
  creates _ hpoint := absurd rfl hpoint
  same hpoint := absurd rfl hpoint
  last hpoint := by cases hpoint
  holds hpoint := absurd rfl hpoint
  nextFile := le_rfl
  named := hnamed
  files _ _ _ := rfl
  target _ hi := .inl ⟨hi, .inl rfl⟩
  ended hended := ⟨hended, rfl⟩

theorem FcStore.create_effect {ok : Bool}
    (hnamed : ∀ path i, d.names path = some i → i < d.nextFile)
    (hfresh : req.begun = false → req = {}) (h : req.create fpath ok d = some (req', d')) :
    req.Effect fpath resp req' d d' := by
  rw [create] at h
  split_ifs at h with hbegun hok
  · obtain rfl := hfresh (Bool.eq_false_iff.mpr hbegun)
    obtain ⟨rfl, rfl⟩ := Prod.mk.inj (Option.some.inj h)
    exact .of_notOpened hnamed
  obtain rfl := hfresh (Bool.eq_false_iff.mpr hbegun)
  rw [CacheDisk.openCreate] at h
  cases hname : d.names (tmpPath fpath) with
  | some i =>
    simp only [hname, Option.some.injEq, Prod.mk.injEq] at h
    obtain ⟨rfl, rfl⟩ := h
    exact .of_notOpened hnamed
  | none =>
    simp only [hname, Option.some.injEq, Prod.mk.injEq] at h
    obtain ⟨rfl, rfl⟩ := h
    have hother (i : ℕ) (hi : i < d.nextFile) :
        Function.update d.files d.nextFile {} i = d.files i :=
      Function.update_of_ne hi.ne _ _
    have htarget : Function.update d.names (tmpPath fpath) (some d.nextFile) fpath =
        d.names fpath := Function.update_of_ne (tmpPath_ne fpath).symm _ _
    exact {
      mine := by
        refine ⟨rfl, by simp [CacheDisk.openFile], by simp [CacheDisk.openFile], ?_⟩
        intro hmine
        exact (hnamed _ _ (htarget.symm.trans hmine)).ne rfl
      begun := rfl
      stays := fun _ hpoint => by cases hpoint
      creates := fun _ _ => ⟨hname, rfl⟩
      same := fun hpoint => absurd rfl hpoint
      last := fun hpoint => by cases hpoint
      holds := fun _ => Function.update_self _ _ _
      nextFile := Nat.le_succ _
      named := by
        intro path i hi
        by_cases hpath : path = tmpPath fpath
        · subst hpath
          have hi' := (Function.update_self _ _ _).symm.trans hi
          obtain rfl := Option.some.inj hi'
          exact Nat.lt_succ_self _
        · exact (hnamed path i ((Function.update_of_ne hpath _ _).symm.trans hi)).trans
            (Nat.lt_succ_self _)
      files := fun i hi _ => hother i hi
      target := fun i hi => .inl ⟨htarget.symm.trans hi, .inl rfl⟩
      ended := fun hended => by cases hended }

/-- Nothing changes but the file with one number. -/
structure CacheDisk.SameBut (i : ℕ) (d d' : CacheDisk) : Prop where
  names_eq : d'.names = d.names
  nextFile_eq : d'.nextFile = d.nextFile
  files_eq : ∀ j ≠ i, d'.files j = d.files j

theorem CacheDisk.SameBut.refl (i : ℕ) (d : CacheDisk) : d.SameBut i d :=
  ⟨rfl, rfl, fun _ _ => rfl⟩

theorem CacheDisk.writeHeader_sameBut {fd : ℤ} {i : ℕ} (h : d.opened fd = some (i, 0))
    (hdr : FcFileHeader) : d.SameBut i (d.writeHeader fd hdr).2 := by
  simp only [writeHeader, h]
  exact ⟨rfl, rfl, fun j hj => Function.update_of_ne hj _ _⟩

theorem CacheDisk.writeData_sameBut {fd : ℤ} {i pos : ℕ} (h : d.opened fd = some (i, pos))
    (s : List UInt8) : d.SameBut i (d.writeData fd s).2 := by
  simp only [writeData, h]
  exact ⟨rfl, rfl, fun j hj => Function.update_of_ne hj _ _⟩

theorem CacheDisk.touch_sameBut (i : ℕ) (time : ℤ) (d : CacheDisk) : d.SameBut i (d.touch i time) :=
  ⟨rfl, rfl, fun _ hj => Function.update_of_ne hj _ _⟩

/-- A descriptor is closed, or is not. -/
theorem CacheDisk.close_files (ok : Bool) (fd : ℤ) (d : CacheDisk) :
    (if ok then d.close fd else d).files = d.files := by
  cases ok <;> rfl

theorem CacheDisk.close_sameBut (ok : Bool) (fd : ℤ) (i : ℕ) (d : CacheDisk) :
    d.SameBut i (if ok then d.close fd else d) where
  names_eq := by cases ok <;> rfl
  nextFile_eq := by cases ok <;> rfl
  files_eq j _ := congrFun (close_files ok fd d) j

theorem CacheDisk.Writing.futimes_eq {fd : ℤ} {i : ℕ} {hdr : FcFileHeader} {content : List UInt8}
    (h : d.Writing fd i hdr content) (time : ℤ) : d.futimes fd time = d.touch i time := by
  simp [futimes, h.opened]

/-- A change of the times leaves alone what has been written. -/
theorem CacheDisk.Writing.touch {fd : ℤ} {i : ℕ} {hdr : FcFileHeader} {content : List UInt8}
    (h : d.Writing fd i hdr content) (time : ℤ) : (d.touch i time).Writing fd i hdr content where
  opened := h.opened
  header := by simp [CacheDisk.touch, h.header]
  content := by simp [CacheDisk.touch, h.content]

/-- What has a name after a call of `unlink` has had it before. -/
theorem CacheDisk.names_of_unlink {ok : Bool} {path path' : List UInt8} {i : ℕ}
    (h : (if ok then d.unlink path' else d).names path = some i) :
    d.names path = some i ∧ (ok = true → path ≠ path') := by
  cases ok with
  | false => exact ⟨h, fun hok => absurd hok Bool.false_ne_true⟩
  | true =>
    by_cases hpath : path = path'
    · have hnone : (d.unlink path').names path = none := by
        rw [hpath]
        exact Function.update_self _ _ _
      rw [if_pos rfl, hnone] at h
      cases h
    · exact ⟨(Function.update_of_ne hpath _ _).symm.trans h, fun _ => hpath⟩

theorem CacheDisk.unlink_frame (ok : Bool) (path : List UInt8) (d : CacheDisk) :
    (if ok then d.unlink path else d).nextFile = d.nextFile ∧
      (if ok then d.unlink path else d).files = d.files := by
  cases ok <;> exact ⟨rfl, rfl⟩

/-- A request has the temporary name. -/
structure FcStore.Owns (fpath : List UInt8) (req : FcStore) (d : CacheDisk) : Prop where
  named : ∀ path i, d.names path = some i → i < d.nextFile
  holds : d.names (tmpPath fpath) = some req.file
  busy : req.point ≠ .idle
  begun : req.begun = true

theorem FcStore.owns (hnamed : ∀ path i, d.names path = some i → i < d.nextFile)
    (hholds : req.point ≠ .idle → d.names (tmpPath fpath) = some req.file)
    (hfresh : req.begun = false → req = {}) (hbusy : req.point ≠ .idle) : req.Owns fpath d where
  named := hnamed
  holds := hholds hbusy
  busy := hbusy
  begun := by
    by_contra hbegun
    rw [hfresh (Bool.eq_false_iff.mpr hbegun)] at hbusy
    exact hbusy rfl

/-- Nothing but the own file changes, and that has no name but the temporary one. -/
theorem FcStore.Effect.of_own (h : req.Owns fpath d) (hsame : d.SameBut req.file d')
    (hfree : d.names fpath ≠ some req.file) (hlast : req.point ≠ .unlinkTmp)
    (hbegun : req'.begun = true) (hfile : req'.file = req.file)
    (hended : req.ended = true → req'.ended = true ∧ req'.passed = req.passed)
    (hmine : req'.Mine fpath resp d') : req.Effect fpath resp req' d d' where
  mine := hmine
  begun := hbegun
  stays hidle := absurd hidle h.busy
  creates hidle := absurd hidle h.busy
  same _ _ := hfile
  last hpoint := absurd hpoint hlast
  holds _ := by rw [hsame.names_eq, hfile, h.holds]
  nextFile := hsame.nextFile_eq.ge
  named path i hi := by
    rw [hsame.names_eq] at hi
    rw [hsame.nextFile_eq]
    exact h.named path i hi
  files i _ hi := hsame.files_eq i ((hi.resolve_left h.busy).resolve_left hlast).symm
  target i hi := by
    rw [hsame.names_eq] at hi
    refine .inl ⟨hi, .inr (.inr ?_)⟩
    rintro rfl
    exact hfree hi
  ended := hended

/-- The file is given up. -/
theorem FcStore.Effect.of_abort (h : req.Owns fpath d) (hsame : d.SameBut req.file d')
    (hfree : d.names fpath ≠ some req.file) (hlast : req.point ≠ .unlinkTmp) :
    req.Effect fpath resp { req with point := .abortClose } d d' :=
  .of_own h hsame hfree hlast h.begun rfl (fun hended => ⟨hended, rfl⟩)
    fun hname => hfree (hsame.names_eq ▸ hname)

/-- The name of the cache file is free now, unless the call has failed. -/
theorem FcStore.Effect.of_unlinkCache {ok : Bool} (h : req.Owns fpath d)
    (hcomplete : req.Complete resp d req.file) (hfree : d.names fpath ≠ some req.file)
    (hlast : req.point ≠ .unlinkTmp) :
    req.Effect fpath resp { req with point := .link, cleared := ok } d
      (if ok then d.unlink fpath else d) where
  mine := by
    have hfiles := (CacheDisk.unlink_frame ok fpath d).2
    refine ⟨⟨hcomplete.1, ?_, ?_⟩, fun hname => hfree (CacheDisk.names_of_unlink hname).1, ?_⟩
    · rw [hfiles, hcomplete.2.1]
    · rw [hfiles, hcomplete.2.2]
    · -- only a call that succeeds makes the name free
      rintro rfl
      exact Function.update_self _ _ _
  begun := h.begun
  stays hidle := absurd hidle h.busy
  creates hidle := absurd hidle h.busy
  same _ _ := rfl
  last hpoint := absurd hpoint hlast
  holds _ := by
    cases ok with
    | true => exact (Function.update_of_ne (tmpPath_ne fpath) _ _).trans h.holds
    | false => exact h.holds
  nextFile := (CacheDisk.unlink_frame ok fpath d).1.ge
  named path i hi := by
    rw [(CacheDisk.unlink_frame ok fpath d).1]
    exact h.named path i (CacheDisk.names_of_unlink hi).1
  files i _ _ := by rw [(CacheDisk.unlink_frame ok fpath d).2]
  target i hi := by
    have hname := (CacheDisk.names_of_unlink hi).1
    refine .inl ⟨hname, .inr (.inr ?_)⟩
    rintro rfl
    exact hfree hname
  ended hended := ⟨hended, rfl⟩

/-- The file gets its name. -/
theorem FcStore.Effect.of_link (h : req.Owns fpath d) (hcomplete : req.Complete resp d req.file)
    (hlast : req.point ≠ .unlinkTmp) :
    req.Effect fpath resp { req with point := .unlinkTmp } d
      { d with names := Function.update d.names fpath (some req.file) } := by
  have hself : Function.update d.names fpath (some req.file) fpath = some req.file :=
    Function.update_self _ _ _
  exact {
    mine := trivial
    begun := h.begun
    stays := fun hidle => absurd hidle h.busy
    creates := fun hidle => absurd hidle h.busy
    same := fun _ _ => rfl
    last := fun hpoint => absurd hpoint hlast
    holds := fun _ => (Function.update_of_ne (tmpPath_ne fpath) _ _).trans h.holds
    nextFile := le_rfl
    named := by
      intro path i hi
      by_cases hpath : path = fpath
      · subst hpath
        obtain rfl := Option.some.inj (hself.symm.trans hi)
        exact h.named _ _ h.holds
      · exact h.named path i ((Function.update_of_ne hpath _ _).symm.trans hi)
    files := fun i _ _ => rfl
    target := fun i hi => by
      have hi' := Option.some.inj (hself.symm.trans hi)
      exact .inr ⟨rfl, hi', hi' ▸ hcomplete⟩
    ended := fun hended => ⟨hended, rfl⟩ }

/-- The request is done with the temporary name. -/
theorem FcStore.Effect.of_unlink {ok : Bool} (h : req.Owns fpath d)
    (hfree : req.point = .unlinkTmp ∨ d.names fpath ≠ some req.file) :
    req.Effect fpath resp { req with point := .idle } d
      (if ok then d.unlink (tmpPath fpath) else d) where
  mine := trivial
  begun := h.begun
  stays hidle := absurd hidle h.busy
  creates hidle := absurd hidle h.busy
  same _ hidle := absurd rfl hidle
  last _ := rfl
  holds hidle := absurd rfl hidle
  nextFile := (CacheDisk.unlink_frame ok _ d).1.ge
  named path i hi := by
    rw [(CacheDisk.unlink_frame ok _ d).1]
    exact h.named path i (CacheDisk.names_of_unlink hi).1
  files i _ _ := by rw [(CacheDisk.unlink_frame ok _ d).2]
  target i hi := by
    have hname := (CacheDisk.names_of_unlink hi).1
    refine .inl ⟨hname, .inr (hfree.imp_right fun hfree => ?_)⟩
    rintro rfl
    exact hfree hname
  ended hended := ⟨hended, rfl⟩

theorem FcStore.pass_effect {chunk : List UInt8} {eof copied : Bool}
    (hnamed : ∀ path i, d.names path = some i → i < d.nextFile)
    (hholds : req.point ≠ .idle → d.names (tmpPath fpath) = some req.file)
    (hmine : req.Mine fpath resp d) (hfresh : req.begun = false → req = {})
    (h : req.pass chunk eof copied = some req') :
    req.Effect fpath resp req' d d := by
  rw [pass] at h
  by_cases hdone : req.begun = false ∨ req.ended = true
  · rw [if_pos hdone] at h
    cases h
  rw [if_neg hdone] at h
  rw [not_or, Bool.not_eq_false, Bool.not_eq_true] at hdone
  have hended : req.ended = true → req'.ended = true ∧ req'.passed = req.passed := by
    intro hended
    rw [hdone.2] at hended
    cases hended
  cases hpoint : req.point with
  | idle =>
    simp only [hpoint, Option.some.injEq] at h
    subst h
    exact {
      mine := trivial
      begun := hdone.1
      stays := fun _ _ => rfl
      creates := fun _ h => absurd rfl h
      same := fun h => absurd hpoint h
      last := fun _ => rfl
      holds := fun h => absurd rfl h
      nextFile := le_rfl
      named := hnamed
      files := fun i _ _ => rfl
      target := fun i hi => .inl ⟨hi, .inl hpoint⟩
      ended := hended }
  | storing =>
    have howns := owns hnamed hholds hfresh (by simp [hpoint])
    have hlast : req.point ≠ .unlinkTmp := by simp [hpoint]
    rw [Mine, hpoint] at hmine
    obtain ⟨hwriting, hfree⟩ := hmine
    simp only [hpoint] at h
    by_cases hchunk : chunk = []
    · -- nothing has been passed on
      rw [if_neg (not_not.mpr hchunk)] at h
      obtain rfl := Option.some.inj h
      refine .of_own howns (.refl _ _) hfree hlast hdone.1 rfl hended ?_
      cases eof with
      | true => exact ⟨rfl, by simpa [hchunk] using hwriting, hfree⟩
      | false => exact ⟨by simpa [hchunk] using hwriting, hfree⟩
    · rw [if_pos hchunk] at h
      obtain rfl := Option.some.inj h
      refine .of_own howns (.refl _ _) hfree hlast hdone.1 rfl hended ?_
      cases copied with
      | true => exact ⟨⟨req.passed, rfl, hwriting⟩, rfl, hfree⟩
      | false => exact hfree
  | _ => simp [hpoint] at h

theorem FcStore.finalize_effect (hnamed : ∀ path i, d.names path = some i → i < d.nextFile)
    (hholds : req.point ≠ .idle → d.names (tmpPath fpath) = some req.file)
    (hmine : req.Mine fpath resp d) (hfresh : req.begun = false → req = {})
    (hpoint : req.point = .storing) :
    req.Effect fpath resp { req with point := .abortClose } d d := by
  rw [Mine, hpoint] at hmine
  exact .of_abort (owns hnamed hholds hfresh (by simp [hpoint])) (.refl _ _) hmine.2
    (by simp [hpoint])

/-- The calls that write to the file. One that fails leaves a part of the data at most. -/
theorem FcStore.write_effect {ok : Bool} {k : ℕ} (howns : req.Owns fpath d)
    (hmine : req.Mine fpath resp d)
    (hpoint : req.point = .header ∨ req.point = .data ∨
      ∃ chunk last, req.point = .append chunk last)
    (h : req.proceed fpath resp expiresTime ok k d = some (req', d')) :
    req.Effect fpath resp req' d d' := by
  have hkept : req.ended = true → req.ended = true ∧ req.passed = req.passed :=
    fun hended => ⟨hended, rfl⟩
  rw [proceed] at h
  obtain hpoint | hpoint | ⟨chunk, last, hpoint⟩ := hpoint
  · rw [Mine, hpoint] at hmine
    obtain ⟨hpassed, hopened, hfile, hfree⟩ := hmine
    cases ok with
    | true =>
      simp only [hpoint, if_true, Option.some.injEq, Prod.mk.injEq] at h
      obtain ⟨rfl, rfl⟩ := h
      have hsame := CacheDisk.writeHeader_sameBut hopened resp.cacheData.1
      obtain ⟨d₁, hwrite, hwriting, -⟩ := CacheDisk.writeHeader_of_new hopened hfile
        resp.cacheData.1
      rw [hwrite] at hsame ⊢
      exact .of_own howns hsame hfree (by simp [hpoint]) howns.begun rfl hkept
        ⟨hpassed, hwriting, hsame.names_eq ▸ hfree⟩
    | false =>
      simp only [hpoint, Bool.false_eq_true, if_false, Option.some.injEq, Prod.mk.injEq] at h
      obtain ⟨rfl, rfl⟩ := h
      exact .of_abort howns (.refl _ _) hfree (by simp [hpoint])
  · rw [Mine, hpoint] at hmine
    obtain ⟨hpassed, hwriting, hfree⟩ := hmine
    cases ok with
    | true =>
      simp only [hpoint, if_true, Option.some.injEq, Prod.mk.injEq] at h
      obtain ⟨rfl, rfl⟩ := h
      have hsame := CacheDisk.writeData_sameBut hwriting.opened resp.cacheData.2
      obtain ⟨d₁, hwrite, hwriting', -⟩ := hwriting.writeData resp.cacheData.2
      rw [hwrite] at hsame ⊢
      refine .of_own howns hsame hfree (by simp [hpoint]) howns.begun rfl hkept
        ⟨?_, hsame.names_eq ▸ hfree⟩
      dsimp only
      rw [hpassed, List.append_nil]
      exact hwriting'
    | false =>
      simp only [hpoint, Bool.false_eq_true, if_false, Option.some.injEq, Prod.mk.injEq] at h
      obtain ⟨rfl, rfl⟩ := h
      exact .of_abort howns (CacheDisk.writeData_sameBut hwriting.opened _) hfree
        (by simp [hpoint])
  · rw [Mine, hpoint] at hmine
    obtain ⟨⟨before, hpassed, hwriting⟩, hended, hfree⟩ := hmine
    cases ok with
    | true =>
      simp only [hpoint, if_true, Option.some.injEq, Prod.mk.injEq] at h
      obtain ⟨rfl, rfl⟩ := h
      have hsame := CacheDisk.writeData_sameBut hwriting.opened chunk
      obtain ⟨d₁, hwrite, hwriting', -⟩ := hwriting.writeData chunk
      rw [List.append_assoc, ← hpassed] at hwriting'
      rw [hwrite] at hsame ⊢
      refine .of_own howns hsame hfree (by simp [hpoint]) howns.begun rfl hkept ?_
      cases last with
      | true => exact ⟨hended, hwriting', hsame.names_eq ▸ hfree⟩
      | false => exact ⟨hwriting', hsame.names_eq ▸ hfree⟩
    | false =>
      simp only [hpoint, Bool.false_eq_true, if_false, Option.some.injEq, Prod.mk.injEq] at h
      obtain ⟨rfl, rfl⟩ := h
      exact .of_abort howns (CacheDisk.writeData_sameBut hwriting.opened _) hfree
        (by simp [hpoint])

theorem FcStore.proceed_effect {ok : Bool} {k : ℕ}
    (hnamed : ∀ path i, d.names path = some i → i < d.nextFile)
    (hholds : req.point ≠ .idle → d.names (tmpPath fpath) = some req.file)
    (hmine : req.Mine fpath resp d) (hfresh : req.begun = false → req = {})
    (h : req.proceed fpath resp expiresTime ok k d = some (req', d')) :
    req.Effect fpath resp req' d d' := by
  have howns : req.Owns fpath d := by
    apply owns hnamed hholds hfresh
    intro hidle
    simp [proceed, hidle] at h
  have hkept : req.ended = true → req.ended = true ∧ req.passed = req.passed :=
    fun hended => ⟨hended, rfl⟩
  cases hpoint : req.point with
  | idle => simp [proceed, hpoint] at h
  | storing => simp [proceed, hpoint] at h
  | header => exact write_effect howns hmine (.inl hpoint) h
  | data => exact write_effect howns hmine (.inr (.inl hpoint)) h
  | append chunk last => exact write_effect howns hmine (.inr (.inr ⟨chunk, last, hpoint⟩)) h
  | futimes =>
    rw [Mine, hpoint] at hmine
    obtain ⟨hended, hwriting, hfree⟩ := hmine
    simp only [proceed, hpoint, Option.some.injEq, Prod.mk.injEq, hwriting.futimes_eq] at h
    obtain ⟨rfl, rfl⟩ := h
    cases ok with
    | true =>
      exact .of_own howns (CacheDisk.touch_sameBut _ _ _) hfree (by simp [hpoint]) howns.begun rfl
        hkept ⟨hended, hwriting.touch _, hfree⟩
    | false =>
      exact .of_own howns (.refl _ _) hfree (by simp [hpoint]) howns.begun rfl hkept
        ⟨hended, hwriting, hfree⟩
  | close =>
    rw [Mine, hpoint] at hmine
    obtain ⟨hended, hwriting, hfree⟩ := hmine
    simp only [proceed, hpoint, Option.some.injEq, Prod.mk.injEq] at h
    obtain ⟨rfl, rfl⟩ := h
    have hsame := CacheDisk.close_sameBut ok req.fd req.file d
    have hfiles := CacheDisk.close_files ok req.fd d
    refine .of_own howns hsame hfree (by simp [hpoint]) howns.begun rfl hkept
      ⟨⟨hended, ?_, ?_⟩, hsame.names_eq ▸ hfree⟩
    · rw [hfiles, hwriting.header]
    · rw [hfiles, hwriting.content]
  | unlinkCache =>
    rw [Mine, hpoint] at hmine
    obtain ⟨hcomplete, hfree⟩ := hmine
    simp only [proceed, hpoint, Option.some.injEq, Prod.mk.injEq] at h
    obtain ⟨rfl, rfl⟩ := h
    exact .of_unlinkCache howns hcomplete hfree (by simp [hpoint])
  | link =>
    rw [Mine, hpoint] at hmine
    obtain ⟨hcomplete, hfree, -⟩ := hmine
    have hstays : req.Effect fpath resp { req with point := .unlinkTmp } d d :=
      .of_own howns (.refl _ _) hfree (by simp [hpoint]) howns.begun rfl hkept trivial
    simp only [proceed, hpoint, Option.some.injEq, Prod.mk.injEq, CacheDisk.link, howns.holds] at h
    obtain ⟨rfl, rfl⟩ := h
    cases ok with
    | false => exact hstays
    | true =>
      cases htaken : d.names fpath with
      | some j => exact hstays
      | none => exact .of_link howns hcomplete (by simp [hpoint])
  | unlinkTmp =>
    simp only [proceed, hpoint, Option.some.injEq, Prod.mk.injEq] at h
    obtain ⟨rfl, rfl⟩ := h
    exact .of_unlink howns (.inl hpoint)
  | abortClose =>
    rw [Mine, hpoint] at hmine
    simp only [proceed, hpoint, Option.some.injEq, Prod.mk.injEq] at h
    obtain ⟨rfl, rfl⟩ := h
    have hsame := CacheDisk.close_sameBut ok req.fd req.file d
    exact .of_own howns hsame hmine (by simp [hpoint]) howns.begun rfl hkept
      fun hname => hmine (hsame.names_eq ▸ hname)
  | abortUnlink =>
    rw [Mine, hpoint] at hmine
    simp only [proceed, hpoint, Option.some.injEq, Prod.mk.injEq] at h
    obtain ⟨rfl, rfl⟩ := h
    exact .of_unlink howns (.inr hmine)

/-- What a step of a request does. -/
theorem FcStore.move_effect {m : FcMove}
    (hnamed : ∀ path i, d.names path = some i → i < d.nextFile)
    (hholds : req.point ≠ .idle → d.names (tmpPath fpath) = some req.file)
    (hmine : req.Mine fpath resp d) (hfresh : req.begun = false → req = {})
    (h : req.move fpath resp expiresTime d m = some (req', d')) :
    req.Effect fpath resp req' d d' := by
  cases m with
  | create ok => exact create_effect hnamed hfresh h
  | proceed ok k => exact proceed_effect hnamed hholds hmine hfresh h
  | pass chunk eof copied =>
    obtain ⟨req₁, hpass, heq⟩ := Option.map_eq_some_iff.mp h
    obtain ⟨rfl, rfl⟩ := Prod.mk.inj heq
    exact pass_effect hnamed hholds hmine hfresh hpass
  | finalize =>
    rw [move] at h
    split_ifs at h with hpoint
    obtain ⟨rfl, rfl⟩ := Prod.mk.inj (Option.some.inj h)
    exact finalize_effect hnamed hholds hmine hfresh hpoint

end Moves

/-! ### All requests -/

namespace FcRace

variable {resp : ι → HttpResponse} {expiresTime : ι → ℤ} {s s' : FcRace ι} {d₀ : CacheDisk}

/-- If another request has the temporary name, the step has not changed the disk. -/
theorem Inv.others {r r' : ι} {req' : FcStore} {d' : CacheDisk} (h : s.Inv fpath resp d₀)
    (heff : (s.reqs r).Effect fpath (resp r) req' s.disk d') (hne : r' ≠ r)
    (howner : (s.reqs r').point ≠ .idle) : req'.point = .idle ∧ d' = s.disk := by
  have hidle : (s.reqs r).point = .idle := by
    by_contra hpoint
    exact hne (h.unique r' r howner hpoint)
  have hidle' : req'.point = .idle := by
    by_contra hpoint
    have hnone := (heff.creates hidle hpoint).1
    rw [h.holds r' howner] at hnone
    cases hnone
  exact ⟨hidle', heff.stays hidle hidle'⟩

theorem Inv.step [DecidableEq ι] {e : ι × FcMove} (h : s.Inv fpath resp d₀)
    (hstep : s.step fpath resp expiresTime e = some s') :
    s'.Inv fpath resp d₀ ∧ ∀ i, s.Frozen i → s'.Frozen i ∧ s'.disk.files i = s.disk.files i := by
  obtain ⟨r, m⟩ := e
  obtain ⟨⟨req', d'⟩, hmove, rfl⟩ := Option.map_eq_some_iff.mp hstep
  have heff := FcStore.move_effect h.named (h.holds r) (h.mine r) (h.fresh r) hmove
  have hself : Function.update s.reqs r req' r = req' := Function.update_self _ _ _
  have hother (r' : ι) (hne : r' ≠ r) : Function.update s.reqs r req' r' = s.reqs r' :=
    Function.update_of_ne hne _ _
  constructor
  · exact {
      named := heff.named
      unique := by
        intro r₁ r₂ h₁ h₂
        dsimp only at h₁ h₂
        by_cases hr₁ : r₁ = r <;> by_cases hr₂ : r₂ = r
        · rw [hr₁, hr₂]
        · rw [hr₁, hself] at h₁
          rw [hother r₂ hr₂] at h₂
          exact absurd (h.others heff hr₂ h₂).1 h₁
        · rw [hr₂, hself] at h₂
          rw [hother r₁ hr₁] at h₁
          exact absurd (h.others heff hr₁ h₁).1 h₂
        · rw [hother r₁ hr₁] at h₁
          rw [hother r₂ hr₂] at h₂
          exact h.unique r₁ r₂ h₁ h₂
      holds := by
        intro r₁ h₁
        dsimp only at h₁ ⊢
        by_cases hr₁ : r₁ = r
        · rw [hr₁, hself] at h₁ ⊢
          exact heff.holds h₁
        · rw [hother r₁ hr₁] at h₁ ⊢
          rw [(h.others heff hr₁ h₁).2]
          exact h.holds r₁ h₁
      mine := by
        intro r₁
        dsimp only
        by_cases hr₁ : r₁ = r
        · rw [hr₁, hself]
          exact heff.mine
        · rw [hother r₁ hr₁]
          by_cases h₁ : (s.reqs r₁).point = .idle
          · rw [FcStore.Mine, h₁]
            trivial
          · rw [(h.others heff hr₁ h₁).2]
            exact h.mine r₁
      fresh := by
        intro r₁ h₁
        dsimp only at h₁ ⊢
        by_cases hr₁ : r₁ = r
        · rw [hr₁, hself, heff.begun] at h₁
          cases h₁
        · rw [hother r₁ hr₁] at h₁ ⊢
          exact h.fresh r₁ h₁
      target := by
        intro i hi
        dsimp only at hi ⊢
        obtain ⟨hname, hfree⟩ | ⟨-, -, hcomplete⟩ := heff.target i hi
        · have hfiles := heff.files i (h.named _ _ hname) hfree
          obtain ⟨hname₀, hold⟩ | ⟨r₁, hended, hcomplete⟩ := h.target i hname
          · exact .inl ⟨hname₀, hfiles.trans hold⟩
          · refine .inr ⟨r₁, ?_⟩
            by_cases hr₁ : r₁ = r
            · subst hr₁
              obtain ⟨hended', hpassed⟩ := heff.ended hended
              rw [hself, FcStore.Complete, hfiles, hpassed]
              exact ⟨hended', hcomplete⟩
            · rw [hother r₁ hr₁, FcStore.Complete, hfiles]
              exact ⟨hended, hcomplete⟩
        · refine .inr ⟨r, ?_⟩
          rw [hself]
          exact hcomplete }
  · intro i hi
    refine ⟨⟨hi.lt.trans_le heff.nextFile, fun r₁ => ?_⟩, heff.files i hi.lt (hi.free r)⟩
    dsimp only
    by_cases hr₁ : r₁ = r
    · rw [hr₁, hself]
      by_cases hpoint' : req'.point = .idle
      · exact .inl hpoint'
      · refine .inr (.inr ?_)
        obtain hidle | hlast | hfile := hi.free r
        · rw [(heff.creates hidle hpoint').2]
          exact hi.lt.ne'
        · exact absurd (heff.last hlast) hpoint'
        · by_cases hidle : (s.reqs r).point = .idle
          · rw [(heff.creates hidle hpoint').2]
            exact hi.lt.ne'
          · rwa [heff.same hidle hpoint']
    · rw [hother r₁ hr₁]
      exact hi.free r₁

/-- A file with the name of the cache file is not written any more. -/
theorem Inv.frozen {i : ℕ} (h : s.Inv fpath resp d₀) (hname : s.disk.names fpath = some i) :
    s.Frozen i where
  lt := h.named fpath i hname
  free r := by
    have hmine := h.mine r
    rw [FcStore.Mine] at hmine
    by_contra hbusy
    obtain ⟨hidle, hlast, hfile⟩ : (s.reqs r).point ≠ .idle ∧ (s.reqs r).point ≠ .unlinkTmp ∧
        (s.reqs r).file = i := by
      simpa only [not_or, not_not] using hbusy
    have hname' : s.disk.names fpath = some (s.reqs r).file := by rw [hname, hfile]
    cases hpoint : (s.reqs r).point <;> simp_all

/-- No request has begun. -/
theorem inv_start (hnamed : ∀ path i, d₀.names path = some i → i < d₀.nextFile) :
    ({ disk := d₀, reqs := fun _ => {} } : FcRace ι).Inv fpath resp d₀ where
  named := hnamed
  unique _ _ h := absurd rfl h
  holds _ h := absurd rfl h
  mine _ := trivial
  fresh _ _ := rfl
  target _ hi := .inl ⟨hi, rfl⟩

theorem Inv.run [DecidableEq ι] {es : List (ι × FcMove)} (h : s.Inv fpath resp d₀)
    (hrun : Lib.run (FcRace.step fpath resp expiresTime) s es = some s') : s'.Inv fpath resp d₀ :=
  run_inv (I := fun s => s.Inv fpath resp d₀) (fun _ _ _ h hstep => (h.step hstep).1) h hrun

/-- A file that is not written any more stays as it is. -/
theorem Inv.files_eq [DecidableEq ι] {es : List (ι × FcMove)} {i : ℕ} (h : s.Inv fpath resp d₀)
    (hi : s.Frozen i) (hrun : Lib.run (FcRace.step fpath resp expiresTime) s es = some s') :
    s'.disk.files i = s.disk.files i := by
  have hkept := run_inv (I := fun s₁ : FcRace ι => s₁.Inv fpath resp d₀ ∧ s₁.Frozen i ∧
    s₁.disk.files i = s.disk.files i) (fun s₁ e s₂ h₁ hstep => by
      obtain ⟨hinv, hfrozen⟩ := h₁.1.step hstep
      obtain ⟨hfrozen', hfiles⟩ := hfrozen i h₁.2.1
      exact ⟨hinv, hfrozen', hfiles.trans h₁.2.2⟩) ⟨h, hi, rfl⟩ hrun
  exact hkept.2.2

end FcRace

/-! ### One request alone -/

/-- The steps of a request whose response passes by in these parts, when no call fails. -/
def storeMoves (chunks : List (List UInt8)) : List FcMove :=
  [.create true, .proceed true 0, .proceed true 0] ++
    chunks.flatMap (fun chunk => [.pass chunk false true, .proceed true 0]) ++
    [.pass [] true true, .proceed true 0, .proceed true 0, .proceed true 0, .proceed true 0,
      .proceed true 0]

/-- The steps of one request. -/
def FcStore.alone (fpath : List UInt8) (resp : HttpResponse) (expiresTime : ℤ)
    (s : FcStore × CacheDisk) (m : FcMove) : Option (FcStore × CacheDisk) :=
  s.1.move fpath resp expiresTime s.2 m

section Alone

variable (server : ServerEnv) {d : CacheDisk} {i : ℕ} {hdr : FcFileHeader} {content : List UInt8}

/-- The parts of a body are written one after the other. -/
theorem storeChunks_eq_run (fpath : List UInt8) (fc : FcFilterData) (resp : HttpResponse)
    (expiresTime : ℤ) (req : FcStore) {chunks : List (List UInt8)} (hchunks : [] ∉ chunks)
    (hpoint : req.point = .storing) (hbegun : req.begun = true) (hended : req.ended = false)
    (hfd : fc.fd = req.fd) (h : d.Writing req.fd i hdr content) :
    ∃ d', fc.storeChunks (cacheDiskSystem server) chunks d = some (fc, d') ∧
      d'.Writing req.fd i hdr (content ++ chunks.flatten) ∧ d'.names = d.names ∧
      run (FcStore.alone fpath resp expiresTime) (req, d)
          (chunks.flatMap fun chunk => [.pass chunk false true, .proceed true 0]) =
        some ({ req with passed := req.passed ++ chunks.flatten }, d') := by
  induction chunks generalizing d content req with
  | nil =>
    refine ⟨d, rfl, by simpa using h, rfl, ?_⟩
    simp [run]
  | cons chunk chunks ih =>
    simp only [List.mem_cons, not_or] at hchunks
    obtain ⟨d₁, hwrite, hwriting, hnames⟩ := h.writeData chunk
    obtain ⟨d', hstore, hwriting', hnames', hrun⟩ := 
      ih { req with passed := req.passed ++ chunk } hchunks.2 hpoint hbegun hended hfd hwriting
    refine ⟨d', ?_, by simpa using hwriting', hnames'.trans hnames, ?_⟩
    · have happend : fc.storeAppend (cacheDiskSystem server) chunk d = (true, fc, d₁) := by
        simp [FcFilterData.storeAppend, cacheDiskSystem, hfd, hwrite]
      rw [FcFilterData.storeChunks, happend]
      exact hstore
    · simp only [List.flatMap_cons, List.cons_append, List.nil_append, run, FcStore.alone,
        FcStore.move, FcStore.pass, FcStore.proceed, hpoint, hbegun, hended, hwrite,
        Ne.symm hchunks.1, Bool.true_eq_false, Bool.false_eq_true, or_self, if_false, if_true,
        ne_eq, not_false_eq_true, Option.map_some, Option.bind_some]
      simpa [hpoint, hbegun, hended] using hrun

/-- A request alone does what the functions of the filter do one after the other. -/
theorem storeResponse_eq_run {fc : FcFilterData} {r : CacheableResponse} {d : CacheDisk}
    (hpath : fc.cacheFpath = some fpath) (htmp : fc.tmpFpath = some (tmpPath fpath))
    (hfree : d.names (tmpPath fpath) = none) (hchunks : [] ∉ r.chunks) :
    ∃ d', fc.storeResponse (cacheDiskSystem server) cacheDiskLinks r d = some d' ∧
      run (FcStore.alone fpath r.resp fc.expiresTime) ({}, d) (storeMoves r.chunks) =
        some ({ begun := true, file := d.nextFile, passed := r.body, ended := true,
                cleared := true }, d') := by
  obtain ⟨fd, d₁, hopen, hname, hopened, hfile⟩ := CacheDisk.openCreate_of_free hfree
  obtain ⟨d₂, hheader, hwriting, hnames₂⟩ :=
    CacheDisk.writeHeader_of_new hopened hfile r.resp.cacheData.1
  obtain ⟨d₃, hdata, hwriting₃, hnames₃⟩ := hwriting.writeData r.resp.cacheData.2
  have hbegin : fc.storeBegin (cacheDiskSystem server) r.resp d =
      (true, { fc with fd := (fd : ℕ), hdr := r.resp.cacheData.1 }, d₃) := by
    simp [FcFilterData.storeBegin, cacheDiskSystem, htmp, hopen, hheader, hdata]
  have hstart : run (FcStore.alone fpath r.resp fc.expiresTime) ({}, d)
      [.create true, .proceed true 0, .proceed true 0] =
        some ({ point := .storing, begun := true, fd := (fd : ℕ), file := d.nextFile }, d₃) := by
    simp [run, FcStore.alone, FcStore.move, FcStore.create, FcStore.proceed, hopen, hheader, hdata]
  obtain ⟨d₄, hstore, hwriting₄, hnames₄, hparts⟩ := storeChunks_eq_run server fpath
    { fc with fd := (fd : ℕ), hdr := r.resp.cacheData.1 } r.resp fc.expiresTime
    { point := .storing, begun := true, fd := (fd : ℕ), file := d.nextFile } hchunks rfl rfl rfl rfl
    hwriting₃
  have hname₄ : d₄.names (tmpPath fpath) = some d.nextFile := by
    rw [hnames₄, hnames₃, hnames₂, hname]
  have hlink : ((((d₄.futimes (fd : ℕ) fc.expiresTime).close (fd : ℕ)).unlink fpath).link
      (tmpPath fpath) fpath).1 = true := by
    rw [hwriting₄.futimes_eq]
    simp [CacheDisk.link, CacheDisk.unlink, CacheDisk.close, CacheDisk.touch,
      Function.update_of_ne (tmpPath_ne fpath), hname₄]
  obtain ⟨d₅, hlinked⟩ : ∃ d₅, ((((d₄.futimes (fd : ℕ) fc.expiresTime).close (fd : ℕ)).unlink
      fpath).link (tmpPath fpath) fpath) = (true, d₅) := ⟨_, Prod.ext hlink rfl⟩
  refine ⟨d₅.unlink (tmpPath fpath), ?_, run_append (run_append hstart hparts) ?_⟩
  · rw [FcFilterData.storeResponse, hbegin]
    simp only [hstore, Option.bind_some]
    simp only [FcFilterData.storeClose, FcFilterData.closeFd, cacheDiskSystem, cacheDiskLinks,
      hpath, htmp, Option.getD_some, hlinked]
  · simp [run, FcStore.alone, FcStore.move, FcStore.pass, FcStore.proceed, hlinked,
      CacheableResponse.body]

end Alone

/-! ### Any order of system calls -/

/-- Any number of requests store their responses to one cache key, in any order of their system
calls, and any of these calls may fail. The cache file is always the one that was there at first, or
a file with the header of one of the responses and all that this request has passed on, up to the
end of the stream; and whoever has opened it finds the same in it later. A request finds the name of
the cache file free when it comes to give it to its own file, unless its `unlink` of that name has
failed. -/
theorem fcRace_complete [DecidableEq ι] {resp : ι → HttpResponse} {expiresTime : ι → ℤ}
    {d₀ : CacheDisk} (hnamed : ∀ path i, d₀.names path = some i → i < d₀.nextFile)
    {es : List (ι × FcMove)} {s : FcRace ι}
    (hrun : run (FcRace.step fpath resp expiresTime) { disk := d₀, reqs := fun _ => {} } es =
      some s) :
    (∀ i, s.disk.names fpath = some i →
      (d₀.names fpath = some i ∧ s.disk.files i = d₀.files i ∨
        ∃ r, (s.reqs r).ended = true ∧ (s.disk.files i).header = some (resp r).cacheData.1 ∧
          (s.disk.files i).content = (resp r).cacheData.2 ++ (s.reqs r).passed) ∧
      ∀ es' s', run (FcRace.step fpath resp expiresTime) s es' = some s' →
        s'.disk.files i = s.disk.files i) ∧
    ∀ r, (s.reqs r).point = .link → (s.reqs r).cleared = true →
      (s.disk.link (tmpPath fpath) fpath).1 = true := by
  have h := (FcRace.inv_start hnamed : FcRace.Inv fpath resp d₀ _).run hrun
  refine ⟨fun i hi => ⟨h.target i hi, fun es' s' hrun' => h.files_eq (h.frozen hi) hrun'⟩, ?_⟩
  intro r hpoint hcleared
  have hmine := h.mine r
  rw [FcStore.Mine, hpoint] at hmine
  have hholds := h.holds r (by simp [hpoint])
  have hfree := hmine.2.2 hcleared
  simp [CacheDisk.link, hholds, hfree]

/-- A request whose `unlink` of the cache file fails. -/
def undeletedFile : List (Bool × FcMove) :=
  [(false, .create true), (false, .proceed true 0), (false, .proceed true 0),
    (false, .pass [] true true), (false, .proceed true 0), (false, .proceed true 0),
    (false, .proceed false 0)]

-- `link` finds the old file, which stays
example :
    (run (FcRace.step (bytes "/a.nxc") (fun _ => {}) fun _ => 0)
      { disk := {
          names := Function.update (fun _ => none) (bytes "/a.nxc") (some 0), nextFile := 1 }
        reqs := fun _ => {} } undeletedFile).map
      (fun s => ((s.reqs false).point, (s.disk.link (tmpPath (bytes "/a.nxc")) (bytes "/a.nxc")).1,
        s.disk.names (bytes "/a.nxc"))) =
    some (.link, false, some 0) := rfl

/-- Two requests that begin at the same time. The first one writes the file, although setting its
times fails. -/
def racingRequests : List (Bool × FcMove) :=
  [(false, .create true), (true, .create true), (false, .proceed true 0),
    (true, .pass (bytes "b") false true), (false, .proceed true 0),
    (false, .pass (bytes "a") true true), (true, .pass [] true true), (false, .proceed true 0),
    (false, .proceed false 0)] ++
    List.replicate 3 (false, .proceed true 0)

theorem fcRace_complete_twoRequests :
    ∃ s : FcRace Bool, run (FcRace.step (bytes "/a.nxc") (fun _ => {}) fun _ => 0)
        { disk := {}, reqs := fun _ => {} } racingRequests = some s ∧
      s.disk.names (bytes "/a.nxc") = some 0 ∧ (s.disk.files 0).content = [0] ++ bytes "a" ∧
      ∀ es' s', run (FcRace.step (bytes "/a.nxc") (fun _ => {}) fun _ => 0) s es' = some s' →
        s'.disk.files 0 = s.disk.files 0 := by
  obtain ⟨s, hrun, hname, hcontent⟩ : ∃ s : FcRace Bool,
      run (FcRace.step (bytes "/a.nxc") (fun _ => {}) fun _ => 0)
        { disk := {}, reqs := fun _ => {} } racingRequests = some s ∧
      s.disk.names (bytes "/a.nxc") = some 0 ∧
      (s.disk.files 0).content = [0] ++ bytes "a" := ⟨_, rfl, rfl, rfl⟩
  have hnamed : ∀ path i, ({} : CacheDisk).names path = some i → i < ({} : CacheDisk).nextFile := by
    intro path i h
    cases h
  exact ⟨s, hrun, hname, hcontent, ((fcRace_complete hnamed hrun).1 0 hname).2⟩

end Nxweb
