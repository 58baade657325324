import Nxweb.Filters.TemplateLoader

/-!
# Template files that are loaded at the same time

The content that is passed on for a file is the whole unfinished stream of the arena. It is the
content of this file if the file was the only one that put bytes there, and something else if
fragments of other files have come in between: they are passed on with the file that ends first.
A subrequest that fails throws away what all of them have collected.

If the files are collected one after the other, however their subrequests overlap otherwise, each
content that is passed on is that of its file (`tfRun_isolated`). The invariant
(`TfContext.Isolated`) says that the arena holds the bytes of the one file that is being collected.
-/

namespace Nxweb

open Lib

/-- The file may still get bytes that count. -/
def TfBuffer.Live (tfb : TfBuffer) : Prop := tfb.ended = false ∧ tfb.failed = false

instance (tfb : TfBuffer) : Decidable tfb.Live := inferInstanceAs (Decidable (_ ∧ _))

/-- No file but that of buffer `id` has bytes in the arena. -/
def TfContext.Clear (ctx : TfContext) (id : ℕ) : Prop :=
  ∀ p ∈ ctx.tfbs.zipIdx, p.2 ≠ id → p.1.Live → p.1.dataSize = 0

instance (ctx : TfContext) (id : ℕ) : Decidable (ctx.Clear id) :=
  inferInstanceAs (Decidable (∀ p ∈ ctx.tfbs.zipIdx, _))

theorem TfContext.Clear.dataSize_eq {ctx : TfContext} {id j : ℕ} {tfb : TfBuffer}
    (h : ctx.Clear id) (hne : j ≠ id) (hj : ctx.tfbs[j]? = some tfb) (hlive : tfb.Live) :
    tfb.dataSize = 0 :=
  h (tfb, j) (List.mk_mem_zipIdx_iff_getElem?.mpr hj) hne hlive

/-- A transition on which the arena belongs to one file: a fragment or the end of a file arrives,
or a subrequest fails, while no other file has bytes in the arena; and no fragment of a failed
subrequest arrives. -/
def OneAtATime (ctx : TfContext) (e : TfEvent) (_ : TfContext) : Prop :=
  match e with
  | .write id data eof _ => data ≠ [] ∨ eof = true →
      ctx.Clear id ∧ ∀ tfb ∈ ctx.tfbs[id]?, tfb.failed = false
  | .failed id => ctx.Clear id
  | _ => True

instance (ctx : TfContext) (e : TfEvent) (ctx' : TfContext) : Decidable (OneAtATime ctx e ctx') :=
  match e with
  | .write id data eof _ => inferInstanceAs (Decidable (data ≠ [] ∨ eof = true →
      ctx.Clear id ∧ ∀ tfb ∈ ctx.tfbs[id]?, tfb.failed = false))
  | .failed id => inferInstanceAs (Decidable (ctx.Clear id))
  | .ready _ => isTrue trivial
  | .emptyResponse _ => isTrue trivial

/-- Files stay below `MAX_TEMPLATE_SIZE`. -/
def FilesFit (ctx : TfContext) (e : TfEvent) (_ : TfContext) : Prop :=
  match e with
  | .write id data _ _ => ∀ tfb ∈ ctx.tfbs[id]?,
      tfb.received.length + data.length < maxTemplateSize
  | _ => True

instance (ctx : TfContext) (e : TfEvent) (ctx' : TfContext) : Decidable (FilesFit ctx e ctx') :=
  match e with
  | .write id data _ _ => inferInstanceAs (Decidable (∀ tfb ∈ ctx.tfbs[id]?,
      tfb.received.length + data.length < maxTemplateSize))
  | .ready _ => isTrue trivial
  | .failed _ => isTrue trivial
  | .emptyResponse _ => isTrue trivial

/-- Every content that was passed on consists of the bytes of its file, and the file has ended. -/
def PassedExactly (ctx : TfContext) : Prop :=
  ∀ p ∈ ctx.passed, ∃ tfb, ctx.tfbs[p.1]? = some tfb ∧ tfb.ended = true ∧ tfb.received = p.2

/-- The arena holds what has been received of the file that is being collected, and nothing if
there is none. -/
structure TfContext.Isolated (ctx : TfContext) : Prop where
  size : ∀ (j : ℕ) (tfb : TfBuffer), ctx.tfbs[j]? = some tfb → tfb.Live →
    tfb.dataSize = tfb.received.length ∧ tfb.overflow = false
  holds : ∀ (j : ℕ) (tfb : TfBuffer), ctx.tfbs[j]? = some tfb → tfb.Live → 0 < tfb.dataSize →
    ctx.nxb.unfinished = tfb.received
  empty : (∀ (j : ℕ) (tfb : TfBuffer), ctx.tfbs[j]? = some tfb → tfb.Live → tfb.dataSize = 0) →
    ctx.nxb.unfinished = []
  passed : PassedExactly ctx

variable {ctx : TfContext} {id : ℕ} {tfb : TfBuffer}

/-- If no other file has bytes in the arena, it holds what was received of this one. -/
theorem TfContext.Isolated.unfinished_eq (h : ctx.Isolated) (hid : ctx.tfbs[id]? = some tfb)
    (hlive : tfb.Live) (hclear : ctx.Clear id) : ctx.nxb.unfinished = tfb.received := by
  by_cases hpos : 0 < tfb.dataSize
  · exact h.holds id tfb hid hlive hpos
  · have hsize := (h.size id tfb hid hlive).1
    have hnil : tfb.received = [] := List.length_eq_zero_iff.mp (by omega)
    rw [hnil]
    refine h.empty fun j tfb' hj hlive' => ?_
    by_cases hne : j = id
    · subst hne
      obtain rfl := Option.some.inj (hid.symm.trans hj)
      omega
    · exact hclear.dataSize_eq hne hj hlive'

/-- Between two files: the arena is empty, and no file has been collected in part. -/
structure TfContext.Quiet (ctx : TfContext) : Prop where
  unfinished_eq : ctx.nxb.unfinished = []
  fresh : ∀ (j : ℕ) (tfb : TfBuffer), ctx.tfbs[j]? = some tfb → tfb.Live →
    tfb.dataSize = 0 ∧ tfb.received = [] ∧ tfb.overflow = false
  passed : PassedExactly ctx

theorem TfContext.Quiet.isolated (h : ctx.Quiet) : ctx.Isolated where
  size j tfb hj hlive := by
    obtain ⟨hsize, hreceived, hoverflow⟩ := h.fresh j tfb hj hlive
    simp [hsize, hreceived, hoverflow]
  holds j tfb hj hlive hpos := absurd (h.fresh j tfb hj hlive).1 (by omega)
  empty _ := h.unfinished_eq
  passed := h.passed

theorem TfContext.quiet_init : TfContext.init.Quiet where
  unfinished_eq := rfl
  fresh j tfb hj _ := by
    have hmem : tfb ∈ TfContext.init.tfbs := List.mem_of_getElem? hj
    obtain rfl := List.mem_singleton.mp hmem
    exact ⟨rfl, rfl, rfl⟩
  passed := by simp [PassedExactly, TfContext.init]

theorem PassedExactly.append {ctx ctx' : TfContext} {new : List TfBuffer} (h : PassedExactly ctx)
    (hpassed : ctx'.passed = ctx.passed) (htfbs : ctx'.tfbs = ctx.tfbs ++ new) :
    PassedExactly ctx' := by
  intro p hp
  rw [hpassed] at hp
  obtain ⟨tfb, htfb, hended⟩ := h p hp
  refine ⟨tfb, ?_, hended⟩
  have hlt := (List.getElem?_eq_some_iff.mp htfb).1
  rw [htfbs, List.getElem?_append_left hlt, htfb]

/-- Another file starts to be loaded. -/
theorem TfContext.Quiet.load (h : ctx.Quiet) (target : TfTarget) : (ctx.load target).Quiet where
  unfinished_eq := by simp [TfContext.load, NxbBuffer.startStream, h.unfinished_eq]
  fresh j tfb hj hlive := by
    rcases List.mem_append.mp (List.mem_of_getElem? hj) with hold | hnew
    · obtain ⟨k, hk⟩ := List.mem_iff_getElem?.mp hold
      exact h.fresh k tfb hk hlive
    · obtain rfl := List.mem_singleton.mp hnew
      exact ⟨rfl, rfl, rfl⟩
  passed := h.passed.append rfl rfl

theorem TfContext.Quiet.parseFile (h : ctx.Quiet) (outcome : ParseOutcome) :
    (ctx.parseFile outcome).Quiet := by
  have hloads : ∀ (loads : List TfTarget) (ctx : TfContext), ctx.Quiet →
      (loads.foldl TfContext.load ctx).Quiet := by
    intro loads
    induction loads with
    | nil => exact fun _ h => h
    | cons target loads ih => exact fun ctx h => ih _ (h.load target)
  have := hloads outcome.loads ctx h
  exact ⟨this.unfinished_eq, this.fresh, this.passed⟩

theorem TfContext.Quiet.checkComplete (h : ctx.Quiet) : ctx.checkComplete.Quiet := by
  unfold TfContext.checkComplete
  split_ifs
  · exact ⟨h.unfinished_eq, h.fresh, h.passed⟩
  · exact h

/-- A fragment that fits is collected as a whole. -/
theorem TfContext.collect_eq {data : List UInt8} (hoverflow : tfb.overflow = false)
    (hfits : tfb.dataSize + data.length < maxTemplateSize) :
    ctx.collect tfb data = ({ ctx with nxb := ctx.nxb.append data },
      { tfb with dataSize := tfb.dataSize + data.length }) := by
  have htake : data.take (maxTemplateSize - tfb.dataSize) = data :=
    List.take_of_length_le (by omega)
  unfold TfContext.collect
  rw [if_neg (by simp [hoverflow]), htake]
  simp only
  split_ifs with hnil
  · subst hnil
    simp [NxbBuffer.append]
  · have hlt : ¬ maxTemplateSize ≤ tfb.dataSize + data.length := by omega
    simp [hlt, hoverflow]

/-- A buffer is replaced, and the others are left alone. -/
theorem TfContext.getElem?_set {tfb' tfb'' : TfBuffer} {j : ℕ} (hid : ctx.tfbs[id]? = some tfb)
    (hj : (ctx.tfbs.set id tfb')[j]? = some tfb'') :
    (j = id ∧ tfb'' = tfb') ∨ (j ≠ id ∧ ctx.tfbs[j]? = some tfb'') := by
  have hlt := (List.getElem?_eq_some_iff.mp hid).1
  by_cases hne : j = id
  · subst hne
    rw [List.getElem?_set_self hlt] at hj
    exact .inl ⟨rfl, (Option.some.inj hj).symm⟩
  · rw [List.getElem?_set_ne (Ne.symm hne)] at hj
    exact .inr ⟨hne, hj⟩

/-- A buffer whose file has not ended is not among those that were passed on. -/
theorem PassedExactly.set {tfb' : TfBuffer} {passed : List (ℕ × List UInt8)} (h : PassedExactly ctx)
    (hid : ctx.tfbs[id]? = some tfb) (hended : tfb.ended = false)
    (hpassed : passed = ctx.passed ∨
      (passed = ctx.passed ++ [(id, tfb'.received)] ∧ tfb'.ended = true)) :
    ∀ p ∈ passed, ∃ b, (ctx.tfbs.set id tfb')[p.1]? = some b ∧ b.ended = true ∧
      b.received = p.2 := by
  have hlt := (List.getElem?_eq_some_iff.mp hid).1
  have hold : ∀ p ∈ ctx.passed, ∃ b, (ctx.tfbs.set id tfb')[p.1]? = some b ∧ b.ended = true ∧
      b.received = p.2 := by
    intro p hp
    obtain ⟨b, hb, hb'⟩ := h p hp
    have hne : id ≠ p.1 := by
      rintro rfl
      obtain rfl := Option.some.inj (hid.symm.trans hb)
      simp [hended] at hb'
    exact ⟨b, by rw [List.getElem?_set_ne hne, hb], hb'⟩
  intro p hp
  rcases hpassed with rfl | ⟨rfl, hend⟩
  · exact hold p hp
  · rcases List.mem_append.mp hp with hp | hp
    · exact hold p hp
    · obtain rfl := List.mem_singleton.mp hp
      exact ⟨tfb', by rw [List.getElem?_set_self hlt], hend, rfl⟩

/-- A fragment arrives for a file that has the arena to itself. -/
theorem TfContext.Isolated.dataInWrite (h : ctx.Isolated) (hid : ctx.tfbs[id]? = some tfb)
    (hlive : tfb.Live) (hclear : ctx.Clear id) {data : List UInt8} (eof : Bool)
    (outcome : ParseOutcome) (hfits : tfb.received.length + data.length < maxTemplateSize) :
    (ctx.dataInWrite id tfb data eof outcome).Isolated := by
  obtain ⟨hsize, hoverflow⟩ := h.size id tfb hid hlive
  have hnxb := h.unfinished_eq hid hlive hclear
  unfold TfContext.dataInWrite
  rw [TfContext.collect_eq hoverflow (by omega)]
  simp only
  cases eof with
  | false =>
    rw [if_neg (by simp)]
    refine ⟨fun j b hj hb => ?_, fun j b hj hb hpos => ?_, fun hzero => ?_, ?_⟩
    · rcases TfContext.getElem?_set hid hj with ⟨rfl, rfl⟩ | ⟨-, hj⟩
      · simp [hsize, hoverflow]
      · exact h.size j b hj hb
    · rcases TfContext.getElem?_set hid hj with ⟨rfl, rfl⟩ | ⟨hne, hj⟩
      · simp [NxbBuffer.append, hnxb]
      · exact absurd (hclear.dataSize_eq hne hj hb) (by omega)
    · have hlt := (List.getElem?_eq_some_iff.mp hid).1
      have hnone := hzero id _ (List.getElem?_set_self hlt) ⟨rfl, hlive.2⟩
      simp only [hsize, Nat.add_eq_zero_iff, List.length_eq_zero_iff] at hnone
      simp [NxbBuffer.append, hnxb, hnone.1, hnone.2]
    · exact h.passed.set hid hlive.1 (.inl rfl)
  | true =>
    -- the file ends: the arena is emptied, and what was in it is passed on
    rw [if_pos rfl]
    refine (TfContext.Quiet.checkComplete ?_).isolated
    have hquiet : ∀ filesPending : ℤ, TfContext.Quiet
        { ctx with
          nxb := (ctx.nxb.append data).finishStream.2
          tfbs := ctx.tfbs.set id { tfb with
            dataSize := tfb.dataSize + data.length, received := tfb.received ++ data
            ended := true }
          passed := ctx.passed ++ [(id, (ctx.nxb.append data).finishStream.1)]
          filesPending } := by
      intro filesPending
      refine ⟨rfl, fun j b hj hb => ?_, ?_⟩
      · rcases TfContext.getElem?_set hid hj with ⟨rfl, rfl⟩ | ⟨hne, hj⟩
        · cases hb.1
        · have hzero := hclear.dataSize_eq hne hj hb
          obtain ⟨hsize', hoverflow'⟩ := h.size j b hj hb
          exact ⟨hzero, List.length_eq_zero_iff.mp (by omega), hoverflow'⟩
      · refine h.passed.set hid hlive.1 (.inr ⟨?_, rfl⟩)
        simp [NxbBuffer.finishStream, NxbBuffer.append, hnxb]
    unfold TfContext.finishFile
    rw [if_neg (by simp [hoverflow])]
    simp only
    split
    · exact (hquiet ctx.filesPending).parseFile outcome
    · exact hquiet _

/-- A call that brings nothing changes nothing. -/
theorem TfContext.dataInWrite_nil (hid : ctx.tfbs[id]? = some tfb) (hended : tfb.ended = false)
    (outcome : ParseOutcome) : ctx.dataInWrite id tfb [] false outcome = ctx := by
  have hcollect : ctx.collect tfb [] = (ctx, tfb) := by simp [TfContext.collect]
  have hset : ctx.tfbs.set id tfb = ctx.tfbs := by
    obtain ⟨hlt, rfl⟩ := List.getElem?_eq_some_iff.mp hid
    exact List.set_getElem_self hlt
  unfold TfContext.dataInWrite
  rw [hcollect]
  simp [← hended, hset]

/-- A subrequest fails while no other file has bytes in the arena. -/
theorem TfContext.Isolated.failed (h : ctx.Isolated) (hid : ctx.tfbs[id]? = some tfb)
    (hclear : ctx.Clear id) (filesPending : ℤ) :
    TfContext.Quiet { ctx with
      nxb := ctx.nxb.unfinishStream
      tfbs := ctx.tfbs.set id { tfb with failed := true }
      filesPending } where
  unfinished_eq := rfl
  fresh j b hj hb := by
    rcases TfContext.getElem?_set hid hj with ⟨rfl, rfl⟩ | ⟨hne, hj⟩
    · cases hb.2
    · have hzero := hclear.dataSize_eq hne hj hb
      obtain ⟨hsize, hoverflow⟩ := h.size j b hj hb
      exact ⟨hzero, List.length_eq_zero_iff.mp (by omega), hoverflow⟩
  passed p hp := by
    have hlt := (List.getElem?_eq_some_iff.mp hid).1
    obtain ⟨b, hb, hb'⟩ := h.passed p hp
    by_cases hne : id = p.1
    · subst hne
      obtain rfl := Option.some.inj (hid.symm.trans hb)
      exact ⟨_, List.getElem?_set_self hlt, hb'⟩
    · exact ⟨b, by rw [List.getElem?_set_ne hne, hb], hb'⟩

/-- A stream is connected. -/
theorem TfContext.Isolated.ready (h : ctx.Isolated) (hid : ctx.tfbs[id]? = some tfb) :
    TfContext.Isolated { ctx with tfbs := ctx.tfbs.set id { tfb with paired := true } } := by
  -- a buffer after the event has the same fields, apart from the connection, as one before it
  have hsame : ∀ (j : ℕ) (b : TfBuffer), (ctx.tfbs.set id { tfb with paired := true })[j]? = some b →
      ∃ b', ctx.tfbs[j]? = some b' ∧ b = { b' with paired := b.paired } := by
    intro j b hj
    rcases TfContext.getElem?_set hid hj with ⟨rfl, rfl⟩ | ⟨-, hj⟩
    · exact ⟨tfb, hid, rfl⟩
    · exact ⟨b, hj, rfl⟩
  have hlt := (List.getElem?_eq_some_iff.mp hid).1
  refine ⟨fun j b hj hb => ?_, fun j b hj hb hpos => ?_, fun hzero => h.empty fun j b hj hb => ?_,
    fun p hp => ?_⟩
  · obtain ⟨b', hb', heq⟩ := hsame j b hj
    rw [heq] at hb ⊢
    exact h.size j b' hb' hb
  · obtain ⟨b', hb', heq⟩ := hsame j b hj
    rw [heq] at hb hpos ⊢
    exact h.holds j b' hb' hb hpos
  · by_cases hne : id = j
    · subst hne
      obtain rfl := Option.some.inj (hid.symm.trans hj)
      exact hzero id { tfb with paired := true } (List.getElem?_set_self hlt) hb
    · exact hzero j b (by rw [List.getElem?_set_ne hne, hj]) hb
  · obtain ⟨b, hb, hb'⟩ := h.passed p hp
    by_cases hne : id = p.1
    · subst hne
      obtain rfl := Option.some.inj (hid.symm.trans hb)
      exact ⟨_, List.getElem?_set_self hlt, hb'⟩
    · exact ⟨b, by rw [List.getElem?_set_ne hne, hb], hb'⟩

/-- While the arena belongs to one file at a time, the invariant is kept. -/
theorem tfStep_isolated (ctx : TfContext) (e : TfEvent) (ctx' : TfContext) (h : ctx.Isolated)
    (hstep : tfStep ctx e = some ctx') (hone : OneAtATime ctx e ctx') (hfit : FilesFit ctx e ctx') :
    ctx'.Isolated := by
  cases e with
  | ready id =>
    obtain ⟨tfb, hid, rfl⟩ := Option.map_eq_some_iff.mp hstep
    exact h.ready hid
  | emptyResponse id =>
    obtain ⟨tfb, hid, rfl⟩ := Option.map_eq_some_iff.mp hstep
    unfold TfContext.checkComplete
    split_ifs
    · exact ⟨h.size, h.holds, h.empty, h.passed⟩
    · exact ⟨h.size, h.holds, h.empty, h.passed⟩
  | failed id =>
    obtain ⟨tfb, hid, rfl⟩ := Option.map_eq_some_iff.mp hstep
    exact (h.failed hid hone _).checkComplete.isolated
  | write id data eof outcome =>
    obtain ⟨tfb, hid, hrest⟩ := Option.bind_eq_some_iff.mp hstep
    obtain ⟨⟨-, hended⟩, heq⟩ := Option.ite_none_right_eq_some.mp hrest
    obtain rfl := Option.some.inj heq
    rw [Bool.not_eq_true] at hended
    by_cases hbrings : data ≠ [] ∨ eof = true
    · obtain ⟨hclear, hfailed⟩ := hone hbrings
      exact h.dataInWrite hid ⟨hended, hfailed tfb hid⟩ hclear eof outcome (hfit tfb hid)
    · obtain ⟨rfl, rfl⟩ : data = [] ∧ eof = false := by simpa using hbrings
      rw [TfContext.dataInWrite_nil hid hended]
      exact h

/-- For every template tree and every interleaving of fragments, file ends and failures of the
files that are being loaded, with all files below `MAX_TEMPLATE_SIZE`: in a run on which the arena
belongs to one file at a time, the content passed on for each file is exactly the bytes of that
file, in order. -/
theorem tfRun_isolated (es : List TfEvent) (hfit : Along tfStep FilesFit .init es)
    (hone : Along tfStep OneAtATime .init es) :
    Along tfStep (fun _ _ ctx => PassedExactly ctx) .init es := by
  refine along_of_inv (I := TfContext.Isolated) (fun ctx e ctx' hI hstep hQ => ?_)
    TfContext.quiet_init.isolated (hfit.and hone)
  have hkept := tfStep_isolated ctx e ctx' hI hstep hQ.2 hQ.1
  exact ⟨hkept.passed, hkept⟩

/-- The first file uses two others. Both are ready, and one comes after the other. -/
def successiveFiles : List TfEvent :=
  [.write 0 (bytes "t") true { loads := [.file, .block] }, .ready 1, .ready 2,
    .write 1 (bytes "a") true {}, .write 2 (bytes "b") false {}, .write 2 (bytes "c") true {}]

theorem tfRun_isolated_successive :
    Along tfStep FilesFit .init successiveFiles ∧ Along tfStep OneAtATime .init successiveFiles ∧
      Along tfStep (fun _ _ ctx => PassedExactly ctx) .init successiveFiles := by
  have hfit : Along tfStep FilesFit .init successiveFiles := by decide +kernel
  have hone : Along tfStep OneAtATime .init successiveFiles := by decide +kernel
  exact ⟨hfit, hone, tfRun_isolated successiveFiles hfit hone⟩

/-- The same files, with the first fragment of one between the two fragments of the other. -/
def interleavedFiles : List TfEvent :=
  [.write 0 (bytes "t") true { loads := [.file, .block] }, .ready 1, .ready 2,
    .write 2 (bytes "b") false {}, .write 1 (bytes "a") true {}, .write 2 (bytes "c") true {}]

/-- File `1` gets a byte of file `2`, which loses it. -/
theorem tfRun_interleaved :
    (run tfStep .init interleavedFiles).map TfContext.passed =
        some [(0, bytes "t"), (1, bytes "ba"), (2, bytes "c")] ∧
      Along tfStep FilesFit .init interleavedFiles ∧
      ¬ Along tfStep (fun _ _ ctx => PassedExactly ctx) .init interleavedFiles := by
  have hrun : (run tfStep .init interleavedFiles).map
      (fun ctx => (ctx.passed, ctx.tfbs.map TfBuffer.received)) =
        some ([(0, bytes "t"), (1, bytes "ba"), (2, bytes "c")],
          [bytes "t", bytes "a", bytes "bc"]) := by decide +kernel
  refine ⟨by decide +kernel, by decide +kernel, fun h => ?_⟩
  obtain ⟨ctx, hctx, heq⟩ := Option.map_eq_some_iff.mp hrun
  obtain ⟨hpassed, hreceived⟩ := Prod.mk.inj heq
  have hexact : PassedExactly ctx :=
    run_inv_of_along (I := PassedExactly) (fun _ _ _ _ _ hQ => hQ)
      TfContext.quiet_init.passed h hctx
  obtain ⟨tfb, htfb, -, hbytes⟩ := hexact (1, bytes "ba") (by simp [hpassed])
  have hone : (ctx.tfbs.map TfBuffer.received)[1]? = some (bytes "ba") := by
    rw [List.getElem?_map, htfb, Option.map_some, hbytes]
  rw [hreceived] at hone
  revert hone
  decide +kernel

end Nxweb
