import Nxweb.Templates.Rendering

/-!
# The bounds of the template tables

The parser checks how deep blocks are nested, and the argument array has room for one pair more than
any command reads. Nothing checks how many ids are handed out. All files of a context share them, and
each `include` tag takes one, so the table of block names is overrun when a block name is new, or a
file is included, after `NXT_MAX_BLOCKS` ids.

## Main definitions

* `NxtRun.NeedsId`: an event takes a new id.

## Main results

* `nxtTables_fit_iff`: the tables are kept within their bounds by exactly those runs in which no
  event needs a new id when all have been handed out.
-/

namespace Nxweb

open Lib

/-! ### Ids in use -/

/-- The context of the machine. -/
def NxtRun.ctx : NxtRun → NxtContext
  | .idle ctx => ctx
  | .parsing p => p.ctx
  | .merged ctx _ => ctx

/-- The ids of the blocks in a list of files. -/
def filesBlockIds (files : List NxtFile) : List ℕ := files.flatMap NxtFile.blockIds

/-- The ids of all blocks: `nxt_block_create` has handed out these. -/
def NxtRun.blockIds : NxtRun → List ℕ
  | .idle ctx => filesBlockIds ctx.files
  | .parsing p => p.file.blockIds ++ filesBlockIds p.ctx.files
  | .merged ctx _ => filesBlockIds ctx.files

/-- `block_stack_idx`. -/
def NxtRun.nesting : NxtRun → ℕ
  | .parsing p => p.blockStack.length
  | _ => 0

/-- A command takes a new id: a block whose name is not in the table, or a file that is included. -/
def NxtItem.NeedsId (item : NxtItem) (p : NxtParse) : Prop :=
  match item.cmd with
  | .block => p.blockStack.length < nxtMaxBlockNesting - 1 ∧
      ∃ name, item.args.str 0 = some name ∧ some name ∉ p.ctx.names
  | .includeFile => ∃ arg uri, item.args.str 0 = some arg ∧
      nxtResolveUri p.file.uri arg = some (some uri)
  | _ => False

/-- An event takes a new id. -/
def NxtRun.NeedsId : NxtRun → NxtEvent → Prop
  | .idle ctx, .parseFile _ _ => some topName ∉ ctx.names
  | .parsing p, .turn _ => ∃ item, nxtGetNextCmd p.rawMode p.rest = some item ∧ item.NeedsId p
  | _, _ => False

theorem mem_filesBlockIds {files : List NxtFile} {id : ℕ} :
    id ∈ filesBlockIds files ↔ ∃ file ∈ files, id ∈ file.blockIds := List.mem_flatMap

/-! ### A turn of the parser -/

/-- What is counted of the parser: the ids in use are below the number of names, and the file has a
place in the context. -/
structure NxtParse.Counted (p : NxtParse) : Prop where
  lt : ∀ id ∈ (NxtRun.parsing p).blockIds, id < p.ctx.names.length
  index_lt : p.index < p.ctx.files.length

/-- The same block ids, the same names. -/
theorem NxtParse.Counted.congr {p p' : NxtParse} (hp : p.Counted)
    (hids : p'.file.blockIds = p.file.blockIds) (hctx : p'.ctx = p.ctx)
    (hindex : p'.index = p.index) : p'.Counted where
  lt := by simpa [NxtRun.blockIds, hids, hctx] using hp.lt
  index_lt := by simpa [hctx, hindex] using hp.index_lt

/-- An id that is handed out is counted. -/
theorem NxtParse.Counted.blockCreate {p : NxtParse} (hp : p.Counted) (name : Option (List UInt8)) :
    (p.blockCreate name).1.Counted where
  lt := by
    have hle := p.ctx.blockId_le name
    have hnames := p.blockCreate_names name
    intro id hid
    have hid' : id ∈ (NxtRun.parsing p).blockIds ∨ id = p.ctx.blockId name := by
      simp only [NxtRun.blockIds, p.blockCreate_blockIds name, List.mem_append,
        NxtParse.blockCreate_files] at hid ⊢
      split_ifs at hid
      · exact .inl hid
      · simp only [List.mem_append, List.mem_singleton] at hid
        tauto
    rw [hnames]
    rcases hid' with hid' | rfl
    · have := hp.lt id hid'
      split_ifs <;> simp <;> omega
    · split_ifs <;> simp <;> omega
  index_lt := hp.index_lt

theorem nxtStable_counted : NxtStable NxtParse.Counted where
  scan _ _ _ hp := hp.congr rfl rfl rfl
  move _ _ _ hp := hp.congr rfl rfl rfl
  append p _ _ hp := hp.congr (p.append_blockIds _ _) rfl rfl
  mark p blk hp := hp.congr (p.modifyBlock_blockIds blk fun _ => rfl) rfl rfl
  create _ name hp := hp.blockCreate name
  pend _ _ hp := ⟨hp.lt, hp.index_lt⟩
  addParent p new _ hnew hp := by
    refine ⟨fun id hid => hp.lt id ?_, ?_⟩
    · simpa [NxtRun.blockIds, NxtParse.addParent, filesBlockIds, NxtFile.blockIds, hnew.2.1]
        using hid
    · simpa [NxtParse.addParent] using Nat.lt_succ_of_lt hp.index_lt

/-- What the names of a run `r` and the block ids of the next one say about an event that does or
does not need a new id. -/
def GrowsBy (needed : Prop) (names : List (Option (List UInt8))) (r : NxtRun) : Prop :=
  ¬ needed ∧ r.ctx.names = names ∨
    needed ∧ r.ctx.names.length = names.length + 1 ∧ names.length ∈ r.blockIds

/-- A block that is asked for by a new name, or without name, has the next free id. -/
theorem NxtParse.blockCreate_new (p : NxtParse) (name : Option (List UInt8))
    (hnew : ∀ s, name = some s → some s ∉ p.ctx.names) :
    (p.blockCreate name).1.ctx.names.length = p.ctx.names.length + 1 ∧
      p.ctx.names.length ∈ (p.blockCreate name).1.file.blockIds := by
  have hid := NxtContext.blockId_eq_length.mpr hnew
  constructor
  · rw [p.blockCreate_names, if_pos hid, List.length_append, List.length_singleton]
  · rw [p.blockCreate_blockIds, hid]
    split_ifs with hmem
    · exact hmem
    · simp

/-- The name of a known block is in the table. -/
theorem NxtParse.blockCreate_old (p : NxtParse) {s : List UInt8} (hold : some s ∈ p.ctx.names) :
    (p.blockCreate (some s)).1.ctx.names = p.ctx.names := by
  rw [p.blockCreate_names, if_neg]
  intro hid
  exact NxtContext.blockId_eq_length.mp hid s rfl hold

/-- When the parser returns, the blocks of the file are those of the context. -/
theorem NxtParse.mem_finish_blockIds {p : NxtParse} {id : ℕ} (error : Bool)
    (hindex : p.index < p.ctx.files.length) (hid : id ∈ p.file.blockIds) :
    id ∈ (NxtRun.idle (p.finish error)).blockIds :=
  mem_filesBlockIds.mpr ⟨p.file, List.mem_iff_getElem?.mpr
    ⟨p.index, by simp [finish, List.getElem?_set_self hindex]⟩, hid⟩

/-- Every block id in use when the parser returns was in use before. -/
theorem NxtParse.finish_blockIds {p : NxtParse} {id : ℕ} (error : Bool)
    (hid : id ∈ (NxtRun.idle (p.finish error)).blockIds) : id ∈ (NxtRun.parsing p).blockIds := by
  obtain ⟨file, hfile, hid⟩ := mem_filesBlockIds.mp hid
  rcases List.mem_or_eq_of_mem_set hfile with hmem | rfl
  · exact List.mem_append_right _ (mem_filesBlockIds.mpr ⟨file, hmem, hid⟩)
  · exact List.mem_append_left _ hid

/-- A command takes a new id exactly if it needs one, and does not nest blocks too deep. -/
theorem nxtExec_growsBy {load : List UInt8 → Bool} {item : NxtItem} {p : NxtParse}
    {o : NxtOutcome} (hindex : p.index < p.ctx.files.length)
    (hstack : p.blockStack.length < nxtMaxBlockNesting) (h : nxtExec load item p = some o) :
    GrowsBy (item.NeedsId p) p.ctx.names o.run ∧ o.run.nesting < nxtMaxBlockNesting := by
  have hidle : 0 < nxtMaxBlockNesting := by decide
  unfold nxtExec at h
  cases hcmd : item.cmd <;> simp only [hcmd, NxtItem.NeedsId] at h ⊢
  case eof =>
    obtain rfl := Option.some.inj h
    split <;> exact ⟨.inl ⟨id, rfl⟩, hidle⟩
  case none =>
    obtain rfl := Option.some.inj h
    exact ⟨.inl ⟨id, by simp [NxtOutcome.run, NxtRun.ctx]⟩, by
      simpa [NxtOutcome.run, NxtRun.nesting] using hstack⟩
  case raw | endraw =>
    obtain rfl := Option.some.inj h
    exact ⟨.inl ⟨id, rfl⟩, hstack⟩
  case block =>
    split at h
    · rename_i harg
      obtain rfl := Option.some.inj h
      exact ⟨.inl ⟨by simp [harg], rfl⟩, hidle⟩
    · rename_i name harg
      split_ifs at h with hdepth
      · obtain rfl := Option.some.inj h
        exact ⟨.inl ⟨by omega, rfl⟩, hidle⟩
      · obtain rfl := Option.some.inj h
        refine ⟨?_, by simp [NxtOutcome.run, NxtRun.nesting]; omega⟩
        by_cases hmem : some name ∈ p.ctx.names
        · refine .inl ⟨fun hneeds => ?_, p.blockCreate_old hmem⟩
          obtain ⟨-, name', hname', hnew⟩ := hneeds
          obtain rfl := Option.some.inj (harg.symm.trans hname')
          exact hnew hmem
        · obtain ⟨hlength, hid⟩ :=
            p.blockCreate_new (some name) (by rintro s ⟨⟩; exact hmem)
          refine .inr ⟨⟨by omega, name, harg, hmem⟩, hlength, List.mem_append_left _ ?_⟩
          simpa [NxtParse.modifyBlock_blockIds] using hid
  case endblock =>
    split at h
    · obtain rfl := Option.some.inj h
      exact ⟨.inl ⟨id, by simp [NxtParse.fail, NxtOutcome.run, NxtRun.ctx, NxtParse.finish]⟩, hidle⟩
    · rename_i blk stack hpop
      obtain rfl := Option.some.inj h
      refine ⟨.inl ⟨id, by simp [NxtOutcome.run, NxtRun.ctx]⟩, ?_⟩
      rw [NxtParse.appendText_blockStack] at hpop
      rw [hpop] at hstack
      exact Nat.lt_of_succ_lt hstack
  case use =>
    obtain ⟨⟨p', ok⟩, huse, rfl⟩ := Option.map_eq_some_iff.mp h
    have hkeep : p'.ctx.names = p.ctx.names ∧ p'.blockStack = p.blockStack :=
      nxtUseArgs_inv (I := fun q => q.ctx.names = p.ctx.names ∧ q.blockStack = p.blockStack)
        (fun _ _ _ _ h => h) (by simp) huse
    cases ok
    · exact ⟨.inl ⟨id, hkeep.1⟩, hidle⟩
    · exact ⟨.inl ⟨id, hkeep.1⟩, by simpa [NxtOutcome.run, NxtRun.nesting, hkeep.2] using hstack⟩
  case includeFile =>
    split at h
    · rename_i harg
      obtain rfl := Option.some.inj h
      exact ⟨.inl ⟨by simp [harg], rfl⟩, hidle⟩
    · rename_i arg harg
      obtain ⟨⟨p', id?⟩, hinclude, rfl⟩ := Option.map_eq_some_iff.mp h
      obtain ⟨uri?, huri, hinclude⟩ := Option.map_eq_some_iff.mp hinclude
      cases uri? with
      | none =>
        obtain ⟨rfl, rfl⟩ := Prod.mk.inj hinclude
        exact ⟨.inl ⟨by simp [harg, huri], rfl⟩, hidle⟩
      | some uri =>
        obtain ⟨hlength, hid⟩ := p.blockCreate_new none (by rintro s ⟨⟩)
        have hneeds : ∃ arg uri, item.args.str 0 = some arg ∧
            nxtResolveUri p.file.uri arg = some (some uri) := ⟨arg, uri, harg, huri⟩
        simp only at hinclude
        split_ifs at hinclude <;> obtain ⟨rfl, rfl⟩ := Prod.mk.inj hinclude
        · refine ⟨.inr ⟨hneeds, hlength, List.mem_append_left _ ?_⟩, hstack⟩
          rw [NxtParse.append_blockIds]
          exact hid
        · exact ⟨.inr ⟨hneeds, hlength, NxtParse.mem_finish_blockIds true hindex hid⟩, hidle⟩
  case includeParent =>
    obtain rfl := Option.some.inj h
    exact ⟨.inl ⟨id, rfl⟩, hstack⟩

/-! ### Runs -/

/-- What is counted of the machine. -/
structure NxtRun.Counted (r : NxtRun) : Prop where
  lt : ∀ id ∈ r.blockIds, id < r.ctx.names.length
  index_lt : ∀ p, r = .parsing p → p.index < p.ctx.files.length
  nesting_lt : r.nesting < nxtMaxBlockNesting

theorem NxtParse.Counted.run {p : NxtParse} (hp : p.Counted)
    (hstack : p.blockStack.length < nxtMaxBlockNesting) : (NxtRun.parsing p).Counted where
  lt := hp.lt
  index_lt := by
    rintro _ ⟨⟩
    exact hp.index_lt
  nesting_lt := hstack

/-- A context between two calls, whose ids are in range. -/
theorem counted_idle {ctx : NxtContext}
    (h : ∀ id ∈ filesBlockIds ctx.files, id < ctx.names.length) : (NxtRun.idle ctx).Counted where
  lt := h
  index_lt := by rintro _ ⟨⟩
  nesting_lt := show 0 < nxtMaxBlockNesting by decide

theorem counted_nxtInit (uri : List UInt8) : (nxtInit uri).Counted :=
  counted_idle (by simp [nxtFileCreate, filesBlockIds, NxtFile.blockIds])

/-- A call of the parser begins with the ids in use. -/
theorem NxtRun.Counted.start {ctx : NxtContext} (h : (NxtRun.idle ctx).Counted) {index : ℕ}
    {file : NxtFile} (hfile : ctx.files[index]? = some file) (content : List UInt8) :
    NxtParse.Counted
      { ctx, index, file := { file with content := some content }, rest := content } where
  lt id hid := by
    refine h.lt id ((List.mem_append.mp hid).elim (fun hid => ?_) fun hid => hid)
    exact mem_filesBlockIds.mpr ⟨file, List.mem_of_getElem? hfile, hid⟩
  index_lt := (List.getElem?_eq_some_iff.mp hfile).1

/-- The content of an included file changes no ids. -/
theorem nxtIncluded_blockIds (ctx : NxtContext) (ref : NxtBlockRef) (content : List UInt8) :
    filesBlockIds (nxtIncluded ctx ref content).files = filesBlockIds ctx.files := by
  simp only [filesBlockIds, List.flatMap, nxtIncluded]
  rw [map_modify_of_eq]
  intro file
  exact map_modify_of_eq (fun blk => nxtBlockAppendValue_id blk content 0) _ _

/-- An event takes a new id exactly if it needs one. -/
theorem nxtStep_growsBy {r r' : NxtRun} {e : NxtEvent} (hr : r.Counted)
    (h : nxtStep r e = some r') : GrowsBy (r.NeedsId e) r.ctx.names r' ∧ r'.Counted := by
  unfold nxtStep at h
  split at h
  case h_1 ctx index content =>
    split_ifs at h with hguard
    obtain ⟨p, hstart, rfl⟩ := Option.map_eq_some_iff.mp h
    have hp : p.Counted :=
      nxtParseStart_inv nxtStable_counted (fun _ hfile => hr.start hfile content) hstart
    obtain ⟨file, hfile, rfl⟩ := Option.map_eq_some_iff.mp hstart
    refine ⟨?_, hp.run (show 0 < nxtMaxBlockNesting by decide)⟩
    let p₀ : NxtParse :=
      { ctx, index, file := { file with content := some content }, rest := content }
    by_cases hmem : some topName ∈ ctx.names
    · exact .inl ⟨fun hnew => hnew hmem, p₀.blockCreate_old hmem⟩
    · obtain ⟨hlength, hid⟩ := p₀.blockCreate_new (some topName) (by rintro s ⟨⟩; exact hmem)
      exact .inr ⟨hmem, hlength, List.mem_append_left _ hid⟩
  case h_2 p load =>
    obtain ⟨o, hturn, rfl⟩ := Option.map_eq_some_iff.mp h
    have hp : p.Counted := ⟨hr.lt, hr.index_lt p rfl⟩
    have ho := nxtParseStep_inv nxtStable_counted hp hturn
    simp only [nxtParseStep] at hturn
    split_ifs at hturn
    obtain ⟨item, hitem, hexec⟩ := Option.bind_eq_some_iff.mp hturn
    obtain ⟨hgrows, hnesting⟩ :=
      nxtExec_growsBy (p := { p with rawMode := item.rawMode, rest := item.rest })
        hp.index_lt hr.nesting_lt hexec
    constructor
    · rcases hgrows with ⟨hneeds, hnames⟩ | ⟨hneeds, hnew⟩
      · refine .inl ⟨?_, hnames⟩
        rintro ⟨item', hitem', hneeds'⟩
        obtain rfl := Option.some.inj (hitem.symm.trans hitem')
        exact hneeds hneeds'
      · exact .inr ⟨⟨item, hitem, hneeds⟩, hnew⟩
    · cases o with
      | next p' => exact ho.run hnesting
      | ret ctx code =>
        obtain ⟨p', error, hp', rfl⟩ := ho
        exact counted_idle fun id hid => hp'.lt id (NxtParse.finish_blockIds error hid)
  case h_3 ctx ref content =>
    split at h
    · split_ifs at h
      obtain rfl := Option.some.inj h
      refine ⟨.inl ⟨id, rfl⟩, counted_idle ?_⟩
      rw [nxtIncluded_blockIds]
      exact hr.lt
    · cases h
  case h_4 ctx =>
    obtain rfl := Option.some.inj h
    exact ⟨.inl ⟨id, rfl⟩, counted_idle hr.lt⟩
  case h_5 ctx =>
    split_ifs at h
    obtain ⟨m, -, rfl⟩ := Option.map_eq_some_iff.mp h
    exact ⟨.inl ⟨id, rfl⟩, hr.lt, by rintro _ ⟨⟩, hr.nesting_lt⟩
  case h_6 => cases h

/-- The argument array is never overrun and ends with a null pair. Along every run the ids of all
blocks are below `NXT_MAX_BLOCKS`, and `block_stack_idx` is below `NXT_MAX_BLOCK_NESTING`, exactly if
no event needs a new id when that many have been handed out. -/
theorem nxtTables_fit_iff (uri : List UInt8) (es : List NxtEvent) :
    (∀ body, ∃ cmd, ∃ args : NxtArgs, nxtParseCmd body = some (cmd, args) ∧
      args.length = nxtMaxArgs ∧ args[nxtMaxArgs - 1]? = some none) ∧
    (Along nxtStep (fun _ _ r => (∀ id ∈ r.blockIds, id < nxtMaxBlocks) ∧
        r.nesting < nxtMaxBlockNesting) (nxtInit uri) es ↔
      Along nxtStep (fun r e _ => r.NeedsId e → r.ctx.names.length < nxtMaxBlocks)
        (nxtInit uri) es) := by
  refine ⟨fun body => ⟨_, nxtParseCmd_eq_some body⟩, ?_⟩
  refine along_iff (I := fun r => r.Counted ∧ r.ctx.names.length ≤ nxtMaxBlocks) ?_ es
    ⟨counted_nxtInit uri, by simp [nxtInit, NxtRun.ctx, nxtFileCreate]⟩
  rintro r e r' ⟨hr, hle⟩ hstep
  obtain ⟨hgrows, hr'⟩ := nxtStep_growsBy hr hstep
  rcases hgrows with ⟨hneeds, hnames⟩ | ⟨hneeds, hlength, hid⟩
  · have hfit : ∀ id ∈ r'.blockIds, id < nxtMaxBlocks := by
      intro id hid
      have := hr'.lt id hid
      rw [hnames] at this
      omega
    exact ⟨⟨fun _ h => absurd h hneeds, fun _ => ⟨hfit, hr'.nesting_lt⟩⟩,
      fun _ => ⟨hr', by rw [hnames]; exact hle⟩⟩
  · refine ⟨⟨fun h _ => h.1 _ hid, fun h => ⟨fun id hid => ?_, hr'.nesting_lt⟩⟩,
      fun h => ⟨hr', ?_⟩⟩
    · have := hr'.lt id hid
      have := h hneeds
      omega
    · have := h.1 _ hid
      omega

/-! ### A page with many included files -/

/-- A tag that includes a file. -/
def includeTag : List UInt8 := bytes "{% include /a %}"

theorem nxtGetNextCmd_includeTag (rest : List UInt8) :
    nxtGetNextCmd false (includeTag ++ rest) =
      some { cmd := .includeFile, text := [], args := NxtArgs.null.set 0 (some (bytes "/a"))
             rawMode := false, rest } := rfl

/-- Each of the tags takes an id. -/
theorem nxtParseStep_includeTag {p : NxtParse} {rest : List UInt8}
    (hrest : p.rest = includeTag ++ rest) (hraw : p.rawMode = false)
    (hnames : p.ctx.names.length ≤ nxtMaxBlocks) :
    ∃ p', nxtParseStep (fun _ => true) p = some (.next p') ∧ p'.rest = rest ∧
      p'.rawMode = false ∧ p'.ctx.names.length = p.ctx.names.length + 1 ∧
      p.ctx.names.length ∈ p'.file.blockIds := by
  rw [nxtParseStep, if_neg (by omega), hraw, hrest, nxtGetNextCmd_includeTag]
  obtain ⟨hlength, hid⟩ := p.blockCreate_new none (by rintro s ⟨⟩)
  refine ⟨_, rfl, rfl, rfl, hlength, ?_⟩
  rw [NxtParse.append_blockIds]
  exact hid

theorem run_includeTags {n : ℕ} {p : NxtParse}
    (hrest : p.rest = (List.replicate (n + 1) includeTag).flatten) (hraw : p.rawMode = false)
    (hnames : p.ctx.names.length + n ≤ nxtMaxBlocks) :
    ∃ r, run nxtStep (.parsing p) (List.replicate (n + 1) (.turn fun _ => true)) = some r ∧
      p.ctx.names.length + n ∈ r.blockIds := by
  induction n generalizing p with
  | zero =>
    have hrest : p.rest = includeTag ++ [] := by simpa using hrest
    obtain ⟨p', hstep, -, -, -, hid⟩ := nxtParseStep_includeTag hrest hraw (by omega)
    exact ⟨.parsing p', run_single (by simp [nxtStep, hstep, NxtOutcome.run]),
      List.mem_append_left _ hid⟩
  | succ n ih =>
    rw [List.replicate_succ, List.flatten_cons] at hrest
    obtain ⟨p', hstep, hrest', hraw', hlength, -⟩ :=
      nxtParseStep_includeTag hrest hraw (by omega)
    obtain ⟨r, hrun, hid⟩ := ih hrest' hraw' (by omega)
    refine ⟨r, ?_, by rwa [hlength, Nat.add_right_comm, Nat.add_assoc] at hid⟩
    rw [List.replicate_succ]
    exact Option.bind_eq_some_iff.mpr ⟨_, by simp [nxtStep, hstep, NxtOutcome.run], hrun⟩

/-- A file with as many `include` tags as there are ids overruns the table. -/
theorem nxtTables_overrun :
    ∃ r, run nxtStep (nxtInit (bytes "/a"))
        (.parseFile 0 (List.replicate nxtMaxBlocks includeTag).flatten ::
          List.replicate nxtMaxBlocks (.turn fun _ => true)) = some r ∧
      nxtMaxBlocks ∈ r.blockIds := by
  obtain ⟨p, hstart, hrest, hraw, hnames⟩ : ∃ p,
      nxtStep (nxtInit (bytes "/a"))
        (.parseFile 0 (List.replicate nxtMaxBlocks includeTag).flatten) = some (.parsing p) ∧
      p.rest = (List.replicate nxtMaxBlocks includeTag).flatten ∧ p.rawMode = false ∧
      p.ctx.names.length = 1 := ⟨_, rfl, rfl, rfl, rfl⟩
  obtain ⟨r, hrun, hid⟩ := run_includeTags (n := 2047) hrest hraw (by rw [hnames]; decide)
  exact ⟨r, Option.bind_eq_some_iff.mpr ⟨_, hstart, hrun⟩, by rwa [hnames] at hid⟩

end Nxweb
