import Nxweb.Templates.OutlineMatches
import Nxweb.Templates.FileTree

/-!
# A context and the outlines of its files

In every run that has no error, the blocks of each file that has been parsed match the outline of its
content, if the names in it are distinct. The blocks without name are apart from each other: no two of
them have the same id, in whatever files they are.

## Main definitions

* `ContextMatches`: the files of a context match their outlines;
* `AnonymousUnique`: blocks without name have different ids.

## Main results

* `nxtStep_matches`, `nxtStep_anonymous`: both hold in every run.
-/

namespace Nxweb

open Lib

/-! ### Files and outlines -/

/-- A file matches its outline, if its block names are distinct. One that has not been parsed has no
blocks. -/
def FileMatches (names : List (Option (List UInt8))) (i : ℕ) (file : NxtFile) : Prop :=
  match file.content with
  | none => file.blocks = []
  | some content =>
    DistinctBlocks content → BlocksMatch names i file.blocks (outline i (scanFile content))

/-- The files of a context match their outlines, and the first id is that of the top block. -/
structure ContextMatches (ctx : NxtContext) : Prop where
  file : ∀ (i : ℕ) file, ctx.files[i]? = some file → FileMatches ctx.names i file
  top : ∀ name?, ctx.names[0]? = some name? → name? = some topName

/-- The same while a file is parsed, without error so far. The top block has its id then. -/
structure ParserMatches (p : NxtParse) : Prop where
  ctx : ContextMatches p.ctx
  top : p.ctx.names[0]? = some (some topName)
  error : p.ctx.error = false

/-- What holds of a machine that has met no error. The file that is being parsed matches what has
been read of it. -/
def NxtRun.Matches : NxtRun → Prop
  | .idle ctx => ctx.error = false → ContextMatches ctx
  | .parsing p => p.ctx.error = false → ParserMatches p ∧
      ∃ content, p.file.content = some content ∧ (DistinctBlocks content → ReadSoFar p content)
  | .merged ctx _ => ctx.error = false → ContextMatches ctx

/-- The top block has the first id. -/
theorem ContextMatches.blockId_top {ctx : NxtContext} (h : ContextMatches ctx) :
    ctx.blockId (some topName) = 0 := by
  rw [NxtContext.blockId]
  cases hnames : ctx.names with
  | nil => rfl
  | cons first names => rw [h.top first (by rw [hnames]; rfl), List.idxOf_cons_self]

theorem FileMatches.mono {names names' : List (Option (List UInt8))} {i : ℕ} {file : NxtFile}
    (h : FileMatches names i file) (hnames : names <+: names') : FileMatches names' i file := by
  unfold FileMatches at h ⊢
  cases hcontent : file.content with
  | none => simpa [hcontent] using h
  | some content =>
    simp only [hcontent] at h ⊢
    exact fun hdistinct => (h hdistinct).mono hnames

/-- More names may be handed out. -/
theorem ContextMatches.mono {ctx ctx' : NxtContext} (h : ContextMatches ctx)
    (hfiles : ctx'.files = ctx.files) (hnames : ctx.names <+: ctx'.names)
    (htop : ctx.names = [] → ∀ name?, ctx'.names[0]? = some name? → name? = some topName) :
    ContextMatches ctx' where
  file i file hfile := (h.file i file (hfiles ▸ hfile)).mono hnames
  top name? hname := by
    cases hctx : ctx.names with
    | nil => exact htop hctx name? hname
    | cons first names =>
      have hfirst := h.top first (by rw [hctx]; rfl)
      have hget := getElem?_of_isPrefix hnames (j := 0) (a := first) (by rw [hctx]; rfl)
      rw [← hfirst]
      exact Option.some.inj (hname.symm.trans hget)

/-- A file that is created matches. -/
theorem ContextMatches.addFile {ctx ctx' : NxtContext} (h : ContextMatches ctx) {new : NxtFile}
    (hnew : new.Fresh) (hfiles : ctx'.files = ctx.files ++ [new]) (hnames : ctx'.names = ctx.names) :
    ContextMatches ctx' where
  file i file hfile := by
    rw [hfiles] at hfile
    rw [hnames]
    rcases lt_or_ge i ctx.files.length with hi | hi
    · rw [List.getElem?_append_left hi] at hfile
      exact h.file i file hfile
    · rw [List.getElem?_append_right hi] at hfile
      have hmem := List.mem_of_getElem? hfile
      obtain rfl := List.mem_singleton.mp hmem
      rw [FileMatches, hnew.2.2]
      exact hnew.2.1
  top name? hname := h.top name? (hnames ▸ hname)

theorem nxtStable_matches : NxtStable ParserMatches where
  scan _ _ _ h := ⟨h.ctx, h.top, h.error⟩
  move _ _ _ h := ⟨h.ctx, h.top, h.error⟩
  append _ _ _ h := ⟨h.ctx, h.top, h.error⟩
  mark _ _ h := ⟨h.ctx, h.top, h.error⟩
  create p name h := by
    have hnames := p.prefix_blockCreate name
    refine ⟨h.ctx.mono rfl hnames fun hnil => ?_, getElem?_of_isPrefix hnames h.top, h.error⟩
    have htop := h.top
    rw [hnil] at htop
    cases htop
  pend _ _ h := ⟨⟨h.ctx.file, h.ctx.top⟩, h.top, h.error⟩
  addParent _ _ _ hnew h := ⟨h.ctx.addFile hnew rfl rfl, h.top, h.error⟩

/-! ### The end of a file -/

/-- The parser returns without error only at the end of the content, when no block is open. -/
theorem nxtExec_ret {load : List UInt8 → Bool} {item : NxtItem} {p : NxtParse} {ctx : NxtContext}
    {code : ℤ} (h : nxtExec load item p = some (.ret ctx code)) (herror : ctx.error = false) :
    item.cmd = .eof ∧ ctx = p.finish false := by
  have hfail : ∀ {q : NxtParse}, q.fail = .ret ctx code → False := by
    intro q hq
    obtain ⟨rfl, -⟩ := NxtOutcome.ret.inj hq
    simp [NxtParse.finish] at herror
  unfold nxtExec at h
  cases hcmd : item.cmd <;> simp only [hcmd] at h
  case eof =>
    split at h
    · exact (hfail (Option.some.inj h)).elim
    · exact ⟨rfl, (NxtOutcome.ret.inj (Option.some.inj h)).1.symm⟩
  case none | raw | endraw | includeParent => cases Option.some.inj h
  case block =>
    split at h
    · exact (hfail (Option.some.inj h)).elim
    · split_ifs at h
      · exact (hfail (Option.some.inj h)).elim
      · cases Option.some.inj h
  case endblock =>
    split at h
    · exact (hfail (Option.some.inj h)).elim
    · cases Option.some.inj h
  case use =>
    obtain ⟨⟨q, ok⟩, -, hout⟩ := Option.map_eq_some_iff.mp h
    cases ok
    · exact (hfail hout).elim
    · cases hout
  case includeFile =>
    split at h
    · exact (hfail (Option.some.inj h)).elim
    · obtain ⟨⟨q, id?⟩, -, hout⟩ := Option.map_eq_some_iff.mp h
      cases id? with
      | none => exact (hfail hout).elim
      | some id => cases hout

/-- A file that has been read to its end matches its outline. -/
theorem ParserMatches.finish {p : NxtParse} (h : ParserMatches p) {content : List UInt8}
    (hcontent : p.file.content = some content)
    (hblocks : DistinctBlocks content →
      BlocksMatch p.ctx.names p.index p.file.blocks (outline p.index (scanFile content))) :
    ContextMatches (p.finish false) where
  file i file hfile := by
    change (p.ctx.files.set p.index p.file)[i]? = some file at hfile
    rw [List.getElem?_set] at hfile
    split_ifs at hfile with hi
    · subst hi
      obtain rfl := Option.some.inj hfile
      rw [FileMatches, hcontent]
      exact hblocks
    · exact h.ctx.file i file hfile
  top := h.ctx.top

/-- A block of a context without name belongs to a file that matches. What is included by it does not
change what its file says. -/
theorem ContextMatches.included {ctx : NxtContext} (h : ContextMatches ctx) {ref : NxtBlockRef}
    {blk : NxtBlock} (hblk : blockAt ctx.files ref = some blk)
    (hnull : ctx.names[blk.id]? = some none) (content : List UInt8) :
    ContextMatches (nxtIncluded ctx ref content) where
  file i file hfile := by
    change (ctx.files.modify ref.file _)[i]? = some file at hfile
    rw [List.getElem?_modify] at hfile
    obtain ⟨file', hfile', rfl⟩ := Option.map_eq_some_iff.mp hfile
    have hmatch := h.file i file' hfile'
    by_cases hi : ref.file = i
    · subst hi
      rw [if_pos rfl]
      rw [blockAt, hfile', Option.bind_some] at hblk
      unfold FileMatches at hmatch ⊢
      cases hcontent : file'.content with
      | none =>
        simp only [hcontent] at hmatch
        simp [hmatch] at hblk
      | some content' =>
        simp only [hcontent] at hmatch ⊢
        exact fun hdistinct => (hmatch hdistinct).included hblk hnull content
    · rw [if_neg hi]
      exact hmatch
  top := h.top

/-- A call of the parser begins with the top block. -/
theorem ContextMatches.start {ctx : NxtContext} (h : ContextMatches ctx) {index : ℕ} {content : List UInt8} {p : NxtParse}
    (hfile : ∃ file, ctx.files[index]? = some file ∧ file.content = none)
    (hstart : nxtParseStart ctx index content = some p) (herror : ctx.error = false) :
    ParserMatches p ∧ p.file.content = some content ∧ ReadSoFar p content := by
  obtain ⟨file, hget, hnull⟩ := hfile
  obtain ⟨file', hget', rfl⟩ := Option.map_eq_some_iff.mp hstart
  obtain rfl := Option.some.inj (hget.symm.trans hget')
  let p₀ : NxtParse :=
    { ctx, index, file := { file with content := some content }, rest := content }
  have hblocks : file.blocks = [] := by
    have hmatch := h.file index file hget
    rwa [FileMatches, hnull] at hmatch
  have hids : p₀.ctx.blockId (some topName) ∉ p₀.file.blockIds := by
    simp [p₀, NxtFile.blockIds, hblocks]
  obtain ⟨hnew, hplace⟩ := p₀.blockCreate_of_new hids
  have hnames := p₀.prefix_blockCreate (some topName)
  have hmem := p₀.mem_blockCreate topName
  have htop : (p₀.blockCreate (some topName)).1.ctx.names[0]? = some (some topName) := by
    cases hctx : ctx.names with
    | nil =>
      have hall : (p₀.blockCreate (some topName)).1.ctx.names = [some topName] := by
        simp [NxtParse.blockCreate_names, p₀, NxtContext.blockId, hctx]
      rw [hall]
      rfl
    | cons first names =>
      have hfirst : first = some topName := h.top first (by rw [hctx]; rfl)
      refine getElem?_of_isPrefix hnames ?_
      change ctx.names[0]? = _
      rw [hctx, hfirst]
      rfl
  refine ⟨⟨h.mono rfl hnames fun _ name? hname => ?_, htop, herror⟩, rfl,
    [], content.length, rfl, le_rfl, ?_⟩
  · exact Option.some.inj (hname.symm.trans htop)
  · have hempty : BlocksMatch ctx.names index file.blocks
        { scopes := [topName], blocks := [], parts := [] } := by
      rw [hblocks]
      exact ⟨rfl, fun _ _ _ hblk => (by cases hblk), .nil, .nil, fun _ hpart => (by cases hpart)⟩
    have hmatch : BlocksMatch (p₀.blockCreate (some topName)).1.ctx.names index
        (p₀.blockCreate (some topName)).1.file.blocks {} := by
      rw [hnew]
      refine hempty.addBlock hnames hids ?_ (by rintro ⟨⟩)
      rintro _ ⟨⟩
      exact ⟨List.not_mem_nil, hmem⟩
    refine ⟨hmatch, .cons ?_ .nil, rfl, htop⟩
    change ([some topName] : List (Option (List UInt8)))[(p₀.blockCreate (some topName)).2]? = _
    rw [hplace]
    change _[file.blocks.length]? = _
    rw [hblocks]
    rfl

/-- The blocks match the outlines in every run without error. -/
theorem nxtStep_matches {r r' : NxtRun} {e : NxtEvent} (hcounted : r.Counted) (hr : r.Matches)
    (h : nxtStep r e = some r') : r'.Matches := by
  unfold nxtStep at h
  split at h
  case h_1 ctx index content =>
    split_ifs at h with hguard
    obtain ⟨p, hstart, rfl⟩ := Option.map_eq_some_iff.mp h
    intro herror
    have hfile : ∃ file, ctx.files[index]? = some file ∧ file.content = none := by
      have hany := hguard.1
      cases hget : ctx.files[index]? with
      | none => simp [hget] at hany
      | some file => exact ⟨file, rfl, by simpa [hget] using hany⟩
    have herror' : ctx.error = false := by
      obtain ⟨file, -, rfl⟩ := Option.map_eq_some_iff.mp hstart
      exact herror
    obtain ⟨hp, hcontent, hread⟩ := (hr herror').start hfile hstart herror'
    exact ⟨hp, content, hcontent, fun _ => hread⟩
  case h_2 p load =>
    obtain ⟨o, hturn, rfl⟩ := Option.map_eq_some_iff.mp h
    have hp : p.Counted := ⟨hcounted.lt, hcounted.index_lt p rfl⟩
    have hinv : p.ctx.error = false → ParserMatches p → o.Holds ParserMatches :=
      fun _ hp => nxtParseStep_inv nxtStable_matches hp hturn
    have hturn' := hturn
    simp only [nxtParseStep] at hturn'
    split_ifs at hturn'
    obtain ⟨item, hitem, hexec⟩ := Option.bind_eq_some_iff.mp hturn'
    cases o with
    | next p' =>
      intro herror
      obtain ⟨-, -, -, hcontent', herror'⟩ := nxtExec_next hexec
      obtain ⟨hmatch, content, hcontent, hread⟩ := hr (herror'.symm.trans herror)
      exact ⟨hinv hmatch.error hmatch, content, hcontent'.trans hcontent,
        fun hdistinct => (hread hdistinct).step hp hdistinct hturn⟩
    | ret ctx code =>
      intro herror
      obtain ⟨hcmd, rfl⟩ := nxtExec_ret hexec herror
      have herror' : p.ctx.error = false := by simpa [NxtParse.finish] using herror
      obtain ⟨hmatch, content, hcontent, hread⟩ := hr herror'
      refine hmatch.finish hcontent fun hdistinct => ?_
      obtain ⟨done, fuel, hscan, -, hdone⟩ := hread hdistinct
      rw [nxtGetNextCmd_eof hitem hcmd, nxtItems_nil, List.append_nil] at hscan
      rw [hscan]
      exact hdone.blocks
  case h_3 ctx ref content =>
    split at h
    · rename_i blk hblk
      split_ifs at h with hguard
      obtain rfl := Option.some.inj h
      exact fun herror => (hr herror).included hblk hguard.1 content
    · cases h
  case h_4 ctx =>
    obtain rfl := Option.some.inj h
    exact fun herror => ⟨(hr herror).file, (hr herror).top⟩
  case h_5 ctx =>
    split_ifs at h
    obtain ⟨m, -, rfl⟩ := Option.map_eq_some_iff.mp h
    exact hr
  case h_6 => cases h

/-! ### Blocks without name -/

/-- The id of the block at a pointer. -/
def blockIdAt (files : List NxtFile) (ref : NxtBlockRef) : Option ℕ :=
  files[ref.file]?.bind fun file => file.blockIds[ref.blk]?

/-- No two blocks without name have the same id. -/
def AnonymousUnique (names : List (Option (List UInt8))) (files : List NxtFile) : Prop :=
  ∀ ref ref' id, blockIdAt files ref = some id → blockIdAt files ref' = some id →
    names[id]? = some none → ref = ref'

theorem blockIdAt_of_blockAt {files : List NxtFile} {ref : NxtBlockRef} {blk : NxtBlock}
    (h : blockAt files ref = some blk) : blockIdAt files ref = some blk.id := by
  obtain ⟨file, hfile, hblk⟩ := Option.bind_eq_some_iff.mp h
  simp [blockIdAt, hfile, NxtFile.blockIds, hblk]

theorem blockIdAt_set {files : List NxtFile} {i : ℕ} (hi : i < files.length) (file : NxtFile)
    (ref : NxtBlockRef) :
    blockIdAt (files.set i file) ref =
      if ref.file = i then file.blockIds[ref.blk]? else blockIdAt files ref := by
  unfold blockIdAt
  split_ifs with h
  · rw [h, List.getElem?_set_self hi, Option.bind_some]
  · rw [List.getElem?_set_ne (Ne.symm h)]

/-- The ids of the blocks of a parser are in range, and blocks without name have different ones. -/
structure NxtParse.Apart (p : NxtParse) : Prop where
  counted : p.Counted
  unique : AnonymousUnique p.ctx.names p.files

/-- The same block ids, the same names. -/
theorem NxtParse.Apart.congr {p p' : NxtParse} (hp : p.Apart)
    (hids : p'.file.blockIds = p.file.blockIds) (hctx : p'.ctx = p.ctx)
    (hindex : p'.index = p.index) : p'.Apart where
  counted := hp.counted.congr hids hctx hindex
  unique := by
    have hat : ∀ ref, blockIdAt p'.files ref = blockIdAt p.files ref := by
      intro ref
      rw [NxtParse.files, NxtParse.files, hctx, hindex, blockIdAt_set hp.counted.index_lt,
        blockIdAt_set hp.counted.index_lt, hids]
    intro ref ref' id href href' hnull
    rw [hat] at href href'
    rw [hctx] at hnull
    exact hp.unique ref ref' id href href' hnull

/-- An id that is in use is in range. -/
theorem NxtParse.Counted.lt_of_blockIdAt {p : NxtParse} (hp : p.Counted) {ref : NxtBlockRef}
    {id : ℕ} (h : blockIdAt p.files ref = some id) : id < p.ctx.names.length := by
  rw [NxtParse.files, blockIdAt_set hp.index_lt] at h
  apply hp.lt
  split_ifs at h
  · exact List.mem_append_left _ (List.mem_of_getElem? h)
  · obtain ⟨file, hfile, hid⟩ := Option.bind_eq_some_iff.mp h
    exact List.mem_append_right _
      (mem_filesBlockIds.mpr ⟨file, List.mem_of_getElem? hfile, List.mem_of_getElem? hid⟩)

/-- A new block without name has an id that no other block has. -/
theorem NxtParse.Apart.blockCreate {p : NxtParse} (hp : p.Apart) (name : Option (List UInt8)) :
    (p.blockCreate name).1.Apart where
  counted := hp.counted.blockCreate name
  unique := by
    have hi := hp.counted.index_lt
    have hnames := p.prefix_blockCreate name
    -- a block of the file is one that it had before, or the new one at the end
    have hold : ∀ ref id, blockIdAt (p.blockCreate name).1.files ref = some id →
        blockIdAt p.files ref = some id ∨ id = p.ctx.blockId name ∧
          ref = ⟨p.index, p.file.blockIds.length⟩ ∧ p.ctx.blockId name ∉ p.file.blockIds := by
      intro ref id h
      change blockIdAt (p.ctx.files.set p.index (p.blockCreate name).1.file) ref = some id at h
      rw [blockIdAt_set hi, p.blockCreate_blockIds] at h
      rw [NxtParse.files, blockIdAt_set hi]
      split_ifs at h ⊢ with hfile hmem
      · exact .inl h
      · rcases lt_or_ge ref.blk p.file.blockIds.length with hlt | hge
        · rw [List.getElem?_append_left hlt] at h
          exact .inl h
        · have hlt := (List.getElem?_eq_some_iff.mp h).1
          rw [List.length_append, List.length_singleton] at hlt
          have heq : ref.blk = p.file.blockIds.length := by omega
          rw [heq, List.getElem?_concat_length] at h
          refine .inr ⟨(Option.some.inj h).symm, ?_, hmem⟩
          rw [← hfile, ← heq]
      · exact .inl h
    -- an id in use is not handed out again without name
    have hused : ∀ ref, blockIdAt p.files ref = some (p.ctx.blockId name) →
        (p.blockCreate name).1.ctx.names[p.ctx.blockId name]? ≠ some none := by
      intro ref href hnull
      cases name with
      | none => exact lt_irrefl _ (hp.counted.lt_of_blockIdAt href)
      | some s =>
        obtain ⟨hmem, hid⟩ := p.mem_blockCreate s
        rw [hid, List.getElem?_idxOf hmem] at hnull
        cases hnull
    intro ref ref' id href href' hnull
    rcases hold ref id href with h | ⟨rfl, hplace, -⟩
    · rcases hold ref' id href' with h' | ⟨rfl, -, -⟩
      · refine hp.unique ref ref' id h h' ?_
        have hlt := hp.counted.lt_of_blockIdAt h
        have hget := getElem?_of_isPrefix hnames (List.getElem?_eq_getElem hlt)
        rw [List.getElem?_eq_getElem hlt, ← hget, hnull]
      · exact absurd hnull (hused ref h)
    · rcases hold ref' _ href' with h' | ⟨-, hplace', -⟩
      · exact absurd hnull (hused ref' h')
      · rw [hplace, hplace']

/-- A file that is created has no blocks. -/
theorem NxtParse.Apart.addParent {p : NxtParse} {new : NxtFile} (hp : p.Apart) (hnew : new.Fresh)
    (filesPending : ℤ) : (p.addParent new filesPending).Apart where
  counted := nxtStable_counted.addParent p new filesPending hnew hp.counted
  unique := by
    have hi := hp.counted.index_lt
    have hi' : p.index < (p.ctx.files ++ [new]).length := by
      rw [List.length_append]
      omega
    have hold : ∀ ref id, blockIdAt (p.addParent new filesPending).files ref = some id →
        blockIdAt p.files ref = some id := by
      intro ref id h
      change blockIdAt ((p.ctx.files ++ [new]).set p.index _) ref = some id at h
      rw [blockIdAt_set hi'] at h
      rw [NxtParse.files, blockIdAt_set hi]
      split_ifs at h ⊢
      · exact h
      · rcases lt_or_ge ref.file p.ctx.files.length with hlt | hge
        · rwa [blockIdAt, List.getElem?_append_left hlt] at h
        · obtain ⟨file, hfile, hid⟩ := Option.bind_eq_some_iff.mp h
          rw [List.getElem?_append_right hge] at hfile
          obtain rfl := List.mem_singleton.mp (List.mem_of_getElem? hfile)
          simp [NxtFile.blockIds, hnew.2.1] at hid
    exact fun ref ref' id href href' hnull =>
      hp.unique ref ref' id (hold ref id href) (hold ref' id href') hnull

theorem nxtStable_apart : NxtStable NxtParse.Apart where
  scan _ _ _ hp := hp.congr rfl rfl rfl
  move _ _ _ hp := hp.congr rfl rfl rfl
  append p _ _ hp := hp.congr (p.append_blockIds _ _) rfl rfl
  mark p blk hp := hp.congr (p.modifyBlock_blockIds blk fun _ => rfl) rfl rfl
  create _ name hp := hp.blockCreate name
  pend _ _ hp := ⟨⟨hp.counted.lt, hp.counted.index_lt⟩, hp.unique⟩
  addParent _ _ filesPending hnew hp := hp.addParent hnew filesPending

theorem nxtIncluded_blockIdAt (ctx : NxtContext) (ref : NxtBlockRef) (content : List UInt8)
    (ref' : NxtBlockRef) :
    blockIdAt (nxtIncluded ctx ref content).files ref' = blockIdAt ctx.files ref' := by
  have hids : (nxtIncluded ctx ref content).files.map NxtFile.blockIds =
      ctx.files.map NxtFile.blockIds := by
    rw [nxtIncluded, map_modify_of_eq]
    exact fun file => map_modify_of_eq (fun blk => nxtBlockAppendValue_id blk content 0) _ _
  have hmap : ∀ files : List NxtFile, blockIdAt files ref' =
      (files.map NxtFile.blockIds)[ref'.file]?.bind fun ids => ids[ref'.blk]? := by
    intro files
    rw [List.getElem?_map]
    cases hfile : files[ref'.file]? <;> simp [blockIdAt, hfile]
  rw [hmap, hmap, hids]

/-- Blocks without name have different ids in every run. -/
theorem nxtStep_anonymous {r r' : NxtRun} {e : NxtEvent} (hcounted : r.Counted)
    (hr : AnonymousUnique r.ctx.names r.files) (h : nxtStep r e = some r') :
    AnonymousUnique r'.ctx.names r'.files := by
  unfold nxtStep at h
  split at h
  case h_1 ctx index content =>
    split_ifs at h
    obtain ⟨p, hstart, rfl⟩ := Option.map_eq_some_iff.mp h
    refine (nxtParseStart_inv nxtStable_apart (fun file hfile => ?_) hstart).unique
    have hcounted' := hcounted.start hfile content
    refine ⟨hcounted', fun ref ref' id href href' hnull => ?_⟩
    have hat : ∀ ref, blockIdAt (ctx.files.set index { file with content := some content }) ref =
        blockIdAt ctx.files ref := by
      intro ref
      rw [blockIdAt_set hcounted'.index_lt]
      split_ifs with hi
      · rw [blockIdAt, hi, hfile]
        rfl
      · rfl
    rw [NxtParse.files, hat] at href href'
    exact hr ref ref' id href href' hnull
  case h_2 p load =>
    obtain ⟨o, hturn, rfl⟩ := Option.map_eq_some_iff.mp h
    have hp : p.Apart := ⟨⟨hcounted.lt, hcounted.index_lt p rfl⟩, hr⟩
    have ho := nxtParseStep_inv nxtStable_apart hp hturn
    cases o with
    | next p' => exact ho.unique
    | ret ctx code =>
      obtain ⟨p', error, hp', rfl⟩ := ho
      exact hp'.unique
  case h_3 ctx ref content =>
    split at h
    · split_ifs at h
      obtain rfl := Option.some.inj h
      intro ref₁ ref₂ id h₁ h₂ hnull
      exact hr ref₁ ref₂ id ((nxtIncluded_blockIdAt ctx ref content ref₁).symm.trans h₁)
        ((nxtIncluded_blockIdAt ctx ref content ref₂).symm.trans h₂) hnull
    · cases h
  case h_4 ctx =>
    obtain rfl := Option.some.inj h
    exact hr
  case h_5 ctx =>
    split_ifs at h
    obtain ⟨m, -, rfl⟩ := Option.map_eq_some_iff.mp h
    exact hr
  case h_6 => cases h

/-! ### Runs -/

/-- All that holds in every run. -/
structure NxtRun.Sound (r : NxtRun) : Prop where
  counted : r.Counted
  inTree : r.InTree
  anonymous : AnonymousUnique r.ctx.names r.files
  outlines : r.Matches

theorem sound_nxtInit (uri : List UInt8) : (nxtInit uri).Sound where
  counted := counted_nxtInit uri
  inTree := inTree_nxtInit uri
  anonymous _ _ _ _ _ hnull := by cases hnull
  outlines _ := by
    refine ⟨fun i file hfile => ?_, fun _ hname => by cases hname⟩
    cases i with
    | zero =>
      obtain rfl := Option.some.inj hfile
      rfl
    | succ i => cases hfile

theorem sound_of_run {uri : List UInt8} {es : List NxtEvent} {r : NxtRun}
    (hrun : run nxtStep (nxtInit uri) es = some r) : r.Sound :=
  run_inv (fun _ _ _ hr hstep => ⟨(nxtStep_growsBy hr.counted hstep).2,
    nxtStep_inTree hr.inTree hstep, nxtStep_anonymous hr.counted hr.anonymous hstep,
    nxtStep_matches hr.counted hr.outlines hstep⟩) (sound_nxtInit uri) hrun

end Nxweb
