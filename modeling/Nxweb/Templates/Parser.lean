import Nxweb.Templates.Scanner
import Nxweb.Uri.Path
import Nxweb.Lib.Modify

/-!
# Parsing templates

A template context collects the files of one page (`templates.c`). Parsing a file splits it into
blocks: the text between a `block` tag and its `endblock` tag belongs to the block named there, the
text outside of all of them to `_top_`. The value of a block is a list of parts. A part is a text,
and what is to be inserted after it: another block, the definition that this one overrides, or
nothing. Blocks are known by ids, which all files of the context share.

Model of `nxt_block_create`, `nxt_block_append_value`, `nxt_resolve_uri`, `nxt_file_create`,
`nxt_include`, `nxt_use` and `nxt_parse_file`. A file is known by its place among the files of the
context, in the order in which they were created, and a block by its place among those of its file.
The file that is being parsed is held apart and put back at the end: nothing else reaches it in
between. The loader only starts to load a file, and `load` says whether it can.

The table of block names has `NXT_MAX_BLOCKS` entries, which is not checked. Once an id behind its
end has been handed out, the table has been overrun, and nothing further is modeled.

## Main definitions

* `NxtContext`, `NxtFile`, `NxtBlock`, `NxtValuePart`: the records;
* `NxtParse`, `nxtExec`: the variables of `nxt_parse_file`, and what it does with a command;
* `nxtParseStep`, `nxtParseFile`: one turn of its loop, and all of it.
-/

namespace Nxweb

/-! ### The context -/

/-- `NXT_MAX_BLOCKS`. -/
def nxtMaxBlocks : ℕ := 2048

/-- `NXT_MAX_BLOCK_NESTING`. -/
def nxtMaxBlockNesting : ℕ := 64

/-- `NXT_MAX_INHERITANCE_LEVEL`. -/
def nxtMaxInheritanceLevel : ℕ := 32

/-- `BN_NONE_ID`. -/
def bnNoneId : ℤ := -1

/-- `BN_PARENT_ID`. -/
def bnParentId : ℤ := -2

/-- The name of the block that holds what is outside of all others. -/
def topName : List UInt8 := bytes "_top_"

/-- `nxt_value_part`. -/
structure NxtValuePart where
  text : List UInt8
  insertAfterTextId : ℤ
  deriving DecidableEq, Repr

/-- `nxt_block`. A null `value` is the empty list. -/
structure NxtBlock where
  id : ℕ
  clearOnAppend : Bool := false
  value : List NxtValuePart := []
  deriving DecidableEq, Repr

/-- `nxt_file`. `parents` are the places of the files it extends, and `content` is null until it is
parsed. -/
structure NxtFile where
  uri : List UInt8
  parents : List ℕ := []
  blocks : List NxtBlock := []
  content : Option (List UInt8) := none
  inheritanceLevel : ℕ := 0
  deriving DecidableEq, Repr

/-- `nxt_context`. `files` are the files created so far, the first one is `start_file`. `names` are
the names in the entries of `block_names` below `next_free_block_id`; that of an anonymous block is
null. -/
structure NxtContext where
  files : List NxtFile := []
  names : List (Option (List UInt8)) := []
  filesPending : ℤ := 0
  error : Bool := false
  deriving DecidableEq, Repr

/-! ### Blocks -/

/-- The id that `nxt_block_create` hands out for a name: the one it has, or the next free one. A
null name has no id. -/
def NxtContext.blockId (ctx : NxtContext) (name : Option (List UInt8)) : ℕ :=
  match name with
  | some name => ctx.names.idxOf (some name)
  | none => ctx.names.length

/-- `nxt_block_append_value`. -/
def nxtBlockAppendValue (blk : NxtBlock) (text : List UInt8) (insertAfterTextId : ℤ) : NxtBlock :=
  if blk.value ≠ [] ∧ ¬ blk.clearOnAppend then
    { blk with value := blk.value ++ [{ text, insertAfterTextId }] }
  else { blk with value := [{ text, insertAfterTextId }], clearOnAppend := false }

/-- The variables of `nxt_parse_file`, with the context and the file, which is the one at `index`.
`blockStack` has its top first. -/
structure NxtParse where
  ctx : NxtContext
  index : ℕ
  file : NxtFile
  rest : List UInt8
  rawMode : Bool := false
  curBlock : ℕ := 0
  blockStack : List ℕ := []
  deriving DecidableEq, Repr

/-- `nxt_block_create`: the block of the file that has the id, which may be a new one. -/
def NxtParse.blockCreate (p : NxtParse) (name : Option (List UInt8)) : NxtParse × ℕ :=
  let id := p.ctx.blockId name
  let names := if id = p.ctx.names.length then p.ctx.names ++ [name] else p.ctx.names
  let blk := p.file.blocks.findIdx fun blk => blk.id = id
  let blocks :=
    if blk = p.file.blocks.length then p.file.blocks ++ [{ id : NxtBlock }] else p.file.blocks
  ({ p with ctx := { p.ctx with names }, file := { p.file with blocks } }, blk)

/-- A block of the file is changed. -/
def NxtParse.modifyBlock (p : NxtParse) (blk : ℕ) (f : NxtBlock → NxtBlock) : NxtParse :=
  { p with file := { p.file with blocks := p.file.blocks.modify blk f } }

/-- A part is appended to the value of the current block. -/
def NxtParse.append (p : NxtParse) (text : List UInt8) (insertAfterTextId : ℤ) : NxtParse :=
  p.modifyBlock p.curBlock fun blk => nxtBlockAppendValue blk text insertAfterTextId

/-- The text in front of a tag that inserts nothing is appended if there is one. -/
def NxtParse.appendText (p : NxtParse) (text : List UInt8) : NxtParse :=
  if text ≠ [] then p.append text bnNoneId else p

/-! ### Other files -/

/-- `nxt_resolve_uri`, `some none` if the path is invalid, `none` if its assertion fails. -/
def nxtResolveUri (curUri newUri : List UInt8) : Option (Option (List UInt8)) :=
  if newUri.head? = some slash then some (some newUri)
  else if curUri.head? ≠ some slash then none
  else
    -- up to the last slash before the query
    let base := (curUri.takeWhile (· ≠ 63)).rdropWhile (· ≠ slash)
    (removeDotsFromUriPath (base ++ newUri ++ [0])).map fun (code, buf) =>
      if code = 0 then some (Lib.cstr buf) else none

/-- `nxt_file_create`. -/
def nxtFileCreate (ctx : NxtContext) (uri : List UInt8) : NxtContext :=
  { ctx with
    files := ctx.files ++ [{ uri }]
    filesPending := if ctx.files = [] then ctx.filesPending + 1 else ctx.filesPending }

/-- `nxt_include`: the block for the included file and its id, `some (p, none)` if there is none. -/
def nxtInclude (load : List UInt8 → Bool) (p : NxtParse) (newUri : List UInt8) :
    Option (NxtParse × Option ℕ) :=
  (nxtResolveUri p.file.uri newUri).map fun uri? =>
    match uri? with
    | none => (p, none)
    | some uri =>
      let id := p.ctx.blockId none
      let p := (p.blockCreate none).1
      if load uri then
        ({ p with ctx := { p.ctx with filesPending := p.ctx.filesPending + 1 } }, some id)
      else (p, none)

/-- A file that the one being parsed extends is added behind the others. -/
def NxtParse.addParent (p : NxtParse) (new : NxtFile) (filesPending : ℤ) : NxtParse :=
  { p with
    ctx := { p.ctx with files := p.ctx.files ++ [new], filesPending }
    file := { p.file with parents := p.file.parents ++ [p.ctx.files.length] } }

/-- `nxt_use`, with whether it succeeds. -/
def nxtUse (load : List UInt8 → Bool) (p : NxtParse) (newUri : List UInt8) :
    Option (NxtParse × Bool) :=
  (nxtResolveUri p.file.uri newUri).map fun uri? =>
    match uri? with
    | none => (p, false)
    | some uri =>
      if nxtMaxInheritanceLevel ≤ p.file.inheritanceLevel then (p, false)
      else
        let new := { uri, inheritanceLevel := p.file.inheritanceLevel + 1 : NxtFile }
        let pending := if load uri then p.ctx.filesPending + 1 else p.ctx.filesPending
        (p.addParent new pending, load uri)

/-- The loop over the arguments of a `use` tag. It ends at a null pair. -/
def nxtUseArgs (load : List UInt8 → Bool) (args : NxtArgs) (p : NxtParse) :
    Option (NxtParse × Bool) :=
  match args with
  | some arg :: args =>
    match nxtUse load p (Lib.cstr arg) with
    | none => none
    | some (p, true) => nxtUseArgs load args p
    | some (p, false) => some (p, false)
  | _ => some (p, true)

/-! ### The parser -/

/-- What a turn of the loop of `nxt_parse_file` leads to: the next turn, or its return. -/
inductive NxtOutcome where
  | next (p : NxtParse)
  | ret (ctx : NxtContext) (code : ℤ)
  deriving DecidableEq, Repr

/-- The context when `nxt_parse_file` returns. -/
def NxtParse.finish (p : NxtParse) (error : Bool) : NxtContext :=
  { p.ctx with
    files := p.ctx.files.set p.index p.file
    filesPending := p.ctx.filesPending - 1
    error := p.ctx.error || error }

/-- The label `ERROR`. -/
def NxtParse.fail (p : NxtParse) : NxtOutcome := .ret (p.finish true) (-1)

/-- What `nxt_parse_file` does with a command. It has no case for an `endraw` tag outside of a raw
section, and drops the text in front of it. -/
def nxtExec (load : List UInt8 → Bool) (item : NxtItem) (p : NxtParse) : Option NxtOutcome :=
  match item.cmd with
  | .eof => some (if p.blockStack ≠ [] then p.fail else .ret (p.finish false) 0)
  | .none => some (.next (p.appendText item.text))
  | .block =>
    match item.args.str 0 with
    | none => some p.fail
    | some name =>
      if nxtMaxBlockNesting - 1 ≤ p.blockStack.length then some p.fail
      else
        let id := p.ctx.blockId (some name)
        let (p, new) := p.blockCreate (some name)
        let p := (p.append item.text id).modifyBlock new fun blk => { blk with clearOnAppend := true }
        some (.next { p with curBlock := new, blockStack := p.curBlock :: p.blockStack })
  | .endblock =>
    let p := p.appendText item.text
    match p.blockStack with
    | [] => some p.fail
    | blk :: stack => some (.next { p with curBlock := blk, blockStack := stack })
  | .use =>
    (nxtUseArgs load item.args (p.appendText item.text)).map fun (p, ok) =>
      if ok then .next p else p.fail
  | .includeFile =>
    match item.args.str 0 with
    | none => some p.fail
    | some uri =>
      (nxtInclude load p uri).map fun (p, id?) =>
        match id? with
        | none => p.fail
        | some id => .next (p.append item.text id)
  | .includeParent => some (.next (p.append item.text bnParentId))
  | .raw | .endraw => some (.next p)

/-- One turn of the loop of `nxt_parse_file`. -/
def nxtParseStep (load : List UInt8 → Bool) (p : NxtParse) : Option NxtOutcome :=
  if nxtMaxBlocks < p.ctx.names.length then none
  else
    (nxtGetNextCmd p.rawMode p.rest).bind fun item =>
      nxtExec load item { p with rawMode := item.rawMode, rest := item.rest }

/-- `nxt_parse_file` up to its loop, for the file at `index`. -/
def nxtParseStart (ctx : NxtContext) (index : ℕ) (content : List UInt8) : Option NxtParse :=
  ctx.files[index]?.map fun file =>
    let p : NxtParse :=
      { ctx, index, file := { file with content := some content }, rest := content }
    let (p, top) := p.blockCreate (some topName)
    { p with curBlock := top }

/-- The loop, at most `fuel` turns of it. -/
def nxtParseLoop (load : List UInt8 → Bool) (fuel : ℕ) (p : NxtParse) : Option (NxtContext × ℤ) :=
  match fuel with
  | 0 => none
  | fuel + 1 =>
    match nxtParseStep load p with
    | none => none
    | some (.next p) => nxtParseLoop load fuel p
    | some (.ret ctx code) => some (ctx, code)

/-- `nxt_parse_file`. Every turn but the last takes something of the content. -/
def nxtParseFile (load : List UInt8 → Bool) (ctx : NxtContext) (index : ℕ)
    (content : List UInt8) : Option (NxtContext × ℤ) :=
  (nxtParseStart ctx index content).bind (nxtParseLoop load (content.length + 1))

/-- `nxt_parse`. -/
def nxtParse (load : List UInt8 → Bool) (ctx : NxtContext) (uri content : List UInt8) :
    Option (NxtContext × ℤ) :=
  nxtParseFile load (nxtFileCreate ctx uri) ctx.files.length content

/-! ### What the operations change -/

/-- The ids of the blocks of a file. -/
def NxtFile.blockIds (file : NxtFile) : List ℕ := file.blocks.map (·.id)

@[simp]
theorem nxtBlockAppendValue_id (blk : NxtBlock) (text : List UInt8) (id : ℤ) :
    (nxtBlockAppendValue blk text id).id = blk.id := by
  unfold nxtBlockAppendValue
  split <;> rfl

namespace NxtParse

variable (p : NxtParse)

@[simp]
theorem modifyBlock_ctx (blk : ℕ) (f : NxtBlock → NxtBlock) :
    (p.modifyBlock blk f).ctx = p.ctx := rfl

@[simp]
theorem modifyBlock_blockStack (blk : ℕ) (f : NxtBlock → NxtBlock) :
    (p.modifyBlock blk f).blockStack = p.blockStack := rfl

@[simp]
theorem modifyBlock_index (blk : ℕ) (f : NxtBlock → NxtBlock) :
    (p.modifyBlock blk f).index = p.index := rfl

/-- A change that keeps the id of a block keeps those of all blocks. -/
theorem modifyBlock_blockIds (blk : ℕ) {f : NxtBlock → NxtBlock} (hf : ∀ b, (f b).id = b.id) :
    (p.modifyBlock blk f).file.blockIds = p.file.blockIds :=
  Lib.map_modify_of_eq hf p.file.blocks blk

@[simp]
theorem append_ctx (text : List UInt8) (id : ℤ) : (p.append text id).ctx = p.ctx := rfl

@[simp]
theorem append_blockStack (text : List UInt8) (id : ℤ) :
    (p.append text id).blockStack = p.blockStack := rfl

@[simp]
theorem append_index (text : List UInt8) (id : ℤ) : (p.append text id).index = p.index := rfl

@[simp]
theorem append_blockIds (text : List UInt8) (id : ℤ) :
    (p.append text id).file.blockIds = p.file.blockIds :=
  p.modifyBlock_blockIds _ fun b => nxtBlockAppendValue_id b text id

@[simp]
theorem appendText_ctx (text : List UInt8) : (p.appendText text).ctx = p.ctx := by
  unfold appendText
  split <;> rfl

@[simp]
theorem appendText_blockStack (text : List UInt8) :
    (p.appendText text).blockStack = p.blockStack := by
  unfold appendText
  split <;> rfl

@[simp]
theorem blockCreate_index (name : Option (List UInt8)) :
    (p.blockCreate name).1.index = p.index := rfl

@[simp]
theorem blockCreate_blockStack (name : Option (List UInt8)) :
    (p.blockCreate name).1.blockStack = p.blockStack := rfl

@[simp]
theorem blockCreate_files (name : Option (List UInt8)) :
    (p.blockCreate name).1.ctx.files = p.ctx.files := rfl

/-- A new id is given the next entry of the table. -/
theorem blockCreate_names (name : Option (List UInt8)) :
    (p.blockCreate name).1.ctx.names =
      if p.ctx.blockId name = p.ctx.names.length then p.ctx.names ++ [name] else p.ctx.names := rfl

/-- The block that is returned has the id, and it is a new one if the file had none. -/
theorem blockCreate_blockIds (name : Option (List UInt8)) :
    (p.blockCreate name).1.file.blockIds =
      if p.ctx.blockId name ∈ p.file.blockIds then p.file.blockIds
      else p.file.blockIds ++ [p.ctx.blockId name] := by
  have hmem : p.file.blocks.findIdx (fun blk => blk.id = p.ctx.blockId name) =
      p.file.blocks.length ↔ p.ctx.blockId name ∉ p.file.blockIds := by
    simp [List.findIdx_eq_length, NxtFile.blockIds]
  by_cases h : p.ctx.blockId name ∈ p.file.blockIds
  · simp [blockCreate, hmem, h]
  · rw [if_neg h, blockCreate]
    simp only [if_pos (hmem.mpr h)]
    simp [NxtFile.blockIds]

end NxtParse

/-- Only a null name and a name that is not in the table get a new id. -/
theorem NxtContext.blockId_eq_length {ctx : NxtContext} {name : Option (List UInt8)} :
    ctx.blockId name = ctx.names.length ↔ ∀ s, name = some s → some s ∉ ctx.names := by
  cases name with
  | none => simp [blockId]
  | some s => simp [blockId, List.idxOf_eq_length_iff]

theorem NxtContext.blockId_le (ctx : NxtContext) (name : Option (List UInt8)) :
    ctx.blockId name ≤ ctx.names.length := by
  cases name with
  | none => exact le_rfl
  | some s => exact List.idxOf_le_length

/-! ### Properties that a turn keeps -/

/-- A file as it is created: it has not been parsed. -/
def NxtFile.Fresh (file : NxtFile) : Prop :=
  file.parents = [] ∧ file.blocks = [] ∧ file.content = none

/-- Properties that all operations keep of which a command is made. -/
structure NxtExecStable (I : NxtParse → Prop) : Prop where
  move : ∀ p curBlock blockStack, I p → I { p with curBlock, blockStack }
  append : ∀ p text id, I p → I (p.append text id)
  mark : ∀ p blk, I p → I (p.modifyBlock blk fun b => { b with clearOnAppend := true })
  create : ∀ p name, I p → I (p.blockCreate name).1
  pend : ∀ p : NxtParse, ∀ filesPending, I p → I { p with ctx := { p.ctx with filesPending } }
  addParent : ∀ p new filesPending, NxtFile.Fresh new → I p → I (p.addParent new filesPending)

/-- Properties that are also kept when a command is read. -/
structure NxtStable (I : NxtParse → Prop) : Prop extends NxtExecStable I where
  scan : ∀ p rest rawMode, I p → I { p with rest, rawMode }

variable {load : List UInt8 → Bool} {I : NxtParse → Prop}

/-- `nxt_use` creates at most one file. -/
theorem nxtUse_inv (hadd : ∀ p new filesPending, NxtFile.Fresh new → I p →
    I (p.addParent new filesPending)) {p p' : NxtParse} {uri : List UInt8} {ok : Bool} (hp : I p)
    (h : nxtUse load p uri = some (p', ok)) : I p' := by
  obtain ⟨uri?, -, h⟩ := Option.map_eq_some_iff.mp h
  cases uri? with
  | none =>
    obtain ⟨rfl, -⟩ := Prod.mk.inj h
    exact hp
  | some uri =>
    simp only at h
    split_ifs at h
    · obtain ⟨rfl, -⟩ := Prod.mk.inj h
      exact hp
    all_goals
      obtain ⟨rfl, -⟩ := Prod.mk.inj h
      exact hadd _ _ _ ⟨rfl, rfl, rfl⟩ hp

theorem nxtUseArgs_inv (hadd : ∀ p new filesPending, NxtFile.Fresh new → I p →
    I (p.addParent new filesPending)) {args : NxtArgs} {p p' : NxtParse} {ok : Bool} (hp : I p)
    (h : nxtUseArgs load args p = some (p', ok)) : I p' := by
  induction args generalizing p with
  | nil =>
    obtain ⟨rfl, -⟩ : p = p' ∧ _ := by simpa [nxtUseArgs] using h
    exact hp
  | cons arg args ih =>
    cases arg with
    | none =>
      obtain ⟨rfl, -⟩ : p = p' ∧ _ := by simpa [nxtUseArgs] using h
      exact hp
    | some arg =>
      simp only [nxtUseArgs] at h
      split at h
      · cases h
      · rename_i p₁ huse
        exact ih (nxtUse_inv hadd hp huse) h
      · rename_i p₁ huse
        obtain ⟨rfl, -⟩ := Prod.mk.inj (Option.some.inj h)
        exact nxtUse_inv hadd hp huse

/-- The property holds when the turn ends, or held when the parser returned. -/
def NxtOutcome.Holds (I : NxtParse → Prop) : NxtOutcome → Prop
  | .next p => I p
  | .ret ctx _ => ∃ p error, I p ∧ ctx = p.finish error

theorem NxtExecStable.appendText (hI : NxtExecStable I) {p : NxtParse} (text : List UInt8) (hp : I p) :
    I (p.appendText text) := by
  unfold NxtParse.appendText
  split
  · exact hI.append _ _ _ hp
  · exact hp

/-- A failing parser has kept the property. -/
theorem NxtOutcome.holds_fail {p : NxtParse} (hp : I p) : p.fail.Holds I := ⟨p, true, hp, rfl⟩

/-- Every command keeps what all operations keep. -/
theorem nxtExec_inv (hI : NxtExecStable I) {item : NxtItem} {p : NxtParse} {o : NxtOutcome} (hp : I p)
    (h : nxtExec load item p = some o) : o.Holds I := by
  unfold nxtExec at h
  cases hcmd : item.cmd <;> simp only [hcmd] at h
  case eof =>
    obtain rfl := Option.some.inj h
    split
    · exact NxtOutcome.holds_fail hp
    · exact ⟨p, false, hp, rfl⟩
  case none =>
    obtain rfl := Option.some.inj h
    exact hI.appendText _ hp
  case raw | endraw =>
    obtain rfl := Option.some.inj h
    exact hp
  case block =>
    split at h
    · obtain rfl := Option.some.inj h
      exact NxtOutcome.holds_fail hp
    · split_ifs at h
      · obtain rfl := Option.some.inj h
        exact NxtOutcome.holds_fail hp
      · obtain rfl := Option.some.inj h
        exact hI.move _ _ _ (hI.mark _ _ (hI.append _ _ _ (hI.create _ _ hp)))
  case endblock =>
    have hp' := hI.appendText item.text hp
    split at h
    · obtain rfl := Option.some.inj h
      exact NxtOutcome.holds_fail hp'
    · obtain rfl := Option.some.inj h
      exact hI.move _ _ _ hp'
  case use =>
    obtain ⟨⟨p', ok⟩, huse, rfl⟩ := Option.map_eq_some_iff.mp h
    have hp' := nxtUseArgs_inv hI.addParent (hI.appendText item.text hp) huse
    cases ok
    · exact NxtOutcome.holds_fail hp'
    · exact hp'
  case includeFile =>
    split at h
    · obtain rfl := Option.some.inj h
      exact NxtOutcome.holds_fail hp
    · obtain ⟨⟨p', id?⟩, hinclude, rfl⟩ := Option.map_eq_some_iff.mp h
      have hp' : I p' := by
        obtain ⟨uri?, -, hinclude⟩ := Option.map_eq_some_iff.mp hinclude
        cases uri? with
        | none =>
          obtain ⟨rfl, -⟩ := Prod.mk.inj hinclude
          exact hp
        | some uri =>
          simp only at hinclude
          split_ifs at hinclude <;> obtain ⟨rfl, -⟩ := Prod.mk.inj hinclude
          · exact hI.pend _ _ (hI.create _ _ hp)
          · exact hI.create _ _ hp
      cases id? with
      | none => exact NxtOutcome.holds_fail hp'
      | some id => exact hI.append _ _ _ hp'
  case includeParent =>
    obtain rfl := Option.some.inj h
    exact hI.append _ _ _ hp

/-- A turn of the parser keeps what all operations keep. -/
theorem nxtParseStep_inv (hI : NxtStable I) {p : NxtParse} {o : NxtOutcome} (hp : I p)
    (h : nxtParseStep load p = some o) : o.Holds I := by
  simp only [nxtParseStep] at h
  split_ifs at h
  obtain ⟨item, -, hexec⟩ := Option.bind_eq_some_iff.mp h
  exact nxtExec_inv hI.toNxtExecStable (hI.scan _ _ _ hp) hexec

/-- A command is carried out at one place of one file. -/
theorem nxtExec_next {item : NxtItem} {p p' : NxtParse}
    (h : nxtExec load item p = some (.next p')) :
    p'.index = p.index ∧ p'.rest = p.rest ∧ p'.rawMode = p.rawMode ∧
      p'.file.content = p.file.content ∧ p'.ctx.error = p.ctx.error := by
  let I (q : NxtParse) : Prop := q.index = p.index ∧ q.rest = p.rest ∧ q.rawMode = p.rawMode ∧
    q.file.content = p.file.content ∧ q.ctx.error = p.ctx.error
  have hI : NxtExecStable I :=
    ⟨fun _ _ _ h => h, fun _ _ _ h => h, fun _ _ h => h, fun _ _ h => h, fun _ _ h => h,
      fun _ _ _ _ h => h⟩
  exact nxtExec_inv hI (p := p) ⟨rfl, rfl, rfl, rfl, rfl⟩ h

/-- A call of the parser begins with what all operations keep. -/
theorem nxtParseStart_inv (hI : NxtStable I) {ctx : NxtContext} {index : ℕ}
    {content : List UInt8} {p : NxtParse}
    (hp : ∀ file, ctx.files[index]? = some file →
      I { ctx, index, file := { file with content := some content }, rest := content })
    (h : nxtParseStart ctx index content = some p) : I p := by
  obtain ⟨file, hfile, rfl⟩ := Option.map_eq_some_iff.mp h
  exact hI.move _ _ _ (hI.create _ _ (hp file hfile))

end Nxweb
