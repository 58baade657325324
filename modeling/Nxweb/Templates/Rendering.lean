import Nxweb.Templates.Parser
import Nxweb.Lib.Machine

/-!
# Merging and rendering templates

When all files have been loaded, `nxt_merge` makes one page of them. It goes through the files, those
that a file extends before the file itself, and makes each block that has a value the definition of
its id. The definition it overrides becomes its `parent`. `nxt_serialize` and `nxt_serialize_to_cs`
then write the block `_top_`, and with it whatever its parts insert.

The fields that are assigned on merge are kept apart from the records: `block` of an entry of
`block_names`, and `parent` of a block. A block is referred to by the places of its file and of
itself. The recursion of `nxt_serialize_block` is bounded by `fuel`.

`nxtStep` is the machine of all that happens to a context: `nxt_parse_file` is called and runs to its
end, an included file arrives, an expected one does not, and at last the files are merged.

## Main definitions

* `nxtMerge`, `nxtSerialize`, `nxtSerializeToCs`: the two phases after parsing;
* `NxtRun`, `NxtEvent`, `nxtStep`: the machine.
-/

namespace Nxweb

/-! ### Merging -/

/-- A pointer to a block. -/
structure NxtBlockRef where
  file : ℕ
  blk : ℕ
  deriving DecidableEq, Repr

/-- What `nxt_merge` assigns: `block` of the entries of `block_names`, and `parent` of the blocks. -/
structure NxtMerged where
  block : ℕ → Option NxtBlockRef := fun _ => none
  parent : NxtBlockRef → Option NxtBlockRef := fun _ => none

/-- `nxt_is_top_block_empty`. -/
def nxtIsTopBlockEmpty (blk : NxtBlock) : Bool :=
  blk.value.all fun vp => vp.text.all fun c => ¬ isGraph c

/-- Whether a block becomes a definition: a placeholder without value does not, and neither does a
top block that is blank. -/
def NxtBlock.defines (blk : NxtBlock) : Bool :=
  blk.value ≠ [] ∧ ¬ (blk.id = 0 ∧ nxtIsTopBlockEmpty blk)

/-- The body of the loop over the blocks of a file in `nxt_merge_file`. -/
def nxtMergeBlock (m : NxtMerged) (ref : NxtBlockRef) (blk : NxtBlock) : NxtMerged :=
  if blk.defines then
    { block := Function.update m.block blk.id (some ref)
      parent := Function.update m.parent ref (m.block blk.id) }
  else m

/-- The blocks of the file at `i`, with pointers to them. -/
def NxtFile.blockRefs (file : NxtFile) (i : ℕ) : List (NxtBlockRef × NxtBlock) :=
  file.blocks.zipIdx.map fun (blk, j) => (⟨i, j⟩, blk)

/-- `nxt_merge_file`. -/
def nxtMergeFile (files : List NxtFile) (fuel i : ℕ) (m : NxtMerged) : Option NxtMerged :=
  match fuel with
  | 0 => none
  | fuel + 1 =>
    files[i]?.bind fun file =>
      (file.parents.foldlM (fun m parent => nxtMergeFile files fuel parent m) m).map fun m =>
        (file.blockRefs i).foldl (fun m (ref, blk) => nxtMergeBlock m ref blk) m

/-- `nxt_merge`. A file is created after the one that extends it, so the files that are being merged
at one time are different ones. -/
def nxtMerge (ctx : NxtContext) : Option NxtMerged :=
  if nxtMaxBlocks < ctx.names.length then none
  else if ctx.error then some {}
  else nxtMergeFile ctx.files ctx.files.length 0 {}

/-! ### Rendering -/

/-- The block at a pointer. -/
def blockAt (files : List NxtFile) (ref : NxtBlockRef) : Option NxtBlock :=
  files[ref.file]?.bind fun file => file.blocks[ref.blk]?

/-- `nxt_serialize_block` and `nxt_serialize_block_to_cs`: the texts that are appended, to the stream
of the arena or as nodes of the composite stream. A missing block is replaced by an empty stub. -/
def nxtSerializeBlock (files : List NxtFile) (m : NxtMerged) (fuel : ℕ)
    (ref? : Option NxtBlockRef) : Option (List (List UInt8)) :=
  match fuel, ref? with
  | _, none => some []
  | 0, some _ => none
  | fuel + 1, some ref =>
    (blockAt files ref).bind fun blk =>
      (blk.value.mapM fun vp =>
        let inserted :=
          if 0 < vp.insertAfterTextId then
            nxtSerializeBlock files m fuel (m.block vp.insertAfterTextId.toNat)
          else if vp.insertAfterTextId = bnParentId then
            nxtSerializeBlock files m fuel (m.parent ref)
          else some []
        inserted.map fun texts => if vp.text ≠ [] then vp.text :: texts else texts).map List.flatten

/-- What is written in place of a page with an error. -/
def nxtErrorText : List UInt8 := bytes "<!--[template error; check error log]-->"

/-- `nxt_serialize`: the stream is ended by a zero. -/
def nxtSerialize (ctx : NxtContext) (m : NxtMerged) (fuel : ℕ) : Option (List UInt8) :=
  if ctx.error then some (nxtErrorText ++ [0])
  else
    (nxtSerializeBlock ctx.files m fuel (m.block 0)).map fun texts => texts.flatten ++ [0]

/-- `nxt_serialize_to_cs`: the nodes of the composite stream. -/
def nxtSerializeToCs (ctx : NxtContext) (m : NxtMerged) (fuel : ℕ) :
    Option (List (List UInt8)) :=
  if ctx.error then some [nxtErrorText] else nxtSerializeBlock ctx.files m fuel (m.block 0)

/-! ### The machine -/

/-- A context between two calls, inside of `nxt_parse_file`, or merged. -/
inductive NxtRun where
  | idle (ctx : NxtContext)
  | parsing (p : NxtParse)
  | merged (ctx : NxtContext) (m : NxtMerged)

/-- What happens to a context. `parseFile` is a call of `nxt_parse_file` for the file at `index`, and
`turn` a turn of its loop. `included` is the end of a file that the block at `ref` includes, and
`missing` that of one that could not be loaded. -/
inductive NxtEvent where
  | parseFile (index : ℕ) (content : List UInt8)
  | turn (load : List UInt8 → Bool)
  | included (ref : NxtBlockRef) (content : List UInt8)
  | missing
  | merge

/-- An included file is complete: its content is appended to the block that includes it. -/
def nxtIncluded (ctx : NxtContext) (ref : NxtBlockRef) (content : List UInt8) : NxtContext :=
  { ctx with
    files := ctx.files.modify ref.file fun file =>
      { file with blocks := file.blocks.modify ref.blk fun blk => nxtBlockAppendValue blk content 0 }
    filesPending := ctx.filesPending - 1 }

/-- The state in which an outcome of a turn leaves the machine. -/
def NxtOutcome.run : NxtOutcome → NxtRun
  | .next p => .parsing p
  | .ret ctx _ => .idle ctx

/-- One event. A file is parsed once. A block that includes a file is anonymous, and its file arrives
once. -/
def nxtStep (r : NxtRun) (e : NxtEvent) : Option NxtRun :=
  match r, e with
  | .idle ctx, .parseFile index content =>
    if ctx.files[index]?.any (·.content = none) ∧ ctx.names.length ≤ nxtMaxBlocks then
      (nxtParseStart ctx index content).map .parsing
    else none
  | .parsing p, .turn load => (nxtParseStep load p).map NxtOutcome.run
  | .idle ctx, .included ref content =>
    match blockAt ctx.files ref with
    | some blk =>
      if ctx.names[blk.id]? = some none ∧ blk.value = [] then
        some (.idle (nxtIncluded ctx ref content))
      else none
    | none => none
  | .idle ctx, .missing => some (.idle { ctx with filesPending := ctx.filesPending - 1 })
  | .idle ctx, .merge =>
    if ctx.filesPending = 0 then (nxtMerge ctx).map (.merged ctx) else none
  | _, _ => none

/-- The context when the filter is applied: the file itself is the first one. -/
def nxtInit (uri : List UInt8) : NxtRun := .idle (nxtFileCreate {} uri)

end Nxweb
