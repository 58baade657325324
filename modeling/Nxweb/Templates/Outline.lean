import Nxweb.Templates.Parser

/-!
# What a template says

The meaning of templates by the names of their blocks, without ids, pointers and merging.

An `Outline` is what reading the tags of one file from left to right tells about it: the blocks it
mentions, and the parts, each with the block that is open around it. The parts of a name make its
definition in that file. A `Template` has the definitions of each name in all files, and `Renders`
says what text a list of them stands for: the first one is rendered, and the others are what its
`parent` tags refer to.

## Main definitions

* `scanFile`: the tags of a file;
* `Outline`, `outline`: what they tell;
* `Template`, `Renders`: what the definitions of all files stand for.
-/

namespace Nxweb

/-! ### The tags of a file -/

/-- The commands that follow, at most `fuel` of them. -/
def nxtItems (fuel : ℕ) (rawMode : Bool) (rest : List UInt8) : List NxtItem :=
  match fuel with
  | 0 => []
  | fuel + 1 =>
    match nxtGetNextCmd rawMode rest with
    | none => []
    | some item => if item.cmd = .eof then [] else item :: nxtItems fuel item.rawMode item.rest

/-- The commands of a file. Each takes something of the content. -/
def scanFile (content : List UInt8) : List NxtItem := nxtItems content.length false content

/-! ### Outlines -/

/-- What a part inserts behind its text: a block, the definition that is overridden, or what is
included by the tag that makes the `blk`-th block of the file `file`. -/
inductive TemplateInsert where
  | nothing
  | block (name : List UInt8)
  | parent
  | included (file blk : ℕ)
  deriving DecidableEq, Repr

/-- A part of a definition. -/
structure TemplatePart where
  text : List UInt8
  insert : TemplateInsert
  deriving DecidableEq, Repr

/-- What the tags of a file tell. `scopes` are the names of the open blocks, the innermost one first,
`blocks` the blocks in the order in which they are mentioned (one that includes a file has no name),
and `parts` the parts, each with the name of the block that it belongs to. -/
structure Outline where
  scopes : List (List UInt8) := [topName]
  blocks : List (Option (List UInt8)) := [some topName]
  parts : List (List UInt8 × TemplatePart) := []
  deriving DecidableEq, Repr

namespace Outline

/-- The innermost open block. -/
def current (o : Outline) : List UInt8 := o.scopes.headD topName

/-- A part of the innermost block. -/
def addPart (o : Outline) (text : List UInt8) (insert : TemplateInsert) : Outline :=
  { o with parts := o.parts ++ [(o.current, { text, insert })] }

/-- A text that stands alone is a part if it is not empty. -/
def addText (o : Outline) (text : List UInt8) : Outline :=
  if text ≠ [] then o.addPart text .nothing else o

/-- What the next command of the file at `i` tells. -/
def add (i : ℕ) (o : Outline) (item : NxtItem) : Outline :=
  match item.cmd with
  | .none | .use => o.addText item.text
  | .block =>
    match item.args.str 0 with
    | none => o
    | some name =>
      let o := o.addPart item.text (.block name)
      { o with scopes := name :: o.scopes, blocks := o.blocks ++ [some name] }
  | .endblock =>
    let o := o.addText item.text
    { o with scopes := o.scopes.tail }
  | .includeFile =>
    let o := o.addPart item.text (.included i o.blocks.length)
    { o with blocks := o.blocks ++ [none] }
  | .includeParent => o.addPart item.text .parent
  | .eof | .raw | .endraw => o

end Outline

/-- What a file at `i` with these commands tells. -/
def outline (i : ℕ) (items : List NxtItem) : Outline := items.foldl (Outline.add i) {}

/-- The parts of a name. -/
def partsOf (name : List UInt8) (parts : List (List UInt8 × TemplatePart)) : List TemplatePart :=
  (parts.filter (·.1 = name)).map Prod.snd

/-- The name in a `block` tag. -/
def NxtItem.blockName (item : NxtItem) : Option (List UInt8) :=
  if item.cmd = .block then item.args.str 0 else none

/-- The block names of a file are distinct, and different from `_top_`. -/
def DistinctBlocks (content : List UInt8) : Prop :=
  (topName :: (scanFile content).filterMap NxtItem.blockName).Nodup

/-! ### Templates -/

/-- Whether parts give a name a value. For the top block a text has to have a byte that is not
blank. -/
def GivesValue (name : List UInt8) (parts : List TemplatePart) : Prop :=
  parts ≠ [] ∧ (name = topName → ∃ part ∈ parts, ∃ c ∈ part.text, isGraph c)

instance (name : List UInt8) (parts : List TemplatePart) : Decidable (GivesValue name parts) :=
  inferInstanceAs (Decidable (_ ∧ _))

/-- The definition of a name in the file at `i`. -/
def definitionIn (content : List UInt8) (i : ℕ) (name : List UInt8) : Option (List TemplatePart) :=
  let parts := partsOf name (outline i (scanFile content)).parts
  if GivesValue name parts then some parts else none

/-- The definitions of each name, the last one first, and the contents that are included. -/
structure Template where
  chain : List UInt8 → List (List TemplatePart)
  included : ℕ → ℕ → List UInt8

/-- The text that a list of definitions stands for: the first one is rendered, the others are the
definitions it overrides. -/
inductive Renders (tpl : Template) : List (List TemplatePart) → List UInt8 → Prop
  | missing : Renders tpl [] []
  | done {earlier : List (List TemplatePart)} : Renders tpl ([] :: earlier) []
  | text {text rest : List UInt8} {parts : List TemplatePart}
      {earlier : List (List TemplatePart)} :
      Renders tpl (parts :: earlier) rest →
      Renders tpl (({ text, insert := .nothing } :: parts) :: earlier) (text ++ rest)
  | block {text name inserted rest : List UInt8} {parts : List TemplatePart}
      {earlier : List (List TemplatePart)} :
      Renders tpl (tpl.chain name) inserted → Renders tpl (parts :: earlier) rest →
      Renders tpl (({ text, insert := .block name } :: parts) :: earlier) (text ++ inserted ++ rest)
  | parent {text inserted rest : List UInt8} {parts : List TemplatePart}
      {earlier : List (List TemplatePart)} :
      Renders tpl earlier inserted → Renders tpl (parts :: earlier) rest →
      Renders tpl (({ text, insert := .parent } :: parts) :: earlier) (text ++ inserted ++ rest)
  | included {text rest : List UInt8} {file blk : ℕ} {parts : List TemplatePart}
      {earlier : List (List TemplatePart)} :
      Renders tpl (parts :: earlier) rest →
      Renders tpl (({ text, insert := .included file blk } :: parts) :: earlier)
        (text ++ tpl.included file blk ++ rest)

/-! ### Small facts -/

@[simp]
theorem partsOf_append (name : List UInt8) (parts parts' : List (List UInt8 × TemplatePart)) :
    partsOf name (parts ++ parts') = partsOf name parts ++ partsOf name parts' := by
  simp [partsOf]

@[simp]
theorem partsOf_singleton_self (name : List UInt8) (part : TemplatePart) :
    partsOf name [(name, part)] = [part] := by
  simp [partsOf]

theorem partsOf_singleton_ne {name name' : List UInt8} (h : name' ≠ name) (part : TemplatePart) :
    partsOf name [(name', part)] = [] := by
  simp [partsOf, h]

/-- A name that no part belongs to has none. -/
theorem partsOf_eq_nil {name : List UInt8} {parts : List (List UInt8 × TemplatePart)}
    (h : ∀ part ∈ parts, part.1 ≠ name) : partsOf name parts = [] := by
  simpa [partsOf] using fun part text hmem => h (part, text) hmem

theorem outline_concat (i : ℕ) (items : List NxtItem) (item : NxtItem) :
    outline i (items ++ [item]) = (outline i items).add i item := List.foldl_concat ..

@[simp]
theorem Outline.addText_blocks (o : Outline) (text : List UInt8) :
    (o.addText text).blocks = o.blocks := by
  unfold addText
  split <;> rfl

@[simp]
theorem Outline.addText_scopes (o : Outline) (text : List UInt8) :
    (o.addText text).scopes = o.scopes := by
  unfold addText
  split <;> rfl

/-- A command mentions at most the block that it names. -/
theorem Outline.add_blocks (i : ℕ) (o : Outline) (item : NxtItem) :
    (o.add i item).blocks.filterMap id =
      o.blocks.filterMap id ++ [item].filterMap NxtItem.blockName := by
  cases hcmd : item.cmd <;> simp only [Outline.add, hcmd]
  case block =>
    cases harg : item.args.str 0 <;> simp [Outline.addPart, NxtItem.blockName, hcmd, harg]
  all_goals simp [Outline.addPart, NxtItem.blockName, hcmd]

/-- The blocks that a file mentions. -/
theorem filterMap_blocks_outline (i : ℕ) (items : List NxtItem) :
    (outline i items).blocks.filterMap id = topName :: items.filterMap NxtItem.blockName := by
  induction items using List.reverseRecOn with
  | nil => rfl
  | append_singleton items item ih =>
    rw [outline_concat, Outline.add_blocks, ih, List.filterMap_append, List.cons_append]

end Nxweb
