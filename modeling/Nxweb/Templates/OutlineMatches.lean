import Nxweb.Templates.Outline
import Nxweb.Templates.TableBounds

/-!
# The parser and the outline of a file

The blocks that `nxt_parse_file` makes of a file say what the outline of the file does, if its block
names are distinct. A block stands for the name that has its id in the table, and each of its parts
for one in the outline (`PartMatches`). The table only grows, so this stays true while other files are
parsed.

## Main definitions

* `BlocksMatch`: the blocks of a file match an outline;
* `ParseMatches`: so do the open blocks of a parser.

## Main results

* `nxtExec_matches`: a command adds the same to both.
-/

namespace Nxweb

open Lib

/-! ### Parts and blocks -/

/-- A part of a block of the file at `i` stands for a part of its outline. `ids` are the ids of the
blocks of the file. -/
def PartMatches (names : List (Option (List UInt8))) (ids : List ℕ) (i : ℕ) (vp : NxtValuePart)
    (part : TemplatePart) : Prop :=
  vp.text = part.text ∧
    match part.insert with
    | .nothing => vp.insertAfterTextId = bnNoneId
    | .block name => some name ∈ names ∧ 0 < names.idxOf (some name) ∧
        vp.insertAfterTextId = names.idxOf (some name)
    | .parent => vp.insertAfterTextId = bnParentId
    | .included file blk => file = i ∧ ∃ id, 0 < id ∧ ids[blk]? = some id ∧
        names[id]? = some none ∧ vp.insertAfterTextId = id

/-- A block has the id of the name, and its value stands for the parts of the name. A block without
name has only what is included. -/
def BlockMatches (names : List (Option (List UInt8))) (ids : List ℕ) (i : ℕ)
    (parts : List (List UInt8 × TemplatePart)) (blk : NxtBlock) (name? : Option (List UInt8)) :
    Prop :=
  match name? with
  | some name => some name ∈ names ∧ blk.id = names.idxOf (some name) ∧
      List.Forall₂ (PartMatches names ids i) blk.value (partsOf name parts) ∧
      (blk.clearOnAppend → blk.value = [])
  | none => names[blk.id]? = some none ∧ ∀ vp ∈ blk.value, vp.insertAfterTextId = 0

/-- The blocks of the file at `i` stand for those of its outline. -/
structure BlocksMatch (names : List (Option (List UInt8))) (i : ℕ) (blks : List NxtBlock)
    (o : Outline) : Prop where
  length_eq : blks.length = o.blocks.length
  block : ∀ (j : ℕ) blk name?, blks[j]? = some blk → o.blocks[j]? = some name? →
    BlockMatches names (blks.map (·.id)) i o.parts blk name?
  nodup : (o.blocks.filterMap id).Nodup
  nodup_ids : (blks.map (·.id)).Nodup
  mem : ∀ part ∈ o.parts, some part.1 ∈ o.blocks

variable {names names' : List (Option (List UInt8))} {ids ids' : List ℕ} {i : ℕ}
  {blks : List NxtBlock} {o : Outline}

theorem getElem?_of_isPrefix {α : Type} {l l' : List α} (h : l <+: l') {j : ℕ} {a : α}
    (ha : l[j]? = some a) : l'[j]? = some a := by
  obtain ⟨more, rfl⟩ := h
  rw [List.getElem?_append_left (List.getElem?_eq_some_iff.mp ha).1, ha]

/-- What a part stands for does not change when the tables grow. -/
theorem PartMatches.mono {vp : NxtValuePart} {part : TemplatePart}
    (h : PartMatches names ids i vp part) (hnames : names <+: names') (hids : ids <+: ids') :
    PartMatches names' ids' i vp part := by
  obtain ⟨more, rfl⟩ := hnames
  obtain ⟨text, insert⟩ := part
  refine ⟨h.1, ?_⟩
  have h2 := h.2
  cases insert with
  | nothing => exact h2
  | block name =>
    obtain ⟨hmem, hpos, hid⟩ := h2
    have hidx : (names ++ more).idxOf (some name) = names.idxOf (some name) :=
      List.idxOf_append_of_mem hmem
    simp only [hidx]
    exact ⟨List.mem_append_left _ hmem, hpos, hid⟩
  | parent => exact h2
  | included file blk =>
    obtain ⟨hfile, id, hpos, hblk, hnull, hid⟩ := h2
    refine ⟨hfile, id, hpos, ?_, ?_, hid⟩
    · exact getElem?_of_isPrefix hids hblk
    · exact getElem?_of_isPrefix (List.prefix_append names more) hnull

/-- What a block stands for does not change when the tables grow. -/
theorem BlockMatches.mono {parts : List (List UInt8 × TemplatePart)} {blk : NxtBlock}
    {name? : Option (List UInt8)} (h : BlockMatches names ids i parts blk name?)
    (hnames : names <+: names') (hids : ids <+: ids') :
    BlockMatches names' ids' i parts blk name? := by
  cases name? with
  | none => exact ⟨getElem?_of_isPrefix hnames h.1, h.2⟩
  | some name =>
    obtain ⟨hmem, hid, hvalue, hclear⟩ := h
    refine ⟨hnames.subset hmem, ?_, hvalue.imp fun _ _ h => h.mono hnames hids, hclear⟩
    obtain ⟨more, rfl⟩ := hnames
    rw [hid, List.idxOf_append_of_mem hmem]

theorem BlocksMatch.mono (h : BlocksMatch names i blks o) (hnames : names <+: names') :
    BlocksMatch names' i blks o :=
  { h with
    block := fun j blk name? hblk hname =>
      (h.block j blk name? hblk hname).mono hnames List.prefix_rfl }

/-- It does not matter which blocks are open. -/
theorem BlocksMatch.withScopes (h : BlocksMatch names i blks o) (scopes : List (List UInt8)) :
    BlocksMatch names i blks { o with scopes } :=
  ⟨h.length_eq, h.block, h.nodup, h.nodup_ids, h.mem⟩

/-! ### Changes of a file -/

/-- A block whose value is cleared only while it is null, has a part appended. -/
theorem nxtBlockAppendValue_value {blk : NxtBlock} (h : blk.clearOnAppend → blk.value = [])
    (text : List UInt8) (id : ℤ) :
    (nxtBlockAppendValue blk text id).value = blk.value ++ [{ text, insertAfterTextId := id }] ∧
      (nxtBlockAppendValue blk text id).clearOnAppend = false := by
  unfold nxtBlockAppendValue
  split_ifs with hcond
  · exact ⟨rfl, by simpa using hcond.2⟩
  · have hnil : blk.value = [] := by
      by_contra hne
      exact hcond ⟨hne, fun hclear => hne (h hclear)⟩
    exact ⟨by rw [hnil]; rfl, rfl⟩

/-- In a list without duplicates apart from `none`, a value has one place. -/
theorem index_unique_of_nodup {α : Type} {l : List (Option α)} (h : (l.filterMap id).Nodup)
    {j j' : ℕ} {a : α} (hj : l[j]? = some (some a)) (hj' : l[j']? = some (some a)) : j = j' := by
  have hmem : ∀ {l : List (Option α)} {j : ℕ}, l[j]? = some (some a) → a ∈ l.filterMap id :=
    fun hj => List.mem_filterMap.mpr ⟨some a, List.mem_of_getElem? hj, rfl⟩
  induction l generalizing j j' with
  | nil => cases hj
  | cons x l ih =>
    have hl : (l.filterMap id).Nodup := by
      cases x with
      | none => exact h
      | some x => exact (List.nodup_cons.mp h).2
    have hx : x = some a → a ∉ l.filterMap id := by
      rintro rfl
      exact (List.nodup_cons.mp h).1
    cases j with
    | zero =>
      cases j' with
      | zero => rfl
      | succ j' => exact absurd (hmem (l := l) hj') (hx (Option.some.inj hj))
    | succ j =>
      cases j' with
      | zero => exact absurd (hmem (l := l) hj) (hx (Option.some.inj hj'))
      | succ j' => exact congrArg (· + 1) (ih hl hj hj')

/-- Two blocks of a file do not have the same name. -/
theorem BlocksMatch.index_unique (h : BlocksMatch names i blks o) {j j' : ℕ} {name : List UInt8}
    (hj : o.blocks[j]? = some (some name)) (hj' : o.blocks[j']? = some (some name)) : j = j' :=
  index_unique_of_nodup h.nodup hj hj'

/-- A part is appended to the block that the part belongs to in the outline. -/
theorem BlocksMatch.append (h : BlocksMatch names i blks o) {cur : ℕ} {name : List UInt8}
    (hcur : o.blocks[cur]? = some (some name)) {text : List UInt8} {id : ℤ}
    {insert : TemplateInsert}
    (hpart : PartMatches names (blks.map (·.id)) i { text, insertAfterTextId := id }
      { text, insert }) :
    BlocksMatch names i (blks.modify cur fun blk => nxtBlockAppendValue blk text id)
      { o with parts := o.parts ++ [(name, { text, insert })] } := by
  have hids : (blks.modify cur fun blk => nxtBlockAppendValue blk text id).map (·.id) =
      blks.map (·.id) := map_modify_of_eq (fun blk => nxtBlockAppendValue_id blk text id) _ _
  refine ⟨by simpa using h.length_eq, ?_, h.nodup, by rw [hids]; exact h.nodup_ids, ?_⟩
  · intro j blk' name? hblk' hname
    rw [hids]
    rw [List.getElem?_modify] at hblk'
    obtain ⟨blk, hblk, rfl⟩ := Option.map_eq_some_iff.mp hblk'
    have hmatch := h.block j blk name? hblk hname
    by_cases hj : cur = j
    · subst hj
      obtain rfl : some name = name? := Option.some.inj (hcur.symm.trans hname)
      obtain ⟨hmem, hid, hvalue, hclear⟩ := hmatch
      obtain ⟨hvalue', hclear'⟩ := nxtBlockAppendValue_value hclear text id
      rw [if_pos rfl]
      refine ⟨hmem, by rw [nxtBlockAppendValue_id, hid], ?_, by simp [hclear']⟩
      rw [hvalue', partsOf_append, partsOf_singleton_self]
      exact List.rel_append hvalue (.cons hpart .nil)
    · rw [if_neg hj]
      cases name? with
      | none => exact hmatch
      | some name' =>
        have hne : name ≠ name' := by
          rintro rfl
          exact hj (h.index_unique hcur hname)
        simpa [BlockMatches, partsOf_singleton_ne hne] using hmatch
  · intro part hpart'
    rcases List.mem_append.mp hpart' with hmem | hmem
    · exact h.mem part hmem
    · obtain rfl := List.mem_singleton.mp hmem
      exact List.mem_of_getElem? hcur

/-- A block is made whose id no other block of the file has. -/
theorem BlocksMatch.addBlock (h : BlocksMatch names i blks o) (hnames : names <+: names') {id : ℕ}
    {name? : Option (List UInt8)} (hid : id ∉ blks.map (·.id))
    (hname : ∀ name, name? = some name →
      some name ∉ o.blocks ∧ some name ∈ names' ∧ id = names'.idxOf (some name))
    (hnull : name? = none → names'[id]? = some none) :
    BlocksMatch names' i (blks ++ [{ id : NxtBlock }]) { o with blocks := o.blocks ++ [name?] } := by
  have hprefix : blks.map (·.id) <+: (blks ++ [{ id : NxtBlock }]).map (·.id) := by
    rw [List.map_append]
    exact List.prefix_append _ _
  refine ⟨by simp [h.length_eq], ?_, ?_, ?_, fun part hpart => List.mem_append_left _ (h.mem part hpart)⟩
  · intro j blk name?' hblk hname'
    rcases lt_or_ge j blks.length with hj | hj
    · rw [List.getElem?_append_left hj] at hblk
      rw [List.getElem?_append_left (h.length_eq ▸ hj)] at hname'
      exact (h.block j blk name?' hblk hname').mono hnames hprefix
    · obtain rfl : j = blks.length := by
        have hlt := (List.getElem?_eq_some_iff.mp hblk).1
        rw [List.length_append, List.length_singleton] at hlt
        omega
      rw [List.getElem?_concat_length] at hblk
      rw [h.length_eq, List.getElem?_concat_length] at hname'
      obtain rfl := Option.some.inj hblk
      obtain rfl := Option.some.inj hname'
      cases name? with
      | none => exact ⟨hnull rfl, by simp⟩
      | some name =>
        obtain ⟨hnew, hmem, hid⟩ := hname name rfl
        have hnil : partsOf name o.parts = [] :=
          partsOf_eq_nil fun part hpart heq => hnew (heq ▸ h.mem part hpart)
        refine ⟨hmem, hid, ?_, by simp⟩
        change List.Forall₂ _ [] (partsOf name o.parts)
        rw [hnil]
        exact .nil
  · rw [List.filterMap_append]
    cases name? with
    | none => simpa using h.nodup
    | some name =>
      refine h.nodup.append (by simp) ?_
      simpa using (hname name rfl).1
  · rw [List.map_append]
    refine h.nodup_ids.append (by simp) ?_
    simpa using hid

/-- A block without value is marked. -/
theorem BlocksMatch.mark (h : BlocksMatch names i blks o) {j : ℕ}
    (hvalue : ∀ blk, blks[j]? = some blk → blk.value = []) :
    BlocksMatch names i (blks.modify j fun blk => { blk with clearOnAppend := true }) o := by
  have hids : (blks.modify j fun blk => { blk with clearOnAppend := true }).map (·.id) =
      blks.map (·.id) := by
    rw [map_modify_of_eq]
    exact fun _ => rfl
  refine ⟨by simpa using h.length_eq, ?_, h.nodup, by rw [hids]; exact h.nodup_ids, h.mem⟩
  intro j' blk' name? hblk' hname
  rw [hids]
  rw [List.getElem?_modify] at hblk'
  obtain ⟨blk, hblk, rfl⟩ := Option.map_eq_some_iff.mp hblk'
  have hmatch := h.block j' blk name? hblk hname
  by_cases hj : j = j'
  · subst hj
    rw [if_pos rfl]
    cases name? with
    | none => exact hmatch
    | some name => exact ⟨hmatch.1, hmatch.2.1, hmatch.2.2.1, fun _ => hvalue blk hblk⟩
  · rw [if_neg hj]
    exact hmatch

/-- What is included is put into a block without name. -/
theorem BlocksMatch.included (h : BlocksMatch names i blks o) {j : ℕ} {blk : NxtBlock}
    (hblk : blks[j]? = some blk) (hnull : names[blk.id]? = some none) (content : List UInt8) :
    BlocksMatch names i (blks.modify j fun blk => nxtBlockAppendValue blk content 0) o := by
  have hids : (blks.modify j fun blk => nxtBlockAppendValue blk content 0).map (·.id) =
      blks.map (·.id) := map_modify_of_eq (fun blk => nxtBlockAppendValue_id blk content 0) _ _
  refine ⟨by simpa using h.length_eq, ?_, h.nodup, by rw [hids]; exact h.nodup_ids, h.mem⟩
  intro j' blk' name? hblk' hname
  rw [hids]
  rw [List.getElem?_modify] at hblk'
  obtain ⟨blk₀, hblk₀, rfl⟩ := Option.map_eq_some_iff.mp hblk'
  have hmatch := h.block j' blk₀ name? hblk₀ hname
  by_cases hj : j = j'
  · subst hj
    obtain rfl := Option.some.inj (hblk.symm.trans hblk₀)
    rw [if_pos rfl]
    cases name? with
    | none =>
      refine ⟨by rw [nxtBlockAppendValue_id]; exact hnull, fun vp hvp => ?_⟩
      have hnew : vp ∈ blk.value ∨ vp = { text := content, insertAfterTextId := 0 } := by
        unfold nxtBlockAppendValue at hvp
        split_ifs at hvp
        · simpa using hvp
        · exact .inr (List.mem_singleton.mp hvp)
      rcases hnew with hmem | rfl
      · exact hmatch.2 vp hmem
      · rfl
    | some name =>
      obtain ⟨hmem, hid, -⟩ := hmatch
      rw [hid, List.getElem?_idxOf hmem] at hnull
      cases hnull
  · rw [if_neg hj]
    exact hmatch

/-! ### The operations of the parser -/

/-- A name that the file does not mention yet has an id that no block of the file has. -/
theorem BlocksMatch.idxOf_notMem (h : BlocksMatch names i blks o)
    (hlt : ∀ id ∈ blks.map (·.id), id < names.length) {name : List UInt8}
    (hnew : some name ∉ o.blocks) : names.idxOf (some name) ∉ blks.map (·.id) := by
  intro hmem
  obtain ⟨blk, hblk, hid⟩ := List.mem_map.mp hmem
  obtain ⟨j, hj⟩ := List.mem_iff_getElem?.mp hblk
  have hj' : j < o.blocks.length := h.length_eq ▸ (List.getElem?_eq_some_iff.mp hj).1
  have hmatch := h.block j blk _ hj (List.getElem?_eq_getElem hj')
  have hname : some name ∈ names := List.idxOf_lt_length_iff.mp (hlt _ hmem)
  cases hname? : o.blocks[j] with
  | none =>
    rw [hname?] at hmatch
    have hnull := hmatch.1
    rw [hid, List.getElem?_idxOf hname] at hnull
    cases hnull
  | some name' =>
    rw [hname?] at hmatch
    have heq := (List.idxOf_inj hname).mp (hid.symm.trans hmatch.2.1)
    exact hnew (heq ▸ hname? ▸ List.getElem_mem hj')

namespace NxtParse

variable (p : NxtParse)

/-- The table of names only grows. -/
theorem prefix_blockCreate (name : Option (List UInt8)) :
    p.ctx.names <+: (p.blockCreate name).1.ctx.names := by
  rw [blockCreate_names]
  split_ifs
  · exact List.prefix_append _ _
  · exact List.prefix_rfl

/-- The name is in the table then, with the id that is handed out. -/
theorem mem_blockCreate (name : List UInt8) :
    some name ∈ (p.blockCreate (some name)).1.ctx.names ∧
      p.ctx.blockId (some name) = (p.blockCreate (some name)).1.ctx.names.idxOf (some name) := by
  rw [blockCreate_names]
  by_cases hmem : some name ∈ p.ctx.names
  · have hlt : p.ctx.blockId (some name) < p.ctx.names.length := List.idxOf_lt_length_iff.mpr hmem
    rw [if_neg (by omega)]
    exact ⟨hmem, rfl⟩
  · have hid : p.ctx.blockId (some name) = p.ctx.names.length :=
      List.idxOf_eq_length_iff.mpr hmem
    rw [hid, if_pos rfl]
    exact ⟨by simp, by rw [List.idxOf_append_of_notMem hmem]; simp⟩

/-- A block with an id that is new in the file is put behind the others. -/
theorem blockCreate_of_new {name : Option (List UInt8)}
    (hnew : p.ctx.blockId name ∉ p.file.blockIds) :
    (p.blockCreate name).1.file.blocks = p.file.blocks ++ [{ id := p.ctx.blockId name }] ∧
      (p.blockCreate name).2 = p.file.blocks.length := by
  have hfind : p.file.blocks.findIdx (fun blk => blk.id = p.ctx.blockId name) =
      p.file.blocks.length := by
    simpa [List.findIdx_eq_length, NxtFile.blockIds] using hnew
  simp [blockCreate, hfind]

end NxtParse

/-- The blocks of the file that is being parsed, and those that are open, match the outline of what
has been read of it. -/
structure ParseMatches (p : NxtParse) (o : Outline) : Prop where
  blocks : BlocksMatch p.ctx.names p.index p.file.blocks o
  scopes : List.Forall₂ (fun j name => o.blocks[j]? = some (some name))
    (p.curBlock :: p.blockStack) o.scopes
  first : o.blocks[0]? = some (some topName)
  top : p.ctx.names[0]? = some (some topName)

namespace ParseMatches

variable {p : NxtParse}

/-- The current block is the innermost one. -/
theorem current (h : ParseMatches p o) : o.blocks[p.curBlock]? = some (some o.current) := by
  obtain ⟨name, outer, hcur, -, hscopes⟩ := List.forall₂_cons_left_iff.mp h.scopes
  rw [Outline.current, hscopes]
  exact hcur

/-- A part is appended to the current block. -/
theorem append (h : ParseMatches p o) {text : List UInt8} {id : ℤ} {insert : TemplateInsert}
    (hpart : PartMatches p.ctx.names p.file.blockIds p.index { text, insertAfterTextId := id }
      { text, insert }) : ParseMatches (p.append text id) (o.addPart text insert) where
  blocks := h.blocks.append h.current hpart
  scopes := h.scopes
  first := h.first
  top := h.top

theorem appendText (h : ParseMatches p o) (text : List UInt8) :
    ParseMatches (p.appendText text) (o.addText text) := by
  unfold NxtParse.appendText Outline.addText
  split
  · exact h.append ⟨rfl, rfl⟩
  · exact h

/-- A block is made that the file has not mentioned before. -/
theorem create (h : ParseMatches p o) (hcounted : p.Counted) (name? : Option (List UInt8))
    (hnew : ∀ name, name? = some name → some name ∉ o.blocks) :
    ParseMatches (p.blockCreate name?).1 { o with blocks := o.blocks ++ [name?] } ∧
      (p.blockCreate name?).1.file.blocks =
        p.file.blocks ++ [{ id := p.ctx.blockId name? }] ∧
      (p.blockCreate name?).2 = p.file.blocks.length := by
  have hlt : ∀ id ∈ p.file.blockIds, id < p.ctx.names.length :=
    fun id hid => hcounted.lt id (List.mem_append_left _ hid)
  have hid : p.ctx.blockId name? ∉ p.file.blockIds := by
    cases name? with
    | none => exact fun hmem => lt_irrefl _ (hlt _ hmem)
    | some name => exact h.blocks.idxOf_notMem hlt (hnew name rfl)
  obtain ⟨hblocks, hplace⟩ := p.blockCreate_of_new hid
  refine ⟨⟨?_, ?_, ?_, ?_⟩, hblocks, hplace⟩
  · rw [hblocks]
    refine h.blocks.addBlock (p.prefix_blockCreate name?) hid ?_ ?_
    · rintro name rfl
      exact ⟨hnew name rfl, p.mem_blockCreate name⟩
    · rintro rfl
      rw [NxtParse.blockCreate_names]
      simp [NxtContext.blockId]
  · exact h.scopes.imp fun _ _ hj => getElem?_of_isPrefix (List.prefix_append _ _) hj
  · exact getElem?_of_isPrefix (List.prefix_append _ _) h.first
  · exact getElem?_of_isPrefix (p.prefix_blockCreate name?) h.top

/-- Creating other files changes neither the blocks nor the names. -/
theorem addParent (h : ParseMatches p o) (new : NxtFile) (filesPending : ℤ) :
    ParseMatches (p.addParent new filesPending) o :=
  ⟨h.blocks, h.scopes, h.first, h.top⟩

/-- A tag opens a block with a name that the file has not used. -/
theorem openBlock (h : ParseMatches p o) (hcounted : p.Counted) (text : List UInt8)
    {name : List UInt8} (hnew : some name ∉ o.blocks) :
    ParseMatches
      { ((p.blockCreate (some name)).1.append text (p.ctx.blockId (some name))).modifyBlock
          (p.blockCreate (some name)).2 (fun blk => { blk with clearOnAppend := true }) with
        curBlock := (p.blockCreate (some name)).2, blockStack := p.curBlock :: p.blockStack }
      { o.addPart text (.block name) with
        scopes := name :: o.scopes, blocks := o.blocks ++ [some name] } := by
  obtain ⟨hcreate, hblocks, hplace⟩ :=
    h.create hcounted (some name) (by rintro _ ⟨⟩; exact hnew)
  obtain ⟨hmem, hid⟩ := p.mem_blockCreate name
  have hlength := h.blocks.length_eq
  have hpos : 0 < (p.blockCreate (some name)).1.ctx.names.idxOf (some name) := by
    refine Nat.pos_of_ne_zero fun hzero => hnew ?_
    have hget := List.getElem?_idxOf hmem
    rw [hzero, hcreate.top] at hget
    exact Option.some.inj hget ▸ List.mem_of_getElem? h.first
  have hpart : PartMatches (p.blockCreate (some name)).1.ctx.names
      (p.blockCreate (some name)).1.file.blockIds p.index
      { text, insertAfterTextId := p.ctx.blockId (some name) } { text, insert := .block name } :=
    ⟨rfl, hmem, hpos, by rw [hid]⟩
  have happend := hcreate.append hpart
  have hcur : p.curBlock < p.file.blocks.length :=
    hlength ▸ (List.getElem?_eq_some_iff.mp h.current).1
  refine ⟨(happend.blocks.mark fun blk hblk => ?_).withScopes (name :: o.scopes),
    .cons ?_ happend.scopes, happend.first, happend.top⟩
  · -- the new block is not the current one, so it has no value yet
    rw [hplace] at hblk
    change ((p.blockCreate (some name)).1.file.blocks.modify p.curBlock _)[_]? = _ at hblk
    rw [hblocks, List.getElem?_modify_ne _ _ (by omega), List.getElem?_concat_length] at hblk
    rw [← Option.some.inj hblk]
  · rw [hplace, hlength]
    exact List.getElem?_concat_length

/-- A tag includes a file. -/
theorem includeFile (h : ParseMatches p o) (hcounted : p.Counted) (text : List UInt8) :
    ParseMatches ((p.blockCreate none).1.append text (p.ctx.blockId none))
      { o.addPart text (.included p.index o.blocks.length) with
        blocks := o.blocks ++ [none] } := by
  obtain ⟨hcreate, hblocks, -⟩ := h.create hcounted none (by rintro _ ⟨⟩)
  have hpos : 0 < p.ctx.names.length := (List.getElem?_eq_some_iff.mp h.top).1
  have hids : (p.blockCreate none).1.file.blockIds =
      p.file.blockIds ++ [p.ctx.names.length] := by
    rw [NxtFile.blockIds, hblocks, List.map_append]
    rfl
  refine hcreate.append ⟨rfl, rfl, p.ctx.names.length, hpos, ?_, ?_, rfl⟩
  · rw [hids, ← h.blocks.length_eq, ← List.length_map (f := NxtBlock.id)]
    exact List.getElem?_concat_length
  · have hnames : (p.blockCreate none).1.ctx.names = p.ctx.names ++ [none] := if_pos rfl
    rw [hnames]
    exact List.getElem?_concat_length

end ParseMatches

/-- A command adds to the blocks what it adds to the outline. -/
theorem nxtExec_matches {load : List UInt8 → Bool} {item : NxtItem} {p p' : NxtParse}
    (h : ParseMatches p o) (hcounted : p.Counted) (hexec : nxtExec load item p = some (.next p'))
    (hnodup : ((o.add p.index item).blocks.filterMap id).Nodup) :
    ParseMatches p' (o.add p.index item) := by
  unfold nxtExec at hexec
  unfold Outline.add at hnodup ⊢
  cases hcmd : item.cmd <;> simp only [hcmd] at hexec hnodup ⊢
  case eof => split at hexec <;> cases Option.some.inj hexec
  case none =>
    obtain rfl := NxtOutcome.next.inj (Option.some.inj hexec)
    exact h.appendText item.text
  case raw | endraw =>
    obtain rfl := NxtOutcome.next.inj (Option.some.inj hexec)
    exact h
  case block =>
    cases harg : item.args.str 0 with
    | none =>
      rw [harg] at hexec
      cases Option.some.inj hexec
    | some name =>
      simp only [harg] at hexec hnodup ⊢
      split_ifs at hexec
      · cases Option.some.inj hexec
      · obtain rfl := NxtOutcome.next.inj (Option.some.inj hexec)
        refine h.openBlock hcounted item.text fun hmem => ?_
        rw [List.filterMap_append, List.nodup_append] at hnodup
        exact hnodup.2.2 name (List.mem_filterMap.mpr ⟨some name, hmem, rfl⟩) name
          (List.mem_singleton.mpr rfl) rfl
  case endblock =>
    have h' := h.appendText item.text
    split at hexec
    · cases Option.some.inj hexec
    · rename_i blk stack hpop
      obtain rfl := NxtOutcome.next.inj (Option.some.inj hexec)
      refine ⟨h'.blocks.withScopes _, ?_, h'.first, h'.top⟩
      obtain ⟨name, outer, -, houter, hscopes⟩ := List.forall₂_cons_left_iff.mp h'.scopes
      rw [hpop] at houter
      rw [hscopes]
      exact houter
  case use =>
    obtain ⟨⟨p₁, ok⟩, huse, hout⟩ := Option.map_eq_some_iff.mp hexec
    have h' : ParseMatches p₁ (o.addText item.text) ∧ p₁.index = p.index :=
      nxtUseArgs_inv (I := fun q => ParseMatches q (o.addText item.text) ∧ q.index = p.index)
        (fun q new pending _ hq => ⟨hq.1.addParent new pending, hq.2⟩)
        ⟨h.appendText item.text, by unfold NxtParse.appendText; split <;> rfl⟩ huse
    cases ok
    · cases hout
    · obtain rfl := NxtOutcome.next.inj hout
      exact h'.1
  case includeFile =>
    split at hexec
    · cases Option.some.inj hexec
    · obtain ⟨⟨p₁, id?⟩, hinclude, hout⟩ := Option.map_eq_some_iff.mp hexec
      obtain ⟨uri?, -, hinclude⟩ := Option.map_eq_some_iff.mp hinclude
      cases id? with
      | none => cases hout
      | some id =>
        obtain rfl := NxtOutcome.next.inj hout
        cases uri? with
        | none => cases (Prod.mk.inj hinclude).2
        | some uri =>
          simp only at hinclude
          split_ifs at hinclude
          · obtain ⟨rfl, hid⟩ := Prod.mk.inj hinclude
            obtain rfl := Option.some.inj hid
            have h' := h.includeFile hcounted item.text
            exact ⟨h'.blocks, h'.scopes, h'.first, h'.top⟩
          · cases (Prod.mk.inj hinclude).2
  case includeParent =>
    obtain rfl := NxtOutcome.next.inj (Option.some.inj hexec)
    exact h.append ⟨rfl, rfl⟩

/-! ### The parser in its file -/

/-- At the end of a file no commands are left. -/
theorem nxtItems_nil (fuel : ℕ) (rawMode : Bool) : nxtItems fuel rawMode [] = [] := by
  cases fuel <;> rfl

/-- Reading on gives the commands that are left. -/
theorem nxtItems_of_item {fuel : ℕ} {rawMode : Bool} {rest : List UInt8} {item : NxtItem}
    (hitem : nxtGetNextCmd rawMode rest = some item) (hcmd : item.cmd ≠ .eof)
    (hfuel : rest.length ≤ fuel) :
    ∃ fuel', nxtItems fuel rawMode rest = item :: nxtItems fuel' item.rawMode item.rest ∧
      item.rest.length ≤ fuel' := by
  have hrest : rest ≠ [] := by
    rintro rfl
    obtain rfl := Option.some.inj hitem
    exact hcmd rfl
  have hlt := nxtGetNextCmd_length_lt hitem hrest
  obtain ⟨fuel, rfl⟩ : ∃ k, fuel = k + 1 := ⟨fuel - 1, by omega⟩
  exact ⟨fuel, by simp [nxtItems, hitem, hcmd], by omega⟩

/-- The commands `done` of the file have been read, and the blocks match what they tell. -/
def ReadSoFar (p : NxtParse) (content : List UInt8) : Prop :=
  ∃ done fuel, scanFile content = done ++ nxtItems fuel p.rawMode p.rest ∧
    p.rest.length ≤ fuel ∧ ParseMatches p (outline p.index done)

/-- What has been read of a file with distinct names has distinct names. -/
theorem DistinctBlocks.nodup_outline {content : List UInt8} (h : DistinctBlocks content)
    {done later : List NxtItem} (hscan : scanFile content = done ++ later) (i : ℕ) :
    ((outline i done).blocks.filterMap id).Nodup := by
  rw [filterMap_blocks_outline]
  refine h.sublist ?_
  rw [hscan, List.filterMap_append]
  exact (List.sublist_append_left _ _).cons_cons topName

/-- The parser reads one more command. -/
theorem ReadSoFar.step {p p' : NxtParse} {content : List UInt8} {load : List UInt8 → Bool}
    (h : ReadSoFar p content) (hcounted : p.Counted) (hdistinct : DistinctBlocks content)
    (hstep : nxtParseStep load p = some (.next p')) : ReadSoFar p' content := by
  simp only [nxtParseStep] at hstep
  split_ifs at hstep
  obtain ⟨item, hitem, hexec⟩ := Option.bind_eq_some_iff.mp hstep
  obtain ⟨done, fuel, hscan, hfuel, hmatches⟩ := h
  have hcmd : item.cmd ≠ .eof := by
    intro hcmd
    simp only [nxtExec, hcmd] at hexec
    split at hexec <;> cases Option.some.inj hexec
  obtain ⟨fuel', hitems, hfuel'⟩ := nxtItems_of_item hitem hcmd hfuel
  obtain ⟨hindex, hrest, hraw, -⟩ := nxtExec_next hexec
  have hscan' : scanFile content =
      (done ++ [item]) ++ nxtItems fuel' item.rawMode item.rest := by
    rw [hscan, hitems, List.append_assoc, List.singleton_append]
  have hnodup := hdistinct.nodup_outline hscan' p.index
  refine ⟨done ++ [item], fuel', by rw [hrest, hraw]; exact hscan', by rw [hrest]; exact hfuel', ?_⟩
  rw [hindex, outline_concat]
  rw [outline_concat] at hnodup
  exact nxtExec_matches (p := { p with rawMode := item.rawMode, rest := item.rest })
    ⟨hmatches.blocks, hmatches.scopes, hmatches.first, hmatches.top⟩
    (hcounted.congr rfl rfl rfl) hexec hnodup

end Nxweb
