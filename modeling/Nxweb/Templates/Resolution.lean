import Nxweb.Templates.ContextMatches

/-!
# Merged definitions

What `nxt_merge` finds for the ids of a context, in terms of the outlines of its files. The
definitions of a name are those that the files give it, in the order in which the files are visited.
A block without name has at most one definition, which is itself.

## Main definitions

* `NxtContext.template`: what the files of a context say together;
* `Stands`: a definition stands for parts of an outline.

## Main results

* `definitions_stand`: the definitions of a name;
* `definitions_anonymous`: the definition of a block that includes a file.
-/

namespace Nxweb

open Lib

/-- The definition that the file at `i` gives a name. -/
def NxtContext.definition (ctx : NxtContext) (name : List UInt8) (i : ℕ) :
    Option (List TemplatePart) :=
  (ctx.files[i]?.bind (·.content)).bind fun content => definitionIn content i name

/-- What the files of a context say when they are visited in `order`. -/
def NxtContext.template (ctx : NxtContext) (order : List ℕ) : Template where
  chain name := (order.filterMap (ctx.definition name)).reverse
  included i j :=
    ((blockAt ctx.files ⟨i, j⟩).map fun blk => (blk.value.map (·.text)).flatten).getD []

/-- The ids of the blocks of the file at `i`. -/
def idsAt (files : List NxtFile) (i : ℕ) : List ℕ := (files[i]?.map (·.blockIds)).getD []

/-- The value of a block stands for parts of the outline of its file. -/
def Stands (ctx : NxtContext) (b : NxtBlockRef × NxtBlock) (parts : List TemplatePart) : Prop :=
  List.Forall₂ (PartMatches ctx.names (idsAt ctx.files b.1.file) b.1.file) b.2.value parts

/-- The names in each file of a context are distinct. -/
def NxtContext.Distinct (ctx : NxtContext) : Prop :=
  ∀ (i : ℕ) file content, ctx.files[i]? = some file → file.content = some content →
    DistinctBlocks content

theorem definitions_append (blks blks' : List (NxtBlockRef × NxtBlock)) (id : ℕ) :
    definitions (blks ++ blks') id = definitions blks id ++ definitions blks' id :=
  List.filter_append ..

theorem mem_definitions {blks : List (NxtBlockRef × NxtBlock)} {id : ℕ}
    {b : NxtBlockRef × NxtBlock} :
    b ∈ definitions blks id ↔ b ∈ blks ∧ b.2.defines ∧ b.2.id = id := by
  simp [definitions]

/-- A list without duplicates that has one element. -/
theorem eq_singleton_of_nodup {α : Type} {l : List α} {a : α} (h : l.Nodup)
    (hmem : ∀ b, b ∈ l ↔ b = a) : l = [a] :=
  List.perm_singleton.mp ((List.perm_ext_iff_of_nodup h (List.nodup_singleton a)).mpr
    (by simpa using hmem))

/-- Where one block has the id, it is the only definition, if it is one. -/
theorem definitions_eq_of_unique {blks : List (NxtBlockRef × NxtBlock)}
    (hnodup : (blks.map Prod.fst).Nodup) {b : NxtBlockRef × NxtBlock} (hb : b ∈ blks)
    (hunique : ∀ b' ∈ blks, b'.2.id = b.2.id → b' = b) :
    definitions blks b.2.id = if b.2.defines then [b] else [] := by
  split_ifs with hdef
  · refine eq_singleton_of_nodup (hnodup.of_map.filter _) fun b' => ?_
    rw [mem_definitions]
    constructor
    · exact fun h => hunique b' h.1 h.2.2
    · rintro rfl
      exact ⟨hb, hdef, rfl⟩
  · refine List.eq_nil_iff_forall_not_mem.mpr fun b' hb' => ?_
    obtain ⟨hmem, hdef', hid⟩ := mem_definitions.mp hb'
    obtain rfl := hunique b' hmem hid
    exact hdef hdef'

/-! ### Definitions of names -/

/-- The texts of a block are blank exactly if those of the parts are that it stands for. -/
theorem nxtIsTopBlockEmpty_iff {names : List (Option (List UInt8))} {ids : List ℕ} {i : ℕ}
    {blk : NxtBlock} {parts : List TemplatePart}
    (h : List.Forall₂ (PartMatches names ids i) blk.value parts) :
    nxtIsTopBlockEmpty blk = true ↔ ∀ part ∈ parts, ∀ c ∈ part.text, ¬ isGraph c := by
  unfold nxtIsTopBlockEmpty
  generalize blk.value = value at h
  induction h with
  | nil => simp
  | cons hpart _ ih =>
    rw [List.all_cons, Bool.and_eq_true, ih, List.forall_mem_cons, hpart.1]
    simp

/-- A block is a definition exactly if the parts that it stands for give its name a value. -/
theorem defines_iff_givesValue {names : List (Option (List UInt8))} {ids : List ℕ} {i : ℕ}
    {blk : NxtBlock} {name : List UInt8} {parts : List TemplatePart}
    (hparts : List.Forall₂ (PartMatches names ids i) blk.value parts)
    (htop : ∀ name?, names[0]? = some name? → name? = some topName) (hmem : some name ∈ names)
    (hid : blk.id = names.idxOf (some name)) :
    blk.defines = true ↔ GivesValue name parts := by
  have hnil : blk.value = [] ↔ parts = [] := by
    rw [← List.length_eq_zero_iff, hparts.length_eq, List.length_eq_zero_iff]
  have hzero : blk.id = 0 ↔ name = topName := by
    have hget := List.getElem?_idxOf hmem
    constructor
    · intro hid0
      rw [← hid, hid0] at hget
      exact Option.some.inj (htop _ hget)
    · rintro rfl
      cases names with
      | nil => cases hmem
      | cons first names => rw [hid, htop first rfl, List.idxOf_cons_self]
  have hblank := nxtIsTopBlockEmpty_iff hparts
  simp only [NxtBlock.defines, GivesValue, decide_eq_true_eq, ne_eq, hnil, hzero, hblank]
  refine and_congr_right fun _ => ?_
  simp only [not_and, not_forall]
  refine forall_congr' fun _ => ?_
  simp

/-- The definitions of a name in one file. -/
theorem definitions_file {ctx : NxtContext} (h : ContextMatches ctx)
    (hlt : ∀ id ∈ filesBlockIds ctx.files, id < ctx.names.length) (hdistinct : ctx.Distinct) (i : ℕ)
    (name : List UInt8) :
    List.Forall₂ (Stands ctx)
      (definitions ((ctx.files[i]?.map (·.blockRefs i)).getD []) (ctx.blockId (some name)))
      (ctx.definition name i).toList := by
  unfold NxtContext.definition
  cases hfile : ctx.files[i]? with
  | none => exact .nil
  | some file =>
    have hmatch := h.file i file hfile
    rw [FileMatches] at hmatch
    simp only [Option.map_some, Option.getD_some, Option.bind_some]
    cases hcontent : file.content with
    | none =>
      simp only [hcontent] at hmatch
      simp [NxtFile.blockRefs, hmatch, definitions]
    | some content =>
      simp only [hcontent] at hmatch
      have hblocks := hmatch (hdistinct i file content hfile hcontent)
      have hids : ∀ id ∈ file.blocks.map (·.id), id < ctx.names.length := fun id hid =>
        hlt id (mem_filesBlockIds.mpr ⟨file, List.mem_of_getElem? hfile, hid⟩)
      have hnodup : ((file.blockRefs i).map Prod.fst).Nodup := by
        have hvisited : ((visited ctx.files [i]).map Prod.fst).Nodup :=
          visited_nodup (List.nodup_singleton i)
        simpa [visited, hfile] using hvisited
      rw [Option.bind_some, definitionIn]
      by_cases hname : some name ∈ (outline i (scanFile content)).blocks
      · -- the file mentions the name once, and the block made there is the only one with its id
        obtain ⟨j, hj⟩ := List.mem_iff_getElem?.mp hname
        have hj' : j < file.blocks.length :=
          hblocks.length_eq ▸ (List.getElem?_eq_some_iff.mp hj).1
        have hblk := List.getElem?_eq_getElem hj'
        obtain ⟨hmem, hid, hvalue, -⟩ := hblocks.block j _ _ hblk hj
        have hunique : ∀ b ∈ file.blockRefs i, b.2.id = file.blocks[j].id →
            b = (⟨i, j⟩, file.blocks[j]) := by
          rintro ⟨⟨i', k⟩, blk⟩ hb hid'
          obtain ⟨hi, hk⟩ : i' = i ∧ file.blocks[k]? = some blk := mem_blockRefs.mp hb
          have hkj : k = j := by
            have hlt := (List.getElem?_eq_some_iff.mp hk).1
            refine (List.getElem?_inj (by simpa using hlt) hblocks.nodup_ids).mp ?_
            rw [List.getElem?_map, List.getElem?_map, hk, hblk]
            exact congrArg some hid'
          subst hi hkj
          exact Prod.ext rfl (Option.some.inj (hk.symm.trans hblk))
        rw [show ctx.blockId (some name) = file.blocks[j].id from hid.symm,
          definitions_eq_of_unique (b := (⟨i, j⟩, file.blocks[j])) hnodup
            (mem_blockRefs.mpr ⟨rfl, hblk⟩) hunique]
        have hdef := defines_iff_givesValue hvalue h.top hmem hid
        split_ifs with hdefines hgives hgives
        · refine .cons ?_ .nil
          simpa [Stands, idsAt, hfile, NxtFile.blockIds] using hvalue
        · exact absurd (hdef.mp hdefines) hgives
        · exact absurd (hdef.mpr hgives) hdefines
        · exact .nil
      · have hparts : partsOf name (outline i (scanFile content)).parts = [] :=
          partsOf_eq_nil fun part hpart heq => hname (heq ▸ hblocks.mem part hpart)
        have hnone : definitions (file.blockRefs i) (ctx.blockId (some name)) = [] := by
          refine List.eq_nil_iff_forall_not_mem.mpr fun b hb => ?_
          obtain ⟨hmem, -, hid⟩ := mem_definitions.mp hb
          refine hblocks.idxOf_notMem hids hname (List.mem_map.mpr ⟨b.2, ?_, hid⟩)
          exact List.mem_of_getElem? (mem_blockRefs.mp hmem).2
        rw [hnone, hparts, if_neg (by simp [GivesValue])]
        exact .nil

/-- The definitions of a name are what the files give it, in the order in which they are visited. -/
theorem definitions_stand {ctx : NxtContext} (h : ContextMatches ctx)
    (hlt : ∀ id ∈ filesBlockIds ctx.files, id < ctx.names.length) (hdistinct : ctx.Distinct)
    (order : List ℕ) (name : List UInt8) :
    List.Forall₂ (Stands ctx)
      (definitions (visited ctx.files order) (ctx.blockId (some name))).reverse
      ((ctx.template order).chain name) := by
  refine List.forall₂_reverse_iff.mpr ?_
  induction order with
  | nil => exact .nil
  | cons i order ih =>
    have hfile := definitions_file h hlt hdistinct i name
    have hvisited : visited ctx.files (i :: order) =
        (ctx.files[i]?.map (·.blockRefs i)).getD [] ++ visited ctx.files order := by
      rw [visited, List.flatMap_cons]
      rfl
    rw [hvisited, definitions_append]
    cases hdef : ctx.definition name i with
    | none =>
      rw [hdef] at hfile
      rw [List.filterMap_cons_none hdef]
      exact List.rel_append hfile ih
    | some parts =>
      rw [hdef] at hfile
      rw [List.filterMap_cons_some hdef]
      exact List.rel_append hfile ih

/-! ### Blocks without name -/

/-- A block without name is the only one with its id. -/
theorem definitions_anonymous {ctx : NxtContext} {order : List ℕ}
    (hunique : AnonymousUnique ctx.names ctx.files) (hnodup : order.Nodup) {ref : NxtBlockRef}
    {blk : NxtBlock} (hfile : ref.file ∈ order) (hblk : blockAt ctx.files ref = some blk)
    (hnull : ctx.names[blk.id]? = some none) :
    definitions (visited ctx.files order) blk.id = if blk.defines then [(ref, blk)] else [] := by
  refine definitions_eq_of_unique (b := (ref, blk)) (visited_nodup hnodup)
    (mem_visited.mpr ⟨hfile, hblk⟩) ?_
  rintro ⟨ref', blk'⟩ hmem (hid : blk'.id = blk.id)
  have hblk' : blockAt ctx.files ref' = some blk' := (mem_visited.mp hmem).2
  obtain rfl : ref' = ref := by
    refine hunique ref' ref blk.id ?_ (blockIdAt_of_blockAt hblk) hnull
    rw [← hid]
    exact blockIdAt_of_blockAt hblk'
  exact Prod.ext rfl (Option.some.inj (hblk'.symm.trans hblk))

/-- A block without name has only what is included. -/
theorem ContextMatches.anonymous_value {ctx : NxtContext} (h : ContextMatches ctx)
    (hdistinct : ctx.Distinct) {ref : NxtBlockRef} {blk : NxtBlock}
    (hblk : blockAt ctx.files ref = some blk) (hnull : ctx.names[blk.id]? = some none) :
    ∀ vp ∈ blk.value, vp.insertAfterTextId = 0 := by
  obtain ⟨file, hfile, hget⟩ := Option.bind_eq_some_iff.mp hblk
  have hmatch := h.file ref.file file hfile
  rw [FileMatches] at hmatch
  cases hcontent : file.content with
  | none =>
    simp only [hcontent] at hmatch
    simp [hmatch] at hget
  | some content =>
    simp only [hcontent] at hmatch
    have hblocks := hmatch (hdistinct ref.file file content hfile hcontent)
    have hlt := hblocks.length_eq ▸ (List.getElem?_eq_some_iff.mp hget).1
    have hone := hblocks.block ref.blk blk _ hget (List.getElem?_eq_getElem hlt)
    cases hname : (outline ref.file (scanFile content)).blocks[ref.blk] with
    | none =>
      rw [hname] at hone
      exact hone.2
    | some name =>
      rw [hname] at hone
      rw [hone.2.1, List.getElem?_idxOf hone.1] at hnull
      cases hnull

end Nxweb
