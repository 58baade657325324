import Nxweb.Templates.Resolution
import Nxweb.Templates.Termination

/-!
# Template inheritance

The block that is rendered for a name is the definition in the last file, in post-order, that gives
the name a value, and a `parent` tag in a definition renders the one before it.

What `nxt_serialize_block` writes for the block of a name is what the definitions of the name render
(`Renders`). A pointer to a block stands for a list of definitions, its own and those found by
following `parent` (`Linked`). The one direction follows the recursion of the code, the other one that
of `Renders`.

## Main definitions

* `Linked`: a pointer stands for a list of definitions.

## Main results

* `nxtMerge_resolves`: each name is rendered as its definitions say.
-/

namespace Nxweb

open Lib

/-! ### One level of the recursion -/

variable {files : List NxtFile} {m : NxtMerged} {fuel fuel' : ℕ}

/-- What a part of the block at `ref` appends. -/
def partTexts (files : List NxtFile) (m : NxtMerged) (fuel : ℕ) (ref : NxtBlockRef)
    (vp : NxtValuePart) : Option (List (List UInt8)) :=
  let inserted :=
    if 0 < vp.insertAfterTextId then
      nxtSerializeBlock files m fuel (m.block vp.insertAfterTextId.toNat)
    else if vp.insertAfterTextId = bnParentId then nxtSerializeBlock files m fuel (m.parent ref)
    else some []
  inserted.map fun texts => if vp.text ≠ [] then vp.text :: texts else texts

theorem nxtSerializeBlock_succ (ref : NxtBlockRef) :
    nxtSerializeBlock files m (fuel + 1) (some ref) =
      (blockAt files ref).bind fun blk =>
        (blk.value.mapM (partTexts files m fuel ref)).map List.flatten := rfl

/-- A part appends its text, and what it inserts. -/
theorem partTexts_eq_some {ref : NxtBlockRef} {vp : NxtValuePart} {texts : List (List UInt8)} :
    partTexts files m fuel ref vp = some texts ↔ ∃ inserted,
      (if 0 < vp.insertAfterTextId then
          nxtSerializeBlock files m fuel (m.block vp.insertAfterTextId.toNat)
        else if vp.insertAfterTextId = bnParentId then
          nxtSerializeBlock files m fuel (m.parent ref)
        else some []) = some inserted ∧
      (if vp.text ≠ [] then vp.text :: inserted else inserted) = texts :=
  Option.map_eq_some_iff

theorem flatten_text (text : List UInt8) (inserted : List (List UInt8)) :
    (if text ≠ [] then text :: inserted else inserted).flatten = text ++ inserted.flatten := by
  by_cases h : text = [] <;> simp [h]

/-- What is written with some fuel is also written with more. -/
theorem nxtSerializeBlock_mono {ref? : Option NxtBlockRef} {texts : List (List UInt8)}
    (h : nxtSerializeBlock files m fuel ref? = some texts) (hle : fuel ≤ fuel') :
    nxtSerializeBlock files m fuel' ref? = some texts := by
  induction fuel generalizing fuel' ref? texts with
  | zero =>
    cases ref? with
    | none => simpa using h
    | some ref => cases h
  | succ fuel ih =>
    obtain ⟨fuel', rfl⟩ : ∃ k, fuel' = k + 1 := ⟨fuel' - 1, by omega⟩
    cases ref? with
    | none => simpa using h
    | some ref =>
      rw [nxtSerializeBlock_succ] at h ⊢
      obtain ⟨blk, hblk, hvalue⟩ := Option.bind_eq_some_iff.mp h
      obtain ⟨parts, hparts, rfl⟩ := Option.map_eq_some_iff.mp hvalue
      refine Option.bind_eq_some_iff.mpr ⟨blk, hblk, Option.map_eq_some_iff.mpr ⟨parts, ?_, rfl⟩⟩
      refine mapM_eq_some_iff.mpr ((mapM_eq_some_iff.mp hparts).imp fun vp texts hvp => ?_)
      obtain ⟨inserted, hins, htext⟩ := partTexts_eq_some.mp hvp
      refine partTexts_eq_some.mpr ⟨inserted, ?_, htext⟩
      split_ifs at hins ⊢
      · exact ih hins (by omega)
      · exact ih hins (by omega)
      · exact hins

theorem partTexts_mono {ref : NxtBlockRef} {vp : NxtValuePart} {texts : List (List UInt8)}
    (h : partTexts files m fuel ref vp = some texts) (hle : fuel ≤ fuel') :
    partTexts files m fuel' ref vp = some texts := by
  obtain ⟨inserted, hins, htext⟩ := partTexts_eq_some.mp h
  refine partTexts_eq_some.mpr ⟨inserted, ?_, htext⟩
  split_ifs at hins ⊢
  · exact nxtSerializeBlock_mono hins hle
  · exact nxtSerializeBlock_mono hins hle
  · exact hins

/-! ### Pointers and definitions -/

variable {ctx : NxtContext} {order : List ℕ}

/-- The merged files say what the template does. -/
structure Resolved (ctx : NxtContext) (order : List ℕ) (m : NxtMerged) : Prop where
  chain : ∀ id, m.Chain (m.block id)
    ((definitions (visited ctx.files order) id).map Prod.fst).reverse
  named : ∀ name, List.Forall₂ (Stands ctx)
    (definitions (visited ctx.files order) (ctx.blockId (some name))).reverse
    ((ctx.template order).chain name)
  anonymous : ∀ ref blk, ref.file ∈ order → blockAt ctx.files ref = some blk →
    ctx.names[blk.id]? = some none →
    definitions (visited ctx.files order) blk.id = (if blk.defines then [(ref, blk)] else []) ∧
      ∀ vp ∈ blk.value, vp.insertAfterTextId = 0

/-- The block at `ref?` stands for the first definition of a list, and those found by following
`parent` for the others. -/
def Linked (ctx : NxtContext) (order : List ℕ) (m : NxtMerged) (ref? : Option NxtBlockRef)
    (chain : List (List TemplatePart)) : Prop :=
  ∃ defs, m.Chain ref? (defs.map Prod.fst) ∧ (∀ b ∈ defs, b ∈ visited ctx.files order) ∧
    List.Forall₂ (Stands ctx) defs chain

namespace Resolved

/-- The block of a name stands for its definitions. -/
theorem linked (h : Resolved ctx order m) (name : List UInt8) :
    Linked ctx order m (m.block (ctx.blockId (some name))) ((ctx.template order).chain name) := by
  refine ⟨_, ?_, fun b hb => ?_, h.named name⟩
  · rw [List.map_reverse]
    exact h.chain _
  · exact (mem_definitions.mp (List.mem_reverse.mp hb)).1

/-- A block that includes a file is rendered as what it includes. -/
theorem included (h : Resolved ctx order m) {ref : NxtBlockRef} {blk : NxtBlock}
    (hfile : ref.file ∈ order) (hblk : blockAt ctx.files ref = some blk)
    (hnull : ctx.names[blk.id]? = some none) (hpos : 0 < blk.id) :
    (∀ fuel texts, nxtSerializeBlock ctx.files m fuel (m.block blk.id) = some texts →
        texts.flatten = (ctx.template order).included ref.file ref.blk) ∧
      ∃ texts, nxtSerializeBlock ctx.files m 1 (m.block blk.id) = some texts := by
  obtain ⟨hdefs, hvalue⟩ := h.anonymous ref blk hfile hblk hnull
  have hincluded : (ctx.template order).included ref.file ref.blk =
      (blk.value.map (·.text)).flatten := by
    simp [NxtContext.template, hblk]
  have hblock := (h.chain blk.id).head?_eq
  rw [hdefs] at hblock
  by_cases hdef : blk.defines
  · have hparts : ∀ fuel, blk.value.mapM (partTexts ctx.files m fuel ref) =
        some (blk.value.map fun vp => if vp.text ≠ [] then [vp.text] else []) := by
      intro fuel
      refine mapM_eq_some_iff.mpr (List.forall₂_map_right_iff.mpr (List.forall₂_same.mpr ?_))
      intro vp hvp
      exact partTexts_eq_some.mpr ⟨[], by simp [hvalue vp hvp, bnParentId], rfl⟩
    have hflat : (blk.value.map fun vp => if vp.text ≠ [] then [vp.text] else []).flatten.flatten =
        (blk.value.map (·.text)).flatten := by
      generalize blk.value = value
      induction value with
      | nil => rfl
      | cons vp value ih =>
        rw [List.map_cons, List.flatten_cons, List.flatten_append, ih, flatten_text]
        simp
    have hser : ∀ fuel, nxtSerializeBlock ctx.files m (fuel + 1) (m.block blk.id) =
        some (blk.value.map fun vp => if vp.text ≠ [] then [vp.text] else []).flatten := by
      intro fuel
      rw [← hblock, if_pos hdef]
      change nxtSerializeBlock ctx.files m (fuel + 1) (some ref) = _
      rw [nxtSerializeBlock_succ, hblk, Option.bind_some, hparts]
      rfl
    refine ⟨fun fuel texts htexts => ?_, _, hser 0⟩
    have hmore := nxtSerializeBlock_mono htexts (Nat.le_succ fuel)
    rw [hincluded, ← hflat, Option.some.inj (hmore.symm.trans (hser fuel))]
  · have hnil : blk.value = [] := by
      by_contra hne
      refine hdef (decide_eq_true ⟨hne, fun h0 => ?_⟩)
      omega
    rw [if_neg hdef] at hblock
    have hnone : m.block blk.id = none := hblock.symm
    refine ⟨fun fuel texts htexts => ?_, [], by rw [hnone, nxtSerializeBlock_none]⟩
    rw [hnone, nxtSerializeBlock_none] at htexts
    rw [← Option.some.inj htexts, hincluded, hnil]
    rfl

/-- The block that a part includes. -/
theorem included_part (h : Resolved ctx order m) {i j id : ℕ} (hfile : i ∈ order)
    (hid : (idsAt ctx.files i)[j]? = some id) (hnull : ctx.names[id]? = some none) (hpos : 0 < id) :
    (∀ fuel texts, nxtSerializeBlock ctx.files m fuel (m.block id) = some texts →
        texts.flatten = (ctx.template order).included i j) ∧
      ∃ texts, nxtSerializeBlock ctx.files m 1 (m.block id) = some texts := by
  obtain ⟨blk, hblk, rfl⟩ : ∃ blk, blockAt ctx.files ⟨i, j⟩ = some blk ∧ blk.id = id := by
    unfold idsAt at hid
    cases hget : ctx.files[i]? with
    | none => simp [hget] at hid
    | some file =>
      simp only [hget, Option.map_some, Option.getD_some, NxtFile.blockIds,
        List.getElem?_map] at hid
      obtain ⟨blk, hblk, hid⟩ := Option.map_eq_some_iff.mp hid
      exact ⟨blk, by simp [blockAt, hget, hblk], hid⟩
  exact h.included hfile hblk hnull hpos

/-- What is written for a pointer is rendered by the definitions that it stands for. -/
theorem renders_of_serialize (h : Resolved ctx order m) {fuel : ℕ} {ref? : Option NxtBlockRef}
    {chain : List (List TemplatePart)} {texts : List (List UInt8)}
    (hlinked : Linked ctx order m ref? chain)
    (hser : nxtSerializeBlock ctx.files m fuel ref? = some texts) :
    Renders (ctx.template order) chain texts.flatten := by
  induction fuel generalizing ref? chain texts with
  | zero =>
    obtain ⟨defs, hchain, -, hstands⟩ := hlinked
    cases hstands with
    | nil =>
      cases hchain
      obtain rfl := Option.some.inj hser
      exact .missing
    | cons _ _ =>
      cases hchain
      cases hser
  | succ fuel ih =>
    obtain ⟨defs, hchain, hmem, hstands⟩ := hlinked
    cases hstands with
    | nil =>
      cases hchain
      obtain rfl := Option.some.inj hser
      exact .missing
    | @cons b parts defs earlier hvalue hstands =>
      rw [List.map_cons] at hchain
      cases hchain with
      | cons hparent =>
        obtain ⟨hfile, hblk⟩ := mem_visited.mp (hmem b List.mem_cons_self)
        have hearlier : Linked ctx order m (m.parent b.1) earlier :=
          ⟨defs, hparent, fun b' hb' => hmem b' (List.mem_cons_of_mem _ hb'), hstands⟩
        rw [nxtSerializeBlock_succ, hblk, Option.bind_some] at hser
        obtain ⟨tss, htss, rfl⟩ := Option.map_eq_some_iff.mp hser
        -- along the parts of the block and what they append
        rw [Stands] at hvalue
        generalize b.2.value = value at hvalue htss
        replace htss := mapM_eq_some_iff.mp htss
        clear hser hstands
        induction hvalue generalizing tss with
        | nil =>
          cases htss
          exact .done
        | @cons vp part value parts hpart _ ihparts =>
          cases htss with
          | @cons _ ts _ tss hts htss =>
            have hrest := ihparts tss htss
            obtain ⟨inserted, hins, rfl⟩ := partTexts_eq_some.mp hts
            rw [List.flatten_cons, List.flatten_append, flatten_text]
            obtain ⟨text, insert⟩ := part
            obtain ⟨htext, hinsert⟩ := hpart
            rw [htext]
            cases insert with
            | nothing =>
              rw [show vp.insertAfterTextId = bnNoneId from hinsert, if_neg (by decide),
                if_neg (by decide)] at hins
              obtain rfl := Option.some.inj hins
              simpa using Renders.text hrest
            | block name =>
              obtain ⟨-, hpos, hid⟩ := hinsert
              rw [hid, if_pos (by exact_mod_cast hpos)] at hins
              exact .block (ih (h.linked name) hins) hrest
            | parent =>
              rw [show vp.insertAfterTextId = bnParentId from hinsert, if_neg (by decide),
                if_pos rfl] at hins
              exact .parent (ih hearlier hins) hrest
            | included i j =>
              obtain ⟨rfl, id, hpos, hj, hnull, hid⟩ := hinsert
              rw [hid, if_pos (by exact_mod_cast hpos)] at hins
              rw [(h.included_part hfile hj hnull hpos).1 fuel inserted hins]
              exact .included hrest

end Resolved

/-- What is written for a list of definitions: nothing, or what the parts of a block that match the
first one append. -/
def Written (ctx : NxtContext) (order : List ℕ) (m : NxtMerged) :
    List (List TemplatePart) → List UInt8 → Prop
  | [], out => out = []
  | parts :: earlier, out => ∀ ref value, ref.file ∈ order →
      Linked ctx order m (m.parent ref) earlier →
      List.Forall₂ (PartMatches ctx.names (idsAt ctx.files ref.file) ref.file) value parts →
      ∃ fuel tss, value.mapM (partTexts ctx.files m fuel ref) = some tss ∧ tss.flatten.flatten = out

/-- What is written for the definitions that a pointer stands for is written for the pointer. -/
theorem Written.serialize {ref? : Option NxtBlockRef} {chain : List (List TemplatePart)}
    {out : List UInt8} (h : Written ctx order m chain out) (hlinked : Linked ctx order m ref? chain) :
    ∃ fuel texts, nxtSerializeBlock ctx.files m fuel ref? = some texts ∧ texts.flatten = out := by
  obtain ⟨defs, hchain, hmem, hstands⟩ := hlinked
  cases hstands with
  | nil =>
    cases hchain
    obtain rfl : out = [] := h
    exact ⟨0, [], rfl, rfl⟩
  | @cons b parts defs earlier hvalue hstands =>
    rw [List.map_cons] at hchain
    cases hchain with
    | cons hparent =>
      obtain ⟨hfile, hblk⟩ := mem_visited.mp (hmem b List.mem_cons_self)
      obtain ⟨fuel, tss, htss, hout⟩ := h b.1 b.2.value hfile
        ⟨defs, hparent, fun b' hb' => hmem b' (List.mem_cons_of_mem _ hb'), hstands⟩ hvalue
      refine ⟨fuel + 1, tss.flatten, ?_, hout⟩
      rw [nxtSerializeBlock_succ, hblk, Option.bind_some, htss, Option.map_some]

/-- A part and those behind it are written with enough fuel for all of them. -/
theorem written_cons (fuel : ℕ) {ref : NxtBlockRef} {vp : NxtValuePart} {value : List NxtValuePart}
    (inserted : List (List UInt8)) {rest : List UInt8}
    (hins : (if 0 < vp.insertAfterTextId then
          nxtSerializeBlock ctx.files m fuel (m.block vp.insertAfterTextId.toNat)
        else if vp.insertAfterTextId = bnParentId then
          nxtSerializeBlock ctx.files m fuel (m.parent ref)
        else some []) = some inserted)
    (hrest : ∃ fuel tss, value.mapM (partTexts ctx.files m fuel ref) = some tss ∧
      tss.flatten.flatten = rest) :
    ∃ fuel tss, (vp :: value).mapM (partTexts ctx.files m fuel ref) = some tss ∧
      tss.flatten.flatten = vp.text ++ inserted.flatten ++ rest := by
  obtain ⟨fuel', tss, htss, rfl⟩ := hrest
  have hpart : partTexts ctx.files m fuel ref vp =
      some (if vp.text ≠ [] then vp.text :: inserted else inserted) :=
    partTexts_eq_some.mpr ⟨inserted, hins, rfl⟩
  refine ⟨max fuel fuel', (if vp.text ≠ [] then vp.text :: inserted else inserted) :: tss,
    mapM_eq_some_iff.mpr (.cons ?_ ?_), ?_⟩
  · exact partTexts_mono hpart (le_max_left _ _)
  · exact (mapM_eq_some_iff.mp htss).imp fun _ _ hvp => partTexts_mono hvp (le_max_right _ _)
  · rw [List.flatten_cons, List.flatten_append, flatten_text]

/-- What definitions render is written. -/
theorem Resolved.written (h : Resolved ctx order m) {chain : List (List TemplatePart)}
    {out : List UInt8} (hrenders : Renders (ctx.template order) chain out) :
    Written ctx order m chain out := by
  induction hrenders with
  | missing => rfl
  | done =>
    intro ref value _ _ hvalue
    cases hvalue
    exact ⟨0, [], rfl, rfl⟩
  | text _ ihrest =>
    intro ref value hfile hearlier hvalue
    cases hvalue with
    | @cons vp _ value _ hpart hvalue =>
      obtain ⟨rfl, (hid : vp.insertAfterTextId = bnNoneId)⟩ := hpart
      have hrest := ihrest ref value hfile hearlier hvalue
      simpa using written_cons 0 [] (by simp [hid, bnNoneId, bnParentId]) hrest
  | block _ _ ihins ihrest =>
    intro ref value hfile hearlier hvalue
    cases hvalue with
    | @cons vp _ value _ hpart hvalue =>
      obtain ⟨rfl, -, hpos, hid⟩ := hpart
      have hrest := ihrest ref value hfile hearlier hvalue
      obtain ⟨fuel, inserted, hins, rfl⟩ := ihins.serialize (h.linked _)
      refine written_cons fuel inserted ?_ hrest
      rw [hid, if_pos (by exact_mod_cast hpos)]
      exact hins
  | parent _ _ ihins ihrest =>
    intro ref value hfile hearlier hvalue
    cases hvalue with
    | @cons vp _ value _ hpart hvalue =>
      obtain ⟨rfl, (hid : vp.insertAfterTextId = bnParentId)⟩ := hpart
      have hrest := ihrest ref value hfile hearlier hvalue
      obtain ⟨fuel, inserted, hins, rfl⟩ := ihins.serialize hearlier
      refine written_cons fuel inserted ?_ hrest
      rw [hid, if_neg (by decide), if_pos rfl]
      exact hins
  | included _ ihrest =>
    intro ref value hfile hearlier hvalue
    cases hvalue with
    | @cons vp _ value _ hpart hvalue =>
      obtain ⟨rfl, rfl, id, hpos, hj, hnull, hid⟩ := hpart
      have hrest := ihrest ref value hfile hearlier hvalue
      obtain ⟨hall, inserted, hins⟩ := h.included_part hfile hj hnull hpos
      rw [← hall 1 inserted hins]
      refine written_cons 1 inserted ?_ hrest
      rw [hid, if_pos (by exact_mod_cast hpos)]
      exact hins

/-- What is written for the block of a name is what its definitions render. -/
theorem Resolved.serialize_iff (h : Resolved ctx order m) (name out : List UInt8) :
    (∃ fuel texts, nxtSerializeBlock ctx.files m fuel (m.block (ctx.blockId (some name))) =
        some texts ∧ texts.flatten = out) ↔
      Renders (ctx.template order) ((ctx.template order).chain name) out := by
  constructor
  · rintro ⟨fuel, texts, hser, rfl⟩
    exact h.renders_of_serialize (h.linked name) hser
  · exact fun hrenders => (h.written hrenders).serialize (h.linked name)

/-! ### Runs -/

/-- Every run without error whose files have distinct names is resolved. -/
theorem exists_resolved {uri : List UInt8} {es : List NxtEvent}
    (hrun : run nxtStep (nxtInit uri) es = some (.merged ctx m)) (herror : ctx.error = false)
    (hdistinct : ctx.Distinct) :
    ∃ order, PostOrder (parentsOf ctx.files) [0] order ∧ Resolved ctx order m := by
  have hsound := sound_of_run hrun
  obtain ⟨htree, hmerge⟩ := hsound.inTree
  obtain ⟨order, horder, hnodup, hchain⟩ := nxtMerge_chain htree herror hmerge
  have hmatches : ContextMatches ctx := hsound.outlines herror
  refine ⟨order, horder, hchain, definitions_stand hmatches hsound.counted.lt hdistinct order, ?_⟩
  intro ref blk hfile hblk hnull
  exact ⟨definitions_anonymous hsound.anonymous hnodup hfile hblk hnull,
    hmatches.anonymous_value hdistinct hblk hnull⟩

/-- After files with distinct block names have been parsed without error and merged, the block of a
name is written as the definitions of the name render: as the definition in the last file that gives
it a value, in post-order, with what the definitions before it render in place of its `parent`
tags. -/
theorem nxtMerge_resolves {uri : List UInt8} {es : List NxtEvent}
    (hrun : run nxtStep (nxtInit uri) es = some (.merged ctx m)) (herror : ctx.error = false)
    (hdistinct : ctx.Distinct) :
    ∃ order, PostOrder (parentsOf ctx.files) [0] order ∧ ∀ name out,
      ((∃ fuel texts, nxtSerializeBlock ctx.files m fuel (m.block (ctx.blockId (some name))) =
          some texts ∧ texts.flatten = out) ↔
        Renders (ctx.template order) ((ctx.template order).chain name) out) := by
  obtain ⟨order, horder, hresolved⟩ := exists_resolved hrun herror hdistinct
  exact ⟨order, horder, hresolved.serialize_iff⟩

/-- A page that replaces a block of the one it extends, and renders what it replaces. -/
theorem nxtMerge_resolves_page :
    ∃ ctx m, run nxtStep (nxtInit (bytes "/a"))
        ([.parseFile 0 (bytes "{% use /b %}{% block t %}[{% parent %}]{% endblock %}")] ++
          List.replicate 5 (.turn fun _ => true) ++
          [.parseFile 1 (bytes "<{% block t %}base{% endblock %}>")] ++
          List.replicate 4 (.turn fun _ => true) ++ [.merge]) = some (.merged ctx m) ∧
      ctx.error = false ∧ ctx.Distinct ∧
      ∃ order, PostOrder (parentsOf ctx.files) [0] order ∧ ∀ name out,
        ((∃ fuel texts, nxtSerializeBlock ctx.files m fuel (m.block (ctx.blockId (some name))) =
            some texts ∧ texts.flatten = out) ↔
          Renders (ctx.template order) ((ctx.template order).chain name) out) := by
  obtain ⟨ctx, m, hrun, herror, hcontents⟩ : ∃ ctx m, run nxtStep (nxtInit (bytes "/a"))
        ([.parseFile 0 (bytes "{% use /b %}{% block t %}[{% parent %}]{% endblock %}")] ++
          List.replicate 5 (.turn fun _ => true) ++
          [.parseFile 1 (bytes "<{% block t %}base{% endblock %}>")] ++
          List.replicate 4 (.turn fun _ => true) ++ [.merge]) = some (.merged ctx m) ∧
      ctx.error = false ∧ ctx.files.map (·.content) =
        [some (bytes "{% use /b %}{% block t %}[{% parent %}]{% endblock %}"),
          some (bytes "<{% block t %}base{% endblock %}>")] := ⟨_, _, rfl, rfl, rfl⟩
  have hdistinct : ctx.Distinct := by
    intro i file content hfile hcontent
    have hmem : some content ∈ ctx.files.map (·.content) :=
      List.mem_map.mpr ⟨file, List.mem_of_getElem? hfile, hcontent⟩
    rw [hcontents] at hmem
    rcases List.mem_cons.mp hmem with h | hmem
    · obtain rfl := Option.some.inj h
      unfold DistinctBlocks
      decide
    · obtain rfl := Option.some.inj (List.mem_singleton.mp hmem)
      unfold DistinctBlocks
      decide
  exact ⟨ctx, m, hrun, herror, hdistinct, nxtMerge_resolves hrun herror hdistinct⟩

end Nxweb
