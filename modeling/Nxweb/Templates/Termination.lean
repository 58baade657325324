import Nxweb.Templates.FileTree
import Nxweb.Lib.BoundedRecursion

/-!
# When rendering a template terminates

A part of a block inserts the last definition of another block, or the definition that its own block
overrides. The recursion of `nxt_serialize_block` follows these references, and nothing keeps them
from leading back to where they come from: a block may be put into itself, in one file by using its
name again inside of it, or by two files that nest the same blocks the other way around.

## Main definitions

* `Inserts`: the references between definitions, as they are before merging.

## Main results

* `nxtSerialize_terminates_iff`: rendering terminates exactly if no definition that can be reached
  from the top block is reached from itself;
* `nxtSerialize_diverges`: a template in which a block contains itself.
-/

namespace Nxweb

open Lib Relation

/-- Pointers to the definitions of an id. -/
def definitionRefs (blks : List (NxtBlockRef × NxtBlock)) (id : ℕ) : List NxtBlockRef :=
  (definitions blks id).map Prod.fst

/-- A part of the block at `ref` inserts the one at `ref'`: by its id, of which this is the last
definition, or with a `parent` tag, when it is the definition in front of the one at `ref`. -/
def Inserts (files : List NxtFile) (blks : List (NxtBlockRef × NxtBlock))
    (ref ref' : NxtBlockRef) : Prop :=
  ∃ blk vp, blockAt files ref = some blk ∧ vp ∈ blk.value ∧
    (0 < vp.insertAfterTextId ∧
        (definitionRefs blks vp.insertAfterTextId.toNat).getLast? = some ref' ∨
      vp.insertAfterTextId = bnParentId ∧
        ∃ earlier later, definitionRefs blks blk.id = earlier ++ ref' :: ref :: later)

/-- What `nxt_merge` has assigned, in terms of the blocks that it has visited. -/
structure Assigned (files : List NxtFile) (blks : List (NxtBlockRef × NxtBlock))
    (m : NxtMerged) : Prop where
  blockAt_eq : ∀ b ∈ blks, blockAt files b.1 = some b.2
  chain : ∀ id, m.Chain (m.block id) (definitionRefs blks id).reverse

/-- A missing block is written with any bound. -/
@[simp]
theorem nxtSerializeBlock_none (files : List NxtFile) (m : NxtMerged) (fuel : ℕ) :
    nxtSerializeBlock files m fuel none = some [] := by
  cases fuel <;> rfl

variable {files : List NxtFile} {blks : List (NxtBlockRef × NxtBlock)} {m : NxtMerged}

/-- The block at `ref` is a definition. -/
def IsDefinition (blks : List (NxtBlockRef × NxtBlock)) (ref : NxtBlockRef) : Prop :=
  ∃ id, ref ∈ definitionRefs blks id

namespace Assigned

/-- The block of an id is its last definition. -/
theorem block_eq (h : Assigned files blks m) (id : ℕ) :
    m.block id = (definitionRefs blks id).getLast? := by
  rw [← (h.chain id).head?_eq, List.head?_reverse]

/-- The parent of a definition is the one in front of it. -/
theorem parent_eq (h : Assigned files blks m) {id : ℕ} {ref : NxtBlockRef}
    {earlier later : List NxtBlockRef}
    (hrefs : definitionRefs blks id = earlier ++ ref :: later) :
    m.parent ref = earlier.getLast? := by
  have hchain := h.chain id
  rw [hrefs, List.reverse_append, List.reverse_cons, List.append_assoc,
    List.singleton_append] at hchain
  rw [← hchain.parent_eq.head?_eq, List.head?_reverse]

/-- A definition is a block of a file, of the id that it defines. -/
theorem exists_block (h : Assigned files blks m) {id : ℕ} {ref : NxtBlockRef}
    (href : ref ∈ definitionRefs blks id) : ∃ blk, blockAt files ref = some blk ∧ blk.id = id := by
  obtain ⟨b, hb, rfl⟩ := List.mem_map.mp href
  obtain ⟨hmem, hid⟩ := List.mem_filter.mp hb
  exact ⟨b.2, h.blockAt_eq b hmem, (of_decide_eq_true hid).2⟩

/-- One level of the recursion. -/
theorem isSome_succ_iff (h : Assigned files blks m) (fuel : ℕ) {ref : NxtBlockRef}
    (href : IsDefinition blks ref) :
    (nxtSerializeBlock files m (fuel + 1) (some ref)).isSome ↔
      ∀ ref', Inserts files blks ref ref' → (nxtSerializeBlock files m fuel (some ref')).isSome := by
  obtain ⟨id, href⟩ := href
  obtain ⟨blk, hblk, rfl⟩ := h.exists_block href
  obtain ⟨earlier, later, hrefs⟩ := List.append_of_mem href
  have hparent := h.parent_eq hrefs
  simp only [nxtSerializeBlock, hblk, Option.bind_some, Option.isSome_map, isSome_mapM_iff]
  constructor
  · rintro hall ref' ⟨blk', vp, hblk', hvp, hcase⟩
    obtain rfl := Option.some.inj (hblk.symm.trans hblk')
    have hvp := hall vp hvp
    rcases hcase with ⟨hpos, hlast⟩ | ⟨hins, earlier', later', hrefs'⟩
    · rwa [if_pos hpos, h.block_eq, hlast] at hvp
    · have hrefs'' : definitionRefs blks blk.id = earlier' ++ [ref'] ++ ref :: later' := by
        rw [hrefs', List.append_assoc, List.singleton_append]
      have hparent' := h.parent_eq hrefs''
      rwa [hins, if_neg (by decide), if_pos rfl, hparent', List.getLast?_concat] at hvp
  · intro hall vp hvp
    split_ifs with hpos hins
    · rw [h.block_eq]
      cases hlast : (definitionRefs blks vp.insertAfterTextId.toNat).getLast? with
      | none => simp
      | some ref' => exact hall ref' ⟨blk, vp, hblk, hvp, .inl ⟨hpos, hlast⟩⟩
    · rw [hparent]
      cases hlast : earlier.getLast? with
      | none => simp
      | some ref' =>
        obtain ⟨earlier', rfl⟩ := List.getLast?_eq_some_iff.mp hlast
        refine hall ref' ⟨blk, vp, hblk, hvp, .inr ⟨hins, earlier', later, ?_⟩⟩
        rw [hrefs, List.append_assoc, List.singleton_append]
    · rfl

theorem calls (h : Assigned files blks m) :
    Calls (Inserts files blks) (IsDefinition blks)
      (fun fuel ref => (nxtSerializeBlock files m fuel (some ref)).isSome) where
  zero ref := by simp [nxtSerializeBlock]
  succ fuel ref href := h.isSome_succ_iff fuel href
  valid := by
    rintro ref ref' - ⟨blk, vp, -, -, ⟨-, hlast⟩ | ⟨-, earlier, later, hrefs⟩⟩
    · exact ⟨_, List.mem_of_getLast? hlast⟩
    · exact ⟨blk.id, by simp [hrefs]⟩

end Assigned

/-- What `nxt_merge` assigns to the files of a context that has been reached. -/
theorem exists_assigned {uri : List UInt8} {es : List NxtEvent} {ctx : NxtContext} {m : NxtMerged}
    (hrun : run nxtStep (nxtInit uri) es = some (.merged ctx m)) (herror : ctx.error = false) :
    ∃ order, PostOrder (parentsOf ctx.files) [0] order ∧
      Assigned ctx.files (visited ctx.files order) m := by
  obtain ⟨htree, hmerge⟩ : (NxtRun.merged ctx m).InTree :=
    run_inv (fun _ _ _ => nxtStep_inTree) (inTree_nxtInit uri) hrun
  obtain ⟨order, horder, -, hchain⟩ := nxtMerge_chain htree herror hmerge
  refine ⟨order, horder, fun b hb => (mem_visited.mp hb).2, fun id => ?_⟩
  rw [definitionRefs]
  exact hchain id

/-- A run that parses all files without error renders a text, to a stream or as nodes, exactly if the
references between its definitions lead from none that can be reached from the top block back to
itself. -/
theorem nxtSerialize_terminates_iff {uri : List UInt8} {es : List NxtEvent} {ctx : NxtContext}
    {m : NxtMerged} (hrun : run nxtStep (nxtInit uri) es = some (.merged ctx m))
    (herror : ctx.error = false) :
    ∃ order, PostOrder (parentsOf ctx.files) [0] order ∧
      let blks := visited ctx.files order
      ((∃ fuel, (nxtSerialize ctx m fuel).isSome) ∧ (∃ fuel, (nxtSerializeToCs ctx m fuel).isSome) ↔
        ∀ top, (definitionRefs blks 0).getLast? = some top →
          ∀ ref, ReflTransGen (Inserts ctx.files blks) top ref →
            ¬ TransGen (Inserts ctx.files blks) ref ref) := by
  obtain ⟨order, horder, h⟩ := exists_assigned hrun herror
  refine ⟨order, horder, ?_⟩
  simp only [nxtSerialize, nxtSerializeToCs, herror, Bool.false_eq_true, if_false,
    Option.isSome_map, and_self, h.block_eq]
  cases htop : (definitionRefs (visited ctx.files order) 0).getLast? with
  | none => simp
  | some top =>
    have hfin : {ref | IsDefinition (visited ctx.files order) ref}.Finite := by
      refine ((visited ctx.files order).map Prod.fst).finite_toSet.subset ?_
      rintro ref ⟨id, href⟩
      obtain ⟨b, hb, rfl⟩ := List.mem_map.mp href
      exact List.mem_map_of_mem (List.mem_of_mem_filter hb)
    have hvalid : IsDefinition (visited ctx.files order) top := ⟨0, List.mem_of_getLast? htop⟩
    have hreach : ∀ ref, ReflTransGen (Inserts ctx.files (visited ctx.files order)) top ref →
        IsDefinition (visited ctx.files order) ref := by
      intro ref href
      induction href with
      | refl => exact hvalid
      | tail _ hins ih => exact h.calls.valid _ _ ih hins
    rw [h.calls.exists_depth_iff_acc (fun ref href => hfin.subset (h.calls.valid ref · href)) hvalid,
      acc_iff_forall_not_cycle (hfin.subset hreach)]
    simp

/-- A page with one block. -/
theorem nxtSerialize_terminates_iff_block :
    ∃ ctx m, run nxtStep (nxtInit (bytes "/a"))
        [.parseFile 0 (bytes "x{% block a %}y{% endblock %}"), .turn fun _ => true,
          .turn fun _ => true, .turn fun _ => true, .merge] = some (.merged ctx m) ∧
      ctx.error = false ∧
      ∃ order, PostOrder (parentsOf ctx.files) [0] order ∧
        let blks := visited ctx.files order
        ((∃ fuel, (nxtSerialize ctx m fuel).isSome) ∧
            (∃ fuel, (nxtSerializeToCs ctx m fuel).isSome) ↔
          ∀ top, (definitionRefs blks 0).getLast? = some top →
            ∀ ref, ReflTransGen (Inserts ctx.files blks) top ref →
              ¬ TransGen (Inserts ctx.files blks) ref ref) := by
  obtain ⟨ctx, m, hrun, herror⟩ : ∃ ctx m, run nxtStep (nxtInit (bytes "/a"))
        [.parseFile 0 (bytes "x{% block a %}y{% endblock %}"), .turn fun _ => true,
          .turn fun _ => true, .turn fun _ => true, .merge] = some (.merged ctx m) ∧
      ctx.error = false := ⟨_, _, rfl, rfl⟩
  exact ⟨ctx, m, hrun, herror, nxtSerialize_terminates_iff hrun herror⟩

/-- A page with a block that is used again inside of itself is accepted, and never rendered. -/
theorem nxtSerialize_diverges :
    ∃ ctx m, run nxtStep (nxtInit (bytes "/a"))
        [.parseFile 0 (bytes "x{% block a %}{% block a %}{% endblock %}{% endblock %}"),
          .turn fun _ => true, .turn fun _ => true, .turn fun _ => true, .turn fun _ => true,
          .turn fun _ => true, .merge] = some (.merged ctx m) ∧
      ctx.error = false ∧
      ∀ fuel, nxtSerialize ctx m fuel = none ∧ nxtSerializeToCs ctx m fuel = none := by
  obtain ⟨ctx, m, hrun, herror, htop, hblock, htopAt, hblockAt⟩ : ∃ ctx m,
      run nxtStep (nxtInit (bytes "/a"))
        [.parseFile 0 (bytes "x{% block a %}{% block a %}{% endblock %}{% endblock %}"),
          .turn fun _ => true, .turn fun _ => true, .turn fun _ => true, .turn fun _ => true,
          .turn fun _ => true, .merge] = some (.merged ctx m) ∧
      ctx.error = false ∧ m.block 0 = some ⟨0, 0⟩ ∧ m.block 1 = some ⟨0, 1⟩ ∧
      blockAt ctx.files ⟨0, 0⟩ = some { id := 0, value := [⟨bytes "x", 1⟩] } ∧
      blockAt ctx.files ⟨0, 1⟩ = some { id := 1, clearOnAppend := true, value := [⟨[], 1⟩] } :=
    ⟨_, _, rfl, rfl, rfl, rfl, rfl, rfl⟩
  have hblock' : ∀ fuel, nxtSerializeBlock ctx.files m fuel (some ⟨0, 1⟩) = none := by
    intro fuel
    induction fuel with
    | zero => rfl
    | succ fuel ih => simp [nxtSerializeBlock, hblockAt, hblock, ih]
  have htop' : ∀ fuel, nxtSerializeBlock ctx.files m fuel (some ⟨0, 0⟩) = none := by
    intro fuel
    cases fuel with
    | zero => rfl
    | succ fuel => simp [nxtSerializeBlock, htopAt, hblock, hblock']
  exact ⟨ctx, m, hrun, herror, fun fuel => by
    simp [nxtSerialize, nxtSerializeToCs, herror, htop, htop']⟩

end Nxweb
