import Nxweb.Templates.Rendering
import Nxweb.Lib.PostOrder

/-!
# The tree of the files of a template

Each file that is extended is created for the one that extends it, so the files of a context form a
tree. `nxt_merge` visits it in post-order, the files that a file extends from left to right and
before the file. It visits every block once, so what it assigns can be read off the sequence of
blocks: the block of an id is the last definition of the id in that sequence, and following `parent`
goes through the earlier ones.

## Main definitions

* `parentsOf`: the tree;
* `definitions`: the blocks that define an id, in the order in which they are visited;
* `NxtMerged.Chain`: what is found by following `parent`.

## Main results

* `nxtStep_inTree`: the files of every reachable context form a tree;
* `nxtMerge_chain`: what `nxt_merge` assigns.
-/

namespace Nxweb

open Lib Lib.PostOrder

/-! ### The tree -/

/-- The files that the one at `i` extends. -/
def parentsOf (files : List NxtFile) (i : ℕ) : List ℕ := (files[i]?.map (·.parents)).getD []

/-- The files of the context of a parser, with the one that it works on. -/
def NxtParse.files (p : NxtParse) : List NxtFile := p.ctx.files.set p.index p.file

/-- The files of a context. -/
def NxtRun.files : NxtRun → List NxtFile
  | .idle ctx => ctx.files
  | .parsing p => p.files
  | .merged ctx _ => ctx.files

/-- The files form a tree, in which the first one is the root. -/
structure InTree (files : List NxtFile) : Prop where
  forest : Forest (parentsOf files) files.length
  pos : 0 < files.length

/-- The files of a parser form a tree. -/
structure NxtParse.InTree (p : NxtParse) : Prop where
  tree : Nxweb.InTree p.files
  index_lt : p.index < p.ctx.files.length

theorem parentsOf_set {files : List NxtFile} {i : ℕ} (hi : i < files.length) (file : NxtFile) :
    parentsOf (files.set i file) = Function.update (parentsOf files) i file.parents := by
  funext j
  by_cases hj : j = i
  · subst hj
    simp [parentsOf, List.getElem?_set_self hi]
  · rw [Function.update_of_ne hj, parentsOf, parentsOf, List.getElem?_set_ne (Ne.symm hj)]

/-- A change of the file that keeps what it extends keeps the tree. -/
theorem NxtParse.InTree.congr {p p' : NxtParse} (hp : p.InTree)
    (hparents : p'.file.parents = p.file.parents) (hfiles : p'.ctx.files = p.ctx.files)
    (hindex : p'.index = p.index) : p'.InTree where
  tree := by
    have hi := hp.index_lt
    obtain ⟨hforest, hpos⟩ := hp.tree
    rw [NxtParse.files, parentsOf_set hi, List.length_set] at hforest
    rw [NxtParse.files, List.length_set] at hpos
    refine ⟨?_, by rwa [NxtParse.files, hfiles, List.length_set]⟩
    rw [NxtParse.files, hfiles, hindex, parentsOf_set hi, hparents, List.length_set]
    exact hforest
  index_lt := by rw [hindex, hfiles]; exact hp.index_lt

/-- A file is created for the one that extends it. -/
theorem NxtParse.InTree.addParent {p : NxtParse} {new : NxtFile} {filesPending : ℤ}
    (hp : p.InTree) (hnew : new.Fresh) : (p.addParent new filesPending).InTree := by
  have hi := hp.index_lt
  have hi' : p.index < (p.ctx.files ++ [new]).length := by
    rw [List.length_append]
    omega
  have hlength : p.files.length = p.ctx.files.length := List.length_set ..
  have hforest := hp.tree.forest.addChild (i := p.index) (by omega)
  have hparents : parentsOf (p.addParent new filesPending).files =
      Function.update (parentsOf p.files) p.index
        (parentsOf p.files p.index ++ [p.files.length]) := by
    have hnil : parentsOf (p.ctx.files ++ [new]) = parentsOf p.ctx.files := by
      funext j
      rcases lt_or_ge j p.ctx.files.length with hj | hj
      · simp only [parentsOf, List.getElem?_append_left hj]
      · rw [parentsOf, parentsOf, List.getElem?_append_right hj, List.getElem?_eq_none hj]
        cases j - p.ctx.files.length with
        | zero => simp [hnew.1]
        | succ k => rfl
    change parentsOf ((p.ctx.files ++ [new]).set p.index _) = _
    rw [parentsOf_set hi', hnil, hlength, NxtParse.files, parentsOf_set hi,
      Function.update_self, Function.update_idem]
    rfl
  have hlength' : (p.addParent new filesPending).files.length = p.files.length + 1 := by
    rw [hlength]
    exact (List.length_set ..).trans (List.length_append ..)
  exact ⟨⟨by rw [hparents, hlength']; exact hforest, by omega⟩, hi'⟩

theorem nxtStable_inTree : NxtStable NxtParse.InTree where
  scan _ _ _ hp := hp.congr rfl rfl rfl
  move _ _ _ hp := hp.congr rfl rfl rfl
  append _ _ _ hp := hp.congr rfl rfl rfl
  mark _ _ hp := hp.congr rfl rfl rfl
  create _ _ hp := hp.congr rfl rfl rfl
  pend _ _ hp := hp.congr rfl rfl rfl
  addParent _ _ _ hnew hp := hp.addParent hnew

/-- The files of the machine form a tree, and it is this tree that has been merged. -/
def NxtRun.InTree : NxtRun → Prop
  | .idle ctx => Nxweb.InTree ctx.files
  | .parsing p => p.InTree
  | .merged ctx m => Nxweb.InTree ctx.files ∧ nxtMerge ctx = some m

theorem inTree_nxtInit (uri : List UInt8) : (nxtInit uri).InTree := by
  have hparents : parentsOf (nxtFileCreate {} uri).files = fun _ => [] := by
    funext i
    cases i <;> rfl
  exact ⟨by rw [hparents]; exact forest_nil _, Nat.one_pos⟩

theorem nxtIncluded_inTree {ctx : NxtContext} (ref : NxtBlockRef) (content : List UInt8)
    (h : InTree ctx.files) : InTree (nxtIncluded ctx ref content).files := by
  have hparents : parentsOf (nxtIncluded ctx ref content).files = parentsOf ctx.files := by
    have hmap : (nxtIncluded ctx ref content).files.map (·.parents) =
        ctx.files.map (·.parents) := by
      rw [nxtIncluded, map_modify_of_eq]
      exact fun _ => rfl
    funext i
    rw [parentsOf, parentsOf, ← List.getElem?_map, ← List.getElem?_map, hmap]
  have hlength : (nxtIncluded ctx ref content).files.length = ctx.files.length :=
    List.length_modify ..
  exact ⟨by rw [hparents, hlength]; exact h.forest, by rw [hlength]; exact h.pos⟩

/-- The files form a tree in every run. -/
theorem nxtStep_inTree {r r' : NxtRun} {e : NxtEvent} (hr : r.InTree)
    (h : nxtStep r e = some r') : r'.InTree := by
  unfold nxtStep at h
  split at h
  case h_1 ctx index content =>
    split_ifs at h
    obtain ⟨p, hstart, rfl⟩ := Option.map_eq_some_iff.mp h
    refine nxtParseStart_inv nxtStable_inTree (fun file hfile => ?_) hstart
    obtain ⟨hlt, rfl⟩ := List.getElem?_eq_some_iff.mp hfile
    have hparents : parentsOf (ctx.files.set index
        { ctx.files[index] with content := some content }) = parentsOf ctx.files := by
      rw [parentsOf_set hlt, Function.update_eq_self_iff, parentsOf, hfile]
      rfl
    refine ⟨⟨?_, ?_⟩, hlt⟩
    · rw [NxtParse.files, hparents, List.length_set]
      exact hr.forest
    · rw [NxtParse.files, List.length_set]
      exact hr.pos
  case h_2 p load =>
    obtain ⟨o, hturn, rfl⟩ := Option.map_eq_some_iff.mp h
    have ho := nxtParseStep_inv nxtStable_inTree hr hturn
    cases o with
    | next p' => exact ho
    | ret ctx code =>
      obtain ⟨p', error, hp', rfl⟩ := ho
      exact hp'.tree
  case h_3 ctx ref content =>
    split at h
    · split_ifs at h
      obtain rfl := Option.some.inj h
      exact nxtIncluded_inTree ref content hr
    · cases h
  case h_4 ctx =>
    obtain rfl := Option.some.inj h
    exact hr
  case h_5 ctx =>
    split_ifs at h
    obtain ⟨m, hmerge, rfl⟩ := Option.map_eq_some_iff.mp h
    exact ⟨hr, hmerge⟩
  case h_6 => cases h

/-- The first file has a post-order, which visits no file twice and only files of the context. -/
theorem InTree.exists_postOrder {files : List NxtFile} (h : InTree files) :
    ∃ order, PostOrder (parentsOf files) [0] order ∧ order.Nodup := by
  obtain ⟨order, horder⟩ :=
    h.forest.exists_postOrder [0] (by simpa using h.pos)
  exact ⟨order, horder, horder.nodup h.forest (List.nodup_singleton 0) (by simp)⟩

/-! ### Merging along the order -/

/-- The blocks that are visited when the files are merged in `order`. -/
def visited (files : List NxtFile) (order : List ℕ) : List (NxtBlockRef × NxtBlock) :=
  order.flatMap fun i => (files[i]?.map (·.blockRefs i)).getD []

/-- The definitions of an id in a sequence of blocks. -/
def definitions (blks : List (NxtBlockRef × NxtBlock)) (id : ℕ) : List (NxtBlockRef × NxtBlock) :=
  blks.filter fun b => b.2.defines ∧ b.2.id = id

/-- What is assigned when a sequence of blocks is merged. -/
def mergeBlocks (blks : List (NxtBlockRef × NxtBlock)) : NxtMerged :=
  blks.foldl (fun m (ref, blk) => nxtMergeBlock m ref blk) {}

/-- Merging is a fold over the blocks that are visited. -/
theorem nxtMerge_eq_foldl {ctx : NxtContext} {order : List ℕ} (h : InTree ctx.files)
    (hnames : ctx.names.length ≤ nxtMaxBlocks) (herror : ctx.error = false)
    (horder : PostOrder (parentsOf ctx.files) [0] order) :
    nxtMerge ctx = some (mergeBlocks (visited ctx.files order)) := by
  have hvisit : ∀ fuel a m, a < ctx.files.length → nxtMergeFile ctx.files (fuel + 1) a m =
      ((parentsOf ctx.files a).foldlM (fun m b => nxtMergeFile ctx.files fuel b m) m).map fun m =>
        ((ctx.files[a]?.map (·.blockRefs a)).getD []).foldl
          (fun m (ref, blk) => nxtMergeBlock m ref blk) m := by
    intro fuel a m ha
    simp only [nxtMergeFile, parentsOf, List.getElem?_eq_getElem ha, Option.bind_some,
      Option.map_some, Option.getD_some]
  have hfold := horder.foldlM_eq h.forest.toNumbered hvisit ctx.files.length {}
    (by simpa using h.pos)
  rw [nxtMerge, if_neg (by omega), herror, mergeBlocks, visited, List.foldl_flatMap, ← hfold]
  simp

/-! ### Chains of definitions -/

/-- Following `parent` from `ref?` leads through `refs`. -/
inductive NxtMerged.Chain (m : NxtMerged) : Option NxtBlockRef → List NxtBlockRef → Prop
  | nil : m.Chain none []
  | cons {ref : NxtBlockRef} {refs : List NxtBlockRef} :
      m.Chain (m.parent ref) refs → m.Chain (some ref) (ref :: refs)

/-- A block that is not in the chain can be given another parent. -/
theorem NxtMerged.Chain.congr {m m' : NxtMerged} {ref? : Option NxtBlockRef}
    {refs : List NxtBlockRef} (h : m.Chain ref? refs)
    (hparent : ∀ ref ∈ refs, m'.parent ref = m.parent ref) : m'.Chain ref? refs := by
  induction h with
  | nil => exact .nil
  | @cons ref refs _ ih =>
    refine .cons ?_
    rw [hparent ref List.mem_cons_self]
    exact ih fun ref' href' => hparent ref' (List.mem_cons_of_mem _ href')

/-- The head of a chain, and the chain behind any of its blocks. -/
theorem NxtMerged.Chain.head?_eq {m : NxtMerged} {ref? : Option NxtBlockRef}
    {refs : List NxtBlockRef} (h : m.Chain ref? refs) : refs.head? = ref? := by
  cases h <;> rfl

theorem NxtMerged.Chain.parent_eq {m : NxtMerged} {ref? : Option NxtBlockRef} {ref : NxtBlockRef}
    {later earlier : List NxtBlockRef} (h : m.Chain ref? (later ++ ref :: earlier)) :
    m.Chain (m.parent ref) earlier := by
  induction later generalizing ref? with
  | nil =>
    cases h with
    | cons h => exact h
  | cons ref' later ih =>
    cases h with
    | cons h => exact ih h

/-- After merging a sequence of blocks, the definitions of an id form the chain that begins with its
block. -/
theorem mergeBlocks_chain (blks : List (NxtBlockRef × NxtBlock)) (hnodup : (blks.map Prod.fst).Nodup)
    (id : ℕ) :
    (mergeBlocks blks).Chain ((mergeBlocks blks).block id)
      ((definitions blks id).map Prod.fst).reverse := by
  induction blks using List.reverseRecOn generalizing id with
  | nil => exact .nil
  | append_singleton blks b ih =>
    obtain ⟨ref, blk⟩ := b
    rw [List.map_append, List.map_singleton, List.nodup_append] at hnodup
    obtain ⟨hnodup, -, hnew⟩ := hnodup
    have ih := ih hnodup
    have hfold : mergeBlocks (blks ++ [(ref, blk)]) = nxtMergeBlock (mergeBlocks blks) ref blk :=
      List.foldl_concat ..
    have hkeep : ∀ id', ∀ ref' ∈ ((definitions blks id').map Prod.fst).reverse, ref' ≠ ref := by
      intro id' ref' href'
      obtain ⟨b, hb, rfl⟩ := List.mem_map.mp (List.mem_reverse.mp href')
      exact hnew b.1 (List.mem_map_of_mem (List.mem_of_mem_filter hb)) ref List.mem_cons_self
    rw [hfold, nxtMergeBlock, definitions, List.filter_append, ← definitions]
    by_cases hdef : blk.defines
    · rw [if_pos hdef]
      by_cases hid : blk.id = id
      · subst hid
        have hone : [(ref, blk)].filter (fun b => b.2.defines ∧ b.2.id = blk.id) = [(ref, blk)] := by
          simp [hdef]
        rw [hone, List.map_append, List.reverse_append]
        simp only [Function.update_self]
        refine .cons ?_
        simp only [Function.update_self]
        exact (ih blk.id).congr fun ref' href' =>
          Function.update_of_ne (hkeep blk.id ref' href') _ _
      · have hnone : [(ref, blk)].filter (fun b => b.2.defines ∧ b.2.id = id) = [] := by
          simp [hid]
        rw [hnone, List.append_nil]
        simp only [Function.update_of_ne (Ne.symm hid)]
        exact (ih id).congr fun ref' href' => Function.update_of_ne (hkeep id ref' href') _ _
    · have hnone : [(ref, blk)].filter (fun b => b.2.defines ∧ b.2.id = id) = [] := by
        simp [hdef]
      rw [if_neg hdef, hnone, List.append_nil]
      exact ih id

theorem mem_blockRefs {file : NxtFile} {i : ℕ} {b : NxtBlockRef × NxtBlock} :
    b ∈ file.blockRefs i ↔ b.1.file = i ∧ file.blocks[b.1.blk]? = some b.2 := by
  obtain ⟨⟨i', j⟩, blk⟩ := b
  simp only [NxtFile.blockRefs, List.mem_map, Prod.exists, List.mk_mem_zipIdx_iff_getElem?,
    Prod.mk.injEq, NxtBlockRef.mk.injEq]
  constructor
  · rintro ⟨blk', j', hblk, ⟨rfl, rfl⟩, rfl⟩
    exact ⟨rfl, hblk⟩
  · rintro ⟨rfl, hblk⟩
    exact ⟨blk, j, hblk, ⟨rfl, rfl⟩, rfl⟩

/-- The blocks that are visited are those of the files in the order. -/
theorem mem_visited {files : List NxtFile} {order : List ℕ} {b : NxtBlockRef × NxtBlock} :
    b ∈ visited files order ↔ b.1.file ∈ order ∧ blockAt files b.1 = some b.2 := by
  simp only [visited, List.mem_flatMap, blockAt, Option.bind_eq_some_iff]
  constructor
  · rintro ⟨i, hi, hb⟩
    cases hfile : files[i]? with
    | none => simp [hfile] at hb
    | some file =>
      obtain ⟨rfl, hblk⟩ := mem_blockRefs.mp (by simpa [hfile] using hb)
      exact ⟨hi, file, hfile, hblk⟩
  · rintro ⟨hi, file, hfile, hblk⟩
    exact ⟨b.1.file, hi, by simpa [hfile] using mem_blockRefs.mpr ⟨rfl, hblk⟩⟩

/-- No block is visited twice. -/
theorem visited_nodup {files : List NxtFile} {order : List ℕ} (h : order.Nodup) :
    ((visited files order).map Prod.fst).Nodup := by
  have hrefs : ∀ i, ((files[i]?.map (·.blockRefs i)).getD []).map Prod.fst =
      (List.range (((files[i]?.map (·.blockRefs i)).getD []).length)).map (NxtBlockRef.mk i) := by
    intro i
    cases files[i]? with
    | none => rfl
    | some file =>
      apply List.ext_getElem <;> simp [NxtFile.blockRefs]
  rw [visited, List.map_flatMap, List.nodup_flatMap]
  refine ⟨fun i _ => ?_, h.imp fun {i j} hij => ?_⟩
  · rw [hrefs]
    exact List.nodup_range.map fun _ _ heq => by simpa using heq
  · intro ref hi hj
    simp only [hrefs] at hi hj
    obtain ⟨_, -, rfl⟩ := List.mem_map.mp hi
    obtain ⟨_, -, heq⟩ := List.mem_map.mp hj
    exact hij (congrArg NxtBlockRef.file heq).symm

/-- `nxt_merge` visits the files in post-order, and the chain of an id are its definitions, the last
one first. -/
theorem nxtMerge_chain {ctx : NxtContext} {m : NxtMerged} (h : InTree ctx.files)
    (herror : ctx.error = false) (hmerge : nxtMerge ctx = some m) :
    ∃ order, PostOrder (parentsOf ctx.files) [0] order ∧ order.Nodup ∧
      ∀ id, m.Chain (m.block id)
        ((definitions (visited ctx.files order) id).map Prod.fst).reverse := by
  have hnames : ctx.names.length ≤ nxtMaxBlocks := by
    by_contra hlt
    rw [nxtMerge, if_pos (by omega)] at hmerge
    cases hmerge
  obtain ⟨order, horder, hnodup⟩ := h.exists_postOrder
  obtain rfl := Option.some.inj ((nxtMerge_eq_foldl h hnames herror horder).symm.trans hmerge)
  exact ⟨order, horder, hnodup, mergeBlocks_chain _ (visited_nodup hnodup)⟩

end Nxweb
