import Nxweb.Server.SubrequestTree

/-!
# Subrequest trees close completely

When a client connection is to be closed while some connection of its tree runs in a worker, the
closing is put off until the worker has ended. The message of the worker closes its own
connection; but closing a subrequest only marks it as failed and leaves the rest to the parent.
So the deferred closing takes place if the last worker belongs to the client connection, or if
the callbacks of the failed subrequests lead up to it. If the last worker belongs to a
subrequest whose parent is not told, nothing closes the client connection.

A run closes the tree completely if and only if every step on which the last worker leaves a
closing tree reaches the client connection (`treeStep_closes_iff`). The invariant
(`ConnTree.Sound`) says that every connection is either in the tree or in the pool, once, and
that marks for closing are set in the whole tree or nowhere.
-/

namespace Nxweb

open Lib

namespace Subrequests

/-- All connections of the list, and below it, are marked for closing, or none is. -/
def AllClosing (closing : Bool) : Subrequests → Prop
  | nil => True
  | conn c subrequests next =>
    c.connectionClosing = closing ∧ subrequests.AllClosing closing ∧ next.AllClosing closing

/-! ### Marking for closing -/

theorem checkIfCanClose_fst (s : Subrequests) : s.checkIfCanClose.1 = !s.busy := by
  induction s with
  | nil => rfl
  | conn c subrequests next ihs ihn => simp [checkIfCanClose, busy, ihs, ihn]

theorem busy_checkIfCanClose (s : Subrequests) : s.checkIfCanClose.2.busy = s.busy := by
  induction s with
  | nil => rfl
  | conn c subrequests next ihs ihn => simp [checkIfCanClose, busy, ihs, ihn]

theorem finalizeSubrequests_checkIfCanClose (s : Subrequests) :
    s.checkIfCanClose.2.finalizeSubrequests = s.finalizeSubrequests := by
  induction s with
  | nil => rfl
  | conn c subrequests next ihs ihn => simp [checkIfCanClose, finalizeSubrequests, ihs, ihn]

theorem allClosing_checkIfCanClose (s : Subrequests) : s.checkIfCanClose.2.AllClosing true := by
  induction s with
  | nil => trivial
  | conn c subrequests next ihs ihn => exact ⟨rfl, ihs, ihn⟩

/-! ### Closing a subrequest -/

/-- A list that differs only in the marks for failure and closing. -/
structure SameWork (s s' : Subrequests) : Prop where
  busy_eq : s'.busy = s.busy
  finalizeSubrequests_eq : s'.finalizeSubrequests = s.finalizeSubrequests
  allClosing : ∀ closing, s.AllClosing closing → s'.AllClosing closing

theorem SameWork.refl (s : Subrequests) : SameWork s s := ⟨rfl, rfl, fun _ => id⟩

/-- A connection keeps its work if its parts do. -/
theorem SameWork.conn {c c' : ConnNode} {subrequests subrequests' next next' : Subrequests}
    (huid : c'.uid = c.uid) (hworker : c'.inWorker = c.inWorker)
    (hclosing : c'.connectionClosing = c.connectionClosing)
    (hs : SameWork subrequests subrequests') (hn : SameWork next next') :
    SameWork (.conn c subrequests next) (.conn c' subrequests' next') where
  busy_eq := by simp [busy, hworker, hs.busy_eq, hn.busy_eq]
  finalizeSubrequests_eq := by
    simp [finalizeSubrequests, huid, hs.finalizeSubrequests_eq, hn.finalizeSubrequests_eq]
  allClosing closing h :=
    ⟨hclosing.trans h.1, hs.allClosing closing h.2.1, hn.allClosing closing h.2.2⟩

theorem sameWork_finalize (callbacks : ℕ → Bool) (uid : ℕ) (s : Subrequests) :
    SameWork s (s.finalize callbacks uid).2 := by
  induction s with
  | nil => exact .refl _
  | conn c subrequests next ihs ihn =>
    have hsub : SameWork subrequests
        (if c.uid = uid then (true, subrequests) else subrequests.finalize callbacks uid).2 := by
      split_ifs
      · exact .refl _
      · exact ihs
    simp only [finalize]
    generalize (if c.uid = uid then (true, subrequests) else
      subrequests.finalize callbacks uid) = result at hsub ⊢
    split_ifs
    · exact .conn rfl rfl rfl hsub (.refl _)
    · exact .conn rfl rfl rfl hsub (.refl _)
    · exact .conn rfl rfl rfl hsub ihn

/-! ### Workers and new subrequests -/

theorem finalizeSubrequests_setInWorker (uid : ℕ) (inWorker : Bool) (s : Subrequests) :
    (s.setInWorker uid inWorker).finalizeSubrequests = s.finalizeSubrequests := by
  induction s with
  | nil => rfl
  | conn c subrequests next ihs ihn =>
    have huid : (if c.uid = uid then { c with inWorker } else c).uid = c.uid := by
      split_ifs <;> rfl
    simp only [setInWorker, finalizeSubrequests, huid, ihs, ihn]

theorem AllClosing.setInWorker {closing : Bool} {s : Subrequests} (h : s.AllClosing closing)
    (uid : ℕ) (inWorker : Bool) : (s.setInWorker uid inWorker).AllClosing closing := by
  induction s with
  | nil => trivial
  | conn c subrequests next ihs ihn =>
    refine ⟨?_, ihs h.2.1, ihn h.2.2⟩
    have hclosing := h.1
    split_ifs
    · exact hclosing
    · exact hclosing

theorem AllClosing.start {s : Subrequests} (h : s.AllClosing false) (parent uid : ℕ) :
    (s.start parent uid).AllClosing false := by
  induction s with
  | nil => trivial
  | conn c subrequests next ihs ihn =>
    refine ⟨h.1, ?_, ihn h.2.2⟩
    split_ifs
    · exact ⟨rfl, trivial, h.2.1⟩
    · exact ihs h.2.1

/-- Without the parent in the list nothing is added. -/
theorem start_of_notMem {parent uid : ℕ} {s : Subrequests}
    (hmem : parent ∉ s.finalizeSubrequests) : s.start parent uid = s := by
  induction s with
  | nil => rfl
  | conn c subrequests next ihs ihn =>
    simp only [finalizeSubrequests, List.mem_append, List.mem_singleton, not_or] at hmem
    obtain ⟨⟨hs, hc⟩, hn⟩ := hmem
    rw [start, if_neg (Ne.symm hc), ihs hs, ihn hn]

/-- Where ids are unique, the new connection is added once. -/
theorem perm_start {parent uid : ℕ} {s : Subrequests} (hnodup : s.finalizeSubrequests.Nodup)
    (hmem : parent ∈ s.finalizeSubrequests) :
    (s.start parent uid).finalizeSubrequests.Perm (uid :: s.finalizeSubrequests) := by
  induction s with
  | nil => simp [finalizeSubrequests] at hmem
  | conn c subrequests next ihs ihn =>
    simp only [finalizeSubrequests, List.append_assoc, List.nodup_append, List.nodup_cons,
      List.cons_append, List.nil_append] at hnodup
    obtain ⟨hnodups, ⟨hnotMem, hnodupn⟩, hdisj⟩ := hnodup
    simp only [finalizeSubrequests, List.mem_append, List.mem_singleton] at hmem
    by_cases hc : c.uid = parent
    · -- the parent is found; it does not occur in the rest of the list
      have hn : parent ∉ next.finalizeSubrequests := hc ▸ hnotMem
      rw [start, if_pos hc, start_of_notMem hn]
      simp [finalizeSubrequests]
    · rw [start, if_neg hc, finalizeSubrequests, finalizeSubrequests]
      rcases hmem with (hs | hp) | hn
      · have hn : parent ∉ next.finalizeSubrequests := fun hn =>
          hdisj parent hs parent (List.mem_cons_of_mem _ hn) rfl
        rw [start_of_notMem hn]
        exact ((ihs hnodups hs).append_right _).append_right _
      · exact absurd hp.symm hc
      · have hs : parent ∉ subrequests.finalizeSubrequests := fun hs =>
          hdisj parent hs parent (List.mem_cons_of_mem _ hn) rfl
        rw [start_of_notMem hs]
        exact ((ihn hnodupn hn).append_left _).trans List.perm_middle

theorem mem_of_find? {uid : ℕ} {s : Subrequests} {c : ConnNode} (h : s.find? uid = some c) :
    uid ∈ s.finalizeSubrequests := by
  induction s with
  | nil => simp [find?] at h
  | conn d subrequests next ihs ihn =>
    rw [find?] at h
    simp only [finalizeSubrequests, List.mem_append, List.mem_singleton]
    split_ifs at h with huid
    · exact .inl (.inr huid.symm)
    · rcases Option.or_eq_some_iff.mp h with hs | ⟨-, hn⟩
      · exact .inl (.inl (ihs hs))
      · exact .inr (ihn hn)

theorem AllClosing.of_find? {closing : Bool} {uid : ℕ} {s : Subrequests} {c : ConnNode}
    (h : s.AllClosing closing) (hfind : s.find? uid = some c) : c.connectionClosing = closing := by
  induction s with
  | nil => simp [find?] at hfind
  | conn d subrequests next ihs ihn =>
    rw [find?] at hfind
    split_ifs at hfind with huid
    · obtain rfl := Option.some.inj hfind
      exact h.1
    · rcases Option.or_eq_some_iff.mp hfind with hs | ⟨-, hn⟩
      · exact ihs h.2.1 hs
      · exact ihn h.2.2 hn

/-- Whether closing the subrequest `uid` makes the callbacks close the parent of the list: every
connection on the way up fails for the first time, and its callback closes the parent. -/
def tellsParent (callbacks : ℕ → Bool) (uid : ℕ) : Subrequests → Bool
  | nil => false
  | conn c subrequests next =>
    if c.uid = uid ∨ subrequests.tellsParent callbacks uid = true then
      !c.subrequestFailed && callbacks c.uid
    else next.tellsParent callbacks uid

theorem finalize_fst (callbacks : ℕ → Bool) (uid : ℕ) (s : Subrequests) :
    (s.finalize callbacks uid).1 = s.tellsParent callbacks uid := by
  induction s with
  | nil => rfl
  | conn c subrequests next ihs ihn =>
    have hcalled : (if c.uid = uid then (true, subrequests) else
        subrequests.finalize callbacks uid).1 = true ↔
          c.uid = uid ∨ subrequests.tellsParent callbacks uid = true := by
      split_ifs with huid
      · simp [huid]
      · simp [huid, ihs]
    simp only [finalize, tellsParent]
    by_cases htells : c.uid = uid ∨ subrequests.tellsParent callbacks uid = true
    · rw [if_pos (hcalled.mpr htells), if_pos htells]
      cases c.subrequestFailed <;> rfl
    · rw [if_neg (fun h => htells (hcalled.mp h)), if_neg htells]
      exact ihn

theorem tellsParent_setInWorker (callbacks : ℕ → Bool) (uid uid' : ℕ) (inWorker : Bool)
    (s : Subrequests) :
    (s.setInWorker uid' inWorker).tellsParent callbacks uid = s.tellsParent callbacks uid := by
  induction s with
  | nil => rfl
  | conn c subrequests next ihs ihn =>
    simp only [setInWorker, tellsParent, ihs, ihn]
    split_ifs <;> rfl

end Subrequests

namespace ConnTree

/-- The connections of the tree. -/
def live (t : ConnTree) : List ℕ :=
  if t.finalized then [] else t.subrequests.finalizeSubrequests ++ [t.root.uid]

/-- Every connection that was started is in the tree or in the pool, once. A tree that is gone has
no workers, and a tree is marked for closing as a whole. -/
structure Sound (t : ConnTree) : Prop where
  perm : (t.freed ++ t.live).Perm (List.range t.nextUid)
  busy_eq : t.finalized = true → t.busy = false
  allClosing : t.subrequests.AllClosing t.root.connectionClosing

/-- After the client connection was to be closed, and when no connection of the tree is in a
worker any more, the client connection has been finalized, and every connection of the tree has
been returned to the pool exactly once. -/
def ClosesCompletely (t : ConnTree) : Prop :=
  t.root.connectionClosing = true → t.busy = false →
    t.finalized = true ∧ ∀ uid < t.nextUid, t.freed.count uid = 1

/-- In a sound tree only finalizing the client connection can be missing. -/
theorem Sound.closesCompletely_iff {t : ConnTree} (h : t.Sound) :
    t.ClosesCompletely ↔
      (t.root.connectionClosing = true → t.busy = false → t.finalized = true) := by
  refine ⟨fun hcloses hclosing hbusy => (hcloses hclosing hbusy).1,
    fun hcloses hclosing hbusy => ?_⟩
  have hfin := hcloses hclosing hbusy
  refine ⟨hfin, fun uid huid => ?_⟩
  have hperm : t.freed.Perm (List.range t.nextUid) := by simpa [live, hfin] using h.perm
  rw [hperm.count_eq]
  exact List.count_eq_one_of_mem List.nodup_range (List.mem_range.mpr huid)

theorem sound_init : Sound {} := ⟨List.Perm.refl _, by simp, trivial⟩

/-- Nobody has asked to close a new connection. -/
theorem closesCompletely_init : ClosesCompletely {} := by simp [ClosesCompletely]

/-- The subrequests go to the pool, the client connection stays. -/
theorem Sound.finalizeSubrequests {t : ConnTree} (h : t.Sound) (hfin : t.finalized = false) :
    t.finalizeSubrequests.Sound where
  perm := by
    have hperm := h.perm
    simp only [live, hfin, Bool.false_eq_true, if_false] at hperm
    simpa [ConnTree.finalizeSubrequests, live, hfin, Subrequests.finalizeSubrequests] using hperm
  busy_eq := by simp [ConnTree.finalizeSubrequests, hfin]
  allClosing := trivial

/-- A tree without workers goes to the pool as a whole. -/
theorem Sound.doFinalize {t : ConnTree} (h : t.Sound) (hfin : t.finalized = false)
    (hworker : t.root.inWorker = false) : t.doFinalize.Sound where
  perm := by
    have hperm := h.perm
    simp only [live, hfin, Bool.false_eq_true, if_false] at hperm
    simpa [ConnTree.doFinalize, ConnTree.finalizeSubrequests, live] using hperm
  busy_eq _ := by
    simp [ConnTree.doFinalize, ConnTree.finalizeSubrequests, busy, Subrequests.busy, hworker]
  allClosing := trivial

/-- The tree with all its connections marked for closing. -/
def marked (t : ConnTree) : ConnTree :=
  { t with
    root := { t.root with connectionClosing := true }
    subrequests := t.subrequests.checkIfCanClose.2 }

theorem busy_marked (t : ConnTree) : t.marked.busy = t.busy := by
  simp [marked, busy, Subrequests.busy_checkIfCanClose]

theorem Sound.marked {t : ConnTree} (h : t.Sound) : t.marked.Sound where
  perm := by
    have hperm := h.perm
    simpa [ConnTree.marked, live, Subrequests.finalizeSubrequests_checkIfCanClose] using hperm
  busy_eq hfin := (busy_marked t).trans (h.busy_eq hfin)
  allClosing := Subrequests.allClosing_checkIfCanClose _

/-- The client connection is finalized unless a worker is running. -/
theorem finalizeRoot_eq (t : ConnTree) :
    t.finalizeRoot = if t.busy then t.marked else t.marked.doFinalize := by
  have hcan : (!t.root.inWorker && t.subrequests.checkIfCanClose.1) = !t.busy := by
    simp [busy, Subrequests.checkIfCanClose_fst]
  unfold finalizeRoot
  simp only [hcan]
  cases t.busy <;> rfl

theorem Sound.finalizeRoot {t : ConnTree} (h : t.Sound) (hfin : t.finalized = false) :
    t.finalizeRoot.Sound ∧ t.finalizeRoot.ClosesCompletely := by
  rw [finalizeRoot_eq]
  cases hbusy : t.busy with
  | true =>
    rw [if_pos rfl]
    refine ⟨h.marked, h.marked.closesCompletely_iff.mpr fun _ hidle => ?_⟩
    simp [busy_marked, hbusy] at hidle
  | false =>
    have hworker : t.root.inWorker = false := by
      rw [busy, Bool.or_eq_false_iff] at hbusy
      exact hbusy.1
    rw [if_neg (by simp)]
    have hsound : t.marked.doFinalize.Sound := h.marked.doFinalize hfin hworker
    exact ⟨hsound, hsound.closesCompletely_iff.mpr fun _ _ => rfl⟩

/-- Closing the connection `uid` leads to closing the client connection. -/
def reaches (t : ConnTree) (callbacks : ℕ → Bool) (uid : ℕ) : Bool :=
  decide (t.root.uid = uid) || t.subrequests.tellsParent callbacks uid

/-- A subrequest that fails, seen from the tree: nothing but its mark changes. -/
theorem Sound.failed {t : ConnTree} (h : t.Sound) (callbacks : ℕ → Bool) (uid : ℕ) :
    Sound { t with subrequests := (t.subrequests.finalize callbacks uid).2 } where
  perm := by
    have hperm := h.perm
    simpa [live, (Subrequests.sameWork_finalize callbacks uid _).finalizeSubrequests_eq] using hperm
  busy_eq hfin := by
    simpa [busy, (Subrequests.sameWork_finalize callbacks uid _).busy_eq] using h.busy_eq hfin
  allClosing := (Subrequests.sameWork_finalize callbacks uid _).allClosing _ h.allClosing

/-- Closing a connection closes the tree if it reaches the client connection, and else leaves
everything but the marks for failure as it is. -/
theorem Sound.finalize {t : ConnTree} (h : t.Sound) (hfin : t.finalized = false)
    (callbacks : ℕ → Bool) (uid : ℕ) :
    (t.finalize callbacks uid).Sound ∧
      ((t.finalize callbacks uid).ClosesCompletely ↔
        (t.root.connectionClosing = true → t.busy = false → t.reaches callbacks uid = true)) := by
  unfold ConnTree.finalize reaches
  by_cases huid : t.root.uid = uid
  · obtain ⟨hsound, hcloses⟩ := h.finalizeRoot hfin
    rw [if_pos huid]
    exact ⟨hsound, fun _ _ _ => by simp [huid], fun _ => hcloses⟩
  have hfailed := h.failed callbacks uid
  rw [if_neg huid]
  simp only [Subrequests.finalize_fst]
  cases htells : t.subrequests.tellsParent callbacks uid with
  | true =>
    obtain ⟨hsound, hcloses⟩ := hfailed.finalizeRoot hfin
    rw [if_pos rfl]
    exact ⟨hsound, fun _ _ _ => by simp, fun _ => hcloses⟩
  | false =>
    rw [if_neg (by simp)]
    refine ⟨hfailed, hfailed.closesCompletely_iff.trans ?_⟩
    simp [huid, hfin, busy, (Subrequests.sameWork_finalize callbacks uid _).busy_eq]

theorem Sound.setInWorker {t : ConnTree} (h : t.Sound) (hfin : t.finalized = false) (uid : ℕ)
    (inWorker : Bool) : (t.setInWorker uid inWorker).Sound := by
  unfold ConnTree.setInWorker
  split_ifs with huid
  · exact ⟨h.perm, by simp [hfin], h.allClosing⟩
  · refine ⟨?_, by simp [hfin], h.allClosing.setInWorker uid inWorker⟩
    have hperm := h.perm
    simpa [live, Subrequests.finalizeSubrequests_setInWorker] using hperm

@[simp]
theorem setInWorker_finalized (t : ConnTree) (uid : ℕ) (inWorker : Bool) :
    (t.setInWorker uid inWorker).finalized = t.finalized := by
  unfold setInWorker
  split_ifs <;> rfl

@[simp]
theorem setInWorker_closing (t : ConnTree) (uid : ℕ) (inWorker : Bool) :
    (t.setInWorker uid inWorker).root.connectionClosing = t.root.connectionClosing := by
  unfold setInWorker
  split_ifs <;> rfl

/-- Who is told of a failure does not depend on the workers. -/
@[simp]
theorem reaches_setInWorker (t : ConnTree) (uid uid' : ℕ) (inWorker : Bool)
    (callbacks : ℕ → Bool) :
    (t.setInWorker uid' inWorker).reaches callbacks uid = t.reaches callbacks uid := by
  unfold setInWorker reaches
  split_ifs
  · rfl
  · rw [Subrequests.tellsParent_setInWorker]

/-- A tree is marked as a whole, so each connection tells. -/
theorem Sound.connectionClosing_of_find? {t : ConnTree} (h : t.Sound) {uid : ℕ} {c : ConnNode}
    (hfind : t.find? uid = some c) : c.connectionClosing = t.root.connectionClosing := by
  rw [find?] at hfind
  split_ifs at hfind with huid
  · obtain rfl := Option.some.inj hfind
    rfl
  · exact h.allClosing.of_find? hfind

/-- A subrequest is added to the tree with a new id. -/
theorem Sound.subrequestStart {t : ConnTree} (h : t.Sound) (hfin : t.finalized = false)
    {parent : ℕ} {c : ConnNode} (hfind : t.find? parent = some c)
    (hclosing : t.root.connectionClosing = false) : (t.subrequestStart parent).Sound := by
  have hperm := h.perm
  have hall := h.allClosing
  rw [hclosing] at hall
  simp only [live, hfin, Bool.false_eq_true, if_false] at hperm
  have hadd : ∀ s : Subrequests,
      s.finalizeSubrequests.Perm (t.nextUid :: t.subrequests.finalizeSubrequests) →
      (t.freed ++ (s.finalizeSubrequests ++ [t.root.uid])).Perm (List.range (t.nextUid + 1)) := by
    intro s hs
    calc t.freed ++ (s.finalizeSubrequests ++ [t.root.uid])
      List.Perm _ (t.freed ++ (t.nextUid :: (t.subrequests.finalizeSubrequests ++ [t.root.uid]))) :=
          (hs.append_right _).append_left _
      List.Perm _ (t.nextUid :: (t.freed ++ (t.subrequests.finalizeSubrequests ++ [t.root.uid]))) :=
          List.perm_middle
      List.Perm _ (t.nextUid :: List.range t.nextUid) := hperm.cons _
      List.Perm _ (List.range (t.nextUid + 1)) := by
        rw [List.range_succ]
        exact (List.perm_append_singleton _ _).symm
  unfold ConnTree.subrequestStart
  split_ifs with huid
  · refine ⟨?_, by simp [hfin], ⟨hclosing.symm, trivial, h.allClosing⟩⟩
    simpa [live, hfin] using hadd (.conn { uid := t.nextUid } .nil t.subrequests) (by
      simp [Subrequests.finalizeSubrequests])
  · have hmem : parent ∈ t.subrequests.finalizeSubrequests := by
      rw [find?, if_neg huid] at hfind
      exact Subrequests.mem_of_find? hfind
    have hnodup : t.subrequests.finalizeSubrequests.Nodup := by
      have := (hperm.nodup_iff.mpr List.nodup_range).of_append_right
      exact this.of_append_left
    refine ⟨?_, by simp [hfin], ?_⟩
    · simpa [live, hfin] using hadd _ (Subrequests.perm_start hnodup hmem)
    · show (t.subrequests.start parent t.nextUid).AllClosing t.root.connectionClosing
      rw [hclosing]
      exact hall.start parent t.nextUid

end ConnTree

/-! ### The machine -/

/-- A transition that does not take the last worker out of a closing tree behind the back of the
client connection: when a worker ends as the last one, closing its connection reaches the client
connection, and the subrequests of a complete request are not the last ones in workers. -/
def LastWorkerReports (t : ConnTree) (e : TreeEvent) (_ : ConnTree) : Prop :=
  t.root.connectionClosing = true →
    match e with
    | .workerComplete uid callbacks =>
      (t.setInWorker uid false).busy = false → t.reaches callbacks uid = true
    | .requestComplete => t.root.inWorker = true
    | _ => True

/-- What a tree is in between two events. -/
structure ConnTree.Closes (t : ConnTree) : Prop where
  sound : t.Sound
  closes : t.root.connectionClosing = true → t.busy = false → t.finalized = true

theorem ConnTree.Sound.closes {t : ConnTree} (h : t.Sound) (hcloses : t.ClosesCompletely) :
    t.Closes :=
  ⟨h, h.closesCompletely_iff.mp hcloses⟩

/-- From a tree as it is between two events, a transition keeps the tree closing completely
exactly if it lets the last worker report. -/
theorem treeStep_closes (t : ConnTree) (e : TreeEvent) (t' : ConnTree) (h : t.Closes)
    (hstep : treeStep t e = some t') :
    (t'.ClosesCompletely ↔ LastWorkerReports t e t') ∧ (t'.ClosesCompletely → t'.Closes) := by
  have hfin : t.finalized = false := by
    by_contra hfin
    simp [treeStep, hfin] at hstep
  -- a transition that keeps the tree sound is judged by whether it leaves it closing and idle
  suffices hgoal : t'.Sound ∧ (t'.ClosesCompletely ↔ LastWorkerReports t e t') from
    ⟨hgoal.2, hgoal.1.closes⟩
  have hsame : t.ClosesCompletely := h.sound.closesCompletely_iff.mpr h.closes
  have hopen : ∀ t' : ConnTree, t.root.connectionClosing = false →
      t'.root.connectionClosing = t.root.connectionClosing →
      (t'.ClosesCompletely ↔ LastWorkerReports t e t') := by
    intro t' hclosing heq
    refine ⟨fun _ hc => ?_, fun _ hc => ?_⟩
    · simp [hclosing] at hc
    · simp [heq, hclosing] at hc
  unfold treeStep at hstep
  rw [if_neg (by simp [hfin])] at hstep
  cases e with
  | subrequestStart parent =>
    obtain ⟨c, hfind, rfl⟩ := Option.map_eq_some_iff.mp hstep
    have hmark := h.sound.connectionClosing_of_find? hfind
    cases hclosing : c.connectionClosing with
    | true =>
      rw [if_pos rfl]
      exact ⟨h.sound, fun _ _ => trivial, fun _ => hsame⟩
    | false =>
      rw [if_neg (by simp)]
      have hroot := hmark.symm.trans hclosing
      refine ⟨h.sound.subrequestStart hfin hfind hroot, hopen _ hroot ?_⟩
      unfold ConnTree.subrequestStart
      split_ifs <;> rfl
  | invokeInWorker uid =>
    obtain ⟨c, hfind, hrest⟩ := Option.bind_eq_some_iff.mp hstep
    have hmark := h.sound.connectionClosing_of_find? hfind
    obtain ⟨-, hrest⟩ := Option.ite_none_left_eq_some.mp hrest
    obtain rfl := Option.some.inj hrest
    cases hclosing : c.connectionClosing with
    | true =>
      rw [if_pos rfl]
      exact ⟨h.sound, fun _ _ => trivial, fun _ => hsame⟩
    | false =>
      rw [if_neg (by simp)]
      exact ⟨h.sound.setInWorker hfin uid true, hopen _ (hmark.symm.trans hclosing) (by simp)⟩
  | workerComplete uid callbacks =>
    obtain ⟨c, hfind, hrest⟩ := Option.bind_eq_some_iff.mp hstep
    have hmark := h.sound.connectionClosing_of_find? hfind
    obtain ⟨-, hrest⟩ := Option.ite_none_right_eq_some.mp hrest
    obtain rfl := Option.some.inj hrest
    have hsound := h.sound.setInWorker hfin uid false
    cases hclosing : c.connectionClosing with
    | true =>
      rw [if_pos rfl]
      obtain ⟨hsound', hiff⟩ := hsound.finalize (by simpa using hfin) callbacks uid
      exact ⟨hsound', hiff.trans (by simp [LastWorkerReports])⟩
    | false =>
      rw [if_neg (by simp)]
      exact ⟨hsound, hopen _ (hmark.symm.trans hclosing) (by simp)⟩
  | close uid callbacks =>
    obtain ⟨c, hfind, rfl⟩ := Option.map_eq_some_iff.mp hstep
    obtain ⟨hsound', hiff⟩ := h.sound.finalize hfin callbacks uid
    refine ⟨hsound', hiff.trans ⟨fun _ _ => trivial, fun _ hclosing hbusy => ?_⟩⟩
    simp [h.closes hclosing hbusy] at hfin
  | requestComplete =>
    obtain rfl := Option.some.inj hstep
    have hsound := h.sound.finalizeSubrequests hfin
    refine ⟨hsound, hsound.closesCompletely_iff.trans ?_⟩
    simp [LastWorkerReports, ConnTree.finalizeSubrequests, ConnTree.busy, Subrequests.busy, hfin]

/-- For every tree, every set of connections in workers and every order of worker completions,
close requests and completed requests: the tree closes completely in every state that is reached
if and only if no step takes the last worker out of a closing tree without the client connection
being told. -/
theorem treeStep_closes_iff (es : List TreeEvent) :
    ConnTree.ClosesCompletely {} ∧
      (Along treeStep (fun _ _ t => t.ClosesCompletely) {} es ↔
        Along treeStep LastWorkerReports {} es) := by
  have hinit : ConnTree.Closes {} :=
    ConnTree.sound_init.closes ConnTree.closesCompletely_init
  exact ⟨ConnTree.closesCompletely_init, along_iff treeStep_closes es hinit⟩

/-- A subrequest runs in a worker when the client connection is closed, and its worker ends. The
failure is not reported upwards: the response was not being streamed yet. -/
def orphanedRun : List TreeEvent :=
  [.subrequestStart 0, .invokeInWorker 1, .close 0 fun _ => false,
    .workerComplete 1 fun _ => false]

/-- No worker is left, and neither connection has been returned to the pool. -/
theorem treeStep_orphaned :
    (run treeStep {} orphanedRun).map (fun t => (t.root.connectionClosing, t.busy, t.finalized,
        t.freed)) = some (true, false, false, []) ∧
      ¬ Along treeStep (fun _ _ t => t.ClosesCompletely) {} orphanedRun := by
  have hrun : (run treeStep {} orphanedRun).map (fun t => (t.root.connectionClosing, t.busy,
      t.finalized, t.freed)) = some (true, false, false, []) := by decide +kernel
  refine ⟨hrun, fun h => ?_⟩
  obtain ⟨t, hrun', heq⟩ := Option.map_eq_some_iff.mp hrun
  simp only [Prod.mk.injEq] at heq
  obtain ⟨hclosing, hbusy, hfin, -⟩ := heq
  have hcloses : t.ClosesCompletely :=
    run_inv_of_along (I := ConnTree.ClosesCompletely) (fun _ _ _ _ _ hQ => hQ)
      ConnTree.closesCompletely_init h hrun'
  simpa [hfin] using (hcloses hclosing hbusy).1

end Nxweb
