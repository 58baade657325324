import Mathlib.Data.List.Nodup
import Mathlib.Logic.Function.Basic
import Mathlib.Tactic

/-!
# Doubly linked lists

A doubly linked list threaded through cells that live somewhere else: two maps give the
neighbours of a cell, and two pointers give the ends of the list. The maps also have values at
cells that are not on the list, so several lists can share them.

`Holds d l` says that the pointers of `d` spell the list `l`. Each operation has a rule that says
which list its result holds, and a frame rule that says that it leaves the links of every cell
outside the list alone.
-/

namespace Lib

/-- The links of all cells and the two ends of one list. -/
@[ext]
structure DList (α : Type*) where
  /-- The cell after a given one. -/
  next : α → Option α
  /-- The cell before a given one. -/
  prev : α → Option α
  /-- The first cell of the list. -/
  first : Option α
  /-- The last cell of the list. -/
  last : Option α

namespace DList

variable {α : Type*}

/-- The pointers of `d` spell the list `l`. -/
structure Holds (d : DList α) (l : List α) : Prop where
  nodup : l.Nodup
  first_eq : d.first = l.head?
  last_eq : d.last = l.getLast?
  next_eq : ∀ as x bs, l = as ++ x :: bs → d.next x = bs.head?
  prev_eq : ∀ as x bs, l = as ++ x :: bs → d.prev x = as.getLast?

/-- The links of a cell are the same in both. -/
def SameAt (d d' : DList α) (x : α) : Prop :=
  d'.next x = d.next x ∧ d'.prev x = d.prev x

/-- A list that holds nothing. -/
theorem holds_nil {d : DList α} (hf : d.first = none) (hl : d.last = none) : d.Holds [] where
  nodup := List.nodup_nil
  first_eq := hf
  last_eq := hl
  next_eq := by simp
  prev_eq := by simp

variable {d d' : DList α} {l : List α} {x y : α}

/-- Changes to the links of other cells do not matter to a list. -/
theorem Holds.congr (h : d.Holds l) (hf : d'.first = d.first) (hl : d'.last = d.last)
    (hsame : ∀ x ∈ l, d.SameAt d' x) : d'.Holds l where
  nodup := h.nodup
  first_eq := hf.trans h.first_eq
  last_eq := hl.trans h.last_eq
  next_eq as x bs heq := by
    rw [(hsame x (by simp [heq])).1]
    exact h.next_eq as x bs heq
  prev_eq as x bs heq := by
    rw [(hsame x (by simp [heq])).2]
    exact h.prev_eq as x bs heq

/-- The first cell is on the list. -/
theorem Holds.mem_of_first (h : d.Holds l) (hx : d.first = some x) : x ∈ l :=
  List.mem_of_mem_head? (h.first_eq ▸ hx)

/-- The last cell is on the list. -/
theorem Holds.mem_of_last (h : d.Holds l) (hx : d.last = some x) : x ∈ l :=
  List.mem_of_getLast? (h.last_eq ▸ hx)

/-- The successor of a cell of the list is on the list. -/
theorem Holds.mem_of_next (h : d.Holds l) (hx : x ∈ l) (hn : d.next x = some y) : y ∈ l := by
  obtain ⟨as, bs, rfl⟩ := List.append_of_mem hx
  rw [h.next_eq as x bs rfl] at hn
  have := List.mem_of_mem_head? hn
  simp [this]

/-- The predecessor of a cell of the list is on the list. -/
theorem Holds.mem_of_prev (h : d.Holds l) (hx : x ∈ l) (hp : d.prev x = some y) : y ∈ l := by
  obtain ⟨as, bs, rfl⟩ := List.append_of_mem hx
  rw [h.prev_eq as x bs rfl] at hp
  have := List.mem_of_getLast? hp
  simp [this]

/-- Every cell of the list has a predecessor, or is the first one. -/
theorem Holds.prev_isSome_or_first (h : d.Holds l) (hx : x ∈ l) :
    (d.prev x).isSome ∨ d.first = some x := by
  obtain ⟨as, bs, rfl⟩ := List.append_of_mem hx
  rw [h.prev_eq as x bs rfl, h.first_eq]
  cases as <;> simp

/-- The cell behind one of the list is where its forward link points. -/
theorem Holds.getElem?_succ {n : ℕ} (h : d.Holds l) (hx : l[n]? = some x) :
    l[n + 1]? = d.next x := by
  obtain ⟨hn, rfl⟩ := List.getElem?_eq_some_iff.mp hx
  have hsplit : l = l.take n ++ l[n] :: l.drop (n + 1) := by simp
  rw [h.next_eq _ _ _ hsplit, List.head?_drop]

/-- The pointers spell one list only. -/
theorem Holds.unique {l' : List α} (h : d.Holds l) (h' : d.Holds l') : l = l' := by
  refine List.ext_getElem? fun n => ?_
  induction n with
  | zero => rw [← List.head?_eq_getElem?, ← List.head?_eq_getElem?, ← h.first_eq, h'.first_eq]
  | succ n ih =>
    cases hx : l[n]? with
    | none =>
      have hlen := List.getElem?_eq_none_iff.mp hx
      have hlen' := List.getElem?_eq_none_iff.mp (ih ▸ hx)
      rw [List.getElem?_eq_none (by omega), List.getElem?_eq_none (by omega)]
    | some x => rw [h.getElem?_succ hx, h'.getElem?_succ (ih ▸ hx)]

section Operations

variable [DecidableEq α]

/-- Overwrite the forward link of a cell. -/
def setNext (d : DList α) (x : α) (n : Option α) : DList α :=
  { d with next := Function.update d.next x n }

/-- Overwrite the backward link of a cell. -/
def setPrev (d : DList α) (x : α) (p : Option α) : DList α :=
  { d with prev := Function.update d.prev x p }

/-- Let the cell before a position, or the list itself, point forward to `n`. -/
def setNextOf (d : DList α) (p n : Option α) : DList α :=
  match p with
  | some y => d.setNext y n
  | none => { d with first := n }

/-- Let the cell after a position, or the list itself, point back to `p`. -/
def setPrevOf (d : DList α) (n p : Option α) : DList α :=
  match n with
  | some y => d.setPrev y p
  | none => { d with last := p }

/-- Link a cell to the end of the list. -/
def pushBack (d : DList α) (x : α) : DList α :=
  { ((d.setNext x none).setPrev x d.last).setNextOf d.last (some x) with last := some x }

/-- Link a cell to the beginning of the list. -/
def pushFront (d : DList α) (x : α) : DList α :=
  { ((d.setPrev x none).setNext x d.first).setPrevOf d.first (some x) with first := some x }

/-- Take a cell off the list; its own links stay as they were. -/
def remove (d : DList α) (x : α) : DList α :=
  let d' := d.setNextOf (d.prev x) (d.next x)
  d'.setPrevOf (d'.next x) (d'.prev x)

/-- Take a cell off the list and clear its links. -/
def unlink (d : DList α) (x : α) : DList α :=
  ((d.remove x).setNext x none).setPrev x none

/-- Take the first cell off the list and clear its links. -/
def popFront (d : DList α) (x : α) : DList α :=
  ((({ d with first := d.next x }).setPrevOf (d.next x) none).setNext x none).setPrev x none

end Operations

section Mirror

/-- The list read from its end. -/
def flip (d : DList α) : DList α :=
  ⟨d.prev, d.next, d.last, d.first⟩

/-- Read from its end, a list holds the same cells in the opposite order. -/
theorem Holds.flip (h : d.Holds l) : d.flip.Holds l.reverse where
  nodup := List.nodup_reverse.mpr h.nodup
  first_eq := by simpa [DList.flip] using h.last_eq
  last_eq := by simpa [DList.flip] using h.first_eq
  next_eq as x bs heq := by
    have hsplit : l = bs.reverse ++ x :: as.reverse := by
      simpa using congrArg List.reverse heq
    simpa [DList.flip] using h.prev_eq _ x _ hsplit
  prev_eq as x bs heq := by
    have hsplit : l = bs.reverse ++ x :: as.reverse := by
      simpa using congrArg List.reverse heq
    simpa [DList.flip] using h.next_eq _ x _ hsplit

theorem flip_flip (d : DList α) : d.flip.flip = d := rfl

theorem pushFront_eq_flip [DecidableEq α] (d : DList α) (x : α) :
    d.pushFront x = (d.flip.pushBack x).flip := by
  obtain ⟨next, prev, first, last⟩ := d
  cases first <;> rfl

theorem setNextOf_flip [DecidableEq α] (d : DList α) (p n : Option α) :
    (d.setNextOf p n).flip = d.flip.setPrevOf p n := by
  cases p <;> rfl

theorem setPrevOf_flip [DecidableEq α] (d : DList α) (n p : Option α) :
    (d.setPrevOf n p).flip = d.flip.setNextOf n p := by
  cases n <;> rfl

/-- The two writes of a removal are to different places. -/
theorem setNextOf_setPrevOf_comm [DecidableEq α] (d : DList α) (p n n' p' : Option α) :
    (d.setNextOf p n).setPrevOf n' p' = (d.setPrevOf n' p').setNextOf p n := by
  cases p <;> cases n' <;> rfl

/-- Writing the forward link of a cell's predecessor does not change the cell's own links. -/
theorem setNextOf_prev_self [DecidableEq α] (d : DList α) (x : α) :
    (d.setNextOf (d.prev x) (d.next x)).next x = d.next x ∧
      (d.setNextOf (d.prev x) (d.next x)).prev x = d.prev x := by
  cases h : d.prev x with
  | none => simp [setNextOf, h]
  | some y =>
    refine ⟨?_, h⟩
    by_cases hyx : x = y
    · subst hyx
      simp [setNextOf, setNext]
    · simp [setNextOf, setNext, hyx]

theorem remove_eq [DecidableEq α] (d : DList α) (x : α) :
    d.remove x = (d.setNextOf (d.prev x) (d.next x)).setPrevOf (d.next x) (d.prev x) := by
  obtain ⟨hn, hp⟩ := d.setNextOf_prev_self x
  simp only [remove, hn, hp]

theorem remove_flip [DecidableEq α] (d : DList α) (x : α) :
    (d.remove x).flip = d.flip.remove x := by
  rw [remove_eq, remove_eq, setPrevOf_flip, setNextOf_flip, setNextOf_setPrevOf_comm]
  rfl

end Mirror

section Rules

variable [DecidableEq α] {as bs : List α}

omit [DecidableEq α] in
/-- A cell is on no side of itself. -/
theorem Holds.not_mem_sides (h : d.Holds (as ++ x :: bs)) : x ∉ as ∧ x ∉ bs := by
  have hnodup := h.nodup
  rw [List.nodup_append] at hnodup
  obtain ⟨-, hright, hdisj⟩ := hnodup
  refine ⟨fun hx => hdisj x hx x (by simp) rfl, ?_⟩
  exact (List.nodup_cons.mp hright).1

theorem pushBack_next_last (hl : d.last = some y) : (d.pushBack x).next y = some x := by
  simp [pushBack, setNextOf, setNext, setPrev, hl]

theorem pushBack_next_self (hl : d.last ≠ some x) : (d.pushBack x).next x = none := by
  cases h : d.last with
  | none => simp [pushBack, setNextOf, setNext, setPrev, h]
  | some y =>
    have hxy : x ≠ y := fun hxy => hl (hxy ▸ h)
    simp [pushBack, setNextOf, setNext, setPrev, h, hxy]

theorem pushBack_next_of_ne (hyx : y ≠ x) (hl : d.last ≠ some y) :
    (d.pushBack x).next y = d.next y := by
  cases h : d.last with
  | none => simp [pushBack, setNextOf, setNext, setPrev, h, hyx]
  | some z =>
    have hyz : y ≠ z := fun hyz => hl (hyz ▸ h)
    simp [pushBack, setNextOf, setNext, setPrev, h, hyx, hyz]

theorem pushBack_prev_self : (d.pushBack x).prev x = d.last := by
  cases h : d.last <;> simp [pushBack, setNextOf, setNext, setPrev, h]

theorem pushBack_prev_of_ne (hyx : y ≠ x) : (d.pushBack x).prev y = d.prev y := by
  cases h : d.last <;> simp [pushBack, setNextOf, setNext, setPrev, h, hyx]

/-- Linking to the end appends to the list. -/
theorem Holds.pushBack (h : d.Holds l) (hx : x ∉ l) : (d.pushBack x).Holds (l ++ [x]) where
  nodup := by
    simpa [List.nodup_append] using ⟨h.nodup, fun y hy hyx => hx (hyx ▸ hy)⟩
  first_eq := by
    cases hl : d.last with
    | none =>
      have : l = [] := by simpa [h.last_eq] using hl
      simp [DList.pushBack, setNextOf, hl, this]
    | some y =>
      have hne : l ≠ [] := List.ne_nil_of_mem (h.mem_of_last hl)
      simpa [DList.pushBack, setNextOf, setNext, setPrev, hl, List.head?_append_of_ne_nil _ hne]
        using h.first_eq
  last_eq := by simp [DList.pushBack]
  next_eq as y bs heq := by
    -- the last cell is the new one, every other one is a cell of the old list
    rcases bs.eq_nil_or_concat with rfl | ⟨bs, z, rfl⟩
    · obtain ⟨rfl, hxy⟩ := List.append_inj' heq rfl
      obtain rfl := List.cons.inj hxy |>.1
      exact pushBack_next_self fun hl => hx (h.mem_of_last hl)
    · have heq' : l ++ [x] = (as ++ y :: bs) ++ [z] := by simpa using heq
      obtain ⟨rfl, hxz⟩ := List.append_inj' heq' rfl
      obtain rfl := List.cons.inj hxz |>.1
      have hyx : y ≠ x := fun hyx => hx (by simp [hyx])
      cases bs with
      | nil =>
        exact pushBack_next_last (by simp [h.last_eq])
      | cons w bs =>
        have hy := h.not_mem_sides.2
        have hlast : d.last ≠ some y := by
          rw [h.last_eq, List.getLast?_append_of_ne_nil _ (by simp), List.getLast?_cons_cons]
          exact fun hl => hy (List.mem_of_getLast? hl)
        rw [pushBack_next_of_ne hyx hlast, h.next_eq as y (w :: bs) rfl]
        rfl
  prev_eq as y bs heq := by
    rcases bs.eq_nil_or_concat with rfl | ⟨bs, z, rfl⟩
    · obtain ⟨rfl, hxy⟩ := List.append_inj' heq rfl
      obtain rfl := List.cons.inj hxy |>.1
      rw [pushBack_prev_self, h.last_eq]
    · have heq' : l ++ [x] = (as ++ y :: bs) ++ [z] := by simpa using heq
      obtain ⟨rfl, -⟩ := List.append_inj' heq' rfl
      have hyx : y ≠ x := fun hyx => hx (by simp [hyx])
      rw [pushBack_prev_of_ne hyx, h.prev_eq as y bs rfl]

/-- Linking to the end leaves the links of cells that are not on the list alone. -/
theorem Holds.pushBack_sameAt (h : d.Holds l) (hy : y ∉ l) (hyx : y ≠ x) :
    d.SameAt (d.pushBack x) y :=
  ⟨pushBack_next_of_ne hyx fun hl => hy (h.mem_of_last hl), pushBack_prev_of_ne hyx⟩

/-- Linking to the beginning prepends to the list. -/
theorem Holds.pushFront (h : d.Holds l) (hx : x ∉ l) : (d.pushFront x).Holds (x :: l) := by
  have hpush := (h.flip.pushBack (x := x) (by simpa using hx)).flip
  rw [pushFront_eq_flip]
  simpa using hpush

/-- Linking to the beginning leaves the links of cells that are not on the list alone. -/
theorem Holds.pushFront_sameAt (h : d.Holds l) (hy : y ∉ l) (hyx : y ≠ x) :
    d.SameAt (d.pushFront x) y := by
  rw [pushFront_eq_flip]
  exact And.symm (h.flip.pushBack_sameAt (by simpa using hy) hyx)

theorem remove_next_prev (hp : d.prev x = some y) : (d.remove x).next y = d.next x := by
  rw [remove_eq]
  cases d.next x <;> simp [setPrevOf, setNextOf, setNext, setPrev, hp]

theorem remove_next_of_ne (hp : d.prev x ≠ some y) : (d.remove x).next y = d.next y := by
  rw [remove_eq]
  cases h : d.prev x with
  | none => cases d.next x <;> simp [setPrevOf, setNextOf, setPrev]
  | some z =>
    have hyz : y ≠ z := fun hyz => hp (hyz ▸ h)
    cases d.next x <;> simp [setPrevOf, setNextOf, setNext, setPrev, hyz]

theorem remove_first : (d.remove x).first = if d.prev x = none then d.next x else d.first := by
  rw [remove_eq]
  cases d.prev x <;> cases d.next x <;> simp [setPrevOf, setNextOf, setNext, setPrev]

/-- What a removal does to the forward links, read from both ends below. -/
theorem Holds.remove_forward (h : d.Holds (as ++ x :: bs)) :
    (d.remove x).first = (as ++ bs).head? ∧
      ∀ cs y ds, as ++ bs = cs ++ y :: ds → (d.remove x).next y = ds.head? := by
  have hnext := h.next_eq as x bs rfl
  have hprev := h.prev_eq as x bs rfl
  constructor
  · rw [remove_first, hprev, hnext]
    cases as with
    | nil => simp
    | cons a as => simpa using h.first_eq
  · intro cs y ds heq
    have hright : ∀ es, bs = es ++ y :: ds → (d.remove x).next y = ds.head? := by
      intro es hbs
      have hne : d.prev x ≠ some y := by
        rw [hprev]
        intro hl
        have hnodup : (as ++ bs).Nodup := h.nodup.sublist (by simp)
        exact List.disjoint_of_nodup_append hnodup (List.mem_of_getLast? hl) (by simp [hbs])
      rw [remove_next_of_ne hne]
      exact h.next_eq (as ++ x :: es) y ds (by simp [hbs])
    rcases List.append_eq_append_iff.mp heq with ⟨es, rfl, heq'⟩ | ⟨es, rfl, heq'⟩
    · exact hright es heq'
    · cases es with
      | nil => exact hright [] (by simpa using heq'.symm)
      | cons e es =>
        -- `y` is to the left of the removed cell, and its neighbour if nothing is between them
        obtain ⟨rfl, rfl⟩ := List.cons.inj heq'
        cases es with
        | nil =>
          rw [remove_next_prev (by simpa using hprev)]
          exact hnext
        | cons w es =>
          have hne : d.prev x ≠ some y := by
            rw [hprev, List.getLast?_append_of_ne_nil _ (by simp), List.getLast?_cons_cons]
            intro hl
            have hsplit : d.Holds (cs ++ y :: ((w :: es) ++ x :: bs)) := by simpa using h
            have hmem : y ∈ w :: es := List.mem_of_getLast? hl
            exact hsplit.not_mem_sides.2 (List.mem_append_left _ hmem)
          rw [remove_next_of_ne hne]
          exact h.next_eq cs y (w :: es ++ x :: bs) (by simp)

/-- Taking a cell off the list removes it. -/
theorem Holds.remove (h : d.Holds (as ++ x :: bs)) : (d.remove x).Holds (as ++ bs) := by
  obtain ⟨hfirst, hnext⟩ := h.remove_forward
  have hflip : d.flip.Holds (bs.reverse ++ x :: as.reverse) := by simpa using h.flip
  obtain ⟨hlast, hprev⟩ := hflip.remove_forward
  rw [← remove_flip] at hlast hprev
  refine ⟨h.nodup.sublist (by simp), hfirst, ?_, hnext, ?_⟩
  · simpa [DList.flip] using hlast
  · intro cs y ds heq
    have := hprev ds.reverse y cs.reverse (by simpa using congrArg List.reverse heq)
    simpa [DList.flip] using this

/-- Taking several cells off the list, one after the other, removes them. -/
theorem Holds.foldl_remove {xs : List α} (h : d.Holds l) (hnodup : xs.Nodup)
    (hxs : ∀ x ∈ xs, x ∈ l) :
    ∃ l', (xs.foldl DList.remove d).Holds l' ∧ ∀ y, y ∈ l' ↔ y ∈ l ∧ y ∉ xs := by
  induction xs generalizing d l with
  | nil => exact ⟨l, h, by simp⟩
  | cons x xs ih =>
    obtain ⟨hx, hnodup⟩ := List.nodup_cons.mp hnodup
    obtain ⟨as, bs, rfl⟩ := List.append_of_mem (hxs x (by simp))
    have hsides := h.not_mem_sides
    have hrest : ∀ y ∈ xs, y ∈ as ++ bs := fun y hy => by
      have hyx : y ≠ x := fun hyx => hx (hyx ▸ hy)
      simpa [hyx] using hxs y (by simp [hy])
    obtain ⟨l', hl', hmem⟩ := ih h.remove hnodup hrest
    refine ⟨l', hl', fun y => ?_⟩
    rw [hmem y]
    by_cases hyx : y = x
    · subst hyx
      simp [hsides]
    · simp [hyx]

/-- Taking a cell off the list leaves the links of cells that are not on the list alone. -/
theorem Holds.remove_sameAt (h : d.Holds l) (hx : x ∈ l) (hy : y ∉ l) :
    d.SameAt (d.remove x) y := by
  refine ⟨remove_next_of_ne fun hp => hy (h.mem_of_prev hx hp), ?_⟩
  have hne : d.flip.prev x ≠ some y := fun hn => hy (h.mem_of_next hx hn)
  have := remove_next_of_ne hne
  rwa [← remove_flip] at this

/-- Taking a cell off the list and clearing its links removes it. -/
theorem Holds.unlink (h : d.Holds (as ++ x :: bs)) : (d.unlink x).Holds (as ++ bs) := by
  obtain ⟨hxa, hxb⟩ := h.not_mem_sides
  refine h.remove.congr rfl rfl fun y hy => ?_
  have hyx : y ≠ x := by
    rintro rfl
    exact (List.mem_append.mp hy).elim hxa hxb
  simp [SameAt, DList.unlink, setNext, setPrev, hyx]

/-- A cell taken off the list has no links; those of cells that were not on it are as before. -/
theorem unlink_next_self : (d.unlink x).next x = none := by
  simp [DList.unlink, setNext, setPrev]

theorem unlink_prev_self : (d.unlink x).prev x = none := by
  simp [DList.unlink, setPrev]

theorem Holds.unlink_sameAt (h : d.Holds l) (hx : x ∈ l) (hy : y ∉ l) :
    d.SameAt (d.unlink x) y := by
  have hyx : y ≠ x := fun hyx => hy (hyx ▸ hx)
  obtain ⟨hn, hp⟩ := h.remove_sameAt hx hy
  simpa [SameAt, DList.unlink, setNext, setPrev, hyx] using And.intro hn hp

/-- Moving the first pointer forward before taking the first cell off makes no difference. -/
theorem Holds.unlink_first (h : d.Holds (x :: l)) :
    ({ d with first := d.next x } : DList α).unlink x = d.unlink x := by
  have hprev : d.prev x = none := h.prev_eq [] x l rfl
  rw [DList.unlink, DList.unlink, remove_eq, remove_eq]
  simp only [hprev, setNextOf]

/-- The first cell has no predecessor, so taking it off is an `unlink`. -/
theorem Holds.popFront_eq (h : d.Holds (x :: l)) : d.popFront x = d.unlink x := by
  have hprev : d.prev x = none := h.prev_eq [] x l rfl
  rw [DList.unlink, remove_eq, hprev]
  rfl

end Rules

end DList

end Lib
