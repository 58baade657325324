import Nxweb.Memory.Pool

/-!
# Integrity of object pools

What `nxp_init_chunk`, `nxp_alloc`, `nxp_free` and `nxp_gc` do to the free list is said by the
rules for doubly linked lists. The invariant that all of them keep, for any number of chunks that
come and go, says that the free list holds exactly the objects of live chunks that nobody holds,
and that a chunk's id is its height in the stack of chunks. The address space is too small for
the 32-bit ids to wrap around.
-/

namespace Nxweb

open Lib

@[simp]
theorem NxpChunk.mem_objects {c : NxpChunk} {o : ObjRef} :
    o ∈ c.objects ↔ o.chunk = c.addr ∧ o.index < c.nitems := by
  constructor
  · intro ho
    obtain ⟨i, hi, rfl⟩ := List.mem_map.mp ho
    exact ⟨rfl, List.mem_range.mp hi⟩
  · rintro ⟨hc, hi⟩
    exact List.mem_map.mpr ⟨o.index, List.mem_range.mpr hi, by rw [← hc]⟩

theorem NxpChunk.objects_nodup (c : NxpChunk) : c.objects.Nodup :=
  List.nodup_range.map fun _ _ h => (ObjRef.mk.inj h).2

theorem NxpChunk.objects_head? {c : NxpChunk} (h : 0 < c.nitems) :
    c.objects.head? = some ⟨c.addr, 0⟩ := by
  obtain ⟨n, hn⟩ : ∃ n, c.nitems = n + 1 := ⟨c.nitems - 1, by omega⟩
  simp [objects, hn, List.range_succ_eq_map]

namespace NxpPool

section InitChunk

/-- The free list as it will be when the loop of `nxp_init_chunk` ends with `prev`. -/
def closed (d : DList ObjRef) (prev head : Option ObjRef) : DList ObjRef where
  next := match prev with
    | some y => Function.update d.next y none
    | none => d.next
  prev := d.prev
  first := head
  last := prev

variable {pool : NxpPool} {s : NxpPool × Option ObjRef} {l objs : List ObjRef}
  {head : Option ObjRef} {obj : ObjRef}

/-- One round of the loop links one more object to the end. -/
theorem closed_initObject (h : (closed s.1.free s.2 head).Holds l) (hobj : obj ∉ l) :
    closed (initObject s obj).1.free (initObject s obj).2 (head.or (some obj)) =
      (closed s.1.free s.2 head).pushBack obj := by
  obtain ⟨pool, prev⟩ := s
  cases prev with
  | none =>
    have hl : l = [] := by simpa [closed] using h.last_eq.symm
    have hhead : head = none := by simpa [closed, hl] using h.first_eq
    subst hhead
    rfl
  | some y =>
    have hy : y ∈ l := h.mem_of_last rfl
    have hne : obj ≠ y := fun heq => hobj (heq ▸ hy)
    have hhead : head.or (some obj) = head := by
      cases l with
      | nil => simp at hy
      | cons z l => rw [show head = some z from h.first_eq]; rfl
    rw [hhead]
    ext z : 2
    · by_cases hzo : z = obj
      · subst hzo
        simp [closed, initObject, DList.pushBack, DList.setNextOf, DList.setNext, DList.setPrev, hne]
      · by_cases hzy : z = y
        · subst hzy
          simp [closed, initObject, DList.pushBack, DList.setNextOf, DList.setNext,
            DList.setPrev, hzo]
        · simp [closed, initObject, DList.pushBack, DList.setNextOf, DList.setNext,
            DList.setPrev, hzo, hzy]
    · simp [closed, initObject, DList.pushBack, DList.setNextOf, DList.setNext, DList.setPrev]
    · simp [closed, initObject, DList.pushBack, DList.setNextOf, DList.setNext, DList.setPrev]
    · simp [closed, initObject, DList.pushBack]

/-- The loop links all objects to the end. -/
theorem closed_foldl_initObject (h : (closed s.1.free s.2 head).Holds l)
    (hnodup : (l ++ objs).Nodup) :
    (closed (objs.foldl initObject s).1.free (objs.foldl initObject s).2
      (head.or objs.head?)).Holds (l ++ objs) := by
  induction objs generalizing s l head with
  | nil => simpa using h
  | cons obj objs ih =>
    have hobj : obj ∉ l := fun hl => by
      have := List.disjoint_of_nodup_append hnodup hl
      simp at this
    have hstep := closed_initObject h hobj ▸ h.pushBack hobj
    have hrest := ih hstep (by simpa using hnodup)
    rw [List.append_assoc] at hrest
    have hhead : (head.or (some obj)).or objs.head? = head.or (some obj) := by
      cases head <;> rfl
    rw [hhead] at hrest
    exact hrest

/-- The loop changes only headers. -/
theorem foldl_initObject_chunk (s : NxpPool × Option ObjRef) (objs : List ObjRef) :
    (objs.foldl initObject s).1.chunk = s.1.chunk ∧
      (objs.foldl initObject s).1.older = s.1.older ∧
      (objs.foldl initObject s).1.objectSize = s.1.objectSize ∧
      (objs.foldl initObject s).1.free.first = s.1.free.first := by
  induction objs generalizing s with
  | nil => exact ⟨rfl, rfl, rfl, rfl⟩
  | cons obj objs ih =>
    obtain ⟨hc, ho, hs, hf⟩ := ih (initObject s obj)
    refine ⟨hc, ho, hs, hf.trans ?_⟩
    obtain ⟨pool, prev⟩ := s
    cases prev <;> rfl

/-- The loop marks every object as not in use and as one of the newest chunk. -/
theorem foldl_initObject_fields (s : NxpPool × Option ObjRef) (objs : List ObjRef)
    (o : ObjRef) :
    ((objs.foldl initObject s).1.inUse o = if o ∈ objs then false else s.1.inUse o) ∧
      (objs.foldl initObject s).1.chunkId o =
        if o ∈ objs then s.1.chunk.id else s.1.chunkId o := by
  induction objs generalizing s with
  | nil => simp
  | cons obj objs ih =>
    obtain ⟨hu, hc⟩ := ih (initObject s obj)
    rw [List.foldl_cons, hu, hc]
    by_cases ho : o ∈ objs
    · simp [ho, initObject]
    · by_cases heq : o = obj
      · subst heq
        simp [ho, initObject]
      · simp [ho, heq, initObject]

/-- A list is closed before the loop. -/
theorem closed_of_holds {d : DList ObjRef} (h : d.Holds l) : closed d d.last l.head? = d := by
  obtain ⟨next, prev, first, last⟩ := d
  obtain rfl : first = l.head? := h.first_eq
  cases last with
  | none => rfl
  | some y =>
    -- the last object has no successor already
    obtain ⟨as, rfl⟩ := List.getLast?_eq_some_iff.mp h.last_eq.symm
    have hy : next y = none := h.next_eq as y [] rfl
    have hnext : Function.update next y none = next := by
      rw [← hy]
      exact Function.update_eq_self y next
    simp only [closed, hnext]

/-- `nxp_init_chunk` puts all objects of the newest chunk at the end of the free list. -/
theorem initChunk_spec (h : pool.free.Holds l) (hitems : 0 < pool.chunk.nitems)
    (hnew : ∀ o ∈ pool.chunk.objects, o ∉ l) :
    ∃ pool', pool.initChunk = some pool' ∧ pool'.free.Holds (l ++ pool.chunk.objects) ∧
      pool'.chunk = pool.chunk ∧ pool'.older = pool.older ∧
      pool'.objectSize = pool.objectSize ∧
      (∀ o, pool'.inUse o = if o ∈ pool.chunk.objects then false else pool.inUse o) ∧
      ∀ o, pool'.chunkId o =
        if o ∈ pool.chunk.objects then pool.chunk.id else pool.chunkId o := by
  have hnodup : (l ++ pool.chunk.objects).Nodup :=
    List.nodup_append.mpr ⟨h.nodup, pool.chunk.objects_nodup, fun a ha b hb hab =>
      hnew b hb (hab ▸ ha)⟩
  have hstart : (closed pool.free pool.free.last l.head?).Holds l := by
    rw [closed_of_holds h]
    exact h
  have hloop := closed_foldl_initObject (s := (pool, pool.free.last)) hstart hnodup
  obtain ⟨hc, ho, hs, hf⟩ :=
    foldl_initObject_chunk (pool, pool.free.last) pool.chunk.objects
  have hfields :=
    foldl_initObject_fields (pool, pool.free.last) pool.chunk.objects
  unfold initChunk
  generalize pool.chunk.objects.foldl initObject (pool, pool.free.last) = s at *
  obtain ⟨pool', prev⟩ := s
  -- the loop has linked at least one object
  have hne : l ++ pool.chunk.objects ≠ [] := by
    have hhead := NxpChunk.objects_head? hitems
    intro heq
    rw [(List.append_eq_nil_iff.mp heq).2] at hhead
    cases hhead
  cases prev with
  | none =>
    have hlast := hloop.last_eq
    exact absurd (List.getLast?_eq_none_iff.mp hlast.symm) hne
  | some prev =>
    refine ⟨_, rfl, ?_, hc, ho, hs, fun o => (hfields o).1, fun o => (hfields o).2⟩
    rw [NxpChunk.objects_head? hitems] at hloop
    have hf' : pool'.free.first = l.head? := hf.trans h.first_eq
    convert hloop using 1
    cases hl : l.head? with
    | none => simp [closed, DList.setNext, hf', hl]
    | some y => simp [closed, DList.setNext, hf', hl]

end InitChunk

section FreeLists

variable {d : DList ObjRef} {l : List ObjRef} {obj : ObjRef}

/-- Freeing to the end links to the end. -/
theorem freeToEnd_eq (h : d.Holds l) (hobj : obj ∉ l) : freeToEnd d obj = d.pushBack obj := by
  unfold freeToEnd DList.pushBack
  cases hl : d.last with
  | none => rfl
  | some y =>
    have hne : obj ≠ y := fun heq => hobj (heq ▸ h.mem_of_last hl)
    simp only [DList.setNext, DList.setPrev, DList.setNextOf]
    rw [Function.update_comm hne]

/-- Freeing to the beginning links to the beginning. -/
theorem freeToBeginning_eq (h : d.Holds l) (hobj : obj ∉ l) :
    freeToBeginning d obj = d.pushFront obj := by
  unfold freeToBeginning DList.pushFront
  cases hl : d.first with
  | none => rfl
  | some y =>
    have hne : obj ≠ y := fun heq => hobj (heq ▸ h.mem_of_first hl)
    simp only [DList.setNext, DList.setPrev, DList.setPrevOf]
    rw [Function.update_comm hne]

end FreeLists

section Chunks

/-- A stack of chunks as `nxp_alloc` builds it: ids count from the bottom, and sizes double up to
a limit. -/
def Stacked : List NxpChunk → Prop
  | [] => True
  | c :: cs => c.id = cs.length + 1 ∧ min 1024 (2 ^ cs.length) ≤ c.nitems ∧ Stacked cs

variable {pool : NxpPool} {c : NxpChunk} {cs : List NxpChunk}

theorem Stacked.id_le (h : Stacked cs) (hc : c ∈ cs) : c.id ≤ cs.length := by
  induction cs with
  | nil => simp at hc
  | cons c' cs ih =>
    rcases List.mem_cons.mp hc with rfl | hc
    · simp [h.1]
    · exact (ih h.2.2 hc).trans (by simp)

/-- All but ten chunks of a stack have the full size. -/
theorem Stacked.le_bytes (h : Stacked cs) :
    (cs.length - 10) * (1024 * pool.objectSize) ≤
      (cs.map fun c => pool.chunkBytes c.nitems).sum := by
  induction cs with
  | nil => simp
  | cons c cs ih =>
    obtain ⟨-, hitems, hrest⟩ := h
    have ih := ih hrest
    simp only [List.map_cons, List.sum_cons, List.length_cons]
    by_cases hlen : 10 ≤ cs.length
    · have hpow : 2 ^ 10 ≤ 2 ^ cs.length := Nat.pow_le_pow_right (by omega) hlen
      have hc : 1024 ≤ c.nitems := by omega
      have hsize : 1024 * pool.objectSize ≤ pool.chunkBytes c.nitems := by
        have := Nat.mul_le_mul_right pool.objectSize hc
        unfold chunkBytes
        omega
      have hsucc : cs.length + 1 - 10 = cs.length - 10 + 1 := by omega
      rw [hsucc, Nat.add_mul]
      omega
    · have hzero : cs.length + 1 - 10 = 0 := by omega
      rw [hzero, Nat.zero_mul]
      exact Nat.zero_le _

/-- The address space has no room for as many chunks as there are ids. -/
theorem Stacked.length_lt (h : Stacked pool.chunks) (hsize : 32 < pool.objectSize)
    (hroom : pool.liveBytes ≤ addressSpace) : pool.chunks.length + 1 < 2 ^ 32 := by
  have hbytes : (pool.chunks.length - 10) * (1024 * pool.objectSize) ≤ pool.liveBytes :=
    h.le_bytes
  have hfull : (pool.chunks.length - 10) * (1024 * 33) ≤ 2 ^ 47 :=
    calc (pool.chunks.length - 10) * (1024 * 33)
      _ ≤ (pool.chunks.length - 10) * (1024 * pool.objectSize) :=
          Nat.mul_le_mul_left _ (by omega)
      _ ≤ 2 ^ 47 := hbytes.trans hroom
  omega

end Chunks

end NxpPool

/-- What every call on a pool keeps; `c₀` is the initial chunk. -/
structure PoolRun.Inv (c₀ : NxpChunk) (s : PoolRun) : Prop where
  free_list : ∃ l, s.pool.free.Holds l ∧
    ∀ o, o ∈ l ↔ o ∈ s.pool.objects ∧ s.pool.inUse o = false
  held_nodup : s.held.Nodup
  mem_held : ∀ o, o ∈ s.held ↔ o ∈ s.pool.objects ∧ s.pool.inUse o = true
  addrs : (s.pool.chunks.map NxpChunk.addr).Nodup
  stacked : NxpPool.Stacked s.pool.chunks
  initial : s.pool.chunks.getLast? = some c₀
  chunkIds : ∀ c ∈ s.pool.chunks, ∀ o ∈ c.objects, s.pool.chunkId o = c.id
  size : 32 < s.pool.objectSize

namespace PoolRun

open NxpPool

variable {c₀ : NxpChunk} {s : PoolRun}

/-- The order in which the objects were given out does not matter. -/
theorem Inv.perm {pool : NxpPool} {held held' : List ObjRef}
    (h : Inv c₀ { pool, held }) (hperm : held.Perm held') : Inv c₀ { pool, held := held' } where
  free_list := h.free_list
  held_nodup := hperm.nodup_iff.mp h.held_nodup
  mem_held o := hperm.mem_iff.symm.trans (h.mem_held o)
  addrs := h.addrs
  stacked := h.stacked
  initial := h.initial
  chunkIds := h.chunkIds
  size := h.size

section Alloc

/-- The object at the beginning of the free list is held by nobody, and may be given out. -/
theorem Inv.takeFirst {obj : ObjRef} (h : s.Inv c₀) (hfirst : s.pool.free.first = some obj) :
    obj ∉ s.held ∧ ({ pool := s.pool.takeFirst obj, held := obj :: s.held } : PoolRun).Inv c₀ := by
  obtain ⟨l, hl, hmem⟩ := h.free_list
  cases l with
  | nil => simp [hl.first_eq] at hfirst
  | cons o l =>
    obtain rfl : o = obj := by simpa [hl.first_eq] using hfirst
    have hol : o ∉ l := (List.nodup_cons.mp hl.nodup).1
    obtain ⟨hlive, hfree⟩ := (hmem o).mp (by simp)
    have hheld : o ∉ s.held := by
      intro ho
      have hused := ((h.mem_held o).mp ho).2
      simp [hfree] at hused
    refine ⟨hheld, ⟨l, ?_, fun o' => ?_⟩, List.nodup_cons.mpr ⟨hheld, h.held_nodup⟩, fun o' => ?_,
      h.addrs, h.stacked, h.initial, h.chunkIds, h.size⟩
    · show (s.pool.free.popFront o).Holds l
      rw [hl.popFront_eq]
      exact (show s.pool.free.Holds ([] ++ o :: l) from hl).unlink
    · show o' ∈ l ↔ o' ∈ s.pool.objects ∧ Function.update s.pool.inUse o true o' = false
      have hmem' := hmem o'
      by_cases ho : o' = o
      · subst ho
        simp [hol]
      · simpa [ho] using hmem'
    · show o' ∈ o :: s.held ↔ o' ∈ s.pool.objects ∧ Function.update s.pool.inUse o true o' = true
      have hheld' := h.mem_held o'
      by_cases ho : o' = o
      · subst ho
        simp [hlive]
      · simpa [ho] using hheld'

/-- A chunk at a new address shares no object with the others. -/
theorem not_mem_objects_of_addr {cs : List NxpChunk} {c : NxpChunk}
    (hc : c.addr ∉ cs.map NxpChunk.addr) {o : ObjRef} (ho : o ∈ c.objects) :
    o ∉ cs.flatMap NxpChunk.objects := by
  intro hmem
  obtain ⟨c', hc', ho'⟩ := List.mem_flatMap.mp hmem
  rw [NxpChunk.mem_objects] at ho ho'
  exact hc (List.mem_map.mpr ⟨c', hc', ho'.1.symm.trans ho.1⟩)

/-- Twice as many objects, up to the limit, continue the stack of chunks. -/
theorem Inv.stacked_addChunk {addr : ℕ} (h : s.Inv c₀) (ha : s.Allowed (.alloc (some addr))) :
    Stacked (s.pool.addChunk addr).chunks := by
  have hlen := h.stacked.length_lt h.size (by have := ha.2; omega)
  obtain ⟨hid, hitems, -⟩ := h.stacked
  have hlen' : s.pool.chunks.length = s.pool.older.length + 1 := rfl
  refine ⟨?_, ?_, h.stacked⟩
  · show (s.pool.chunk.id + 1) % 2 ^ 32 = s.pool.older.length + 1 + 1
    rw [hid]
    exact Nat.mod_eq_of_lt (by omega)
  · show min 1024 (2 ^ (s.pool.older.length + 1)) ≤ s.pool.nextItems
    unfold nextItems
    rw [Nat.pow_succ]
    split <;> omega

/-- A new chunk is set up with all its objects free. -/
theorem Inv.addChunk {addr : ℕ} (h : s.Inv c₀) (ha : s.Allowed (.alloc (some addr)))
    (hfirst : s.pool.free.first = none) :
    ∃ pool obj, (s.pool.addChunk addr).initChunk = some pool ∧ pool.free.first = some obj ∧
      ({ s with pool } : PoolRun).Inv c₀ := by
  obtain ⟨l, hl, hmem⟩ := h.free_list
  obtain rfl : l = [] := by simpa [hl.first_eq] using hfirst
  have hstacked := h.stacked_addChunk ha
  have hitems : 0 < (s.pool.addChunk addr).chunk.nitems := by
    have hpow : 0 < 2 ^ (s.pool.addChunk addr).older.length := Nat.two_pow_pos _
    have := hstacked.2.1
    omega
  have hl' : (s.pool.addChunk addr).free.Holds [] := hl
  obtain ⟨pool, hpool, hfree, hchunk, holder, hsize, huse, hids⟩ :=
    initChunk_spec hl' hitems (by simp)
  have hnew : ∀ o ∈ (s.pool.addChunk addr).chunk.objects, o ∉ s.pool.objects := fun o ho =>
    not_mem_objects_of_addr (c := (s.pool.addChunk addr).chunk) ha.1 ho
  have hchunks : pool.chunks = (s.pool.addChunk addr).chunk :: s.pool.chunks := by
    simp only [chunks, hchunk, holder]
    rfl
  have hobjects : pool.objects = (s.pool.addChunk addr).chunk.objects ++ s.pool.objects := by
    simp only [objects, hchunks, List.flatMap_cons]
  have hunused : ∀ o ∈ s.pool.objects, s.pool.inUse o = true := by
    intro o ho
    by_contra hne
    simpa using (hmem o).mpr ⟨ho, by simpa using hne⟩
  refine ⟨pool, ⟨addr, 0⟩, hpool, ?_, ⟨_, hfree, fun o => ?_⟩, h.held_nodup, fun o => ?_, ?_, ?_,
    ?_, ?_, ?_⟩
  · rw [hfree.first_eq]
    exact NxpChunk.objects_head? hitems
  · -- all old objects are in use, so the new ones are all that is free
    show o ∈ [] ++ _ ↔ o ∈ pool.objects ∧ pool.inUse o = false
    rw [hobjects, huse o, List.nil_append, List.mem_append]
    by_cases ho : o ∈ (s.pool.addChunk addr).chunk.objects
    · simp only [ho, true_or, if_true, true_and]
    · simp only [ho, false_or, if_false, false_iff, not_and]
      intro hold
      have hused : (s.pool.addChunk addr).inUse o = true := hunused o hold
      simp [hused]
  · show o ∈ s.held ↔ o ∈ pool.objects ∧ pool.inUse o = true
    rw [hobjects, huse o, h.mem_held o, List.mem_append]
    by_cases ho : o ∈ (s.pool.addChunk addr).chunk.objects
    · simp [ho, hnew o ho]
    · simp only [ho, false_or, if_false]
      rfl
  · rw [hchunks]
    exact List.nodup_cons.mpr ⟨ha.1, h.addrs⟩
  · rw [hchunks]
    exact hstacked
  · rw [hchunks, show s.pool.chunks = s.pool.chunk :: s.pool.older from rfl,
      List.getLast?_cons_cons]
    exact h.initial
  · intro c hc o ho
    show pool.chunkId o = c.id
    rw [hids o]
    rw [hchunks] at hc
    rcases List.mem_cons.mp hc with rfl | hc
    · rw [if_pos ho]
    · have hold : o ∈ s.pool.objects := List.mem_flatMap.mpr ⟨c, hc, ho⟩
      rw [if_neg fun ho' => hnew o ho' hold]
      exact h.chunkIds c hc o ho
  · show 32 < pool.objectSize
    rw [hsize]
    exact h.size

/-- `nxp_alloc` gives out an object that nobody holds, or nothing if there is no memory. -/
theorem Inv.alloc {mem : Option ℕ} (h : s.Inv c₀) (ha : s.Allowed (.alloc mem)) :
    ∃ pool obj, s.pool.alloc mem = some (pool, obj) ∧ (∀ o ∈ obj, o ∉ s.held) ∧
      ({ pool, held := obj.toList ++ s.held } : PoolRun).Inv c₀ := by
  cases hfirst : s.pool.free.first with
  | some obj =>
    obtain ⟨hheld, hinv⟩ := h.takeFirst hfirst
    exact ⟨s.pool.takeFirst obj, some obj, by simp [NxpPool.alloc, hfirst], by simpa using hheld,
      hinv⟩
  | none =>
    cases mem with
    | none => exact ⟨s.pool, none, by simp [NxpPool.alloc, hfirst], by simp, h⟩
    | some addr =>
      obtain ⟨pool, obj, hpool, hobj, hinv⟩ := h.addChunk ha hfirst
      obtain ⟨hheld, hinv⟩ := hinv.takeFirst hobj
      refine ⟨pool.takeFirst obj, some obj, ?_, by simpa using hheld, hinv⟩
      simp [NxpPool.alloc, hfirst, hpool, hobj]

end Alloc

section Free

/-- `nxp_free` of an object that is held fails no assertion. -/
theorem Inv.release {obj : ObjRef} (h : s.Inv c₀) (hobj : obj ∈ s.held) :
    ∃ pool, s.pool.release obj = some pool ∧
      ({ pool, held := s.held.erase obj } : PoolRun).Inv c₀ := by
  obtain ⟨l, hl, hmem⟩ := h.free_list
  obtain ⟨hlive, hused⟩ := (h.mem_held obj).mp hobj
  have hnew : obj ∉ l := fun hobj => by simpa [hused] using (hmem obj).mp hobj
  -- wherever the object is put, it is on the free list and nobody holds it
  have hinv : ∀ free l', free.Holds l' → (∀ o, o ∈ l' ↔ o = obj ∨ o ∈ l) →
      ({ pool := { s.pool with inUse := Function.update s.pool.inUse obj false, free := free },
         held := s.held.erase obj } : PoolRun).Inv c₀ := by
    intro free l' hfree hl'
    refine ⟨⟨l', hfree, fun o => ?_⟩, h.held_nodup.erase obj, fun o => ?_, h.addrs, h.stacked,
      h.initial, h.chunkIds, h.size⟩
    · show o ∈ l' ↔ o ∈ s.pool.objects ∧ Function.update s.pool.inUse obj false o = false
      rw [hl' o]
      by_cases ho : o = obj
      · subst ho
        simp [hlive]
      · simpa [ho] using hmem o
    · show o ∈ s.held.erase obj ↔
        o ∈ s.pool.objects ∧ Function.update s.pool.inUse obj false o = true
      rw [h.held_nodup.mem_erase_iff]
      by_cases ho : o = obj
      · subst ho
        simp
      · simpa [ho] using h.mem_held o
  unfold NxpPool.release
  rw [if_pos hused]
  by_cases hid : s.pool.chunkId obj = s.pool.chunk.id
  · refine ⟨_, if_pos hid, hinv _ (l ++ [obj]) ?_ (by simp [or_comm])⟩
    show (freeToEnd s.pool.free obj).Holds (l ++ [obj])
    rw [freeToEnd_eq hl hnew]
    exact hl.pushBack hnew
  · -- the chunk is an older one, whose id is smaller
    have hlt : s.pool.chunkId obj < s.pool.chunk.id := by
      obtain ⟨c, hc, ho⟩ := List.mem_flatMap.mp hlive
      rw [h.chunkIds c hc obj ho] at hid ⊢
      rcases List.mem_cons.mp hc with rfl | hc
      · exact absurd rfl hid
      · have hle := h.stacked.2.2.id_le hc
        have := h.stacked.1
        omega
    refine ⟨_, (if_neg hid).trans (if_pos hlt), hinv _ (obj :: l) ?_ (by simp)⟩
    show (freeToBeginning s.pool.free obj).Holds (obj :: l)
    rw [freeToBeginning_eq hl hnew]
    exact hl.pushFront hnew

end Free

section GarbageCollection

/-- `nxp_gc` keeps all chunks, or releases the newest one if it is not the initial one and none of
its objects is held. -/
theorem Inv.gc (h : s.Inv c₀) :
    ({ s with pool := s.pool.gc } : PoolRun).Inv c₀ ∧
      (s.pool.gc.chunks = s.pool.chunks ∨
        s.pool.older ≠ [] ∧ s.pool.gc.chunks = s.pool.older ∧
          ∀ o ∈ s.pool.chunk.objects, o ∉ s.held) := by
  unfold NxpPool.gc
  split
  next => exact ⟨h, .inl rfl⟩
  next c older holder =>
    split
    next => exact ⟨h, .inl rfl⟩
    next hany =>
      obtain ⟨l, hl, hmem⟩ := h.free_list
      have hchunks : s.pool.chunks = s.pool.chunk :: c :: older := by rw [← holder]; rfl
      have hunused : ∀ o ∈ s.pool.chunk.objects, s.pool.inUse o = false := by
        intro o ho
        by_contra hne
        exact hany (List.any_eq_true.mpr ⟨o, ho, by simpa using hne⟩)
      have hobjects : s.pool.objects =
          s.pool.chunk.objects ++ (c :: older).flatMap NxpChunk.objects := by
        simp only [objects, hchunks, List.flatMap_cons]
      have haddrs := h.addrs
      rw [hchunks] at haddrs
      obtain ⟨haddr, haddrs⟩ := List.nodup_cons.mp haddrs
      have hapart : ∀ o ∈ s.pool.chunk.objects, o ∉ (c :: older).flatMap NxpChunk.objects :=
        fun o ho => not_mem_objects_of_addr haddr ho
      have hin : ∀ o ∈ s.pool.chunk.objects, o ∈ l := fun o ho =>
        (hmem o).mpr ⟨by simp only [hobjects, List.mem_append, ho, true_or], hunused o ho⟩
      obtain ⟨l', hl', hmem'⟩ := hl.foldl_remove s.pool.chunk.objects_nodup hin
      refine ⟨⟨⟨l', hl', fun o => ?_⟩, h.held_nodup, fun o => ?_, haddrs, ?_, ?_, ?_, h.size⟩,
        .inr ⟨by simp [holder], by rw [holder]; rfl, fun o ho hheld => ?_⟩⟩
      · show o ∈ l' ↔ o ∈ (c :: older).flatMap NxpChunk.objects ∧ s.pool.inUse o = false
        rw [hmem' o, hmem o, hobjects, List.mem_append]
        have := hapart o
        tauto
      · show o ∈ s.held ↔ o ∈ (c :: older).flatMap NxpChunk.objects ∧ s.pool.inUse o = true
        rw [h.mem_held o, hobjects, List.mem_append]
        have := hunused o
        grind
      · have := h.stacked
        rw [hchunks] at this
        exact this.2.2
      · have := h.initial
        rw [hchunks, List.getLast?_cons_cons] at this
        exact this
      · intro c' hc' o ho
        refine h.chunkIds c' ?_ o ho
        rw [hchunks]
        exact List.mem_cons_of_mem _ hc'
      · have hused := ((h.mem_held o).mp hheld).2
        simp [hunused o ho] at hused

end GarbageCollection

end PoolRun

namespace NxpPool

section Iterate

variable {pool : NxpPool} {c : NxpChunk} {cs : List NxpChunk}

/-- The objects of a chunk from an index on. -/
def objectsFrom (c : NxpChunk) (i n : ℕ) : List ObjRef :=
  (List.range' i n).map (ObjRef.mk c.addr)

/-- The inner loop stops at the first object that is in use. -/
theorem scanChunk_spec (pool : NxpPool) (c : NxpChunk) (n i : ℕ) :
    (pool.scanChunk c n i = none ∧ (objectsFrom c i n).filter pool.inUse = []) ∨
      ∃ j m, pool.scanChunk c n i = some j ∧ i + n = j + 1 + m ∧ m < n ∧
        (objectsFrom c i n).filter pool.inUse =
          ⟨c.addr, j⟩ :: (objectsFrom c (j + 1) m).filter pool.inUse := by
  induction n generalizing i with
  | zero => exact .inl ⟨rfl, rfl⟩
  | succ n ih =>
    have hcons : objectsFrom c i (n + 1) = ⟨c.addr, i⟩ :: objectsFrom c (i + 1) n := rfl
    by_cases hi : pool.inUse ⟨c.addr, i⟩ = true
    · exact .inr ⟨i, n, by simp [scanChunk, hi], by omega, by omega, by simp [hcons, hi]⟩
    · have hscan : pool.scanChunk c (n + 1) i = pool.scanChunk c n (i + 1) := by
        simp [scanChunk, hi]
      have hfilter : (objectsFrom c i (n + 1)).filter pool.inUse =
          (objectsFrom c (i + 1) n).filter pool.inUse := by
        simp [hcons, hi]
      rw [hscan, hfilter]
      rcases ih (i + 1) with hnone | ⟨j, m, hj, hsum, hlt, hrest⟩
      · exact .inl hnone
      · exact .inr ⟨j, m, hj, by omega, by omega, hrest⟩

/-- A chunk without further objects in use is left for the next one. -/
theorem Visits.of_scan_none {i : ℕ} {l : List ObjRef} (h : pool.Visits (cs, 0) l)
    (hscan : pool.scanChunk c (c.nitems - i) i = none) : pool.Visits (c :: cs, i) l := by
  have hstep : pool.iterate (c :: cs) i = pool.iterate cs 0 := by simp [iterate, hscan]
  cases h with
  | done hnone => exact .done (hstep.trans hnone)
  | next hsome hl => exact .next (hstep.trans hsome) hl

/-- The iterator visits the rest of its chunk and then what it visits of the older ones. -/
theorem Visits.cons {l : List ObjRef} (h : pool.Visits (cs, 0) l) (n i : ℕ)
    (hn : c.nitems - i = n) :
    pool.Visits (c :: cs, i) ((objectsFrom c i n).filter pool.inUse ++ l) := by
  -- each object found leaves fewer objects behind it
  induction n using Nat.strong_induction_on generalizing i with
  | _ n ih =>
    rcases scanChunk_spec pool c n i with ⟨hscan, hfilter⟩ | ⟨j, m, hscan, hsum, hlt, hfilter⟩
    · rw [hfilter]
      exact h.of_scan_none (hn ▸ hscan)
    · rw [hfilter]
      refine .next ?_ (ih m hlt (j + 1) (by omega))
      simp [iterate, hn, hscan]

/-- The iterator visits the objects in use, in the order of the chunks. -/
theorem visits_filter (pool : NxpPool) (cs : List NxpChunk) :
    pool.Visits (cs, 0) ((cs.flatMap NxpChunk.objects).filter pool.inUse) := by
  induction cs with
  | nil => exact .done rfl
  | cons c cs ih =>
    have hobjects : objectsFrom c 0 c.nitems = c.objects := by
      rw [objectsFrom, ← List.range_eq_range']
      rfl
    have := ih.cons (c := c) c.nitems 0 rfl
    rwa [hobjects, ← List.filter_append, ← List.flatMap_cons] at this

end Iterate

/-- Chunks at different addresses have different objects. -/
theorem objects_nodup {cs : List NxpChunk} (h : (cs.map NxpChunk.addr).Nodup) :
    (cs.flatMap NxpChunk.objects).Nodup := by
  refine List.nodup_flatMap.mpr ⟨fun c _ => c.objects_nodup, ?_⟩
  refine (List.pairwise_map.mp h).imp fun {c c'} hne o ho ho' => hne ?_
  rw [NxpChunk.mem_objects] at ho ho'
  exact ho.1.symm.trans ho'.1

end NxpPool

namespace PoolRun

open NxpPool

variable {c₀ : NxpChunk} {s s' : PoolRun}

/-- A pool that is in order; `c₀` is its initial chunk. -/
structure Intact (c₀ : NxpChunk) (s : PoolRun) : Prop where
  /-- The free list is a doubly linked list of exactly the objects of live chunks that are not in
  use, each of them once. -/
  free_list : ∃ l, s.pool.free.Holds l ∧
    ∀ o, o ∈ l ↔ o ∈ s.pool.objects ∧ s.pool.inUse o = false
  /-- The objects in use are those that have been given out. -/
  in_use : ∀ o, o ∈ s.held ↔ o ∈ s.pool.objects ∧ s.pool.inUse o = true
  /-- `nxp_alloc` does not fail and returns no object that is in use. -/
  alloc : ∀ mem, s.Allowed (.alloc mem) → ∃ pool obj, s.pool.alloc mem = some (pool, obj) ∧
    ∀ o ∈ obj, o ∉ s.held
  /-- The assertions of `nxp_free` hold. -/
  free : ∀ obj ∈ s.held, (s.pool.release obj).isSome
  /-- The initial chunk is there. -/
  initial : s.pool.chunks.getLast? = some c₀
  /-- `nxp_gc` releases at most the newest chunk, if it is not the initial one and has no object
  in use. -/
  gc : s.pool.gc.chunks = s.pool.chunks ∨
    s.pool.older ≠ [] ∧ s.pool.gc.chunks = s.pool.older ∧ ∀ o ∈ s.pool.chunk.objects, o ∉ s.held
  /-- `nxp_iterate_allocated_objects` visits every object that is in use once. -/
  iterate : ∃ l, s.pool.Visits (s.pool.chunks, 0) l ∧ l.Nodup ∧ ∀ o, o ∈ l ↔ o ∈ s.held

/-- The invariant says that the pool is in order. -/
theorem Inv.intact (h : s.Inv c₀) : s.Intact c₀ where
  free_list := h.free_list
  in_use := h.mem_held
  alloc mem ha := by
    obtain ⟨pool, obj, halloc, hheld, -⟩ := h.alloc ha
    exact ⟨pool, obj, halloc, hheld⟩
  free obj hobj := by
    obtain ⟨pool, hpool, -⟩ := h.release hobj
    simp [hpool]
  initial := h.initial
  gc := h.gc.2
  iterate := by
    refine ⟨_, s.pool.visits_filter s.pool.chunks, (objects_nodup h.addrs).filter _, fun o => ?_⟩
    rw [List.mem_filter, h.mem_held o]
    rfl

/-- The objects that were given out are counted by the flags of all objects. -/
theorem Inv.length_filter_inUse (h : s.Inv c₀) :
    (s.pool.objects.filter s.pool.inUse).length = s.held.length := by
  refine List.Perm.length_eq ((List.perm_ext_iff_of_nodup ?_ h.held_nodup).mpr fun o => ?_)
  · exact (objects_nodup h.addrs).filter _
  · rw [List.mem_filter, h.mem_held o]

/-- Every call keeps the invariant. -/
theorem Inv.step {e : PoolEvent} (h : s.Inv c₀) (hstep : s.step e = some s') : s'.Inv c₀ := by
  by_cases ha : s.Allowed e
  · rw [PoolRun.step, if_pos ha] at hstep
    cases e with
    | alloc mem =>
      obtain ⟨pool, obj, halloc, -, hinv⟩ := h.alloc ha
      obtain rfl : _ = s' := by simpa [exec, halloc] using hstep
      exact hinv
    | free obj =>
      obtain ⟨pool, hpool, hinv⟩ := h.release ha
      obtain rfl : _ = s' := by simpa [exec, hpool] using hstep
      exact hinv
    | gc =>
      obtain rfl := Option.some.inj hstep
      exact h.gc.1
  · simp [PoolRun.step, ha] at hstep

/-- A new pool has one chunk, all of whose objects are free. -/
theorem inv_init (objectSize nitems addr : ℕ) (memory : NxpPool) (hsize : 8 < objectSize)
    (hitems : 0 < nitems) :
    ∃ pool, NxpPool.init objectSize nitems addr memory = some pool ∧
      ({ pool, held := [] } : PoolRun).Inv { addr, nitems, id := 1 } := by
  have hempty : (start objectSize nitems addr memory).free.Holds [] := DList.holds_nil rfl rfl
  obtain ⟨pool, hpool, hfree, hchunk, holder, hos, huse, hids⟩ :=
    initChunk_spec hempty hitems (by simp)
  have hchunks : pool.chunks = [(start objectSize nitems addr memory).chunk] := by
    simp only [chunks, hchunk, holder]
    rfl
  have hobjects : pool.objects = (start objectSize nitems addr memory).chunk.objects := by
    simp only [objects, hchunks, List.flatMap_singleton]
  refine ⟨pool, hpool, ⟨_, hfree, fun o => ?_⟩, List.nodup_nil, fun o => ?_, ?_, ?_, ?_, ?_, ?_⟩
  · show o ∈ [] ++ _ ↔ o ∈ pool.objects ∧ pool.inUse o = false
    rw [hobjects, huse o, List.nil_append]
    by_cases ho : o ∈ (start objectSize nitems addr memory).chunk.objects
    · simp only [ho, if_true, true_and]
    · simp only [ho, false_and]
  · show o ∈ [] ↔ o ∈ pool.objects ∧ pool.inUse o = true
    rw [hobjects, huse o]
    by_cases ho : o ∈ (start objectSize nitems addr memory).chunk.objects
    · simp [ho]
    · simp only [ho, false_and, List.not_mem_nil]
  · rw [hchunks]
    exact List.nodup_singleton _
  · rw [hchunks]
    refine ⟨rfl, ?_, trivial⟩
    show min 1024 (2 ^ 0) ≤ nitems
    omega
  · rw [hchunks]
    rfl
  · intro c hc o ho
    rw [hchunks, List.mem_singleton] at hc
    subst hc
    exact (hids o).trans (if_pos ho)
  · show 32 < pool.objectSize
    rw [hos]
    show 32 < objectSize + 24
    omega

/-- A pool for objects of more than eight bytes, whose initial chunk has room for one, is set up
without fault and is in order after any sequence of `nxp_alloc`, `nxp_free` of objects that have
been given out, and `nxp_gc`, whatever `nx_alloc` answers. The smallest objects that the server
keeps in pools are its message events, of 56 bytes. -/
theorem nxp_pool_intact (objectSize nitems addr : ℕ) (memory : NxpPool) (hsize : 8 < objectSize)
    (hitems : 0 < nitems) :
    ∃ pool, NxpPool.init objectSize nitems addr memory = some pool ∧
      ∀ es s, run step { pool, held := [] } es = some s →
        s.Intact { addr, nitems, id := 1 } := by
  obtain ⟨pool, hpool, hinv⟩ := inv_init objectSize nitems addr memory hsize hitems
  refine ⟨pool, hpool, fun es s hrun => ?_⟩
  have hs : s.Inv { addr, nitems, id := 1 } :=
    run_inv (fun _ _ _ h hstep => h.step hstep) hinv hrun
  exact hs.intact

/-- Memory before anything is written to it. -/
def blankMemory : NxpPool where
  chunk := { addr := 0, nitems := 0, id := 0 }
  older := []
  free := { next := fun _ => none, prev := fun _ => none, first := none, last := none }
  inUse := fun _ => false
  chunkId := fun _ => 0
  objectSize := 0

/-- A pool of message events that starts with two of them. -/
theorem nxp_pool_intact_events :
    8 < 56 ∧ 0 < 2 ∧ ∃ pool, NxpPool.init 56 2 0 blankMemory = some pool ∧
      ∀ es s, run step { pool, held := [] } es = some s →
        s.Intact { addr := 0, nitems := 2, id := 1 } :=
  ⟨by decide, by decide, nxp_pool_intact 56 2 0 blankMemory (by decide) (by decide)⟩

-- a second chunk comes and goes: its two objects given out, freed, and collected
example :
    ((NxpPool.init 56 1 0 blankMemory).bind fun pool =>
      (run step { pool, held := [] }
        [.alloc none, .alloc (some 7), .alloc none, .free ⟨7, 0⟩, .gc, .free ⟨7, 1⟩, .gc]).map
        fun s => (s.held, s.pool.chunks.length)) = some ([⟨0, 0⟩], 1) := by decide

end PoolRun

end Nxweb
