import Nxweb.Memory.NxBuffer

/-!
# Arenas keep what they have given out

Everything that a buffer has given out lies in one of its chunks, apart from all the rest and from
the space between `base` and `limit`. A chunk that is not dirty holds nothing of it, so it may be
freed when the stream moves on. All this rests on the size that a new chunk gets, which is enough
for what was asked and for aligning it as long as doubling the size of the last one stays in the
range of an `int`.
-/

namespace Nxweb

open Lib

section Sizes

theorem asInt_of_bounds {x : ℤ} (hl : -2 ^ 31 ≤ x) (hr : x < 2 ^ 31) : asInt x = x := by
  rw [asInt, Int.bmod_eq_of_le] <;> omega

/-- A size that `nx_alloc` can be asked for has room for the header of a chunk, for the unfinished
stream, for what is asked, and for aligning it. -/
theorem allocSize_spec {capacity unfinished room : ℤ} (hcap : 36 ≤ capacity)
    (hlt : capacity < 2 ^ 30) (hu : 0 ≤ unfinished) (hroom : 0 ≤ room) (hsum : unfinished + room < 2 ^ 29)
    (hpos : 0 < asInt (allocSize capacity unfinished room + 64)) :
    asInt (allocSize capacity unfinished room + 64) = allocSize capacity unfinished room + 64 ∧
      unfinished + room + 32 ≤ allocSize capacity unfinished room ∧
      allocSize capacity unfinished room % 16 = 8 ∧
      2 * capacity + 24 ≤ allocSize capacity unfinished room := by
  have hsum' : asInt (room + unfinished) = room + unfinished :=
    asInt_of_bounds (by omega) (by omega)
  have hroom' : asInt (room + unfinished + (room + unfinished) >>> (3 : ℕ)) =
      room + unfinished + (room + unfinished) / 8 := by
    rw [Int.shiftRight_eq_div_pow]
    exact asInt_of_bounds (by omega) (by omega)
  simp only [allocSize, asInt_of_bounds (x := capacity * 2) (by omega) (by omega),
    asInt_of_bounds (x := unfinished) (by omega) (by omega), hsum', hroom'] at hpos ⊢
  set n := if capacity * 2 < room + unfinished + (room + unfinished) / 8 then
    room + unfinished + (room + unfinished) / 8 else capacity * 2 with hn
  have hn₁ : capacity * 2 ≤ n := by
    rw [hn]; split <;> omega
  have hn₂ : room + unfinished + (room + unfinished) / 8 ≤ n := by
    rw [hn]; split <;> omega
  have hn₃ : n < 2 ^ 31 := by
    rw [hn]; split <;> omega
  -- a size that is rounded up to `2 ^ 31` turns negative, and is never granted
  by_cases hround : n + 15 < 2 ^ 31
  · rw [asInt_of_bounds (x := n + 15) (by omega) hround] at hpos ⊢
    by_cases hfit : 24 + (n + 15) / 16 * 16 + 64 < 2 ^ 31
    · rw [asInt_of_bounds (x := 24 + _) (by omega) (by omega),
        asInt_of_bounds (by omega) hfit]
      omega
    · exfalso
      simp only [asInt, Int.bmod] at hpos
      omega
  · exfalso
    simp only [asInt, Int.bmod] at hpos
    omega

/-- An object that does not reach below address zero is put right below `limit`. -/
theorem objectAddr_spec {limit size : ℕ} (hsize : size ≤ limit) (hlimit : limit ≤ addressSpace) :
    objectAddr limit size % 16 = 0 ∧ objectAddr limit size + size ≤ limit ∧
      limit < objectAddr limit size + size + 16 := by
  have hspace : addressSpace = 2 ^ 47 := rfl
  have hmod : (limit + 2 ^ 64 - size) % 2 ^ 64 = limit - size := by omega
  rw [objectAddr, hmod, alignDown]
  omega

end Sizes

/-- The block of memory that a chunk of the buffer at `self` is in. -/
def NxbChunk.block (self : ℕ) (c : NxbChunk) : ℕ × ℕ :=
  if c.shouldFree then (c.addr, c.limit - c.addr + 64) else (self, connNxbSize)

/-- The object lies in the chunk. -/
def NxbObject.In (o : NxbObject) (c : NxbChunk) : Prop :=
  c.buf ≤ o.addr ∧ o.addr + o.data.length ≤ c.limit

namespace NxbArena

/-- All chunks of the buffer. -/
def chunks (nxb : NxbArena) : List NxbChunk :=
  nxb.chunk :: nxb.older

/-- The pointers are in order, and the blocks in use are those of the chunks. -/
structure Layout (nxb : NxbArena) (unfinished : ℕ) : Prop where
  buf_le : nxb.chunk.buf ≤ nxb.base
  ptr_eq : nxb.ptr = nxb.base + unfinished
  ptr_le : nxb.ptr ≤ nxb.limit
  limit_le : nxb.limit ≤ nxb.chunk.limit
  room : nxb.chunk.buf + 36 ≤ nxb.chunk.limit
  heap : nxb.heap = nxb.chunks.map (NxbChunk.block nxb.self)
  apart : nxb.heap.Pairwise fun b b' => Apart b.1 b.2 b'.1 b'.2
  inside : ∀ c ∈ nxb.chunks,
    (c.block nxb.self).1 ≤ c.addr ∧ c.limit ≤ (c.block nxb.self).1 + (c.block nxb.self).2
  bounded : nxb.chunk.limit ≤ addressSpace

/-- What the buffer keeps of an object. -/
structure Keeps (nxb : NxbArena) (o : NxbObject) : Prop where
  held : ∃ c ∈ nxb.chunks, o.In c
  free : o.addr + o.data.length ≤ nxb.base ∨ nxb.limit ≤ o.addr
  data : readAt nxb.mem o.addr o.data.length = o.data
  aligned : o.allocated = true → o.addr % 16 = 0
  clean : nxb.chunk.dirty = false → ∃ c ∈ nxb.older, o.In c

/-- What `nxb_realloc_chunk` does to a buffer with `n` unfinished bytes: the new chunk has room for
`size` more of them wherever they are put, and all that was in the chunks is where it was. -/
structure Moved (nxb nxb' : NxbArena) (n size : ℕ) : Prop where
  layout : nxb'.Layout n
  room : nxb'.ptr + size + 15 ≤ nxb'.limit
  stream : readAt nxb'.mem nxb'.base n = readAt nxb.mem nxb.base n
  readAt_eq : ∀ c ∈ nxb.chunks, ∀ a m, c.buf ≤ a → a + m ≤ c.limit →
    readAt nxb'.mem a m = readAt nxb.mem a m
  free : ∀ c ∈ nxb.chunks, ∀ a m, c.buf ≤ a → a + m ≤ c.limit →
    a + m ≤ nxb'.base ∨ nxb'.limit ≤ a
  older : ∀ c ∈ nxb.older, c ∈ nxb'.older
  chunk : nxb.chunk.dirty = true → nxb.chunk ∈ nxb'.older

variable {nxb nxb' : NxbArena} {n size addr : ℕ}

/-- A new block lies apart from the chunks. -/
theorem Layout.apart_of_canAlloc (h : nxb.Layout n) {k : ℤ} (hk : CanAlloc nxb.heap addr k)
    {c : NxbChunk} (hc : c ∈ nxb.chunks) : addr + k.toNat ≤ c.addr ∨ c.limit ≤ addr := by
  obtain ⟨hl, hr⟩ := h.inside c hc
  have hapart := hk.2.2.2 (c.block nxb.self) (by
    rw [h.heap]
    exact List.mem_map_of_mem hc)
  rcases hapart with hapart | hapart
  · exact .inl (hapart.trans hl)
  · exact .inr (hr.trans hapart)

/-- A new chunk, with some of the old chunks behind it. -/
theorem Layout.moved (h : nxb.Layout n) {k : ℕ} {heap : List (ℕ × ℕ)} {older : List NxbChunk}
    (hcan : CanAlloc nxb.heap addr (k + 64 : ℕ)) (hfit : n + size + 32 ≤ k) (hbig : 53 ≤ k)
    (hsub : older.Sublist nxb.chunks) (holder : ∀ c ∈ nxb.older, c ∈ older)
    (hchunk : nxb.chunk.dirty = true → nxb.chunk ∈ older)
    (hheap : heap = (addr, k + 64) :: older.map (NxbChunk.block nxb.self)) :
    nxb.Moved { nxb with
      base := addr + 17
      ptr := addr + 17 + n
      limit := addr + k
      chunk := ⟨addr, addr + k, true, false⟩
      mem := if n = 0 then nxb.mem else writeAt nxb.mem (addr + 17) (readAt nxb.mem nxb.base n)
      heap
      older } n size := by
  have hmem : (if n = 0 then nxb.mem else writeAt nxb.mem (addr + 17) (readAt nxb.mem nxb.base n)) =
      writeAt nxb.mem (addr + 17) (readAt nxb.mem nxb.base n) := by
    split
    next hn => simp [hn, readAt, writeAt_nil]
    next => rfl
  have hapart : ∀ c ∈ nxb.chunks, addr + (k + 64) ≤ c.addr ∨ c.limit ≤ addr := fun c hc => by
    have := h.apart_of_canAlloc hcan hc
    rwa [Int.toNat_natCast] at this
  rw [hmem]
  constructor
  case layout =>
    refine ⟨le_rfl, rfl, ?_, le_rfl, ?_, ?_, ?_, ?_, ?_⟩
    · show addr + 17 + n ≤ addr + k
      omega
    · show addr + 17 + 36 ≤ addr + k
      omega
    · rw [hheap]
      simp [chunks, NxbChunk.block]
    · rw [hheap]
      refine List.pairwise_cons.mpr ⟨fun b hb => ?_, ?_⟩
      · refine hcan.2.2.2 b ?_
        rw [h.heap]
        exact (hsub.map _).subset hb
      · refine List.Pairwise.sublist (hsub.map _) ?_
        rw [← h.heap]
        exact h.apart
    · intro c hc
      rcases List.mem_cons.mp hc with rfl | hc
      · simp [NxbChunk.block]
      · exact h.inside c (hsub.subset hc)
    · have hbound : ((addr : ℤ) + (k + 64 : ℕ)) ≤ addressSpace := hcan.2.2.1
      show addr + k ≤ addressSpace
      omega
  case room =>
    show addr + 17 + n + size + 15 ≤ addr + k
    omega
  case stream =>
    have hback : readAt (writeAt nxb.mem (addr + 17) (readAt nxb.mem nxb.base n)) (addr + 17)
        (readAt nxb.mem nxb.base n).length = readAt nxb.mem nxb.base n := readAt_writeAt
    rwa [length_readAt] at hback
  case readAt_eq =>
    intro c hc a m hl hr
    refine readAt_writeAt_of_apart ?_
    rw [length_readAt]
    have hbuf : c.addr + 17 ≤ a := hl
    rcases hapart c hc with hc | hc
    · exact .inr (by omega)
    · exact .inl (by omega)
  case free =>
    intro c hc a m hl hr
    show a + m ≤ addr + 17 ∨ addr + k ≤ a
    have hbuf : c.addr + 17 ≤ a := hl
    rcases hapart c hc with hc | hc
    · exact .inr (by omega)
    · exact .inl (by omega)
  case older => exact holder
  case chunk => exact hchunk

/-- A new chunk; the old one is freed if it has a block of its own and nothing in it is finished. -/
theorem Layout.reallocChunk (h : nxb.Layout n) (hsum : n + size < 2 ^ 29)
    (hcap : nxb.chunk.limit < nxb.chunk.buf + 2 ^ 30)
    (hr : nxb.reallocChunk size addr = some nxb') : nxb.Moved nxb' n size := by
  have hroom := h.room
  have hn : (nxb.ptr : ℤ) - nxb.base = n := by
    rw [h.ptr_eq]
    push_cast
    ring
  have hasInt : asInt n = n := asInt_of_bounds (by omega) (by omega)
  rw [NxbArena.reallocChunk] at hr
  simp only [hn, hasInt, Int.toNat_natCast] at hr
  split at hr
  next hcan =>
    obtain ⟨heq, hfit, -, hdouble⟩ := allocSize_spec (by omega) (by omega) (by omega) (by omega)
      (by omega) hcan.1
    generalize allocSize (nxb.chunk.limit - nxb.chunk.buf) n size = k at *
    obtain ⟨k, rfl⟩ := Int.eq_ofNat_of_zero_le (show 0 ≤ k by omega)
    rw [heq] at hcan
    have hlimit : ((addr : ℤ) + k).toNat = addr + k := by omega
    have hblock : ((k : ℤ) + 64).toNat = k + 64 := by omega
    rw [hlimit, hblock] at hr
    split at hr
    next hfree =>
      simp only [Bool.and_eq_true, Bool.not_eq_true'] at hfree
      obtain rfl := Option.some.inj hr
      refine h.moved hcan (by omega) (by omega) (List.sublist_cons_self _ _) (fun c hc => hc)
        (fun hd => by simp [hfree.1] at hd) ?_
      -- the new block is not the one that is freed
      have hne : addr ≠ nxb.chunk.addr := by
        have hbuf : nxb.chunk.buf = nxb.chunk.addr + 17 := rfl
        have := h.apart_of_canAlloc hcan (List.mem_cons_self (a := nxb.chunk) (l := nxb.older))
        omega
      rw [h.heap]
      simp [chunks, NxbChunk.block, hfree.2, hne]
    next =>
      obtain rfl := Option.some.inj hr
      refine h.moved hcan (by omega) (by omega) (List.Sublist.refl _)
        (fun c hc => List.mem_cons_of_mem _ hc) (fun _ => List.mem_cons_self) ?_
      rw [h.heap]
      rfl
  next => cases hr

/-- Other pointers into the same chunk. -/
theorem Layout.setPointers (h : nxb.Layout n) {m base ptr limit : ℕ} {mem : ℕ → UInt8}
    {dirty : Bool} (hbase : nxb.chunk.buf ≤ base) (hptr : ptr = base + m) (hle : ptr ≤ limit)
    (hlimit : limit ≤ nxb.chunk.limit) :
    Layout { nxb with base, ptr, limit, mem, chunk := { nxb.chunk with dirty } } m where
  buf_le := hbase
  ptr_eq := hptr
  ptr_le := hle
  limit_le := hlimit
  room := h.room
  heap := h.heap
  apart := h.apart
  inside c hc := by
    rcases List.mem_cons.mp hc with rfl | hc
    · exact h.inside nxb.chunk List.mem_cons_self
    · exact h.inside c (List.mem_cons_of_mem _ hc)
  bounded := h.bounded

variable {o : NxbObject}

/-- Objects stay as long as they are not written and the pointers stay apart from them. -/
theorem Keeps.setPointers (h : nxb.Keeps o) {base ptr limit : ℕ} {mem : ℕ → UInt8} {dirty : Bool}
    (hfree : o.addr + o.data.length ≤ base ∨ limit ≤ o.addr)
    (hdata : readAt mem o.addr o.data.length = readAt nxb.mem o.addr o.data.length)
    (hdirty : nxb.chunk.dirty = true → dirty = true) :
    Keeps { nxb with base, ptr, limit, mem, chunk := { nxb.chunk with dirty } } o where
  held := by
    obtain ⟨c, hc, hin⟩ := h.held
    rcases List.mem_cons.mp hc with rfl | hc
    · exact ⟨_, List.mem_cons_self, hin⟩
    · exact ⟨c, List.mem_cons_of_mem _ hc, hin⟩
  free := hfree
  data := hdata.trans h.data
  aligned := h.aligned
  clean hd := by
    refine h.clean ?_
    by_contra hne
    have hd : dirty = false := hd
    simp [hdirty (by simpa using hne)] at hd

/-- Objects stay where they are when the stream moves on to a new chunk. -/
theorem Keeps.moved (h : nxb.Keeps o) (hm : nxb.Moved nxb' n size) : nxb'.Keeps o := by
  have hold : ∃ c ∈ nxb'.older, o.In c := by
    cases hd : nxb.chunk.dirty with
    | false =>
      obtain ⟨c, hc, hin⟩ := h.clean hd
      exact ⟨c, hm.older c hc, hin⟩
    | true =>
      obtain ⟨c, hc, hin⟩ := h.held
      rcases List.mem_cons.mp hc with rfl | hc
      · exact ⟨_, hm.chunk hd, hin⟩
      · exact ⟨c, hm.older c hc, hin⟩
  obtain ⟨c, hc, hin⟩ := h.held
  refine ⟨?_, hm.free c hc _ _ hin.1 hin.2, ?_, h.aligned, fun _ => hold⟩
  · obtain ⟨c', hc', hin'⟩ := hold
    exact ⟨c', List.mem_cons_of_mem _ hc', hin'⟩
  · rw [hm.readAt_eq c hc _ _ hin.1 hin.2]
    exact h.data

theorem allocObj_of_le (h : nxb.ptr ≤ objectAddr nxb.limit size) :
    nxb.allocObj size addr = some { nxb with limit := objectAddr nxb.limit size }.setDirty :=
  if_neg (Nat.not_lt.mpr h)

theorem allocObj_of_lt (h : objectAddr nxb.limit size < nxb.ptr) :
    nxb.allocObj size addr = (nxb.reallocChunk size addr).map fun nxb =>
      { nxb with limit := objectAddr nxb.limit size }.setDirty :=
  if_pos h

end NxbArena

namespace BufferRun

/-- The invariant of all runs. -/
structure Inv (s : BufferRun) : Prop where
  layout : s.nxb.Layout s.stream.length
  stream : readAt s.nxb.mem s.nxb.base s.stream.length = s.stream
  keeps : ∀ o ∈ s.objects, s.nxb.Keeps o
  apart : s.objects.Pairwise fun o o' => Apart o.addr o.data.length o'.addr o'.data.length

variable {s : BufferRun} {nxb' : NxbArena} {size addr : ℕ} {data : List UInt8}

theorem Inv.moved (h : s.Inv) (hm : s.nxb.Moved nxb' s.stream.length size) :
    Inv { s with nxb := nxb' } where
  layout := hm.layout
  stream := hm.stream.trans h.stream
  keeps o ho := (h.keeps o ho).moved hm
  apart := h.apart

/-- Writing between the pointers. -/
theorem Inv.readAt_writeAt (h : s.Inv) {a : ℕ} (hl : s.nxb.base ≤ a)
    (hr : a + data.length ≤ s.nxb.limit) {o : NxbObject} (ho : o ∈ s.objects) :
    readAt (writeAt s.nxb.mem a data) o.addr o.data.length =
      readAt s.nxb.mem o.addr o.data.length := by
  refine readAt_writeAt_of_apart ?_
  rcases (h.keeps o ho).free with hfree | hfree
  · exact .inl (by omega)
  · exact .inr (by omega)

/-- Appending to the stream when there is room. -/
theorem Inv.push (h : s.Inv) (hroom : s.nxb.ptr + data.length ≤ s.nxb.limit) :
    Inv { s with
      nxb := { s.nxb with
        mem := writeAt s.nxb.mem s.nxb.ptr data
        ptr := s.nxb.ptr + data.length }
      stream := s.stream ++ data } where
  layout := by
    refine h.layout.setPointers h.layout.buf_le ?_ hroom h.layout.limit_le
    rw [h.layout.ptr_eq, List.length_append, Nat.add_assoc]
  stream := by
    show readAt (writeAt s.nxb.mem s.nxb.ptr data) s.nxb.base (s.stream ++ data).length = _
    rw [List.length_append, readAt_add, ← h.layout.ptr_eq, Lib.readAt_writeAt,
      readAt_writeAt_of_apart (.inl h.layout.ptr_eq.ge), h.stream]
  keeps o ho :=
    (h.keeps o ho).setPointers (h.keeps o ho).free
      (h.readAt_writeAt (by rw [h.layout.ptr_eq]; omega) hroom ho) id
  apart := h.apart

/-- Putting an object between the pointers. -/
theorem Inv.put (h : s.Inv) {a : ℕ} (hl : s.nxb.ptr ≤ a) (hr : a + data.length ≤ s.nxb.limit)
    (halign : a % 16 = 0) :
    Inv { s with
      nxb := { s.nxb with limit := a, mem := writeAt s.nxb.mem a data }.setDirty
      objects := ⟨a, data, true⟩ :: s.objects } where
  layout := by
    have hle : a ≤ s.nxb.limit := by omega
    exact h.layout.setPointers h.layout.buf_le h.layout.ptr_eq hl (hle.trans h.layout.limit_le)
  stream := by
    refine Eq.trans (readAt_writeAt_of_apart (.inl ?_)) h.stream
    exact h.layout.ptr_eq.ge.trans hl
  keeps o ho := by
    have hbase : s.nxb.base ≤ a := by
      have := h.layout.ptr_eq
      omega
    rcases List.mem_cons.mp ho with rfl | ho
    · refine ⟨⟨_, List.mem_cons_self, ?_, ?_⟩, .inr le_rfl, Lib.readAt_writeAt, fun _ => halign,
        fun hd => by simp [NxbArena.setDirty] at hd⟩
      · exact h.layout.buf_le.trans hbase
      · exact hr.trans h.layout.limit_le
    · refine (h.keeps o ho).setPointers ?_ (h.readAt_writeAt hbase hr ho) fun _ => rfl
      refine (h.keeps o ho).free.imp_right fun hfree => ?_
      show a ≤ o.addr
      omega
  apart := by
    refine List.pairwise_cons.mpr ⟨fun o ho => ?_, h.apart⟩
    have hptr := h.layout.ptr_eq
    rcases (h.keeps o ho).free with hfree | hfree
    · exact .inr (by show o.addr + o.data.length ≤ a; omega)
    · exact .inl (by show a + data.length ≤ o.addr; omega)

/-- Filling an object that was put between the pointers. -/
theorem Inv.fill (h : s.Inv) {a : ℕ} (hl : s.nxb.ptr ≤ a) (hr : a + data.length ≤ s.nxb.limit)
    (halign : a % 16 = 0) (hnxb : { s.nxb with limit := a }.setDirty = nxb') :
    Inv { s with
      nxb := { nxb' with mem := writeAt nxb'.mem nxb'.limit data }
      objects := ⟨nxb'.limit, data, true⟩ :: s.objects } := by
  subst hnxb
  exact h.put hl hr halign

/-- Finishing the beginning of the stream. -/
theorem Inv.finishPartial (h : s.Inv) (hsize : size ≤ s.stream.length) :
    Inv { s with
      nxb := s.nxb.finishPartial size
      objects := ⟨s.nxb.base, s.stream.take size, false⟩ :: s.objects
      stream := s.stream.drop size } where
  layout := by
    refine h.layout.setPointers (h.layout.buf_le.trans (Nat.le_add_right _ _)) ?_ h.layout.ptr_le
      h.layout.limit_le
    show s.nxb.ptr = s.nxb.base + size + (s.stream.drop size).length
    rw [h.layout.ptr_eq, List.length_drop]
    omega
  stream := by
    show readAt s.nxb.mem (s.nxb.base + size) (s.stream.drop size).length = s.stream.drop size
    conv_rhs => rw [← h.stream, readAt_drop hsize]
    rw [List.length_drop]
  keeps o ho := by
    rcases List.mem_cons.mp ho with rfl | ho
    · have hptr := h.layout.ptr_eq
      have hle := h.layout.ptr_le
      have hlimit := h.layout.limit_le
      have hlen : (s.stream.take size).length = size := by simp [hsize]
      refine ⟨⟨_, List.mem_cons_self, h.layout.buf_le, ?_⟩, .inl ?_, ?_, by simp,
        fun hd => by simp [NxbArena.finishPartial, NxbArena.setDirty] at hd⟩
      · show s.nxb.base + (s.stream.take size).length ≤ s.nxb.chunk.limit
        omega
      · show s.nxb.base + (s.stream.take size).length ≤ s.nxb.base + size
        omega
      · show readAt s.nxb.mem s.nxb.base (s.stream.take size).length = s.stream.take size
        conv_rhs => rw [← h.stream, readAt_take hsize]
        rw [hlen]
    · refine (h.keeps o ho).setPointers ?_ rfl fun _ => rfl
      exact (h.keeps o ho).free.imp_left fun hfree => hfree.trans (Nat.le_add_right _ _)
  apart := by
    refine List.pairwise_cons.mpr ⟨fun o ho => ?_, h.apart⟩
    have hptr := h.layout.ptr_eq
    have hle := h.layout.ptr_le
    have hlen : (s.stream.take size).length = size := by simp [hsize]
    rcases (h.keeps o ho).free with hfree | hfree
    · exact .inr hfree
    · refine .inl ?_
      show s.nxb.base + (s.stream.take size).length ≤ o.addr
      omega

theorem Inv.finishStream (h : s.Inv) :
    Inv { s with
      nxb := s.nxb.finishStream
      objects := ⟨s.nxb.base, s.stream, false⟩ :: s.objects
      stream := [] } := by
  have hall := h.finishPartial le_rfl
  rw [List.take_length, List.drop_length] at hall
  have hnxb : s.nxb.finishStream = s.nxb.finishPartial s.stream.length := by
    rw [NxbArena.finishStream, NxbArena.finishPartial, h.layout.ptr_eq]
  rwa [hnxb]

/-- Dropping the unfinished part of the stream. -/
theorem Inv.unfinishStream (h : s.Inv) :
    Inv { s with nxb := s.nxb.unfinishStream, stream := [] } where
  layout := by
    have hptr := h.layout.ptr_eq
    have hle := h.layout.ptr_le
    exact h.layout.setPointers h.layout.buf_le rfl (by omega) h.layout.limit_le
  stream := rfl
  keeps o ho := (h.keeps o ho).setPointers (h.keeps o ho).free rfl id
  apart := h.apart

/-- Making room for `size` bytes. -/
theorem Inv.makeRoom (h : s.Inv) (hsum : s.stream.length + size < 2 ^ 29)
    (hcap : s.nxb.limit < s.nxb.ptr + size → s.nxb.chunk.limit < s.nxb.chunk.buf + 2 ^ 30)
    (hr : s.nxb.makeRoom size addr = some nxb') :
    Inv { s with nxb := nxb' } ∧ nxb'.ptr + size ≤ nxb'.limit := by
  rw [NxbArena.makeRoom] at hr
  split at hr
  next hfull =>
    have hm := h.layout.reallocChunk hsum (hcap hfull) hr
    have hroom := hm.room
    exact ⟨h.moved hm, by omega⟩
  next hroom =>
    obtain rfl := Option.some.inj hr
    exact ⟨h, by omega⟩

/-- Allocating an object and filling it. -/
theorem Inv.allocObj (h : s.Inv) (hsum : s.stream.length + data.length < 2 ^ 29)
    (hcap : objectAddr s.nxb.limit data.length < s.nxb.ptr →
      s.nxb.chunk.limit < s.nxb.chunk.buf + 2 ^ 30)
    (hlow : data.length ≤ s.nxb.limit)
    (hr : s.nxb.allocObj data.length addr = some nxb') :
    Inv { s with
      nxb := { nxb' with mem := writeAt nxb'.mem nxb'.limit data }
      objects := ⟨nxb'.limit, data, true⟩ :: s.objects } := by
  rcases Nat.lt_or_ge (objectAddr s.nxb.limit data.length) s.nxb.ptr with hfull | hroom
  · rw [NxbArena.allocObj_of_lt hfull] at hr
    obtain ⟨nxb₁, hr₁, hnxb⟩ := Option.map_eq_some_iff.mp hr
    have hm := h.layout.reallocChunk hsum (hcap hfull) hr₁
    have hroom := hm.room
    obtain ⟨halign, hle, hlt⟩ := objectAddr_spec (show data.length ≤ nxb₁.limit by omega)
      (hm.layout.limit_le.trans hm.layout.bounded)
    have hptr : nxb₁.ptr ≤ objectAddr nxb₁.limit data.length := by omega
    exact (h.moved hm).fill hptr hle halign hnxb
  · rw [NxbArena.allocObj_of_le hroom] at hr
    obtain ⟨halign, hle, -⟩ := objectAddr_spec hlow (h.layout.limit_le.trans h.layout.bounded)
    exact h.fill hroom hle halign (Option.some.inj hr)

/-- Whether a call asks for a new chunk. -/
def NeedsChunk (s : BufferRun) : NxbOp → Prop
  | .append data => s.nxb.limit < s.nxb.ptr + data.length
  | .appendChar _ => s.nxb.limit < s.nxb.ptr + 1
  | .makeRoom size => s.nxb.limit < s.nxb.ptr + size
  | .blank size => s.nxb.limit < s.nxb.ptr + size
  | .allocObj size => objectAddr s.nxb.limit size < s.nxb.ptr
  | .copyObj data => objectAddr s.nxb.limit data.length < s.nxb.ptr
  | _ => False

/-- Whether a call puts an object below address zero. -/
def Wraps (s : BufferRun) : NxbOp → Prop
  | .allocObj size => s.nxb.limit < size
  | .copyObj data => s.nxb.limit < data.length
  | _ => False

/-- A chunk that is to be replaced has less than `2 ^ 30` bytes, and no object is so large that its
address would be below zero. -/
def Sound (s : BufferRun) (op : NxbOp) : Prop :=
  (s.NeedsChunk op → s.nxb.chunk.limit < s.nxb.chunk.buf + 2 ^ 30) ∧ ¬ s.Wraps op

instance (s : BufferRun) (op : NxbOp) : Decidable (s.NeedsChunk op) := by
  cases op <;> unfold NeedsChunk <;> infer_instance

instance (s : BufferRun) (op : NxbOp) : Decidable (s.Wraps op) := by
  cases op <;> unfold Wraps <;> infer_instance

instance (s : BufferRun) (op : NxbOp) : Decidable (s.Sound op) :=
  inferInstanceAs (Decidable (_ ∧ _))

variable {s' : BufferRun} {op : NxbOp}

/-- One call. -/
theorem Inv.exec (h : s.Inv) (hsum : s.stream.length + op.size < 2 ^ 29) (hsound : s.Sound op)
    (hexec : s.exec op addr = some s') :
    s'.Inv ∧ s'.stream.length ≤ s.stream.length + op.size := by
  obtain ⟨hcap, hwrap⟩ := hsound
  cases op with
  | append data =>
    obtain ⟨nxb', hr, rfl⟩ := Option.map_eq_some_iff.mp hexec
    obtain ⟨nxb₁, hr₁, rfl⟩ := Option.map_eq_some_iff.mp hr
    obtain ⟨h₁, hroom⟩ := h.makeRoom hsum hcap hr₁
    exact ⟨h₁.push hroom, List.length_append.le⟩
  | appendChar c =>
    obtain ⟨nxb', hr, rfl⟩ := Option.map_eq_some_iff.mp hexec
    obtain ⟨nxb₁, hr₁, rfl⟩ := Option.map_eq_some_iff.mp hr
    obtain ⟨h₁, hroom⟩ := h.makeRoom hsum hcap hr₁
    exact ⟨h₁.push hroom, List.length_append.le⟩
  | makeRoom size =>
    obtain ⟨nxb', hr, rfl⟩ := Option.map_eq_some_iff.mp hexec
    exact ⟨(h.makeRoom hsum hcap hr).1, Nat.le_add_right _ _⟩
  | blank size =>
    obtain ⟨nxb', hr, rfl⟩ := Option.map_eq_some_iff.mp hexec
    obtain ⟨nxb₁, hr₁, rfl⟩ := Option.map_eq_some_iff.mp hr
    obtain ⟨h₁, hroom⟩ := h.makeRoom hsum hcap hr₁
    -- the stream gets what is in memory there
    have hroom' : nxb₁.ptr + (readAt nxb₁.mem nxb₁.ptr size).length ≤ nxb₁.limit := by
      rwa [length_readAt]
    have key := h₁.push hroom'
    rw [writeAt_readAt, length_readAt] at key
    refine ⟨?_, ?_⟩
    · rw [Nat.add_sub_cancel]
      exact key
    · simp [NxbOp.size]
  | allocObj size =>
    obtain ⟨nxb', hr, rfl⟩ := Option.map_eq_some_iff.mp hexec
    obtain ⟨data, hdata⟩ : ∃ data, data = readAt nxb'.mem nxb'.limit size := ⟨_, rfl⟩
    obtain rfl : data.length = size := by rw [hdata, length_readAt]
    have key := h.allocObj hsum hcap (Nat.not_lt.mp hwrap) hr
    have hmem : writeAt nxb'.mem nxb'.limit data = nxb'.mem := by
      rw [hdata]
      exact writeAt_readAt
    rw [hmem] at key
    rw [← hdata]
    exact ⟨key, Nat.le_add_right _ _⟩
  | copyObj data =>
    obtain ⟨nxb', hr, rfl⟩ := Option.map_eq_some_iff.mp hexec
    obtain ⟨nxb₁, hr₁, rfl⟩ := Option.map_eq_some_iff.mp hr
    exact ⟨h.allocObj hsum hcap (Nat.not_lt.mp hwrap) hr₁, Nat.le_add_right _ _⟩
  | finishStream =>
    obtain rfl := Option.some.inj hexec
    exact ⟨h.finishStream, Nat.zero_le _⟩
  | finishPartial size =>
    rw [BufferRun.exec] at hexec
    split at hexec
    next hle =>
      obtain rfl := Option.some.inj hexec
      have hsize : size ≤ s.stream.length := by
        have := h.layout.ptr_eq
        omega
      exact ⟨h.finishPartial hsize, (List.drop_sublist _ _).length_le⟩
    next => cases hexec
  | unfinishStream =>
    obtain rfl := Option.some.inj hexec
    exact ⟨h.unfinishStream, Nat.zero_le _⟩
  | startStream =>
    obtain rfl := Option.some.inj hexec
    have hstart : s.nxb.startStream = s.nxb.unfinishStream := by
      rw [NxbArena.startStream]
      split
      next => rfl
      next heq => exact congrArg (fun p => { s.nxb with ptr := p }) (not_not.mp heq)
    rw [hstart]
    exact ⟨h.unfinishStream, Nat.zero_le _⟩

/-- The pointers are in order and in the chunk; what the buffer has given out is there, in chunks
that have not been freed, apart from everything else; and the stream is what was appended. -/
structure Intact (s : BufferRun) : Prop where
  buf_le_base : s.nxb.chunk.buf ≤ s.nxb.base
  base_le_ptr : s.nxb.base ≤ s.nxb.ptr
  ptr_le_limit : s.nxb.ptr ≤ s.nxb.limit
  limit_le_chunk : s.nxb.limit ≤ s.nxb.chunk.limit
  /-- What was given out and not taken back does not overlap. -/
  apart : s.objects.Pairwise fun o o' => Apart o.addr o.data.length o'.addr o'.data.length
  apart_stream : ∀ o ∈ s.objects,
    Apart o.addr o.data.length s.nxb.base (s.nxb.ptr - s.nxb.base)
  /-- Objects are in chunks, and these are in blocks that are in use. -/
  live : ∀ o ∈ s.objects, ∃ c ∈ s.nxb.chunks, o.In c ∧
    ∃ b ∈ s.nxb.heap, b.1 ≤ c.addr ∧ c.limit ≤ b.1 + b.2
  contents : ∀ o ∈ s.objects, readAt s.nxb.mem o.addr o.data.length = o.data
  aligned : ∀ o ∈ s.objects, o.allocated = true → o.addr % 16 = 0
  stream : readAt s.nxb.mem s.nxb.base (s.nxb.ptr - s.nxb.base) = s.stream

theorem Inv.intact (h : s.Inv) : s.Intact := by
  have hptr := h.layout.ptr_eq
  have hle := h.layout.ptr_le
  have hlen : s.nxb.ptr - s.nxb.base = s.stream.length := by omega
  refine ⟨h.layout.buf_le, by omega, hle, h.layout.limit_le, h.apart, fun o ho => ?_,
    fun o ho => ?_, fun o ho => (h.keeps o ho).data, fun o ho => (h.keeps o ho).aligned, ?_⟩
  · rcases (h.keeps o ho).free with hfree | hfree
    · exact .inl hfree
    · exact .inr (by omega)
  · obtain ⟨c, hc, hin⟩ := (h.keeps o ho).held
    refine ⟨c, hc, hin, c.block s.nxb.self, ?_, h.layout.inside c hc⟩
    rw [h.layout.heap]
    exact List.mem_map_of_mem hc
  · rw [hlen]
    exact h.stream

theorem inv_init (self : ℕ) (mem : ℕ → UInt8) (hself : self + connNxbSize ≤ addressSpace) :
    (init self mem).Inv := by
  have hsize : connNxbSize = 5120 := rfl
  refine ⟨⟨le_rfl, rfl, ?_, le_rfl, ?_, rfl, by simp [init, NxbArena.init], ?_, hself⟩, rfl,
    by simp [init], by simp [init]⟩
  · show alignDown (self + 32 + 15) + 17 ≤ self + connNxbSize
    rw [alignDown]
    omega
  · show alignDown (self + 32 + 15) + 17 + 36 ≤ self + connNxbSize
    rw [alignDown]
    omega
  · intro c hc
    obtain rfl : c = _ := List.mem_singleton.mp hc
    show self ≤ alignDown (self + 32 + 15) ∧ self + connNxbSize ≤ self + connNxbSize
    rw [alignDown]
    omega

/-- A step keeps the invariant, and the stream no longer than what has been asked for. -/
theorem inv_step {e : NxbOp × ℕ} (h : s.Inv) (hlen : s.stream.length ≤ s.requested)
    (hsound : s.Sound e.1) (hstep : step s e = some s') :
    s'.Inv ∧ s'.stream.length ≤ s'.requested := by
  rw [step] at hstep
  split at hstep
  next hreq =>
    obtain ⟨s₁, hexec, rfl⟩ := Option.map_eq_some_iff.mp hstep
    obtain ⟨h₁, hlen₁⟩ := h.exec (by omega) hsound hexec
    refine ⟨⟨h₁.layout, h₁.stream, h₁.keeps, h₁.apart⟩, ?_⟩
    show s₁.stream.length ≤ s.requested + e.1.size
    omega
  next => cases hstep

/-- In every run in which only chunks of less than `2 ^ 30` bytes are replaced and no object reaches
below address zero, the buffer stays intact. -/
theorem nxb_intact (self : ℕ) (mem : ℕ → UInt8) (hself : self + connNxbSize ≤ addressSpace)
    (es : List (NxbOp × ℕ)) (s : BufferRun)
    (hsound : Along step (fun s e _ => s.Sound e.1) (init self mem) es)
    (hrun : run step (init self mem) es = some s) : s.Intact := by
  have hinv : s.Inv ∧ s.stream.length ≤ s.requested := by
    refine run_inv_of_along (I := fun s => s.Inv ∧ s.stream.length ≤ s.requested) ?_
      ⟨inv_init self mem hself, Nat.zero_le _⟩ hsound hrun
    rintro s e s' ⟨h, hlen⟩ hstep hs
    exact inv_step h hlen hs hstep
  exact hinv.1.intact

/-- Objects and a stream in the first chunk, and an object for which a second one is needed while
the stream is unfinished. -/
theorem nxb_intact_twoChunks :
    ∃ s : BufferRun, run step (init (2 ^ 31) fun _ => 0)
        [(.copyObj [1, 2, 3], 0), (.append [4, 5], 0), (.finishPartial 1, 0),
          (.allocObj 6000, 2 ^ 32), (.append [6], 0)] = some s ∧
      s.nxb.chunk.addr = 2 ^ 32 ∧ s.stream = [5, 6] ∧ s.Intact := by
  have hend : (run step (init (2 ^ 31) fun _ => 0)
      [(.copyObj [1, 2, 3], 0), (.append [4, 5], 0), (.finishPartial 1, 0),
        (.allocObj 6000, 2 ^ 32), (.append [6], 0)]).map
      (fun s => (s.nxb.chunk.addr, s.stream)) = some (2 ^ 32, [5, 6]) := by decide
  obtain ⟨s, hs, heq⟩ := Option.map_eq_some_iff.mp hend
  refine ⟨s, hs, congrArg Prod.fst heq, congrArg Prod.snd heq, ?_⟩
  exact nxb_intact (2 ^ 31) (fun _ => 0) (by decide)
    [(.copyObj [1, 2, 3], 0), (.append [4, 5], 0), (.finishPartial 1, 0),
      (.allocObj 6000, 2 ^ 32), (.append [6], 0)] s (by decide) hs

/-- A chunk of `k` bytes at `a` that is not going to be freed, with nothing unfinished in it. -/
structure Holding (s : BufferRun) (a k limit requested : ℕ) (heap : List (ℕ × ℕ)) : Prop where
  addr : s.nxb.chunk.addr = a
  chunkLimit : s.nxb.chunk.limit = a + k
  kept : (!s.nxb.chunk.dirty && s.nxb.chunk.shouldFree) = false
  base : s.nxb.base = a + 17
  ptr : s.nxb.ptr = a + 17
  limit : s.nxb.limit = limit
  requested : s.requested = requested
  heap : s.nxb.heap = heap

section Overflow

variable {a k limit req n : ℕ} {heap : List (ℕ × ℕ)}

theorem Holding.init (self : ℕ) (mem : ℕ → UInt8) (h : self % 16 = 0) :
    (init self mem).Holding (self + 32) 5088 (self + 5120) 0 [(self, 5120)] := by
  have haddr : alignDown (self + 32 + 15) = self + 32 := by
    rw [alignDown]
    omega
  refine ⟨haddr, rfl, rfl, ?_, ?_, rfl, rfl, rfl⟩
  · exact congrArg (· + 17) haddr
  · exact congrArg (· + 17) haddr

theorem step_allocObj (hreq : s.requested + size < 2 ^ 29)
    (hr : s.nxb.allocObj size addr = some nxb') :
    ∃ objects, step s (.allocObj size, addr) =
      some ⟨nxb', objects, s.stream, s.requested + size⟩ := by
  refine ⟨⟨nxb'.limit, readAt nxb'.mem nxb'.limit size, true⟩ :: s.objects, ?_⟩
  refine (if_pos hreq).trans ?_
  show ((s.nxb.allocObj size addr).map _).map _ = _
  rw [hr]
  rfl

/-- An object of one byte takes sixteen. -/
theorem Holding.allocOne (h : s.Holding a k (a + 32 + 16 * (n + 1)) req heap) (ha : a % 16 = 0)
    (hspace : a + 32 + 16 * (n + 1) ≤ addressSpace) (hreq : req + 1 < 2 ^ 29) :
    ∃ s', step s (.allocObj 1, 0) = some s' ∧
      s'.Holding a k (a + 32 + 16 * n) (req + 1) heap := by
  have hlimit := h.limit
  have hptr := h.ptr
  obtain ⟨halign, hle, hlt⟩ := objectAddr_spec (show 1 ≤ s.nxb.limit by omega)
    (show s.nxb.limit ≤ addressSpace by omega)
  have hobj : objectAddr s.nxb.limit 1 = a + 32 + 16 * n := by omega
  have hroom : s.nxb.ptr ≤ objectAddr s.nxb.limit 1 := by omega
  obtain ⟨objects, hstep⟩ := step_allocObj (by rwa [h.requested])
    (NxbArena.allocObj_of_le hroom)
  rw [hobj] at hstep
  exact ⟨_, hstep, h.addr, h.chunkLimit, rfl, h.base, h.ptr, rfl, congrArg (· + 1) h.requested,
    h.heap⟩

/-- Many objects of one byte. -/
theorem Holding.allocOnes (n : ℕ) (h : s.Holding a k (a + 32 + 16 * n) req heap) (ha : a % 16 = 0)
    (hspace : a + 32 + 16 * n ≤ addressSpace) (hreq : req + n < 2 ^ 29) :
    ∃ s', run step s (List.replicate n (.allocObj 1, 0)) = some s' ∧
      s'.Holding a k (a + 32) (req + n) heap := by
  induction n generalizing s req with
  | zero => exact ⟨s, rfl, h⟩
  | succ n ih =>
    obtain ⟨s₁, hs₁, h₁⟩ := h.allocOne ha hspace (by omega)
    obtain ⟨s₂, hs₂, h₂⟩ := ih h₁ (by omega) (by omega)
    refine ⟨s₂, ?_, ?_⟩
    · rw [List.replicate_succ]
      exact Option.bind_eq_some_iff.mpr ⟨s₁, hs₁, hs₂⟩
    · rwa [Nat.add_right_comm] at h₂

/-- An object that needs a new chunk. -/
theorem Holding.allocNew (size addr k' : ℕ) (h : s.Holding a k limit req heap)
    (hfull : objectAddr limit size < a + 17)
    (hk : allocSize ((a + k : ℕ) - (a + 17 : ℕ)) 0 size = k')
    (hint : asInt (k' + 64) = k' + 64) (hcan : CanAlloc heap addr (k' + 64))
    (hreq : req + size < 2 ^ 29) :
    ∃ s', step s (.allocObj size, addr) = some s' ∧
      s'.Holding addr k' (objectAddr (addr + k') size) (req + size) ((addr, k' + 64) :: heap) := by
  have hcap : (s.nxb.chunk.limit : ℤ) - s.nxb.chunk.buf = (a + k : ℕ) - (a + 17 : ℕ) := by
    rw [h.chunkLimit, NxbChunk.buf, h.addr]
  have hnone : (s.nxb.ptr : ℤ) - s.nxb.base = 0 := by
    rw [h.ptr, h.base, sub_self]
  have hzero : asInt 0 = 0 := asInt_of_bounds (by omega) (by omega)
  have hrealloc : s.nxb.reallocChunk size addr = some { s.nxb with
      base := addr + 17
      ptr := addr + 17
      limit := addr + k'
      chunk := ⟨addr, addr + k', true, false⟩
      heap := (addr, k' + 64) :: heap
      older := s.nxb.chunk :: s.nxb.older } := by
    have hlimit : ((addr : ℤ) + k').toNat = addr + k' := by omega
    have hblock : ((k' : ℤ) + 64).toNat = k' + 64 := by omega
    rw [← h.heap] at hcan ⊢
    simp only [NxbArena.reallocChunk, hcap, hnone, hzero, hk, hint, if_pos hcan, h.kept,
      Int.toNat_zero, hlimit, hblock, if_true, Nat.add_zero, Bool.false_eq_true, if_false]
    rfl
  have hlt : objectAddr s.nxb.limit size < s.nxb.ptr := by rwa [h.limit, h.ptr]
  have halloc := @NxbArena.allocObj_of_lt s.nxb size addr hlt
  rw [hrealloc, Option.map_some] at halloc
  obtain ⟨objects, hstep⟩ := step_allocObj (by rwa [h.requested]) halloc
  exact ⟨_, hstep, rfl, rfl, rfl, rfl, rfl, rfl, congrArg (· + size) h.requested, rfl⟩

/-- A large object and 103125002 objects of one byte, which take sixteen bytes each, and then one of
fifteen bytes. The chunks before the last one have 270000007, 540000023 and 1080000055 bytes; twice
the last number is negative as an `int`, and the chunk that is made instead is too small for
aligning an object in it. -/
theorem nxb_not_intact :
    ¬ ∀ (self : ℕ) (mem : ℕ → UInt8) (es : List (NxbOp × ℕ)) (s : BufferRun),
      self + connNxbSize ≤ addressSpace → run step (init self mem) es = some s → s.Intact := by
  intro hall
  have h₀ := Holding.init (2 ^ 31) (fun _ => 0) (by norm_num)
  obtain ⟨s₁, hs₁, h₁⟩ := h₀.allocNew 240000000 (2 ^ 32) 270000024
    (by decide) (by decide) (by decide) (by decide) (by norm_num)
  rw [show objectAddr (2 ^ 32 + 270000024) 240000000 = 2 ^ 32 + 32 + 16 * 1874999 by decide] at h₁
  obtain ⟨s₂, hs₂, h₂⟩ := h₁.allocOnes 1874999 (by decide) (by decide) (by norm_num)
  obtain ⟨s₃, hs₃, h₃⟩ := h₂.allocNew 1 (2 * 2 ^ 32) 540000040
    (by decide) (by decide) (by decide) (by decide) (by norm_num)
  rw [show objectAddr (2 * 2 ^ 32 + 540000040) 1 = 2 * 2 ^ 32 + 32 + 16 * 33750000 by decide] at h₃
  obtain ⟨s₄, hs₄, h₄⟩ := h₃.allocOnes 33750000 (by decide) (by decide) (by norm_num)
  obtain ⟨s₅, hs₅, h₅⟩ := h₄.allocNew 1 (3 * 2 ^ 32) 1080000072
    (by decide) (by decide) (by decide) (by decide) (by norm_num)
  rw [show objectAddr (3 * 2 ^ 32 + 1080000072) 1 = 3 * 2 ^ 32 + 32 + 16 * 67500002 by decide] at h₅
  obtain ⟨s₆, hs₆, h₆⟩ := h₅.allocOnes 67500002 (by decide) (by decide) (by norm_num)
  obtain ⟨s₇, hs₇, h₇⟩ := h₆.allocNew 15 (4 * 2 ^ 32) 40
    (by decide) (by decide) (by decide) (by decide) (by norm_num)
  have hrun := run_append (run_single hs₁) <| run_append hs₂ <| run_append (run_single hs₃) <|
    run_append hs₄ <| run_append (run_single hs₅) <| run_append hs₆ (run_single hs₇)
  have hle := (hall (2 ^ 31) (fun _ => 0) _ s₇ (by decide) hrun).ptr_le_limit
  rw [h₇.ptr, h₇.limit] at hle
  revert hle
  decide

end Overflow

end BufferRun

end Nxweb
