import Nxweb.Memory.BufferIntegrity

/-!
# What the calls of a buffer leave alone

A call writes the stream and the objects of a buffer and nothing else. So a byte that lies in a
chunk at or above `limit`, or in an older chunk, is never written again (`NxbArena.Reserved`), be it
part of an object or of the gap that aligning has left behind one. And a byte that is not in use
after a copy has been made, because it lies between the pointers or in no block at all, holds what it
held before (`NxbArena.Unused`).
-/

namespace Nxweb

open Lib

namespace NxbArena

variable {nxb nxb' : NxbArena} {n size addr x : ℕ} {data : List UInt8}

/-- The byte is in the block of a chunk. -/
def InBlock (nxb : NxbArena) (c : NxbChunk) (x : ℕ) : Prop :=
  (c.block nxb.self).1 ≤ x ∧ x < (c.block nxb.self).1 + (c.block nxb.self).2

/-- No call will write the byte: it is in an older chunk, or at or above `limit` in a chunk that will
not be freed. -/
def Reserved (nxb : NxbArena) (x : ℕ) : Prop :=
  (∃ c ∈ nxb.older, nxb.InBlock c x) ∨
    nxb.chunk.dirty = true ∧ nxb.InBlock nxb.chunk x ∧ nxb.limit ≤ x

/-- The byte is not in use: it is between the pointers, or in no block. -/
def Unused (nxb : NxbArena) (x : ℕ) : Prop :=
  (nxb.ptr ≤ x ∧ x < nxb.limit) ∨ ∀ b ∈ nxb.heap, ¬ (b.1 ≤ x ∧ x < b.1 + b.2)

/-! ### The chunks -/

/-- What is in the chunk is in its block. -/
theorem Layout.inBlock (h : nxb.Layout n) (hl : nxb.chunk.buf ≤ x) (hr : x < nxb.chunk.limit) :
    nxb.InBlock nxb.chunk x := by
  obtain ⟨hblock, hlimit⟩ := h.inside nxb.chunk List.mem_cons_self
  have hbuf : nxb.chunk.buf = nxb.chunk.addr + 17 := rfl
  exact ⟨by omega, by omega⟩

/-- The chunk has no byte in common with an older one. -/
theorem Layout.not_inBlock (h : nxb.Layout n) {c : NxbChunk} (hc : c ∈ nxb.older)
    (hx : nxb.InBlock nxb.chunk x) : ¬ nxb.InBlock c x := by
  have hapart := h.apart
  rw [h.heap, chunks, List.map_cons, List.pairwise_cons] at hapart
  have hne := hapart.1 (c.block nxb.self) (List.mem_map_of_mem hc)
  rintro ⟨hl, hr⟩
  obtain ⟨hl', hr'⟩ := hx
  rcases hne with hne | hne <;> omega

/-- What is reserved is not below `limit` in the chunk. -/
theorem Reserved.le_of_layout (hx : nxb.Reserved x) (h : nxb.Layout n) (hl : nxb.chunk.buf ≤ x) :
    nxb.limit ≤ x := by
  by_contra hlt
  rcases hx with ⟨c, hc, hx⟩ | ⟨-, -, hle⟩
  · have hlimit := h.limit_le
    exact h.not_inBlock hc (h.inBlock hl (by omega)) hx
  · exact hlt hle

theorem writeAt_of_lt_or_le {mem : ℕ → UInt8} {a : ℕ} (h : x < a ∨ a + data.length ≤ x) :
    writeAt mem a data x = mem x := by
  rw [writeAt]
  split_ifs with hle
  · rw [List.getElem?_eq_none (by omega), Option.getD_none]
  · rfl

theorem reallocChunk_self (hr : nxb.reallocChunk size addr = some nxb') :
    nxb'.self = nxb.self := by
  unfold reallocChunk at hr
  dsimp only at hr
  split_ifs at hr <;> obtain rfl := Option.some.inj hr <;> rfl

/-- A new chunk is written from `base` to `ptr` only. -/
theorem reallocChunk_mem (hr : nxb.reallocChunk size addr = some nxb')
    (hx : x < nxb'.base ∨ nxb'.ptr ≤ x) : nxb'.mem x = nxb.mem x := by
  have hmem : ∀ a m, (x < a ∨ a + m ≤ x) →
      (if m = 0 then nxb.mem else writeAt nxb.mem a (readAt nxb.mem nxb.base m)) x = nxb.mem x := by
    intro a m hout
    split_ifs
    · rfl
    · exact writeAt_of_lt_or_le (by rwa [length_readAt])
  unfold reallocChunk at hr
  dsimp only at hr
  split at hr
  · split at hr <;> obtain rfl := Option.some.inj hr <;> exact hmem _ _ hx
  · cases hr

/-! ### What is reserved stays -/

/-- Other pointers into the same chunk, with `limit` not above the old one. -/
theorem Reserved.setPointers (hx : nxb.Reserved x) {base ptr limit : ℕ} {mem : ℕ → UInt8}
    {dirty : Bool} (hlimit : limit ≤ nxb.limit) (hdirty : nxb.chunk.dirty = true → dirty = true) :
    Reserved { nxb with base, ptr, limit, mem, chunk := { nxb.chunk with dirty } } x := by
  rcases hx with ⟨c, hc, hx⟩ | ⟨hd, hx, hle⟩
  · exact .inl ⟨c, hc, hx⟩
  · exact .inr ⟨hdirty hd, hx, hlimit.trans hle⟩

/-- Old chunks stay, unless they hold nothing. -/
theorem Reserved.moved (hx : nxb.Reserved x) (hm : nxb.Moved nxb' n size)
    (hr : nxb.reallocChunk size addr = some nxb') :
    nxb'.Reserved x ∧ nxb'.mem x = nxb.mem x := by
  have hself := reallocChunk_self hr
  obtain ⟨c, hc, hin⟩ : ∃ c ∈ nxb'.older, nxb'.InBlock c x := by
    simp only [InBlock, hself]
    rcases hx with ⟨c, hc, hin⟩ | ⟨hd, hin, -⟩
    · exact ⟨c, hm.older c hc, hin⟩
    · exact ⟨_, hm.chunk hd, hin⟩
  refine ⟨.inl ⟨c, hc, hin⟩, reallocChunk_mem hr ?_⟩
  -- the stream is in the new chunk
  by_contra hstream
  have hbuf := hm.layout.buf_le
  have hptr := hm.layout.ptr_le
  have hlimit := hm.layout.limit_le
  exact hm.layout.not_inBlock hc (hm.layout.inBlock (by omega) (by omega)) hin

theorem Reserved.makeRoom (hx : nxb.Reserved x) (h : nxb.Layout n) (hsum : n + size < 2 ^ 29)
    (hcap : nxb.limit < nxb.ptr + size → nxb.chunk.limit < nxb.chunk.buf + 2 ^ 30)
    (hr : nxb.makeRoom size addr = some nxb') :
    nxb'.Reserved x ∧ nxb'.mem x = nxb.mem x ∧ nxb'.Layout n ∧ nxb'.ptr + size ≤ nxb'.limit := by
  rw [NxbArena.makeRoom] at hr
  split at hr
  next hfull =>
    have hm := h.reallocChunk hsum (hcap hfull) hr
    have hroom := hm.room
    obtain ⟨hx', hmem⟩ := hx.moved hm hr
    exact ⟨hx', hmem, hm.layout, by omega⟩
  next hroom =>
    obtain rfl := Option.some.inj hr
    exact ⟨hx, rfl, h, by omega⟩

theorem Reserved.allocObj (hx : nxb.Reserved x) (h : nxb.Layout n) (hsum : n + size < 2 ^ 29)
    (hcap : objectAddr nxb.limit size < nxb.ptr → nxb.chunk.limit < nxb.chunk.buf + 2 ^ 30)
    (hlow : size ≤ nxb.limit) (hr : nxb.allocObj size addr = some nxb') :
    nxb'.Reserved x ∧ nxb'.mem x = nxb.mem x ∧ (x < nxb'.limit ∨ nxb'.limit + size ≤ x) := by
  -- the object lies below the old `limit` of its chunk
  have hput : ∀ {nxb₁ : NxbArena}, nxb₁.Layout n → nxb₁.Reserved x → size ≤ nxb₁.limit →
      nxb₁.ptr ≤ objectAddr nxb₁.limit size →
      ({ nxb₁ with limit := objectAddr nxb₁.limit size }.setDirty).Reserved x ∧
        (x < objectAddr nxb₁.limit size ∨ objectAddr nxb₁.limit size + size ≤ x) := by
    intro nxb₁ h₁ hx₁ hsize hroom
    obtain ⟨-, hle, -⟩ := objectAddr_spec hsize (h₁.limit_le.trans h₁.bounded)
    refine ⟨hx₁.setPointers (show objectAddr nxb₁.limit size ≤ nxb₁.limit by omega) fun _ => rfl, ?_⟩
    by_contra hout
    have hbuf := h₁.buf_le
    have hptr := h₁.ptr_eq
    have := hx₁.le_of_layout h₁ (by omega)
    omega
  rcases Nat.lt_or_ge (objectAddr nxb.limit size) nxb.ptr with hfull | hroom
  · rw [allocObj_of_lt hfull] at hr
    obtain ⟨nxb₁, hr₁, rfl⟩ := Option.map_eq_some_iff.mp hr
    have hm := h.reallocChunk hsum (hcap hfull) hr₁
    have hroom := hm.room
    obtain ⟨hx₁, hmem⟩ := hx.moved hm hr₁
    obtain ⟨-, -, hlt⟩ := objectAddr_spec (show size ≤ nxb₁.limit by omega)
      (hm.layout.limit_le.trans hm.layout.bounded)
    obtain ⟨hx', hout⟩ := hput hm.layout hx₁ (by omega) (by omega)
    exact ⟨hx', hmem, hout⟩
  · rw [allocObj_of_le hroom] at hr
    obtain rfl := Option.some.inj hr
    obtain ⟨hx', hout⟩ := hput h hx hlow hroom
    exact ⟨hx', rfl, hout⟩

/-! ### What was there before a copy -/

/-- What a copy does to the arena: it is put at the new `limit`, and a byte that is not in use
afterwards is what it was, and was not in use before. -/
structure Copied (nxb nxb' : NxbArena) (n : ℕ) (data : List UInt8) : Prop where
  layout : nxb'.Layout n
  dirty : nxb'.chunk.dirty = true
  below : nxb'.limit + data.length ≤ nxb'.chunk.limit
  data : readAt nxb'.mem nxb'.limit data.length = data
  unused : ∀ x, nxb'.Unused x → nxb'.mem x = nxb.mem x ∧ (nxb.chunk.dirty = true → nxb.Unused x)

/-- The byte behind the copy: the copy is put right below the last object, or the byte was not in
use. Neither it nor the copy will be written again. -/
structure CopiedBehind (nxb nxb' : NxbArena) (data : List UInt8) : Prop where
  mem_eq : nxb'.mem (nxb'.limit + data.length) = nxb.mem (nxb'.limit + data.length)
  unused : nxb'.limit + data.length ≠ nxb.limit → nxb.Unused (nxb'.limit + data.length)
  reserved : ∀ x, nxb'.limit ≤ x → x ≤ nxb'.limit + data.length → nxb'.Reserved x

/-- The blocks in use are those of the chunks. -/
theorem Layout.unused_of_not_inBlock (h : nxb.Layout n) (hx : ∀ c ∈ nxb.chunks, ¬ nxb.InBlock c x) :
    nxb.Unused x := by
  right
  intro b hb
  rw [h.heap] at hb
  obtain ⟨c, hc, rfl⟩ := List.mem_map.mp hb
  exact hx c hc

theorem Layout.not_inBlock_of_forall (h : nxb.Layout n)
    (hx : ∀ b ∈ nxb.heap, ¬ (b.1 ≤ x ∧ x < b.1 + b.2)) {c : NxbChunk} (hc : c ∈ nxb.chunks) :
    ¬ nxb.InBlock c x := by
  apply hx
  rw [h.heap]
  exact List.mem_map_of_mem hc

/-- A byte of the new chunk was in no chunk before. -/
theorem Moved.unused (hm : nxb.Moved nxb' n size) (h : nxb.Layout n)
    (hself : nxb'.self = nxb.self) (hdirty : nxb.chunk.dirty = true)
    (hx : nxb'.InBlock nxb'.chunk x) : nxb.Unused x := by
  apply h.unused_of_not_inBlock
  intro c hc hin
  have hold : c ∈ nxb'.older := by
    rcases List.mem_cons.mp hc with rfl | hc
    · exact hm.chunk hdirty
    · exact hm.older c hc
  apply hm.layout.not_inBlock hold hx
  rwa [InBlock, hself]

/-- The arena with a copy at `a`. -/
def putCopy (nxb : NxbArena) (a : ℕ) (data : List UInt8) : NxbArena :=
  { nxb with limit := a, mem := writeAt nxb.mem a data }.setDirty

theorem copy_setDirty (nxb : NxbArena) (a : ℕ) (data : List UInt8) :
    { { nxb with limit := a }.setDirty with
      mem := writeAt { nxb with limit := a }.setDirty.mem { nxb with limit := a }.setDirty.limit
        data } = nxb.putCopy a data :=
  rfl

variable {a : ℕ}

/-- A copy for which there is room between the pointers takes nothing that is in use. -/
theorem Layout.unused_putCopy (h : nxb.Layout n) (hle : a + data.length ≤ nxb.limit)
    (hroom : nxb.ptr ≤ a) (hx : (nxb.putCopy a data).Unused x) :
    (nxb.putCopy a data).mem x = nxb.mem x ∧ nxb.Unused x := by
  have hlimit := h.limit_le
  have hbuf := h.buf_le
  have hptr := h.ptr_eq
  show writeAt nxb.mem a data x = nxb.mem x ∧ _
  rcases hx with ⟨hl, hr⟩ | hx
  · have hr' : x < a := hr
    exact ⟨writeAt_of_lt_or_le (.inl hr'), .inl ⟨hl, by omega⟩⟩
  · refine ⟨writeAt_of_lt_or_le ?_, .inr hx⟩
    by_contra hin
    exact h.not_inBlock_of_forall hx List.mem_cons_self (h.inBlock (by omega) (by omega))

theorem Layout.putCopy (h : nxb.Layout n) (hle : a + data.length ≤ nxb.limit)
    (hroom : nxb.ptr ≤ a) : (nxb.putCopy a data).Layout n :=
  h.setPointers h.buf_le h.ptr_eq hroom
    (show a ≤ nxb.chunk.limit by have := h.limit_le; omega)

/-- A copy into the chunk. -/
theorem Layout.copied_of_room (h : nxb.Layout n) (hle : a + data.length ≤ nxb.limit)
    (hroom : nxb.ptr ≤ a) : nxb.Copied (nxb.putCopy a data) n data where
  layout := h.putCopy hle hroom
  dirty := rfl
  below := by
    have hlimit := h.limit_le
    show a + data.length ≤ nxb.chunk.limit
    omega
  data := by
    show readAt (writeAt nxb.mem a data) a data.length = data
    exact readAt_writeAt
  unused x hx := by
    obtain ⟨hmem, hx'⟩ := h.unused_putCopy hle hroom hx
    exact ⟨hmem, fun _ => hx'⟩

theorem Layout.copiedBehind_of_room (h : nxb.Layout n) (hle : a + data.length ≤ nxb.limit)
    (hroom : nxb.ptr ≤ a) (hlimit : nxb.limit < nxb.chunk.limit) :
    nxb.CopiedBehind (nxb.putCopy a data) data where
  mem_eq := by
    show writeAt nxb.mem a data (a + data.length) = _
    exact writeAt_of_lt_or_le (.inr le_rfl)
  unused hne := by
    have hne' : a + data.length ≠ nxb.limit := hne
    exact .inl ⟨by show nxb.ptr ≤ a + data.length; omega, by show a + data.length < _; omega⟩
  reserved x hl hr := by
    have hbuf := h.buf_le
    have hptr := h.ptr_eq
    have hl' : a ≤ x := hl
    have hr' : x ≤ a + data.length := hr
    exact .inr ⟨rfl, h.inBlock (by omega) (by omega), hl'⟩

/-- The new chunk has a block of its own, which goes on behind it. -/
theorem reallocChunk_chunk (hr : nxb.reallocChunk size addr = some nxb') :
    nxb'.chunk.shouldFree = true ∧ nxb'.limit = nxb'.chunk.limit := by
  unfold reallocChunk at hr
  dsimp only at hr
  split at hr
  · split at hr <;> obtain rfl := Option.some.inj hr <;> exact ⟨rfl, rfl⟩
  · cases hr

section Full

variable {nxb₁ : NxbArena}

/-- A copy into a new chunk. -/
theorem Moved.copied (hm : nxb.Moved nxb₁ n data.length) (h : nxb.Layout n)
    (hr : nxb.reallocChunk data.length addr = some nxb₁) (hle : a + data.length ≤ nxb₁.limit)
    (hroom : nxb₁.ptr ≤ a) : nxb.Copied (nxb₁.putCopy a data) n data where
  layout := hm.layout.putCopy hle hroom
  dirty := rfl
  below := (hm.layout.copied_of_room hle hroom).below
  data := (hm.layout.copied_of_room hle hroom).data
  unused x hx := by
    have hbuf := hm.layout.buf_le
    have hptr := hm.layout.ptr_le
    have hlimit := hm.layout.limit_le
    obtain ⟨hmem, hx₁⟩ := hm.layout.unused_putCopy hle hroom hx
    constructor
    · -- the stream has been moved below the byte, or into a block that it is not in
      rw [hmem]
      apply reallocChunk_mem hr
      by_contra hstream
      rcases hx₁ with ⟨hl, -⟩ | hnot
      · omega
      · exact hm.layout.not_inBlock_of_forall hnot List.mem_cons_self
          (hm.layout.inBlock (by omega) (by omega))
    · intro hdirty
      rcases hx₁ with ⟨hl, hr'⟩ | hnot
      · have hbase := hm.layout.ptr_eq
        exact hm.unused h (reallocChunk_self hr) hdirty
          (hm.layout.inBlock (by omega) (by omega))
      · apply h.unused_of_not_inBlock
        intro c hc
        have hold : c ∈ nxb₁.chunks := by
          rcases List.mem_cons.mp hc with rfl | hc
          · exact List.mem_cons_of_mem _ (hm.chunk hdirty)
          · exact List.mem_cons_of_mem _ (hm.older c hc)
        have := hm.layout.not_inBlock_of_forall hnot hold
        rwa [InBlock, reallocChunk_self hr] at this

theorem Moved.copiedBehind (hm : nxb.Moved nxb₁ n data.length) (h : nxb.Layout n)
    (hr : nxb.reallocChunk data.length addr = some nxb₁) (hle : a + data.length ≤ nxb₁.limit)
    (hroom : nxb₁.ptr ≤ a) (hdirty : nxb.chunk.dirty = true) :
    nxb.CopiedBehind (nxb₁.putCopy a data) data := by
  obtain ⟨hfree, hlimit⟩ := reallocChunk_chunk hr
  have hbuf := hm.layout.buf_le
  have hptr := hm.layout.ptr_eq
  -- the block goes on behind the chunk
  have hblock : ∀ y, a ≤ y → y ≤ a + data.length → nxb₁.InBlock nxb₁.chunk y := by
    intro y hl hy
    have haddr : nxb₁.chunk.buf = nxb₁.chunk.addr + 17 := rfl
    rw [InBlock, NxbChunk.block, if_pos hfree]
    dsimp only
    omega
  refine ⟨?_, fun _ => ?_, fun y hl hy => .inr ⟨rfl, hblock y hl hy, hl⟩⟩
  · show writeAt nxb₁.mem a data (a + data.length) = nxb.mem (a + data.length)
    rw [writeAt_of_lt_or_le (.inr le_rfl)]
    exact reallocChunk_mem hr (.inr (by omega))
  · exact hm.unused h (reallocChunk_self hr) hdirty
      (hblock (a + data.length) (Nat.le_add_right _ _) le_rfl)

end Full

/-- A copy is put into the chunk if there is room for it, and else into a new one. -/
theorem copyObj_eq_some (hr : nxb.copyObj data addr = some nxb') :
    nxb.ptr ≤ objectAddr nxb.limit data.length ∧
        nxb' = nxb.putCopy (objectAddr nxb.limit data.length) data ∨
      objectAddr nxb.limit data.length < nxb.ptr ∧
        ∃ nxb₁, nxb.reallocChunk data.length addr = some nxb₁ ∧
          nxb' = nxb₁.putCopy (objectAddr nxb₁.limit data.length) data := by
  obtain ⟨nxb₂, hr₂, rfl⟩ := Option.map_eq_some_iff.mp hr
  rcases Nat.lt_or_ge (objectAddr nxb.limit data.length) nxb.ptr with hfull | hroom
  · rw [allocObj_of_lt hfull] at hr₂
    obtain ⟨nxb₁, hr₁, rfl⟩ := Option.map_eq_some_iff.mp hr₂
    exact .inr ⟨hfull, nxb₁, hr₁, copy_setDirty nxb₁ (objectAddr nxb₁.limit data.length) data⟩
  · rw [allocObj_of_le hroom] at hr₂
    obtain rfl := Option.some.inj hr₂
    exact .inl ⟨hroom, copy_setDirty nxb (objectAddr nxb.limit data.length) data⟩

/-- What `nxb_copy_obj` does. -/
theorem Layout.copyObj (h : nxb.Layout n) (hsum : n + data.length < 2 ^ 29)
    (hcap : objectAddr nxb.limit data.length < nxb.ptr →
      nxb.chunk.limit < nxb.chunk.buf + 2 ^ 30)
    (hlow : data.length ≤ nxb.limit) (hr : nxb.copyObj data addr = some nxb') :
    nxb.Copied nxb' n data ∧ (nxb.chunk.dirty = true → nxb.limit < nxb.chunk.limit →
      nxb.CopiedBehind nxb' data) := by
  rcases copyObj_eq_some hr with ⟨hroom, rfl⟩ | ⟨hfull, nxb₁, hr₁, rfl⟩
  · obtain ⟨-, hle, -⟩ := objectAddr_spec hlow (h.limit_le.trans h.bounded)
    exact ⟨h.copied_of_room hle hroom, fun _ hlimit => h.copiedBehind_of_room hle hroom hlimit⟩
  · have hm := h.reallocChunk hsum (hcap hfull) hr₁
    have hroom := hm.room
    obtain ⟨-, hle, hlt⟩ := objectAddr_spec (show data.length ≤ nxb₁.limit by omega)
      (hm.layout.limit_le.trans hm.layout.bounded)
    have hput : nxb₁.ptr ≤ objectAddr nxb₁.limit data.length := by omega
    exact ⟨hm.copied h hr₁ hle hput, fun hdirty _ => hm.copiedBehind h hr₁ hle hput hdirty⟩

/-! ### Where objects are put -/

/-- The arena without what is in memory. -/
def shape (nxb : NxbArena) : NxbArena :=
  { nxb with mem := fun _ => 0 }

/-- Where `nxb_alloc_obj` puts one object after the other. -/
def objectPlaces (nxb : NxbArena) : List (ℕ × ℕ) → Option (List ℕ)
  | [] => some []
  | (size, addr) :: es =>
    (nxb.allocObj size addr).bind fun nxb => (nxb.objectPlaces es).map (nxb.limit :: ·)

theorem reallocChunk_shape :
    (nxb.shape.reallocChunk size addr).map shape = (nxb.reallocChunk size addr).map shape := by
  unfold reallocChunk shape
  dsimp only
  split_ifs <;> rfl

/-- Allocating does not look at what is in memory. -/
theorem allocObj_shape :
    (nxb.shape.allocObj size addr).map shape = (nxb.allocObj size addr).map shape := by
  rcases Nat.lt_or_ge (objectAddr nxb.limit size) nxb.ptr with hfull | hroom
  · have hfull' : objectAddr nxb.shape.limit size < nxb.shape.ptr := hfull
    rw [allocObj_of_lt hfull, allocObj_of_lt hfull', Option.map_map, Option.map_map]
    have hput : ∀ nxb₁ : NxbArena,
        ({ nxb₁ with limit := objectAddr nxb₁.limit size }.setDirty).shape =
          { nxb₁.shape with limit := objectAddr nxb₁.shape.limit size }.setDirty :=
      fun _ => rfl
    simp only [Function.comp_def, hput]
    have := congrArg (Option.map fun nxb₁ : NxbArena =>
      { nxb₁ with limit := objectAddr nxb₁.limit size }.setDirty)
      (@reallocChunk_shape nxb size addr)
    simpa only [Option.map_map, Function.comp_def] using this
  · have hroom' : nxb.shape.ptr ≤ objectAddr nxb.shape.limit size := hroom
    rw [allocObj_of_le hroom, allocObj_of_le hroom']
    rfl

theorem objectPlaces_congr {es : List (ℕ × ℕ)} (h : nxb.shape = nxb'.shape) :
    nxb.objectPlaces es = nxb'.objectPlaces es := by
  induction es generalizing nxb nxb' with
  | nil => rfl
  | cons e es ih =>
    obtain ⟨size, addr⟩ := e
    have halloc : (nxb.allocObj size addr).map shape = (nxb'.allocObj size addr).map shape := by
      rw [← allocObj_shape, h, allocObj_shape]
    rw [objectPlaces, objectPlaces]
    cases hr : nxb.allocObj size addr with
    | none =>
      rw [hr, Option.map_none, eq_comm, Option.map_eq_none_iff] at halloc
      rw [halloc]
    | some nxb₁ =>
      rw [hr, Option.map_some, eq_comm, Option.map_eq_some_iff] at halloc
      obtain ⟨nxb₂, hr₂, heq⟩ := halloc
      have hlimit : nxb₂.limit = nxb₁.limit := congrArg (·.limit) heq
      rw [hr₂, Option.bind_some, Option.bind_some, ih heq.symm, hlimit]

/-- A copy is put where an object of its size is. -/
theorem objectPlaces_cons {es : List (ℕ × ℕ)} (hr : nxb.copyObj data addr = some nxb') :
    nxb.objectPlaces ((data.length, addr) :: es) =
      (nxb'.objectPlaces es).map (nxb'.limit :: ·) := by
  obtain ⟨nxb₁, hr₁, rfl⟩ := Option.map_eq_some_iff.mp hr
  rw [objectPlaces, hr₁, Option.bind_some]
  congr 1
  exact objectPlaces_congr rfl

end NxbArena

namespace BufferRun

variable {s s' : BufferRun} {op : NxbOp} {addr x : ℕ}

/-- No call writes a reserved byte. -/
theorem reserved_exec (hx : s.nxb.Reserved x) (h : s.Inv)
    (hsum : s.stream.length + op.size < 2 ^ 29) (hsound : s.Sound op)
    (hexec : s.exec op addr = some s') : s'.nxb.Reserved x ∧ s'.nxb.mem x = s.nxb.mem x := by
  obtain ⟨hcap, hwrap⟩ := hsound
  -- the stream is written below `limit`
  have happend : ∀ {nxb₁ : NxbArena} {data : List UInt8}, nxb₁.Layout s.stream.length →
      nxb₁.Reserved x → nxb₁.ptr + data.length ≤ nxb₁.limit →
      writeAt nxb₁.mem nxb₁.ptr data x = nxb₁.mem x := by
    intro nxb₁ data h₁ hx₁ hroom
    apply NxbArena.writeAt_of_lt_or_le
    by_contra hout
    have hbuf := h₁.buf_le
    have hptr := h₁.ptr_eq
    have := hx₁.le_of_layout h₁ (by omega)
    omega
  cases op with
  | append data =>
    obtain ⟨nxb', hr, rfl⟩ := Option.map_eq_some_iff.mp hexec
    obtain ⟨nxb₁, hr₁, rfl⟩ := Option.map_eq_some_iff.mp hr
    obtain ⟨hx₁, hmem, h₁, hroom⟩ := hx.makeRoom h.layout hsum hcap hr₁
    exact ⟨hx₁.setPointers le_rfl id, (happend h₁ hx₁ hroom).trans hmem⟩
  | appendChar c =>
    obtain ⟨nxb', hr, rfl⟩ := Option.map_eq_some_iff.mp hexec
    obtain ⟨nxb₁, hr₁, rfl⟩ := Option.map_eq_some_iff.mp hr
    obtain ⟨hx₁, hmem, h₁, hroom⟩ := hx.makeRoom h.layout hsum hcap hr₁
    exact ⟨hx₁.setPointers le_rfl id, (@happend _ [c] h₁ hx₁ hroom).trans hmem⟩
  | makeRoom size =>
    obtain ⟨nxb', hr, rfl⟩ := Option.map_eq_some_iff.mp hexec
    obtain ⟨hx₁, hmem, -, -⟩ := hx.makeRoom h.layout hsum hcap hr
    exact ⟨hx₁, hmem⟩
  | blank size =>
    obtain ⟨nxb', hr, rfl⟩ := Option.map_eq_some_iff.mp hexec
    obtain ⟨nxb₁, hr₁, rfl⟩ := Option.map_eq_some_iff.mp hr
    obtain ⟨hx₁, hmem, -, -⟩ := hx.makeRoom h.layout hsum hcap hr₁
    exact ⟨hx₁.setPointers le_rfl id, hmem⟩
  | allocObj size =>
    obtain ⟨nxb', hr, rfl⟩ := Option.map_eq_some_iff.mp hexec
    obtain ⟨hx₁, hmem, -⟩ := hx.allocObj h.layout hsum hcap (Nat.not_lt.mp hwrap) hr
    exact ⟨hx₁, hmem⟩
  | copyObj data =>
    obtain ⟨nxb', hr, rfl⟩ := Option.map_eq_some_iff.mp hexec
    obtain ⟨nxb₁, hr₁, rfl⟩ := Option.map_eq_some_iff.mp hr
    obtain ⟨hx₁, hmem, hout⟩ := hx.allocObj h.layout hsum hcap (Nat.not_lt.mp hwrap) hr₁
    exact ⟨hx₁.setPointers le_rfl id, (NxbArena.writeAt_of_lt_or_le hout).trans hmem⟩
  | finishStream =>
    obtain rfl := Option.some.inj hexec
    exact ⟨hx.setPointers le_rfl fun _ => rfl, rfl⟩
  | finishPartial size =>
    rw [BufferRun.exec] at hexec
    split at hexec
    next =>
      obtain rfl := Option.some.inj hexec
      exact ⟨hx.setPointers le_rfl fun _ => rfl, rfl⟩
    next => cases hexec
  | unfinishStream =>
    obtain rfl := Option.some.inj hexec
    exact ⟨hx.setPointers le_rfl id, rfl⟩
  | startStream =>
    obtain rfl := Option.some.inj hexec
    show (s.nxb.startStream).Reserved x ∧ (s.nxb.startStream).mem x = s.nxb.mem x
    rw [NxbArena.startStream]
    split
    · exact ⟨hx.setPointers le_rfl id, rfl⟩
    · exact ⟨hx, rfl⟩

/-- A reserved byte is never written again. -/
theorem reserved_run {es : List (NxbOp × ℕ)} (h : s.Inv) (hlen : s.stream.length ≤ s.requested)
    (hsound : Along step (fun s e _ => s.Sound e.1) s es) (hrun : run step s es = some s')
    (hx : s.nxb.Reserved x) : s'.nxb.mem x = s.nxb.mem x := by
  have hinv : (s'.Inv ∧ s'.stream.length ≤ s'.requested) ∧
      s'.nxb.Reserved x ∧ s'.nxb.mem x = s.nxb.mem x := by
    apply run_inv_of_along (I := fun s' => (s'.Inv ∧ s'.stream.length ≤ s'.requested) ∧
      s'.nxb.Reserved x ∧ s'.nxb.mem x = s.nxb.mem x) _ ⟨⟨h, hlen⟩, hx, rfl⟩ hsound hrun
    rintro s₁ e s₂ ⟨⟨h₁, hlen₁⟩, hx₁, hmem₁⟩ hstep hs
    refine ⟨inv_step h₁ hlen₁ hs hstep, ?_⟩
    rw [step] at hstep
    split at hstep
    next hreq =>
      obtain ⟨s₃, hexec, rfl⟩ := Option.map_eq_some_iff.mp hstep
      obtain ⟨hx₃, hmem₃⟩ := reserved_exec hx₁ h₁ (by omega) hs hexec
      exact ⟨hx₃, hmem₃.trans hmem₁⟩
    next => cases hstep
  exact hinv.2.2

/-- A copy in a run. -/
theorem copyObj_step {data : List UInt8} (h : s.Inv) (hlen : s.stream.length ≤ s.requested)
    (hsound : s.Sound (.copyObj data)) (hstep : step s (.copyObj data, addr) = some s') :
    s.nxb.copyObj data addr = some s'.nxb ∧
      s'.objects = ⟨s'.nxb.limit, data, true⟩ :: s.objects ∧
      s.nxb.Copied s'.nxb s.stream.length data ∧
      (s.nxb.chunk.dirty = true → s.nxb.limit < s.nxb.chunk.limit →
        s.nxb.CopiedBehind s'.nxb data) := by
  obtain ⟨hcap, hwrap⟩ := hsound
  rw [step] at hstep
  split at hstep
  next hreq =>
    have hreq : s.requested + data.length < 2 ^ 29 := hreq
    obtain ⟨s₁, hexec, rfl⟩ := Option.map_eq_some_iff.mp hstep
    obtain ⟨nxb', hr, rfl⟩ := Option.map_eq_some_iff.mp hexec
    obtain ⟨hcopied, hbehind⟩ := h.layout.copyObj (by omega) hcap (Nat.not_lt.mp hwrap) hr
    exact ⟨hr, rfl, hcopied, hbehind⟩
  next => cases hstep

end BufferRun

end Nxweb
