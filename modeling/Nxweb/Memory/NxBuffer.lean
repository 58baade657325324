import Nxweb.Lib.Memory
import Nxweb.Memory.Pool

/-!
# Arenas

The buffers of `nx_buffer.c`. A buffer has a chunk of memory in which a stream of bytes grows up
from the bottom and objects are put down from the top. If they would meet, a chunk of at least twice
the size is asked for and the unfinished part of the stream moves there.

Addresses are numbers below `2 ^ 64` and the sizes that the source keeps in an `int` are reduced to
32 bits with a sign, as its conversions do. Memory comes from `nx_alloc`, whose answer is a
parameter: any address that is a multiple of 64 whose block is apart from all others. The layout of
the records is that of a 64-bit machine.
-/

namespace Nxweb

open Lib

/-- The conversion to a 32-bit `int`. -/
def asInt (x : ℤ) : ℤ :=
  x.bmod (2 ^ 32)

/-- Clear the bits of `NXB_DEFAULT_ALIGNMENT_MASK`. -/
def alignDown (a : ℕ) : ℕ :=
  a / 16 * 16

/-- `NXB_PTR_ALIGN_DOWN` of `limit - size`, a pointer of 64 bits. -/
def objectAddr (limit size : ℕ) : ℕ :=
  alignDown ((limit + 2 ^ 64 - size) % 2 ^ 64)

/-- `nxb_chunk`. -/
structure NxbChunk where
  /-- Where the chunk begins. -/
  addr : ℕ
  /-- The `end` of the chunk. -/
  limit : ℕ
  /-- Whether it has a block of its own. -/
  shouldFree : Bool
  /-- Whether there is something in it that is finished. -/
  dirty : Bool
deriving DecidableEq, Repr

/-- The offset of `buf` in a chunk. -/
def NxbChunk.buf (c : NxbChunk) : ℕ :=
  c.addr + 17

/-- `nxb_buffer`, and the memory. -/
structure NxbArena where
  /-- Where the buffer itself is. -/
  self : ℕ
  /-- The beginning of the unfinished stream. -/
  base : ℕ
  /-- The end of the unfinished stream. -/
  ptr : ℕ
  /-- The `end` of the buffer: the lowest object of the chunk. -/
  limit : ℕ
  /-- The chunk. -/
  chunk : NxbChunk
  /-- The chunks that `prev` leads to. -/
  older : List NxbChunk
  /-- The memory. -/
  mem : ℕ → UInt8
  /-- The blocks of memory that are in use, with their sizes. -/
  heap : List (ℕ × ℕ)

/-- `NXWEB_CONN_NXB_SIZE`. -/
def connNxbSize : ℕ := 4096 + 1024

/-- Whether `nx_alloc` may put a block there. -/
def CanAlloc (heap : List (ℕ × ℕ)) (addr : ℕ) (size : ℤ) : Prop :=
  0 < size ∧ addr % 64 = 0 ∧ addr + size ≤ addressSpace ∧
    ∀ b ∈ heap, Apart addr size.toNat b.1 b.2

instance (heap : List (ℕ × ℕ)) (addr : ℕ) (size : ℤ) : Decidable (CanAlloc heap addr size) :=
  inferInstanceAs (Decidable (_ ∧ _ ∧ _ ∧ _))

/-- The `alloc_size` of `nxb_realloc_chunk`, for a chunk that has `capacity` bytes from `buf` on and
an unfinished stream of `unfinished` bytes. -/
def allocSize (capacity unfinished minRoom : ℤ) : ℤ :=
  let newSize := asInt (capacity * 2)
  let baseSize := asInt unfinished
  let minRoom := asInt (minRoom + baseSize)
  let minRoom := asInt (minRoom + minRoom >>> (3 : ℕ))
  let newSize := if newSize < minRoom then minRoom else newSize
  let newSize := asInt (newSize + 15) / 16 * 16
  asInt (24 + newSize)

namespace NxbArena

/-- `nxb_init`. -/
def init (self : ℕ) (mem : ℕ → UInt8) : NxbArena :=
  let chunk : NxbChunk := {
    addr := alignDown (self + 32 + 15)
    limit := self + connNxbSize
    shouldFree := false
    dirty := false }
  { self, mem, chunk
    base := chunk.buf
    ptr := chunk.buf
    limit := chunk.limit
    older := []
    heap := [(self, connNxbSize)] }

/-- `nxb_realloc_chunk`; none if `nx_alloc` cannot return `addr`. -/
def reallocChunk (nxb : NxbArena) (minRoom addr : ℕ) : Option NxbArena :=
  let size := allocSize (nxb.chunk.limit - nxb.chunk.buf) (nxb.ptr - nxb.base) minRoom
  let baseSize := (asInt (nxb.ptr - nxb.base)).toNat
  if CanAlloc nxb.heap addr (asInt (size + 64)) then
    let nxc : NxbChunk := {
      addr
      limit := (addr + size).toNat
      shouldFree := true
      dirty := false }
    let heap := (addr, (size + 64).toNat) :: nxb.heap
    let moved := { nxb with
      base := nxc.buf
      ptr := nxc.buf + baseSize
      limit := nxc.limit
      chunk := nxc
      mem := if baseSize = 0 then nxb.mem
        else writeAt nxb.mem nxc.buf (readAt nxb.mem nxb.base baseSize) }
    if !nxb.chunk.dirty && nxb.chunk.shouldFree then
      some { moved with heap := heap.eraseP (·.1 = nxb.chunk.addr) }
    else some { moved with heap, older := nxb.chunk :: nxb.older }
  else none

/-- `nxb_make_room`: ask for a new chunk if `size` bytes do not fit between the stream and the
objects. -/
def makeRoom (nxb : NxbArena) (size addr : ℕ) : Option NxbArena :=
  if nxb.limit < nxb.ptr + size then nxb.reallocChunk size addr else some nxb

/-- `nxb_append`. -/
def append (nxb : NxbArena) (data : List UInt8) (addr : ℕ) : Option NxbArena :=
  (nxb.makeRoom data.length addr).map fun nxb =>
    { nxb with
      mem := writeAt nxb.mem nxb.ptr data
      ptr := nxb.ptr + data.length }

/-- `nxb_append_char`. -/
def appendChar (nxb : NxbArena) (c : UInt8) (addr : ℕ) : Option NxbArena :=
  nxb.append [c] addr

/-- `nxb_blank`. -/
def blank (nxb : NxbArena) (size addr : ℕ) : Option NxbArena :=
  (nxb.makeRoom size addr).map fun nxb => { nxb with ptr := nxb.ptr + size }

/-- Set the `dirty` of the chunk. -/
def setDirty (nxb : NxbArena) : NxbArena :=
  { nxb with chunk := { nxb.chunk with dirty := true } }

/-- `nxb_alloc_obj`; the object is at the new `limit`. -/
def allocObj (nxb : NxbArena) (size addr : ℕ) : Option NxbArena :=
  let obj := objectAddr nxb.limit size
  if obj < nxb.ptr then
    -- no room
    (nxb.reallocChunk size addr).map fun nxb =>
      { nxb with limit := objectAddr nxb.limit size }.setDirty
  else some { nxb with limit := obj }.setDirty

/-- `nxb_copy_obj`. -/
def copyObj (nxb : NxbArena) (data : List UInt8) (addr : ℕ) : Option NxbArena :=
  (nxb.allocObj data.length addr).map fun nxb =>
    { nxb with mem := writeAt nxb.mem nxb.limit data }

/-- `nxb_finish_partial`; the finished part begins at the old `base`. -/
def finishPartial (nxb : NxbArena) (size : ℕ) : NxbArena :=
  { nxb with base := nxb.base + size }.setDirty

/-- `nxb_finish_stream`. -/
def finishStream (nxb : NxbArena) : NxbArena :=
  { nxb with base := nxb.ptr }.setDirty

/-- `nxb_unfinish_stream`. -/
def unfinishStream (nxb : NxbArena) : NxbArena :=
  { nxb with ptr := nxb.base }

/-- `nxb_start_stream`. -/
def startStream (nxb : NxbArena) : NxbArena :=
  if nxb.ptr ≠ nxb.base then nxb.unfinishStream else nxb

end NxbArena

/-- A call. -/
inductive NxbOp
  | append (data : List UInt8)
  | appendChar (c : UInt8)
  | makeRoom (size : ℕ)
  | blank (size : ℕ)
  | allocObj (size : ℕ)
  | copyObj (data : List UInt8)
  | finishStream
  | finishPartial (size : ℕ)
  | unfinishStream
  | startStream
deriving DecidableEq, Repr

/-- The size that a call asks for. -/
def NxbOp.size : NxbOp → ℕ
  | .append data => data.length
  | .appendChar _ => 1
  | .makeRoom size => size
  | .blank size => size
  | .allocObj size => size
  | .copyObj data => data.length
  | _ => 0

/-- Something that the buffer has given out. -/
structure NxbObject where
  /-- Where it is. -/
  addr : ℕ
  /-- What it held when it was given out. -/
  data : List UInt8
  /-- Whether it was allocated, and is not a finished part of the stream. -/
  allocated : Bool
deriving DecidableEq, Repr

/-- A buffer, what it has given out, what has been appended to the unfinished stream, and the sum of
all sizes asked for. -/
structure BufferRun where
  nxb : NxbArena
  objects : List NxbObject
  stream : List UInt8
  requested : ℕ

namespace BufferRun

/-- A buffer at `self`. -/
def init (self : ℕ) (mem : ℕ → UInt8) : BufferRun where
  nxb := .init self mem
  objects := []
  stream := []
  requested := 0

/-- The call, with the answer of `nx_alloc` should it be asked. -/
def exec (s : BufferRun) (op : NxbOp) (addr : ℕ) : Option BufferRun :=
  match op with
  | .append data => (s.nxb.append data addr).map fun nxb =>
      { s with nxb, stream := s.stream ++ data }
  | .appendChar c => (s.nxb.appendChar c addr).map fun nxb =>
      { s with nxb, stream := s.stream ++ [c] }
  | .makeRoom size => (s.nxb.makeRoom size addr).map fun nxb => { s with nxb }
  | .blank size => (s.nxb.blank size addr).map fun nxb =>
      { s with nxb, stream := s.stream ++ readAt nxb.mem (nxb.ptr - size) size }
  | .allocObj size => (s.nxb.allocObj size addr).map fun nxb =>
      { s with
        nxb
        objects := ⟨nxb.limit, readAt nxb.mem nxb.limit size, true⟩ :: s.objects }
  | .copyObj data => (s.nxb.copyObj data addr).map fun nxb =>
      { s with nxb, objects := ⟨nxb.limit, data, true⟩ :: s.objects }
  | .finishStream => some { s with
      nxb := s.nxb.finishStream
      objects := ⟨s.nxb.base, s.stream, false⟩ :: s.objects
      stream := [] }
  | .finishPartial size =>
    -- not beyond the unfinished part
    if s.nxb.base + size ≤ s.nxb.ptr then
      some { s with
        nxb := s.nxb.finishPartial size
        objects := ⟨s.nxb.base, s.stream.take size, false⟩ :: s.objects
        stream := s.stream.drop size }
    else none
  | .unfinishStream => some { s with nxb := s.nxb.unfinishStream, stream := [] }
  | .startStream => some { s with nxb := s.nxb.startStream, stream := [] }

/-- One call; the sizes asked for stay below `2 ^ 29` altogether. -/
def step (s : BufferRun) (e : NxbOp × ℕ) : Option BufferRun :=
  if s.requested + e.1.size < 2 ^ 29 then
    (s.exec e.1 e.2).map fun s' => { s' with requested := s.requested + e.1.size }
  else none

end BufferRun

end Nxweb
