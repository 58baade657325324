import Nxweb.Lib.DList
import Nxweb.Lib.Machine

/-!
# Object pools

The pools of `nx_pool.c`. A pool owns a stack of chunks, each an array of objects, and threads
the objects that are not in use on one doubly linked list. Connections, arenas, ring buffers and
message events all come from such pools.

An object is named by the address of its chunk and its index in it; the fields of the object
headers are maps from these names. Addresses come from `nx_alloc`, which may fail, and may hand
out again what was given back to it. What it cannot do is to hand out more than the address space
of the process has.
-/

namespace Nxweb

/-- A pointer to the header of an object: the address of its chunk and its index there. -/
structure ObjRef where
  /-- The address of the chunk. -/
  chunk : ℕ
  /-- The index in the chunk's array. -/
  index : ℕ
deriving DecidableEq, Repr

/-- A chunk of the pool. -/
structure NxpChunk where
  /-- Where `nx_alloc` has put it. -/
  addr : ℕ
  /-- The number of objects in its array. -/
  nitems : ℕ
  /-- Its `nxp_chunk_id_t`, an unsigned 32-bit number. -/
  id : ℕ
deriving DecidableEq, Repr

/-- The objects of a chunk, in the order of the array. -/
def NxpChunk.objects (c : NxpChunk) : List ObjRef :=
  (List.range c.nitems).map (ObjRef.mk c.addr)

/-- The pool, with the headers of all objects. -/
structure NxpPool where
  /-- The newest chunk. -/
  chunk : NxpChunk
  /-- The chunks that `prev` leads to from the newest one; the last one is the initial chunk. -/
  older : List NxpChunk
  /-- `free_first` and `free_last`, and the `next` and `prev` of all headers. -/
  free : Lib.DList ObjRef
  /-- The `in_use` of all headers. -/
  inUse : ObjRef → Bool
  /-- The `chunk_id` of all headers. -/
  chunkId : ObjRef → ℕ
  /-- The bytes an object takes, with its header. -/
  objectSize : ℕ

namespace NxpPool

/-- All chunks, the newest one first. -/
def chunks (pool : NxpPool) : List NxpChunk :=
  pool.chunk :: pool.older

/-- All objects of all chunks. -/
def objects (pool : NxpPool) : List ObjRef :=
  pool.chunks.flatMap NxpChunk.objects

/-- One round of the loop of `nxp_init_chunk`: link an object behind the previous one. -/
def initObject (s : NxpPool × Option ObjRef) (obj : ObjRef) : NxpPool × Option ObjRef :=
  let pool := s.1
  let links := pool.free.setPrev obj s.2
  let links := match s.2 with
    | some prev => links.setNext prev (some obj)
    | none => links
  ({ pool with
      inUse := Function.update pool.inUse obj false
      chunkId := Function.update pool.chunkId obj pool.chunk.id
      free := links }, some obj)

/-- `nxp_init_chunk`: put all objects of the newest chunk at the end of the free list. A chunk
without objects on an empty list makes it write through a null pointer. -/
def initChunk (pool : NxpPool) : Option NxpPool :=
  let s := pool.chunk.objects.foldl initObject (pool, pool.free.last)
  match s.2 with
  | none => none
  | some prev =>
    let links := { s.1.free with last := some prev }.setNext prev none
    let links := match links.first with
      | some _ => links
      | none => { links with first := some ⟨pool.chunk.addr, 0⟩ }
    some { s.1 with free := links }

/-- The size of an object's header, `sizeof(nxp_object)`. -/
def headerSize : ℕ := 24

/-- The pool that `nxp_init` hands to `nxp_init_chunk`, with an initial chunk that has room for
`nitems` objects. The fields of objects hold whatever is in memory. -/
def start (objectSize nitems addr : ℕ) (memory : NxpPool) : NxpPool where
  chunk := { addr, nitems, id := 1 }
  older := []
  free := { memory.free with first := none, last := none }
  inUse := memory.inUse
  chunkId := memory.chunkId
  objectSize := objectSize + headerSize

/-- `nxp_init`. -/
def init (objectSize nitems addr : ℕ) (memory : NxpPool) : Option NxpPool :=
  (start objectSize nitems addr memory).initChunk

/-- The number of objects of the next chunk. -/
def nextItems (pool : NxpPool) : ℕ :=
  if 1024 < pool.chunk.nitems * 2 then 1024 else pool.chunk.nitems * 2

/-- Give the first free object out. -/
def takeFirst (pool : NxpPool) (obj : ObjRef) : NxpPool :=
  { pool with
    free := pool.free.popFront obj
    inUse := Function.update pool.inUse obj true }

/-- The pool with a new chunk at `addr`, before its objects are set up. -/
def addChunk (pool : NxpPool) (addr : ℕ) : NxpPool :=
  { pool with
    chunk := { addr, nitems := pool.nextItems, id := (pool.chunk.id + 1) % 2 ^ 32 }
    older := pool.chunk :: pool.older }

/-- `nxp_alloc`. If a new chunk is needed, `mem` is what `nx_alloc` answers. The result has no
object if it has answered with null; there is no result if a null pointer is used. -/
def alloc (pool : NxpPool) (mem : Option ℕ) : Option (NxpPool × Option ObjRef) :=
  match pool.free.first with
  | some obj => some (pool.takeFirst obj, some obj)
  | none =>
    match mem with
    | none => some (pool, none)
    | some addr => do
      let pool ← (pool.addChunk addr).initChunk
      let obj ← pool.free.first
      return (pool.takeFirst obj, some obj)

/-- Put an object at the end of the free list. -/
def freeToEnd (free : Lib.DList ObjRef) (obj : ObjRef) : Lib.DList ObjRef :=
  match free.last with
  | some last =>
    { (free.setNext last (some obj)).setPrev obj (some last) with last := some obj }.setNext obj none
  | none => ({ free with first := some obj, last := some obj }.setNext obj none).setPrev obj none

/-- Put an object at the beginning of the free list. -/
def freeToBeginning (free : Lib.DList ObjRef) (obj : ObjRef) : Lib.DList ObjRef :=
  match free.first with
  | some first =>
    { (free.setPrev first (some obj)).setNext obj (some first) with
      first := some obj }.setPrev obj none
  | none => ({ free with first := some obj, last := some obj }.setNext obj none).setPrev obj none

/-- `nxp_free`; there is no result if an assertion fails. -/
def release (pool : NxpPool) (obj : ObjRef) : Option NxpPool :=
  if pool.inUse obj then
    let pool := { pool with inUse := Function.update pool.inUse obj false }
    if pool.chunkId obj = pool.chunk.id then
      some { pool with free := freeToEnd pool.free obj }
    else if pool.chunkId obj < pool.chunk.id then
      some { pool with free := freeToBeginning pool.free obj }
    else none
  else none

/-- `nxp_gc`: release the newest chunk if it is not the initial one and nothing of it is in
use. -/
def gc (pool : NxpPool) : NxpPool :=
  match pool.older with
  | [] => pool
  | c :: older =>
    if pool.chunk.objects.any pool.inUse then pool
    else { pool with
      chunk := c
      older := older
      free := pool.chunk.objects.foldl Lib.DList.remove pool.free }

/-- The inner loop of `nxp_iterate_allocated_objects`: the first of the `n` objects from `i` on
that is in use. -/
def scanChunk (pool : NxpPool) (c : NxpChunk) : ℕ → ℕ → Option ℕ
  | 0, _ => none
  | n + 1, i => if pool.inUse ⟨c.addr, i⟩ then some i else scanChunk pool c n (i + 1)

/-- A `nxp_pool_iterator`: the chunk it is at with the older ones, and the next index. -/
abbrev Iterator := List NxpChunk × ℕ

/-- `nxp_iterate_allocated_objects` on an iterator that has been started. -/
def iterate (pool : NxpPool) : List NxpChunk → ℕ → Option (ObjRef × Iterator)
  | [], _ => none
  | c :: cs, i =>
    match pool.scanChunk c (c.nitems - i) i with
    | some j => some (⟨c.addr, j⟩, c :: cs, j + 1)
    | none => pool.iterate cs 0

/-- Calling `nxp_iterate_allocated_objects` until it returns null gives these objects. -/
inductive Visits (pool : NxpPool) : Iterator → List ObjRef → Prop
  | done {cs : List NxpChunk} {i : ℕ} (h : pool.iterate cs i = none) : Visits pool (cs, i) []
  | next {cs : List NxpChunk} {i : ℕ} {obj : ObjRef} {itr : Iterator} {l : List ObjRef}
      (h : pool.iterate cs i = some (obj, itr)) (hl : Visits pool itr l) :
      Visits pool (cs, i) (obj :: l)

/-- The bytes that a chunk takes, with the guard that `nx_alloc` adds. -/
def chunkBytes (pool : NxpPool) (nitems : ℕ) : ℕ :=
  16 + nitems * pool.objectSize + 64

/-- The bytes that the chunks on the stack have been allocated with. -/
def liveBytes (pool : NxpPool) : ℕ :=
  (pool.chunks.map fun c => pool.chunkBytes c.nitems).sum

end NxpPool

/-- The address space that a process has for its data. -/
def addressSpace : ℕ := 2 ^ 47

/-- What is done to a pool. -/
inductive PoolEvent
  /-- `nxp_alloc`, with the answer of `nx_alloc` should it be asked. -/
  | alloc (mem : Option ℕ)
  /-- `nxp_free`. -/
  | free (obj : ObjRef)
  /-- `nxp_gc`. -/
  | gc
deriving DecidableEq, Repr

/-- A pool and its users. -/
structure PoolRun where
  /-- The pool. -/
  pool : NxpPool
  /-- The objects that have been given out and not freed yet. -/
  held : List ObjRef

namespace PoolRun

/-- What the memory allocator and the users do: new memory is none that is still in use and fits
into the address space, and only objects that have been given out are freed. -/
def Allowed (s : PoolRun) : PoolEvent → Prop
  | .alloc none => True
  | .alloc (some addr) =>
    addr ∉ s.pool.chunks.map NxpChunk.addr ∧
      s.pool.liveBytes + s.pool.chunkBytes s.pool.nextItems ≤ addressSpace
  | .free obj => obj ∈ s.held
  | .gc => True

instance (s : PoolRun) (e : PoolEvent) : Decidable (s.Allowed e) := by
  cases e with
  | alloc mem => cases mem <;> unfold Allowed <;> infer_instance
  | free obj => unfold Allowed; infer_instance
  | gc => unfold Allowed; infer_instance

/-- The effect of a call; none if an assertion fails or a null pointer is used. -/
def exec (s : PoolRun) : PoolEvent → Option PoolRun
  | .alloc mem => do
    let (pool, obj) ← s.pool.alloc mem
    return { pool, held := obj.toList ++ s.held }
  | .free obj => do
    let pool ← s.pool.release obj
    return { pool, held := s.held.erase obj }
  | .gc => some { s with pool := s.pool.gc }

/-- One call that may be made. -/
def step (s : PoolRun) (e : PoolEvent) : Option PoolRun :=
  if s.Allowed e then s.exec e else none

end PoolRun

end Nxweb
