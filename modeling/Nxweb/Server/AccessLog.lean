import Nxweb.Lib.Machine

/-!
# The access log

Model of `access_log.c`, for one network thread. The thread collects the records of its requests in
a block of memory. The block is handed to `write()` when the next record does not fit into it, and
when the loop collects its garbage.

A record is made of fragments, the last one first. A read or a write outside the block is a fault, as
is an assertion that fails, after which nothing is known (`none`). What `nx_alloc` returns has
arbitrary contents.

## Main definitions

* `threadFlush`, `accessLogWrite`: the functions of the log;
* `recordBytes`: what a record should look like.
-/

namespace Nxweb

/-- `NXWEB_ACCESS_LOG_BLOCK_SIZE`. -/
def accessLogBlockSize : ℕ := 32768

/-- `nxweb_log_fragment`; its length is an `int`. -/
structure LogFragment where
  content : List UInt8
  length_lt : content.length < 2 ^ 31

/-- A block of memory for records. -/
structure LogBlock where
  bytes : List UInt8
  length_eq : bytes.length = accessLogBlockSize

/-- Bytes are copied to an offset of the block. -/
def LogBlock.copy (block : LogBlock) (p : ℕ) (data : List UInt8) : Option LogBlock :=
  if h : p + data.length ≤ accessLogBlockSize then
    some ⟨block.bytes.take p ++ data ++ block.bytes.drop (p + data.length), by
      have hlength := block.length_eq
      simp only [List.length_append, List.length_take, List.length_drop]
      omega⟩
  else none

/-- The fields of `nxweb_net_thread_data` for the log, and the blocks that have been flushed:
whether the file could be locked, and the bytes. -/
structure AccessLogThread where
  block : Option LogBlock
  avail : ℤ
  /-- `access_log_block_ptr`, as an offset of the block. -/
  ptr : ℕ
  flushes : List (Bool × List UInt8)

/-- What has been handed to `write()`. -/
def AccessLogThread.written (t : AccessLogThread) : List UInt8 :=
  ((t.flushes.filter Prod.fst).map Prod.snd).flatten

/-- The bytes of the block that have been filled. -/
def AccessLogThread.pending (t : AccessLogThread) : List UInt8 :=
  match t.block with
  | none => []
  | some block => block.bytes.take t.ptr

/-- `nxweb_access_log_thread_flush`. The log file is open and can be locked, or it is not. -/
def threadFlush (locked : Bool) (t : AccessLogThread) : Option AccessLogThread :=
  let size := accessLogBlockSize - t.avail
  match t.block with
  | none => some t
  | some block =>
    -- the assertion, and the bounds of what `write()` reads
    if 0 < size ∧ size ≤ accessLogBlockSize then
      some { t with block := none, flushes := t.flushes ++ [(locked, block.bytes.take size.toNat)] }
    else none

/-- `rec_size`, an `int`. -/
def recSize (frags : List LogFragment) : ℤ :=
  frags.foldl (fun n frag => (n + (frag.content.length + 1)).bmod (2 ^ 32)) 0

/-- A block that is being filled. -/
structure LogCursor where
  block : LogBlock
  ptr : ℕ
  avail : ℤ

/-- A fragment with the space behind it. -/
def LogCursor.put (cur : LogCursor) (frag : LogFragment) : Option LogCursor := do
  let block ← cur.block.copy cur.ptr frag.content
  let ptr := cur.ptr + frag.content.length
  let block ← block.copy ptr [32]
  some ⟨block, ptr + 1, cur.avail - (frag.content.length + 1)⟩

/-- The fragments, the first one first, and the line end in place of the last space. -/
def LogCursor.putRecord (cur : LogCursor) (frags : List LogFragment) : Option LogCursor := do
  let cur ← frags.reverse.foldlM LogCursor.put cur
  if cur.avail < 0 ∨ cur.ptr = 0 then none
  else
    let block ← cur.block.copy (cur.ptr - 1) [10]
    some { cur with block }

/-- Where a record goes that needs so much room: the old block is flushed if it has less. -/
def roomFor (locked : Bool) (recSize : ℤ) (t : AccessLogThread) : Option AccessLogThread :=
  if t.avail < recSize then do
    let t ← threadFlush locked t
    if t.block.isSome then none else some t
  else some t

/-- The block, or a new one. -/
def AccessLogThread.cursor (t : AccessLogThread) (fresh : LogBlock) : LogCursor :=
  match t.block with
  | none => ⟨fresh, 0, accessLogBlockSize⟩
  | some block => ⟨block, t.ptr, t.avail⟩

/-- `nxweb_access_log_write`, with what `nx_alloc` returns. -/
def accessLogWrite (locked : Bool) (fresh : LogBlock) (frags : List LogFragment)
    (t : AccessLogThread) : Option AccessLogThread :=
  if frags = [] then some t
  else
    -- `MAX_FRAGS`
    let frags := frags.take 100
    if accessLogBlockSize ≤ recSize frags then some t
    else do
      let t ← roomFor locked (recSize frags) t
      let cur ← (t.cursor fresh).putRecord frags
      some { t with block := some cur.block, ptr := cur.ptr, avail := cur.avail }

/-- What happens to the log. -/
inductive AccessLogEvent where
  | write (locked : Bool) (fresh : LogBlock) (frags : List LogFragment)
  | flush (locked : Bool)

/-- Whether the log file can be locked then. -/
def AccessLogEvent.locked : AccessLogEvent → Bool
  | .write locked _ _ => locked
  | .flush locked => locked

/-- A call. -/
def accessLogStep (t : AccessLogThread) : AccessLogEvent → Option AccessLogThread
  | .write locked fresh frags => accessLogWrite locked fresh frags t
  | .flush locked => threadFlush locked t

/-- A thread that has no block yet. The other fields have not been written. -/
def AccessLogThread.init (avail : ℤ) (ptr : ℕ) : AccessLogThread := ⟨none, avail, ptr, []⟩

/-! ### What the log is for -/

/-- A record as a line of the log. -/
def recordBytes (frags : List LogFragment) : List UInt8 :=
  [32].intercalate (frags.reverse.map LogFragment.content) ++ [10]

/-- The size of a record. -/
def recordSize (frags : List LogFragment) : ℕ :=
  (frags.map fun frag => frag.content.length + 1).sum

/-- The records of calls that fit into a block. -/
def AccessLogEvent.record : AccessLogEvent → Option (List UInt8)
  | .write _ _ frags =>
    if frags ≠ [] ∧ recordSize frags < accessLogBlockSize then some (recordBytes frags) else none
  | .flush _ => none

/-- There are no more fragments than the log takes. -/
def AccessLogEvent.Few : AccessLogEvent → Prop
  | .write _ _ frags => frags.length ≤ 100
  | .flush _ => True

/-- The size of the record is an `int`. -/
def AccessLogEvent.Fits : AccessLogEvent → Prop
  | .write _ _ frags => recordSize frags < 2 ^ 31
  | .flush _ => True

/-- The calls return, and what has been written or is pending are the records. -/
def LogComplete (events : List AccessLogEvent) : Prop :=
  ∃ t, Lib.run accessLogStep (.init 0 0) events = some t ∧
    t.written ++ t.pending = (events.filterMap AccessLogEvent.record).flatten

/-- Blocks and what is pending are made of whole records. -/
def WholeRecords (blocks : List (List UInt8)) (pending : List UInt8)
    (records : List (List UInt8)) : Prop :=
  ∃ (groups : List (List (List UInt8))) (last : List (List UInt8)),
    blocks = groups.map List.flatten ∧ pending = last.flatten ∧ records = groups.flatten ++ last

end Nxweb
