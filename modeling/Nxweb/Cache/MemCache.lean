import Nxweb.Bytes
import Nxweb.Lib.DList
import Nxweb.Lib.Machine
import Mathlib.Data.List.AList

/-!
# The memory cache

The cache of `cache.c`, which keeps the contents of small files for all threads. A record is in
the hash table, under the key that is embedded in it, and on a list that is ordered by last use.
A request that sends the content of a record holds a reference to it, and a record may be taken
out of the cache while requests hold it.

The hash table is a finite map. Everything between a lock and an unlock of the mutex is one step;
`nxweb_cache_store_response` is two of them, with the reading of the file in between. Memory is
the set of records that are allocated; the address of a record that was freed may be used again.
-/

namespace Nxweb

/-- The limit that `cache_check_size` enforces. -/
def maxCachedItems : ℕ := 500

/-- How long a record is valid, in microseconds. -/
def defaultCachedTime : ℕ := 30000000

/-- What a response takes from a record. -/
structure CachedContent where
  /-- The bytes of the file. -/
  content : List UInt8
  /-- The content type, from static memory. -/
  contentType : Option (List UInt8)
  /-- The character set, from static memory. -/
  contentCharset : Option (List UInt8)
  /-- Whether the bytes are compressed. -/
  gzipEncoded : Bool
deriving DecidableEq, Repr

/-- A `nxweb_cache_rec`, without its links. -/
structure CacheRec where
  /-- The key that follows the content. -/
  key : List UInt8
  /-- The content and its description. -/
  body : CachedContent
  /-- The modification time of the file. -/
  lastModified : ℤ
  /-- Until when the record is valid. -/
  expiresTime : ℕ
  /-- The number of references. -/
  refCount : ℕ
deriving DecidableEq, Repr

/-- The global state of the cache. -/
structure MemCache where
  /-- The records in memory. -/
  recs : ℕ → CacheRec
  /-- The addresses of the records that are allocated. -/
  live : List ℕ
  /-- `_nxweb_cache_head`, `_nxweb_cache_tail`, and the links of all records. -/
  lru : Lib.DList ℕ
  /-- The hash table. -/
  table : AList fun _ : List UInt8 => ℕ

/-- Why a step of the cache has not ended. -/
inductive CacheStop
  /-- An assertion has failed. -/
  | assertion
  /-- Memory was freed that is not allocated. -/
  | badFree
  /-- A loop has not ended after the given number of rounds. -/
  | fuel
deriving DecidableEq, Repr

namespace MemCache

/-- The number of records in the table. -/
def size (c : MemCache) : ℕ :=
  c.table.entries.length

/-- Change a record. -/
def setRec (c : MemCache) (r : ℕ) (f : CacheRec → CacheRec) : MemCache :=
  { c with recs := Function.update c.recs r (f (c.recs r)) }

/-- Take one more reference to a record. -/
def ref (c : MemCache) (r : ℕ) : MemCache :=
  c.setRec r fun rec => { rec with refCount := rec.refCount + 1 }

/-- `cache_rec_link`. -/
def link (c : MemCache) (r : ℕ) : MemCache :=
  { c with lru := c.lru.pushFront r }

/-- `cache_rec_unlink`. -/
def unlink (c : MemCache) (r : ℕ) : MemCache :=
  { c with lru := c.lru.unlink r }

/-- `IS_LINKED`. -/
def isLinked (c : MemCache) (r : ℕ) : Bool :=
  (c.lru.prev r).isSome || c.lru.first = some r

/-- Delete a key from the table. -/
def del (c : MemCache) (key : List UInt8) : MemCache :=
  { c with table := c.table.erase key }

/-- `nx_free` of a record. -/
def free (c : MemCache) (r : ℕ) : Except CacheStop MemCache :=
  if r ∈ c.live then .ok { c with live := c.live.erase r } else .error .badFree

/-- The inner loop of `cache_check_size`: the last record, from `rec` to the front, that nobody
refers to. -/
def lastUnreferenced (c : MemCache) : ℕ → Option ℕ → Except CacheStop (Option ℕ)
  | _, none => .ok none
  | 0, some _ => .error .fuel
  | n + 1, some r =>
    if (c.recs r).refCount = 0 then .ok (some r) else c.lastUnreferenced n (c.lru.prev r)

/-- One record leaves the cache because it has too many. -/
def evict (c : MemCache) (r : ℕ) : Except CacheStop MemCache :=
  match c.table.lookup (c.recs r).key with
  | none => .ok c
  | some r' => if r = r' then ((c.unlink r).del (c.recs r).key).free r else .error .assertion

/-- The outer loop of `cache_check_size`, for at most the given number of rounds. -/
def checkSizeLoop : ℕ → MemCache → Except CacheStop MemCache
  | 0, c => if maxCachedItems < c.size then .error .fuel else .ok c
  | n + 1, c =>
    if maxCachedItems < c.size then
      match c.lastUnreferenced c.live.length c.lru.last with
      | .error e => .error e
      | .ok none => .ok c
      | .ok (some r) =>
        match c.evict r with
        | .error e => .error e
        | .ok c' => checkSizeLoop n c'
    else .ok c

/-- `cache_check_size`; every round of its loop takes a record out of the table. -/
def checkSize (c : MemCache) : Except CacheStop MemCache :=
  checkSizeLoop c.size c

/-- The part of `cache_rec_unref` before `cache_check_size`: give a reference back. -/
def unrefRec (c : MemCache) (r now : ℕ) : Except CacheStop MemCache :=
  if (c.recs r).refCount = 0 then .error .assertion
  else
    let c := c.setRec r fun rec => { rec with refCount := rec.refCount - 1 }
    if (c.recs r).refCount = 0 ∧ ((c.recs r).expiresTime < now ∨ c.isLinked r = false) then
      if c.table.lookup (c.recs r).key = some r then ((c.del (c.recs r).key).unlink r).free r
      else c.free r
    else .ok c

/-- `cache_rec_unref`. -/
def unref (c : MemCache) (r now : ℕ) : Except CacheStop MemCache :=
  match c.unrefRec r now with
  | .ok c' => c'.checkSize
  | .error e => .error e

/-- The answer of `nxweb_cache_try`. -/
inductive TryResult
  /-- `NXWEB_MISS`. -/
  | miss
  /-- `NXWEB_REVALIDATE`. -/
  | revalidate
  /-- `NXWEB_OK` with a 304 response. -/
  | notModified
  /-- `NXWEB_OK` with the content of a record, which the request then holds. -/
  | found (r : ℕ)
deriving DecidableEq, Repr

/-- Extend the validity of a record that the file has not changed since. -/
def revalidate (c : MemCache) (r : ℕ) (mtime : ℤ) (now : ℕ) : MemCache :=
  if (c.recs r).lastModified = mtime then
    c.setRec r fun rec => { rec with expiresTime := (now + defaultCachedTime) % 2 ^ 64 }
  else c

/-- Move a record to the front of the list. -/
def touch (c : MemCache) (r : ℕ) : MemCache :=
  if c.lru.first = some r then c else (c.unlink r).link r

/-- Take an expired record out of the cache, and free it if nobody holds it. -/
def expire (c : MemCache) (key : List UInt8) (r : ℕ) : Except CacheStop MemCache :=
  let c := (c.del key).unlink r
  if (c.recs r).refCount = 0 then c.free r else .ok c

/-- `nxweb_cache_try`. -/
def tryKey (c : MemCache) (key : List UInt8) (ifModifiedSince mtime : ℤ) (now : ℕ) :
    Except CacheStop (TryResult × MemCache) :=
  if key.head? = some 32 ∨ key.head? = some 42 then .ok (.miss, c)
  else
    match c.table.lookup key with
    | none => .ok (.miss, c)
    | some r =>
      let c := c.revalidate r mtime now
      if now ≤ (c.recs r).expiresTime then
        let c := c.touch r
        if ifModifiedSince ≠ 0 ∧ (c.recs r).lastModified ≤ ifModifiedSince then
          .ok (.notModified, c)
        else .ok (.found r, c.ref r)
      else if mtime = 0 then .ok (.revalidate, c)
      else
        match c.expire key r with
        | .ok c => .ok (.miss, c)
        | .error e => .error e

/-- What `nxweb_cache_store_response` looks at in a response, with the result of reading the
file. -/
structure StoreRequest where
  /-- The status of the response, zero if not set yet. -/
  statusCode : ℕ
  /-- Whether the content comes from a file. -/
  hasSendfilePath : Bool
  /-- The length of the content. -/
  contentLength : ℤ
  /-- Where the part of the file begins. -/
  sendfileOffset : ℤ
  /-- Where the part of the file ends. -/
  sendfileEnd : ℤ
  /-- The size of the file, zero if not known. -/
  stSize : ℤ
  /-- The modification time of the file. -/
  lastModified : ℤ
  /-- The key to store the content under. -/
  cacheKey : List UInt8
  /-- The content that is read and its description; none if the file cannot be read. -/
  body : Option CachedContent
deriving DecidableEq, Repr

/-- The response may be stored: it is a small, whole file, and there is room. -/
def StoreRequest.cacheable (resp : StoreRequest) (c : MemCache) : Bool :=
  (resp.statusCode = 0 || resp.statusCode = 200) && resp.hasSendfilePath &&
    0 ≤ resp.contentLength && resp.contentLength ≤ 32768 && resp.sendfileOffset = 0 &&
    resp.sendfileEnd = resp.contentLength && resp.stSize ≤ resp.sendfileEnd &&
    c.size < maxCachedItems + 16

/-- A new record at the given address, not linked and without references. -/
def newRec (c : MemCache) (addr : ℕ) (rec : CacheRec) : MemCache :=
  { c with
    recs := Function.update c.recs addr rec
    live := addr :: c.live
    lru := (c.lru.setNext addr none).setPrev addr none }

/-- The first part of `nxweb_cache_store_response`. It answers with what `nxweb_cache_try` has
found, or with `miss`; the address is that of a new record that is to be stored. -/
def storeBegin (c : MemCache) (resp : StoreRequest) (now addr : ℕ) :
    Except CacheStop (TryResult × Option ℕ × MemCache) :=
  if resp.cacheable c then
    match c.tryKey resp.cacheKey 0 resp.lastModified now with
    | .error e => .error e
    | .ok (.miss, c) =>
      match resp.body with
      | none => .ok (.miss, none, c)
      | some body =>
        let expiresTime := (now + defaultCachedTime) % 2 ^ 64
        .ok (.miss, some addr, c.newRec addr
          { key := resp.cacheKey, body, lastModified := resp.lastModified, expiresTime,
            refCount := 0 })
    | .ok (r, c) => .ok (r, none, c)
  else .ok (.miss, none, c)

/-- The address is free when `nxweb_cache_store_response` allocates a record, behind
`nxweb_cache_try`. It may be that of a record which this call has found expired and freed. -/
def freeFor (c : MemCache) (resp : StoreRequest) (now addr : ℕ) : Bool :=
  (c.tryKey resp.cacheKey 0 resp.lastModified now).toOption.all fun p => addr ∉ p.2.live

/-- The second part of `nxweb_cache_store_response`: put a new record into the table, or use the
one that is there by now. The result has the record that the request then holds. The table may
have no place for a new key. -/
def storeEnd (c : MemCache) (r : ℕ) (place : Bool) : Except CacheStop (Option ℕ × MemCache) :=
  let key := (c.recs r).key
  match c.table.lookup key with
  | some r' =>
    match c.free r with
    | .ok c => .ok (some r', c.ref r')
    | .error e => .error e
  | none =>
    if place then
      match (({ c with table := c.table.insert key r }.link r).ref r).checkSize with
      | .ok c => .ok (some r, c)
      | .error e => .error e
    else
      match c.free r with
      | .ok c => .ok (none, c)
      | .error e => .error e

end MemCache

/-- The cache and the requests that use it. -/
structure CacheRun (χ : Type*) where
  /-- The cache. -/
  cache : MemCache
  /-- The records that requests hold, to be given back by `cache_rec_unref`. -/
  holds : List (χ × ℕ)
  /-- The new records that requests are about to put into the cache. -/
  pending : List (χ × ℕ)

/-- What requests do with the cache. -/
inductive CacheEvent (χ : Type*)
  /-- `nxweb_cache_try`. -/
  | tryKey (conn : χ) (key : List UInt8) (ifModifiedSince mtime : ℤ) (now : ℕ)
  /-- The first part of `nxweb_cache_store_response`; a new record would be put at `addr`. -/
  | storeBegin (conn : χ) (resp : MemCache.StoreRequest) (now addr : ℕ)
  /-- The second part of `nxweb_cache_store_response`. -/
  | storeEnd (conn : χ) (place : Bool)
  /-- `cache_rec_unref`. -/
  | unref (conn : χ) (now : ℕ)
deriving DecidableEq, Repr

namespace CacheRun

variable {χ : Type*} [DecidableEq χ]

/-- The request neither holds a record nor is about to store one. -/
def Idle (s : CacheRun χ) (conn : χ) : Prop :=
  conn ∉ s.holds.map Prod.fst ∧ conn ∉ s.pending.map Prod.fst

instance (s : CacheRun χ) (conn : χ) : Decidable (s.Idle conn) := by
  unfold Idle
  infer_instance

/-- The record of a request in a list of such. -/
def recOf (l : List (χ × ℕ)) (conn : χ) : Option ℕ :=
  (l.find? (·.1 = conn)).map Prod.snd

/-- When requests make the calls. A request looks its response up before it has one, and stores its
response once; `cache_rec_unref` is its finalizer. Memory that is allocated is not in use. -/
def Allowed (s : CacheRun χ) : CacheEvent χ → Prop
  | .tryKey conn _ _ _ _ => s.Idle conn
  | .storeBegin conn resp now addr => s.Idle conn ∧ s.cache.freeFor resp now addr = true
  | .storeEnd conn _ => conn ∈ s.pending.map Prod.fst
  | .unref conn _ => conn ∈ s.holds.map Prod.fst

instance (s : CacheRun χ) (e : CacheEvent χ) : Decidable (s.Allowed e) := by
  cases e <;> unfold Allowed <;> infer_instance

/-- The request holds the record that `nxweb_cache_try` has found. -/
def hold (s : CacheRun χ) (conn : χ) (c : MemCache) : MemCache.TryResult → CacheRun χ
  | .found r => { s with cache := c, holds := (conn, r) :: s.holds }
  | _ => { s with cache := c }

/-- The effect of a call. -/
def exec (s : CacheRun χ) : CacheEvent χ → Except CacheStop (CacheRun χ)
  | .tryKey conn key ifModifiedSince mtime now =>
    match s.cache.tryKey key ifModifiedSince mtime now with
    | .ok (res, c) => .ok (s.hold conn c res)
    | .error e => .error e
  | .storeBegin conn resp now addr =>
    match s.cache.storeBegin resp now addr with
    | .ok (_, some r, c) => .ok { s with cache := c, pending := (conn, r) :: s.pending }
    | .ok (res, none, c) => .ok (s.hold conn c res)
    | .error e => .error e
  | .storeEnd conn place =>
    match recOf s.pending conn with
    | none => .ok s
    | some r =>
      let s := { s with pending := s.pending.erase (conn, r) }
      match s.cache.storeEnd r place with
      | .ok (some r', c) => .ok { s with cache := c, holds := (conn, r') :: s.holds }
      | .ok (none, c) => .ok { s with cache := c }
      | .error e => .error e
  | .unref conn now =>
    match recOf s.holds conn with
    | none => .ok s
    | some r =>
      match s.cache.unref r now with
      | .ok c => .ok { s with cache := c, holds := s.holds.erase (conn, r) }
      | .error e => .error e

/-- One call that may be made. -/
def step (s : CacheRun χ) (e : CacheEvent χ) : Option (CacheRun χ) :=
  if s.Allowed e then (s.exec e).toOption else none

/-- The empty cache. -/
def init (recs : ℕ → CacheRec) : CacheRun χ where
  cache :=
    { recs, live := [], lru := ⟨fun _ => none, fun _ => none, none, none⟩, table := ∅ }
  holds := []
  pending := []

end CacheRun

end Nxweb
