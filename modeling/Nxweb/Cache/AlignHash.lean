import Nxweb.Lib.Machine
import Nxweb.Lib.OpenAddressing
import Mathlib.Data.List.AList

/-!
# The hash table

Model of `alignhash_tpl.h`, the table behind the memory cache and the MIME types. Collisions are
resolved by linear probing, and two flags for each bucket, packed into words of 32 bits, say whether
the bucket is empty and whether its element has been deleted. A table that is resized is not copied:
its elements are moved inside the same arrays, and an element that is in the way of another one is
moved next.

An access outside of the arrays, or to a key or a value that has not been written, has no result. So
have loops that need more turns than there are buckets.
-/

namespace Nxweb

open Lib

/-! ### Flags -/

/-- `((i) & 0xfU) << 1`. -/
def ahShift (i : ℕ) : ℕ := (i &&& 0xf) <<< 1

/-- `AH_ISDEL`. -/
def ahIsDel (flags : List (BitVec 32)) (i : ℕ) : Option Bool :=
  flags[i >>> 4]?.map fun w : BitVec 32 => (w >>> ahShift i) &&& 1 != 0

/-- `AH_ISEMPTY`. -/
def ahIsEmpty (flags : List (BitVec 32)) (i : ℕ) : Option Bool :=
  flags[i >>> 4]?.map fun w : BitVec 32 => (w >>> ahShift i) &&& 2 != 0

/-- `AH_ISEITHER`. -/
def ahIsEither (flags : List (BitVec 32)) (i : ℕ) : Option Bool :=
  flags[i >>> 4]?.map fun w : BitVec 32 => (w >>> ahShift i) &&& 3 != 0

/-- A change to the word with the flags of a bucket. -/
def ahChange (flags : List (BitVec 32)) (i : ℕ) (f : BitVec 32 → BitVec 32) :
    Option (List (BitVec 32)) :=
  flags[i >>> 4]?.map fun w => flags.set (i >>> 4) (f w)

/-- `AH_CLEAR_EMPTY`. -/
def ahClearEmpty (flags : List (BitVec 32)) (i : ℕ) : Option (List (BitVec 32)) :=
  ahChange flags i fun w => w &&& ~~~(2#32 <<< ahShift i)

/-- `AH_CLEAR_BOTH`. -/
def ahClearBoth (flags : List (BitVec 32)) (i : ℕ) : Option (List (BitVec 32)) :=
  ahChange flags i fun w => w &&& ~~~(3#32 <<< ahShift i)

/-- `AH_SET_DEL`. -/
def ahSetDel (flags : List (BitVec 32)) (i : ℕ) : Option (List (BitVec 32)) :=
  ahChange flags i fun w => w ||| 1#32 <<< ahShift i

/-- `AH_FLAGS_BYTE`. -/
def ahFlagsByte (nb : ℕ) : ℕ := if nb < 16 then 4 else nb >>> 2

/-- Flags that are filled with `0xaa`. -/
def ahFreshFlags (nb : ℕ) : List (BitVec 32) := List.replicate (ahFlagsByte nb / 4) 0xaaaaaaaa

/-- The flags of a bucket: whether it is empty, and whether its element has been deleted. -/
def ahFlags (flags : List (BitVec 32)) (i : ℕ) : Option (Bool × Bool) :=
  flags[i >>> 4]?.map fun w => (w.getLsbD (ahShift i + 1), w.getLsbD (ahShift i))

section Flags

theorem getLsbD_two (b : ℕ) : (2#32).getLsbD b = decide (b = 1) := by
  rw [show (2#32) = 1#32 <<< 1 by decide, BitVec.getLsbD_shiftLeft, BitVec.getLsbD_one]
  rcases b with _ | _ | b <;> simp

theorem getLsbD_three (b : ℕ) : (3#32).getLsbD b = decide (b < 2) := by
  rw [show (3#32) = 1#32 ||| 2#32 by decide, BitVec.getLsbD_or, getLsbD_two, BitVec.getLsbD_one]
  grind

theorem and_one_bne (w : BitVec 32) : (w &&& 1 != 0) = w.getLsbD 0 := by
  have hand : w &&& 1 = if w.getLsbD 0 then 1 else 0 := by
    ext b hb
    simp
    grind
  grind

theorem and_two_bne (w : BitVec 32) : (w &&& 2 != 0) = w.getLsbD 1 := by
  have hand : w &&& 2 = if w.getLsbD 1 then 2 else 0 := by
    ext b hb
    have := getLsbD_two b
    simp [← BitVec.getLsbD_eq_getElem]
    grind
  grind

theorem and_three_bne (w : BitVec 32) : (w &&& 3 != 0) = (w.getLsbD 1 || w.getLsbD 0) := by
  have hand : w &&& 3 = (w &&& 2) ||| (w &&& 1) := by
    rw [← BitVec.and_or_distrib_left]
    rfl
  have h₁ := and_one_bne w
  have h₂ := and_two_bne w
  rw [← h₁, ← h₂, hand]
  grind

variable {flags : List (BitVec 32)} {i : ℕ}

theorem ahShift_eq (i : ℕ) : ahShift i = 2 * (i % 16) := by
  rw [ahShift, Nat.and_two_pow_sub_one_eq_mod i 4, Nat.shiftLeft_eq, mul_comm]

theorem ahIsDel_eq : ahIsDel flags i = (ahFlags flags i).map Prod.snd := by
  rw [ahIsDel, ahFlags, Option.map_map]
  congr 1
  ext w
  rw [and_one_bne, BitVec.getLsbD_ushiftRight]
  rfl

theorem ahIsEmpty_eq : ahIsEmpty flags i = (ahFlags flags i).map Prod.fst := by
  rw [ahIsEmpty, ahFlags, Option.map_map]
  congr 1
  ext w
  rw [and_two_bne, BitVec.getLsbD_ushiftRight]
  rfl

theorem ahIsEither_eq : ahIsEither flags i = (ahFlags flags i).map fun f => f.1 || f.2 := by
  rw [ahIsEither, ahFlags, Option.map_map]
  congr 1
  ext w
  rw [and_three_bne, BitVec.getLsbD_ushiftRight, BitVec.getLsbD_ushiftRight]
  rfl

/-- The flags of one bucket have changed to `f`. -/
structure AhChanged (flags : List (BitVec 32)) (i : ℕ) (f : Bool × Bool)
    (flags' : List (BitVec 32)) : Prop where
  length : flags'.length = flags.length
  at_eq : ahFlags flags' i = some f
  at_ne : ∀ j ≠ i, ahFlags flags' j = ahFlags flags j

/-- A change to the two bits of a bucket changes the flags of no other one. -/
theorem ahChange_spec {f f' : Bool × Bool} {g : BitVec 32 → BitVec 32}
    (h : ahFlags flags i = some f)
    (hframe : ∀ w b, b ≠ ahShift i → b ≠ ahShift i + 1 → (g w).getLsbD b = w.getLsbD b)
    (hval : ∀ w : BitVec 32, (w.getLsbD (ahShift i + 1), w.getLsbD (ahShift i)) = f →
      ((g w).getLsbD (ahShift i + 1), (g w).getLsbD (ahShift i)) = f') :
    ∃ flags', ahChange flags i g = some flags' ∧ AhChanged flags i f' flags' := by
  obtain ⟨w, hw, hf⟩ := Option.map_eq_some_iff.mp h
  obtain ⟨hlt, -⟩ := List.getElem?_eq_some_iff.mp hw
  refine ⟨flags.set (i >>> 4) (g w), by rw [ahChange, hw]; rfl, ?_, ?_, fun j hj => ?_⟩
  · rw [List.length_set]
  · rw [ahFlags, List.getElem?_set_self hlt, Option.map_some, hval w hf]
  · by_cases hword : i >>> 4 = j >>> 4
    · -- the bits of the other bucket are in the same word
      have hshift : ahShift j ≠ ahShift i := by
        rw [ahShift_eq, ahShift_eq]
        simp only [Nat.shiftRight_eq_div_pow] at hword
        omega
      have hparity : ahShift j ≠ ahShift i + 1 ∧ ahShift j + 1 ≠ ahShift i := by
        rw [ahShift_eq, ahShift_eq]
        omega
      rw [ahFlags, ahFlags, ← hword, List.getElem?_set_self hlt, hw, Option.map_some,
        Option.map_some, hframe w _ hshift hparity.1, hframe w _ hparity.2 (by omega)]
    · rw [ahFlags, ahFlags, List.getElem?_set_ne hword]

theorem ahClearEmpty_spec {f : Bool × Bool} (h : ahFlags flags i = some f) :
    ∃ flags', ahClearEmpty flags i = some flags' ∧ AhChanged flags i (false, f.2) flags' := by
  have hlt : ahShift i + 1 < 32 := by
    rw [ahShift_eq]
    omega
  refine ahChange_spec h (fun w b hb hb' => ?_) fun w hw => ?_
  · have := getLsbD_two (b - ahShift i)
    by_cases hb32 : b < 32
    · simp
      grind
    · simp [BitVec.getLsbD_of_ge _ _ (not_lt.mp hb32)]
  · rw [← hw]
    simp
    grind

theorem ahClearBoth_spec {f : Bool × Bool} (h : ahFlags flags i = some f) :
    ∃ flags', ahClearBoth flags i = some flags' ∧ AhChanged flags i (false, false) flags' := by
  have hlt : ahShift i + 1 < 32 := by
    rw [ahShift_eq]
    omega
  refine ahChange_spec h (fun w b hb hb' => ?_) fun w hw => ?_
  · have := getLsbD_three (b - ahShift i)
    by_cases hb32 : b < 32
    · simp
      grind
    · simp [BitVec.getLsbD_of_ge _ _ (not_lt.mp hb32)]
  · simp

theorem ahSetDel_spec {f : Bool × Bool} (h : ahFlags flags i = some f) :
    ∃ flags', ahSetDel flags i = some flags' ∧ AhChanged flags i (f.1, true) flags' := by
  have hlt : ahShift i + 1 < 32 := by
    rw [ahShift_eq]
    omega
  refine ahChange_spec h (fun w b hb hb' => ?_) fun w hw => ?_
  · by_cases hb32 : b < 32
    · simp
      grind
    · simp [BitVec.getLsbD_of_ge _ _ (not_lt.mp hb32)]
  · rw [← hw]
    simp
    grind

/-- The buckets of fresh flags are empty. -/
theorem ahFlags_fresh {p : ℕ} (h : i < 2 ^ p) :
    ahFlags (ahFreshFlags (2 ^ p)) i = some (true, false) := by
  have hword : i >>> 4 < ahFlagsByte (2 ^ p) / 4 := by
    rw [ahFlagsByte, Nat.shiftRight_eq_div_pow, Nat.shiftRight_eq_div_pow]
    split_ifs with hsmall
    · omega
    · obtain ⟨q, rfl⟩ : ∃ q, p = q + 4 := by
        refine Nat.exists_eq_add_of_le' ?_
        by_contra! hlt
        exact hsmall (Nat.pow_lt_pow_right one_lt_two hlt)
      rw [pow_add] at h ⊢
      omega
  have hbits : ∀ k < 16, ((0xaaaaaaaa#32).getLsbD (2 * k + 1), (0xaaaaaaaa#32).getLsbD (2 * k)) =
      (true, false) := by decide
  rw [ahFlags, ahFreshFlags, List.getElem?_replicate_of_lt hword, Option.map_some, ahShift_eq]
  exact congrArg some (hbits _ (Nat.mod_lt _ (by omega)))

end Flags

/-! ### Tables -/

/-- What `alignhash_set` says about the element. -/
inductive AhIns where
  | err
  | new
  | del
  deriving DecidableEq, Repr

/-- Which allocations of a resize succeed. -/
structure AhMemory where
  flags : Bool
  keys : Bool
  vals : Bool
  deriving DecidableEq, Repr

/-- `alignhash_t`. -/
structure AlignHash (K V : Type) where
  nbucket : ℕ
  /-- The number of elements. -/
  size : ℕ
  /-- The number of buckets that are not empty. -/
  nused : ℕ
  /-- The number of such buckets from which on the table is resized. -/
  sup : ℕ
  flags : List (BitVec 32)
  keys : List (Option K)
  vals : List (Option V)
  deriving DecidableEq, Repr

/-- `(ah_size_t)(n * AH_LOAD_FACTOR + 0.5)`, for the load factor of linear probing. -/
def ahSup (n : ℕ) : ℕ := (n + 1) / 2

/-- `realloc` of an array. -/
def ahRealloc {α : Type} (n : ℕ) (l : List (Option α)) : List (Option α) :=
  l.take n ++ List.replicate (n - l.length) none

section Operations

variable {K V : Type} [DecidableEq K] (hash : K → BitVec 32)

/-- `alignhash_init`. -/
def alignhashInit : AlignHash K V := ⟨0, 0, 0, 0, [], [], []⟩

/-- `l[i]`, of the keys or of the values. -/
def ahLoad {α : Type} (l : List (Option α)) (i : ℕ) : Option α := l[i]?.join

/-- The condition of the loops of `alignhash_get` and `alignhash_set`. -/
def AlignHash.goesOn (h : AlignHash K V) (key : K) (i : ℕ) : Option Bool := do
  if ← ahIsEmpty h.flags i then some false
  else if ← ahIsDel h.flags i then some true
  else (ahLoad h.keys i).map fun k => decide (k ≠ key)

/-- The loop of `alignhash_get`. -/
def AlignHash.getLoop (h : AlignHash K V) (key : K) (last : ℕ) : ℕ → ℕ → Option ℕ
  | 0, _ => none
  | fuel + 1, i => do
    if ← h.goesOn key i then
      let i := (i + 1) &&& (h.nbucket - 1)
      if i = last then some h.nbucket else h.getLoop key last fuel i
    else some (if ← ahIsEmpty h.flags i then h.nbucket else i)

/-- `alignhash_get`. -/
def alignhashGet (h : AlignHash K V) (key : K) : Option ℕ :=
  if h.nbucket ≠ 0 then
    let i := (hash key).toNat &&& (h.nbucket - 1)
    h.getLoop key i h.nbucket i
  else some 0

/-- The arrays of a table that is being resized. -/
structure AhMove (K V : Type) where
  /-- `h->flags`: a bucket whose element has been moved is deleted. -/
  flags : List (BitVec 32)
  newFlags : List (BitVec 32)
  keys : List (Option K)
  vals : List (Option V)
  deriving DecidableEq, Repr

/-- The search for an empty bucket. -/
def ahProbeFree (newFlags : List (BitVec 32)) (mask : ℕ) : ℕ → ℕ → Option ℕ
  | 0, _ => none
  | fuel + 1, i => do
    if ← ahIsEmpty newFlags i then some i else ahProbeFree newFlags mask fuel ((i + 1) &&& mask)

/-- `l[i] = a`. -/
def ahStore {α : Type} (l : List (Option α)) (i : ℕ) (a : α) : Option (List (Option α)) :=
  if i < l.length then some (l.set i (some a)) else none

/-- The `for (;;)` of `alignhash_resize`: an element is put into its bucket, and so are those that
have been in its way. -/
def ahKickLoop (nbucket newNbucket : ℕ) : ℕ → AhMove K V → K → V → Option (AhMove K V)
  | 0, _, _, _ => none
  | fuel + 1, m, key, val => do
    let i ← ahProbeFree m.newFlags (newNbucket - 1) newNbucket
      ((hash key).toNat &&& (newNbucket - 1))
    let newFlags ← ahClearEmpty m.newFlags i
    let inTheWay ← if i < nbucket then (ahIsEither m.flags i).map (!·) else some false
    if inTheWay then
      let key' ← ahLoad m.keys i
      let val' ← ahLoad m.vals i
      let keys ← ahStore m.keys i key
      let vals ← ahStore m.vals i val
      let flags ← ahSetDel m.flags i
      ahKickLoop nbucket newNbucket fuel { flags, newFlags, keys, vals } key' val'
    else
      let keys ← ahStore m.keys i key
      let vals ← ahStore m.vals i val
      some { m with newFlags, keys, vals }

/-- One turn of the loop over all buckets. -/
def ahMoveBucket (nbucket newNbucket : ℕ) (m : AhMove K V) (j : ℕ) : Option (AhMove K V) := do
  if ← ahIsEither m.flags j then some m
  else
    let key ← ahLoad m.keys j
    let val ← ahLoad m.vals j
    let flags ← ahSetDel m.flags j
    ahKickLoop hash nbucket newNbucket (nbucket + 1) { m with flags } key val

/-- The end of `alignhash_resize`, where the arrays of a smaller table are cut. -/
def ahFinish (h : AlignHash K V) (newNbucket : ℕ) (mem : AhMemory) (m : AhMove K V) :
    AlignHash K V where
  nbucket := newNbucket
  size := h.size
  nused := h.size
  sup := ahSup newNbucket
  flags := m.newFlags
  keys :=
    if decide (newNbucket < h.nbucket) && mem.keys then ahRealloc newNbucket m.keys else m.keys
  vals :=
    if decide (newNbucket < h.nbucket) && mem.vals then ahRealloc newNbucket m.vals else m.vals

/-- `alignhash_resize`: the table, and whether it has been resized. -/
def alignhashResize (h : AlignHash K V) (newNbucket : ℕ) (mem : AhMemory) :
    Option (AlignHash K V × Bool) := do
  if ahSup newNbucket ≤ h.size then some (h, false)
  else if !mem.flags then some (h, false)
  else if h.nbucket < newNbucket && !mem.keys then some (h, false)
  else
    let keys := if h.nbucket < newNbucket then ahRealloc newNbucket h.keys else h.keys
    if h.nbucket < newNbucket && !mem.vals then some ({ h with keys }, false)
    else
      let vals := if h.nbucket < newNbucket then ahRealloc newNbucket h.vals else h.vals
      let m ← (List.range h.nbucket).foldlM (ahMoveBucket hash h.nbucket newNbucket)
        { flags := h.flags, newFlags := ahFreshFlags newNbucket, keys, vals }
      some (ahFinish h newNbucket mem m, true)

/-- Where the loop of `alignhash_set` ends: at a bucket, or at the one where it has started; and the
last deleted bucket that it has seen, or `nbucket`. -/
structure AhSite where
  i : ℕ
  site : ℕ
  wrapped : Bool
  deriving DecidableEq, Repr

/-- The loop of `alignhash_set`. -/
def AlignHash.setLoop (h : AlignHash K V) (key : K) (last : ℕ) : ℕ → ℕ → ℕ → Option AhSite
  | 0, _, _ => none
  | fuel + 1, i, site => do
    if ← h.goesOn key i then
      let site := if ← ahIsDel h.flags i then i else site
      let i := (i + 1) &&& (h.nbucket - 1)
      if i = last then some { i, site, wrapped := true } else h.setLoop key last fuel i site
    else some { i, site, wrapped := false }

/-- The bucket `x` of `alignhash_set`. -/
def AlignHash.findSite (h : AlignHash K V) (key : K) : Option ℕ := do
  let i := (hash key).toNat &&& (h.nbucket - 1)
  if ← ahIsEmpty h.flags i then some i
  else
    let s ← h.setLoop key i h.nbucket i h.nbucket
    let x := if s.wrapped then s.site else h.nbucket
    if x = h.nbucket then
      if (← ahIsEmpty h.flags s.i) && s.site ≠ h.nbucket then some s.site else some s.i
    else some x

/-- `alignhash_set` behind the resize. -/
def AlignHash.insertKey (h : AlignHash K V) (key : K) : Option (AlignHash K V × ℕ × AhIns) := do
  let x ← h.findSite hash key
  if ← ahIsEmpty h.flags x then
    let keys ← ahStore h.keys x key
    let flags ← ahClearBoth h.flags x
    some ({ h with keys, flags, size := h.size + 1, nused := h.nused + 1 }, x, .new)
  else if ← ahIsDel h.flags x then
    let keys ← ahStore h.keys x key
    let flags ← ahClearBoth h.flags x
    some ({ h with keys, flags, size := h.size + 1 }, x, .del)
  else some (h, x, .err)

/-- The resize of `alignhash_set`. The product `h->nbucket * 2` is an `ah_size_t`. -/
def AlignHash.makeRoom (h : AlignHash K V) (mem : AhMemory) : Option (AlignHash K V × Bool) :=
  if h.sup ≤ h.nused then
    if h.nbucket ≠ 0 then alignhashResize hash h (h.nbucket * 2 % 2 ^ 32) mem
    else alignhashResize hash h 2 mem
  else some (h, true)

/-- `alignhash_set`: the table, the iterator, and `*ret`, which is not written if the table cannot
be resized. -/
def alignhashSet (h : AlignHash K V) (key : K) (mem : AhMemory) :
    Option (AlignHash K V × ℕ × Option AhIns) := do
  let (h, resized) ← h.makeRoom hash mem
  if resized then
    let (h, x, ret) ← h.insertKey hash key
    some (h, x, some ret)
  else some (h, h.nbucket, none)

/-- `alignhash_del`. -/
def alignhashDel (h : AlignHash K V) (x : ℕ) : Option (AlignHash K V) := do
  if x = h.nbucket then some h
  else if ← ahIsEither h.flags x then some h
  else
    let flags ← ahSetDel h.flags x
    some { h with flags, size := h.size - 1 }

/-- `alignhash_value(h, x) = v`. -/
def AlignHash.setValue (h : AlignHash K V) (x : ℕ) (v : V) : Option (AlignHash K V) :=
  (ahStore h.vals x v).map fun vals => { h with vals }

end Operations

/-! ### Uses -/

/-- What the callers do with a table. -/
inductive AhEvent (K V : Type) where
  /-- A value is stored, as `nxweb_add_mime_type` does it. -/
  | put (key : K) (value : V) (mem : AhMemory)
  /-- A value is stored unless there is one, as `nxweb_cache_store_response` does it. -/
  | add (key : K) (value : V) (mem : AhMemory)
  /-- A value is read, as `nxweb_cache_try` does it. -/
  | find (key : K)
  /-- An element is deleted, as `cache_rec_unref` does it. -/
  | del (key : K)
  deriving DecidableEq, Repr

/-- What the callers see. -/
inductive AhAnswer (V : Type) where
  | value (v : Option V)
  /-- The value that is now stored, and whether its element is new. -/
  | stored (isNew : Bool) (v : V)
  | failed
  deriving DecidableEq, Repr

section Uses

variable {K V : Type} [DecidableEq K] (hash : K → BitVec 32)

/-- One use of a table. -/
def AlignHash.use (h : AlignHash K V) : AhEvent K V → Option (AlignHash K V × AhAnswer V)
  | .put key v mem => do
    let (h, ci, ret) ← alignhashSet hash h key mem
    if ci = h.nbucket then some (h, .failed)
    else some (← h.setValue ci v, .stored (ret ≠ some .err) v)
  | .add key v mem => do
    let (h, ci, ret) ← alignhashSet hash h key mem
    if ci = h.nbucket then some (h, .failed)
    else if ret = some .err then some (h, .stored false (← ahLoad h.vals ci))
    else some (← h.setValue ci v, .stored true v)
  | .find key => do
    let ci ← alignhashGet hash h key
    if ci = h.nbucket then some (h, .value none) else some (h, .value (← ahLoad h.vals ci))
  | .del key => do
    let ci ← alignhashGet hash h key
    if ci = h.nbucket then some (h, .value none)
    else
      let v ← ahLoad h.vals ci
      some (← alignhashDel h ci, .value v)

/-- A sequence of uses. -/
def AlignHash.uses (h : AlignHash K V) :
    List (AhEvent K V) → Option (AlignHash K V × List (AhAnswer V))
  | [] => some (h, [])
  | e :: es => do
    let (h, answer) ← h.use hash e
    let (h, answers) ← h.uses es
    some (h, answer :: answers)

/-- The elements that a loop over all buckets finds, as in `cache_finalize`. -/
def AlignHash.elements (h : AlignHash K V) : Option (List (Σ _ : K, V)) :=
  (List.range h.nbucket).foldlM (fun l ci => do
    if ← ahIsEither h.flags ci then some l
    else some (l ++ [⟨← ahLoad h.keys ci, ← ahLoad h.vals ci⟩])) []

end Uses

end Nxweb
