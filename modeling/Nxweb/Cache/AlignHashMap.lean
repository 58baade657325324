import Nxweb.Cache.AlignHashResize

/-!
# The hash table is a finite map

Whatever its callers do with a table, it answers like a finite map. An element that cannot be stored
because the table cannot grow leaves the map as it is; the reason is that memory is not available,
or that the table has `2 ^ 31` buckets, which takes `2 ^ 30` elements.

## Main results

* `alignhash_refines`: the answers of a table in every sequence of uses are those of a map, and a
  loop over all buckets finds each element of the map once.
-/

namespace Nxweb

open Lib Lib.Probing

variable {K V : Type} {hash : K → BitVec 32} {h : AlignHash K V} {m : AList fun _ : K => V}

/-! ### The map of a table -/

/-- The elements of a table are those of a map. A table starts without buckets. -/
def AhMap (hash : K → BitVec 32) (h : AlignHash K V) (m : AList fun _ : K => V) : Prop :=
  (h.nbucket = 0 ∧ h.size = 0 ∧ h.nused = 0 ∧ h.sup = 0 ∧ m.entries = []) ∨
    ∃ p s, AhTable hash h p s m

theorem ahMap_init (hash : K → BitVec 32) : AhMap hash (alignhashInit : AlignHash K V) ∅ :=
  .inl ⟨rfl, rfl, rfl, rfl, rfl⟩

theorem AhMap.size (hm : AhMap hash h m) : h.size = m.entries.length := by
  obtain ⟨-, hsize, -, -, hentries⟩ | ⟨p, s, ht⟩ := hm
  · rw [hsize, hentries]
    rfl
  · exact ht.size

/-- The keys may be in a longer array than the values, if memory has not been available for these.
-/
theorem AhTable.realloc_keys {p n : ℕ} {s : ℕ → Slot K V} (ht : AhTable hash h p s m)
    (hn : 2 ^ p ≤ n) : AhTable hash { h with keys := ahRealloc n h.keys } p s m :=
  { ht with
    keys := hn.trans_eq (length_ahRealloc n h.keys).symm
    shows := fun i hi => (ht.shows i hi).congr rfl
      (getElem?_ahRealloc (hi.trans_le hn) (hi.trans_le ht.keys)) rfl }

/-- A loop over all buckets finds the elements of the map. -/
theorem AhMap.elements_eq (hm : AhMap hash h m) : ∃ l, h.elements = some l ∧ l.Perm m.entries := by
  obtain ⟨hnb, -, -, -, hentries⟩ | ⟨p, s, ht⟩ := hm
  · refine ⟨[], ?_, by rw [hentries]⟩
    rw [AlignHash.elements, hnb]
    rfl
  · refine ⟨pairs s (2 ^ p), ?_, ht.perm⟩
    rw [AlignHash.elements, ht.nbucket]
    suffices hprefix : ∀ n ≤ 2 ^ p, (List.range n).foldlM (fun l ci => do
        if ← ahIsEither h.flags ci then some l
        else some (l ++ [⟨← ahLoad h.keys ci, ← ahLoad h.vals ci⟩])) [] = some (pairs s n) from
      hprefix _ le_rfl
    intro n hn
    induction n with
    | zero => rfl
    | succ n ih =>
      have hshows := ht.shows n (by omega)
      have heither := hshows.isEither
      rw [List.range_succ, List.foldlM_append, ih (by omega), pairs_succ]
      cases hs : s n with
      | empty => simp [heither, hs]
      | deleted => simp [heither, hs]
      | used k v =>
        rw [hs] at hshows heither
        simp [heither, ahLoad, hshows.2.1, hshows.2.2]

/-- All memory is available. -/
def AhMemory.all (mem : AhMemory) : Bool := mem.flags && mem.keys && mem.vals

theorem AhTable.size_le {p : ℕ} {s : ℕ → Slot K V} (ht : AhTable hash h p s m) :
    h.size ≤ h.nused := by
  rw [ht.size, ht.nused, ← ht.perm.length_eq]
  exact length_pairs_le s (2 ^ p)

/-- A table that cannot grow is as it was. -/
theorem alignhashResize_fails (hash : K → BitVec 32) {n : ℕ} {mem : AhMemory}
    (hgrow : h.nbucket < n) (hroom : h.size < ahSup n) (hmem : mem.all = false) :
    ∃ h', alignhashResize hash h n mem = some (h', false) ∧
      (h' = h ∨ h' = { h with keys := ahRealloc n h.keys }) := by
  rw [alignhashResize, if_neg (not_le.mpr hroom)]
  cases hflags : mem.flags with
  | false => exact ⟨h, by simp, .inl rfl⟩
  | true =>
    cases hkeys : mem.keys with
    | false => exact ⟨h, by simp [hgrow], .inl rfl⟩
    | true =>
      have hvals : mem.vals = false := by simpa [AhMemory.all, hflags, hkeys] using hmem
      exact ⟨_, by simp [hgrow, hvals], .inr rfl⟩

/-- What the resize of `alignhash_set` does: there is room for one more element, or the table is as
it was. -/
theorem AhMap.makeRoom_eq (hm : AhMap hash h m) (mem : AhMemory) :
    (∃ h' p s, h.makeRoom hash mem = some (h', true) ∧ AhTable hash h' p s m ∧ h'.nused < h'.sup ∧
        h'.nused ≤ h.nused) ∨
      ∃ h', h.makeRoom hash mem = some (h', false) ∧ AhMap hash h' m ∧ h'.nused = h.nused ∧
        (mem.all = false ∨ 2 ^ 30 ≤ h.nused) := by
  obtain ⟨hnb, hsize, hnused, hsup, hentries⟩ | ⟨p, s, ht⟩ := hm
  · have hroom : h.size < ahSup (2 ^ 1) := by
      rw [hsize]
      decide
    rw [AlignHash.makeRoom, if_pos (by omega), if_neg (by omega)]
    cases hmem : mem.all with
    | true =>
      simp only [AhMemory.all, Bool.and_eq_true] at hmem
      obtain ⟨h', s', hresize, hnused', ht'⟩ := alignhashResize_eq (s := fun _ => Slot.empty)
        hash m (by omega) (by omega) (fun i hi => by omega)
        (by rw [hentries, hnb]; rfl) (by rw [hsize, hentries]; rfl) one_pos (by omega) hroom mem
        hmem.1.1 fun _ => ⟨hmem.1.2, hmem.2⟩
      refine .inl ⟨h', 1, s', hresize, ht', ?_, by omega⟩
      rw [hnused', ht'.sup]
      exact hroom
    | false =>
      obtain ⟨h', hresize, rfl | rfl⟩ :=
        alignhashResize_fails hash (by omega : h.nbucket < 2 ^ 1) hroom hmem
      · exact .inr ⟨h', hresize, .inl ⟨hnb, hsize, hnused, hsup, hentries⟩, rfl, .inl rfl⟩
      · exact .inr ⟨_, hresize, .inl ⟨hnb, hsize, hnused, hsup, hentries⟩, rfl, .inl rfl⟩
  · rw [AlignHash.makeRoom]
    by_cases hfull : h.sup ≤ h.nused
    swap
    · rw [if_neg hfull]
      exact .inl ⟨h, p, s, rfl, ht, not_le.mp hfull, le_rfl⟩
    have hpos := Nat.two_pow_pos p
    rw [if_pos hfull, if_pos (by rw [ht.nbucket]; omega), ht.nbucket]
    rcases ht.pow_le.lt_or_eq with hp | rfl
    · -- the table grows, unless memory is not available
      have hn : 2 ^ p * 2 % 2 ^ 32 = 2 ^ (p + 1) :=
        Nat.mod_eq_of_lt (Nat.pow_lt_pow_right one_lt_two (by omega : p + 1 < 32))
      have hgrow : 2 ^ p < 2 ^ (p + 1) := Nat.pow_lt_pow_succ one_lt_two
      have hroom : h.size < ahSup (2 ^ (p + 1)) := by
        rw [ahSup_two_pow]
        exact ht.size_le.trans_lt (ht.nused.trans_lt ht.busy_lt)
      rw [hn]
      cases hmem : mem.all with
      | true =>
        simp only [AhMemory.all, Bool.and_eq_true] at hmem
        obtain ⟨h', s', hresize, hnused', ht'⟩ := alignhashResize_eq hash m
          (ht.nbucket.trans_le ht.keys) (ht.nbucket.trans_le ht.vals)
          (fun i hi => ht.shows i (ht.nbucket ▸ hi)) (by rw [ht.nbucket]; exact ht.perm) ht.size
          (Nat.succ_pos p) (by omega) hroom mem hmem.1.1 fun _ => ⟨hmem.1.2, hmem.2⟩
        refine .inl ⟨h', p + 1, s', hresize, ht', ?_, hnused'.trans_le ht.size_le⟩
        rw [hnused', ht'.sup]
        exact hroom
      | false =>
        obtain ⟨h', hresize, rfl | rfl⟩ :=
          alignhashResize_fails hash (by rw [ht.nbucket]; exact hgrow) hroom hmem
        · exact .inr ⟨h', hresize, .inr ⟨p, s, ht⟩, rfl, .inl rfl⟩
        · exact .inr ⟨_, hresize, .inr ⟨p, s, ht.realloc_keys hgrow.le⟩, rfl, .inl rfl⟩
    · -- the product is zero
      refine .inr ⟨h, ?_, .inr ⟨31, s, ht⟩, rfl, .inr ?_⟩
      · rw [show 2 ^ 31 * 2 % 2 ^ 32 = 0 from rfl, alignhashResize]
        exact if_pos (Nat.zero_le _)
      · rw [ht.sup] at hfull
        exact hfull

variable [DecidableEq K]

/-- What `alignhash_set` does: an element waits for its value, or there is one already. -/
theorem AhMap.alignhashSet_eq (hm : AhMap hash h m) (key : K) (mem : AhMemory) :
    (∃ h', alignhashSet hash h key mem = some (h', h'.nbucket, none) ∧ AhMap hash h' m ∧
        h'.nused = h.nused ∧ (mem.all = false ∨ 2 ^ 30 ≤ h.nused)) ∨
      ∃ h' ci ret, alignhashSet hash h key mem = some (h', ci, some ret) ∧ ci < h'.nbucket ∧
        h'.nused ≤ h.nused + 1 ∧
        (ret = .err ∧ AhMap hash h' m ∧
            (∃ v, ahLoad h'.vals ci = some v ∧ m.lookup key = some v) ∨
          ret ≠ .err ∧ m.lookup key = none) ∧
        ∀ v, ∃ h'', h'.setValue ci v = some h'' ∧ h''.nused = h'.nused ∧
          AhMap hash h'' (m.insert key v) := by
  obtain ⟨h₁, p, s, hroom, ht, hlt, hle⟩ | ⟨h₁, hroom, hm₁, hnused, hwhy⟩ :=
    hm.makeRoom_eq mem
  · obtain ⟨h', ci, ret, hinsert, hci, hnb, hnused, hret, hvalue⟩ := ht.insertKey_eq key hlt
    refine .inr ⟨h', ci, ret, ?_, ?_, by omega, ?_, fun v => ?_⟩
    · rw [alignhashSet, hroom]
      simp [hinsert]
    · rw [hnb, ht.nbucket]
      exact hci
    · refine hret.imp_left ?_
      rintro ⟨rfl, rfl, v, hslot, hlookup⟩
      have hshows := ht.shows ci hci
      rw [hslot] at hshows
      exact ⟨rfl, .inr ⟨p, s, ht⟩, v, by rw [ahLoad, hshows.2.2]; rfl, hlookup⟩
    · obtain ⟨h'', hset, -, hnused', ht'⟩ := hvalue v
      exact ⟨h'', hset, hnused', .inr ⟨p, _, ht'⟩⟩
  · refine .inl ⟨h₁, ?_, hm₁, hnused, hwhy⟩
    rw [alignhashSet, hroom]
    simp

/-- What `alignhash_get` finds, also in a table without buckets. -/
theorem AhMap.alignhashGet_eq (hm : AhMap hash h m) (key : K) :
    ∃ ci, alignhashGet hash h key = some ci ∧
      (ci = h.nbucket ∧ m.lookup key = none ∨
        ∃ v, ci ≠ h.nbucket ∧ ahLoad h.vals ci = some v ∧ m.lookup key = some v ∧
          ∃ h', alignhashDel h ci = some h' ∧ h'.nused = h.nused ∧
            AhMap hash h' (m.erase key)) := by
  obtain ⟨hnb, -, -, -, hentries⟩ | ⟨p, s, ht⟩ := hm
  · refine ⟨0, by rw [alignhashGet, if_neg (not_not.mpr hnb)], .inl ⟨hnb.symm, ?_⟩⟩
    refine AList.lookup_eq_none.mpr fun hmem => ?_
    rw [AList.mem_keys, AList.keys, hentries] at hmem
    cases hmem
  · obtain ⟨ci, hget, hend | ⟨v, hlt, hslot, hlookup⟩⟩ := ht.alignhashGet_eq key
    · exact ⟨ci, hget, .inl hend⟩
    · have hshows := ht.shows ci hlt
      rw [hslot] at hshows
      obtain ⟨h', hdel, -, hnused, ht'⟩ := ht.alignhashDel_eq hlt hslot
      refine ⟨ci, hget, .inr ⟨v, ?_, by rw [ahLoad, hshows.2.2]; rfl, hlookup, h', hdel, hnused,
        .inr ⟨p, _, ht'⟩⟩⟩
      rw [ht.nbucket]
      exact hlt.ne

/-! ### Uses of a table -/

/-- The memory of a use. -/
def AhEvent.memory : AhEvent K V → AhMemory
  | .put _ _ mem => mem
  | .add _ _ mem => mem
  | _ => ⟨true, true, true⟩

/-- What a use does to a map. -/
def AhEvent.onMap (m : AList fun _ : K => V) :
    AhEvent K V → (AList fun _ : K => V) × AhAnswer V
  | .put key v _ => (m.insert key v, .stored (m.lookup key).isNone v)
  | .add key v _ =>
    (m.lookup key).elim (m.insert key v, .stored true v) fun v' => (m, .stored false v')
  | .find key => (m, .value (m.lookup key))
  | .del key => (m.erase key, .value (m.lookup key))

/-- The answers of a map that fails to store an element only if memory is not available, or after
`2 ^ 30` uses; there have been `n` uses before. -/
inductive MapAnswers : ℕ → (AList fun _ : K => V) → List (AhEvent K V) → List (AhAnswer V) →
    (AList fun _ : K => V) → Prop
  | nil (n : ℕ) (m : AList fun _ : K => V) : MapAnswers n m [] [] m
  | done {n : ℕ} {m m' : AList fun _ : K => V} {e : AhEvent K V} {es : List (AhEvent K V)}
      {answers : List (AhAnswer V)} (rest : MapAnswers (n + 1) (e.onMap m).1 es answers m') :
      MapAnswers n m (e :: es) ((e.onMap m).2 :: answers) m'
  | failed {n : ℕ} {m m' : AList fun _ : K => V} {e : AhEvent K V} {es : List (AhEvent K V)}
      {answers : List (AhAnswer V)} (why : e.memory.all = false ∨ 2 ^ 30 ≤ n)
      (rest : MapAnswers (n + 1) m es answers m') :
      MapAnswers n m (e :: es) (.failed :: answers) m'

theorem erase_of_lookup_eq_none {key : K} (h : m.lookup key = none) : m.erase key = m :=
  AList.ext (List.kerase_of_notMem_keys (AList.lookup_eq_none.mp h))

/-- One use of a table. -/
theorem AhMap.use_eq (hm : AhMap hash h m) (e : AhEvent K V) :
    ∃ h' answer, h.use hash e = some (h', answer) ∧ h'.nused ≤ h.nused + 1 ∧
      (answer = (e.onMap m).2 ∧ AhMap hash h' (e.onMap m).1 ∨
        answer = .failed ∧ AhMap hash h' m ∧ (e.memory.all = false ∨ 2 ^ 30 ≤ h.nused)) := by
  cases e with
  | put key v mem =>
    obtain ⟨h', hset, hm', hnused, hwhy⟩ | ⟨h', ci, ret, hset, hci, hnused, hret, hvalue⟩ :=
      hm.alignhashSet_eq key mem
    · refine ⟨h', .failed, ?_, by omega, .inr ⟨rfl, hm', hwhy⟩⟩
      simp [AlignHash.use, hset]
    · obtain ⟨h'', hstore, hnused', hm''⟩ := hvalue v
      refine ⟨h'', .stored (ret ≠ .err) v, ?_, by omega, .inl ⟨?_, hm''⟩⟩
      · simp [AlignHash.use, hset, hci.ne, hstore]
      · obtain ⟨rfl, -, v', -, hlookup⟩ | ⟨hne, hlookup⟩ := hret
        · simp [AhEvent.onMap, hlookup]
        · simp [AhEvent.onMap, hlookup, hne]
  | add key v mem =>
    obtain ⟨h', hset, hm', hnused, hwhy⟩ | ⟨h', ci, ret, hset, hci, hnused, hret, hvalue⟩ :=
      hm.alignhashSet_eq key mem
    · refine ⟨h', .failed, ?_, by omega, .inr ⟨rfl, hm', hwhy⟩⟩
      simp [AlignHash.use, hset]
    · obtain ⟨rfl, hm', v', hload, hlookup⟩ | ⟨hne, hlookup⟩ := hret
      · refine ⟨h', .stored false v', ?_, hnused, .inl ?_⟩
        · simp [AlignHash.use, hset, hci.ne, hload]
        · rw [AhEvent.onMap, hlookup]
          exact ⟨rfl, hm'⟩
      · obtain ⟨h'', hstore, hnused', hm''⟩ := hvalue v
        refine ⟨h'', .stored true v, ?_, by omega, .inl ?_⟩
        · simp [AlignHash.use, hset, hci.ne, hne, hstore]
        · rw [AhEvent.onMap, hlookup]
          exact ⟨rfl, hm''⟩
  | find key =>
    obtain ⟨ci, hget, ⟨hend, hlookup⟩ | ⟨v, hne, hload, hlookup, -⟩⟩ := hm.alignhashGet_eq key
    · refine ⟨h, .value none, ?_, Nat.le_succ _, .inl ⟨?_, hm⟩⟩
      · simp [AlignHash.use, hget, hend]
      · rw [AhEvent.onMap, hlookup]
    · refine ⟨h, .value (some v), ?_, Nat.le_succ _, .inl ⟨?_, hm⟩⟩
      · simp [AlignHash.use, hget, hne, hload]
      · rw [AhEvent.onMap, hlookup]
  | del key =>
    obtain ⟨ci, hget, ⟨hend, hlookup⟩ | ⟨v, hne, hload, hlookup, h', hdel, hnused, hm'⟩⟩ :=
      hm.alignhashGet_eq key
    · refine ⟨h, .value none, ?_, Nat.le_succ _, .inl ⟨?_, ?_⟩⟩
      · simp [AlignHash.use, hget, hend]
      · rw [AhEvent.onMap, hlookup]
      · rw [AhEvent.onMap, erase_of_lookup_eq_none hlookup]
        exact hm
    · refine ⟨h', .value (some v), ?_, by omega, .inl ⟨?_, hm'⟩⟩
      · simp [AlignHash.use, hget, hne, hload, hdel]
      · rw [AhEvent.onMap, hlookup]

/-- A sequence of uses. -/
theorem AhMap.uses_eq (hm : AhMap hash h m) {n : ℕ} (hn : h.nused ≤ n)
    (events : List (AhEvent K V)) :
    ∃ h' answers m', h.uses hash events = some (h', answers) ∧
      MapAnswers n m events answers m' ∧ AhMap hash h' m' := by
  induction events generalizing h m n with
  | nil => exact ⟨h, [], m, rfl, .nil n m, hm⟩
  | cons e es ih =>
    obtain ⟨h₁, answer, huse, hnused, ⟨rfl, hm₁⟩ | ⟨rfl, hm₁, hwhy⟩⟩ := hm.use_eq e
    · obtain ⟨h', answers, m', huses, hanswers, hm'⟩ := ih hm₁ (by omega : h₁.nused ≤ n + 1)
      exact ⟨h', _, m', by simp [AlignHash.uses, huse, huses], .done hanswers, hm'⟩
    · obtain ⟨h', answers, m', huses, hanswers, hm'⟩ := ih hm₁ (by omega : h₁.nused ≤ n + 1)
      refine ⟨h', _, m', by simp [AlignHash.uses, huse, huses], .failed ?_ hanswers, hm'⟩
      exact hwhy.imp_right hn.trans'

/-- A table answers like a finite map in every sequence of uses: no access is outside of its arrays
or to what has not been written, all loops end, an element is only not stored if memory is not
available or after `2 ^ 30` uses, the size is the number of elements, and a loop over all buckets
finds each element once. -/
theorem alignhash_refines (hash : K → BitVec 32) (events : List (AhEvent K V)) :
    ∃ h answers m elements, (alignhashInit : AlignHash K V).uses hash events = some (h, answers) ∧
      MapAnswers 0 ∅ events answers m ∧ h.size = m.entries.length ∧
      h.elements = some elements ∧ elements.Perm m.entries := by
  obtain ⟨h, answers, m, huses, hanswers, hm⟩ :=
    (ahMap_init hash).uses_eq (Nat.zero_le _) events
  obtain ⟨elements, helements, hperm⟩ := hm.elements_eq
  exact ⟨h, answers, m, elements, huses, hanswers, hm.size, helements, hperm⟩

/-- Three keys share a bucket. The first one is deleted, and the table grows before the last one. -/
example : ((alignhashInit : AlignHash ℕ ℕ).uses (fun _ => 7) [.put 1 10 ⟨true, true, true⟩,
    .put 2 20 ⟨true, true, true⟩, .del 1, .add 3 30 ⟨true, true, true⟩,
    .add 2 21 ⟨true, true, true⟩, .find 1, .find 3]).map Prod.snd =
    some [.stored true 10, .stored true 20, .value (some 10), .stored true 30, .stored false 20,
      .value none, .value (some 30)] := by
  decide +kernel

end Nxweb
