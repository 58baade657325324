import Nxweb.Cache.MemCache

/-!
# The memory cache is consistent

The invariant of the cache is stated for any count of references and any new records that are
about to be stored; each operation says how it changes them. At the level of requests the counts
are those of the requests that hold a record. A record is allocated as long as it is in the table,
held, or about to be stored, so that the record which was taken out of the cache while it was held
is freed by its last holder.
-/

namespace Nxweb

open Lib

namespace MemCache

/-- The record is in the hash table. -/
def InTable (c : MemCache) (r : ℕ) : Prop :=
  ∃ key, c.table.lookup key = some r

/-- The cache is consistent, with `refs r` references to each record `r`, and the new records
`pend`. -/
structure Inv (refs : ℕ → ℕ) (pend : List ℕ) (c : MemCache) : Prop where
  lru : ∃ l, c.lru.Holds l ∧ ∀ r, r ∈ l ↔ c.InTable r
  keyed : ∀ key r, c.table.lookup key = some r → (c.recs r).key = key
  unlinked : ∀ r ∈ c.live, ¬ c.InTable r → c.lru.prev r = none
  refCount : ∀ r ∈ c.live, (c.recs r).refCount = refs r
  live_iff : ∀ r, r ∈ c.live ↔ c.InTable r ∨ 0 < refs r ∨ r ∈ pend
  live_nodup : c.live.Nodup
  pend_nodup : pend.Nodup
  pend_new : ∀ r ∈ pend, ¬ c.InTable r ∧ refs r = 0

variable {c c' : MemCache} {refs : ℕ → ℕ} {pend : List ℕ} {r : ℕ} {key : List UInt8}

section Records

theorem Inv.live_of_inTable (h : c.Inv refs pend) (hr : c.InTable r) : r ∈ c.live :=
  (h.live_iff r).mpr (.inl hr)

/-- A record in the table is there under its own key. -/
theorem Inv.inTable_iff (h : c.Inv refs pend) :
    c.InTable r ↔ c.table.lookup (c.recs r).key = some r := by
  constructor
  · rintro ⟨key, hkey⟩
    rwa [h.keyed key r hkey]
  · intro hr
    exact ⟨_, hr⟩

/-- `IS_LINKED` tells whether a record is in the table. -/
theorem Inv.isLinked_iff (h : c.Inv refs pend) (hr : r ∈ c.live) :
    c.isLinked r = true ↔ c.InTable r := by
  obtain ⟨l, hl, hmem⟩ := h.lru
  constructor
  · intro hlinked
    by_contra hnot
    have hprev := h.unlinked r hr hnot
    have hfirst : c.lru.first = some r := by simpa [isLinked, hprev] using hlinked
    exact hnot ((hmem r).mp (hl.mem_of_first hfirst))
  · intro hin
    obtain ⟨as, bs, rfl⟩ := List.append_of_mem ((hmem r).mpr hin)
    have hprev := hl.prev_eq as r bs rfl
    cases as with
    | nil =>
      have hfirst : c.lru.first = some r := hl.first_eq
      simp [isLinked, hfirst]
    | cons a as =>
      have hsome : (c.lru.prev r).isSome := by simp [hprev]
      simp [isLinked, hsome]

/-- A change to a record that keeps its key and its count of references. -/
theorem Inv.setRec {f : CacheRec → CacheRec} (h : c.Inv refs pend)
    (hkey : ∀ rec, (f rec).key = rec.key) (hcount : ∀ rec, (f rec).refCount = rec.refCount) :
    (c.setRec r f).Inv refs pend := by
  have hfield : ∀ r', ((c.setRec r f).recs r').key = (c.recs r').key ∧
      ((c.setRec r f).recs r').refCount = (c.recs r').refCount := by
    intro r'
    by_cases hr : r' = r
    · subst hr
      simp [MemCache.setRec, hkey, hcount]
    · simp [MemCache.setRec, hr]
  exact ⟨h.lru, fun key r' hr' => (hfield r').1.trans (h.keyed key r' hr'), h.unlinked,
    fun r' hr' => (hfield r').2.trans (h.refCount r' hr'), h.live_iff, h.live_nodup, h.pend_nodup,
    h.pend_new⟩

theorem Inv.revalidate (r : ℕ) (mtime : ℤ) (now : ℕ) (h : c.Inv refs pend) :
    (c.revalidate r mtime now).Inv refs pend := by
  unfold MemCache.revalidate
  split
  next => exact h.setRec (fun _ => rfl) fun _ => rfl
  next => exact h

/-- One more reference to a record that is in the table. -/
theorem Inv.ref (h : c.Inv refs pend) (hr : c.InTable r) :
    (c.ref r).Inv (Function.update refs r (refs r + 1)) pend := by
  have hlive := h.live_of_inTable hr
  have hpend : r ∉ pend := fun hp => (h.pend_new r hp).1 hr
  refine ⟨h.lru, fun key r' hr' => ?_, h.unlinked, fun r' hr' => ?_, fun r' => ?_, h.live_nodup,
    h.pend_nodup, fun r' hr' => ⟨(h.pend_new r' hr').1, ?_⟩⟩
  · rw [← h.keyed key r' hr']
    by_cases heq : r' = r
    · subst heq
      simp [MemCache.ref, MemCache.setRec]
    · simp [MemCache.ref, MemCache.setRec, heq]
  · by_cases heq : r' = r
    · subst heq
      simp [MemCache.ref, MemCache.setRec, h.refCount r' hr']
    · simpa [MemCache.ref, MemCache.setRec, heq] using h.refCount r' hr'
  · show r' ∈ c.live ↔ c.InTable r' ∨ _
    by_cases heq : r' = r
    · subst heq
      simp [hlive, hr]
    · simpa [heq] using h.live_iff r'
  · have heq : r' ≠ r := fun heq => hpend (heq ▸ hr')
    rw [Function.update_of_ne heq]
    exact (h.pend_new r' hr').2

end Records

section Lists

/-- Moving a record of the table to the front. -/
theorem Inv.touch (h : c.Inv refs pend) (hr : c.InTable r) : (c.touch r).Inv refs pend := by
  unfold MemCache.touch
  split
  next => exact h
  next hfirst =>
    obtain ⟨l, hl, hmem⟩ := h.lru
    obtain ⟨as, bs, rfl⟩ := List.append_of_mem ((hmem r).mpr hr)
    obtain ⟨ha, hb⟩ := hl.not_mem_sides
    have hout : r ∉ as ++ bs := by simp [ha, hb]
    refine ⟨⟨r :: (as ++ bs), hl.unlink.pushFront hout, fun r' => ?_⟩, h.keyed,
      fun r' hr' hnot => ?_, h.refCount, h.live_iff, h.live_nodup, h.pend_nodup, h.pend_new⟩
    · show r' ∈ r :: (as ++ bs) ↔ c.InTable r'
      rw [← hmem r']
      simp only [List.mem_cons, List.mem_append]
      tauto
    · have hnot' : r' ∉ as ++ r :: bs := fun hin => hnot ((hmem r').mp hin)
      have hne : r' ≠ r := fun heq => hnot' (by simp [heq])
      have hnot'' : r' ∉ as ++ bs := fun hin => hnot' (by
        rcases List.mem_append.mp hin with hin | hin <;> simp [hin])
      have hunlink := (hl.unlink_sameAt (x := r) (by simp) hnot').2
      have hpush := (hl.unlink.pushFront_sameAt hnot'' hne).2
      exact hpush.trans (hunlink.trans (h.unlinked r' hr' hnot))

/-- Deleting the key of a record takes it, and nothing else, out of the table. -/
theorem Inv.inTable_del (h : c.Inv refs pend) (hr : c.table.lookup key = some r) (r' : ℕ) :
    (c.del key).InTable r' ↔ c.InTable r' ∧ r' ≠ r := by
  constructor
  · rintro ⟨key', hkey'⟩
    have hne : key' ≠ key := by
      rintro rfl
      simp [del] at hkey'
    have hold : c.table.lookup key' = some r' := by
      rwa [del, AList.lookup_erase_ne hne] at hkey'
    refine ⟨⟨key', hold⟩, ?_⟩
    rintro rfl
    exact hne ((h.keyed key' r' hold).symm.trans (h.keyed key r' hr))
  · rintro ⟨⟨key', hkey'⟩, hne⟩
    have hne' : key' ≠ key := by
      rintro rfl
      exact hne (Option.some.inj (hkey'.symm.trans hr))
    exact ⟨key', by rwa [del, AList.lookup_erase_ne hne']⟩

/-- A record that has left the table and the list is consistent with the rest if it is still
referred to, and can be freed if it is not. -/
theorem Inv.drop (h : c.Inv refs pend) (hr : c.table.lookup key = some r) :
    (0 < refs r → ((c.del key).unlink r).Inv refs pend) ∧
      (refs r = 0 → ∃ c', ((c.del key).unlink r).free r = .ok c' ∧ c'.Inv refs pend ∧
        c'.table = c.table.erase key ∧ c'.live = c.live.erase r) := by
  have hin : c.InTable r := ⟨key, hr⟩
  have hlive := h.live_of_inTable hin
  have hpend : r ∉ pend := fun hp => (h.pend_new r hp).1 hin
  have htable : ∀ r', ((c.del key).unlink r).InTable r' ↔ c.InTable r' ∧ r' ≠ r :=
    h.inTable_del hr
  obtain ⟨l, hl, hmem⟩ := h.lru
  obtain ⟨as, bs, rfl⟩ := List.append_of_mem ((hmem r).mpr hin)
  obtain ⟨ha, hb⟩ := hl.not_mem_sides
  have hlist : ∀ r', r' ∈ as ++ bs ↔ ((c.del key).unlink r).InTable r' := by
    intro r'
    rw [htable, ← hmem r']
    by_cases heq : r' = r
    · subst heq
      simp [ha, hb]
    · simp [heq]
  have hkeyed : ∀ key' r', ((c.del key).unlink r).table.lookup key' = some r' →
      (c.recs r').key = key' := by
    intro key' r' hr'
    refine h.keyed key' r' ?_
    have hne : key' ≠ key := by
      rintro rfl
      simp [del, MemCache.unlink] at hr'
    rwa [← AList.lookup_erase_ne hne]
  have hunlinked : ∀ r' ∈ c.live, ¬ ((c.del key).unlink r).InTable r' →
      ((c.del key).unlink r).lru.prev r' = none := by
    intro r' hr' hnot
    by_cases heq : r' = r
    · subst heq
      exact DList.unlink_prev_self
    · have hnot' : ¬ c.InTable r' := fun hin' => hnot ((htable r').mpr ⟨hin', heq⟩)
      have hout : r' ∉ as ++ r :: bs := fun hin' => hnot' ((hmem r').mp hin')
      exact (hl.unlink_sameAt (x := r) (by simp) hout).2.trans (h.unlinked r' hr' hnot')
  have hpend' : ∀ r' ∈ pend, ¬ ((c.del key).unlink r).InTable r' ∧ refs r' = 0 := fun r' hr' =>
    ⟨fun hin' => (h.pend_new r' hr').1 ((htable r').mp hin').1, (h.pend_new r' hr').2⟩
  refine ⟨fun hrefs => ?_, fun hrefs => ?_⟩
  · refine ⟨⟨as ++ bs, hl.unlink, hlist⟩, hkeyed, hunlinked, h.refCount, fun r' => ?_,
      h.live_nodup, h.pend_nodup, hpend'⟩
    show r' ∈ c.live ↔ ((c.del key).unlink r).InTable r' ∨ _
    rw [htable]
    by_cases heq : r' = r
    · subst heq
      simpa [hrefs] using hlive
    · simpa [heq] using h.live_iff r'
  · refine ⟨{ (c.del key).unlink r with live := c.live.erase r }, if_pos hlive, ?_, rfl, rfl⟩
    refine ⟨⟨as ++ bs, hl.unlink, hlist⟩, hkeyed, fun r' hr' => ?_, fun r' hr' => ?_, fun r' => ?_,
      h.live_nodup.erase r, h.pend_nodup, hpend'⟩
    · exact hunlinked r' (List.mem_of_mem_erase hr')
    · exact h.refCount r' (List.mem_of_mem_erase hr')
    · show r' ∈ c.live.erase r ↔ ((c.del key).unlink r).InTable r' ∨ _
      rw [h.live_nodup.mem_erase_iff, htable]
      by_cases heq : r' = r
      · subst heq
        simp [hrefs, hpend]
      · simpa [heq] using h.live_iff r'

end Lists

section Memory

/-- A record that is about to be stored can be freed. -/
theorem Inv.freePending (h : c.Inv refs pend) (hr : r ∈ pend) :
    ∃ c', c.free r = .ok c' ∧ c'.Inv refs (pend.erase r) ∧ c'.table = c.table := by
  obtain ⟨hnot, hrefs⟩ := h.pend_new r hr
  have hlive : r ∈ c.live := (h.live_iff r).mpr (.inr (.inr hr))
  refine ⟨{ c with live := c.live.erase r }, if_pos hlive, ?_, rfl⟩
  refine ⟨h.lru, h.keyed, fun r' hr' => h.unlinked r' (List.mem_of_mem_erase hr'),
    fun r' hr' => h.refCount r' (List.mem_of_mem_erase hr'), fun r' => ?_, h.live_nodup.erase r,
    h.pend_nodup.erase r, fun r' hr' => h.pend_new r' (List.mem_of_mem_erase hr')⟩
  show r' ∈ c.live.erase r ↔ c.InTable r' ∨ 0 < refs r' ∨ r' ∈ pend.erase r
  rw [h.live_nodup.mem_erase_iff, h.pend_nodup.mem_erase_iff]
  by_cases heq : r' = r
  · subst heq
    simp [hnot, hrefs]
  · simpa [heq] using h.live_iff r'

/-- A new record is consistent with the rest. -/
theorem Inv.newRec {rec : CacheRec} (h : c.Inv refs pend) (hr : r ∉ c.live)
    (hcount : rec.refCount = 0) : (c.newRec r rec).Inv refs (r :: pend) := by
  have hout := mt (h.live_iff r).mpr hr
  simp only [not_or, not_lt, Nat.le_zero] at hout
  obtain ⟨hnot, hrefs, hpend⟩ := hout
  obtain ⟨l, hl, hmem⟩ := h.lru
  have hne : ∀ r', c.InTable r' → r' ≠ r := fun r' hin heq => hnot (heq ▸ hin)
  refine ⟨⟨l, hl.congr rfl rfl fun r' hr' => ?_, hmem⟩, fun key r' hr' => ?_, fun r' hr' hnot' => ?_,
    fun r' hr' => ?_, fun r' => ?_, List.nodup_cons.mpr ⟨hr, h.live_nodup⟩,
    List.nodup_cons.mpr ⟨hpend, h.pend_nodup⟩, fun r' hr' => ?_⟩
  · have := hne r' ((hmem r').mp hr')
    simp [DList.SameAt, MemCache.newRec, DList.setNext, DList.setPrev, this]
  · have := hne r' ⟨key, hr'⟩
    simpa [MemCache.newRec, this] using h.keyed key r' hr'
  · by_cases heq : r' = r
    · subst heq
      simp [MemCache.newRec, DList.setPrev]
    · have hlive : r' ∈ c.live := (List.mem_cons.mp hr').resolve_left heq
      simpa [MemCache.newRec, DList.setNext, DList.setPrev, heq] using h.unlinked r' hlive hnot'
  · by_cases heq : r' = r
    · subst heq
      simp [MemCache.newRec, hcount, hrefs]
    · have hlive : r' ∈ c.live := (List.mem_cons.mp hr').resolve_left heq
      simpa [MemCache.newRec, heq] using h.refCount r' hlive
  · show r' ∈ r :: c.live ↔ c.InTable r' ∨ 0 < refs r' ∨ r' ∈ r :: pend
    by_cases heq : r' = r
    · simp [heq]
    · simpa [heq] using h.live_iff r'
  · show ¬ c.InTable r' ∧ refs r' = 0
    rcases List.mem_cons.mp hr' with rfl | hr'
    · exact ⟨hnot, hrefs⟩
    · exact h.pend_new r' hr'

/-- A new record is put into the table under its key. -/
theorem Inv.insert (h : c.Inv refs pend) (hr : r ∈ pend)
    (hkey : c.table.lookup (c.recs r).key = none) :
    (({ c with table := c.table.insert (c.recs r).key r } : MemCache).link r).Inv refs
      (pend.erase r) ∧
      (({ c with table := c.table.insert (c.recs r).key r } : MemCache).link r).InTable r := by
  obtain ⟨hnot, hrefs⟩ := h.pend_new r hr
  have hlive : r ∈ c.live := (h.live_iff r).mpr (.inr (.inr hr))
  have htable : ∀ r', (({ c with table := c.table.insert (c.recs r).key r } : MemCache).link
      r).InTable r' ↔ c.InTable r' ∨ r' = r := by
    intro r'
    constructor
    · rintro ⟨key', hkey'⟩
      have hkey' : (c.table.insert (c.recs r).key r).lookup key' = some r' := hkey'
      by_cases heq : key' = (c.recs r).key
      · subst heq
        rw [AList.lookup_insert] at hkey'
        exact .inr (Option.some.inj hkey').symm
      · rw [AList.lookup_insert_ne heq] at hkey'
        exact .inl ⟨key', hkey'⟩
    · rintro (⟨key', hkey'⟩ | rfl)
      · have heq : key' ≠ (c.recs r).key := by
          rintro rfl
          simp [hkey] at hkey'
        exact ⟨key', (AList.lookup_insert_ne heq).trans hkey'⟩
      · exact ⟨_, AList.lookup_insert _⟩
  obtain ⟨l, hl, hmem⟩ := h.lru
  have hout : r ∉ l := fun hin => hnot ((hmem r).mp hin)
  refine ⟨⟨⟨r :: l, hl.pushFront hout, fun r' => ?_⟩, fun key' r' hr' => ?_,
    fun r' hr' hnot' => ?_, h.refCount, fun r' => ?_, h.live_nodup, h.pend_nodup.erase r,
    fun r' hr' => ?_⟩, (htable r).mpr (.inr rfl)⟩
  · rw [htable, List.mem_cons, hmem r', or_comm]
  · have hr' : (c.table.insert (c.recs r).key r).lookup key' = some r' := hr'
    by_cases heq : key' = (c.recs r).key
    · subst heq
      rw [AList.lookup_insert] at hr'
      rw [← Option.some.inj hr']
      rfl
    · rw [AList.lookup_insert_ne heq] at hr'
      exact h.keyed key' r' hr'
  · rw [htable, not_or] at hnot'
    have hout' : r' ∉ l := fun hin => hnot'.1 ((hmem r').mp hin)
    exact (hl.pushFront_sameAt hout' hnot'.2).2.trans (h.unlinked r' hr' hnot'.1)
  · show r' ∈ c.live ↔ _
    rw [htable, h.pend_nodup.mem_erase_iff]
    by_cases heq : r' = r
    · simp [heq, hlive]
    · simpa [heq] using h.live_iff r'
  · have heq : r' ≠ r := fun heq => (h.pend_nodup.mem_erase_iff.mp hr').1 heq
    rw [htable, not_or]
    obtain ⟨hnot', hrefs'⟩ := h.pend_new r' (List.mem_of_mem_erase hr')
    exact ⟨⟨hnot', heq⟩, hrefs'⟩

end Memory

section CheckSize

/-- Deleting a key that is there makes the table smaller. -/
theorem size_erase (h : c.table.lookup key = some r) :
    (c.table.erase key).entries.length + 1 = c.size := by
  have hmem : key ∈ c.table.keys := by
    rw [← AList.mem_keys, ← AList.lookup_isSome, h]
    rfl
  have hlen : (c.table.erase key).keys.length = c.table.keys.length - 1 := by
    rw [AList.keys_erase]
    exact @List.length_erase_of_mem _ instBEqOfDecidableEq _ _ _ hmem
  have hpos := List.length_pos_of_mem hmem
  simp only [AList.keys, List.keys, List.length_map] at hlen hpos
  unfold size
  omega

/-- The list of records is no longer than there are records in memory. -/
theorem Inv.length_le {l : List ℕ} (h : c.Inv refs pend) (hl : c.lru.Holds l)
    (hmem : ∀ r, r ∈ l ↔ c.InTable r) : l.length ≤ c.live.length := by
  refine (List.subperm_of_subset hl.nodup fun r hr => ?_).length_le
  exact h.live_of_inTable ((hmem r).mp hr)

/-- The inner loop of `cache_check_size` ends with a record of the list that nobody refers to, if
there is one. -/
theorem lastUnreferenced_spec {l as : List ℕ} (hl : c.lru.Holds l) (n : ℕ) (bs : List ℕ)
    (hsplit : l = as ++ bs) (hn : as.length ≤ n)
    (hbs : ∀ r ∈ bs, (c.recs r).refCount ≠ 0) :
    (∃ r ∈ l, c.lastUnreferenced n as.getLast? = .ok (some r) ∧ (c.recs r).refCount = 0) ∨
      c.lastUnreferenced n as.getLast? = .ok none ∧ ∀ r ∈ l, (c.recs r).refCount ≠ 0 := by
  -- from the last record of `as` to the front; `bs` has been passed
  induction n generalizing as bs with
  | zero =>
    obtain rfl : as = [] := List.eq_nil_of_length_eq_zero (by omega)
    exact .inr ⟨rfl, by simpa [hsplit] using hbs⟩
  | succ n ih =>
    rcases as.eq_nil_or_concat with rfl | ⟨as, r, rfl⟩
    · exact .inr ⟨rfl, by simpa [hsplit] using hbs⟩
    · rw [List.concat_eq_append, List.getLast?_concat]
      by_cases hr : (c.recs r).refCount = 0
      · exact .inl ⟨r, by simp [hsplit], by simp [lastUnreferenced, hr], hr⟩
      · have hsplit' : l = as ++ r :: bs := by simpa using hsplit
        have hprev := hl.prev_eq as r bs hsplit'
        have hstep : c.lastUnreferenced (n + 1) (some r) =
            c.lastUnreferenced n as.getLast? := by
          simp [lastUnreferenced, hr, hprev]
        rw [hstep]
        exact ih (r :: bs) hsplit' (by simpa using hn) (by simpa [hr] using hbs)

/-- `cache_check_size` ends, without a failed assertion, with not too many records or only records
that somebody refers to. -/
theorem Inv.checkSizeLoop (n : ℕ) (h : c.Inv refs pend) (hn : c.size ≤ n + maxCachedItems) :
    ∃ c', MemCache.checkSizeLoop n c = .ok c' ∧ c'.Inv refs pend ∧
      (c'.size ≤ maxCachedItems ∨ ∀ r, c'.InTable r → refs r ≠ 0) ∧
      ∀ r, c'.InTable r → c.InTable r := by
  induction n generalizing c with
  | zero =>
    have hle : ¬ maxCachedItems < c.size := by omega
    refine ⟨c, by simp [MemCache.checkSizeLoop, hle], h, .inl (by omega), fun _ hr => hr⟩
  | succ n ih =>
    by_cases hlt : maxCachedItems < c.size
    · obtain ⟨l, hl, hmem⟩ := h.lru
      have hcount : ∀ r ∈ l, (c.recs r).refCount = refs r := fun r hr =>
        h.refCount r (h.live_of_inTable ((hmem r).mp hr))
      have hlast : c.lru.last = l.getLast? := hl.last_eq
      have hscan := lastUnreferenced_spec hl c.live.length [] (by simp) (h.length_le hl hmem)
        (by simp)
      rw [← hlast] at hscan
      rcases hscan with ⟨r, hr, hscan, hzero⟩ | ⟨hscan, hall⟩
      · -- the record is in the table under its key, and is freed
        have hkey : c.table.lookup (c.recs r).key = some r := h.inTable_iff.mp ((hmem r).mp hr)
        have hrefs : refs r = 0 := (hcount r hr).symm.trans hzero
        obtain ⟨c₁, hfree, h₁, htable, -⟩ := (h.drop hkey).2 hrefs
        have hsub : ∀ r', c₁.InTable r' → c.InTable r' := fun r' ⟨key, hr'⟩ =>
          ((h.inTable_del hkey r').mp ⟨key, by rwa [htable] at hr'⟩).1
        have hevict : c.evict r = .ok c₁ := by
          simp only [evict, hkey, if_true]
          exact hfree
        have hsize : c₁.size + 1 = c.size := by
          rw [size, htable]
          exact size_erase hkey
        obtain ⟨c', hc', h', hbound, hsub'⟩ := ih h₁ (by omega)
        refine ⟨c', ?_, h', hbound, fun r' hr' => hsub r' (hsub' r' hr')⟩
        simp [MemCache.checkSizeLoop, hlt, hscan, hevict, hc']
      · refine ⟨c, by simp [MemCache.checkSizeLoop, hlt, hscan], h, .inr fun r hr => ?_,
          fun _ hr => hr⟩
        have hr' := (hmem r).mpr hr
        rw [← hcount r hr']
        exact hall r hr'
    · exact ⟨c, by simp [MemCache.checkSizeLoop, hlt], h, .inl (by omega), fun _ hr => hr⟩

theorem Inv.checkSize (h : c.Inv refs pend) :
    ∃ c', c.checkSize = .ok c' ∧ c'.Inv refs pend ∧
      (c'.size ≤ maxCachedItems ∨ ∀ r, c'.InTable r → refs r ≠ 0) ∧
      ∀ r, c'.InTable r → c.InTable r :=
  h.checkSizeLoop c.size (Nat.le_add_right _ _)

end CheckSize

section Calls

/-- One reference less. A record that is left with none outside of the table is treated as one that
is about to be freed. -/
theorem Inv.decRef {pend' : List ℕ} (h : c.Inv refs pend) (hr : 0 < refs r)
    (hpend' : pend' = pend ∧ (1 < refs r ∨ c.InTable r) ∨
      pend' = r :: pend ∧ refs r = 1 ∧ ¬ c.InTable r) :
    (c.setRec r fun rec => { rec with refCount := rec.refCount - 1 }).Inv
      (Function.update refs r (refs r - 1)) pend' := by
  have hlive : r ∈ c.live := (h.live_iff r).mpr (.inr (.inl hr))
  have hout : r ∉ pend := fun hp => by simp [(h.pend_new r hp).2] at hr
  refine ⟨h.lru, fun key r' hr' => ?_, h.unlinked, fun r' hr' => ?_, fun r' => ?_, h.live_nodup, ?_,
    fun r' hr' => ?_⟩
  · rw [← h.keyed key r' hr']
    by_cases heq : r' = r
    · subst heq
      simp [MemCache.setRec]
    · simp [MemCache.setRec, heq]
  · by_cases heq : r' = r
    · subst heq
      simp [MemCache.setRec, h.refCount r' hr']
    · simpa [MemCache.setRec, heq] using h.refCount r' hr'
  · show r' ∈ c.live ↔ c.InTable r' ∨ _
    by_cases heq : r' = r
    · subst heq
      rcases hpend' with ⟨rfl, hmore | hin⟩ | ⟨rfl, -⟩
      · simp [hlive, hmore]
      · simp [hlive, hin]
      · simp [hlive]
    · rcases hpend' with ⟨rfl, -⟩ | ⟨rfl, -⟩
      · simpa [heq] using h.live_iff r'
      · simpa [heq] using h.live_iff r'
  · rcases hpend' with ⟨rfl, -⟩ | ⟨rfl, -⟩
    · exact h.pend_nodup
    · exact List.nodup_cons.mpr ⟨hout, h.pend_nodup⟩
  · show ¬ c.InTable r' ∧ _
    have hold : r' ∈ pend → ¬ c.InTable r' ∧ Function.update refs r (refs r - 1) r' = 0 := by
      intro hp
      have heq : r' ≠ r := fun heq => hout (heq ▸ hp)
      rw [Function.update_of_ne heq]
      exact h.pend_new r' hp
    rcases hpend' with ⟨rfl, -⟩ | ⟨rfl, hone, hnot⟩
    · exact hold hr'
    · rcases List.mem_cons.mp hr' with rfl | hr'
      · simp [hnot, hone]
      · exact hold hr'

/-- `cache_rec_unref` of a record that is referred to. -/
theorem Inv.unrefRec (now : ℕ) (h : c.Inv refs pend) (hr : 0 < refs r) :
    ∃ c', c.unrefRec r now = .ok c' ∧ c'.Inv (Function.update refs r (refs r - 1)) pend ∧
      ∀ r', c'.InTable r' → c.InTable r' := by
  have hlive : r ∈ c.live := (h.live_iff r).mpr (.inr (.inl hr))
  have hcount := h.refCount r hlive
  have hpos : (c.recs r).refCount ≠ 0 := by omega
  have hzero : ((c.setRec r fun rec => { rec with refCount := rec.refCount - 1 }).recs
      r).refCount = refs r - 1 := by
    simp [MemCache.setRec, hcount]
  simp only [MemCache.unrefRec, hpos, if_false]
  by_cases hin : c.InTable r
  · -- the record stays in the cache unless it has expired
    have h' := h.decRef hr (.inl ⟨rfl, .inr hin⟩)
    have hin' : (c.setRec r fun rec => { rec with refCount := rec.refCount - 1 }).InTable r := hin
    split
    next hcond =>
      have hkey := h'.inTable_iff.mp hin'
      rw [if_pos hkey]
      obtain ⟨c', hc', hinv, htable, -⟩ := (h'.drop hkey).2 (by
        rw [Function.update_self, ← hzero]
        exact hcond.1)
      refine ⟨c', hc', hinv, fun r' ⟨key, hr'⟩ => ?_⟩
      exact ((h'.inTable_del hkey r').mp ⟨key, by rwa [htable] at hr'⟩).1
    next => exact ⟨_, rfl, h', fun _ hr' => hr'⟩
  · by_cases hone : refs r = 1
    · -- the last reference to a record that has left the cache
      have h' := h.decRef hr (.inr ⟨rfl, hone, hin⟩)
      have hnot : ¬ (c.setRec r fun rec => { rec with refCount := rec.refCount - 1 }).InTable r :=
        hin
      have hlinked : (c.setRec r fun rec => { rec with refCount := rec.refCount - 1 }).isLinked r =
          false := by
        rw [Bool.eq_false_iff]
        exact mt (h'.isLinked_iff hlive).mp hnot
      rw [if_pos ⟨by omega, .inr hlinked⟩, if_neg fun hkey => hnot ⟨_, hkey⟩]
      obtain ⟨c', hc', hinv, htable⟩ := h'.freePending (r := r) (by simp)
      refine ⟨c', hc', by simpa using hinv, fun r' ⟨key, hr'⟩ => ⟨key, ?_⟩⟩
      rwa [htable] at hr'
    · have h' := h.decRef hr (.inl ⟨rfl, .inl (by omega)⟩)
      rw [if_neg fun hcond => by have := hcond.1; omega]
      exact ⟨_, rfl, h', fun _ hr' => hr'⟩

theorem Inv.unref (now : ℕ) (h : c.Inv refs pend) (hr : 0 < refs r) :
    ∃ c', c.unref r now = .ok c' ∧ c'.Inv (Function.update refs r (refs r - 1)) pend ∧
      (c'.size ≤ maxCachedItems ∨
        ∀ r', c'.InTable r' → Function.update refs r (refs r - 1) r' ≠ 0) ∧
      ∀ r', c'.InTable r' → c.InTable r' := by
  obtain ⟨c₁, hc₁, h₁, hsub₁⟩ := h.unrefRec now hr
  obtain ⟨c', hc', h', hbound, hsub'⟩ := h₁.checkSize
  exact ⟨c', by simp [MemCache.unref, hc₁, hc'], h', hbound, fun r' hr' => hsub₁ r' (hsub' r' hr')⟩

/-- The references after an answer of `nxweb_cache_try`. -/
def refsAfter (refs : ℕ → ℕ) : TryResult → ℕ → ℕ
  | .found r => Function.update refs r (refs r + 1)
  | _ => refs

theorem Inv.tryKey (key : List UInt8) (ifModifiedSince mtime : ℤ) (now : ℕ)
    (h : c.Inv refs pend) :
    ∃ res c', c.tryKey key ifModifiedSince mtime now = .ok (res, c') ∧
      c'.Inv (refsAfter refs res) pend ∧ ∀ r ∈ c'.live, r ∈ c.live := by
  unfold MemCache.tryKey
  split
  next => exact ⟨.miss, c, rfl, h, fun _ hr => hr⟩
  next =>
    split
    next => exact ⟨.miss, c, rfl, h, fun _ hr => hr⟩
    next r hkey =>
      have h₁ := h.revalidate r mtime now
      have hsame : (c.revalidate r mtime now).table = c.table ∧
          (c.revalidate r mtime now).live = c.live := by
        unfold MemCache.revalidate
        split <;> exact ⟨rfl, rfl⟩
      generalize c.revalidate r mtime now = c₁ at h₁ hsame
      have hkey₁ : c₁.table.lookup key = some r := by rw [hsame.1, hkey]
      have hin₁ : c₁.InTable r := ⟨key, hkey₁⟩
      have htouch : (c₁.touch r).live = c₁.live ∧ (c₁.touch r).table = c₁.table := by
        unfold MemCache.touch
        split <;> exact ⟨rfl, rfl⟩
      show ∃ res c', (if now ≤ (c₁.recs r).expiresTime then _ else _) = _ ∧ _
      split
      next =>
        have h₂ := h₁.touch hin₁
        have hlive : ∀ r' ∈ (c₁.touch r).live, r' ∈ c.live := fun r' hr' => by
          rwa [htouch.1, hsame.2] at hr'
        have hin₂ : (c₁.touch r).InTable r := ⟨key, by rw [htouch.2, hkey₁]⟩
        show ∃ res c', (if ifModifiedSince ≠ 0 ∧
          ((c₁.touch r).recs r).lastModified ≤ ifModifiedSince then _ else _) = _ ∧ _
        split
        next => exact ⟨.notModified, _, rfl, h₂, hlive⟩
        next => exact ⟨.found r, _, rfl, h₂.ref hin₂, hlive⟩
      next =>
        split
        next => exact ⟨.revalidate, _, rfl, h₁, fun r' hr' => hsame.2 ▸ hr'⟩
        next =>
          have hcount := h₁.refCount r (h₁.live_of_inTable hin₁)
          by_cases hrefs : refs r = 0
          · obtain ⟨c', hc', h', -, hlive⟩ := (h₁.drop hkey₁).2 hrefs
            have hexpire : c₁.expire key r = .ok c' := by
              have hzero : (((c₁.del key).unlink r).recs r).refCount = 0 := hcount.trans hrefs
              simp only [MemCache.expire, hzero, if_true]
              exact hc'
            refine ⟨.miss, c', by rw [hexpire], h', fun r' hr' => ?_⟩
            rw [hlive, hsame.2] at hr'
            exact List.mem_of_mem_erase hr'
          · have h' := (h₁.drop hkey₁).1 (by omega)
            have hexpire : c₁.expire key r = .ok ((c₁.del key).unlink r) := by
              have hne : (((c₁.del key).unlink r).recs r).refCount ≠ 0 :=
                fun hzero => hrefs (hcount.symm.trans hzero)
              simp only [MemCache.expire, hne, if_false]
            refine ⟨.miss, _, by rw [hexpire], h', fun r' hr' => ?_⟩
            have hr' : r' ∈ c₁.live := hr'
            rwa [hsame.2] at hr'

theorem Inv.storeBegin (resp : StoreRequest) (now addr : ℕ) (h : c.Inv refs pend)
    (haddr : c.freeFor resp now addr = true) :
    (∃ res c', c.storeBegin resp now addr = .ok (res, none, c') ∧
      c'.Inv (refsAfter refs res) pend) ∨
      ∃ c', c.storeBegin resp now addr = .ok (.miss, some addr, c') ∧
        c'.Inv refs (addr :: pend) := by
  obtain ⟨res, c₁, hc₁, h₁, -⟩ := h.tryKey resp.cacheKey 0 resp.lastModified now
  have hfree : addr ∉ c₁.live := by
    simpa [freeFor, hc₁, Except.toOption] using haddr
  unfold MemCache.storeBegin
  split
  next =>
    rw [hc₁]
    cases res with
    | miss =>
      cases resp.body with
      | none => exact .inl ⟨.miss, c₁, rfl, h₁⟩
      | some body =>
        refine .inr ⟨_, rfl, Inv.newRec h₁ hfree rfl⟩
    | revalidate => exact .inl ⟨.revalidate, c₁, rfl, h₁⟩
    | notModified => exact .inl ⟨.notModified, c₁, rfl, h₁⟩
    | found r => exact .inl ⟨.found r, c₁, rfl, h₁⟩
  next => exact .inl ⟨.miss, c, rfl, h⟩

theorem Inv.storeEnd (place : Bool) (h : c.Inv refs pend) (hr : r ∈ pend) :
    (∃ c', c.storeEnd r place = .ok (none, c') ∧ c'.Inv refs (pend.erase r)) ∨
      ∃ r' c', c.storeEnd r place = .ok (some r', c') ∧
        c'.Inv (Function.update refs r' (refs r' + 1)) (pend.erase r) ∧
        (r' = r → c'.size ≤ maxCachedItems ∨
          ∀ r'', c'.InTable r'' → Function.update refs r' (refs r' + 1) r'' ≠ 0) := by
  unfold MemCache.storeEnd
  cases hkey : c.table.lookup (c.recs r).key with
  | some r' =>
    obtain ⟨c₁, hc₁, h₁, htable⟩ := h.freePending hr
    have hin : c₁.InTable r' := ⟨_, htable ▸ hkey⟩
    refine .inr ⟨r', c₁.ref r', by simp [hkey, hc₁], h₁.ref hin, ?_⟩
    rintro rfl
    exact absurd ⟨_, hkey⟩ (h.pend_new r' hr).1
  | none =>
    cases place with
    | false =>
      obtain ⟨c₁, hc₁, h₁, -⟩ := h.freePending hr
      exact .inl ⟨c₁, by simp [hkey, hc₁], h₁⟩
    | true =>
      obtain ⟨h₁, hin⟩ := h.insert hr hkey
      obtain ⟨c', hc', h', hbound, -⟩ := (h₁.ref hin).checkSize
      exact .inr ⟨r, c', by simp [hkey, hc'], h', fun _ => hbound⟩

end Calls

end MemCache

namespace CacheRun

open MemCache

variable {χ : Type*} {s s' : CacheRun χ} {conn : χ} {r : ℕ}

/-- The number of requests that hold a record. -/
def holders (s : CacheRun χ) (r : ℕ) : ℕ :=
  s.holds.countP (·.2 = r)

/-- What every call keeps. -/
structure Inv (s : CacheRun χ) : Prop where
  cache : s.cache.Inv s.holders (s.pending.map Prod.snd)
  holds_nodup : (s.holds.map Prod.fst).Nodup
  pending_nodup : (s.pending.map Prod.fst).Nodup
  apart : ∀ conn ∈ s.pending.map Prod.fst, conn ∉ s.holds.map Prod.fst

theorem holders_pos_iff : 0 < s.holders r ↔ ∃ conn, (conn, r) ∈ s.holds := by
  rw [holders, List.countP_pos_iff]
  constructor
  · rintro ⟨⟨conn, r'⟩, hmem, heq⟩
    obtain rfl : r' = r := by simpa using heq
    exact ⟨conn, hmem⟩
  · rintro ⟨conn, hmem⟩
    exact ⟨(conn, r), hmem, by simp⟩

/-- One more request holds a record. -/
theorem holders_cons (s : CacheRun χ) (conn : χ) (r : ℕ) (c : MemCache) (pending : List (χ × ℕ)) :
    holders { cache := c, holds := (conn, r) :: s.holds, pending } =
      Function.update s.holders r (s.holders r + 1) := by
  funext r'
  by_cases heq : r' = r
  · subst heq
    simp [holders]
  · simp [holders, heq, Ne.symm heq]

variable [DecidableEq χ]

/-- One request less holds a record. -/
theorem holders_erase (c : MemCache) (pending : List (χ × ℕ)) (hmem : (conn, r) ∈ s.holds) :
    holders { cache := c, holds := s.holds.erase (conn, r), pending } =
      Function.update s.holders r (s.holders r - 1) := by
  funext r'
  by_cases heq : r' = r
  · subst heq
    simp [holders, List.countP_erase, hmem]
  · simp [holders, List.countP_erase, hmem, heq, Ne.symm heq]

/-- A request in a list of records has a record there. -/
theorem recOf_of_mem {l : List (χ × ℕ)} (h : conn ∈ l.map Prod.fst) :
    ∃ r, recOf l conn = some r ∧ (conn, r) ∈ l := by
  obtain ⟨⟨conn', r⟩, hmem, rfl⟩ := List.mem_map.mp h
  have hsome : (l.find? (·.1 = conn')).isSome := by
    rw [List.find?_isSome]
    exact ⟨_, hmem, by simp⟩
  obtain ⟨p, hp⟩ := Option.isSome_iff_exists.mp hsome
  have hfst : p.1 = conn' := by simpa using List.find?_some hp
  refine ⟨p.2, by simp [recOf, hp], ?_⟩
  have := List.mem_of_find?_eq_some hp
  rwa [← hfst]

/-- The record of a request is its only one. -/
theorem recOf_eq {l : List (χ × ℕ)} (hnodup : (l.map Prod.fst).Nodup) (h : (conn, r) ∈ l) :
    recOf l conn = some r := by
  obtain ⟨r', hr', hmem⟩ := recOf_of_mem (List.mem_map.mpr ⟨_, h, rfl⟩)
  have heq := List.inj_on_of_nodup_map hnodup hmem h rfl
  rw [hr', (Prod.mk.inj heq).2]

/-- Erasing an entry erases its record. -/
theorem map_snd_erase {l : List (χ × ℕ)} (hnodup : (l.map Prod.snd).Nodup) {p : χ × ℕ}
    (hp : p ∈ l) : (l.erase p).map Prod.snd = (l.map Prod.snd).erase p.2 := by
  induction l with
  | nil => simp at hp
  | cons a l ih =>
    by_cases ha : a = p
    · subst ha
      simp
    · have hp' : p ∈ l := (List.mem_cons.mp hp).resolve_left (Ne.symm ha)
      rw [List.map_cons, List.nodup_cons] at hnodup
      have hne : a.2 ≠ p.2 := fun heq => hnodup.1 (heq ▸ List.mem_map_of_mem hp')
      rw [List.erase_cons_tail (by simpa using ha), List.map_cons, List.map_cons,
        List.erase_cons_tail (by simpa using hne), ih hnodup.2 hp']

section Steps

omit [DecidableEq χ] in
/-- A request that was idle holds what `nxweb_cache_try` has found. -/
theorem Inv.hold {c : MemCache} {res : TryResult} (h : s.Inv) (hidle : s.Idle conn)
    (hc : c.Inv (refsAfter s.holders res) (s.pending.map Prod.snd)) : (s.hold conn c res).Inv := by
  cases res with
  | found r =>
    refine ⟨?_, List.nodup_cons.mpr ⟨hidle.1, h.holds_nodup⟩, h.pending_nodup,
      fun conn' hconn' hheld => ?_⟩
    · show c.Inv (holders { cache := c, holds := (conn, r) :: s.holds, pending := s.pending }) _
      rw [holders_cons]
      exact hc
    · rcases List.mem_cons.mp hheld with rfl | hheld
      · exact hidle.2 hconn'
      · exact h.apart conn' hconn' hheld
  | miss => exact ⟨hc, h.holds_nodup, h.pending_nodup, h.apart⟩
  | revalidate => exact ⟨hc, h.holds_nodup, h.pending_nodup, h.apart⟩
  | notModified => exact ⟨hc, h.holds_nodup, h.pending_nodup, h.apart⟩

/-- The first part of storing a response. -/
theorem Inv.storeBegin (resp : StoreRequest) (now addr : ℕ) (h : s.Inv) (hidle : s.Idle conn)
    (haddr : s.cache.freeFor resp now addr = true) :
    ∃ s', s.exec (.storeBegin conn resp now addr) = .ok s' ∧ s'.Inv := by
  rcases h.cache.storeBegin resp now addr haddr with ⟨res, c, hc, hinv⟩ | ⟨c, hc, hinv⟩
  · exact ⟨s.hold conn c res, by simp [exec, hc], h.hold hidle hinv⟩
  · refine ⟨{ s with cache := c, pending := (conn, addr) :: s.pending }, by simp [exec, hc], hinv,
      h.holds_nodup, List.nodup_cons.mpr ⟨hidle.2, h.pending_nodup⟩, fun conn' hconn' => ?_⟩
    rcases List.mem_cons.mp hconn' with rfl | hconn'
    · exact hidle.1
    · exact h.apart conn' hconn'

/-- The second part of storing a response. -/
theorem Inv.storeEnd (place : Bool) (h : s.Inv) (hmem : (conn, r) ∈ s.pending) :
    ∃ s', s.exec (.storeEnd conn place) = .ok s' ∧ s'.Inv ∧
      ((conn, r) ∈ s'.holds → s'.cache.size ≤ maxCachedItems ∨
        ∀ r', s'.cache.InTable r' → (s'.cache.recs r').refCount ≠ 0) := by
  have hrec := recOf_eq h.pending_nodup hmem
  have hpend : r ∈ s.pending.map Prod.snd := List.mem_map_of_mem hmem
  have hidle : conn ∉ s.holds.map Prod.fst := h.apart conn (List.mem_map_of_mem hmem)
  have herase : (s.pending.erase (conn, r)).map Prod.snd = (s.pending.map Prod.snd).erase r :=
    map_snd_erase h.cache.pend_nodup hmem
  have hnodup : ((s.pending.erase (conn, r)).map Prod.fst).Nodup :=
    h.pending_nodup.sublist (List.erase_sublist.map _)
  have hrest : ∀ conn' ∈ (s.pending.erase (conn, r)).map Prod.fst,
      conn' ≠ conn ∧ conn' ∉ s.holds.map Prod.fst := by
    intro conn' hconn'
    obtain ⟨p, hp, rfl⟩ := List.mem_map.mp hconn'
    have hp' := List.mem_of_mem_erase hp
    refine ⟨fun heq => ?_, h.apart p.1 (List.mem_map_of_mem hp')⟩
    have hsame := List.inj_on_of_nodup_map h.pending_nodup hp' hmem heq
    have hnot : p ∉ s.pending.erase (conn, r) := by
      rw [hsame]
      exact (List.Nodup.of_map _ h.pending_nodup).not_mem_erase
    exact hnot hp
  rcases h.cache.storeEnd place hpend with ⟨c, hc, hinv⟩ | ⟨r', c, hc, hinv, hbound⟩
  · refine ⟨{ s with cache := c, pending := s.pending.erase (conn, r) },
      by simp [exec, hrec, hc],
      ⟨?_, h.holds_nodup, hnodup, fun conn' hconn' => (hrest conn' hconn').2⟩, fun hheld => ?_⟩
    · show c.Inv s.holders ((s.pending.erase (conn, r)).map Prod.snd)
      rw [herase]
      exact hinv
    · exact absurd (List.mem_map_of_mem hheld) hidle
  · refine ⟨{ cache := c, holds := (conn, r') :: s.holds, pending := s.pending.erase (conn, r) },
      by simp [exec, hrec, hc],
      ⟨?_, List.nodup_cons.mpr ⟨hidle, h.holds_nodup⟩, hnodup, fun conn' hconn' hheld => ?_⟩,
      fun hheld => ?_⟩
    · rw [holders_cons]
      show c.Inv _ ((s.pending.erase (conn, r)).map Prod.snd)
      rw [herase]
      exact hinv
    · rcases List.mem_cons.mp hheld with heq | hheld
      · exact (hrest conn' hconn').1 heq
      · exact (hrest conn' hconn').2 hheld
    · have heq : r' = r := by
        rcases List.mem_cons.mp hheld with heq | hheld
        · exact (Prod.mk.inj heq).2.symm
        · exact absurd (List.mem_map_of_mem hheld) hidle
      refine (hbound heq).imp_right fun hall r'' hr'' => ?_
      rw [hinv.refCount r'' (hinv.live_of_inTable hr'')]
      exact hall r'' hr''

/-- `cache_rec_unref` by a request that holds a record. -/
theorem Inv.unref (now : ℕ) (h : s.Inv) (hmem : (conn, r) ∈ s.holds) :
    ∃ c, s.exec (.unref conn now) =
        .ok { s with cache := c, holds := s.holds.erase (conn, r) } ∧
      Inv { s with cache := c, holds := s.holds.erase (conn, r) } ∧
      (c.size ≤ maxCachedItems ∨ ∀ r', c.InTable r' → (c.recs r').refCount ≠ 0) ∧
      ∀ r', c.InTable r' → s.cache.InTable r' := by
  have hpos : 0 < s.holders r := holders_pos_iff.mpr ⟨conn, hmem⟩
  obtain ⟨c, hc, hinv, hbound, hsub⟩ := h.cache.unref now hpos
  refine ⟨c, by simp [exec, recOf_eq h.holds_nodup hmem, hc],
    ⟨?_, ?_, h.pending_nodup, fun conn' hconn' hheld => ?_⟩, ?_, hsub⟩
  · rw [holders_erase c s.pending hmem]
    exact hinv
  · exact h.holds_nodup.sublist (List.erase_sublist.map _)
  · exact h.apart conn' hconn' ((List.erase_sublist.map _).mem hheld)
  · refine hbound.imp_right fun hall r' hr' => ?_
    rw [hinv.refCount r' (hinv.live_of_inTable hr')]
    exact hall r' hr'

/-- No call that may be made fails, and every one keeps the invariant. -/
theorem Inv.exec {e : CacheEvent χ} (h : s.Inv) (ha : s.Allowed e) :
    ∃ s', s.exec e = .ok s' ∧ s'.Inv := by
  cases e with
  | tryKey conn key ifModifiedSince mtime now =>
    obtain ⟨res, c, hc, hinv, -⟩ := h.cache.tryKey key ifModifiedSince mtime now
    exact ⟨s.hold conn c res, by simp [CacheRun.exec, hc], h.hold ha hinv⟩
  | storeBegin conn resp now addr => exact h.storeBegin resp now addr ha.1 ha.2
  | storeEnd conn place =>
    obtain ⟨r, -, hmem⟩ := recOf_of_mem ha
    obtain ⟨s', hs', hinv, -⟩ := h.storeEnd place hmem
    exact ⟨s', hs', hinv⟩
  | unref conn now =>
    obtain ⟨r, -, hmem⟩ := recOf_of_mem ha
    obtain ⟨c, hc, hinv, -⟩ := h.unref now hmem
    exact ⟨_, hc, hinv⟩

theorem Inv.step {e : CacheEvent χ} (h : s.Inv) (hstep : s.step e = some s') : s'.Inv := by
  by_cases ha : s.Allowed e
  · obtain ⟨s₁, hs₁, hinv⟩ := h.exec ha
    obtain rfl : s₁ = s' := by simpa [CacheRun.step, ha, hs₁, Except.toOption] using hstep
    exact hinv
  · simp [CacheRun.step, ha] at hstep

end Steps

section Runs

/-- A cache that is in order. -/
structure Consistent (s : CacheRun χ) : Prop where
  /-- The list is a doubly linked list of exactly the records in the table. -/
  lru : ∃ l, s.cache.lru.Holds l ∧ ∀ r, r ∈ l ↔ s.cache.InTable r
  /-- Every record of the table is stored under the key embedded in it. -/
  keyed : ∀ key r, s.cache.table.lookup key = some r → (s.cache.recs r).key = key
  /-- The reference count of a record is the number of requests that hold it. -/
  ref_count : ∀ r ∈ s.cache.live, (s.cache.recs r).refCount = s.holders r
  /-- What is in the table or held is allocated, and what is allocated is in the table, held or
  about to be stored. -/
  live_iff : ∀ r, r ∈ s.cache.live ↔ s.cache.InTable r ∨ (∃ conn, (conn, r) ∈ s.holds) ∨
    ∃ conn, (conn, r) ∈ s.pending
  /-- A record that is about to be stored is not in the cache yet. -/
  pending_new : ∀ conn r, (conn, r) ∈ s.pending →
    ¬ s.cache.InTable r ∧ ∀ conn', (conn', r) ∉ s.holds
  /-- No assertion fails, no memory is freed twice, and all loops end. -/
  succeeds : ∀ e, s.Allowed e → ∃ s', s.exec e = .ok s'
  /-- The last holder of a record that is no longer in the table frees it, the others do not. -/
  last_holder : ∀ conn r now s', (conn, r) ∈ s.holds → ¬ s.cache.InTable r →
    s.step (.unref conn now) = some s' →
    (r ∉ s'.cache.live ↔ ∀ conn', (conn', r) ∈ s.holds → conn' = conn)
  /-- `cache_rec_unref` leaves at most as many records as allowed, or only referenced ones. -/
  unref_size : ∀ conn now s', s.step (.unref conn now) = some s' →
    s'.cache.size ≤ maxCachedItems ∨
      ∀ r, s'.cache.InTable r → (s'.cache.recs r).refCount ≠ 0
  /-- So does `nxweb_cache_store_response` if it has put its record into the table. -/
  store_size : ∀ conn r place s', (conn, r) ∈ s.pending →
    s.step (.storeEnd conn place) = some s' → (conn, r) ∈ s'.holds →
    s'.cache.size ≤ maxCachedItems ∨
      ∀ r, s'.cache.InTable r → (s'.cache.recs r).refCount ≠ 0

/-- Allowed calls do what `exec` says. -/
theorem exec_of_step {e : CacheEvent χ} (hstep : s.step e = some s') :
    s.Allowed e ∧ s.exec e = .ok s' := by
  by_cases ha : s.Allowed e
  · refine ⟨ha, ?_⟩
    cases hexec : s.exec e with
    | ok s₁ => simpa [CacheRun.step, ha, hexec, Except.toOption] using hstep
    | error e => simp [CacheRun.step, ha, hexec, Except.toOption] at hstep
  · simp [CacheRun.step, ha] at hstep

theorem Inv.consistent (h : s.Inv) : s.Consistent where
  lru := h.cache.lru
  keyed := h.cache.keyed
  ref_count := h.cache.refCount
  live_iff r := by
    rw [h.cache.live_iff r, holders_pos_iff, List.mem_map]
    simp
  pending_new conn r hmem := by
    obtain ⟨hnot, hzero⟩ := h.cache.pend_new r (List.mem_map.mpr ⟨_, hmem, rfl⟩)
    refine ⟨hnot, fun conn' hheld => ?_⟩
    have := holders_pos_iff.mpr ⟨conn', hheld⟩
    omega
  succeeds e ha := by
    obtain ⟨s', hs', -⟩ := h.exec ha
    exact ⟨s', hs'⟩
  last_holder conn r now s' hmem hnot hstep := by
    obtain ⟨c, hc, hinv, -, hsub⟩ := h.unref now hmem
    obtain rfl := Except.ok.inj (hc.symm.trans (exec_of_step hstep).2)
    have hpending : r ∉ s.pending.map Prod.snd := fun hp => by
      have := holders_pos_iff.mpr ⟨conn, hmem⟩
      have := (h.cache.pend_new r hp).2
      omega
    rw [hinv.cache.live_iff r, holders_pos_iff]
    have hnodup : s.holds.Nodup := List.Nodup.of_map _ h.holds_nodup
    constructor
    · intro hfreed conn' hheld
      by_contra hne
      refine hfreed (.inr (.inl ⟨conn', hnodup.mem_erase_iff.mpr ⟨?_, hheld⟩⟩))
      exact fun heq => hne (Prod.mk.inj heq).1
    · rintro honly (hin | ⟨conn', hheld⟩ | hp)
      · exact hnot (hsub r hin)
      · obtain ⟨hne, hheld⟩ := hnodup.mem_erase_iff.mp hheld
        exact hne (by rw [honly conn' hheld])
      · exact hpending hp
  unref_size conn now s' hstep := by
    obtain ⟨ha, hexec⟩ := exec_of_step hstep
    obtain ⟨r, -, hmem⟩ := recOf_of_mem ha
    obtain ⟨c, hc, -, hbound, -⟩ := h.unref now hmem
    obtain rfl := Except.ok.inj (hc.symm.trans hexec)
    exact hbound
  store_size conn r place s' hmem hstep hheld := by
    obtain ⟨s₁, hs₁, -, hbound⟩ := h.storeEnd place hmem
    obtain rfl := Except.ok.inj (hs₁.symm.trans (exec_of_step hstep).2)
    exact hbound hheld

omit [DecidableEq χ] in
theorem inv_init (recs : ℕ → CacheRec) : (init recs : CacheRun χ).Inv where
  cache :=
    { lru := ⟨[], DList.holds_nil rfl rfl, by simp [InTable, init]⟩
      keyed := by simp [init]
      unlinked := by simp [init]
      refCount := by simp [init]
      live_iff := by simp [init, InTable, holders]
      live_nodup := List.nodup_nil
      pend_nodup := List.nodup_nil
      pend_new := by simp [init] }
  holds_nodup := List.nodup_nil
  pending_nodup := List.nodup_nil
  apart := by simp [init]

/-- The memory cache is in order after any interleaving of the calls of any number of requests,
whatever their clocks, keys and files are. -/
theorem mem_cache_consistent (recs : ℕ → CacheRec) (es : List (CacheEvent χ)) (s : CacheRun χ)
    (hrun : run step (init recs) es = some s) : s.Consistent := by
  have h : s.Inv := run_inv (fun _ _ _ h hstep => h.step hstep) (inv_init recs) hrun
  exact h.consistent

/-- A response with the content of a file of one byte. -/
def oneByteResponse : StoreRequest where
  statusCode := 200
  hasSendfilePath := true
  contentLength := 1
  sendfileOffset := 0
  sendfileEnd := 1
  stSize := 1
  lastModified := 7
  cacheKey := [97]
  body := some { content := [98], contentType := none, contentCharset := none, gzipEncoded := false }

-- a new record at the address of the one that the same call has found expired
example :
    (run step (init fun _ => ⟨[], ⟨[], none, none, false⟩, 0, 0, 0⟩)
      [.storeBegin 0 oneByteResponse 0 1, .storeEnd 0 true, .unref 0 0,
        .storeBegin 1 { oneByteResponse with lastModified := 8 } 30000001 1]).map
      (fun s => (s.cache.live, s.pending)) = some ([1], [(1, 1)]) := by
  decide

/-- Requests `0` and `1` store the same key at once, request `2` finds the record expired, and the
holders of the record give it back. -/
def sameKeyTwice : List (CacheEvent ℕ) :=
  [.storeBegin 0 oneByteResponse 0 1, .storeBegin 1 oneByteResponse 0 2, .storeEnd 0 true,
    .storeEnd 1 true, .tryKey 2 [97] 0 8 30000001, .unref 0 30000001, .unref 1 30000001]

theorem mem_cache_consistent_sameKeyTwice :
    (run step (init fun _ => ⟨[], ⟨[], none, none, false⟩, 0, 0, 0⟩) sameKeyTwice).map
        (·.cache.live) = some [] ∧
      ∀ s, run step (init fun _ => ⟨[], ⟨[], none, none, false⟩, 0, 0, 0⟩) sameKeyTwice = some s →
        s.Consistent :=
  ⟨by decide, fun s hs => mem_cache_consistent _ sameKeyTwice s hs⟩

end Runs

end CacheRun

end Nxweb
