import Mathlib.Data.List.AList
import Mathlib.Tactic

/-!
# Open addressing

A table with open addressing has `n` slots. A slot is empty, deleted, or used by a pair of a key and
a value. For each key there is an order in which all slots are probed, and a pair is found if no
slot that comes before its own is empty. So a slot that is no longer used becomes deleted, not
empty.

## Main results

* `Probing.exists_stop`: in a table that is not full, a search ends before a slot comes again, at
  the key or at an empty slot, and then the key is not in the table;
* `Probing.Valid.update`: what may be put into a slot so that all pairs are still found;
* `Probing.perm_insert`, `Probing.perm_erase`: what the changes of a slot do to the finite map of
  the pairs.
-/

namespace Lib

/-- A slot of a table. -/
inductive Slot (K V : Type*) where
  | empty
  | deleted
  | used (key : K) (value : V)
  deriving DecidableEq, Repr

variable {K V : Type*} {n : ℕ}

namespace Slot

/-- The pair in a slot. -/
def pair : Slot K V → Option (Σ _ : K, V)
  | .used k v => some ⟨k, v⟩
  | _ => none

/-- Whether a search ends at the slot without a result. -/
def isEmpty : Slot K V → Bool
  | .empty => true
  | _ => false

/-- Whether the slot has been used before. -/
def isDeleted : Slot K V → Bool
  | .deleted => true
  | _ => false

@[simp] theorem pair_empty : (empty : Slot K V).pair = none := rfl

@[simp] theorem pair_deleted : (deleted : Slot K V).pair = none := rfl

@[simp] theorem pair_used (k : K) (v : V) : (used k v).pair = some ⟨k, v⟩ := rfl

theorem pair_eq_some_iff {t : Slot K V} {k : K} {v : V} : t.pair = some ⟨k, v⟩ ↔ t = used k v := by
  cases t <;> simp

/-- Whether a search for the key goes on behind the slot. -/
def passes [DecidableEq K] (key : K) : Slot K V → Bool
  | .empty => false
  | .deleted => true
  | .used k _ => k ≠ key

theorem passes_iff [DecidableEq K] {t : Slot K V} {key : K} :
    t.passes key = true ↔ t ≠ empty ∧ ∀ v, t ≠ used key v := by
  cases t <;> simp [passes]

theorem isEmpty_iff {t : Slot K V} : t.isEmpty = true ↔ t = empty := by
  cases t <;> simp [isEmpty]

theorem isDeleted_iff {t : Slot K V} : t.isDeleted = true ↔ t = deleted := by
  cases t <;> simp [isDeleted]

end Slot

/-- The orders in which the slots are probed. In `n` probes no slot comes twice. -/
structure Probing (K : Type*) (n : ℕ) where
  /-- The slot that is probed at a turn. -/
  probe : K → ℕ → ℕ
  probe_lt : ∀ k m, probe k m < n
  injOn : ∀ k, Set.InjOn (probe k) (Set.Iio n)

namespace Probing

/-- One slot after the other, and the first one after the last one. -/
def linear (start : K → ℕ) (hn : 0 < n) : Probing K n where
  probe k m := (start k + m) % n
  probe_lt _ _ := Nat.mod_lt _ hn
  injOn k := by
    intro a ha b hb hab
    have hmod : a ≡ b [MOD n] := Nat.ModEq.add_left_cancel' _ hab
    exact hmod.eq_of_lt_of_lt ha hb

/-- The pairs in the first `n` slots. -/
def pairs (s : ℕ → Slot K V) (n : ℕ) : List (Σ _ : K, V) :=
  (List.range n).filterMap fun i => (s i).pair

/-- The number of slots at which a search goes on. -/
def busy (s : ℕ → Slot K V) (n : ℕ) : ℕ := (List.range n).countP fun i => !(s i).isEmpty

variable {s : ℕ → Slot K V} {x : ℕ} {t : Slot K V}

/-! ### Pairs and numbers -/

theorem mem_pairs_iff {k : K} {v : V} : ⟨k, v⟩ ∈ pairs s n ↔ ∃ i < n, s i = .used k v := by
  simp [pairs, Slot.pair_eq_some_iff]

theorem pairs_congr {s' : ℕ → Slot K V} (h : ∀ i < n, s i = s' i) : pairs s n = pairs s' n :=
  List.filterMap_congr fun i hi => by rw [h i (List.mem_range.mp hi)]

theorem busy_congr {s' : ℕ → Slot K V} (h : ∀ i < n, s i = s' i) : busy s n = busy s' n :=
  List.countP_congr fun i hi => by rw [h i (List.mem_range.mp hi)]

theorem pairs_eq_nil (h : ∀ i < n, (s i).pair = none) : pairs s n = [] :=
  List.filterMap_eq_nil_iff.mpr fun i hi => h i (List.mem_range.mp hi)

theorem pairs_succ (s : ℕ → Slot K V) (n : ℕ) :
    pairs s (n + 1) = pairs s n ++ (s n).pair.toList := by
  rw [pairs, List.range_succ, List.filterMap_append]
  cases h : (s n).pair <;> simp [pairs, h]

theorem busy_succ (s : ℕ → Slot K V) (n : ℕ) :
    busy s (n + 1) = busy s n + if (s n).isEmpty then 0 else 1 := by
  rw [busy, List.range_succ, List.countP_append]
  cases h : (s n).isEmpty <;> simp [busy, h]

theorem perm_append_swap {α : Type*} (l a b : List α) : (l ++ a ++ b).Perm (l ++ b ++ a) := by
  rw [List.append_assoc, List.append_assoc]
  exact List.perm_append_comm.append_left l

/-- The pairs of a table after one slot has changed. -/
theorem perm_update (hx : x < n) (t : Slot K V) :
    (pairs (Function.update s x t) n ++ (s x).pair.toList).Perm
      (pairs s n ++ t.pair.toList) := by
  induction n with
  | zero => exact absurd hx (Nat.not_lt_zero x)
  | succ n ih =>
    rw [pairs_succ, pairs_succ]
    by_cases hlast : x = n
    · subst hlast
      have hsame : pairs (Function.update s x t) x = pairs s x :=
        pairs_congr fun i hi => Function.update_of_ne hi.ne _ _
      rw [hsame, Function.update_self]
      exact perm_append_swap _ _ _
    · rw [Function.update_of_ne (Ne.symm hlast)]
      refine (perm_append_swap _ _ _).trans ?_
      refine ((ih (by omega)).append_right _).trans ?_
      exact perm_append_swap _ _ _

theorem length_pairs_update (hx : x < n) (t : Slot K V) :
    (pairs (Function.update s x t) n).length + (s x).pair.toList.length =
      (pairs s n).length + t.pair.toList.length := by
  rw [← List.length_append, (perm_update hx t).length_eq, List.length_append]

/-- A pair is put into a slot that has none. -/
theorem perm_update_used (hx : x < n) (hfree : (s x).pair = none) (k : K) (v : V) :
    (pairs (Function.update s x (.used k v)) n).Perm (⟨k, v⟩ :: pairs s n) := by
  have hperm := perm_update (s := s) hx (.used k v)
  rw [hfree, Option.toList_none, List.append_nil] at hperm
  exact hperm.trans (List.perm_append_singleton _ _)

/-- A pair is taken out of its slot. -/
theorem perm_update_free {k : K} {v : V} (hx : x < n) (hslot : s x = .used k v)
    (ht : t.pair = none) : (pairs s n).Perm (⟨k, v⟩ :: pairs (Function.update s x t) n) := by
  have hperm := perm_update (s := s) hx t
  rw [ht, hslot, Option.toList_none, List.append_nil] at hperm
  exact hperm.symm.trans (List.perm_append_singleton _ _)

theorem busy_update (hx : x < n) (t : Slot K V) :
    busy (Function.update s x t) n + (if (s x).isEmpty then 0 else 1) =
      busy s n + if t.isEmpty then 0 else 1 := by
  induction n with
  | zero => exact absurd hx (Nat.not_lt_zero x)
  | succ n ih =>
    rw [busy_succ, busy_succ]
    by_cases hlast : x = n
    · subst hlast
      have hsame : busy (Function.update s x t) x = busy s x :=
        busy_congr fun i hi => Function.update_of_ne hi.ne _ _
      rw [hsame, Function.update_self]
      omega
    · rw [Function.update_of_ne (Ne.symm hlast)]
      have := ih (by omega)
      omega

theorem busy_update_of_ne (hx : x < n) (hs : s x ≠ .empty) (ht : t ≠ .empty) :
    busy (Function.update s x t) n = busy s n := by
  have h := busy_update hx (s := s) t
  rwa [if_neg (Slot.isEmpty_iff.not.mpr hs), if_neg (Slot.isEmpty_iff.not.mpr ht),
    Nat.add_right_cancel_iff] at h

theorem busy_update_of_empty (hx : x < n) (hs : s x = .empty) (ht : t ≠ .empty) :
    busy (Function.update s x t) n = busy s n + 1 := by
  have h := busy_update hx (s := s) t
  rwa [if_pos (Slot.isEmpty_iff.mpr hs), if_neg (Slot.isEmpty_iff.not.mpr ht), add_zero] at h

theorem busy_le (s : ℕ → Slot K V) (n : ℕ) : busy s n ≤ n :=
  List.countP_le_length.trans_eq List.length_range

theorem length_pairs_le (s : ℕ → Slot K V) (n : ℕ) : (pairs s n).length ≤ busy s n := by
  induction n with
  | zero => exact le_rfl
  | succ n ih =>
    rw [pairs_succ, busy_succ, List.length_append]
    cases s n <;> simp [Slot.pair, Slot.isEmpty] <;> omega

/-- A table without deleted slots has as many pairs as slots at which a search goes on. -/
theorem length_pairs_of_ne_deleted (h : ∀ i < n, s i ≠ .deleted) :
    (pairs s n).length = busy s n := by
  induction n with
  | zero => rfl
  | succ n ih =>
    rw [pairs_succ, busy_succ, List.length_append, ih fun i hi => h i (by omega)]
    have hlast := h n (by omega)
    cases hs : s n <;> simp_all [Slot.pair, Slot.isEmpty]

/-- A table that is not full has an empty slot. -/
theorem exists_empty (h : busy s n < n) : ∃ i < n, s i = .empty := by
  by_contra! hall
  refine h.ne ?_
  rw [busy, List.countP_eq_length.mpr, List.length_range]
  intro i hi
  simpa [← Slot.isEmpty_iff] using hall i (List.mem_range.mp hi)

/-! ### Searches -/

variable (P : Probing K n)

/-- Every slot has its turn. -/
theorem exists_probe (k : K) (hx : x < n) : ∃ m < n, P.probe k m = x := by
  have hsurj : Set.SurjOn (P.probe k) (Finset.range n) (Finset.range n) :=
    Finset.surjOn_of_injOn_of_card_le _ (fun m _ => by simpa using P.probe_lt k m)
      (fun a ha b hb hab => P.injOn k (by simpa using ha) (by simpa using hb) hab) le_rfl
  obtain ⟨m, hm, hprobe⟩ := hsurj (by simpa using hx)
  exact ⟨m, by simpa using hm, hprobe⟩

/-- A search for the key passes so many slots without one being empty. -/
def Passed (s : ℕ → Slot K V) (k : K) (m : ℕ) : Prop := ∀ j < m, s (P.probe k j) ≠ .empty

/-- A search for the key gets to the slot. -/
def Reached (s : ℕ → Slot K V) (k : K) (x : ℕ) : Prop := ∃ m, P.probe k m = x ∧ P.Passed s k m

/-- Every pair can be found. -/
def Valid (s : ℕ → Slot K V) : Prop := ∀ i < n, ∀ k v, s i = .used k v → P.Reached s k i

variable {P}

/-- A slot that is not emptied keeps all pairs where they are found. -/
theorem Valid.update (h : P.Valid s) (hne : t ≠ .empty)
    (ht : ∀ k v, t = .used k v → P.Reached s k x) : P.Valid (Function.update s x t) := by
  have hpassed : ∀ k m, P.Passed s k m → P.Passed (Function.update s x t) k m := by
    intro k m hm j hj
    by_cases hprobe : P.probe k j = x
    · rwa [hprobe, Function.update_self]
    · rw [Function.update_of_ne hprobe]
      exact hm j hj
  intro i hi k v hslot
  by_cases hix : i = x
  · rw [hix, Function.update_self] at hslot
    obtain ⟨m, hm, hbefore⟩ := ht k v hslot
    exact ⟨m, hm.trans hix.symm, hpassed k m hbefore⟩
  · rw [Function.update_of_ne hix] at hslot
    obtain ⟨m, hm, hbefore⟩ := h i hi k v hslot
    exact ⟨m, hm, hpassed k m hbefore⟩

/-- In a table that is not full, every key gets to an empty slot. -/
theorem exists_free (hbusy : busy s n < n) (k : K) :
    ∃ m < n, P.Passed s k m ∧ s (P.probe k m) = .empty := by
  obtain ⟨i, hi, hempty⟩ := exists_empty hbusy
  obtain ⟨m₀, hm₀, hprobe⟩ := P.exists_probe k hi
  have hex : ∃ m, s (P.probe k m) = .empty := ⟨m₀, hprobe ▸ hempty⟩
  classical
  exact ⟨Nat.find hex, (Nat.find_min' hex (hprobe ▸ hempty)).trans_lt hm₀,
    fun j hj => Nat.find_min hex hj, Nat.find_spec hex⟩

/-- Where a search in a table that is not full ends: at an empty slot, and the key is not in the
table, or at the slot of the key. -/
theorem exists_stop [DecidableEq K] (h : P.Valid s) (hbusy : busy s n < n) (k : K) :
    ∃ m < n, (∀ j < m, (s (P.probe k j)).passes k = true) ∧
      (s (P.probe k m) = .empty ∧ (∀ v, ⟨k, v⟩ ∉ pairs s n) ∨
        ∃ v, s (P.probe k m) = .used k v) := by
  obtain ⟨m₀, hm₀, -, hempty⟩ := exists_free (P := P) hbusy k
  have hex : ∃ m, (s (P.probe k m)).passes k = false := ⟨m₀, by rw [hempty]; rfl⟩
  have hbefore : ∀ j < Nat.find hex, (s (P.probe k j)).passes k = true := by
    intro j hj
    simpa using Nat.find_min hex hj
  have hlt : Nat.find hex < n :=
    (Nat.find_min' hex (by rw [hempty]; rfl)).trans_lt hm₀
  have hstop : s (P.probe k (Nat.find hex)) = .empty ∨
      ∃ v, s (P.probe k (Nat.find hex)) = .used k v := by
    by_contra! hne
    have := Slot.passes_iff.mpr hne
    rw [Nat.find_spec hex] at this
    contradiction
  refine ⟨Nat.find hex, hlt, hbefore, hstop.imp_left fun hslot => ⟨hslot, fun v hmem => ?_⟩⟩
  -- the search for a pair of the table would have to pass the empty slot
  obtain ⟨i, hi, hused⟩ := mem_pairs_iff.mp hmem
  obtain ⟨m, hm, hpassed⟩ := h i hi k v hused
  rcases lt_trichotomy m (Nat.find hex) with hlt | heq | hgt
  · exact (Slot.passes_iff.mp (hbefore m hlt)).2 v (hm ▸ hused)
  · rw [← heq, hm, hused] at hslot
    cases hslot
  · exact hpassed _ hgt hslot

/-! ### The map of a table -/

section Map

variable [DecidableEq K] {m : AList fun _ : K => V} {k : K}

theorem kerase_cons_self (k : K) (v : V) (l : List (Σ _ : K, V)) :
    List.kerase k (⟨k, v⟩ :: l) = l :=
  List.kerase_cons_eq rfl

theorem lookup_eq_some_iff (h : (pairs s n).Perm m.entries) {v : V} :
    m.lookup k = some v ↔ ∃ i < n, s i = .used k v := by
  rw [← mem_pairs_iff, h.mem_iff]
  exact AList.mem_lookup_iff

/-- A pair is put into a free slot, or into the one of its key. -/
theorem perm_insert (h : (pairs s n).Perm m.entries) (hx : x < n)
    (hslot : (s x).pair = none ∧ k ∉ m ∨ ∃ v, s x = .used k v) (v : V) :
    (pairs (Function.update s x (.used k v)) n).Perm (m.insert k v).entries := by
  rw [AList.entries_insert]
  obtain ⟨hfree, hk⟩ | ⟨v₀, hslot⟩ := hslot
  · rw [List.kerase_of_notMem_keys hk]
    exact (perm_update_used hx hfree k v).trans (h.cons _)
  · -- what is left without the pair of the key
    have hrest := (perm_update_free hx hslot Slot.pair_deleted).symm.trans h
    have herase := hrest.kerase (a := k) ((List.perm_nodupKeys hrest).mpr m.nodupKeys)
    rw [kerase_cons_self] at herase
    have hnew := perm_update_used (s := Function.update s x .deleted) hx (by simp) k v
    rw [Function.update_idem] at hnew
    exact hnew.trans (herase.cons _)

/-- A pair is taken out of its slot. -/
theorem perm_erase (h : (pairs s n).Perm m.entries) (hx : x < n) {v : V} (hslot : s x = .used k v)
    (ht : t.pair = none) :
    (pairs (Function.update s x t) n).Perm (m.erase k).entries := by
  have hrest := (perm_update_free hx hslot ht).symm.trans h
  have herase := hrest.kerase (a := k) ((List.perm_nodupKeys hrest).mpr m.nodupKeys)
  rwa [kerase_cons_self] at herase

end Map

end Probing

end Lib
