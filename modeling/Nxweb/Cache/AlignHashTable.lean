import Nxweb.Cache.AlignHash

/-!
# The buckets of the hash table

The buckets of a table show slots, and the pairs in the slots are those of a finite map. Searches
are those of open addressing, and a change to one bucket is a change of the map.

## Main results

* `AhTable.alignhashGet_eq`: what `alignhash_get` finds;
* `AhTable.alignhashDel_eq`: what `alignhash_del` leaves;
* `AhTable.insertKey_eq`: what `alignhash_set` does in a table with room.
-/

namespace Nxweb

open Lib Lib.Probing

variable {K V : Type} {hash : K → BitVec 32}

/-! ### Buckets and slots -/

/-- A bucket shows a slot. -/
def AhShows (flags : List (BitVec 32)) (keys : List (Option K)) (vals : List (Option V)) (i : ℕ) :
    Slot K V → Prop
  | .empty => ahFlags flags i = some (true, false)
  | .deleted => ahFlags flags i = some (false, true)
  | .used k v =>
    ahFlags flags i = some (false, false) ∧ keys[i]? = some (some k) ∧ vals[i]? = some (some v)

/-- Where the loops look for a key, in a table of `2 ^ p` buckets. -/
def ahProbing (hash : K → BitVec 32) (p : ℕ) : Probing K (2 ^ p) :=
  linear (fun k => (hash k).toNat) (Nat.two_pow_pos p)

/-- The buckets of a table show these slots, the pairs of a map. -/
structure AhTable (hash : K → BitVec 32) (h : AlignHash K V) (p : ℕ) (s : ℕ → Slot K V)
    (m : AList fun _ : K => V) : Prop where
  nbucket : h.nbucket = 2 ^ p
  pow_pos : 0 < p
  pow_le : p ≤ 31
  keys : 2 ^ p ≤ h.keys.length
  vals : 2 ^ p ≤ h.vals.length
  shows : ∀ i < 2 ^ p, AhShows h.flags h.keys h.vals i (s i)
  valid : (ahProbing hash p).Valid s
  perm : (pairs s (2 ^ p)).Perm m.entries
  size : h.size = m.entries.length
  nused : h.nused = busy s (2 ^ p)
  sup : h.sup = ahSup (2 ^ p)
  busy_le : busy s (2 ^ p) ≤ ahSup (2 ^ p)

theorem ahSup_two_pow (p : ℕ) : ahSup (2 ^ (p + 1)) = 2 ^ p := by
  rw [ahSup, pow_succ]
  omega

theorem ahSup_lt {p : ℕ} (hp : 0 < p) : ahSup (2 ^ p) < 2 ^ p := by
  obtain ⟨q, rfl⟩ := Nat.exists_eq_add_one.mpr hp
  rw [ahSup_two_pow]
  exact Nat.pow_lt_pow_succ one_lt_two

theorem probe_zero (k : K) (p : ℕ) :
    (hash k).toNat &&& (2 ^ p - 1) = (ahProbing hash p).probe k 0 :=
  Nat.and_two_pow_sub_one_eq_mod _ p

theorem probe_succ (k : K) (p j : ℕ) :
    ((ahProbing hash p).probe k j + 1) &&& (2 ^ p - 1) = (ahProbing hash p).probe k (j + 1) := by
  rw [Nat.and_two_pow_sub_one_eq_mod]
  exact Nat.mod_add_mod _ _ _

theorem probe_ne_zero (hash : K → BitVec 32) (k : K) {p j : ℕ} (hj : j + 1 < 2 ^ p) :
    (ahProbing hash p).probe k (j + 1) ≠ (ahProbing hash p).probe k 0 := fun h =>
  absurd ((ahProbing hash p).injOn k hj (Nat.two_pow_pos p) h) (Nat.succ_ne_zero j)

section Shows

variable {flags : List (BitVec 32)} {keys : List (Option K)} {vals : List (Option V)} {i : ℕ}
  {t : Slot K V}

theorem AhShows.isEmpty (h : AhShows flags keys vals i t) :
    ahIsEmpty flags i = some t.isEmpty := by
  rw [ahIsEmpty_eq]
  cases t with
  | empty => rw [show ahFlags flags i = _ from h]; rfl
  | deleted => rw [show ahFlags flags i = _ from h]; rfl
  | used k v => rw [h.1]; rfl

theorem AhShows.isDel (h : AhShows flags keys vals i t) :
    ahIsDel flags i = some t.isDeleted := by
  rw [ahIsDel_eq]
  cases t with
  | empty => rw [show ahFlags flags i = _ from h]; rfl
  | deleted => rw [show ahFlags flags i = _ from h]; rfl
  | used k v => rw [h.1]; rfl

theorem AhShows.isEither (h : AhShows flags keys vals i t) :
    ahIsEither flags i = some t.pair.isNone := by
  rw [ahIsEither_eq]
  cases t with
  | empty => rw [show ahFlags flags i = _ from h]; rfl
  | deleted => rw [show ahFlags flags i = _ from h]; rfl
  | used k v => rw [h.1]; rfl

theorem AhShows.exists_flags (h : AhShows flags keys vals i t) : ∃ f, ahFlags flags i = some f := by
  cases t with
  | empty => exact ⟨_, h⟩
  | deleted => exact ⟨_, h⟩
  | used k v => exact ⟨_, h.1⟩

/-- A bucket is not touched by what happens to another one. -/
theorem AhShows.congr {flags' : List (BitVec 32)} {keys' : List (Option K)}
    {vals' : List (Option V)} (h : AhShows flags keys vals i t)
    (hflags : ahFlags flags' i = ahFlags flags i) (hkeys : keys'[i]? = keys[i]?)
    (hvals : vals'[i]? = vals[i]?) : AhShows flags' keys' vals' i t := by
  cases t with
  | empty => exact hflags.trans h
  | deleted => exact hflags.trans h
  | used k v => exact ⟨hflags.trans h.1, hkeys.trans h.2.1, hvals.trans h.2.2⟩

end Shows

theorem ahStore_eq {α : Type} {l : List (Option α)} {i : ℕ} (hi : i < l.length) (a : α) :
    ahStore l i a = some (l.set i (some a)) :=
  if_pos hi

namespace AhTable

variable {h : AlignHash K V} {p : ℕ} {s : ℕ → Slot K V} {m : AList fun _ : K => V}

theorem busy_lt (ht : AhTable hash h p s m) : busy s (2 ^ p) < 2 ^ p :=
  ht.busy_le.trans_lt (ahSup_lt ht.pow_pos)

/-! ### Searches -/

theorem start_eq (ht : AhTable hash h p s m) (key : K) :
    (hash key).toNat &&& (h.nbucket - 1) = (ahProbing hash p).probe key 0 := by
  rw [ht.nbucket]
  exact probe_zero key p

theorem lookup_eq_none (ht : AhTable hash h p s m) [DecidableEq K] {key : K}
    (habsent : ∀ v, ⟨key, v⟩ ∉ pairs s (2 ^ p)) : m.lookup key = none := by
  refine Option.eq_none_iff_forall_ne_some.mpr fun v hv => ?_
  obtain ⟨i, hi, hslot⟩ := (lookup_eq_some_iff ht.perm).mp hv
  exact habsent v (mem_pairs_iff.mpr ⟨i, hi, hslot⟩)

section Searches

variable [DecidableEq K]

theorem goesOn_eq (ht : AhTable hash h p s m) (key : K) {i : ℕ} (hi : i < 2 ^ p) :
    h.goesOn key i = some ((s i).passes key) := by
  have hshows := ht.shows i hi
  rw [AlignHash.goesOn, hshows.isEmpty, hshows.isDel]
  cases hs : s i with
  | empty => rfl
  | deleted => rfl
  | used k v =>
    rw [hs] at hshows
    rw [ahLoad, hshows.2.1]
    rfl

theorem getLoop_eq (ht : AhTable hash h p s m) (key : K) {stop : ℕ} (hstop : stop < 2 ^ p)
    (hpass : ∀ j < stop, (s ((ahProbing hash p).probe key j)).passes key = true)
    (hend : (s ((ahProbing hash p).probe key stop)).passes key = false) {j fuel : ℕ}
    (hj : j ≤ stop) (hfuel : stop < j + fuel) :
    h.getLoop key ((ahProbing hash p).probe key 0) fuel ((ahProbing hash p).probe key j) =
      some (if (s ((ahProbing hash p).probe key stop)).isEmpty then h.nbucket
        else (ahProbing hash p).probe key stop) := by
  induction fuel generalizing j with
  | zero => omega
  | succ fuel ih =>
    have hlt := (ahProbing hash p).probe_lt key j
    rw [AlignHash.getLoop, ht.goesOn_eq key hlt]
    rcases hj.lt_or_eq with hlt' | rfl
    · rw [hpass j hlt', ht.nbucket, probe_succ]
      simp only [Option.bind_eq_bind, Option.bind_some, if_true,
        if_neg (probe_ne_zero hash key (by omega : j + 1 < 2 ^ p))]
      rw [ih hlt' (by omega), ht.nbucket]
    · rw [hend, (ht.shows _ hlt).isEmpty]
      rfl

/-- What `alignhash_get` returns: the bucket of the key, or the end. -/
theorem alignhashGet_eq (ht : AhTable hash h p s m) (key : K) :
    ∃ x, alignhashGet hash h key = some x ∧
      (x = h.nbucket ∧ m.lookup key = none ∨
        ∃ v, x < 2 ^ p ∧ s x = .used key v ∧ m.lookup key = some v) := by
  obtain ⟨stop, hstop, hpass, hend⟩ := exists_stop ht.valid ht.busy_lt key
  have hfuel : stop < 0 + h.nbucket := by
    rw [ht.nbucket]
    omega
  have hnbucket : h.nbucket ≠ 0 := by
    rw [ht.nbucket]
    exact (Nat.two_pow_pos p).ne'
  rw [alignhashGet, if_pos hnbucket, ht.start_eq]
  obtain ⟨hempty, habsent⟩ | ⟨v, hused⟩ := hend
  · refine ⟨h.nbucket, ?_, .inl ⟨rfl, ?_⟩⟩
    · rw [ht.getLoop_eq key hstop hpass (by rw [hempty]; rfl) (Nat.zero_le _) hfuel, hempty]
      rfl
    · exact ht.lookup_eq_none habsent
  · refine ⟨(ahProbing hash p).probe key stop, ?_, .inr ⟨v, ?_, hused, ?_⟩⟩
    · rw [ht.getLoop_eq key hstop hpass (by rw [hused]; simp [Slot.passes]) (Nat.zero_le _) hfuel,
        hused]
      rfl
    · exact (ahProbing hash p).probe_lt key stop
    · exact (lookup_eq_some_iff ht.perm).mpr ⟨_, (ahProbing hash p).probe_lt key stop, hused⟩

/-- What the loop of `alignhash_set` has seen: a deleted bucket, or none. -/
theorem setLoop_eq (ht : AhTable hash h p s m) (key : K) (site : ℕ) {stop : ℕ}
    (hstop : stop < 2 ^ p)
    (hpass : ∀ j < stop, (s ((ahProbing hash p).probe key j)).passes key = true)
    (hend : (s ((ahProbing hash p).probe key stop)).passes key = false) {j fuel : ℕ}
    (hj : j ≤ stop) (hfuel : stop < j + fuel) :
    ∃ site', h.setLoop key ((ahProbing hash p).probe key 0) fuel ((ahProbing hash p).probe key j)
        site = some ⟨(ahProbing hash p).probe key stop, site', false⟩ ∧
      (site' = site ∨ ∃ j' < stop, site' = (ahProbing hash p).probe key j' ∧
        s ((ahProbing hash p).probe key j') = .deleted) := by
  induction fuel generalizing j site with
  | zero => omega
  | succ fuel ih =>
    have hlt := (ahProbing hash p).probe_lt key j
    rw [AlignHash.setLoop, ht.goesOn_eq key hlt]
    rcases hj.lt_or_eq with hlt' | rfl
    · rw [hpass j hlt', (ht.shows _ hlt).isDel, ht.nbucket, probe_succ]
      simp only [Option.bind_eq_bind, Option.bind_some, if_true,
        if_neg (probe_ne_zero hash key (by omega : j + 1 < 2 ^ p))]
      obtain ⟨site', hloop, hsite⟩ := ih (if (s ((ahProbing hash p).probe key j)).isDeleted then
        (ahProbing hash p).probe key j else site) hlt' (by omega)
      refine ⟨site', hloop, ?_⟩
      rcases hsite with rfl | hsite
      · split_ifs with hdel
        · exact .inr ⟨j, hlt', rfl, Slot.isDeleted_iff.mp hdel⟩
        · exact .inl rfl
      · exact .inr hsite
    · rw [hend]
      exact ⟨site, rfl, .inl rfl⟩

/-- The bucket that `alignhash_set` chooses: the one of the key, or a free one where it is found. -/
theorem findSite_eq (ht : AhTable hash h p s m) (key : K) :
    ∃ x, h.findSite hash key = some x ∧ x < 2 ^ p ∧
      ((s x).pair = none ∧ m.lookup key = none ∧ (ahProbing hash p).Reached s key x ∨
        ∃ v, s x = .used key v ∧ m.lookup key = some v) := by
  obtain ⟨stop, hstop, hpass, hend⟩ := exists_stop ht.valid ht.busy_lt key
  have hfuel : stop < 0 + h.nbucket := by
    rw [ht.nbucket]
    omega
  have hreached : ∀ j ≤ stop, (ahProbing hash p).Reached s key ((ahProbing hash p).probe key j) :=
    fun j hj => ⟨j, rfl, fun i hi => (Slot.passes_iff.mp (hpass i (by omega))).1⟩
  have hlt := (ahProbing hash p).probe_lt key
  rw [AlignHash.findSite, ht.start_eq, (ht.shows _ (hlt 0)).isEmpty]
  cases hempty₀ : (s ((ahProbing hash p).probe key 0)).isEmpty with
  | true =>
    have hslot := Slot.isEmpty_iff.mp hempty₀
    obtain rfl : stop = 0 := by
      by_contra hne
      exact (Slot.passes_iff.mp (hpass 0 (Nat.pos_of_ne_zero hne))).1 hslot
    refine ⟨(ahProbing hash p).probe key 0, rfl, hlt 0, .inl ⟨by rw [hslot]; rfl, ?_, ?_⟩⟩
    · obtain ⟨-, habsent⟩ | ⟨v, hused⟩ := hend
      · exact ht.lookup_eq_none habsent
      · rw [hslot] at hused
        cases hused
    · exact hreached 0 le_rfl
  | false =>
    have hpasses : (s ((ahProbing hash p).probe key stop)).passes key = false := by
      obtain ⟨hempty, -⟩ | ⟨v, hused⟩ := hend
      · rw [hempty]; rfl
      · rw [hused]; simp [Slot.passes]
    obtain ⟨site, hloop, hsite⟩ := ht.setLoop_eq key h.nbucket hstop hpass hpasses
      (Nat.zero_le _) hfuel
    simp only [Option.bind_eq_bind, Option.bind_some, Bool.false_eq_true, if_false, hloop,
      if_true, (ht.shows _ (hlt stop)).isEmpty]
    obtain ⟨hempty, habsent⟩ | ⟨v, hused⟩ := hend
    · have hlookup := ht.lookup_eq_none habsent
      rw [hempty]
      rcases hsite with rfl | ⟨j, hj, rfl, hdeleted⟩
      · refine ⟨(ahProbing hash p).probe key stop, by simp, hlt stop, .inl ⟨?_, hlookup, ?_⟩⟩
        · rw [hempty]; rfl
        · exact hreached stop le_rfl
      · have hne : (ahProbing hash p).probe key j ≠ h.nbucket := by
          rw [ht.nbucket]
          exact (hlt j).ne
        refine ⟨(ahProbing hash p).probe key j, by simp [Slot.isEmpty, hne], hlt j,
          .inl ⟨?_, hlookup, hreached j hj.le⟩⟩
        rw [hdeleted]; rfl
    · rw [hused]
      refine ⟨(ahProbing hash p).probe key stop, by simp [Slot.isEmpty], hlt stop,
        .inr ⟨v, hused, ?_⟩⟩
      exact (lookup_eq_some_iff ht.perm).mpr ⟨_, hlt stop, hused⟩

end Searches

/-! ### One bucket changes -/

/-- What has to be shown of a table in which one bucket has changed. -/
theorem update {h' : AlignHash K V} {x : ℕ} {t : Slot K V} {m' : AList fun _ : K => V}
    (ht : AhTable hash h p s m) (hnbucket : h'.nbucket = h.nbucket) (hsup : h'.sup = h.sup)
    (hkeys : h'.keys.length = h.keys.length) (hvals : h'.vals.length = h.vals.length)
    (hframe : ∀ i ≠ x, ahFlags h'.flags i = ahFlags h.flags i ∧ h'.keys[i]? = h.keys[i]? ∧
      h'.vals[i]? = h.vals[i]?)
    (hshows : AhShows h'.flags h'.keys h'.vals x t) (hne : t ≠ .empty)
    (hreached : ∀ k v, t = .used k v → (ahProbing hash p).Reached s k x)
    (hperm : (pairs (Function.update s x t) (2 ^ p)).Perm m'.entries)
    (hsize : h'.size = m'.entries.length)
    (hnused : h'.nused = busy (Function.update s x t) (2 ^ p))
    (hbusy : busy (Function.update s x t) (2 ^ p) ≤ ahSup (2 ^ p)) :
    AhTable hash h' p (Function.update s x t) m' where
  nbucket := hnbucket.trans ht.nbucket
  pow_pos := ht.pow_pos
  pow_le := ht.pow_le
  keys := hkeys ▸ ht.keys
  vals := hvals ▸ ht.vals
  shows i hi := by
    by_cases hix : i = x
    · rw [hix, Function.update_self]
      exact hshows
    · rw [Function.update_of_ne hix]
      obtain ⟨hflags, hkey, hval⟩ := hframe i hix
      exact (ht.shows i hi).congr hflags hkey hval
  valid := ht.valid.update hne hreached
  perm := hperm
  size := hsize
  nused := hnused
  sup := hsup.trans ht.sup
  busy_le := hbusy

/-- A deleted element is no longer in the map. -/
theorem alignhashDel_eq (ht : AhTable hash h p s m) [DecidableEq K] {x : ℕ} {k : K} {v : V}
    (hx : x < 2 ^ p) (hslot : s x = .used k v) :
    ∃ h', alignhashDel h x = some h' ∧ h'.nbucket = h.nbucket ∧ h'.nused = h.nused ∧
      AhTable hash h' p (Function.update s x .deleted) (m.erase k) := by
  have hshows := ht.shows x hx
  rw [hslot] at hshows
  obtain ⟨flags, hdel, hchanged⟩ := ahSetDel_spec hshows.1
  have heither : ahIsEither h.flags x = some false := by
    rw [(ht.shows x hx).isEither, hslot]
    rfl
  have hperm := perm_erase ht.perm hx hslot (t := .deleted) rfl
  have hlength := length_pairs_update hx (s := s) .deleted
  rw [hslot] at hlength
  have hbusy : busy (Function.update s x .deleted) (2 ^ p) = busy s (2 ^ p) :=
    busy_update_of_ne hx (by simp [hslot]) (by simp)
  refine ⟨{ h with flags, size := h.size - 1 }, ?_, rfl, rfl, ht.update rfl rfl rfl rfl
    (fun i hi => ⟨hchanged.at_ne i hi, rfl, rfl⟩) hchanged.at_eq (by simp) (by simp) hperm ?_ ?_ ?_⟩
  · rw [alignhashDel, if_neg (by rw [ht.nbucket]; omega), heither, hdel]
    rfl
  · rw [← hperm.length_eq]
    change h.size - 1 = _
    rw [ht.size, ← ht.perm.length_eq]
    exact Nat.sub_eq_of_eq_add hlength.symm
  · exact ht.nused.trans hbusy.symm
  · exact hbusy.trans_le ht.busy_le

theorem setValue_eq {x : ℕ} (hx : x < h.vals.length) (v : V) :
    h.setValue x v = some { h with vals := h.vals.set x (some v) } := by
  rw [AlignHash.setValue, ahStore_eq hx]
  rfl

section Insert

variable [DecidableEq K]

/-- The value of an element is replaced. -/
theorem setValue (ht : AhTable hash h p s m) {x : ℕ} {k : K} {v₀ : V} (hx : x < 2 ^ p)
    (hslot : s x = .used k v₀) (v : V) :
    AhTable hash { h with vals := h.vals.set x (some v) } p (Function.update s x (.used k v))
      (m.insert k v) := by
  have hshows := ht.shows x hx
  rw [hslot] at hshows
  have hperm := perm_insert ht.perm hx (.inr ⟨v₀, hslot⟩) v
  have hlength := length_pairs_update hx (s := s) (.used k v)
  rw [hslot] at hlength
  have hbusy : busy (Function.update s x (.used k v)) (2 ^ p) = busy s (2 ^ p) :=
    busy_update_of_ne hx (by simp [hslot]) (by simp)
  refine ht.update rfl rfl rfl (List.length_set ..)
    (fun i hi => ⟨rfl, rfl, List.getElem?_set_ne hi.symm⟩)
    ⟨hshows.1, hshows.2.1, List.getElem?_set_self (hx.trans_le ht.vals)⟩ (by simp) ?_ hperm ?_ ?_ ?_
  · rintro k' v' heq
    obtain ⟨rfl, -⟩ := Slot.used.inj heq
    exact ht.valid x hx _ _ hslot
  · rw [← hperm.length_eq, Nat.add_right_cancel hlength, ht.perm.length_eq]
    exact ht.size
  · exact ht.nused.trans hbusy.symm
  · exact hbusy.trans_le ht.busy_le

/-- A new element in a free bucket, with its value. -/
theorem insertAt (ht : AhTable hash h p s m) {x : ℕ} {key : K} (hx : x < 2 ^ p)
    (hfree : (s x).pair = none) (hlookup : m.lookup key = none)
    (hreached : (ahProbing hash p).Reached s key x) (hroom : h.nused < h.sup) :
    ∃ keys flags, ahStore h.keys x key = some keys ∧ ahClearBoth h.flags x = some flags ∧
      ∀ v, AhTable hash { h with
          keys, flags, vals := h.vals.set x (some v), size := h.size + 1
          nused := h.nused + if (s x).isEmpty then 1 else 0 } p
        (Function.update s x (.used key v)) (m.insert key v) := by
  obtain ⟨f, hf⟩ := (ht.shows x hx).exists_flags
  obtain ⟨flags, hclear, hchanged⟩ := ahClearBoth_spec hf
  refine ⟨_, flags, ahStore_eq (hx.trans_le ht.keys) key, hclear, fun v => ?_⟩
  have hmem : key ∉ m := AList.lookup_eq_none.mp hlookup
  have hperm := perm_insert ht.perm hx (.inl ⟨hfree, hmem⟩) v
  have hlength := length_pairs_update hx (s := s) (.used key v)
  rw [hfree] at hlength
  have hbusy : busy (Function.update s x (.used key v)) (2 ^ p) =
      busy s (2 ^ p) + if (s x).isEmpty then 1 else 0 := by
    split_ifs with hempty
    · exact busy_update_of_empty hx (Slot.isEmpty_iff.mp hempty) (by simp)
    · exact busy_update_of_ne hx (Slot.isEmpty_iff.not.mp hempty) (by simp)
  refine ht.update rfl rfl (List.length_set ..) (List.length_set ..) (fun i hi =>
      ⟨hchanged.at_ne i hi, List.getElem?_set_ne hi.symm, List.getElem?_set_ne hi.symm⟩)
    ⟨hchanged.at_eq, List.getElem?_set_self (hx.trans_le ht.keys),
      List.getElem?_set_self (hx.trans_le ht.vals)⟩ (by simp) ?_ hperm ?_ ?_ ?_
  · rintro k' v' heq
    obtain ⟨rfl, -⟩ := Slot.used.inj heq
    exact hreached
  · change h.size + 1 = _
    rw [ht.size, ← ht.perm.length_eq, ← hperm.length_eq]
    exact hlength.symm
  · rw [hbusy, ← ht.nused]
  · rw [hbusy, ← ht.sup, ← ht.nused]
    split_ifs <;> omega

/-- What `alignhash_set` does behind the resize. The bucket of a new element waits for its value. -/
theorem insertKey_eq (ht : AhTable hash h p s m) (key : K) (hroom : h.nused < h.sup) :
    ∃ h' x ret, h.insertKey hash key = some (h', x, ret) ∧ x < 2 ^ p ∧ h'.nbucket = h.nbucket ∧
      h'.nused ≤ h.nused + 1 ∧
      (ret = .err ∧ h' = h ∧ (∃ v, s x = .used key v ∧ m.lookup key = some v) ∨
        ret ≠ .err ∧ m.lookup key = none) ∧
      ∀ v, ∃ h'', h'.setValue x v = some h'' ∧ h''.nbucket = h'.nbucket ∧ h''.nused = h'.nused ∧
        AhTable hash h'' p (Function.update s x (.used key v)) (m.insert key v) := by
  obtain ⟨x, hfind, hx, hsite⟩ := ht.findSite_eq key
  have hshows := ht.shows x hx
  rw [AlignHash.insertKey, hfind]
  simp only [Option.bind_eq_bind, Option.bind_some, hshows.isEmpty, hshows.isDel]
  obtain ⟨hfree, hlookup, hreached⟩ | ⟨v₀, hused, hlookup⟩ := hsite
  · obtain ⟨keys, flags, hstore, hclear, htable⟩ := ht.insertAt hx hfree hlookup hreached hroom
    have hvals : x < h.vals.length := hx.trans_le ht.vals
    cases hslot : s x with
    | empty =>
      rw [hslot] at htable
      exact ⟨{ h with keys, flags, size := h.size + 1, nused := h.nused + 1 }, x, .new,
        by simp [Slot.isEmpty, hstore, hclear], hx, rfl, le_rfl, .inr ⟨by simp, hlookup⟩,
        fun v => ⟨_, setValue_eq (by exact hvals) v, rfl, rfl, htable v⟩⟩
    | deleted =>
      rw [hslot] at htable
      exact ⟨{ h with keys, flags, size := h.size + 1 }, x, .del,
        by simp [Slot.isEmpty, Slot.isDeleted, hstore, hclear], hx, rfl, Nat.le_succ _,
        .inr ⟨by simp, hlookup⟩, fun v => ⟨_, setValue_eq (by exact hvals) v, rfl, rfl, htable v⟩⟩
    | used k v =>
      rw [hslot] at hfree
      cases hfree
  · rw [hused]
    exact ⟨h, x, .err, by simp [Slot.isEmpty, Slot.isDeleted], hx, rfl, Nat.le_succ _,
      .inl ⟨rfl, rfl, v₀, hused, hlookup⟩,
      fun v => ⟨_, setValue_eq (hx.trans_le ht.vals) v, rfl, rfl, ht.setValue hx hused v⟩⟩

end Insert

end AhTable

end Nxweb
