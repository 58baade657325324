import Nxweb.Cache.AlignHashTable

/-!
# The hash table is resized

A table is resized inside its arrays. While this goes on, a cell belongs to the old table until its
element has been moved, or to the new one, and one element may be in hand, because another one has
been put into its cell. The elements of the old table, of the new one and in hand are always those
of the map.

## Main results

* `AhMoving.kickLoop_eq`: an element in hand finds its place, and so do those that it displaces;
* `AhTable.alignhashResize_eq`: the table that has been resized shows the same map.
-/

namespace Nxweb

open Lib Lib.Probing

variable {K V : Type} {hash : K → BitVec 32}

/-- Two tables in the same cells: the buckets of the old one that have not been moved, and those of
the new one. The elements in hand are in neither of them. -/
structure AhMoving (hash : K → BitVec 32) (nb q : ℕ) (mv : AhMove K V) (old new : ℕ → Slot K V)
    (hand : List (Σ _ : K, V)) (m : AList fun _ : K => V) : Prop where
  keys : nb ≤ mv.keys.length ∧ 2 ^ q ≤ mv.keys.length
  vals : nb ≤ mv.vals.length ∧ 2 ^ q ≤ mv.vals.length
  old_shows : ∀ i < nb, AhShows mv.flags mv.keys mv.vals i (old i)
  new_shows : ∀ i < 2 ^ q, AhShows mv.newFlags mv.keys mv.vals i (new i)
  fresh : ∀ i < 2 ^ q, new i ≠ .deleted
  valid : (ahProbing hash q).Valid new
  perm : (hand ++ (pairs old nb ++ pairs new (2 ^ q))).Perm m.entries

/-- A slot without a pair shows nothing of the cells. -/
theorem AhShows.of_pair_eq_none {flags : List (BitVec 32)} {keys keys' : List (Option K)}
    {vals vals' : List (Option V)} {i : ℕ} {t : Slot K V} (h : AhShows flags keys vals i t)
    (ht : t.pair = none) : AhShows flags keys' vals' i t := by
  cases t with
  | empty => exact h
  | deleted => exact h
  | used k v => cases ht

/-- The search for an empty bucket of the new table. -/
theorem ahProbeFree_eq {newFlags : List (BitVec 32)} {keys : List (Option K)}
    {vals : List (Option V)} {new : ℕ → Slot K V} {q stop : ℕ} {k : K}
    (hshows : ∀ i < 2 ^ q, AhShows newFlags keys vals i (new i))
    (hpass : (ahProbing hash q).Passed new k stop)
    (hend : new ((ahProbing hash q).probe k stop) = .empty) {j fuel : ℕ} (hj : j ≤ stop)
    (hfuel : stop < j + fuel) :
    ahProbeFree newFlags (2 ^ q - 1) fuel ((ahProbing hash q).probe k j) =
      some ((ahProbing hash q).probe k stop) := by
  induction fuel generalizing j with
  | zero => omega
  | succ fuel ih =>
    rw [ahProbeFree, (hshows _ ((ahProbing hash q).probe_lt k j)).isEmpty]
    rcases hj.lt_or_eq with hlt | rfl
    · have hne : (new ((ahProbing hash q).probe k j)).isEmpty = false :=
        Bool.eq_false_iff.mpr (Slot.isEmpty_iff.not.mpr (hpass j hlt))
      rw [hne, probe_succ]
      exact ih hlt (by omega)
    · rw [hend]
      rfl

namespace AhMoving

variable {nb q : ℕ} {mv : AhMove K V} {old new : ℕ → Slot K V} {hand : List (Σ _ : K, V)}
  {m : AList fun _ : K => V}

theorem length_lt (hm : AhMoving hash nb q mv old new hand m) (hroom : m.entries.length < 2 ^ q) :
    busy new (2 ^ q) < 2 ^ q := by
  rw [← length_pairs_of_ne_deleted hm.fresh]
  have hlength := hm.perm.length_eq
  simp only [List.length_append] at hlength
  omega

/-- An element is put into an empty bucket of the new table, whose cell is not one of the old table
any more. -/
theorem place (flags : List (BitVec 32)) (old' : ℕ → Slot K V) (hand' : List (Σ _ : K, V)) (v : V)
    {newFlags : List (BitVec 32)} {x : ℕ} {k : K} (hm : AhMoving hash nb q mv old new hand m)
    (hx : x < 2 ^ q) (hreached : (ahProbing hash q).Reached new k x)
    (hnew : AhChanged mv.newFlags x (false, false) newFlags)
    (hold : ∀ i ≠ x, ahFlags flags i = ahFlags mv.flags i ∧ old' i = old i)
    (hshows : x < nb → (old' x).pair = none ∧ AhShows flags mv.keys mv.vals x (old' x))
    (hperm : (hand' ++ (pairs old' nb ++
      pairs (Function.update new x (.used k v)) (2 ^ q))).Perm m.entries) :
    AhMoving hash nb q
      { flags, newFlags, keys := mv.keys.set x (some k), vals := mv.vals.set x (some v) }
      old' (Function.update new x (.used k v)) hand' m where
  keys := by simpa using hm.keys
  vals := by simpa using hm.vals
  old_shows i hi := by
    by_cases hix : i = x
    · subst hix
      exact (hshows hi).2.of_pair_eq_none (hshows hi).1
    · obtain ⟨hflags, hslot⟩ := hold i hix
      rw [hslot]
      exact (hm.old_shows i hi).congr hflags (List.getElem?_set_ne (Ne.symm hix))
        (List.getElem?_set_ne (Ne.symm hix))
  new_shows i hi := by
    by_cases hix : i = x
    · rw [hix, Function.update_self]
      exact ⟨hnew.at_eq, List.getElem?_set_self (hx.trans_le hm.keys.2),
        List.getElem?_set_self (hx.trans_le hm.vals.2)⟩
    · rw [Function.update_of_ne hix]
      exact (hm.new_shows i hi).congr (hnew.at_ne i hix) (List.getElem?_set_ne (Ne.symm hix))
        (List.getElem?_set_ne (Ne.symm hix))
  fresh i hi := by
    by_cases hix : i = x
    · rw [hix, Function.update_self]
      simp
    · rw [Function.update_of_ne hix]
      exact hm.fresh i hi
  valid := by
    refine hm.valid.update (by simp) ?_
    intro k' v' heq
    obtain ⟨rfl, -⟩ := Slot.used.inj heq
    exact hreached
  perm := hperm

/-- The element in hand finds its place, and so do those that are in the way. -/
theorem kickLoop_eq {k : K} {v : V} (hm : AhMoving hash nb q mv old new [⟨k, v⟩] m)
    (hroom : m.entries.length < 2 ^ q) {fuel : ℕ} (hfuel : (pairs old nb).length < fuel) :
    ∃ mv' old' new', ahKickLoop hash nb (2 ^ q) fuel mv k v = some mv' ∧
      AhMoving hash nb q mv' old' new' [] m ∧ ∀ i, (old i).pair = none → (old' i).pair = none := by
  induction fuel generalizing mv old new k v with
  | zero => omega
  | succ fuel ih =>
    obtain ⟨stop, hstop, hpass, hempty⟩ :=
      exists_free (P := ahProbing hash q) (hm.length_lt hroom) k
    obtain ⟨x, hxdef⟩ : ∃ x, x = (ahProbing hash q).probe k stop := ⟨_, rfl⟩
    have hx : x < 2 ^ q := hxdef ▸ (ahProbing hash q).probe_lt k stop
    have hprobe := ahProbeFree_eq hm.new_shows hpass hempty (Nat.zero_le stop)
      (by omega : stop < 0 + 2 ^ q)
    rw [← hxdef] at hprobe hempty
    have hreached : (ahProbing hash q).Reached new k x := ⟨stop, hxdef.symm, hpass⟩
    have hflags := hm.new_shows x hx
    rw [hempty] at hflags
    obtain ⟨newFlags, hclear, hnew⟩ := ahClearEmpty_spec hflags
    have hkeys : ahStore mv.keys x k = some (mv.keys.set x (some k)) :=
      ahStore_eq (hx.trans_le hm.keys.2) k
    have hvals : ahStore mv.vals x v = some (mv.vals.set x (some v)) :=
      ahStore_eq (hx.trans_le hm.vals.2) v
    have hput := perm_update_used hx (by rw [hempty]; rfl : (new x).pair = none) k v
    rw [ahKickLoop, probe_zero, hprobe]
    simp only [Option.bind_eq_bind, Option.bind_some, hclear]
    by_cases hway : x < nb ∧ (old x).pair ≠ none
    · -- the cell belongs to an element that has not been moved
      obtain ⟨hxnb, hpair⟩ := hway
      obtain ⟨⟨k', v'⟩, hpair⟩ := Option.ne_none_iff_exists'.mp hpair
      have hslot := Slot.pair_eq_some_iff.mp hpair
      have hshows := hm.old_shows x hxnb
      have heither := hshows.isEither
      rw [hslot] at hshows heither
      obtain ⟨hold, hkey, hval⟩ := hshows
      obtain ⟨flags, hdel, hchanged⟩ := ahSetDel_spec hold
      have htake := perm_update_free hxnb hslot Slot.pair_deleted
      have hm' := place flags (Function.update old x .deleted) [⟨k', v'⟩] v hm hx hreached hnew
        (fun i hi => ⟨hchanged.at_ne i hi, Function.update_of_ne hi _ _⟩)
        (fun _ => by rw [Function.update_self]; exact ⟨rfl, hchanged.at_eq⟩) ?_
      · obtain ⟨mv', old', new', hloop, hmoved, hkeep⟩ := ih hm' (by
          have := htake.length_eq
          rw [List.length_cons] at this
          omega)
        refine ⟨mv', old', new', ?_, hmoved, fun i hi => hkeep i ?_⟩
        · simp only [hxnb, heither, hkeys, hvals, hdel, ahLoad, hkey, hval, if_true]
          simpa using hloop
        · by_cases hix : i = x
          · rw [hix, Function.update_self]
            rfl
          · rwa [Function.update_of_ne hix]
      · exact (htake.symm.append_right _).trans
          ((hput.append_left _).trans (List.perm_middle.trans hm.perm))
    · have hm' := place mv.flags old [] v hm hx hreached hnew
        (fun i _ => ⟨rfl, rfl⟩)
        (fun hxnb => ⟨not_not.mp fun hne => hway ⟨hxnb, hne⟩, hm.old_shows x hxnb⟩)
        ((hput.append_left _).trans (List.perm_middle.trans hm.perm))
      refine ⟨_, old, _, ?_, hm', fun i hi => hi⟩
      by_cases hxnb : x < nb
      · have heither := (hm.old_shows x hxnb).isEither
        rw [not_not.mp fun hne => hway ⟨hxnb, hne⟩] at heither
        simp [hxnb, heither, hkeys, hvals]
      · simp [hxnb, hkeys, hvals]

/-- One turn of the loop over the buckets of the old table. -/
theorem moveBucket_eq (hm : AhMoving hash nb q mv old new [] m) (hroom : m.entries.length < 2 ^ q)
    {j : ℕ} (hj : j < nb) :
    ∃ mv' old' new', ahMoveBucket hash nb (2 ^ q) mv j = some mv' ∧
      AhMoving hash nb q mv' old' new' [] m ∧ (old' j).pair = none ∧
      ∀ i, (old i).pair = none → (old' i).pair = none := by
  have hshows := hm.old_shows j hj
  have heither := hshows.isEither
  cases hpair : (old j).pair with
  | none =>
    rw [hpair] at heither
    exact ⟨mv, old, new, by simp [ahMoveBucket, heither], hm, hpair, fun i hi => hi⟩
  | some kv =>
    obtain ⟨k, v⟩ := kv
    have hslot := Slot.pair_eq_some_iff.mp hpair
    rw [hslot] at hshows heither
    obtain ⟨hflags, hkey, hval⟩ := hshows
    obtain ⟨flags, hdel, hchanged⟩ := ahSetDel_spec hflags
    have htake := perm_update_free hj hslot Slot.pair_deleted
    -- the element is taken into the hand
    have hhand : AhMoving hash nb q { mv with flags } (Function.update old j .deleted) new
        [⟨k, v⟩] m :=
      { hm with
        old_shows := by
          intro i hi
          by_cases hij : i = j
          · rw [hij, Function.update_self]
            exact hchanged.at_eq
          · rw [Function.update_of_ne hij]
            exact (hm.old_shows i hi).congr (hchanged.at_ne i hij) rfl rfl
        perm := (htake.symm.append_right _).trans hm.perm }
    have hlength := htake.length_eq
    have hle := (length_pairs_le old nb).trans (busy_le old nb)
    rw [List.length_cons] at hlength
    obtain ⟨mv', old', new', hloop, hmoved, hkeep⟩ := hhand.kickLoop_eq hroom
      (by omega : (pairs (Function.update old j .deleted) nb).length < nb + 1)
    refine ⟨mv', old', new', ?_, hmoved, hkeep j (by rw [Function.update_self]; rfl),
      fun i hi => hkeep i ?_⟩
    · simpa [ahMoveBucket, heither, ahLoad, hkey, hval, hdel] using hloop
    · by_cases hij : i = j
      · rw [hij, Function.update_self]
        rfl
      · rwa [Function.update_of_ne hij]

/-- The loop over all buckets of the old table leaves nothing there. -/
theorem foldlM_eq (hm : AhMoving hash nb q mv old new [] m) (hroom : m.entries.length < 2 ^ q)
    {n : ℕ} (hn : n ≤ nb) :
    ∃ mv' old' new', (List.range n).foldlM (ahMoveBucket hash nb (2 ^ q)) mv = some mv' ∧
      AhMoving hash nb q mv' old' new' [] m ∧ ∀ i < n, (old' i).pair = none := by
  induction n with
  | zero => exact ⟨mv, old, new, rfl, hm, fun i hi => absurd hi (Nat.not_lt_zero i)⟩
  | succ n ih =>
    obtain ⟨mv₁, old₁, new₁, hfold, hm₁, hdone⟩ := ih (by omega)
    obtain ⟨mv₂, old₂, new₂, hmove, hm₂, hlast, hkeep⟩ :=
      hm₁.moveBucket_eq hroom (by omega : n < nb)
    refine ⟨mv₂, old₂, new₂, ?_, hm₂, fun i hi => ?_⟩
    · rw [List.range_succ, List.foldlM_append, hfold]
      simp [hmove]
    · rcases Nat.lt_succ_iff_lt_or_eq.mp hi with hlt | rfl
      · exact hkeep i (hdone i hlt)
      · exact hlast

end AhMoving

/-! ### A resize -/

section Resize

theorem length_ahRealloc {α : Type} (n : ℕ) (l : List (Option α)) : (ahRealloc n l).length = n := by
  rw [ahRealloc, List.length_append, List.length_take, List.length_replicate]
  omega

theorem getElem?_ahRealloc {α : Type} {n i : ℕ} {l : List (Option α)} (hi : i < n)
    (hl : i < l.length) : (ahRealloc n l)[i]? = l[i]? := by
  rw [ahRealloc, List.getElem?_append_left (by rw [List.length_take]; omega), List.getElem?_take,
    if_pos hi]

/-- An array that is long enough for both tables. -/
theorem grown {α : Type} {nb n : ℕ} {l : List (Option α)} (hl : nb ≤ l.length) :
    (nb ≤ (if nb < n then ahRealloc n l else l).length ∧
      n ≤ (if nb < n then ahRealloc n l else l).length) ∧
    ∀ i < nb, (if nb < n then ahRealloc n l else l)[i]? = l[i]? := by
  split_ifs with hlt
  · rw [length_ahRealloc]
    exact ⟨⟨hlt.le, le_rfl⟩, fun i hi => getElem?_ahRealloc (hi.trans hlt) (hi.trans_le hl)⟩
  · exact ⟨⟨hl, (not_lt.mp hlt).trans hl⟩, fun i hi => rfl⟩

/-- An array that may be cut to the length of the new table. -/
theorem shrunk {α : Type} {n : ℕ} {l : List (Option α)} (b : Bool) (hl : n ≤ l.length) :
    n ≤ (if b then ahRealloc n l else l).length ∧
    ∀ i < n, (if b then ahRealloc n l else l)[i]? = l[i]? := by
  cases b with
  | true =>
    simp only [if_true, length_ahRealloc]
    exact ⟨le_rfl, fun i hi => getElem?_ahRealloc hi (hi.trans_le hl)⟩
  | false => exact ⟨hl, fun i hi => rfl⟩

variable {h : AlignHash K V} {s : ℕ → Slot K V} {m : AList fun _ : K => V} {q : ℕ}

/-- A resize, where memory is available. The buckets of deleted elements are free again. -/
theorem alignhashResize_eq (hash : K → BitVec 32) (m : AList fun _ : K => V)
    (hkeys : h.nbucket ≤ h.keys.length) (hvals : h.nbucket ≤ h.vals.length)
    (hshows : ∀ i < h.nbucket, AhShows h.flags h.keys h.vals i (s i))
    (hperm : (pairs s h.nbucket).Perm m.entries) (hsize : h.size = m.entries.length)
    (hq : 0 < q) (hq' : q ≤ 31) (hroom : h.size < ahSup (2 ^ q)) (mem : AhMemory)
    (hflags : mem.flags = true)
    (hgrow : h.nbucket < 2 ^ q → mem.keys = true ∧ mem.vals = true) :
    ∃ h' s', alignhashResize hash h (2 ^ q) mem = some (h', true) ∧ h'.nused = h.size ∧
      AhTable hash h' q s' m := by
  have hlength : m.entries.length < 2 ^ q := hsize ▸ hroom.trans (ahSup_lt hq)
  obtain ⟨hkeys', hkeysAt⟩ := grown (n := 2 ^ q) hkeys
  obtain ⟨hvals', hvalsAt⟩ := grown (n := 2 ^ q) hvals
  have hstart : AhMoving hash h.nbucket q
      { flags := h.flags, newFlags := ahFreshFlags (2 ^ q)
        keys := if h.nbucket < 2 ^ q then ahRealloc (2 ^ q) h.keys else h.keys
        vals := if h.nbucket < 2 ^ q then ahRealloc (2 ^ q) h.vals else h.vals }
      s (fun _ => .empty) [] m :=
    { keys := hkeys'
      vals := hvals'
      old_shows := fun i hi => (hshows i hi).congr rfl (hkeysAt i hi) (hvalsAt i hi)
      new_shows := fun i hi => ahFlags_fresh hi
      fresh := fun i _ => by simp
      valid := fun i _ k v hslot => by cases hslot
      perm := by
        rw [pairs_eq_nil (s := fun _ => Slot.empty) fun i _ => rfl]
        simpa using hperm }
  obtain ⟨mv, old, new, hfold, hmoved, hdone⟩ := hstart.foldlM_eq hlength le_rfl
  have hpairs : (pairs new (2 ^ q)).Perm m.entries := by
    simpa [pairs_eq_nil hdone] using hmoved.perm
  have hbusy : busy new (2 ^ q) = h.size := by
    rw [← length_pairs_of_ne_deleted hmoved.fresh, hpairs.length_eq, hsize]
  obtain ⟨hkeysLen, hkeysEnd⟩ :=
    shrunk (decide (2 ^ q < h.nbucket) && mem.keys) hmoved.keys.2
  obtain ⟨hvalsLen, hvalsEnd⟩ :=
    shrunk (decide (2 ^ q < h.nbucket) && mem.vals) hmoved.vals.2
  refine ⟨ahFinish h (2 ^ q) mem mv, new, ?_, rfl, ?_⟩
  · rw [alignhashResize, if_neg (not_le.mpr hroom), hflags]
    by_cases hlt : h.nbucket < 2 ^ q
    · obtain ⟨hmemKeys, hmemVals⟩ := hgrow hlt
      simp only [hlt, if_true] at hfold
      simp [hlt, hmemKeys, hmemVals, hfold]
    · simp only [hlt, if_false] at hfold
      simp [hlt, hfold]
  · exact {
      nbucket := rfl
      pow_pos := hq
      pow_le := hq'
      keys := hkeysLen
      vals := hvalsLen
      shows := fun i hi => (hmoved.new_shows i hi).congr rfl (hkeysEnd i hi) (hvalsEnd i hi)
      valid := hmoved.valid
      perm := hpairs
      size := hsize
      nused := hbusy.symm
      sup := rfl
      busy_le := hbusy.trans_le hroom.le }

end Resize

end Nxweb
