import Nxweb.Http.Text
import Nxweb.Lib.CString
import Nxweb.Lib.Loop

/-!
# Comparing a number of characters

Model of `nx_strncasecmp` (`nxweb.h`). The loop looks at one character of each string in every turn,
and counts down behind that. So it goes on to the character behind the last one that it should look
at, unless the strings differ or end before.

## Main results

* `comparesPrefix_iff`: when the comparison is one of the first characters only.
-/

namespace Nxweb

open Lib

/-- The value of a `char`. -/
def charValue (c : UInt8) : ℤ := if c.toNat < 128 then c.toNat else c.toNat - 256

/-- The variables of `nx_strncasecmp`, and the pairs of places that it has looked at. -/
structure CompareFrame where
  p1 : ℕ
  p2 : ℕ
  len : ℤ
  seen : List (ℕ × ℕ)

/-- A turn of the loop. -/
def strncasecmpTurn (mem : List UInt8) (f : CompareFrame) :
    Turn CompareFrame (ℤ × List (ℕ × ℕ)) :=
  .orFault do
    let c1 ← mem[f.p1]?
    let c2 ← mem[f.p2]?
    let seen := f.seen ++ [(f.p1, f.p2)]
    let result := charValue (nxTolower c1) - charValue (nxTolower c2)
    if result ≠ 0 then some (.ret (result, seen))
    else if f.len = 0 ∨ c1 = 0 then some (.ret (result, seen))
    else some (.next ⟨f.p1 + 1, f.p2 + 1, f.len - 1, seen⟩)

/-- `nx_strncasecmp`: its result, and the pairs of places that it looks at. -/
def nxStrncasecmp (fuel : ℕ) (mem : List UInt8) (s1 s2 : ℕ) (len : ℤ) :
    Option (ℤ × List (ℕ × ℕ)) :=
  if s1 = s2 ∨ len ≤ 0 then some (0, []) else loop (strncasecmpTurn mem) fuel ⟨s1, s2, len, []⟩

/-- There is a string at this place. -/
structure ComparedAt (mem : List UInt8) (p : ℕ) (s : List UInt8) : Prop where
  zero_notMem : 0 ∉ s
  prefix_drop : s ++ [0] <+: mem.drop p

/-- The result says whether the strings agree up to case as far as `len` characters go, and nothing
behind these is looked at. -/
def ComparesPrefix (mem s s' : List UInt8) (p p' : ℕ) (len : ℕ) : Prop :=
  ∀ fuel, ∃ result seen, nxStrncasecmp (len + 1 + fuel) mem p p' len = some (result, seen) ∧
    (result = 0 ↔ strcaseEq (s.take len) (s'.take len) = true) ∧
    ∀ x ∈ seen, x.1 < p + len ∧ x.2 < p' + len

variable {mem s s' : List UInt8} {p p' n fuel : ℕ}

/-! ### Characters -/

theorem nxTolower_eq_zero {c : UInt8} : nxTolower c = 0 ↔ c = 0 := by
  unfold nxTolower
  split_ifs with hupper
  · have hle := UInt8.le_iff_toNat_le.mp hupper.1
    have hle' := UInt8.le_iff_toNat_le.mp hupper.2
    simp only [← UInt8.toNat_inj, UInt8.toNat_add, UInt8.reduceToNat] at hle hle' ⊢
    omega
  · rfl

theorem charValue_sub_eq_zero {c c' : UInt8} : charValue c - charValue c' = 0 ↔ c = c' := by
  constructor
  · intro h
    apply UInt8.toNat_inj.mp
    have hc := c.toNat_lt
    have hc' := c'.toNat_lt
    unfold charValue at h
    split_ifs at h <;> omega
  · rintro rfl
    exact sub_self _

theorem ComparedAt.head (h : ComparedAt mem p s) : mem[p]? = some (s.headD 0) := by
  obtain ⟨t, ht⟩ := h.prefix_drop
  have hget : (mem.drop p)[0]? = some (s.headD 0) := by
    rw [← ht]
    cases s <;> rfl
  rwa [List.getElem?_drop, Nat.add_zero] at hget

theorem ComparedAt.tail {c : UInt8} (h : ComparedAt mem p (c :: s)) : ComparedAt mem (p + 1) s := by
  refine ⟨fun hmem => h.zero_notMem (List.mem_cons_of_mem c hmem), ?_⟩
  obtain ⟨t, ht⟩ := h.prefix_drop
  rw [← List.drop_drop, ← ht]
  exact List.prefix_append _ _

theorem strcaseEq_cons {c c' : UInt8} {t t' : List UInt8} :
    strcaseEq (c :: t) (c' :: t') = true ↔ nxTolower c = nxTolower c' ∧ strcaseEq t t' = true := by
  unfold strcaseEq nxStrtolower
  simp only [List.map_cons, decide_eq_true_eq, List.cons.injEq]

/-! ### The loop -/

/-- A turn at two characters, which may be the terminators. -/
theorem strncasecmpTurn_eq (h : ComparedAt mem p s) (h' : ComparedAt mem p' s') (len : ℤ)
    (seen : List (ℕ × ℕ)) :
    strncasecmpTurn mem ⟨p, p', len, seen⟩ =
      let result := charValue (nxTolower (s.headD 0)) - charValue (nxTolower (s'.headD 0))
      if result ≠ 0 ∨ len = 0 ∨ s.headD 0 = 0 then .ret (result, seen ++ [(p, p')])
      else .next ⟨p + 1, p' + 1, len - 1, seen ++ [(p, p')]⟩ := by
  unfold strncasecmpTurn
  rw [h.head, h'.head]
  simp only [Option.bind_eq_bind, Option.bind_some]
  generalize charValue (nxTolower (s.headD 0)) - charValue (nxTolower (s'.headD 0)) = result
  by_cases hresult : result = 0
  · simp only [hresult, ne_eq, not_true_eq_false, if_false, false_or]
    split_ifs <;> rfl
  · simp only [ne_eq, hresult, not_false_eq_true, if_true, true_or]
    rfl

/-- Where one string ends, the other one agrees only if it does so too. -/
theorem strcaseEq_take_succ (hs : 0 ∉ s) (hs' : 0 ∉ s') (n : ℕ) :
    strcaseEq (s.take (n + 1)) (s'.take (n + 1)) = true ↔
      nxTolower (s.headD 0) = nxTolower (s'.headD 0) ∧
        strcaseEq (s.tail.take n) (s'.tail.take n) = true := by
  have hzero : nxTolower 0 = 0 := rfl
  cases s with
  | nil =>
    cases s' with
    | nil => simp [strcaseEq]
    | cons c' t' =>
      have hc' : nxTolower c' ≠ 0 := fun h => hs' (by simp [nxTolower_eq_zero.mp h])
      simpa [strcaseEq, nxStrtolower, hzero] using fun h : 0 = nxTolower c' => absurd h.symm hc'
  | cons c t =>
    have hc : nxTolower c ≠ 0 := fun h => hs (by simp [nxTolower_eq_zero.mp h])
    cases s' with
    | nil => simpa [strcaseEq, nxStrtolower, hzero] using fun h : nxTolower c = 0 => absurd h hc
    | cons c' t' => exact strcaseEq_cons

/-- The loop compares one character more than `n`, and stays in front of the `n`-th place exactly
if the strings end or differ there. -/
theorem loop_strncasecmpTurn (n : ℕ) (h : ComparedAt mem p s) (h' : ComparedAt mem p' s')
    (hfuel : n < fuel) (seen : List (ℕ × ℕ)) :
    ∃ result seen', loop (strncasecmpTurn mem) fuel ⟨p, p', n, seen⟩ =
        some (result, seen ++ seen') ∧
      (result = 0 ↔ strcaseEq (s.take (n + 1)) (s'.take (n + 1)) = true) ∧
      ((∀ x ∈ seen', x.1 < p + n ∧ x.2 < p' + n) ↔
        s.length < n ∨ strcaseEq (s.take n) (s'.take n) = false) := by
  induction n generalizing s s' p p' fuel seen with
  | zero =>
    obtain ⟨fuel, rfl⟩ := Nat.exists_eq_add_of_lt hfuel
    have hturn := strncasecmpTurn_eq h h' 0 seen
    have hagree := strcaseEq_take_succ h.zero_notMem h'.zero_notMem 0
    dsimp only at hturn
    -- the counter is zero only now, behind the comparison
    rw [if_pos (.inr (.inl rfl))] at hturn
    refine ⟨_, [(p, p')], loop_of_ret hturn _, ?_, by simp [strcaseEq]⟩
    rw [charValue_sub_eq_zero, hagree]
    simp [strcaseEq]
  | succ n ih =>
    obtain ⟨fuel, rfl⟩ := Nat.exists_eq_add_of_lt hfuel
    have hturn := strncasecmpTurn_eq h h' (n + 1 : ℕ) seen
    have hagree := strcaseEq_take_succ h.zero_notMem h'.zero_notMem (n + 1)
    have hagree' := strcaseEq_take_succ h.zero_notMem h'.zero_notMem n
    rw [← charValue_sub_eq_zero] at hagree hagree'
    have hcount : ((n + 1 : ℕ) : ℤ) ≠ 0 := by omega
    have hhere : ∀ x ∈ [(p, p')], x.1 < p + (n + 1) ∧ x.2 < p' + (n + 1) := by simp
    dsimp only at hturn
    by_cases hresult : charValue (nxTolower (s.headD 0)) - charValue (nxTolower (s'.headD 0)) = 0
    · by_cases hend : s.headD 0 = 0
      · -- both strings end here
        obtain rfl : s = [] := by
          cases s with
          | nil => rfl
          | cons c t => exact absurd hend fun heq => h.zero_notMem (by simp_all)
        rw [if_pos (.inr (.inr hend))] at hturn
        refine ⟨_, [(p, p')], loop_of_ret hturn _, ?_, iff_of_true hhere (.inl (Nat.succ_pos n))⟩
        obtain rfl : s' = [] := by
          cases s' with
          | nil => rfl
          | cons c t =>
            have hzero := nxTolower_eq_zero.mp (charValue_sub_eq_zero.mp hresult).symm
            exact absurd hzero fun heq => h'.zero_notMem (by simp_all)
        simp [strcaseEq]
      · obtain ⟨c, t, rfl⟩ : ∃ c t, s = c :: t := by
          cases s with
          | nil => exact absurd rfl hend
          | cons c t => exact ⟨c, t, rfl⟩
        obtain ⟨c', t', rfl⟩ : ∃ c t, s' = c :: t := by
          cases s' with
          | nil => exact absurd (nxTolower_eq_zero.mp (charValue_sub_eq_zero.mp hresult)) hend
          | cons c t => exact ⟨c, t, rfl⟩
        rw [if_neg (by tauto), show ((n + 1 : ℕ) : ℤ) - 1 = n by omega] at hturn
        obtain ⟨result, seen', hloop, hzero, hseen⟩ :=
          @ih _ _ _ _ (n + 1 + fuel) h.tail h'.tail (by omega) (seen ++ [(p, p')])
        refine ⟨result, (p, p') :: seen', ?_, ?_, ?_⟩
        · rw [loop_of_next hturn, hloop, List.append_assoc]
          rfl
        · rw [hzero, hagree]
          exact (and_iff_right hresult).symm
        · have hsame : strcaseEq ((c :: t).take (n + 1)) ((c' :: t').take (n + 1)) =
              strcaseEq (t.take n) (t'.take n) :=
            Bool.eq_iff_iff.mpr (hagree'.trans (and_iff_right hresult))
          rw [List.forall_mem_cons, and_iff_right (by simp), hsame, List.length_cons,
            Nat.add_lt_add_iff_right, ← hseen, Nat.add_assoc p, Nat.add_assoc p', Nat.add_comm 1]
    · -- the characters differ
      rw [if_pos (.inl hresult)] at hturn
      refine ⟨_, [(p, p')], loop_of_ret hturn _, ?_, ?_⟩
      · rw [hagree]
        tauto
      · refine iff_of_true hhere (.inr (Bool.eq_false_iff.mpr fun heq => ?_))
        exact hresult (hagree'.mp heq).1

/-! ### The whole comparison -/

theorem strcaseEq_take (n : ℕ) :
    strcaseEq (s.take n) (s'.take n) = true ↔
      (nxStrtolower s).take n = (nxStrtolower s').take n := by
  unfold strcaseEq nxStrtolower
  rw [decide_eq_true_eq, List.map_take, List.map_take]

theorem strcaseEq_take_of_succ (h : strcaseEq (s.take (n + 1)) (s'.take (n + 1)) = true) :
    strcaseEq (s.take n) (s'.take n) = true := by
  rw [strcaseEq_take] at h ⊢
  have htake := congrArg (List.take n) h
  rwa [List.take_take, List.take_take, min_eq_left (Nat.le_succ n)] at htake

/-- Behind the end of a string there is nothing to compare. -/
theorem strcaseEq_take_succ_of_lt (hlt : s.length < n) :
    strcaseEq (s.take (n + 1)) (s'.take (n + 1)) = true ↔
      strcaseEq (s.take n) (s'.take n) = true := by
  refine ⟨strcaseEq_take_of_succ, fun h => ?_⟩
  rw [strcaseEq_take] at h ⊢
  have hlength : ∀ t : List UInt8, (nxStrtolower t).length = t.length := fun t => List.length_map ..
  have hlt' : s'.length < n := by
    have := congrArg List.length h
    rw [List.length_take, List.length_take, hlength, hlength] at this
    omega
  rw [List.take_of_length_le (by rw [hlength]; omega),
    List.take_of_length_le (by rw [hlength]; omega)] at h ⊢
  exact h

theorem ComparedAt.unique (h : ComparedAt mem p s) (h' : ComparedAt mem p s') : s = s' := by
  obtain ⟨t, ht⟩ := h.prefix_drop
  obtain ⟨t', ht'⟩ := h'.prefix_drop
  have hread := cstr_append_zero h.zero_notMem t
  have hread' := cstr_append_zero h'.zero_notMem t'
  rw [List.append_assoc] at ht ht'
  rw [← hread, ← hread']
  exact congrArg cstr (ht.trans ht'.symm)

/-- The comparison is one of the first characters only, unless these are all there and agree: then
the ones behind them are compared too. One place is not compared with itself. -/
theorem comparesPrefix_iff {len : ℕ} (hlen : 0 < len) (h : ComparedAt mem p s)
    (h' : ComparedAt mem p' s') :
    ComparesPrefix mem s s' p p' len ↔
      p = p' ∨ s.length < len ∨ strcaseEq (s.take len) (s'.take len) = false := by
  by_cases hp : p = p'
  · subst hp
    obtain rfl := h.unique h'
    refine iff_of_true (fun fuel => ⟨0, [], if_pos (.inl rfl), ?_, by simp⟩) (.inl rfl)
    exact iff_of_true rfl ((strcaseEq_take len).mpr rfl)
  · have hrun : ∀ fuel, nxStrncasecmp fuel mem p p' len =
        loop (strncasecmpTurn mem) fuel ⟨p, p', len, []⟩ :=
      fun fuel => if_neg (by omega)
    rw [or_iff_right hp]
    constructor
    · intro hcompares
      obtain ⟨result, seen, heq, -, hseen⟩ := hcompares 0
      obtain ⟨result', seen', heq', -, hiff⟩ :=
        loop_strncasecmpTurn len h h' (by omega : len < len + 1 + 0) []
      rw [hrun, heq'] at heq
      obtain ⟨-, rfl⟩ := Prod.mk.inj (Option.some.inj heq)
      exact hiff.mp hseen
    · intro hends fuel
      obtain ⟨result, seen, heq, hresult, hiff⟩ :=
        loop_strncasecmpTurn len h h' (by omega : len < len + 1 + fuel) []
      refine ⟨result, seen, (hrun _).trans heq, hresult.trans ?_, hiff.mpr hends⟩
      rcases hends with hlt | hne
      · exact strcaseEq_take_succ_of_lt hlt
      · refine ⟨strcaseEq_take_of_succ, fun hagree => ?_⟩
        rw [hne] at hagree
        cases hagree

/-- Both strings end before the fourth character. -/
theorem comparesPrefix_ends :
    ComparesPrefix [65, 98, 0, 97, 66, 0] [65, 98] [97, 66] 0 3 4 ↔
      0 = 3 ∨ [(65 : UInt8), 98].length < 4 ∨
        strcaseEq ([65, 98].take 4) ([97, 66].take 4) = false :=
  comparesPrefix_iff (by decide) ⟨by decide, by decide⟩ ⟨by decide, by decide⟩

/-- The first two characters of `abx` and `ABy` agree, the third ones do not. -/
theorem not_comparesPrefix_third :
    ComparedAt [97, 98, 120, 0, 65, 66, 121, 0] 0 [97, 98, 120] ∧
      ComparedAt [97, 98, 120, 0, 65, 66, 121, 0] 4 [65, 66, 121] ∧
      ¬ ComparesPrefix [97, 98, 120, 0, 65, 66, 121, 0] [97, 98, 120] [65, 66, 121] 0 4 2 := by
  refine ⟨⟨by decide, by decide⟩, ⟨by decide, by decide⟩, fun h => ?_⟩
  obtain ⟨result, seen, heq, hiff, -⟩ := h 0
  have hrun : (nxStrncasecmp (2 + 1 + 0) [97, 98, 120, 0, 65, 66, 121, 0] 0 4 2).map Prod.fst =
      some (-1) := by decide
  obtain rfl : result = -1 := Option.some.inj ((congrArg (Option.map Prod.fst) heq).symm.trans hrun)
  exact absurd (hiff.mpr (by decide)) (by decide)

end Nxweb
