import Mathlib.Data.List.Infix
import Mathlib.Tactic

/-!
# Lexical paths

A path is a list of symbols cut into segments by a separator. Read from left to right, a
segment that is empty or a single dot stays where it is, two dots go up one level, and any
other segment goes down into a directory of that name. The path is confined if it never goes
up from the level it starts at.

The alphabet is arbitrary, with a separator `sep` and a dot `dot`.

## Main definitions

* `SegmentKind`, `segmentKind`: what a segment does;
* `climb`: the level after reading segments, `none` if the start level is left;
* `Confined`: the start level is never left;
* `resolve`: the names that are kept after reading segments;
* `rooted`: the text `sep seg sep seg … sep` of a list of segments.

## Main results

* `confined_of_names`: a path all of whose segments but the first are names is confined;
* `splitOn_rooted_append`: the segments of a rooted text;
* `length_rooted_resolve`: the kept names take up as much room as the segments exactly if all of
  them are names.
-/

namespace Lib

variable {α : Type*} [DecidableEq α]

/-- What a segment does to the level. -/
inductive SegmentKind where
  | here
  | up
  | name
  deriving DecidableEq, Repr

/-- The kind of a segment. -/
def segmentKind (dot : α) (s : List α) : SegmentKind :=
  if s = [] ∨ s = [dot] then .here else if s = [dot, dot] then .up else .name

/-- The level after reading segments from the level `d`, `none` if some segment goes up from
level zero. -/
def climb (dot : α) : ℕ → List (List α) → Option ℕ
  | d, [] => some d
  | d, s :: ss =>
    match segmentKind dot s with
    | .here => climb dot d ss
    | .up => if d = 0 then none else climb dot (d - 1) ss
    | .name => climb dot (d + 1) ss

/-- A path that never leaves the level it starts at. -/
def Confined (sep dot : α) (path : List α) : Prop :=
  (climb dot 0 (path.splitOn sep)).isSome

instance (sep dot : α) (path : List α) : Decidable (Confined sep dot path) :=
  inferInstanceAs (Decidable (_ = true))

/-- The names that are kept after reading segments behind the names `kept`, `none` if some segment
goes up and no name is kept. -/
def resolve (dot : α) : List (List α) → List (List α) → Option (List (List α))
  | kept, [] => some kept
  | kept, s :: ss =>
    match segmentKind dot s with
    | .here => resolve dot kept ss
    | .up => if kept = [] then none else resolve dot kept.dropLast ss
    | .name => resolve dot (kept ++ [s]) ss

theorem segmentKind_eq_here_iff {dot : α} {s : List α} :
    segmentKind dot s = .here ↔ s = [] ∨ s = [dot] := by
  unfold segmentKind
  split_ifs <;> simp_all

theorem segmentKind_eq_up_iff {dot : α} {s : List α} :
    segmentKind dot s = .up ↔ s = [dot, dot] := by
  unfold segmentKind
  split_ifs with hhere hup
  · rcases hhere with rfl | rfl <;> simp
  · simp [hup]
  · simp [hup]

/-- Segments are read one after another. -/
theorem resolve_append {dot : α} (kept ss ts : List (List α)) :
    resolve dot kept (ss ++ ts) = (resolve dot kept ss).bind fun kept' => resolve dot kept' ts := by
  induction ss generalizing kept with
  | nil => rfl
  | cons s ss ih =>
    rw [List.cons_append, resolve, resolve]
    cases segmentKind dot s with
    | here => exact ih kept
    | up =>
      split_ifs
      · rfl
      · exact ih kept.dropLast
    | name => exact ih (kept ++ [s])

/-- Only names are kept, and only segments. -/
theorem resolve_forall {dot : α} {P : List α → Prop} {kept ss ks : List (List α)}
    (h : resolve dot kept ss = some ks) (hkept : ∀ k ∈ kept, P k)
    (hss : ∀ s ∈ ss, segmentKind dot s = .name → P s) : ∀ k ∈ ks, P k := by
  induction ss generalizing kept with
  | nil =>
    obtain rfl := Option.some.inj h
    exact hkept
  | cons s ss ih =>
    have hss' : ∀ t ∈ ss, segmentKind dot t = .name → P t := fun t ht => hss t (by simp [ht])
    rw [resolve] at h
    cases hkind : segmentKind dot s with
    | here =>
      simp only [hkind] at h
      exact ih h hkept hss'
    | up =>
      simp only [hkind] at h
      split_ifs at h with hnil
      exact ih h (fun k hk => hkept k (List.mem_of_mem_dropLast hk)) hss'
    | name =>
      simp only [hkind] at h
      refine ih h (fun k hk => ?_) hss'
      rcases List.mem_append.mp hk with hk | hk
      · exact hkept k hk
      · exact List.mem_singleton.mp hk ▸ hss s (by simp) hkind

/-- Names only go down. -/
theorem climb_names {dot : α} {ss : List (List α)} (h : ∀ s ∈ ss, segmentKind dot s = .name)
    (d : ℕ) : climb dot d ss = some (d + ss.length) := by
  induction ss generalizing d with
  | nil => rfl
  | cons s ss ih =>
    simp only [climb, h s (by simp), ih fun t ht => h t (by simp [ht]), List.length_cons]
    congr 1
    omega

/-- The empty path is confined. -/
theorem confined_nil (sep dot : α) : Confined sep dot [] := by
  simp [Confined, climb, segmentKind]

/-- The text of a list of segments behind a separator, each closed by a separator. -/
def rooted (sep : α) (ss : List (List α)) : List α :=
  sep :: ss.flatMap (· ++ [sep])

omit [DecidableEq α] in
theorem rooted_append_singleton (sep : α) (ss : List (List α)) (s : List α) :
    rooted sep (ss ++ [s]) = rooted sep ss ++ (s ++ [sep]) := by
  simp [rooted]

omit [DecidableEq α] in
/-- A rooted text ends with a separator. -/
theorem rooted_eq_append (sep : α) (ss : List (List α)) :
    ∃ front, rooted sep ss = front ++ [sep] := by
  rcases List.eq_nil_or_concat ss with rfl | ⟨ts, t, rfl⟩
  · exact ⟨[], rfl⟩
  · exact ⟨rooted sep ts ++ t, by rw [List.concat_eq_append, rooted_append_singleton,
      List.append_assoc]⟩

/-- The segments of a rooted text with a last, open segment. -/
theorem splitOn_rooted_append {sep : α} {ss : List (List α)} {s : List α}
    (hss : ∀ t ∈ ss, sep ∉ t) (hs : sep ∉ s) :
    (rooted sep ss ++ s).splitOn sep = [] :: (ss ++ [s]) := by
  have hrest : ∀ ts : List (List α), (∀ t ∈ ts, sep ∉ t) →
      (ts.flatMap (· ++ [sep]) ++ s).splitOn sep = ts ++ [s] := by
    intro ts hts
    induction ts with
    | nil => simpa using List.splitOn_eq_singleton hs
    | cons t ts ih =>
      rw [List.flatMap_cons, List.append_assoc, List.append_assoc, List.singleton_append,
        List.splitOn_append_cons_self_of_not_mem (hts t (by simp)),
        ih fun u hu => hts u (by simp [hu]), List.cons_append]
  rw [rooted, List.cons_append, ← List.nil_append (sep :: _),
    List.splitOn_append_cons_self_of_not_mem (by simp), hrest ss hss]

/-- Segments do not contain the separator. -/
theorem sep_notMem_of_mem_splitOn {sep : α} {path s : List α} (h : s ∈ path.splitOn sep) :
    sep ∉ s := by
  induction path generalizing s with
  | nil => simp_all
  | cons c cs ih =>
    rw [List.splitOn_cons_eq_if_modifyHead] at h
    split_ifs at h with hc
    · rcases List.mem_cons.mp h with rfl | h
      · simp
      · exact ih h
    · obtain ⟨t, ts, hcs⟩ := List.exists_cons_of_ne_nil (List.splitOn_ne_nil sep cs)
      rw [hcs] at h ih
      rcases List.mem_cons.mp h with rfl | h
      · have hne : sep ≠ c := fun heq => hc (by simp [heq])
        simpa [hne] using ih (s := t) (by simp)
      · exact ih (by simp [h])

omit [DecidableEq α] in
/-- A separator stands between two joined parts. -/
theorem intercalate_append (sep : α) {ss ts : List (List α)} (hss : ss ≠ []) (hts : ts ≠ []) :
    [sep].intercalate (ss ++ ts) = [sep].intercalate ss ++ sep :: [sep].intercalate ts := by
  induction ss with
  | nil => exact absurd rfl hss
  | cons s ss ih =>
    by_cases hnil : ss = []
    · subst hnil
      rw [List.singleton_append, List.intercalate_cons_of_ne_nil hts, List.intercalate_singleton,
        List.append_assoc, List.singleton_append]
    · rw [List.cons_append, List.intercalate_cons_of_ne_nil (by simp [hnil]),
        List.intercalate_cons_of_ne_nil hnil, ih hnil, List.append_assoc _ _ (sep :: _)]

omit [DecidableEq α] in
/-- There is one separator less than there are parts. -/
theorem length_intercalate (sep : α) {ss : List (List α)} (hss : ss ≠ []) :
    ([sep].intercalate ss).length + 1 = ss.flatten.length + ss.length := by
  induction ss with
  | nil => exact absurd rfl hss
  | cons s ss ih =>
    by_cases hnil : ss = []
    · subst hnil
      simp
    · have := ih hnil
      rw [List.intercalate_cons_of_ne_nil hnil]
      simp only [List.length_append, List.length_cons, List.length_nil, List.flatten_cons]
      omega

/-- There is one segment more than there are separators. -/
theorem length_splitOn (sep : α) (path : List α) :
    (path.splitOn sep).length = path.count sep + 1 := by
  induction path with
  | nil => rfl
  | cons c path ih =>
    rw [List.splitOn_cons_eq_if_modifyHead, List.count_cons]
    split_ifs with hc
    · rw [List.length_cons, ih]
    · rw [List.length_modifyHead, ih, Nat.add_zero]

omit [DecidableEq α] in
/-- Joined segments, with the last one kept apart. -/
theorem intercalate_append_singleton (sep : α) (ss : List (List α)) (s : List α) :
    [sep].intercalate (ss ++ [s]) = ss.flatMap (· ++ [sep]) ++ s := by
  induction ss with
  | nil => simp
  | cons t ss ih =>
    rw [List.cons_append, List.intercalate_cons_of_ne_nil (by simp), ih]
    simp

/-- A path is the text of its segments. -/
theorem flatMap_append_of_splitOn {sep : α} {path : List α} {ss : List (List α)} {s : List α}
    (h : path.splitOn sep = ss ++ [s]) : path = ss.flatMap (· ++ [sep]) ++ s := by
  rw [← intercalate_append_singleton, ← h, List.intercalate_splitOn]

omit [DecidableEq α] in
/-- There are at most as many segments as symbols in their text. -/
theorem length_le_length_flatMap (sep : α) (ss : List (List α)) :
    ss.length ≤ (ss.flatMap (· ++ [sep])).length := by
  induction ss with
  | nil => simp
  | cons s ss ih =>
    simp only [List.flatMap_cons, List.length_append, List.length_cons, List.length_nil]
    omega

/-- The text of the kept names is at most as long as that of the segments, and as long only if
nothing was left out. -/
theorem length_rooted_resolve {sep dot : α} {kept ss ks : List (List α)}
    (h : resolve dot kept ss = some ks) :
    (rooted sep ks).length ≤ (rooted sep kept).length + (ss.flatMap (· ++ [sep])).length ∧
      ((rooted sep ks).length = (rooted sep kept).length + (ss.flatMap (· ++ [sep])).length ↔
        ∀ s ∈ ss, segmentKind dot s = .name) := by
  induction ss generalizing kept with
  | nil =>
    obtain rfl := Option.some.inj h
    simp
  | cons s ss ih =>
    have hlen : ((s :: ss).flatMap (· ++ [sep])).length =
        s.length + 1 + (ss.flatMap (· ++ [sep])).length := by
      rw [List.flatMap_cons, List.length_append, List.length_append, List.length_singleton]
    rw [resolve] at h
    cases hkind : segmentKind dot s with
    | here =>
      simp only [hkind] at h
      obtain ⟨hle, -⟩ := ih h
      refine ⟨by omega, fun heq => by omega, fun hall => ?_⟩
      have hname := hall s (by simp)
      rw [hkind] at hname
      cases hname
    | up =>
      simp only [hkind] at h
      split_ifs at h with hnil
      obtain ⟨hle, -⟩ := ih h
      have hdrop : (rooted sep kept.dropLast).length ≤ (rooted sep kept).length := by
        conv_rhs => rw [← List.dropLast_append_getLast hnil, rooted_append_singleton]
        rw [List.length_append]
        omega
      refine ⟨by omega, fun heq => by omega, fun hall => ?_⟩
      have hname := hall s (by simp)
      rw [hkind] at hname
      cases hname
    | name =>
      simp only [hkind] at h
      obtain ⟨hle, hiff⟩ := ih h
      have hmore : (rooted sep (kept ++ [s])).length = (rooted sep kept).length + s.length + 1 := by
        rw [rooted_append_singleton]
        simp [Nat.add_assoc]
      rw [hmore] at hle hiff
      refine ⟨by omega, ?_⟩
      rw [hlen, ← Nat.add_assoc, ← Nat.add_assoc, hiff]
      simp [hkind]

/-- A rooted path made of names is confined. -/
theorem confined_of_names {sep dot : α} {ss : List (List α)} {s : List α}
    (hss : ∀ t ∈ ss ++ [s], sep ∉ t ∧ segmentKind dot t = .name) :
    Confined sep dot (rooted sep ss ++ s) := by
  have hsplit : (rooted sep ss ++ s).splitOn sep = [] :: (ss ++ [s]) :=
    splitOn_rooted_append (fun t ht => (hss t (by simp [ht])).1) (hss s (by simp)).1
  have hclimb := climb_names (fun t ht => (hss t ht).2) 0
  rw [Confined, hsplit]
  simp [climb, segmentKind, hclimb]

end Lib
