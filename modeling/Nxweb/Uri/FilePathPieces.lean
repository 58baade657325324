import Nxweb.Uri.FilePath
import Nxweb.Memory.ArenaRoom
import Nxweb.Lib.LexicalPath

/-!
# The pieces of an encoded file path

`_nxb_append_encode_file_path` looks at one character after the other and keeps a count. What it
writes can be told without the count: every segment of the path is cut into pieces, as soon as the
escaped text of a piece has `MAX_PATH_SEGMENT` characters and the segment goes on, and the escaped
pieces are joined (`encodeFilePath_eq_intercalate`).

Two things are read off from the pieces: what the names look like that a file system is asked for,
and how many characters are written, which is compared with the room that is reserved before.

## Main results

* `encodeFilePath_safeFileName`: every segment that is written is a safe file name;
* `encodeFilePath_fits_iff`: when the characters fit in the room reserved for them.
-/

namespace Nxweb

open Lib

/-! ### Pieces -/

/-- The number of characters written for a piece of a segment. -/
def escapedLength (p : List UInt8) : ℕ := (escapePath true p).length

/-- Where the first piece of a segment ends, `none` if the segment is not cut. -/
def firstCut (s : List UInt8) : Option ℕ :=
  (List.range s.length).find? fun n => maxPathSegment ≤ escapedLength (s.take n)

theorem firstCut_lt {s : List UInt8} {n : ℕ} (h : firstCut s = some n) : n < s.length :=
  List.mem_range.mp (List.mem_of_find?_eq_some h)

theorem firstCut_pos {s : List UInt8} {n : ℕ} (h : firstCut s = some n) : 0 < n := by
  have hlong : maxPathSegment ≤ escapedLength (s.take n) := by simpa using List.find?_some h
  apply Nat.pos_of_ne_zero
  rintro rfl
  exact absurd hlong (by simp [escapedLength, escapePath, maxPathSegment])

/-- The pieces of a segment. -/
def segmentPieces (s : List UInt8) : List (List UInt8) :=
  match _h : firstCut s with
  | none => [s]
  | some n => s.take n :: segmentPieces (s.drop n)
termination_by s.length
decreasing_by
  have := firstCut_lt _h
  have := firstCut_pos _h
  simp only [List.length_drop]
  omega

/-- The pieces of a path. -/
def pathPieces (path : List UInt8) : List (List UInt8) :=
  (path.splitOn slash).flatMap segmentPieces

/-- Before its last character a piece has not reached `MAX_PATH_SEGMENT`. -/
def IsPiece (p : List UInt8) : Prop := ∀ n < p.length, escapedLength (p.take n) < maxPathSegment

theorem isPiece_of_firstCut_eq_none {s : List UInt8} (h : firstCut s = none) : IsPiece s := by
  intro n hn
  have hshort := List.find?_eq_none.mp h n (List.mem_range.mpr hn)
  simpa using hshort

theorem isPiece_take_of_firstCut_eq_some {s : List UInt8} {n : ℕ} (h : firstCut s = some n) :
    IsPiece (s.take n) := by
  intro m hm
  have hmn : m < n := by simpa using (List.length_take ▸ hm).trans_le (Nat.min_le_left _ _)
  have hshort := List.find?_range_eq_some.mp h |>.2.2 m hmn
  rw [List.take_take, Nat.min_eq_left hmn.le]
  simpa using hshort

/-- A piece is what the loop writes before it looks at the count again. -/
theorem segmentPieces_spec (s : List UInt8) :
    (segmentPieces s).flatten = s ∧ ∀ p ∈ segmentPieces s, IsPiece p := by
  fun_induction segmentPieces s with
  | case1 s h => simpa using isPiece_of_firstCut_eq_none h
  | case2 s n h ih =>
    refine ⟨?_, List.forall_mem_cons.mpr ⟨isPiece_take_of_firstCut_eq_some h, ih.2⟩⟩
    rw [List.flatten_cons, ih.1, List.take_append_drop]

theorem segmentPieces_ne_nil (s : List UInt8) : segmentPieces s ≠ [] := by
  unfold segmentPieces
  split <;> simp

theorem slash_notMem_of_mem_segmentPieces {s p : List UInt8} (hs : slash ∉ s)
    (hp : p ∈ segmentPieces s) : slash ∉ p := fun hmem =>
  hs ((segmentPieces_spec s).1 ▸ List.mem_flatten_of_mem hp hmem)

theorem pathPieces_ne_nil (path : List UInt8) : pathPieces path ≠ [] := by
  obtain ⟨s, ss, hsplit⟩ := List.exists_cons_of_ne_nil (List.splitOn_ne_nil slash path)
  simp [pathPieces, hsplit, segmentPieces_ne_nil]

theorem isPiece_of_mem_pathPieces {path p : List UInt8} (hp : p ∈ pathPieces path) :
    IsPiece p := by
  obtain ⟨s, -, hps⟩ := List.mem_flatMap.mp hp
  exact (segmentPieces_spec s).2 p hps

theorem slash_notMem_of_mem_pathPieces {path p : List UInt8} (hp : p ∈ pathPieces path) :
    slash ∉ p := by
  obtain ⟨s, hs, hps⟩ := List.mem_flatMap.mp hp
  exact slash_notMem_of_mem_segmentPieces (sep_notMem_of_mem_splitOn hs) hps

/-! ### The loop writes the pieces -/

/-- The loop writes a piece without inserting a separator. -/
theorem encodeFilePathFrom_append {count : ℕ} {p : List UInt8} (hp : slash ∉ p)
    (hshort : ∀ n < p.length, count + (escapePath (count == 0) (p.take n)).length < maxPathSegment)
    (path : List UInt8) :
    encodeFilePathFrom count (p ++ path) = escapePath (count == 0) p ++
      encodeFilePathFrom (count + (escapePath (count == 0) p).length) path := by
  induction p generalizing count with
  | nil => rfl
  | cons c p ih =>
    obtain ⟨hc, hp⟩ := by simpa only [List.mem_cons, not_or] using hp
    have hcs : (c == slash) = false := by simpa using fun heq => hc heq.symm
    have hcount : ¬ maxPathSegment ≤ count := by
      simpa [escapePath] using hshort 0 (Nat.succ_pos _)
    have hrest : ∀ k, 0 < k → (k = if mustEscape (count == 0) c then 3 else 1) →
        ∀ n < p.length,
          count + k + (escapePath (count + k == 0) (p.take n)).length < maxPathSegment := by
      intro k hk hkc n hn
      have h := hshort (n + 1) (Nat.succ_lt_succ hn)
      have h0 : (count + k == 0) = false := by simp; omega
      have hne : c ≠ slash := fun heq => hc heq.symm
      rw [List.take_succ_cons, escapePath, hcs, List.length_append] at h
      rw [h0]
      split_ifs at h hkc <;> simp_all [escapeChar] <;> omega
    have hne : c ≠ slash := fun heq => hc heq.symm
    rw [List.cons_append, encodeFilePathFrom, if_neg hne, if_neg hcount]
    cases hesc : mustEscape (count == 0) c with
    | true =>
      have h3 := ih hp (hrest 3 (by decide) (by simp [hesc]))
      simp [escapePath, hne, hesc, hcs, h3, escapeChar, Nat.add_assoc, Nat.add_comm 3]
    | false =>
      have h1 := ih hp (hrest 1 (by decide) (by simp [hesc]))
      simp [escapePath, hne, hesc, hcs, h1, Nat.add_assoc, Nat.add_comm 1]

theorem encodeFilePathFrom_piece {p : List UInt8} (hp : slash ∉ p) (hpiece : IsPiece p)
    (path : List UInt8) :
    encodeFilePathFrom 0 (p ++ path) =
      escapePath true p ++ encodeFilePathFrom (escapedLength p) path := by
  have hshort : ∀ n < p.length,
      0 + (escapePath (0 == 0) (p.take n)).length < maxPathSegment := by
    simpa [IsPiece, escapedLength] using hpiece
  simpa [escapedLength] using encodeFilePathFrom_append hp hshort path

/-- A segment that goes on behind a long piece goes on behind a separator. -/
theorem encodeFilePathFrom_of_le {count : ℕ} (hcount : maxPathSegment ≤ count) {c : UInt8}
    (hc : c ≠ slash) (path : List UInt8) :
    encodeFilePathFrom count (c :: path) = slash :: encodeFilePathFrom 0 (c :: path) := by
  have hzero : ¬ maxPathSegment ≤ 0 := by decide
  simp only [encodeFilePathFrom, if_neg hc, if_pos hcount, if_neg hzero]
  rfl

/-- What follows a segment does not depend on the count. -/
theorem encodeFilePathFrom_slash (count : ℕ) (path : List UInt8) :
    encodeFilePathFrom count (slash :: path) = slash :: encodeFilePathFrom 0 path := by
  rw [encodeFilePathFrom, if_pos rfl]

/-- The loop writes the pieces of a segment with a separator between them. -/
theorem encodeFilePathFrom_segment {s : List UInt8} (hs : slash ∉ s) {rest out : List UInt8}
    (hrest : ∀ count, encodeFilePathFrom count rest = out) :
    encodeFilePathFrom 0 (s ++ rest) =
      [slash].intercalate ((segmentPieces s).map (escapePath true)) ++ out := by
  fun_induction segmentPieces s with
  | case1 s h =>
    rw [encodeFilePathFrom_piece hs (isPiece_of_firstCut_eq_none h), hrest]
    simp
  | case2 s n h ih =>
    have hlong : maxPathSegment ≤ escapedLength (s.take n) := by simpa using List.find?_some h
    have hdrop : slash ∉ s.drop n := fun hmem => hs (List.mem_of_mem_drop hmem)
    obtain ⟨c, t, hct⟩ : ∃ c t, s.drop n = c :: t := by
      apply List.exists_cons_of_ne_nil
      simpa using firstCut_lt h
    have hc : c ≠ slash := fun heq => hdrop (by rw [hct, heq]; exact List.mem_cons_self)
    have hpieces := ih hdrop
    conv_lhs => rw [← List.take_append_drop n s, List.append_assoc]
    rw [encodeFilePathFrom_piece (fun hmem => hs (List.mem_of_mem_take hmem))
      (isPiece_take_of_firstCut_eq_some h), List.map_cons,
      List.intercalate_cons_of_ne_nil (by simpa using segmentPieces_ne_nil _)]
    rw [hct, List.cons_append] at hpieces ⊢
    rw [encodeFilePathFrom_of_le hlong hc, hpieces]
    simp

/-- What is written for a path are its escaped pieces with a separator between them. -/
theorem encodeFilePath_eq_intercalate (path : List UInt8) :
    encodeFilePath path = [slash].intercalate ((pathPieces path).map (escapePath true)) := by
  have hpath : [slash].intercalate (path.splitOn slash) = path := List.intercalate_splitOn slash
  have hsegs : ∀ ss : List (List UInt8), (∀ s ∈ ss, slash ∉ s) → ss ≠ [] →
      encodeFilePathFrom 0 ([slash].intercalate ss) =
        [slash].intercalate ((ss.flatMap segmentPieces).map (escapePath true)) := by
    intro ss hss hne
    induction ss with
    | nil => exact absurd rfl hne
    | cons s ss ih =>
      have hs : slash ∉ s := hss s List.mem_cons_self
      by_cases hnil : ss = []
      · subst hnil
        have hend : ∀ count, encodeFilePathFrom count [] = [] := fun _ => rfl
        simpa using encodeFilePathFrom_segment hs hend
      · have hrest := ih (fun t ht => hss t (List.mem_cons_of_mem s ht)) hnil
        have hpieces : (ss.flatMap segmentPieces).map (escapePath true) ≠ [] := by
          obtain ⟨t, ts, rfl⟩ := List.exists_cons_of_ne_nil hnil
          simp [segmentPieces_ne_nil]
        rw [List.intercalate_cons_of_ne_nil hnil, List.append_assoc, List.singleton_append,
          encodeFilePathFrom_segment hs fun count => encodeFilePathFrom_slash count _, hrest,
          List.flatMap_cons, List.map_append,
          intercalate_append slash (by simpa using segmentPieces_ne_nil s) hpieces]
  have hsplit := hsegs _ (fun s => sep_notMem_of_mem_splitOn) (List.splitOn_ne_nil slash path)
  rwa [hpath] at hsplit

/-! ### Safe file names -/

/-- Letters, digits and the characters `.-_$`. -/
def isFileNameChar (c : UInt8) : Bool :=
  (48 ≤ c && c ≤ 57) || (97 ≤ c && c ≤ 122) || (65 ≤ c && c ≤ 90) || c == 46 || c == 45 ||
    c == 95 || c == 36

/-- A name that a file system takes, with extensions of 22 characters added to it. -/
structure SafeFileName (s : List UInt8) : Prop where
  chars : ∀ c ∈ s, isFileNameChar c
  head_ne_dot : s.head? ≠ some dot
  length_le : s.length ≤ 232

namespace SafeFileName

variable {s : List UInt8}

/-- The name is neither of the two that a directory has for itself and its parent. -/
theorem ne_dots (h : SafeFileName s) : s ≠ [dot] ∧ s ≠ [dot, dot] := by
  constructor
  · rintro rfl
    exact h.head_ne_dot rfl
  · rintro rfl
    exact h.head_ne_dot rfl

/-- With an extension the name is within the limit of the file systems. -/
theorem length_append_le (h : SafeFileName s) {extension : List UInt8}
    (hext : extension.length ≤ 22) : (s ++ extension).length ≤ 255 := by
  have := h.length_le
  rw [List.length_append]
  omega

end SafeFileName

theorem isFileNameChar_hexDigit (n : ℕ) : isFileNameChar (hexDigit n) := by
  have h : n % 16 < 16 := Nat.mod_lt _ (by decide)
  unfold hexDigit
  generalize n % 16 = m at h
  interval_cases m <;> decide

/-- What is not escaped is a character of a name. -/
theorem isFileNameChar_of_not_mustEscape {first : Bool} {c : UInt8} (hc : c ≠ slash)
    (h : mustEscape first c = false) : isFileNameChar c := by
  have hpath : isFilePathChar c = true := by
    rw [mustEscape, Bool.or_eq_false_iff] at h
    simpa using h.2
  simp only [isFilePathChar, isFileNameChar, Bool.or_eq_true, beq_iff_eq] at hpath ⊢
  tauto

theorem isFileNameChar_escapePath {p : List UInt8} (hp : slash ∉ p) (first : Bool) :
    ∀ c ∈ escapePath first p, isFileNameChar c := by
  induction p generalizing first with
  | nil => simp [escapePath]
  | cons c p ih =>
    obtain ⟨hc, hp⟩ := by simpa only [List.mem_cons, not_or] using hp
    have hne : c ≠ slash := fun heq => hc heq.symm
    rw [escapePath, List.forall_mem_append]
    refine ⟨?_, ih hp _⟩
    split_ifs with hesc
    · simp only [escapeChar, List.forall_mem_cons]
      exact ⟨by decide, isFileNameChar_hexDigit _, isFileNameChar_hexDigit _, by simp⟩
    · have hkeep : mustEscape first c = false := by simpa [hne] using hesc
      simpa using isFileNameChar_of_not_mustEscape hne hkeep

/-- A dot in the first place is escaped. -/
theorem head?_escapePath_ne_dot (p : List UInt8) : (escapePath true p).head? ≠ some dot := by
  cases p with
  | nil => simp [escapePath]
  | cons c p =>
    rw [escapePath]
    split_ifs with hesc
    · simp [escapeChar, dot]
    · have hne : c ≠ dot := by
        rintro rfl
        exact hesc (by simp [mustEscape])
      simpa using hne

/-- One more character takes at most three. -/
theorem length_escapePath_append_singleton_le (first : Bool) (p : List UInt8) (c : UInt8) :
    (escapePath first (p ++ [c])).length ≤ (escapePath first p).length + 3 := by
  induction p generalizing first with
  | nil =>
    simp only [List.nil_append, escapePath]
    split_ifs <;> simp [escapeChar]
  | cons d p ih =>
    have := ih (d == slash)
    simp only [List.cons_append, escapePath, List.length_append]
    omega

/-- A piece goes over `MAX_PATH_SEGMENT` by two characters at most. -/
theorem IsPiece.escapedLength_le {p : List UInt8} (h : IsPiece p) : escapedLength p ≤ 232 := by
  rcases List.eq_nil_or_concat p with rfl | ⟨front, c, rfl⟩
  · exact Nat.zero_le _
  · rw [List.concat_eq_append] at h ⊢
    have hfront : escapedLength front < 230 := by
      have := h front.length (by simp)
      simpa [maxPathSegment] using this
    have hlast := length_escapePath_append_singleton_le true front c
    unfold escapedLength at hfront ⊢
    omega

theorem safeFileName_escapePath {p : List UInt8} (hp : slash ∉ p) (hpiece : IsPiece p) :
    SafeFileName (escapePath true p) where
  chars := isFileNameChar_escapePath hp true
  head_ne_dot := head?_escapePath_ne_dot p
  length_le := hpiece.escapedLength_le

/-- The segments that are written are the escaped pieces. -/
theorem splitOn_encodeFilePath (path : List UInt8) :
    (encodeFilePath path).splitOn slash = (pathPieces path).map (escapePath true) := by
  rw [encodeFilePath_eq_intercalate]
  apply List.splitOn_intercalate
  · intro s hs
    obtain ⟨p, hp, rfl⟩ := List.mem_map.mp hs
    intro hmem
    have hchar := isFileNameChar_escapePath (slash_notMem_of_mem_pathPieces hp) true _ hmem
    exact absurd hchar (by decide)
  · simpa using pathPieces_ne_nil path

/-- Whatever the string, every segment that is written for it is a safe file name. -/
theorem encodeFilePath_safeFileNames (path : CStr) :
    ∀ s ∈ (encodeFilePath path.toList).splitOn slash,
      SafeFileName s ∧ s ≠ [dot] ∧ s ≠ [dot, dot] ∧
        ∀ extension : List UInt8, extension.length ≤ 22 → (s ++ extension).length ≤ 255 := by
  intro s hs
  rw [splitOn_encodeFilePath] at hs
  obtain ⟨p, hp, rfl⟩ := List.mem_map.mp hs
  have hsafe := safeFileName_escapePath (slash_notMem_of_mem_pathPieces hp)
    (isPiece_of_mem_pathPieces hp)
  exact ⟨hsafe, hsafe.ne_dots.1, hsafe.ne_dots.2, fun _ => hsafe.length_append_le⟩

/-- The first segment that is written for `../a b`. -/
theorem encodeFilePath_safeFileNames_dots :
    SafeFileName (bytes "$2E.") ∧ bytes "$2E." ≠ [dot] ∧ bytes "$2E." ≠ [dot, dot] ∧
      ∀ extension : List UInt8, extension.length ≤ 22 →
        (bytes "$2E." ++ extension).length ≤ 255 :=
  encodeFilePath_safeFileNames ⟨bytes "../a b", by decide⟩ (bytes "$2E.") (by decide +kernel)

/-! ### The reserved room -/

/-- The value of an `int` expression, `none` if it overflows. -/
def intValue (x : ℤ) : Option ℤ := if -2 ^ 31 ≤ x ∧ x < 2 ^ 31 then some x else none

/-- `max_size` of `_nxb_append_encode_file_path`. -/
def filePathMaxSize (path : List UInt8) : Option ℤ := do
  let pathLen := asInt path.length
  let escaped ← intValue (pathLen * 3)
  intValue (escaped + pathLen.tdiv maxPathSegment)

/-- The calls `_nxb_append_encode_file_path` makes, if `max_size` is `maxSize`. -/
def encodeFilePathCalls (maxSize : ℤ) (path : List UInt8) : List ArenaCall :=
  if path = [] then []
  else .makeRoom maxSize.toNat :: (encodeFilePath path).map fun c => .appendFast [c]

/-- The number of characters of a piece that are copied as they are. -/
def copiedCount : List UInt8 → ℕ
  | [] => 0
  | c :: p => (if mustEscape true c then 0 else 1) + p.countP isFilePathChar

/-- How often the segments of a path are cut. -/
def cutCount (path : List UInt8) : ℕ := (pathPieces path).length - (path.splitOn slash).length

/-- The number of characters of a path that are copied as they are, the separators included. -/
def pathCopiedCount (path : List UInt8) : ℕ :=
  path.count slash + ((pathPieces path).map copiedCount).sum

/-- Every character takes three characters or, if it is copied, two less. -/
theorem escapedLength_add {p : List UInt8} (hp : slash ∉ p) :
    escapedLength p + 2 * copiedCount p = 3 * p.length := by
  have hrest : ∀ q : List UInt8, slash ∉ q →
      (escapePath false q).length + 2 * q.countP isFilePathChar = 3 * q.length := by
    intro q hq
    induction q with
    | nil => rfl
    | cons c q ih =>
      obtain ⟨hc, hq⟩ := by simpa only [List.mem_cons, not_or] using hq
      have hne : c ≠ slash := fun heq => hc heq.symm
      have hcs : (c == slash) = false := by simp [hne]
      have := ih hq
      rw [escapePath, hcs, List.countP_cons]
      cases hchar : isFilePathChar c <;> simp [mustEscape, hne, hchar, escapeChar] <;> omega
  cases p with
  | nil => rfl
  | cons c p =>
    obtain ⟨hc, hp⟩ := by simpa only [List.mem_cons, not_or] using hp
    have hne : c ≠ slash := fun heq => hc heq.symm
    have hcs : (c == slash) = false := by simp [hne]
    have := hrest p hp
    rw [escapedLength, escapePath, hcs, copiedCount]
    cases hesc : mustEscape true c <;> simp [hne, escapeChar] <;> omega

theorem sum_escapedLength_add (ps : List (List UInt8)) (hps : ∀ p ∈ ps, slash ∉ p) :
    (ps.map escapedLength).sum + 2 * (ps.map copiedCount).sum = 3 * ps.flatten.length := by
  induction ps with
  | nil => rfl
  | cons p ps ih =>
    have hp := escapedLength_add (hps p List.mem_cons_self)
    have hrest := ih fun q hq => hps q (List.mem_cons_of_mem p hq)
    simp only [List.map_cons, List.sum_cons, List.flatten_cons, List.length_append]
    omega

/-- The pieces of a path are its characters without the separators. -/
theorem length_flatten_pathPieces (path : List UInt8) :
    (pathPieces path).flatten.length + path.count slash = path.length := by
  have hflat : (pathPieces path).flatten = (path.splitOn slash).flatten := by
    rw [pathPieces]
    induction path.splitOn slash with
    | nil => rfl
    | cons s ss ih =>
      rw [List.flatMap_cons, List.flatten_append, (segmentPieces_spec s).1, ih, List.flatten_cons]
  have hlen : path.length = ([slash].intercalate (path.splitOn slash)).length := by
    rw [List.intercalate_splitOn]
  have := length_intercalate slash (List.splitOn_ne_nil slash path)
  have := length_splitOn slash path
  rw [hflat]
  omega

/-- A segment has one piece at least. -/
theorem length_splitOn_le (path : List UInt8) :
    (path.splitOn slash).length ≤ (pathPieces path).length := by
  rw [pathPieces]
  induction path.splitOn slash with
  | nil => exact le_rfl
  | cons s ss ih =>
    have := List.length_pos_iff.mpr (segmentPieces_ne_nil s)
    rw [List.flatMap_cons, List.length_append, List.length_cons]
    omega

/-- The number of characters that are written: three for each character, two less where it is
copied, and one for each cut. -/
theorem length_encodeFilePath (path : List UInt8) :
    (encodeFilePath path).length + 2 * pathCopiedCount path =
      3 * path.length + cutCount path := by
  have hwritten : (encodeFilePath path).length + 1 =
      ((pathPieces path).map escapedLength).sum + (pathPieces path).length := by
    have hne : (pathPieces path).map (escapePath true) ≠ [] := by
      simpa using pathPieces_ne_nil path
    rw [encodeFilePath_eq_intercalate, length_intercalate slash hne, List.length_flatten,
      List.map_map, List.length_map]
    rfl
  have hsum := sum_escapedLength_add (pathPieces path) fun p =>
    slash_notMem_of_mem_pathPieces
  have hflat := length_flatten_pathPieces path
  have hsegs := length_splitOn slash path
  have hle := length_splitOn_le path
  unfold pathCopiedCount cutCount
  omega

/-- The characters fit in a room if and only if there are not more of them. -/
theorem leastRoom_chars (r : ℕ) (s : List UInt8) :
    leastRoom r (s.map fun c => .appendFast [c]) =
      if s.length ≤ r then some (r - s.length) else none := by
  have hflat : (s.map fun c => [c]).flatten = s := by
    rw [← List.flatMap_def, List.flatMap_singleton']
  have h := leastRoom_unchecked r (s.map fun c => [c])
  rwa [hflat, List.map_map] at h

theorem intValue_eq_some_iff {x y : ℤ} :
    intValue x = some y ↔ (-2 ^ 31 ≤ x ∧ x < 2 ^ 31) ∧ x = y := by
  simp [intValue]

/-- The value of the expression for a length in the range of an `int`. -/
theorem filePathMaxSize_eq_some_iff {path : List UInt8} (h : path.length < 2 ^ 31) {maxSize : ℤ} :
    filePathMaxSize path = some maxSize ↔
      3 * path.length + path.length / maxPathSegment < 2 ^ 31 ∧
        maxSize = (3 * path.length + path.length / maxPathSegment : ℕ) := by
  have hlen : asInt path.length = path.length := asInt_of_bounds (by omega) (by omega)
  have hdiv : (path.length : ℤ).tdiv maxPathSegment = (path.length / maxPathSegment : ℕ) := by
    rw [Int.tdiv_eq_ediv_of_nonneg (by omega), Int.natCast_ediv]
  simp only [filePathMaxSize, hlen, hdiv, Option.bind_eq_bind, Option.bind_eq_some_iff,
    intValue_eq_some_iff]
  generalize path.length / maxPathSegment = q
  constructor
  · rintro ⟨escaped, ⟨-, rfl⟩, hsum, rfl⟩
    omega
  · rintro ⟨hlt, rfl⟩
    exact ⟨(path.length : ℤ) * 3, ⟨by omega, rfl⟩, by omega, by omega⟩

theorem filePathMaxSize_lt {path : List UInt8} {maxSize : ℤ}
    (h : filePathMaxSize path = some maxSize) : maxSize < 2 ^ 31 := by
  simp only [filePathMaxSize, Option.bind_eq_bind, Option.bind_eq_some_iff,
    intValue_eq_some_iff] at h
  obtain ⟨escaped, -, hbound, rfl⟩ := h
  exact hbound.2

/-- A character is written for every character of the path. -/
theorem length_le_length_encodeFilePath (path : List UInt8) :
    path.length ≤ (encodeFilePath path).length := by
  have hfrom : ∀ count, path.length ≤ (encodeFilePathFrom count path).length := by
    induction path with
    | nil => exact fun count => le_rfl
    | cons c path ih =>
      intro count
      by_cases hslash : c = slash
      · simpa [encodeFilePathFrom, hslash] using ih 0
      · by_cases hlong : maxPathSegment ≤ count
        · have h1 := ih 1
          have h3 := ih 3
          simp only [encodeFilePathFrom, if_neg hslash, if_pos hlong, Nat.zero_add]
          split_ifs <;> simp [escapeChar] <;> omega
        · have h1 := ih (count + 1)
          have h3 := ih (count + 3)
          simp only [encodeFilePathFrom, if_neg hslash, if_neg hlong, List.nil_append]
          split_ifs <;> simp [escapeChar] <;> omega
  exact hfrom 0

/-- The calls fit in the room that is asked for if it is large enough. -/
theorem fits_encodeFilePathCalls {path : List UInt8} {maxSize : ℤ}
    (h : (encodeFilePath path).length ≤ maxSize) (a : ArenaRoom) :
    a.Fits (encodeFilePathCalls maxSize path) := by
  have hroom : (leastRoom 0 (encodeFilePathCalls maxSize path)).isSome := by
    unfold encodeFilePathCalls
    split_ifs
    · rfl
    · have hle : (encodeFilePath path).length ≤ max 0 maxSize.toNat := by omega
      rw [leastRoom_cons, ArenaCall.leastRoom, Option.bind_some, leastRoom_chars, if_pos hle]
      rfl
  obtain ⟨r, hr⟩ := Option.isSome_iff_exists.mp hroom
  obtain ⟨a', hrun, -⟩ := ArenaRoom.run_of_leastRoom (Nat.zero_le a.room) hr
  rw [ArenaRoom.Fits, hrun]
  rfl

/-- The characters that are written for a path fit in the room that is reserved for them if and only
if the size of the room can be computed and the cuts are not more than it has room for besides three
characters for each one: twice the number of the characters that are copied, and one for every
`MAX_PATH_SEGMENT` characters. -/
theorem encodeFilePath_fits_iff (path : CStr) :
    (∃ maxSize, filePathMaxSize path.toList = some maxSize ∧
      (encodeFilePath path.toList).length ≤ maxSize ∧
      ∀ a : ArenaRoom, a.Fits (encodeFilePathCalls maxSize path.toList)) ↔
    3 * path.toList.length + path.toList.length / maxPathSegment < 2 ^ 31 ∧
      cutCount path.toList ≤
        2 * pathCopiedCount path.toList + path.toList.length / maxPathSegment := by
  have hwritten := length_encodeFilePath path.toList
  constructor
  · rintro ⟨maxSize, hsize, hfit, -⟩
    -- what is written is not shorter than the path, so its length is in the range of an `int`
    have hle := length_le_length_encodeFilePath path.toList
    have hlt := filePathMaxSize_lt hsize
    obtain ⟨hbound, rfl⟩ := (filePathMaxSize_eq_some_iff (by omega)).mp hsize
    exact ⟨hbound, by omega⟩
  · rintro ⟨hlt, hcuts⟩
    have hfit : ((encodeFilePath path.toList).length : ℤ) ≤
        (3 * path.toList.length + path.toList.length / maxPathSegment : ℕ) := by
      omega
    have hlen : path.toList.length < 2 ^ 31 := by
      revert hlt
      generalize path.toList.length / maxPathSegment = q
      omega
    have hsize := (filePathMaxSize_eq_some_iff hlen).mpr ⟨hlt, rfl⟩
    exact ⟨_, hsize, hfit, fits_encodeFilePathCalls hfit⟩

/-- For 78 characters that are all escaped there is one cut, and no room for it. -/
theorem encodeFilePath_not_fits :
    ¬ ∃ maxSize, filePathMaxSize (List.replicate 78 37) = some maxSize ∧
      (encodeFilePath (List.replicate 78 37)).length ≤ maxSize ∧
      ∀ a : ArenaRoom, a.Fits (encodeFilePathCalls maxSize (List.replicate 78 37)) := by
  have hsize : filePathMaxSize (List.replicate 78 37) = some 234 := by decide +kernel
  have hwritten : (encodeFilePath (List.replicate 78 37)).length = 235 := by decide +kernel
  rintro ⟨maxSize, hmax, hfit, -⟩
  obtain rfl := Option.some.inj (hsize.symm.trans hmax)
  rw [hwritten] at hfit
  omega

end Nxweb
