import Nxweb.Http.Text
import Nxweb.Lib.CString
import Nxweb.ServerProto.HeaderSplit

/-!
# Header lines

The loop over the header lines that `_nxweb_parse_http_request` and `_nxweb_parse_http_response`
(`http_utils.c`) share. A line has a name and a value with a colon between them; the white space
around the value is removed. A line that starts with white space continues the value before it: it
is moved behind that value in place, after the value has been looked at, so that it reaches only
those that keep the pointer. `HeaderField.cont` are the bytes that come behind the value in this
way.

The second half is about lines as they are printed: `joinLines` are lines with line ends between
them, which is what the parser gets to see. The end of the headers is found
(`findEndOfHttpHeaders_lines`), the first line is split off (`splitFirstLine_joinLines`) and the
other lines are read back (`readHeaderLines_joinLines`).
-/

namespace Nxweb

open Lib

/-! ### Reading -/

/-- The byte `:`. -/
abbrev colon : UInt8 := 58

/-- A header line, with the lines that continue it. -/
structure HeaderField where
  name : List UInt8
  value : List UInt8
  cont : List UInt8 := []
  deriving DecidableEq, Repr

/-- What a pointer to the value shows when all lines have been read. -/
def HeaderField.text (f : HeaderField) : List UInt8 := f.value ++ f.cont

/-- `strchr(s, c)`: the bytes in front of the first `c`, and those behind it. -/
def splitAtByte (c : UInt8) (s : List UInt8) : Option (List UInt8 × List UInt8) :=
  if c ∈ s then some (s.takeWhile (· ≠ c), (s.dropWhile (· ≠ c)).tail) else none

/-- A string is cut wherever it has the byte `sep`. -/
def splitOnByte (sep : UInt8) : List UInt8 → List (List UInt8)
  | [] => [[]]
  | c :: cs =>
    if c = sep then [] :: splitOnByte sep cs
    else
      match splitOnByte sep cs with
      | [] => [[c]]
      | l :: ls => (c :: l) :: ls

/-- The headers that have been read, the last one first, and whether `value` is set. -/
structure LineReader where
  fields : List HeaderField := []
  hasValue : Bool := false
  deriving DecidableEq, Repr

/-- One pass of the loop, without what is done with the header. -/
def LineReader.line (r : LineReader) (line : List UInt8) : LineReader :=
  if line.head?.any fun c => ¬ isGraph c then
    -- the line continues the header before it
    match r.hasValue, r.fields with
    | true, f :: fs => { r with fields := { f with cont := f.cont ++ line } :: fs }
    | _, _ => r
  else
    match splitAtByte colon line with
    | none => { r with hasValue := false }
    | some (name, value) =>
      { fields := { name, value := truncSpace value } :: r.fields, hasValue := true }

/-- The headers in a string, in order. Nothing behind a zero byte is looked at. -/
def readHeaderLines (s : List UInt8) : List HeaderField :=
  ((splitOnByte lf (cstr s)).foldl LineReader.line {}).fields.reverse

/-- The first line of a header block and what follows it. A block without a line end in front of
its first zero byte is one line. -/
def splitFirstLine (block : List UInt8) : List UInt8 × List UInt8 :=
  match splitAtByte lf (cstr block) with
  | some (line, _) => (line, block.drop (line.length + 1))
  | none => (block, [])

/-! ### Printed lines -/

/-- Lines with line ends between them. -/
def joinLines : List (List UInt8) → List UInt8
  | [] => []
  | [l] => l
  | l :: ls => l ++ crlf ++ joinLines ls

/-- A line that is not empty and does not end by itself. -/
structure Line (l : List UInt8) : Prop where
  ne_nil : l ≠ []
  line : ∀ c ∈ l, c ≠ cr ∧ c ≠ lf ∧ c ≠ 0

theorem joinLines_cons {l : List UInt8} {ls : List (List UInt8)} (h : ls ≠ []) :
    joinLines (l :: ls) = l ++ crlf ++ joinLines ls := by
  cases ls with
  | nil => exact absurd rfl h
  | cons l' ls => rfl

/-- Lines that are all ended. -/
theorem joinLines_append_crlf {ls : List (List UInt8)} (h : ls ≠ []) :
    joinLines ls ++ crlf = ls.flatMap (· ++ crlf) := by
  induction ls with
  | nil => exact absurd rfl h
  | cons l ls ih =>
    cases ls with
    | nil => simp [joinLines]
    | cons l' ls =>
      rw [joinLines_cons (by simp), List.append_assoc, ih (by simp)]
      rfl

theorem zero_notMem_joinLines {ls : List (List UInt8)} (h : ∀ l ∈ ls, Line l) :
    0 ∉ joinLines ls := by
  induction ls with
  | nil => simp [joinLines]
  | cons l ls ih =>
    have hl : 0 ∉ l := fun hmem => ((h l (by simp)).line 0 hmem).2.2 rfl
    by_cases hls : ls = []
    · subst hls
      exact hl
    · rw [joinLines_cons hls]
      have hrest := ih fun l' hl' => h l' (by simp [hl'])
      have hend : (0 : UInt8) ∉ crlf := by decide
      rw [List.mem_append, List.mem_append]
      rintro ((hmem | hmem) | hmem)
      · exact hl hmem
      · exact hend hmem
      · exact hrest hmem

/-! ### The end of the headers -/

theorem cr_ne_lf : cr ≠ lf := by decide

/-- Every line feed ends a line that is not empty. -/
def LineEnds (s : List UInt8) : Prop :=
  ∀ p, s[p]? = some lf → 2 ≤ p ∧ s[p - 1]? = some cr ∧ s[p - 2]? ≠ some lf

theorem LineEnds.append {s l : List UInt8} (h : LineEnds s) (hl : Line l) :
    LineEnds (s ++ (l ++ crlf)) := by
  intro p hp
  by_cases hs : p < s.length
  · rw [List.getElem?_append_left hs] at hp
    obtain ⟨h2, hcr, hlf⟩ := h p hp
    rw [List.getElem?_append_left (by omega), List.getElem?_append_left (by omega)]
    exact ⟨h2, hcr, hlf⟩
  · rw [List.getElem?_append_right (by omega)] at hp
    by_cases hline : p - s.length < l.length
    · rw [List.getElem?_append_left hline] at hp
      exact absurd rfl (hl.line lf (List.mem_of_getElem? hp)).2.1
    · rw [List.getElem?_append_right (by omega)] at hp
      -- the line feed is the second byte of the line end
      have hend : p = s.length + l.length + 1 := by
        have hlt := (List.getElem?_eq_some_iff.mp hp).1
        simp only [List.length_cons, List.length_nil] at hlt
        by_contra hne
        have h0 : p - s.length - l.length = 0 := by omega
        rw [h0] at hp
        exact cr_ne_lf (Option.some.inj hp)
      have hpos := List.length_pos_iff.mpr hl.ne_nil
      subst hend
      refine ⟨by omega, ?_, ?_⟩
      · rw [List.getElem?_append_right (by omega), List.getElem?_append_right (by omega)]
        simp
      · rw [List.getElem?_append_right (by omega), List.getElem?_append_left (by omega)]
        exact fun hlf => absurd rfl (hl.line lf (List.mem_of_getElem? hlf)).2.1

theorem lineEnds_flatMap {ls : List (List UInt8)} (h : ∀ l ∈ ls, Line l) :
    LineEnds (ls.flatMap (· ++ crlf)) := by
  induction ls using List.reverseRecOn with
  | nil => intro p hp; simp at hp
  | append_singleton ls l ih =>
    rw [List.flatMap_append, List.flatMap_singleton]
    exact (ih fun l' hl' => h l' (by simp [hl'])).append (h l (by simp))

/-- The headers end in front of the line end of their last line. -/
theorem findEndOfHttpHeaders_lines {ls : List (List UInt8)} (hne : ls ≠ [])
    (h : ∀ l ∈ ls, Line l) :
    findEndOfHttpHeaders (ls.flatMap (· ++ crlf) ++ crlf) =
      some ((joinLines ls).length, (joinLines ls).length + 4) := by
  have hends := lineEnds_flatMap h
  rw [← joinLines_append_crlf hne] at hends ⊢
  generalize joinLines ls = a at hends ⊢
  rw [findEndOfHttpHeaders_eq]
  have hlen : (a ++ crlf ++ crlf).length = a.length + 4 := by simp
  have hfound : headersEndAt (a ++ crlf ++ crlf) (a.length + 3) =
      some (a.length, a.length + 4) := by
    have hget : ∀ k < 4, (a ++ crlf ++ crlf)[a.length + k]? = [cr, lf, cr, lf][k]? := by
      intro k hk
      rw [List.append_assoc, List.getElem?_append_right (by omega)]
      congr 1
      omega
    unfold headersEndAt
    rw [hget 3 (by omega), show a.length + 3 - 1 = a.length + 2 by omega, hget 2 (by omega),
      show a.length + 3 - 3 = a.length + 0 by omega, hget 0 (by omega),
      show a.length + 3 - 2 = a.length + 1 by omega, hget 1 (by omega)]
    simp [cr_ne_lf]
  have hbefore : ∀ p, 3 ≤ p → p < a.length + 3 → headersEndAt (a ++ crlf ++ crlf) p = none := by
    intro p h3 hp
    unfold headersEndAt
    by_cases hlf : (a ++ crlf ++ crlf)[p]? = some lf
    · by_cases hlast : p < (a ++ crlf).length
      · rw [List.getElem?_append_left hlast] at hlf
        obtain ⟨-, hcr, hnot⟩ := hends p hlf
        rw [if_pos (by rw [List.getElem?_append_left hlast, hlf]),
          List.getElem?_append_left (by omega), hcr, if_neg (by simp [cr_ne_lf])]
        refine if_neg fun hall => hnot ?_
        have hlt : p - 2 < (a ++ crlf).length := by omega
        exact (List.getElem?_append_left hlt).symm.trans hall.2.1
      · have hpeq : p = (a ++ crlf).length := by
          simp only [List.length_append, List.length_cons, List.length_nil] at hlast ⊢
          omega
        subst hpeq
        rw [List.getElem?_append_right le_rfl, Nat.sub_self] at hlf
        exact absurd (Option.some.inj hlf) cr_ne_lf
    · rw [if_neg hlf]
  -- the search visits the line feeds in order
  rw [hlen, show a.length + 4 - 3 = a.length + 1 by omega, List.range'_concat,
    List.findSome?_append]
  have hnone : (List.range' 3 a.length).findSome? (headersEndAt (a ++ crlf ++ crlf)) = none := by
    rw [List.findSome?_eq_none_iff]
    intro p hp
    rw [List.mem_range'_1] at hp
    exact hbefore p hp.1 (by omega)
  rw [hnone, Option.none_or, List.findSome?_singleton, show 3 + 1 * a.length = a.length + 3 by omega,
    hfound]

/-! ### Reading printed lines -/

theorem splitAtByte_append {c : UInt8} {s rest : List UInt8} (h : c ∉ s) :
    splitAtByte c (s ++ c :: rest) = some (s, rest) := by
  have hs : ∀ x ∈ s, decide (x ≠ c) = true := fun x hx => by
    simpa using fun heq : x = c => h (heq ▸ hx)
  unfold splitAtByte
  rw [if_pos (by simp), List.takeWhile_append_of_pos hs, List.dropWhile_append_of_pos hs]
  simp

theorem splitAtByte_eq_some_iff {c : UInt8} {s front rest : List UInt8} :
    splitAtByte c s = some (front, rest) ↔ s = front ++ c :: rest ∧ c ∉ front := by
  constructor
  · intro h
    have hc : c ∈ s := by
      by_contra hc
      simp [splitAtByte, hc] at h
    obtain ⟨front', rest', rfl, hfront⟩ := List.eq_append_cons_of_mem hc
    obtain ⟨rfl, rfl⟩ := by simpa [splitAtByte_append hfront] using h
    exact ⟨rfl, hfront⟩
  · rintro ⟨rfl, hc⟩
    exact splitAtByte_append hc

theorem splitAtByte_eq_none_iff {c : UInt8} {s : List UInt8} :
    splitAtByte c s = none ↔ c ∉ s := by
  simp [splitAtByte]

/-- The first line is split off, with its carriage return. -/
theorem splitFirstLine_joinLines {l : List UInt8} {ls : List (List UInt8)} (hne : ls ≠ [])
    (h : ∀ l' ∈ l :: ls, Line l') :
    splitFirstLine (joinLines (l :: ls)) = (l ++ [cr], joinLines ls) := by
  have hzero := zero_notMem_joinLines h
  have hl : lf ∉ l ++ [cr] := by
    rw [List.mem_append]
    rintro (hmem | hmem)
    · exact ((h l (by simp)).line lf hmem).2.1 rfl
    · exact cr_ne_lf (List.mem_singleton.mp hmem).symm
  have hblock : joinLines (l :: ls) = (l ++ [cr]) ++ lf :: joinLines ls := by
    rw [joinLines_cons hne]
    simp
  unfold splitFirstLine
  rw [cstr_of_notMem hzero, hblock, splitAtByte_append hl]
  refine Prod.ext rfl ?_
  show ((l ++ [cr]) ++ lf :: joinLines ls).drop ((l ++ [cr]).length + 1) = joinLines ls
  rw [show (l ++ [cr]) ++ lf :: joinLines ls = (l ++ [cr] ++ [lf]) ++ joinLines ls by simp]
  exact List.drop_left' (by simp)

theorem splitOnByte_of_notMem {sep : UInt8} {l : List UInt8} (h : sep ∉ l) :
    splitOnByte sep l = [l] := by
  induction l with
  | nil => rfl
  | cons c cs ih =>
    have hc : c ≠ sep := fun heq => h (by simp [heq])
    have hcs := ih fun hmem => h (by simp [hmem])
    rw [splitOnByte, if_neg hc, hcs]

theorem splitOnByte_append {sep : UInt8} {l : List UInt8} (rest : List UInt8) (h : sep ∉ l) :
    splitOnByte sep (l ++ sep :: rest) = l :: splitOnByte sep rest := by
  induction l with
  | nil => simp [splitOnByte]
  | cons c cs ih =>
    have hc : c ≠ sep := fun heq => h (by simp [heq])
    have hcs := ih fun hmem => h (by simp [hmem])
    rw [List.cons_append, splitOnByte, if_neg hc, hcs]

/-- A header as it is printed. -/
def headerText (f : List UInt8 × List UInt8) : List UInt8 := f.1 ++ bytes ": " ++ f.2

/-- A name and a value that can be printed as a header. -/
structure PrintableHeader (f : List UInt8 × List UInt8) : Prop where
  name : Text f.1
  noColon : colon ∉ f.1
  value : Text f.2

theorem PrintableHeader.line {f : List UInt8 × List UInt8} (h : PrintableHeader f) :
    Line (headerText f) := by
  refine ⟨by simp [headerText, h.name.ne_nil], ?_⟩
  have hsep : ∀ c ∈ bytes ": ", c ≠ cr ∧ c ≠ lf ∧ c ≠ 0 := by decide
  unfold headerText
  rw [List.forall_mem_append, List.forall_mem_append]
  exact ⟨⟨h.name.line, hsep⟩, h.value.line⟩

/-- A printed header is read back, also from a line that still has its carriage return. -/
theorem LineReader.line_headerText {f : List UInt8 × List UInt8} (h : PrintableHeader f)
    (r : LineReader) {tail : List UInt8} (htail : ∀ c ∈ tail, isGraph c = false) :
    r.line (headerText f ++ tail) =
      { fields := { name := f.1, value := f.2 } :: r.fields, hasValue := true } := by
  have hhead : (headerText f ++ tail).head? = f.1.head? := by
    unfold headerText
    rw [List.append_assoc, List.append_assoc, List.head?_append_of_ne_nil _ h.name.ne_nil]
  have hgraph : ((headerText f ++ tail).head?.any fun c => ¬ isGraph c) = false := by
    rw [hhead]
    cases hf : f.1.head? with
    | none => rfl
    | some c => simp [h.name.head c hf]
  have hsplit : splitAtByte colon (headerText f ++ tail) =
      some (f.1, bytes " " ++ f.2 ++ tail) := by
    have : headerText f ++ tail = f.1 ++ colon :: (bytes " " ++ f.2 ++ tail) := by
      unfold headerText
      rw [show bytes ": " = colon :: bytes " " from rfl]
      simp
    rw [this, splitAtByte_append h.noColon]
  unfold LineReader.line
  rw [hgraph, hsplit]
  simp only [Bool.false_eq_true, if_false]
  rw [truncSpace_text h.value (by decide) htail]

/-- Printed headers are read back in order. -/
theorem foldl_splitOnByte_joinLines {fs : List (List UInt8 × List UInt8)} (hne : fs ≠ [])
    (h : ∀ f ∈ fs, PrintableHeader f) (r : LineReader) :
    ((splitOnByte lf (joinLines (fs.map headerText))).foldl LineReader.line r).fields =
      (fs.map fun f => { name := f.1, value := f.2 : HeaderField }).reverse ++ r.fields := by
  induction fs generalizing r with
  | nil => exact absurd rfl hne
  | cons f fs ih =>
    have hf := h f (by simp)
    have hlf : lf ∉ headerText f := fun hmem => (hf.line.line lf hmem).2.1 rfl
    by_cases hfs : fs = []
    · subst hfs
      have hread := LineReader.line_headerText hf r (by simp : ∀ c ∈ [], isGraph c = false)
      rw [List.append_nil] at hread
      simp [joinLines, splitOnByte_of_notMem hlf, hread]
    · have hrest := ih hfs (fun f' hf' => h f' (by simp [hf']))
      have hcr : lf ∉ headerText f ++ [cr] := by
        rw [List.mem_append]
        rintro (hmem | hmem)
        · exact hlf hmem
        · exact cr_ne_lf (List.mem_singleton.mp hmem).symm
      have hblock : joinLines ((f :: fs).map headerText) =
          (headerText f ++ [cr]) ++ lf :: joinLines (fs.map headerText) := by
        rw [List.map_cons, joinLines_cons (by simpa using hfs)]
        simp
      rw [hblock, splitOnByte_append _ hcr, List.foldl_cons,
        LineReader.line_headerText hf r (by decide), hrest]
      simp

theorem readHeaderLines_joinLines {fs : List (List UInt8 × List UInt8)} (hne : fs ≠ [])
    (h : ∀ f ∈ fs, PrintableHeader f) :
    readHeaderLines (joinLines (fs.map headerText)) =
      fs.map fun f => { name := f.1, value := f.2 } := by
  have hlines : ∀ l ∈ fs.map headerText, Line l := by
    intro l hl
    obtain ⟨f, hf, rfl⟩ := List.mem_map.mp hl
    exact (h f hf).line
  unfold readHeaderLines
  rw [cstr_of_notMem (zero_notMem_joinLines hlines), foldl_splitOnByte_joinLines hne h]
  simp

end Nxweb
