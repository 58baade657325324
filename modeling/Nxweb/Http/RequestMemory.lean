import Nxweb.Http.DateAccess
import Nxweb.Http.GzipNegotiation

/-!
# The header block in memory

`_nxweb_parse_http_request` (`http_utils.c`) works on the received bytes in place. For two headers
it looks behind the terminator of a value that is too short. The loop that looks for `gzip` does so
if the last `Accept-Encoding` header is empty, and `nxweb_parse_http_time` if an `If-Modified-Since`
header has less than three characters. What is there are the other lines of the block, and behind
its end the bytes that were received after it and those that the arena had before.

## Main definitions

* `PlacedHeader`: a header with what follows it in the block;
* `parseHttpRequestAt`: the parser, with the bytes behind the block.

## Main results

* `result_ifModifiedSinceAt`: the date depends on what is behind the block by its fourth byte;
* `exists_forall_result_acceptGzipEncodingAt`: the flag depends on what is behind the block only if
  the value is empty and ends the block;
* `result_parseHttpRequestAt_of_long`: if no value is too short, `parseHttpRequest` is the parser.
-/

namespace Nxweb

open Lib Traced

/-! ### Headers in their places -/

/-- A header line, taken apart at its colon. Lines that start with white space, and lines without a
colon, are none. -/
def headerOfLine (line : List UInt8) : Option (List UInt8 × List UInt8) :=
  if line.head?.any fun c => ¬ isGraph c then none else splitAtByte colon line

/-- A header with the bytes behind its colon, the line behind it, and what the block has behind the
byte that ends its line. There is no such byte at the end of the block. -/
structure PlacedHeader where
  name : List UInt8
  raw : List UInt8
  next : Option (List UInt8)
  rest : Option (List UInt8)
  deriving DecidableEq, Repr

/-- The headers in lines that stand at the beginning of `s`. -/
def placeHeaders : List UInt8 → List (List UInt8) → List PlacedHeader
  | _, [] => []
  | s, line :: lines =>
    -- a zero byte can end the lines before the block does
    let rest := if line.length < s.length then some (s.drop (line.length + 1)) else none
    ((headerOfLine line).map fun f => ⟨f.1, f.2, lines.head?, rest⟩).toList ++
      placeHeaders (s.drop (line.length + 1)) lines

/-- The headers of a request. -/
def placedHeaders (block : List UInt8) : List PlacedHeader :=
  placeHeaders (splitFirstLine block).2 (splitOnByte lf (cstr (splitFirstLine block).2))

/-- The last header with a name. -/
def lastHeader (id : HeaderName) (block : List UInt8) : Option PlacedHeader :=
  ((placedHeaders block).filter fun h => identifyHttpHeader h.name = id).getLast?

/-- `nxweb_trunc_space`, with the terminators that it puts in the place of white space at the end.
-/
def truncSpaceInPlace (raw : List UInt8) : List UInt8 :=
  let value := truncSpace raw
  value ++ List.replicate ((raw.dropWhile fun c => ¬ isGraph c).length - value.length) 0

/-- The bytes from the value to the end of the block, when the line of the header has been read and
those behind it have not. -/
def PlacedHeader.toEnd (h : PlacedHeader) : List UInt8 :=
  truncSpaceInPlace h.raw ++ h.rest.elim [] (0 :: ·)

/-- What lies behind the terminator of an empty value when all lines have been read: the name on the
next line, with its terminator, or what follows a zero byte that has cut the lines off. -/
def PlacedHeader.behindEmpty (behind : List UInt8) (h : PlacedHeader) : List UInt8 :=
  h.rest.elim behind fun rest =>
    h.next.elim (rest ++ 0 :: behind) fun line => line.takeWhile (· ≠ colon) ++ [0]

/-- What lies behind the terminator of the last `Accept-Encoding` value, if that is empty. -/
def behindAcceptEncoding (behind block : List UInt8) : List UInt8 :=
  (lastHeader .acceptEncoding block).elim behind (·.behindEmpty behind)

/-- `if_modified_since`, where `behind` lies behind the terminator of the block. -/
def ifModifiedSinceAt (behind block : List UInt8) : Traced ℤ :=
  (lastHeader .ifModifiedSince block).elim (return 0) fun h =>
    parseHttpTimeAt (h.toEnd ++ 0 :: behind)

/-- `_nxweb_parse_http_request`, where `behind` lies behind the terminator of the block. -/
def parseHttpRequestAt (behind block : List UInt8) : Traced (Except ℤ RequestFields) := do
  match ← parseHttpRequestIn (behindAcceptEncoding behind block) block with
  | .error code => return .error code
  | .ok req =>
    -- the source reads the date first, which changes nothing for the flag
    let ifModifiedSince ← ifModifiedSinceAt behind block
    return .ok { req with ifModifiedSince }

/-! ### The headers that the parser reads -/

theorem map_placeHeaders (s : List UInt8) (lines : List (List UInt8)) :
    (placeHeaders s lines).map (fun h => (h.name, h.raw)) = lines.filterMap headerOfLine := by
  induction lines generalizing s with
  | nil => rfl
  | cons line lines ih =>
    rw [placeHeaders, List.map_append, ih, List.filterMap_cons]
    cases headerOfLine line <;> rfl

/-- One pass of the loop adds the header of the line, if it has one. Other lines at most continue
the header before it. -/
theorem LineReader.line_fields (r : LineReader) (line : List UInt8) :
    (r.line line).fields.map (fun f => (f.name, f.value)) =
      ((headerOfLine line).map fun f => (f.1, truncSpace f.2)).toList ++
        r.fields.map fun f => (f.name, f.value) := by
  unfold LineReader.line headerOfLine
  split_ifs with hblank
  · split
    · rename_i f fs _ hfields
      simp [hfields]
    · simp
  · cases splitAtByte colon line <;> simp

theorem foldl_line_fields (lines : List (List UInt8)) (r : LineReader) :
    (lines.foldl LineReader.line r).fields.map (fun f => (f.name, f.value)) =
      ((lines.filterMap headerOfLine).map fun f => (f.1, truncSpace f.2)).reverse ++
        r.fields.map fun f => (f.name, f.value) := by
  induction lines generalizing r with
  | nil => rfl
  | cons line lines ih =>
    rw [List.foldl_cons, ih, LineReader.line_fields, List.filterMap_cons]
    cases headerOfLine line <;> simp

/-- The fields are those of the headers in their places. -/
theorem map_requestFields (block : List UInt8) :
    (requestFields block).map (fun f => (f.name, f.value)) =
      (placedHeaders block).map fun h => (h.name, truncSpace h.raw) := by
  have hplaced := map_placeHeaders (splitFirstLine block).2
    (splitOnByte lf (cstr (splitFirstLine block).2))
  rw [requestFields, readHeaderLines, List.map_reverse, foldl_line_fields, ← hplaced]
  simp [placedHeaders, Function.comp_def]

/-- So is the last one with a name. -/
theorem map_lastField (id : HeaderName) (block : List UInt8) :
    (lastField id block).map HeaderField.value =
      (lastHeader id block).map fun h => truncSpace h.raw := by
  have hfilter := congrArg
    (fun fs => ((fs.filter fun f => identifyHttpHeader f.1 = id).map Prod.snd).getLast?)
    (map_requestFields block)
  simpa only [List.filter_map, List.map_map, List.getLast?_map, Function.comp_def, lastField,
    lastHeader] using hfilter

/-- The lines take the room of the string. -/
theorem sum_splitOnByte (sep : UInt8) (s : List UInt8) :
    ((splitOnByte sep s).map fun line => line.length + 1).sum = s.length + 1 := by
  induction s with
  | nil => rfl
  | cons c cs ih =>
    rw [splitOnByte]
    split_ifs with hc
    · rw [List.map_cons, List.sum_cons, ih, List.length_nil, List.length_cons, Nat.add_comm]
    · split
      · rename_i hnil
        rw [hnil] at ih
        simp at ih
      · rename_i line lines hcons
        rw [hcons, List.map_cons, List.sum_cons] at ih
        rw [List.map_cons, List.sum_cons, List.length_cons, List.length_cons]
        omega

/-- A header that has nothing behind its line is that of the last line. -/
theorem eq_append_of_rest_eq_none {s : List UInt8} {lines : List (List UInt8)} {h : PlacedHeader}
    (hlen : (lines.map fun line => line.length + 1).sum ≤ s.length + 1)
    (hmem : h ∈ placeHeaders s lines) (hrest : h.rest = none) :
    ∃ front line, lines = front ++ [line] ∧ headerOfLine line = some (h.name, h.raw) := by
  induction lines generalizing s with
  | nil => cases hmem
  | cons line lines ih =>
    rw [List.map_cons, List.sum_cons] at hlen
    rcases List.mem_append.mp hmem with hhead | htail
    · obtain ⟨f, hf, rfl⟩ := Option.map_eq_some_iff.mp (Option.mem_toList.mp hhead)
      obtain rfl : lines = [] := by
        cases lines with
        | nil => rfl
        | cons line' lines =>
          rw [List.map_cons, List.sum_cons] at hlen
          simp only [show line.length < s.length by omega, if_true] at hrest
          cases hrest
      exact ⟨[], line, rfl, hf⟩
    · obtain ⟨front, line', rfl, hline'⟩ := ih (by rw [List.length_drop]; omega) htail
      exact ⟨line :: front, line', rfl, hline'⟩

/-- The last header of a block has no lines that continue it. -/
theorem text_lastField_of_rest_eq_none {id : HeaderName} {block : List UInt8} {h : PlacedHeader}
    (hlast : lastHeader id block = some h) (hrest : h.rest = none) :
    (lastField id block).map HeaderField.text = some (truncSpace h.raw) := by
  obtain ⟨hmem, hname⟩ := List.mem_filter.mp (List.mem_of_getLast? hlast)
  have hlen : ((splitOnByte lf (cstr (splitFirstLine block).2)).map
      fun line => line.length + 1).sum ≤ (splitFirstLine block).2.length + 1 := by
    rw [sum_splitOnByte]
    exact Nat.succ_le_succ (List.takeWhile_prefix _).length_le
  obtain ⟨front, line, hlines, hline⟩ := eq_append_of_rest_eq_none hlen hmem hrest
  -- the last pass of the loop adds it
  have hread : ∀ r : LineReader, (r.line line).fields =
      { name := h.name, value := truncSpace h.raw } :: r.fields := by
    intro r
    unfold headerOfLine at hline
    unfold LineReader.line
    split_ifs at hline ⊢
    rw [hline]
  have hfields : requestFields block =
      (front.foldl LineReader.line {}).fields.reverse ++
        [{ name := h.name, value := truncSpace h.raw }] := by
    rw [requestFields, readHeaderLines, hlines, List.foldl_append, List.foldl_cons, List.foldl_nil,
      hread, List.reverse_cons]
  rw [lastField, hfields, List.filter_append, List.filter_cons_of_pos (by simpa using hname),
    List.filter_nil, List.getLast?_concat]
  exact congrArg some (List.append_nil _)

/-! ### The date -/

/-- The first three characters of a date are not looked at. -/
theorem parseHttpTime_congr {s s' : List UInt8} (h : s.drop 3 = s'.drop 3) :
    parseHttpTime s = parseHttpTime s' := by
  unfold parseHttpTime parseTm
  rw [h]

/-- The date in a memory, from its fourth byte on. -/
def dateFrom (mem : List UInt8) : ℤ := parseHttpTime ([0, 0, 0] ++ cstr mem)

theorem dateFrom_eq_zero {c : UInt8} (hc : c ≠ 44) (mem : List UInt8) : dateFrom (c :: mem) = 0 := by
  by_cases hzero : c = 0
  · rw [dateFrom, hzero, cstr_zero_cons]
    decide +kernel
  · have hskip : skipBytes (bytes ", ") (([0, 0, 0] ++ c :: cstr mem).drop 3) = none := by
      show skipBytes [44, 32] (c :: cstr mem) = none
      rw [skipBytes, List.foldlM_cons, skipByte, if_neg hc]
      rfl
    have hcons : cstr (c :: mem) = c :: cstr mem :=
      List.takeWhile_cons_of_pos (by simpa using hzero)
    unfold dateFrom parseHttpTime parseTm
    rw [hcons, hskip]
    rfl

/-- The date of a header. What is behind the block is looked at from the fourth byte of the value
on, if that is there. -/
def PlacedHeader.date (behind : List UInt8) (h : PlacedHeader) : ℤ :=
  if 3 ≤ h.toEnd.length then parseHttpTime h.toEnd
  else dateFrom (behind.drop (2 - h.toEnd.length))

theorem exists_append_zero {s : List UInt8} (h : 0 ∈ s) : ∃ rest, s = cstr s ++ 0 :: rest := by
  obtain ⟨front, rest, rfl, hfront⟩ := List.eq_append_cons_of_mem h
  exact ⟨rest, by rw [cstr_append_zero hfront]⟩

theorem result_ifModifiedSinceAt {behind : List UInt8} (hzero : 0 ∈ behind.drop 2)
    (block : List UInt8) :
    (ifModifiedSinceAt behind block).result =
      some ((lastHeader .ifModifiedSince block).elim 0 (·.date behind)) := by
  unfold ifModifiedSinceAt
  cases lastHeader .ifModifiedSince block with
  | none => rfl
  | some h =>
    rw [Option.elim_some, Option.elim_some, PlacedHeader.date]
    generalize h.toEnd = value
    split_ifs with hlen
    · exact (yields_parseHttpTimeAt hlen behind).2
    · -- three bytes, and the string behind them
      have hmem : 0 ∈ behind.drop (2 - value.length) :=
        List.drop_subset_drop_left _ (Nat.sub_le _ _) hzero
      obtain ⟨rest, hrest⟩ := exists_append_zero hmem
      have hfront : (value ++ 0 :: behind.take (2 - value.length)).length = 3 := by
        have hpos := List.length_pos_of_mem hzero
        rw [List.length_drop] at hpos
        simp only [List.length_append, List.length_cons, List.length_take]
        omega
      have hsplit : value ++ 0 :: behind =
          value ++ 0 :: behind.take (2 - value.length) ++ cstr (behind.drop (2 - value.length)) ++
            0 :: rest := by
        conv_lhs => rw [← List.take_append_drop (2 - value.length) behind, hrest]
        simp
      have hdate := yields_parseHttpTimeAt (s := value ++ 0 :: behind.take (2 - value.length) ++
        cstr (behind.drop (2 - value.length))) (by rw [List.length_append, hfront]; omega) rest
      rw [hsplit, hdate.2]
      refine congrArg some (parseHttpTime_congr ?_)
      rw [← hfront, List.drop_left, hfront]
      rfl

/-! ### The flag -/

theorem exists_yields_gzipToken {n g : ℕ} {own : List UInt8} (h : Terminated 0 n own) (hg : g ≤ n) :
    ∃ found, Yields n (fun behind => gzipToken (own ++ behind) g) fun _ => found := by
  have hnul : 0 ∉ bytes "gzip" := by decide
  have hword := yields_startsWith h hg hnul
  by_cases hpos : bytes "gzip" <+: own.drop g
  · simp only [hpos, decide_true] at hword
    have hbegins := yields_beginsAt h hg
    by_cases hdelim : ∀ c ∈ (own.take g).getLast?, isDelimiter c
    · simp only [decide_eq_true hdelim] at hbegins
      -- the word ends in front of the terminator
      have hend : g + 4 ≤ n := by
        obtain ⟨rest, hrest⟩ := hpos
        have hget : ∀ i, own[g + i]? = (bytes "gzip" ++ rest)[i]? := by
          intro i
          rw [hrest, List.getElem?_drop]
        have hlen := (List.getElem?_eq_some_iff.mp (hget 3)).1
        rw [h.length_eq] at hlen
        have hne : g + 3 ≠ n := by
          rintro rfl
          have hlast : (bytes "gzip" ++ rest)[3]? = some 112 := rfl
          exact absurd (h.last_eq.symm.trans ((hget 3).trans hlast)) (by decide)
        omega
      obtain ⟨c, hc⟩ := h.exists_getElem? hend
      refine ⟨decide (c = 0 ∨ isDelimiter c), hword.bind ?_⟩
      simp only [if_true]
      refine hbegins.bind ?_
      simp only [if_true]
      exact (h.yields_read hend hc).bind (yields_pure _ _)
    · simp only [decide_eq_false hdelim] at hbegins
      refine ⟨false, hword.bind ?_⟩
      simp only [if_true]
      refine hbegins.bind ?_
      simp only [Bool.false_eq_true, if_false]
      exact yields_pure _ _
  · simp only [hpos, decide_false] at hword
    refine ⟨false, hword.bind ?_⟩
    simp only [Bool.false_eq_true, if_false]
    exact yields_pure _ _

/-- The loop stays in front of the terminator behind which it does not begin. -/
theorem exists_yields_gzipSearch {n g : ℕ} {own : List UInt8} (h : Terminated 0 n own)
    (hg : g < n) :
    ∃ found, ∀ fuel, n - g ≤ fuel →
      Yields n (fun behind => gzipSearch (own ++ behind) fuel g) fun _ => found := by
  induction hd : n - g using Nat.strong_induction_on generalizing g with
  | _ d ih =>
    obtain ⟨found, htoken⟩ := exists_yields_gzipToken h hg.le
    obtain ⟨q, hpq, hqn, -, -, hsearch⟩ := h.yields_strchr (p := g + 1) hg 103
    have hpos : ∀ fuel, n - g ≤ fuel → ∃ fuel', fuel = fuel' + 1 := fun fuel hfuel =>
      Nat.exists_eq_add_of_le' (by omega)
    cases found with
    | true =>
      refine ⟨true, fun fuel hfuel => ?_⟩
      obtain ⟨fuel, rfl⟩ := hpos fuel (by omega)
      exact htoken.bind (yields_pure _ _)
    | false =>
      by_cases hfound : own[q]? = some 103
      · simp only [if_pos hfound] at hsearch
        have hlt : q < n := by
          refine lt_of_le_of_ne hqn fun heq => ?_
          rw [heq, h.last_eq] at hfound
          exact absurd hfound (by decide)
        obtain ⟨found, hrest⟩ := ih (n - q) (by omega) hlt rfl
        refine ⟨found, fun fuel hfuel => ?_⟩
        obtain ⟨fuel, rfl⟩ := hpos fuel (by omega)
        exact htoken.bind (hsearch.bind (hrest fuel (by omega)))
      · simp only [if_neg hfound] at hsearch
        refine ⟨false, fun fuel hfuel => ?_⟩
        obtain ⟨fuel, rfl⟩ := hpos fuel (by omega)
        exact htoken.bind (hsearch.bind (yields_pure _ _))

/-- The flag that the loop gives to an empty value, by the string behind the terminator. -/
def flagBehind (s : List UInt8) : Bool :=
  (gzipSearch (0 :: (s ++ [0])) (s.length + 1) 0).result = some true

theorem result_gzipSearch (s rest : List UInt8) {fuel : ℕ} (hfuel : s.length + 1 ≤ fuel) :
    (gzipSearch (0 :: (s ++ 0 :: rest)) fuel 0).result = some (flagBehind s) := by
  have hown : Terminated 0 (s.length + 1) (0 :: (s ++ [0])) := .append_singleton 0 (0 :: s)
  obtain ⟨found, hsearch⟩ := exists_yields_gzipSearch hown (g := 0) (Nat.succ_pos _)
  have hlong := (hsearch fuel hfuel rest).2
  have hshort := (hsearch (s.length + 1) le_rfl []).2
  simp only [List.append_nil] at hshort
  have hflag : flagBehind s = found := by simp [flagBehind, hshort]
  simpa [hflag] using hlong

theorem result_acceptGzipEncoding_nil (s rest : List UInt8) :
    (acceptGzipEncoding (s ++ 0 :: rest) (some [])).result = some (flagBehind s) := by
  refine result_gzipSearch s rest ?_
  simp only [List.length_append, List.length_cons, List.length_nil]
  omega

theorem truncSpaceInPlace_eq_nil {raw : List UInt8} (h : truncSpace raw = []) :
    truncSpaceInPlace raw = [] := by
  have hall := List.rdropWhile_eq_nil_iff.mp h
  have hblank : (raw.dropWhile fun c => ¬ isGraph c) = [] := by
    rw [← List.dropWhile_idempotent, List.dropWhile_eq_nil_iff]
    exact hall
  rw [truncSpaceInPlace, h, hblank]
  rfl

/-- The flag of a request, where `behind` lies behind the terminator of its header block. -/
def acceptGzipEncodingAt (behind block : List UInt8) : Traced Bool :=
  acceptGzipEncoding (behindAcceptEncoding behind block) (lastAcceptEncoding block)

/-- What is behind the block does not matter, unless the value is empty and ends the block. -/
theorem exists_forall_result_acceptGzipEncodingAt {block : List UInt8}
    (h : ∀ a ∈ lastHeader .acceptEncoding block, a.toEnd ≠ []) :
    ∃ found, ∀ behind, (acceptGzipEncodingAt behind block).result = some found := by
  unfold acceptGzipEncodingAt behindAcceptEncoding
  cases hvalue : lastAcceptEncoding block with
  | none => exact ⟨false, fun _ => rfl⟩
  | some value =>
    by_cases hne : value = []
    · subst hne
      obtain ⟨f, hf, htext⟩ := Option.map_eq_some_iff.mp hvalue
      have hlast := map_lastField .acceptEncoding block
      rw [hf, Option.map_some] at hlast
      obtain ⟨a, ha, hraw⟩ := Option.map_eq_some_iff.mp hlast.symm
      rw [(List.append_eq_nil_iff.mp htext).1] at hraw
      have hend := h a ha
      rw [PlacedHeader.toEnd, truncSpaceInPlace_eq_nil hraw] at hend
      rw [ha]
      simp only [Option.elim_some, PlacedHeader.behindEmpty]
      cases hrest : a.rest with
      | none => simp [hrest] at hend
      | some rest =>
        cases hnext : a.next with
        | none => exact ⟨_, fun behind => result_acceptGzipEncoding_nil rest behind⟩
        | some line => exact ⟨_, fun _ => result_acceptGzipEncoding_nil _ []⟩
    · have hzero := zero_notMem_lastAcceptEncoding hvalue
      exact ⟨_, fun _ => result_acceptGzipEncoding_of_ne_nil hzero hne _⟩

/-- If it does, the loop takes the flag from the string there. -/
theorem result_acceptGzipEncodingAt {behind block : List UInt8} {a : PlacedHeader}
    (ha : lastHeader .acceptEncoding block = some a) (hend : a.toEnd = []) (hzero : 0 ∈ behind) :
    (acceptGzipEncodingAt behind block).result = some (flagBehind (cstr behind)) := by
  obtain ⟨hvalue, hafter⟩ := List.append_eq_nil_iff.mp hend
  have hrest : a.rest = none := by
    cases hrest : a.rest with
    | none => rfl
    | some rest => simp [hrest] at hafter
  have hraw : truncSpace a.raw = [] := (List.append_eq_nil_iff.mp hvalue).1
  have htext := text_lastField_of_rest_eq_none ha hrest
  rw [hraw] at htext
  obtain ⟨rest, heq⟩ := exists_append_zero hzero
  rw [acceptGzipEncodingAt, behindAcceptEncoding, ha, lastAcceptEncoding, htext, Option.elim_some,
    PlacedHeader.behindEmpty, hrest, Option.elim_none]
  conv_lhs => rw [heq]
  exact result_acceptGzipEncoding_nil _ rest

theorem exists_result_acceptGzipEncodingAt {behind : List UInt8} (hzero : 0 ∈ behind)
    (block : List UInt8) : ∃ found, (acceptGzipEncodingAt behind block).result = some found := by
  by_cases h : ∀ a ∈ lastHeader .acceptEncoding block, a.toEnd ≠ []
  · obtain ⟨found, hfound⟩ := exists_forall_result_acceptGzipEncodingAt h
    exact ⟨found, hfound behind⟩
  · push Not at h
    obtain ⟨a, ha, hend⟩ := h
    exact ⟨_, result_acceptGzipEncodingAt ha hend hzero⟩

/-! ### The whole request -/

/-- A request that is refused is refused whatever is behind it. -/
theorem result_parseHttpRequestAt_error {block : List UInt8} {code : ℤ}
    (h : parseHttpRequest block = .error code) (behind : List UInt8) :
    (parseHttpRequestAt behind block).result = some (.error code) := by
  rw [parseHttpRequestAt, result_bind, parseHttpRequestIn, h]
  rfl

/-- A request that is accepted, with the two fields that may depend on what is behind it. -/
theorem result_parseHttpRequestAt {block behind : List UInt8} {req : RequestFields} {flag : Bool}
    (h : parseHttpRequest block = .ok req) (hzero : 0 ∈ behind.drop 2)
    (hflag : (acceptGzipEncodingAt behind block).result = some flag) :
    (parseHttpRequestAt behind block).result =
      some (.ok { req with
        acceptGzipEncoding := flag
        ifModifiedSince := (lastHeader .ifModifiedSince block).elim 0 (·.date behind) }) := by
  unfold acceptGzipEncodingAt at hflag
  rw [parseHttpRequestAt, result_bind, parseHttpRequestIn_of_ok h, result_bind, hflag]
  rw [Option.bind_some, result_pure, Option.bind_some, result_bind, result_ifModifiedSinceAt hzero]
  rfl

/-! ### Values that are long enough -/

/-- A value has its terminator. -/
theorem PlacedHeader.exists_toEnd_eq (h : PlacedHeader) (behind : List UInt8) :
    ∃ rest, h.toEnd ++ 0 :: behind = truncSpace h.raw ++ 0 :: rest := by
  have hpad : ∀ k, ∃ rest, truncSpace h.raw ++ List.replicate k 0 ++ h.rest.elim [] (0 :: ·) ++
      0 :: behind = truncSpace h.raw ++ 0 :: rest := by
    intro k
    cases k with
    | succ k =>
      exact ⟨List.replicate k 0 ++ (h.rest.elim [] (0 :: ·) ++ 0 :: behind), by
        simp [List.replicate_succ]⟩
    | zero =>
      cases h.rest with
      | none => exact ⟨behind, by simp⟩
      | some rest => exact ⟨rest ++ 0 :: behind, by simp⟩
  exact hpad _

/-- If no value is too short, the request is the one that is read from the values alone. -/
theorem result_parseHttpRequestAt_of_long {block : List UInt8}
    (hvalue : lastAcceptEncoding block ≠ some [])
    (hdate : ∀ f ∈ lastField .ifModifiedSince block, 3 ≤ f.value.length) (behind : List UInt8) :
    (parseHttpRequestAt behind block).result = some (parseHttpRequest block) := by
  rw [parseHttpRequestAt, result_bind, result_parseHttpRequestIn hvalue, Option.bind_some]
  cases hparse : parseHttpRequest block with
  | error code => rfl
  | ok req =>
    have hread : (ifModifiedSinceAt behind block).result = some req.ifModifiedSince := by
      rw [parseHttpRequest_ifModifiedSince hparse]
      have hlast := map_lastField .ifModifiedSince block
      unfold ifModifiedSinceAt
      cases hfield : lastField .ifModifiedSince block with
      | none =>
        rw [hfield, Option.map_none, eq_comm, Option.map_eq_none_iff] at hlast
        rw [hlast]
        rfl
      | some f =>
        rw [hfield, Option.map_some, eq_comm, Option.map_eq_some_iff] at hlast
        obtain ⟨h, hh, hraw⟩ := hlast
        obtain ⟨rest, hmem⟩ := h.exists_toEnd_eq behind
        rw [hh, Option.elim_some, Option.elim_some, hmem, hraw]
        exact (yields_parseHttpTimeAt (hdate f hfield) rest).2
    rw [result_bind, hread]
    rfl

end Nxweb
