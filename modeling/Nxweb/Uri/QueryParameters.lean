import Nxweb.Http.HeaderLines
import Nxweb.Uri.Path

/-!
# Query parameters

Model of `nxweb_parse_request_parameters` and of `_nxb_append_escape_url` (`http_utils.c`), which
escapes a string so that it can be a part of a uri. The parser cuts the query at `&` and every piece
at its first `=`, decodes the two parts in place and puts them in front of the list of parameters. The
parameters of a form follow those of the query.

## Main definitions

* `escapeUrl`, `queryString`: the query for a list of parameters;
* `parseRequestParameters`;
* `nxSimpleMapGet`: the lookup of a parameter.

## Main results

* `parseRequestParameters_queryString`: the parameters are read back from the query, the last one
  first.
-/

namespace Nxweb

open Lib

/-! ### Escaping -/

/-- `IS_URI_CHAR`: letters, digits and the characters `.-_~`. -/
def isUriChar (c : UInt8) : Bool :=
  (48 ≤ c && c ≤ 57) || (97 ≤ c && c ≤ 122) || (65 ≤ c && c ≤ 90) || c == 46 || c == 45 ||
    c == 95 || c == 126

/-- What is appended for a character. -/
def escapeUrlChar (c : UInt8) : List UInt8 :=
  if isUriChar c then [c] else [37, hexDigit (c.toNat / 16), hexDigit c.toNat]

/-- `_nxb_append_escape_url`: the characters appended for a string. -/
def escapeUrl (s : List UInt8) : List UInt8 := s.flatMap escapeUrlChar

/-! ### Parsing -/

/-- The fields of `nxweb_http_request` that the parser uses. No parameters are a null pointer. -/
structure ParameterRequest where
  uri : List UInt8
  content : Option (List UInt8) := none
  contentType : Option (List UInt8) := none
  parameters : List (List UInt8 × List UInt8) := []
  deriving DecidableEq, Repr

/-- `nxweb_url_decode(s, 0)` for a string with its terminator, and what is read there afterwards. -/
def decodedInPlace (s : List UInt8) : List UInt8 := cstr (urlDecode (s ++ [0]))

/-- The body of the loops: a piece of the query is added in front of the parameters. -/
def addParameter (params : List (List UInt8 × List UInt8)) (piece : List UInt8) :
    List (List UInt8 × List UInt8) :=
  let (name, value) := (splitAtByte 61 piece).getD (piece, [])
  if name = [] then params
  else (truncSpace (decodedInPlace name), decodedInPlace value) :: params

/-- The loop over the pieces of a query. -/
def addParameters (params : List (List UInt8 × List UInt8)) (query : List UInt8) :
    List (List UInt8 × List UInt8) :=
  (splitOnByte 38 query).foldl addParameter params

/-- The content of a form. -/
def ParameterRequest.form (req : ParameterRequest) : Option (List UInt8) :=
  if req.contentType.any (strcaseEq · (bytes "application/x-www-form-urlencoded")) then req.content
  else none

/-- `nxweb_parse_request_parameters`. -/
def parseRequestParameters (preserveUri : Bool) (req : ParameterRequest) : ParameterRequest :=
  if req.parameters ≠ [] then req
  else
    let (uri, query) : List UInt8 × Option (List UInt8) :=
      match splitAtByte 63 req.uri with
      | none => (req.uri, none)
      | some (path, query) => (if preserveUri then req.uri else path, some query)
    let params := query.elim [] (addParameters [])
    match req.form with
    | none => { req with uri, parameters := params }
    | some form => { req with uri, content := none, parameters := addParameters params form }

/-- `nx_simple_map_get`: the value of the first entry with the name. -/
def nxSimpleMapGet (params : List (List UInt8 × List UInt8)) (name : List UInt8) :
    Option (List UInt8) :=
  (params.find? fun p => p.1 = name).map Prod.snd

/-! ### Decoding what has been escaped -/

theorem urlDecodeString_escapeUrlChar (c : UInt8) (s : List UInt8) :
    urlDecodeString (escapeUrlChar c ++ s) = c :: urlDecodeString s := by
  unfold escapeUrlChar
  split_ifs with hchar
  · -- neither a percent sign nor a plus sign
    have hpercent : c ≠ 37 := by
      rintro rfl
      exact absurd hchar (by decide)
    have hplus : c ≠ 43 := by
      rintro rfl
      exact absurd hchar (by decide)
    rw [List.singleton_append, urlDecodeString]
    · exact fun a b s' h _ => hpercent h
    · exact hplus
  · simp only [List.cons_append, List.nil_append, urlDecodeString, ofNat_hexDigits]

theorem urlDecodeString_escapeUrl (s : List UInt8) : urlDecodeString (escapeUrl s) = s := by
  induction s with
  | nil => rfl
  | cons c s ih =>
    rw [escapeUrl, List.flatMap_cons, urlDecodeString_escapeUrlChar]
    exact congrArg (c :: ·) ih

/-- An escaped string consists of uri characters and percent signs. -/
theorem isUriChar_of_mem_escapeUrl {s : List UInt8} {c : UInt8} (h : c ∈ escapeUrl s) :
    isUriChar c = true ∨ c = 37 := by
  obtain ⟨d, -, hd⟩ := List.mem_flatMap.mp h
  unfold escapeUrlChar at hd
  have hdigit : ∀ n, isUriChar (hexDigit n) = true := by
    intro n
    have hlt : n % 16 < 16 := Nat.mod_lt _ (by decide)
    unfold hexDigit
    generalize n % 16 = m at hlt
    interval_cases m <;> decide
  split_ifs at hd with hchar
  · rw [List.mem_singleton.mp hd]
    exact .inl hchar
  · rcases List.mem_cons.mp hd with rfl | hd
    · exact .inr rfl
    · left
      rcases List.mem_cons.mp hd with rfl | hd
      · exact hdigit _
      · rw [List.mem_singleton.mp hd]
        exact hdigit _

/-- The separators do not occur in an escaped string. -/
theorem notMem_escapeUrl {c : UInt8} (hchar : isUriChar c = false) (hne : c ≠ 37)
    (s : List UInt8) : c ∉ escapeUrl s := by
  intro h
  rcases isUriChar_of_mem_escapeUrl h with huri | hpercent
  · rw [hchar] at huri
    cases huri
  · exact hne hpercent

theorem escapeUrl_ne_nil {s : List UInt8} (hs : s ≠ []) : escapeUrl s ≠ [] := by
  obtain ⟨c, t, rfl⟩ := List.exists_cons_of_ne_nil hs
  rw [escapeUrl, List.flatMap_cons, escapeUrlChar]
  split_ifs <;> simp

/-- What is read where a string has been decoded. -/
theorem decodedInPlace_eq {s : List UInt8} (hs : 0 ∉ s) :
    decodedInPlace s = cstr (urlDecodeString s) := by
  have hread : ∀ xs ys : List UInt8, cstr (xs ++ 0 :: ys) = cstr xs := by
    intro xs ys
    unfold cstr
    induction xs with
    | nil => rfl
    | cons x xs ih => simp only [List.cons_append, List.takeWhile_cons, ih]
  rw [decodedInPlace, urlDecode, cstr_append_zero hs, List.append_assoc, List.singleton_append,
    hread]

theorem decodedInPlace_escapeUrl {s : List UInt8} (hs : 0 ∉ s) :
    decodedInPlace (escapeUrl s) = s := by
  have hzero : 0 ∉ escapeUrl s := notMem_escapeUrl (by decide) (by decide) s
  rw [decodedInPlace_eq hzero, urlDecodeString_escapeUrl, cstr_of_notMem hs]

/-! ### Reading parameters back -/

/-- A parameter that a query can carry: neither part has a zero byte, and the name is not empty and
has no white space at its ends. -/
structure IsParameter (p : List UInt8 × List UInt8) : Prop where
  name_ne_nil : p.1 ≠ []
  zero_notMem_name : 0 ∉ p.1
  zero_notMem_value : 0 ∉ p.2
  head : ∀ c ∈ p.1.head?, isGraph c = true
  last : ∀ c ∈ p.1.getLast?, isGraph c = true

/-- A parameter as a part of a query. -/
def queryPiece (p : List UInt8 × List UInt8) : List UInt8 := escapeUrl p.1 ++ 61 :: escapeUrl p.2

/-- The query for a list of parameters. -/
def queryString (params : List (List UInt8 × List UInt8)) : List UInt8 :=
  [38].intercalate (params.map queryPiece)

/-- A string without white space at its ends is left as it is. -/
theorem truncSpace_of_graph {s : List UInt8} (hhead : ∀ c ∈ s.head?, isGraph c = true)
    (hlast : ∀ c ∈ s.getLast?, isGraph c = true) : truncSpace s = s := by
  have hdrop : s.dropWhile (fun c => ¬ isGraph c) = s := by
    apply List.dropWhile_eq_self_iff.mpr
    intro hlen
    simpa using hhead s[0] (by simp [List.head?_eq_getElem?, hlen])
  rw [truncSpace, hdrop]
  apply List.rdropWhile_eq_self_iff.mpr
  intro hne
  simpa using hlast (s.getLast hne) (List.getLast?_eq_some_getLast hne)

/-- A parameter is read back from its piece. -/
theorem addParameter_queryPiece (params : List (List UInt8 × List UInt8))
    {p : List UInt8 × List UInt8} (hp : IsParameter p) :
    addParameter params (queryPiece p) = p :: params := by
  have hequals : (61 : UInt8) ∉ escapeUrl p.1 := notMem_escapeUrl (by decide) (by decide) p.1
  rw [addParameter, queryPiece, splitAtByte_append hequals, Option.getD_some]
  simp only [if_neg (escapeUrl_ne_nil hp.name_ne_nil), decodedInPlace_escapeUrl hp.zero_notMem_name,
    decodedInPlace_escapeUrl hp.zero_notMem_value, truncSpace_of_graph hp.head hp.last]

theorem ampersand_notMem_queryPiece (p : List UInt8 × List UInt8) : 38 ∉ queryPiece p := by
  have hname : (38 : UInt8) ∉ escapeUrl p.1 := notMem_escapeUrl (by decide) (by decide) p.1
  have hvalue : (38 : UInt8) ∉ escapeUrl p.2 := notMem_escapeUrl (by decide) (by decide) p.2
  simp [queryPiece, hname, hvalue]

/-- The parameters of a query come in front of those that are there, the last one first. -/
theorem addParameters_queryString {params : List (List UInt8 × List UInt8)}
    (hparams : ∀ p ∈ params, IsParameter p) (rest : List (List UInt8 × List UInt8)) :
    addParameters rest (queryString params) = params.reverse ++ rest := by
  induction params generalizing rest with
  | nil => rfl
  | cons p params ih =>
    have hp := addParameter_queryPiece rest (hparams p List.mem_cons_self)
    have hrest := ih fun q hq => hparams q (List.mem_cons_of_mem p hq)
    unfold addParameters queryString at hrest ⊢
    by_cases hnil : params = []
    · subst hnil
      rw [List.map_singleton, List.intercalate_singleton,
        splitOnByte_of_notMem (ampersand_notMem_queryPiece p), List.foldl_cons, hp]
      rfl
    · rw [List.map_cons, List.intercalate_cons_of_ne_nil (by simpa using hnil), List.append_assoc,
        List.singleton_append, splitOnByte_append _ (ampersand_notMem_queryPiece p),
        List.foldl_cons, hp, hrest, List.reverse_cons, List.append_assoc, List.singleton_append]

/-- What has been added stands in front of what was there. -/
theorem addParameters_eq_append (params : List (List UInt8 × List UInt8)) (query : List UInt8) :
    addParameters params query = addParameters [] query ++ params := by
  have hstep : ∀ (ps : List (List UInt8 × List UInt8)) (piece : List UInt8),
      addParameter ps piece = addParameter [] piece ++ ps := by
    intro ps piece
    unfold addParameter
    dsimp only
    split_ifs <;> rfl
  unfold addParameters
  induction splitOnByte 38 query generalizing params with
  | nil => rfl
  | cons piece pieces ih =>
    rw [List.foldl_cons, List.foldl_cons, ih, ih (addParameter [] piece), hstep,
      List.append_assoc]

/-- The entry that is found in a reversed list is the last one. -/
theorem nxSimpleMapGet_reverse (params : List (List UInt8 × List UInt8)) (name : List UInt8) :
    nxSimpleMapGet params.reverse name =
      ((params.filter fun p => p.1 = name).getLast?).map Prod.snd := by
  rw [nxSimpleMapGet, ← List.head?_filter, List.filter_reverse, List.head?_reverse]

/-- Parameters that are joined to a query are read back from the uri, the last one first and behind
those of a form, so that the last value of a name is found. The uri is preserved. -/
theorem parseRequestParameters_queryString {req : ParameterRequest} {path : List UInt8}
    {params : List (List UInt8 × List UInt8)} (hpath : 63 ∉ path)
    (hparams : ∀ p ∈ params, IsParameter p) (huri : req.uri = path ++ 63 :: queryString params)
    (hunparsed : req.parameters = []) :
    (parseRequestParameters true req).parameters =
        req.form.elim [] (addParameters []) ++ params.reverse ∧
      (parseRequestParameters true req).uri = req.uri ∧
      (req.form = none → ∀ name, nxSimpleMapGet (parseRequestParameters true req).parameters name =
        ((params.filter fun p => p.1 = name).getLast?).map Prod.snd) := by
  have hquery : splitAtByte 63 req.uri = some (path, queryString params) := by
    rw [huri, splitAtByte_append hpath]
  have hread := addParameters_queryString hparams []
  rw [List.append_nil] at hread
  have hparse : parseRequestParameters true req =
      match req.form with
      | none => { req with parameters := params.reverse }
      | some form =>
        { req with content := none, parameters := addParameters params.reverse form } := by
    rw [parseRequestParameters, if_neg (by simp [hunparsed]), hquery]
    simp only [if_true, Option.elim_some, hread]
  rw [hparse]
  cases hform : req.form with
  | none =>
    refine ⟨rfl, rfl, fun _ name => ?_⟩
    exact nxSimpleMapGet_reverse params name
  | some form =>
    exact ⟨addParameters_eq_append params.reverse form, rfl, fun h => by cases h⟩

/-- A name twice, once with a value that has separators and a line end. -/
def repeatedName : List (List UInt8 × List UInt8) := [(bytes "n", [38, 61, 10]), (bytes "n", [])]

theorem parseRequestParameters_queryString_repeatedName :
    (parseRequestParameters true { uri := bytes "/a" ++ 63 :: queryString repeatedName }).parameters =
      [(bytes "n", []), (bytes "n", [38, 61, 10])] := by
  have hparams : ∀ p ∈ repeatedName, IsParameter p := by
    simp only [repeatedName, List.forall_mem_cons]
    exact ⟨⟨by decide, by decide, by decide, by decide, by decide⟩,
      ⟨by decide, by decide, by decide, by decide, by decide⟩, by simp⟩
  exact (parseRequestParameters_queryString (by decide) hparams rfl rfl).1

end Nxweb
