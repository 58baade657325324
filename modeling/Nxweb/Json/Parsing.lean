import Nxweb.Json.Scanning

/-!
# Parsing in memory

`parse_value` and its loops follow the grammar. They return without a fault on every text, and
succeed only where the grammar reads something; where it does, they succeed, unless `errno` has the
value `ERANGE` and there is a number in what is read. The nodes that they make hold the strings of
the grammar, in the memory that they leave.

## Main results

* `parseTask_returns`: a run returns, and what it returns has been read;
* `parseTask_of_readsJson`: what can be read is returned.
-/

namespace Nxweb

open Lib

variable {δ : Type} {fp : Doubles δ} {encoder : JsonEncoder}

/-! ### Trees in memory -/

/-- The strings of a tree are in memory, below `q`. -/
inductive TreeBelow (buf : List UInt8) (q : ℕ) : NxJson ℕ δ → NxJson (List UInt8) δ → Prop
  | null : TreeBelow buf q .null .null
  | node {type : NxJsonType} {key textValue : Option ℕ} {key' textValue' : Option (List UInt8)}
      {intValue : ℤ} {dblValue : δ} {length : ℤ} {child next : NxJson ℕ δ}
      {child' next' : NxJson (List UInt8) δ}
      (hkey : Option.Rel (StringBelow buf q) key key')
      (htext : Option.Rel (StringBelow buf q) textValue textValue')
      (hchild : TreeBelow buf q child child') (hnext : TreeBelow buf q next next') :
      TreeBelow buf q (.node type key textValue intValue dblValue length child next)
        (.node type key' textValue' intValue dblValue length child' next')

/-- The same for a node that others are put into. -/
structure ParentBelow (buf : List UInt8) (q : ℕ) (js : JsonParent ℕ δ)
    (js' : JsonParent (List UInt8) δ) : Prop where
  child : TreeBelow buf q js.child js'.child
  length_eq : js.length = js'.length

section Trees

variable {buf buf' : List UInt8} {p q : ℕ}

theorem keyBelow_mono {key : Option ℕ} {key' : Option (List UInt8)}
    (h : Option.Rel (StringBelow buf p) key key') (htake : buf'.take p = buf.take p) (hle : p ≤ q) :
    Option.Rel (StringBelow buf' q) key key' := by
  cases h with
  | some h => exact .some (h.mono htake hle)
  | none => exact .none

theorem TreeBelow.mono {js : NxJson ℕ δ} {js' : NxJson (List UInt8) δ} (h : TreeBelow buf p js js')
    (htake : buf'.take p = buf.take p) (hle : p ≤ q) : TreeBelow buf' q js js' := by
  induction h with
  | null => exact .null
  | node hkey htext _ _ ihchild ihnext =>
    exact .node (keyBelow_mono hkey htake hle) (keyBelow_mono htext htake hle) ihchild ihnext

theorem TreeBelow.append {js₁ js₂ : NxJson ℕ δ} {js₁' js₂' : NxJson (List UInt8) δ}
    (h₁ : TreeBelow buf q js₁ js₁') (h₂ : TreeBelow buf q js₂ js₂') :
    TreeBelow buf q (js₁.append js₂) (js₁'.append js₂') := by
  induction h₁ with
  | null => exact h₂
  | node hkey htext hchild _ _ ihnext => exact .node hkey htext hchild ihnext

theorem ParentBelow.mono {js : JsonParent ℕ δ} {js' : JsonParent (List UInt8) δ}
    (h : ParentBelow buf p js js') (htake : buf'.take p = buf.take p) (hle : p ≤ q) :
    ParentBelow buf' q js js' :=
  ⟨h.child.mono htake hle, h.length_eq⟩

theorem parentBelow_empty :
    ParentBelow buf q (.empty : JsonParent ℕ δ) (.empty : JsonParent (List UInt8) δ) :=
  ⟨.null, rfl⟩

theorem ParentBelow.create {js kids : JsonParent ℕ δ} {js' kids' : JsonParent (List UInt8) δ}
    {type : NxJsonType} {key textValue : Option ℕ} {key' textValue' : Option (List UInt8)}
    {intValue : ℤ} {dblValue : δ} (h : ParentBelow buf q js js')
    (hkey : Option.Rel (StringBelow buf q) key key')
    (htext : Option.Rel (StringBelow buf q) textValue textValue')
    (hkids : ParentBelow buf q kids kids') :
    ParentBelow buf q (js.create type key textValue intValue dblValue kids)
      (js'.create type key' textValue' intValue dblValue kids') where
  child := by
    rw [JsonParent.create, JsonParent.create, hkids.length_eq]
    exact h.child.append (.node hkey htext hkids.child .null)
  length_eq := by
    rw [JsonParent.create, JsonParent.create, h.length_eq]

/-- The tree with its strings, as they are in memory. -/
def NxJson.strings (buf : List UInt8) : NxJson ℕ δ → NxJson (List UInt8) δ
  | .null => .null
  | .node type key textValue intValue dblValue length child next =>
    .node type (key.map fun p => cstr (buf.drop p)) (textValue.map fun p => cstr (buf.drop p))
      intValue dblValue length (child.strings buf) (next.strings buf)

theorem keyBelow_map {key : Option ℕ} {key' : Option (List UInt8)}
    (h : Option.Rel (StringBelow buf q) key key') :
    (key.map fun p => cstr (buf.drop p)) = key' := by
  cases h with
  | some h => rw [Option.map_some, h.cstr_eq]
  | none => rfl

theorem TreeBelow.strings_eq {js : NxJson ℕ δ} {js' : NxJson (List UInt8) δ}
    (h : TreeBelow buf q js js') : js.strings buf = js' := by
  induction h with
  | null => rfl
  | node hkey htext _ _ ihchild ihnext =>
    rw [NxJson.strings, keyBelow_map hkey, keyBelow_map htext, ihchild, ihnext]

end Trees

/-! ### Branches of `parse_value` -/

section Branches

variable {st : ParseState} {js : JsonParent ℕ δ} {key : Option ℕ} {p fuel : ℕ} {c : UInt8}
  {t : List UInt8}

theorem parseValue_nil (h : TextAt st.buf p []) :
    parseValue fp encoder (fuel + 1) st js key p = some (st, none) := by
  rw [parseValue, h.nil]
  simp only [Option.bind_eq_bind, Option.bind_some, if_true]
  rw [ParseState.refuse, h.reportError_eq le_rfl]
  rfl

theorem parseValue_skip (h : TextAt st.buf p (c :: t)) (hc : isJsonSkipped c = true) :
    parseValue fp encoder (fuel + 1) st js key p = parseValue fp encoder fuel st js key (p + 1) := by
  have hc' : c = 32 ∨ c = 9 ∨ c = 10 ∨ c = 13 ∨ c = 44 := by
    simpa [isJsonSkipped, or_assoc] using hc
  rw [parseValue, h.cons]
  simp only [Option.bind_eq_bind, Option.bind_some, if_neg h.ne_zero, if_pos hc']

theorem parseValue_object (h : TextAt st.buf p (123 :: t)) :
    parseValue fp encoder (fuel + 1) st js key p =
      (parseMembers fp encoder fuel st .empty (p + 1)).map fun r =>
        (r.1, r.2.map fun (kids, q) => (js.create .object key none 0 fp.zero kids, q)) := by
  rw [parseValue, h.cons]
  cases parseMembers fp encoder fuel st .empty (p + 1) with
  | none => simp
  | some r => rcases r with ⟨st', _ | ⟨kids, q⟩⟩ <;> simp

theorem parseValue_array (h : TextAt st.buf p (91 :: t)) :
    parseValue fp encoder (fuel + 1) st js key p =
      (parseElements fp encoder fuel st .empty (p + 1)).map fun r =>
        (r.1, r.2.map fun (kids, q) => (js.create .array key none 0 fp.zero kids, q)) := by
  rw [parseValue, h.cons]
  cases parseElements fp encoder fuel st .empty (p + 1) with
  | none => simp
  | some r => rcases r with ⟨st', _ | ⟨kids, q⟩⟩ <;> simp

theorem parseValue_close (h : TextAt st.buf p (93 :: t)) :
    parseValue fp encoder (fuel + 1) st js key p = some (st, some (js, p)) := by
  rw [parseValue, h.cons]
  simp

theorem parseValue_string (h : TextAt st.buf p (34 :: t)) :
    parseValue fp encoder (fuel + 1) st js key p =
      (unescapeString encoder fuel st.buf (p + 1)).map fun r =>
        ({ st with buf := r.1 }, r.2.map fun q =>
          (js.create .string key (some (p + 1)) 0 fp.zero .empty, q)) := by
  rw [parseValue, h.cons]
  cases unescapeString encoder fuel st.buf (p + 1) with
  | none => simp
  | some r => rcases r with ⟨buf', _ | q⟩ <;> simp

theorem parseValue_number (h : TextAt st.buf p (c :: t)) (hc : c = 45 ∨ (48 ≤ c ∧ c ≤ 57)) :
    parseValue fp encoder (fuel + 1) st js key p = parseNumber fp st js key p := by
  have hne : ∀ d : UInt8, ¬ (d = 45 ∨ (48 ≤ d ∧ d ≤ 57)) → c ≠ d := by
    rintro d hd rfl
    exact hd hc
  have hskip : ¬ (c = 32 ∨ c = 9 ∨ c = 10 ∨ c = 13 ∨ c = 44) := by
    rintro (rfl | rfl | rfl | rfl | rfl) <;> revert hc <;> decide
  rw [parseValue, h.cons]
  simp only [Option.bind_eq_bind, Option.bind_some, if_neg h.ne_zero, if_neg hskip,
    if_neg (hne 123 (by decide)), if_neg (hne 91 (by decide)), if_neg (hne 93 (by decide)),
    if_neg (hne 34 (by decide)), if_pos hc]

theorem parseValue_literal {type : NxJsonType} {value : ℤ} {text : List UInt8}
    (hl : (type, value, text) ∈ jsonLiterals) (h : TextAt st.buf p (c :: t))
    (hc : text.head? = some c) :
    parseValue fp encoder (fuel + 1) st js key p =
      parseLiteral st (js.create type key none value fp.zero .empty) p text := by
  rw [parseValue, h.cons]
  simp only [jsonLiterals, List.mem_cons, List.not_mem_nil, or_false, Prod.mk.injEq] at hl
  rcases hl with ⟨rfl, rfl, rfl⟩ | ⟨rfl, rfl, rfl⟩ | ⟨rfl, rfl, rfl⟩
  · obtain rfl : 116 = c := Option.some.inj hc
    rfl
  · obtain rfl : 102 = c := Option.some.inj hc
    rfl
  · obtain rfl : 110 = c := Option.some.inj hc
    rfl

theorem parseValue_comment (h : TextAt st.buf p (47 :: t)) (hfuel : t.length < fuel) :
    parseValue fp encoder (fuel + 1) st js key p =
      match commentRest t with
      | none => some (st, none)
      | some u => parseValue fp encoder fuel st js key (p + 1 + (t.length - u.length)) := by
  rw [parseValue, h.cons]
  simp only [Option.bind_eq_bind, Option.bind_some, skipComment_eq h hfuel]
  rw [if_neg (by decide), if_neg (by decide), if_neg (by decide), if_neg (by decide),
    if_neg (by decide), if_neg (by decide), if_neg (by decide), if_neg (by decide),
    if_neg (by decide), if_neg (by decide)]
  cases commentRest t <;> rfl

theorem parseValue_other (h : TextAt st.buf p (c :: t)) (hskip : isJsonSkipped c = false)
    (hobject : c ≠ 123) (harray : c ≠ 91) (hclose : c ≠ 93) (hquote : c ≠ 34)
    (hnumber : ¬ (c = 45 ∨ (48 ≤ c ∧ c ≤ 57)))
    (hliteral : ¬ ∃ l ∈ jsonLiterals, l.2.2.head? = some c) (hslash : c ≠ 47) :
    parseValue fp encoder (fuel + 1) st js key p = some (st, none) := by
  have hskip' : ¬ (c = 32 ∨ c = 9 ∨ c = 10 ∨ c = 13 ∨ c = 44) := by
    simpa [isJsonSkipped, and_assoc] using hskip
  have ht : c ≠ 116 := by
    rintro rfl
    exact hliteral (by decide)
  have hf : c ≠ 102 := by
    rintro rfl
    exact hliteral (by decide)
  have hn : c ≠ 110 := by
    rintro rfl
    exact hliteral (by decide)
  rw [parseValue, h.cons]
  simp only [Option.bind_eq_bind, Option.bind_some, if_neg h.ne_zero, if_neg hskip',
    if_neg hobject, if_neg harray, if_neg hclose, if_neg hquote, if_neg hnumber, if_neg ht,
    if_neg hf, if_neg hn, if_neg hslash]
  rw [ParseState.refuse, h.reportError_eq le_rfl]
  rfl

/-- The branch for a number fails on `ERANGE`, wherever that comes from. -/
theorem parseNumber_eq (h : TextAt st.buf p t) :
    ∃ st', parseNumber fp st js key p =
      if st.errno = erange then some (st', none)
      else
        match readNumber fp t with
        | none => some (st', none)
        | some ((type, value, d), rest) =>
          some (st, some (js.create type key none value d .empty, p + (t.length - rest.length))) := by
  have hrefuse : ∀ e, ParseState.refuse (δ := δ) { st with errno := e } p =
      some ({ st with errno := e }, none) := by
    intro e
    rw [ParseState.refuse, h.reportError_eq le_rfl]
    rfl
  have hsuffix := strToInteger_suffix 0 t
  have hle := hsuffix.length_le
  have hhead := (h.suffix hsuffix).head
  unfold parseNumber readNumber
  simp only [h.cstringAt_eq, Option.bind_eq_bind, Option.bind_some]
  generalize hvalue : strToInteger 0 t = r at *
  obtain ⟨value, u⟩ := r
  dsimp only at *
  have hstart : p + (t.length - u.length) = p ↔ u.length = t.length := by omega
  by_cases hbad : u.length = t.length ∨ clampLong value ≠ value
  · -- nothing is read, or the value is out of range
    refine ⟨{ st with errno := if clampLong value = value then st.errno else erange }, ?_⟩
    have hcond : p + (t.length - u.length) = p ∨
        (if clampLong value = value then st.errno else erange) = erange := by
      rcases hbad with hlen | hclamp
      · exact .inl (hstart.mpr hlen)
      · exact .inr (if_neg hclamp)
    rw [if_pos hcond, hrefuse, if_pos hbad]
    simp
  obtain ⟨hlen, hclamp⟩ := not_or.mp hbad
  rw [not_not] at hclamp
  simp only [hclamp, if_true, hstart, hlen, false_or, ne_eq, not_true_eq_false, or_false, if_false]
  by_cases herr : st.errno = erange
  · refine ⟨st, ?_⟩
    rw [if_pos herr, if_pos herr]
    exact hrefuse st.errno
  simp only [if_neg herr, hhead, Option.bind_some]
  have hdouble : (u.headD 0 = 46 ∨ u.headD 0 = 101 ∨ u.headD 0 = 69) ↔
      (u.head? = some 46 ∨ u.head? = some 101 ∨ u.head? = some 69) := by
    cases u with
    | nil => simp
    | cons d u => simp
  by_cases hd : u.head? = some 46 ∨ u.head? = some 101 ∨ u.head? = some 69
  · rw [if_pos (hdouble.mpr hd), if_pos hd]
    have hconsumed := fp.consumed_le t
    by_cases hdbad : (fp.strtod t).consumed = 0 ∨ (fp.strtod t).erange = true
    · refine ⟨{ st with errno := if (fp.strtod t).erange then erange else st.errno }, ?_⟩
      have hcond : p + (fp.strtod t).consumed = p ∨
          (if (fp.strtod t).erange = true then erange else st.errno) = erange := by
        rcases hdbad with h0 | he
        · exact .inl (by omega)
        · exact .inr (if_pos he)
      rw [if_pos hcond, hrefuse, if_pos hdbad]
    · obtain ⟨h0, he⟩ := not_or.mp hdbad
      refine ⟨st, ?_⟩
      rw [if_neg hdbad, if_neg he, if_neg (by simp [h0, herr])]
      dsimp only
      rw [List.length_drop, show t.length - (t.length - (fp.strtod t).consumed) = (fp.strtod t).consumed by omega]
  · exact ⟨st, by rw [if_neg (mt hdouble.mp hd), if_neg hd]⟩

theorem startsWithAt_eq {buf text : List UInt8} (h : TextAt buf p t) (htext : 0 ∉ text) :
    startsWithAt buf p text = some (text.isPrefixOf t) := by
  induction text generalizing p t with
  | nil => simp [startsWithAt]
  | cons d text ih =>
    obtain ⟨hd, htext⟩ := not_or.mp (mt List.mem_cons.mpr htext)
    rw [startsWithAt, h.head, Option.bind_eq_bind, Option.bind_some]
    cases t with
    | nil => rw [List.headD_nil, if_neg hd, List.isPrefixOf_cons_nil]
    | cons c t =>
      rw [List.headD_cons, List.isPrefixOf_cons_cons]
      by_cases hc : c = d
      · rw [if_pos hc, ih h.tail htext, hc, beq_self_eq_true, Bool.true_and]
      · rw [if_neg hc, beq_false_of_ne (Ne.symm hc), Bool.false_and]

theorem parseLiteral_eq {text : List UInt8} (h : TextAt st.buf p t) (htext : 0 ∉ text) :
    parseLiteral st js p text =
      if text <+: t then some (st, some (js, p + text.length)) else some (st, none) := by
  rw [parseLiteral, startsWithAt_eq h htext, Option.bind_eq_bind, Option.bind_some]
  by_cases hprefix : text <+: t
  · rw [if_pos hprefix, if_pos (List.isPrefixOf_iff_prefix.mpr hprefix)]
  · rw [if_neg hprefix, if_neg (mt List.isPrefixOf_iff_prefix.mp hprefix), ParseState.refuse,
      h.reportError_eq le_rfl]
    rfl

end Branches

/-! ### Runs -/

/-- The functions of the parser. -/
def parseTask (fp : Doubles δ) (encoder : JsonEncoder) (fuel : ℕ) (task : JsonTask ℕ)
    (st : ParseState) (js : JsonParent ℕ δ) (p : ℕ) : Option (ParseReturn δ) :=
  match task with
  | .value key => parseValue fp encoder fuel st js key p
  | .members => parseMembers fp encoder fuel st js p
  | .elements => parseElements fp encoder fuel st js p

/-- The fuel for a text of so many bytes. An array may take a turn that reads nothing. -/
def JsonTask.need {σ : Type} : JsonTask σ → ℕ → ℕ
  | .value _, n => 2 * n + 1
  | .members, n => 2 * n + 2
  | .elements, n => 2 * n + 2

/-- The key is in memory. -/
inductive TaskBelow (buf : List UInt8) (q : ℕ) : JsonTask ℕ → JsonTask (List UInt8) → Prop
  | value {key : Option ℕ} {key' : Option (List UInt8)}
      (hkey : Option.Rel (StringBelow buf q) key key') : TaskBelow buf q (.value key) (.value key')
  | members : TaskBelow buf q .members .members
  | elements : TaskBelow buf q .elements .elements

/-- Where a function is called. -/
structure CalledAt (st : ParseState) (p : ℕ) (t : List UInt8) (task : JsonTask ℕ)
    (task' : JsonTask (List UInt8)) (js : JsonParent ℕ δ) (js' : JsonParent (List UInt8) δ) :
    Prop where
  text : TextAt st.buf p t
  task : TaskBelow st.buf p task task'
  parent : ParentBelow st.buf p js js'

/-- What a function has done that has succeeded. -/
structure ParsedTo (st : ParseState) (p : ℕ) (st' : ParseState) (js : JsonParent ℕ δ) (q : ℕ)
    (js' : JsonParent (List UInt8) δ) (rest : List UInt8) : Prop where
  text : TextAt st'.buf q rest
  le : p ≤ q
  take_eq : st'.buf.take p = st.buf.take p
  parent : ParentBelow st'.buf q js js'
  errno : st'.errno = st.errno

/-- A call that returns, and succeeds only where something is read. -/
def ReturnsRead (fp : Doubles δ) (encoder : JsonEncoder) (st : ParseState) (p : ℕ)
    (t : List UInt8) (task' : JsonTask (List UInt8)) (js' : JsonParent (List UInt8) δ)
    (x : Option (ParseReturn δ)) : Prop :=
  ∃ st' r, x = some (st', r) ∧ ∀ js₁ q, r = some (js₁, q) → ∃ js₁' rest,
    ReadsJson fp encoder task' js' t js₁' rest ∧
      (js₁'.child.HasNumber → js'.child.HasNumber ∨ st.errno ≠ erange) ∧
      ParsedTo st p st' js₁ q js₁' rest

theorem returnsRead_none {st st' : ParseState} {p : ℕ} {t : List UInt8}
    {task' : JsonTask (List UInt8)} {js' : JsonParent (List UInt8) δ} {x : Option (ParseReturn δ)}
    (h : x = some (st', none)) : ReturnsRead fp encoder st p t task' js' x :=
  ⟨st', none, h, by simp⟩

theorem ParsedTo.of_le {st st' : ParseState} {js : JsonParent ℕ δ} {p p' q : ℕ}
    {js' : JsonParent (List UInt8) δ} {rest : List UInt8} (h : ParsedTo st p' st' js q js' rest)
    (hle : p ≤ p') : ParsedTo st p st' js q js' rest where
  text := h.text
  le := hle.trans h.le
  take_eq := by
    have htake := congrArg (List.take p) h.take_eq
    rwa [List.take_take, List.take_take, min_eq_left hle] at htake
  parent := h.parent
  errno := h.errno

section Returns

variable {st : ParseState} {p fuel : ℕ} {t : List UInt8} {js : JsonParent ℕ δ}
  {js' : JsonParent (List UInt8) δ} {key : Option ℕ} {key' : Option (List UInt8)}

/-- Every call with enough fuel returns. -/
def AllReturn (fp : Doubles δ) (encoder : JsonEncoder) (fuel : ℕ) : Prop :=
  ∀ st p t task task' js js', CalledAt st p t task task' js js' → task'.need t.length ≤ fuel →
    ReturnsRead fp encoder st p t task' js' (parseTask fp encoder fuel task st js p)

theorem hasNumber_create {type : NxJsonType} {intValue : ℤ} {dblValue : δ}
    {textValue' : Option (List UInt8)} {kids' : JsonParent (List UInt8) δ}
    (htype : type ≠ .integer ∧ type ≠ .double) :
    (js'.create type key' textValue' intValue dblValue kids').child.HasNumber ↔
      js'.child.HasNumber ∨ kids'.child.HasNumber := by
  rw [JsonParent.create, NxJson.hasNumber_append, NxJson.HasNumber, NxJson.HasNumber]
  simp [htype.1, htype.2]

/-- A value that is behind something that is skipped. -/
theorem ReturnsRead.skip {p' : ℕ} {u : List UInt8} {x : Option (ParseReturn δ)}
    (h : ReturnsRead fp encoder st p' u (.value key') js' x) (hle : p ≤ p')
    (hskip : ∀ js₁' rest, ReadsJson fp encoder (.value key') js' u js₁' rest →
      ReadsJson fp encoder (.value key') js' t js₁' rest) :
    ReturnsRead fp encoder st p t (.value key') js' x := by
  obtain ⟨st', r, hx, hr⟩ := h
  refine ⟨st', r, hx, fun js₁ q heq => ?_⟩
  obtain ⟨js₁', rest, hreads, hnumber, hto⟩ := hr js₁ q heq
  exact ⟨js₁', rest, hskip js₁' rest hreads, hnumber, hto.of_le hle⟩

/-- An object or an array. -/
theorem ReturnsRead.container {type : NxJsonType} {task' : JsonTask (List UInt8)}
    {x : Option (ParseReturn δ)} (htype : type ≠ .integer ∧ type ≠ .double)
    (hkey : Option.Rel (StringBelow st.buf p) key key') (hparent : ParentBelow st.buf p js js')
    (h : ReturnsRead fp encoder st (p + 1) t task' .empty x) {c : UInt8}
    (hreads : ∀ kids' rest, ReadsJson fp encoder task' .empty t kids' rest →
      ReadsJson fp encoder (.value key') js' (c :: t)
        (js'.create type key' none 0 fp.zero kids') rest) :
    ReturnsRead fp encoder st p (c :: t) (.value key') js' (x.map fun r =>
      (r.1, r.2.map fun (kids, q) => (js.create type key none 0 fp.zero kids, q))) := by
  obtain ⟨st', r, rfl, hr⟩ := h
  refine ⟨st', _, rfl, ?_⟩
  intro js₁ q heq
  obtain ⟨⟨kids, q⟩, hkids, heq⟩ := Option.map_eq_some_iff.mp heq
  obtain ⟨rfl, rfl⟩ := Prod.mk.inj heq
  obtain ⟨kids', rest, hread, hnumber, hto⟩ := hr kids q hkids
  have hto' := hto.of_le (Nat.le_succ p)
  refine ⟨_, rest, hreads kids' rest hread, fun hn => ?_, hto'.text, hto'.le, hto'.take_eq, ?_,
    hto'.errno⟩
  · rcases (hasNumber_create htype).mp hn with hn | hn
    · exact .inl hn
    · rcases hnumber hn with hn | hn
      · exact hn.elim
      · exact .inr hn
  · exact (hparent.mono hto'.take_eq hto'.le).create (keyBelow_mono hkey hto'.take_eq hto'.le)
      .none hto.parent

/-- A node without others in it. -/
theorem ReturnsRead.leaf {type : NxJsonType} {value : ℤ} {d : δ} {q : ℕ} {rest : List UInt8}
    (hkey : Option.Rel (StringBelow st.buf p) key key') (hparent : ParentBelow st.buf p js js')
    (hrest : TextAt st.buf q rest) (hle : p ≤ q)
    (hreads : ReadsJson fp encoder (.value key') js' t
      (js'.create type key' none value d .empty) rest)
    (hnumber : type = .integer ∨ type = .double → st.errno ≠ erange) :
    ReturnsRead fp encoder st p t (.value key') js'
      (some (st, some (js.create type key none value d .empty, q))) := by
  refine ⟨st, _, rfl, ?_⟩
  rintro js₁ q' heq
  obtain ⟨rfl, rfl⟩ := Prod.mk.inj (Option.some.inj heq)
  refine ⟨_, rest, hreads, fun hn => ?_, hrest, hle, rfl, ?_, rfl⟩
  · rw [JsonParent.create, NxJson.hasNumber_append] at hn
    rcases hn with hn | hn | hn | hn | hn
    · exact .inl hn
    · exact .inr (hnumber (.inl hn))
    · exact .inr (hnumber (.inr hn))
    · exact hn.elim
    · exact hn.elim
  · exact (hparent.mono rfl hle).create (keyBelow_mono hkey rfl hle) .none parentBelow_empty

theorem parsedTo_string {buf' str rest : List UInt8} {q : ℕ}
    (h : TextAt st.buf p (34 :: t)) (hkey : Option.Rel (StringBelow st.buf p) key key')
    (hparent : ParentBelow st.buf p js js') (hread : StringRead st.buf (p + 1) buf' q str rest) :
    ParsedTo st p { st with buf := buf' }
      (js.create .string key (some (p + 1)) 0 fp.zero .empty) q
      (js'.create .string key' (some (cstr str)) 0 fp.zero .empty) rest := by
  have hlen := h.length_eq
  rw [List.length_cons] at hlen
  have hlt := hread.lt
  have htake : buf'.take p = st.buf.take p := by
    have htake := congrArg (List.take p) (hread.take_eq (by omega))
    rwa [List.take_take, List.take_take, min_eq_left (by omega)] at htake
  have hle : p ≤ q := by omega
  refine ⟨hread.text, hle, htake, ?_, rfl⟩
  exact (hparent.mono htake hle).create (keyBelow_mono hkey htake hle)
    (.some (hread.below (by omega))) parentBelow_empty

/-- A call of `parse_value`, with one for everything that it calls. -/
theorem parseValue_returns (henc : encoder.Short) (ih : AllReturn fp encoder fuel)
    (h : CalledAt st p t (.value key) (.value key') js js') (hfuel : 2 * t.length ≤ fuel) :
    ReturnsRead fp encoder st p t (.value key') js'
      (parseValue fp encoder (fuel + 1) st js key p) := by
  obtain ⟨htext, hkey, hparent⟩ := h
  cases hkey with | value hkey =>
  cases t with
  | nil => exact returnsRead_none (parseValue_nil htext)
  | cons c t =>
    rw [List.length_cons] at hfuel
    -- behind something that is skipped, the value is read with less fuel
    have hnext : ∀ p' u, TextAt st.buf p' u → u.length ≤ t.length → p ≤ p' →
        ReturnsRead fp encoder st p' u (.value key') js' (parseValue fp encoder fuel st js key p') := by
      intro p' u hu hle hp
      refine ih st p' u (.value key) _ js js' ⟨hu, .value (keyBelow_mono hkey rfl hp),
        hparent.mono rfl hp⟩ ?_
      show 2 * u.length + 1 ≤ fuel
      omega
    by_cases hskip : isJsonSkipped c = true
    · rw [parseValue_skip htext hskip]
      exact (hnext _ t htext.tail le_rfl (Nat.le_succ p)).skip (Nat.le_succ p)
        fun _ _ hreads => .skip hskip hreads
    by_cases hobject : c = 123
    · subst hobject
      rw [parseValue_object htext]
      apply ReturnsRead.container (by decide) hkey hparent _ fun _ _ hreads => .object hreads
      refine ih st (p + 1) t .members .members .empty .empty
        ⟨htext.tail, .members, parentBelow_empty⟩ ?_
      show 2 * t.length + 2 ≤ fuel
      omega
    by_cases harray : c = 91
    · subst harray
      rw [parseValue_array htext]
      apply ReturnsRead.container (by decide) hkey hparent _ fun _ _ hreads => .array hreads
      refine ih st (p + 1) t .elements .elements .empty .empty
        ⟨htext.tail, .elements, parentBelow_empty⟩ ?_
      show 2 * t.length + 2 ≤ fuel
      omega
    by_cases hclose : c = 93
    · subst hclose
      refine ⟨st, _, parseValue_close htext, ?_⟩
      rintro js₁ q heq
      obtain ⟨rfl, rfl⟩ := Prod.mk.inj (Option.some.inj heq)
      exact ⟨js', _, .close key' js' t, .inl, htext, le_rfl, rfl, hparent, rfl⟩
    by_cases hquote : c = 34
    · subst hquote
      rw [parseValue_string htext]
      obtain ⟨buf', e, hstr, hread⟩ :=
        unescapeString_returns henc htext.tail (show t.length < fuel by omega)
      refine ⟨{ st with buf := buf' }, _, by rw [hstr]; rfl, ?_⟩
      rintro js₁ q heq
      obtain ⟨q', rfl, hpair⟩ := Option.map_eq_some_iff.mp heq
      obtain ⟨rfl, rfl⟩ := Prod.mk.inj hpair
      obtain ⟨str, rest, hunescapes, hread⟩ := hread q' rfl
      refine ⟨_, rest, .string hunescapes, fun hn => ?_, parsedTo_string htext hkey hparent hread⟩
      exact .inl (((hasNumber_create (by decide)).mp hn).resolve_right id)
    by_cases hnumber : c = 45 ∨ (48 ≤ c ∧ c ≤ 57)
    · rw [parseValue_number htext hnumber]
      obtain ⟨st', heq⟩ := @parseNumber_eq δ fp st js key p (c :: t) htext
      rw [heq]
      split_ifs with herr
      · exact returnsRead_none rfl
      cases hn : readNumber fp (c :: t) with
      | none => exact returnsRead_none rfl
      | some r =>
        obtain ⟨⟨type, value, d⟩, rest⟩ := r
        exact .leaf hkey hparent (htext.suffix (readNumber_suffix hn)) (by omega)
          (.number hnumber hn) fun _ => herr
    by_cases hliteral : ∃ l ∈ jsonLiterals, l.2.2.head? = some c
    · obtain ⟨⟨type, value, text⟩, hl, hc⟩ := hliteral
      have hzero : ∀ l ∈ jsonLiterals, 0 ∉ l.2.2 ∧ l.1 ≠ .integer ∧ l.1 ≠ .double := by decide
      obtain ⟨hz, hint, hdouble⟩ := hzero _ hl
      rw [parseValue_literal hl htext hc, parseLiteral_eq htext hz]
      split_ifs with hprefix
      · obtain ⟨rest, hrest⟩ := hprefix
        dsimp only at hrest
        have htext' : TextAt st.buf p (text ++ rest) := hrest ▸ htext
        rw [← hrest]
        exact .leaf hkey hparent htext'.append (by omega) (.literal hl)
          fun htype => (htype.elim hint hdouble).elim
      · exact returnsRead_none rfl
    by_cases hslash : c = 47
    · subst hslash
      rw [parseValue_comment htext (by omega)]
      cases hrest : commentRest t with
      | none => exact returnsRead_none rfl
      | some u =>
        have hsuffix := commentRest_suffix hrest
        exact (hnext _ u (htext.tail.suffix hsuffix) hsuffix.length_le (by omega)).skip (by omega)
          fun _ _ hreads => .comment hrest hreads
    · exact returnsRead_none (parseValue_other htext (by simpa using hskip) hobject harray hclose
        hquote hnumber hliteral hslash)

/-- A part of a run that goes on behind what has been read. -/
theorem ReturnsRead.trans {st₁ : ParseState} {p₁ : ℕ} {u : List UInt8}
    {task' task₁' : JsonTask (List UInt8)} {js₁' : JsonParent (List UInt8) δ}
    {x : Option (ParseReturn δ)} (h : ReturnsRead fp encoder st₁ p₁ u task₁' js₁' x)
    (hle : p ≤ p₁) (htake : st₁.buf.take p = st.buf.take p) (herrno : st₁.errno = st.errno)
    (hnumber : js₁'.child.HasNumber → js'.child.HasNumber ∨ st.errno ≠ erange)
    (hreads : ∀ js₂' rest, ReadsJson fp encoder task₁' js₁' u js₂' rest →
      ReadsJson fp encoder task' js' t js₂' rest) :
    ReturnsRead fp encoder st p t task' js' x := by
  obtain ⟨st', r, hx, hr⟩ := h
  refine ⟨st', r, hx, fun js₂ q heq => ?_⟩
  obtain ⟨js₂', rest, hread, hnumber', hto⟩ := hr js₂ q heq
  refine ⟨js₂', rest, hreads js₂' rest hread, fun hn => ?_, hto.text, hle.trans hto.le,
    (hto.of_le hle).take_eq.trans htake, hto.parent, hto.errno.trans herrno⟩
  rcases hnumber' hn with hn | hn
  · exact hnumber hn
  · exact .inr (herrno ▸ hn)

/-- A turn of the loop over the members of an object. -/
theorem parseMembers_returns (henc : encoder.Short) (ih : AllReturn fp encoder fuel)
    (h : CalledAt st p t .members .members js js') (hfuel : 2 * t.length + 1 ≤ fuel) :
    ReturnsRead fp encoder st p t .members js'
      (parseMembers fp encoder (fuel + 1) st js p) := by
  obtain ⟨htext, -, hparent⟩ := h
  obtain ⟨buf', r, hkey, hr⟩ := parseKey_returns henc htext (show t.length < fuel by omega)
  rw [parseMembers, hkey]
  simp only [Option.bind_eq_bind, Option.bind_some]
  rcases r with _ | ⟨key, p₁⟩
  · exact returnsRead_none rfl
  obtain ⟨key', u, hreadsKey, hread⟩ := hr key p₁ rfl
  have hsuffix := hreadsKey.suffix.length_le
  dsimp only
  rw [hread.text.head, Option.bind_some]
  by_cases hend : u.headD 0 = 125
  · -- the end of the object
    obtain ⟨rest, rfl⟩ : ∃ rest, u = 125 :: rest := by
      cases u with
      | nil => cases hend
      | cons c rest => exact ⟨rest, congrArg (· :: rest) hend⟩
    rw [if_pos hend]
    refine ⟨{ st with buf := buf' }, _, rfl, ?_⟩
    rintro js₁ q heq
    obtain ⟨rfl, rfl⟩ := Prod.mk.inj (Option.some.inj heq)
    have hle : p ≤ p₁ + 1 := hread.le.trans (Nat.le_succ p₁)
    exact ⟨js', rest, .membersEnd hreadsKey, .inl, hread.text.tail, hle, hread.take_eq,
      hparent.mono hread.take_eq hle, rfl⟩
  rw [if_neg hend]
  have hhead : u.head? ≠ some 125 := by
    intro heq
    cases u with
    | nil => cases heq
    | cons c rest => exact hend (Option.some.inj heq)
  have hvalue := ih { st with buf := buf' } p₁ u (.value key) (.value key') js js'
    ⟨hread.text, .value hread.key, hparent.mono hread.take_eq hread.le⟩ (by
      show 2 * u.length + 1 ≤ fuel
      omega)
  obtain ⟨st₁, r, heq, hr⟩ := hvalue
  rw [show parseValue fp encoder fuel { st with buf := buf' } js key p₁ = some (st₁, r) from heq,
    Option.bind_some]
  rcases r with _ | ⟨js₁, p₂⟩
  · exact returnsRead_none rfl
  obtain ⟨js₁', v, hreads, hnumber, hto⟩ := hr js₁ p₂ rfl
  have hsuffix' := hreads.suffix.length_le
  have hto' := hto.of_le hread.le
  have hlt := hreadsKey.length_lt hhead
  refine (ih st₁ p₂ v .members .members js₁ js₁' ⟨hto.text, .members, hto.parent⟩ ?_).trans hto'.le
    (hto'.take_eq.trans hread.take_eq) hto.errno hnumber
    fun _ _ hrest => .member hreadsKey hhead hreads hrest
  show 2 * v.length + 2 ≤ fuel
  omega

/-- A turn of the loop over the items of an array. -/
theorem parseElements_returns (ih : AllReturn fp encoder fuel)
    (h : CalledAt st p t .elements .elements js js') (hfuel : 2 * t.length + 1 ≤ fuel) :
    ReturnsRead fp encoder st p t .elements js'
      (parseElements fp encoder (fuel + 1) st js p) := by
  obtain ⟨htext, -, hparent⟩ := h
  obtain ⟨st₁, r, heq, hr⟩ := ih st p t (.value none) (.value none) js js'
    ⟨htext, .value .none, hparent⟩ hfuel
  rw [parseElements, show parseValue fp encoder fuel st js none p = some (st₁, r) from heq]
  simp only [Option.bind_eq_bind, Option.bind_some]
  rcases r with _ | ⟨js₁, p₁⟩
  · exact returnsRead_none rfl
  obtain ⟨js₁', u, hreads, hnumber, hto⟩ := hr js₁ p₁ rfl
  dsimp only
  rw [hto.text.head, Option.bind_some]
  by_cases hend : u.headD 0 = 93
  · -- the end of the array
    obtain ⟨rest, rfl⟩ : ∃ rest, u = 93 :: rest := by
      cases u with
      | nil => cases hend
      | cons c rest => exact ⟨rest, congrArg (· :: rest) hend⟩
    rw [if_pos hend]
    refine ⟨st₁, _, rfl, ?_⟩
    rintro js₂ q heq
    obtain ⟨rfl, rfl⟩ := Prod.mk.inj (Option.some.inj heq)
    exact ⟨js₁', rest, .elementsEnd hreads, hnumber, hto.text.tail, hto.le.trans (Nat.le_succ p₁),
      hto.take_eq, hto.parent.mono rfl (Nat.le_succ p₁), hto.errno⟩
  rw [if_neg hend]
  have hhead : u.head? ≠ some 93 := by
    intro heq
    cases u with
    | nil => cases heq
    | cons c rest => exact hend (Option.some.inj heq)
  refine (ih st₁ p₁ u .elements .elements js₁ js₁' ⟨hto.text, .elements, hto.parent⟩ ?_).trans
    hto.le hto.take_eq hto.errno hnumber fun _ _ hrest => .element hreads hhead hrest
  have hlt := hreads.length_lt hhead
  show 2 * u.length + 2 ≤ fuel
  omega

/-- Every call returns. -/
theorem allReturn (henc : encoder.Short) (fuel : ℕ) : AllReturn fp encoder fuel := by
  induction fuel with
  | zero =>
    intro st p t task task' js js' _ hfuel
    cases task' <;> exact absurd hfuel (by simp [JsonTask.need])
  | succ fuel ih =>
    intro st p t task task' js js' h hfuel
    cases h.task with
    | value => exact parseValue_returns henc ih h (Nat.le_of_succ_le_succ hfuel)
    | members => exact parseMembers_returns henc ih h (Nat.le_of_succ_le_succ hfuel)
    | elements => exact parseElements_returns ih h (Nat.le_of_succ_le_succ hfuel)

end Returns

/-! ### What can be read is returned -/

/-- A call that succeeds, and returns what is read. -/
def ReturnsTo (st : ParseState) (p : ℕ) (js₁' : JsonParent (List UInt8) δ) (rest : List UInt8)
    (x : Option (ParseReturn δ)) : Prop :=
  ∃ st' js₁ q, x = some (st', some (js₁, q)) ∧ ParsedTo st p st' js₁ q js₁' rest

section Succeeds

variable {st : ParseState} {p fuel : ℕ} {t rest : List UInt8} {js : JsonParent ℕ δ}
  {js' : JsonParent (List UInt8) δ} {key : Option ℕ} {key' : Option (List UInt8)}

theorem ReturnsTo.of_le {p' : ℕ} {x : Option (ParseReturn δ)} (h : ReturnsTo st p' js' rest x)
    (hle : p ≤ p') : ReturnsTo st p js' rest x := by
  obtain ⟨st', js₁, q, hx, hto⟩ := h
  exact ⟨st', js₁, q, hx, hto.of_le hle⟩

theorem ReturnsTo.container {type : NxJsonType} {kids' : JsonParent (List UInt8) δ}
    {x : Option (ParseReturn δ)} (hkey : Option.Rel (StringBelow st.buf p) key key')
    (hparent : ParentBelow st.buf p js js') (h : ReturnsTo st (p + 1) kids' rest x) :
    ReturnsTo st p (js'.create type key' none 0 fp.zero kids') rest (x.map fun r =>
      (r.1, r.2.map fun (kids, q) => (js.create type key none 0 fp.zero kids, q))) := by
  obtain ⟨st', kids, q, rfl, hto⟩ := h
  have hto' := hto.of_le (Nat.le_succ p)
  exact ⟨st', _, q, rfl, hto'.text, hto'.le, hto'.take_eq,
    (hparent.mono hto'.take_eq hto'.le).create (keyBelow_mono hkey hto'.take_eq hto'.le) .none
      hto'.parent, hto'.errno⟩

theorem ReturnsTo.leaf {type : NxJsonType} {value : ℤ} {d : δ} {q : ℕ}
    (hkey : Option.Rel (StringBelow st.buf p) key key') (hparent : ParentBelow st.buf p js js')
    (hrest : TextAt st.buf q rest) (hle : p ≤ q) :
    ReturnsTo st p (js'.create type key' none value d .empty) rest
      (some (st, some (js.create type key none value d .empty, q))) :=
  ⟨st, _, q, rfl, hrest, hle, rfl,
    (hparent.mono rfl hle).create (keyBelow_mono hkey rfl hle) .none parentBelow_empty, rfl⟩

/-- A part of a run behind another one. -/
theorem ReturnsTo.trans {st₁ : ParseState} {p₁ : ℕ} {x : Option (ParseReturn δ)}
    (h : ReturnsTo st₁ p₁ js' rest x) (hle : p ≤ p₁) (htake : st₁.buf.take p = st.buf.take p)
    (herrno : st₁.errno = st.errno) : ReturnsTo st p js' rest x := by
  obtain ⟨st', js₁, q, hx, hto⟩ := h
  exact ⟨st', js₁, q, hx, hto.text, hle.trans hto.le, (hto.of_le hle).take_eq.trans htake,
    hto.parent, hto.errno.trans herrno⟩

/-- What the grammar reads is returned, unless a number is in it and `errno` is `ERANGE`. -/
theorem parseTask_of_readsJson (henc : encoder.Short) {task' : JsonTask (List UInt8)}
    {js₁' : JsonParent (List UInt8) δ} (hreads : ReadsJson fp encoder task' js' t js₁' rest)
    {task : JsonTask ℕ} (h : CalledAt st p t task task' js js') (hfuel : task'.need t.length ≤ fuel)
    (hnumber : js₁'.child.HasNumber → st.errno ≠ erange) :
    ReturnsTo st p js₁' rest (parseTask fp encoder fuel task st js p) := by
  induction hreads generalizing st p task js fuel with
  | @skip key' js' js₁' c t rest hc _ ih =>
    obtain ⟨htext, hkey, hparent⟩ := h
    cases hkey with | value hkey =>
    rw [JsonTask.need, List.length_cons] at hfuel
    obtain ⟨fuel, rfl⟩ := Nat.exists_eq_add_of_lt hfuel
    rw [parseTask, parseValue_skip htext hc]
    have hcalled : CalledAt st (p + 1) t (.value _) (.value key') js js' :=
      ⟨htext.tail, .value (keyBelow_mono hkey rfl (Nat.le_succ p)),
        hparent.mono rfl (Nat.le_succ p)⟩
    refine (ih hcalled ?_ hnumber).of_le (Nat.le_succ p)
    show 2 * t.length + 1 ≤ _
    omega
  | @comment key' js' js₁' t u rest hc _ ih =>
    obtain ⟨htext, hkey, hparent⟩ := h
    cases hkey with | value hkey =>
    rw [JsonTask.need, List.length_cons] at hfuel
    obtain ⟨fuel, rfl⟩ := Nat.exists_eq_add_of_lt hfuel
    have hsuffix := commentRest_suffix hc
    have hlen := hsuffix.length_le
    have hle : p ≤ p + 1 + (t.length - u.length) := by omega
    rw [parseTask, parseValue_comment htext (by omega), hc]
    have hcalled : CalledAt st (p + 1 + (t.length - u.length)) u (.value _) (.value key') js js' :=
      ⟨htext.tail.suffix hsuffix, .value (keyBelow_mono hkey rfl hle), hparent.mono rfl hle⟩
    refine (ih hcalled ?_ hnumber).of_le hle
    show 2 * u.length + 1 ≤ _
    omega
  | close key' js' t =>
    obtain ⟨htext, hkey, hparent⟩ := h
    cases hkey with | value hkey =>
    obtain ⟨fuel, rfl⟩ := Nat.exists_eq_add_of_lt hfuel
    rw [parseTask, parseValue_close htext]
    exact ⟨st, js, p, rfl, htext, le_rfl, rfl, hparent, rfl⟩
  | @string key' js' t str rest hs =>
    obtain ⟨htext, hkey, hparent⟩ := h
    cases hkey with | value hkey =>
    rw [JsonTask.need, List.length_cons] at hfuel
    obtain ⟨fuel, rfl⟩ := Nat.exists_eq_add_of_lt hfuel
    obtain ⟨buf', q, hstr, hread⟩ := unescapeString_of_unescapes henc hs htext.tail
      (show t.length < 2 * (t.length + 1) + fuel by omega)
    rw [parseTask, parseValue_string htext, hstr]
    exact ⟨_, _, q, rfl, parsedTo_string htext hkey hparent hread⟩
  | @number key' js' c t rest type value d hc hn =>
    obtain ⟨htext, hkey, hparent⟩ := h
    cases hkey with | value hkey =>
    obtain ⟨fuel, rfl⟩ := Nat.exists_eq_add_of_lt hfuel
    have herr : st.errno ≠ erange := by
      apply hnumber
      rw [JsonParent.create, NxJson.hasNumber_append, NxJson.HasNumber]
      rcases readNumber_type hn with rfl | rfl
      · exact .inr (.inl rfl)
      · exact .inr (.inr (.inl rfl))
    obtain ⟨st', heq⟩ := @parseNumber_eq δ fp st js _ p (c :: t) htext
    rw [parseTask, parseValue_number htext hc, heq, if_neg herr, hn]
    exact .leaf hkey hparent (htext.suffix (readNumber_suffix hn)) (by omega)
  | @literal key' js' text rest type value hl =>
    obtain ⟨htext, hkey, hparent⟩ := h
    cases hkey with | value hkey =>
    obtain ⟨fuel, rfl⟩ := Nat.exists_eq_add_of_lt hfuel
    have hliteral : ∀ l ∈ jsonLiterals, 0 ∉ l.2.2 ∧ ∃ c ∈ l.2.2.head?, l.2.2 = c :: l.2.2.tail := by
      decide
    obtain ⟨hz, c, hc, htail⟩ := hliteral _ hl
    dsimp only at hz hc htail
    have htext' : TextAt st.buf p (c :: (text.tail ++ rest)) := by
      rw [← List.cons_append, ← htail]
      exact htext
    rw [parseTask, parseValue_literal hl htext' hc, parseLiteral_eq htext hz,
      if_pos (List.prefix_append text rest)]
    exact .leaf hkey hparent htext.append (by omega)
  | @object key' js' kids' t rest _ ih =>
    obtain ⟨htext, hkey, hparent⟩ := h
    cases hkey with | value hkey =>
    rw [JsonTask.need, List.length_cons] at hfuel
    obtain ⟨fuel, rfl⟩ := Nat.exists_eq_add_of_lt hfuel
    rw [parseTask, parseValue_object htext]
    have hcalled : @CalledAt δ st (p + 1) t .members .members .empty .empty :=
      ⟨htext.tail, .members, parentBelow_empty⟩
    refine .container hkey hparent (ih hcalled ?_ fun hn => hnumber ?_)
    · show 2 * t.length + 2 ≤ _
      omega
    · exact (hasNumber_create (by decide)).mpr (.inr hn)
  | @array key' js' kids' t rest _ ih =>
    obtain ⟨htext, hkey, hparent⟩ := h
    cases hkey with | value hkey =>
    rw [JsonTask.need, List.length_cons] at hfuel
    obtain ⟨fuel, rfl⟩ := Nat.exists_eq_add_of_lt hfuel
    rw [parseTask, parseValue_array htext]
    have hcalled : @CalledAt δ st (p + 1) t .elements .elements .empty .empty :=
      ⟨htext.tail, .elements, parentBelow_empty⟩
    refine .container hkey hparent (ih hcalled ?_ fun hn => hnumber ?_)
    · show 2 * t.length + 2 ≤ _
      omega
    · exact (hasNumber_create (by decide)).mpr (.inr hn)
  | @membersEnd js' key' t rest hk =>
    obtain ⟨htext, htask, hparent⟩ := h
    cases htask
    rw [JsonTask.need] at hfuel
    obtain ⟨fuel, rfl⟩ := Nat.exists_eq_add_of_lt hfuel
    obtain ⟨buf', key, q, hkey, hread⟩ := parseKey_of_readsKey henc hk htext
      (show t.length < 2 * t.length + 1 + fuel by omega)
    have hle : p ≤ q + 1 := hread.le.trans (Nat.le_succ q)
    rw [parseTask, parseMembers, hkey]
    simp only [Option.bind_eq_bind, Option.bind_some, hread.text.cons, if_true]
    exact ⟨_, _, _, rfl, hread.text.tail, hle, hread.take_eq, hparent.mono hread.take_eq hle, rfl⟩
  | @member js' js₁' js₂' key' t u v rest hk hu hv hrest ihv ihrest =>
    obtain ⟨htext, htask, hparent⟩ := h
    cases htask
    rw [JsonTask.need] at hfuel
    obtain ⟨fuel, rfl⟩ := Nat.exists_eq_add_of_lt hfuel
    obtain ⟨buf', key, q, hkey, hread⟩ := parseKey_of_readsKey henc hk htext
      (show t.length < 2 * t.length + 1 + fuel by omega)
    have hlt := hk.length_lt hu
    have hlen := hv.suffix.length_le
    have hcalled : CalledAt { st with buf := buf' } q u (.value key) (.value key') js js' :=
      ⟨hread.text, .value hread.key, hparent.mono hread.take_eq hread.le⟩
    have hneed : (JsonTask.value key').need u.length ≤ 2 * t.length + 1 + fuel := by
      rw [JsonTask.need]
      omega
    obtain ⟨st₁, js₁, q₁, hvalue, hto⟩ := ihv hcalled hneed fun hn => hnumber (hrest.hasNumber hn)
    have hto' := hto.of_le hread.le
    rw [parseTask] at hvalue
    have hhead : u.headD 0 ≠ 125 := by
      intro heq
      cases u with
      | nil => cases heq
      | cons c u => exact hu (congrArg some heq)
    rw [parseTask, parseMembers, hkey]
    simp only [Option.bind_eq_bind, Option.bind_some, hread.text.head, if_neg hhead, hvalue]
    have hcalled' : CalledAt st₁ q₁ v .members .members js₁ js₁' :=
      ⟨hto.text, .members, hto.parent⟩
    refine (ihrest hcalled' ?_ fun hn => ?_).trans hto'.le (hto'.take_eq.trans hread.take_eq)
      hto.errno
    · show 2 * v.length + 2 ≤ _
      omega
    · rw [hto.errno]
      exact hnumber hn
  | @elementsEnd js' js₁' t rest hv ihv =>
    obtain ⟨htext, htask, hparent⟩ := h
    cases htask
    rw [JsonTask.need] at hfuel
    obtain ⟨fuel, rfl⟩ := Nat.exists_eq_add_of_lt hfuel
    have hcalled : CalledAt st p t (.value none) (.value none) js js' :=
      ⟨htext, .value .none, hparent⟩
    obtain ⟨st₁, js₁, q₁, hvalue, hto⟩ := ihv hcalled
      (Nat.le_add_right (2 * t.length + 1) fuel) hnumber
    rw [parseTask] at hvalue
    rw [parseTask, parseElements, hvalue]
    simp only [Option.bind_eq_bind, Option.bind_some, hto.text.cons, if_true]
    exact ⟨_, _, _, rfl, hto.text.tail, hto.le.trans (Nat.le_succ q₁), hto.take_eq,
      hto.parent.mono rfl (Nat.le_succ q₁), hto.errno⟩
  | @element js' js₁' js₂' t u rest hv hu hrest ihv ihrest =>
    obtain ⟨htext, htask, hparent⟩ := h
    cases htask
    rw [JsonTask.need] at hfuel
    obtain ⟨fuel, rfl⟩ := Nat.exists_eq_add_of_lt hfuel
    have hlt := hv.length_lt hu
    have hcalled : CalledAt st p t (.value none) (.value none) js js' :=
      ⟨htext, .value .none, hparent⟩
    obtain ⟨st₁, js₁, q₁, hvalue, hto⟩ := ihv hcalled
      (Nat.le_add_right (2 * t.length + 1) fuel) fun hn => hnumber (hrest.hasNumber hn)
    rw [parseTask] at hvalue
    have hhead : u.headD 0 ≠ 93 := by
      intro heq
      cases u with
      | nil => cases heq
      | cons c u => exact hu (congrArg some heq)
    rw [parseTask, parseElements, hvalue]
    simp only [Option.bind_eq_bind, Option.bind_some, hto.text.head, if_neg hhead]
    have hcalled' : CalledAt st₁ q₁ u .elements .elements js₁ js₁' :=
      ⟨hto.text, .elements, hto.parent⟩
    refine (ihrest hcalled' ?_ fun hn => ?_).trans hto.le hto.take_eq hto.errno
    · show 2 * u.length + 2 ≤ _
      omega
    · rw [hto.errno]
      exact hnumber hn

end Succeeds

end Nxweb
