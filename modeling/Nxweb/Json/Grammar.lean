import Nxweb.Json.Parser

/-!
# What the JSON parser reads

A grammar of the texts that the parser accepts, with the trees that it makes of them. A relation
holds between a text, what is read in front of it, and the rest. No memory and no positions are
left: a string is the list of its bytes.

The grammar is wider than the one of JSON. There are comments, commas are skipped wherever white
space is, the value of the last member of an object may be missing, and a bracket that closes an
array may stand in front of an object's next key.

## Main definitions

* `unescapeOne`, `Unescapes`: one turn of `unescape_string`, and a whole string;
* `ReadsKey`: what `parse_key` reads;
* `ReadsJson`: what `parse_value` and its two inner loops read.
-/

namespace Nxweb

open Lib

variable {δ : Type}

/-! ### Comments -/

/-- What is behind a block comment, given the byte in front. -/
def blockRest (before : UInt8) : List UInt8 → Option (List UInt8)
  | [] => none
  | c :: t => if c = 47 ∧ before = 42 then some t else blockRest c t

/-- What is behind the line. -/
def lineRest (t : List UInt8) : Option (List UInt8) :=
  if 10 ∈ t then some (t.dropWhile (· ≠ 10)).tail else none

/-- What is behind a comment, given what is behind its first slash. -/
def commentRest : List UInt8 → Option (List UInt8)
  | [] => none
  | c :: t =>
    if c = 47 then lineRest t
    else if c = 42 then
      match t with
      | [] => none
      | c :: t => blockRest c t
    else none

/-! ### Strings -/

/-- So many hexadecimal digits. -/
def hexRest : ℕ → ℕ → List UInt8 → Option (ℕ × List UInt8)
  | 0, acc, t => some (acc, t)
  | _ + 1, _, [] => none
  | n + 1, acc, c :: t => (jsonHexVal c).bind fun h => hexRest n (acc * 16 + h) t

/-- The bytes of a code point that is written behind `\u`, and what is behind it. -/
def unicodeOne (encoder : ℕ → Option (List UInt8)) (t : List UInt8) :
    Option (List UInt8 × List UInt8) :=
  (hexRest 4 0 t).bind fun (codepoint, u) =>
    if codepoint &&& 0xfc00 = 0xd800 then
      if u.take 2 = [92, 117] then
        (hexRest 4 0 (u.drop 2)).bind fun (codepoint2, v) =>
          if codepoint2 &&& 0xfc00 = 0xdc00 then
            (encoder (0x10000 + (codepoint - 0xd800) <<< 10 + (codepoint2 - 0xdc00))).map (·, v)
          else none
      else none
    else (encoder codepoint).map (·, u)

/-- The byte that a letter stands for behind a backslash. -/
def shortEscape (e : UInt8) : Option UInt8 :=
  if e = 92 ∨ e = 47 ∨ e = 34 then some e
  else if e = 98 then some 8
  else if e = 102 then some 12
  else if e = 110 then some 10
  else if e = 114 then some 13
  else if e = 116 then some 9
  else none

/-- What is behind a backslash. Where nothing is known of a letter, both are left untouched. -/
def escapeOne (encoder : JsonEncoder) : List UInt8 → Option (List UInt8 × List UInt8)
  | [] => some ([92], [])
  | e :: t =>
    match shortEscape e, encoder with
    | some b, _ => some ([b], t)
    | none, none => some ([92], e :: t)
    | none, some encoder => if e = 117 then unicodeOne encoder t else some ([92], e :: t)

/-- A character of a string: its bytes, and what is behind it. -/
def unescapeOne (encoder : JsonEncoder) (c : UInt8) (t : List UInt8) :
    Option (List UInt8 × List UInt8) :=
  if c = 92 then escapeOne encoder t else some ([c], t)

/-- A string with its closing quote: its bytes, and what is behind it. -/
inductive Unescapes (encoder : JsonEncoder) : List UInt8 → List UInt8 → List UInt8 → Prop
  | close (t : List UInt8) : Unescapes encoder (34 :: t) [] t
  | turn {c : UInt8} {t bs u s rest : List UInt8} (hc : c ≠ 34)
      (hone : unescapeOne encoder c t = some (bs, u)) (hrest : Unescapes encoder u s rest) :
      Unescapes encoder (c :: t) (bs ++ s) rest

/-! ### Keys -/

/-- A key with its colon, if there is one, or the end of an object. -/
inductive ReadsKey (encoder : JsonEncoder) :
    List UInt8 → Option (List UInt8) → List UInt8 → Prop
  | skip {c : UInt8} {t rest : List UInt8} {key : Option (List UInt8)}
      (hc : isJsonWhitespace c = true ∨ c = 44) (hrest : ReadsKey encoder t key rest) :
      ReadsKey encoder (c :: t) key rest
  | comment {t u rest : List UInt8} {key : Option (List UInt8)} (hc : commentRest t = some u)
      (hrest : ReadsKey encoder u key rest) : ReadsKey encoder (47 :: t) key rest
  | close (t : List UInt8) : ReadsKey encoder (125 :: t) none (125 :: t)
  | key {t s u rest : List UInt8} (hs : Unescapes encoder t s u)
      (hu : u.dropWhile isJsonWhitespace = 58 :: rest) :
      ReadsKey encoder (34 :: t) (some (cstr s)) rest

/-! ### Values -/

/-- What the functions of the parser are about: a value with its key, or one of the loops. -/
inductive JsonTask (σ : Type) where
  | value (key : Option σ)
  | members
  | elements

/-- The white space between values. -/
def isJsonSkipped (c : UInt8) : Bool := c == 32 || c == 9 || c == 10 || c == 13 || c == 44

/-- The literals: the type, the value and the text. -/
def jsonLiterals : List (NxJsonType × ℤ × List UInt8) :=
  [(.bool, 1, bytes "true"), (.bool, 0, bytes "false"), (.null, 0, bytes "null")]

/-- A number: the type, the integer and the double of its node, and what is behind it. -/
def readNumber (fp : Doubles δ) (t : List UInt8) :
    Option ((NxJsonType × ℤ × δ) × List UInt8) :=
  let (value, u) := strToInteger 0 t
  if u.length = t.length ∨ clampLong value ≠ value then none
  else if u.head? = some 46 ∨ u.head? = some 101 ∨ u.head? = some 69 then
    let d := fp.strtod t
    if d.consumed = 0 ∨ d.erange = true then none
    else some ((.double, value, d.value), t.drop d.consumed)
  else some ((.integer, value, fp.ofInt value), u)

/-- What is read, put into a node that holds others already, and what is behind it. -/
inductive ReadsJson (fp : Doubles δ) (encoder : JsonEncoder) : JsonTask (List UInt8) →
    JsonParent (List UInt8) δ → List UInt8 → JsonParent (List UInt8) δ → List UInt8 → Prop
  | skip {key : Option (List UInt8)} {js js' : JsonParent (List UInt8) δ} {c : UInt8}
      {t rest : List UInt8} (hc : isJsonSkipped c = true)
      (hrest : ReadsJson fp encoder (.value key) js t js' rest) :
      ReadsJson fp encoder (.value key) js (c :: t) js' rest
  | comment {key : Option (List UInt8)} {js js' : JsonParent (List UInt8) δ}
      {t u rest : List UInt8} (hc : commentRest t = some u)
      (hrest : ReadsJson fp encoder (.value key) js u js' rest) :
      ReadsJson fp encoder (.value key) js (47 :: t) js' rest
  | close (key : Option (List UInt8)) (js : JsonParent (List UInt8) δ) (t : List UInt8) :
      ReadsJson fp encoder (.value key) js (93 :: t) js (93 :: t)
  | string {key : Option (List UInt8)} {js : JsonParent (List UInt8) δ} {t s rest : List UInt8}
      (hs : Unescapes encoder t s rest) :
      ReadsJson fp encoder (.value key) js (34 :: t)
        (js.create .string key (some (cstr s)) 0 fp.zero .empty) rest
  | number {key : Option (List UInt8)} {js : JsonParent (List UInt8) δ} {c : UInt8}
      {t rest : List UInt8} {type : NxJsonType} {value : ℤ} {d : δ}
      (hc : c = 45 ∨ (48 ≤ c ∧ c ≤ 57))
      (hn : readNumber fp (c :: t) = some ((type, value, d), rest)) :
      ReadsJson fp encoder (.value key) js (c :: t) (js.create type key none value d .empty) rest
  | literal {key : Option (List UInt8)} {js : JsonParent (List UInt8) δ} {text rest : List UInt8}
      {type : NxJsonType} {value : ℤ} (hl : (type, value, text) ∈ jsonLiterals) :
      ReadsJson fp encoder (.value key) js (text ++ rest)
        (js.create type key none value fp.zero .empty) rest
  | object {key : Option (List UInt8)} {js js' : JsonParent (List UInt8) δ} {t rest : List UInt8}
      (hm : ReadsJson fp encoder .members .empty t js' rest) :
      ReadsJson fp encoder (.value key) js (123 :: t) (js.create .object key none 0 fp.zero js') rest
  | array {key : Option (List UInt8)} {js js' : JsonParent (List UInt8) δ} {t rest : List UInt8}
      (he : ReadsJson fp encoder .elements .empty t js' rest) :
      ReadsJson fp encoder (.value key) js (91 :: t) (js.create .array key none 0 fp.zero js') rest
  | membersEnd {js : JsonParent (List UInt8) δ} {key : Option (List UInt8)} {t rest : List UInt8}
      (hk : ReadsKey encoder t key (125 :: rest)) : ReadsJson fp encoder .members js t js rest
  | member {js js' js'' : JsonParent (List UInt8) δ} {key : Option (List UInt8)}
      {t u v rest : List UInt8} (hk : ReadsKey encoder t key u) (hu : u.head? ≠ some 125)
      (hv : ReadsJson fp encoder (.value key) js u js' v)
      (hrest : ReadsJson fp encoder .members js' v js'' rest) :
      ReadsJson fp encoder .members js t js'' rest
  | elementsEnd {js js' : JsonParent (List UInt8) δ} {t rest : List UInt8}
      (hv : ReadsJson fp encoder (.value none) js t js' (93 :: rest)) :
      ReadsJson fp encoder .elements js t js' rest
  | element {js js' js'' : JsonParent (List UInt8) δ} {t u rest : List UInt8}
      (hv : ReadsJson fp encoder (.value none) js t js' u) (hu : u.head? ≠ some 93)
      (hrest : ReadsJson fp encoder .elements js' u js'' rest) :
      ReadsJson fp encoder .elements js t js'' rest

/-! ### What is left is an end of the text -/

theorem blockRest_suffix {before : UInt8} {t rest : List UInt8} (h : blockRest before t = some rest) :
    rest <:+ t := by
  induction t generalizing before with
  | nil => cases h
  | cons c t ih =>
    rw [blockRest] at h
    split_ifs at h
    · obtain rfl := Option.some.inj h
      exact List.suffix_cons c t
    · exact (ih h).trans (List.suffix_cons c t)

theorem commentRest_suffix {t rest : List UInt8} (h : commentRest t = some rest) : rest <:+ t := by
  cases t with
  | nil => cases h
  | cons c t =>
    unfold commentRest at h
    dsimp only at h
    apply List.IsSuffix.trans _ (List.suffix_cons c t)
    split_ifs at h
    · rw [lineRest] at h
      split_ifs at h
      obtain rfl := Option.some.inj h
      exact (List.tail_suffix _).trans (List.dropWhile_suffix _)
    · cases t with
      | nil => cases h
      | cons c t => exact (blockRest_suffix h).trans (List.suffix_cons c t)

theorem hexRest_suffix {n acc codepoint : ℕ} {t rest : List UInt8}
    (h : hexRest n acc t = some (codepoint, rest)) : rest <:+ t := by
  induction n generalizing acc t with
  | zero =>
    obtain ⟨-, rfl⟩ := Prod.mk.inj (Option.some.inj h)
    exact List.suffix_rfl
  | succ n ih =>
    cases t with
    | nil => cases h
    | cons c t =>
      obtain ⟨d, -, hd⟩ := Option.bind_eq_some_iff.mp h
      exact (ih hd).trans (List.suffix_cons c t)

theorem unicodeOne_suffix {encoder : ℕ → Option (List UInt8)} {t bs rest : List UInt8}
    (h : unicodeOne encoder t = some (bs, rest)) : rest <:+ t := by
  obtain ⟨⟨codepoint, u⟩, hu, h⟩ := Option.bind_eq_some_iff.mp h
  apply List.IsSuffix.trans _ (hexRest_suffix hu)
  dsimp only at h
  split_ifs at h
  · obtain ⟨⟨codepoint2, v⟩, hv, h⟩ := Option.bind_eq_some_iff.mp h
    dsimp only at h
    split_ifs at h
    obtain ⟨bs, -, heq⟩ := Option.map_eq_some_iff.mp h
    obtain ⟨-, rfl⟩ := Prod.mk.inj heq
    exact (hexRest_suffix hv).trans (List.drop_suffix 2 u)
  · obtain ⟨bs, -, heq⟩ := Option.map_eq_some_iff.mp h
    obtain ⟨-, rfl⟩ := Prod.mk.inj heq
    exact List.suffix_rfl

theorem escapeOne_suffix {encoder : JsonEncoder} {t bs rest : List UInt8}
    (h : escapeOne encoder t = some (bs, rest)) : rest <:+ t := by
  cases t with
  | nil =>
    obtain ⟨-, rfl⟩ := Prod.mk.inj (Option.some.inj h)
    exact List.suffix_rfl
  | cons e t =>
    unfold escapeOne at h
    dsimp only at h
    split at h
    · obtain ⟨-, rfl⟩ := Prod.mk.inj (Option.some.inj h)
      exact List.suffix_cons e t
    · obtain ⟨-, rfl⟩ := Prod.mk.inj (Option.some.inj h)
      exact List.suffix_rfl
    · split_ifs at h
      · exact (unicodeOne_suffix h).trans (List.suffix_cons e t)
      · obtain ⟨-, rfl⟩ := Prod.mk.inj (Option.some.inj h)
        exact List.suffix_rfl

theorem unescapeOne_suffix {encoder : JsonEncoder} {c : UInt8} {t bs rest : List UInt8}
    (h : unescapeOne encoder c t = some (bs, rest)) : rest <:+ t := by
  rw [unescapeOne] at h
  split_ifs at h
  · exact escapeOne_suffix h
  · obtain ⟨-, rfl⟩ := Prod.mk.inj (Option.some.inj h)
    exact List.suffix_rfl

theorem Unescapes.suffix {encoder : JsonEncoder} {t s rest : List UInt8}
    (h : Unescapes encoder t s rest) : rest <:+ t := by
  induction h with
  | close t => exact List.suffix_cons 34 t
  | turn _ hone _ ih =>
    exact ih.trans ((unescapeOne_suffix hone).trans (List.suffix_cons _ _))

theorem ReadsKey.suffix {encoder : JsonEncoder} {t rest : List UInt8} {key : Option (List UInt8)}
    (h : ReadsKey encoder t key rest) : rest <:+ t := by
  induction h with
  | skip _ _ ih => exact ih.trans (List.suffix_cons _ _)
  | comment hc _ ih => exact ih.trans ((commentRest_suffix hc).trans (List.suffix_cons _ _))
  | close t => exact List.suffix_rfl
  | key hs hu =>
    have hrest := (List.suffix_cons 58 _).trans (hu ▸ List.dropWhile_suffix isJsonWhitespace)
    exact hrest.trans (hs.suffix.trans (List.suffix_cons _ _))

theorem readNumber_suffix {fp : Doubles δ} {t rest : List UInt8} {node : NxJsonType × ℤ × δ}
    (h : readNumber fp t = some (node, rest)) : rest <:+ t := by
  unfold readNumber at h
  dsimp only at h
  split_ifs at h
  · obtain ⟨-, rfl⟩ := Prod.mk.inj (Option.some.inj h)
    exact List.drop_suffix _ _
  · obtain ⟨-, rfl⟩ := Prod.mk.inj (Option.some.inj h)
    exact strToInteger_suffix 0 t

theorem readNumber_type {fp : Doubles δ} {t rest : List UInt8} {type : NxJsonType} {value : ℤ}
    {d : δ} (h : readNumber fp t = some ((type, value, d), rest)) :
    type = .integer ∨ type = .double := by
  unfold readNumber at h
  dsimp only at h
  split_ifs at h
  · exact .inr (Prod.mk.inj (Prod.mk.inj (Option.some.inj h)).1).1.symm
  · exact .inl (Prod.mk.inj (Prod.mk.inj (Option.some.inj h)).1).1.symm

/-- A number takes at least one byte. -/
theorem readNumber_length {fp : Doubles δ} {t rest : List UInt8} {node : NxJsonType × ℤ × δ}
    (h : readNumber fp t = some (node, rest)) : rest.length < t.length := by
  have hle := (readNumber_suffix h).length_le
  have hsuffix := (strToInteger_suffix 0 t).length_le
  have hconsumed := fp.consumed_le t
  unfold readNumber at h
  dsimp only at h
  split_ifs at h with hbad hdot hd
  · obtain ⟨-, rfl⟩ := Prod.mk.inj (Option.some.inj h)
    rw [List.length_drop] at hle ⊢
    omega
  · obtain ⟨-, rfl⟩ := Prod.mk.inj (Option.some.inj h)
    omega

theorem ReadsJson.suffix {fp : Doubles δ} {encoder : JsonEncoder} {task : JsonTask (List UInt8)}
    {js js' : JsonParent (List UInt8) δ} {t rest : List UInt8}
    (h : ReadsJson fp encoder task js t js' rest) : rest <:+ t := by
  induction h with
  | skip _ _ ih => exact ih.trans (List.suffix_cons _ _)
  | comment hc _ ih => exact ih.trans ((commentRest_suffix hc).trans (List.suffix_cons _ _))
  | close => exact List.suffix_rfl
  | string hs => exact hs.suffix.trans (List.suffix_cons _ _)
  | number _ hn => exact readNumber_suffix hn
  | literal => exact List.suffix_append _ _
  | object _ ih => exact ih.trans (List.suffix_cons _ _)
  | array _ ih => exact ih.trans (List.suffix_cons _ _)
  | membersEnd hk => exact (List.suffix_cons _ _).trans hk.suffix
  | member hk _ _ _ ihv ihrest => exact ihrest.trans (ihv.trans hk.suffix)
  | elementsEnd _ ih => exact (List.suffix_cons _ _).trans ih
  | element _ _ _ ihv ihrest => exact ihrest.trans ihv

/-- A key takes at least one byte. -/
theorem ReadsKey.length_lt {encoder : JsonEncoder} {t rest : List UInt8}
    {key : Option (List UInt8)} (h : ReadsKey encoder t key rest) (hhead : rest.head? ≠ some 125) :
    rest.length < t.length := by
  have hcons : ∀ {c : UInt8} {u : List UInt8}, rest <:+ u → rest.length < (c :: u).length :=
    fun hu => Nat.lt_succ_of_le hu.length_le
  cases h with
  | skip _ hrest => exact hcons hrest.suffix
  | comment hc hrest => exact hcons (hrest.suffix.trans (commentRest_suffix hc))
  | close => exact absurd rfl hhead
  | key hs hu =>
    have hrest := (List.suffix_cons 58 _).trans (hu ▸ List.dropWhile_suffix isJsonWhitespace)
    exact hcons (hrest.trans hs.suffix)

/-- Only a bracket that closes an array is left as it is. -/
theorem ReadsJson.length_lt {fp : Doubles δ} {encoder : JsonEncoder} {key : Option (List UInt8)}
    {js js' : JsonParent (List UInt8) δ} {t rest : List UInt8}
    (h : ReadsJson fp encoder (.value key) js t js' rest) (hhead : rest.head? ≠ some 93) :
    rest.length < t.length := by
  have hcons : ∀ {c : UInt8} {u : List UInt8}, rest <:+ u → rest.length < (c :: u).length :=
    fun hu => Nat.lt_succ_of_le hu.length_le
  cases h with
  | skip _ hrest => exact hcons hrest.suffix
  | comment hc hrest => exact hcons (hrest.suffix.trans (commentRest_suffix hc))
  | close => exact absurd rfl hhead
  | string hs => exact hcons hs.suffix
  | number _ hn => exact readNumber_length hn
  | literal hl =>
    have hpos : ∀ l ∈ jsonLiterals, 0 < l.2.2.length := by decide
    have := hpos _ hl
    rw [List.length_append]
    dsimp only at this
    omega
  | object hm => exact hcons hm.suffix
  | array he => exact hcons he.suffix

/-! ### What is unescaped is not longer -/

/-- An encoder that writes no more than it is called for: six bytes stand for a code point. -/
def JsonEncoder.Short (encoder : JsonEncoder) : Prop :=
  ∀ encode ∈ encoder, ∀ codepoint bs, encode codepoint = some bs → bs.length ≤ 6

theorem short_unicodeToUtf8 : JsonEncoder.Short (some unicodeToUtf8) := by
  rintro encode hencode codepoint bs h
  obtain rfl := Option.some.inj hencode
  unfold unicodeToUtf8 at h
  split_ifs at h <;> obtain rfl := Option.some.inj h <;> simp

theorem hexRest_length {n acc codepoint : ℕ} {t rest : List UInt8}
    (h : hexRest n acc t = some (codepoint, rest)) : t.length = rest.length + n := by
  induction n generalizing acc t with
  | zero =>
    obtain ⟨-, rfl⟩ := Prod.mk.inj (Option.some.inj h)
    rfl
  | succ n ih =>
    cases t with
    | nil => cases h
    | cons c t =>
      obtain ⟨d, -, hd⟩ := Option.bind_eq_some_iff.mp h
      rw [List.length_cons, ih hd]
      omega

theorem unicodeOne_length {encoder : ℕ → Option (List UInt8)}
    (hshort : JsonEncoder.Short (some encoder)) {t bs rest : List UInt8}
    (h : unicodeOne encoder t = some (bs, rest)) : bs.length + rest.length ≤ t.length + 2 := by
  obtain ⟨⟨codepoint, u⟩, hu, h⟩ := Option.bind_eq_some_iff.mp h
  have hlen := hexRest_length hu
  dsimp only at h
  split_ifs at h
  · obtain ⟨⟨codepoint2, v⟩, hv, h⟩ := Option.bind_eq_some_iff.mp h
    have hlen' := hexRest_length hv
    rw [List.length_drop] at hlen'
    dsimp only at h
    split_ifs at h
    obtain ⟨bs, hbs, heq⟩ := Option.map_eq_some_iff.mp h
    obtain ⟨rfl, rfl⟩ := Prod.mk.inj heq
    have := hshort encoder rfl _ _ hbs
    omega
  · obtain ⟨bs, hbs, heq⟩ := Option.map_eq_some_iff.mp h
    obtain ⟨rfl, rfl⟩ := Prod.mk.inj heq
    have := hshort encoder rfl _ _ hbs
    omega

theorem unescapeOne_length {encoder : JsonEncoder} (hshort : encoder.Short) {c : UInt8}
    {t bs rest : List UInt8} (h : unescapeOne encoder c t = some (bs, rest)) :
    bs.length + rest.length ≤ t.length + 1 := by
  rw [unescapeOne] at h
  split_ifs at h
  · cases t with
    | nil =>
      obtain ⟨rfl, rfl⟩ := Prod.mk.inj (Option.some.inj h)
      simp
    | cons e t =>
      unfold escapeOne at h
      dsimp only at h
      split at h
      · obtain ⟨rfl, rfl⟩ := Prod.mk.inj (Option.some.inj h)
        simp
        omega
      · obtain ⟨rfl, rfl⟩ := Prod.mk.inj (Option.some.inj h)
        simp
        omega
      · split_ifs at h
        · have := unicodeOne_length hshort h
          simp
          omega
        · obtain ⟨rfl, rfl⟩ := Prod.mk.inj (Option.some.inj h)
          simp
          omega
  · obtain ⟨rfl, rfl⟩ := Prod.mk.inj (Option.some.inj h)
    simp
    omega

/-! ### Numbers in a tree -/

/-- There is a number in the tree. -/
def NxJson.HasNumber {σ : Type} : NxJson σ δ → Prop
  | .null => False
  | .node type _ _ _ _ _ child next =>
    type = .integer ∨ type = .double ∨ child.HasNumber ∨ next.HasNumber

@[simp]
theorem NxJson.hasNumber_append {σ : Type} (js js' : NxJson σ δ) :
    (js.append js').HasNumber ↔ js.HasNumber ∨ js'.HasNumber := by
  induction js with
  | null => simp [append, HasNumber]
  | node type key textValue intValue dblValue length child next _ ih =>
    simp only [append, HasNumber, ih]
    tauto

/-- Nodes are put behind those that are there. -/
theorem ReadsJson.hasNumber {fp : Doubles δ} {encoder : JsonEncoder} {task : JsonTask (List UInt8)}
    {js js' : JsonParent (List UInt8) δ} {t rest : List UInt8}
    (h : ReadsJson fp encoder task js t js' rest) (hjs : js.child.HasNumber) : js'.child.HasNumber := by
  induction h with
  | skip _ _ ih => exact ih hjs
  | comment _ _ ih => exact ih hjs
  | close => exact hjs
  | membersEnd => exact hjs
  | member _ _ _ _ ihv ihrest => exact ihrest (ihv hjs)
  | elementsEnd _ ih => exact ih hjs
  | element _ _ _ ihv ihrest => exact ihrest (ihv hjs)
  | _ =>
    rw [JsonParent.create, NxJson.hasNumber_append]
    exact .inl hjs

end Nxweb
