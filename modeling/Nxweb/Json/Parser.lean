import Nxweb.Bytes
import Nxweb.Lib.CString
import Nxweb.Lib.Loop
import Nxweb.Lib.Number

/-!
# Parsing JSON

Model of `nx_json_parse` (`nxjson.c`). The parser walks over a text in memory and unescapes the
strings in place; the nodes of the tree point to them.

The memory ends with the zero byte of the text. A position is an offset, and a read or a write
outside the memory is a fault, after which nothing is known (`none`); so is a string function that
finds no zero byte, and running out of fuel. A null pointer that is returned is a `none` inside.

Of the C library, `strtoll` is `strToInteger` and the bounds of its type, and `strtod` is a
parameter.

## Main definitions

* `unescapeString`, `parseKey`, `parseValue`: the functions of the parser;
* `nxJsonParse`, `nxJsonParseUtf8`: a whole text.
-/

namespace Nxweb

open Lib

/-- `nx_json_type`. -/
inductive NxJsonType where
  | null
  | object
  | array
  | string
  | integer
  | double
  | bool
  deriving DecidableEq, Repr

/-- A pointer to an `nx_json`; `last_child` is the end of the chain at `child`. A string is a `σ`,
and a double a `δ`. -/
inductive NxJson (σ δ : Type) where
  | null
  | node (type : NxJsonType) (key textValue : Option σ) (intValue : ℤ) (dblValue : δ) (length : ℤ)
      (child next : NxJson σ δ)
  deriving DecidableEq, Repr

/-- The second chain behind the first one. -/
def NxJson.append {σ δ : Type} : NxJson σ δ → NxJson σ δ → NxJson σ δ
  | .null, js => js
  | .node type key textValue intValue dblValue length child next, js =>
    .node type key textValue intValue dblValue length child (next.append js)

/-- What the parser changes of the node that it puts others into. -/
structure JsonParent (σ δ : Type) where
  child : NxJson σ δ
  length : ℤ
  deriving DecidableEq, Repr

/-- A new node. -/
def JsonParent.empty {σ δ : Type} : JsonParent σ δ := ⟨.null, 0⟩

/-- `create_json`, with what is put into the node later; the length is an `int`. -/
def JsonParent.create {σ δ : Type} (parent : JsonParent σ δ) (type : NxJsonType)
    (key textValue : Option σ) (intValue : ℤ) (dblValue : δ) (js : JsonParent σ δ) :
    JsonParent σ δ where
  child := parent.child.append
    (.node type key textValue intValue dblValue js.length js.child .null)
  length := (parent.length + 1).bmod (2 ^ 32)

/-- What `strtod` does with a string. -/
structure Strtod (δ : Type) where
  value : δ
  consumed : ℕ
  /-- Whether `errno` is set to `ERANGE`. -/
  erange : Bool

/-- The floating point numbers of the platform. -/
structure Doubles (δ : Type) where
  zero : δ
  ofInt : ℤ → δ
  strtod : List UInt8 → Strtod δ
  /-- `strtod` stops at the terminator. -/
  consumed_le : ∀ s, (strtod s).consumed ≤ s.length

/-- `ERANGE`. -/
def erange : ℤ := 34

/-! ### Reading memory -/

/-- The string that a library function reads from `p` on. -/
def cstringAt (buf : List UInt8) (p : ℕ) : Option (List UInt8) :=
  if 0 ∈ buf.drop p then some (cstr (buf.drop p)) else none

/-- `NX_JSON_REPORT_ERROR`, which prints the string at `p`. -/
def reportError (buf : List UInt8) (p : ℕ) : Option Unit :=
  (cstringAt buf p).map fun _ => ()

/-- `strchr`. -/
def strchrAt (c : UInt8) (buf : List UInt8) (p : ℕ) : Option (Option ℕ) :=
  (cstringAt buf p).map fun s =>
    if c ∈ s then some (p + (s.takeWhile (· ≠ c)).length) else none

/-- `!strncmp`, for all bytes of the second string. -/
def startsWithAt (buf : List UInt8) : ℕ → List UInt8 → Option Bool
  | _, [] => some true
  | p, c :: cs => do
    let b ← buf[p]?
    if b = c then startsWithAt buf (p + 1) cs else some false

/-- Bytes are written from `d` on. -/
def overwrite (buf : List UInt8) (d : ℕ) (bs : List UInt8) : Option (List UInt8) :=
  if d + bs.length ≤ buf.length then some (buf.take d ++ bs ++ buf.drop (d + bs.length)) else none

/-- `IS_WHITESPACE`. -/
def isJsonWhitespace (c : UInt8) : Bool := c ≤ 32

/-! ### Comments -/

/-- From `REPEAT` on. -/
def skipBlockTurn (buf : List UInt8) (ps p : ℕ) : Turn ℕ (Option ℕ) :=
  .orFault do
    match ← strchrAt 47 buf (p + 1) with
    | none =>
      reportError buf ps
      some (.ret none)
    | some q =>
      let c ← buf[q - 1]?
      if c ≠ 42 then some (.next q) else some (.ret (some (q + 1)))

/-- `skip_block_comment`. -/
def skipBlockComment (fuel : ℕ) (buf : List UInt8) (p : ℕ) : Option (Option ℕ) := do
  let c ← buf[p]?
  if c = 0 then
    reportError buf (p - 2)
    some none
  else loop (skipBlockTurn buf (p - 2)) fuel p

/-- The branch for `/` of `parse_key` and of `parse_value`. -/
def skipComment (fuel : ℕ) (buf : List UInt8) (p : ℕ) : Option (Option ℕ) := do
  let c ← buf[p + 1]?
  if c = 47 then
    match ← strchrAt 10 buf (p + 2) with
    | none =>
      reportError buf p
      some none
    | some q => some (some (q + 1))
  else if c = 42 then skipBlockComment fuel buf (p + 2)
  else
    reportError buf p
    some none

/-! ### Strings -/

/-- `unicode_to_utf8`, with the bytes that it writes. The subtraction is one of unsigned numbers. -/
def unicodeToUtf8 (codepoint : ℕ) : Option (List UInt8) :=
  if codepoint < 0x80 then some [.ofNat codepoint]
  else if codepoint < 0x800 then
    some [.ofNat (192 + codepoint / 64), .ofNat (128 + codepoint % 64)]
  else if (codepoint + 2 ^ 32 - 0xd800) % 2 ^ 32 < 0x800 then none
  else if codepoint < 0x10000 then
    some [.ofNat (224 + codepoint / 4096), .ofNat (128 + codepoint / 64 % 64),
      .ofNat (128 + codepoint % 64)]
  else if codepoint < 0x110000 then
    some [.ofNat (240 + codepoint / 262144), .ofNat (128 + codepoint / 4096 % 64),
      .ofNat (128 + codepoint / 64 % 64), .ofNat (128 + codepoint % 64)]
  else none

/-- An `nx_json_unicode_encoder`, which may be missing. -/
abbrev JsonEncoder := Option (ℕ → Option (List UInt8))

/-- `hex_val`. -/
def jsonHexVal (c : UInt8) : Option ℕ :=
  if 48 ≤ c ∧ c ≤ 57 then some (c.toNat - 48)
  else if 97 ≤ c ∧ c ≤ 102 then some (c.toNat - 97 + 10)
  else if 65 ≤ c ∧ c ≤ 70 then some (c.toNat - 65 + 10)
  else none

/-- So many hexadecimal digits; the first byte that is none is the last one that is read. -/
def readHex (buf : List UInt8) : ℕ → ℕ → ℕ → Option (Option ℕ)
  | 0, _, acc => some (some acc)
  | n + 1, p, acc => do
    let c ← buf[p]?
    match jsonHexVal c with
    | none => some none
    | some h => readHex buf n (p + 1) (acc * 16 + h)

/-- The variables of `unescape_string`. -/
structure UnescapeFrame where
  buf : List UInt8
  p : ℕ
  d : ℕ
  deriving DecidableEq, Repr

/-- A turn of `unescape_string`, which returns the memory and the position behind the string. -/
abbrev UnescapeTurn := Turn UnescapeFrame (List UInt8 × Option ℕ)

namespace UnescapeFrame

variable (f : UnescapeFrame)

/-- Bytes are written to `d`, and reading goes on at `p`. -/
def put (bs : List UInt8) (p : ℕ) : Option UnescapeTurn :=
  (overwrite f.buf f.d bs).map fun buf => .next ⟨buf, p, f.d + bs.length⟩

/-- An error, reported at `ps`. -/
def refuse (ps : ℕ) : Option UnescapeTurn :=
  (reportError f.buf ps).map fun _ => .ret (f.buf, none)

/-- The end of the branch for `u`. -/
def putCodepoint (encoder : ℕ → Option (List UInt8)) (ps p codepoint : ℕ) : Option UnescapeTurn :=
  match encoder codepoint with
  | none => f.refuse ps
  | some bs => f.put bs (p + 5)

/-- The branch for `u`, which is at `p`. -/
def unescapeUnicode (encoder : ℕ → Option (List UInt8)) (p : ℕ) : Option UnescapeTurn := do
  let ps := p - 1
  match ← readHex f.buf 4 (p + 1) 0 with
  | none => f.refuse ps
  | some codepoint =>
    if codepoint &&& 0xfc00 = 0xd800 then
      -- high surrogate; need one more unicode to succeed
      let p := p + 6
      let c ← f.buf[p - 1]?
      if c ≠ 92 then f.refuse ps
      else
        let c ← f.buf[p]?
        if c ≠ 117 then f.refuse ps
        else
          match ← readHex f.buf 4 (p + 1) 0 with
          | none => f.refuse ps
          | some codepoint2 =>
            if codepoint2 &&& 0xfc00 ≠ 0xdc00 then f.refuse ps
            else
              f.putCodepoint encoder ps p
                (0x10000 + (codepoint - 0xd800) <<< 10 + (codepoint2 - 0xdc00))
    else f.putCodepoint encoder ps p codepoint

/-- The branch for a backslash; `p` is behind it. -/
def unescape (encoder : JsonEncoder) (p : ℕ) : Option UnescapeTurn := do
  let e ← f.buf[p]?
  if e = 92 ∨ e = 47 ∨ e = 34 then f.put [e] (p + 1)
  else if e = 98 then f.put [8] (p + 1)
  else if e = 102 then f.put [12] (p + 1)
  else if e = 110 then f.put [10] (p + 1)
  else if e = 114 then f.put [13] (p + 1)
  else if e = 116 then f.put [9] (p + 1)
  else if e = 117 then
    match encoder with
    | none => f.put [92] p
    | some encoder => f.unescapeUnicode encoder p
  else f.put [92] p

end UnescapeFrame

/-- One turn of `unescape_string` for the string at `s`. -/
def unescapeTurn (encoder : JsonEncoder) (s : ℕ) (f : UnescapeFrame) : UnescapeTurn :=
  .orFault do
    let c ← f.buf[f.p]?
    let p := f.p + 1
    if c = 0 then f.refuse s
    else if c = 34 then
      let buf ← overwrite f.buf f.d [0]
      some (.ret (buf, some p))
    else if c = 92 then f.unescape encoder p
    else f.put [c] p

/-- `unescape_string`. -/
def unescapeString (encoder : JsonEncoder) (fuel : ℕ) (buf : List UInt8) (s : ℕ) :
    Option (List UInt8 × Option ℕ) :=
  loop (unescapeTurn encoder s) fuel ⟨buf, s, s⟩

/-! ### Keys -/

/-- `while (*p && IS_WHITESPACE(*p)) p++`. -/
def skipWhiteTurn (buf : List UInt8) (p : ℕ) : Turn ℕ ℕ :=
  .orFault do
    let c ← buf[p]?
    if c ≠ 0 ∧ isJsonWhitespace c then some (.next (p + 1)) else some (.ret p)

/-- One turn of `parse_key`. It returns the memory, the key if there is one, and the position. -/
def parseKeyTurn (encoder : JsonEncoder) (fuel : ℕ) (buf : List UInt8) (p : ℕ) :
    Turn ℕ (List UInt8 × Option (Option ℕ × ℕ)) :=
  .orFault do
    let c ← buf[p]?
    let p := p + 1
    if c = 0 then
      reportError buf (p - 1)
      some (.ret (buf, none))
    else if c = 34 then
      match ← unescapeString encoder fuel buf p with
      | (buf, none) => some (.ret (buf, none))
      | (buf, some q) =>
        let q ← loop (skipWhiteTurn buf) fuel q
        let c ← buf[q]?
        if c = 58 then some (.ret (buf, some (some p, q + 1)))
        else
          reportError buf q
          some (.ret (buf, none))
    else if isJsonWhitespace c ∨ c = 44 then some (.next p)
    else if c = 125 then some (.ret (buf, some (none, p - 1)))
    else if c = 47 then
      match ← skipComment fuel buf (p - 1) with
      | none => some (.ret (buf, none))
      | some q => some (.next q)
    else
      reportError buf (p - 1)
      some (.ret (buf, none))

/-- `parse_key`. -/
def parseKey (encoder : JsonEncoder) (fuel : ℕ) (buf : List UInt8) (p : ℕ) :
    Option (List UInt8 × Option (Option ℕ × ℕ)) :=
  loop (parseKeyTurn encoder fuel buf) fuel p

/-! ### Values -/

/-- The memory and `errno`. -/
structure ParseState where
  buf : List UInt8
  errno : ℤ
  deriving DecidableEq, Repr

/-- What a part of `parse_value` returns: the state, and the node that others have been put into
with the position, or a null pointer. -/
abbrev ParseReturn (δ : Type) := ParseState × Option (JsonParent ℕ δ × ℕ)

variable {δ : Type}

/-- An error, reported at `p`. -/
def ParseState.refuse (st : ParseState) (p : ℕ) : Option (ParseReturn δ) :=
  (reportError st.buf p).map fun _ => (st, none)

/-- The branch for a number. -/
def parseNumber (fp : Doubles δ) (st : ParseState) (parent : JsonParent ℕ δ) (key : Option ℕ)
    (p : ℕ) : Option (ParseReturn δ) := do
  let s ← cstringAt st.buf p
  let (value, rest) := strToInteger 0 s
  let st := { st with errno := if clampLong value = value then st.errno else erange }
  let pe := p + (s.length - rest.length)
  if pe = p ∨ st.errno = erange then st.refuse p
  else
    let c ← st.buf[pe]?
    if c = 46 ∨ c = 101 ∨ c = 69 then
      -- double value
      let d := fp.strtod s
      let st := { st with errno := if d.erange then erange else st.errno }
      let pe := p + d.consumed
      if pe = p ∨ st.errno = erange then st.refuse p
      else some (st, some (parent.create .double key none (clampLong value) d.value .empty, pe))
    else
      some (st, some (parent.create .integer key none (clampLong value)
        (fp.ofInt (clampLong value)) .empty, pe))

/-- The branches for `true`, `false` and `null`. -/
def parseLiteral (st : ParseState) (parent : JsonParent ℕ δ) (p : ℕ) (text : List UInt8) :
    Option (ParseReturn δ) := do
  if ← startsWithAt st.buf p text then some (st, some (parent, p + text.length)) else st.refuse p

mutual

/-- `parse_value`. -/
def parseValue (fp : Doubles δ) (encoder : JsonEncoder) :
    ℕ → ParseState → JsonParent ℕ δ → Option ℕ → ℕ → Option (ParseReturn δ)
  | 0, _, _, _, _ => none
  | fuel + 1, st, parent, key, p => do
    let c ← st.buf[p]?
    if c = 0 then st.refuse p
    else if c = 32 ∨ c = 9 ∨ c = 10 ∨ c = 13 ∨ c = 44 then
      -- skip
      parseValue fp encoder fuel st parent key (p + 1)
    else if c = 123 then
      match ← parseMembers fp encoder fuel st .empty (p + 1) with
      | (st, none) => some (st, none)
      | (st, some (js, p)) => some (st, some (parent.create .object key none 0 fp.zero js, p))
    else if c = 91 then
      match ← parseElements fp encoder fuel st .empty (p + 1) with
      | (st, none) => some (st, none)
      | (st, some (js, p)) => some (st, some (parent.create .array key none 0 fp.zero js, p))
    else if c = 93 then some (st, some (parent, p))
    else if c = 34 then
      match ← unescapeString encoder fuel st.buf (p + 1) with
      | (buf, none) => some ({ st with buf }, none)
      | (buf, some q) =>
        some ({ st with buf },
          some (parent.create .string key (some (p + 1)) 0 fp.zero .empty, q))
    else if c = 45 ∨ (48 ≤ c ∧ c ≤ 57) then parseNumber fp st parent key p
    else if c = 116 then
      parseLiteral st (parent.create .bool key none 1 fp.zero .empty) p (bytes "true")
    else if c = 102 then
      parseLiteral st (parent.create .bool key none 0 fp.zero .empty) p (bytes "false")
    else if c = 110 then
      parseLiteral st (parent.create .null key none 0 fp.zero .empty) p (bytes "null")
    else if c = 47 then
      match ← skipComment fuel st.buf p with
      | none => some (st, none)
      | some q => parseValue fp encoder fuel st parent key q
    else st.refuse p

/-- The loop over the members of an object. -/
def parseMembers (fp : Doubles δ) (encoder : JsonEncoder) :
    ℕ → ParseState → JsonParent ℕ δ → ℕ → Option (ParseReturn δ)
  | 0, _, _, _ => none
  | fuel + 1, st, js, p => do
    match ← parseKey encoder fuel st.buf p with
    | (buf, none) => some ({ st with buf }, none)
    | (buf, some (newKey, p)) =>
      let c ← buf[p]?
      if c = 125 then some ({ st with buf }, some (js, p + 1)) -- end of object
      else
        match ← parseValue fp encoder fuel { st with buf } js newKey p with
        | (st, none) => some (st, none)
        | (st, some (js, p)) => parseMembers fp encoder fuel st js p

/-- The loop over the items of an array. -/
def parseElements (fp : Doubles δ) (encoder : JsonEncoder) :
    ℕ → ParseState → JsonParent ℕ δ → ℕ → Option (ParseReturn δ)
  | 0, _, _, _ => none
  | fuel + 1, st, js, p => do
    match ← parseValue fp encoder fuel st js none p with
    | (st, none) => some (st, none)
    | (st, some (js, p)) =>
      let c ← st.buf[p]?
      if c = 93 then some (st, some (js, p + 1)) -- end of array
      else parseElements fp encoder fuel st js p

end

@[simp]
theorem parseValue_zero (fp : Doubles δ) (encoder : JsonEncoder) (st : ParseState)
    (parent : JsonParent ℕ δ) (key : Option ℕ) (p : ℕ) :
    parseValue fp encoder 0 st parent key p = none := by
  rw [parseValue]

@[simp]
theorem parseMembers_zero (fp : Doubles δ) (encoder : JsonEncoder) (st : ParseState)
    (js : JsonParent ℕ δ) (p : ℕ) : parseMembers fp encoder 0 st js p = none := by
  rw [parseMembers]

@[simp]
theorem parseElements_zero (fp : Doubles δ) (encoder : JsonEncoder) (st : ParseState)
    (js : JsonParent ℕ δ) (p : ℕ) : parseElements fp encoder 0 st js p = none := by
  rw [parseElements]

/-- `nx_json_parse`: the memory, and the tree or a null pointer. -/
def nxJsonParse (fp : Doubles δ) (encoder : JsonEncoder) (fuel : ℕ) (errno : ℤ)
    (buf : List UInt8) : Option (List UInt8 × NxJson ℕ δ) :=
  (parseValue fp encoder fuel ⟨buf, errno⟩ .empty none 0).map fun
    | (st, none) => (st.buf, .null)
    | (st, some (js, _)) => (st.buf, js.child)

/-- `nx_json_parse_utf8`. -/
def nxJsonParseUtf8 (fp : Doubles δ) (fuel : ℕ) (errno : ℤ) (buf : List UInt8) :
    Option (List UInt8 × NxJson ℕ δ) :=
  nxJsonParse fp (some unicodeToUtf8) fuel errno buf

end Nxweb
