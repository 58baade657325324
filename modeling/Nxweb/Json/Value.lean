import Nxweb.Json.Grammar

/-!
# JSON values and their texts

A JSON value without fractional numbers, the tree of `nx_json` nodes that stands for it, and the
texts that it can be printed as. Between tokens there may be any white space; a character of a string
can be printed as itself, with a letter behind a backslash if there is one for it, or with its UTF-16
code units in hexadecimal digits.

## Main definitions

* `JsonValue`, `JsonValue.tree`: a value and its tree;
* `Prints`: a value and its texts.
-/

namespace Nxweb

open Lib

/-- A value. A string is a list of Unicode scalar values. -/
inductive JsonValue where
  | null
  | bool (b : Bool)
  | int (i : ℤ)
  | str (s : List Char)
  | arr (vs : List JsonValue)
  | obj (ms : List (List Char × JsonValue))

/-- A string in UTF-8. -/
def utf8Bytes (s : List Char) : List UInt8 := s.flatMap String.utf8EncodeChar

section Tree

variable {δ : Type}

/-- The number of the children of a node, counted by an `int`. -/
def intCount (n : ℕ) : ℤ := (n : ℤ).bmod (2 ^ 32)

mutual

/-- The node of a value, with the nodes that come next. -/
def JsonValue.tree (fp : Doubles δ) (count : ℕ → ℤ) (key : Option (List UInt8))
    (next : NxJson (List UInt8) δ) : JsonValue → NxJson (List UInt8) δ
  | .null => .node .null key none 0 fp.zero 0 .null next
  | .bool b => .node .bool key none (if b then 1 else 0) fp.zero 0 .null next
  | .int i => .node .integer key none i (fp.ofInt i) 0 .null next
  | .str s => .node .string key (some (utf8Bytes s)) 0 fp.zero 0 .null next
  | .arr vs =>
    .node .array key none 0 fp.zero (count vs.length) (JsonValue.items fp count vs) next
  | .obj ms =>
    .node .object key none 0 fp.zero (count ms.length) (JsonValue.members fp count ms) next

/-- The nodes of the items of an array. -/
def JsonValue.items (fp : Doubles δ) (count : ℕ → ℤ) : List JsonValue → NxJson (List UInt8) δ
  | [] => .null
  | v :: vs => v.tree fp count none (JsonValue.items fp count vs)

/-- The nodes of the members of an object. -/
def JsonValue.members (fp : Doubles δ) (count : ℕ → ℤ) :
    List (List Char × JsonValue) → NxJson (List UInt8) δ
  | [] => .null
  | (key, v) :: ms => v.tree fp count (some (utf8Bytes key)) (JsonValue.members fp count ms)

end

end Tree

/-! ### Texts -/

/-- White space between tokens. -/
def IsJsonSpace (w : List UInt8) : Prop := ∀ c ∈ w, c = 32 ∨ c = 9 ∨ c = 10 ∨ c = 13

/-- An integer, without leading zeros. -/
def decimalInt (i : ℤ) : List UInt8 := if i < 0 then 45 :: decimal i.natAbs else decimal i.natAbs

/-- The hexadecimal digit with this value, in both cases. -/
def hexDigits (n : ℕ) : List UInt8 :=
  if n < 10 then [.ofNat (48 + n)] else [.ofNat (87 + n), .ofNat (55 + n)]

/-- Four hexadecimal digits. -/
inductive PrintsHex (n : ℕ) : List UInt8 → Prop
  | mk {a b c d : UInt8} (ha : a ∈ hexDigits (n / 4096 % 16)) (hb : b ∈ hexDigits (n / 256 % 16))
      (hc : c ∈ hexDigits (n / 16 % 16)) (hd : d ∈ hexDigits (n % 16)) : PrintsHex n [a, b, c, d]

/-- The letters behind a backslash, and the characters that they stand for. -/
def jsonLetters : List (Char × UInt8) :=
  [('"', 34), ('\\', 92), ('/', 47), ('\x08', 98), ('\x0c', 102), ('\n', 110), ('\r', 114),
    ('\t', 116)]

/-- A character other than zero, in a string. -/
inductive PrintsChar : Char → List UInt8 → Prop
  | raw {c : Char} (hc : 32 ≤ c.toNat) (hquote : c ≠ '"') (hslash : c ≠ '\\') :
      PrintsChar c (String.utf8EncodeChar c)
  | letter {c : Char} {e : UInt8} (he : (c, e) ∈ jsonLetters) : PrintsChar c [92, e]
  | unit {c : Char} {ds : List UInt8} (hc : c ≠ '\x00') (hlt : c.toNat < 2 ^ 16)
      (hds : PrintsHex c.toNat ds) : PrintsChar c (92 :: 117 :: ds)
  | units {c : Char} {ds ds' : List UInt8} (hle : 2 ^ 16 ≤ c.toNat)
      (hds : PrintsHex (0xd800 + (c.toNat - 2 ^ 16) / 1024) ds)
      (hds' : PrintsHex (0xdc00 + (c.toNat - 2 ^ 16) % 1024) ds') :
      PrintsChar c (92 :: 117 :: ds ++ 92 :: 117 :: ds')

/-- The characters of a string. -/
inductive PrintsChars : List Char → List UInt8 → Prop
  | nil : PrintsChars [] []
  | cons {c : Char} {s : List Char} {t u : List UInt8} (hc : PrintsChar c t)
      (hs : PrintsChars s u) : PrintsChars (c :: s) (t ++ u)

/-- What can be printed: a value, what is between the brackets of an array that is not empty, and
what is between the braces of such an object. -/
inductive JsonPart where
  | value (v : JsonValue)
  | items (vs : List JsonValue)
  | members (ms : List (List Char × JsonValue))

/-- A text of a value, without white space around it; the texts of items and members come with it. -/
inductive Prints : JsonPart → List UInt8 → Prop
  | null : Prints (.value .null) (bytes "null")
  | bool (b : Bool) : Prints (.value (.bool b)) (if b then bytes "true" else bytes "false")
  | int {i : ℤ} (hl : -2 ^ 63 ≤ i) (hr : i < 2 ^ 63) : Prints (.value (.int i)) (decimalInt i)
  | str {s : List Char} {t : List UInt8} (hs : PrintsChars s t) :
      Prints (.value (.str s)) (34 :: t ++ [34])
  | emptyArr {w : List UInt8} (hw : IsJsonSpace w) : Prints (.value (.arr [])) (91 :: w ++ [93])
  | arr {vs : List JsonValue} {t : List UInt8} (hvs : Prints (.items vs) t) :
      Prints (.value (.arr vs)) (91 :: t ++ [93])
  | emptyObj {w : List UInt8} (hw : IsJsonSpace w) :
      Prints (.value (.obj [])) (123 :: w ++ [125])
  | obj {ms : List (List Char × JsonValue)} {t : List UInt8} (hms : Prints (.members ms) t) :
      Prints (.value (.obj ms)) (123 :: t ++ [125])
  | lastItem {v : JsonValue} {w t w' : List UInt8} (hw : IsJsonSpace w)
      (hv : Prints (.value v) t) (hw' : IsJsonSpace w') : Prints (.items [v]) (w ++ t ++ w')
  | item {v : JsonValue} {vs : List JsonValue} {w t w' u : List UInt8} (hw : IsJsonSpace w)
      (hv : Prints (.value v) t) (hw' : IsJsonSpace w') (hvs : Prints (.items vs) u) :
      Prints (.items (v :: vs)) (w ++ t ++ w' ++ 44 :: u)
  | lastMember {key : List Char} {v : JsonValue} {w k w₁ w₂ t w' : List UInt8}
      (hw : IsJsonSpace w) (hkey : PrintsChars key k) (hw₁ : IsJsonSpace w₁) (hw₂ : IsJsonSpace w₂)
      (hv : Prints (.value v) t) (hw' : IsJsonSpace w') :
      Prints (.members [(key, v)]) (w ++ 34 :: k ++ 34 :: w₁ ++ 58 :: w₂ ++ t ++ w')
  | member {key : List Char} {v : JsonValue} {ms : List (List Char × JsonValue)}
      {w k w₁ w₂ t w' u : List UInt8} (hw : IsJsonSpace w) (hkey : PrintsChars key k)
      (hw₁ : IsJsonSpace w₁) (hw₂ : IsJsonSpace w₂) (hv : Prints (.value v) t)
      (hw' : IsJsonSpace w') (hms : Prints (.members ms) u) :
      Prints (.members ((key, v) :: ms))
        (w ++ 34 :: k ++ 34 :: w₁ ++ 58 :: w₂ ++ t ++ w' ++ 44 :: u)

/-- A text of a value with white space around it. -/
inductive PrintsText (v : JsonValue) : List UInt8 → Prop
  | mk {w t w' : List UInt8} (hw : IsJsonSpace w) (ht : Prints (.value v) t)
      (hw' : IsJsonSpace w') : PrintsText v (w ++ t ++ w')

end Nxweb
