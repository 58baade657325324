import Nxweb.Bytes
import Nxweb.Lib.CString

/-!
# Decoding and normalising the path of a URI

Model of `nxweb_url_decode` and `nxweb_remove_dots_from_uri_path` (`http_utils.c`). Both work
in place on a zero-terminated string. The region is the list of bytes from the start of the
string on, including what follows the terminator.

The normalisation reads the path with a cursor `src` and writes the kept segments with a cursor
`dst`. It looks at the terminator only where a segment begins or ends, so both cursors, the
bytes that are overwritten and the bytes behind the terminator are part of the model. A read
outside the region is `none`.

## Main definitions

* `urlDecode`: `nxweb_url_decode` with `dst=0`;
* `removeDotsIter`: one iteration of the loop of `nxweb_remove_dots_from_uri_path`;
* `removeDotsFromUriPath`: the whole function.
-/

namespace Nxweb

open Lib

/-- The separator of path segments. -/
abbrev slash : UInt8 := 47

/-- The full stop. -/
abbrev dot : UInt8 := 46

@[simp] theorem slash_ne_zero : slash ≠ 0 := by decide

@[simp] theorem dot_ne_zero : dot ≠ 0 := by decide

@[simp] theorem dot_ne_slash : dot ≠ slash := by decide

/-- `HEX_DIGIT_VALUE`: zero for a character that is not a digit. -/
def hexDigitValue (c : UInt8) : ℕ := (hexDigitVal c).getD 0

/-- A byte is the value of its two digits. -/
theorem ofNat_hexDigits (c : UInt8) :
    UInt8.ofNat (hexDigitValue (hexDigit (c.toNat / 16)) * 16 +
      hexDigitValue (hexDigit c.toNat)) = c := by
  have hlt := c.toNat_lt
  simp only [hexDigitValue, hexDigitVal_hexDigit, Option.getD_some]
  rw [Nat.mod_eq_of_lt (show c.toNat / 16 < 16 by omega), Nat.div_add_mod']
  simp

/-- The characters `nxweb_url_decode` writes for a string. -/
def urlDecodeString : List UInt8 → List UInt8
  | [] => []
  | 37 :: a :: b :: s =>
    UInt8.ofNat (hexDigitValue a * 16 + hexDigitValue b) :: urlDecodeString s
  | 43 :: s => 32 :: urlDecodeString s
  | c :: s => c :: urlDecodeString s

/-- `nxweb_url_decode` in place. The writing cursor never passes the reading one, so the string
is decoded as it was, its decoding and a terminator are written over it, and the bytes behind
stay. -/
def urlDecode (mem : List UInt8) : List UInt8 :=
  let d := urlDecodeString (cstr mem) ++ [0]
  d ++ mem.drop d.length

/-- The region and the two cursors of `nxweb_remove_dots_from_uri_path`, as offsets from
`path`. -/
structure DotsFrame where
  mem : List UInt8
  src : ℕ
  dst : ℕ
  deriving DecidableEq, Repr

/-- `*dst++=*src++` where `*src` is `c`. -/
def DotsFrame.copy (f : DotsFrame) (c : UInt8) : DotsFrame :=
  { mem := f.mem.set f.dst c, src := f.src + 1, dst := f.dst + 1 }

/-- `while (*src && *src!='/') *dst++=*src++;`. -/
def copyBytes : ℕ → DotsFrame → Option DotsFrame
  | 0, _ => none
  | fuel + 1, f => do
    let c ← f.mem[f.src]?
    if c ≠ 0 ∧ c ≠ slash then copyBytes fuel (f.copy c) else return f

/-- `while ((--dst)[-1] != '/');`. -/
def cutSegment (mem : List UInt8) : ℕ → Option ℕ
  | 0 => none
  | 1 => none
  | dst + 2 => do
    let c ← mem[dst]?
    if c = slash then return dst + 1 else cutSegment mem (dst + 1)

/-- Outcome of an iteration: the loop goes on, or the function returns a code and leaves the
region behind. -/
inductive DotsStep where
  | next (f : DotsFrame)
  | ret (code : ℤ) (mem : List UInt8)

/-- The part of an iteration that copies a segment with the byte behind it; the first byte of
the segment is `c`. -/
def copySegment (f : DotsFrame) (c : UInt8) : Option DotsStep := do
  let f ← copyBytes f.mem.length (f.copy c)
  let c ← f.mem[f.src]?
  let f := f.copy c
  return if c = 0 then .ret 0 f.mem else .next f

/-- One iteration of `while (*src)`. -/
def removeDotsIter (f : DotsFrame) : Option DotsStep := do
  let c ← f.mem[f.src]?
  if c = 0 then return .ret 0 f.mem
  if c = slash then return .next { f with src := f.src + 1 }
  if c = dot then
    let c1 ← f.mem[f.src + 1]?
    if c1 = slash then return .next { f with src := f.src + 2 }
    if c1 = 0 then return .next { f with src := f.src + 1 }
    if c1 = dot then
      let c2 ← f.mem[f.src + 2]?
      if c2 = slash ∨ c2 = 0 then
        if f.dst = 1 then return .ret (-1) f.mem
        let dst ← cutSegment f.mem f.dst
        -- also when `c2` is the terminator, which `src` passes here
        return .next { f with src := f.src + 3, dst }
  copySegment f c

/-- The loop. Every iteration advances `src`, so the length of the region bounds them. -/
def removeDotsLoop : ℕ → DotsFrame → Option (ℤ × List UInt8)
  | 0, _ => none
  | fuel + 1, f => do
    match ← removeDotsIter f with
    | .next f => removeDotsLoop fuel f
    | .ret code mem => return (code, mem)

/-- `nxweb_remove_dots_from_uri_path`: the return value and the region afterwards. -/
def removeDotsFromUriPath (mem : List UInt8) : Option (ℤ × List UInt8) := do
  let c ← mem[0]?
  if c = 0 then return (0, mem)
  if c ≠ slash then return (-1, mem)
  removeDotsLoop mem.length { mem, src := 1, dst := 1 }

end Nxweb
