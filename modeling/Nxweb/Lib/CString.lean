import Mathlib.Data.List.TakeWhile
import Mathlib.Tactic

/-!
# Zero-terminated strings

A region of memory holds a string up to its first zero. `CStr` is a byte list without zeros,
the value of such a string; `cstr` reads it from a region.
-/

namespace Lib

/-- A string without zero bytes. -/
structure CStr where
  toList : List UInt8
  zero_notMem : 0 ∉ toList
  deriving DecidableEq, Repr

/-- The string from offset `n` on. -/
def CStr.drop (s : CStr) (n : ℕ) : CStr where
  toList := s.toList.drop n
  zero_notMem := fun h => s.zero_notMem (List.mem_of_mem_drop h)

/-- The string at the start of a region: the bytes before the first zero. -/
def cstr (mem : List UInt8) : List UInt8 := mem.takeWhile (· ≠ 0)

theorem zero_notMem_cstr (mem : List UInt8) : 0 ∉ cstr mem := by
  intro h
  simpa using List.mem_takeWhile_imp h

/-- Bytes that are not zero belong to the string. -/
theorem cstr_append {xs : List UInt8} (h : 0 ∉ xs) (ys : List UInt8) :
    cstr (xs ++ ys) = xs ++ cstr ys := by
  rw [cstr, List.takeWhile_append_of_pos]
  · rfl
  · intro x hx
    simpa using fun h0 : x = 0 => h (h0 ▸ hx)

/-- A region without zeros is read as it is. -/
theorem cstr_of_notMem {xs : List UInt8} (h : 0 ∉ xs) : cstr xs = xs := by
  have hread := cstr_append h []
  rw [List.append_nil] at hread
  exact hread.trans (List.append_nil xs)

@[simp]
theorem cstr_zero_cons (ys : List UInt8) : cstr (0 :: ys) = [] := rfl

/-- A string is read back from the region that holds it. -/
theorem cstr_append_zero {xs : List UInt8} (h : 0 ∉ xs) (ys : List UInt8) :
    cstr (xs ++ 0 :: ys) = xs := by
  rw [cstr_append h, cstr_zero_cons, List.append_nil]

end Lib
