import Mathlib.Tactic

/-!
# Computations that record what they access

A computation over a region of memory that may fail, together with the positions it has read and
written (`Traced`). A traced version of a function is tied to the function by a theorem about its
`result`; what it accesses is then bounded step by step (`Traced.Within`).
-/

namespace Lib

universe u

/-- A result, `none` for a failure, and the positions accessed on the way. -/
structure Traced (α : Type u) where
  result : Option α
  accessed : List ℕ

namespace Traced

variable {α β : Type u}

/-- A failure. -/
def fail : Traced α := ⟨none, []⟩

/-- What follows a failure is not run. -/
protected def bind (x : Traced α) (g : α → Traced β) : Traced β :=
  match x.result with
  | none => ⟨none, x.accessed⟩
  | some a => ⟨(g a).result, x.accessed ++ (g a).accessed⟩

instance : Monad Traced where
  pure a := ⟨some a, []⟩
  bind := Traced.bind

/-- A read, which fails outside the region. -/
def read (mem : List α) (i : ℕ) : Traced α := ⟨mem[i]?, [i]⟩

/-- A write. -/
def write (mem : List α) (i : ℕ) (a : α) : Traced (List α) := ⟨some (mem.set i a), [i]⟩

/-- A result that may be missing. -/
def ofOption (a? : Option α) : Traced α := ⟨a?, []⟩

@[simp] theorem result_ofOption (a? : Option α) : (ofOption a?).result = a? := rfl

@[simp] theorem result_fail : (fail : Traced α).result = none := rfl

@[simp] theorem result_pure (a : α) : (pure a : Traced α).result = some a := rfl

@[simp] theorem result_read (mem : List α) (i : ℕ) : (read mem i).result = mem[i]? := rfl

@[simp] theorem result_write (mem : List α) (i : ℕ) (a : α) :
    (write mem i a).result = some (mem.set i a) := rfl

@[simp] theorem result_bind (x : Traced α) (g : α → Traced β) :
    (x >>= g).result = x.result.bind fun a => (g a).result := by
  show (Traced.bind x g).result = _
  unfold Traced.bind
  cases x.result <;> rfl

@[simp] theorem result_ite {p : Prop} [Decidable p] (x y : Traced α) :
    (if p then x else y).result = if p then x.result else y.result := apply_ite _ _ _ _

@[simp] theorem accessed_pure (a : α) : (pure a : Traced α).accessed = [] := rfl

/-- What follows a result is run after it. -/
theorem accessed_bind_of_some {x : Traced α} {a : α} (h : x.result = some a) (g : α → Traced β) :
    (x >>= g).accessed = x.accessed ++ (g a).accessed := by
  show (Traced.bind x g).accessed = _
  rw [Traced.bind, h]

theorem accessed_bind_of_none {x : Traced α} (h : x.result = none) (g : α → Traced β) :
    (x >>= g).accessed = x.accessed := by
  show (Traced.bind x g).accessed = _
  rw [Traced.bind, h]

/-- What is accessed first is accessed. -/
theorem mem_accessed_bind {x : Traced α} {i : ℕ} (h : i ∈ x.accessed) (g : α → Traced β) :
    i ∈ (x >>= g).accessed := by
  cases hx : x.result with
  | none => rwa [accessed_bind_of_none hx]
  | some a =>
    rw [accessed_bind_of_some hx]
    exact List.mem_append_left _ h

/-- No position behind `n` is accessed. -/
def Within (n : ℕ) (x : Traced α) : Prop := ∀ i ∈ x.accessed, i ≤ n

instance (n : ℕ) (x : Traced α) : Decidable (x.Within n) :=
  inferInstanceAs (Decidable (∀ i ∈ x.accessed, i ≤ n))

theorem within_fail (n : ℕ) : (fail : Traced α).Within n := by simp [Within, fail]

theorem within_pure (n : ℕ) (a : α) : (pure a : Traced α).Within n := by
  intro i hi
  cases hi

theorem within_read {n i : ℕ} {mem : List α} (h : i ≤ n) : (read mem i).Within n := by
  simpa [Within, read] using h

theorem within_write {n i : ℕ} {mem : List α} {a : α} (h : i ≤ n) : (write mem i a).Within n := by
  simpa [Within, write] using h

/-- Both parts stay within the bound, the second one for the results that the first one can
have. -/
theorem Within.bind {n : ℕ} {x : Traced α} {g : α → Traced β} (hx : x.Within n)
    (hg : ∀ a, x.result = some a → (g a).Within n) : (x >>= g).Within n := by
  cases h : x.result with
  | none =>
    rw [Within, accessed_bind_of_none h]
    exact hx
  | some a =>
    rw [Within, accessed_bind_of_some h]
    intro i hi
    rcases List.mem_append.mp hi with hi | hi
    · exact hx i hi
    · exact hg a h i hi

theorem Within.ite {n : ℕ} {p : Prop} [Decidable p] {x y : Traced α} (hx : p → x.Within n)
    (hy : ¬ p → y.Within n) : (if p then x else y).Within n := by
  split_ifs with hp
  · exact hx hp
  · exact hy hp

end Traced

end Lib
