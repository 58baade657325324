import Mathlib.Data.List.Basic
import Mathlib.Tactic

/-!
# Iterated compression

A hash function of the usual kind cuts a message into blocks of `n` items and folds a compression
function over them. A program that gets the message piece by piece keeps what it has folded so far
and the items of the block that is not complete yet. What it has at the end depends on the message
alone, not on how it has been cut.

## Main results

* `chain_append`: one more block is one more step;
* `Absorbed.append`, `Absorbed.full`: the two ways to take in items;
* `Absorbed.length_rest`: how much of a block is kept.
-/

namespace Lib

variable {σ β : Type*} {f : σ → List β → σ} {n : ℕ} {s₀ s : σ} {msg rest xs ys : List β}

/-- The complete blocks of `n` items that a list begins with. -/
def blocks (n : ℕ) (xs : List β) : List (List β) :=
  (List.range (xs.length / n)).map fun i => (xs.drop (n * i)).take n

/-- The compression function, folded over the blocks of a list. -/
def chain (f : σ → List β → σ) (n : ℕ) (s : σ) (xs : List β) : σ := (blocks n xs).foldl f s

/-- A list of whole blocks, and one more block. -/
theorem blocks_append (hn : 0 < n) (hxs : n ∣ xs.length) (hys : ys.length = n) :
    blocks n (xs ++ ys) = blocks n xs ++ [ys] := by
  obtain ⟨k, hk⟩ := hxs
  have hlen : xs.length / n = k := by rw [hk, Nat.mul_div_cancel_left k hn]
  have hlen' : (xs ++ ys).length / n = k + 1 := by
    rw [List.length_append, hk, hys, ← Nat.mul_succ, Nat.mul_div_cancel_left _ hn]
  rw [blocks, blocks, hlen, hlen', List.range_succ, List.map_append]
  congr 1
  · apply List.map_congr_left
    intro i hi
    -- the block ends before the last one begins
    have hle : n * i + n ≤ xs.length := by
      rw [hk, ← Nat.mul_succ]
      exact Nat.mul_le_mul_left n (List.mem_range.mp hi)
    rw [List.drop_append_of_le_length (by omega), List.take_append_of_le_length]
    rw [List.length_drop]
    omega
  · rw [List.map_singleton, ← hk, List.drop_left, ← hys, List.take_length]

@[simp]
theorem chain_nil : chain f n s₀ [] = s₀ := by
  simp [chain, blocks]

theorem chain_append (hn : 0 < n) (hxs : n ∣ xs.length) (hys : ys.length = n) :
    chain f n s₀ (xs ++ ys) = f (chain f n s₀ xs) ys := by
  rw [chain, blocks_append hn hxs hys, List.foldl_append]
  rfl

/-- What is kept of a message: the fold over its complete blocks, and the items behind them. -/
structure Absorbed (f : σ → List β → σ) (n : ℕ) (s₀ : σ) (msg : List β) (s : σ)
    (rest : List β) : Prop where
  exists_done : ∃ done, msg = done ++ rest ∧ n ∣ done.length ∧ s = chain f n s₀ done
  rest_lt : rest.length < n

namespace Absorbed

/-- Nothing has been taken in. -/
theorem nil (hn : 0 < n) : Absorbed f n s₀ [] s₀ [] where
  exists_done := ⟨[], rfl, dvd_zero n, chain_nil.symm⟩
  rest_lt := hn

/-- The block is still not complete. -/
theorem append (h : Absorbed f n s₀ msg s rest) (xs : List β) (hlt : (rest ++ xs).length < n) :
    Absorbed f n s₀ (msg ++ xs) s (rest ++ xs) where
  exists_done := by
    obtain ⟨done, rfl, hdvd, hs⟩ := h.exists_done
    exact ⟨done, List.append_assoc done rest xs, hdvd, hs⟩
  rest_lt := hlt

/-- The block is complete. -/
theorem full (h : Absorbed f n s₀ msg s rest) (xs : List β) (heq : (rest ++ xs).length = n) :
    Absorbed f n s₀ (msg ++ xs) (f s (rest ++ xs)) [] where
  exists_done := by
    obtain ⟨done, rfl, hdvd, hs⟩ := h.exists_done
    have hn : 0 < n := (Nat.zero_le _).trans_lt h.rest_lt
    refine ⟨done ++ (rest ++ xs), by simp, ?_, ?_⟩
    · rw [List.length_append, heq]
      exact hdvd.add (dvd_refl n)
    · rw [chain_append hn hdvd heq, hs]
  rest_lt := (Nat.zero_le _).trans_lt h.rest_lt

theorem length_rest (h : Absorbed f n s₀ msg s rest) : rest.length = msg.length % n := by
  obtain ⟨done, rfl, ⟨k, hk⟩, -⟩ := h.exists_done
  rw [List.length_append, hk, Nat.mul_add_mod, Nat.mod_eq_of_lt h.rest_lt]

/-- Where no item is left over, the fold is that of the whole message. -/
theorem eq_chain (h : Absorbed f n s₀ msg s []) : s = chain f n s₀ msg := by
  obtain ⟨done, rfl, -, hs⟩ := h.exists_done
  rw [hs, List.append_nil]

end Absorbed

end Lib
