import Mathlib.Algebra.Group.Even
import Mathlib.Data.List.DropRight
import Nxweb.Lib.FirstOccurrence
import Nxweb.Lib.Region

/-!
# Searches for two neighbours

A search in a region for an element `a` with a `b` behind it. `memchr` finds the next `b`, and what
is in front of it is looked at. From a `b` that does not end the search it goes on two positions
further: the element behind it is stepped over. This is safe as far as the result is concerned, as a
`b` behind a `b` has no `a` in front of it. But the position may be behind the end of the region, and
then the length that is handed to `memchr` is negative.

A search that finds nothing looks at the `b`s at the end of the region in turns. It leaves the region
if their number is odd (`pairSearch_spec`).

`pairSearchAt` is the search by positions, `pairSearch` the one through the elements, and
`result_pairSearchAt` says that they agree.
-/

namespace Lib

variable {α β γ : Type}

/-! ### Computations that fail when they leave the region -/

namespace Traced

/-- If the computation has a result, all positions accessed lie in front of `n`. -/
def Inside (n : ℕ) (x : Traced β) : Prop := x.result ≠ none → ∀ i ∈ x.accessed, i < n

theorem inside_fail (n : ℕ) : (fail : Traced β).Inside n := fun h => absurd rfl h

theorem inside_pure (n : ℕ) (b : β) : (pure b : Traced β).Inside n := fun _ i hi => by cases hi

theorem inside_read (mem : List α) (i : ℕ) : (read mem i).Inside mem.length := by
  intro h j hj
  obtain rfl := List.mem_singleton.mp hj
  exact not_le.mp fun hle => h (List.getElem?_eq_none hle)

theorem Inside.bind {n : ℕ} {x : Traced β} {g : β → Traced γ} (hx : x.Inside n)
    (hg : ∀ b, (g b).Inside n) : (x >>= g).Inside n := by
  intro h i hi
  cases hb : x.result with
  | none => exact absurd (by rw [result_bind, hb]; rfl) h
  | some b =>
    rw [result_bind, hb, Option.bind_some] at h
    rw [accessed_bind_of_some hb] at hi
    rcases List.mem_append.mp hi with hi | hi
    · exact hx (by rw [hb]; exact nofun) i hi
    · exact hg b h i hi

theorem Inside.ite {n : ℕ} {p : Prop} [Decidable p] {x y : Traced β} (hx : x.Inside n)
    (hy : y.Inside n) : (if p then x else y).Inside n := by
  split_ifs
  · exact hx
  · exact hy

end Traced

open Traced

theorem inside_scan (stop : ℕ → α → Bool) (p : ℕ) (cells : List α) :
    (scan stop p cells).Inside (p + cells.length) := by
  induction cells generalizing p with
  | nil => exact fun h => absurd rfl h
  | cons c cs ih =>
    rw [scan]
    split_ifs
    · intro _ i hi
      obtain rfl := List.mem_singleton.mp hi
      rw [List.length_cons]
      omega
    · intro h i hi
      rw [List.length_cons]
      rcases List.mem_cons.mp hi with rfl | hi
      · omega
      · have := ih (p + 1) h i hi
        omega

theorem inside_scanFrom (stop : ℕ → α → Bool) (mem : List α) (p : ℕ) :
    (scanFrom stop mem p).Inside mem.length := by
  intro h i hi
  have hlt := inside_scan stop p (mem.drop p) h i hi
  rw [List.length_drop] at hlt
  by_contra hge
  have hnil : mem.drop p = [] := List.drop_eq_nil_of_le (by omega)
  rw [scanFrom, hnil] at h
  exact h rfl

/-! ### `memchr` -/

section Memchr

variable [DecidableEq α]

/-- The first position from `p` on, among the `n` cells that begin there, that holds `c`. -/
def memchrIn (c : α) : ℕ → ℕ → List α → Traced (Option ℕ)
  | _, 0, _ => return none
  | p, _ + 1, [] => ⟨none, [p]⟩
  | p, n + 1, x :: cells =>
    if x = c then ⟨some (some p), [p]⟩
    else ⟨(memchrIn c (p + 1) n cells).result, p :: (memchrIn c (p + 1) n cells).accessed⟩

/-- `memchr(p, c, len)`. As a number without sign, a negative length reaches far behind the region. -/
def memchr (mem : List α) (c : α) (p : ℕ) (len : ℤ) : Traced (Option ℕ) :=
  if len < 0 then ⟨none, [p]⟩ else memchrIn c p len.toNat (mem.drop p)

theorem inside_memchrIn (c : α) (p n : ℕ) (cells : List α) :
    (memchrIn c p n cells).Inside (p + cells.length) := by
  induction cells generalizing p n with
  | nil =>
    cases n with
    | zero => exact inside_pure _ _
    | succ n => exact fun h => absurd rfl h
  | cons x cells ih =>
    cases n with
    | zero => exact inside_pure _ _
    | succ n =>
      rw [memchrIn, List.length_cons]
      split_ifs
      · intro _ i hi
        obtain rfl := List.mem_singleton.mp hi
        omega
      · intro h i hi
        rcases List.mem_cons.mp hi with rfl | hi
        · omega
        · have := ih (p + 1) n h i hi
          omega

/-- It looks at nothing in front of `p`. -/
theorem le_of_mem_memchrIn {c : α} {p n i : ℕ} {cells : List α}
    (h : i ∈ (memchrIn c p n cells).accessed) : p ≤ i := by
  induction cells generalizing p n with
  | nil =>
    cases n with
    | zero => cases h
    | succ n => exact (List.mem_singleton.mp h).ge
  | cons x cells ih =>
    cases n with
    | zero => cases h
    | succ n =>
      rw [memchrIn] at h
      split_ifs at h
      · exact (List.mem_singleton.mp h).ge
      · rcases List.mem_cons.mp h with rfl | h
        · exact le_rfl
        · have := ih h
          omega

theorem inside_memchr (mem : List α) (c : α) (p : ℕ) (len : ℤ) :
    (memchr mem c p len).Inside mem.length := by
  unfold memchr
  split_ifs
  · exact fun h => absurd rfl h
  · intro h i hi
    have hlt := inside_memchrIn c p _ _ h i hi
    have hle := le_of_mem_memchrIn hi
    rw [List.length_drop] at hlt
    omega

theorem result_memchrIn (c : α) (p : ℕ) (cells rest : List α) :
    (memchrIn c p cells.length (cells ++ rest)).result =
      some (if c ∈ cells then some (p + (cells.takeWhile (· ≠ c)).length) else none) := by
  induction cells generalizing p with
  | nil => rfl
  | cons x cells ih =>
    rw [List.length_cons, List.cons_append, memchrIn]
    by_cases hx : x = c
    · simp [hx]
    · have hmem : c ∈ x :: cells ↔ c ∈ cells := by simp [Ne.symm hx]
      have htake : (x :: cells).takeWhile (· ≠ c) = x :: cells.takeWhile (· ≠ c) := by simp [hx]
      simp only [if_neg hx, ih, hmem, htake, List.length_cons]
      split_ifs
      · congr 2
        omega
      · rfl

/-- `memchr` over cells that lie in the region. -/
theorem result_memchr {mem cells rest : List α} {c : α} {p : ℕ} {len : ℤ}
    (hmem : mem.drop p = cells ++ rest) (hlen : len = cells.length) :
    (memchr mem c p len).result =
      some (if c ∈ cells then some (p + (cells.takeWhile (· ≠ c)).length) else none) := by
  subst hlen
  rw [memchr, if_neg (by omega), hmem, Int.toNat_natCast, result_memchrIn]

end Memchr

/-! ### The elements at the end -/

section Trailing

variable [DecidableEq α]

/-- How many `c` there are at the end. -/
def trailing (c : α) (u : List α) : ℕ := (u.rtakeWhile (· = c)).length

theorem trailing_cons (c x : α) (u : List α) :
    trailing c (x :: u) =
      if trailing c u = u.length then u.length + (if x = c then 1 else 0) else trailing c u := by
  simp only [trailing, List.rtakeWhile, List.length_reverse, List.reverse_cons]
  rw [List.takeWhile_append, List.length_reverse]
  split_ifs with hall hx
  · simp [hx]
  · simp [hx]
  · rfl

theorem trailing_le (c : α) (u : List α) : trailing c u ≤ u.length :=
  (List.rtakeWhile_suffix _ _).length_le

theorem trailing_cons_of_ne {c x : α} (h : x ≠ c) (u : List α) :
    trailing c (x :: u) = trailing c u := by
  rw [trailing_cons, if_neg h]
  split_ifs with hall
  · exact hall.symm
  · rfl

/-- What lies in front of another element does not count. -/
theorem trailing_append_cons {c x : α} (h : x ≠ c) (front u : List α) :
    trailing c (front ++ x :: u) = trailing c u := by
  induction front with
  | nil => exact trailing_cons_of_ne h u
  | cons y front ih =>
    have hlt : trailing c (front ++ x :: u) ≠ (front ++ x :: u).length := by
      have := trailing_le c u
      rw [ih, List.length_append, List.length_cons]
      omega
    rw [List.cons_append, trailing_cons, if_neg hlt, ih]

/-- To step over an element behind a `c` does not change the parity. -/
theorem even_trailing_cons_cons (c x : α) (u : List α) :
    Even (trailing c (c :: x :: u)) ↔ Even (trailing c u) := by
  have hle := trailing_le c u
  rw [trailing_cons c c, trailing_cons c x, if_pos rfl, List.length_cons]
  by_cases hall : trailing c u = u.length
  · by_cases hx : x = c
    · rw [if_pos hall, if_pos hx, if_pos rfl, hall, Nat.even_add_one, Nat.even_add_one, not_not]
    · rw [if_pos hall, if_neg hx, if_neg (by omega), hall, Nat.add_zero]
  · rw [if_neg hall, if_neg (by omega)]

end Trailing

/-! ### The search -/

variable [DecidableEq α]

/-- The search from position `p` on, at most as many times as given. `visit` says whether it ends at a
`b`. -/
def pairSearchAt (mem : List α) (a b : α) (visit : ℕ → Traced (Option β)) :
    ℕ → ℕ → Traced (Option β)
  | 0, _ => .fail
  | fuel + 1, p => do
    match ← memchr mem b p (mem.length - p) with
    | none => return none
    | some q =>
      if (← Traced.read mem (q - 1)) = a then
        match ← visit q with
        | some r => return some r
        | none => pairSearchAt mem a b visit fuel (q + 2)
      else pairSearchAt mem a b visit fuel (q + 2)

/-- The search through the elements from position `p` on, where `prev` is the one in front of them and
`skip` says that the first of them is stepped over. -/
def pairSearch (a b : α) (visit : ℕ → List α → Option (Option β)) :
    Bool → ℕ → α → List α → Option (Option β)
  | skip, _, _, [] => if skip then none else some none
  | skip, p, prev, c :: cells =>
    if c = b ∧ skip = false then
      if prev = a then
        match visit p cells with
        | none => none
        | some none => pairSearch a b visit true (p + 1) c cells
        | some (some r) => some (some r)
      else pairSearch a b visit true (p + 1) c cells
    else pairSearch a b visit false (p + 1) c cells

theorem inside_pairSearchAt {mem : List α} {a b : α} {visit : ℕ → Traced (Option β)}
    (hvisit : ∀ q, (visit q).Inside mem.length) (fuel p : ℕ) :
    (pairSearchAt mem a b visit fuel p).Inside mem.length := by
  induction fuel generalizing p with
  | zero => exact inside_fail _
  | succ fuel ih =>
    refine (inside_memchr mem b p _).bind fun r => ?_
    cases r with
    | none => exact inside_pure _ _
    | some q =>
      refine (inside_read mem _).bind fun x => .ite ((hvisit q).bind fun r => ?_) (ih _)
      cases r with
      | none => exact ih _
      | some r => exact inside_pure _ _

/-- Elements other than `b` are passed. -/
theorem pairSearch_append {a b : α} (visit : ℕ → List α → Option (Option β)) {seg : List α}
    (hseg : b ∉ seg) (p : ℕ) (prev : α) (cells : List α) :
    pairSearch a b visit false p prev (seg ++ cells) =
      pairSearch a b visit false (p + seg.length) ((prev :: seg).getLast (List.cons_ne_nil _ _))
        cells := by
  induction seg generalizing p prev with
  | nil => rfl
  | cons x seg ih =>
    have hx : x ≠ b := fun h => hseg (h ▸ List.mem_cons_self)
    rw [List.cons_append, pairSearch, if_neg (fun h => hx h.1),
      ih (fun h => hseg (List.mem_cons_of_mem x h)), List.length_cons,
      List.getLast_cons (List.cons_ne_nil x seg), Nat.add_assoc, Nat.add_comm 1]

/-- A search from behind the end fails. -/
theorem result_pairSearchAt_of_lt {mem : List α} {a b : α} {visit : ℕ → Traced (Option β)}
    {fuel p : ℕ} (h : mem.length < p) : (pairSearchAt mem a b visit fuel p).result = none := by
  cases fuel with
  | zero => rfl
  | succ fuel => rw [pairSearchAt, result_bind, memchr, if_pos (by omega), Option.bind_none]

/-- Both searches agree. -/
theorem result_pairSearchAt {mem : List α} {a b : α} {visitAt : ℕ → Traced (Option β)}
    {visit : ℕ → List α → Option (Option β)}
    (hvisit : ∀ q cells, mem.drop q = b :: cells → (visitAt q).result = visit q cells)
    {fuel p : ℕ} {prev : α} {cells : List α} (hmem : mem.drop p = prev :: cells)
    (hfuel : cells.length < fuel) :
    (pairSearchAt mem a b visitAt fuel (p + 1)).result =
      pairSearch a b visit false (p + 1) prev cells := by
  induction fuel generalizing p prev cells with
  | zero => omega
  | succ fuel ih =>
    have hdrop : mem.drop (p + 1) = cells ++ [] := by
      rw [← List.drop_drop, hmem, List.append_nil]
      rfl
    have hlen : (mem.length : ℤ) - (p + 1 : ℕ) = cells.length := by
      have hcells := congrArg List.length hmem
      rw [List.length_drop, List.length_cons] at hcells
      omega
    rw [pairSearchAt, result_bind, result_memchr hdrop hlen, Option.bind_some]
    by_cases hb : b ∈ cells
    · obtain ⟨seg, after, rfl, hseg⟩ := List.eq_append_cons_of_mem hb
      have htake : (seg ++ b :: after).takeWhile (· ≠ b) = seg := by
        rw [List.takeWhile_append_of_pos (by simpa using fun x hx => ne_of_mem_of_not_mem hx hseg)]
        simp
      -- the element in front of the `b`, and the `b`
      have hread : mem[p + 1 + seg.length - 1]? =
          some ((prev :: seg).getLast (List.cons_ne_nil _ _)) := by
        rw [show p + 1 + seg.length - 1 = p + seg.length by omega, ← List.getElem?_drop, hmem,
          ← List.cons_append, List.getElem?_append_left (by simp), ← List.getLast?_eq_some_getLast,
          List.getLast?_eq_getElem?]
        rfl
      have hq : mem.drop (p + 1 + seg.length) = b :: after := by
        rw [← List.drop_drop, hdrop, List.append_nil, List.drop_left]
      rw [if_pos hb, htake, pairSearch_append visit hseg, pairSearch, if_pos ⟨rfl, rfl⟩]
      simp only [result_bind, result_read, hread, Option.bind_some, result_ite, hvisit _ _ hq]
      -- where the search goes on, one element is stepped over
      have hnext : (pairSearchAt mem a b visitAt fuel (p + 1 + seg.length + 2)).result =
          pairSearch a b visit true (p + 1 + seg.length + 1) b after := by
        cases after with
        | nil =>
          apply result_pairSearchAt_of_lt
          have := congrArg List.length hq
          rw [List.length_drop, List.length_singleton] at this
          omega
        | cons x after =>
          have hdrop' : mem.drop (p + 1 + seg.length + 1) = x :: after := by
            rw [← List.drop_drop, hq]
            rfl
          rw [List.length_append, List.length_cons, List.length_cons] at hfuel
          rw [pairSearch, if_neg (fun h => Bool.noConfusion h.2)]
          exact ih hdrop' (by omega)
      split_ifs with ha
      · cases visit (p + 1 + seg.length) after with
        | none => rfl
        | some r =>
          cases r with
          | none => exact hnext
          | some r => rfl
      · exact hnext
    · rw [if_neg hb]
      have hnone := pairSearch_append (a := a) visit hb (p + 1) prev []
      rw [List.append_nil] at hnone
      rw [hnone]
      rfl

/-! ### What the search finds -/

/-- The result of a search through `u` that looks at all pairs, the element behind its first one being
at position `p`: what `visit` says at the first pair where it does not say to go on. If there is
none, the elements of `off` are looked at in turns, from the last one of their kind on. -/
inductive PairSearched (a b : α) (visit : ℕ → List α → Option (Option β)) (p : ℕ) (u off : List α) :
    Option (Option β) → Prop
  | stop (k : ℕ) (rest : List α) (hat : u.drop k = a :: b :: rest) (hstop : visit (p + k) rest ≠ some none)
      (hfirst : ∀ k' < k, ∀ rest', u.drop k' = a :: b :: rest' → visit (p + k') rest' = some none) :
      PairSearched a b visit p u off (visit (p + k) rest)
  | exhausted (hall : ∀ k rest, u.drop k = a :: b :: rest → visit (p + k) rest = some none) :
      PairSearched a b visit p u off (if Even (trailing b off) then some none else none)

/-- An element in front where the search does not stop. -/
theorem PairSearched.cons {a b x : α} {visit : ℕ → List α → Option (Option β)} {p : ℕ}
    {u off off' : List α} {r : Option (Option β)} (h : PairSearched a b visit (p + 1) u off r)
    (hx : ∀ rest, x :: u = a :: b :: rest → visit p rest = some none)
    (heven : Even (trailing b off) ↔ Even (trailing b off')) :
    PairSearched a b visit p (x :: u) off' r := by
  cases h with
  | stop k rest hat hstop hfirst =>
    rw [Nat.add_assoc, Nat.add_comm 1] at hstop ⊢
    refine .stop (k + 1) rest hat hstop fun k' hk' rest' hat' => ?_
    cases k' with
    | zero => exact hx rest' hat'
    | succ k' =>
      rw [show p + (k' + 1) = p + 1 + k' by omega]
      exact hfirst k' (by omega) rest' hat'
  | exhausted hall =>
    simp only [heven]
    refine .exhausted fun k rest hat => ?_
    cases k with
    | zero => exact hx rest hat
    | succ k =>
      rw [show p + (k + 1) = p + 1 + k by omega]
      exact hall k rest hat

theorem pairSearch_spec {a b : α} (hab : a ≠ b) (visit : ℕ → List α → Option (Option β))
    (skip : Bool) (p : ℕ) (prev : α) (hskip : skip = true → prev = b) (cells : List α) :
    PairSearched a b visit p (prev :: cells) (if skip then prev :: cells else cells)
      (pairSearch a b visit skip p prev cells) := by
  induction cells generalizing skip p prev with
  | nil =>
    have hnone : ∀ k rest, [prev].drop k = a :: b :: rest → visit (p + k) rest = some none := by
      intro k rest hat
      have hlen := congrArg List.length hat
      simp only [List.length_drop, List.length_cons, List.length_nil] at hlen
      omega
    cases skip with
    | false => exact .exhausted hnone
    | true =>
      obtain rfl := hskip rfl
      have hodd : ¬ Even (trailing prev [prev]) := by simp [trailing, List.rtakeWhile]
      have h : PairSearched a prev visit p [prev] [prev] _ := .exhausted hnone
      rwa [if_neg hodd] at h
  | cons c cells ih =>
    cases skip with
    | true =>
      -- `c` is stepped over: there is a `b` in front of it
      obtain rfl := hskip rfl
      simp only [if_true]
      rw [pairSearch, if_neg (fun h => Bool.noConfusion h.2)]
      refine (ih false (p + 1) c Bool.noConfusion).cons (fun rest hat => ?_)
        (even_trailing_cons_cons prev c cells).symm
      exact absurd (List.cons.inj hat).1.symm hab
    | false =>
      simp only [Bool.false_eq_true, if_false]
      rw [pairSearch]
      by_cases hc : c = b
      · subst hc
        rw [if_pos ⟨rfl, rfl⟩]
        have hnext := ih true (p + 1) c fun _ => rfl
        by_cases hprev : prev = a
        · subst hprev
          rw [if_pos rfl]
          have hat : (prev :: c :: cells).drop 0 = prev :: c :: cells := rfl
          by_cases hgo : visit p cells = some none
          · simp only [hgo]
            refine hnext.cons (fun rest hat => ?_) Iff.rfl
            obtain rfl := (List.cons.inj (List.cons.inj hat).2).2
            exact hgo
          · have hstop : (match visit p cells with
                | none => none
                | some none => pairSearch prev c visit true (p + 1) c cells
                | some (some r) => some (some r)) = visit (p + 0) cells := by
              split
              · rename_i h
                exact h.symm
              · rename_i h
                exact absurd h hgo
              · rename_i h
                exact h.symm
            rw [hstop]
            exact .stop 0 cells hat hgo nofun
        · rw [if_neg hprev]
          exact hnext.cons (fun rest hat => absurd (List.cons.inj hat).1 hprev) Iff.rfl
      · rw [if_neg (fun h => hc h.1)]
        refine (ih false (p + 1) c Bool.noConfusion).cons (fun rest hat => ?_) ?_
        · exact absurd (List.cons.inj (List.cons.inj hat).2).1 hc
        · simp only [Bool.false_eq_true, if_false, trailing_cons_of_ne hc]

end Lib
