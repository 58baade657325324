import Nxweb.Lib.Traced

/-!
# Scans of a region and what lies behind it

A scan reads a region from a position on until a stop condition holds. It stays in the front part of
the region if the last cell of that part stops it, as the terminator of a string does.

`Traced.Yields` says of a computation over a region that only its front part counts: no position
behind it is accessed, and the result is known for everything that may lie behind. It is kept by
sequencing (`Yields.bind`), so that such a statement about a program is assembled from those about
its steps.
-/

namespace Lib

variable {α β γ : Type}

/-- The first position from `p` on, in the cells that begin there, at which the scan stops. -/
def scan (stop : ℕ → α → Bool) : ℕ → List α → Traced ℕ
  | p, [] => ⟨none, [p]⟩
  | p, c :: cs =>
    if stop p c then ⟨some p, [p]⟩
    else ⟨(scan stop (p + 1) cs).result, p :: (scan stop (p + 1) cs).accessed⟩

/-- The scan of a region. -/
def scanFrom (stop : ℕ → α → Bool) (mem : List α) (p : ℕ) : Traced ℕ := scan stop p (mem.drop p)

theorem scanFrom_eq {stop : ℕ → α → Bool} {mem : List α} {p : ℕ} {c : α} (hc : mem[p]? = some c) :
    scanFrom stop mem p =
      if stop p c then ⟨some p, [p]⟩
      else ⟨(scanFrom stop mem (p + 1)).result, p :: (scanFrom stop mem (p + 1)).accessed⟩ := by
  obtain ⟨hlt, rfl⟩ := List.getElem?_eq_some_iff.mp hc
  rw [scanFrom, List.drop_eq_getElem_cons hlt, scan]
  rfl

/-- Where a scan begins is accessed. -/
theorem mem_accessed_scanFrom (stop : ℕ → α → Bool) (mem : List α) (p : ℕ) :
    p ∈ (scanFrom stop mem p).accessed := by
  unfold scanFrom
  cases mem.drop p with
  | nil => exact List.mem_singleton_self p
  | cons c cs =>
    rw [scan]
    split_ifs
    · exact List.mem_singleton_self p
    · exact List.mem_cons_self

namespace Traced

/-- Whatever lies behind the first `n + 1` cells, none of it is accessed, and the result is the
given one. -/
def Yields (n : ℕ) (x : List α → Traced β) (result : List α → β) : Prop :=
  ∀ behind, (x behind).Within n ∧ (x behind).result = some (result behind)

variable {n : ℕ}

theorem yields_pure (n : ℕ) (result : List α → β) :
    Yields n (fun behind => (pure (result behind) : Traced β)) result :=
  fun _ => ⟨within_pure n _, rfl⟩

/-- What follows is run with the result. -/
theorem Yields.bind {x : List α → Traced β} {result : List α → β} {g : List α → β → Traced γ}
    {result' : List α → γ} (hx : Yields n x result)
    (hg : Yields n (fun behind => g behind (result behind)) result') :
    Yields n (fun behind => x behind >>= g behind) result' := by
  intro behind
  obtain ⟨hwithin, hresult⟩ := hx behind
  obtain ⟨hwithin', hresult'⟩ := hg behind
  constructor
  · apply hwithin.bind
    intro b hb
    obtain rfl := Option.some.inj (hresult.symm.trans hb)
    exact hwithin'
  · rw [result_bind, hresult]
    exact hresult'

end Traced

/-! ### The front part of a region -/

/-- The front part of a region: `n + 1` cells, the last of which is the terminator. -/
structure Terminated (terminator : α) (n : ℕ) (own : List α) : Prop where
  length_eq : own.length = n + 1
  last_eq : own[n]? = some terminator

namespace Terminated

open Traced

variable {terminator : α} {n p : ℕ} {own : List α}

theorem append_singleton (terminator : α) (s : List α) :
    Terminated terminator s.length (s ++ [terminator]) where
  length_eq := by simp
  last_eq := by simp

/-- Further terminators keep the last one. -/
theorem set (h : Terminated terminator n own) (p : ℕ) :
    Terminated terminator n (own.set p terminator) where
  length_eq := by rw [List.length_set, h.length_eq]
  last_eq := by
    have hlen := h.length_eq
    rw [List.getElem?_set]
    split_ifs <;> first | rfl | exact h.last_eq | omega

theorem getElem?_append (h : Terminated terminator n own) (hp : p ≤ n) (behind : List α) :
    (own ++ behind)[p]? = own[p]? := by
  rw [List.getElem?_append_left (by rw [h.length_eq]; omega)]

theorem exists_getElem? (h : Terminated terminator n own) (hp : p ≤ n) : ∃ c, own[p]? = some c :=
  ⟨_, List.getElem?_eq_getElem (by rw [h.length_eq]; omega)⟩

theorem yields_read (h : Terminated terminator n own) (hp : p ≤ n) {c : α} (hc : own[p]? = some c) :
    Yields n (fun behind => Traced.read (own ++ behind) p) fun _ => c := by
  intro behind
  refine ⟨within_read hp, ?_⟩
  rw [result_read, h.getElem?_append hp, hc]

theorem yields_write (h : Terminated terminator n own) (hp : p ≤ n) (a : α) :
    Yields n (fun behind => Traced.write (own ++ behind) p a)
      fun behind => own.set p a ++ behind := by
  intro behind
  refine ⟨within_write hp, ?_⟩
  rw [result_write, List.set_append_left _ _ (by rw [h.length_eq]; omega)]

/-- A scan that the terminator stops finds a position in the front part. -/
theorem yields_scanFrom (h : Terminated terminator n own) (hp : p ≤ n) (stop : ℕ → α → Bool)
    (hstop : stop n terminator = true) :
    ∃ q, p ≤ q ∧ q ≤ n ∧ (∃ c, own[q]? = some c ∧ stop q c = true) ∧
      (∀ i c, p ≤ i → i < q → own[i]? = some c → stop i c = false) ∧
      Yields n (fun behind => scanFrom stop (own ++ behind) p) fun _ => q := by
  -- induction on the distance from the terminator
  obtain ⟨d, hd⟩ : ∃ d, p + d = n := ⟨n - p, by omega⟩
  induction d generalizing p with
  | zero =>
    obtain rfl : p = n := by omega
    refine ⟨p, le_rfl, le_rfl, ⟨terminator, h.last_eq, hstop⟩, by omega, fun behind => ?_⟩
    have hread := (h.getElem?_append hp behind).trans h.last_eq
    beta_reduce
    rw [scanFrom_eq hread, if_pos hstop]
    exact ⟨by simp [Within], rfl⟩
  | succ d ih =>
    obtain ⟨c, hc⟩ := h.exists_getElem? hp
    have hread : ∀ behind, (own ++ behind)[p]? = some c := fun behind =>
      (h.getElem?_append hp behind).trans hc
    by_cases hstopc : stop p c = true
    · refine ⟨p, le_rfl, hp, ⟨c, hc, hstopc⟩, by omega, fun behind => ?_⟩
      beta_reduce
      rw [scanFrom_eq (hread behind), if_pos hstopc]
      exact ⟨by simpa [Within] using hp, rfl⟩
    · obtain ⟨q, hpq, hqn, hend, hbefore, hyields⟩ := ih (p := p + 1) (by omega) (by omega)
      refine ⟨q, by omega, hqn, hend, fun i c' hi hiq hc' => ?_, fun behind => ?_⟩
      · -- the first cell, or one of those behind it
        rcases Nat.eq_or_lt_of_le hi with rfl | hlt
        · obtain rfl := Option.some.inj (hc.symm.trans hc')
          simpa using hstopc
        · exact hbefore i c' hlt hiq hc'
      · obtain ⟨hwithin, hresult⟩ := hyields behind
        beta_reduce
        rw [scanFrom_eq (hread behind), if_neg hstopc]
        refine ⟨fun i hi => ?_, hresult⟩
        rcases List.mem_cons.mp hi with rfl | hi
        · exact hp
        · exact hwithin i hi

end Terminated

/-! ### Characters of a string -/

/-- `strchr` for a character other than the terminator. -/
def strchr (mem : List UInt8) (p : ℕ) (c : UInt8) : Traced (Option ℕ) := do
  let q ← scanFrom (fun _ x => x = c ∨ x = 0) mem p
  let x ← Traced.read mem q
  return if x = c then some q else none

/-- `strchr` goes as far as the first such character, or the terminator. -/
theorem Terminated.yields_strchr {n p : ℕ} {own : List UInt8} (h : Terminated 0 n own) (hp : p ≤ n)
    (c : UInt8) :
    ∃ q, p ≤ q ∧ q ≤ n ∧ (own[q]? = some c ∨ own[q]? = some 0) ∧
      (∀ i, p ≤ i → i < q → own[i]? ≠ some c) ∧
      Traced.Yields n (fun behind => strchr (own ++ behind) p c)
        fun _ => if own[q]? = some c then some q else none := by
  obtain ⟨q, hpq, hqn, ⟨x, hx, hstop⟩, hbefore, hscan⟩ :=
    h.yields_scanFrom hp (fun _ x => x = c ∨ x = 0) (by simp)
  refine ⟨q, hpq, hqn, ?_, fun i hi hiq hic => ?_, ?_⟩
  · rw [hx]
    exact (of_decide_eq_true hstop).imp (congrArg some) (congrArg some)
  · simpa using hbefore i c hi hiq hic
  · simp only [hx, Option.some.injEq]
    exact hscan.bind ((h.yields_read hqn hx).bind (Traced.yields_pure n _))

/-! ### The rest of a string -/

section Rest

variable {s rest : List UInt8}

/-- Where the rest of a string begins, it has its first character, or the terminator. -/
theorem getElem?_of_suffix (h : rest <:+ s) (behind : List UInt8) :
    (s ++ 0 :: behind)[s.length - rest.length]? = some (rest.head?.getD 0) := by
  obtain ⟨pre, rfl⟩ := h
  rw [List.length_append, Nat.add_sub_cancel, List.append_assoc, List.getElem?_append_right le_rfl,
    Nat.sub_self]
  cases rest <;> rfl

theorem yields_read_of_suffix (h : rest <:+ s) :
    Traced.Yields s.length (fun behind => Traced.read (s ++ 0 :: behind) (s.length - rest.length))
      fun _ => rest.head?.getD 0 :=
  fun behind => ⟨Traced.within_read (Nat.sub_le _ _), getElem?_of_suffix h behind⟩

/-- A loop over characters of one kind, which the terminator is not of. -/
theorem yields_skipWhile (h : rest <:+ s) {test : UInt8 → Bool} (htest : test 0 = false) :
    Traced.Yields s.length
      (fun behind => scanFrom (fun _ c => ¬ test c) (s ++ 0 :: behind) (s.length - rest.length))
      fun _ => s.length - (rest.dropWhile test).length := by
  induction rest with
  | nil =>
    intro behind
    beta_reduce
    rw [scanFrom_eq (getElem?_of_suffix h behind), if_pos (by simpa using htest)]
    exact ⟨by simp [Traced.Within], rfl⟩
  | cons c rest ih =>
    have hle := h.length_le
    have htail := ih ((List.suffix_cons c rest).trans h)
    rw [List.length_cons] at hle
    intro behind
    beta_reduce
    rw [scanFrom_eq (getElem?_of_suffix h behind), List.head?_cons, Option.getD_some]
    cases hc : test c with
    | false =>
      rw [if_pos (by simp), List.dropWhile_cons_of_neg (by simp [hc])]
      exact ⟨by simp [Traced.Within], rfl⟩
    | true =>
      obtain ⟨hwithin, hresult⟩ := htail behind
      rw [if_neg (by simp), List.dropWhile_cons_of_pos hc, List.length_cons,
        show s.length - (rest.length + 1) + 1 = s.length - rest.length by omega]
      refine ⟨fun i hi => ?_, hresult⟩
      rcases List.mem_cons.mp hi with rfl | hi
      · omega
      · exact hwithin i hi

end Rest

end Lib
