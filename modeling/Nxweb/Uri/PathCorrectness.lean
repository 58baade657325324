import Nxweb.Uri.Path
import Nxweb.Lib.LexicalPath

/-!
# What the path normalisation guarantees

`nxweb_remove_dots_from_uri_path` writes a terminator only together with a segment that it
copies. If the last segment of the path is a name, the string it leaves behind consists of the
kept names and ends with that segment (`removeDotsFromUriPath_of_name`). The invariant of the
loop is `DotsView`: the region is the text of the kept names, a gap, and the unread rest; the
segments in front of the last one keep it (`removeDotsLoop_segments`).
-/

namespace Nxweb

open Lib

/-- A byte string that can stand between two separators. -/
structure IsSegment (s : List UInt8) : Prop where
  zero_notMem : 0 ∉ s
  slash_notMem : slash ∉ s

/-- A segment that is not skipped and does not go up. -/
structure IsName (s : List UInt8) : Prop extends IsSegment s where
  kind : segmentKind dot s = .name

/-- The text of names has no zeros. -/
theorem zero_notMem_rooted_append {ks : List (List UInt8)} {s : List UInt8}
    (hks : ∀ k ∈ ks, IsName k) (hs : 0 ∉ s) : 0 ∉ rooted slash ks ++ s := by
  simp only [rooted, List.mem_append, List.mem_cons, List.mem_flatMap, not_or, not_exists, not_and]
  exact ⟨⟨by decide, fun k hk => ⟨(hks k hk).zero_notMem, by decide, by simp⟩⟩, hs⟩

/-! ### The loop invariant -/

/-- The region as the loop sees it: the kept text `out` up to `dst`, a gap, and the bytes `rest`
from `src` on. -/
structure DotsView (f : DotsFrame) (out rest : List UInt8) : Prop where
  layout : ∃ gap, f.mem = out ++ gap ++ rest ∧ f.src = (out ++ gap).length
  dst_eq : f.dst = out.length

theorem DotsView.read {f : DotsFrame} {out rest : List UInt8} (h : DotsView f out rest) (i : ℕ) :
    f.mem[f.src + i]? = rest[i]? := by
  obtain ⟨gap, hmem, hsrc⟩ := h.layout
  rw [hmem, hsrc, List.getElem?_append_right (by omega)]
  congr 1
  omega

theorem DotsView.dst_le {f : DotsFrame} {out rest : List UInt8} (h : DotsView f out rest) :
    f.dst ≤ f.src := by
  obtain ⟨gap, -, hsrc⟩ := h.layout
  rw [h.dst_eq, hsrc, List.length_append]
  exact Nat.le_add_right _ _

theorem DotsView.src_add {f : DotsFrame} {out rest : List UInt8} (h : DotsView f out rest) :
    f.src + rest.length = f.mem.length := by
  obtain ⟨gap, hmem, hsrc⟩ := h.layout
  simp only [hmem, hsrc, List.length_append]

@[simp] theorem DotsFrame.length_copy (f : DotsFrame) (c : UInt8) :
    (f.copy c).mem.length = f.mem.length := List.length_set

theorem copyBytes_length {f f' : DotsFrame} {fuel : ℕ} (h : copyBytes fuel f = some f') :
    f'.mem.length = f.mem.length := by
  induction fuel generalizing f with
  | zero => cases h
  | succ fuel ih =>
    obtain ⟨c, -, h⟩ := Option.bind_eq_some_iff.mp h
    split_ifs at h
    · exact (ih h).trans (f.length_copy c)
    · obtain rfl := Option.some.inj h
      rfl

/-- The reading cursor passes some bytes. -/
theorem DotsView.skip {f : DotsFrame} {out xs rest : List UInt8} (h : DotsView f out (xs ++ rest)) :
    DotsView { f with src := f.src + xs.length } out rest := by
  obtain ⟨gap, hmem, hsrc⟩ := h.layout
  refine ⟨⟨gap ++ xs, ?_, ?_⟩, h.dst_eq⟩
  · simp [hmem]
  · simp [hsrc, Nat.add_assoc]

/-- A byte is copied down. -/
theorem DotsView.copy {f : DotsFrame} {out rest : List UInt8} {c : UInt8}
    (h : DotsView f out (c :: rest)) : DotsView (f.copy c) (out ++ [c]) rest := by
  obtain ⟨gap, hmem, hsrc⟩ := h.layout
  refine ⟨?_, by simp [DotsFrame.copy, h.dst_eq]⟩
  simp only [DotsFrame.copy, hmem, h.dst_eq, hsrc]
  cases gap with
  | nil => exact ⟨[], by simp⟩
  | cons g gap => exact ⟨gap ++ [c], by simp, by simp; omega⟩

/-- The loop that copies a segment stops at the byte behind it. -/
theorem DotsView.copyBytes {f : DotsFrame} {out s rest : List UInt8} {c : UInt8} {fuel : ℕ}
    (h : DotsView f out (s ++ c :: rest)) (hs : IsSegment s) (hc : c = 0 ∨ c = slash)
    (hfuel : s.length < fuel) :
    ∃ f', Nxweb.copyBytes fuel f = some f' ∧ DotsView f' (out ++ s) (c :: rest) := by
  induction fuel generalizing f out s with
  | zero => omega
  | succ fuel ih =>
    have hread := h.read 0
    cases s with
    | nil =>
      refine ⟨f, ?_, by simpa using h⟩
      rw [Nat.add_zero] at hread
      rcases hc with rfl | rfl <;> simp [Nxweb.copyBytes, hread]
    | cons x s =>
      have hx : x ≠ 0 ∧ x ≠ slash := by
        constructor
        · rintro rfl
          exact hs.zero_notMem (by simp)
        · rintro rfl
          exact hs.slash_notMem (by simp)
      have hs' : IsSegment s :=
        ⟨fun h0 => hs.zero_notMem (by simp [h0]), fun h0 => hs.slash_notMem (by simp [h0])⟩
      obtain ⟨f', hf', hview⟩ := ih (DotsView.copy h) hs' (by simpa using hfuel)
      refine ⟨f', ?_, by simpa using hview⟩
      rw [Nat.add_zero] at hread
      rw [Nxweb.copyBytes, hread]
      simpa [hx.1, hx.2] using hf'

/-- A segment is copied with the byte behind it; the terminator ends the loop. -/
theorem DotsView.copySegment {f : DotsFrame} {out s rest : List UInt8} {x c : UInt8}
    (h : DotsView f out (x :: s ++ c :: rest)) (hs : IsSegment (x :: s))
    (hc : c = 0 ∨ c = slash) :
    ∃ f', DotsView f' (out ++ (x :: s ++ [c])) rest ∧
      Nxweb.copySegment f x = some (if c = 0 then .ret 0 f'.mem else .next f') := by
  have hs' : IsSegment s :=
    ⟨fun h0 => hs.zero_notMem (by simp [h0]), fun h0 => hs.slash_notMem (by simp [h0])⟩
  obtain ⟨gap, hmem, -⟩ := h.layout
  obtain ⟨f', hf', hview⟩ := @DotsView.copyBytes _ _ s rest c f.mem.length (DotsView.copy h) hs' hc
    (by rw [hmem]; simp; omega)
  have hread := hview.read 0
  rw [Nat.add_zero] at hread
  refine ⟨f'.copy c, by simpa using hview.copy, ?_⟩
  simp [Nxweb.copySegment, hf', hread]

/-! ### One iteration per segment -/

/-- An iteration moves the cursors, returns, or copies a segment. -/
theorem removeDotsIter_cases {f : DotsFrame} {st : DotsStep} (h : removeDotsIter f = some st) :
    (∃ src dst, st = .next { f with src, dst }) ∨ (∃ code, st = .ret code f.mem) ∨
      ∃ c, (c ≠ 0 ∧ c ≠ slash) ∧ copySegment f c = some st := by
  obtain ⟨c, -, h⟩ := Option.bind_eq_some_iff.mp h
  by_cases hzero : c = 0
  · exact .inr (.inl ⟨0, by simpa [hzero] using h.symm⟩)
  by_cases hslash : c = slash
  · exact .inl ⟨f.src + 1, f.dst, by simpa [hslash] using h.symm⟩
  by_cases hdot : c = dot
  · simp only [hdot, dot_ne_zero, dot_ne_slash, if_false, if_true] at h
    obtain ⟨c₁, -, h⟩ := Option.bind_eq_some_iff.mp h
    by_cases hslash₁ : c₁ = slash
    · exact .inl ⟨f.src + 2, f.dst, by simpa [hslash₁] using h.symm⟩
    by_cases hzero₁ : c₁ = 0
    · exact .inl ⟨f.src + 1, f.dst, by simpa [hzero₁, slash_ne_zero.symm] using h.symm⟩
    by_cases hdot₁ : c₁ = dot
    · simp only [hdot₁, dot_ne_zero, dot_ne_slash, if_false, if_true] at h
      obtain ⟨c₂, -, h⟩ := Option.bind_eq_some_iff.mp h
      by_cases hend : c₂ = slash ∨ c₂ = 0
      · rw [if_pos hend] at h
        by_cases hroot : f.dst = 1
        · exact .inr (.inl ⟨-1, by simpa [hroot] using h.symm⟩)
        · rw [if_neg hroot] at h
          obtain ⟨dst, -, h⟩ := Option.bind_eq_some_iff.mp h
          exact .inl ⟨f.src + 3, dst, (Option.some.inj h).symm⟩
      · rw [if_neg hend] at h
        exact .inr (.inr ⟨dot, by simp, h⟩)
    · exact .inr (.inr ⟨dot, by simp, by simpa [hslash₁, hzero₁, hdot₁] using h⟩)
  · exact .inr (.inr ⟨c, ⟨hzero, hslash⟩, by simpa [hzero, hslash, hdot] using h⟩)

theorem copySegment_length {f f' : DotsFrame} {c : UInt8} (h : copySegment f c = some (.next f')) :
    f'.mem.length = f.mem.length := by
  obtain ⟨f₁, hcopy, h⟩ := Option.bind_eq_some_iff.mp h
  obtain ⟨c₁, -, h⟩ := Option.bind_eq_some_iff.mp h
  split_ifs at h
  · cases h
  · cases h
    rw [DotsFrame.length_copy, copyBytes_length hcopy, DotsFrame.length_copy]

/-- The length of the region does not change. -/
theorem removeDotsIter_length {f f' : DotsFrame} (h : removeDotsIter f = some (.next f')) :
    f'.mem.length = f.mem.length := by
  rcases removeDotsIter_cases h with ⟨src, dst, heq⟩ | ⟨code, heq⟩ | ⟨c, -, hcopy⟩
  · cases heq
    rfl
  · cases heq
  · exact copySegment_length hcopy

/-- An empty segment is skipped. -/
theorem removeDotsIter_empty {f : DotsFrame} {out rest : List UInt8}
    (h : DotsView f out ([] ++ slash :: rest)) :
    ∃ f', removeDotsIter f = some (.next f') ∧ DotsView f' out rest := by
  have h0 : f.mem[f.src]? = some slash := h.read 0
  refine ⟨{ f with src := f.src + 1 }, ?_,
    DotsView.skip (show DotsView f out ([slash] ++ rest) from h)⟩
  simp [removeDotsIter, h0]

/-- A single dot is skipped. -/
theorem removeDotsIter_dot {f : DotsFrame} {out rest : List UInt8}
    (h : DotsView f out ([dot] ++ slash :: rest)) :
    ∃ f', removeDotsIter f = some (.next f') ∧ DotsView f' out rest := by
  have h0 : f.mem[f.src]? = some dot := h.read 0
  have h1 : f.mem[f.src + 1]? = some slash := h.read 1
  refine ⟨{ f with src := f.src + 2 }, ?_,
    DotsView.skip (show DotsView f out ([dot, slash] ++ rest) from h)⟩
  simp [removeDotsIter, h0, h1]

/-- The loop that cuts a segment stops behind the separator in front of it. -/
theorem cutSegment_append {front s rest : List UInt8} (hs : slash ∉ s) :
    cutSegment (front ++ [slash] ++ s ++ rest) (front.length + 1 + s.length + 1) =
      some (front.length + 1) := by
  induction s using List.reverseRecOn generalizing rest with
  | nil =>
    have hread : (front ++ [slash] ++ [] ++ rest)[front.length]? = some slash := by simp
    simp only [List.length_nil, Nat.add_zero, cutSegment, hread]
    rfl
  | append_singleton s x ih =>
    have hx : x ≠ slash := fun h => hs (by simp [h])
    have hread : (front ++ [slash] ++ (s ++ [x]) ++ rest)[front.length + 1 + s.length]? =
        some x := by
      have hsplit : front ++ [slash] ++ (s ++ [x]) ++ rest =
          (front ++ [slash] ++ s) ++ x :: rest := by simp
      have hlen : (front ++ [slash] ++ s).length = front.length + 1 + s.length := by
        simp only [List.length_append, List.length_singleton]
      rw [hsplit, ← hlen, List.getElem?_append_right le_rfl, Nat.sub_self]
      rfl
    have hs' : slash ∉ s := fun h => hs (by simp [h])
    have hrec := @ih (x :: rest) hs'
    rw [List.length_append, List.length_singleton, ← Nat.add_assoc, cutSegment, hread]
    simpa [hx] using hrec

/-- Two dots are refused if no segment is kept. -/
theorem removeDotsIter_up_root {f : DotsFrame} {rest : List UInt8} {c : UInt8}
    (h : DotsView f (rooted slash []) ([dot, dot] ++ c :: rest)) (hc : c = 0 ∨ c = slash) :
    removeDotsIter f = some (.ret (-1) f.mem) := by
  have h0 : f.mem[f.src]? = some dot := h.read 0
  have h1 : f.mem[f.src + 1]? = some dot := h.read 1
  have h2 : f.mem[f.src + 2]? = some c := h.read 2
  have hdst : f.dst = 1 := h.dst_eq
  rcases hc with rfl | rfl <;> simp [removeDotsIter, h0, h1, h2, hdst]

/-- Two dots cut the last kept segment. The byte behind them is passed, also if it is the
terminator. -/
theorem removeDotsIter_up {f : DotsFrame} {ks : List (List UInt8)} {k rest : List UInt8}
    {c : UInt8} (h : DotsView f (rooted slash (ks ++ [k])) ([dot, dot] ++ c :: rest))
    (hk : slash ∉ k) (hc : c = 0 ∨ c = slash) :
    ∃ f', removeDotsIter f = some (.next f') ∧ DotsView f' (rooted slash ks) rest := by
  have h0 : f.mem[f.src]? = some dot := h.read 0
  have h1 : f.mem[f.src + 1]? = some dot := h.read 1
  have h2 : f.mem[f.src + 2]? = some c := h.read 2
  obtain ⟨gap, hmem, hsrc⟩ := h.layout
  obtain ⟨front, hfront⟩ := rooted_eq_append slash ks
  have hdst := h.dst_eq
  rw [rooted_append_singleton, hfront] at hmem hsrc hdst
  have hcut : cutSegment f.mem f.dst = some (front.length + 1) := by
    have hmem' : f.mem = front ++ [slash] ++ k ++
        ([slash] ++ gap ++ ([dot, dot] ++ c :: rest)) := by simp [hmem]
    have hdst' : f.dst = front.length + 1 + k.length + 1 := by
      simp only [hdst, List.length_append, List.length_singleton]
      omega
    rw [hmem', hdst']
    exact cutSegment_append hk
  have hne : f.dst ≠ 1 := by
    rw [hdst]
    simp
    omega
  refine ⟨{ f with src := f.src + 3, dst := front.length + 1 }, ?_, ?_⟩
  · rcases hc with rfl | rfl <;> simp [removeDotsIter, h0, h1, h2, hne, hcut]
  · refine ⟨⟨k ++ [slash] ++ gap ++ [dot, dot, c], ?_, ?_⟩, ?_⟩
    · simp [hmem, hfront]
    · simp only [hsrc, hfront, List.length_append, List.length_cons, List.length_nil]
      omega
    · simp [hfront]

/-- A name is kept, with the byte behind it. -/
theorem removeDotsIter_name {f : DotsFrame} {out s rest : List UInt8} {c : UInt8}
    (h : DotsView f out (s ++ c :: rest)) (hs : IsName s) (hc : c = 0 ∨ c = slash) :
    ∃ f', DotsView f' (out ++ (s ++ [c])) rest ∧
      removeDotsIter f = some (if c = 0 then .ret 0 f'.mem else .next f') := by
  have hkind := hs.kind
  -- the first byte is no separator, and dots are followed by something else
  have hiter : ∀ x t, s = x :: t → removeDotsIter f = Nxweb.copySegment f x := by
    rintro x t rfl
    have hmem : ∀ y ∈ x :: t, y ≠ 0 ∧ y ≠ slash := fun y hy =>
      ⟨fun h0 => hs.zero_notMem (h0 ▸ hy), fun h0 => hs.slash_notMem (h0 ▸ hy)⟩
    have h0 : f.mem[f.src]? = some x := h.read 0
    obtain ⟨hx0, hx1⟩ := hmem x (by simp)
    by_cases hx : x = dot
    · cases t with
      | nil => simp [segmentKind, hx] at hkind
      | cons y u =>
        have h1 : f.mem[f.src + 1]? = some y := h.read 1
        obtain ⟨hy0, hy1⟩ := hmem y (by simp)
        by_cases hy : y = dot
        · cases u with
          | nil => simp [segmentKind, hx, hy] at hkind
          | cons z w =>
            have h2 : f.mem[f.src + 2]? = some z := h.read 2
            obtain ⟨hz0, hz1⟩ := hmem z (by simp)
            simp [removeDotsIter, h0, h1, h2, hx0, hx1, hy0, hy1, hz0, hz1]
        · simp [removeDotsIter, h0, h1, hx0, hx1, hy0, hy1, hy]
    · simp [removeDotsIter, h0, hx0, hx1, hx]
  cases s with
  | nil => simp [segmentKind] at hkind
  | cons x t =>
    rw [hiter x t rfl]
    exact h.copySegment hs.toIsSegment hc

/-- An iteration reads a segment that is not the last one. -/
theorem removeDotsIter_segment {f : DotsFrame} {ks : List (List UInt8)} {t rest : List UInt8}
    (h : DotsView f (rooted slash ks) (t ++ slash :: rest)) (hks : ∀ k ∈ ks, IsName k)
    (ht : IsSegment t) :
    match resolve dot ks [t] with
    | none => removeDotsIter f = some (.ret (-1) f.mem)
    | some ks' => ∃ f', removeDotsIter f = some (.next f') ∧
        DotsView f' (rooted slash ks') rest := by
  rw [resolve]
  cases hkind : segmentKind dot t with
  | here =>
    rcases segmentKind_eq_here_iff.mp hkind with rfl | rfl
    · exact removeDotsIter_empty h
    · exact removeDotsIter_dot h
  | up =>
    obtain rfl := segmentKind_eq_up_iff.mp hkind
    rcases List.eq_nil_or_concat ks with rfl | ⟨ks', k, rfl⟩
    · exact removeDotsIter_up_root h (.inr rfl)
    · simp only [List.concat_eq_append] at h hks ⊢
      rw [if_neg (by simp), List.dropLast_concat]
      exact removeDotsIter_up h (hks k (by simp)).slash_notMem (.inr rfl)
  | name =>
    obtain ⟨f', hview, hiter⟩ := removeDotsIter_name h { ht with kind := hkind } (.inr rfl)
    rw [← rooted_append_singleton] at hview
    exact ⟨f', by simpa using hiter, hview⟩

/-! ### The whole function -/

/-- Iterations none of which returns. -/
inductive DotsSteps : ℕ → DotsFrame → DotsFrame → Prop
  | refl (f : DotsFrame) : DotsSteps 0 f f
  | step {n : ℕ} {f f₁ f' : DotsFrame} (hiter : removeDotsIter f = some (.next f₁))
      (hsteps : DotsSteps n f₁ f') : DotsSteps (n + 1) f f'

theorem DotsSteps.loop {n : ℕ} {f f' : DotsFrame} (h : DotsSteps n f f') (fuel : ℕ) :
    removeDotsLoop (n + fuel) f = removeDotsLoop fuel f' := by
  induction h with
  | refl f => rw [Nat.zero_add]
  | step hiter _ ih =>
    rw [Nat.add_right_comm, removeDotsLoop, hiter]
    exact ih

theorem DotsSteps.length {n : ℕ} {f f' : DotsFrame} (h : DotsSteps n f f') :
    f'.mem.length = f.mem.length := by
  induction h with
  | refl f => rfl
  | step hiter _ ih => exact ih.trans (removeDotsIter_length hiter)

/-- The segments in front of the last one are read one after another, and the path is refused
if one of them goes up from the root. -/
theorem removeDotsLoop_segments {f : DotsFrame} {ks ss : List (List UInt8)} {rest : List UInt8}
    (h : DotsView f (rooted slash ks) (ss.flatMap (· ++ [slash]) ++ rest))
    (hks : ∀ k ∈ ks, IsName k) (hss : ∀ t ∈ ss, IsSegment t) :
    match resolve dot ks ss with
    | none => ∃ n f' mem, n < ss.length ∧ DotsSteps n f f' ∧
        removeDotsIter f' = some (.ret (-1) mem)
    | some ks' => ∃ f', DotsSteps ss.length f f' ∧ DotsView f' (rooted slash ks') rest ∧
        ∀ k ∈ ks', IsName k := by
  induction ss generalizing f ks with
  | nil => exact ⟨f, .refl f, h, hks⟩
  | cons t ss ih =>
    have h' : DotsView f (rooted slash ks)
        (t ++ slash :: (ss.flatMap (· ++ [slash]) ++ rest)) := by simpa using h
    have ht : IsSegment t := hss t (by simp)
    have hiter := removeDotsIter_segment h' hks ht
    rw [← List.singleton_append, resolve_append]
    cases hres : resolve dot ks [t] with
    | none =>
      rw [hres] at hiter
      exact ⟨0, f, f.mem, by simp, .refl f, hiter⟩
    | some ks₁ =>
      rw [hres] at hiter
      obtain ⟨f₁, hiter, hview⟩ := hiter
      have hks₁ : ∀ k ∈ ks₁, IsName k := resolve_forall hres hks fun u hu hkind =>
        { List.mem_singleton.mp hu ▸ ht with kind := hkind }
      have hrest := ih hview hks₁ fun u hu => hss u (by simp [hu])
      rw [Option.bind_some]
      cases hres' : resolve dot ks₁ ss with
      | none =>
        rw [hres'] at hrest
        obtain ⟨n, f', mem, hn, hsteps, hret⟩ := hrest
        exact ⟨n + 1, f', mem, by simpa using hn, .step hiter hsteps, hret⟩
      | some ks' =>
        rw [hres'] at hrest
        obtain ⟨f', hsteps, hview', hks'⟩ := hrest
        exact ⟨f', .step hiter hsteps, hview', hks'⟩

/-- From a position at the start of a segment, with a name as last segment, the loop refuses
the path or leaves the kept names and the last segment behind. -/
theorem removeDotsLoop_of_name {f : DotsFrame} {ks ss : List (List UInt8)} {s tail : List UInt8}
    {fuel : ℕ} (h : DotsView f (rooted slash ks) (ss.flatMap (· ++ [slash]) ++ s ++ 0 :: tail))
    (hks : ∀ k ∈ ks, IsName k) (hss : ∀ t ∈ ss, IsSegment t) (hs : IsName s)
    (hfuel : ss.length < fuel) :
    ∃ code mem, removeDotsLoop fuel f = some (code, mem) ∧
      (code = 0 → ∃ ks', (∀ k ∈ ks', IsName k) ∧ cstr mem = rooted slash ks' ++ s) := by
  rw [List.append_assoc] at h
  have hrun := removeDotsLoop_segments h hks hss
  cases hres : resolve dot ks ss with
  | none =>
    rw [hres] at hrun
    obtain ⟨n, f', mem, hn, hsteps, hret⟩ := hrun
    obtain ⟨m, rfl⟩ := Nat.exists_eq_add_of_lt (hn.trans hfuel)
    refine ⟨-1, mem, ?_, by simp⟩
    rw [Nat.add_assoc, hsteps.loop]
    simp [removeDotsLoop, hret]
  | some ks' =>
    rw [hres] at hrun
    obtain ⟨f', hsteps, hview, hks'⟩ := hrun
    obtain ⟨m, rfl⟩ := Nat.exists_eq_add_of_lt hfuel
    obtain ⟨f'', hview', hiter⟩ := removeDotsIter_name hview hs (.inl rfl)
    refine ⟨0, f''.mem, ?_, fun _ => ⟨ks', hks', ?_⟩⟩
    · rw [Nat.add_assoc, hsteps.loop]
      simp [removeDotsLoop, hiter]
    · obtain ⟨gap, hmem, -⟩ := hview'.layout
      have hout := zero_notMem_rooted_append hks' hs.zero_notMem
      rw [hmem, show rooted slash ks' ++ (s ++ [0]) ++ gap ++ tail =
        (rooted slash ks' ++ s) ++ 0 :: (gap ++ tail) by simp, cstr_append_zero hout]

/-- The loop starts with nothing but the first separator kept, in front of the segments of the
rest. -/
theorem dotsView_start {body tail : List UInt8} {ss : List (List UInt8)} {s : List UInt8}
    (h0 : 0 ∉ body) (hsplit : body.splitOn slash = ss ++ [s]) :
    DotsView ⟨slash :: body ++ 0 :: tail, 1, 1⟩ (rooted slash [])
        (ss.flatMap (· ++ [slash]) ++ (s ++ 0 :: tail)) ∧
      (∀ t ∈ ss ++ [s], IsSegment t) ∧ ss.length < (slash :: body ++ 0 :: tail).length := by
  have hbody := flatMap_append_of_splitOn hsplit
  refine ⟨⟨⟨[], by simp [rooted, ← List.append_assoc, ← hbody], rfl⟩, rfl⟩, fun t ht => ⟨?_, ?_⟩, ?_⟩
  · intro hz
    refine h0 ?_
    rw [hbody]
    rcases List.mem_append.mp ht with ht | ht
    · exact List.mem_append_left _ (List.mem_flatMap.mpr ⟨t, ht, by simp [hz]⟩)
    · exact List.mem_append_right _ (List.mem_singleton.mp ht ▸ hz)
  · exact sep_notMem_of_mem_splitOn (hsplit ▸ ht)
  · have hle := length_le_length_flatMap slash ss
    rw [hbody]
    simp only [List.cons_append, List.length_append, List.length_cons]
    omega

/-- A path whose last segment is a name is refused or replaced by a confined path. -/
theorem removeDotsFromUriPath_of_name {path tail : List UInt8} {ss : List (List UInt8)}
    {s : List UInt8} (h0 : 0 ∉ path) (hsplit : path.splitOn slash = ss ++ [s])
    (hs : segmentKind dot s = .name) :
    ∃ code mem, removeDotsFromUriPath (path ++ 0 :: tail) = some (code, mem) ∧
      (code = 0 → Confined slash dot (cstr mem)) := by
  cases path with
  | nil =>
    have hnil : s = [] := by
      have := congrArg List.getLast? hsplit
      simpa [List.splitOn_nil] using this.symm
    simp [hnil, segmentKind] at hs
  | cons c body =>
    have hc0 : c ≠ 0 := fun h => h0 (by simp [h])
    by_cases hc : c = slash
    · subst hc
      obtain ⟨ss', rfl, hbody⟩ : ∃ ss', ss = [] :: ss' ∧ body.splitOn slash = ss' ++ [s] := by
        rw [List.splitOn_cons_eq_if_modifyHead] at hsplit
        simp only [beq_self_eq_true, if_true] at hsplit
        cases ss with
        | nil =>
          have := List.splitOn_ne_nil slash body
          simp_all
        | cons t ss =>
          simp only [List.cons_append, List.cons.injEq] at hsplit
          exact ⟨ss, by rw [hsplit.1], hsplit.2⟩
      obtain ⟨hview, hseg, hfuel⟩ :=
        @dotsView_start body tail _ _ (fun h => h0 (List.mem_cons_of_mem _ h)) hbody
      have hname : IsName s := { hseg s (by simp) with kind := hs }
      rw [← List.append_assoc] at hview
      obtain ⟨code, mem, hloop, hres⟩ := removeDotsLoop_of_name hview (by simp)
        (fun t ht => hseg t (by simp [ht])) hname hfuel
      refine ⟨code, mem, by simpa [removeDotsFromUriPath] using hloop, fun hcode => ?_⟩
      obtain ⟨ks', hks', hmem⟩ := hres hcode
      rw [hmem]
      refine confined_of_names fun t ht => ?_
      rcases List.mem_append.mp ht with ht | ht
      · exact ⟨(hks' t ht).slash_notMem, (hks' t ht).kind⟩
      · rw [List.mem_singleton.mp ht]
        exact ⟨hname.slash_notMem, hs⟩
    · exact ⟨-1, c :: body ++ 0 :: tail, by simp [removeDotsFromUriPath, hc0, hc], by simp⟩

end Nxweb
