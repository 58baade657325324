import Nxweb.Uri.PathCorrectness

/-!
# When the path normalisation leaves the normalised path

The names that are kept, joined by separators, are what a path comes down to (`normalPath`).
`nxweb_remove_dots_from_uri_path` refuses exactly the paths that go up from the root, as long as
it stays in its string. What it leaves behind for the others is the normalised path only if the
terminator was copied with a last name, or if nothing had to be left out
(`normalisedExactly_iff`): the function writes a terminator nowhere else, so that for a path that
ends in a separator, in `.` or in `..` the old bytes behind the kept names stay part of the string.

No iteration that goes on makes a zero, and the terminator that is copied stands behind a byte of
a name (`removeDotsIter_zeros`). A normalised path that ends in a separator has its terminator
behind that separator, so it has to have been there from the start.
-/

namespace Nxweb

open Lib

/-! ### The normalised path -/

/-- The kept names joined by separators, with a separator at the end if the last segment was not
a name. -/
def normalPath (segs ks : List (List UInt8)) : List UInt8 :=
  slash :: [slash].intercalate ks ++
    if ks = [] ∨ segs.getLast?.map (segmentKind dot) = some .name then [] else [slash]

/-- The path `/body` is normalised: it is refused exactly if some segment goes up and no name is
kept, and is replaced by the normalised path otherwise. Behind it there may be anything. -/
def NormalisedExactly (body tail : List UInt8) : Prop :=
  let segs := body.splitOn slash
  match resolve dot [] segs with
  | none => ∃ mem, removeDotsFromUriPath (slash :: body ++ 0 :: tail) = some (-1, mem)
  | some ks => (∀ k ∈ ks, segmentKind dot k = .name) ∧
      ∃ mem, removeDotsFromUriPath (slash :: body ++ 0 :: tail) = some (0, mem) ∧
        normalPath segs ks ++ [0] <+: mem

/-- The path is refused, or its last segment is a name, or is empty and all others are names. -/
def EndsInPlace (segs : List (List UInt8)) : Prop :=
  resolve dot [] segs = none ∨ segs.getLast?.map (segmentKind dot) = some .name ∨
    segs.getLast? = some [] ∧ ∀ t ∈ segs.dropLast, segmentKind dot t = .name

instance (segs : List (List UInt8)) : Decidable (EndsInPlace segs) :=
  inferInstanceAs (Decidable (_ ∨ _))

/-- With a name at the end the path ends with it. -/
theorem normalPath_of_name {ss ks : List (List UInt8)} {s : List UInt8}
    (hs : segmentKind dot s = .name) :
    normalPath (ss ++ [s]) (ks ++ [s]) = rooted slash ks ++ s := by
  rw [normalPath, intercalate_append_singleton]
  simp [hs, rooted]

/-- Otherwise it ends with a separator. -/
theorem normalPath_of_not_name {ss ks : List (List UInt8)} {s : List UInt8}
    (hs : segmentKind dot s ≠ .name) : normalPath (ss ++ [s]) ks = rooted slash ks := by
  rcases List.eq_nil_or_concat ks with rfl | ⟨ks', k, rfl⟩
  · simp [normalPath, rooted]
  · rw [List.concat_eq_append, normalPath, intercalate_append_singleton, rooted_append_singleton]
    simp [hs, rooted]

/-! ### Where zeros come from -/

/-- A zero of `mem'` was there before, or it stands behind a byte that is no separator. -/
def ZerosFrom (mem mem' : List UInt8) : Prop :=
  ∀ i : ℕ, mem'[i]? = some 0 → mem[i]? = some 0 ∨ ∃ j, i = j + 1 ∧ mem'[j]? ≠ some slash

/-- What an iteration does to the zeros. -/
def DotsStep.KeepsZeros (mem : List UInt8) : DotsStep → Prop
  | .next f' => ∀ i : ℕ, f'.mem[i]? = some 0 → mem[i]? = some 0
  | .ret _ mem' => ZerosFrom mem mem'

/-- Copying a byte that is no zero makes no zero. -/
theorem DotsFrame.copy_zeros {f : DotsFrame} {c : UInt8} (hc : c ≠ 0) (i : ℕ)
    (h : (f.copy c).mem[i]? = some 0) : f.mem[i]? = some 0 := by
  rw [DotsFrame.copy, List.getElem?_set] at h
  split_ifs at h with hi hlt
  · exact absurd (Option.some.inj h) hc
  · exact h

/-- Behind the cursor there is a byte of a name. -/
def DotsFrame.InName (f : DotsFrame) : Prop := ∃ j, f.dst = j + 1 ∧ f.mem[j]? ≠ some slash

theorem DotsFrame.inName_copy (f : DotsFrame) {c : UInt8} (hc : c ≠ slash) :
    (f.copy c).InName := by
  refine ⟨f.dst, rfl, fun h => ?_⟩
  rw [DotsFrame.copy, List.getElem?_set_self'] at h
  cases hread : f.mem[f.dst]? with
  | none =>
    rw [hread] at h
    cases h
  | some x =>
    rw [hread] at h
    exact hc (Option.some.inj h)

/-- The loop that copies a segment makes no zero and stops behind a byte of the segment. -/
theorem copyBytes_zeros {f f' : DotsFrame} {fuel : ℕ} (h : copyBytes fuel f = some f')
    (hname : f.InName) :
    f'.InName ∧ ∀ i : ℕ, f'.mem[i]? = some 0 → f.mem[i]? = some 0 := by
  induction fuel generalizing f with
  | zero => cases h
  | succ fuel ih =>
    obtain ⟨c, -, h⟩ := Option.bind_eq_some_iff.mp h
    split_ifs at h with hc
    · obtain ⟨hname', hzeros⟩ := ih h (f.inName_copy hc.2)
      exact ⟨hname', fun i hi => DotsFrame.copy_zeros hc.1 i (hzeros i hi)⟩
    · obtain rfl := Option.some.inj h
      exact ⟨hname, fun _ hi => hi⟩

/-- A copied segment brings a zero only as its terminator, behind a byte of the segment. -/
theorem copySegment_zeros {f : DotsFrame} {c : UInt8} {st : DotsStep} (hc : c ≠ 0 ∧ c ≠ slash)
    (h : copySegment f c = some st) : st.KeepsZeros f.mem := by
  obtain ⟨f₁, hcopy, h⟩ := Option.bind_eq_some_iff.mp h
  obtain ⟨c₁, -, h⟩ := Option.bind_eq_some_iff.mp h
  obtain ⟨⟨j, hj, hslash⟩, hzeros⟩ := copyBytes_zeros hcopy (f.inName_copy hc.2)
  have hold : ∀ i : ℕ, f₁.mem[i]? = some 0 → f.mem[i]? = some 0 := fun i hi =>
    DotsFrame.copy_zeros hc.1 i (hzeros i hi)
  split_ifs at h with hend
  · obtain rfl := Option.some.inj h
    intro i hi
    rcases eq_or_ne f₁.dst i with rfl | hne
    · refine .inr ⟨j, hj, ?_⟩
      rwa [DotsFrame.copy, List.getElem?_set_ne (by omega)]
    · rw [DotsFrame.copy, List.getElem?_set_ne hne] at hi
      exact .inl (hold i hi)
  · obtain rfl := Option.some.inj h
    exact fun i hi => hold i (DotsFrame.copy_zeros hend i hi)

theorem removeDotsIter_zeros {f : DotsFrame} {st : DotsStep} (h : removeDotsIter f = some st) :
    st.KeepsZeros f.mem := by
  rcases removeDotsIter_cases h with ⟨src, dst, rfl⟩ | ⟨code, rfl⟩ | ⟨c, hc, hcopy⟩
  · exact fun _ hi => hi
  · exact fun _ hi => .inl hi
  · exact copySegment_zeros hc hcopy

/-- The loop makes no zero but the terminator of a last name. -/
theorem removeDotsLoop_zeros {fuel : ℕ} {f : DotsFrame} {code : ℤ} {mem : List UInt8}
    (h : removeDotsLoop fuel f = some (code, mem)) : ZerosFrom f.mem mem := by
  induction fuel generalizing f with
  | zero => cases h
  | succ fuel ih =>
    obtain ⟨st, hiter, h⟩ := Option.bind_eq_some_iff.mp h
    have hzeros := removeDotsIter_zeros hiter
    cases st with
    | next f₁ =>
      intro i hi
      rcases ih h i hi with hi | hi
      · exact .inl (hzeros i hi)
      · exact .inr hi
    | ret code' mem' =>
      obtain ⟨-, rfl⟩ := Prod.mk.inj (Option.some.inj h)
      exact hzeros

/-- The terminator of a normalised path that ends with a separator was there from the start. -/
theorem ZerosFrom.getElem?_of_rooted {mem mem' : List UInt8} {ks : List (List UInt8)}
    (h : ZerosFrom mem mem') (hpath : rooted slash ks ++ [0] <+: mem') :
    mem[(rooted slash ks).length]? = some 0 := by
  obtain ⟨front, hfront⟩ := rooted_eq_append slash ks
  obtain ⟨rest, rfl⟩ := hpath
  have hread : (rooted slash ks ++ [0] ++ rest)[(rooted slash ks).length]? = some 0 := by
    rw [List.append_assoc, List.getElem?_append_right le_rfl, Nat.sub_self]
    rfl
  rcases h _ hread with hzero | ⟨j, hj, hslash⟩
  · exact hzero
  · refine absurd ?_ hslash
    have hlen : j = front.length := by
      rw [hfront, List.length_append, List.length_singleton] at hj
      omega
    rw [hfront, hlen]
    simp

/-! ### The last segment -/

theorem removeDotsFromUriPath_eq_loop (body tail : List UInt8) :
    removeDotsFromUriPath (slash :: body ++ 0 :: tail) =
      removeDotsLoop (slash :: body ++ 0 :: tail).length ⟨slash :: body ++ 0 :: tail, 1, 1⟩ := by
  simp [removeDotsFromUriPath]

section Last

variable {body tail : List UInt8} {ss ks : List (List UInt8)} {s : List UInt8}

/-- A path that is refused before its last segment. -/
theorem refused_before_last (h0 : 0 ∉ body) (hsplit : body.splitOn slash = ss ++ [s])
    (hres : resolve dot [] ss = none) :
    ∃ mem, removeDotsFromUriPath (slash :: body ++ 0 :: tail) = some (-1, mem) := by
  obtain ⟨hview, hseg, hfuel⟩ := @dotsView_start body tail _ _ h0 hsplit
  have hrun := removeDotsLoop_segments hview (by simp) fun t ht => hseg t (by simp [ht])
  rw [hres] at hrun
  obtain ⟨n, f', mem, hn, hsteps, hret⟩ := hrun
  obtain ⟨m, hm⟩ := Nat.exists_eq_add_of_lt (hn.trans hfuel)
  refine ⟨mem, ?_⟩
  rw [removeDotsFromUriPath_eq_loop, hm, Nat.add_assoc, hsteps.loop]
  simp [removeDotsLoop, hret]

/-- The loop reaches the last segment with the kept names in front. -/
theorem reaches_last (h0 : 0 ∉ body) (hsplit : body.splitOn slash = ss ++ [s])
    (hres : resolve dot [] ss = some ks) :
    ∃ f m, removeDotsFromUriPath (slash :: body ++ 0 :: tail) = removeDotsLoop (m + 1) f ∧
      DotsView f (rooted slash ks) (s ++ 0 :: tail) ∧ (∀ k ∈ ks, IsName k) ∧ IsSegment s ∧
      f.mem.length = (slash :: body ++ 0 :: tail).length := by
  obtain ⟨hview, hseg, hfuel⟩ := @dotsView_start body tail _ _ h0 hsplit
  have hrun := removeDotsLoop_segments hview (by simp) fun t ht => hseg t (by simp [ht])
  rw [hres] at hrun
  obtain ⟨f, hsteps, hview', hks⟩ := hrun
  obtain ⟨m, hm⟩ := Nat.exists_eq_add_of_lt hfuel
  refine ⟨f, m, ?_, hview', hks, hseg s (by simp), hsteps.length⟩
  rw [removeDotsFromUriPath_eq_loop, hm, Nat.add_assoc, hsteps.loop]

/-- The normalised path cannot be shorter than the path, if it ends with a separator: there is
no terminator for it. -/
theorem not_normalisedExactly (h0 : 0 ∉ body) (hsplit : body.splitOn slash = ss ++ [s])
    (hs : segmentKind dot s ≠ .name) (hres : resolve dot [] (ss ++ [s]) = some ks)
    (hlen : (rooted slash ks).length < (slash :: body).length) :
    ¬ NormalisedExactly body tail := by
  intro h
  simp only [NormalisedExactly, hsplit, hres, normalPath_of_not_name hs] at h
  obtain ⟨-, mem, hrun, hpath⟩ := h
  rw [removeDotsFromUriPath_eq_loop] at hrun
  have hzero := (removeDotsLoop_zeros hrun).getElem?_of_rooted hpath
  rw [List.getElem?_append_left hlen] at hzero
  rcases List.mem_cons.mp (List.mem_of_getElem? hzero) with hz | hz
  · exact slash_ne_zero hz.symm
  · exact h0 hz

/-- A last name is copied with the terminator. -/
theorem normalisedExactly_of_name (h0 : 0 ∉ body) (hsplit : body.splitOn slash = ss ++ [s])
    (hres : resolve dot [] ss = some ks) (hs : segmentKind dot s = .name) :
    NormalisedExactly body tail := by
  obtain ⟨f, m, hrun, hview, hks, hseg, -⟩ := @reaches_last body tail _ _ _ h0 hsplit hres
  have hname : IsName s := { hseg with kind := hs }
  obtain ⟨f', hview', hiter⟩ := removeDotsIter_name hview hname (.inl rfl)
  have hkept : resolve dot [] (ss ++ [s]) = some (ks ++ [s]) := by
    rw [resolve_append, hres, Option.bind_some, resolve, hs]
    rfl
  simp only [NormalisedExactly, hsplit, hkept, normalPath_of_name hs]
  refine ⟨fun k hk => ?_, f'.mem, ?_, ?_⟩
  · rcases List.mem_append.mp hk with hk | hk
    · exact (hks k hk).kind
    · exact List.mem_singleton.mp hk ▸ hs
  · rw [hrun]
    simp [removeDotsLoop, hiter]
  · obtain ⟨gap, hmem, -⟩ := hview'.layout
    exact ⟨gap ++ tail, by rw [hmem]; simp⟩

/-- In front of an empty last segment the terminator is in place if nothing was left out. -/
theorem normalisedExactly_of_empty (h0 : 0 ∉ body) (hsplit : body.splitOn slash = ss ++ [[]])
    (hres : resolve dot [] ss = some ks)
    (hlen : (rooted slash ks).length = (slash :: body).length) : NormalisedExactly body tail := by
  obtain ⟨f, m, hrun, hview, hks, -, hmemlen⟩ := @reaches_last body tail _ _ _ h0 hsplit hres
  have hkept : resolve dot [] (ss ++ [[]]) = some ks := by
    rw [resolve_append, hres]
    rfl
  have hzero : f.mem[f.src]? = some 0 := hview.read 0
  obtain ⟨gap, hmem, -⟩ := hview.layout
  have hgap : gap = [] := by
    rw [hmem] at hmemlen
    simp only [List.length_append, List.length_cons] at hmemlen hlen
    exact List.eq_nil_of_length_eq_zero (by simp at hmemlen; omega)
  simp only [NormalisedExactly, hsplit, hkept,
    normalPath_of_not_name (show segmentKind dot [] ≠ .name by simp [segmentKind])]
  refine ⟨fun k hk => (hks k hk).kind, f.mem, ?_, tail, ?_⟩
  · rw [hrun]
    simp [removeDotsLoop, removeDotsIter, hzero]
  · rw [hmem, hgap]
    simp

end Last

/-- The path is normalised exactly if it is refused, or its last segment is a name, or is empty
and nothing had to be left out in front of it. -/
theorem normalisedExactly_iff {body : List UInt8} (h0 : 0 ∉ body) (tail : List UInt8) :
    NormalisedExactly body tail ↔ EndsInPlace (body.splitOn slash) := by
  obtain ⟨ss, s, hsplit⟩ : ∃ ss s, body.splitOn slash = ss ++ [s] :=
    ⟨_, _, (List.dropLast_append_getLast (List.splitOn_ne_nil slash body)).symm⟩
  have hpath : (slash :: body).length = 1 + (ss.flatMap (· ++ [slash])).length + s.length := by
    rw [flatMap_append_of_splitOn hsplit]
    simp only [List.length_cons, List.length_append]
    omega
  cases hres : resolve dot [] ss with
  | none =>
    have hnone : resolve dot [] (ss ++ [s]) = none := by
      rw [resolve_append, hres]
      rfl
    refine iff_of_true ?_ (.inl (hsplit ▸ hnone))
    simp only [NormalisedExactly, hsplit, hnone]
    exact refused_before_last h0 hsplit hres
  | some ks =>
    obtain ⟨hle, hall⟩ := @length_rooted_resolve _ _ slash _ _ _ _ hres
    have hone : (rooted slash ([] : List (List UInt8))).length = 1 := rfl
    rw [hone] at hle hall
    have hlast : resolve dot [] (ss ++ [s]) = resolve dot ks [s] := by
      rw [resolve_append, hres, Option.bind_some]
    cases hkind : segmentKind dot s with
    | name =>
      refine iff_of_true (normalisedExactly_of_name h0 hsplit hres hkind) (.inr (.inl ?_))
      rw [hsplit, List.getLast?_concat, Option.map_some, hkind]
    | up =>
      obtain rfl := segmentKind_eq_up_iff.mp hkind
      rcases List.eq_nil_or_concat ks with rfl | ⟨ks', k, rfl⟩
      · -- the last segment is refused
        have hnone : resolve dot [] (ss ++ [[dot, dot]]) = none := hlast
        refine iff_of_true ?_ (.inl (hsplit ▸ hnone))
        obtain ⟨f, m, hrun, hview, -⟩ := @reaches_last body tail _ _ _ h0 hsplit hres
        simp only [NormalisedExactly, hsplit, hnone, hrun]
        exact ⟨f.mem, by simp [removeDotsLoop, removeDotsIter_up_root hview (.inl rfl)]⟩
      · rw [List.concat_eq_append] at hle hlast
        have hkept : resolve dot [] (ss ++ [[dot, dot]]) = some ks' := by
          rw [hlast, resolve, hkind]
          simp [resolve]
        rw [rooted_append_singleton, List.length_append, List.length_append,
          List.length_singleton] at hle
        refine iff_of_false (not_normalisedExactly h0 hsplit (by simp [hkind]) hkept (by omega)) ?_
        rw [EndsInPlace, hsplit, hkept]
        simp [hkind]
    | here =>
      have hkept : resolve dot [] (ss ++ [s]) = some ks := by
        rw [hlast, resolve, hkind]
        rfl
      by_cases hclean : s = [] ∧ ∀ t ∈ ss, segmentKind dot t = .name
      · obtain ⟨rfl, hnames⟩ := hclean
        have hlen := hall.mpr hnames
        refine iff_of_true (normalisedExactly_of_empty h0 hsplit hres ?_) (.inr (.inr ?_))
        · rw [hpath, hlen]
          rfl
        · rw [hsplit]
          simpa using hnames
      · refine iff_of_false (not_normalisedExactly h0 hsplit (by simp [hkind]) hkept ?_) ?_
        · rcases segmentKind_eq_here_iff.mp hkind with rfl | rfl
          · have hne := fun heq => hclean ⟨rfl, hall.mp heq⟩
            rw [hpath]
            exact lt_of_le_of_ne hle hne
          · simp only [List.length_singleton] at hpath
            omega
        · rw [EndsInPlace, hsplit, hkept]
          simpa [hkind] using hclean

/-- A path from which a dot has to be left out in front of its last name is normalised. -/
theorem normalisedExactly_iff_name :
    NormalisedExactly (bytes "a/../b") [] ↔ EndsInPlace ((bytes "a/../b").splitOn slash) :=
  normalisedExactly_iff (by decide) []

/-- What is left behind for `/a/.` is the old path. -/
theorem not_normalisedExactly_dot : ¬ NormalisedExactly (bytes "a/.") [] := by
  have hres : resolve dot [] ((bytes "a/.").splitOn slash) = some [bytes "a"] := by decide
  have hrun : removeDotsFromUriPath (slash :: bytes "a/." ++ [0]) =
      some (0, bytes "/a/." ++ [0]) := by decide
  intro h
  simp only [NormalisedExactly, hres, hrun] at h
  obtain ⟨-, mem, hmem, hpath⟩ := h
  obtain ⟨-, rfl⟩ := Prod.mk.inj (Option.some.inj hmem)
  revert hpath
  decide

end Nxweb
