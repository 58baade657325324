import Nxweb.Uri.PathCorrectness
import Nxweb.Lib.Traced

/-!
# What the path normalisation accesses

The functions of `nxweb_remove_dots_from_uri_path` once more, with the positions they read and
write (`Access.removeDotsFromUriPath`). They compute the same
(`Access.result_removeDotsFromUriPath`). The terminator is the last position they access, unless
the path ends in `..` and is not refused (`Access.within_iff`): `src` is then moved by three as for
`../`, over the terminator, and the loop goes on reading behind it.
-/

namespace Nxweb

open Lib

namespace Access

/-- `*dst++=*src++` where `*src` is `c`. -/
def copy (f : DotsFrame) (c : UInt8) : Traced DotsFrame := do
  let mem ← Traced.write f.mem f.dst c
  return { mem, src := f.src + 1, dst := f.dst + 1 }

/-- `while (*src && *src!='/') *dst++=*src++;`. -/
def copyBytes : ℕ → DotsFrame → Traced DotsFrame
  | 0, _ => .fail
  | fuel + 1, f => do
    let c ← Traced.read f.mem f.src
    if c ≠ 0 ∧ c ≠ slash then copyBytes fuel (← copy f c) else return f

/-- `while ((--dst)[-1] != '/');`. -/
def cutSegment (mem : List UInt8) : ℕ → Traced ℕ
  | 0 => .fail
  | 1 => .fail
  | dst + 2 => do
    let c ← Traced.read mem dst
    if c = slash then return dst + 1 else cutSegment mem (dst + 1)

/-- The part of an iteration that copies a segment with the byte behind it. -/
def copySegment (f : DotsFrame) (c : UInt8) : Traced DotsStep := do
  let f ← copy f c
  let f ← copyBytes f.mem.length f
  let c ← Traced.read f.mem f.src
  let f ← copy f c
  return if c = 0 then .ret 0 f.mem else .next f

/-- One iteration of `while (*src)`. -/
def removeDotsIter (f : DotsFrame) : Traced DotsStep := do
  let c ← Traced.read f.mem f.src
  if c = 0 then return .ret 0 f.mem
  if c = slash then return .next { f with src := f.src + 1 }
  if c = dot then
    let c1 ← Traced.read f.mem (f.src + 1)
    if c1 = slash then return .next { f with src := f.src + 2 }
    if c1 = 0 then return .next { f with src := f.src + 1 }
    if c1 = dot then
      let c2 ← Traced.read f.mem (f.src + 2)
      if c2 = slash ∨ c2 = 0 then
        if f.dst = 1 then return .ret (-1) f.mem
        let dst ← cutSegment f.mem f.dst
        return .next { f with src := f.src + 3, dst }
  copySegment f c

/-- The loop. -/
def removeDotsLoop : ℕ → DotsFrame → Traced (ℤ × List UInt8)
  | 0, _ => .fail
  | fuel + 1, f => do
    match ← removeDotsIter f with
    | .next f => removeDotsLoop fuel f
    | .ret code mem => return (code, mem)

/-- `nxweb_remove_dots_from_uri_path`. -/
def removeDotsFromUriPath (mem : List UInt8) : Traced (ℤ × List UInt8) := do
  let c ← Traced.read mem 0
  if c = 0 then return (0, mem)
  if c ≠ slash then return (-1, mem)
  removeDotsLoop mem.length { mem, src := 1, dst := 1 }

/-! ### The results are the same -/

@[simp] theorem result_copy (f : DotsFrame) (c : UInt8) : (copy f c).result = some (f.copy c) := rfl

@[simp] theorem result_copyBytes (fuel : ℕ) (f : DotsFrame) :
    (copyBytes fuel f).result = Nxweb.copyBytes fuel f := by
  induction fuel generalizing f with
  | zero => rfl
  | succ fuel ih => simp [copyBytes, Nxweb.copyBytes, ih]

@[simp] theorem result_cutSegment (mem : List UInt8) (dst : ℕ) :
    (cutSegment mem dst).result = Nxweb.cutSegment mem dst := by
  induction dst using Nxweb.cutSegment.induct with
  | case1 => rfl
  | case2 => rfl
  | case3 dst ih => simp [cutSegment, Nxweb.cutSegment, ih]

@[simp] theorem result_copySegment (f : DotsFrame) (c : UInt8) :
    (copySegment f c).result = Nxweb.copySegment f c := by
  simp [copySegment, Nxweb.copySegment]

@[simp] theorem result_removeDotsIter (f : DotsFrame) :
    (removeDotsIter f).result = Nxweb.removeDotsIter f := by
  simp [removeDotsIter, Nxweb.removeDotsIter]

@[simp] theorem result_removeDotsLoop (fuel : ℕ) (f : DotsFrame) :
    (removeDotsLoop fuel f).result = Nxweb.removeDotsLoop fuel f := by
  induction fuel generalizing f with
  | zero => rfl
  | succ fuel ih =>
    simp only [removeDotsLoop, Nxweb.removeDotsLoop, Traced.result_bind, result_removeDotsIter]
    cases Nxweb.removeDotsIter f with
    | none => rfl
    | some st =>
      cases st with
      | next f' => exact ih f'
      | ret code mem => rfl

/-- The function computes what it computes without the record. -/
theorem result_removeDotsFromUriPath (mem : List UInt8) :
    (removeDotsFromUriPath mem).result = Nxweb.removeDotsFromUriPath mem := by
  simp [removeDotsFromUriPath, Nxweb.removeDotsFromUriPath]

/-! ### Positions up to the end of a segment -/

section Bounds

variable {f : DotsFrame} {out s rest : List UInt8} {c : UInt8} {n : ℕ}

theorem copy_within (h : f.dst ≤ n) (c : UInt8) : (copy f c).Within n :=
  (Traced.within_write h).bind fun _ _ => Traced.within_pure n _

theorem copyBytes_within {fuel : ℕ} (h : DotsView f out (s ++ c :: rest)) (hc : c = 0 ∨ c = slash)
    (hn : f.src + s.length ≤ n) : (copyBytes fuel f).Within n := by
  induction fuel generalizing f out s with
  | zero => exact Traced.within_fail n
  | succ fuel ih =>
    have hdst := h.dst_le
    refine (Traced.within_read (by omega)).bind fun x hx => Traced.Within.ite (fun hseg => ?_)
      fun _ => Traced.within_pure n _
    refine (copy_within (by omega) x).bind fun f' hf' => ?_
    obtain rfl := Option.some.inj hf'
    cases s with
    | nil =>
      -- the loop does not copy the byte behind the segment
      have hread : f.mem[f.src]? = some c := h.read 0
      obtain rfl := Option.some.inj (hread.symm.trans hx)
      exact absurd hc (by simp [hseg])
    | cons y s =>
      have hread : f.mem[f.src]? = some y := h.read 0
      obtain rfl := Option.some.inj (hread.symm.trans hx)
      refine ih (DotsView.copy h) ?_
      rw [List.length_cons] at hn
      show f.src + 1 + s.length ≤ n
      omega

/-- A segment is copied with the byte behind it. -/
theorem copySegment_within {x : UInt8} (h : DotsView f out (x :: s ++ c :: rest))
    (hs : IsSegment s) (hc : c = 0 ∨ c = slash) (hn : f.src + (s.length + 1) ≤ n) :
    (copySegment f x).Within n := by
  have hview : DotsView (f.copy x) (out ++ [x]) (s ++ c :: rest) := DotsView.copy h
  have hsrc : (f.copy x).src = f.src + 1 := rfl
  have hdst := h.dst_le
  refine (copy_within (by omega) x).bind fun f₁ hf₁ => ?_
  obtain rfl := Option.some.inj hf₁
  refine (copyBytes_within hview hc (by omega)).bind fun f₂ hf₂ => ?_
  rw [result_copyBytes] at hf₂
  obtain ⟨f₂', hf₂', hview₂⟩ := hview.copyBytes hs hc
    (show s.length < (f.copy x).mem.length by
      have hlen := hview.src_add
      rw [List.length_append, List.length_cons] at hlen
      omega)
  obtain rfl := Option.some.inj (hf₂.symm.trans hf₂')
  -- the reading cursor is behind the segment
  have hend : f₂.src = f.src + (s.length + 1) := by
    have hlen := hview.src_add
    have hlen₂ := hview₂.src_add
    have hkeep := copyBytes_length hf₂
    simp only [List.length_append, List.length_cons] at hlen hlen₂
    omega
  have hdst₂ := hview₂.dst_le
  refine (Traced.within_read (by omega)).bind fun y _ => ?_
  refine (copy_within (by omega) y).bind fun f₃ _ => ?_
  exact Traced.within_pure n _

theorem cutSegment_within {mem : List UInt8} {dst : ℕ} (h : dst ≤ n) :
    (cutSegment mem dst).Within n := by
  induction dst using Nxweb.cutSegment.induct with
  | case1 => exact Traced.within_fail n
  | case2 => exact Traced.within_fail n
  | case3 dst ih =>
    refine (Traced.within_read (by omega)).bind fun c _ => Traced.Within.ite
      (fun _ => Traced.within_pure n _) fun _ => ih (by omega)

/-- A byte that does not end a segment has another one behind it. -/
theorem lt_of_read {i : ℕ} {x : UInt8} (h : DotsView f out (s ++ c :: rest))
    (hc : c = 0 ∨ c = slash) (hi : i ≤ s.length) (hx : f.mem[f.src + i]? = some x)
    (hname : x ≠ 0 ∧ x ≠ slash) : i < s.length := by
  refine lt_of_le_of_ne hi fun heq => ?_
  rw [h.read, heq, List.getElem?_append_right le_rfl, Nat.sub_self] at hx
  obtain rfl := Option.some.inj hx
  exact absurd hc (by simp [hname])

/-- An iteration does not pass the byte behind its segment. -/
theorem removeDotsIter_within (h : DotsView f out (s ++ c :: rest)) (hs : IsSegment s)
    (hc : c = 0 ∨ c = slash) (hn : f.src + s.length ≤ n) : (removeDotsIter f).Within n := by
  have hdst := h.dst_le
  have hcopy : ∀ x, x ≠ 0 ∧ x ≠ slash → f.mem[f.src]? = some x → (copySegment f x).Within n := by
    intro x hname hx
    have hlt := lt_of_read h hc (Nat.zero_le _) hx hname
    cases s with
    | nil => cases hlt
    | cons y s =>
      obtain rfl := Option.some.inj (hx.symm.trans (h.read 0))
      exact copySegment_within h ⟨fun h0 => hs.zero_notMem (by simp [h0]),
        fun h0 => hs.slash_notMem (by simp [h0])⟩ hc hn
  refine (Traced.within_read (by omega)).bind fun x hx => ?_
  refine Traced.Within.ite (fun _ => Traced.within_pure n _) fun hzero => ?_
  refine Traced.Within.ite (fun _ => Traced.within_pure n _) fun hslash => ?_
  refine Traced.Within.ite (fun hdot => ?_) fun _ => hcopy x ⟨hzero, hslash⟩ hx
  have hlt := lt_of_read h hc (Nat.zero_le _) hx ⟨hzero, hslash⟩
  refine (Traced.within_read (by omega)).bind fun y hy => ?_
  refine Traced.Within.ite (fun _ => Traced.within_pure n _) fun hslash₁ => ?_
  refine Traced.Within.ite (fun _ => Traced.within_pure n _) fun hzero₁ => ?_
  refine Traced.Within.ite (fun hdot₁ => ?_) fun _ => hcopy x ⟨hzero, hslash⟩ hx
  have hlt₁ := lt_of_read h hc hlt hy ⟨hzero₁, hslash₁⟩
  refine (Traced.within_read (by omega)).bind fun z hz => ?_
  refine Traced.Within.ite (fun _ => ?_) fun _ => hcopy x ⟨hzero, hslash⟩ hx
  refine Traced.Within.ite (fun _ => Traced.within_pure n _) fun _ => ?_
  exact (cutSegment_within (by omega)).bind fun _ _ => Traced.within_pure n _

end Bounds

/-! ### The whole function -/

/-- What a loop accesses is what its first iteration does, and the rest of the loop. -/
theorem accessed_removeDotsLoop {fuel : ℕ} {f f₁ : DotsFrame}
    (h : Nxweb.removeDotsIter f = some (.next f₁)) :
    (removeDotsLoop (fuel + 1) f).accessed =
      (removeDotsIter f).accessed ++ (removeDotsLoop fuel f₁).accessed :=
  Traced.accessed_bind_of_some ((result_removeDotsIter f).trans h) _

theorem removeDotsLoop_within_of_ret {fuel n : ℕ} {f : DotsFrame} {code : ℤ} {mem : List UInt8}
    (h : Nxweb.removeDotsIter f = some (.ret code mem)) (hn : (removeDotsIter f).Within n) :
    (removeDotsLoop fuel f).Within n := by
  cases fuel with
  | zero => exact Traced.within_fail n
  | succ fuel =>
    refine hn.bind fun st hst => ?_
    obtain rfl := Option.some.inj (((result_removeDotsIter f).symm.trans hst).symm.trans h)
    exact Traced.within_pure n _

/-- The segments in front of the last one are read without passing it. -/
theorem removeDotsLoop_segments {f : DotsFrame} {ks ss : List (List UInt8)} {rest : List UInt8}
    {n : ℕ} (h : DotsView f (rooted slash ks) (ss.flatMap (· ++ [slash]) ++ rest))
    (hks : ∀ k ∈ ks, IsName k) (hss : ∀ t ∈ ss, IsSegment t)
    (hn : f.src + (ss.flatMap (· ++ [slash])).length ≤ n + 1) :
    match resolve dot ks ss with
    | none => ∀ fuel, (removeDotsLoop fuel f).Within n
    | some ks' => ∃ f' front, DotsView f' (rooted slash ks') rest ∧ (∀ k ∈ ks', IsName k) ∧
        f'.mem.length = f.mem.length ∧ (∀ i ∈ front, i ≤ n) ∧
        ∀ fuel, (removeDotsLoop (ss.length + fuel) f).accessed =
          front ++ (removeDotsLoop fuel f').accessed := by
  induction ss generalizing f ks with
  | nil => exact ⟨f, [], h, hks, rfl, by simp, fun fuel => by simp⟩
  | cons t ss ih =>
    have h' : DotsView f (rooted slash ks)
        (t ++ slash :: (ss.flatMap (· ++ [slash]) ++ rest)) := by simpa using h
    have ht : IsSegment t := hss t (by simp)
    rw [List.flatMap_cons, List.length_append, List.length_append, List.length_singleton] at hn
    have hwithin := removeDotsIter_within h' ht (.inr rfl) (show f.src + t.length ≤ n by omega)
    have hiter := removeDotsIter_segment h' hks ht
    rw [← List.singleton_append, resolve_append]
    cases hres : resolve dot ks [t] with
    | none =>
      rw [hres] at hiter
      exact fun fuel => removeDotsLoop_within_of_ret hiter hwithin
    | some ks₁ =>
      rw [hres] at hiter
      obtain ⟨f₁, hiter, hview⟩ := hiter
      have hks₁ : ∀ k ∈ ks₁, IsName k := resolve_forall hres hks fun u hu hkind =>
        { List.mem_singleton.mp hu ▸ ht with kind := hkind }
      have hlen := removeDotsIter_length hiter
      have hsrc : f₁.src = f.src + (t.length + 1) := by
        have hend := h'.src_add
        have hend₁ := hview.src_add
        rw [List.length_append, List.length_cons] at hend
        omega
      have hrest := ih hview hks₁ (fun u hu => hss u (by simp [hu])) (by omega)
      rw [Option.bind_some]
      cases hres' : resolve dot ks₁ ss with
      | none =>
        rw [hres'] at hrest
        intro fuel
        cases fuel with
        | zero => exact Traced.within_fail n
        | succ fuel =>
          intro i hi
          rw [accessed_removeDotsLoop hiter] at hi
          rcases List.mem_append.mp hi with hi | hi
          · exact hwithin i hi
          · exact hrest fuel i hi
      | some ks' =>
        rw [hres'] at hrest
        obtain ⟨f', front, hview', hks', hlen', hfront, hacc⟩ := hrest
        refine ⟨f', (removeDotsIter f).accessed ++ front, hview', hks', hlen'.trans hlen,
          fun i hi => ?_, fun fuel => ?_⟩
        · rcases List.mem_append.mp hi with hi | hi
          · exact hwithin i hi
          · exact hfront i hi
        · show (removeDotsLoop (ss.length + 1 + fuel) f).accessed = _
          rw [Nat.add_right_comm, accessed_removeDotsLoop hiter, hacc, List.append_assoc]

/-- At the terminator the loop ends. -/
theorem removeDotsLoop_within_of_end {f : DotsFrame} {out tail : List UInt8} {n : ℕ}
    (h : DotsView f out (0 :: tail)) (hn : f.src ≤ n) (fuel : ℕ) :
    (removeDotsLoop fuel f).Within n := by
  have hzero : f.mem[f.src]? = some 0 := h.read 0
  have hret : Nxweb.removeDotsIter f = some (.ret 0 f.mem) := by
    simp [Nxweb.removeDotsIter, hzero]
  exact removeDotsLoop_within_of_ret hret
    (removeDotsIter_within (s := []) h ⟨by simp, by simp⟩ (.inl rfl) hn)

/-- Every iteration reads where the reading cursor is. -/
theorem src_mem_accessed (fuel : ℕ) (f : DotsFrame) :
    f.src ∈ (removeDotsLoop (fuel + 1) f).accessed :=
  Traced.mem_accessed_bind (Traced.mem_accessed_bind (by simp [Traced.read]) _) _

end Access

/-- The path ends in `..` and is not refused. -/
def EndsInUp (path : List UInt8) : Prop :=
  path.head? = some slash ∧ (path.tail.splitOn slash).getLast? = some [dot, dot] ∧
    resolve dot [] (path.tail.splitOn slash) ≠ none

instance (path : List UInt8) : Decidable (EndsInUp path) := inferInstanceAs (Decidable (_ ∧ _))

namespace Access

/-- From the last segment on, the terminator is passed only behind two dots that are not
refused. -/
theorem removeDotsLoop_last_within_iff {f : DotsFrame} {ks : List (List UInt8)}
    {s tail : List UInt8} {n : ℕ} (h : DotsView f (rooted slash ks) (s ++ 0 :: tail))
    (hks : ∀ k ∈ ks, IsName k) (hs : IsSegment s) (hn : f.src + s.length = n) (fuel : ℕ) :
    (removeDotsLoop (fuel + 2) f).Within n ↔ ¬ (s = [dot, dot] ∧ ks ≠ []) := by
  have hiter := removeDotsIter_within h hs (.inl rfl) hn.le
  cases hkind : segmentKind dot s with
  | name =>
    obtain ⟨f', -, hret⟩ := removeDotsIter_name h { hs with kind := hkind } (.inl rfl)
    refine iff_of_true (removeDotsLoop_within_of_ret hret hiter) ?_
    rintro ⟨rfl, -⟩
    simp [segmentKind] at hkind
  | here =>
    rcases segmentKind_eq_here_iff.mp hkind with rfl | rfl
    · exact iff_of_true (removeDotsLoop_within_of_end h hn.le _) (by simp)
    · refine iff_of_true ?_ (by simp)
      have h0 : f.mem[f.src]? = some dot := h.read 0
      have h1 : f.mem[f.src + 1]? = some 0 := h.read 1
      have hnext : Nxweb.removeDotsIter f = some (.next { f with src := f.src + 1 }) := by
        simp [Nxweb.removeDotsIter, h0, h1, slash_ne_zero.symm]
      have hend := removeDotsLoop_within_of_end
        (DotsView.skip (show DotsView f _ ([dot] ++ 0 :: tail) from h)) hn.le
      intro i hi
      rw [accessed_removeDotsLoop hnext] at hi
      rcases List.mem_append.mp hi with hi | hi
      · exact hiter i hi
      · exact hend _ i hi
  | up =>
    obtain rfl := segmentKind_eq_up_iff.mp hkind
    rcases List.eq_nil_or_concat ks with rfl | ⟨ks', k, rfl⟩
    · exact iff_of_true
        (removeDotsLoop_within_of_ret (removeDotsIter_up_root h (.inl rfl)) hiter) (by simp)
    · rw [List.concat_eq_append] at h hks ⊢
      obtain ⟨f₁, hnext, hview⟩ := removeDotsIter_up h (hks k (by simp)).slash_notMem (.inl rfl)
      refine iff_of_false (fun hwithin => ?_) (by simp)
      -- the next iteration reads behind the terminator
      have hread : f₁.src ∈ (removeDotsLoop (fuel + 2) f).accessed := by
        rw [accessed_removeDotsLoop hnext]
        exact List.mem_append_right _ (src_mem_accessed fuel f₁)
      have hle := hwithin _ hread
      have hend := h.src_add
      have hend₁ := hview.src_add
      rw [removeDotsIter_length hnext, ← hend] at hend₁
      simp only [List.length_append, List.length_cons, List.length_nil] at hn hend₁
      omega

/-- A path that starts with a separator is read by the loop. -/
theorem removeDotsFromUriPath_within_iff_loop (body tail : List UInt8) (n : ℕ) :
    (removeDotsFromUriPath (slash :: body ++ 0 :: tail)).Within n ↔
      (removeDotsLoop (slash :: body ++ 0 :: tail).length
        ⟨slash :: body ++ 0 :: tail, 1, 1⟩).Within n := by
  have hacc : (removeDotsFromUriPath (slash :: body ++ 0 :: tail)).accessed =
      0 :: (removeDotsLoop (slash :: body ++ 0 :: tail).length
        ⟨slash :: body ++ 0 :: tail, 1, 1⟩).accessed := by
    simp [removeDotsFromUriPath, Traced.accessed_bind_of_some, Traced.read]
  rw [Traced.Within, hacc, List.forall_mem_cons]
  exact and_iff_right (Nat.zero_le n)

/-- Otherwise only its first byte is read. -/
theorem removeDotsFromUriPath_within_of_ne {c : UInt8} (hc : c ≠ slash) (mem : List UInt8)
    (n : ℕ) : (removeDotsFromUriPath (c :: mem)).Within n := by
  have hacc : (removeDotsFromUriPath (c :: mem)).accessed = [0] := by
    by_cases hzero : c = 0 <;>
      simp [removeDotsFromUriPath, Traced.accessed_bind_of_some, Traced.read, hc, hzero]
  intro i hi
  rw [hacc, List.mem_singleton] at hi
  omega

/-- The terminator is the last position that is accessed, unless the path ends in `..` and is not
refused. -/
theorem within_iff {path : List UInt8} (h0 : 0 ∉ path) (tail : List UInt8) :
    (removeDotsFromUriPath (path ++ 0 :: tail)).Within path.length ↔ ¬ EndsInUp path := by
  cases path with
  | nil =>
    exact iff_of_true (removeDotsFromUriPath_within_of_ne slash_ne_zero.symm tail 0)
      (by simp [EndsInUp])
  | cons c body =>
    have hc0 : c ≠ 0 := fun h => h0 (by simp [h])
    by_cases hc : c = slash
    · subst hc
      have hbody0 : 0 ∉ body := fun h => h0 (List.mem_cons_of_mem _ h)
      obtain ⟨ss, s, hsplit⟩ : ∃ ss s, body.splitOn slash = ss ++ [s] :=
        ⟨_, _, (List.dropLast_append_getLast (List.splitOn_ne_nil slash body)).symm⟩
      obtain ⟨hview, hseg, -⟩ := @dotsView_start body tail _ _ hbody0 hsplit
      have hlen := length_le_length_flatMap slash ss
      have hpath : (slash :: body).length =
          1 + (ss.flatMap (· ++ [slash])).length + s.length := by
        rw [flatMap_append_of_splitOn hsplit]
        simp only [List.length_cons, List.length_append]
        omega
      have hends : EndsInUp (slash :: body) ↔
          s = [dot, dot] ∧ resolve dot [] (ss ++ [s]) ≠ none := by
        simp [EndsInUp, hsplit]
      rw [removeDotsFromUriPath_within_iff_loop, hends]
      have hrun := removeDotsLoop_segments (n := (slash :: body).length) hview (by simp)
        (fun t ht => hseg t (by simp [ht])) (by rw [hpath]; show 1 + _ ≤ _; omega)
      cases hres : resolve dot [] ss with
      | none =>
        rw [hres] at hrun
        exact iff_of_true (hrun _) (by simp [resolve_append, hres])
      | some ks =>
        rw [hres] at hrun
        obtain ⟨f, front, hview', hks, hlen', hfront, hacc⟩ := hrun
        have hfuel : ∃ m, (slash :: body ++ 0 :: tail).length = ss.length + (m + 2) := by
          refine ⟨(slash :: body ++ 0 :: tail).length - ss.length - 2, ?_⟩
          rw [List.length_append, hpath, List.length_cons]
          omega
        obtain ⟨m, hm⟩ := hfuel
        have hsrc : f.src + s.length = (slash :: body).length := by
          have hend := hview'.src_add
          rw [hlen'] at hend
          simp only [List.length_append, List.length_cons] at hend ⊢
          omega
        have hlast := removeDotsLoop_last_within_iff hview' hks (hseg s (by simp)) hsrc m
        have hup : s = [dot, dot] ∧ ks ≠ [] ↔
            s = [dot, dot] ∧ resolve dot [] (ss ++ [s]) ≠ none := by
          refine and_congr_right ?_
          rintro rfl
          rw [resolve_append, hres, Option.bind_some, resolve]
          simp [segmentKind, resolve]
        rw [← hup, ← hlast, hm, Traced.Within, hacc, List.forall_mem_append]
        exact and_iff_right hfront
    · exact iff_of_true (removeDotsFromUriPath_within_of_ne hc _ _) (by simp [EndsInUp, hc])

theorem within_iff_name :
    (removeDotsFromUriPath (bytes "/a/../b" ++ [0])).Within (bytes "/a/../b").length ↔
      ¬ EndsInUp (bytes "/a/../b") :=
  within_iff (by decide) []

/-- In `/a/..` the terminator is passed. -/
theorem not_within_up : ¬ (removeDotsFromUriPath (bytes "/a/.." ++ [0])).Within
    (bytes "/a/..").length := by
  decide

end Access

end Nxweb
