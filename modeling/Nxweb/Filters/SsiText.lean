import Nxweb.Filters.SsiDirective
import Nxweb.Lib.FirstOccurrence

/-!
# The text of server-side includes

Model of `parse_text` and `ssi_buffer_data_in_write` (`ssi_filter.c`). The bytes that are written
become the unfinished part of an arena. `parse_text` looks there for a directive. If it finds one
that is complete, it finishes the text up to and including it, appends both to the page, and is
called again; what it leaves is searched from its beginning after the next write.

The unfinished part is the `stream` of a `BufferRun`. The sizes are those of documents that are
shorter than `MAX_SSI_SIZE`, for which no conversion to `int` changes them.

## Main definitions

* `SsiBuffer.parseText`, `SsiBuffer.write`: the two functions;
* `SsiSpans`: the spans of a document, whose directives are the leftmost ones.

## Main results

* `ssiWrites_spans`: the spans do not depend on how the document is cut into writes.
-/

namespace Nxweb

open Lib

/-- `<!--#`. -/
def ssiOpen : List UInt8 := [60, 33, 45, 45, 35]

/-- `-->`. -/
def ssiClose : List UInt8 := [45, 45, 62]

/-! ### The model -/

/-- A span of the document. -/
inductive SsiSpan where
  /-- Text that is appended to the page. -/
  | literal (text : List UInt8)
  /-- A directive, and what it does. -/
  | directive (text : List UInt8) (effect : SsiEffect)
  deriving DecidableEq, Repr

/-- What the span was in the document. -/
def SsiSpan.source : SsiSpan → List UInt8
  | .literal text => text
  | .directive text _ => ssiOpen ++ text ++ ssiClose

/-- The span of a text, unless it is empty. -/
def literalSpan (text : List UInt8) : List SsiSpan := if text = [] then [] else [.literal text]

/-- `ssi_buffer`. -/
structure SsiBuffer where
  env : SsiEnv
  /-- The unfinished part of `nxb`. -/
  unfinished : List UInt8 := []
  dataSize : ℕ := 0
  overflow : Bool := false
  /-- What has been appended to `cs`. -/
  spans : List SsiSpan := []
  /-- `cs` is closed. -/
  closed : Bool := false
  deriving DecidableEq, Repr

/-- `MAX_SSI_SIZE`. -/
def maxSsiSize : ℕ := 20000000

/-- The search for `<!--#` from `p1` on. It is given up at a `<` with less than four bytes behind
it. -/
def SsiBuffer.findOpen : List UInt8 → Option ℕ
  | [] => none
  | c :: s =>
    if c = 60 then
      if s.length < 4 then none
      else if s.take 4 = [33, 45, 45, 35] then some 0
      else (findOpen s).map (· + 1)
    else (findOpen s).map (· + 1)

/-- The search for a `>` from `p3` on that has two hyphens in front of it, where the bytes in front
of `p3` are `b` and `a`. -/
def SsiBuffer.findClose (b a : UInt8) : List UInt8 → Option ℕ
  | [] => none
  | c :: s => if c = 62 ∧ a = 45 ∧ b = 45 then some 0 else (findClose a c s).map (· + 1)

/-- The variables after a directive. -/
def SsiEnv.after (env : SsiEnv) : SsiEffect → SsiEnv
  | .setVar varMap => { env with varMap }
  | _ => env

/-- `parse_text`: whether there was a directive; none if it was not taken apart in the memory that
there is. -/
def SsiBuffer.parseText (b : SsiBuffer) : Option (Bool × SsiBuffer) :=
  match findOpen b.unfinished with
  | none => some (false, b)
  | some p =>
    let p3 := b.unfinished.drop (p + 5)
    match findClose 45 35 p3 with
    | none => some (false, b)
    | some p2 =>
      -- `*(p2-2)='\0'`; for a syntax error, `<!--[ssi syntax error]-->` is shown
      (b.env.parseDirective (p3.set (p2 - 2) 0) (p2 - 2)).result.map fun (effect, mem) =>
        (true, { b with
          env := b.env.after effect
          unfinished := mem.drop (p2 + 1)
          spans := b.spans ++
            (literalSpan (b.unfinished.take p) ++ [.directive (p3.take (p2 - 2)) effect]) })

/-- `while (parse_text(ssib));`, at most as many times as given. -/
def SsiBuffer.parseLoop : ℕ → SsiBuffer → Option SsiBuffer
  | 0, _ => none
  | fuel + 1, b => do
    let (again, b) ← b.parseText
    if again then parseLoop fuel b else return b

/-- The stream is finished and `cs` is closed. -/
def SsiBuffer.finish (b : SsiBuffer) : SsiBuffer :=
  { b with unfinished := [], spans := b.spans ++ literalSpan b.unfinished, closed := true }

/-- What `ssi_buffer_data_in_write` does with the bytes; they are swallowed after an overflow. -/
def SsiBuffer.receive (b : SsiBuffer) (data : List UInt8) : Option SsiBuffer :=
  let wsize := min data.length (maxSsiSize - b.dataSize)
  if b.overflow = true ∨ wsize = 0 then some b
  else
    let b : SsiBuffer := { b with
      unfinished := b.unfinished ++ data.take wsize
      dataSize := b.dataSize + wsize }
    -- each directive takes some of the bytes
    (b.parseLoop (b.unfinished.length + 1)).map fun b =>
      { b with overflow := maxSsiSize ≤ b.dataSize }

/-- `ssi_buffer_data_in_write`, with the bytes that are in memory. -/
def SsiBuffer.write (b : SsiBuffer) (data : List UInt8) (eof : Bool) : Option SsiBuffer :=
  (b.receive data).map fun b => if eof then b.finish else b

/-- The writes of a document, the last with the end of the file. -/
def ssiWrites (env : SsiEnv) (ws : List (List UInt8)) (last : List UInt8) : Option SsiBuffer := do
  let b ← ws.foldlM (fun (b : SsiBuffer) data => b.write data false) { env }
  b.write last true

/-! ### The spans of a document -/

/-- The leftmost directive of a text: the first `<!--#` that there is, up to the first `-->` behind
it. -/
structure LeftmostDirective (u front directive behind : List UInt8) : Prop where
  text_eq : u = front ++ ssiOpen ++ directive ++ ssiClose ++ behind
  opens : FirstAt ssiOpen u front.length
  closes : FirstAt ssiClose (directive ++ ssiClose ++ behind) directive.length

/-- The spans of a document: its leftmost directive with the text in front of it, and those of what
is behind it. -/
inductive SsiSpans : List UInt8 → List SsiSpan → Prop
  | literal {u} (h : ∀ front directive behind, ¬ LeftmostDirective u front directive behind) :
      SsiSpans u (literalSpan u)
  | directive {u front directive behind effect spans}
      (h : LeftmostDirective u front directive behind) (rest : SsiSpans behind spans) :
      SsiSpans u (literalSpan front ++ .directive directive effect :: spans)

/-! ### The searches -/

namespace SsiBuffer

theorem findOpen_eq_some_iff {u : List UInt8} {p : ℕ} :
    findOpen u = some p ↔ FirstAt ssiOpen u p := by
  induction u generalizing p with
  | nil =>
    refine ⟨fun h => (nomatch h), fun h => ?_⟩
    have := h.occurs
    simp [ssiOpen] at this
  | cons c s ih =>
    have hocc : ssiOpen <+: c :: s ↔ c = 60 ∧ s.take 4 = [33, 45, 45, 35] := by
      rw [ssiOpen, List.cons_prefix_cons, List.prefix_iff_eq_take, eq_comm,
        eq_comm (a := [33, 45, 45, 35])]
      rfl
    have hsucc : ¬ ssiOpen <+: c :: s →
        ((findOpen s).map (· + 1) = some p ↔ FirstAt ssiOpen (c :: s) p) := by
      intro hnot
      cases p with
      | zero => simpa using fun h : FirstAt ssiOpen (c :: s) 0 => h.ne_zero hnot rfl
      | succ p => rw [FirstAt.cons_iff hnot, ← ih]; simp
    rw [findOpen]
    split_ifs with hc hshort hopen
    · -- too short for an occurrence here or further on
      refine ⟨fun h => (nomatch h), fun h => ?_⟩
      have hlen := h.occurs.length_le
      simp only [ssiOpen, List.length_drop, List.length_cons, List.length_nil] at hlen
      omega
    · have hfirst : FirstAt ssiOpen (c :: s) 0 := .zero (hocc.mpr ⟨hc, hopen⟩)
      exact ⟨fun h => Option.some.inj h ▸ hfirst, fun h => congrArg some (hfirst.unique h)⟩
    · exact hsucc fun h => hopen (hocc.mp h).2
    · exact hsucc fun h => hc (hocc.mp h).1

theorem findClose_eq_some_iff {s : List UInt8} {b a : UInt8} {i : ℕ} :
    findClose b a s = some i ↔ FirstAt ssiClose (b :: a :: s) i := by
  induction s generalizing b a i with
  | nil =>
    refine ⟨fun h => (nomatch h), fun h => ?_⟩
    have hlen := h.occurs.length_le
    simp only [ssiClose, List.length_drop, List.length_cons, List.length_nil] at hlen
    omega
  | cons c s ih =>
    have hocc : ssiClose <+: b :: a :: c :: s ↔ c = 62 ∧ a = 45 ∧ b = 45 := by
      simp only [ssiClose, List.cons_prefix_cons, List.nil_prefix, and_true]
      grind
    rw [findClose]
    split_ifs with hclose
    · have hfirst : FirstAt ssiClose (b :: a :: c :: s) 0 := .zero (hocc.mpr hclose)
      exact ⟨fun h => Option.some.inj h ▸ hfirst, fun h => congrArg some (hfirst.unique h)⟩
    · have hnot : ¬ ssiClose <+: b :: a :: c :: s := fun h => hclose (hocc.mp h)
      cases i with
      | zero => simpa using fun h : FirstAt ssiClose (b :: a :: c :: s) 0 => h.ne_zero hnot rfl
      | succ i => rw [FirstAt.cons_iff hnot, ← ih]; simp

/-- Behind the `#` of `<!--#` the two bytes in front do not count. -/
theorem findClose_hash {s : List UInt8} {p2 : ℕ} :
    findClose 45 35 s = some p2 ↔ ∃ n, p2 = n + 2 ∧ FirstAt ssiClose s n := by
  have hfirst : ¬ ssiClose <+: (45 : UInt8) :: 35 :: s := by simp [ssiClose]
  have hsecond : ¬ ssiClose <+: (35 : UInt8) :: s := by simp [ssiClose]
  rw [findClose_eq_some_iff]
  constructor
  · intro h
    match p2, h with
    | 0, h => exact absurd rfl (h.ne_zero hfirst)
    | 1, h => exact absurd rfl (((FirstAt.cons_iff hfirst).mp h).ne_zero hsecond)
    | n + 2, h => exact ⟨n, rfl, (FirstAt.cons_iff hsecond).mp ((FirstAt.cons_iff hfirst).mp h)⟩
  · rintro ⟨n, rfl, h⟩
    exact (FirstAt.cons_iff hfirst).mpr ((FirstAt.cons_iff hsecond).mpr h)

end SsiBuffer

/-! ### The leftmost directive -/

namespace LeftmostDirective

variable {u front front' directive directive' behind behind' : List UInt8}

/-- What the two searches find. -/
theorem of_search {p n : ℕ} (hopen : FirstAt ssiOpen u p)
    (hclose : FirstAt ssiClose (u.drop (p + 5)) n) :
    LeftmostDirective u (u.take p) ((u.drop (p + 5)).take n) ((u.drop (p + 5)).drop (n + 3)) where
  text_eq := by
    have hu := hopen.eq_append
    have hp3 := hclose.eq_append
    rw [show n + ssiClose.length = n + 3 from rfl] at hp3
    rw [show p + ssiOpen.length = p + 5 from rfl, hp3] at hu
    simpa only [List.append_assoc] using hu
  opens := by
    rwa [List.length_take_of_le hopen.le_length]
  closes := by
    have hp3 := hclose.eq_append
    rw [show n + ssiClose.length = n + 3 from rfl] at hp3
    rwa [← hp3, List.length_take_of_le hclose.le_length]

/-- The text between the marks and behind them. -/
theorem drop_eq (h : LeftmostDirective u front directive behind) :
    u.drop (front.length + 5) = directive ++ ssiClose ++ behind := by
  have hlen : front.length + 5 = (front ++ ssiOpen).length := by simp [ssiOpen]
  rw [h.text_eq, hlen, List.append_assoc, List.append_assoc, List.drop_left, List.append_assoc]

theorem take_eq (h : LeftmostDirective u front directive behind) :
    u.take front.length = front := by
  rw [h.text_eq]
  simp only [List.append_assoc, List.take_left]

theorem unique (h : LeftmostDirective u front directive behind)
    (h' : LeftmostDirective u front' directive' behind') :
    front = front' ∧ directive = directive' ∧ behind = behind' := by
  have hfront : front = front' := by
    rw [← h.take_eq, ← h'.take_eq, h.opens.unique h'.opens]
  subst hfront
  have hrest := h.drop_eq.symm.trans h'.drop_eq
  have hlen := (hrest ▸ h.closes).unique h'.closes
  rw [List.append_assoc, List.append_assoc] at hrest
  obtain ⟨hdirective, hbehind⟩ := List.append_inj hrest hlen
  exact ⟨rfl, hdirective, List.append_cancel_left hbehind⟩

/-- What is appended to the text comes behind the directive. -/
theorem append (h : LeftmostDirective u front directive behind) (v : List UInt8) :
    LeftmostDirective (u ++ v) front directive (behind ++ v) where
  text_eq := by rw [h.text_eq, List.append_assoc]
  opens := h.opens.append v
  closes := by
    rw [← List.append_assoc]
    exact h.closes.append v

theorem length_lt (h : LeftmostDirective u front directive behind) :
    behind.length < u.length := by
  rw [h.text_eq]
  simp only [List.length_append, ssiOpen, List.length_cons]
  omega

theorem suffix (h : LeftmostDirective u front directive behind) : behind <:+ u :=
  ⟨_, h.text_eq.symm⟩

theorem source_isInfix (h : LeftmostDirective u front directive behind) :
    ssiOpen ++ directive ++ ssiClose <:+: u := by
  refine ⟨front, behind, ?_⟩
  rw [h.text_eq]
  simp only [List.append_assoc]

end LeftmostDirective

/-! ### One call of `parse_text` -/

/-- The effect of an isolated directive. -/
def SsiEnv.Effect (env : SsiEnv) (directive : List UInt8) (effect : SsiEffect) : Prop :=
  ∃ own, own.length = directive.length + 1 ∧
    Traced.Yields directive.length
      (fun behind => env.parseDirective (directive ++ 0 :: behind) directive.length)
      fun behind => (effect, own ++ behind)

theorem SsiEnv.Effect.unique {env : SsiEnv} {directive : List UInt8} {effect effect' : SsiEffect}
    (h : env.Effect directive effect) (h' : env.Effect directive effect') : effect = effect' := by
  obtain ⟨own, -, hyields⟩ := h
  obtain ⟨own', -, hyields'⟩ := h'
  have heq := (hyields []).2.symm.trans (hyields' []).2
  exact congrArg Prod.fst (Option.some.inj heq)

namespace SsiBuffer

variable {b : SsiBuffer}

theorem parseText_of_leftmost {front directive behind : List UInt8} {effect : SsiEffect}
    (h : LeftmostDirective b.unfinished front directive behind)
    (heffect : b.env.Effect directive effect) :
    b.parseText = some (true, { b with
      env := b.env.after effect
      unfinished := behind
      spans := b.spans ++ (literalSpan front ++ [.directive directive effect]) }) := by
  obtain ⟨own, hlen, hyields⟩ := heffect
  have hset : (directive ++ ssiClose ++ behind).set directive.length 0 =
      directive ++ 0 :: (45 :: 62 :: behind) := by
    simp [ssiClose, List.set_append_right]
  have hdrop : (own ++ 45 :: 62 :: behind).drop (directive.length + 3) = behind := by
    rw [show directive.length + 3 = own.length + 2 by omega, List.drop_length_add_append]
    rfl
  have htake : (directive ++ ssiClose ++ behind).take directive.length = directive := by
    rw [List.append_assoc, List.take_left]
  have hopen := findOpen_eq_some_iff.mpr h.opens
  have hclose := findClose_hash.mpr ⟨_, rfl, h.closes⟩
  simp only [parseText, hopen, h.drop_eq, hclose, Nat.add_sub_cancel, hset, (hyields _).2,
    Option.map_some, hdrop, htake, h.take_eq]

theorem parseText_of_not_leftmost
    (h : ∀ front directive behind, ¬ LeftmostDirective b.unfinished front directive behind) :
    b.parseText = some (false, b) := by
  unfold parseText
  cases hopen : findOpen b.unfinished with
  | none => rfl
  | some p =>
    cases hclose : findClose 45 35 (b.unfinished.drop (p + 5)) with
    | none => simp only [hclose]
    | some p2 =>
      obtain ⟨n, -, hfirst⟩ := findClose_hash.mp hclose
      exact absurd (.of_search (findOpen_eq_some_iff.mp hopen) hfirst) (h _ _ _)

end SsiBuffer

/-! ### The calls up to a text without a directive -/

/-- What the calls of `parse_text` make of a text: the spans that are complete, and the text that
stays. -/
inductive Parsed : SsiEnv → List UInt8 → List SsiSpan → SsiEnv → List UInt8 → Prop
  | done {env u} (h : ∀ front directive behind, ¬ LeftmostDirective u front directive behind) :
      Parsed env u [] env u
  | directive {env u front directive behind effect spans env' u'}
      (h : LeftmostDirective u front directive behind) (heffect : env.Effect directive effect)
      (rest : Parsed (env.after effect) behind spans env' u') :
      Parsed env u (literalSpan front ++ .directive directive effect :: spans) env' u'

namespace Parsed

variable {env env' env'' : SsiEnv} {u u' u'' v : List UInt8} {spans spans' : List SsiSpan}

theorem unique (h : Parsed env u spans env' u') (h' : Parsed env u spans' env'' u'') :
    spans = spans' ∧ env' = env'' ∧ u' = u'' := by
  induction h generalizing spans' with
  | done hnone =>
    cases h' with
    | done => exact ⟨rfl, rfl, rfl⟩
    | directive hleft => exact absurd hleft (hnone _ _ _)
  | directive hleft heffect _ ih =>
    cases h' with
    | done hnone => exact absurd hleft (hnone _ _ _)
    | directive hleft' heffect' hrest =>
      obtain ⟨rfl, rfl, rfl⟩ := hleft.unique hleft'
      obtain rfl := heffect.unique heffect'
      obtain ⟨rfl, rfl, rfl⟩ := ih hrest
      exact ⟨rfl, rfl, rfl⟩

/-- The text that stays is searched again when something has been appended to it. What has been
found before stays as it is. -/
theorem append (h : Parsed env u spans env' u') (h' : Parsed env' (u' ++ v) spans' env'' u'') :
    Parsed env (u ++ v) (spans ++ spans') env'' u'' := by
  induction h with
  | done => exact h'
  | directive hleft heffect _ ih =>
    rw [List.append_assoc, List.cons_append]
    exact .directive (hleft.append v) heffect (ih h')

theorem suffix (h : Parsed env u spans env' u') : u' <:+ u := by
  induction h with
  | done => exact List.suffix_rfl
  | directive hleft _ _ ih => exact ih.trans hleft.suffix

/-- Where all directives are isolated, a text has spans. -/
theorem exists_of_isolates (env : SsiEnv) (u : List UInt8)
    (h : ∀ directive, ssiOpen ++ directive ++ ssiClose <:+: u →
      ∀ env : SsiEnv, env.Isolates directive) :
    ∃ spans env' u', Parsed env u spans env' u' := by
  -- induction on the length of the text
  induction hlen : u.length using Nat.strong_induction_on generalizing env u with
  | _ n ih =>
    by_cases hnone : ∀ front directive behind, ¬ LeftmostDirective u front directive behind
    · exact ⟨[], env, u, .done hnone⟩
    · push Not at hnone
      obtain ⟨front, directive, behind, hleft⟩ := hnone
      obtain ⟨effect, heffect⟩ := h directive hleft.source_isInfix env
      have hbehind := fun d hd => h d (List.IsInfix.trans hd hleft.suffix.isInfix)
      obtain ⟨spans, env', u', hrest⟩ :=
        ih behind.length (hlen ▸ hleft.length_lt) (env.after effect) behind hbehind rfl
      exact ⟨_, env', u', .directive hleft heffect hrest⟩

/-- The loop does what the relation says. -/
theorem parseLoop_eq {b : SsiBuffer} (h : Parsed b.env b.unfinished spans env' u') {fuel : ℕ}
    (hfuel : b.unfinished.length < fuel) :
    b.parseLoop fuel =
      some { b with env := env', unfinished := u', spans := b.spans ++ spans } := by
  obtain ⟨fuel, rfl⟩ : ∃ m, fuel = m + 1 := ⟨fuel - 1, by omega⟩
  generalize henv : b.env = env, hu : b.unfinished = u at h
  induction h generalizing b fuel with
  | done hnone =>
    subst henv hu
    rw [SsiBuffer.parseLoop, SsiBuffer.parseText_of_not_leftmost hnone, List.append_nil]
    rfl
  | directive hleft heffect _ ih =>
    subst henv hu
    have hlt := hleft.length_lt
    obtain ⟨fuel, rfl⟩ : ∃ m, fuel = m + 1 := ⟨fuel - 1, by omega⟩
    rw [SsiBuffer.parseLoop, SsiBuffer.parseText_of_leftmost hleft heffect]
    refine (ih fuel ?_ rfl rfl).trans ?_
    · exact Nat.lt_of_lt_of_le hlt (Nat.le_of_lt_succ hfuel)
    · simp only [List.append_assoc, List.cons_append, List.nil_append]

theorem ssiSpans (h : Parsed env u spans env' u') : SsiSpans u (spans ++ literalSpan u') := by
  induction h with
  | done hnone => exact .literal hnone
  | directive hleft _ _ ih =>
    rw [List.append_assoc, List.cons_append]
    exact .directive hleft ih

end Parsed

@[simp]
theorem flatMap_source_literalSpan (text : List UInt8) :
    (literalSpan text).flatMap SsiSpan.source = text := by
  unfold literalSpan
  split_ifs with h
  · rw [h, List.flatMap_nil]
  · simp [SsiSpan.source]

/-- The spans make up the document. -/
theorem SsiSpans.flatMap_source {u : List UInt8} {spans : List SsiSpan} (h : SsiSpans u spans) :
    spans.flatMap SsiSpan.source = u := by
  induction h with
  | literal => rw [flatMap_source_literalSpan]
  | directive hleft _ ih =>
    rw [List.flatMap_append, List.flatMap_cons, flatMap_source_literalSpan, ih, hleft.text_eq]
    simp only [SsiSpan.source, List.append_assoc]

/-! ### The writes -/

namespace SsiBuffer

variable {b : SsiBuffer} {env : SsiEnv} {doc w data : List UInt8}

/-- What there is after the bytes `w` have been written. -/
structure Written (env : SsiEnv) (w : List UInt8) (b : SsiBuffer) : Prop where
  parsed : Parsed env w b.spans b.env b.unfinished
  dataSize_eq : b.dataSize = w.length
  overflow_eq : b.overflow = false
  closed_eq : b.closed = false

theorem written_nil (env : SsiEnv) : Written env [] { env } where
  parsed := .done fun _ _ _ h => absurd h.length_lt (Nat.not_lt_zero _)
  dataSize_eq := rfl
  overflow_eq := rfl
  closed_eq := rfl

theorem Written.unique {b' : SsiBuffer} (h : Written env w b) (h' : Written env w b') : b = b' := by
  obtain ⟨hspans, henv, hu⟩ := h.parsed.unique h'.parsed
  obtain ⟨-, hsize, hoverflow, hclosed⟩ := h
  obtain ⟨-, hsize', hoverflow', hclosed'⟩ := h'
  cases b
  cases b'
  simp_all

/-- Every directive that there may be in the document is isolated. -/
def AllIsolated (doc : List UInt8) : Prop :=
  ∀ directive, ssiOpen ++ directive ++ ssiClose <:+: doc → ∀ env : SsiEnv, env.Isolates directive

/-- What has been made of all bytes so far is made of them and those that come. -/
theorem Written.receive (h : Written env w b) (hdoc : w ++ data <+: doc)
    (hsize : doc.length < maxSsiSize) (hisolated : AllIsolated doc) :
    ∃ b', Written env (w ++ data) b' ∧ b.receive data = some b' := by
  have hlen := hdoc.length_le
  rw [List.length_append] at hlen
  have hroom : min data.length (maxSsiSize - b.dataSize) = data.length := by
    rw [h.dataSize_eq]
    omega
  unfold SsiBuffer.receive
  simp only [hroom, h.overflow_eq, Bool.false_eq_true, false_or, List.length_eq_zero_iff,
    List.take_length]
  by_cases hdata : data = []
  · -- nothing is parsed
    subst hdata
    rw [if_pos rfl, List.append_nil]
    exact ⟨b, h, rfl⟩
  · have hpart : b.unfinished ++ data <:+: doc := by
      obtain ⟨front, hfront⟩ := h.parsed.suffix
      apply List.IsInfix.trans _ hdoc.isInfix
      exact ⟨front, [], by rw [← hfront]; simp only [List.append_assoc, List.append_nil]⟩
    obtain ⟨spans, env', u', hparsed⟩ := Parsed.exists_of_isolates b.env (b.unfinished ++ data)
      fun directive hd => hisolated directive (hd.trans hpart)
    have hloop := Parsed.parseLoop_eq (b := { b with
      unfinished := b.unfinished ++ data, dataSize := b.dataSize + data.length, overflow := false })
      hparsed (Nat.lt_succ_self _)
    have hsmall : ¬ maxSsiSize ≤ b.dataSize + data.length := by
      rw [h.dataSize_eq]
      omega
    rw [if_neg hdata]
    refine ⟨_, ?_, congrArg (Option.map _) hloop⟩
    exact {
      parsed := h.parsed.append hparsed
      dataSize_eq := by rw [List.length_append, ← h.dataSize_eq]
      overflow_eq := decide_eq_false hsmall
      closed_eq := h.closed_eq }

/-- All writes but the last. -/
theorem Written.foldlM (h : Written env w b) {ws : List (List UInt8)}
    (hdoc : w ++ ws.flatten <+: doc) (hsize : doc.length < maxSsiSize)
    (hisolated : AllIsolated doc) :
    ∃ b', Written env (w ++ ws.flatten) b' ∧
      ws.foldlM (fun b data => b.write data false) b = some b' := by
  induction ws generalizing w b with
  | nil => exact ⟨b, by simpa using h, rfl⟩
  | cons data ws ih =>
    rw [List.flatten_cons, ← List.append_assoc] at hdoc
    have hfirst := (List.prefix_append (w ++ data) ws.flatten).trans hdoc
    obtain ⟨b₁, hb₁, hreceive⟩ := h.receive hfirst hsize hisolated
    obtain ⟨b', hb', hrest⟩ := ih hb₁ hdoc
    refine ⟨b', ?_, ?_⟩
    · rwa [List.flatten_cons, ← List.append_assoc]
    · rw [List.foldlM_cons, SsiBuffer.write, hreceive]
      exact hrest

/-- All writes of a document: what is there at its end is finished. -/
theorem exists_written (ws : List (List UInt8)) (last : List UInt8)
    (hdoc : ws.flatten ++ last = doc) (hsize : doc.length < maxSsiSize)
    (hisolated : AllIsolated doc) (env : SsiEnv) :
    ∃ b, Written env doc b ∧ ssiWrites env ws last = some b.finish := by
  have hstart : [] ++ ws.flatten <+: doc := ⟨last, hdoc⟩
  obtain ⟨b, hb, hws⟩ := (written_nil env).foldlM hstart hsize hisolated
  rw [List.nil_append] at hb
  have hall : ws.flatten ++ last <+: doc := ⟨[], by rw [List.append_nil, hdoc]⟩
  obtain ⟨b', hb', hlast⟩ := hb.receive hall hsize hisolated
  refine ⟨b', hdoc ▸ hb', ?_⟩
  rw [ssiWrites, hws, Option.bind_eq_bind, Option.bind_some, SsiBuffer.write, hlast]
  rfl

end SsiBuffer

open SsiBuffer in
/-- However a document is cut into writes, it comes out as when it is written at once: in spans that
make up the document and whose directives are the leftmost ones. -/
theorem ssiWrites_spans (env : SsiEnv) {doc : List UInt8} (hsize : doc.length < maxSsiSize)
    (hisolated : ∀ directive, ssiOpen ++ directive ++ ssiClose <:+: doc →
      ∀ env : SsiEnv, env.Isolates directive)
    (ws : List (List UInt8)) (last : List UInt8) (hdoc : ws.flatten ++ last = doc) :
    ∃ b, ssiWrites env ws last = some b ∧ ssiWrites env [] doc = some b ∧
      SsiSpans doc b.spans ∧ b.spans.flatMap SsiSpan.source = doc := by
  obtain ⟨b, hb, hwrites⟩ := exists_written ws last hdoc hsize hisolated env
  obtain ⟨b', hb', honce⟩ :=
    exists_written [] doc (List.nil_append doc) hsize hisolated env
  obtain rfl := hb.unique hb'
  have hspans : SsiSpans doc b.finish.spans := hb.parsed.ssiSpans
  exact ⟨b.finish, hwrites, honce, hspans, hspans.flatMap_source⟩

/-- The parts of a document that are marked like a directive. -/
theorem allIsolated_of_parts {doc : List UInt8}
    (h : ∀ tail ∈ doc.tails, ∀ part ∈ tail.inits, ssiOpen <+: part → ssiClose <:+ part →
      CommandEnds ((part.drop 5).take (part.length - 8))) :
    SsiBuffer.AllIsolated doc := by
  intro directive hpart env
  obtain ⟨tail, hinit, htail⟩ := List.infix_iff_prefix_suffix.mp hpart
  have hends := h tail ((List.mem_tails _ _).mpr htail) _ ((List.mem_inits _ _).mpr hinit)
    ⟨directive ++ ssiClose, by rw [List.append_assoc]⟩ (List.suffix_append _ _)
  have hlen : (ssiOpen ++ directive ++ ssiClose).length - 8 = directive.length := by
    simp [ssiOpen, ssiClose]
  rw [hlen, List.append_assoc, show (5 : ℕ) = ssiOpen.length from rfl, List.drop_left,
    List.take_left] at hends
  exact isolates_of_commandEnds env hends

/-- A document whose directive is cut twice in its marks. -/
theorem ssiWrites_spans_echo :
    ∃ b, ssiWrites { uri := [47] } [bytes "a<!-", bytes "-#echo var=\"x\"--"] (bytes ">b") = some b ∧
      ssiWrites { uri := [47] } [] (bytes "a<!--#echo var=\"x\"-->b") = some b ∧
      SsiSpans (bytes "a<!--#echo var=\"x\"-->b") b.spans ∧
      b.spans.flatMap SsiSpan.source = bytes "a<!--#echo var=\"x\"-->b" :=
  ssiWrites_spans _ (by decide) (allIsolated_of_parts (by decide +kernel)) _ _ (by decide)

end Nxweb
