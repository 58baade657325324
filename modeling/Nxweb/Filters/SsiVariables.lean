import Mathlib.Data.List.ReduceOption
import Nxweb.Http.HeaderLines
import Nxweb.Uri.Path

/-!
# Variables of server-side includes

Model of `lookup_var`, `expand_var` and `expand_vars` (`ssi_filter.c`). A reference to a variable is
`$name`, with the longest name there is, or `${name}`, and a dollar sign is written as `\$`.

What an expression means is said without buffers and lengths: it is a sequence of pieces
(`ssiPieces`), and each piece stands for a text (`SsiPiece.text`). The expansion is this text, unless
everything up to the last reference expands to nothing. `expand_vars` takes the empty buffer for a
sign that there was no reference, and returns the expression as it is.

## Main definitions

* `SsiEnv`: the variables of a request and of its ancestors;
* `expandVars`: the function, with the limit on the length;
* `ssiPieces`, `SsiPiece.text`: the meaning of an expression.

## Main results

* `lookupVar_eq`: a variable has the value of the closest request that sets it;
* `expandVars_eq_iff`: when the expansion is the text of the expression.
-/

namespace Nxweb

open Lib

/-- The dollar sign. -/
abbrev dollar : UInt8 := 36

/-- The backslash. -/
abbrev backslash : UInt8 := 92

theorem dollar_ne_backslash : dollar ≠ backslash := by decide

/-- `SSI_MAX_EXPR_LEN`. -/
def ssiMaxExprLen : ℕ := 4096

/-- A map of variables, as a list of names and values. -/
abbrev VarMap := List (List UInt8 × List UInt8)

/-- `ssi_buffer`, with the fields that variables are looked up in. -/
structure SsiEnv where
  uri : List UInt8
  varMap : VarMap := []
  /-- The requests from the parent on, with their maps where they have an `ssi_buffer`. -/
  parents : List (Option VarMap) := []
  deriving DecidableEq, Repr

/-! ### The functions -/

/-- The loop over the entries of a map. -/
def VarMap.value (vars : VarMap) (name : List UInt8) : Option (List UInt8) :=
  (vars.find? fun e => e.1 = name).map Prod.snd

/-- `lookup_var`. The first ancestor with a map continues the search. -/
def lookupVar (vars : VarMap) (parents : List (Option VarMap)) (name : List UInt8) :
    Option (List UInt8) :=
  match vars.value name with
  | some value => some value
  | none =>
    match parents with
    | [] => none
    | none :: parents => lookupVar [] parents name
    | some parent :: parents => lookupVar parent parents name

/-- `expand_var`: the text that is written, `none` if it is too long. -/
def SsiEnv.expandVar (env : SsiEnv) (name : List UInt8) (maxDstLen : ℕ) : Option (List UInt8) :=
  let text :=
    if name = bytes "QUERY_STRING" then ((splitAtByte 63 env.uri).map Prod.snd).getD []
    else if name = bytes "DOCUMENT_URI" ∨ name = bytes "REQUEST_URI" then
      ((splitAtByte 63 env.uri).map Prod.fst).getD env.uri
    else (lookupVar env.varMap env.parents name).getD []
  if maxDstLen < text.length then none else some text

/-- The characters of a name. -/
def isVarChar (c : UInt8) : Bool :=
  (97 ≤ c && c ≤ 122) || (65 ≤ c && c ≤ 90) || (48 ≤ c && c ≤ 57) || c == 95

/-- `exp_append`, with what is in the buffer. -/
def expAppend (expanded text : List UInt8) : Option (List UInt8) :=
  if ssiMaxExprLen - 1 < expanded.length + text.length then none else some (expanded ++ text)

/-- `exp_append_var`. -/
def SsiEnv.expAppendVar (env : SsiEnv) (expanded name : List UInt8) : Option (List UInt8) :=
  (env.expandVar name (ssiMaxExprLen - 1 - expanded.length)).map (expanded ++ ·)

/-- The loop of `expand_vars`, with the buffer and the string from `start` on. Every iteration goes
beyond a dollar sign, so the length of the string bounds them. -/
def SsiEnv.expandLoop (env : SsiEnv) :
    ℕ → List UInt8 → List UInt8 → Option (List UInt8 × List UInt8)
  | 0, expanded, start => some (expanded, start)
  | fuel + 1, expanded, start =>
    match splitAtByte dollar start with
    | none => some (expanded, start)
    | some (text, rest) =>
      -- `p>start && *(p-1)=='\\'`
      if text.getLast? = some backslash then do
        let expanded ← expAppend expanded text.dropLast
        let expanded ← expAppend expanded [dollar]
        env.expandLoop fuel expanded rest
      else do
        let expanded ← expAppend expanded text
        if rest.head? = some 123 then
          let (name, rest) ← splitAtByte 125 rest.tail
          let expanded ← env.expAppendVar expanded name
          env.expandLoop fuel expanded rest
        else
          let expanded ← env.expAppendVar expanded (rest.takeWhile isVarChar)
          env.expandLoop fuel expanded (rest.dropWhile isVarChar)

/-- `expand_vars`. -/
def SsiEnv.expandVars (env : SsiEnv) (expr : List UInt8) : Option (List UInt8) := do
  let (expanded, start) ← env.expandLoop expr.length [] expr
  if expanded = [] then return expr else expAppend expanded start

/-! ### The meaning of an expression -/

/-- The maps in which a variable is looked up, the closest one first. -/
def SsiEnv.scopes (env : SsiEnv) : List VarMap := env.varMap :: env.parents.reduceOption

/-- What a variable stands for: a part of the uri, or the value in the closest map that has one, or
nothing. -/
def SsiEnv.value (env : SsiEnv) (name : List UInt8) : List UInt8 :=
  if name = bytes "QUERY_STRING" then ((splitAtByte 63 env.uri).map Prod.snd).getD []
  else if name = bytes "DOCUMENT_URI" ∨ name = bytes "REQUEST_URI" then
    ((splitAtByte 63 env.uri).map Prod.fst).getD env.uri
  else (env.scopes.findSome? fun vars => vars.value name).getD []

/-- A piece of an expression. -/
inductive SsiPiece where
  /-- A character that stands for itself. -/
  | lit (c : UInt8)
  /-- An escaped dollar sign. -/
  | escaped
  /-- A reference to a variable. -/
  | ref (name : List UInt8)
  deriving DecidableEq, Repr

/-- The text that a piece stands for. -/
def SsiPiece.text (env : SsiEnv) : SsiPiece → List UInt8
  | .lit c => [c]
  | .escaped => [dollar]
  | .ref name => env.value name

/-- Whether a piece is a character. -/
def SsiPiece.isLit : SsiPiece → Bool
  | .lit _ => true
  | _ => false

/-- The pieces of an expression, `none` if a brace is not closed. -/
def ssiPieces (expr : List UInt8) : Option (List SsiPiece) :=
  match expr with
  | [] => some []
  | c :: s =>
    if c = backslash ∧ s.head? = some dollar then (ssiPieces s.tail).map (.escaped :: ·)
    else if c ≠ dollar then (ssiPieces s).map (.lit c :: ·)
    else if s.head? = some 123 then
      match _h : splitAtByte 125 s.tail with
      | none => none
      | some (name, rest) => (ssiPieces rest).map (.ref name :: ·)
    else (ssiPieces (s.dropWhile isVarChar)).map (.ref (s.takeWhile isVarChar) :: ·)
termination_by expr.length
decreasing_by
  · simp only [List.length_tail, List.length_cons]
    omega
  · simp
  · have hlength := congrArg List.length (splitAtByte_eq_some_iff.mp _h).1
    simp only [List.length_tail, List.length_append, List.length_cons] at hlength ⊢
    omega
  · have := List.length_dropWhile_le isVarChar s
    simp only [List.length_cons]
    omega

/-- The text of a sequence of pieces. -/
def ssiText (env : SsiEnv) (pieces : List SsiPiece) : List UInt8 := pieces.flatMap (SsiPiece.text env)

/-- The pieces up to the last one that is not a character. -/
def referencePart (pieces : List SsiPiece) : List SsiPiece := pieces.rdropWhile SsiPiece.isLit

/-! ### Looking variables up -/

theorem lookupVar_eq (vars : VarMap) (parents : List (Option VarMap)) (name : List UInt8) :
    lookupVar vars parents name =
      (vars :: parents.reduceOption).findSome? fun vars => vars.value name := by
  induction parents generalizing vars with
  | nil =>
    unfold lookupVar
    cases hown : vars.value name <;> simp [hown]
  | cons parent parents ih =>
    unfold lookupVar
    rw [List.findSome?_cons]
    cases hown : vars.value name with
    | some value => rfl
    | none =>
      cases parent with
      | none =>
        have hnone : VarMap.value [] name = none := rfl
        simp only [ih, List.findSome?_cons, hnone, List.reduceOption_cons_of_none]
      | some parent => simp only [ih, List.reduceOption_cons_of_some]

/-- A variable is expanded to what it stands for, if that fits. -/
theorem SsiEnv.expandVar_eq (env : SsiEnv) (name : List UInt8) (maxDstLen : ℕ) :
    env.expandVar name maxDstLen =
      if maxDstLen < (env.value name).length then none else some (env.value name) := by
  unfold SsiEnv.expandVar SsiEnv.value
  rw [lookupVar_eq]
  rfl

theorem expAppend_eq_some {expanded text : List UInt8}
    (h : (expanded ++ text).length < ssiMaxExprLen) :
    expAppend expanded text = some (expanded ++ text) := by
  rw [List.length_append] at h
  exact if_neg (by omega)

theorem SsiEnv.expAppendVar_eq_some {env : SsiEnv} {expanded name : List UInt8}
    (h : (expanded ++ env.value name).length < ssiMaxExprLen) :
    env.expAppendVar expanded name = some (expanded ++ env.value name) := by
  rw [List.length_append] at h
  rw [SsiEnv.expAppendVar, env.expandVar_eq, if_neg (by omega), Option.map_some]

/-! ### Reading an expression -/

/-- Characters without a dollar sign stand for themselves, unless the last one is a backslash that
escapes the next one. -/
theorem ssiPieces_append {t : List UInt8} (ht : dollar ∉ t) {s : List UInt8}
    (hescape : t.getLast? = some backslash → s.head? ≠ some dollar) :
    ssiPieces (t ++ s) = (ssiPieces s).map (t.map .lit ++ ·) := by
  induction t with
  | nil => simp
  | cons c t ih =>
    obtain ⟨hc, ht⟩ := by simpa only [List.mem_cons, not_or] using ht
    have hne : c ≠ dollar := fun heq => hc heq.symm
    have hnot : ¬ (c = backslash ∧ (t ++ s).head? = some dollar) := by
      rintro ⟨rfl, hhead⟩
      cases t with
      | nil => exact hescape rfl hhead
      | cons d t => exact ht (by simp_all)
    have hrest : t.getLast? = some backslash → s.head? ≠ some dollar := fun hlast =>
      hescape (by rw [List.getLast?_cons, hlast]; rfl)
    rw [List.cons_append, ssiPieces, if_neg hnot, if_pos hne, ih ht hrest, Option.map_map]
    rfl

theorem ssiPieces_of_notMem {s : List UInt8} (hs : dollar ∉ s) :
    ssiPieces s = some (s.map .lit) := by
  have h := ssiPieces_append hs (s := []) (by simp)
  rw [List.append_nil] at h
  rw [h, ssiPieces]
  simp

theorem ssiPieces_escaped (s : List UInt8) :
    ssiPieces (backslash :: dollar :: s) = (ssiPieces s).map (.escaped :: ·) := by
  rw [ssiPieces]
  simp

theorem ssiPieces_name {s : List UInt8} (hs : s.head? ≠ some 123) :
    ssiPieces (dollar :: s) =
      (ssiPieces (s.dropWhile isVarChar)).map (.ref (s.takeWhile isVarChar) :: ·) := by
  rw [ssiPieces, if_neg fun h => dollar_ne_backslash h.1, if_neg (not_not_intro rfl), if_neg hs]

theorem ssiPieces_brace {s : List UInt8} (hs : s.head? = some 123) :
    ssiPieces (dollar :: s) = (splitAtByte 125 s.tail).bind fun split =>
      (ssiPieces split.2).map (.ref split.1 :: ·) := by
  rw [ssiPieces, if_neg fun h => dollar_ne_backslash h.1, if_neg (not_not_intro rfl), if_pos hs]
  split
  next h => rw [h, Option.bind_none]
  next name rest h => rw [h, Option.bind_some]

/-! ### The loop -/

theorem referencePart_lits (s : List UInt8) : referencePart (s.map .lit) = [] := by
  apply List.rdropWhile_eq_nil_iff.mpr
  intro piece hpiece
  obtain ⟨c, -, rfl⟩ := List.mem_map.mp hpiece
  rfl

/-- The part reaches as far as a piece that is not a character, and further if there is one behind
it. -/
theorem referencePart_append {piece : SsiPiece} (hpiece : piece.isLit = false)
    (front rest : List SsiPiece) :
    referencePart (front ++ piece :: rest) = front ++ piece :: referencePart rest := by
  unfold referencePart List.rdropWhile
  rw [List.reverse_append, List.reverse_cons, List.append_assoc, List.singleton_append,
    List.dropWhile_append]
  by_cases hrest : (rest.reverse.dropWhile SsiPiece.isLit).isEmpty
  · rw [if_pos hrest, List.dropWhile_cons_of_neg (by simp [hpiece]), List.isEmpty_iff.mp hrest]
    simp
  · rw [if_neg hrest]
    simp

/-- What the loop has done when no dollar sign is left: the pieces up to the last reference are in
the buffer, the characters behind it are not. -/
structure Expanded (env : SsiEnv) (pieces : List SsiPiece) (expanded : List UInt8)
    (result : Option (List UInt8 × List UInt8)) : Prop where
  exists_tail : ∃ tail, pieces = referencePart pieces ++ tail.map .lit ∧
    result = some (expanded ++ ssiText env (referencePart pieces), tail)

theorem Expanded.of_rest {env : SsiEnv} {front rest : List SsiPiece} {piece : SsiPiece}
    {expanded : List UInt8} {result : Option (List UInt8 × List UInt8)}
    (hpiece : piece.isLit = false)
    (h : Expanded env rest (expanded ++ ssiText env (front ++ [piece])) result) :
    Expanded env (front ++ piece :: rest) expanded result := by
  obtain ⟨tail, hrest, hresult⟩ := h.exists_tail
  refine ⟨tail, ?_, ?_⟩
  · rw [referencePart_append hpiece, List.append_assoc, List.cons_append, ← hrest]
  · rw [hresult, referencePart_append hpiece]
    simp [ssiText]

@[simp]
theorem ssiText_append (env : SsiEnv) (ps qs : List SsiPiece) :
    ssiText env (ps ++ qs) = ssiText env ps ++ ssiText env qs := List.flatMap_append

@[simp]
theorem ssiText_cons (env : SsiEnv) (piece : SsiPiece) (ps : List SsiPiece) :
    ssiText env (piece :: ps) = piece.text env ++ ssiText env ps := rfl

@[simp]
theorem ssiText_nil (env : SsiEnv) : ssiText env [] = [] := rfl

@[simp]
theorem ssiText_map_lit (env : SsiEnv) (s : List UInt8) : ssiText env (s.map .lit) = s := by
  simp [ssiText, SsiPiece.text, List.flatMap_map]

/-- The loop expands the pieces, as long as they fit in the buffer. -/
theorem SsiEnv.expandLoop_spec (env : SsiEnv) {fuel : ℕ} {start : List UInt8}
    (hfuel : start.length ≤ fuel) {pieces : List SsiPiece} (hpieces : ssiPieces start = some pieces)
    {expanded : List UInt8} (hfit : (expanded ++ ssiText env pieces).length < ssiMaxExprLen) :
    Expanded env pieces expanded (env.expandLoop fuel expanded start) := by
  induction fuel generalizing start pieces expanded with
  | zero =>
    obtain rfl := List.length_eq_zero_iff.mp (Nat.le_zero.mp hfuel)
    obtain rfl := Option.some.inj (hpieces.symm.trans (ssiPieces_of_notMem List.not_mem_nil))
    exact ⟨[], rfl, by simp [expandLoop, referencePart]⟩
  | succ fuel ih =>
    unfold expandLoop
    cases hsplit : splitAtByte dollar start with
    | none =>
      have hnone := splitAtByte_eq_none_iff.mp hsplit
      obtain rfl := Option.some.inj (hpieces.symm.trans (ssiPieces_of_notMem hnone))
      exact ⟨start, by rw [referencePart_lits, List.nil_append], by simp [referencePart_lits]⟩
    | some split =>
      obtain ⟨text, rest⟩ := split
      obtain ⟨rfl, htext⟩ := splitAtByte_eq_some_iff.mp hsplit
      have hlen : rest.length ≤ fuel := by
        rw [List.length_append, List.length_cons] at hfuel
        omega
      -- what follows a text and a reference, which fit in the buffer
      have hreference : ∀ {front : List UInt8} {piece : SsiPiece} {rest' : List UInt8}
          {restPieces : List SsiPiece}, piece.isLit = false → rest'.length ≤ fuel →
          ssiPieces rest' = some restPieces → front.map .lit ++ piece :: restPieces = pieces →
          (expanded ++ front).length < ssiMaxExprLen ∧
          (expanded ++ front ++ piece.text env).length < ssiMaxExprLen ∧
          Expanded env pieces expanded
            (env.expandLoop fuel (expanded ++ front ++ piece.text env) rest') := by
        rintro front piece rest' restPieces hpiece hrest' hpieces' rfl
        simp only [ssiText_append, ssiText_map_lit, ssiText_cons, List.length_append] at hfit ⊢
        refine ⟨by omega, by omega, Expanded.of_rest hpiece ?_⟩
        have hfit' : (expanded ++ front ++ piece.text env ++ ssiText env restPieces).length <
            ssiMaxExprLen := by
          simp only [List.length_append]
          omega
        simpa using ih hrest' hpieces' hfit'
      dsimp only
      by_cases hescaped : text.getLast? = some backslash
      · -- the backslash is left out
        obtain ⟨front, rfl⟩ := List.getLast?_eq_some_iff.mp hescaped
        have hfront : dollar ∉ front := fun hmem => htext (List.mem_append_left _ hmem)
        have hhead : (backslash :: dollar :: rest).head? ≠ some dollar := fun h =>
          dollar_ne_backslash (Option.some.inj h).symm
        rw [List.append_assoc, List.singleton_append, ssiPieces_append hfront fun _ => hhead,
          ssiPieces_escaped, Option.map_map] at hpieces
        obtain ⟨restPieces, hrest, heq⟩ := Option.map_eq_some_iff.mp hpieces
        have hpiece : SsiPiece.isLit .escaped = false := rfl
        obtain ⟨hfits, hfits', h⟩ := hreference hpiece hlen hrest heq
        have happend : expAppend (expanded ++ front) [dollar] = _ := expAppend_eq_some hfits'
        rw [if_pos hescaped, List.dropLast_concat, expAppend_eq_some hfits]
        simp only [Option.bind_eq_bind, Option.bind_some]
        rw [happend, Option.bind_some]
        exact h
      · rw [ssiPieces_append htext fun h => absurd h hescaped] at hpieces
        rw [if_neg hescaped]
        by_cases hbrace : rest.head? = some 123
        · rw [ssiPieces_brace hbrace] at hpieces
          obtain ⟨afterText, hafter, heq⟩ := Option.map_eq_some_iff.mp hpieces
          obtain ⟨⟨name, rest'⟩, hname, hrest'⟩ := Option.bind_eq_some_iff.mp hafter
          obtain ⟨restPieces, hrest, rfl⟩ := Option.map_eq_some_iff.mp hrest'
          have hlen' : rest'.length ≤ fuel := by
            have hlength := congrArg List.length (splitAtByte_eq_some_iff.mp hname).1
            simp only [List.length_tail, List.length_append, List.length_cons] at hlength
            omega
          have hpiece : SsiPiece.isLit (.ref name) = false := rfl
          obtain ⟨hfits, hfits', h⟩ := hreference hpiece hlen' hrest heq
          rw [expAppend_eq_some hfits]
          simp only [Option.bind_eq_bind, Option.bind_some, if_pos hbrace, hname]
          rw [expAppendVar_eq_some hfits', Option.bind_some]
          exact h
        · rw [ssiPieces_name hbrace] at hpieces
          obtain ⟨afterText, hafter, heq⟩ := Option.map_eq_some_iff.mp hpieces
          obtain ⟨restPieces, hrest, rfl⟩ := Option.map_eq_some_iff.mp hafter
          have hlen' : (rest.dropWhile isVarChar).length ≤ fuel :=
            (List.length_dropWhile_le isVarChar rest).trans hlen
          have hpiece : SsiPiece.isLit (.ref (rest.takeWhile isVarChar)) = false := rfl
          obtain ⟨hfits, hfits', h⟩ := hreference hpiece hlen' hrest heq
          rw [expAppend_eq_some hfits]
          simp only [Option.bind_eq_bind, Option.bind_some, if_neg hbrace]
          rw [expAppendVar_eq_some hfits', Option.bind_some]
          exact h

/-! ### The expansion -/

/-- An expression has at least as many characters as pieces. -/
theorem length_ssiPieces_le {expr : List UInt8} {pieces : List SsiPiece}
    (h : ssiPieces expr = some pieces) : pieces.length ≤ expr.length := by
  fun_induction ssiPieces expr generalizing pieces with
  | case1 => simp_all
  | case2 c s hescaped ih =>
    obtain ⟨rest, hrest, rfl⟩ := Option.map_eq_some_iff.mp h
    have := ih hrest
    rw [List.length_tail] at this
    simp only [List.length_cons]
    omega
  | case3 c s hnot hc ih =>
    obtain ⟨rest, hrest, rfl⟩ := Option.map_eq_some_iff.mp h
    simpa using ih hrest
  | case4 => cases h
  | case5 c s hnot hc hbrace name rest' hsplit ih =>
    obtain ⟨rest, hrest, rfl⟩ := Option.map_eq_some_iff.mp h
    have := ih hrest
    have hlength := congrArg List.length (splitAtByte_eq_some_iff.mp hsplit).1
    simp only [List.length_tail, List.length_append, List.length_cons] at hlength ⊢
    omega
  | case6 c s hnot hc hbrace ih =>
    obtain ⟨rest, hrest, rfl⟩ := Option.map_eq_some_iff.mp h
    have := ih hrest
    have := List.length_dropWhile_le isVarChar s
    simp only [List.length_cons]
    omega

/-- Where all pieces are characters, they are those of the expression. -/
theorem ssiPieces_eq_map_lit {expr : List UInt8} {pieces : List SsiPiece}
    (h : ssiPieces expr = some pieces) (hlit : referencePart pieces = []) :
    pieces = expr.map .lit := by
  have hall : ∀ piece ∈ pieces, piece.isLit = true := List.rdropWhile_eq_nil_iff.mp hlit
  clear hlit
  fun_induction ssiPieces expr generalizing pieces with
  | case1 => simp_all
  | case3 c s hnot hc ih =>
    obtain ⟨rest, hrest, rfl⟩ := Option.map_eq_some_iff.mp h
    rw [ih hrest fun piece hmem => hall piece (List.mem_cons_of_mem _ hmem)]
    rfl
  | case4 => cases h
  | case2 | case5 | case6 =>
    -- a piece that is not a character
    obtain ⟨rest, -, rfl⟩ := Option.map_eq_some_iff.mp h
    exact absurd (hall _ List.mem_cons_self) (by simp [SsiPiece.isLit])

/-- An expression whose braces are closed and whose text is not too long is expanded to its text if
and only if it has no reference, or its pieces up to the last reference stand for something. -/
theorem expandVars_eq_iff (env : SsiEnv) {expr : List UInt8} {pieces : List SsiPiece}
    (hpieces : ssiPieces expr = some pieces) (hlen : (ssiText env pieces).length < ssiMaxExprLen) :
    env.expandVars expr = some (ssiText env pieces) ↔
      referencePart pieces = [] ∨ ssiText env (referencePart pieces) ≠ [] := by
  have hfit : ([] ++ ssiText env pieces).length < ssiMaxExprLen := hlen
  obtain ⟨tail, htail, hloop⟩ := (env.expandLoop_spec le_rfl hpieces hfit).exists_tail
  have htext : ssiText env pieces = ssiText env (referencePart pieces) ++ tail := by
    conv_lhs => rw [htail]
    simp
  unfold SsiEnv.expandVars
  rw [hloop]
  simp only [Option.bind_eq_bind, Option.bind_some, List.nil_append]
  by_cases hempty : ssiText env (referencePart pieces) = []
  · rw [if_pos hempty]
    constructor
    · intro heq
      left
      by_contra hne
      -- the expression would be as short as what stands behind the last reference
      have hexpr := congrArg List.length (Option.some.inj heq)
      have hle := length_ssiPieces_le hpieces
      have hcount := congrArg List.length htail
      have hpos := List.length_pos_iff.mpr hne
      rw [htext, hempty, List.nil_append] at hexpr
      rw [List.length_append, List.length_map] at hcount
      omega
    · rintro (hnone | hne)
      · rw [ssiPieces_eq_map_lit hpieces hnone, ssiText_map_lit]
        rfl
      · exact absurd hempty hne
  · rw [if_neg hempty, htext, expAppend_eq_some (htext ▸ hlen)]
    exact iff_of_true rfl (.inr hempty)

/-- The pieces of a reference at the beginning of a path. -/
theorem ssiPieces_path :
    ssiPieces (bytes "$a/b") = some [.ref (bytes "a"), .lit 47, .lit 98] := by
  have hexpr : bytes "$a/b" = dollar :: [97, 47, 98] := by decide
  have hname : [97, 47, 98].takeWhile isVarChar = bytes "a" := by decide
  have hrest : [97, 47, 98].dropWhile isVarChar = [47, 98] := by decide
  rw [hexpr, ssiPieces_name (by decide), hname, hrest, ssiPieces_of_notMem (by decide)]
  rfl

theorem expandVars_eq_iff_path :
    SsiEnv.expandVars { uri := bytes "/", varMap := [(bytes "a", bytes "x")] } (bytes "$a/b") =
      some (bytes "x/b") :=
  (expandVars_eq_iff { uri := bytes "/", varMap := [(bytes "a", bytes "x")] } ssiPieces_path
    (by decide)).mpr (by decide)

/-- Where the variable is not set, the expression comes back as it is. -/
theorem expandVars_ne_text :
    ssiPieces (bytes "$a/b") = some [.ref (bytes "a"), .lit 47, .lit 98] ∧
      (ssiText { uri := bytes "/" } [.ref (bytes "a"), .lit 47, .lit 98]).length < ssiMaxExprLen ∧
      SsiEnv.expandVars { uri := bytes "/" } (bytes "$a/b") ≠
        some (ssiText { uri := bytes "/" } [.ref (bytes "a"), .lit 47, .lit 98]) :=
  ⟨ssiPieces_path, by decide, by decide⟩

end Nxweb
