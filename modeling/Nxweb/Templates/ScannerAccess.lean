import Nxweb.Lib.PairSearch
import Nxweb.Templates.Parser

/-!
# What the scanner looks at

Model of `nxt_get_next_cmd` and `nxt_parse_cmd` (`templates.c`) with positions in the content, and
with what is looked at there. The calls are those of the loop of `nxt_parse_file`, which may stop at
any command.

The searches for the `%` of a tag and for the `}` behind it step over a byte, and may so get behind
the end of the content. This happens behind the last tag only, and depends on what the content ends
with: on its `}` if a tag is left open there, and on its `%` otherwise.

## Main definitions

* `nxtGetNextCmdAt`, `nxtParseCmdAt`: the two functions;
* `nxtCallsAt`: the calls of `nxt_parse_file`, whose handling of the commands is `nxtCallExec`;
* `Tags`, `TailEven`: the tags of a content, and the condition on what follows the last of them.

## Main results

* `result_nxtGetNextCmdAt`: the function finds what `nxtGetNextCmd` says, and fails where that has an
  overrun;
* `scansInside_iff`: the calls stay in the content if and only if the condition is met, or they stop
  before the last tag has been passed;
* `ScansInside.of_nxtParseFile`: they stay there where the model of the parser returns.
-/

namespace Nxweb

open Lib Traced

/-! ### The command in a tag -/

/-- `while (test(*p) && p<end) p++;`. -/
def skipWhile (mem : List UInt8) (test : UInt8 → Bool) (stop : ℤ) (p : ℕ) : Traced ℕ :=
  scanFrom (fun i c => ¬ (test c ∧ (i : ℤ) < stop)) mem p

/-- The bytes between two pointers. -/
def bytesBetween (mem : List UInt8) (p q : ℕ) : List UInt8 := (mem.drop p).take (q - p)

/-- The loop over the arguments, at most as many as given, the next one at `idx`. -/
def nxtParseArgsAt (mem : List UInt8) (stop : ℤ) : ℕ → ℕ → ℕ → NxtArgs → Traced NxtArgs
  | 0, _, _, args => return args
  | n + 1, idx, p, args => do
    let p ← skipWhile mem (fun c => ¬ isGraph c) stop p
    if p = stop then return args
    else
      let q ← Traced.read mem p
      if q = 34 ∨ q = 39 then
        match ← memchr mem q (p + 1) (stop - p - 1) with
        | none => return args
        | some pq =>
          let args ← .ofOption (args.write idx (bytesBetween mem (p + 1) pq))
          nxtParseArgsAt mem stop n (idx + 1) (pq + 1) args
      else
        let pe ← skipWhile mem isGraph stop p
        let args ← .ofOption (args.write idx (bytesBetween mem p pe))
        nxtParseArgsAt mem stop n (idx + 1) pe args

/-- `nxt_parse_cmd`. `memcmp` looks at the bytes of the word only, which have been looked at
before. -/
def nxtParseCmdAt (mem : List UInt8) (buf : ℕ) (bufLen : ℤ) : Traced (NxtCmd × NxtArgs) := do
  let stop := buf + bufLen
  let pc ← skipWhile mem (fun c => ¬ isGraph c) stop buf
  let p ← skipWhile mem isGraph stop pc
  let (cmd, expectArgs) := nxtCmdOf (bytesBetween mem pc p)
  let args ← nxtParseArgsAt mem stop expectArgs 0 p .null
  return (cmd, args)

/-! ### The search for a tag -/

/-- What the search leads to: `NXT_EOF`, the label `NOT_FOUND` or the label `FOUND_CMD`, with `pc` and
`pd`. -/
inductive NxtTagEnd where
  | eof
  | notFound
  | found (pc pd : ℕ) (cmd : NxtCmd) (args : NxtArgs)
  deriving DecidableEq, Repr

/-- The search for the `}` of a tag, from `pe` on. -/
def findCloseAt (mem : List UInt8) (pe : ℕ) : Traced (Option ℕ) :=
  pairSearchAt mem 37 125 (fun pd => return some pd) mem.length pe

/-- What is done at a `%` that follows a `{`; `none` to go on behind it. -/
def visitTagAt (mem : List UInt8) (rawMode : Bool) (pc : ℕ) : Traced (Option NxtTagEnd) := do
  match ← findCloseAt mem (pc + 1) with
  | none => return some .notFound
  | some pd =>
    let (cmd, args) ← nxtParseCmdAt mem (pc + 1) ((pd : ℤ) - pc - 2)
    if rawMode ∧ cmd ≠ .endraw then
      -- `pb=pc+2; goto REPEAT;`, where `pb-1` is compared with the end
      if mem.length ≤ pc + 1 then return some .eof else return none
    else return some (.found pc pd cmd args)

/-- The search for a tag, from `pb` on. -/
def nextTagAt (mem : List UInt8) (rawMode : Bool) (pb : ℕ) : Traced (Option NxtTagEnd) :=
  pairSearchAt mem 123 37 (visitTagAt mem rawMode) mem.length pb

/-- `nxt_get_next_cmd`, with `*ptr` as it is left. A null pointer is `0`. -/
def nxtGetNextCmdAt (mem : List UInt8) (rawMode : Bool) (ptr : ℕ) : Traced (NxtItem × ℕ) := do
  -- this includes a content of length `0`
  if mem.length ≤ ptr then return ({ cmd := .eof, rawMode, rest := [] }, ptr)
  else
    match (← nextTagAt mem rawMode (ptr + 1)).getD .notFound with
    | .eof => return ({ cmd := .eof, rawMode, rest := mem.drop ptr }, ptr)
    | .notFound =>
      return ({ cmd := .none, text := mem.drop ptr, rawMode, rest := [] }, mem.length)
    | .found pc pd cmd args =>
      let text := bytesBetween mem ptr (pc - 1)
      let rest := mem.drop (pd + 1)
      if rawMode then
        return ({ cmd := .none, text, args, rawMode := false, rest }, pd + 1)
      else if cmd = .raw then
        return ({ cmd := .none, text, args, rawMode := true, rest }, pd + 1)
      else return ({ cmd, text, args, rawMode := false, rest }, pd + 1)

/-- The loop of `nxt_parse_file`, at most as many times as given: what `exec` makes of the commands up
to `NXT_EOF`, `none` if it stops at one of them. -/
def nxtCallsAt {σ : Type} (exec : σ → NxtItem → Option σ) (mem : List UInt8) :
    ℕ → Bool → ℕ → σ → Traced (Option σ)
  | 0, _, _, _ => .fail
  | fuel + 1, rawMode, ptr, s => do
    let (item, ptr) ← nxtGetNextCmdAt mem rawMode ptr
    if item.cmd = .eof then return some s
    else
      match exec s item with
      | none => return none
      | some s => nxtCallsAt exec mem fuel item.rawMode ptr s

/-- What `nxt_parse_file` does with a command other than `NXT_EOF`, `none` if it returns with an error.
The zeros that it puts behind the arguments lie in front of `ptr`, where the next call begins. -/
def nxtCallExec (load : List UInt8 → Bool) (p : NxtParse) (item : NxtItem) : Option NxtParse :=
  match nxtExec load item { p with rawMode := item.rawMode, rest := item.rest } with
  | some (.next p) => some p
  | _ => none

/-! ### Nothing outside is looked at -/

section Inside

variable {mem : List UInt8}

theorem inside_ofOption {β : Type} (n : ℕ) (b? : Option β) : (ofOption b?).Inside n :=
  fun _ i hi => by cases hi

theorem inside_nxtParseArgsAt (stop : ℤ) (n idx p : ℕ) (args : NxtArgs) :
    (nxtParseArgsAt mem stop n idx p args).Inside mem.length := by
  induction n generalizing idx p args with
  | zero => exact inside_pure _ _
  | succ n ih =>
    refine (inside_scanFrom _ mem _).bind fun p => .ite (inside_pure _ _) ?_
    refine (inside_read mem _).bind fun q => .ite ((inside_memchr mem q _ _).bind fun pq => ?_) ?_
    · cases pq with
      | none => exact inside_pure _ _
      | some pq => exact (inside_ofOption _ _).bind fun args => ih _ _ args
    · exact (inside_scanFrom _ mem _).bind fun pe => (inside_ofOption _ _).bind fun args => ih _ _ args

theorem inside_nxtParseCmdAt (buf : ℕ) (bufLen : ℤ) :
    (nxtParseCmdAt mem buf bufLen).Inside mem.length := by
  refine (inside_scanFrom _ mem _).bind fun pc => (inside_scanFrom _ mem _).bind fun p => ?_
  exact (inside_nxtParseArgsAt _ _ _ _ _).bind fun args => inside_pure _ _

theorem inside_nextTagAt (rawMode : Bool) (pb : ℕ) :
    (nextTagAt mem rawMode pb).Inside mem.length := by
  refine inside_pairSearchAt (fun pc => ?_) _ _
  have hclose : (findCloseAt mem (pc + 1)).Inside mem.length :=
    inside_pairSearchAt (fun _ => inside_pure _ _) _ _
  refine hclose.bind fun pd => ?_
  cases pd with
  | none => exact inside_pure _ _
  | some pd =>
    exact (inside_nxtParseCmdAt _ _).bind fun found =>
      .ite (.ite (inside_pure _ _) (inside_pure _ _)) (inside_pure _ _)

theorem inside_nxtGetNextCmdAt (rawMode : Bool) (ptr : ℕ) :
    (nxtGetNextCmdAt mem rawMode ptr).Inside mem.length := by
  refine .ite (inside_pure _ _) ((inside_nextTagAt _ _).bind fun r => ?_)
  cases r.getD .notFound with
  | eof => exact inside_pure _ _
  | notFound => exact inside_pure _ _
  | found pc pd cmd args =>
    exact .ite (inside_pure _ _) (.ite (inside_pure _ _) (inside_pure _ _))

theorem inside_nxtCallsAt {σ : Type} (exec : σ → NxtItem → Option σ) (fuel : ℕ) (rawMode : Bool)
    (ptr : ℕ) (s : σ) : (nxtCallsAt exec mem fuel rawMode ptr s).Inside mem.length := by
  induction fuel generalizing rawMode ptr s with
  | zero => exact inside_fail _
  | succ fuel ih =>
    refine (inside_nxtGetNextCmdAt _ _).bind fun found => .ite (inside_pure _ _) ?_
    cases exec s found.1 with
    | none => exact inside_pure _ _
    | some s => exact ih _ _ s

end Inside

/-! ### The command that is found -/

/-- The bytes from a position to the end of a tag, behind which there is another byte. -/
structure Segment (mem body : List UInt8) (p : ℕ) (stop : ℤ) : Prop where
  drop_eq : ∃ x rest, mem.drop p = body ++ x :: rest
  stop_eq : stop = p + body.length

namespace Segment

variable {mem body : List UInt8} {p : ℕ} {stop : ℤ}

theorem tail {c : UInt8} (h : Segment mem (c :: body) p stop) : Segment mem body (p + 1) stop where
  drop_eq := by
    obtain ⟨x, rest, hmem⟩ := h.drop_eq
    refine ⟨x, rest, ?_⟩
    rw [← List.drop_drop, hmem]
    rfl
  stop_eq := by
    rw [h.stop_eq, List.length_cons]
    push_cast
    ring

theorem getElem?_eq {c : UInt8} (h : Segment mem (c :: body) p stop) : mem[p]? = some c := by
  obtain ⟨x, rest, hmem⟩ := h.drop_eq
  rw [← List.head?_drop, hmem]
  rfl

theorem drop {front : List UInt8} (h : Segment mem (front ++ body) p stop) :
    Segment mem body (p + front.length) stop := by
  induction front generalizing p with
  | nil => exact h
  | cons c front ih =>
    rw [List.length_cons, show p + (front.length + 1) = p + 1 + front.length by omega]
    exact ih h.tail

theorem bytesBetween_eq {front : List UInt8} (h : Segment mem (front ++ body) p stop) :
    bytesBetween mem p (p + front.length) = front := by
  obtain ⟨x, rest, hmem⟩ := h.drop_eq
  rw [bytesBetween, hmem, Nat.add_sub_cancel_left, List.append_assoc, List.take_left]

theorem eq_stop_iff (h : Segment mem body p stop) : (p : ℤ) = stop ↔ body = [] := by
  rw [h.stop_eq, ← List.length_eq_zero_iff]
  omega

/-- A loop over bytes of one kind. -/
theorem result_skipWhile (h : Segment mem body p stop) (test : UInt8 → Bool) :
    (skipWhile mem test stop p).result = some (p + (body.takeWhile test).length) := by
  induction body generalizing p with
  | nil =>
    obtain ⟨x, rest, hmem⟩ := h.drop_eq
    have hx : mem[p]? = some x := by
      rw [← List.head?_drop, hmem]
      rfl
    have hend : ¬ (p : ℤ) < stop := (h.eq_stop_iff.mpr rfl).not_lt
    rw [skipWhile, scanFrom_eq hx, if_pos (by simp [hend])]
    rfl
  | cons c body ih =>
    have hlt : (p : ℤ) < stop := by
      rw [h.stop_eq, List.length_cons]
      omega
    rw [skipWhile, scanFrom_eq h.getElem?_eq]
    cases htest : test c with
    | false =>
      rw [if_pos (by simp), List.takeWhile_cons_of_neg (by simp [htest])]
      rfl
    | true =>
      rw [if_neg (by simp [hlt]), List.takeWhile_cons_of_pos htest, List.length_cons,
        show p + ((body.takeWhile test).length + 1) = p + 1 + (body.takeWhile test).length by omega]
      exact ih h.tail

theorem split (h : Segment mem body p stop) (test : UInt8 → Bool) :
    Segment mem (body.takeWhile test ++ body.dropWhile test) p stop := by
  rwa [List.takeWhile_append_dropWhile]

theorem result_memchr {q : UInt8} (h : Segment mem (q :: body) p stop) :
    (memchr mem q (p + 1) (stop - p - 1)).result =
      some (if q ∈ body then some (p + 1 + (body.takeWhile (· ≠ q)).length) else none) := by
  obtain ⟨x, rest, hmem⟩ := h.tail.drop_eq
  refine Lib.result_memchr hmem ?_
  rw [h.stop_eq, List.length_cons]
  push_cast
  ring

end Segment

/-- The loop over the arguments reads those of the tag. -/
theorem result_nxtParseArgsAt {mem body : List UInt8} {p : ℕ} {stop : ℤ}
    (h : Segment mem body p stop) (n idx : ℕ) (args : NxtArgs) :
    (nxtParseArgsAt mem stop n idx p args).result = nxtParseArgs n idx body args := by
  induction n generalizing idx p args body with
  | zero => rfl
  | succ n ih =>
    rw [nxtParseArgsAt, nxtParseArgs, result_bind, h.result_skipWhile, Option.bind_some]
    have hblanks := (h.split fun c => ¬ isGraph c).drop
    generalize p + (body.takeWhile fun c => ¬ isGraph c).length = p' at hblanks ⊢
    change Segment mem (skipBlanks body) p' stop at hblanks
    generalize skipBlanks body = word at hblanks ⊢
    cases word with
    | nil =>
      rw [if_pos (hblanks.eq_stop_iff.mpr rfl)]
      rfl
    | cons q word =>
      rw [if_neg fun heq => List.cons_ne_nil q word (hblanks.eq_stop_iff.mp heq), result_bind,
        result_read, hblanks.getElem?_eq, Option.bind_some, nxtNextArg]
      by_cases hquote : q = 34 ∨ q = 39
      · rw [if_pos hquote, if_pos hquote, result_bind, hblanks.result_memchr, Option.bind_some]
        by_cases hmem : q ∈ word
        · obtain ⟨arg, after, rfl, harg⟩ := List.eq_append_cons_of_mem hmem
          have hword : ∀ c ∈ arg, decide (c ≠ q) = true := by
            simpa using fun c hc => ne_of_mem_of_not_mem hc harg
          have htake : (arg ++ q :: after).takeWhile (· ≠ q) = arg := by
            rw [List.takeWhile_append_of_pos hword]
            simp
          have hdrop : (arg ++ q :: after).dropWhile (· ≠ q) = q :: after := by
            rw [List.dropWhile_append_of_pos hword]
            simp
          rw [if_pos hmem, if_pos hmem, htake, hdrop]
          simp only [result_bind, result_ofOption, hblanks.tail.bytesBetween_eq,
            ih hblanks.tail.drop.tail, List.drop_one, List.tail_cons]
        · rw [if_neg hmem, if_neg hmem]
          rfl
      · rw [if_neg hquote, if_neg hquote, result_bind, hblanks.result_skipWhile, Option.bind_some,
          (hblanks.split isGraph).bytesBetween_eq]
        simp only [result_bind, result_ofOption, ih (hblanks.split isGraph).drop]

/-- The command and the arguments are those of the tag. -/
theorem result_nxtParseCmdAt {mem body : List UInt8} {buf : ℕ} {x : UInt8} {rest : List UInt8}
    (hmem : mem.drop buf = body ++ x :: rest) :
    (nxtParseCmdAt mem buf body.length).result = nxtParseCmd body := by
  have h : Segment mem body buf (buf + body.length) := ⟨⟨x, rest, hmem⟩, rfl⟩
  have hblanks := (h.split fun c => ¬ isGraph c).drop
  rw [nxtParseCmdAt, result_bind, h.result_skipWhile, Option.bind_some, nxtParseCmd]
  generalize buf + (body.takeWhile fun c => ¬ isGraph c).length = pc at hblanks ⊢
  change Segment mem (skipBlanks body) pc _ at hblanks
  rw [result_bind, hblanks.result_skipWhile, Option.bind_some,
    (hblanks.split isGraph).bytesBetween_eq]
  simp only [result_bind, result_nxtParseArgsAt (hblanks.split isGraph).drop, Option.map_eq_bind]
  rfl

/-- In `{%}` there is no command. -/
theorem result_nxtParseCmdAt_neg {mem : List UInt8} {buf : ℕ} {x : UInt8} (hx : mem[buf]? = some x) :
    (nxtParseCmdAt mem buf (-1)).result = nxtParseCmd [] := by
  have hskip : ∀ test, (skipWhile mem test (buf + -1) buf).result = some buf := fun test => by
    rw [skipWhile, scanFrom_eq hx, if_pos (by simp)]
  have hword : bytesBetween mem buf buf = [] := by rw [bytesBetween, Nat.sub_self, List.take_zero]
  rw [nxtParseCmdAt, result_bind, hskip, Option.bind_some, result_bind, hskip, Option.bind_some,
    hword]
  rfl

/-! ### The searches agree -/

/-- What a search by positions gives: a failure for an overrun, and the position of what is found. -/
def NxtSearch.toResult {α β : Type} (position : α → β) : NxtSearch α → Option (Option β)
  | .found a => some (some (position a))
  | .notFound => some none
  | .overrun => none

theorem NxtSearch.toResult_map {α α' β : Type} (f : α → α') (position : α' → β)
    (r : NxtSearch α) : (r.map f).toResult position = r.toResult (position ∘ f) := by
  cases r <;> rfl

theorem NxtSearch.toResult_eq_none {α β : Type} {position : α → β} {r : NxtSearch α} :
    r.toResult position = none ↔ r = .overrun := by
  cases r <;> simp [NxtSearch.toResult]

theorem NxtSearch.toResult_eq_some_none {α β : Type} {position : α → β} {r : NxtSearch α} :
    r.toResult position = some none ↔ r = .notFound := by
  cases r <;> simp [NxtSearch.toResult]

/-- `findClose` is a search for two neighbours that ends at the first pair. -/
theorem toResult_findClose (skip : Bool) (prev : UInt8) (pe : List UInt8) (p : ℕ) :
    (findClose skip prev pe).toResult (fun found => p + found.1.length) =
      pairSearch 37 125 (fun pd _ => some (some pd)) skip p prev pe := by
  induction pe generalizing skip prev p with
  | nil => cases skip <;> rfl
  | cons c pe ih =>
    have hnext : ∀ skip, ((findClose skip c pe).map fun rest => (c :: rest.1, rest.2)).toResult
        (fun found => p + found.1.length) =
          pairSearch 37 125 (fun pd _ => some (some pd)) skip (p + 1) c pe := by
      intro skip
      rw [← ih, NxtSearch.toResult_map]
      congr 1
      funext found
      simp only [Function.comp, List.length_cons]
      omega
    rw [findClose, pairSearch]
    have hiff : (c = 125 ∧ ¬ skip = true) ↔ (c = 125 ∧ skip = false) := by
      rw [Bool.not_eq_true]
    by_cases hc : c = 125 ∧ skip = false
    · rw [if_pos (hiff.mpr hc), if_pos hc]
      by_cases hprev : prev = 37
      · rw [if_pos hprev, if_pos hprev]
        rfl
      · rw [if_neg hprev, if_neg hprev]
        exact hnext true
    · rw [if_neg (hiff.not.mpr hc), if_neg hc]
      exact hnext false

/-- The search for the `}` of a tag behind its `%`. -/
theorem result_findCloseAt {mem rest : List UInt8} {pc : ℕ} {c : UInt8}
    (hmem : mem.drop pc = c :: rest) :
    (findCloseAt mem (pc + 1)).result =
      (findClose false c rest).toResult (fun found => pc + 1 + found.1.length) := by
  have hlen := congrArg List.length hmem
  rw [List.length_drop, List.length_cons] at hlen
  rw [toResult_findClose, findCloseAt]
  exact result_pairSearchAt (fun _ _ _ => rfl) hmem (by omega)

/-- What is done at a `%`, with the bytes behind it; `len` is the length of the content. -/
def visitTag (len : ℕ) (rawMode : Bool) (pc : ℕ) (rest : List UInt8) : Option (Option NxtTagEnd) :=
  match findClose false 37 rest with
  | .overrun => none
  | .notFound => some (some .notFound)
  | .found (body, after) =>
    match nxtParseCmd body.dropLast with
    | none => none
    | some (cmd, args) =>
      if rawMode ∧ cmd ≠ .endraw then some none
      else some (some (.found pc (len - after.length - 1) cmd args))

theorem result_visitTagAt {mem rest : List UInt8} (rawMode : Bool) {pc : ℕ}
    (hmem : mem.drop pc = 37 :: rest) :
    (visitTagAt mem rawMode pc).result = visitTag mem.length rawMode pc rest := by
  have hlen := congrArg List.length hmem
  rw [List.length_drop, List.length_cons] at hlen
  have hrest : mem.drop (pc + 1) = rest := by
    rw [← List.drop_drop, hmem]
    rfl
  rw [visitTagAt, result_bind, result_findCloseAt hmem, visitTag]
  cases hclose : findClose false 37 rest with
  | overrun => rfl
  | notFound => rfl
  | found found =>
    obtain ⟨body, after⟩ := found
    have hbody := findClose_eq_found hclose
    simp only [NxtSearch.toResult, Option.bind_some]
    have hcmd : (nxtParseCmdAt mem (pc + 1) (((pc + 1 + body.length : ℕ) : ℤ) - pc - 2)).result =
        nxtParseCmd body.dropLast := by
      rcases List.eq_nil_or_concat body with rfl | ⟨body, x, rfl⟩
      · have hx : mem[pc + 1]? = some 125 := by
          rw [← List.head?_drop, hrest, hbody]
          rfl
        have hneg : ((pc + 1 + ([] : List UInt8).length : ℕ) : ℤ) - pc - 2 = -1 := by
          simp
        rw [hneg]
        exact result_nxtParseCmdAt_neg hx
      · -- the byte in front of the `}` ends the command
        have hsplit : mem.drop (pc + 1) = body ++ x :: (125 :: after) := by
          rw [hrest, hbody, List.concat_eq_append, List.append_assoc]
          rfl
        have hsub : ((pc + 1 + (body.concat x).length : ℕ) : ℤ) - pc - 2 = body.length := by
          rw [List.length_concat]
          push_cast
          ring
        rw [hsub, List.concat_eq_append, List.dropLast_concat]
        exact result_nxtParseCmdAt hsplit
    have hafter : mem.length - after.length - 1 = pc + 1 + body.length := by
      rw [hbody, List.length_append, List.length_cons] at hlen
      omega
    rw [result_bind, hcmd]
    cases nxtParseCmd body.dropLast with
    | none => rfl
    | some cmd =>
      obtain ⟨cmd, args⟩ := cmd
      -- there is something behind the `%`
      have hmore : ¬ mem.length ≤ pc + 1 := by
        rw [hbody, List.length_append, List.length_cons] at hlen
        omega
      simp only [Option.bind_some, if_neg hmore, hafter]
      split_ifs <;> rfl

/-- Where a tag is that has been found from `p` on, in a content of length `len`. -/
def NxtTag.toEnd (len p : ℕ) (tag : NxtTag) : NxtTagEnd :=
  .found (p + tag.before.length) (len - tag.after.length - 1) tag.cmd tag.args

/-- A search that finds nothing leads to `NOT_FOUND`. -/
def orNotFound (r : Option (Option NxtTagEnd)) : Option NxtTagEnd := r.map fun e => e.getD .notFound

/-- `nextTag` is a search for two neighbours as well. -/
theorem toResult_nextTag (len : ℕ) (rawMode skip : Bool) (prev : UInt8) (pb : List UInt8) (p : ℕ) :
    orNotFound ((nextTag rawMode skip prev pb).toResult (NxtTag.toEnd len p)) =
      orNotFound (pairSearch 123 37 (visitTag len rawMode) skip p prev pb) := by
  induction pb generalizing skip prev p with
  | nil => cases skip <;> rfl
  | cons c pb ih =>
    have hnext : ∀ skip, orNotFound (((nextTag rawMode skip c pb).map (.cons c)).toResult
        (NxtTag.toEnd len p)) =
          orNotFound (pairSearch 123 37 (visitTag len rawMode) skip (p + 1) c pb) := by
      intro skip
      rw [← ih, NxtSearch.toResult_map]
      congr 2
      funext tag
      simp only [Function.comp, NxtTag.cons, NxtTag.toEnd, List.length_cons,
        show p + (tag.before.length + 1) = p + 1 + tag.before.length by omega]
    rw [nextTag, pairSearch]
    have hiff : (c = 37 ∧ ¬ skip = true) ↔ (c = 37 ∧ skip = false) := by
      rw [Bool.not_eq_true]
    by_cases hc : c = 37 ∧ skip = false
    · rw [if_pos (hiff.mpr hc), if_pos hc]
      obtain ⟨rfl, -⟩ := hc
      by_cases hprev : prev = 123
      · rw [if_pos hprev, if_pos hprev, visitTag]
        cases findClose false 37 pb with
        | overrun => rfl
        | notFound => rfl
        | found found =>
          obtain ⟨body, after⟩ := found
          simp only []
          cases nxtParseCmd body.dropLast with
          | none => rfl
          | some cmd =>
            by_cases hraw : rawMode = true ∧ cmd.1 ≠ .endraw
            · simp only [if_pos hraw]
              exact hnext true
            · simp only [if_neg hraw]
              rfl
      · rw [if_neg hprev, if_neg hprev]
        exact hnext true
    · rw [if_neg (hiff.not.mpr hc), if_neg hc]
      exact hnext false

theorem result_nextTagAt {mem pb : List UInt8} {ptr : ℕ} {c : UInt8} (rawMode : Bool)
    (hmem : mem.drop ptr = c :: pb) :
    orNotFound (nextTagAt mem rawMode (ptr + 1)).result =
      orNotFound ((nextTag rawMode false c pb).toResult (NxtTag.toEnd mem.length (ptr + 1))) := by
  have hlen := congrArg List.length hmem
  rw [List.length_drop, List.length_cons] at hlen
  rw [toResult_nextTag, nextTagAt,
    result_pairSearchAt (fun _ _ => result_visitTagAt rawMode) hmem (by omega)]

/-- Where a tag lies. -/
theorem nextTag_split {rawMode skip : Bool} {prev : UInt8} {pb : List UInt8} {tag : NxtTag}
    (h : nextTag rawMode skip prev pb = .found tag) :
    ∃ body, pb = tag.before ++ 37 :: (body ++ 125 :: tag.after) := by
  induction pb generalizing skip prev tag with
  | nil => cases skip <;> cases h
  | cons c pb ih =>
    have hcons : ∀ {skip}, (nextTag rawMode skip c pb).map (.cons c) = .found tag →
        ∃ body, c :: pb = tag.before ++ 37 :: (body ++ 125 :: tag.after) := by
      intro skip hmap
      obtain ⟨tag', hfound, rfl⟩ := NxtSearch.map_eq_found.mp hmap
      obtain ⟨body, hbody⟩ := ih hfound
      exact ⟨body, congrArg (c :: ·) hbody⟩
    simp only [nextTag] at h
    split_ifs at h with hc hprev
    · split at h
      · cases h
      · cases h
      · rename_i body after hclose
        split at h
        · cases h
        · split_ifs at h
          · exact hcons h
          · obtain rfl := NxtSearch.found.inj h
            exact ⟨body, by rw [hc.1, findClose_eq_found hclose]; rfl⟩
    · exact hcons h
    · exact hcons h

/-- The function finds what `nxtGetNextCmd` says, and fails where that has an overrun. -/
theorem result_nxtGetNextCmdAt {mem : List UInt8} (rawMode : Bool) {ptr : ℕ}
    (hptr : ptr ≤ mem.length) :
    (nxtGetNextCmdAt mem rawMode ptr).result =
      (nxtGetNextCmd rawMode (mem.drop ptr)).map fun item =>
        (item, mem.length - item.rest.length) := by
  rw [nxtGetNextCmdAt]
  cases hmem : mem.drop ptr with
  | nil =>
    have hle : mem.length ≤ ptr := List.drop_eq_nil_iff.mp hmem
    rw [if_pos hle, result_pure, nxtGetNextCmd, Option.map_some, le_antisymm hptr hle]
    rfl
  | cons c pb =>
    have hlen := congrArg List.length hmem
    rw [List.length_drop, List.length_cons] at hlen
    have hsearch := result_nextTagAt rawMode hmem
    rw [if_neg (by omega), result_bind, nxtGetNextCmd]
    cases htag : nextTag rawMode false c pb with
    | overrun =>
      rw [htag] at hsearch
      rw [Option.map_eq_none_iff.mp hsearch]
      rfl
    | notFound =>
      rw [htag] at hsearch
      obtain ⟨e, he, hnone⟩ := Option.map_eq_some_iff.mp hsearch
      simp only [he, Option.bind_some, hnone]
      rfl
    | found tag =>
      rw [htag] at hsearch
      obtain ⟨e, he, hfound⟩ := Option.map_eq_some_iff.mp hsearch
      obtain ⟨body, hbody⟩ := nextTag_split htag
      -- the text in front of the tag, and what follows it
      have htext : bytesBetween mem ptr (ptr + 1 + tag.before.length - 1) =
          (c :: tag.before).dropLast := by
        have hsub : ptr + 1 + tag.before.length - 1 - ptr = tag.before.length := by omega
        rw [bytesBetween, hmem, hbody, hsub, List.dropLast_eq_take, List.length_cons,
          Nat.add_sub_cancel, ← List.cons_append,
          List.take_append_of_le_length (Nat.le_succ tag.before.length)]
      have hafter : tag.after <:+ mem := by
        refine List.IsSuffix.trans ?_ (List.drop_suffix ptr mem)
        rw [hmem, hbody]
        exact ⟨c :: tag.before ++ 37 :: (body ++ [125]), by simp⟩
      have hle := hafter.length_le
      have hpos : tag.after.length < mem.length := by
        have := congrArg List.length hbody
        simp only [List.length_append, List.length_cons] at this
        omega
      have hrest : mem.drop (mem.length - tag.after.length) = tag.after :=
        (List.suffix_iff_eq_drop.mp hafter).symm
      have hnext : mem.length - tag.after.length - 1 + 1 = mem.length - tag.after.length := by
        omega
      simp only [he, Option.bind_some, hfound, Option.getD_some, NxtTag.toEnd, htext, hrest, hnext]
      split_ifs <;> rfl

/-! ### The tags of a content -/

/-- A tag at an offset: the bytes between its `{%` and the first `%}`, of which the `%` may be the same,
and what follows it. -/
def TagAt (u : List UInt8) (i : ℕ) (body after : List UInt8) : Prop :=
  ∃ rest j, u.drop i = 123 :: 37 :: rest ∧ FirstAt [37, 125] (37 :: rest) j ∧
    body = (rest.take j).dropLast ∧ after = rest.drop (j + 1)

/-- In a raw section only the tags count whose first word is `endraw`. -/
def TagCounts (rawMode : Bool) (body : List UInt8) : Prop :=
  rawMode = true → (skipBlanks body).takeWhile isGraph = bytes "endraw"

/-- What a tag stands for; the tags of a raw section stand for no command. -/
def tagItem (rawMode : Bool) (text : List UInt8) (cmd : NxtCmd) (args : NxtArgs)
    (rest : List UInt8) : NxtItem :=
  { cmd := if rawMode ∨ cmd = .raw then .none else cmd
    text, args, rest
    rawMode := !rawMode && cmd = .raw }

/-- The first tag that counts, with the text in front of it. -/
def NextItem (rawMode : Bool) (u : List UInt8) (item : NxtItem) : Prop :=
  ∃ i body after cmd args, TagAt u i body after ∧ TagCounts rawMode body ∧
    (∀ i' < i, ∀ body' after', TagAt u i' body' after' → ¬ TagCounts rawMode body') ∧
    nxtParseCmd body = some (cmd, args) ∧ item = tagItem rawMode (u.take i) cmd args after

/-- No tag counts. -/
def NoItem (rawMode : Bool) (u : List UInt8) : Prop :=
  ∀ i body after, TagAt u i body after → ¬ TagCounts rawMode body

/-- The tags of a content that count, and what follows the last of them. -/
inductive Tags : Bool → List UInt8 → List NxtItem → List UInt8 → Prop
  | tail (rawMode : Bool) (u : List UInt8) (h : NoItem rawMode u) : Tags rawMode u [] u
  | tag (rawMode : Bool) (u : List UInt8) (item : NxtItem) (items : List NxtItem)
      (tail : List UInt8) (h : NextItem rawMode u item)
      (hrest : Tags item.rawMode item.rest items tail) : Tags rawMode u (item :: items) tail

/-- There is a `{%` without a `%}`. -/
def Unclosed (u : List UInt8) : Prop :=
  ∃ i rest, u.drop i = 123 :: 37 :: rest ∧ ∀ j, ¬ FirstAt [37, 125] (37 :: rest) j

/-- With a tag left open, the number of `}` at the end is even, and the number of `%` otherwise, where
the first byte does not count. -/
def TailEven (u : List UInt8) : Prop :=
  (Unclosed u → Even (trailing 125 u)) ∧ (¬ Unclosed u → Even (trailing 37 u.tail))

/-! ### The commands are those of the tags -/

theorem tagCounts_iff {rawMode : Bool} {body : List UInt8} {cmd : NxtCmd} {args : NxtArgs}
    (h : nxtParseCmd body = some (cmd, args)) :
    TagCounts rawMode body ↔ ¬ (rawMode = true ∧ cmd ≠ .endraw) := by
  obtain ⟨args', hparse, -⟩ := nxtParseCmd_eq_some body
  obtain ⟨rfl, rfl⟩ := Prod.mk.inj (Option.some.inj (h.symm.trans hparse))
  rw [TagCounts, ← nxtCmdOf_eq_endraw, not_and_not_right]

theorem pair_isPrefix_iff {a b : UInt8} {l : List UInt8} :
    [a, b] <+: l ↔ ∃ rest, l = a :: b :: rest :=
  ⟨fun ⟨rest, h⟩ => ⟨rest, h.symm⟩, fun ⟨rest, h⟩ => ⟨rest, h.symm⟩⟩

/-- The search for the `}` of a tag finds the first `%}`, and otherwise looks at the `}` at the end in
turns. -/
theorem findClose_spec (rest : List UInt8) :
    (∃ j, FirstAt [37, 125] (37 :: rest) j ∧
        findClose false 37 rest = .found (rest.take j, rest.drop (j + 1))) ∨
      ((∀ j, ¬ FirstAt [37, 125] (37 :: rest) j) ∧
        findClose false 37 rest = if Even (trailing 125 rest) then .notFound else .overrun) := by
  have hspec := pairSearch_spec (a := (37 : UInt8)) (b := 125) (by decide)
    (fun pd _ => some (some pd)) false 0 37 Bool.noConfusion rest
  rw [← toResult_findClose] at hspec
  generalize hr : (findClose false 37 rest).toResult (fun found => 0 + found.1.length) = r at hspec
  cases hspec with
  | stop k rest' hat _ hfirst =>
    refine .inl ⟨k, ⟨pair_isPrefix_iff.mpr ⟨rest', hat⟩, fun k' hk' hocc => ?_⟩, ?_⟩
    · obtain ⟨rest'', hat'⟩ := pair_isPrefix_iff.mp hocc
      cases hfirst k' hk' rest'' hat'
    · cases hclose : findClose false 37 rest with
      | overrun =>
        rw [hclose] at hr
        cases hr
      | notFound =>
        rw [hclose] at hr
        cases hr
      | found found =>
        obtain ⟨before, after⟩ := found
        rw [hclose] at hr
        have hk : before.length = k := by simpa [NxtSearch.toResult] using hr
        rw [findClose_eq_found hclose, ← hk, List.take_left, ← List.singleton_append,
          ← List.append_assoc, List.drop_left' (by simp)]
  | exhausted hall =>
    refine .inr ⟨fun j hfirst => ?_, ?_⟩
    · obtain ⟨rest', hat⟩ := pair_isPrefix_iff.mp hfirst.occurs
      cases hall j rest' hat
    · simp only [Bool.false_eq_true, if_false] at hr
      by_cases heven : Even (trailing 125 rest)
      · rw [if_pos heven] at hr ⊢
        exact NxtSearch.toResult_eq_some_none.mp hr
      · rw [if_neg heven] at hr ⊢
        exact NxtSearch.toResult_eq_none.mp hr

/-- What is done at the `%` of a tag. -/
theorem visitTag_spec {u rest : List UInt8} {i : ℕ} (hopen : u.drop i = 123 :: 37 :: rest)
    (len : ℕ) (rawMode : Bool) (pc : ℕ) :
    (∃ body after cmd args, TagAt u i body after ∧ nxtParseCmd body = some (cmd, args) ∧
        visitTag len rawMode pc rest =
          if rawMode ∧ cmd ≠ .endraw then some none
          else some (some (.found pc (len - after.length - 1) cmd args))) ∨
      ((∀ j, ¬ FirstAt [37, 125] (37 :: rest) j) ∧
        visitTag len rawMode pc rest =
          if Even (trailing 125 rest) then some (some .notFound) else none) := by
  unfold visitTag
  rcases findClose_spec rest with ⟨j, hclose, hfound⟩ | ⟨hnone, hfound⟩
  · obtain ⟨args, hparse, -⟩ := nxtParseCmd_eq_some (rest.take j).dropLast
    refine .inl ⟨_, _, _, args, ⟨rest, j, hopen, hclose, rfl, rfl⟩, hparse, ?_⟩
    rw [hfound]
    simp only [hparse]
  · refine .inr ⟨hnone, ?_⟩
    rw [hfound]
    split_ifs <;> rfl

theorem TagAt.unique {u body body' after after' : List UInt8} {i : ℕ} (h : TagAt u i body after)
    (h' : TagAt u i body' after') : body = body' ∧ after = after' := by
  obtain ⟨rest, j, hopen, hclose, rfl, rfl⟩ := h
  obtain ⟨rest', j', hopen', hclose', rfl, rfl⟩ := h'
  obtain rfl := (List.cons.inj (List.cons.inj (hopen.symm.trans hopen')).2).2
  obtain rfl := hclose.unique hclose'
  exact ⟨rfl, rfl⟩

/-- Behind a `{%` without a `%}` there is no tag. -/
theorem not_tagAt_of_unclosed {u rest body after : List UInt8} {i i' : ℕ}
    (hopen : u.drop i = 123 :: 37 :: rest) (hnone : ∀ j, ¬ FirstAt [37, 125] (37 :: rest) j)
    (hle : i ≤ i') : ¬ TagAt u i' body after := by
  rintro ⟨rest', j, hopen', hclose, -, -⟩
  -- the `%}` of the tag is one of the other
  have htail : 37 :: rest' = (37 :: rest).drop (i' - i) := by
    have h := congrArg List.tail hopen'
    rw [List.tail_drop, show i' + 1 = i + 1 + (i' - i) by omega, ← List.drop_drop, ← List.tail_drop,
      hopen] at h
    exact h.symm
  have hocc := hclose.occurs
  rw [htail, List.drop_drop] at hocc
  obtain ⟨k, hk⟩ := exists_firstAt hocc
  exact hnone k hk

/-- A tag that is passed does not count. -/
theorem tag_of_visitTag {u rest : List UInt8} {i len pc : ℕ} {rawMode : Bool}
    (hopen : u.drop i = 123 :: 37 :: rest) (hvisit : visitTag len rawMode pc rest = some none) :
    (∃ j, FirstAt [37, 125] (37 :: rest) j) ∧
      ∀ body after, TagAt u i body after → ¬ TagCounts rawMode body := by
  rcases visitTag_spec hopen len rawMode pc with
    ⟨body, after, cmd, args, htag, hparse, heq⟩ | ⟨-, heq⟩
  · rw [hvisit] at heq
    split_ifs at heq with hraw
    refine ⟨?_, fun body' after' htag' hcounts => ?_⟩
    · obtain ⟨rest', j, hopen', hclose, -, -⟩ := htag
      obtain rfl := (List.cons.inj (List.cons.inj (hopen.symm.trans hopen')).2).2
      exact ⟨j, hclose⟩
    · obtain ⟨rfl, -⟩ := htag.unique htag'
      exact (tagCounts_iff hparse).mp hcounts hraw
    · cases heq
  · rw [hvisit] at heq
    split_ifs at heq
    cases heq

section

variable {x : NxtSearch NxtTag} {len p : ℕ}

theorem orNotFound_eq_none :
    orNotFound (x.toResult (NxtTag.toEnd len p)) = none ↔ x = .overrun := by
  cases x <;> simp [orNotFound, NxtSearch.toResult]

theorem orNotFound_eq_notFound :
    orNotFound (x.toResult (NxtTag.toEnd len p)) = some .notFound ↔ x = .notFound := by
  cases x <;> simp [orNotFound, NxtSearch.toResult, NxtTag.toEnd]

theorem orNotFound_eq_found {pc pd : ℕ} {cmd : NxtCmd} {args : NxtArgs}
    (h : orNotFound (x.toResult (NxtTag.toEnd len p)) = some (.found pc pd cmd args)) :
    ∃ tag, x = .found tag ∧ p + tag.before.length = pc ∧ len - tag.after.length - 1 = pd ∧
      tag.cmd = cmd ∧ tag.args = args := by
  cases x with
  | overrun => cases h
  | notFound => cases h
  | found tag => exact ⟨tag, rfl, by simpa [orNotFound, NxtSearch.toResult, NxtTag.toEnd] using h⟩

end

/-- A command that is found is that of the first tag that counts. If there is none, what follows is
text, or the content is left. -/
theorem nxtGetNextCmd_spec (rawMode : Bool) {u : List UInt8} (hu : u ≠ []) :
    (∃ item, NextItem rawMode u item ∧ nxtGetNextCmd rawMode u = some item) ∨
      (NoItem rawMode u ∧ (TailEven u ∧
          nxtGetNextCmd rawMode u = some { cmd := .none, text := u, rawMode, rest := [] } ∨
        ¬ TailEven u ∧ nxtGetNextCmd rawMode u = none)) := by
  obtain ⟨c, pb, rfl⟩ := List.exists_cons_of_ne_nil hu
  have hsearch := toResult_nextTag (pb.length + 1) rawMode false c pb 1
  have hspec := pairSearch_spec (a := (123 : UInt8)) (b := 37) (by decide)
    (visitTag (pb.length + 1) rawMode) false 1 c Bool.noConfusion pb
  simp only [Bool.false_eq_true, if_false] at hspec
  generalize pairSearch 123 37 (visitTag (pb.length + 1) rawMode) false 1 c pb = r
    at hsearch hspec
  rw [nxtGetNextCmd]
  cases hspec with
  | stop k rest hat hstop hfirst =>
    -- the tags in front of it have been passed
    have hbefore : ∀ i' < k, ∀ body' after', TagAt (c :: pb) i' body' after' →
        ¬ TagCounts rawMode body' := by
      intro i' hi' body' after' htag
      have htag' := htag
      obtain ⟨rest', j, hopen, -⟩ := htag'
      exact (tag_of_visitTag hopen (hfirst i' hi' rest' hopen)).2 body' after' htag
    rcases visitTag_spec hat (pb.length + 1) rawMode (1 + k) with
      ⟨body, after, cmd, args, htag, hparse, hvisit⟩ | ⟨hnone, hvisit⟩
    · left
      have hraw : ¬ (rawMode = true ∧ cmd ≠ .endraw) := fun hraw => hstop (by rw [hvisit, if_pos hraw])
      have hcounts : TagCounts rawMode body := (tagCounts_iff hparse).mpr hraw
      rw [hvisit, if_neg hraw] at hsearch
      obtain ⟨tag, htag', hpc, hpd, rfl, rfl⟩ := orNotFound_eq_found hsearch
      refine ⟨_, ⟨k, body, after, tag.cmd, tag.args, htag, hcounts, hbefore, hparse, rfl⟩, ?_⟩
      obtain ⟨body', hsplit⟩ := nextTag_split htag'
      have htext : (c :: tag.before).dropLast = (c :: pb).take k := by
        rw [List.dropLast_eq_take, List.length_cons, Nat.add_sub_cancel, hsplit, ← List.cons_append,
          List.take_append_of_le_length (by rw [List.length_cons]; omega)]
        congr 1
        omega
      have hrest : tag.after = after := by
        -- both are what is left at the end
        have hleft : tag.after <:+ pb := ⟨tag.before ++ 37 :: (body' ++ [125]), by simp [hsplit]⟩
        have hright : after <:+ c :: pb := by
          obtain ⟨rest', j, hopen, -, -, rfl⟩ := htag
          refine (List.drop_suffix _ _).trans (List.IsSuffix.trans ?_ (List.drop_suffix k _))
          exact hopen ▸ ⟨[123, 37], rfl⟩
        have hne : after.length ≠ (c :: pb).length := by
          obtain ⟨rest', j, hopen, -, -, rfl⟩ := htag
          have hlen := congrArg List.length hopen
          simp only [List.length_drop, List.length_cons] at hlen ⊢
          omega
        have hle := hleft.length_le
        have hle' := hright.length_le
        rw [List.length_cons] at hne hle'
        have hlen : tag.after.length = after.length := by omega
        have hleft' := hleft.trans (List.suffix_cons c pb)
        exact (List.suffix_of_suffix_length_le hleft' hright hlen.le).eq_of_length hlen
      rw [htag']
      simp only [htext, hrest, tagItem]
      cases rawMode with
      | true => simp
      | false => by_cases hcmd : tag.cmd = .raw <;> simp [hcmd]
    · right
      have hopen : Unclosed (c :: pb) := ⟨k, rest, hat, hnone⟩
      have htrailing : trailing 125 (c :: pb) = trailing 125 rest := by
        conv_lhs => rw [← List.take_append_drop k (c :: pb), hat]
        rw [trailing_append_cons (by decide), trailing_cons_of_ne (by decide)]
      have heven : TailEven (c :: pb) ↔ Even (trailing 125 rest) := by
        rw [TailEven, htrailing]
        exact ⟨fun h => h.1 hopen, fun h => ⟨fun _ => h, fun hnot => absurd hopen hnot⟩⟩
      refine ⟨fun i body after htag => ?_, ?_⟩
      · rcases Nat.lt_or_ge i k with hlt | hge
        · exact hbefore i hlt body after htag
        · exact absurd htag (not_tagAt_of_unclosed hat hnone hge)
      · rw [heven]
        rw [hvisit] at hsearch
        by_cases h : Even (trailing 125 rest)
        · rw [if_pos h] at hsearch
          rw [orNotFound_eq_notFound.mp hsearch]
          exact .inl ⟨h, rfl⟩
        · rw [if_neg h] at hsearch
          rw [orNotFound_eq_none.mp hsearch]
          exact .inr ⟨h, rfl⟩
  | exhausted hall =>
    right
    have hopen : ¬ Unclosed (c :: pb) := by
      rintro ⟨i, rest, hat, hnone⟩
      obtain ⟨j, hj⟩ := (tag_of_visitTag hat (hall i rest hat)).1
      exact hnone j hj
    have heven : TailEven (c :: pb) ↔ Even (trailing 37 pb) :=
      ⟨fun h => h.2 hopen, fun h => ⟨fun hyes => absurd hyes hopen, fun _ => h⟩⟩
    refine ⟨fun i body after htag => ?_, ?_⟩
    · have htag' := htag
      obtain ⟨rest', j, hat, -⟩ := htag'
      exact (tag_of_visitTag hat (hall i rest' hat)).2 body after htag
    · rw [heven]
      by_cases h : Even (trailing 37 pb)
      · rw [if_pos h] at hsearch
        rw [orNotFound_eq_notFound.mp hsearch]
        exact .inl ⟨h, rfl⟩
      · rw [if_neg h] at hsearch
        rw [orNotFound_eq_none.mp hsearch]
        exact .inr ⟨h, rfl⟩

/-! ### The tags that count -/

theorem NextItem.unique {rawMode : Bool} {u : List UInt8} {item item' : NxtItem}
    (h : NextItem rawMode u item) (h' : NextItem rawMode u item') : item = item' := by
  obtain ⟨i, body, after, cmd, args, htag, hcounts, hbefore, hparse, rfl⟩ := h
  obtain ⟨i', body', after', cmd', args', htag', hcounts', hbefore', hparse', rfl⟩ := h'
  have heq : i = i' := by
    rcases Nat.lt_trichotomy i i' with hlt | heq | hlt
    · exact absurd hcounts (hbefore' i hlt body after htag)
    · exact heq
    · exact absurd hcounts' (hbefore i' hlt body' after' htag')
  subst heq
  obtain ⟨rfl, rfl⟩ := htag.unique htag'
  obtain ⟨rfl, rfl⟩ := Prod.mk.inj (Option.some.inj (hparse.symm.trans hparse'))
  rfl

theorem NextItem.not_noItem {rawMode : Bool} {u : List UInt8} {item : NxtItem}
    (h : NextItem rawMode u item) : ¬ NoItem rawMode u := by
  obtain ⟨i, body, after, cmd, args, htag, hcounts, -⟩ := h
  exact fun hnone => hnone i body after htag hcounts

theorem NextItem.rest_suffix {rawMode : Bool} {u : List UInt8} {item : NxtItem}
    (h : NextItem rawMode u item) : item.rest <:+ u := by
  obtain ⟨i, body, after, cmd, args, ⟨rest, j, hopen, -, -, rfl⟩, -, -, -, rfl⟩ := h
  refine (List.drop_suffix _ rest).trans (List.IsSuffix.trans ?_ (List.drop_suffix i u))
  exact hopen ▸ ⟨[123, 37], rfl⟩

theorem NextItem.ne_nil {rawMode : Bool} {u : List UInt8} {item : NxtItem}
    (h : NextItem rawMode u item) : u ≠ [] := by
  rintro rfl
  obtain ⟨i, body, after, cmd, args, ⟨rest, j, hopen, -⟩, -⟩ := h
  rw [List.drop_nil] at hopen
  cases hopen

theorem NextItem.nxtGetNextCmd_eq {rawMode : Bool} {u : List UInt8} {item : NxtItem}
    (h : NextItem rawMode u item) : nxtGetNextCmd rawMode u = some item := by
  rcases nxtGetNextCmd_spec rawMode h.ne_nil with ⟨item', hitem', hcmd⟩ | ⟨hnone, -⟩
  · rwa [h.unique hitem']
  · exact absurd hnone h.not_noItem

/-- Whatever is found, the next call begins at the end of it. -/
theorem nxtGetNextCmd_suffix {rawMode : Bool} {u : List UInt8} {item : NxtItem} (hu : u ≠ [])
    (h : nxtGetNextCmd rawMode u = some item) : item.rest <:+ u := by
  rcases nxtGetNextCmd_spec rawMode hu with ⟨item', hitem', hcmd⟩ | ⟨-, ⟨-, hcmd⟩ | ⟨-, hcmd⟩⟩
  · obtain rfl := Option.some.inj (hcmd.symm.trans h)
    exact hitem'.rest_suffix
  · obtain rfl := Option.some.inj (hcmd.symm.trans h)
    exact List.nil_suffix
  · cases hcmd.symm.trans h

theorem noItem_nil (rawMode : Bool) : NoItem rawMode [] := by
  rintro i body after ⟨rest, j, hopen, -⟩
  rw [List.drop_nil] at hopen
  cases hopen

theorem tailEven_nil : TailEven [] := by
  refine ⟨?_, fun _ => Even.zero⟩
  rintro ⟨i, rest, hopen, -⟩
  rw [List.drop_nil] at hopen
  cases hopen

/-- Every content has its tags. -/
theorem exists_tags (rawMode : Bool) (u : List UInt8) : ∃ items tail, Tags rawMode u items tail := by
  induction hlen : u.length using Nat.strong_induction_on generalizing rawMode u with
  | _ n ih =>
    by_cases hu : u = []
    · exact ⟨[], u, .tail _ _ (hu ▸ noItem_nil rawMode)⟩
    · rcases nxtGetNextCmd_spec rawMode hu with ⟨item, hitem, hcmd⟩ | ⟨hnone, -⟩
      · have hlt := nxtGetNextCmd_length_lt hcmd hu
        obtain ⟨items, tail, htags⟩ := ih _ (hlen ▸ hlt) item.rawMode item.rest rfl
        exact ⟨_, tail, .tag _ _ _ _ _ hitem htags⟩
      · exact ⟨[], u, .tail _ _ hnone⟩

/-! ### All calls -/

section Calls

variable {σ : Type} {exec : σ → NxtItem → Option σ} {mem : List UInt8}

/-- At the end of the content the calls end. -/
theorem result_nxtCallsAt_end (fuel : ℕ) (rawMode : Bool) (s : σ) :
    (nxtCallsAt exec mem (fuel + 1) rawMode mem.length s).result = some (some s) := by
  rw [nxtCallsAt, result_bind, result_nxtGetNextCmdAt rawMode le_rfl, List.drop_length]
  rfl

/-- A call, by what it gives. -/
theorem result_nxtCallsAt_succ {fuel ptr : ℕ} {rawMode : Bool} {item : NxtItem} {s : σ}
    (hptr : ptr ≤ mem.length) (hitem : nxtGetNextCmd rawMode (mem.drop ptr) = some item)
    (hne : mem.drop ptr ≠ []) :
    (nxtCallsAt exec mem (fuel + 1) rawMode ptr s).result =
      match exec s item with
      | none => some none
      | some s => (nxtCallsAt exec mem fuel item.rawMode (mem.length - item.rest.length) s).result := by
  have hcmd : item.cmd ≠ .eof := fun heof => hne (nxtGetNextCmd_eof hitem heof)
  rw [nxtCallsAt, result_bind, result_nxtGetNextCmdAt rawMode hptr, hitem, Option.map_some,
    Option.bind_some]
  simp only [if_neg hcmd]
  cases exec s item <;> rfl

/-- The calls from a position on succeed if and only if what follows the last tag meets the condition,
or they stop before they get there. -/
theorem result_nxtCallsAt_iff {rawMode : Bool} (ptr : ℕ) {fuel : ℕ} {items : List NxtItem}
    {tail : List UInt8} (h : Tags rawMode (mem.drop ptr) items tail) (hptr : ptr ≤ mem.length)
    (hfuel : (mem.drop ptr).length < fuel) (s : σ) :
    (nxtCallsAt exec mem fuel rawMode ptr s).result ≠ none ↔
      TailEven tail ∨ items.foldlM exec s = none := by
  obtain ⟨fuel, rfl⟩ : ∃ m, fuel = m + 1 := ⟨fuel - 1, by omega⟩
  generalize hu : mem.drop ptr = u at h hfuel
  induction h generalizing ptr fuel s with
  | tail rawMode u hnone =>
    have hgo : ([] : List NxtItem).foldlM exec s ≠ none := by
      rw [List.foldlM_nil]
      exact nofun
    rw [or_iff_left hgo]
    by_cases hnil : u = []
    · -- the content is at its end
      have hend : ptr = mem.length := le_antisymm hptr (List.drop_eq_nil_iff.mp (hu.trans hnil))
      rw [hend, result_nxtCallsAt_end, hnil]
      exact ⟨fun _ => tailEven_nil, fun _ => nofun⟩
    · rcases nxtGetNextCmd_spec rawMode hnil with ⟨item, hitem, -⟩ | ⟨-, ⟨heven, hcmd⟩ | ⟨hodd, hcmd⟩⟩
      · exact absurd hnone hitem.not_noItem
      · refine ⟨fun _ => heven, fun _ => ?_⟩
        rw [result_nxtCallsAt_succ hptr (hu ▸ hcmd) (hu ▸ hnil)]
        -- the text is taken, and the next call is at the end
        have hpos := List.length_pos_of_ne_nil hnil
        obtain ⟨fuel, rfl⟩ : ∃ m, fuel = m + 1 := ⟨fuel - 1, by omega⟩
        split
        · exact nofun
        · rw [List.length_nil, Nat.sub_zero, result_nxtCallsAt_end]
          exact nofun
      · refine ⟨fun hsome => absurd ?_ hsome, fun heven => absurd heven hodd⟩
        rw [nxtCallsAt, result_bind, result_nxtGetNextCmdAt rawMode hptr, hu, hcmd]
        rfl
  | tag rawMode u item items tail hitem _ ih =>
    have hcmd := hitem.nxtGetNextCmd_eq
    rw [result_nxtCallsAt_succ hptr (hu ▸ hcmd) (hu ▸ hitem.ne_nil), List.foldlM_cons]
    cases hexec : exec s item with
    | none => exact ⟨fun _ => .inr rfl, fun _ => nofun⟩
    | some s' =>
      have hlt := nxtGetNextCmd_length_lt hcmd hitem.ne_nil
      have hsuffix : item.rest <:+ mem := hitem.rest_suffix.trans (hu ▸ List.drop_suffix ptr mem)
      obtain ⟨fuel, rfl⟩ : ∃ m, fuel = m + 1 := ⟨fuel - 1, by omega⟩
      exact ih _ (Nat.sub_le _ _) s' fuel (List.suffix_iff_eq_drop.mp hsuffix).symm (by omega)

end Calls

/-- Where the model of the parser returns, no call has failed. -/
theorem result_nxtCallsAt_of_nxtParseLoop {load : List UInt8 → Bool} {mem : List UInt8} {fuel : ℕ}
    {ptr : ℕ} {p : NxtParse} {r : NxtContext × ℤ} (hptr : ptr ≤ mem.length)
    (hrest : p.rest = mem.drop ptr) (h : nxtParseLoop load fuel p = some r) :
    (nxtCallsAt (nxtCallExec load) mem fuel p.rawMode ptr p).result ≠ none := by
  induction fuel generalizing ptr p with
  | zero => cases h
  | succ fuel ih =>
    rw [nxtParseLoop, nxtParseStep] at h
    split_ifs at h with hblocks
    cases hitem : nxtGetNextCmd p.rawMode p.rest with
    | none =>
      rw [hitem] at h
      cases h
    | some item =>
      rw [hitem, Option.bind_some] at h
      by_cases hnil : mem.drop ptr = []
      · have hend : ptr = mem.length := le_antisymm hptr (List.drop_eq_nil_iff.mp hnil)
        rw [hend, result_nxtCallsAt_end]
        exact Option.some_ne_none _
      · rw [result_nxtCallsAt_succ hptr (hrest ▸ hitem) hnil, nxtCallExec]
        cases hexec : nxtExec load item { p with rawMode := item.rawMode, rest := item.rest } with
        | none => exact Option.some_ne_none _
        | some o =>
          cases o with
          | ret ctx code => exact Option.some_ne_none _
          | next p' =>
            rw [hexec] at h
            obtain ⟨-, hrest', hraw, -⟩ := nxtExec_next hexec
            have hsuffix := (nxtGetNextCmd_suffix (hrest ▸ hnil) hitem).trans
              (hrest ▸ List.drop_suffix ptr mem)
            simp only at hrest' hraw
            exact hraw ▸ ih (Nat.sub_le _ _)
              (hrest'.trans (List.suffix_iff_eq_drop.mp hsuffix)) h

/-! ### The result -/

/-- The calls of `nxt_parse_file` stay in the content: none of them fails, so that no length that is
handed to `memchr` is negative, they end with `NXT_EOF` unless they are stopped at a command, and
nothing outside of the content is looked at. -/
def ScansInside {σ : Type} (exec : σ → NxtItem → Option σ) (s : σ) (content : List UInt8) : Prop :=
  (nxtCallsAt exec content (content.length + 1) false 0 s).result ≠ none ∧
    ∀ i ∈ (nxtCallsAt exec content (content.length + 1) false 0 s).accessed, i < content.length

/-- The calls of a parser that returns stay in the content. -/
theorem ScansInside.of_nxtParseFile {load : List UInt8 → Bool} {ctx : NxtContext} {index : ℕ}
    {content : List UInt8} {p : NxtParse} {r : NxtContext × ℤ}
    (hstart : nxtParseStart ctx index content = some p)
    (h : nxtParseFile load ctx index content = some r) :
    ScansInside (nxtCallExec load) p content := by
  rw [nxtParseFile, hstart, Option.bind_some] at h
  obtain ⟨file, -, rfl⟩ := Option.map_eq_some_iff.mp hstart
  have hresult := result_nxtCallsAt_of_nxtParseLoop (Nat.zero_le _) rfl h
  exact ⟨hresult, inside_nxtCallsAt _ _ _ _ _ hresult⟩

/-- Whatever is done with the commands, the calls stay in the content if and only if what follows its
last tag meets the condition, or they stop at an earlier command. -/
theorem scansInside_iff {σ : Type} (exec : σ → NxtItem → Option σ) (s : σ) (content : List UInt8) :
    ScansInside exec s content ↔
      ∃ items tail, Tags false content items tail ∧
        (TailEven tail ∨ items.foldlM exec s = none) := by
  have hiff : ∀ {items tail}, Tags false content items tail →
      ((nxtCallsAt exec content (content.length + 1) false 0 s).result ≠ none ↔
        TailEven tail ∨ items.foldlM exec s = none) := fun htags =>
    result_nxtCallsAt_iff 0 htags (Nat.zero_le _) (Nat.lt_succ_self _) s
  constructor
  · rintro ⟨hresult, -⟩
    obtain ⟨items, tail, htags⟩ := exists_tags false content
    exact ⟨items, tail, htags, (hiff htags).mp hresult⟩
  · rintro ⟨items, tail, htags, hcond⟩
    have hresult := (hiff htags).mpr hcond
    exact ⟨hresult, inside_nxtCallsAt exec _ false 0 s hresult⟩

/-- A text that ends with a `%`: the search goes on two bytes further, with the length `-1`. -/
theorem not_scansInside_percent :
    ¬ ScansInside (fun (_ : Unit) _ => some ()) () (bytes "a%") ∧
      3 ∈ (nxtCallsAt (fun (_ : Unit) _ => some ()) (bytes "a%") 3 false 0 ()).accessed := by
  unfold ScansInside
  decide +kernel

end Nxweb
