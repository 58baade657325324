import Nxweb.Http.Text
import Nxweb.Lib.CString

/-!
# Scanning a template

A template is text with tags `{% command arguments %}`. `nxt_get_next_cmd` of `templates.c` finds
the next tag, and `nxt_parse_cmd` reads the command in it and its arguments. Between a `raw` tag
and the next `endraw` tag no other tag counts.

The pointers into the content are modeled by what follows them: `rest` is the content from `*ptr`
on, and the searches take the content from where they begin, with the byte before it. A search
that steps over a byte may leave the content. From there it would read what lies behind, so the
model ends with `overrun`. The zeros that the parser writes behind the arguments of a tag are not
modeled: they are inside the tag, which is not read again.

## Main definitions

* `nxtParseCmd`: the command and the arguments in a tag;
* `nextTag`: the search for the next tag;
* `nxtGetNextCmd`: the next command, and the text before it.

## Main results

* `nxtParseCmd_eq_some`: the argument array is large enough, and its last pair stays null;
* `nxtGetNextCmd_length_lt`: every command takes something of the content.
-/

namespace Nxweb

/-! ### Commands -/

/-- `nxt_cmd`. -/
inductive NxtCmd where
  | eof
  | none
  | raw
  | endraw
  | block
  | endblock
  | use
  | includeFile
  | includeParent
  deriving DecidableEq, Repr

/-- `NXT_MAX_ARGS`. -/
def nxtMaxArgs : ℕ := 32

/-- The command that a word names, and how many arguments are read for it (`expect_args`). -/
def nxtCmdOf (word : List UInt8) : NxtCmd × ℕ :=
  if word = bytes "raw" then (.raw, 0)
  else if word = bytes "use" then (.use, nxtMaxArgs - 1)
  else if word = bytes "block" then (.block, 1)
  else if word = bytes "endraw" then (.endraw, 0)
  else if word = bytes "parent" then (.includeParent, 0)
  else if word = bytes "extends" then (.use, nxtMaxArgs - 1)
  else if word = bytes "include" then (.includeFile, 1)
  else if word = bytes "endblock" then (.endblock, 0)
  else (.none, 0)

/-- No command takes all places of the argument array. -/
theorem nxtCmdOf_lt (word : List UInt8) : (nxtCmdOf word).2 < nxtMaxArgs := by
  unfold nxtCmdOf
  split_ifs <;> decide

/-- A raw section ends at this word only. -/
theorem nxtCmdOf_eq_endraw {word : List UInt8} :
    (nxtCmdOf word).1 = .endraw ↔ word = bytes "endraw" := by
  constructor
  · intro h
    unfold nxtCmdOf at h
    split_ifs at h with _ _ _ hword
    exact hword
  · rintro rfl
    decide

/-! ### Arguments -/

/-- The argument array of the parser: the start and end pointers of a pair are modeled by the bytes
between them, null pointers by `none`. -/
abbrev NxtArgs := List (Option (List UInt8))

/-- The array after the `memset`. -/
def NxtArgs.null : NxtArgs := List.replicate nxtMaxArgs none

/-- The pair at `idx` is written, `none` if that is outside of the array. -/
def NxtArgs.write (args : NxtArgs) (idx : ℕ) (arg : List UInt8) : Option NxtArgs :=
  if idx < args.length then some (args.set idx (some arg)) else none

/-- The string that the pair at `idx` points to once the parser has put a zero behind it. -/
def NxtArgs.str (args : NxtArgs) (idx : ℕ) : Option (List UInt8) :=
  (args[idx]?.join).map Lib.cstr

/-- `p` behind the blanks at the start. -/
def skipBlanks (p : List UInt8) : List UInt8 := p.dropWhile fun c => ¬ isGraph c

/-- An argument at `p`, and what follows it: a string in quotes, or a word. A quote that is not
closed is an error. -/
def nxtNextArg (p : List UInt8) : Option (List UInt8 × List UInt8) :=
  match p with
  | [] => none
  | q :: p =>
    if q = 34 ∨ q = 39 then
      if q ∈ p then some (p.takeWhile (· ≠ q), (p.dropWhile (· ≠ q)).drop 1) else none
    else some ((q :: p).takeWhile isGraph, (q :: p).dropWhile isGraph)

/-- The loop over the arguments: at most `n` more are read from `p`, the next one at `idx`. -/
def nxtParseArgs (n idx : ℕ) (p : List UInt8) (args : NxtArgs) : Option NxtArgs :=
  match n with
  | 0 => some args
  | n + 1 =>
    match nxtNextArg (skipBlanks p) with
    | none => some args
    | some (arg, p) => (args.write idx arg).bind fun args => nxtParseArgs n (idx + 1) p args

/-- `nxt_parse_cmd`: the command in a tag and its arguments, `none` if the argument array is
overrun. -/
def nxtParseCmd (body : List UInt8) : Option (NxtCmd × NxtArgs) :=
  let p := skipBlanks body
  let (cmd, expectArgs) := nxtCmdOf (p.takeWhile isGraph)
  (nxtParseArgs expectArgs 0 (p.dropWhile isGraph) .null).map (cmd, ·)

/-! ### The search for a tag -/

/-- What a search leads to. -/
inductive NxtSearch (α : Type) where
  | found (a : α)
  | notFound
  | overrun
  deriving DecidableEq, Repr

/-- The result of a search, seen from a byte further back. -/
def NxtSearch.map {α β : Type} (f : α → β) : NxtSearch α → NxtSearch β
  | .found a => .found (f a)
  | .notFound => .notFound
  | .overrun => .overrun

@[simp]
theorem NxtSearch.map_eq_found {α β : Type} {f : α → β} {r : NxtSearch α} {b : β} :
    r.map f = .found b ↔ ∃ a, r = .found a ∧ f a = b := by
  cases r <;> simp [NxtSearch.map]

/-- The search for the `}` of a tag, from `pe` on; `prev` is the byte before it. It gives the bytes
from `pe` to the `}`, and those behind it. `skip` says that the byte at `pe` is not looked at: so
it is after a `}` that does not end the tag. -/
def findClose (skip : Bool) (prev : UInt8) (pe : List UInt8) :
    NxtSearch (List UInt8 × List UInt8) :=
  match pe with
  | [] => if skip then .overrun else .notFound
  | c :: pe =>
    if c = 125 ∧ ¬ skip then
      if prev = 37 then .found ([], pe)
      else (findClose true c pe).map fun (before, after) => (c :: before, after)
    else (findClose false c pe).map fun (before, after) => (c :: before, after)

/-- A tag that has been found: the bytes from where the search began to its `%`, the command in it
with its arguments, and what follows it. -/
structure NxtTag where
  before : List UInt8
  cmd : NxtCmd
  args : NxtArgs
  after : List UInt8
  deriving DecidableEq, Repr

/-- The tag, found from a byte further back. -/
def NxtTag.cons (c : UInt8) (tag : NxtTag) : NxtTag := { tag with before := c :: tag.before }

/-- The search for a tag, from `pb` on; `prev` is the byte before it. In raw mode only an `endraw`
tag is looked for. `skip` says that the byte at `pb` is not looked at: so it is after a `%` that
does not start a tag, and after one that starts a tag to pass over. -/
def nextTag (rawMode skip : Bool) (prev : UInt8) (pb : List UInt8) : NxtSearch NxtTag :=
  match pb with
  | [] => if skip then .overrun else .notFound
  | c :: pb =>
    if c = 37 ∧ ¬ skip then
      if prev = 123 then
        match findClose false c pb with
        | .notFound => .notFound
        | .overrun => .overrun
        | .found (body, after) =>
          -- the body of `{%}` is empty as well: its length is negative
          match nxtParseCmd body.dropLast with
          | none => .overrun
          | some (cmd, args) =>
            if rawMode ∧ cmd ≠ .endraw then (nextTag rawMode true c pb).map (.cons c)
            else .found { before := [], cmd, args, after }
      else (nextTag rawMode true c pb).map (.cons c)
    else (nextTag rawMode false c pb).map (.cons c)

/-- What `nxt_get_next_cmd` gives, and `*ptr` and `*raw_mode` after it. -/
structure NxtItem where
  cmd : NxtCmd
  text : List UInt8 := []
  args : NxtArgs := .null
  rawMode : Bool
  rest : List UInt8
  deriving DecidableEq, Repr

/-- `nxt_get_next_cmd`, `none` if the content or the argument array is overrun. -/
def nxtGetNextCmd (rawMode : Bool) (rest : List UInt8) : Option NxtItem :=
  match rest with
  | [] => some { cmd := .eof, rawMode, rest := [] }
  | c :: pb =>
    match nextTag rawMode false c pb with
    | .overrun => none
    | .notFound => some { cmd := .none, text := rest, rawMode, rest := [] }
    | .found tag =>
      -- the text ends before the `{`
      let text := (c :: tag.before).dropLast
      if rawMode then
        some { cmd := .none, text, args := tag.args, rawMode := false, rest := tag.after }
      else if tag.cmd = .raw then
        some { cmd := .none, text, args := tag.args, rawMode := true, rest := tag.after }
      else some { cmd := tag.cmd, text, args := tag.args, rawMode := false, rest := tag.after }

/-! ### The argument array -/

/-- At most `n` pairs from `idx` on are written. -/
theorem nxtParseArgs_eq_some (n idx : ℕ) (p : List UInt8) (args : NxtArgs)
    (h : idx + n ≤ args.length) :
    ∃ args', nxtParseArgs n idx p args = some args' ∧ args'.length = args.length ∧
      ∀ i, idx + n ≤ i → args'[i]? = args[i]? := by
  induction n generalizing idx p args with
  | zero => exact ⟨args, rfl, rfl, fun _ _ => rfl⟩
  | succ n ih =>
    cases harg : nxtNextArg (skipBlanks p) with
    | none => exact ⟨args, by simp [nxtParseArgs, harg], rfl, fun _ _ => rfl⟩
    | some found =>
      obtain ⟨arg, p'⟩ := found
      have hwrite : args.write idx arg = some (args.set idx (some arg)) :=
        if_pos (by omega)
      obtain ⟨args', hparse, hlength, hkeep⟩ :=
        ih (idx + 1) p' (args.set idx (some arg)) (by simp; omega)
      refine ⟨args', by simp [nxtParseArgs, harg, hwrite, hparse], by simpa using hlength, ?_⟩
      intro i hi
      rw [hkeep i (by omega), List.getElem?_set_ne (by omega)]

/-- The argument array is large enough for every tag, and its last pair stays null. -/
theorem nxtParseCmd_eq_some (body : List UInt8) :
    ∃ args : NxtArgs, nxtParseCmd body =
        some ((nxtCmdOf ((skipBlanks body).takeWhile isGraph)).1, args) ∧
      args.length = nxtMaxArgs ∧ args[nxtMaxArgs - 1]? = some none := by
  have hlt := nxtCmdOf_lt ((skipBlanks body).takeWhile isGraph)
  obtain ⟨args, hparse, hlength, hkeep⟩ :=
    nxtParseArgs_eq_some (nxtCmdOf ((skipBlanks body).takeWhile isGraph)).2 0
      ((skipBlanks body).dropWhile isGraph) .null (by simp [NxtArgs.null]; omega)
  refine ⟨args, by simp [nxtParseCmd, hparse], by simp [hlength, NxtArgs.null], ?_⟩
  rw [hkeep _ (by omega)]
  rfl

/-! ### Progress -/

/-- A tag ends at the `}` that is found. -/
theorem findClose_eq_found {skip : Bool} {prev : UInt8} {pe before after : List UInt8}
    (h : findClose skip prev pe = .found (before, after)) : pe = before ++ 125 :: after := by
  induction pe generalizing skip prev before with
  | nil => simp only [findClose] at h; split at h <;> cases h
  | cons c pe ih =>
    simp only [findClose] at h
    split_ifs at h with hc hprev
    · obtain ⟨rfl, rfl⟩ : [] = before ∧ pe = after := by simpa using h
      simp [hc.1]
    all_goals
      obtain ⟨⟨before', after'⟩, hfound, hcons⟩ := NxtSearch.map_eq_found.mp h
      obtain ⟨rfl, rfl⟩ : c :: before' = before ∧ after' = after := by simpa using hcons
      rw [ih hfound, List.cons_append]

/-- A tag that is found has been parsed, and what follows it is shorter than where the search
began. -/
theorem nextTag_eq_found {rawMode skip : Bool} {prev : UInt8} {pb : List UInt8} {tag : NxtTag}
    (h : nextTag rawMode skip prev pb = .found tag) :
    (∃ body, nxtParseCmd body = some (tag.cmd, tag.args)) ∧ tag.after.length < pb.length := by
  induction pb generalizing skip prev tag with
  | nil => simp only [nextTag] at h; split at h <;> cases h
  | cons c pb ih =>
    have hcons : ∀ {skip}, (nextTag rawMode skip c pb).map (.cons c) = .found tag →
        (∃ body, nxtParseCmd body = some (tag.cmd, tag.args)) ∧
          tag.after.length < (c :: pb).length := by
      intro skip hmap
      obtain ⟨tag', hfound, rfl⟩ := NxtSearch.map_eq_found.mp hmap
      exact ⟨(ih hfound).1, (ih hfound).2.trans (by simp)⟩
    simp only [nextTag] at h
    split_ifs at h with hc hprev
    · split at h
      · cases h
      · cases h
      · rename_i body after hclose
        split at h
        · cases h
        · rename_i cmd args hparse
          split_ifs at h
          · exact hcons h
          · obtain rfl := NxtSearch.found.inj h
            refine ⟨⟨_, hparse⟩, ?_⟩
            rw [findClose_eq_found hclose]
            simp
            omega
    · exact hcons h
    · exact hcons h

/-- The content ends with `NXT_EOF`, and every other command takes something of it. -/
theorem nxtGetNextCmd_length_lt {rawMode : Bool} {rest : List UInt8} {item : NxtItem}
    (h : nxtGetNextCmd rawMode rest = some item) (hrest : rest ≠ []) :
    item.rest.length < rest.length := by
  cases rest with
  | nil => contradiction
  | cons c pb =>
    simp only [nxtGetNextCmd] at h
    split at h
    · cases h
    · obtain rfl := Option.some.inj h
      simp
    · rename_i tag htag
      have hlt := (nextTag_eq_found htag).2
      split_ifs at h <;> obtain rfl := Option.some.inj h <;> exact Nat.lt_succ_of_lt hlt

/-- No word names `NXT_EOF`. -/
theorem nxtCmdOf_ne_eof (word : List UInt8) : (nxtCmdOf word).1 ≠ .eof := by
  unfold nxtCmdOf
  split_ifs <;> exact nofun

/-- `NXT_EOF` is given at the end of the content only. -/
theorem nxtGetNextCmd_eof {rawMode : Bool} {rest : List UInt8} {item : NxtItem}
    (h : nxtGetNextCmd rawMode rest = some item) (hcmd : item.cmd = .eof) : rest = [] := by
  cases rest with
  | nil => rfl
  | cons c pb =>
    simp only [nxtGetNextCmd] at h
    split at h
    · cases h
    · obtain rfl := Option.some.inj h
      cases hcmd
    · rename_i tag htag
      obtain ⟨⟨body, hparse⟩, -⟩ := nextTag_eq_found htag
      obtain ⟨args, hparse', -⟩ := nxtParseCmd_eq_some body
      split_ifs at h <;> obtain rfl := Option.some.inj h
      · cases hcmd
      · cases hcmd
      · have heq := (Prod.mk.inj (Option.some.inj (hparse.symm.trans hparse'))).1
        exact absurd (heq.symm.trans hcmd) (nxtCmdOf_ne_eof _)

end Nxweb
