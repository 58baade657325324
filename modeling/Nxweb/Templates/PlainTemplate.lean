import Mathlib.Data.List.Chain
import Nxweb.Templates.Scanner

/-!
# Templates without inheritance

A template that is not made of other files: text, named blocks in each other, and raw sections.
`PlainTemplate` is the syntax of such a template, `source` its content with all the tags, and `text`
what is left when the tags are removed.

A tag may have blanks around its words, and a name may be a word or a string in quotes. In a raw
section everything may stand in which no `endraw` tag starts.

## Main definitions

* `PlainTemplate`: the syntax;
* `PlainTemplate.source`, `PlainTemplate.text`: with and without tags.

## Main results

* `nxtGetNextCmd_tag`: a tag is read with the text before it;
* `nxtGetNextCmd_raw`: a raw section is read as it is.
-/

namespace Nxweb

/-! ### Tags -/

/-- The end of a tag. -/
def tagEnd : List UInt8 := bytes "%\x7d"

/-- A tag with something in it. -/
def tag (body : List UInt8) : List UInt8 := bytes "\x7b%" ++ body ++ tagEnd

theorem tag_append (body after : List UInt8) :
    tag body ++ after = 123 :: 37 :: (body ++ 37 :: 125 :: after) := by
  change 123 :: 37 :: (body ++ [37, 125]) ++ after = _
  simp

/-- Bytes between words. -/
abbrev Blanks := { s : List UInt8 // ∀ c ∈ s, ¬ isGraph c }

/-- A text outside of tags. -/
abbrev PlainText := { s : List UInt8 // 37 ∉ s }

/-- The blanks in a tag that has only its command. -/
structure TagBlanks where
  before : Blanks := ⟨[], nofun⟩
  after : Blanks := ⟨[], nofun⟩

/-- What such a tag has in it. -/
def TagBlanks.body (b : TagBlanks) (word : List UInt8) : List UInt8 := b.before ++ word ++ b.after

/-- How a name is written: as a word, or in quotes. -/
inductive Spells : List UInt8 → List UInt8 → Prop
  | word {s : List UInt8} : s ≠ [] → (∀ c ∈ s, isGraph c) → s.head? ≠ some 34 → s.head? ≠ some 39 →
      Spells s s
  | quoted {q : UInt8} {s : List UInt8} : q = 34 ∨ q = 39 → q ∉ s → 0 ∉ s → Spells (q :: s ++ [q]) s

/-- No tag ends in a text: no `%` has a `}` behind it. -/
def NoTagEnd (s : List UInt8) : Prop := s.IsChain fun c d => ¬ (c = 37 ∧ d = 125)

/-- A `block` tag. It does not end inside of the name. -/
structure BlockTag where
  before : Blanks := ⟨[], nofun⟩
  between : Blanks
  between_ne : between.1 ≠ []
  name : List UInt8
  spelling : List UInt8
  spells : Spells spelling name
  inside : NoTagEnd spelling
  after : Blanks := ⟨[], nofun⟩

/-- What the tag has in it. -/
def BlockTag.body (b : BlockTag) : List UInt8 :=
  b.before ++ bytes "block" ++ b.between ++ b.spelling ++ b.after

/-- Behind a `{%`, the rest of an `endraw` tag starts: the word, which ends there. -/
def StartsEndraw (s : List UInt8) : Prop :=
  let p := s.dropWhile fun c => ¬ isGraph c
  bytes "endraw" <+: p ∧ ((p.drop 6).head?.any (fun c => ¬ isGraph c) ∨ tagEnd <+: p.drop 6)

instance : DecidablePred StartsEndraw := fun _ => inferInstanceAs (Decidable (_ ∧ (_ ∨ _)))

/-- No `endraw` tag starts in a text. -/
def NoEndraw (s : List UInt8) : Prop := ∀ t ∈ s.tails, bytes "\x7b%" <+: t → ¬ StartsEndraw (t.drop 2)

instance : DecidablePred NoEndraw := fun s => inferInstanceAs (Decidable (∀ t ∈ s.tails, _))

/-- The content of a raw section. -/
abbrev RawText := { s : List UInt8 // NoEndraw s }

/-! ### Templates -/

/-- A template: it ends with its text, or begins with a text in front of a raw section or of a
block. -/
inductive PlainTemplate where
  | text (s : PlainText)
  | raw (s : PlainText) (start : TagBlanks) (content : RawText) (stop : TagBlanks)
      (rest : PlainTemplate)
  | block (s : PlainText) (start : BlockTag) (body : PlainTemplate) (stop : TagBlanks)
      (rest : PlainTemplate)

namespace PlainTemplate

/-- The content of the file. -/
def source : PlainTemplate → List UInt8
  | .text s => s
  | .raw s start content stop rest =>
    s ++ tag (start.body (bytes "raw")) ++ content ++ tag (stop.body (bytes "endraw")) ++ rest.source
  | .block s start body stop rest =>
    s ++ tag start.body ++ body.source ++ tag (stop.body (bytes "endblock")) ++ rest.source

/-- The content without the tags. -/
def removeTags : PlainTemplate → List UInt8
  | .text s => s
  | .raw s _ content _ rest => s ++ content ++ rest.removeTags
  | .block s _ body _ rest => s ++ body.removeTags ++ rest.removeTags

/-- What is outside of all blocks, without the tags. -/
def outside : PlainTemplate → List UInt8
  | .text s => s
  | .raw s _ content _ rest => s ++ content ++ rest.outside
  | .block s _ _ _ rest => s ++ rest.outside

/-- The blocks, each with its name and what is in it. -/
def blocks : PlainTemplate → List (List UInt8 × PlainTemplate)
  | .text _ => []
  | .raw _ _ _ _ rest => rest.blocks
  | .block _ start body _ rest => (start.name, body) :: body.blocks ++ rest.blocks

/-- The names of the blocks. -/
def names (tpl : PlainTemplate) : List (List UInt8) := tpl.blocks.map Prod.fst

/-- How many blocks are around each other at most. -/
def nesting : PlainTemplate → ℕ
  | .text _ => 0
  | .raw _ _ _ _ rest => rest.nesting
  | .block _ _ body _ rest => max (body.nesting + 1) rest.nesting

end PlainTemplate

/-! ### Words -/

/-- Blanks in front of a word are skipped. -/
theorem skipBlanks_append (b : Blanks) {s : List UInt8} (hs : ∀ c ∈ s.head?, isGraph c) :
    skipBlanks (b ++ s) = s := by
  have hb : ∀ c ∈ b.1, decide (¬ isGraph c) = true := fun c hc => by simpa using b.2 c hc
  rw [skipBlanks, List.dropWhile_append_of_pos hb]
  cases s with
  | nil => rfl
  | cons c s => rw [List.dropWhile_cons_of_neg (by simpa using hs c rfl)]

/-- A word ends in front of a blank. -/
theorem span_isGraph_append {word s : List UInt8} (hword : ∀ c ∈ word, isGraph c)
    (hs : ∀ c ∈ s.head?, ¬ isGraph c) :
    (word ++ s).takeWhile isGraph = word ∧ (word ++ s).dropWhile isGraph = s := by
  rw [List.takeWhile_append_of_pos hword, List.dropWhile_append_of_pos hword]
  cases s with
  | nil => exact ⟨List.append_nil word, rfl⟩
  | cons c s =>
    have hc : ¬ isGraph c = true := hs c rfl
    rw [List.takeWhile_cons_of_neg hc, List.dropWhile_cons_of_neg hc]
    exact ⟨List.append_nil word, rfl⟩

theorem Blanks.head (b : Blanks) : ∀ c ∈ b.1.head?, ¬ isGraph c :=
  fun c hc => b.2 c (List.mem_of_mem_head? hc)

/-- A command without arguments is read. -/
theorem nxtParseCmd_word (b : TagBlanks) {word : List UInt8} (hword : ∀ c ∈ word, isGraph c)
    (hne : word ≠ []) (hargs : (nxtCmdOf word).2 = 0) :
    nxtParseCmd (b.body word) = some ((nxtCmdOf word).1, .null) := by
  have hhead : ∀ c ∈ (word ++ b.after.1).head?, isGraph c := by
    intro c hc
    rw [List.head?_append_of_ne_nil _ hne] at hc
    exact hword c (List.mem_of_mem_head? hc)
  obtain ⟨htake, hdrop⟩ := span_isGraph_append hword b.after.head
  rw [nxtParseCmd, TagBlanks.body, List.append_assoc, skipBlanks_append b.before hhead, htake, hdrop]
  simp [hargs, nxtParseArgs]

/-- The name is read back as it is written. -/
theorem Spells.nxtNextArg {spelling name : List UInt8} (h : Spells spelling name) (after : Blanks) :
    (∀ c ∈ (spelling ++ after.1).head?, isGraph c) ∧
      (∃ rest, nxtNextArg (spelling ++ after) = some (name, rest)) ∧ Lib.cstr name = name := by
  cases h with
  | word hne hgraph hdouble hsingle =>
    obtain ⟨c, s, rfl⟩ := List.exists_cons_of_ne_nil hne
    refine ⟨?_, ⟨after, ?_⟩, Lib.cstr_of_notMem fun hzero => ?_⟩
    · rintro _ ⟨⟩
      exact hgraph c List.mem_cons_self
    · have hq : ¬ (c = 34 ∨ c = 39) := by
        rintro (rfl | rfl)
        · exact hdouble rfl
        · exact hsingle rfl
      obtain ⟨htake, hdrop⟩ := span_isGraph_append hgraph after.head
      rw [List.cons_append] at htake hdrop ⊢
      rw [Nxweb.nxtNextArg, if_neg hq, htake, hdrop]
    · have hzero := hgraph 0 hzero
      contradiction
  | @quoted q s hq hnot hzero =>
    refine ⟨?_, ⟨after, ?_⟩, Lib.cstr_of_notMem hzero⟩
    · rintro _ ⟨⟩
      rcases hq with rfl | rfl <;> decide
    · have hs : ∀ c ∈ name, decide (c ≠ q) = true := by
        intro c hc
        simpa using fun heq : c = q => hnot (heq ▸ hc)
      have hmem : q ∈ name ++ [q] ++ after.1 := by simp
      have htake : (name ++ [q] ++ after.1).takeWhile (· ≠ q) = name := by
        rw [List.append_assoc, List.takeWhile_append_of_pos hs]
        simp
      have hdrop : (name ++ [q] ++ after.1).dropWhile (· ≠ q) = q :: after.1 := by
        rw [List.append_assoc, List.dropWhile_append_of_pos hs]
        simp
      rw [List.cons_append, List.cons_append, Nxweb.nxtNextArg, if_pos hq, if_pos hmem, htake, hdrop]
      rfl

/-- A `block` tag is read. -/
theorem BlockTag.nxtParseCmd (b : BlockTag) :
    ∃ args, nxtParseCmd b.body = some (.block, args) ∧ args.str 0 = some b.name := by
  obtain ⟨hgraph, ⟨rest, harg⟩, hname⟩ := b.spells.nxtNextArg b.after
  have hblock : ∀ c ∈ bytes "block", isGraph c := by decide
  have hbetween : ∀ c ∈ (b.between.1 ++ (b.spelling ++ b.after.1)).head?, ¬ isGraph c := by
    intro c hc
    rw [List.head?_append_of_ne_nil _ b.between_ne] at hc
    exact b.between.head c hc
  obtain ⟨htake, hdrop⟩ := span_isGraph_append hblock hbetween
  have hbody : b.body = b.before ++ (bytes "block" ++ (b.between ++ (b.spelling ++ b.after))) := by
    simp [BlockTag.body]
  have hhead : ∀ c ∈ (bytes "block" ++ (b.between.1 ++ (b.spelling ++ b.after.1))).head?,
      isGraph c := by
    rintro _ ⟨⟩
    decide
  refine ⟨NxtArgs.null.set 0 (some b.name), ?_, ?_⟩
  · rw [Nxweb.nxtParseCmd, hbody, skipBlanks_append b.before hhead, htake, hdrop]
    have hcmd : nxtCmdOf (bytes "block") = (.block, 1) := by decide
    simp only [hcmd, nxtParseArgs, skipBlanks_append b.between hgraph, harg]
    rfl
  · change some (Lib.cstr b.name) = some b.name
    rw [hname]

/-! ### Where a tag ends -/

theorem noTagEnd_of_notMem {s : List UInt8} (h : 125 ∉ s) : NoTagEnd s :=
  List.isChain_iff_getElem.mpr fun _ _ hend => h (hend.2 ▸ List.getElem_mem _)

theorem Blanks.notMem (b : Blanks) {c : UInt8} (hc : isGraph c) : c ∉ b.1 := fun h => b.2 c h hc

/-- A command without arguments has no end of a tag in it. -/
theorem TagBlanks.noTagEnd (b : TagBlanks) {word : List UInt8} (hword : 125 ∉ word) :
    NoTagEnd (37 :: b.body word) := by
  refine noTagEnd_of_notMem ?_
  simp [TagBlanks.body, hword, b.before.notMem, b.after.notMem, show isGraph 125 from rfl]

/-- Neither has a `block` tag. -/
theorem BlockTag.noTagEnd (b : BlockTag) : NoTagEnd (37 :: b.body) := by
  have hfirst : 125 ∉ 37 :: (b.before.1 ++ bytes "block" ++ b.between.1) := by
    simp [b.before.notMem, b.between.notMem, show isGraph 125 from rfl,
      show 125 ∉ bytes "block" by decide]
  have hlast : ∀ c ∈ (37 :: (b.before.1 ++ bytes "block" ++ b.between.1)).getLast?, c ≠ 37 := by
    rintro c hc rfl
    rw [← List.cons_append, ← List.cons_append, List.getLast?_append_of_ne_nil _ b.between_ne] at hc
    exact b.between.notMem (by decide) (List.mem_of_getLast? hc)
  have hname : NoTagEnd (b.spelling ++ b.after.1) := by
    refine List.IsChain.append b.inside (noTagEnd_of_notMem (b.after.notMem (by decide))) ?_
    rintro c - d hd ⟨-, rfl⟩
    exact b.after.notMem (by decide) (List.mem_of_mem_head? hd)
  have hbody : 37 :: b.body =
      37 :: (b.before.1 ++ bytes "block" ++ b.between.1) ++ (b.spelling ++ b.after.1) := by
    simp [BlockTag.body]
  rw [hbody]
  exact List.IsChain.append (noTagEnd_of_notMem hfirst) hname fun c hc d _ h => hlast c hc h.1

/-- The end of a tag is found. -/
theorem findClose_tag {skip : Bool} {prev : UInt8} {body : List UInt8}
    (h : NoTagEnd (prev :: body)) (after : List UInt8) :
    findClose skip prev (body ++ 37 :: 125 :: after) = .found (body ++ [37], after) := by
  induction body generalizing skip prev with
  | nil => simp [findClose, NxtSearch.map]
  | cons c body ih =>
    obtain ⟨hpair, hrest⟩ := List.isChain_cons_cons.mp h
    rw [List.cons_append, findClose]
    split_ifs with hc hprev
    · exact absurd ⟨hprev, hc.1⟩ hpair
    all_goals
      rw [ih hrest]
      rfl

/-- The search ends at a `%}` at the latest. -/
theorem exists_findClose (skip : Bool) (prev : UInt8) (s after : List UInt8) :
    ∃ body after', findClose skip prev (s ++ 37 :: 125 :: after) = .found (body, after') := by
  induction s generalizing skip prev with
  | nil => exact ⟨[37], after, by simp [findClose, NxtSearch.map]⟩
  | cons c s ih =>
    rw [List.cons_append, findClose]
    split_ifs
    · exact ⟨_, _, rfl⟩
    all_goals
      obtain ⟨body, after', hfound⟩ := ih _ c
      rw [hfound]
      exact ⟨_, _, rfl⟩

/-- A `%` is found in front of the `}`. -/
theorem findClose_getLast {skip : Bool} {prev : UInt8} {pe body after : List UInt8}
    (h : findClose skip prev pe = .found (body, after)) : (prev :: body).getLast? = some 37 := by
  induction pe generalizing skip prev body with
  | nil => simp only [findClose] at h; split at h <;> cases h
  | cons c pe ih =>
    simp only [findClose] at h
    split_ifs at h with hc hprev
    · obtain ⟨rfl, -⟩ : [] = body ∧ pe = after := by simpa using h
      rw [hprev]
      rfl
    all_goals
      obtain ⟨⟨body', after'⟩, hfound, hcons⟩ := NxtSearch.map_eq_found.mp h
      obtain ⟨rfl, rfl⟩ : c :: body' = body ∧ after' = after := by simpa using hcons
      rw [List.getLast?_cons_cons]
      exact ih hfound

/-! ### Where a tag begins -/

/-- The tag behind a text is found. -/
theorem nextTag_text {t body after : List UInt8} (ht : 37 ∉ t) (hbody : NoTagEnd (37 :: body))
    {cmd : NxtCmd} {args : NxtArgs} (hcmd : nxtParseCmd body = some (cmd, args)) {prev : UInt8}
    {pb : List UInt8} (hpb : prev :: pb = t ++ (tag body ++ after)) :
    ∃ before, nextTag false false prev pb = .found { before, cmd, args, after } ∧
      prev :: before = t ++ [123] := by
  rw [tag_append] at hpb
  induction t generalizing prev pb with
  | nil =>
    obtain ⟨rfl, rfl⟩ := List.cons.inj hpb
    refine ⟨[], ?_, rfl⟩
    simp [nextTag, findClose_tag hbody, hcmd]
  | cons x t ih =>
    rw [List.cons_append] at hpb
    obtain ⟨rfl, rfl⟩ := List.cons.inj hpb
    have ht' : 37 ∉ t := fun h => ht (List.mem_cons_of_mem _ h)
    obtain ⟨c, pb, hc, hne⟩ : ∃ c pb, c :: pb = t ++ 123 :: 37 :: (body ++ 37 :: 125 :: after) ∧
        c ≠ 37 := by
      cases t with
      | nil => exact ⟨_, _, rfl, by decide⟩
      | cons c t => exact ⟨_, _, rfl, fun h => ht' (h ▸ List.mem_cons_self)⟩
    obtain ⟨before, hfound, hbefore⟩ := ih ht' hc
    rw [← hc, nextTag, if_neg (fun h => hne h.1), hfound]
    exact ⟨c :: before, rfl, by rw [hbefore, List.cons_append]⟩

/-- Behind the last tag none is found. -/
theorem nextTag_none {pb : List UInt8} (hpb : 37 ∉ pb) (prev : UInt8) :
    nextTag false false prev pb = .notFound := by
  induction pb generalizing prev with
  | nil => rfl
  | cons c pb ih =>
    have hc : c ≠ 37 := fun h => hpb (h ▸ List.mem_cons_self)
    rw [nextTag, if_neg (fun h => hc h.1), ih fun h => hpb (List.mem_cons_of_mem _ h)]
    rfl

/-- A tag in which the word `endraw` is read has been started by what stands in front of the next
tag. -/
theorem startsEndraw_of_word {s rest body after : List UInt8}
    (hclose : s ++ 123 :: rest = body ++ 125 :: after) (hlast : (37 :: body).getLast? = some 37)
    (hword : (skipBlanks body.dropLast).takeWhile isGraph = bytes "endraw") : StartsEndraw s := by
  -- the tag ends behind the blanks and the word
  obtain ⟨d, hd⟩ : ∃ d, body = d ++ [37] := by
    rcases List.eq_nil_or_concat' body with rfl | ⟨d, c, rfl⟩
    · cases hword
    · rw [← List.cons_append, List.getLast?_concat] at hlast
      exact ⟨d, by rw [Option.some.inj hlast]⟩
  rw [hd, List.dropLast_concat] at hword
  rw [hd, List.append_assoc, List.singleton_append] at hclose
  have hblanks : ∀ c ∈ d.takeWhile fun c => ¬ isGraph c, ¬ isGraph c := fun c hc => by
    simpa using List.mem_takeWhile_imp hc
  obtain ⟨blanks, r, hsplit, hr⟩ : ∃ (blanks : Blanks) (r : List UInt8),
      d = blanks ++ (bytes "endraw" ++ r) ∧ ∀ c ∈ r.head?, ¬ isGraph c := by
    refine ⟨⟨_, hblanks⟩, (skipBlanks d).dropWhile isGraph, ?_, ?_⟩
    · rw [← hword, List.takeWhile_append_dropWhile]
      exact (List.takeWhile_append_dropWhile ..).symm
    · intro c hc hgraph
      have hfalse := List.head?_dropWhile_not isGraph (skipBlanks d)
      rw [Option.mem_def.mp hc] at hfalse
      exact absurd hgraph (by simpa using hfalse)
  -- a `{` is in none of them
  obtain ⟨c, rfl, hc⟩ : ∃ c, s = blanks.1 ++ bytes "endraw" ++ c ∧
      c ++ 123 :: rest = r ++ 37 :: 125 :: after := by
    rw [hsplit, ← List.append_assoc, List.append_assoc _ r] at hclose
    rcases List.append_eq_append_iff.mp hclose with ⟨a, ha, hrest⟩ | ⟨c, hs, hrest⟩
    · cases a with
      | nil => exact ⟨[], by simpa using ha.symm, by simpa using hrest⟩
      | cons x a =>
        have hx : x = 123 := (List.cons.inj hrest).1.symm
        have hmem : x ∈ blanks.1 ++ bytes "endraw" := by simp [ha]
        rw [hx] at hmem
        rcases List.mem_append.mp hmem with hmem | hmem
        · exact absurd hmem (blanks.notMem (by decide))
        · exact absurd hmem (by decide)
    · exact ⟨c, hs, hrest.symm⟩
  have hdrop : (blanks.1 ++ bytes "endraw" ++ c).dropWhile (fun c => ¬ isGraph c) =
      bytes "endraw" ++ c := by
    rw [List.append_assoc]
    exact skipBlanks_append blanks (by rintro _ ⟨⟩; decide)
  rw [StartsEndraw, hdrop]
  refine ⟨List.prefix_append _ _, ?_⟩
  change (c.head?.any fun c => ¬ isGraph c) = true ∨ tagEnd <+: c
  cases r with
  | nil =>
    -- the word ends in front of the `%}`
    right
    obtain _ | ⟨x, _ | ⟨y, c⟩⟩ := c
    · cases (List.cons.inj hc).1
    · cases (List.cons.inj (List.cons.inj hc).2).1
    · obtain ⟨hx, hc'⟩ := List.cons.inj hc
      obtain ⟨hy, -⟩ := List.cons.inj hc'
      rw [hx, hy]
      exact ⟨c, rfl⟩
  | cons x r =>
    left
    cases c with
    | nil =>
      have hx := hr x rfl
      rw [← (List.cons.inj hc).1] at hx
      exact absurd rfl hx
    | cons y c =>
      obtain ⟨rfl, -⟩ := List.cons.inj hc
      simpa using hr y rfl

/-- In a raw section the search goes on up to the `endraw` tag. -/
theorem nextTag_raw {content : List UInt8} (h : NoEndraw content) (b : TagBlanks)
    (after : List UInt8) {skip : Bool} {prev : UInt8} {pb : List UInt8}
    (hpb : prev :: pb = content ++ (tag (b.body (bytes "endraw")) ++ after))
    (hskip : skip = true → prev = 37) :
    ∃ before, nextTag true skip prev pb =
        .found { before, cmd := .endraw, args := .null, after } ∧
      prev :: before = content ++ [123] := by
  have hcmd : nxtParseCmd (b.body (bytes "endraw")) = some (.endraw, .null) :=
    nxtParseCmd_word b (by decide) (by decide) (by decide)
  have hend := b.noTagEnd (show 125 ∉ bytes "endraw" by decide)
  rw [tag_append] at hpb
  induction content generalizing skip prev pb with
  | nil =>
    obtain ⟨rfl, rfl⟩ := List.cons.inj hpb
    have hskip : skip = false := by
      cases skip with
      | false => rfl
      | true => exact absurd (hskip rfl) (by decide)
    refine ⟨[], ?_, rfl⟩
    simp [nextTag, findClose_tag hend, hcmd, hskip]
  | cons x content ih =>
    rw [List.cons_append] at hpb
    obtain ⟨rfl, rfl⟩ := List.cons.inj hpb
    have hcontent : NoEndraw content := fun t ht => h t (by rw [List.tails_cons]; exact .tail _ ht)
    obtain ⟨c, pb, hc⟩ : ∃ c pb', c :: pb' =
        content ++ 123 :: 37 :: (b.body (bytes "endraw") ++ 37 :: 125 :: after) := by
      cases content <;> exact ⟨_, _, rfl⟩
    have hnext : ∀ skip, (skip = true → c = 37) → ∃ before,
        (nextTag true skip c pb).map (NxtTag.cons c) =
            .found { before, cmd := .endraw, args := .null, after } ∧
          prev :: before = prev :: content ++ [123] := by
      intro skip hskip
      obtain ⟨before, hfound, hbefore⟩ := ih hcontent hc hskip
      rw [hfound]
      exact ⟨c :: before, rfl, by rw [hbefore, List.cons_append]⟩
    rw [← hc, nextTag]
    split_ifs with hpercent hprev
    · -- a tag starts in the content: it is closed at the end of the `endraw` tag at the latest
      obtain ⟨rfl, -⟩ := hpercent
      obtain ⟨s, rfl⟩ : ∃ s, content = 37 :: s := by
        cases content with
        | nil => cases (List.cons.inj hc).1
        | cons c s => exact ⟨s, by rw [(List.cons.inj hc).1]⟩
      rw [List.cons_append] at hc
      obtain ⟨-, rfl⟩ := List.cons.inj hc
      obtain ⟨body, after', hclose⟩ := exists_findClose false 37
        (s ++ 123 :: 37 :: b.body (bytes "endraw")) after
      rw [List.append_assoc, List.cons_append, List.cons_append] at hclose
      obtain ⟨args, hparse, -⟩ := nxtParseCmd_eq_some body.dropLast
      have hne : (nxtCmdOf ((skipBlanks body.dropLast).takeWhile isGraph)).1 ≠ .endraw := by
        intro heq
        have hstarts := startsEndraw_of_word (findClose_eq_found hclose) (findClose_getLast hclose)
          (nxtCmdOf_eq_endraw.mp heq)
        refine h (prev :: 37 :: s) (by simp [List.tails]) ?_ hstarts
        rw [hprev]
        exact ⟨s, rfl⟩
      rw [hclose]
      simp only [hparse]
      rw [if_pos ⟨trivial, hne⟩]
      exact hnext true fun _ => rfl
    · exact hnext true fun _ => hpercent.1
    · exact hnext false (by simp)

/-! ### Commands -/

/-- What is not empty has a first byte. -/
theorem append_tag_eq_cons (t body after : List UInt8) :
    ∃ c pb, c :: pb = t ++ (tag body ++ after) := by
  cases t <;> exact ⟨_, _, rfl⟩

/-- A tag is read with the text in front of it. -/
theorem nxtGetNextCmd_tag {t body : List UInt8} (ht : 37 ∉ t) (hbody : NoTagEnd (37 :: body))
    {cmd : NxtCmd} {args : NxtArgs} (hcmd : nxtParseCmd body = some (cmd, args))
    (after : List UInt8) :
    nxtGetNextCmd false (t ++ (tag body ++ after)) =
      if cmd = .raw then some { cmd := .none, text := t, args, rawMode := true, rest := after }
      else some { cmd, text := t, args, rawMode := false, rest := after } := by
  obtain ⟨c, pb, hpb⟩ := append_tag_eq_cons t body after
  obtain ⟨before, hfound, hbefore⟩ := nextTag_text ht hbody hcmd hpb
  rw [← hpb, nxtGetNextCmd, hfound]
  simp only [hbefore, List.dropLast_concat, Bool.false_eq_true, if_false]

/-- A raw section is read as it is. -/
theorem nxtGetNextCmd_raw (content : RawText) (b : TagBlanks) (after : List UInt8) :
    nxtGetNextCmd true (content ++ (tag (b.body (bytes "endraw")) ++ after)) =
      some { cmd := .none, text := content, rawMode := false, rest := after } := by
  obtain ⟨c, pb, hpb⟩ := append_tag_eq_cons content (b.body (bytes "endraw")) after
  obtain ⟨before, hfound, hbefore⟩ := nextTag_raw content.2 b after hpb Bool.false_ne_true.elim
  rw [← hpb, nxtGetNextCmd, hfound]
  simp only [hbefore, List.dropLast_concat]
  rfl

/-- The text behind the last tag is read. -/
theorem nxtGetNextCmd_text {t : List UInt8} (ht : 37 ∉ t) (hne : t ≠ []) :
    nxtGetNextCmd false t = some { cmd := .none, text := t, rawMode := false, rest := [] } := by
  obtain ⟨c, pb, rfl⟩ := List.exists_cons_of_ne_nil hne
  rw [nxtGetNextCmd, nextTag_none fun h => ht (List.mem_cons_of_mem _ h)]

end Nxweb
