import Nxweb.Templates.Inheritance
import Nxweb.Templates.PlainTemplate

/-!
# Rendering removes the tags

A template that does not refer to other files is rendered as its content without the tags, and with
its raw sections as they are. One whose text outside of all blocks is blank is rendered as nothing,
because a blank top block is not a definition.

## Main definitions

* `PlainCmd`: a command of such a template;
* `Reads`: the commands that are read from a content;
* `PlainTemplate.cmds`: the commands of a template.

## Main results

* `PlainTemplate.reads_source`: the commands of a template are read from its source;
* `nxtParse_removes_tags`: parsing, merging and rendering.
-/

namespace Nxweb

open Lib

/-! ### Commands -/

/-- A command with the text in front of it. The tags of a raw section only separate texts. -/
inductive PlainCmd where
  | text (s : List UInt8)
  | block (s name : List UInt8)
  | endblock (s : List UInt8)

/-- The name that a command gives a block. -/
def PlainCmd.blockName : PlainCmd → Option (List UInt8)
  | .block _ name => some name
  | _ => none

/-- What is read is the command. -/
def NxtItem.IsCmd (item : NxtItem) : PlainCmd → Prop
  | .text s => item.cmd = .none ∧ item.text = s
  | .block s name => item.cmd = .block ∧ item.text = s ∧ item.args.str 0 = some name
  | .endblock s => item.cmd = .endblock ∧ item.text = s

/-- The commands are read one after the other, up to the end of the content. -/
inductive Reads : Bool → List UInt8 → List PlainCmd → Prop
  | eof {rawMode : Bool} : Reads rawMode [] []
  | cons {rawMode : Bool} {rest : List UInt8} {item : NxtItem} {cmd : PlainCmd}
      {cmds : List PlainCmd} :
      nxtGetNextCmd rawMode rest = some item → item.IsCmd cmd →
        Reads item.rawMode item.rest cmds → Reads rawMode rest (cmd :: cmds)

namespace PlainTemplate

/-- The commands of a template, with those that begin with its last text. -/
def cmds : PlainTemplate → (List UInt8 → List PlainCmd) → List PlainCmd
  | .text s, last => last s
  | .raw s _ content _ rest, last => .text s :: .text content :: rest.cmds last
  | .block s start body _ rest, last =>
    .block s start.name :: body.cmds fun s' => .endblock s' :: rest.cmds last

/-- The commands of a template that is a whole file. An empty text at its end is not read. -/
def allCmds (tpl : PlainTemplate) : List PlainCmd :=
  tpl.cmds fun s => if s ≠ [] then [.text s] else []

/-- The commands of a template are read from its source. -/
theorem reads_append (tpl : PlainTemplate) {last : List UInt8 → List PlainCmd} {after : List UInt8}
    (hlast : ∀ s : PlainText, Reads false (s ++ after) (last s)) :
    Reads false (tpl.source ++ after) (tpl.cmds last) := by
  induction tpl generalizing last after with
  | text s => exact hlast s
  | raw s start content stop rest ih =>
    have hraw : nxtParseCmd (start.body (bytes "raw")) = some (.raw, .null) :=
      nxtParseCmd_word start (by decide) (by decide) (by decide)
    have hstart := nxtGetNextCmd_tag s.2 (start.noTagEnd (by decide)) hraw
    simp only [if_true] at hstart
    simp only [source, cmds, List.append_assoc]
    exact .cons (hstart _) ⟨rfl, rfl⟩
      (.cons (nxtGetNextCmd_raw content stop _) ⟨rfl, rfl⟩ (ih hlast))
  | block s start body stop rest ihbody ihrest =>
    obtain ⟨args, hblock, hname⟩ := start.nxtParseCmd
    have hend : nxtParseCmd (stop.body (bytes "endblock")) = some (.endblock, .null) :=
      nxtParseCmd_word stop (by decide) (by decide) (by decide)
    have hstart := nxtGetNextCmd_tag s.2 start.noTagEnd hblock
    have hstop (s' : PlainText) := nxtGetNextCmd_tag s'.2 (stop.noTagEnd (by decide)) hend
    simp only [reduceCtorEq, if_false] at hstart hstop
    simp only [source, cmds, List.append_assoc]
    exact .cons (hstart _) ⟨rfl, rfl, hname⟩
      (ihbody fun s' => .cons (hstop s' _) ⟨rfl, rfl⟩ (ihrest hlast))

theorem reads_source (tpl : PlainTemplate) : Reads false tpl.source tpl.allCmds := by
  have h : Reads false (tpl.source ++ []) tpl.allCmds := tpl.reads_append fun s => by
    rw [List.append_nil]
    split_ifs with hs
    · exact .cons (nxtGetNextCmd_text s.2 hs) ⟨rfl, rfl⟩ .eof
    · rw [not_not.mp hs]
      exact .eof
  rwa [List.append_nil] at h

end PlainTemplate

/-- Every command takes something of the content. -/
theorem Reads.length_le {rawMode : Bool} {rest : List UInt8} {cmds : List PlainCmd}
    (h : Reads rawMode rest cmds) : cmds.length ≤ rest.length := by
  induction h with
  | eof => exact le_rfl
  | @cons rawMode rest item cmd cmds hget hcmd _ ih =>
    have hne : rest ≠ [] := by
      rintro rfl
      obtain rfl := Option.some.inj hget
      cases cmd <;> cases hcmd.1
    have hlt := nxtGetNextCmd_length_lt hget hne
    rw [List.length_cons]
    omega

/-! ### Parsing -/

/-- Blocks are closed in the order in which they were opened, and there are never too many open. -/
def Nested : ℕ → List PlainCmd → Prop
  | depth, [] => depth = 0
  | depth, .text _ :: cmds => Nested depth cmds
  | depth, .block _ _ :: cmds => depth < nxtMaxBlockNesting - 1 ∧ Nested (depth + 1) cmds
  | 0, .endblock _ :: _ => False
  | depth + 1, .endblock _ :: cmds => Nested depth cmds

theorem PlainTemplate.nested (tpl : PlainTemplate) {last : List UInt8 → List PlainCmd} {depth : ℕ}
    (hlast : ∀ s, Nested depth (last s)) (hdepth : depth + tpl.nesting < nxtMaxBlockNesting) :
    Nested depth (tpl.cmds last) := by
  induction tpl generalizing last depth with
  | text s => exact hlast s
  | raw s start content stop rest ih => exact ih hlast hdepth
  | block s start body stop rest ihbody ihrest =>
    simp only [nesting] at hdepth
    refine ⟨by omega, ihbody (fun s' => ?_) (by omega)⟩
    exact ihrest hlast (by omega)

/-- The names that commands give blocks. -/
def cmdNames (cmds : List PlainCmd) : List (List UInt8) := cmds.filterMap PlainCmd.blockName

theorem PlainTemplate.cmdNames_cmds (tpl : PlainTemplate) {last : List UInt8 → List PlainCmd}
    {names : List (List UInt8)} (hlast : ∀ s, cmdNames (last s) = names) :
    cmdNames (tpl.cmds last) = tpl.names ++ names := by
  induction tpl generalizing last names with
  | text s => exact hlast s
  | raw s start content stop rest ih => exact ih hlast
  | block s start body stop rest ihbody ihrest =>
    have hrest : ∀ s' : List UInt8, cmdNames (.endblock s' :: rest.cmds last) = rest.names ++ names :=
      fun _ => ihrest hlast
    have hbody := ihbody hrest
    simp only [PlainTemplate.names, blocks, List.map_cons, List.map_append, List.cons_append,
      List.append_assoc] at hbody ⊢
    rw [← hbody]
    rfl

theorem PlainTemplate.cmdNames_allCmds (tpl : PlainTemplate) : cmdNames tpl.allCmds = tpl.names := by
  have h : cmdNames tpl.allCmds = tpl.names ++ [] := tpl.cmdNames_cmds fun s => by
    split_ifs <;> rfl
  rwa [List.append_nil] at h

/-- What is the same in two states of a parser that has not met another file in between. -/
structure NxtParse.SameFiles (p p' : NxtParse) : Prop where
  index : p'.index = p.index
  files : p'.ctx.files = p.ctx.files
  filesPending : p'.ctx.filesPending = p.ctx.filesPending
  error : p'.ctx.error = p.ctx.error
  parents : p'.file.parents = p.file.parents
  content : p'.file.content = p.file.content

theorem NxtParse.SameFiles.trans {p p' p'' : NxtParse} (h : p.SameFiles p')
    (h' : p'.SameFiles p'') : p.SameFiles p'' :=
  ⟨h'.index.trans h.index, h'.files.trans h.files, h'.filesPending.trans h.filesPending,
    h'.error.trans h.error, h'.parents.trans h.parents, h'.content.trans h.content⟩

theorem NxtParse.sameFiles_appendText (p : NxtParse) (s : List UInt8) :
    p.SameFiles (p.appendText s) := by
  unfold NxtParse.appendText
  split <;> exact ⟨rfl, rfl, rfl, rfl, rfl, rfl⟩

/-- A name takes at most one place of the table. -/
theorem NxtParse.blockCreate_names_length_le (p : NxtParse) (name : Option (List UInt8)) :
    (p.blockCreate name).1.ctx.names.length ≤ p.ctx.names.length + 1 := by
  rw [NxtParse.blockCreate_names]
  split_ifs
  · rw [List.length_append, List.length_singleton]
  · omega

variable (load : List UInt8 → Bool)

/-- A command is carried out. -/
theorem nxtExec_cmd {p : NxtParse} {item : NxtItem} {cmd : PlainCmd} {cmds : List PlainCmd}
    (hcmd : item.IsCmd cmd) (hnested : Nested p.blockStack.length (cmd :: cmds)) :
    ∃ p', nxtExec load item p = some (.next p') ∧ p.SameFiles p' ∧
      Nested p'.blockStack.length cmds ∧
      p'.ctx.names.length + (cmdNames cmds).length ≤
        p.ctx.names.length + (cmdNames (cmd :: cmds)).length := by
  cases cmd with
  | text s =>
    obtain ⟨hitem, rfl⟩ := hcmd
    refine ⟨p.appendText item.text, by simp [nxtExec, hitem], p.sameFiles_appendText _, ?_, ?_⟩
    · rw [NxtParse.appendText_blockStack]
      exact hnested
    · rw [NxtParse.appendText_ctx]
      exact le_rfl
  | block s name =>
    obtain ⟨hitem, rfl, hname⟩ := hcmd
    obtain ⟨hdepth, hrest⟩ := hnested
    have hle := p.blockCreate_names_length_le (some name)
    have hlimit : ¬ nxtMaxBlockNesting - 1 ≤ p.blockStack.length := by omega
    refine ⟨{ ((p.blockCreate (some name)).1.append item.text (p.ctx.blockId (some name))).modifyBlock
        (p.blockCreate (some name)).2 (fun blk => { blk with clearOnAppend := true }) with
        curBlock := (p.blockCreate (some name)).2, blockStack := p.curBlock :: p.blockStack },
      ?_, ⟨rfl, rfl, rfl, rfl, rfl, rfl⟩, hrest, ?_⟩
    · simp only [nxtExec, hitem, hname, if_neg hlimit]
      rfl
    change (p.blockCreate (some name)).1.ctx.names.length + _ ≤ _ + ((cmdNames cmds).length + 1)
    omega
  | endblock s =>
    obtain ⟨hitem, rfl⟩ := hcmd
    cases hstack : p.blockStack with
    | nil =>
      rw [hstack] at hnested
      exact hnested.elim
    | cons blk stack =>
      rw [hstack] at hnested
      refine ⟨{ p.appendText item.text with curBlock := blk, blockStack := stack },
        by simp [nxtExec, hitem, hstack], ?_, hnested, ?_⟩
      · obtain ⟨hindex, hfiles, hpending, herror, hparents, hcontent⟩ :=
          p.sameFiles_appendText item.text
        exact ⟨hindex, hfiles, hpending, herror, hparents, hcontent⟩
      · change (p.appendText item.text).ctx.names.length + _ ≤ _
        rw [NxtParse.appendText_ctx]
        exact le_rfl

/-- A turn of the parser reads a command and carries it out. -/
theorem nxtParseStep_cmd {p : NxtParse} {item : NxtItem} {cmd : PlainCmd} {cmds : List PlainCmd}
    (hget : nxtGetNextCmd p.rawMode p.rest = some item) (hcmd : item.IsCmd cmd)
    (hnested : Nested p.blockStack.length (cmd :: cmds))
    (hnames : p.ctx.names.length + (cmdNames (cmd :: cmds)).length ≤ nxtMaxBlocks) :
    ∃ p', nxtParseStep load p = some (.next p') ∧ p.SameFiles p' ∧
      p'.rawMode = item.rawMode ∧ p'.rest = item.rest ∧ Nested p'.blockStack.length cmds ∧
      p'.ctx.names.length + (cmdNames cmds).length ≤ nxtMaxBlocks := by
  obtain ⟨p', hexec, hsame, hnested', hle⟩ :=
    nxtExec_cmd load (p := { p with rawMode := item.rawMode, rest := item.rest }) hcmd hnested
  obtain ⟨-, hrest, hraw, -⟩ := nxtExec_next hexec
  obtain ⟨hindex, hfiles, hpending, herror, hparents, hcontent⟩ := hsame
  refine ⟨p', ?_, ⟨hindex, hfiles, hpending, herror, hparents, hcontent⟩, hraw, hrest, hnested',
    hle.trans hnames⟩
  rw [nxtParseStep, if_neg (by omega), hget, Option.bind_some, hexec]

/-- At the end of the content the parser returns, if no block is open. -/
theorem nxtParseStep_eof {p : NxtParse} (hrest : p.rest = []) (hstack : p.blockStack = [])
    (hnames : p.ctx.names.length ≤ nxtMaxBlocks) :
    nxtParseStep load p = some (.ret (p.finish false) 0) := by
  rw [nxtParseStep, if_neg (by omega), hrest]
  simp [nxtGetNextCmd, nxtExec, hstack, NxtParse.finish]

/-- The parser reads all commands and returns. -/
theorem Reads.parse {p : NxtParse} {cmds : List PlainCmd} (h : Reads p.rawMode p.rest cmds)
    (hnested : Nested p.blockStack.length cmds)
    (hnames : p.ctx.names.length + (cmdNames cmds).length ≤ nxtMaxBlocks) :
    ∃ p', p.SameFiles p' ∧ p'.ctx.names.length ≤ nxtMaxBlocks ∧
      run nxtStep (.parsing p) (List.replicate (cmds.length + 1) (.turn load)) =
        some (.idle (p'.finish false)) ∧
      ∀ fuel, cmds.length < fuel → nxtParseLoop load fuel p = some (p'.finish false, 0) := by
  generalize hraw : p.rawMode = rawMode at h
  generalize hrest : p.rest = rest at h
  induction h generalizing p with
  | eof =>
    have hstep := nxtParseStep_eof load hrest (List.length_eq_zero_iff.mp hnested) hnames
    refine ⟨p, ⟨rfl, rfl, rfl, rfl, rfl, rfl⟩, hnames, run_single ?_, ?_⟩
    · rw [nxtStep, hstep]
      rfl
    · intro fuel hfuel
      obtain ⟨fuel, rfl⟩ : ∃ k, fuel = k + 1 := ⟨fuel - 1, by omega⟩
      rw [nxtParseLoop, hstep]
  | @cons rawMode rest item cmd cmds hget hcmd _ ih =>
    subst hraw hrest
    obtain ⟨p₁, hstep, hsame, hraw₁, hrest₁, hnested₁, hnames₁⟩ :=
      nxtParseStep_cmd load hget hcmd hnested hnames
    obtain ⟨p', hsame', hnames', hrun, hloop⟩ := ih hnested₁ hnames₁ hraw₁ hrest₁
    refine ⟨p', hsame.trans hsame', hnames', ?_, ?_⟩
    · have hturn : nxtStep (.parsing p) (.turn load) = some (.parsing p₁) := by
        rw [nxtStep, hstep]
        rfl
      exact run_append (run_single hturn) hrun
    · intro fuel hfuel
      rw [List.length_cons] at hfuel
      obtain ⟨fuel, rfl⟩ : ∃ k, fuel = k + 1 := ⟨fuel - 1, by omega⟩
      rw [nxtParseLoop, hstep]
      exact hloop fuel (by omega)

/-! ### The outline -/

/-- What a command tells. -/
def Outline.addCmd (o : Outline) : PlainCmd → Outline
  | .text s => o.addText s
  | .block s name =>
    let o := o.addPart s (.block name)
    { o with scopes := name :: o.scopes, blocks := o.blocks ++ [some name] }
  | .endblock s =>
    let o := o.addText s
    { o with scopes := o.scopes.tail }

theorem Outline.add_of_isCmd {item : NxtItem} {cmd : PlainCmd} (h : item.IsCmd cmd) (i : ℕ)
    (o : Outline) : o.add i item = o.addCmd cmd := by
  cases cmd with
  | text s => rw [Outline.add, h.1, h.2]; rfl
  | block s name => simp [Outline.add, Outline.addCmd, h.1, h.2.1, h.2.2]
  | endblock s => rw [Outline.add, h.1, h.2]; rfl

/-- The outline of a content is made of the commands that are read from it. -/
theorem Reads.outline {rawMode : Bool} {rest : List UInt8} {cmds : List PlainCmd}
    (h : Reads rawMode rest cmds) (i : ℕ) {fuel : ℕ} (hfuel : rest.length ≤ fuel) (o : Outline) :
    (nxtItems fuel rawMode rest).foldl (Outline.add i) o = cmds.foldl Outline.addCmd o ∧
      (nxtItems fuel rawMode rest).filterMap NxtItem.blockName = cmdNames cmds := by
  induction h generalizing fuel o with
  | eof =>
    rw [nxtItems_nil]
    exact ⟨rfl, rfl⟩
  | @cons rawMode rest item cmd cmds hget hcmd _ ih =>
    have hne : item.cmd ≠ .eof := by
      intro heof
      cases cmd <;> cases heof.symm.trans hcmd.1
    have hname : item.blockName = cmd.blockName := by
      cases cmd with
      | text s => simp [NxtItem.blockName, hcmd.1, PlainCmd.blockName]
      | block s name => simp [NxtItem.blockName, hcmd.1, hcmd.2.2, PlainCmd.blockName]
      | endblock s => simp [NxtItem.blockName, hcmd.1, PlainCmd.blockName]
    obtain ⟨fuel', hitems, hfuel'⟩ := nxtItems_of_item hget hne hfuel
    obtain ⟨houtline, hnames⟩ := ih hfuel' (o.addCmd cmd)
    rw [hitems, List.foldl_cons, List.foldl_cons, Outline.add_of_isCmd hcmd]
    refine ⟨houtline, ?_⟩
    rw [cmdNames, List.filterMap_cons, List.filterMap_cons, hname, hnames]
    rfl

/-- A text as a part of a definition. -/
def textPart (s : List UInt8) : List TemplatePart :=
  if s ≠ [] then [{ text := s, insert := .nothing }] else []

theorem Outline.addText_eq (o : Outline) (s : List UInt8) :
    o.addText s = { o with parts := o.parts ++ (textPart s).map (o.current, ·) } := by
  unfold Outline.addText textPart
  split_ifs
  · rfl
  · simp

namespace PlainTemplate

/-- The definition that a template gives the block it stands in. -/
def definition : PlainTemplate → List TemplatePart
  | .text s => textPart s
  | .raw s _ content _ rest => textPart s ++ textPart content ++ rest.definition
  | .block s start _ _ rest => { text := s, insert := .block start.name } :: rest.definition

/-- The parts of all blocks of a template, which stands in the block `name`. -/
def parts (name : List UInt8) : PlainTemplate → List (List UInt8 × TemplatePart)
  | .text s => (textPart s).map (name, ·)
  | .raw s _ content _ rest => (textPart s ++ textPart content).map (name, ·) ++ rest.parts name
  | .block s start body _ rest =>
    (name, { text := s, insert := .block start.name }) :: body.parts start.name ++ rest.parts name

/-- The outline of a template. -/
theorem foldl_cmds (tpl : PlainTemplate) {last : List UInt8 → List PlainCmd}
    (next : Outline → Outline)
    (hlast : ∀ s (o : Outline), (last s).foldl Outline.addCmd o = next (o.addText s)) (o : Outline) :
    (tpl.cmds last).foldl Outline.addCmd o =
      next { o with
        blocks := o.blocks ++ tpl.names.map some
        parts := o.parts ++ tpl.parts o.current } := by
  induction tpl generalizing last next o with
  | text s =>
    rw [cmds, hlast, Outline.addText_eq]
    simp [names, blocks, parts]
  | raw s start content stop rest ih =>
    simp only [cmds, List.foldl_cons, Outline.addCmd, Outline.addText_eq]
    rw [ih next hlast]
    simp [names, blocks, parts, Outline.current]
  | block s start body stop rest ihbody ihrest =>
    simp only [cmds, List.foldl_cons]
    rw [ihbody (fun o => (rest.cmds last).foldl Outline.addCmd { o with scopes := o.scopes.tail })
      fun s' o => rfl, ihrest next hlast]
    simp [names, blocks, parts, Outline.current, Outline.addCmd, Outline.addPart]

/-- The parts belong to the block that the template stands in, and to those in it. -/
theorem mem_parts {tpl : PlainTemplate} {name : List UInt8} {part : List UInt8 × TemplatePart}
    (h : part ∈ tpl.parts name) : part.1 = name ∨ part.1 ∈ tpl.names := by
  induction tpl generalizing name with
  | text s =>
    obtain ⟨_, -, rfl⟩ := List.mem_map.mp h
    exact .inl rfl
  | raw s start content stop rest ih =>
    rcases List.mem_append.mp h with h | h
    · obtain ⟨_, -, rfl⟩ := List.mem_map.mp h
      exact .inl rfl
    · exact ih h
  | block s start body stop rest ihbody ihrest =>
    rw [names, blocks, List.map_append, List.mem_append]
    rcases List.mem_append.mp h with h | h
    · rcases List.mem_cons.mp h with rfl | h
      · exact .inl rfl
      · rcases ihbody h with h | h
        · exact .inr (.inl (h ▸ List.mem_cons_self))
        · exact .inr (.inl (List.mem_cons_of_mem _ h))
    · rcases ihrest h with h | h
      · exact .inl h
      · exact .inr (.inr h)

theorem partsOf_parts_eq_nil {tpl : PlainTemplate} {name name' : List UInt8} (hne : name' ≠ name)
    (hnot : name' ∉ tpl.names) : partsOf name' (tpl.parts name) = [] := by
  refine partsOf_eq_nil fun part hpart => ?_
  rintro rfl
  rcases mem_parts hpart with h | h
  · exact hne h
  · exact hnot h

theorem partsOf_map (name : List UInt8) (ps : List TemplatePart) :
    partsOf name (ps.map (name, ·)) = ps := by
  induction ps with
  | nil => rfl
  | cons part ps ih =>
    rw [List.map_cons, ← List.singleton_append, partsOf_append, partsOf_singleton_self, ih]
    rfl

/-- The names of a template that begins with a block. -/
theorem names_block (s : PlainText) (start : BlockTag) (body : PlainTemplate) (stop : TagBlanks)
    (rest : PlainTemplate) :
    (block s start body stop rest).names = start.name :: body.names ++ rest.names := by
  rw [names, blocks, List.map_append, List.map_cons]
  rfl

/-- The parts of the block that a template stands in are its definition. -/
theorem partsOf_parts_self {tpl : PlainTemplate} {name : List UInt8} (h : name ∉ tpl.names) :
    partsOf name (tpl.parts name) = tpl.definition := by
  induction tpl with
  | text s => exact partsOf_map name _
  | raw s start content stop rest ih => rw [parts, partsOf_append, partsOf_map, ih h, definition]
  | block s start body stop rest ihbody ihrest =>
    simp only [names_block, List.cons_append, List.mem_cons, List.mem_append, not_or] at h
    obtain ⟨hstart, hbody, hrest⟩ := h
    rw [parts, ← List.singleton_append, partsOf_append, partsOf_append, partsOf_singleton_self,
      partsOf_parts_eq_nil hstart hbody, ihrest hrest]
    rfl

/-- The parts of a block are the definition that its content gives it. -/
theorem partsOf_parts {tpl : PlainTemplate} {name : List UInt8} (h : (name :: tpl.names).Nodup)
    {b : List UInt8 × PlainTemplate} (hb : b ∈ tpl.blocks) :
    partsOf b.1 (tpl.parts name) = b.2.definition := by
  have hmem : b.1 ∈ tpl.names := List.mem_map_of_mem hb
  induction tpl generalizing name with
  | text s => cases hb
  | raw s start content stop rest ih =>
    have hne : b.1 ≠ name := fun heq => (List.nodup_cons.mp h).1 (heq ▸ hmem)
    have hnil : partsOf b.1 ((textPart s ++ textPart content).map (name, ·)) = [] := by
      refine partsOf_eq_nil fun part hpart => ?_
      obtain ⟨_, -, rfl⟩ := List.mem_map.mp hpart
      exact hne.symm
    rw [parts, partsOf_append, hnil, List.nil_append]
    exact ih h hb hmem
  | block s start body stop rest ihbody ihrest =>
    have hne : b.1 ≠ name := fun heq => (List.nodup_cons.mp h).1 (heq ▸ hmem)
    rw [names_block, List.nodup_cons] at h
    obtain ⟨hname, hnodup⟩ := h
    obtain ⟨hbody, hrest, hdisjoint⟩ := List.nodup_append.mp hnodup
    have hself := (List.nodup_cons.mp hbody).1
    rw [parts, ← List.singleton_append, partsOf_append, partsOf_append,
      partsOf_singleton_ne hne.symm, List.nil_append]
    have hrestNil : b.1 ∈ start.name :: body.names → partsOf b.1 (rest.parts name) = [] :=
      fun hmem => partsOf_parts_eq_nil hne fun hmem' => hdisjoint _ hmem _ hmem' rfl
    rw [blocks] at hb
    rcases List.mem_append.mp hb with hb | hb
    · rcases List.mem_cons.mp hb with rfl | hb
      · rw [hrestNil List.mem_cons_self, List.append_nil]
        exact partsOf_parts_self hself
      · have hmem : b.1 ∈ body.names := List.mem_map_of_mem hb
        rw [hrestNil (List.mem_cons_of_mem _ hmem), List.append_nil]
        exact ihbody hbody hb hmem
    · have hmem : b.1 ∈ rest.names := List.mem_map_of_mem hb
      have hnil : partsOf b.1 (body.parts start.name) = [] :=
        partsOf_parts_eq_nil (fun heq => hdisjoint _ (heq ▸ List.mem_cons_self) _ hmem rfl)
          fun hmem' => hdisjoint _ (List.mem_cons_of_mem _ hmem') _ hmem rfl
      rw [hnil, List.nil_append]
      refine ihrest (List.nodup_cons.mpr ⟨fun hmem' => hname ?_, hrest⟩) hb hmem
      exact List.mem_append_right _ hmem'

/-! ### Rendering -/

theorem renders_textPart {tpl : Template} (s : List UInt8) {parts : List TemplatePart}
    {earlier : List (List TemplatePart)} {out : List UInt8}
    (h : Renders tpl (parts :: earlier) out) :
    Renders tpl ((textPart s ++ parts) :: earlier) (s ++ out) := by
  unfold textPart
  split_ifs with hs
  · exact .text h
  · rw [not_not.mp hs]
    exact h

/-- A definition is rendered as the template without its tags, if each block in it has the
definition that its content gives it. -/
theorem renders_definition {tpl : PlainTemplate} {tpl' : Template}
    (h : ∀ b ∈ tpl.blocks, tpl'.chain b.1 = if b.2.definition ≠ [] then [b.2.definition] else []) :
    Renders tpl' [tpl.definition] tpl.removeTags := by
  induction tpl with
  | text s =>
    have hdone : Renders tpl' [[]] [] := .done
    simpa [definition, removeTags] using renders_textPart s.1 hdone
  | raw s start content stop rest ih =>
    rw [definition, removeTags, List.append_assoc, List.append_assoc]
    exact renders_textPart s.1 (renders_textPart content.1 (ih h))
  | block s start body stop rest ihbody ihrest =>
    have hbody := ihbody fun b hb => h b (by simp [blocks, hb])
    have hrest := ihrest fun b hb => h b (by simp [blocks, hb])
    refine .block ?_ hrest
    rw [h (start.name, body) (by simp [blocks])]
    split_ifs with hdef
    · exact hbody
    · rw [not_not.mp hdef] at hbody
      generalize body.removeTags = out at hbody ⊢
      cases hbody
      exact .missing

/-- A template gives the top block a value exactly if its text outside of all blocks has a byte that
is not blank. -/
theorem givesValue_top (tpl : PlainTemplate) :
    GivesValue topName tpl.definition ↔ ∃ c ∈ tpl.outside, isGraph c := by
  have hpart : ∀ s : List UInt8, (∃ part ∈ textPart s, ∃ c ∈ part.text, isGraph c) ↔
      ∃ c ∈ s, isGraph c := by
    intro s
    by_cases hs : s = [] <;> simp [textPart, hs]
  have hall : (∃ part ∈ tpl.definition, ∃ c ∈ part.text, isGraph c) ↔
      ∃ c ∈ tpl.outside, isGraph c := by
    induction tpl with
    | text s => exact hpart s
    | raw s start content stop rest ih =>
      simp only [definition, outside, List.mem_append, or_and_right, exists_or, hpart, ih]
    | block s start body stop rest ihbody ihrest =>
      simp only [definition, outside, List.mem_append, List.mem_cons, or_and_right, exists_or,
        exists_eq_left, ihrest]
  rw [GivesValue, ← hall]
  constructor
  · exact fun h => h.2 rfl
  · rintro ⟨part, hmem, hc⟩
    exact ⟨List.ne_nil_of_mem hmem, fun _ => ⟨part, hmem, hc⟩⟩

end PlainTemplate

/-! ### The whole page -/

/-- The definition of a name in a context of one file. -/
theorem template_chain_single {ctx : NxtContext} {file : NxtFile} {content : List UInt8}
    (hfiles : ctx.files = [file]) (hcontent : file.content = some content) (name : List UInt8) :
    (ctx.template [0]).chain name = (definitionIn content 0 name).toList := by
  have hdef : ctx.definition name 0 = definitionIn content 0 name := by
    simp [NxtContext.definition, hfiles, hcontent]
  cases h : definitionIn content 0 name <;> simp [NxtContext.template, hdef, h]

theorem PlainTemplate.scanFile_source (tpl : PlainTemplate) :
    (outline 0 (scanFile tpl.source)).parts = tpl.parts topName ∧
      (scanFile tpl.source).filterMap NxtItem.blockName = tpl.names := by
  obtain ⟨houtline, hnames⟩ := tpl.reads_source.outline 0 le_rfl {}
  rw [tpl.cmdNames_allCmds] at hnames
  refine ⟨?_, hnames⟩
  rw [outline, scanFile, houtline, allCmds, tpl.foldl_cmds id]
  · rfl
  · intro s o
    unfold Outline.addText
    split_ifs with hs
    · simp [Outline.addCmd, Outline.addText, hs]
    · rfl

/-- What is rendered of a template: nothing if it is blank outside of all blocks. -/
def PlainTemplate.rendered (tpl : PlainTemplate) : List UInt8 :=
  if ∃ c ∈ tpl.outside, isGraph c then tpl.removeTags else []

/-- What the files of a context with a single template render for the top block. -/
theorem PlainTemplate.renders_rendered {tpl : PlainTemplate} (hnames : (topName :: tpl.names).Nodup)
    {tpl' : Template} (hchain : ∀ name, tpl'.chain name = (definitionIn tpl.source 0 name).toList) :
    Renders tpl' (tpl'.chain topName) tpl.rendered := by
  have hnot := (List.nodup_cons.mp hnames).1
  have hparts := tpl.scanFile_source.1
  have htop : tpl'.chain topName =
      if ∃ c ∈ tpl.outside, isGraph c then [tpl.definition] else [] := by
    rw [hchain, definitionIn, hparts, partsOf_parts_self hnot]
    simp only [tpl.givesValue_top]
    split_ifs <;> rfl
  rw [htop, rendered]
  split_ifs
  · refine renders_definition fun b hb => ?_
    have hne : b.1 ≠ topName := fun heq => hnot (heq ▸ List.mem_map_of_mem hb)
    rw [hchain, definitionIn, hparts, partsOf_parts hnames hb]
    simp only [GivesValue, hne, false_implies, and_true]
    split_ifs <;> rfl
  · exact .missing

/-- A template with balanced blocks of distinct names is parsed without error, and is merged. -/
theorem exists_merged_run {tpl : PlainTemplate} (hnesting : tpl.nesting < nxtMaxBlockNesting)
    (hcount : tpl.names.length < nxtMaxBlocks) (load : List UInt8 → Bool) (uri : List UInt8) :
    ∃ ctx m file es, nxtParse load {} uri tpl.source = some (ctx, 0) ∧ nxtMerge ctx = some m ∧
      run nxtStep (nxtInit uri) es = some (.merged ctx m) ∧ ctx.error = false ∧
      ctx.files = [file] ∧ file.parents = [] ∧ file.content = some tpl.source := by
  obtain ⟨p, hstart, hrest, hraw, hstack, hpnames, hindex, hfiles, hpending, herror, hparents,
      hcontent⟩ : ∃ p, nxtParseStart (nxtFileCreate {} uri) 0 tpl.source = some p ∧
      p.rest = tpl.source ∧ p.rawMode = false ∧ p.blockStack = [] ∧ p.ctx.names.length = 1 ∧
      p.index = 0 ∧ p.ctx.files = [{ uri }] ∧ p.ctx.filesPending = 1 ∧ p.ctx.error = false ∧
      p.file.parents = [] ∧ p.file.content = some tpl.source :=
    ⟨_, rfl, rfl, rfl, rfl, rfl, rfl, rfl, rfl, rfl, rfl, rfl⟩
  have hreads : Reads p.rawMode p.rest tpl.allCmds := by
    rw [hraw, hrest]
    exact tpl.reads_source
  have hnested : Nested p.blockStack.length tpl.allCmds := by
    rw [hstack]
    refine tpl.nested (fun s => ?_) (by simpa using hnesting)
    split_ifs <;> rfl
  have hle : p.ctx.names.length + (cmdNames tpl.allCmds).length ≤ nxtMaxBlocks := by
    rw [hpnames, tpl.cmdNames_allCmds]
    omega
  obtain ⟨p', hsame, hnames', hrun, hloop⟩ := hreads.parse load hnested hle
  have hlength := tpl.reads_source.length_le
  have hfiles' : (p'.finish false).files = [p'.file] := by
    simp [NxtParse.finish, hsame.files, hfiles, hsame.index, hindex]
  have herror' : (p'.finish false).error = false := by
    simp [NxtParse.finish, hsame.error, herror]
  have hpending' : (p'.finish false).filesPending = 0 := by
    simp [NxtParse.finish, hsame.filesPending, hpending]
  obtain ⟨m, hmerge⟩ : ∃ m, nxtMerge (p'.finish false) = some m := by
    have hle : ¬ nxtMaxBlocks < (p'.finish false).names.length := by
      change ¬ nxtMaxBlocks < p'.ctx.names.length
      omega
    simp [nxtMerge, hle, herror', hfiles', nxtMergeFile, hsame.parents, hparents]
  have hfirst : nxtStep (nxtInit uri) (.parseFile 0 tpl.source) = some (.parsing p) := by
    have hguard : (nxtFileCreate {} uri).files[0]?.any (·.content = none) ∧
        (nxtFileCreate {} uri).names.length ≤ nxtMaxBlocks := ⟨rfl, Nat.zero_le _⟩
    simp only [nxtInit, nxtStep]
    rw [if_pos hguard, hstart, Option.map_some]
  have hlast : nxtStep (.idle (p'.finish false)) .merge = some (.merged (p'.finish false) m) := by
    rw [nxtStep, if_pos hpending', hmerge, Option.map_some]
  refine ⟨p'.finish false, m, p'.file, _, ?_, hmerge,
    run_append (run_single hfirst) (run_append hrun (run_single hlast)), herror', hfiles',
    hsame.parents.trans hparents, hsame.content.trans hcontent⟩
  change (nxtParseStart (nxtFileCreate {} uri) 0 tpl.source).bind
    (nxtParseLoop load (tpl.source.length + 1)) = _
  rw [hstart, Option.bind_some, hloop _ (by omega)]

/-- A template of text, raw sections and nested blocks of distinct names is parsed without error, and
is rendered as its content without the tags, if something outside of all blocks is not blank. -/
theorem nxtParse_removes_tags (tpl : PlainTemplate) (hnames : (topName :: tpl.names).Nodup)
    (hnesting : tpl.nesting < nxtMaxBlockNesting) (hcount : tpl.names.length < nxtMaxBlocks)
    (load : List UInt8 → Bool) (uri : List UInt8) :
    ∃ ctx m, nxtParse load {} uri tpl.source = some (ctx, 0) ∧ nxtMerge ctx = some m ∧
      (∃ fuel, nxtSerialize ctx m fuel = some (tpl.rendered ++ [0])) ∧
      ∃ fuel texts, nxtSerializeToCs ctx m fuel = some texts ∧ texts.flatten = tpl.rendered := by
  obtain ⟨ctx, m, file, es, hparse, hmerge, hrun, herror, hfiles, hparents, hcontent⟩ :=
    exists_merged_run hnesting hcount load uri
  have hdistinct : ctx.Distinct := by
    intro i file' content hfile hcontent'
    rw [hfiles] at hfile
    obtain rfl := List.mem_singleton.mp (List.mem_of_getElem? hfile)
    obtain rfl := Option.some.inj (hcontent.symm.trans hcontent')
    rwa [DistinctBlocks, tpl.scanFile_source.2]
  obtain ⟨order, horder, hresolved⟩ := exists_resolved hrun herror hdistinct
  have hnone : parentsOf ctx.files 0 = [] := by simp [parentsOf, hfiles, hparents]
  have hsingle : PostOrder (parentsOf ctx.files) [0] ([] ++ 0 :: []) :=
    .cons (by rw [hnone]; exact .nil) .nil
  obtain rfl := horder.unique hsingle
  have hrenders := PlainTemplate.renders_rendered hnames
    fun name => template_chain_single hfiles hcontent name
  obtain ⟨fuel, texts, hser, hout⟩ := (hresolved.serialize_iff topName _).mpr hrenders
  have hid : ctx.blockId (some topName) = 0 :=
    ContextMatches.blockId_top ((sound_of_run hrun).outlines herror)
  rw [hid] at hser
  refine ⟨ctx, m, hparse, hmerge, ⟨fuel, ?_⟩, fuel, texts, ?_, hout⟩
  · simp [nxtSerialize, herror, hser, hout]
  · simp [nxtSerializeToCs, herror, hser]

/-! ### Two pages -/

/-- A blank on both sides of a word. -/
def singleBlanks : TagBlanks where
  before := ⟨[space], by decide⟩
  after := ⟨[space], by decide⟩

/-- The tag `{% block a %}`. -/
def blockTagA : BlockTag where
  before := ⟨[space], by decide⟩
  between := ⟨[space], by decide⟩
  between_ne := by decide
  name := bytes "a"
  spelling := bytes "a"
  spells := .word (by decide) (by decide) (by decide) (by decide)
  inside := noTagEnd_of_notMem (by decide)
  after := ⟨[space], by decide⟩

/-- A page with a raw section in a block. -/
def rawPage : PlainTemplate :=
  .block ⟨bytes "x", by decide⟩ blockTagA
    (.raw ⟨bytes "y", by decide⟩ singleBlanks ⟨bytes "{% z %}", by decide⟩ singleBlanks
      (.text ⟨[], by decide⟩))
    singleBlanks (.text ⟨[], by decide⟩)

/-- All but the tags of the raw section and of the block is rendered. -/
theorem nxtParse_removes_tags_raw : rawPage.source =
      bytes "x{% block a %}y{% raw %}{% z %}{% endraw %}{% endblock %}" ∧
    rawPage.rendered = bytes "xy{% z %}" ∧
    ∃ ctx m, nxtParse (fun _ => true) {} (bytes "/a") rawPage.source = some (ctx, 0) ∧
      nxtMerge ctx = some m ∧
      (∃ fuel, nxtSerialize ctx m fuel = some (rawPage.rendered ++ [0])) ∧
      ∃ fuel texts, nxtSerializeToCs ctx m fuel = some texts ∧ texts.flatten = rawPage.rendered :=
  ⟨by decide, by decide,
    nxtParse_removes_tags rawPage (by decide) (by decide) (by decide) (fun _ => true) (bytes "/a")⟩

/-- A page with text only in a block. -/
def blankPage : PlainTemplate :=
  .block ⟨[], by decide⟩ blockTagA (.text ⟨bytes "x", by decide⟩) singleBlanks
    (.text ⟨[], by decide⟩)

/-- It is rendered as nothing, because its top block is blank. -/
theorem blankPage_vanishes : blankPage.source = bytes "{% block a %}x{% endblock %}" ∧
    (topName :: blankPage.names).Nodup ∧ blankPage.nesting < nxtMaxBlockNesting ∧
    blankPage.names.length < nxtMaxBlocks ∧ blankPage.removeTags = bytes "x" ∧
    ∃ ctx m, nxtParse (fun _ => true) {} (bytes "/a") blankPage.source = some (ctx, 0) ∧
      nxtMerge ctx = some m ∧ ∀ fuel, nxtSerialize ctx m fuel = some [0] ∧
        nxtSerializeToCs ctx m fuel = some [] := by
  refine ⟨by decide, by decide, by decide, by decide, by decide, _, _, rfl, rfl, fun fuel => ?_⟩
  cases fuel <;> exact ⟨rfl, rfl⟩

end Nxweb
