import Nxweb.Filters.SsiVariables
import Nxweb.Lib.Region

/-!
# Directives of server-side includes

Model of `parse_directive` (`ssi_filter.c`), with the memory it works in. `parse_text` calls it with
the text between `<!--#` and `-->`, behind which it has put a terminator. The directive is taken apart
in place, with searches that rely on the terminator. What lies behind it is the rest of the page.

The command word is ended by a terminator, and the attributes are searched behind it. If the word
reaches up to the end of the directive, this is the terminator that is there already, and the search
for an equals sign goes on in the page. Where it finds one, a terminator is put into the page.

A comparison of strings is taken to read the whole string in memory.

## Main definitions

* `SsiEnv.parseDirective`: the effect of a directive and the memory afterwards, with the positions
  that are accessed;
* `SsiEnv.Isolates`: only the directive and its terminator count.

## Main results

* `isolates_iff`: a directive is isolated if and only if it is blank or its command word ends before it.
-/

namespace Nxweb

open Lib

/-! ### Strings in memory -/

/-- `while (*p<=SPACE && p<pe) p++;`. -/
def skipSpaces (mem : List UInt8) (pe p : ℕ) : Traced ℕ :=
  scanFrom (fun i c => ¬ (c ≤ space ∧ i < pe)) mem p

/-- `while (*p>SPACE) p++;`. -/
def skipWord (mem : List UInt8) (p : ℕ) : Traced ℕ := scanFrom (fun _ c => c ≤ space) mem p

/-- The position of the terminator. -/
def endOfString (mem : List UInt8) (p : ℕ) : Traced ℕ := scanFrom (fun _ c => c = 0) mem p

/-- The string at a position. -/
def readString (mem : List UInt8) (p : ℕ) : Traced (List UInt8) := do
  let q ← endOfString mem p
  return (mem.drop p).take (q - p)

/-- `while (*--p<=' ') *p='\0';`. -/
def cutSpaces (mem : List UInt8) : ℕ → Traced (List UInt8)
  | 0 => .fail
  | p + 1 => do
    let c ← Traced.read mem p
    if c ≤ space then cutSpaces (← Traced.write mem p 0) p else return mem

/-- `nxweb_trunc_space`: the returned pointer and the memory. -/
def truncSpaceAt (mem : List UInt8) (str : ℕ) : Traced (ℕ × List UInt8) := do
  let c ← Traced.read mem str
  if c = 0 then return (str, mem)
  let p ← scanFrom (fun _ c => ¬ (c ≠ 0 ∧ c ≤ space)) mem str
  let c ← Traced.read mem p
  if c = 0 then return (p, mem)
  let mem ← cutSpaces mem (← endOfString mem p)
  return (p, mem)

/-! ### The directive -/

/-- `attr_name[i]` and `attr_value[i]`. -/
structure SsiAttr where
  name : ℕ
  value : ℕ
  deriving DecidableEq, Repr

/-- `SSI_MAX_ATTRS`. -/
def ssiMaxAttrs : ℕ := 16

/-- What a directive does. -/
inductive SsiEffect where
  /-- The returned value is `-1`. -/
  | syntaxError
  /-- A subrequest is appended to the page. -/
  | subrequest (url : List UInt8)
  /-- The map of variables is changed. -/
  | setVar (varMap : VarMap)
  /-- A text is appended to the page. -/
  | append (text : List UInt8)
  deriving DecidableEq, Repr

/-- The loop over the attributes, at most as many as are left; `none` for a syntax error. -/
def parseAttrs (pe : ℕ) :
    ℕ → List SsiAttr → ℕ → List UInt8 → Traced (Option (List SsiAttr) × List UInt8)
  | 0, attrs, _, mem => return (some attrs, mem)
  | left + 1, attrs, p, mem => do
    match ← strchr mem p 61 with
    | none => return (some attrs, mem)
    | some e =>
      let mem ← Traced.write mem e 0
      let (name, mem) ← truncSpaceAt mem p
      let p ← skipSpaces mem pe (e + 1)
      if pe ≤ p then return (none, mem)
      let q ← Traced.read mem p
      if q ≠ 34 ∧ q ≠ 39 then return (none, mem)
      match ← strchr mem (p + 1) q with
      | none => return (none, mem)
      | some e =>
        let mem ← Traced.write mem e 0
        parseAttrs pe left (attrs ++ [{ name, value := p + 1 }]) (e + 1) mem

/-- The assignment to a variable that is there already, or to a new one. -/
def VarMap.assign (vars : VarMap) (name value : List UInt8) : VarMap :=
  match vars.findIdx? fun e => e.1 = name with
  | some i => vars.modify i fun e => (e.1, value)
  | none => (name, value) :: vars

/-- The command `include`. -/
def SsiEnv.runInclude (env : SsiEnv) (mem : List UInt8) : List SsiAttr → Traced SsiEffect
  | [] => return .syntaxError
  | attr :: attrs => do
    let name ← readString mem attr.name
    if name = bytes "virtual" then
      let value ← readString mem attr.value
      return ((env.expandVars value).map .subrequest).getD .syntaxError
    else env.runInclude mem attrs

/-- The command `set`, with `var_name` and `var_value`. -/
def SsiEnv.runSet (env : SsiEnv) (mem : List UInt8) (varName varValue : Option (List UInt8)) :
    List SsiAttr → Traced SsiEffect
  | [] =>
    return match varName, varValue with
      | some name, some value => .setVar (env.varMap.assign name value)
      | _, _ => .syntaxError
  | attr :: attrs => do
    let name ← readString mem attr.name
    if name = bytes "var" then
      let value ← readString mem attr.value
      env.runSet mem (some value) varValue attrs
    else if name = bytes "value" then
      let value ← readString mem attr.value
      match env.expandVars value with
      | none => return .syntaxError
      | some value => env.runSet mem varName (some value) attrs
    else env.runSet mem varName varValue attrs

/-- The command `echo`. -/
def SsiEnv.runEcho (env : SsiEnv) (mem : List UInt8) : List SsiAttr → Traced SsiEffect
  | [] => return .syntaxError
  | attr :: attrs => do
    let name ← readString mem attr.name
    if name = bytes "var" then
      let value ← readString mem attr.value
      return ((env.expandVar value ssiMaxExprLen).map .append).getD .syntaxError
    else env.runEcho mem attrs

/-- The commands; any other command is an error. -/
def SsiEnv.runCommand (env : SsiEnv) (mem cmd : List UInt8) (attrs : List SsiAttr) :
    Traced SsiEffect :=
  if cmd = bytes "include" then env.runInclude mem attrs
  else if cmd = bytes "set" then env.runSet mem none none attrs
  else if cmd = bytes "echo" then env.runEcho mem attrs
  else pure .syntaxError

/-- `parse_directive`, in the memory from `str` on: the effect and the memory afterwards. -/
def SsiEnv.parseDirective (env : SsiEnv) (mem : List UInt8) (len : ℕ) :
    Traced (SsiEffect × List UInt8) := do
  let cmd ← skipSpaces mem len 0
  if len ≤ cmd then return (.syntaxError, mem)
  let p ← skipWord mem cmd
  let mem ← Traced.write mem p 0
  let (attrs, mem) ← parseAttrs len ssiMaxAttrs [] (p + 1) mem
  match attrs with
  | none => return (.syntaxError, mem)
  | some attrs =>
    let effect ← env.runCommand mem (← readString mem cmd) attrs
    return (effect, mem)

/-- Only the directive and its terminator count: nothing else is accessed, and whatever lies behind
them stays as it is and has no part in the effect. -/
def SsiEnv.Isolates (env : SsiEnv) (directive : List UInt8) : Prop :=
  ∃ effect own, own.length = directive.length + 1 ∧
    Traced.Yields directive.length
      (fun behind => env.parseDirective (directive ++ 0 :: behind) directive.length)
      fun behind => (effect, own ++ behind)

/-! ### Each step stays in front of the terminator -/

open Traced

namespace Directive

variable {n p : ℕ} {own : List UInt8}

/-- What `strchr` finds lies in front of the terminator. -/
theorem yields_strchr (h : Terminated 0 n own) (hp : p ≤ n) {c : UInt8} (hc : c ≠ 0) :
    ∃ r : Option ℕ, (∀ q ∈ r, p ≤ q ∧ q < n) ∧
      Yields n (fun behind => strchr (own ++ behind) p c) fun _ => r := by
  obtain ⟨q, hpq, hqn, -, -, hsearch⟩ := h.yields_strchr hp c
  refine ⟨_, fun q' hq' => ?_, hsearch⟩
  obtain ⟨hqc, heq⟩ := Option.ite_none_right_eq_some.mp hq'
  obtain rfl := Option.some.inj heq
  have hne : q ≠ n := by
    rintro rfl
    exact hc (Option.some.inj (hqc.symm.trans h.last_eq))
  omega

theorem yields_endOfString (h : Terminated 0 n own) (hp : p ≤ n) :
    ∃ q, p ≤ q ∧ q ≤ n ∧ own[q]? = some 0 ∧
      Yields n (fun behind => endOfString (own ++ behind) p) fun _ => q := by
  obtain ⟨q, hpq, hqn, ⟨c, hc, hzero⟩, -, hscan⟩ :=
    h.yields_scanFrom hp (fun _ c => c = 0) (by simp)
  obtain rfl : c = 0 := by simpa using hzero
  exact ⟨q, hpq, hqn, hc, hscan⟩

theorem yields_readString (h : Terminated 0 n own) (hp : p ≤ n) :
    ∃ s, Yields n (fun behind => readString (own ++ behind) p) fun _ => s := by
  obtain ⟨q, hpq, hqn, -, hend⟩ := yields_endOfString h hp
  have hlen := h.length_eq
  refine ⟨(own.drop p).take (q - p), hend.bind fun behind => ?_⟩
  have hread : ((own ++ behind).drop p).take (q - p) = (own.drop p).take (q - p) := by
    rw [List.drop_append_of_le_length (by omega),
      List.take_append_of_le_length (by rw [List.length_drop]; omega)]
  beta_reduce
  rw [hread]
  exact yields_pure n (fun _ => (own.drop p).take (q - p)) behind

/-- Spaces are cut down to a character that is none. -/
theorem yields_cutSpaces (h : Terminated 0 n own) {i : ℕ} {c : UInt8} (hi : own[i]? = some c)
    (hc : ¬ c ≤ space) (hip : i < p) (hp : p ≤ n) :
    ∃ own', Terminated 0 n own' ∧
      Yields n (fun behind => cutSpaces (own ++ behind) p) fun behind => own' ++ behind := by
  induction p generalizing own with
  | zero => omega
  | succ p ih =>
    obtain ⟨d, hd⟩ := h.exists_getElem? (p := p) (by omega)
    have hread := h.yields_read (by omega) hd
    by_cases hspace : d ≤ space
    · -- not the character, which is found further in front
      have hne : i ≠ p := by
        rintro rfl
        exact hc (Option.some.inj (hi.symm.trans hd) ▸ hspace)
      have hkeep : (own.set p 0)[i]? = some c := by
        rw [List.getElem?_set_ne (by omega), hi]
      obtain ⟨own', hown', hrest⟩ := ih (h.set p) hkeep (by omega) (by omega)
      refine ⟨own', hown', hread.bind ?_⟩
      simp only [if_pos hspace]
      exact (h.yields_write (by omega) 0).bind hrest
    · refine ⟨own, h, hread.bind ?_⟩
      simp only [if_neg hspace]
      exact yields_pure n _

theorem yields_truncSpaceAt (h : Terminated 0 n own) (hp : p ≤ n) :
    ∃ q own', q ≤ n ∧ Terminated 0 n own' ∧
      Yields n (fun behind => truncSpaceAt (own ++ behind) p) fun behind => (q, own' ++ behind) := by
  obtain ⟨c, hc⟩ := h.exists_getElem? hp
  have hread := h.yields_read hp hc
  by_cases hzero : c = 0
  · refine ⟨p, own, hp, h, hread.bind ?_⟩
    simp only [if_pos hzero]
    exact yields_pure n _
  · obtain ⟨q, hpq, hqn, ⟨d, hd, hstop⟩, -, hskip⟩ :=
      h.yields_scanFrom hp (fun _ c => ¬ (c ≠ 0 ∧ c ≤ space)) (by simp)
    have hread' := h.yields_read hqn hd
    by_cases hend : d = 0
    · refine ⟨q, own, hqn, h, hread.bind ?_⟩
      simp only [if_neg hzero]
      refine hskip.bind (hread'.bind ?_)
      simp only [if_pos hend]
      exact yields_pure n _
    · obtain ⟨e, hqe, hen, he, hendOf⟩ := yields_endOfString h hqn
      have hne : q ≠ e := by
        rintro rfl
        exact hend (Option.some.inj (hd.symm.trans he))
      have hgraph : ¬ d ≤ space := by simpa [hend] using hstop
      obtain ⟨own', hown', hcut⟩ := yields_cutSpaces h hd hgraph (p := e) (by omega) hen
      refine ⟨q, own', hqn, hown', hread.bind ?_⟩
      simp only [if_neg hzero]
      refine hskip.bind (hread'.bind ?_)
      simp only [if_neg hend]
      exact hendOf.bind (hcut.bind (yields_pure n _))

/-- The attributes lie in front of the terminator. -/
def AttrsWithin (n : ℕ) (attrs : List SsiAttr) : Prop :=
  ∀ attr ∈ attrs, attr.name ≤ n ∧ attr.value ≤ n

theorem yields_parseAttrs (h : Terminated 0 n own) (hp : p ≤ n) (left : ℕ) {attrs : List SsiAttr}
    (hattrs : AttrsWithin n attrs) :
    ∃ result own', (∀ attrs' ∈ result, AttrsWithin n attrs') ∧ Terminated 0 n own' ∧
      Yields n (fun behind => parseAttrs n left attrs p (own ++ behind))
        fun behind => (result, own' ++ behind) := by
  induction left generalizing own p attrs with
  | zero =>
    exact ⟨some attrs, own, fun _ h' => Option.some.inj h' ▸ hattrs, h, yields_pure n _⟩
  | succ left ih =>
    have hnone : ∀ attrs' ∈ (none : Option (List SsiAttr)), AttrsWithin n attrs' := by simp
    obtain ⟨equals, hequals, hsearch⟩ := yields_strchr h hp (c := 61) (by decide)
    cases equals with
    | none =>
      exact ⟨some attrs, own, fun _ h' => Option.some.inj h' ▸ hattrs, h,
        hsearch.bind (yields_pure n _)⟩
    | some e =>
      obtain ⟨hpe, hen⟩ := hequals e rfl
      have hwrite := h.yields_write hen.le 0
      obtain ⟨name, own₁, hname, hown₁, htrunc⟩ := yields_truncSpaceAt (h.set e) hp
      obtain ⟨v, hev, hvn, -, -, hskip⟩ := hown₁.yields_scanFrom (p := e + 1) (by omega)
        (fun i c => ¬ (c ≤ space ∧ i < n)) (by simp)
      -- up to the value the steps are the same in all cases
      suffices hvalue : ∃ result own', (∀ attrs' ∈ result, AttrsWithin n attrs') ∧
          Terminated 0 n own' ∧ Yields n (fun behind =>
            if n ≤ v then pure (none, own₁ ++ behind)
            else do
              let q ← Traced.read (own₁ ++ behind) v
              if q ≠ 34 ∧ q ≠ 39 then return (none, own₁ ++ behind)
              match ← strchr (own₁ ++ behind) (v + 1) q with
              | none => return (none, own₁ ++ behind)
              | some e =>
                let mem ← Traced.write (own₁ ++ behind) e 0
                parseAttrs n left (attrs ++ [{ name, value := v + 1 }]) (e + 1) mem)
            fun behind => (result, own' ++ behind) by
        obtain ⟨result, own', hresult, hown', hrest⟩ := hvalue
        exact ⟨result, own', hresult, hown',
          hsearch.bind (hwrite.bind (htrunc.bind (hskip.bind hrest)))⟩
      by_cases hend : n ≤ v
      · simp only [if_pos hend]
        exact ⟨none, own₁, hnone, hown₁, yields_pure n _⟩
      simp only [if_neg hend]
      obtain ⟨q, hq⟩ := hown₁.exists_getElem? hvn
      have hread := hown₁.yields_read hvn hq
      by_cases hquote : q ≠ 34 ∧ q ≠ 39
      · refine ⟨none, own₁, hnone, hown₁, hread.bind ?_⟩
        simp only [if_pos hquote]
        exact yields_pure n _
      have hqzero : q ≠ 0 := by
        rintro rfl
        exact hquote (by decide)
      obtain ⟨close, hclose, hsearch'⟩ := yields_strchr hown₁ (p := v + 1) (by omega) hqzero
      cases close with
      | none =>
        refine ⟨none, own₁, hnone, hown₁, hread.bind ?_⟩
        simp only [if_neg hquote]
        exact hsearch'.bind (yields_pure n _)
      | some e' =>
        obtain ⟨hve, hen'⟩ := hclose e' rfl
        have hattrs' : AttrsWithin n (attrs ++ [{ name, value := v + 1 }]) := by
          intro attr hattr
          rcases List.mem_append.mp hattr with hattr | hattr
          · exact hattrs attr hattr
          · rw [List.mem_singleton.mp hattr]
            exact ⟨hname, show v + 1 ≤ n by omega⟩
        obtain ⟨result, own', hresult, hown', hrest⟩ :=
          ih (hown₁.set e') (p := e' + 1) (by omega) hattrs'
        refine ⟨result, own', hresult, hown', hread.bind ?_⟩
        simp only [if_neg hquote]
        exact hsearch'.bind ((hown₁.yields_write hen'.le 0).bind hrest)

/-! ### The commands -/

theorem yields_runInclude (env : SsiEnv) (h : Terminated 0 n own) {attrs : List SsiAttr}
    (hattrs : AttrsWithin n attrs) :
    ∃ effect, Yields n (fun behind => env.runInclude (own ++ behind) attrs) fun _ => effect := by
  induction attrs with
  | nil => exact ⟨.syntaxError, yields_pure n _⟩
  | cons attr attrs ih =>
    obtain ⟨hname, hvalue⟩ := hattrs attr List.mem_cons_self
    obtain ⟨name, hreadName⟩ := yields_readString h hname
    by_cases hvirtual : name = bytes "virtual"
    · obtain ⟨value, hreadValue⟩ := yields_readString h hvalue
      refine ⟨((env.expandVars value).map .subrequest).getD .syntaxError, hreadName.bind ?_⟩
      simp only [if_pos hvirtual]
      exact hreadValue.bind (yields_pure n _)
    · obtain ⟨effect, hrest⟩ := ih fun a ha => hattrs a (List.mem_cons_of_mem attr ha)
      refine ⟨effect, hreadName.bind ?_⟩
      simp only [if_neg hvirtual]
      exact hrest

theorem yields_runSet (env : SsiEnv) (h : Terminated 0 n own) {attrs : List SsiAttr}
    (hattrs : AttrsWithin n attrs) (varName varValue : Option (List UInt8)) :
    ∃ effect, Yields n (fun behind => env.runSet (own ++ behind) varName varValue attrs)
      fun _ => effect := by
  induction attrs generalizing varName varValue with
  | nil => exact ⟨_, yields_pure n _⟩
  | cons attr attrs ih =>
    obtain ⟨hname, hvalue⟩ := hattrs attr List.mem_cons_self
    obtain ⟨name, hreadName⟩ := yields_readString h hname
    obtain ⟨value, hreadValue⟩ := yields_readString h hvalue
    have hrest := ih fun a ha => hattrs a (List.mem_cons_of_mem attr ha)
    by_cases hvar : name = bytes "var"
    · obtain ⟨effect, heffect⟩ := hrest (some value) varValue
      refine ⟨effect, hreadName.bind ?_⟩
      simp only [if_pos hvar]
      exact hreadValue.bind heffect
    by_cases hval : name = bytes "value"
    · cases hexpand : env.expandVars value with
      | none =>
        refine ⟨.syntaxError, hreadName.bind ?_⟩
        simp only [if_neg hvar, if_pos hval]
        refine hreadValue.bind ?_
        simp only [hexpand]
        exact yields_pure n _
      | some expanded =>
        obtain ⟨effect, heffect⟩ := hrest varName (some expanded)
        refine ⟨effect, hreadName.bind ?_⟩
        simp only [if_neg hvar, if_pos hval]
        refine hreadValue.bind ?_
        simp only [hexpand]
        exact heffect
    · obtain ⟨effect, heffect⟩ := hrest varName varValue
      refine ⟨effect, hreadName.bind ?_⟩
      simp only [if_neg hvar, if_neg hval]
      exact heffect

theorem yields_runEcho (env : SsiEnv) (h : Terminated 0 n own) {attrs : List SsiAttr}
    (hattrs : AttrsWithin n attrs) :
    ∃ effect, Yields n (fun behind => env.runEcho (own ++ behind) attrs) fun _ => effect := by
  induction attrs with
  | nil => exact ⟨.syntaxError, yields_pure n _⟩
  | cons attr attrs ih =>
    obtain ⟨hname, hvalue⟩ := hattrs attr List.mem_cons_self
    obtain ⟨name, hreadName⟩ := yields_readString h hname
    by_cases hvar : name = bytes "var"
    · obtain ⟨value, hreadValue⟩ := yields_readString h hvalue
      refine ⟨((env.expandVar value ssiMaxExprLen).map .append).getD .syntaxError,
        hreadName.bind ?_⟩
      simp only [if_pos hvar]
      exact hreadValue.bind (yields_pure n _)
    · obtain ⟨effect, hrest⟩ := ih fun a ha => hattrs a (List.mem_cons_of_mem attr ha)
      refine ⟨effect, hreadName.bind ?_⟩
      simp only [if_neg hvar]
      exact hrest

theorem yields_runCommand (env : SsiEnv) (h : Terminated 0 n own) (cmd : List UInt8)
    {attrs : List SsiAttr} (hattrs : AttrsWithin n attrs) :
    ∃ effect, Yields n (fun behind => env.runCommand (own ++ behind) cmd attrs)
      fun _ => effect := by
  unfold SsiEnv.runCommand
  split_ifs
  · exact yields_runInclude env h hattrs
  · exact yields_runSet env h hattrs none none
  · exact yields_runEcho env h hattrs
  · exact ⟨.syntaxError, yields_pure n _⟩

end Directive

/-! ### The whole directive -/

/-- A directive is blank, or its command word ends before it. -/
def CommandEnds (directive : List UInt8) : Prop :=
  directive.dropWhile (· ≤ space) = [] ∨ ∃ c ∈ directive.dropWhile (· ≤ space), c ≤ space

instance (directive : List UInt8) : Decidable (CommandEnds directive) :=
  inferInstanceAs (Decidable (_ ∨ _))

/-- The steps that find the command word, from `cmd` to `p`. -/
structure CommandWord (directive : List UInt8) (cmd p : ℕ) : Prop where
  cmd_le : cmd ≤ directive.length
  p_le : p ≤ directive.length
  skipSpaces : Yields directive.length
    (fun behind => Nxweb.skipSpaces (directive ++ 0 :: behind) directive.length 0) fun _ => cmd
  skipWord : Yields directive.length (fun behind => Nxweb.skipWord (directive ++ 0 :: behind) cmd)
    fun _ => p
  commandEnds_iff : CommandEnds directive ↔ cmd = directive.length ∨ p < directive.length

/-- The scan over spaces goes as far as the directive has them. -/
theorem dropWhile_eq_drop {directive : List UInt8} {cmd : ℕ}
    (hblank : ∀ i c, i < cmd → directive[i]? = some c → c ≤ space)
    (hword : ∀ c, directive[cmd]? = some c → ¬ c ≤ space) :
    directive.dropWhile (· ≤ space) = directive.drop cmd := by
  have hfront : ∀ c ∈ directive.take cmd, decide (c ≤ space) = true := by
    intro c hc
    obtain ⟨i, hi⟩ := List.mem_iff_getElem?.mp hc
    rw [List.getElem?_take] at hi
    split_ifs at hi with hlt
    simpa using hblank i c hlt hi
  have hrest : (directive.drop cmd).dropWhile (· ≤ space) = directive.drop cmd := by
    cases hdrop : directive.drop cmd with
    | nil => rfl
    | cons c cs =>
      have hc : directive[cmd]? = some c := by
        rw [← List.head?_drop, hdrop]
        rfl
      rw [List.dropWhile_cons_of_neg (by simpa using hword c hc)]
  conv_lhs => rw [← List.take_append_drop cmd directive]
  rw [List.dropWhile_append_of_pos hfront, hrest]

theorem exists_commandWord (directive : List UInt8) : ∃ cmd p, CommandWord directive cmd p := by
  have h := Terminated.append_singleton 0 directive
  obtain ⟨cmd, -, hcmd, ⟨c, hc, hstop⟩, hblank, hskip⟩ := h.yields_scanFrom (Nat.zero_le _)
    (fun i c => ¬ (c ≤ space ∧ i < directive.length)) (by simp)
  obtain ⟨p, hcp, hp, ⟨d, hd, hspace⟩, hgraph, hskip'⟩ := h.yields_scanFrom hcmd
    (fun _ c => c ≤ space) (by decide)
  have hfront : ∀ i, i < directive.length → (directive ++ [0])[i]? = directive[i]? :=
    fun i hi => List.getElem?_append_left hi
  have hdrop : directive.dropWhile (· ≤ space) = directive.drop cmd := by
    apply dropWhile_eq_drop
    · intro i c hi hic
      have := hblank i c (Nat.zero_le _) hi ((hfront i (by omega)).trans hic)
      simp only [not_and, decide_eq_false_iff_not, Classical.not_imp, not_not] at this
      exact this.1
    · intro c' hc'
      have hlt := (List.getElem?_eq_some_iff.mp hc').1
      obtain rfl := Option.some.inj (hc.symm.trans ((hfront cmd hlt).trans hc'))
      simpa [hlt] using hstop
  refine ⟨cmd, p, hcmd, hp, ?_, ?_, ?_⟩
  · simpa only [skipSpaces, List.append_assoc, List.singleton_append] using hskip
  · simpa only [skipWord, List.append_assoc, List.singleton_append] using hskip'
  · unfold CommandEnds
    rw [hdrop, List.drop_eq_nil_iff]
    refine or_congr (by omega) ⟨?_, fun hlt => ?_⟩
    · rintro ⟨c', hmem, hc'⟩
      -- the word ends at this character or in front of it
      obtain ⟨i, hi⟩ := List.mem_iff_getElem?.mp hmem
      rw [List.getElem?_drop] at hi
      have hlt := (List.getElem?_eq_some_iff.mp hi).1
      by_contra hle
      have := hgraph (cmd + i) c' (by omega) (by omega) ((hfront _ hlt).trans hi)
      simp [hc'] at this
    · refine ⟨d, List.mem_iff_getElem?.mpr ⟨p - cmd, ?_⟩, by simpa using hspace⟩
      rw [List.getElem?_drop, Nat.add_sub_cancel' hcp, ← hfront p hlt, hd]

/-- The search for an attribute begins behind the command word. -/
theorem CommandWord.mem_accessed {directive : List UInt8} {cmd p : ℕ}
    (h : CommandWord directive cmd p) (hblank : cmd ≠ directive.length) (env : SsiEnv)
    (behind : List UInt8) :
    p + 1 ∈ (env.parseDirective (directive ++ 0 :: behind) directive.length).accessed := by
  have hlt : ¬ directive.length ≤ cmd := by
    have := h.cmd_le
    omega
  unfold SsiEnv.parseDirective
  rw [accessed_bind_of_some (h.skipSpaces behind).2, if_neg hlt,
    accessed_bind_of_some (h.skipWord behind).2, accessed_bind_of_some (result_write _ _ _)]
  apply List.mem_append_right
  apply List.mem_append_right
  apply List.mem_append_right
  apply mem_accessed_bind
  exact mem_accessed_bind (mem_accessed_bind (mem_accessed_scanFrom _ _ _) _) _

/-- What comes behind the command word is found in front of the terminator. -/
theorem isolates_of_commandEnds (env : SsiEnv) {directive : List UInt8}
    (hends : CommandEnds directive) : env.Isolates directive := by
  obtain ⟨cmd, p, h⟩ := exists_commandWord directive
  have hown := Terminated.append_singleton 0 directive
  by_cases hblank : directive.length ≤ cmd
  · refine ⟨.syntaxError, directive ++ [0], by simp, h.skipSpaces.bind ?_⟩
    simp only [if_pos hblank]
    exact fun behind => ⟨within_pure _ _, by simp⟩
  · have hlt : p < directive.length := by
      have := h.commandEnds_iff.mp hends
      omega
    have hwrite := hown.yields_write hlt.le 0
    have hnone : Directive.AttrsWithin directive.length [] := by simp [Directive.AttrsWithin]
    obtain ⟨attrs, own, hattrs, hown', hparse⟩ := Directive.yields_parseAttrs (hown.set p)
      (p := p + 1) hlt ssiMaxAttrs hnone
    suffices hrun : ∃ effect, Yields directive.length (fun behind =>
        match attrs with
        | none => pure (.syntaxError, own ++ behind)
        | some attrs => do
          let effect ← env.runCommand (own ++ behind) (← readString (own ++ behind) cmd) attrs
          return (effect, own ++ behind))
        fun behind => (effect, own ++ behind) by
      obtain ⟨effect, heffect⟩ := hrun
      refine ⟨effect, own, hown'.length_eq, h.skipSpaces.bind ?_⟩
      simp only [if_neg hblank]
      refine h.skipWord.bind ?_
      simp only [List.append_assoc, List.singleton_append] at hwrite
      exact hwrite.bind (hparse.bind heffect)
    cases attrs with
    | none => exact ⟨.syntaxError, yields_pure _ _⟩
    | some attrs =>
      have hwithin := hattrs attrs rfl
      obtain ⟨word, hword⟩ := Directive.yields_readString hown' h.cmd_le
      obtain ⟨effect, heffect⟩ := Directive.yields_runCommand env hown' word hwithin
      exact ⟨effect, hword.bind (heffect.bind (yields_pure _ _))⟩

/-- A directive is isolated if and only if it is blank or its command word is followed by white space
before it ends. -/
theorem isolates_iff (env : SsiEnv) (directive : List UInt8) :
    env.Isolates directive ↔ CommandEnds directive := by
  refine ⟨?_, isolates_of_commandEnds env⟩
  rintro ⟨effect, own, -, hyields⟩
  obtain ⟨cmd, p, h⟩ := exists_commandWord directive
  rw [h.commandEnds_iff]
  by_contra hnot
  rw [not_or] at hnot
  -- the word reaches up to the terminator, and the search begins behind it
  have hbehind := (hyields []).1 (p + 1) (h.mem_accessed hnot.1 env [])
  have hp := h.p_le
  omega

/-- A command without an attribute, in front of a link: a terminator takes the place of the equals
sign. -/
example :
    (SsiEnv.parseDirective { uri := [] } (bytes "echo" ++ 0 :: bytes "-><a href=\"/\">") 4).result =
      some (.syntaxError, bytes "echo" ++ 0 :: (bytes "-><a href" ++ 0 :: bytes "\"/\">")) := by
  decide +kernel

theorem not_isolates_echo : ¬ SsiEnv.Isolates { uri := [] } (bytes "echo") := by
  rintro ⟨effect, own, -, hyields⟩
  -- in front of a string without a second terminator
  have hwithin := (hyields [0]).1
  revert hwithin
  decide +kernel

end Nxweb
