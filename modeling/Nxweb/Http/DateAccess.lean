import Nxweb.Http.Date
import Nxweb.Lib.CString
import Nxweb.Lib.Region

/-!
# What the date parser looks at

Model of `nxweb_parse_http_time` (`http_utils.c`) with positions in the memory that the string is part
of. The parser skips three bytes without looking at them; behind them, every byte that is not the
expected one makes it return, and so does the terminator.

The result is `dateReadsString_iff`: nothing behind the terminator is looked at, and the result is that of
`parseHttpTime` whatever stands there, if and only if the string has at least three characters.
-/

namespace Nxweb

open Lib Traced

/-! ### The parser -/

/-- `*p`. -/
def peekByte (mem : List UInt8) (p : ℕ) : OptionT Traced UInt8 := .lift (Traced.read mem p)

/-- `if (*p++!=c) return 0;`, which gives the next position. -/
def expectByte (c : UInt8) (mem : List UInt8) (p : ℕ) : OptionT Traced ℕ := do
  let d ← peekByte mem p
  if d = c then return p + 1 else failure

/-- The same for all bytes of a string. -/
def expectBytes (s : List UInt8) (mem : List UInt8) (p : ℕ) : OptionT Traced ℕ :=
  s.foldlM (fun p c => expectByte c mem p) p

/-- The `switch` over the letters of the month. -/
def parseMonthAt (mem : List UInt8) (p : ℕ) : OptionT Traced (ℤ × ℕ) := do
  -- the rest of a month that is known by now
  let month (mon : ℤ) (rest : String) (p : ℕ) : OptionT Traced (ℤ × ℕ) := do
    return (mon, ← expectBytes (bytes rest) mem p)
  let c ← peekByte mem p
  let p := p + 1
  if c = 74 then -- J
    let c ← peekByte mem p
    if c = 97 then month 0 "n" (p + 1)
    else
      let p ← expectByte 117 mem p
      let c ← peekByte mem p
      if c = 110 then return (5, p + 1)
      else if c = 108 then return (6, p + 1) else failure
  else if c = 70 then month 1 "eb" p -- F
  else if c = 77 then -- M
    let p ← expectByte 97 mem p
    let c ← peekByte mem p
    if c = 121 then return (4, p + 1)
    else if c = 114 then return (2, p + 1) else failure
  else if c = 65 then -- A
    let c ← peekByte mem p
    if c = 112 then month 3 "r" (p + 1)
    else
      let c ← peekByte mem p
      if c = 117 then month 7 "g" (p + 1) else failure
  else if c = 83 then month 8 "ep" p -- S
  else if c = 79 then month 9 "ct" p -- O
  else if c = 78 then month 10 "ov" p -- N
  else if c = 68 then month 11 "ec" p -- D
  else failure

/-- `strtol` with base ten: the number, and where it stops. -/
def strtolAt (mem : List UInt8) (p : ℕ) : Traced (ℤ × ℕ) := do
  let q ← scanFrom (fun _ c => ¬ isSpace c) mem p
  let c ← Traced.read mem q
  let start := if c = 45 ∨ c = 43 then q + 1 else q
  let stop ← scanFrom (fun _ c => ¬ isDigit c) mem start
  let digits := (mem.drop start).take (stop - start)
  if digits = [] then return (0, p)
  else
    return (clampLong (if c = 45 then -(decimalValue digits : ℤ) else decimalValue digits), stop)

/-- `strtol` into a field of type `int`, which has to be in the given range. -/
def parseFieldAt (offset lower upper : ℤ) (mem : List UInt8) (p : ℕ) : OptionT Traced (ℤ × ℕ) := do
  let (x, p) ← OptionT.lift (strtolAt mem p)
  let field := (x - offset).bmod (2 ^ 32)
  if lower ≤ field ∧ field ≤ upper then return (field, p) else failure

/-- The part of `nxweb_parse_http_time` that reads the date, for a string at the start of the
memory. -/
def parseTmAt (mem : List UInt8) : OptionT Traced Tm := do
  let p ← expectBytes (bytes ", ") mem 3
  let (mday, p) ← parseFieldAt 0 1 31 mem p
  let p ← expectBytes (bytes " ") mem p
  let (mon, p) ← parseMonthAt mem p
  let p ← expectBytes (bytes " ") mem p
  let (year, p) ← parseFieldAt 1900 0 1000 mem p
  let p ← expectBytes (bytes " ") mem p
  let (hour, p) ← parseFieldAt 0 0 23 mem p
  let p ← expectBytes (bytes ":") mem p
  let (min, p) ← parseFieldAt 0 0 59 mem p
  let p ← expectBytes (bytes ":") mem p
  let (sec, p) ← parseFieldAt 0 0 59 mem p
  let _ ← expectBytes (bytes " GMT") mem p
  return { sec, min, hour, mday, mon, year }

/-- `nxweb_parse_http_time`. -/
def parseHttpTimeAt (mem : List UInt8) : Traced ℤ := do
  match ← (parseTmAt mem).run with
  | some tm => return if timegm tm = -1 then 0 else timegm tm
  | none => return 0

/-! ### Steps of the parser -/

/-- Whatever stands behind the terminator of a string, none of it is looked at, and the result is the
given one, `none` for `return 0`. -/
def Gives {β : Type} (s : List UInt8) (x : List UInt8 → OptionT Traced β) (b? : Option β) : Prop :=
  Yields s.length (fun behind => (x (s ++ 0 :: behind)).run) fun _ => b?

section Steps

variable {β γ ρ : Type} {s rest : List UInt8}

theorem gives_pure (s : List UInt8) (b : β) : Gives s (fun _ => pure b) (some b) :=
  yields_pure _ fun _ => some b

theorem gives_failure (s : List UInt8) : Gives s (fun _ => (failure : OptionT Traced β)) none :=
  yields_pure _ fun _ => none

theorem gives_lift {x : List UInt8 → Traced β} {b : β}
    (hx : Yields s.length (fun behind => x (s ++ 0 :: behind)) fun _ => b) :
    Gives s (fun mem => OptionT.lift (x mem)) (some b) :=
  hx.bind (yields_pure _ fun _ => some b)

/-- What follows is run with the result, which is a function of the one of the string. -/
theorem Gives.bind {x : List UInt8 → OptionT Traced β} {r? : Option ρ} {f : ρ → β}
    {g : List UInt8 → β → OptionT Traced γ} {c? : ρ → Option γ} (hx : Gives s x (r?.map f))
    (hg : ∀ r, r? = some r → Gives s (fun mem => g mem (f r)) (c? r)) :
    Gives s (fun mem => x mem >>= g mem) (r?.bind c?) := by
  have hrest : Yields s.length (fun behind => match r?.map f with
      | some b => (g (s ++ 0 :: behind) b).run
      | none => pure none) fun _ => r?.bind c? := by
    cases r? with
    | none => exact yields_pure _ fun _ => none
    | some r => exact hg r rfl
  exact Yields.bind hx hrest

theorem Gives.bind_some {x : List UInt8 → OptionT Traced β} {b : β}
    {g : List UInt8 → β → OptionT Traced γ} {c? : Option γ} (hx : Gives s x (some b))
    (hg : Gives s (g · b) c?) : Gives s (fun mem => x mem >>= g mem) c? :=
  Yields.bind hx hg

theorem Gives.ite {p : Prop} [Decidable p] {x y : List UInt8 → OptionT Traced β} {b? c? : Option β}
    (hx : p → Gives s x b?) (hy : ¬ p → Gives s y c?) :
    Gives s (fun mem => if p then x mem else y mem) (if p then b? else c?) := by
  by_cases h : p
  · simpa only [if_pos h] using hx h
  · simpa only [if_neg h] using hy h

/-- The byte at the start of the rest of the string, or the terminator. -/
theorem gives_peekByte (hrest : rest <:+ s) :
    Gives s (fun mem => peekByte mem (s.length - rest.length)) (some (rest.head?.getD 0)) :=
  gives_lift (yields_read_of_suffix hrest)

theorem skipByte_eq_some {c : UInt8} {rest' : List UInt8} :
    skipByte c rest = some rest' ↔ rest = c :: rest' := by
  cases rest with
  | nil => simp [skipByte]
  | cons d rest =>
    rw [skipByte]
    split_ifs with hd
    · simp [hd]
    · simp [hd]

theorem gives_expectByte {c : UInt8} (hc : c ≠ 0) (hrest : rest <:+ s) :
    Gives s (expectByte c · (s.length - rest.length))
      ((skipByte c rest).map fun rest' => s.length - rest'.length) := by
  have hpeek := gives_peekByte hrest
  refine hpeek.bind_some ?_
  cases rest with
  | nil =>
    -- the terminator is none of the expected bytes
    have hne : ¬ (0 : UInt8) = c := hc.symm
    simp only [List.head?_nil, Option.getD_none, hne, if_false]
    exact gives_failure s
  | cons d rest =>
    have hle := hrest.length_le
    rw [List.length_cons] at hle ⊢
    rw [skipByte]
    by_cases hd : d = c
    · simp only [List.head?_cons, Option.getD_some, if_pos hd, Option.map_some,
        show s.length - (rest.length + 1) + 1 = s.length - rest.length by omega]
      exact gives_pure s _
    · simp only [List.head?_cons, Option.getD_some, hd, if_false]
      exact gives_failure s

theorem skipByte_suffix {c : UInt8} {rest' : List UInt8} (h : skipByte c rest = some rest') :
    rest' <:+ rest := by
  rw [skipByte_eq_some.mp h]
  exact List.suffix_cons c rest'

theorem skipBytes_suffix {t rest' : List UInt8} (h : skipBytes t rest = some rest') :
    rest' <:+ rest := by
  induction t generalizing rest with
  | nil =>
    obtain rfl := Option.some.inj h
    exact List.suffix_rfl
  | cons c t ih =>
    obtain ⟨p, hp, hrest⟩ := Option.bind_eq_some_iff.mp h
    exact (ih hrest).trans (skipByte_suffix hp)

theorem gives_expectBytes {t : List UInt8} (ht : 0 ∉ t) (hrest : rest <:+ s) :
    Gives s (expectBytes t · (s.length - rest.length))
      ((skipBytes t rest).map fun rest' => s.length - rest'.length) := by
  induction t generalizing rest with
  | nil => exact gives_pure s _
  | cons c t ih =>
    rw [List.mem_cons, not_or] at ht
    have hstep := gives_expectByte (Ne.symm ht.1) hrest
    have hmap : (skipBytes (c :: t) rest).map (fun rest' => s.length - rest'.length) =
        (skipByte c rest).bind fun rest' =>
          (skipBytes t rest').map fun rest'' => s.length - rest''.length := by
      rw [skipBytes, List.foldlM_cons, Option.bind_eq_bind, Option.map_bind]
      rfl
    rw [hmap]
    exact hstep.bind fun rest' hrest' => ih ht.2 ((skipByte_suffix hrest').trans hrest)

/-- `strtol` stops at the terminator at the latest. -/
theorem yields_strtolAt (hrest : rest <:+ s) :
    Yields s.length (fun behind => strtolAt (s ++ 0 :: behind) (s.length - rest.length))
      fun _ => ((strtol rest).1, s.length - (strtol rest).2.length) := by
  have hblank : rest.dropWhile isSpace <:+ s := (List.dropWhile_suffix _).trans hrest
  refine (yields_skipWhile hrest (by decide)).bind ((yields_read_of_suffix hblank).bind ?_)
  rw [strtol_eq]
  generalize rest.dropWhile isSpace = t at hblank ⊢
  have hsign : behindSign t <:+ s := (behindSign_suffix t).trans hblank
  -- where the digits begin
  have hstart : (if t.head?.getD 0 = 45 ∨ t.head?.getD 0 = 43 then s.length - t.length + 1
      else s.length - t.length) = s.length - (behindSign t).length := by
    unfold behindSign
    split_ifs with h
    · cases t with
      | nil => exact absurd h (by decide)
      | cons c u =>
        have hle := hblank.length_le
        rw [List.length_cons] at hle ⊢
        rw [List.tail_cons]
        omega
    · rfl
  rw [hstart]
  generalize behindSign t = u at hsign ⊢
  refine (yields_skipWhile hsign (by decide)).bind ?_
  have hdigits : ∀ behind, ((s ++ 0 :: behind).drop (s.length - u.length)).take
      (s.length - (u.dropWhile isDigit).length - (s.length - u.length)) = u.takeWhile isDigit := by
    intro behind
    have hlen := congrArg List.length (List.takeWhile_append_dropWhile (p := isDigit) (l := u))
    have hle := hsign.length_le
    rw [List.length_append] at hlen
    obtain ⟨pre, rfl⟩ := hsign
    rw [List.length_append] at hle ⊢
    have hcut : pre.length + u.length - (u.dropWhile isDigit).length -
        (pre.length + u.length - u.length) = (u.takeWhile isDigit).length := by omega
    have hsplit : u ++ 0 :: behind =
        u.takeWhile isDigit ++ (u.dropWhile isDigit ++ 0 :: behind) := by
      rw [← List.append_assoc, List.takeWhile_append_dropWhile]
    rw [hcut, Nat.add_sub_cancel, List.append_assoc, List.drop_left, hsplit, List.take_left]
  simp only [hdigits]
  split_ifs <;> exact yields_pure _ _

theorem gives_parseFieldAt (offset lower upper : ℤ) (hrest : rest <:+ s) :
    Gives s (parseFieldAt offset lower upper · (s.length - rest.length))
      ((parseField offset lower upper rest).map fun (x, rest') => (x, s.length - rest'.length)) := by
  refine (gives_lift (yields_strtolAt hrest)).bind_some ?_
  unfold parseField
  simp only
  split_ifs
  · exact gives_pure s _
  · exact gives_failure s

theorem parseField_suffix {offset lower upper x : ℤ} {rest' : List UInt8}
    (h : parseField offset lower upper rest = some (x, rest')) : rest' <:+ rest := by
  unfold parseField at h
  obtain ⟨-, heq⟩ := Option.ite_none_right_eq_some.mp h
  obtain ⟨-, rfl⟩ := Prod.mk.inj (Option.some.inj heq)
  exact strtol_suffix rest

theorem parseMonth_suffix {mon : ℤ} {rest' : List UInt8} (h : parseMonth rest = some (mon, rest')) :
    rest' <:+ rest := by
  obtain ⟨_, -, heq⟩ := Option.map_eq_some_iff.mp h
  obtain ⟨-, rfl⟩ := Prod.mk.inj heq
  exact List.drop_suffix 3 rest

/-- The month that begins with a letter, by what follows the letter. -/
def monthBehind (c : UInt8) (u : List UInt8) : Option (ℤ × List UInt8) :=
  let month (mon : ℤ) (t : String) (u : List UInt8) := (skipBytes (bytes t) u).map fun u => (mon, u)
  if c = 74 then
    if u.head?.getD 0 = 97 then month 0 "n" u.tail
    else (skipByte 117 u).bind fun u =>
      if u.head?.getD 0 = 110 then some (5, u.tail)
      else if u.head?.getD 0 = 108 then some (6, u.tail) else none
  else if c = 70 then month 1 "eb" u
  else if c = 77 then (skipByte 97 u).bind fun u =>
    if u.head?.getD 0 = 121 then some (4, u.tail)
    else if u.head?.getD 0 = 114 then some (2, u.tail) else none
  else if c = 65 then
    if u.head?.getD 0 = 112 then month 3 "r" u.tail
    else if u.head?.getD 0 = 117 then month 7 "g" u.tail else none
  else if c = 83 then month 8 "ep" u
  else if c = 79 then month 9 "ct" u
  else if c = 78 then month 10 "ov" u
  else if c = 68 then month 11 "ec" u
  else none

theorem parseMonth_cons (c : UInt8) (u : List UInt8) : parseMonth (c :: u) = monthBehind c u := by
  unfold monthBehind
  by_cases hletter : c = 74 ∨ c = 70 ∨ c = 77 ∨ c = 65 ∨ c = 83 ∨ c = 79 ∨ c = 78 ∨ c = 68
  · rcases hletter with rfl | rfl | rfl | rfl | rfl | rfl | rfl | rfl
    all_goals
      rcases u with - | ⟨a, - | ⟨b, u⟩⟩ <;>
        simp [parseMonth, month, bytes, List.findIdx?_cons, skipBytes, skipByte] <;> grind
  · -- no month begins with another letter
    simp only [not_or] at hletter
    obtain ⟨h74, h70, h77, h65, h83, h79, h78, h68⟩ := hletter
    simp [parseMonth, month, bytes, List.findIdx?_cons, h74, h70, h77, h65, h83, h79, h78, h68,
      Ne.symm h74, Ne.symm h70, Ne.symm h77, Ne.symm h65, Ne.symm h83, Ne.symm h79, Ne.symm h78,
      Ne.symm h68]

/-- A letter that is there is in front of the rest. -/
theorem length_sub_add_one {u : List UInt8} (hu : u <:+ s) {c : UInt8} (hc : c ≠ 0)
    (h : u.head?.getD 0 = c) : s.length - u.length + 1 = s.length - u.tail.length := by
  cases u with
  | nil => exact absurd h.symm hc
  | cons d u =>
    have hle := hu.length_le
    rw [List.length_cons] at hle ⊢
    rw [List.tail_cons]
    omega

theorem gives_month (mon : ℤ) {t u : List UInt8} (ht : 0 ∉ t) (hu : u <:+ s) :
    Gives s (fun mem => do return (mon, ← expectBytes t mem (s.length - u.length)))
      (((skipBytes t u).map fun u => (mon, u)).map fun (mon, u) => (mon, s.length - u.length)) := by
  have hbind := (gives_expectBytes ht hu).bind (g := fun _ p => pure (mon, p)) fun u _ =>
    gives_pure s (mon, s.length - u.length)
  rwa [Option.map_map, Option.map_eq_bind]

/-- One of two letters. -/
theorem gives_eitherLetter {a b : UInt8} (ha : a ≠ 0) (hb : b ≠ 0) (x y : ℤ) {u : List UInt8}
    (hu : u <:+ s) :
    Gives s (fun mem => do
        let c ← peekByte mem (s.length - u.length)
        if c = a then return (x, s.length - u.length + 1)
        else if c = b then return (y, s.length - u.length + 1) else failure)
      ((if u.head?.getD 0 = a then some (x, u.tail)
        else if u.head?.getD 0 = b then some (y, u.tail) else none).map
          fun (mon, u) => (mon, s.length - u.length)) := by
  refine (gives_peekByte hu).bind_some ?_
  simp only [apply_ite (Option.map _), Option.map_some, Option.map_none]
  refine Gives.ite (fun hfirst => ?_) fun _ => Gives.ite (fun hsecond => ?_) fun _ => gives_failure s
  · rw [length_sub_add_one hu ha hfirst]
    exact gives_pure s _
  · rw [length_sub_add_one hu hb hsecond]
    exact gives_pure s _

theorem gives_parseMonthAt (hrest : rest <:+ s) :
    Gives s (parseMonthAt · (s.length - rest.length))
      ((parseMonth rest).map fun (mon, rest') => (mon, s.length - rest'.length)) := by
  refine (gives_peekByte hrest).bind_some ?_
  cases rest with
  | nil => exact gives_failure s
  | cons c u =>
    have hu : u <:+ s := (List.suffix_cons c u).trans hrest
    have hpos : s.length - (c :: u).length + 1 = s.length - u.length := by
      have hle := hrest.length_le
      rw [List.length_cons] at hle ⊢
      omega
    have htail : u.tail <:+ s := (List.tail_suffix u).trans hu
    rw [parseMonth_cons, hpos]
    unfold monthBehind
    simp only [apply_ite (Option.map _), List.head?_cons, Option.getD_some]
    refine Gives.ite (fun _ => ?_) fun _ => Gives.ite (fun _ => gives_month _ (by decide) hu) fun _ =>
      Gives.ite (fun _ => ?_) fun _ => Gives.ite (fun _ => ?_) fun _ =>
      Gives.ite (fun _ => gives_month _ (by decide) hu) fun _ =>
      Gives.ite (fun _ => gives_month _ (by decide) hu) fun _ =>
      Gives.ite (fun _ => gives_month _ (by decide) hu) fun _ =>
      Gives.ite (fun _ => gives_month _ (by decide) hu) fun _ => gives_failure s
    · -- `Jan`, `Jun` or `Jul`
      refine (gives_peekByte hu).bind_some (Gives.ite (fun ha => ?_) fun _ => ?_)
      · rw [length_sub_add_one hu (by decide) ha]
        exact gives_month _ (by decide) htail
      · rw [Option.map_bind]
        exact (gives_expectByte (by decide) hu).bind fun u' hu' =>
          gives_eitherLetter (by decide) (by decide) _ _ ((skipByte_suffix hu').trans hu)
    · -- `May` or `Mar`
      rw [Option.map_bind]
      exact (gives_expectByte (by decide) hu).bind fun u' hu' =>
        gives_eitherLetter (by decide) (by decide) _ _ ((skipByte_suffix hu').trans hu)
    · -- `Apr` or `Aug`
      refine (gives_peekByte hu).bind_some (Gives.ite (fun hp => ?_) fun _ => ?_)
      · rw [length_sub_add_one hu (by decide) hp]
        exact gives_month _ (by decide) htail
      · refine (gives_peekByte hu).bind_some (Gives.ite (fun hg => ?_) fun _ => gives_failure s)
        rw [length_sub_add_one hu (by decide) hg]
        exact gives_month _ (by decide) htail

/-- Behind the first three characters, the date is read from the string alone. -/
theorem gives_parseTmAt (hlen : 3 ≤ s.length) : Gives s parseTmAt (parseTm s) := by
  have hstart : s.length - (s.drop 3).length = 3 := by
    rw [List.length_drop]
    omega
  have hcomma := gives_expectBytes (t := bytes ", ") (by decide) (List.drop_suffix 3 s)
  rw [hstart] at hcomma
  have hdate : s.drop 3 <:+ s := List.drop_suffix 3 s
  unfold parseTm
  refine hcomma.bind fun r₁ h₁ => ?_
  have s₁ := (skipBytes_suffix h₁).trans hdate
  refine (gives_parseFieldAt 0 1 31 s₁).bind fun ⟨mday, r₂⟩ h₂ => ?_
  have s₂ := (parseField_suffix h₂).trans s₁
  refine (gives_expectBytes (by decide) s₂).bind fun r₃ h₃ => ?_
  have s₃ := (skipBytes_suffix h₃).trans s₂
  refine (gives_parseMonthAt s₃).bind fun ⟨mon, r₄⟩ h₄ => ?_
  have s₄ := (parseMonth_suffix h₄).trans s₃
  refine (gives_expectBytes (by decide) s₄).bind fun r₅ h₅ => ?_
  have s₅ := (skipBytes_suffix h₅).trans s₄
  refine (gives_parseFieldAt 1900 0 1000 s₅).bind fun ⟨year, r₆⟩ h₆ => ?_
  have s₆ := (parseField_suffix h₆).trans s₅
  refine (gives_expectBytes (by decide) s₆).bind fun r₇ h₇ => ?_
  have s₇ := (skipBytes_suffix h₇).trans s₆
  refine (gives_parseFieldAt 0 0 23 s₇).bind fun ⟨hour, r₈⟩ h₈ => ?_
  have s₈ := (parseField_suffix h₈).trans s₇
  refine (gives_expectBytes (by decide) s₈).bind fun r₉ h₉ => ?_
  have s₉ := (skipBytes_suffix h₉).trans s₈
  refine (gives_parseFieldAt 0 0 59 s₉).bind fun ⟨min, r₁₀⟩ h₁₀ => ?_
  have s₁₀ := (parseField_suffix h₁₀).trans s₉
  refine (gives_expectBytes (by decide) s₁₀).bind fun r₁₁ h₁₁ => ?_
  have s₁₁ := (skipBytes_suffix h₁₁).trans s₁₀
  refine (gives_parseFieldAt 0 0 59 s₁₁).bind fun ⟨sec, r₁₂⟩ h₁₂ => ?_
  have s₁₂ := (parseField_suffix h₁₂).trans s₁₁
  refine (gives_expectBytes (by decide) s₁₂).bind fun r₁₃ h₁₃ => ?_
  exact gives_pure s _

end Steps

/-! ### The result -/

/-- Nothing behind the terminator is looked at, and what is there does not change the result. -/
def DateReadsString (s : CStr) : Prop :=
  ∃ t, ∀ behind, (parseHttpTimeAt (s.toList ++ 0 :: behind)).Within s.toList.length ∧
    (parseHttpTimeAt (s.toList ++ 0 :: behind)).result = some t

/-- A string of three characters or more is parsed as `parseHttpTime` says. -/
theorem yields_parseHttpTimeAt {s : List UInt8} (hlen : 3 ≤ s.length) :
    Yields s.length (fun behind => parseHttpTimeAt (s ++ 0 :: behind)) fun _ => parseHttpTime s := by
  refine Yields.bind (gives_parseTmAt hlen) ?_
  unfold parseHttpTime
  cases parseTm s <;> exact yields_pure _ _

/-- The fourth byte is looked at in any case. -/
theorem mem_accessed_parseHttpTimeAt (mem : List UInt8) : 3 ∈ (parseHttpTimeAt mem).accessed := by
  have hread : 3 ∈ (Traced.read mem 3).accessed := List.mem_singleton_self 3
  have hexpect : 3 ∈ (expectBytes (bytes ", ") mem 3).run.accessed :=
    mem_accessed_bind (mem_accessed_bind (mem_accessed_bind hread _) _) _
  exact mem_accessed_bind (mem_accessed_bind hexpect _) _

/-- The parser looks at its string only if and only if that has at least three characters. -/
theorem dateReadsString_iff (s : CStr) : DateReadsString s ↔ 3 ≤ s.toList.length := by
  constructor
  · rintro ⟨t, h⟩
    exact (h []).1 3 (mem_accessed_parseHttpTimeAt _)
  · intro hlen
    exact ⟨parseHttpTime s.toList, yields_parseHttpTimeAt hlen⟩

/-- The empty string is taken for the date that stands behind it. -/
theorem not_dateReadsString_empty : ¬ DateReadsString ⟨[], List.not_mem_nil⟩ := by
  rintro ⟨t, h⟩
  have hdate : (parseHttpTimeAt (0 :: bytes "xx, 24 Jan 2012 13:05:54 GMT")).result =
      some 1327410354 := by decide +kernel
  have hzeros : (parseHttpTimeAt (0 :: [0, 0, 0])).result = some 0 := by decide +kernel
  have heq := Option.some.inj (hdate.symm.trans (h (bytes "xx, 24 Jan 2012 13:05:54 GMT")).2)
  have heq' := Option.some.inj (hzeros.symm.trans (h [0, 0, 0]).2)
  exact absurd (heq.trans heq'.symm) (by decide)

end Nxweb
