import Nxweb.Filters.ImageCommand

/-!
# Image commands have one form

What `decode_cmd` accepts is a name, a command and an extension, and a query. The command is
determined by the letter, the numbers and the options that are read of it, as long as the numbers
that are written in it fit into an `int`: they have no leading zeros, and there is one order for the
options. A larger number is reduced to 32 bits, and then it is the text of another command as well.

## Main results

* `scanCommand_sound`: what has been read when a command is accepted;
* `decodeCmd_sound`: what has been read when a URI is accepted;
* `decodedCanonically_iff`: decoding is canonical exactly for numbers below `2 ^ 31`.
-/

namespace Nxweb

open Lib

/-! ### The text of a command -/

/-- The letter of a command that has one. -/
def letterText (c : UInt8) : List UInt8 := if c = 115 then [] else [c]

/-- The text of the options for the side to keep. -/
def gravityText (cmd : ImageFilterCmd) : List UInt8 :=
  (if cmd.gravityTop then [116] else if cmd.gravityBottom then [98] else []) ++
    if cmd.gravityRight then [114] else if cmd.gravityLeft then [108] else []

/-- The text of the color, with an `x` for the `#`. -/
def colorText (cmd : ImageFilterCmd) : List UInt8 :=
  if cmd.color = [] then [] else 120 :: cmd.color.tail

/-- A number, or nothing where any size will do. -/
def numberText (n : ℤ) : List UInt8 := if n = 0 then [] else decimal n.toNat

/-- The one text of a command. -/
def commandText (cmd : ImageFilterCmd) : List UInt8 :=
  46 :: (letterText cmd.cmd ++ numberText cmd.width ++ 120 :: numberText cmd.height ++
    gravityText cmd ++ colorText cmd)

/-! ### What the scanners read -/

/-- The number is the value of the digits, reduced to 32 bits. -/
theorem scanNumber_sound {n : ℕ} {cp rest : List UInt8} {v : ℤ}
    (h : scanNumber ((n : ℤ).bmod (2 ^ 32)) cp = some (v, rest)) :
    ∃ ds, cp = ds ++ rest ∧ (∀ c ∈ ds, isDigit c = true) ∧ EndsNumber rest ∧
      v = (decimalValueFrom n ds : ℤ).bmod (2 ^ 32) ∧ (n = 0 → ds.head? ≠ some 48) := by
  induction cp generalizing n with
  | nil =>
    simp only [scanNumber, Option.some.injEq, Prod.mk.injEq] at h
    obtain ⟨rfl, rfl⟩ := h
    exact ⟨[], rfl, by simp, by simp [EndsNumber], rfl, by simp⟩
  | cons c cp ih =>
    rw [scanNumber] at h
    split_ifs at h with hc h0
    · -- the next digit
      have hstep : ((n : ℤ).bmod (2 ^ 32) * 10 + digitVal c).bmod (2 ^ 32) =
          ((n * 10 + digitVal c : ℕ) : ℤ).bmod (2 ^ 32) := by
        push_cast
        rw [Int.add_bmod, Int.bmod_mul_bmod, ← Int.add_bmod]
      rw [hstep] at h
      obtain ⟨ds, rfl, hds, hrest, hv, -⟩ := ih h
      refine ⟨c :: ds, rfl, ?_, hrest, hv, ?_⟩
      · intro x hx
        rcases List.mem_cons.mp hx with rfl | hx
        · exact hc
        · exact hds x hx
      · rintro rfl hhead
        exact h0 ⟨Option.some.inj hhead, by decide⟩
    · simp only [Option.some.injEq, Prod.mk.injEq] at h
      obtain ⟨rfl, rfl⟩ := h
      refine ⟨[], rfl, by simp, ?_, rfl, by simp⟩
      intro x hx
      obtain rfl := Option.some.inj hx
      simpa using hc

/-- A number from its first digit on. -/
theorem scanNumber_zero_sound {cp rest : List UInt8} {v : ℤ}
    (h : scanNumber 0 cp = some (v, rest)) :
    ∃ ds, cp = ds ++ rest ∧ (∀ c ∈ ds, isDigit c = true) ∧ EndsNumber rest ∧
      v = (decimalValue ds : ℤ).bmod (2 ^ 32) ∧ ds.head? ≠ some 48 := by
  obtain ⟨ds, hcp, hds, hrest, hv, hhead⟩ := @scanNumber_sound 0 cp rest v h
  exact ⟨ds, hcp, hds, hrest, hv, hhead rfl⟩

theorem eq_cons_of_headD {c : UInt8} {cp : List UInt8} (h0 : c ≠ 0) (h : cp.headD 0 = c) :
    cp = c :: cp.tail := by
  cases cp with
  | nil => exact absurd h.symm h0
  | cons b cp =>
    obtain rfl : b = c := h
    rfl

theorem scanSide_sound {cmd cmd' : ImageFilterCmd} {cp rest : List UInt8}
    (hright : cmd.gravityRight = false) (hleft : cmd.gravityLeft = false)
    (h : scanSide cmd cp = (cmd', rest)) :
    cp = (if cmd'.gravityRight then [114] else if cmd'.gravityLeft then [108] else []) ++ rest ∧
      cmd'.gravityTop = cmd.gravityTop ∧ cmd'.gravityBottom = cmd.gravityBottom ∧
      cmd'.color = cmd.color := by
  cases cp with
  | nil =>
    obtain ⟨rfl, rfl⟩ := Prod.mk.inj h
    simp [hright, hleft]
  | cons c cp =>
    rw [scanSide] at h
    split_ifs at h with hr hl <;> obtain ⟨rfl, rfl⟩ := Prod.mk.inj h
    · simp [hr]
    · simp [hl, hright]
    · simp [hright, hleft]

/-- No side has been chosen yet, and no color. -/
structure ImageFilterCmd.Fresh (cmd : ImageFilterCmd) : Prop where
  top : cmd.gravityTop = false
  bottom : cmd.gravityBottom = false
  right : cmd.gravityRight = false
  left : cmd.gravityLeft = false
  color : cmd.color = []

theorem scanGravity_sound {cmd cmd' : ImageFilterCmd} {cp rest : List UInt8} (hcmd : cmd.Fresh)
    (h : scanGravity cmd cp = (cmd', rest)) :
    cp = gravityText cmd' ++ rest ∧ cmd'.color = [] := by
  cases cp with
  | nil =>
    obtain ⟨rfl, rfl⟩ := Prod.mk.inj h
    simp [gravityText, hcmd.top, hcmd.bottom, hcmd.right, hcmd.left, hcmd.color]
  | cons c cp =>
    rw [scanGravity] at h
    split_ifs at h with ht hb
    · obtain ⟨hcp, htop, -, hcolor⟩ :=
        @scanSide_sound { cmd with gravityTop := true } cmd' cp rest hcmd.right hcmd.left h
      refine ⟨?_, hcolor.trans hcmd.color⟩
      rw [gravityText, htop, ht, hcp]
      rfl
    · obtain ⟨hcp, htop, hbottom, hcolor⟩ :=
        @scanSide_sound { cmd with gravityBottom := true } cmd' cp rest hcmd.right hcmd.left h
      refine ⟨?_, hcolor.trans hcmd.color⟩
      rw [gravityText, htop, hcmd.top, hbottom, hb, hcp]
      rfl
    · obtain ⟨hcp, htop, hbottom, hcolor⟩ := scanSide_sound hcmd.right hcmd.left h
      refine ⟨?_, hcolor.trans hcmd.color⟩
      rw [gravityText, htop, hcmd.top, hbottom, hcmd.bottom, hcp]
      rfl

theorem scanColor_sound {n : ℕ} {cmd cmd' : ImageFilterCmd} {cp rest : List UInt8}
    (h : scanColor n cmd cp = (cmd', some rest)) :
    ∃ ds, cp = ds ++ rest ∧ (∀ c ∈ ds, isColorDigit c = true) ∧
      cmd' = { cmd with color := cmd.color ++ ds } := by
  induction n generalizing cmd cp with
  | zero =>
    simp only [scanColor, Prod.mk.injEq, Option.some.injEq] at h
    obtain ⟨rfl, rfl⟩ := h
    exact ⟨[], rfl, by simp, by simp⟩
  | succ n ih =>
    cases cp with
    | nil => simp [scanColor] at h
    | cons c cp =>
      rw [scanColor] at h
      split_ifs at h with hc
      · obtain ⟨ds, rfl, hds, rfl⟩ := ih h
        refine ⟨c :: ds, rfl, ?_, by simp⟩
        intro x hx
        rcases List.mem_cons.mp hx with rfl | hx
        · exact hc
        · exact hds x hx
      · simp at h

theorem dot_notMem_of_digits {ds : List UInt8} (hds : ∀ c ∈ ds, isColorDigit c = true) :
    46 ∉ ds := fun hmem => absurd (hds 46 hmem) (by decide)

/-- The color, up to the dot in front of the extension. -/
theorem scanFill_sound {c : UInt8} {cmd cmd' : ImageFilterCmd} {cp : List UInt8}
    (hcolor : cmd.color = []) (h : scanFill c cmd cp = (cmd', true)) :
    ∃ rest, cp = colorText cmd' ++ 46 :: rest ∧ 46 ∉ colorText cmd' ∧
      cmd' = { cmd with color := cmd'.color } := by
  rw [scanFill] at h
  split_ifs at h with hdot hc hx
  · exact absurd (Prod.mk.inj h).2 (by decide)
  · exact absurd (Prod.mk.inj h).2 (by decide)
  · cases hscan : scanColor 6 { cmd with color := [35] } cp.tail with
    | mk cmd₁ cp₁ =>
      cases cp₁ with
      | none => simp [hscan] at h
      | some cp₁ =>
        simp only [hscan, Prod.mk.injEq, beq_iff_eq] at h
        obtain ⟨rfl, hend⟩ := h
        obtain ⟨ds, hcp, hds, rfl⟩ := scanColor_sound hscan
        have htail := eq_cons_of_headD (by decide) hend
        have hhead := eq_cons_of_headD (by decide) (not_not.mp hx)
        refine ⟨cp₁.tail, ?_, ?_, rfl⟩
        · rw [← htail, hhead, hcp]
          simp [colorText]
        · simpa [colorText] using dot_notMem_of_digits hds
  · obtain ⟨rfl, -⟩ := Prod.mk.inj h
    have hhead := eq_cons_of_headD (by decide) (not_not.mp hdot)
    refine ⟨cp.tail, ?_, by simp [colorText, hcolor], rfl⟩
    simpa [colorText, hcolor] using hhead

/-- What follows on the height is no digit. -/
theorem endsNumber_options (cmd : ImageFilterCmd) (rest : List UInt8) :
    EndsNumber (gravityText cmd ++ colorText cmd ++ 46 :: rest) := by
  intro c hc
  unfold gravityText colorText at hc
  split_ifs at hc <;> obtain rfl := Option.some.inj hc <;> decide

theorem dot_notMem_gravityText (cmd : ImageFilterCmd) : 46 ∉ gravityText cmd := by
  unfold gravityText
  split_ifs <;> decide

/-- What the record says of a command, and the digits of its numbers. -/
structure CommandRead (cmd : ImageFilterCmd) (segment ws hs : List UInt8) : Prop where
  text : segment = letterText cmd.cmd ++ ws ++ 120 :: (hs ++ gravityText cmd ++ colorText cmd)
  letter : cmd.cmd = 99 ∨ cmd.cmd = 102 ∨ cmd.cmd = 115
  width_eq : cmd.width = (decimalValue ws : ℤ).bmod (2 ^ 32)
  height_eq : cmd.height = (decimalValue hs : ℤ).bmod (2 ^ 32)
  digits_width : ∀ c ∈ ws, isDigit c = true
  digits_height : ∀ c ∈ hs, isDigit c = true
  head_width : ws.head? ≠ some 48
  head_height : hs.head? ≠ some 48
  dot_notMem : 46 ∉ segment

/-- From the width on. -/
theorem scanSize_sound {c : UInt8} (hc : c = 99 ∨ c = 102 ∨ c = 115) {cmd cmd' : ImageFilterCmd}
    {cp : List UInt8} (hcmd : cmd.Fresh) (h : scanSize c cmd cp = (cmd', true)) :
    ∃ segment ws hs rest, CommandRead cmd' segment ws hs ∧ cmd'.cmd = c ∧
      letterText c ++ cp = segment ++ 46 :: rest := by
  rw [scanSize] at h
  cases hw : scanNumber 0 cp with
  | none => simp [hw] at h
  | some w =>
    obtain ⟨w, cp₁⟩ := w
    rw [hw] at h
    dsimp only at h
    by_cases hx : cp₁.headD 0 ≠ 120
    · rw [if_pos hx] at h
      exact absurd (Prod.mk.inj h).2 (by decide)
    rw [if_neg hx] at h
    cases hh : scanNumber 0 cp₁.tail with
    | none => simp [hh] at h
    | some v =>
      obtain ⟨v, cp₂⟩ := v
      rw [hh] at h
      obtain ⟨ws, hcp, hws, -, hwidth, hwhead⟩ := scanNumber_zero_sound hw
      obtain ⟨hs, hcp₁, hhs, -, hheight, hhhead⟩ := scanNumber_zero_sound hh
      have hx' := eq_cons_of_headD (by decide) (not_not.mp hx)
      -- the sides, if the command has any
      obtain ⟨cmd₁, cp₃, hgravity, hcp₂, hcolor⟩ : ∃ cmd₁ cp₃,
          (if c = 99 ∨ c = 102 then scanGravity cmd cp₂ else (cmd, cp₂)) = (cmd₁, cp₃) ∧
            cp₂ = gravityText cmd₁ ++ cp₃ ∧ cmd₁.color = [] := by
        split_ifs with hletter
        · exact ⟨_, _, rfl, scanGravity_sound hcmd rfl⟩
        · refine ⟨cmd, cp₂, rfl, ?_, hcmd.color⟩
          simp [gravityText, hcmd.top, hcmd.bottom, hcmd.right, hcmd.left]
      dsimp only at h
      rw [hgravity] at h
      dsimp only at h
      split_ifs at h with hwild
      · exact absurd (Prod.mk.inj h).2 (by decide)
      cases hfill : scanFill c cmd₁ cp₃ with
      | mk cmd₂ b =>
        cases b with
        | false => simp [hfill] at h
        | true =>
          simp only [hfill, Prod.mk.injEq, and_true] at h
          obtain ⟨rest, hcp₃, hdot, hcmd₂⟩ := scanFill_sound hcolor hfill
          -- only the color changes behind the sides
          have hgravity₂ : gravityText cmd₂ = gravityText cmd₁ := by
            rw [hcmd₂]
            rfl
          subst h
          refine ⟨_, ws, hs, rest, ⟨rfl, hc, hwidth, hheight, hws, hhs, hwhead, hhhead, ?_⟩, rfl, ?_⟩
          · have hdigits : ∀ {ds : List UInt8}, (∀ x ∈ ds, isDigit x = true) → 46 ∉ ds :=
              fun hds hmem => absurd (hds 46 hmem) (by decide)
            have hletter : 46 ∉ letterText c := by
              rcases hc with rfl | rfl | rfl <;> decide
            simp only [List.mem_append, List.mem_cons, not_or]
            exact ⟨⟨hletter, hdigits hws⟩, by decide,
              ⟨hdigits hhs, dot_notMem_gravityText _⟩, hdot⟩
          · show letterText c ++ cp = letterText c ++ ws ++
              120 :: (hs ++ gravityText cmd₂ ++ colorText cmd₂) ++ 46 :: rest
            rw [hcp, hx', hcp₁, hcp₂, hcp₃, hgravity₂]
            simp only [List.append_assoc, List.cons_append]

/-- A command, up to the dot in front of the extension. -/
theorem scanCommand_sound {cmd cmd' : ImageFilterCmd} {cp : List UInt8} (hcmd : cmd.Fresh)
    (h : scanCommand cmd cp = (cmd', true)) :
    ∃ segment ws hs rest, CommandRead cmd' segment ws hs ∧ cp = segment ++ 46 :: rest := by
  rw [scanCommand] at h
  split_ifs at h with hletter hsize
  · obtain ⟨segment, ws, hs, rest, hread, -, hcp⟩ :=
      scanSize_sound (by tauto) hcmd h
    have hne : cp.headD 0 ≠ 0 ∧ cp.headD 0 ≠ 115 := by
      rcases hletter with hc | hc <;> rw [hc] <;> decide
    refine ⟨segment, ws, hs, rest, hread, ?_⟩
    rw [← hcp, letterText, if_neg hne.2]
    exact eq_cons_of_headD hne.1 rfl
  · obtain ⟨segment, ws, hs, rest, hread, -, hcp⟩ := scanSize_sound (by decide) hcmd h
    exact ⟨segment, ws, hs, rest, hread, hcp⟩
  · exact absurd (Prod.mk.inj h).2 (by decide)

/-! ### The URI -/

theorem strrchr_eq_none {c : UInt8} {s : List UInt8} (h : strrchr c s = none) : c ∉ s := by
  induction s with
  | nil => simp
  | cons b s ih =>
    rw [strrchr] at h
    cases hs : strrchr c s with
    | some j => simp [hs] at h
    | none =>
      rw [hs] at h
      dsimp only at h
      split_ifs at h with hb
      rw [List.mem_cons, not_or]
      exact ⟨fun heq => hb heq.symm, ih hs⟩

theorem strrchr_eq_some {c : UInt8} {s : List UInt8} {i : ℕ} (h : strrchr c s = some i) :
    s = s.take i ++ c :: s.drop (i + 1) ∧ c ∉ s.drop (i + 1) := by
  induction s generalizing i with
  | nil => simp [strrchr] at h
  | cons b s ih =>
    rw [strrchr] at h
    cases hs : strrchr c s with
    | some j =>
      rw [hs] at h
      obtain rfl := Option.some.inj h
      obtain ⟨heq, hnot⟩ := ih hs
      exact ⟨congrArg (b :: ·) heq, hnot⟩
    | none =>
      rw [hs] at h
      dsimp only at h
      split_ifs at h with hb
      obtain rfl := Option.some.inj h
      exact ⟨by simp [hb], by simpa using strrchr_eq_none hs⟩

/-- The last occurrence behind a position. -/
theorem strrchr_drop_eq_some {c : UInt8} {s : List UInt8} {k j : ℕ}
    (h : strrchr c (s.drop k) = some j) :
    s = s.take (k + j) ++ c :: s.drop (k + j + 1) ∧ c ∉ s.drop (k + j + 1) := by
  obtain ⟨heq, hnot⟩ := strrchr_eq_some h
  rw [List.drop_drop, ← Nat.add_assoc] at heq hnot
  refine ⟨?_, hnot⟩
  have hdrop : s.drop (k + j) = c :: s.drop (k + j + 1) := by
    have hlen : ((s.drop k).take j).length = j := by
      have := congrArg List.length heq
      simp only [List.length_append, List.length_take, List.length_cons, List.length_drop] at this
      simp only [List.length_take, List.length_drop]
      omega
    rw [← List.drop_drop, heq, List.drop_left' hlen]
  rw [← hdrop, List.take_append_drop]

/-- The parts of a URI: the name, the command, the extension, and the query with its mark. -/
structure UriParts (uri before segment ext query : List UInt8) : Prop where
  uri_eq : uri = before ++ 46 :: segment ++ 46 :: ext ++ query
  dot_segment : 46 ∉ segment
  dot_ext : 46 ∉ ext
  mark_notMem : 63 ∉ before ++ 46 :: segment ++ 46 :: ext
  query_eq : query = [] ∨ query.head? = some 63

/-- The path and the query. -/
theorem idxOf?_split (uri : List UInt8) :
    ∃ path query, uri = path ++ query ∧ 63 ∉ path ∧
      uri.take ((uri.idxOf? 63).getD uri.length) = path ∧
      (query = [] ∧ uri.idxOf? 63 = none ∨
        ∃ s, query = 63 :: s ∧ uri.idxOf? 63 = some path.length) := by
  cases hq : uri.idxOf? 63 with
  | none =>
    have hnot := List.idxOf?_eq_none_iff.mp hq
    exact ⟨uri, [], by simp, hnot, by simp, .inl ⟨rfl, rfl⟩⟩
  | some i =>
    obtain ⟨hlt, heq, hfirst⟩ := List.idxOf?_eq_some_iff.mp hq
    refine ⟨uri.take i, uri.drop i, (List.take_append_drop i uri).symm, ?_, rfl, .inr ?_⟩
    · intro hmem
      obtain ⟨j, hj, hget⟩ := List.mem_take_iff_getElem.mp hmem
      exact absurd (by simpa using hget) (hfirst j (by omega))
    · refine ⟨uri.drop (i + 1), ?_, ?_⟩
      · rw [List.drop_eq_getElem_cons hlt, heq]
      · rw [List.length_take, min_eq_left hlt.le]

/-- Two splits of a text at its first dot. -/
theorem eq_of_append_dot_eq {xs ys rest rest' : List UInt8} (hx : 46 ∉ xs) (hy : 46 ∉ ys)
    (h : xs ++ 46 :: rest = ys ++ 46 :: rest') : xs = ys := by
  have hfirst : ∀ {zs : List UInt8}, 46 ∉ zs → ∀ r : List UInt8,
      (zs ++ 46 :: r).takeWhile (· ≠ 46) = zs := by
    intro zs hzs r
    rw [List.takeWhile_append_of_pos]
    · simp
    · intro c hc
      simpa using fun heq : c = 46 => hzs (heq ▸ hc)
  rw [← hfirst hx rest, h, hfirst hy rest']

/-- What has been read when a URI is accepted, and what becomes of it. -/
theorem decodeCmd_sound {isImage : List UInt8 → Bool} {uri : List UInt8} {r : DecodedUri}
    (hr : decodeCmd isImage uri = r) (h : r.ret = true) :
    ∃ before segment ext query ws hs, UriParts uri before segment ext query ∧
      CommandRead r.cmd segment ws hs ∧ r.uri = before ++ 46 :: ext ++ query ∧
      r.cmd.cmdString = some (46 :: segment) ∧
      r.cmd.uriPath = some (before ++ 46 :: segment ++ 46 :: ext) ∧
      r.cmd.queryString = if query = [] then none else some query.tail := by
  obtain ⟨path, query, huri, hmark, hpath, hquery⟩ := idxOf?_split uri
  unfold decodeCmd at hr
  dsimp only at hr
  rw [hpath] at hr
  generalize (strrchr 47 path).elim 0 (· + 1) = filename at hr
  cases hext : strrchr 46 (path.drop filename) with
  | none =>
    rw [hext] at hr
    subst hr
    cases h
  | some e =>
    rw [hext] at hr
    simp only [Option.map_some] at hr
    split_ifs at hr with himage hname
    · subst hr
      cases h
    · subst hr
      cases h
    cases hcc : strrchr 46 ((uri.take (filename + e)).drop filename) with
    | none =>
      rw [hcc] at hr
      subst hr
      cases h
    | some j =>
      rw [hcc] at hr
      simp only [Option.map_some] at hr
      obtain ⟨hpath', hdot⟩ := strrchr_drop_eq_some hext
      obtain ⟨htake, hdot'⟩ := strrchr_drop_eq_some hcc
      generalize hcmd : ({ mtypeImage := _, dontWatermark := _ } : ImageFilterCmd) = cmd at hr
      have hfresh : cmd.Fresh := by
        subst hcmd
        constructor <;> rfl
      cases hscan : scanCommand cmd (uri.drop (filename + j + 1)) with
      | mk cmd' b =>
        cases b with
        | false =>
          rw [hscan] at hr
          subst hr
          cases h
        | true =>
          rw [hscan] at hr
          obtain ⟨segment, ws, hs, rest, hread, hcp⟩ := scanCommand_sound hfresh hscan
          generalize filename + e = ext at *
          generalize filename + j = cc at *
          -- the path is cut at its last two dots
          have hext_lt : ext < path.length := by
            have := congrArg List.length hpath'
            simp only [List.length_append, List.length_take, List.length_cons,
              List.length_drop] at this
            omega
          have hcut : uri.take ext = path.take ext := by
            rw [huri, List.take_append_of_le_length hext_lt.le]
          rw [hcut] at htake hdot'
          have hcc_lt : cc < ext := by
            have := congrArg List.length htake
            simp only [List.length_append, List.length_take, List.length_cons,
              List.length_drop] at this
            omega
          have hbefore : ((path.take ext).take cc).length = cc := by
            rw [List.length_take, List.length_take]
            omega
          have hsegment : ((path.take ext).drop (cc + 1)).length = ext - cc - 1 := by
            rw [List.length_drop, List.length_take]
            omega
          generalize (path.take ext).take cc = before at htake hbefore
          generalize (path.take ext).drop (cc + 1) = text at htake hdot' hsegment
          generalize path.drop (ext + 1) = extension at *
          rw [htake] at hpath'
          have hparts : uri = before ++ (46 :: text ++ (46 :: extension ++ query)) := by
            rw [huri, hpath']
            simp only [List.append_assoc]
          have hdropcc : uri.drop cc = 46 :: text ++ (46 :: extension ++ query) := by
            rw [hparts, List.drop_left' hbefore]
          have htext : (46 :: text).length = ext - cc := by
            rw [List.length_cons]
            omega
          have hdropext : uri.drop ext = 46 :: extension ++ query := by
            rw [show ext = cc + (ext - cc) by omega, ← List.drop_drop, hdropcc,
              List.drop_left' htext]
          -- the command ends at the dot in front of the extension
          have heq : segment = text := by
            apply @eq_of_append_dot_eq segment text rest (extension ++ query) hread.dot_notMem hdot'
            rw [← hcp, ← List.drop_drop, hdropcc]
            rfl
          subst heq
          refine ⟨before, segment, extension, query, ws, hs, ⟨?_, hdot', hdot, ?_, ?_⟩, ?_⟩
          · rw [hparts]
            simp only [List.append_assoc]
          · rw [← hpath']
            exact hmark
          · rcases hquery with ⟨rfl, -⟩ | ⟨s, rfl, -⟩
            · exact .inl rfl
            · exact .inr rfl
          subst hr
          refine ⟨⟨hread.text, hread.letter, hread.width_eq, hread.height_eq, hread.digits_width,
            hread.digits_height, hread.head_width, hread.head_height, hread.dot_notMem⟩, ?_, ?_, ?_, ?_⟩
          · show uri.take cc ++ uri.drop ext = _
            rw [hdropext, hparts, List.take_left' hbefore, List.append_assoc]
          · show some ((uri.drop cc).take (ext - cc)) = _
            rw [hdropcc, List.take_left' htext]
          · exact congrArg some hpath'
          · rcases hquery with ⟨rfl, hq⟩ | ⟨s, rfl, hq⟩
            · simp [hq]
            · simp only [hq, Option.map_some, reduceCtorEq, if_false, List.tail_cons]
              rw [huri, ← List.drop_drop, List.drop_left]
              rfl

/-! ### What is written in a URI -/

/-- The part in front of the query. -/
def pathText (uri : List UInt8) : List UInt8 := uri.takeWhile (· ≠ 63)

/-- What is behind the last dot of the path. -/
def extensionText (uri : List UInt8) : List UInt8 :=
  ((pathText uri).reverse.takeWhile (· ≠ 46)).reverse

/-- What is between the last two dots of the path. -/
def segmentText (uri : List UInt8) : List UInt8 :=
  (((pathText uri).reverse.dropWhile (· ≠ 46)).tail.takeWhile (· ≠ 46)).reverse

/-- What is in front of the last two dots of the path. -/
def nameText (uri : List UInt8) : List UInt8 :=
  ((((pathText uri).reverse.dropWhile (· ≠ 46)).tail.dropWhile (· ≠ 46)).tail).reverse

/-- The query with its mark. -/
def queryText (uri : List UInt8) : List UInt8 := uri.dropWhile (· ≠ 63)

/-- The command from its first number on. -/
def sizeText (uri : List UInt8) : List UInt8 :=
  (segmentText uri).dropWhile fun c => c == 99 || c == 102

/-- The width that is written in a URI. -/
def writtenWidth (uri : List UInt8) : ℕ := decimalValue ((sizeText uri).takeWhile isDigit)

/-- The height that is written in a URI, behind the `x`. -/
def writtenHeight (uri : List UInt8) : ℕ :=
  decimalValue (((sizeText uri).dropWhile isDigit).tail.takeWhile isDigit)

section Parts

variable {uri before segment ext query : List UInt8}

theorem takeWhile_ne_append {c : UInt8} {xs : List UInt8} (h : c ∉ xs) (ys : List UInt8) :
    (xs ++ ys).takeWhile (· ≠ c) = xs ++ ys.takeWhile (· ≠ c) ∧
      (xs ++ ys).dropWhile (· ≠ c) = ys.dropWhile (· ≠ c) := by
  have hne : ∀ x ∈ xs, decide (x ≠ c) = true := by
    intro x hx
    simpa using fun heq : x = c => h (heq ▸ hx)
  exact ⟨List.takeWhile_append_of_pos hne, List.dropWhile_append_of_pos hne⟩

theorem UriParts.query_text (h : UriParts uri before segment ext query) :
    pathText uri = before ++ 46 :: segment ++ 46 :: ext ∧ queryText uri = query := by
  obtain ⟨htake, hdrop⟩ := takeWhile_ne_append h.mark_notMem query
  rw [pathText, queryText, h.uri_eq, htake, hdrop]
  rcases h.query_eq with rfl | hhead
  · simp
  · obtain ⟨s, rfl⟩ : ∃ s, query = 63 :: s := by
      cases query with
      | nil => simp at hhead
      | cons c s => exact ⟨s, by rw [Option.some.inj hhead]⟩
    simp

/-- The parts are those between the dots. -/
theorem UriParts.texts (h : UriParts uri before segment ext query) :
    nameText uri = before ∧ segmentText uri = segment ∧ extensionText uri = ext := by
  have hrev : (pathText uri).reverse =
      ext.reverse ++ 46 :: (segment.reverse ++ 46 :: before.reverse) := by
    rw [h.query_text.1]
    simp
  obtain ⟨htake, hdrop⟩ := takeWhile_ne_append
    (show 46 ∉ ext.reverse by simpa using h.dot_ext) (46 :: (segment.reverse ++ 46 :: before.reverse))
  obtain ⟨htake', hdrop'⟩ := takeWhile_ne_append
    (show 46 ∉ segment.reverse by simpa using h.dot_segment) (46 :: before.reverse)
  have hbehind : ((pathText uri).reverse.dropWhile (· ≠ 46)).tail =
      segment.reverse ++ 46 :: before.reverse := by
    rw [hrev, hdrop]
    simp
  refine ⟨?_, ?_, ?_⟩
  · rw [nameText, hbehind, hdrop']
    simp
  · rw [segmentText, hbehind, htake']
    simp
  · rw [extensionText, hrev, htake]
    simp

variable {cmd : ImageFilterCmd} {ws hs : List UInt8}

/-- The numbers that are read are the ones that are written. -/
theorem CommandRead.written (hcmd : CommandRead cmd segment ws hs)
    (h : UriParts uri before segment ext query) :
    writtenWidth uri = decimalValue ws ∧ writtenHeight uri = decimalValue hs := by
  have hsize : sizeText uri = ws ++ 120 :: (hs ++ gravityText cmd ++ colorText cmd) := by
    -- neither a digit nor the `x` is a letter that is dropped
    have hstop : (ws ++ 120 :: (hs ++ gravityText cmd ++ colorText cmd)).dropWhile
        (fun c => c == 99 || c == 102) = ws ++ 120 :: (hs ++ gravityText cmd ++ colorText cmd) := by
      rcases ws with - | ⟨w, ws⟩
      · rfl
      · have hw := hcmd.digits_width w (by simp)
        have hne : (w == 99 || w == 102) = false := by
          rw [Bool.or_eq_false_iff, beq_eq_false_iff_ne, beq_eq_false_iff_ne]
          constructor <;> rintro rfl <;> exact absurd hw (by decide)
        simp [hne]
    rw [sizeText, h.texts.2.1, hcmd.text, letterText]
    rcases hcmd.letter with hc | hc | hc <;> rw [hc]
    · rw [if_neg (by decide), List.append_assoc, List.dropWhile_append_of_pos (by decide), hstop]
    · rw [if_neg (by decide), List.append_assoc, List.dropWhile_append_of_pos (by decide), hstop]
    · rw [if_pos rfl, List.nil_append, hstop]
  have hx : EndsNumber (120 :: (hs ++ gravityText cmd ++ colorText cmd)) := by
    intro c hc
    obtain rfl := Option.some.inj hc
    decide
  have hend : EndsNumber (gravityText cmd ++ colorText cmd) := by
    intro c hc
    apply endsNumber_options cmd [] c
    rw [List.head?_append, hc]
    rfl
  obtain ⟨htake, hdrop⟩ := takeWhile_isDigit hcmd.digits_width hx
  obtain ⟨htake', -⟩ := takeWhile_isDigit hcmd.digits_height hend
  constructor
  · rw [writtenWidth, hsize, htake]
  · rw [writtenHeight, hsize, hdrop, List.tail_cons, List.append_assoc, htake']

end Parts

/-! ### Canonical decoding -/

/-- The numbers of an accepted URI are those that are written in it, and it is rewritten to the
name, the extension and the query. -/
structure DecodedFaithfully (uri : List UInt8) (r : DecodedUri) : Prop where
  width : r.cmd.width = writtenWidth uri
  height : r.cmd.height = writtenHeight uri
  uri : r.uri = nameText uri ++ 46 :: extensionText uri ++ queryText uri

/-- The same image, processed in the same way. -/
structure SameImage (r r' : DecodedUri) : Prop where
  path : pathText r.uri = pathText r'.uri
  cmd : r.cmd.cmd = r'.cmd.cmd
  width : r.cmd.width = r'.cmd.width
  height : r.cmd.height = r'.cmd.height
  top : r.cmd.gravityTop = r'.cmd.gravityTop
  bottom : r.cmd.gravityBottom = r'.cmd.gravityBottom
  right : r.cmd.gravityRight = r'.cmd.gravityRight
  left : r.cmd.gravityLeft = r'.cmd.gravityLeft
  color : r.cmd.color = r'.cmd.color

/-- Two accepted URIs are decoded faithfully, and with one command string if they stand for the same
image. -/
def DecodedCanonically (isImage : List UInt8 → Bool) (uri uri' : List UInt8) : Prop :=
  DecodedFaithfully uri (decodeCmd isImage uri) ∧ DecodedFaithfully uri' (decodeCmd isImage uri') ∧
    (SameImage (decodeCmd isImage uri) (decodeCmd isImage uri') →
      (decodeCmd isImage uri).cmd.cmdString = (decodeCmd isImage uri').cmd.cmdString)

/-- The numbers that are written in a URI fit into an `int`. -/
def NumbersFit (uri : List UInt8) : Prop := writtenWidth uri < 2 ^ 31 ∧ writtenHeight uri < 2 ^ 31

theorem CommandRead.text_eq {cmd : ImageFilterCmd} {segment ws hs : List UInt8}
    (h : CommandRead cmd segment ws hs) (hw : decimalValue ws < 2 ^ 31)
    (hh : decimalValue hs < 2 ^ 31) : 46 :: segment = commandText cmd := by
  -- digits without a leading zero are the text of their value
  have hnumber : ∀ {ds : List UInt8}, (∀ c ∈ ds, isDigit c = true) → ds.head? ≠ some 48 →
      decimalValue ds < 2 ^ 31 → numberText ((decimalValue ds : ℤ).bmod (2 ^ 32)) = ds := by
    intro ds hds h0 hlt
    rw [Int.bmod_eq_of_le (by omega) (by omega), numberText]
    rcases ds with - | ⟨c, ds⟩
    · rfl
    · have hpos := @decimalValue_pos c ds (hds c (by simp)) (by simpa using h0)
      rw [if_neg (by omega), Int.toNat_natCast, decimal_decimalValue hds (by simp) h0]
  rw [commandText, h.width_eq, h.height_eq, hnumber h.digits_width h.head_width hw,
    hnumber h.digits_height h.head_height hh, h.text]
  simp only [List.append_assoc, List.cons_append]

theorem decodedFaithfully_iff {isImage : List UInt8 → Bool} {uri : List UInt8}
    (h : (decodeCmd isImage uri).ret = true) :
    (DecodedFaithfully uri (decodeCmd isImage uri) ↔ NumbersFit uri) ∧
      (NumbersFit uri → (decodeCmd isImage uri).cmd.cmdString =
        some (commandText (decodeCmd isImage uri).cmd)) := by
  obtain ⟨before, segment, ext, query, ws, hs, hparts, hread, huri, hcmd, -, -⟩ :=
    decodeCmd_sound rfl h
  obtain ⟨hw, hh⟩ := hread.written hparts
  have hwidth := hread.width_eq
  have hheight := hread.height_eq
  rw [← hw] at hwidth
  rw [← hh] at hheight
  refine ⟨⟨fun hf => ?_, fun hfit => ⟨?_, ?_, ?_⟩⟩, fun hfit => ?_⟩
  · have hlt : ∀ n : ℕ, (n : ℤ).bmod (2 ^ 32) = n → n < 2 ^ 31 := by
      intro n hn
      have := @Int.bmod_lt (n : ℤ) (2 ^ 32) (by decide)
      omega
    exact ⟨hlt _ (hwidth.symm.trans hf.width), hlt _ (hheight.symm.trans hf.height)⟩
  · rw [hwidth, Int.bmod_eq_of_le] <;> have := hfit.1 <;> omega
  · rw [hheight, Int.bmod_eq_of_le] <;> have := hfit.2 <;> omega
  · obtain ⟨hname, -, hext⟩ := hparts.texts
    rw [huri, hname, hext, hparts.query_text.2]
  · rw [hcmd, hread.text_eq (by rw [← hw]; exact hfit.1) (by rw [← hh]; exact hfit.2)]

/-- Two accepted URIs are decoded canonically exactly if the numbers that are written in them fit
into an `int`. -/
theorem decodedCanonically_iff {isImage : List UInt8 → Bool} {uri uri' : List UInt8}
    (h : (decodeCmd isImage uri).ret = true) (h' : (decodeCmd isImage uri').ret = true) :
    DecodedCanonically isImage uri uri' ↔ NumbersFit uri ∧ NumbersFit uri' := by
  obtain ⟨hiff, htext⟩ := decodedFaithfully_iff h
  obtain ⟨hiff', htext'⟩ := decodedFaithfully_iff h'
  constructor
  · rintro ⟨hf, hf', -⟩
    exact ⟨hiff.mp hf, hiff'.mp hf'⟩
  · rintro ⟨hfit, hfit'⟩
    refine ⟨hiff.mpr hfit, hiff'.mpr hfit', fun hsame => ?_⟩
    rw [htext hfit, htext' hfit', commandText, commandText, letterText, letterText, gravityText,
      gravityText, colorText, colorText, hsame.cmd, hsame.width, hsame.height, hsame.top,
      hsame.bottom, hsame.right, hsame.left, hsame.color]

/-- Two images, one of them filled with a color. -/
theorem decodedCanonically_two :
    DecodedCanonically (fun ext => ext == bytes "png") (bytes "/a/b.c500x500.png?1B4A")
        (bytes "/a/b.f30x20tlxFF8800.png") ↔
      NumbersFit (bytes "/a/b.c500x500.png?1B4A") ∧
        NumbersFit (bytes "/a/b.f30x20tlxFF8800.png") :=
  decodedCanonically_iff (by decide) (by decide)

/-- `4294967396` is `100` and `2 ^ 32`: the two URIs are one image under two names. -/
theorem not_decodedCanonically_wrapped :
    (decodeCmd (fun ext => ext == bytes "png") (bytes "/a.4294967396x100.png")).ret = true ∧
      (decodeCmd (fun ext => ext == bytes "png") (bytes "/a.100x100.png")).ret = true ∧
      ¬ DecodedCanonically (fun ext => ext == bytes "png") (bytes "/a.4294967396x100.png")
        (bytes "/a.100x100.png") := by
  refine ⟨by decide, by decide, fun h => ?_⟩
  exact absurd (h.2.2 (by constructor <;> decide)) (by decide)

end Nxweb
