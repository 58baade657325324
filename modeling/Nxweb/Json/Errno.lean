import Nxweb.Json.InBounds

/-!
# What the JSON parser makes of `errno`

`strtoll` and `strtod` report a number that is out of range through `errno`, and leave it alone
otherwise. The parser does not set it to zero before it calls them. So where `errno` has the value
`ERANGE` already, the first number fails, and with it the whole text.

## Main results

* `parsesTo_of_readsJson`: what the grammar reads is the result;
* `sameForErrno_iff`: the result is the same for every `errno` exactly for texts in which no number
  is read.
-/

namespace Nxweb

open Lib

variable {δ : Type} {fp : Doubles δ} {errno : ℤ} {text : List UInt8}

/-- With enough fuel, the result of `nx_json_parse_utf8` for the text is this tree. -/
def ParsesTo (fp : Doubles δ) (errno : ℤ) (text : List UInt8) (tree : NxJson (List UInt8) δ) :
    Prop :=
  ∀ fuel, ∃ buf js, nxJsonParseUtf8 fp (2 * text.length + 1 + fuel) errno (text ++ [0]) =
    some (buf, js) ∧ js.strings buf = tree

/-- The result is the same for every `errno`. -/
def SameForErrno (fp : Doubles δ) (text : List UInt8) : Prop :=
  ∃ tree, ∀ errno, ParsesTo fp errno text tree

/-- The text is one that the parser reads, and there is a number in it. -/
def ReadsNumber (fp : Doubles δ) (text : List UInt8) : Prop :=
  ∃ js rest, ReadsJson fp (some unicodeToUtf8) (.value none) .empty text js rest ∧
    js.child.HasNumber

theorem ParsesTo.unique {tree tree' : NxJson (List UInt8) δ} (h : ParsesTo fp errno text tree)
    (h' : ParsesTo fp errno text tree') : tree = tree' := by
  obtain ⟨buf, js, hrun, rfl⟩ := h 0
  obtain ⟨buf', js', hrun', rfl⟩ := h' 0
  obtain ⟨rfl, rfl⟩ := Prod.mk.inj (Option.some.inj (hrun.symm.trans hrun'))
  rfl

/-- What the grammar reads is the result, unless there is a number in it and `errno` is `ERANGE`. -/
theorem parsesTo_of_readsJson (h : 0 ∉ text) {js : JsonParent (List UInt8) δ} {rest : List UInt8}
    (hreads : ReadsJson fp (some unicodeToUtf8) (.value none) .empty text js rest)
    (hnumber : js.child.HasNumber → errno ≠ erange) : ParsesTo fp errno text js.child := by
  intro fuel
  obtain ⟨st, js', q, hrun, hto⟩ := parseTask_of_readsJson short_unicodeToUtf8 hreads
    (calledAt_text h errno) (Nat.le_add_right (2 * text.length + 1) fuel) hnumber
  exact ⟨st.buf, js'.child, congrArg (Option.map _) hrun, hto.parent.child.strings_eq⟩

/-- What the grammar reads of a whole text under some `errno`. -/
def ReadsText (fp : Doubles δ) (errno : ℤ) (text : List UInt8) (tree : NxJson (List UInt8) δ) :
    Prop :=
  ∃ js rest, ReadsJson fp (some unicodeToUtf8) (.value none) .empty text js rest ∧
    js.child = tree ∧ (tree.HasNumber → errno ≠ erange)

/-- A run returns a null pointer, or what the grammar reads. -/
theorem nxJsonParseUtf8_cases (fp : Doubles δ) (errno : ℤ) (h : 0 ∉ text) (fuel : ℕ) :
    ∃ buf js, nxJsonParseUtf8 fp (2 * text.length + 1 + fuel) errno (text ++ [0]) =
      some (buf, js) ∧ (js.strings buf = .null ∨ ReadsText fp errno text (js.strings buf)) := by
  obtain ⟨st, r, hreturns, hr⟩ := @allReturn δ fp _ short_unicodeToUtf8
    (2 * text.length + 1 + fuel) _ 0 text (.value none) (.value none) .empty .empty
    (calledAt_text h errno) (Nat.le_add_right (2 * text.length + 1) fuel)
  rcases r with _ | ⟨js, q⟩
  · exact ⟨st.buf, .null, congrArg (Option.map _) hreturns, .inl rfl⟩
  · obtain ⟨js', rest, hreads, hnumber, hto⟩ := hr js q rfl
    have heq := hto.parent.child.strings_eq
    refine ⟨st.buf, js.child, congrArg (Option.map _) hreturns, .inr ⟨js', rest, hreads, heq.symm, ?_⟩⟩
    rw [heq]
    exact fun hn => (hnumber hn).resolve_left id

theorem ParsesTo.cases {tree : NxJson (List UInt8) δ} (hparses : ParsesTo fp errno text tree)
    (h : 0 ∉ text) : tree = .null ∨ ReadsText fp errno text tree := by
  obtain ⟨buf, js, hrun, rfl⟩ := hparses 0
  obtain ⟨buf', js', hrun', hcases⟩ := nxJsonParseUtf8_cases fp errno h 0
  obtain ⟨rfl, rfl⟩ := Prod.mk.inj (Option.some.inj (hrun.symm.trans hrun'))
  exact hcases

/-- Where the grammar reads nothing, a null pointer is returned. -/
theorem parsesTo_null (h : 0 ∉ text) (hnone : ∀ tree, ¬ ReadsText fp errno text tree) :
    ParsesTo fp errno text .null := by
  intro fuel
  obtain ⟨buf, js, hrun, hnull | hreads⟩ := nxJsonParseUtf8_cases fp errno h fuel
  · exact ⟨buf, js, hrun, hnull⟩
  · exact absurd hreads (hnone _)

/-- The result is the same for every `errno` exactly for texts in which no number is read. -/
theorem sameForErrno_iff (h : 0 ∉ text) : SameForErrno fp text ↔ ¬ ReadsNumber fp text := by
  constructor
  · rintro ⟨tree, htree⟩ ⟨js, rest, hreads, hnumber⟩
    -- with another `errno` the number is read
    have hread : ParsesTo fp 0 text js.child :=
      parsesTo_of_readsJson h hreads fun _ => by decide
    obtain rfl := (htree 0).unique hread
    rcases (htree erange).cases h with hnull | ⟨js', rest', -, -, hne⟩
    · rw [hnull] at hnumber
      exact hnumber
    · exact hne hnumber rfl
  · intro hnone
    by_cases hreads : ∃ js rest,
        ReadsJson fp (some unicodeToUtf8) (.value none) .empty text js rest
    · obtain ⟨js, rest, hreads⟩ := hreads
      exact ⟨js.child, fun errno => parsesTo_of_readsJson h hreads
        fun hn => absurd ⟨js, rest, hreads, hn⟩ hnone⟩
    · refine ⟨.null, fun errno => parsesTo_null h ?_⟩
      rintro tree ⟨js, rest, hread, -⟩
      exact hreads ⟨js, rest, hread⟩

/-- A text without numbers. -/
theorem sameForErrno_true :
    SameForErrno (δ := ℤ) ⟨0, id, fun _ => ⟨0, 0, false⟩, fun _ => Nat.zero_le _⟩ (bytes "true") ↔
      ¬ ReadsNumber (δ := ℤ) ⟨0, id, fun _ => ⟨0, 0, false⟩, fun _ => Nat.zero_le _⟩
        (bytes "true") :=
  sameForErrno_iff (by decide)

/-- A number is read if `errno` is zero, and is an error if it is `ERANGE`. -/
theorem not_sameForErrno_number :
    ¬ SameForErrno (δ := ℤ) ⟨0, id, fun _ => ⟨0, 0, false⟩, fun _ => Nat.zero_le _⟩
      (bytes "1") := by
  rintro ⟨tree, htree⟩
  obtain ⟨buf, js, hrun, rfl⟩ := htree 0 0
  obtain ⟨buf', js', hrun', heq⟩ := htree erange 0
  have hread : (some (buf, js)).map (fun r => r.2.strings r.1) =
      some (.node .integer none none 1 1 0 .null .null) := by
    rw [← hrun]
    decide
  have hread' : (some (buf', js')).map (fun r => r.2.strings r.1) = some .null := by
    rw [← hrun']
    decide
  rw [Option.map_some, heq] at hread'
  rw [Option.map_some, Option.some.inj hread'] at hread
  cases hread

end Nxweb
