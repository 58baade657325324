import Nxweb.Json.Errno
import Nxweb.Json.Texts

/-!
# The JSON parser is faithful

A printed value is read as its tree: the same types, keys, order, integers and strings. Children are
counted by an `int`, so their number is exact below 2^31 children.

The induction is on the print of a value. Between a value and the next one there are white space and
one comma, which the loops of the parser skip in front of what they read.

## Main results

* `nxJsonParseUtf8_faithful`: the tree of a printed value.
-/

namespace Nxweb

open Lib

variable {δ : Type} {fp : Doubles δ}

/-! ### Trees -/

theorem NxJson.append_assoc {σ : Type} (js₁ js₂ js₃ : NxJson σ δ) :
    (js₁.append js₂).append js₃ = js₁.append (js₂.append js₃) := by
  induction js₁ with
  | null => rfl
  | node type key textValue intValue dblValue length child next _ ih =>
    simp only [append, ih]

theorem JsonValue.tree_append (count : ℕ → ℤ) (key : Option (List UInt8)) (v : JsonValue)
    (next js : NxJson (List UInt8) δ) :
    (v.tree fp count key next).append js = v.tree fp count key (next.append js) := by
  cases v <;> simp only [tree, NxJson.append]

/-- A node with more nodes behind its children. -/
def JsonParent.put (js : JsonParent (List UInt8) δ) (n : ℕ) (nodes : NxJson (List UInt8) δ) :
    JsonParent (List UInt8) δ where
  child := js.child.append nodes
  length := (js.length + n).bmod (2 ^ 32)

/-- Children one by one. -/
theorem JsonParent.put_put (js : JsonParent (List UInt8) δ) (n : ℕ) (key : Option (List UInt8))
    (v : JsonValue) (nodes : NxJson (List UInt8) δ) :
    (js.put 1 (v.tree fp intCount key .null)).put n nodes =
      js.put (n + 1) (v.tree fp intCount key nodes) := by
  simp only [put, NxJson.append_assoc, JsonValue.tree_append, NxJson.append, Int.bmod_add_bmod,
    Nat.cast_add, Nat.cast_one]
  rw [Int.add_assoc, Int.add_comm 1]

/-- A node is one more child. -/
theorem JsonParent.create_eq_put (js : JsonParent (List UInt8) δ) (type : NxJsonType)
    (key text : Option (List UInt8)) (i : ℤ) (d : δ) (inner : JsonParent (List UInt8) δ) :
    js.create type key text i d inner =
      js.put 1 (.node type key text i d inner.length inner.child .null) := rfl

theorem JsonParent.put_empty (n : ℕ) (nodes : NxJson (List UInt8) δ) :
    JsonParent.empty.put n nodes = ⟨nodes, intCount n⟩ := by
  unfold put empty intCount
  rw [Int.zero_add]
  rfl

theorem JsonParent.create_put_empty (js : JsonParent (List UInt8) δ) (type : NxJsonType)
    (key : Option (List UInt8)) (d : δ) (n : ℕ) (nodes : NxJson (List UInt8) δ) :
    js.create type key none 0 d (empty.put n nodes) =
      js.put 1 (.node type key none 0 d (intCount n) nodes .null) := by
  rw [create_eq_put, put_empty]

/-! ### White space and commas -/

theorem isJsonSkipped_of_space {c : UInt8} (h : c = 32 ∨ c = 9 ∨ c = 10 ∨ c = 13) :
    isJsonSkipped c = true ∧ isJsonWhitespace c = true := by
  rcases h with rfl | rfl | rfl | rfl <;> decide

theorem IsJsonSpace.endsJson {w rest : List UInt8} (h : IsJsonSpace w) (hrest : EndsJson rest) :
    EndsJson (w ++ rest) := by
  cases w with
  | nil => exact hrest
  | cons c w =>
    rintro x hx
    obtain rfl : c = x := Option.some.inj hx
    rcases h c List.mem_cons_self with rfl | rfl | rfl | rfl <;> decide

/-- White space in front of a value is skipped. -/
theorem ReadsJson.value_space {encoder : JsonEncoder} {key : Option (List UInt8)}
    {js js' : JsonParent (List UInt8) δ} {w t rest : List UInt8} (hw : IsJsonSpace w)
    (h : ReadsJson fp encoder (.value key) js t js' rest) :
    ReadsJson fp encoder (.value key) js (w ++ t) js' rest := by
  induction w with
  | nil => exact h
  | cons c w ih =>
    exact .skip (isJsonSkipped_of_space (hw c List.mem_cons_self)).1
      (ih fun x hx => hw x (List.mem_cons_of_mem c hx))

/-- So is what stands in front of the next item. -/
theorem ReadsJson.elements_skip {encoder : JsonEncoder} {js js' : JsonParent (List UInt8) δ}
    {c : UInt8} {t rest : List UInt8} (hc : isJsonSkipped c = true)
    (h : ReadsJson fp encoder .elements js t js' rest) :
    ReadsJson fp encoder .elements js (c :: t) js' rest := by
  cases h with
  | elementsEnd hv => exact .elementsEnd (.skip hc hv)
  | element hv hu hrest => exact .element (.skip hc hv) hu hrest

theorem ReadsJson.elements_space {encoder : JsonEncoder} {js js' : JsonParent (List UInt8) δ}
    {w t rest : List UInt8} (hw : IsJsonSpace w)
    (h : ReadsJson fp encoder .elements js t js' rest) :
    ReadsJson fp encoder .elements js (w ++ t) js' rest := by
  induction w with
  | nil => exact h
  | cons c w ih =>
    exact (ih fun x hx => hw x (List.mem_cons_of_mem c hx)).elements_skip
      (isJsonSkipped_of_space (hw c List.mem_cons_self)).1

/-- And what stands in front of the next member. -/
theorem ReadsJson.members_skip {encoder : JsonEncoder} {js js' : JsonParent (List UInt8) δ}
    {c : UInt8} {t rest : List UInt8} (hc : isJsonWhitespace c = true ∨ c = 44)
    (h : ReadsJson fp encoder .members js t js' rest) :
    ReadsJson fp encoder .members js (c :: t) js' rest := by
  cases h with
  | membersEnd hk => exact .membersEnd (.skip hc hk)
  | member hk hu hv hrest => exact .member (.skip hc hk) hu hv hrest

theorem ReadsJson.members_space {encoder : JsonEncoder} {js js' : JsonParent (List UInt8) δ}
    {w t rest : List UInt8} (hw : IsJsonSpace w)
    (h : ReadsJson fp encoder .members js t js' rest) :
    ReadsJson fp encoder .members js (w ++ t) js' rest := by
  induction w with
  | nil => exact h
  | cons c w ih =>
    exact (ih fun x hx => hw x (List.mem_cons_of_mem c hx)).members_skip
      (.inl (isJsonSkipped_of_space (hw c List.mem_cons_self)).2)

/-! ### The induction -/

/-- How the parser reads a part of a text. -/
def ReadsPart (fp : Doubles δ) : JsonPart → List UInt8 → Prop
  | .value v, t => ∀ key js rest, EndsJson rest →
    ReadsJson fp (some unicodeToUtf8) (.value key) js (t ++ rest)
      (js.put 1 (v.tree fp intCount key .null)) rest
  | .items vs, t => ∀ js rest,
    ReadsJson fp (some unicodeToUtf8) .elements js (t ++ 93 :: rest)
      (js.put vs.length (JsonValue.items fp intCount vs)) rest
  | .members ms, t => ∀ js rest,
    ReadsJson fp (some unicodeToUtf8) .members js (t ++ 125 :: rest)
      (js.put ms.length (JsonValue.members fp intCount ms)) rest

theorem endsJson_cons (c : UInt8) (t : List UInt8) (hc : c ∈ [32, 9, 10, 13, 44, 93, 125]) :
    EndsJson (c :: t) := by
  intro x hx
  obtain rfl : c = x := Option.some.inj hx
  exact hc

/-- The print of a value begins with none of the bytes that the loops stop at. -/
theorem Prints.head? {part : JsonPart} {t : List UInt8} (h : Prints part t) {v : JsonValue}
    (hpart : part = .value v) : ∃ c u, t = c :: u ∧ c ≠ 125 := by
  cases h with
  | null => exact ⟨_, _, rfl, by decide⟩
  | bool b => cases b <;> exact ⟨_, _, rfl, by decide⟩
  | int =>
    obtain ⟨c, u, heq, hc⟩ := head?_decimalInt _
    refine ⟨c, u, heq, ?_⟩
    rintro rfl
    exact absurd hc (by decide)
  | str | emptyArr | arr | emptyObj | obj => exact ⟨_, _, rfl, by decide⟩
  | lastItem | item | lastMember | member => cases hpart

/-- A key in front of its value. -/
theorem readsKey_of_printsChars {key : List Char} {w k w₁ rest : List UInt8} (hw : IsJsonSpace w)
    (hkey : PrintsChars key k) (hw₁ : IsJsonSpace w₁) :
    ReadsKey (some unicodeToUtf8) (w ++ 34 :: (k ++ 34 :: (w₁ ++ 58 :: rest)))
      (some (utf8Bytes key)) rest := by
  induction w with
  | nil =>
    have hcolon : (w₁ ++ 58 :: rest).dropWhile isJsonWhitespace = 58 :: rest := by
      rw [List.dropWhile_append_of_pos fun c hc => (isJsonSkipped_of_space (hw₁ c hc)).2]
      rfl
    have hread := ReadsKey.key (unescapes_of_printsChars hkey (w₁ ++ 58 :: rest)) hcolon
    rwa [cstr_utf8Bytes hkey] at hread
  | cons c w ih =>
    exact .skip (.inl (isJsonSkipped_of_space (hw c List.mem_cons_self)).2)
      (ih fun x hx => hw x (List.mem_cons_of_mem c hx))

/-- A value with what is around it, up to a comma or a bracket. -/
theorem ReadsPart.value {v : JsonValue} {t w w' : List UInt8} (h : ReadsPart fp (.value v) t)
    (hw : IsJsonSpace w) (hw' : IsJsonSpace w') {rest : List UInt8} (hrest : EndsJson rest)
    (key : Option (List UInt8)) (js : JsonParent (List UInt8) δ) :
    ReadsJson fp (some unicodeToUtf8) (.value key) js (w ++ (t ++ (w' ++ rest)))
      (js.put 1 (v.tree fp intCount key .null)) (w' ++ rest) :=
  (h key js _ (hw'.endsJson hrest)).value_space hw

/-- The last item leaves the bracket to the loop, or white space and then the bracket. -/
theorem readsElements_last {js js' : JsonParent (List UInt8) δ} {t w rest : List UInt8}
    (hw : IsJsonSpace w)
    (hv : ReadsJson fp (some unicodeToUtf8) (.value none) js t js' (w ++ 93 :: rest)) :
    ReadsJson fp (some unicodeToUtf8) .elements js t js' rest := by
  cases w with
  | nil => exact .elementsEnd hv
  | cons c w =>
    have hc : c ≠ 93 := by
      rcases hw c List.mem_cons_self with rfl | rfl | rfl | rfl <;> decide
    apply ReadsJson.element hv (by simpa using hc)
    exact ReadsJson.elements_space hw (.elementsEnd (.close none js' rest))

/-- Nothing but white space up to the bracket. -/
theorem readsElements_close {w : List UInt8} (hw : IsJsonSpace w)
    (js : JsonParent (List UInt8) δ) (rest : List UInt8) :
    ReadsJson fp (some unicodeToUtf8) .elements js (w ++ 93 :: rest) js rest :=
  ReadsJson.elements_space hw (.elementsEnd (.close none js rest))

/-- Nothing but white space up to the brace. -/
theorem readsMembers_close {w : List UInt8} (hw : IsJsonSpace w)
    (js : JsonParent (List UInt8) δ) (rest : List UInt8) :
    ReadsJson fp (some unicodeToUtf8) .members js (w ++ 125 :: rest) js rest :=
  ReadsJson.members_space hw (.membersEnd (.close rest))

/-- A member in front of whatever comes next. -/
theorem readsMembers_first {key : List Char} {v : JsonValue} {w k w₁ w₂ t u rest : List UInt8}
    {js js' : JsonParent (List UInt8) δ} (hw : IsJsonSpace w) (hkey : PrintsChars key k)
    (hw₁ : IsJsonSpace w₁) (hw₂ : IsJsonSpace w₂) (hhead : ∃ c t', t = c :: t' ∧ c ≠ 125)
    (hv : ReadsJson fp (some unicodeToUtf8) (.value (some (utf8Bytes key))) js (w₂ ++ (t ++ u))
      (js.put 1 (v.tree fp intCount (some (utf8Bytes key)) .null)) u)
    (hrest : ReadsJson fp (some unicodeToUtf8) .members
      (js.put 1 (v.tree fp intCount (some (utf8Bytes key)) .null)) u js' rest) :
    ReadsJson fp (some unicodeToUtf8) .members js
      (w ++ 34 :: (k ++ 34 :: (w₁ ++ 58 :: (w₂ ++ (t ++ u))))) js' rest := by
  have hu : (w₂ ++ (t ++ u)).head? ≠ some 125 := by
    cases w₂ with
    | nil =>
      obtain ⟨c, t', rfl, hc⟩ := hhead
      simpa using hc
    | cons c w₂ =>
      rcases hw₂ c List.mem_cons_self with rfl | rfl | rfl | rfl <;> simp
  exact .member (readsKey_of_printsChars hw hkey hw₁) hu hv hrest

/-- Every part of a text is read. -/
theorem readsPart_of_prints {part : JsonPart} {t : List UInt8} (h : Prints part t) :
    ReadsPart fp part t := by
  induction h with
  | null => exact fun key js rest _ => .literal (by decide)
  | bool b =>
    cases b with
    | false => exact fun key js rest _ => .literal (by decide)
    | true => exact fun key js rest _ => .literal (by decide)
  | @int i hl hr =>
    intro key js rest hrest
    obtain ⟨c, t, heq, hc⟩ := head?_decimalInt i
    have hread := readNumber_decimalInt fp hl hr hrest
    rw [heq] at hread ⊢
    exact .number hc hread
  | @str s t hs =>
    intro key js rest _
    have hread := unescapes_of_printsChars hs rest
    rw [List.append_assoc, JsonValue.tree, ← cstr_utf8Bytes hs]
    exact .string hread
  | @emptyArr w hw =>
    intro key js rest _
    rw [List.append_assoc, JsonValue.tree]
    exact .array (readsElements_close hw .empty rest)
  | @arr vs t _ ih =>
    intro key js rest _
    have hread := @ReadsJson.array δ fp _ key js _ _ _ (ih .empty rest)
    rw [JsonParent.create_put_empty] at hread
    rwa [List.append_assoc, JsonValue.tree]
  | @emptyObj w hw =>
    intro key js rest _
    rw [List.append_assoc, JsonValue.tree]
    exact .object (readsMembers_close hw .empty rest)
  | @obj ms t _ ih =>
    intro key js rest _
    have hread := @ReadsJson.object δ fp _ key js _ _ _ (ih .empty rest)
    rw [JsonParent.create_put_empty] at hread
    rwa [List.append_assoc, JsonValue.tree]
  | @lastItem v w t w' hw _ hw' ih =>
    intro js rest
    have hv := ReadsPart.value ih hw hw' (endsJson_cons 93 rest (by decide)) none js
    rw [List.append_assoc, List.append_assoc]
    exact readsElements_last hw' hv
  | @item v vs w t w' u hw _ hw' _ ih ihs =>
    intro js rest
    have hv := ReadsPart.value ih hw hw' (endsJson_cons 44 (u ++ 93 :: rest) (by decide)) none js
    have hrest := ihs (js.put 1 (v.tree fp intCount none .null)) rest
    have hnext := ReadsJson.elements_space hw' (hrest.elements_skip (by decide : isJsonSkipped 44 = true))
    rw [JsonParent.put_put] at hnext
    have hhead : (w' ++ 44 :: (u ++ 93 :: rest)).head? ≠ some 93 := by
      cases w' with
      | nil => simp
      | cons c w' => rcases hw' c List.mem_cons_self with rfl | rfl | rfl | rfl <;> simp
    simp only [List.append_assoc, List.cons_append]
    exact .element hv hhead hnext
  | @lastMember key v w k w₁ w₂ t w' hw hkey hw₁ hw₂ hv hw' ih =>
    intro js rest
    have hread := ReadsPart.value ih hw₂ hw' (endsJson_cons 125 rest (by decide))
      (some (utf8Bytes key)) js
    simp only [List.append_assoc, List.cons_append]
    exact readsMembers_first hw hkey hw₁ hw₂ (hv.head? rfl) hread (readsMembers_close hw' _ rest)
  | @member key v ms w k w₁ w₂ t w' u hw hkey hw₁ hw₂ hv hw' _ ih ihs =>
    intro js rest
    have hread := ReadsPart.value ih hw₂ hw' (endsJson_cons 44 (u ++ 125 :: rest) (by decide))
      (some (utf8Bytes key)) js
    have hrest := ihs (js.put 1 (v.tree fp intCount (some (utf8Bytes key)) .null)) rest
    have hnext := ReadsJson.members_space hw' (hrest.members_skip (Or.inr (Eq.refl (44 : UInt8))))
    rw [JsonParent.put_put] at hnext
    simp only [List.append_assoc, List.cons_append]
    exact readsMembers_first hw hkey hw₁ hw₂ (hv.head? rfl) hread hnext

/-! ### Whole texts -/

theorem PrintsText.zero_notMem {v : JsonValue} {t : List UInt8} (h : PrintsText v t) : 0 ∉ t := by
  obtain ⟨hw, ht, hw'⟩ := h
  simpa using ⟨hw.zero_notMem, ht.zero_notMem, hw'.zero_notMem⟩

/-- The tree of a printed value is its tree. -/
theorem nxJsonParseUtf8_faithful {v : JsonValue} {t : List UInt8} {errno : ℤ}
    (herr : errno ≠ erange) (h : PrintsText v t) :
    ParsesTo fp errno t (v.tree fp intCount none .null) := by
  have hzero := h.zero_notMem
  obtain ⟨hw, ht, hw'⟩ := h
  rename_i w t w'
  have hends : EndsJson w' := by
    have hnil : EndsJson [] := by simp [EndsJson]
    simpa using hw'.endsJson hnil
  have hread := (@readsPart_of_prints δ fp _ _ ht none .empty w' hends).value_space hw
  rw [← List.append_assoc] at hread
  exact parsesTo_of_readsJson hzero hread fun _ => herr

/-- An object with one member. -/
theorem nxJsonParseUtf8_faithful_object :
    ParsesTo (δ := ℤ) ⟨0, id, fun _ => ⟨0, 0, false⟩, fun _ => Nat.zero_le _⟩ 0
      (bytes "\x7b\"a\": -1\x7d")
      (.node .object none none 0 0 1
        (.node .integer (some [97]) none (-1) (-1) 0 .null .null) .null) := by
  have hspace : IsJsonSpace [] := fun c hc => absurd hc List.not_mem_nil
  have hblank : IsJsonSpace [32] := fun c hc => .inl (List.mem_singleton.mp hc)
  have hkey : PrintsChars ['a'] [97] :=
    .cons (.raw (by decide) (by decide) (by decide)) .nil
  have hmember := Prints.lastMember hspace hkey hspace hblank
    (Prints.int (by decide : (-2 ^ 63 : ℤ) ≤ -1) (by decide)) hspace
  exact nxJsonParseUtf8_faithful (by decide) (.mk hspace (.obj hmember) hspace)

/-- An array can have any number of items. -/
theorem prints_nulls (n : ℕ) :
    ∃ t, Prints (.items (List.replicate (n + 1) JsonValue.null)) t := by
  have hspace : IsJsonSpace [] := fun c hc => absurd hc List.not_mem_nil
  induction n with
  | zero => exact ⟨_, .lastItem hspace .null hspace⟩
  | succ n ih =>
    obtain ⟨t, ht⟩ := ih
    exact ⟨_, .item hspace .null hspace ht⟩

/-- The number of items is not exact where it is no `int`. -/
theorem exists_tree_ne {n : ℕ} (hn : intCount (n + 1) ≠ (n + 1 : ℕ)) :
    ∃ v t, PrintsText v t ∧
      v.tree fp intCount none .null ≠ v.tree fp (fun n => (n : ℤ)) none .null := by
  have hspace : IsJsonSpace [] := fun c hc => absurd hc List.not_mem_nil
  obtain ⟨t, ht⟩ := prints_nulls n
  refine ⟨_, _, .mk hspace (.arr ht) hspace, fun heq => hn ?_⟩
  rw [JsonValue.tree, JsonValue.tree, NxJson.node.injEq, List.length_replicate] at heq
  exact heq.2.2.2.2.2.1

/-- With 2^31 items the count is negative. -/
theorem not_exact_faithful :
    ¬ ∀ (v : JsonValue) (t : List UInt8) (errno : ℤ), errno ≠ erange → PrintsText v t →
      ParsesTo (δ := ℤ) ⟨0, id, fun _ => ⟨0, 0, false⟩, fun _ => Nat.zero_le _⟩ errno t
        (v.tree ⟨0, id, fun _ => ⟨0, 0, false⟩, fun _ => Nat.zero_le _⟩ (fun n => (n : ℤ)) none
          .null) := by
  intro hall
  have hcount : intCount (2147483647 + 1) ≠ (2147483647 + 1 : ℕ) := by decide
  obtain ⟨v, t, ht, hne⟩ := @exists_tree_ne ℤ
    ⟨0, id, fun _ => ⟨0, 0, false⟩, fun _ => Nat.zero_le _⟩ 2147483647 hcount
  exact hne ((nxJsonParseUtf8_faithful (by decide) ht).unique (hall v t 0 (by decide) ht))

end Nxweb
