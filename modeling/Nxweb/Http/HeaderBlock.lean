import Nxweb.Http.HeaderLines

/-!
# Header blocks

A request and a response are printed as a first line and a list of headers, each ended by a line
end, with an empty line behind them. `findEndOfHttpHeaders_headerBlock` says what of such a block
reaches the parsers: the lines, without the line end of the last one. Below are the words of the
first line, which the two parsers cut off in the same way.
-/

namespace Nxweb

open Lib

/-! ### Printing headers -/

/-- A header that is printed under a condition. -/
def headerIf (c : Bool) (name : String) (value : List UInt8) : List (List UInt8 × List UInt8) :=
  if c then [(bytes name, value)] else []

/-- A header that is printed if its value is set. -/
def headerOpt (name : String) (value : Option (List UInt8)) : List (List UInt8 × List UInt8) :=
  value.toList.map fun value => (bytes name, value)

/-- A first line and headers, as they are printed. -/
def headerBlock (line : List UInt8) (fs : List (List UInt8 × List UInt8)) : List UInt8 :=
  line ++ crlf ++ fs.flatMap (fun f => headerText f ++ crlf) ++ crlf

theorem Text.printable {name : String} {value : List UInt8} (h : Text value)
    (hname : Text (bytes name) ∧ colon ∉ bytes name) : PrintableHeader (bytes name, value) :=
  ⟨hname.1, hname.2, h⟩

theorem printable_headerIf {c : Bool} {name : String} {value : List UInt8}
    (hname : Text (bytes name) ∧ colon ∉ bytes name) (hvalue : c = true → Text value) :
    ∀ f ∈ headerIf c name value, PrintableHeader f := by
  intro f hf
  unfold headerIf at hf
  split_ifs at hf with hc
  · rw [List.mem_singleton.mp hf]
    exact (hvalue hc).printable hname
  · simp at hf

theorem printable_headerOpt {name : String} {value : Option (List UInt8)}
    (hname : Text (bytes name) ∧ colon ∉ bytes name) (hvalue : ∀ v ∈ value, Text v) :
    ∀ f ∈ headerOpt name value, PrintableHeader f := by
  intro f hf
  obtain ⟨v, hv, rfl⟩ := List.mem_map.mp hf
  exact (hvalue v (Option.mem_toList.mp hv)).printable hname

/-- What holds for a fixed name holds for the header that is printed under it. -/
theorem forall_mem_headerIf {P : List UInt8 → Prop} {name : String} (h : P (bytes name)) (c : Bool)
    (value : List UInt8) : ∀ f ∈ headerIf c name value, P f.1 := by
  intro f hf
  unfold headerIf at hf
  split_ifs at hf
  · rw [List.mem_singleton.mp hf]
    exact h
  · simp at hf

theorem forall_mem_headerOpt {P : List UInt8 → Prop} {name : String} (h : P (bytes name))
    (value : Option (List UInt8)) : ∀ f ∈ headerOpt name value, P f.1 := by
  intro f hf
  obtain ⟨v, -, rfl⟩ := List.mem_map.mp hf
  exact h

@[simp]
theorem reverse_headerIf (c : Bool) (name : String) (value : List UInt8) :
    (headerIf c name value).reverse = headerIf c name value := by
  unfold headerIf
  split_ifs <;> rfl

section Fold

variable {σ : Type} (step : σ → List UInt8 × List UInt8 → σ) (s : σ)

theorem foldl_headerIf (c : Bool) (name : String) (value : List UInt8) :
    (headerIf c name value).foldl step s = if c then step s (bytes name, value) else s := by
  unfold headerIf
  split_ifs <;> rfl

theorem foldl_headerOpt (name : String) (value : Option (List UInt8)) :
    (headerOpt name value).foldl step s = value.elim s fun v => step s (bytes name, v) := by
  cases value <;> rfl

end Fold

/-- The end of a printed block is found, in front of the line end of its last line. -/
theorem findEndOfHttpHeaders_headerBlock {line : List UInt8}
    {fs : List (List UInt8 × List UInt8)} (hline : Line line) (hfs : ∀ f ∈ fs, PrintableHeader f) :
    ∃ e body, findEndOfHttpHeaders (headerBlock line fs) = some (e, body) ∧
      (headerBlock line fs).take e = joinLines (line :: fs.map headerText) := by
  set ls := line :: fs.map headerText with hls
  have hlines : ∀ l ∈ ls, Line l := by
    rw [hls, List.forall_mem_cons, List.forall_mem_map]
    exact ⟨hline, fun f hf => (hfs f hf).line⟩
  have htext : headerBlock line fs = ls.flatMap (· ++ crlf) ++ crlf := by
    rw [hls, List.flatMap_cons, List.flatMap_map]
    rfl
  have htake : (ls.flatMap (· ++ crlf) ++ crlf).take (joinLines ls).length = joinLines ls := by
    rw [← joinLines_append_crlf (by simp [hls]), List.append_assoc]
    exact List.take_left
  exact ⟨_, _, by rw [htext, findEndOfHttpHeaders_lines (by simp [hls]) hlines], by
    rw [htext, htake]⟩

/-! ### The words of the first line -/

/-- The next word of the first line and the rest of the line, from its next word on. -/
def nextWord (p : List UInt8) : List UInt8 × List UInt8 :=
  let word := p.takeWhile isGraph
  (word, (p.drop (word.length + 1)).dropWhile fun c => ¬ isGraph c)

theorem takeWhile_token {w rest : List UInt8} (hw : Token w)
    (hrest : ∀ c ∈ rest.head?, isGraph c = false) : (w ++ rest).takeWhile isGraph = w := by
  rw [List.takeWhile_append_of_pos hw.graph]
  cases rest with
  | nil => simp
  | cons c rest => simp [hrest c rfl]

/-- A word that is followed by another one. -/
theorem nextWord_append {w rest : List UInt8} (hw : Token w)
    (hrest : ∀ c ∈ rest.head?, isGraph c = true) : nextWord (w ++ space :: rest) = (w, rest) := by
  have hword : (w ++ space :: rest).takeWhile isGraph = w :=
    takeWhile_token hw fun c hc => by
      rw [← Option.some.inj hc]
      decide
  have hdrop : (w ++ space :: rest).drop (w.length + 1) = rest := by
    rw [show w ++ space :: rest = (w ++ [space]) ++ rest by simp]
    exact List.drop_left' (by simp)
  unfold nextWord
  simp only [hword, hdrop]
  refine Prod.ext rfl ?_
  cases rest with
  | nil => rfl
  | cons c rest => simp [hrest c rfl]

/-- The last word of the line, in front of the carriage return. -/
theorem nextWord_last {w : List UInt8} (hw : Token w) : nextWord (w ++ [cr]) = (w, []) := by
  have hword : (w ++ [cr]).takeWhile isGraph = w :=
    takeWhile_token hw fun c hc => by
      rw [← Option.some.inj hc]
      decide
  unfold nextWord
  simp [hword]

theorem Token.append_head {w rest : List UInt8} (hw : Token w) :
    ∀ c ∈ (w ++ rest).head?, isGraph c = true := by
  rw [List.head?_append_of_ne_nil _ hw.ne_nil]
  exact fun c hc => hw.graph c (List.mem_of_mem_head? hc)

/-- The version that ends the first line. -/
def versionText (http11 : Bool) : List UInt8 := bytes (if http11 then "HTTP/1.1" else "HTTP/1.0")

theorem token_versionText (http11 : Bool) : Token (versionText http11) := by
  cases http11 <;> exact ⟨by decide, by decide⟩

theorem strcaseEq_versionText (http11 : Bool) :
    strcaseEq (versionText http11) (bytes "HTTP/1.0") = !http11 := by
  cases http11 <;> decide

end Nxweb
