import Nxweb.Json.Parsing

/-!
# The JSON parser returns

On every text the parser returns, and looks at no byte behind the terminator. In `unescape_string`
what is written never passes what has been read: at every turn the position `d` is at most the
position `p`, and no byte from the position on where the next turn reads has been changed.
-/

namespace Nxweb

open Lib

variable {δ : Type}

/-! ### Writing behind reading -/

section Unescape

variable {encoder : JsonEncoder} {f f' : UnescapeFrame} {t : UnescapeTurn} {p s : ℕ}

namespace UnescapeFrame

/-- A turn that has written no more than it has read. -/
def MovesTo (f f' : UnescapeFrame) : Prop :=
  ∃ bs p', f.put bs p' = some (.next f') ∧ f.p + bs.length ≤ p'

/-- What a turn does that does not end the string: it fails, or goes on. -/
def GoesOn (f : UnescapeFrame) (t : UnescapeTurn) : Prop :=
  t = .ret (f.buf, none) ∨ ∃ f', t = .next f' ∧ f.MovesTo f'

theorem goesOn_refuse {ps : ℕ} (h : f.refuse ps = some t) : f.GoesOn t := by
  obtain ⟨-, -, rfl⟩ := Option.map_eq_some_iff.mp h
  exact .inl rfl

theorem goesOn_put {bs : List UInt8} (hle : f.p + bs.length ≤ p) (h : f.put bs p = some t) :
    f.GoesOn t := by
  obtain ⟨buf, hstore, rfl⟩ := Option.map_eq_some_iff.mp h
  exact .inr ⟨_, rfl, bs, p, h, hle⟩

theorem goesOn_putCodepoint {encode : ℕ → Option (List UInt8)} {ps codepoint : ℕ}
    (hshort : JsonEncoder.Short (some encode)) (hle : f.p + 1 ≤ p)
    (h : f.putCodepoint encode ps p codepoint = some t) : f.GoesOn t := by
  rw [putCodepoint] at h
  cases hbs : encode codepoint with
  | none =>
    rw [hbs] at h
    exact goesOn_refuse h
  | some bs =>
    rw [hbs] at h
    have hlen := hshort encode rfl _ _ hbs
    exact goesOn_put (by omega) h

theorem goesOn_unescapeUnicode {encode : ℕ → Option (List UInt8)}
    (hshort : JsonEncoder.Short (some encode)) (hle : f.p + 1 ≤ p)
    (h : f.unescapeUnicode encode p = some t) : f.GoesOn t := by
  obtain ⟨r, -, h⟩ := Option.bind_eq_some_iff.mp h
  cases r with
  | none => exact goesOn_refuse h
  | some codepoint =>
    dsimp only at h
    split_ifs at h
    · -- a second code point is read
      obtain ⟨c, -, h⟩ := Option.bind_eq_some_iff.mp h
      split_ifs at h
      · exact goesOn_refuse h
      obtain ⟨c', -, h⟩ := Option.bind_eq_some_iff.mp h
      split_ifs at h
      · exact goesOn_refuse h
      obtain ⟨r, -, h⟩ := Option.bind_eq_some_iff.mp h
      cases r with
      | none => exact goesOn_refuse h
      | some codepoint2 =>
        dsimp only at h
        split_ifs at h
        · exact goesOn_refuse h
        · exact goesOn_putCodepoint hshort (by omega) h
    · exact goesOn_putCodepoint hshort hle h

theorem goesOn_unescape (henc : encoder.Short) (hp : p = f.p + 1)
    (h : f.unescape encoder p = some t) : f.GoesOn t := by
  have hput : ∀ {b : UInt8} {q : ℕ}, f.p + 1 ≤ q → f.put [b] q = some t → f.GoesOn t :=
    fun hq h => goesOn_put hq h
  obtain ⟨e, -, h⟩ := Option.bind_eq_some_iff.mp h
  split_ifs at h
  iterate 6 exact hput (by omega) h
  · cases encoder with
    | none => exact hput (by omega) h
    | some encode => exact goesOn_unescapeUnicode henc (by omega) h
  · exact hput (by omega) h

end UnescapeFrame

open UnescapeFrame

/-- Whatever is in memory, a turn goes on or fails, or puts a zero at `d` and ends. -/
theorem unescapeTurn_cases (henc : encoder.Short) :
    unescapeTurn encoder s f = .fault ∨ f.GoesOn (unescapeTurn encoder s f) ∨
      ∃ buf', unescapeTurn encoder s f = .ret (buf', some (f.p + 1)) ∧
        overwrite f.buf f.d [0] = some buf' := by
  generalize hturn : unescapeTurn encoder s f = t
  rw [unescapeTurn, Turn.orFault] at hturn
  cases hx : (do
      let c ← f.buf[f.p]?
      let p := f.p + 1
      if c = 0 then f.refuse s
      else if c = 34 then
        let buf ← overwrite f.buf f.d [0]
        some (.ret (buf, some p))
      else if c = 92 then f.unescape encoder p
      else f.put [c] p : Option UnescapeTurn) with
  | none =>
    rw [hx] at hturn
    exact .inl hturn.symm
  | some t' =>
    rw [hx] at hturn
    obtain rfl : t' = t := hturn
    obtain ⟨c, -, h⟩ := Option.bind_eq_some_iff.mp hx
    dsimp only at h
    split_ifs at h
    · exact .inr (.inl (goesOn_refuse h))
    · obtain ⟨buf, hstore, h⟩ := Option.bind_eq_some_iff.mp h
      exact .inr (.inr ⟨buf, (Option.some.inj h).symm, hstore⟩)
    · exact .inr (.inl (goesOn_unescape henc rfl h))
    · exact .inr (.inl (goesOn_put le_rfl h))

/-- Bytes that are written below a position leave the rest alone. -/
theorem drop_overwrite {buf buf' bs : List UInt8} {d q : ℕ} (h : overwrite buf d bs = some buf')
    (hle : d + bs.length ≤ q) : buf'.drop q = buf.drop q := by
  rw [overwrite] at h
  split_ifs at h with hlen
  obtain rfl := Option.some.inj h
  have hwritten : (buf.take d ++ bs).length = d + bs.length := by
    rw [List.length_append, List.length_take]
    omega
  obtain ⟨k, rfl⟩ := Nat.exists_eq_add_of_le hle
  rw [← List.drop_drop, List.drop_left' hwritten, List.drop_drop]

/-- The position `d` stays at or below the position `p`. -/
theorem UnescapeFrame.MovesTo.le (h : f.MovesTo f') (hle : f.d ≤ f.p) :
    f'.d ≤ f'.p ∧ f'.buf.drop f'.p = f.buf.drop f'.p := by
  obtain ⟨bs, p', hput, hlen⟩ := h
  obtain ⟨buf', hstore, hframe⟩ := Option.map_eq_some_iff.mp hput
  obtain rfl := Turn.next.inj hframe
  have hd : f.d + bs.length ≤ p' := by omega
  exact ⟨hd, drop_overwrite hstore hd⟩

/-- A turn begins with `d` at or below `p`, and changes nothing from the position on where reading
goes on behind it. -/
structure WritesBehindReads (encoder : JsonEncoder) (s : ℕ) (f : UnescapeFrame) : Prop where
  d_le : f.d ≤ f.p
  next : ∀ f', unescapeTurn encoder s f = .next f' →
    f'.d ≤ f'.p ∧ f'.buf.drop f'.p = f.buf.drop f'.p
  ret : ∀ buf' q, unescapeTurn encoder s f = .ret (buf', some q) →
    f.d < q ∧ buf'.drop q = f.buf.drop q

theorem writesBehindReads_of_le (henc : encoder.Short) (hle : f.d ≤ f.p) :
    WritesBehindReads encoder s f := by
  rcases unescapeTurn_cases (s := s) (f := f) henc with hturn | (hturn | ⟨f', hturn, hf'⟩) |
    ⟨buf', hturn, hstore⟩
  · exact ⟨hle, by simp [hturn], by simp [hturn]⟩
  · exact ⟨hle, by simp [hturn], by simp [hturn]⟩
  · refine ⟨hle, fun f'' heq => ?_, by simp [hturn]⟩
    obtain rfl := Turn.next.inj (hturn.symm.trans heq)
    exact hf'.le hle
  · refine ⟨hle, by simp [hturn], fun buf'' q heq => ?_⟩
    obtain ⟨rfl, hq⟩ := Prod.mk.inj (Turn.ret.inj (hturn.symm.trans heq))
    obtain rfl := Option.some.inj hq
    exact ⟨by omega, drop_overwrite hstore (by simpa using hle)⟩

/-- At every turn of a call. -/
theorem writesBehindReads (henc : encoder.Short) {buf : List UInt8}
    (h : LoopReaches (unescapeTurn encoder s) ⟨buf, s, s⟩ f) : WritesBehindReads encoder s f := by
  apply writesBehindReads_of_le henc
  apply LoopReaches.inv (I := fun f => f.d ≤ f.p) h le_rfl
  intro f f' hle hturn
  exact ((writesBehindReads_of_le henc hle).next f' hturn).1

end Unescape

/-! ### A whole text -/

theorem textAt_zero {text : List UInt8} (h : 0 ∉ text) : TextAt (text ++ [0]) 0 text :=
  ⟨rfl, h⟩

theorem calledAt_text {text : List UInt8} (h : 0 ∉ text) (errno : ℤ) :
    CalledAt (δ := δ) ⟨text ++ [0], errno⟩ 0 text (.value none) (.value none) .empty .empty :=
  ⟨textAt_zero h, .value .none, parentBelow_empty⟩

/-- A text of a zero byte and `n` bytes in front of it is parsed in at most `2 * n + 1` nested calls
and turns, without a fault; and `unescape_string` writes behind what it reads, at every turn of every
call. -/
theorem nxJsonParseUtf8_returns (fp : Doubles δ) (errno : ℤ) {text : List UInt8} (h : 0 ∉ text)
    (fuel : ℕ) :
    (∃ r, nxJsonParseUtf8 fp (2 * text.length + 1 + fuel) errno (text ++ [0]) = some r) ∧
      ∀ buf s f, LoopReaches (unescapeTurn (some unicodeToUtf8) s) ⟨buf, s, s⟩ f →
        WritesBehindReads (some unicodeToUtf8) s f := by
  refine ⟨?_, fun _ _ _ hreach => writesBehindReads short_unicodeToUtf8 hreach⟩
  obtain ⟨st, r, hrun, -⟩ := @allReturn δ fp _ short_unicodeToUtf8 (2 * text.length + 1 + fuel)
    _ 0 text (.value none) (.value none) .empty .empty (calledAt_text h errno) (by
      show 2 * text.length + 1 ≤ _
      omega)
  exact ⟨_, congrArg (Option.map _) hrun⟩

/-- An array of a number and a string with escapes, and a comment. -/
theorem nxJsonParseUtf8_returns_array :
    (∃ r, nxJsonParseUtf8 (δ := ℤ) ⟨0, id, fun _ => ⟨0, 0, false⟩, fun _ => Nat.zero_le _⟩
        (2 * (bytes "[1, /* c */ \"a\\n\\u00e9\"]").length + 1 + 0) 0
        (bytes "[1, /* c */ \"a\\n\\u00e9\"]" ++ [0]) = some r) ∧
      ∀ buf s f, LoopReaches (unescapeTurn (some unicodeToUtf8) s) ⟨buf, s, s⟩ f →
        WritesBehindReads (some unicodeToUtf8) s f :=
  nxJsonParseUtf8_returns _ 0 (by decide) 0

end Nxweb
