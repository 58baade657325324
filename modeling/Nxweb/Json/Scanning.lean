import Nxweb.Json.Grammar

/-!
# Scanning memory

What the functions of the JSON parser below `parse_value` do to a text in memory, by the grammar.
Where the text from a position on is `t`, they return without a fault, and succeed exactly if
something can be read of `t`; the position they return is the one of the rest.

## Main results

* `skipComment_eq`: a comment;
* `unescapeTurn_follows`: a turn of `unescape_string`, and what it leaves of the memory;
* `unescapeString_returns`, `unescapeString_of_unescapes`: a string;
* `parseKey_returns`, `parseKey_of_readsKey`: a key.
-/

namespace Nxweb

open Lib

/-- The text from `p` on; the memory ends behind its zero byte. -/
structure TextAt (buf : List UInt8) (p : ℕ) (t : List UInt8) : Prop where
  drop_eq : buf.drop p = t ++ [0]
  zero_notMem : 0 ∉ t

namespace TextAt

variable {buf t u : List UInt8} {p : ℕ} {c : UInt8}

theorem length_eq (h : TextAt buf p t) : buf.length = p + t.length + 1 := by
  have hlen := congrArg List.length h.drop_eq
  rw [List.length_drop, List.length_append, List.length_singleton] at hlen
  omega

theorem head (h : TextAt buf p t) : buf[p]? = some (t.headD 0) := by
  have hhead := congrArg List.head? h.drop_eq
  rw [List.head?_drop] at hhead
  rw [hhead]
  cases t <;> rfl

/-- A zero is read where the text ends. -/
theorem nil (h : TextAt buf p []) : buf[p]? = some 0 := h.head

theorem cons (h : TextAt buf p (c :: t)) : buf[p]? = some c := h.head

theorem ne_zero (h : TextAt buf p (c :: t)) : c ≠ 0 := by
  rintro rfl
  exact h.zero_notMem List.mem_cons_self

theorem append (h : TextAt buf p (t ++ u)) : TextAt buf (p + t.length) u where
  drop_eq := by
    rw [← List.drop_drop, h.drop_eq, List.append_assoc, List.drop_left]
  zero_notMem hu := h.zero_notMem (List.mem_append_right t hu)

theorem tail (h : TextAt buf p (c :: t)) : TextAt buf (p + 1) t :=
  h.append (t := [c])

/-- The position of what is left. -/
theorem suffix (h : TextAt buf p t) (hu : u <:+ t) :
    TextAt buf (p + (t.length - u.length)) u := by
  obtain ⟨s, rfl⟩ := hu
  rw [List.length_append, Nat.add_sub_cancel]
  exact h.append

theorem cstringAt_eq (h : TextAt buf p t) : cstringAt buf p = some t := by
  rw [cstringAt, h.drop_eq, if_pos (by simp), cstr_append_zero h.zero_notMem]

/-- An error can be reported anywhere in the memory. -/
theorem reportError_eq (h : TextAt buf p t) {q : ℕ} (hq : q ≤ p) :
    reportError buf q = some () := by
  have hzero : 0 ∈ buf.drop q := by
    have hdrop : buf.drop p <:+ buf.drop q := by
      rw [show p = q + (p - q) by omega, ← List.drop_drop]
      exact List.drop_suffix _ _
    apply hdrop.subset
    rw [h.drop_eq]
    exact List.mem_append_right t List.mem_cons_self
  rw [reportError, cstringAt, if_pos hzero]
  rfl

/-- `strchr` finds the first occurrence. -/
theorem strchrAt_eq (h : TextAt buf p t) (c : UInt8) :
    strchrAt c buf p =
      some (if c ∈ t then some (p + (t.takeWhile (· ≠ c)).length) else none) := by
  rw [strchrAt, h.cstringAt_eq, Option.map_some]

end TextAt

/-! ### Comments -/

theorem blockRest_of_notMem {before : UInt8} {t : List UInt8} (h : 47 ∉ t) :
    blockRest before t = none := by
  induction t generalizing before with
  | nil => rfl
  | cons c t ih =>
    obtain ⟨hc, ht⟩ := not_or.mp (mt List.mem_cons.mpr h)
    rw [blockRest, if_neg (fun hand => hc hand.1.symm), ih ht]

/-- The search goes from slash to slash. -/
theorem blockRest_append {before : UInt8} {xs : List UInt8} (h : 47 ∉ xs) (u : List UInt8) :
    blockRest before (xs ++ 47 :: u) =
      if (before :: xs).getLast (List.cons_ne_nil _ _) = 42 then some u else blockRest 47 u := by
  induction xs generalizing before with
  | nil => by_cases hb : before = 42 <;> simp [blockRest, hb]
  | cons c xs ih =>
    obtain ⟨hc, hxs⟩ := not_or.mp (mt List.mem_cons.mpr h)
    rw [List.cons_append, blockRest, if_neg (fun hand => hc hand.1.symm), ih hxs,
      List.getLast_cons_cons]

section Comments

variable {buf t : List UInt8} {ps p fuel : ℕ} {c : UInt8}

/-- The first occurrence of a byte. -/
theorem exists_eq_append_of_mem {c : UInt8} {t : List UInt8} (h : c ∈ t) :
    ∃ u, t = t.takeWhile (· ≠ c) ++ c :: u ∧ c ∉ t.takeWhile (· ≠ c) ∧
      t.dropWhile (· ≠ c) = c :: u := by
  have hnot : c ∉ t.takeWhile (· ≠ c) := by
    intro hc
    simpa using List.mem_takeWhile_imp hc
  obtain ⟨d, u, hu⟩ : ∃ d u, t.dropWhile (· ≠ c) = d :: u := by
    apply List.exists_cons_of_ne_nil
    intro hnil
    apply hnot
    have hall := List.takeWhile_append_dropWhile (p := (· ≠ c)) (l := t)
    rw [hnil, List.append_nil] at hall
    rwa [hall]
  have hd : d = c := by
    have hhead := List.head?_dropWhile_not (· ≠ c) t
    rw [hu] at hhead
    simpa using hhead
  subst hd
  refine ⟨u, ?_, hnot, hu⟩
  rw [← hu, List.takeWhile_append_dropWhile]

theorem loop_skipBlockTurn (h : TextAt buf p (c :: t)) (hps : ps ≤ p) (hfuel : t.length < fuel) :
    loop (skipBlockTurn buf ps) fuel p =
      some ((blockRest c t).map fun u => p + 1 + (t.length - u.length)) := by
  -- by induction on the number of turns; each one goes on at a slash
  induction fuel generalizing p c t with
  | zero => omega
  | succ fuel ih =>
    by_cases hmem : (47 : UInt8) ∈ t
    · obtain ⟨u, ht, hnot, -⟩ := exists_eq_append_of_mem hmem
      generalize hxs : t.takeWhile (· ≠ 47) = xs at ht hnot
      have hfind : strchrAt 47 buf (p + 1) = some (some (p + 1 + xs.length)) := by
        rw [h.tail.strchrAt_eq, if_pos hmem, hxs]
      subst ht
      have hslash : TextAt buf (p + 1 + xs.length) (47 :: u) := h.tail.append
      have hbefore : buf[p + xs.length]? =
          some ((c :: xs).getLast (List.cons_ne_nil _ _)) := by
        have hsplit := List.dropLast_append_getLast (List.cons_ne_nil c xs)
        have htext : TextAt buf p ((c :: xs).dropLast ++
            ((c :: xs).getLast (List.cons_ne_nil _ _) :: 47 :: u)) := by
          rw [List.append_cons, hsplit]
          exact h
        have hhead := htext.append.cons
        rwa [List.length_dropLast, List.length_cons, Nat.add_sub_cancel] at hhead
      rw [List.length_append, List.length_cons] at hfuel ⊢
      rw [blockRest_append hnot]
      by_cases hlast : (c :: xs).getLast (List.cons_ne_nil _ _) = 42
      · have hturn : skipBlockTurn buf ps p = .ret (some (p + 1 + xs.length + 1)) := by
          simp [skipBlockTurn, hfind, hbefore, hlast, Turn.orFault]
        rw [loop_of_ret hturn, if_pos hlast, Option.map_some]
        congr 2
        omega
      · have hturn : skipBlockTurn buf ps p = .next (p + 1 + xs.length) := by
          simp [skipBlockTurn, hfind, hbefore, hlast, Turn.orFault]
        rw [loop_of_next hturn, if_neg hlast, ih hslash (by omega) (by omega)]
        congr 1
        apply Option.map_congr
        intro v hv
        have hle := (blockRest_suffix hv).length_le
        omega
    · have hfind : strchrAt 47 buf (p + 1) = some none := by
        rw [h.tail.strchrAt_eq, if_neg hmem]
      have hturn : skipBlockTurn buf ps p = .ret none := by
        simp [skipBlockTurn, hfind, h.reportError_eq hps, Turn.orFault]
      rw [loop_of_ret hturn, blockRest_of_notMem hmem, Option.map_none]

/-- A comment is skipped, or there is none. -/
theorem skipComment_eq (h : TextAt buf p (47 :: t)) (hfuel : t.length < fuel) :
    skipComment fuel buf p =
      some ((commentRest t).map fun u => p + 1 + (t.length - u.length)) := by
  cases t with
  | nil => simp [skipComment, h.tail.nil, commentRest, h.reportError_eq le_rfl]
  | cons c t =>
    rw [List.length_cons] at hfuel ⊢
    have hc := h.tail.cons
    by_cases hline : c = 47
    · subst hline
      have hfind := h.tail.tail.strchrAt_eq 10
      by_cases hmem : (10 : UInt8) ∈ t
      · obtain ⟨u, ht, -, hdrop⟩ := exists_eq_append_of_mem hmem
        rw [if_pos hmem] at hfind
        have hlen := congrArg List.length ht
        rw [List.length_append, List.length_cons] at hlen
        simp only [skipComment, hc, hfind, commentRest, lineRest, if_pos hmem, hdrop,
          Option.bind_eq_bind, Option.bind_some, if_true, Option.map_some, List.tail_cons]
        congr 2
        omega
      · rw [if_neg hmem] at hfind
        simp [skipComment, hc, hfind, commentRest, lineRest, hmem, h.reportError_eq le_rfl]
    by_cases hblock : c = 42
    · subst hblock
      cases t with
      | nil =>
        simp [skipComment, skipBlockComment, hc, commentRest, h.tail.tail.nil,
          h.reportError_eq le_rfl]
      | cons d t =>
        rw [List.length_cons] at hfuel ⊢
        have htext := h.tail.tail
        have hloop := loop_skipBlockTurn htext (Nat.le_add_right p 2) (show t.length < fuel by omega)
        simp only [skipComment, skipBlockComment, hc, htext.cons, htext.ne_zero, commentRest,
          Option.bind_eq_bind, Option.bind_some, if_neg hline, if_true, if_false]
        rw [show p + 2 - 2 = p by omega, hloop]
        congr 1
        apply Option.map_congr
        intro v hv
        have hle := (blockRest_suffix hv).length_le
        omega
    · simp [skipComment, hc, commentRest, hline, hblock, h.reportError_eq le_rfl]

end Comments

/-! ### Strings -/

section Strings

variable {buf t : List UInt8} {s p fuel : ℕ} {c : UInt8} {encoder : JsonEncoder}

/-- What is written below a position leaves the rest alone. -/
theorem overwrite_eq {bs : List UInt8} {d q : ℕ} (hle : d + bs.length ≤ q) (hq : q ≤ buf.length) :
    ∃ buf', overwrite buf d bs = some buf' ∧ buf'.length = buf.length ∧
      buf'.take (d + bs.length) = buf.take d ++ bs ∧ buf'.drop q = buf.drop q := by
  have hd : (buf.take d).length = d := by
    rw [List.length_take]
    omega
  have hlen : (buf.take d ++ bs).length = d + bs.length := by
    rw [List.length_append, hd]
  refine ⟨_, if_pos (by omega), ?_, List.take_left' hlen, ?_⟩
  · rw [List.length_append, hlen, List.length_drop]
    omega
  · obtain ⟨k, rfl⟩ := Nat.exists_eq_add_of_le hle
    rw [← List.drop_drop, List.drop_left' hlen, List.drop_drop]

theorem readHex_eq {n acc : ℕ} (h : TextAt buf p t) :
    readHex buf n p acc = some ((hexRest n acc t).map Prod.fst) := by
  induction n generalizing p acc t with
  | zero => rfl
  | succ n ih =>
    rw [readHex, h.head, Option.bind_eq_bind, Option.bind_some]
    cases t with
    | nil => rfl
    | cons c t =>
      rw [List.headD_cons, hexRest]
      cases jsonHexVal c with
      | none => rfl
      | some d => exact ih h.tail

/-- The string that begins at `s`, after some turns: what has been written, and what is left. -/
structure UnescapeFrame.Follows (f : UnescapeFrame) (buf : List UInt8) (s : ℕ)
    (t out : List UInt8) : Prop where
  text : TextAt f.buf f.p t
  length : f.buf.length = buf.length
  d_eq : f.d = s + out.length
  d_le : f.d ≤ f.p
  taken : f.buf.take f.d = buf.take s ++ out

namespace UnescapeFrame

variable {f : UnescapeFrame} {out : List UInt8}

/-- What the branch for `u` does, by the text behind the letter. -/
theorem unescapeUnicode_eq {encode : ℕ → Option (List UInt8)} (h : TextAt f.buf (p + 1) t) :
    f.unescapeUnicode encode p =
      match unicodeOne encode t with
      | none => f.refuse (p - 1)
      | some (bs, u) => f.put bs (p + 1 + (t.length - u.length)) := by
  rw [unescapeUnicode, readHex_eq h, unicodeOne]
  cases hhex : hexRest 4 0 t with
  | none => rfl
  | some r =>
    obtain ⟨codepoint, u⟩ := r
    have hlen := hexRest_length hhex
    have hu : TextAt f.buf (p + 5) u := by
      have := h.suffix (hexRest_suffix hhex)
      rwa [hlen, show p + 1 + (u.length + 4 - u.length) = p + 5 by omega] at this
    simp only [Option.map_some, Option.bind_eq_bind, Option.bind_some]
    split_ifs with hhigh htake
    · -- a second code point follows
      obtain ⟨v, rfl⟩ : ∃ v, u = 92 :: 117 :: v := ⟨u.drop 2, by
        have := List.take_append_drop 2 u
        rw [htake] at this
        exact this.symm⟩
      have hc : f.buf[p + 6 - 1]? = some 92 := hu.cons
      have hc' : f.buf[p + 6]? = some 117 := hu.tail.cons
      rw [List.length_cons, List.length_cons] at hlen
      simp only [hc, hc', Option.bind_some, ne_eq, not_true_eq_false, if_false,
        readHex_eq hu.tail.tail, List.drop_succ_cons, List.drop_zero]
      cases hhex' : hexRest 4 0 v with
      | none => rfl
      | some r =>
        obtain ⟨codepoint2, w⟩ := r
        have hlen' := hexRest_length hhex'
        simp only [Option.map_some, Option.bind_some]
        by_cases hlow : codepoint2 &&& 0xfc00 = 0xdc00
        · rw [if_neg (not_not.mpr hlow), if_pos hlow, putCodepoint]
          cases encode (0x10000 + (codepoint - 0xd800) <<< 10 + (codepoint2 - 0xdc00)) with
          | none => rfl
          | some bs =>
            simp only [Option.map_some]
            congr 1
            omega
        · rw [if_pos hlow, if_neg hlow]
    · -- there is none
      have hhead : f.buf[p + 6 - 1]? = some (u.headD 0) := hu.head
      rw [hhead, Option.bind_some]
      cases u with
      | nil => rfl
      | cons c v =>
        by_cases hc : c = 92
        · subst hc
          have hhead' : f.buf[p + 6]? = some (v.headD 0) := hu.tail.head
          have hne : v.headD 0 ≠ 117 := by
            intro heq
            cases v with
            | nil => cases heq
            | cons d v =>
              obtain rfl : d = 117 := heq
              exact htake rfl
          simp only [List.headD_cons, ne_eq, not_true_eq_false, if_false, hhead', Option.bind_some,
            hne, not_false_eq_true, if_true]
        · simp [hc]
    · rw [putCodepoint]
      cases encode codepoint with
      | none => rfl
      | some bs =>
        simp only [Option.map_some]
        congr 1
        omega

/-- What the branch for a backslash does, by the text behind it. -/
theorem unescape_eq (h : TextAt f.buf p t) :
    f.unescape encoder p =
      match escapeOne encoder t with
      | none => f.refuse (p - 1)
      | some (bs, u) => f.put bs (p + (t.length - u.length)) := by
  unfold unescape
  cases t with
  | nil =>
    rw [h.nil]
    rfl
  | cons e t =>
    simp only [h.cons, Option.bind_eq_bind, Option.bind_some]
    have htail : (e :: t).length - t.length = 1 := by simp
    have hall : (e :: t).length - (e :: t).length = 0 := Nat.sub_self _
    unfold escapeOne
    dsimp only
    cases hshort : shortEscape e with
    | some b =>
      dsimp only
      rw [htail]
      unfold shortEscape at hshort
      split_ifs at hshort with hself hb hf hn hr ht <;> obtain rfl := Option.some.inj hshort
      · rw [if_pos hself]
      all_goals
        subst e
        rfl
    | none =>
      unfold shortEscape at hshort
      split_ifs at hshort with hself hb hf hn hr ht
      rw [if_neg hself, if_neg hb, if_neg hf, if_neg hn, if_neg hr, if_neg ht]
      by_cases hu : e = 117
      · rw [if_pos hu]
        cases encoder with
        | none =>
          dsimp only
          rw [hall, Nat.add_zero]
        | some encode =>
          simp only [if_pos hu, unescapeUnicode_eq h.tail]
          cases hone : unicodeOne encode t with
          | none => rfl
          | some r =>
            have hle := (unicodeOne_suffix hone).length_le
            simp only [List.length_cons]
            congr 1
            omega
      · rw [if_neg hu]
        cases encoder with
        | none =>
          dsimp only
          rw [hall, Nat.add_zero]
        | some encode =>
          dsimp only
          rw [if_neg hu]
          dsimp only
          rw [hall, Nat.add_zero]

/-- Writing no more than has been read. -/
theorem Follows.put (hf : f.Follows buf s (c :: t) out) {bs u : List UInt8} (hu : u <:+ t)
    (hlen : bs.length + u.length ≤ t.length + 1) :
    ∃ f', f.put bs (f.p + 1 + (t.length - u.length)) = some (.next f') ∧
      f'.Follows buf s u (out ++ bs) := by
  have hle := hu.length_le
  have htext := hf.text.length_eq
  have hd := hf.d_le
  rw [List.length_cons] at htext
  obtain ⟨buf', hstore, hlength, htaken, hdrop⟩ := @overwrite_eq f.buf bs f.d
    (f.p + 1 + (t.length - u.length)) (by omega) (by omega)
  refine ⟨_, congrArg (Option.map _) hstore, ?_⟩
  constructor
  case text =>
    have hrest := hf.text.tail.suffix hu
    exact ⟨hdrop.trans hrest.drop_eq, hrest.zero_notMem⟩
  case length => exact hlength.trans hf.length
  case d_eq =>
    show f.d + bs.length = _
    rw [hf.d_eq, List.length_append, Nat.add_assoc]
  case d_le =>
    show f.d + bs.length ≤ f.p + 1 + (t.length - u.length)
    omega
  case taken =>
    show buf'.take (f.d + bs.length) = _
    rw [htaken, hf.taken, List.append_assoc]

theorem Follows.enter (h : TextAt buf s t) : Follows ⟨buf, s, s⟩ buf s t [] where
  text := h
  length := rfl
  d_eq := rfl
  d_le := le_rfl
  taken := (List.append_nil _).symm

theorem Follows.le (hf : f.Follows buf s t out) : s ≤ f.p := by
  have hd := hf.d_eq
  have hle := hf.d_le
  omega

theorem Follows.refuse_eq (hf : f.Follows buf s t out) {ps : ℕ} (hps : ps ≤ f.p) :
    f.refuse ps = some (.ret (f.buf, none)) := by
  rw [refuse, hf.text.reportError_eq hps]
  rfl

end UnescapeFrame

open UnescapeFrame

/-- A string that has been unescaped: it is at `s`, and what is below `s` and what is left is as it
was. -/
structure StringRead (buf : List UInt8) (s : ℕ) (buf' : List UInt8) (q : ℕ)
    (str rest : List UInt8) : Prop where
  text : TextAt buf' q rest
  length : buf'.length = buf.length
  lt : s + str.length < q
  taken : buf'.take (s + str.length + 1) = buf.take s ++ str ++ [0]

variable {f : UnescapeFrame} {out : List UInt8}

theorem unescapeTurn_end (hf : f.Follows buf s [] out) :
    unescapeTurn encoder s f = .ret (f.buf, none) := by
  simp [unescapeTurn, hf.text.nil, hf.refuse_eq hf.le, Turn.orFault]

theorem unescapeTurn_close (hf : f.Follows buf s (34 :: t) out) :
    ∃ buf', unescapeTurn encoder s f = .ret (buf', some (f.p + 1)) ∧
      StringRead buf s buf' (f.p + 1) out t := by
  have htext := hf.text.length_eq
  have hd := hf.d_le
  rw [List.length_cons] at htext
  obtain ⟨buf', hstore, hlength, htaken, hdrop⟩ := @overwrite_eq f.buf [0] f.d (f.p + 1)
    (by simpa using hd) (by omega)
  refine ⟨buf', by simp [unescapeTurn, hf.text.cons, hstore, Turn.orFault], ?_⟩
  rw [hf.taken, List.length_singleton, hf.d_eq] at htaken
  have hrest := hf.text.tail
  rw [hf.d_eq] at hd
  exact ⟨⟨hdrop.trans hrest.drop_eq, hrest.zero_notMem⟩, hlength.trans hf.length, by omega, htaken⟩

/-- A turn that does not end the string writes what the character in front stands for. -/
theorem unescapeTurn_follows (henc : encoder.Short) (hf : f.Follows buf s (c :: t) out)
    (hc : c ≠ 34) :
    match unescapeOne encoder c t with
    | none => unescapeTurn encoder s f = .ret (f.buf, none)
    | some (bs, u) => ∃ f', unescapeTurn encoder s f = .next f' ∧ f'.Follows buf s u (out ++ bs) := by
  have hturn : unescapeTurn encoder s f =
      .orFault (match unescapeOne encoder c t with
        | none => f.refuse f.p
        | some (bs, u) => f.put bs (f.p + 1 + (t.length - u.length))) := by
    rw [unescapeTurn, hf.text.cons, unescapeOne]
    simp only [Option.bind_eq_bind, Option.bind_some, if_neg hf.text.ne_zero, if_neg hc]
    split_ifs
    · rw [unescape_eq hf.text.tail, Nat.add_sub_cancel]
    · dsimp only
      rw [Nat.sub_self, Nat.add_zero]
  rw [hturn]
  cases hone : unescapeOne encoder c t with
  | none =>
    dsimp only
    rw [hf.refuse_eq le_rfl]
    rfl
  | some r =>
    obtain ⟨bs, u⟩ := r
    obtain ⟨f', hput, hf'⟩ := hf.put (unescapeOne_suffix hone) (unescapeOne_length henc hone)
    refine ⟨f', ?_, hf'⟩
    dsimp only
    rw [hput]
    rfl

/-- The loop returns, and succeeds only at the end of a string. -/
theorem loop_unescapeTurn_returns (henc : encoder.Short) (hf : f.Follows buf s t out)
    (hfuel : t.length < fuel) :
    ∃ buf' e, loop (unescapeTurn encoder s) fuel f = some (buf', e) ∧
      ∀ q ∈ e, ∃ str rest, Unescapes encoder t str rest ∧
        StringRead buf s buf' q (out ++ str) rest := by
  induction fuel generalizing f t out with
  | zero => omega
  | succ fuel ih =>
    cases t with
    | nil => exact ⟨_, none, loop_of_ret (unescapeTurn_end hf) fuel, by simp⟩
    | cons c t =>
      by_cases hc : c = 34
      · subst hc
        obtain ⟨buf', hturn, hread⟩ := @unescapeTurn_close _ _ _ encoder _ _ hf
        refine ⟨buf', some (f.p + 1), loop_of_ret hturn fuel, ?_⟩
        rintro q hq
        obtain rfl := Option.some.inj hq
        exact ⟨[], t, .close t, by rwa [List.append_nil]⟩
      · have hturn := unescapeTurn_follows henc hf hc
        cases hone : unescapeOne encoder c t with
        | none =>
          rw [hone] at hturn
          exact ⟨_, none, loop_of_ret hturn fuel, by simp⟩
        | some r =>
          obtain ⟨bs, u⟩ := r
          rw [hone] at hturn
          obtain ⟨f', hnext, hf'⟩ := hturn
          have hle := (unescapeOne_suffix hone).length_le
          rw [List.length_cons] at hfuel
          obtain ⟨buf', e, hloop, hread⟩ := ih hf' (by omega)
          refine ⟨buf', e, (loop_of_next hnext fuel).trans hloop, fun q hq => ?_⟩
          obtain ⟨str, rest, hstr, hread⟩ := hread q hq
          exact ⟨bs ++ str, rest, .turn hc hone hstr, by rwa [← List.append_assoc]⟩

/-- The loop succeeds on a string. -/
theorem loop_unescapeTurn_of_unescapes (henc : encoder.Short) {str rest : List UInt8}
    (h : Unescapes encoder t str rest) (hf : f.Follows buf s t out) (hfuel : t.length < fuel) :
    ∃ buf' q, loop (unescapeTurn encoder s) fuel f = some (buf', some q) ∧
      StringRead buf s buf' q (out ++ str) rest := by
  induction h generalizing f out fuel with
  | close t =>
    obtain ⟨fuel, rfl⟩ := Nat.exists_eq_add_of_lt hfuel
    obtain ⟨buf', hturn, hread⟩ := @unescapeTurn_close _ _ _ encoder _ _ hf
    refine ⟨buf', f.p + 1, loop_of_ret hturn _, ?_⟩
    rwa [List.append_nil]
  | @turn c t bs u str rest hc hone _ ih =>
    rw [List.length_cons] at hfuel
    obtain ⟨fuel, rfl⟩ := Nat.exists_eq_add_of_lt hfuel
    have hturn := unescapeTurn_follows henc hf hc
    rw [hone] at hturn
    obtain ⟨f', hnext, hf'⟩ := hturn
    have hle := (unescapeOne_suffix hone).length_le
    obtain ⟨buf', q, hloop, hread⟩ := ih hf'
      (show u.length < t.length + 1 + fuel by omega)
    refine ⟨buf', q, (loop_of_next hnext _).trans hloop, ?_⟩
    rwa [← List.append_assoc]

/-- `unescape_string` returns, and succeeds only at a string. -/
theorem unescapeString_returns (henc : encoder.Short) (h : TextAt buf s t)
    (hfuel : t.length < fuel) :
    ∃ buf' e, unescapeString encoder fuel buf s = some (buf', e) ∧
      ∀ q ∈ e, ∃ str rest, Unescapes encoder t str rest ∧ StringRead buf s buf' q str rest :=
  loop_unescapeTurn_returns henc (.enter h) hfuel

/-- `unescape_string` succeeds at a string. -/
theorem unescapeString_of_unescapes (henc : encoder.Short) {str rest : List UInt8}
    (hstr : Unescapes encoder t str rest) (h : TextAt buf s t) (hfuel : t.length < fuel) :
    ∃ buf' q, unescapeString encoder fuel buf s = some (buf', some q) ∧
      StringRead buf s buf' q str rest :=
  loop_unescapeTurn_of_unescapes henc hstr (.enter h) hfuel

end Strings

/-! ### Strings that stay -/

/-- The string at `pos` ends below `q`. -/
def StringBelow (buf : List UInt8) (q pos : ℕ) (str : List UInt8) : Prop :=
  0 ∉ str ∧ ∃ rest, (buf.take q).drop pos = str ++ 0 :: rest

section Below

variable {buf buf' str : List UInt8} {p q pos : ℕ}

/-- What is written from `q` on leaves the strings below `q` alone. -/
theorem StringBelow.mono (h : StringBelow buf p pos str) (htake : buf'.take p = buf.take p)
    (hle : p ≤ q) : StringBelow buf' q pos str := by
  obtain ⟨hstr, rest, hdrop⟩ := h
  have hpos : pos ≤ (buf.take p).length := by
    by_contra hlt
    rw [List.drop_eq_nil_of_le (by omega)] at hdrop
    simp at hdrop
  have hsplit : buf'.take q = buf.take p ++ (buf'.drop p).take (q - p) := by
    rw [← htake, ← List.take_add, Nat.add_sub_cancel' hle]
  refine ⟨hstr, rest ++ (buf'.drop p).take (q - p), ?_⟩
  rw [hsplit, List.drop_append_of_le_length hpos, hdrop]
  simp

/-- A string is read by the functions of the C library. -/
theorem StringBelow.cstr_eq (h : StringBelow buf q pos str) : cstr (buf.drop pos) = str := by
  obtain ⟨hstr, rest, hdrop⟩ := h
  have hsplit : buf.drop pos = str ++ 0 :: (rest ++ buf.drop (max pos q)) := by
    rcases le_total q pos with hle | hle
    · rw [List.drop_eq_nil_of_le (by rw [List.length_take]; omega)] at hdrop
      simp at hdrop
    · rw [max_eq_right hle, ← List.cons_append, ← List.append_assoc, ← hdrop, List.drop_take]
      rw [show buf.drop q = (buf.drop pos).drop (q - pos) by
        rw [List.drop_drop, Nat.add_sub_cancel' hle], List.take_append_drop]
  rw [hsplit, cstr_append_zero hstr]

/-- Of what has been unescaped the C library sees the bytes in front of the first zero. -/
theorem StringRead.below {s : ℕ} {rest : List UInt8} (h : StringRead buf s buf' q str rest)
    (hs : s ≤ buf.length) : StringBelow buf' q s (cstr str) := by
  have hlen : (buf.take s).length = s := by
    rw [List.length_take]
    omega
  obtain ⟨tail, htail⟩ : ∃ tail, str ++ [0] = cstr str ++ 0 :: tail := by
    have hsplit := List.takeWhile_append_dropWhile (p := (· ≠ 0)) (l := str)
    have hhead := List.head?_dropWhile_not (· ≠ 0) str
    cases hrest : str.dropWhile (· ≠ 0) with
    | nil =>
      rw [hrest, List.append_nil] at hsplit
      exact ⟨[], by rw [cstr, hsplit]⟩
    | cons c tail =>
      rw [hrest] at hhead hsplit
      obtain rfl : c = 0 := by simpa using hhead
      refine ⟨tail ++ [0], ?_⟩
      conv_lhs => rw [← hsplit]
      rw [cstr, List.append_assoc, List.cons_append]
  refine ⟨zero_notMem_cstr str, tail ++ (buf'.drop (s + str.length + 1)).take
    (q - (s + str.length + 1)), ?_⟩
  have hsplit : buf'.take q = buf'.take (s + str.length + 1) ++
      (buf'.drop (s + str.length + 1)).take (q - (s + str.length + 1)) := by
    have hlt := h.lt
    rw [← List.take_add, Nat.add_sub_cancel' (by omega)]
  rw [hsplit, h.taken, List.append_assoc, List.append_assoc, List.drop_left' hlen,
    ← List.append_assoc, htail]
  simp

theorem StringRead.take_eq {s : ℕ} {rest : List UInt8} (h : StringRead buf s buf' q str rest)
    (hs : s ≤ buf.length) : buf'.take s = buf.take s := by
  have htaken := congrArg (List.take s) h.taken
  rw [List.take_take, min_eq_left (by omega), List.append_assoc,
    List.take_append_of_le_length (by rw [List.length_take]; omega), List.take_take,
    min_self] at htaken
  exact htaken

end Below

/-! ### Keys -/

section Keys

variable {buf t : List UInt8} {p fuel : ℕ} {encoder : JsonEncoder}

theorem loop_skipWhiteTurn (h : TextAt buf p t) (hfuel : t.length < fuel) :
    loop (skipWhiteTurn buf) fuel p =
      some (p + (t.length - (t.dropWhile isJsonWhitespace).length)) := by
  induction t generalizing p fuel with
  | nil =>
    obtain ⟨fuel, rfl⟩ := Nat.exists_eq_add_of_lt hfuel
    have hturn : skipWhiteTurn buf p = .ret p := by simp [skipWhiteTurn, h.nil, Turn.orFault]
    exact loop_of_ret hturn _
  | cons c t ih =>
    rw [List.length_cons] at hfuel
    obtain ⟨fuel, rfl⟩ := Nat.exists_eq_add_of_lt hfuel
    by_cases hc : isJsonWhitespace c = true
    · have hturn : skipWhiteTurn buf p = .next (p + 1) := by
        simp [skipWhiteTurn, h.cons, h.ne_zero, hc, Turn.orFault]
      have hle := (List.dropWhile_suffix isJsonWhitespace (l := t)).length_le
      rw [loop_of_next hturn, ih h.tail (by omega), List.dropWhile_cons_of_pos hc,
        List.length_cons]
      congr 1
      omega
    · have hturn : skipWhiteTurn buf p = .ret p := by
        simp [skipWhiteTurn, h.cons, hc, Turn.orFault]
      rw [loop_of_ret hturn, List.dropWhile_cons_of_neg hc, Nat.sub_self, Nat.add_zero]

/-- A key that has been read: what is below is as it was, and the string of the key stays. -/
structure KeyRead (buf : List UInt8) (p : ℕ) (buf' : List UInt8) (key : Option ℕ) (q : ℕ)
    (key' : Option (List UInt8)) (rest : List UInt8) : Prop where
  text : TextAt buf' q rest
  length : buf'.length = buf.length
  le : p ≤ q
  take_eq : buf'.take p = buf.take p
  key : Option.Rel (StringBelow buf' q) key key'

theorem KeyRead.of_le {buf' rest : List UInt8} {key : Option ℕ} {q p' : ℕ}
    {key' : Option (List UInt8)} (h : KeyRead buf p' buf' key q key' rest) (hle : p ≤ p') :
    KeyRead buf p buf' key q key' rest where
  text := h.text
  length := h.length
  le := hle.trans h.le
  take_eq := by
    have htake := congrArg (List.take p) h.take_eq
    rwa [List.take_take, List.take_take, min_eq_left hle] at htake
  key := h.key

theorem keyRead_close (h : TextAt buf p (125 :: t)) :
    KeyRead buf p buf none p none (125 :: t) where
  text := h
  length := rfl
  le := le_rfl
  take_eq := rfl
  key := .none

/-- The colon is behind the key. -/
theorem keyRead_key {buf' str u rest : List UInt8} {q : ℕ} (h : TextAt buf p (34 :: t))
    (hread : StringRead buf (p + 1) buf' q str u)
    (hu : u.dropWhile isJsonWhitespace = 58 :: rest) :
    KeyRead buf p buf' (some (p + 1)) (q + (u.length - (rest.length + 1)) + 1) (some (cstr str))
      rest := by
  have hlen := h.length_eq
  rw [List.length_cons] at hlen
  have hlt := hread.lt
  have hcolon : TextAt buf' (q + (u.length - (rest.length + 1))) (58 :: rest) := by
    have hsuffix := hread.text.suffix (hu ▸ List.dropWhile_suffix isJsonWhitespace)
    rwa [List.length_cons] at hsuffix
  constructor
  case text => exact hcolon.tail
  case length => exact hread.length
  case le => omega
  case take_eq =>
    have htake := congrArg (List.take p) (hread.take_eq (by omega))
    rwa [List.take_take, List.take_take, min_eq_left (by omega)] at htake
  case key => exact .some ((hread.below (by omega)).mono rfl (by omega))

/-- The turn of `parse_key` at a quote. -/
theorem parseKeyTurn_string {buf' str u : List UInt8} {q : ℕ} (h : TextAt buf p (34 :: t))
    (hstr : unescapeString encoder fuel buf (p + 1) = some (buf', some q))
    (hread : StringRead buf (p + 1) buf' q str u) (hfuel : u.length < fuel) :
    parseKeyTurn encoder fuel buf p =
      .ret (buf', if (u.dropWhile isJsonWhitespace).head? = some 58 then
        some (some (p + 1), q + (u.length - (u.dropWhile isJsonWhitespace).length) + 1)
        else none) := by
  have hcolon := hread.text.suffix (List.dropWhile_suffix isJsonWhitespace (l := u))
  have hc : (34 : UInt8) ≠ 0 := by decide
  simp only [parseKeyTurn, h.cons, hstr, loop_skipWhiteTurn hread.text hfuel, hcolon.head,
    Option.bind_eq_bind, Option.bind_some, if_neg hc, if_true]
  cases hrest : u.dropWhile isJsonWhitespace with
  | nil =>
    rw [hrest] at hcolon
    have hreport := hcolon.reportError_eq le_rfl
    rw [List.length_nil, Nat.sub_zero] at hreport
    simp [hreport, Turn.orFault]
  | cons d rest =>
    rw [hrest] at hcolon
    by_cases hd : d = 58
    · simp [hd, Turn.orFault]
    · rw [List.length_cons] at hcolon
      simp [hd, hcolon.reportError_eq le_rfl, Turn.orFault]

theorem parseKeyTurn_skip {c : UInt8} (h : TextAt buf p (c :: t))
    (hc : isJsonWhitespace c = true ∨ c = 44) :
    parseKeyTurn encoder fuel buf p = .next (p + 1) := by
  have hquote : c ≠ 34 := by
    rintro rfl
    rcases hc with hc | hc <;> simp [isJsonWhitespace] at hc
  simp only [parseKeyTurn, h.cons, Option.bind_eq_bind, Option.bind_some, if_neg h.ne_zero,
    if_neg hquote, if_pos hc, Turn.orFault, Option.getD_some]

theorem parseKeyTurn_comment (h : TextAt buf p (47 :: t)) (hfuel : t.length < fuel) :
    parseKeyTurn encoder fuel buf p =
      match commentRest t with
      | none => .ret (buf, none)
      | some u => .next (p + 1 + (t.length - u.length)) := by
  have hcomment := skipComment_eq h hfuel
  rw [parseKeyTurn, h.cons]
  simp only [Option.bind_eq_bind, Option.bind_some]
  rw [if_neg (by decide), if_neg (by decide), if_neg (by decide), if_neg (by decide),
    if_true, Nat.add_sub_cancel, hcomment]
  cases commentRest t <;> rfl

theorem parseKeyTurn_close (h : TextAt buf p (125 :: t)) :
    parseKeyTurn encoder fuel buf p = .ret (buf, some (none, p)) := by
  rw [parseKeyTurn, h.cons]
  rfl

/-- `parse_key` returns, and succeeds only at a key or at the end of an object. -/
theorem parseKey_returns (henc : encoder.Short) (h : TextAt buf p t) (hfuel : t.length < fuel) :
    ∃ buf' r, parseKey encoder fuel buf p = some (buf', r) ∧
      ∀ key q, r = some (key, q) → ∃ key' rest, ReadsKey encoder t key' rest ∧
        KeyRead buf p buf' key q key' rest := by
  have hloop : ∀ n p t, TextAt buf p t → t.length < fuel → t.length < n →
      ∃ buf' r, loop (parseKeyTurn encoder fuel buf) n p = some (buf', r) ∧
        ∀ key q, r = some (key, q) → ∃ key' rest, ReadsKey encoder t key' rest ∧
          KeyRead buf p buf' key q key' rest := by
    intro n
    induction n with
    | zero => omega
    | succ n ih =>
      intro p t h hfuel hn
      cases t with
      | nil =>
        have hturn : parseKeyTurn encoder fuel buf p = .ret (buf, none) := by
          simp [parseKeyTurn, h.nil, h.reportError_eq le_rfl, Turn.orFault]
        exact ⟨buf, none, loop_of_ret hturn n, by simp⟩
      | cons c t =>
        rw [List.length_cons] at hfuel hn
        by_cases hquote : c = 34
        · subst hquote
          obtain ⟨buf', e, hstr, hread⟩ :=
            unescapeString_returns henc h.tail (show t.length < fuel by omega)
          cases e with
          | none =>
            have hturn : parseKeyTurn encoder fuel buf p = .ret (buf', none) := by
              have hc : (34 : UInt8) ≠ 0 := by decide
              simp only [parseKeyTurn, h.cons, hstr, Option.bind_eq_bind, Option.bind_some,
                if_neg hc, if_true, Turn.orFault, Option.getD_some]
            exact ⟨buf', none, loop_of_ret hturn n, by simp⟩
          | some q =>
            obtain ⟨str, u, hunescapes, hread⟩ := hread q rfl
            have hle := hunescapes.suffix.length_le
            refine ⟨buf', _, loop_of_ret (parseKeyTurn_string h hstr hread (by omega)) n, ?_⟩
            intro key q' hr
            split_ifs at hr with hcolon
            obtain ⟨rfl, rfl⟩ := Prod.mk.inj (Option.some.inj hr)
            obtain ⟨rest, hrest⟩ : ∃ rest, u.dropWhile isJsonWhitespace = 58 :: rest := by
              cases hdrop : u.dropWhile isJsonWhitespace with
              | nil => simp [hdrop] at hcolon
              | cons d rest => exact ⟨rest, by simp_all⟩
            rw [hrest, List.length_cons]
            exact ⟨_, rest, .key hunescapes hrest, keyRead_key h hread hrest⟩
        by_cases hskip : isJsonWhitespace c = true ∨ c = 44
        · obtain ⟨buf', r, hrun, hr⟩ := ih (p + 1) t h.tail (by omega) (by omega)
          refine ⟨buf', r, (loop_of_next (parseKeyTurn_skip h hskip) n).trans hrun, ?_⟩
          intro key q hkey
          obtain ⟨key', rest, hreads, hread⟩ := hr key q hkey
          exact ⟨key', rest, .skip hskip hreads, hread.of_le (Nat.le_succ p)⟩
        by_cases hclose : c = 125
        · subst hclose
          refine ⟨buf, _, loop_of_ret (parseKeyTurn_close h) n, ?_⟩
          rintro key q hr
          obtain ⟨rfl, rfl⟩ := Prod.mk.inj (Option.some.inj hr)
          exact ⟨none, 125 :: t, .close t, keyRead_close h⟩
        by_cases hslash : c = 47
        · subst hslash
          have hturn := @parseKeyTurn_comment _ _ _ _ encoder h (show t.length < fuel by omega)
          cases hrest : commentRest t with
          | none =>
            rw [hrest] at hturn
            exact ⟨buf, none, loop_of_ret hturn n, by simp⟩
          | some u =>
            rw [hrest] at hturn
            have hsuffix := commentRest_suffix hrest
            have hle := hsuffix.length_le
            obtain ⟨buf', r, hrun, hr⟩ := ih _ u (h.tail.suffix hsuffix) (by omega) (by omega)
            refine ⟨buf', r, (loop_of_next hturn n).trans hrun, ?_⟩
            intro key q hkey
            obtain ⟨key', rest, hreads, hread⟩ := hr key q hkey
            exact ⟨key', rest, .comment hrest hreads, hread.of_le (by omega)⟩
        · have hturn : parseKeyTurn encoder fuel buf p = .ret (buf, none) := by
            simp only [parseKeyTurn, h.cons, Option.bind_eq_bind, Option.bind_some,
              if_neg h.ne_zero, if_neg hquote, if_neg hskip, if_neg hclose, if_neg hslash,
              Nat.add_sub_cancel, h.reportError_eq le_rfl, Turn.orFault, Option.getD_some]
          exact ⟨buf, none, loop_of_ret hturn n, by simp⟩
  exact hloop fuel p t h hfuel hfuel

/-- `parse_key` succeeds at a key, and at the end of an object. -/
theorem parseKey_of_readsKey (henc : encoder.Short) {key' : Option (List UInt8)}
    {rest : List UInt8} (hkey : ReadsKey encoder t key' rest) (h : TextAt buf p t)
    (hfuel : t.length < fuel) :
    ∃ buf' key q, parseKey encoder fuel buf p = some (buf', some (key, q)) ∧
      KeyRead buf p buf' key q key' rest := by
  have hloop : ∀ n p, TextAt buf p t → t.length < fuel → t.length < n →
      ∃ buf' key q, loop (parseKeyTurn encoder fuel buf) n p = some (buf', some (key, q)) ∧
        KeyRead buf p buf' key q key' rest := by
    clear h hfuel
    intro n p h hfuel hn
    induction hkey generalizing n p with
    | @skip c t rest key' hc _ ih =>
      rw [List.length_cons] at hfuel hn
      obtain ⟨n, rfl⟩ := Nat.exists_eq_add_of_lt hn
      obtain ⟨buf', key, q, hrun, hread⟩ := ih (t.length + 1 + n) (p + 1) h.tail (by omega)
        (by omega)
      exact ⟨buf', key, q, (loop_of_next (parseKeyTurn_skip h hc) _).trans hrun,
        hread.of_le (Nat.le_succ p)⟩
    | @comment t u rest key' hc _ ih =>
      rw [List.length_cons] at hfuel hn
      obtain ⟨n, rfl⟩ := Nat.exists_eq_add_of_lt hn
      have hturn := @parseKeyTurn_comment _ _ _ _ encoder h (show t.length < fuel by omega)
      rw [hc] at hturn
      have hsuffix := commentRest_suffix hc
      have hle := hsuffix.length_le
      obtain ⟨buf', key, q, hrun, hread⟩ := ih (t.length + 1 + n) _ (h.tail.suffix hsuffix)
        (by omega) (by omega)
      exact ⟨buf', key, q, (loop_of_next hturn _).trans hrun, hread.of_le (by omega)⟩
    | close t =>
      obtain ⟨n, rfl⟩ := Nat.exists_eq_add_of_lt hn
      exact ⟨buf, none, p, loop_of_ret (parseKeyTurn_close h) _, keyRead_close h⟩
    | @key t str u rest hstr hu =>
      rw [List.length_cons] at hfuel hn
      obtain ⟨n, rfl⟩ := Nat.exists_eq_add_of_lt hn
      obtain ⟨buf', q, hrun, hread⟩ :=
        unescapeString_of_unescapes henc hstr h.tail (show t.length < fuel by omega)
      have hle := hstr.suffix.length_le
      have hturn := parseKeyTurn_string h hrun hread (by omega)
      rw [hu, List.head?_cons, if_pos rfl, List.length_cons] at hturn
      exact ⟨buf', _, _, loop_of_ret hturn _, keyRead_key h hread hu⟩
  exact hloop fuel p h hfuel hfuel

end Keys

end Nxweb
