import Nxweb.Http.RequestLength
import Nxweb.Lib.Region

/-!
# The accepted encodings

`_nxweb_parse_http_request` (`http_utils.c`) looks for `gzip` in the last `Accept-Encoding` header. The
loop over `g` begins at the value and goes on at the next `g` behind the byte that has been looked
at. It is modelled in memory: behind the value there is its terminator, and behind that what the
parser has left of the other headers, or what was received after them.

If the value is empty, the first byte that is looked at is the terminator. The loop goes on behind it
and takes the flag from there.

## Main definitions

* `gzipSearch`: the loop;
* `parseHttpRequestIn`: the parser, with the bytes behind the value;
* `HasGzipToken`: what the flag stands for.

## Main results

* `gzipNegotiated_iff`: the flag is that of the value, from its bytes only, if and only if the value
  is not empty.
-/

namespace Nxweb

open Lib Traced

/-! ### The loop -/

/-- What `strncmp` of the string at a position and another one compares up to the end of that one. -/
def startsWith (mem : List UInt8) : ℕ → List UInt8 → Traced Bool
  | _, [] => return true
  | p, c :: cs => do
    let x ← Traced.read mem p
    if x = c then startsWith mem (p + 1) cs else return false

/-- The bytes `,` and the space. -/
def isDelimiter (c : UInt8) : Bool := c = 44 ∨ c = space

/-- A word may begin here, in the string at the beginning of the memory. -/
def beginsAt (mem : List UInt8) (g : ℕ) : Traced Bool :=
  if g = 0 then return true else return isDelimiter (← Traced.read mem (g - 1))

/-- The condition of the loop. -/
def gzipToken (mem : List UInt8) (g : ℕ) : Traced Bool := do
  if ← startsWith mem g (bytes "gzip") then
    if ← beginsAt mem g then
      let c ← Traced.read mem (g + 4)
      return c = 0 ∨ isDelimiter c
    else return false
  else return false

/-- `for (g=req->accept_encoding; g; g=strchr(g+1, 'g'))`, at most as many times as given. -/
def gzipSearch (mem : List UInt8) : ℕ → ℕ → Traced Bool
  | 0, _ => .fail
  | fuel + 1, g => do
    if ← gzipToken mem g then return true
    else
      match ← strchr mem (g + 1) 103 with
      | none => return false
      | some g => gzipSearch mem fuel g

/-- `accept_gzip_encoding`, where `behind` lies behind the terminator of the value. -/
def acceptGzipEncoding (behind : List UInt8) : Option (List UInt8) → Traced Bool
  | none => return false
  | some value => gzipSearch (value ++ 0 :: behind) (value.length + behind.length + 1) 0

/-- `_nxweb_parse_http_request`, with the loop over `g` in memory. -/
def parseHttpRequestIn (behind block : List UInt8) : Traced (Except ℤ RequestFields) :=
  match parseHttpRequest block with
  | .error code => return .error code
  | .ok req => do
    let acceptGzipEncoding ← acceptGzipEncoding behind req.acceptEncoding
    return .ok { req with acceptGzipEncoding }

/-! ### The token -/

/-- The value has the token between these two texts. -/
structure GzipToken (value front behind : List UInt8) : Prop where
  text_eq : value = front ++ bytes "gzip" ++ behind
  begins : ∀ c ∈ front.getLast?, isDelimiter c
  ends : ∀ c ∈ behind.head?, isDelimiter c

def HasGzipToken (value : List UInt8) : Prop := ∃ front behind, GzipToken value front behind

/-- The token is at this position. -/
def GzipAt (value : List UInt8) (i : ℕ) : Prop :=
  bytes "gzip" <+: value.drop i ∧ (∀ c ∈ (value.take i).getLast?, isDelimiter c) ∧
    ∀ c ∈ value[i + 4]?, isDelimiter c

instance (value : List UInt8) (i : ℕ) : Decidable (GzipAt value i) :=
  inferInstanceAs (Decidable (_ ∧ _ ∧ _))

theorem GzipAt.add_le {value : List UInt8} {i : ℕ} (h : GzipAt value i) :
    i + 4 ≤ value.length := by
  have hlen := h.1.length_le
  rw [List.length_drop, show (bytes "gzip").length = 4 from rfl] at hlen
  omega

theorem hasGzipToken_iff {value : List UInt8} : HasGzipToken value ↔ ∃ i, GzipAt value i := by
  constructor
  · rintro ⟨front, behind, rfl, hbegins, hends⟩
    refine ⟨front.length, ?_, ?_, ?_⟩
    · rw [List.append_assoc, List.drop_left]
      exact List.prefix_append _ _
    · rwa [List.append_assoc, List.take_left]
    · have hlen : front.length + 4 = (front ++ bytes "gzip").length := by
        rw [List.length_append]
        rfl
      rwa [hlen, ← List.head?_drop, List.drop_left]
  · rintro ⟨i, hat⟩
    obtain ⟨hocc, hbegins, hends⟩ := hat
    refine ⟨value.take i, value.drop (i + 4), ?_, hbegins, ?_⟩
    · have hdrop := List.prefix_iff_eq_append.mp hocc
      rw [show (bytes "gzip").length = 4 from rfl, List.drop_drop] at hdrop
      rw [List.append_assoc, hdrop, List.take_append_drop]
    · rwa [List.head?_drop]

theorem forall_isDelimiter_iff {c : Option UInt8} :
    (∀ x ∈ c, isDelimiter x) ↔ c = none ∨ c = some 44 ∨ c = some 32 := by
  cases c with
  | none => simp
  | some x => simp [isDelimiter, space]

/-- The condition on the bytes of the value. -/
theorem gzipAt_iff {value : List UInt8} {i : ℕ} (hi : i < value.length) :
    GzipAt value i ↔ (value.drop i).take 4 = bytes "gzip" ∧
      (i = 0 ∨ value[i - 1]? = some 44 ∨ value[i - 1]? = some 32) ∧
      (value[i + 4]? = none ∨ value[i + 4]? = some 44 ∨ value[i + 4]? = some 32) := by
  rw [GzipAt, List.prefix_iff_eq_take, eq_comm, forall_isDelimiter_iff, forall_isDelimiter_iff]
  refine and_congr_right fun _ => and_congr_left fun _ => ?_
  rw [List.getLast?_take]
  by_cases hzero : i = 0
  · simp [hzero]
  · have hbefore : value[i - 1]? = some value[i - 1] := List.getElem?_eq_getElem (by omega)
    simp [hzero, hbefore]

/-- The flag of the parser says whether the value has the token. -/
theorem acceptsGzip_iff {value : List UInt8} : acceptsGzip value = true ↔ HasGzipToken value := by
  rw [hasGzipToken_iff, acceptsGzip, List.any_eq_true]
  constructor
  · rintro ⟨i, hi, hat⟩
    exact ⟨i, (gzipAt_iff (List.mem_range.mp hi)).mpr (by simpa using hat)⟩
  · rintro ⟨i, hat⟩
    have hi : i < value.length := by
      have := hat.add_le
      omega
    exact ⟨i, List.mem_range.mpr hi, by simpa using (gzipAt_iff hi).mp hat⟩

/-! ### The loop on a value -/

section Search

variable {value : List UInt8} {g : ℕ}

theorem yields_startsWith {n p : ℕ} {own : List UInt8} (h : Terminated 0 n own) (hp : p ≤ n)
    {pat : List UInt8} (hpat : 0 ∉ pat) :
    Yields n (fun behind => startsWith (own ++ behind) p pat) fun _ => decide (pat <+: own.drop p) := by
  induction pat generalizing p with
  | nil =>
    simp only [List.nil_prefix, decide_true]
    exact yields_pure n _
  | cons c cs ih =>
    obtain ⟨x, hx⟩ := h.exists_getElem? hp
    obtain ⟨hlt, hget⟩ := List.getElem?_eq_some_iff.mp hx
    have hdrop : own.drop p = x :: own.drop (p + 1) := by
      rw [List.drop_eq_getElem_cons hlt, hget]
    refine (h.yields_read hp hx).bind ?_
    rw [hdrop]
    by_cases hxc : x = c
    · -- a character that is not the terminator
      have hne : p ≠ n := by
        rintro rfl
        have hzero := Option.some.inj (hx.symm.trans h.last_eq)
        exact hpat (by simp [← hxc, hzero])
      have hcs : 0 ∉ cs := fun hmem => hpat (List.mem_cons_of_mem c hmem)
      simp only [hxc, List.cons_prefix_cons, true_and]
      exact ih (by omega) hcs
    · simp only [if_neg hxc, List.cons_prefix_cons, Ne.symm hxc, false_and, decide_false]
      exact yields_pure n _

theorem yields_beginsAt {n : ℕ} {own : List UInt8} (h : Terminated 0 n own) (hg : g ≤ n) :
    Yields n (fun behind => beginsAt (own ++ behind) g)
      fun _ => decide (∀ c ∈ (own.take g).getLast?, isDelimiter c) := by
  unfold beginsAt
  by_cases hzero : g = 0
  · simp only [hzero, if_true, List.take_zero, List.getLast?_nil, Option.not_mem_none,
      false_implies, implies_true, decide_true]
    exact yields_pure n _
  · obtain ⟨c, hc⟩ := h.exists_getElem? (p := g - 1) (by omega)
    have hlast : (own.take g).getLast? = some c := by
      rw [List.getLast?_take, if_neg hzero, hc, Option.some_or]
    simp only [if_neg hzero, hlast, Option.mem_some, forall_eq', Bool.decide_eq_true]
    exact (h.yields_read (by omega) hc).bind (yields_pure n _)

/-- The terminator ends a word as well. -/
theorem ends_iff {i : ℕ} {c : UInt8} (hzero : 0 ∉ value) (hc : (value ++ [0])[i]? = some c) :
    c = 0 ∨ isDelimiter c ↔ ∀ c ∈ value[i]?, isDelimiter c := by
  rcases Nat.lt_or_ge i value.length with hlt | hge
  · rw [List.getElem?_append_left hlt] at hc
    have hne : c ≠ 0 := fun h => hzero (h ▸ List.mem_of_getElem? hc)
    simp [hc, hne]
  · rw [List.getElem?_append_right hge] at hc
    have hterminator : c = 0 := List.mem_singleton.mp (List.mem_of_getElem? hc)
    simp [hterminator, List.getElem?_eq_none hge]

/-- In the memory the condition is that of the value. -/
theorem yields_gzipToken (hzero : 0 ∉ value) (hg : g ≤ value.length) :
    Yields value.length (fun behind => gzipToken (value ++ 0 :: behind) g)
      fun _ => decide (GzipAt value g) := by
  have h := Terminated.append_singleton 0 value
  have hdrop : (value ++ [0]).drop g = value.drop g ++ [0] := List.drop_append_of_le_length hg
  have htake : (value ++ [0]).take g = value.take g := List.take_append_of_le_length hg
  -- the terminator is not part of the word
  have hocc : bytes "gzip" <+: (value ++ [0]).drop g ↔ bytes "gzip" <+: value.drop g := by
    rw [hdrop, List.prefix_concat_iff, or_iff_right]
    intro heq
    exact absurd (heq ▸ List.mem_append_right _ (List.mem_singleton_self 0)) (by decide)
  have hnul : 0 ∉ bytes "gzip" := by decide
  have hword := yields_startsWith h (by simpa using hg) hnul
  have hbegins := yields_beginsAt h (g := g) (by simpa using hg)
  simp only [List.append_assoc, List.singleton_append, hocc, htake] at hword hbegins
  refine hword.bind ?_
  by_cases hpos : bytes "gzip" <+: value.drop g
  · simp only [hpos, decide_true, if_true]
    refine hbegins.bind ?_
    by_cases hdelim : ∀ c ∈ (value.take g).getLast?, isDelimiter c
    · have hlen := hpos.length_le
      rw [List.length_drop, show (bytes "gzip").length = 4 from rfl] at hlen
      have hend : g + 4 ≤ value.length := by omega
      obtain ⟨c, hc⟩ := h.exists_getElem? hend
      have hread := h.yields_read hend hc
      simp only [List.append_assoc, List.singleton_append] at hread
      have hiff : c = 0 ∨ isDelimiter c ↔ GzipAt value g := by
        rw [GzipAt, and_iff_right hpos, and_iff_right hdelim]
        exact ends_iff hzero hc
      simp only [decide_eq_true hdelim, if_true, ← hiff]
      exact hread.bind (yields_pure _ _)
    · have hnot : ¬ GzipAt value g := fun hat => hdelim hat.2.1
      simp only [decide_eq_false hdelim, Bool.false_eq_true, if_false, hnot, decide_false]
      exact yields_pure _ _
  · have hnot : ¬ GzipAt value g := fun hat => hpos hat.1
    simp only [hpos, hnot, decide_false, Bool.false_eq_true, if_false]
    exact yields_pure _ _

theorem GzipAt.getElem?_eq (h : GzipAt value g) : value[g]? = some 103 := by
  obtain ⟨rest, hrest⟩ := h.1
  rw [← List.head?_drop, ← hrest]
  rfl

/-- The search goes on at the next `g`, and finds the token there or further on. -/
theorem yields_gzipSearch (hzero : 0 ∉ value) {fuel : ℕ} (hg : g < value.length)
    (hfuel : value.length - g ≤ fuel) :
    Yields value.length (fun behind => gzipSearch (value ++ 0 :: behind) fuel g)
      fun _ => decide (∃ i < value.length, g ≤ i ∧ GzipAt value i) := by
  induction fuel generalizing g with
  | zero => omega
  | succ fuel ih =>
    refine (yields_gzipToken hzero hg.le).bind ?_
    by_cases hat : GzipAt value g
    · have hex : ∃ i < value.length, g ≤ i ∧ GzipAt value i := ⟨g, hg, le_rfl, hat⟩
      simp only [decide_eq_true hat, if_true, decide_eq_true hex]
      exact yields_pure _ _
    simp only [decide_eq_false hat, Bool.false_eq_true, if_false]
    obtain ⟨q, hpq, hqn, hstop, hbefore, hsearch⟩ :=
      (Terminated.append_singleton 0 value).yields_strchr (p := g + 1) hg 103
    simp only [List.append_assoc, List.singleton_append] at hsearch
    -- there is no token in front of what is found
    have hnext : (∃ i < value.length, g ≤ i ∧ GzipAt value i) ↔
        ∃ i < value.length, q ≤ i ∧ GzipAt value i := by
      refine ⟨fun ⟨i, hi, hgi, htoken⟩ => ⟨i, hi, ?_, htoken⟩,
        fun ⟨i, hi, hqi, htoken⟩ => ⟨i, hi, by omega, htoken⟩⟩
      by_contra hlt
      have hne : g ≠ i := by
        rintro rfl
        exact hat htoken
      apply hbefore i (by omega) (by omega)
      rw [List.getElem?_append_left hi, htoken.getElem?_eq]
    simp only [hnext]
    refine hsearch.bind ?_
    by_cases hfound : (value ++ [0])[q]? = some 103
    · have hlt : q < value.length := by
        refine lt_of_le_of_ne hqn fun heq => ?_
        rw [heq, List.getElem?_concat_length] at hfound
        exact absurd hfound (by decide)
      simp only [if_pos hfound]
      exact ih hlt (by omega)
    · -- the terminator is reached
      have hend : q = value.length := by
        by_contra hne
        have hval := hstop.resolve_left hfound
        rw [List.getElem?_append_left (by omega)] at hval
        exact hzero (List.mem_of_getElem? hval)
      have hnone : ¬ ∃ i < value.length, q ≤ i ∧ GzipAt value i := by
        rintro ⟨i, hi, hqi, -⟩
        omega
      simp only [if_neg hfound, decide_eq_false hnone]
      exact yields_pure _ _

/-- On a value that is not empty, the loop looks for the token, and stays in front of the
terminator. -/
theorem yields_acceptGzipEncoding (hzero : 0 ∉ value) (hne : value ≠ []) (behind : List UInt8) :
    (acceptGzipEncoding behind (some value)).Within value.length ∧
      ∃ found, (acceptGzipEncoding behind (some value)).result = some found ∧
        (found = true ↔ HasGzipToken value) := by
  have hpos := List.length_pos_of_ne_nil hne
  have hfuel : value.length - 0 ≤ value.length + behind.length + 1 := by omega
  obtain ⟨hwithin, hresult⟩ := yields_gzipSearch hzero hpos hfuel behind
  refine ⟨hwithin, _, hresult, ?_⟩
  rw [decide_eq_true_iff, hasGzipToken_iff]
  constructor
  · rintro ⟨i, -, -, hat⟩
    exact ⟨i, hat⟩
  · rintro ⟨i, hat⟩
    have := hat.add_le
    exact ⟨i, by omega, Nat.zero_le i, hat⟩

end Search

/-! ### The value in the request -/

/-- What the last `Accept-Encoding` header has for its value. -/
def lastAcceptEncoding (block : List UInt8) : Option (List UInt8) :=
  (lastField .acceptEncoding block).map HeaderField.text

theorem parseHttpRequest_acceptEncoding {block : List UInt8} {req : RequestFields}
    (h : parseHttpRequest block = .ok req) : req.acceptEncoding = lastAcceptEncoding block := by
  obtain ⟨p, method, -, -, -, -, hnone, rfl⟩ := parseHttpRequest_eq_ok h
  have hlast := foldl_acceptEncoding_eq p (requestFields block)
  rw [hnone] at hlast
  simp only [RequestParser.finish, hlast, lastAcceptEncoding, lastField]
  cases ((requestFields block).filter
    fun f => identifyHttpHeader f.name = .acceptEncoding).getLast? <;> rfl

theorem mem_of_mem_splitOnByte {sep c : UInt8} {s line : List UInt8}
    (hline : line ∈ splitOnByte sep s) (hc : c ∈ line) : c ∈ s := by
  induction s generalizing line with
  | nil =>
    rw [splitOnByte, List.mem_singleton] at hline
    exact absurd (hline ▸ hc) List.not_mem_nil
  | cons d ds ih =>
    rw [splitOnByte] at hline
    split_ifs at hline with hd
    · rcases List.mem_cons.mp hline with rfl | hline
      · exact absurd hc List.not_mem_nil
      · exact List.mem_cons_of_mem d (ih hline hc)
    · split at hline
      · rw [List.mem_singleton.mp hline, List.mem_singleton] at hc
        exact hc ▸ List.mem_cons_self
      · rename_i l ls hsplit
        rcases List.mem_cons.mp hline with rfl | hline
        · -- the line to which the byte has been added
          rcases List.mem_cons.mp hc with rfl | hc
          · exact List.mem_cons_self
          · exact List.mem_cons_of_mem d (ih (hsplit ▸ List.mem_cons_self) hc)
        · exact List.mem_cons_of_mem d (ih (hsplit ▸ List.mem_cons_of_mem l hline) hc)

theorem mem_of_mem_truncSpace {c : UInt8} {s : List UInt8} (hc : c ∈ truncSpace s) : c ∈ s :=
  (List.dropWhile_suffix _).subset ((List.rdropWhile_prefix _ _).subset hc)

/-- The lines are those of a string. -/
theorem zero_notMem_text {block : List UInt8} : ∀ f ∈ requestFields block, 0 ∉ f.text := by
  refine forall_mem_requestFields fun r h line hline => ?_
  have hzero : 0 ∉ line := fun hmem =>
    zero_notMem_cstr _ (mem_of_mem_splitOnByte hline hmem)
  unfold LineReader.line
  split
  · split
    · rename_i f fs _ hfields
      rw [hfields] at h
      obtain ⟨hf, hfs⟩ := List.forall_mem_cons.mp h
      refine List.forall_mem_cons.mpr ⟨?_, hfs⟩
      rw [HeaderField.text, ← List.append_assoc]
      exact List.not_mem_append hf hzero
    · exact h
  · split
    · exact h
    · rename_i name value hsplit
      refine List.forall_mem_cons.mpr ⟨?_, h⟩
      rw [HeaderField.text, List.append_nil]
      intro hmem
      apply hzero
      rw [(splitAtByte_eq_some_iff.mp hsplit).1]
      exact List.mem_append_right _ (List.mem_cons_of_mem _ (mem_of_mem_truncSpace hmem))

/-- The parser, where it accepts the request. -/
theorem parseHttpRequestIn_of_ok {block : List UInt8} {req : RequestFields}
    (h : parseHttpRequest block = .ok req) (behind : List UInt8) :
    parseHttpRequestIn behind block = do
      let acceptGzipEncoding ← acceptGzipEncoding behind (lastAcceptEncoding block)
      return .ok { req with acceptGzipEncoding } := by
  rw [← parseHttpRequest_acceptEncoding h, parseHttpRequestIn, h]

theorem parseHttpRequest_acceptGzipEncoding {block : List UInt8} {req : RequestFields}
    (h : parseHttpRequest block = .ok req) :
    req.acceptGzipEncoding = (lastAcceptEncoding block).any acceptsGzip := by
  rw [← parseHttpRequest_acceptEncoding h]
  obtain ⟨p, method, -, -, -, -, -, rfl⟩ := parseHttpRequest_eq_ok h
  rfl

theorem zero_notMem_lastAcceptEncoding {block value : List UInt8}
    (h : lastAcceptEncoding block = some value) : 0 ∉ value := by
  obtain ⟨f, hf, rfl⟩ := Option.map_eq_some_iff.mp h
  exact zero_notMem_text f (List.mem_of_mem_filter (List.mem_of_getLast? hf))

/-- A value that is not empty has its own flag. -/
theorem result_acceptGzipEncoding_of_ne_nil {value : List UInt8} (hzero : 0 ∉ value)
    (hne : value ≠ []) (behind : List UInt8) :
    (acceptGzipEncoding behind (some value)).result = some (acceptsGzip value) := by
  obtain ⟨-, found, hresult, hfound⟩ := yields_acceptGzipEncoding hzero hne behind
  rw [hresult, Bool.eq_iff_iff.mpr (hfound.trans acceptsGzip_iff.symm)]

/-- Where the value is not empty, what lies behind it does not matter. -/
theorem result_parseHttpRequestIn {block : List UInt8} (hne : lastAcceptEncoding block ≠ some [])
    (behind : List UInt8) :
    (parseHttpRequestIn behind block).result = some (parseHttpRequest block) := by
  cases hparse : parseHttpRequest block with
  | error code => rw [parseHttpRequestIn, hparse, result_pure]
  | ok req =>
    rw [parseHttpRequestIn_of_ok hparse, result_bind]
    have hflag := parseHttpRequest_acceptGzipEncoding hparse
    cases hlast : lastAcceptEncoding block with
    | none =>
      have hfalse : req.acceptGzipEncoding = false := by rw [hflag, hlast, Option.any_none]
      rw [acceptGzipEncoding, result_pure, Option.bind_some, result_pure, ← hfalse]
    | some value =>
      have hresult := result_acceptGzipEncoding_of_ne_nil (zero_notMem_lastAcceptEncoding hlast)
        (fun h => hne (hlast.trans (congrArg some h))) behind
      have heq : acceptsGzip value = req.acceptGzipEncoding := by
        rw [hflag, hlast, Option.any_some]
      rw [hresult, Option.bind_some, result_pure, heq]

/-! ### The result -/

/-- The flag says whether the value of the last `Accept-Encoding` header has the token, and nothing
behind the terminator of the value is looked at. -/
def GzipNegotiated (behind block : List UInt8) : Prop :=
  ∃ req, (parseHttpRequestIn behind block).result = some (.ok req) ∧
    (req.acceptGzipEncoding = true ↔ ∃ value ∈ lastAcceptEncoding block, HasGzipToken value) ∧
    (parseHttpRequestIn behind block).Within ((lastAcceptEncoding block).getD []).length

/-- Where the value is empty, the search goes on behind its terminator. -/
theorem mem_accessed_acceptGzipEncoding (behind : List UInt8) :
    1 ∈ (acceptGzipEncoding behind (some [])).accessed := by
  have hzero : (0 : UInt8) ∉ ([] : List UInt8) := List.not_mem_nil
  have hnot : (gzipToken ([] ++ 0 :: behind) 0).result = some false :=
    (yields_gzipToken hzero le_rfl behind).2
  rw [acceptGzipEncoding, gzipSearch, accessed_bind_of_some hnot]
  apply List.mem_append_right
  exact mem_accessed_bind (mem_accessed_bind (mem_accessed_scanFrom _ _ _) _) _

/-- Whatever lies behind the value, the flag of a request that is accepted is that of the value, from
its bytes only, if and only if the value is not empty. -/
theorem gzipNegotiated_iff {block : List UInt8} {req : RequestFields}
    (h : parseHttpRequest block = .ok req) (behind : List UInt8) :
    GzipNegotiated behind block ↔ lastAcceptEncoding block ≠ some [] := by
  rw [GzipNegotiated, parseHttpRequestIn_of_ok h]
  cases hlast : lastAcceptEncoding block with
  | none =>
    -- nothing is looked at
    refine ⟨fun _ => by simp, fun _ => ⟨_, rfl, by simp, ?_⟩⟩
    exact (within_pure _ _).bind fun _ _ => within_pure _ _
  | some value =>
    constructor
    · rintro ⟨-, -, -, hwithin⟩ hempty
      obtain rfl := Option.some.inj hempty
      have hle := hwithin 1 (mem_accessed_bind (mem_accessed_acceptGzipEncoding behind) _)
      simp at hle
    · intro hne
      obtain ⟨hwithin, found, hresult, hfound⟩ := yields_acceptGzipEncoding
        (zero_notMem_lastAcceptEncoding hlast) (fun h => hne (congrArg some h)) behind
      refine ⟨{ req with acceptGzipEncoding := found }, ?_, ?_, ?_⟩
      · rw [result_bind, hresult]
        rfl
      · simpa using hfound
      · exact hwithin.bind fun _ _ => within_pure _ _

/-- A request with two encodings. -/
def twoEncodings : List UInt8 := bytes "GET / HTTP/1.1\r\nHost: a\r\nAccept-Encoding: br, gzip"

theorem gzipNegotiated_twoEncodings :
    ∃ req, parseHttpRequest twoEncodings = .ok req ∧ GzipNegotiated [] twoEncodings := by
  cases hparse : parseHttpRequest twoEncodings with
  | error code =>
    have hok : (parseHttpRequest twoEncodings).isOk = true := by decide +kernel
    rw [hparse] at hok
    contradiction
  | ok req => exact ⟨req, rfl, (gzipNegotiated_iff hparse []).mpr (by decide +kernel)⟩

theorem not_hasGzipToken_nil : ¬ HasGzipToken [] := by
  rintro ⟨front, behind, heq, -, -⟩
  have hlen := congrArg List.length heq
  rw [List.length_append, List.length_append, show (bytes "gzip").length = 4 from rfl,
    List.length_nil] at hlen
  omega

/-- A request that accepts no encoding, with its body. -/
def emptyEncodings : List UInt8 :=
  bytes "POST / HTTP/1.1\r\nHost: a\r\nContent-Length: 8\r\nAccept-Encoding:\r\n\r\na,gzip,b"

/-- The flag is set for what the body says. -/
theorem gzipNegotiation_emptyEncodings :
    findEndOfHttpHeaders emptyEncodings = some (61, 65) ∧
      ∃ req, (parseHttpRequestIn (emptyEncodings.drop 62 ++ [0]) (emptyEncodings.take 61)).result =
          some (.ok req) ∧
        req.acceptGzipEncoding = true ∧
        ¬ ∃ value ∈ lastAcceptEncoding (emptyEncodings.take 61), HasGzipToken value := by
  have hflag : (parseHttpRequestIn (emptyEncodings.drop 62 ++ [0])
      (emptyEncodings.take 61)).result.map (·.toOption.map (·.acceptGzipEncoding)) =
      some (some true) := by
    decide +kernel
  obtain ⟨parsed, hparsed, hsome⟩ := Option.map_eq_some_iff.mp hflag
  refine ⟨by decide +kernel, ?_⟩
  cases parsed with
  | error code => cases hsome
  | ok req =>
    refine ⟨req, hparsed, Option.some.inj hsome, ?_⟩
    have hempty : lastAcceptEncoding (emptyEncodings.take 61) = some [] := by decide +kernel
    rw [hempty]
    rintro ⟨value, hvalue, htoken⟩
    obtain rfl := Option.some.inj hvalue
    exact not_hasGzipToken_nil htoken

end Nxweb
