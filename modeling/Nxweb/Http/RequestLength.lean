import Nxweb.Http.RequestText

/-!
# The length of a request body

`_nxweb_parse_http_request` takes the length of the body from the last `Content-Length` header with
`atol`, and does not look at the result. `-1` means that the length is not known. If the last
`Transfer-Encoding` header is `chunked`, the length is set to `-1` in the end.

The value of a header includes the lines that continue it. `atol` is called before they are read.

Other requests keep their length if and only if the number is one that the length can take, and
is not left to a line that continues the header (`contentLength_kept_iff`).
-/

namespace Nxweb

open Lib

section Fold

variable {σ α β : Type*}

/-- What only certain elements set is set by the last of them. -/
theorem foldl_last {f : σ → β → σ} {g : σ → α} {p : β → Bool} {v : β → α}
    (hset : ∀ s b, p b = true → g (f s b) = v b) (hkeep : ∀ s b, p b = false → g (f s b) = g s)
    (s : σ) (l : List β) : g (l.foldl f s) = (l.filter p).getLast?.elim (g s) v := by
  induction l using List.reverseRecOn with
  | nil => rfl
  | append_singleton l b ih =>
    rw [List.foldl_append, List.filter_append]
    cases hb : p b with
    | true => simp [hb, hset]
    | false => simp [hb, hkeep, ih]

end Fold

/-- The headers of a request. -/
def requestFields (block : List UInt8) : List HeaderField := readHeaderLines (splitFirstLine block).2

/-- The last header with a name. -/
def lastField (id : HeaderName) (block : List UInt8) : Option HeaderField :=
  ((requestFields block).filter fun f => identifyHttpHeader f.name = id).getLast?

/-- The last `Transfer-Encoding` header is `chunked`. -/
def RequestsChunked (block : List UInt8) : Prop :=
  (lastField .transferEncoding block).any fun f => strcaseEq f.text (bytes "chunked")

/-- The number in the last `Content-Length` header, `0` if there is none. -/
def declaredLength (block : List UInt8) : ℤ :=
  (lastField .contentLength block).elim 0 fun f => leadingNumber f.text

/-- The length of a body is `-1` if it is chunked. Otherwise it is the length that the request
declares, which is not negative. -/
def LengthKept (block : List UInt8) (req : RequestFields) : Prop :=
  (req.contentLength = -1 ↔ req.chunkedEncoding = true) ∧
    (req.chunkedEncoding = false → 0 ≤ req.contentLength ∧ req.contentLength = declaredLength block)

/-- The number is one that the length can take, and stands on the line of the header. -/
def HeaderField.Countable (f : HeaderField) : Prop :=
  0 ≤ leadingNumber f.value ∧ leadingNumber f.value < 2 ^ 63 ∧
    (f.value = [] → leadingNumber f.cont = 0)

/-- What each pass of the loop over the lines keeps. -/
theorem forall_mem_requestFields {P : HeaderField → Prop} {block : List UInt8}
    (hline : ∀ r : LineReader, (∀ f ∈ r.fields, P f) →
      ∀ line ∈ splitOnByte lf (cstr (splitFirstLine block).2), ∀ f ∈ (r.line line).fields, P f) :
    ∀ f ∈ requestFields block, P f := by
  have hfold : ∀ f ∈ ((splitOnByte lf (cstr (splitFirstLine block).2)).foldl LineReader.line
      {}).fields, P f := by
    apply List.foldlRecOn (motive := fun r : LineReader => ∀ f ∈ r.fields, P f)
    · simp
    · exact hline
  exact fun f hf => hfold f (List.mem_reverse.mp hf)

/-! ### What the parser computes -/

/-- The two fields that the length depends on are set by the last header of their name. -/
theorem foldl_contentLength_eq (p : RequestParser) (fs : List HeaderField) :
    (fs.foldl RequestParser.header p).req.contentLength =
      (fs.filter fun f => identifyHttpHeader f.name = .contentLength).getLast?.elim
        p.req.contentLength fun f => atol f.value := by
  refine foldl_last (g := fun p : RequestParser => p.req.contentLength) (fun p f hf => ?_)
    (fun p f hf => ?_) p fs
  · simp only [RequestParser.header, of_decide_eq_true hf]
  · unfold RequestParser.header
    split <;> simp_all

theorem foldl_transferEncoding_eq (p : RequestParser) (fs : List HeaderField) :
    (fs.foldl RequestParser.header p).req.transferEncoding =
      (fs.filter fun f => identifyHttpHeader f.name = .transferEncoding).getLast?.elim
        p.req.transferEncoding fun f => some f.text := by
  refine foldl_last (g := fun p : RequestParser => p.req.transferEncoding) (fun p f hf => ?_)
    (fun p f hf => ?_) p fs
  · simp only [RequestParser.header, of_decide_eq_true hf]
  · unfold RequestParser.header
    split <;> simp_all

theorem foldl_acceptEncoding_eq (p : RequestParser) (fs : List HeaderField) :
    (fs.foldl RequestParser.header p).req.acceptEncoding =
      (fs.filter fun f => identifyHttpHeader f.name = .acceptEncoding).getLast?.elim
        p.req.acceptEncoding fun f => some f.text := by
  refine foldl_last (g := fun p : RequestParser => p.req.acceptEncoding) (fun p f hf => ?_)
    (fun p f hf => ?_) p fs
  · simp only [RequestParser.header, of_decide_eq_true hf]
  · unfold RequestParser.header
    split <;> simp_all

theorem foldl_ifModifiedSince_eq (p : RequestParser) (fs : List HeaderField) :
    (fs.foldl RequestParser.header p).req.ifModifiedSince =
      (fs.filter fun f => identifyHttpHeader f.name = .ifModifiedSince).getLast?.elim
        p.req.ifModifiedSince fun f => parseHttpTime f.value := by
  refine foldl_last (g := fun p : RequestParser => p.req.ifModifiedSince) (fun p f hf => ?_)
    (fun p f hf => ?_) p fs
  · simp only [RequestParser.header, of_decide_eq_true hf]
  · unfold RequestParser.header
    split <;> simp_all

/-- What a request that is accepted was read from. -/
theorem parseHttpRequest_eq_ok {block : List UInt8} {req : RequestFields}
    (h : parseHttpRequest block = .ok req) : ∃ (p : RequestParser) (method : List UInt8),
      p.req.contentLength = 0 ∧ p.req.transferEncoding = none ∧ p.req.ifModifiedSince = 0 ∧
        p.req.headers = [] ∧ p.req.acceptEncoding = none ∧
        req = ((requestFields block).foldl RequestParser.header p).finish method := by
  unfold parseHttpRequest at h
  dsimp only [bind, Except.bind, pure, Except.pure, throw, throwThe, MonadExceptOf.throw] at h
  split at h
  · contradiction
  split at h
  · contradiction
  split at h
  · contradiction
  split at h
  · contradiction
  split at h
  · contradiction
  split at h
  · contradiction
  exact ⟨_, _, rfl, rfl, rfl, rfl, rfl, (Except.ok.inj h).symm⟩

/-- A request without a date has a date of 0. -/
theorem parseHttpRequest_ifModifiedSince {block : List UInt8} {req : RequestFields}
    (h : parseHttpRequest block = .ok req) :
    req.ifModifiedSince =
      (lastField .ifModifiedSince block).elim 0 fun f => parseHttpTime f.value := by
  obtain ⟨p, method, -, -, hzero, -, -, rfl⟩ := parseHttpRequest_eq_ok h
  have hlast := foldl_ifModifiedSince_eq p (requestFields block)
  rw [hzero] at hlast
  exact hlast

theorem parseHttpRequest_length {block : List UInt8} {req : RequestFields}
    (h : parseHttpRequest block = .ok req) :
    (req.chunkedEncoding = true ↔ RequestsChunked block) ∧
      req.contentLength = if req.chunkedEncoding then -1 else
        (lastField .contentLength block).elim 0 fun f => atol f.value := by
  obtain ⟨p, method, hlength, hencoding, -, -, -, rfl⟩ := parseHttpRequest_eq_ok h
  have hencoding' := foldl_transferEncoding_eq p (requestFields block)
  have hlength' := foldl_contentLength_eq p (requestFields block)
  rw [hencoding] at hencoding'
  rw [hlength] at hlength'
  refine ⟨?_, ?_⟩
  · simp only [RequestParser.finish, RequestsChunked, hencoding', lastField]
    cases ((requestFields block).filter
      fun f => identifyHttpHeader f.name = .transferEncoding).getLast? <;> rfl
  · simp only [RequestParser.finish, hlength']
    rfl

/-! ### Values and their continuation -/

/-- The value of a header does not begin with white space, and the lines behind it do. -/
def HeaderField.Trimmed (f : HeaderField) : Prop :=
  (∀ c ∈ f.value.head?, isGraph c = true) ∧ ∀ c ∈ f.cont.head?, isGraph c = false

theorem isGraph_head_truncSpace (s : List UInt8) : ∀ c ∈ (truncSpace s).head?, isGraph c = true := by
  intro c hc
  have hpre : truncSpace s <+: s.dropWhile fun c => ¬ isGraph c := List.rdropWhile_prefix _ _
  have hhead : (s.dropWhile fun c => ¬ isGraph c).head? = some c := by
    obtain ⟨rest, hrest⟩ := hpre
    rw [← hrest, List.head?_append, hc]
    rfl
  have hnot := List.head?_dropWhile_not (fun c => decide (¬ isGraph c = true)) s
  rw [hhead] at hnot
  simpa using hnot

theorem LineReader.line_trimmed {r : LineReader} (h : ∀ f ∈ r.fields, f.Trimmed)
    (line : List UInt8) : ∀ f ∈ (r.line line).fields, f.Trimmed := by
  unfold LineReader.line
  split
  · rename_i hline
    split
    · rename_i f fs _ hfields
      rw [hfields] at h
      obtain ⟨hf, hfs⟩ := List.forall_mem_cons.mp h
      refine List.forall_mem_cons.mpr ⟨⟨hf.1, ?_⟩, hfs⟩
      cases hcont : f.cont with
      | nil =>
        intro c hc
        have hc' : line.head? = some c := by simpa using hc
        simpa [hc'] using hline
      | cons c cs =>
        have hhead := hf.2
        rw [hcont] at hhead
        simpa using hhead
    · exact h
  · split
    · exact h
    · exact List.forall_mem_cons.mpr ⟨⟨isGraph_head_truncSpace _, by simp⟩, h⟩

theorem requestFields_trimmed (block : List UInt8) : ∀ f ∈ requestFields block, f.Trimmed :=
  forall_mem_requestFields fun _ h line _ => LineReader.line_trimmed h line

/-- What does not begin with a digit does not go on a number. -/
theorem takeWhile_isDigit_append (ds : List UInt8) {rest : List UInt8} (h : EndsNumber rest) :
    (ds ++ rest).takeWhile isDigit = ds.takeWhile isDigit := by
  induction ds with
  | nil =>
    cases rest with
    | nil => rfl
    | cons c cs =>
      have hc : isDigit c = false := h c rfl
      simp [hc]
  | cons d ds ih => simp only [List.cons_append, List.takeWhile_cons, ih]

/-- The number of a value that is not empty stands on its first line. -/
theorem HeaderField.Trimmed.leadingNumber_text {f : HeaderField} (h : f.Trimmed)
    (hne : f.value ≠ []) : leadingNumber f.text = leadingNumber f.value := by
  obtain ⟨c, cs, hvalue⟩ := List.exists_cons_of_ne_nil hne
  have hgraph : isGraph c = true := h.1 c (by simp [hvalue])
  have hends : EndsNumber f.cont := fun d hd => by
    have hspace := h.2 d hd
    by_contra hdigit
    rw [isGraph_of_isDigit (Bool.of_not_eq_false hdigit)] at hspace
    contradiction
  have hspace : isSpace c = false := by
    have hlt := isGraph_iff.mp hgraph
    by_contra hspace
    rcases Bool.or_eq_true_iff.mp (Bool.of_not_eq_false hspace) with heq | hle
    · rw [eq_of_beq heq] at hlt
      exact absurd hlt (by decide)
    · have h13 : c.toNat ≤ 13 := by
        have := (Bool.and_eq_true_iff.mp hle).2
        exact UInt8.le_iff_toNat_le.mp (of_decide_eq_true this)
      omega
  have hdrop : ∀ rest, (c :: cs ++ rest).dropWhile isSpace = c :: (cs ++ rest) := fun rest => by
    simp [hspace]
  have hdrop' : (c :: cs).dropWhile isSpace = c :: cs := by simp [hspace]
  rw [HeaderField.text, hvalue, leadingNumber, leadingNumber, hdrop, hdrop']
  have hdigits := takeWhile_isDigit_append cs hends
  have hdigits' := takeWhile_isDigit_append (c :: cs) hends
  split
  · rename_i u heq
    obtain ⟨rfl, rfl⟩ := List.cons.inj heq
    rw [hdigits]
    rfl
  · rename_i u heq
    obtain ⟨rfl, rfl⟩ := List.cons.inj heq
    rw [hdigits]
    rfl
  · rename_i hminus hplus
    rw [← List.cons_append, hdigits']
    split
    · rename_i heq
      exact (hminus _ (by rw [(List.cons.inj heq).1])).elim
    · rename_i heq
      exact (hplus _ (by rw [(List.cons.inj heq).1])).elim
    · rfl

/-! ### The result -/

/-- A request whose length is not `-1` for being chunked keeps the length that it declares if and
only if the number is one that the length can take. -/
theorem contentLength_kept_iff {block : List UInt8} {req : RequestFields}
    (h : parseHttpRequest block = .ok req) :
    LengthKept block req ↔
      RequestsChunked block ∨ ∀ f ∈ lastField .contentLength block, f.Countable := by
  obtain ⟨hchunked, hlength⟩ := parseHttpRequest_length h
  rw [LengthKept, ← hchunked]
  cases hch : req.chunkedEncoding with
  | true => simp [hlength, hch]
  | false =>
    rw [hch, if_neg (by simp)] at hlength
    rw [hlength, declaredLength]
    cases hlast : lastField .contentLength block with
    | none => simp
    | some f =>
      have htrimmed : f.Trimmed := requestFields_trimmed block f
        (List.mem_of_mem_filter (List.mem_of_getLast? hlast))
      simp only [Option.elim_some, Option.mem_some, forall_eq', atol, strtol_fst, HeaderField.Countable]
      by_cases hvalue : f.value = []
      · have hzero : leadingNumber [] = 0 := rfl
        have hclamp : clampLong 0 = 0 := rfl
        simp only [hvalue, HeaderField.text, hzero, hclamp, List.nil_append, Bool.false_eq_true,
          iff_false, true_implies, false_or]
        omega
      · rw [htrimmed.leadingNumber_text hvalue, clampLong]
        generalize leadingNumber f.value = n
        simp only [hvalue, Bool.false_eq_true, iff_false, true_implies, false_or, false_implies,
          and_true]
        omega

/-- A request with a negative length. -/
def negativeLength : List UInt8 := bytes "POST / HTTP/1.1\r\nHost: a\r\nContent-Length: -1"

theorem negativeLength_parsed : (parseHttpRequest negativeLength).toOption.map
    (fun req => (req.contentLength, req.chunkedEncoding)) = some (-1, false) := by
  decide +kernel

/-- The parser accepts a length of `-1` that is not that of a chunked body. -/
theorem negativeLength_not_kept :
    ∃ req, parseHttpRequest negativeLength = .ok req ∧ ¬ LengthKept negativeLength req := by
  obtain ⟨req, hreq, heq⟩ := Option.map_eq_some_iff.mp negativeLength_parsed
  obtain ⟨hlength, hchunked⟩ := Prod.mk.inj heq
  refine ⟨req, ?_, fun hkept => ?_⟩
  · cases hparse : parseHttpRequest negativeLength with
    | error code =>
      rw [hparse] at hreq
      contradiction
    | ok req' =>
      rw [hparse] at hreq
      exact congrArg _ (Option.some.inj hreq)
  · rw [hkept.1.mp hlength] at hchunked
    contradiction

/-- A request with two lengths, of which the last one counts. -/
def twoLengths : List UInt8 :=
  bytes "POST / HTTP/1.1\r\nHost: a\r\nContent-Length: -1\r\nContent-Length: 5"

theorem contentLength_kept_twoLengths : ∃ req, parseHttpRequest twoLengths = .ok req ∧
    LengthKept twoLengths req := by
  cases hparse : parseHttpRequest twoLengths with
  | error code =>
    have hok : (parseHttpRequest twoLengths).isOk = true := by decide +kernel
    rw [hparse] at hok
    contradiction
  | ok req =>
    refine ⟨req, rfl, (contentLength_kept_iff hparse).mpr (.inr ?_)⟩
    have hlast : lastField .contentLength twoLengths =
        some { name := bytes "Content-Length", value := bytes "5" } := by decide +kernel
    rw [hlast]
    rintro f ⟨⟩
    exact ⟨by decide, by decide, by simp [bytes]⟩

end Nxweb
