import Nxweb.Http.ResponseText

/-!
# A response is read back from its headers

`ResponseFields.Sendable` says which responses can be printed without loss, and
`ResponseFields.Recovered` what the parser finds in the headers of such a response. As for
requests, parsing is a fold over the list of the printed headers (`ResponseParser.foldl_printed`).

The flags for caches take a way of their own: they are printed as directives of one
`Cache-Control` header, which the parser takes apart again (`foldl_cacheDirectives`). A header
that was set as a text is kept as it is (`foldl_directive`).
-/

namespace Nxweb

open Lib

/-- The headers that the parser turns into fields, or skips. -/
def isInterpretedHeader (name : List UInt8) : Bool :=
  match identifyHttpHeader name with
  | .contentType | .contentLength | .transferEncoding | .connection | .keepAlive | .xNxwebSsi
  | .xNxwebTemplates | .date | .lastModified | .expires | .cacheControl | .etag => true
  | _ => false

namespace ResponseFields

/-- The status may have a body, the strings are texts and the numbers fit their types. -/
structure Sendable (resp : ResponseFields) : Prop where
  statusCode : 0 < resp.statusCode ∧ resp.statusCode < 2 ^ 31
  mayHaveBody : resp.mustNotHaveBody = false
  status : ∀ s ∈ resp.status, Text s ∧ ∀ c ∈ s, space ≤ c
  contentType : ∀ t ∈ resp.contentType, Text t
  contentCharset : ∀ t ∈ resp.contentCharset, Text t
  cacheControl : ∀ t ∈ resp.cacheControl, Text t
  etag : ∀ t ∈ resp.etag, Text t
  headers : ∀ f ∈ resp.headers, PrintableHeader f
  noRaw : resp.extraRawHeaders = none
  contentLength : resp.contentLength < 2 ^ 63
  lastModified : HttpTime resp.lastModified
  expires : HttpTime resp.expires
  maxAge : -1 ≤ resp.maxAge ∧ resp.maxAge < 2 ^ 63

/-- The headers without a field of their own, in the order in which they are printed. -/
def otherHeaders (revision : List UInt8) (resp : ResponseFields) :
    List (List UInt8 × List UInt8) :=
  headerIf true "Server" (bytes "nxweb/" ++ revision) ++
  (resp.headers.filter fun f => ¬ isFilteredHeader f.1 ∧ ¬ isInterpretedHeader f.1) ++
  headerIf (resp.contentLength ≠ 0 ∧ resp.gzipEncoded) "Content-Encoding" (bytes "gzip")

/-- What is found in the headers of a response. A status that is not set is printed as `OK`. -/
structure Recovered (revision : List UInt8) (resp resp' : ResponseFields) : Prop where
  statusCode_eq : resp'.statusCode = resp.statusCode
  status_eq : resp'.status = some (resp.status.getD (bytes "OK"))
  http11_eq : resp'.http11 = resp.http11
  keepAlive_eq : resp'.keepAlive = resp.keepAlive
  contentLength_eq : resp'.contentLength = if resp.contentLength < 0 then -1 else resp.contentLength
  chunkedEncoding_eq : resp'.chunkedEncoding = decide (resp.contentLength < 0)
  contentType_eq : resp'.contentType =
    if resp.contentLength = 0 then none else some resp.contentTypeText
  lastModified_eq : resp'.lastModified = resp.lastModified
  expires_eq : resp'.expires = resp.expires
  etag_eq : resp'.etag = resp.etag
  cache_eq : resp.cacheControl = none → resp'.noCache = resp.noCache ∧
    resp'.cachePrivate = resp.cachePrivate ∧ resp'.maxAge = resp.maxAge
  cacheControl_eq : ∀ text, resp.cacheControl = some text → resp'.cacheControl = some text
  headers_eq : resp'.headers = (resp.otherHeaders revision).reverse

/-! ### The directives -/

/-- A directive touches nothing but the flags for caches. -/
theorem foldl_directive (resp : ResponseFields) (ds : List (List UInt8)) :
    ∃ noCache cachePrivate maxAge,
      ds.foldl directive resp = { resp with noCache, cachePrivate, maxAge } := by
  induction ds generalizing resp with
  | nil => exact ⟨_, _, _, rfl⟩
  | cons d ds ih =>
    have hstep : ∃ noCache cachePrivate maxAge,
        resp.directive d = { resp with noCache, cachePrivate, maxAge } := by
      unfold directive setDirective
      split_ifs
      · exact ⟨_, _, _, rfl⟩
      · exact ⟨_, _, _, rfl⟩
      · split
        · exact ⟨_, _, _, rfl⟩
        · exact ⟨_, _, _, rfl⟩
    obtain ⟨c, p, m, hstep⟩ := hstep
    obtain ⟨c', p', m', hrest⟩ := ih (resp.directive d)
    refine ⟨c', p', m', ?_⟩
    rw [List.foldl_cons, hrest, hstep]

/-- White space in front of a directive is skipped. -/
theorem directive_space (resp : ResponseFields) (d : List UInt8) :
    resp.directive (space :: d) = resp.directive d := by
  have hdrop : (space :: d).dropWhile (fun c => ¬ isGraph c) =
      d.dropWhile (fun c => ¬ isGraph c) := by
    rw [List.dropWhile_cons, if_pos (by decide)]
  unfold directive splitDirective
  rw [hdrop]

/-- Directives with commas between them are read one by one. -/
theorem foldl_splitOnByte_intercalate (resp : ResponseFields) {ds : List (List UInt8)}
    (hne : ds ≠ []) (h : ∀ d ∈ ds, comma ∉ d) :
    (splitOnByte comma ((bytes ", ").intercalate ds)).foldl directive resp =
      ds.foldl directive resp := by
  -- the first directive may have a space in front of it
  have hpre : ∀ pre, (∀ c ∈ pre, c = space) →
      (splitOnByte comma (pre ++ (bytes ", ").intercalate ds)).foldl directive resp =
        ds.foldl directive resp := by
    induction ds generalizing resp with
    | nil => exact absurd rfl hne
    | cons d ds ih =>
      intro pre hspace
      have hcomma : comma ∉ pre ++ d := by
        rw [List.mem_append]
        rintro (hmem | hmem)
        · exact absurd (hspace comma hmem) (by decide)
        · exact h d (by simp) hmem
      have hskip : ∀ r : ResponseFields, r.directive (pre ++ d) = r.directive d := by
        intro r
        clear hcomma
        induction pre with
        | nil => rfl
        | cons c pre ihpre =>
          rw [List.cons_append, hspace c (by simp), directive_space]
          exact ihpre fun c' hc' => hspace c' (by simp [hc'])
      by_cases hds : ds = []
      · subst hds
        simp [List.intercalate, splitOnByte_of_notMem hcomma, hskip]
      · have hinter : pre ++ (bytes ", ").intercalate (d :: ds) =
            (pre ++ d) ++ comma :: ([space] ++ (bytes ", ").intercalate ds) := by
          obtain ⟨d', ds, rfl⟩ := List.exists_cons_of_ne_nil hds
          simp [List.intercalate, show bytes ", " = [comma, space] from rfl]
        rw [hinter, splitOnByte_append _ hcomma, List.foldl_cons, hskip]
        exact ih (resp.directive d) hds (fun d' hd' => h d' (by simp [hd'])) [space] (by simp)
  exact hpre [] (by simp)

theorem directive_maxAge (resp : ResponseFields) {value : List UInt8} (h : Text value) :
    resp.directive (bytes "max-age=" ++ value) =
      { resp with maxAge := if value = bytes "0" then -1 else atol value } := by
  have hsplit : splitDirective (bytes "max-age=" ++ value) = (bytes "max-age", some value) := by
    have htrunc := truncSpace_text h (by simp : ∀ c ∈ [], isGraph c = false)
      (by simp : ∀ c ∈ [], isGraph c = false)
    rw [List.nil_append, List.append_nil] at htrunc
    have hdrop : (bytes "max-age=" ++ value).dropWhile (fun c => ¬ isGraph c) =
        bytes "max-age" ++ equalSign :: value := rfl
    have hequal : equalSign ∉ bytes "max-age" := by decide
    unfold splitDirective
    simp only [hdrop, splitAtByte_append hequal, htrunc]
  unfold directive
  rw [hsplit]
  rfl

/-- The value of `max-age` is found again; `0` stands for `-1`. -/
theorem directive_maxAge_text (resp : ResponseFields) {m : ℤ} (hm : -1 ≤ m ∧ m < 2 ^ 63) (hne : m ≠ 0) :
    resp.directive (bytes "max-age=" ++ if m = -1 then bytes "0" else uintToDecimalString m) =
      { resp with maxAge := m } := by
  split_ifs with hrevalidate
  · rw [directive_maxAge resp (by decide), if_pos rfl, hrevalidate]
  · have hread := atol_uintToDecimalString (show 0 ≤ m by omega) hm.2
    have hzero : uintToDecimalString m ≠ bytes "0" := by
      intro heq
      rw [heq] at hread
      exact hne (hread.symm.trans (by decide))
    rw [directive_maxAge resp (token_uintToDecimalString m).text, if_neg hzero, hread]

/-- What holds for all strings that may be printed as a directive. -/
theorem forall_mem_cacheDirectives (resp : ResponseFields) {P : List UInt8 → Prop}
    (hprivate : P (bytes "private")) (hnoCache : P (bytes "no-cache"))
    (hage : P (bytes "max-age=" ++
      if resp.maxAge = -1 then bytes "0" else uintToDecimalString resp.maxAge)) :
    ∀ d ∈ resp.cacheDirectives, P d := by
  have hif : ∀ (c : Prop) [Decidable c] (d : List UInt8), P d →
      ∀ d' ∈ (if c then [d] else []), P d' := by
    intro c _ d hd d' hd'
    split_ifs at hd'
    · rwa [List.mem_singleton.mp hd']
    · simp at hd'
  unfold cacheDirectives
  rw [List.forall_mem_append, List.forall_mem_append]
  exact ⟨⟨hif _ _ hprivate, hif _ _ hnoCache⟩, hif _ _ hage⟩

theorem comma_notMem_cacheDirectives (resp : ResponseFields) :
    ∀ d ∈ resp.cacheDirectives, comma ∉ d := by
  refine resp.forall_mem_cacheDirectives (by decide) (by decide) ?_
  rw [List.mem_append]
  rintro (hmem | hmem)
  · exact absurd hmem (by decide)
  · split_ifs at hmem
    · exact absurd hmem (by decide)
    · exact absurd ((decimal_spec _).1 comma hmem) (by decide)

theorem cacheDirectives_ne_nil {resp : ResponseFields}
    (h : resp.noCache ∨ resp.cachePrivate ∨ resp.maxAge ≠ 0) : resp.cacheDirectives ≠ [] := by
  unfold cacheDirectives
  rcases h with hc | hc | hc <;> simp [hc]

theorem text_cacheDirectives (resp : ResponseFields) : ∀ d ∈ resp.cacheDirectives, Text d := by
  refine resp.forall_mem_cacheDirectives (by decide) (by decide) ?_
  refine (show Text (bytes "max-age=") by decide).append ?_
  split_ifs
  · decide
  · exact (token_uintToDecimalString resp.maxAge).text

/-- The printed directives set the flags from which they were printed. -/
theorem foldl_cacheDirectives {resp : ResponseFields} (hm : -1 ≤ resp.maxAge ∧ resp.maxAge < 2 ^ 63)
    (r : ResponseFields) :
    resp.cacheDirectives.foldl directive r =
      { r with
        cachePrivate := if resp.cachePrivate then true else r.cachePrivate
        noCache := if resp.noCache then true else r.noCache
        maxAge := if resp.maxAge ≠ 0 then resp.maxAge else r.maxAge } := by
  have hprivate : (if resp.cachePrivate then [bytes "private"] else []).foldl directive r =
      { r with cachePrivate := if resp.cachePrivate then true else r.cachePrivate } := by
    split_ifs <;> rfl
  have hnoCache : ∀ r : ResponseFields,
      (if resp.noCache then [bytes "no-cache"] else []).foldl directive r =
        { r with noCache := if resp.noCache then true else r.noCache } := by
    intro r
    split_ifs <;> rfl
  have hage : ∀ r : ResponseFields, (if resp.maxAge ≠ 0 then [bytes "max-age=" ++
      if resp.maxAge = -1 then bytes "0" else uintToDecimalString resp.maxAge] else []).foldl
        directive r = { r with maxAge := if resp.maxAge ≠ 0 then resp.maxAge else r.maxAge } := by
    intro r
    by_cases hzero : resp.maxAge ≠ 0
    · rw [if_pos hzero, if_pos hzero]
      exact directive_maxAge_text r hm hzero
    · rw [if_neg hzero, if_neg hzero]
      rfl
  unfold cacheDirectives
  rw [List.foldl_append, List.foldl_append, hprivate, hnoCache, hage]

/-- The flags are recovered from the text that is printed for them. -/
theorem foldl_cacheControlText {resp : ResponseFields} {text : List UInt8}
    (hm : -1 ≤ resp.maxAge ∧ resp.maxAge < 2 ^ 63) (hnone : resp.cacheControl = none)
    (htext : resp.cacheControlText = some text) {r : ResponseFields}
    (hr : r.noCache = false ∧ r.cachePrivate = false ∧ r.maxAge = 0) :
    (splitOnByte comma text).foldl directive r =
      { r with noCache := resp.noCache, cachePrivate := resp.cachePrivate, maxAge := resp.maxAge } := by
  unfold cacheControlText at htext
  rw [hnone, Option.isSome_none, if_neg (by simp)] at htext
  split_ifs at htext with hany
  have hne := cacheDirectives_ne_nil hany
  rw [← Option.some.inj htext,
    foldl_splitOnByte_intercalate r hne resp.comma_notMem_cacheDirectives,
    foldl_cacheDirectives hm, hr.1, hr.2.1, hr.2.2]
  have hbool : ∀ b : Bool, (if b = true then true else false) = b := by decide
  have hage : (if resp.maxAge ≠ 0 then resp.maxAge else 0) = resp.maxAge := by
    split_ifs with hzero
    · rfl
    · exact (not_not.mp hzero).symm
  rw [hbool, hbool, hage]

/-! ### The printed headers -/

/-- All headers, if there are no raw ones between them. -/
def printed (revision : List UInt8) (now : ℤ) (resp : ResponseFields) :
    List (List UInt8 × List UInt8) := resp.printedFirst revision now ++ resp.printedLast

theorem Sendable.prepare_eq {resp : ResponseFields} (h : resp.Sendable) (revision : List UInt8)
    (now : ℤ) : prepareResponseHeaders revision now resp =
      headerBlock resp.statusLine (resp.printed revision now) := by
  unfold prepareResponseHeaders headerBlock printed
  rw [h.noRaw, List.flatMap_append]
  simp

/-- The content type and the charset make up a text. -/
theorem Sendable.text_contentTypeText {resp : ResponseFields} (h : resp.Sendable) :
    Text resp.contentTypeText := by
  have htype : Text (resp.contentType.getD (bytes "text/html")) := by
    cases htype : resp.contentType with
    | none => decide
    | some t => exact h.contentType t htype
  unfold contentTypeText
  cases hcharset : resp.contentCharset with
  | none => simpa using htype
  | some charset =>
    exact htype.append ((show Text (bytes "; charset=") by decide).append
      (h.contentCharset charset hcharset))

/-- The directives make up a text. -/
theorem Sendable.text_cacheControlText {resp : ResponseFields} (h : resp.Sendable) :
    ∀ text ∈ resp.cacheControlText, Text text := by
  intro text htext
  unfold cacheControlText at htext
  split_ifs at htext with hset hany
  · exact h.cacheControl text htext
  · rw [← Option.some.inj htext]
    exact text_intercalate (by decide) (cacheDirectives_ne_nil hany) resp.text_cacheDirectives
  · simp at htext

/-- Everything that is printed for a sendable response can be read back. -/
theorem Sendable.printable {resp : ResponseFields} (h : resp.Sendable) {revision : List UInt8}
    (hrevision : Text (bytes "nxweb/" ++ revision)) (now : ℤ) :
    ∀ f ∈ resp.printed revision now, PrintableHeader f := by
  have hkeep : Text (bytes (if resp.keepAlive then "keep-alive" else "close")) := by
    split_ifs <;> decide
  unfold printed printedFirst printedLast
  simp only [List.forall_mem_append]
  refine ⟨⟨⟨⟨?_, ?_⟩, ?_⟩, ?_⟩, ⟨⟨⟨⟨⟨⟨⟨?_, ?_⟩, ?_⟩, ?_⟩, ?_⟩, ?_⟩, ?_⟩, ?_⟩⟩
  · exact printable_headerIf (by decide) fun _ => hrevision
  · exact printable_headerIf (by decide) fun _ => text_formatHttpTime now
  · exact printable_headerIf (by decide) fun _ => hkeep
  · exact fun f hf => h.headers f (List.mem_of_mem_filter hf)
  · exact printable_headerIf (by decide) fun _ => h.text_contentTypeText
  · exact printable_headerIf (by decide) fun _ => by decide
  · exact printable_headerIf (by decide) fun _ => text_formatHttpTime _
  · exact printable_headerOpt (by decide) h.etag
  · exact printable_headerIf (by decide) fun _ => text_formatHttpTime _
  · exact printable_headerOpt (by decide) h.text_cacheControlText
  · exact printable_headerIf (by decide) fun _ => (token_uintToDecimalString _).text
  · exact printable_headerIf (by decide) fun _ => by decide

end ResponseFields

/-! ### Reading the headers -/

namespace ResponseParser

/-- A header that was printed and read back. -/
def pair (p : ResponseParser) (f : List UInt8 × List UInt8) : ResponseParser :=
  p.header { name := f.1, value := f.2 }

/-- The extra headers that were printed: those that are not interpreted are collected, the last
one first. -/
theorem foldl_extra (p : ResponseParser) {fs : List (List UInt8 × List UInt8)}
    (h : ∀ f ∈ fs, isFilteredHeader f.1 = false) :
    ∃ ssiOn templatesOn, fs.foldl pair p =
      { p with
        resp.headers := (fs.filter fun f => ¬ isInterpretedHeader f.1).reverse ++ p.resp.headers
        resp.ssiOn := ssiOn
        resp.templatesOn := templatesOn } := by
  induction fs generalizing p with
  | nil => exact ⟨_, _, rfl⟩
  | cons f fs ih =>
    have hf := h f (by simp)
    obtain ⟨ssiOn, templatesOn, hrest⟩ := ih (p.pair f) fun f' hf' => h f' (by simp [hf'])
    refine ⟨ssiOn, templatesOn, ?_⟩
    rw [List.foldl_cons, hrest]
    unfold isFilteredHeader at hf
    -- the header is collected, skipped or changes one of the two flags
    cases hname : identifyHttpHeader f.1 <;> simp only [hname, reduceCtorEq] at hf <;>
      simp [pair, header, hname, isInterpretedHeader, HeaderField.text]

variable (p : ResponseParser)

theorem foldl_server (server : List UInt8) : (headerIf true "Server" server).foldl pair p =
    { p with resp.headers := headerIf true "Server" server ++ p.resp.headers } := by
  simp [pair, header, HeaderField.text, headerIf]

theorem foldl_date (date : List UInt8) : (headerIf true "Date" date).foldl pair p =
    { p with resp.date := parseHttpTime date } := by
  simp [foldl_headerIf, pair, header]

theorem foldl_connection (keepAlive : Bool) :
    (headerIf true "Connection" (bytes (if keepAlive then "keep-alive" else "close"))).foldl pair p =
      { p with resp.keepAlive := keepAlive } := by
  have hkeep : strcaseEq (bytes (if keepAlive then "keep-alive" else "close"))
      (bytes "keep-alive") = keepAlive := by
    cases keepAlive <;> decide
  simp [foldl_headerIf, pair, header, hkeep]

theorem foldl_contentType (c : Bool) (type : List UInt8) :
    (headerIf c "Content-Type" type).foldl pair p =
      { p with resp.contentType := if c then some type else p.resp.contentType } := by
  cases c <;> simp [foldl_headerIf, pair, header, HeaderField.text]

theorem foldl_contentEncoding (c : Bool) (encoding : List UInt8) :
    (headerIf c "Content-Encoding" encoding).foldl pair p =
      { p with resp.headers := headerIf c "Content-Encoding" encoding ++ p.resp.headers } := by
  cases c <;> simp [pair, header, HeaderField.text, headerIf]

theorem foldl_lastModified {t : ℤ} (h : HttpTime t) :
    (headerIf (t ≠ 0) "Last-Modified" (formatHttpTime (gmtime t))).foldl pair p =
      { p with resp.lastModified := if t ≠ 0 then t else p.resp.lastModified } := by
  have htime := parseHttpTime_formatHttpTime h
  by_cases ht : t = 0 <;> simp [foldl_headerIf, pair, header, ht, htime]

theorem foldl_etag (etag : Option (List UInt8)) : (headerOpt "ETag" etag).foldl pair p =
    { p with resp.etag := etag.or p.resp.etag } := by
  cases etag <;> simp [foldl_headerOpt, pair, header, HeaderField.text]

theorem foldl_expires {t : ℤ} (h : HttpTime t) :
    (headerIf (t ≠ 0) "Expires" (formatHttpTime (gmtime t))).foldl pair p =
      { p with resp.expires := if t ≠ 0 then t else p.resp.expires } := by
  have htime := parseHttpTime_formatHttpTime h
  by_cases ht : t = 0 <;> simp [foldl_headerIf, pair, header, ht, htime]

theorem foldl_cacheControl (text : Option (List UInt8)) :
    (headerOpt "Cache-Control" text).foldl pair p =
      { p with resp.cacheControl := text.or p.resp.cacheControl } := by
  cases text <;> simp [foldl_headerOpt, pair, header, HeaderField.text]

theorem foldl_contentLength {n : ℤ} {c : Bool} (hc : c = decide (0 ≤ n)) (h : n < 2 ^ 63) :
    (headerIf c "Content-Length" (uintToDecimalString n)).foldl pair p =
      { p with resp.contentLength := if 0 ≤ n then n else p.resp.contentLength } := by
  subst hc
  by_cases hn : 0 ≤ n
  · simp [foldl_headerIf, pair, header, hn, atol_uintToDecimalString hn h]
  · simp [foldl_headerIf, hn]

theorem foldl_transferEncoding (c : Bool) :
    (headerIf c "Transfer-Encoding" (bytes "chunked")).foldl pair p =
      { p with
        transferEncoding := if c then some (bytes "chunked") else p.transferEncoding } := by
  cases c <;> simp [foldl_headerIf, pair, header, HeaderField.text]

/-- The record when the first line has been read. -/
def start (http11 : Bool) (statusCode : ℤ) (status : List UInt8) : ResponseParser where
  resp := { status := some status, keepAlive := http11, http11, contentLength := -1, statusCode }

end ResponseParser

/-- What the headers of a response leave in that record. -/
def ResponseFields.readBack (revision : List UInt8) (now : ℤ) (ssiOn templatesOn : Bool)
    (resp : ResponseFields) (statusCode : ℤ) (status : List UInt8) : ResponseParser where
  transferEncoding := if resp.contentLength < 0 then some (bytes "chunked") else none
  resp := {
    http11 := resp.http11
    statusCode
    status := some status
    date := parseHttpTime (formatHttpTime (gmtime now))
    keepAlive := resp.keepAlive
    headers := (resp.otherHeaders revision).reverse
    ssiOn
    templatesOn
    contentType := if resp.contentLength ≠ 0 then some resp.contentTypeText else none
    lastModified := resp.lastModified
    etag := resp.etag
    expires := resp.expires
    cacheControl := resp.cacheControlText
    contentLength := if 0 ≤ resp.contentLength then resp.contentLength else -1 }

theorem ResponseParser.foldl_printed {resp : ResponseFields} (h : resp.Sendable)
    (revision : List UInt8) (now statusCode : ℤ) (status : List UInt8) :
    ∃ ssiOn templatesOn,
      (resp.printed revision now).foldl pair (.start resp.http11 statusCode status) =
        resp.readBack revision now ssiOn templatesOn statusCode status := by
  have htime : ∀ t : ℤ, (if t ≠ 0 then t else 0) = t := by
    intro t
    split_ifs with ht
    · rfl
    · exact (not_not.mp ht).symm
  have hlength : decide ((resp.contentLength ≠ 0 ∨ ¬ resp.mustNotHaveBody) ∧
      0 ≤ resp.contentLength) = decide (0 ≤ resp.contentLength) := by
    simp [h.mayHaveBody]
  have hextra : ∀ f ∈ addExtraResponseHeaders resp.headers, isFilteredHeader f.1 = false := by
    intro f hf
    simpa using (List.mem_filter.mp hf).2
  have hother : (headerIf (resp.contentLength ≠ 0 ∧ resp.gzipEncoded) "Content-Encoding"
      (bytes "gzip")) ++ (((addExtraResponseHeaders resp.headers).filter
        fun f => ¬ isInterpretedHeader f.1).reverse ++
          headerIf true "Server" (bytes "nxweb/" ++ revision)) =
      (resp.otherHeaders revision).reverse := by
    unfold ResponseFields.otherHeaders addExtraResponseHeaders
    rw [List.filter_filter, List.reverse_append, List.reverse_append, reverse_headerIf,
      reverse_headerIf]
    simp [Bool.and_comm]
  obtain ⟨ssiOn, templatesOn, hfold⟩ := foldl_extra
    ((headerIf true "Server" (bytes "nxweb/" ++ revision) ++
      headerIf true "Date" (formatHttpTime (gmtime now)) ++ headerIf true "Connection"
        (bytes (if resp.keepAlive then "keep-alive" else "close"))).foldl pair
          (.start resp.http11 statusCode status)) hextra
  refine ⟨ssiOn, templatesOn, ?_⟩
  unfold ResponseFields.printed ResponseFields.printedFirst ResponseFields.printedLast
  simp only [List.foldl_append] at hfold ⊢
  rw [hfold]
  simp only [foldl_server, foldl_date, foldl_connection, foldl_contentType, foldl_contentEncoding,
    foldl_lastModified _ h.lastModified, foldl_etag, foldl_expires _ h.expires, foldl_cacheControl,
    foldl_contentLength _ hlength h.contentLength, foldl_transferEncoding, start,
    List.append_nil, htime, Option.or_none, decide_eq_true_eq, hother]
  rfl

/-! ### The first line -/

namespace ResponseFields

/-- The status code as it is printed. -/
def codeText (resp : ResponseFields) : List UInt8 := uintToDecimalString resp.statusCode

/-- The status as it is printed. -/
def statusText (resp : ResponseFields) : List UInt8 := resp.status.getD (bytes "OK")

theorem Sendable.statusLine_eq {resp : ResponseFields} (h : resp.Sendable) :
    resp.statusLine =
      versionText resp.http11 ++ space :: (resp.codeText ++ space :: resp.statusText) := by
  have hversion : bytes "HTTP/1." ++ bytes (if resp.http11 then "1" else "0") =
      versionText resp.http11 := by
    cases resp.http11 <;> decide
  have hcode : (if resp.statusCode ≠ 0 then resp.statusCode else 200) = resp.statusCode :=
    if_pos h.statusCode.1.ne'
  unfold statusLine
  rw [hversion, hcode, show bytes " " = [space] from rfl]
  simp [codeText, statusText]

theorem Sendable.text_statusText {resp : ResponseFields} (h : resp.Sendable) :
    Text resp.statusText ∧ ∀ c ∈ resp.statusText, space ≤ c := by
  unfold statusText
  cases hstatus : resp.status with
  | none => exact ⟨by decide, by decide⟩
  | some s => exact h.status s hstatus

theorem Sendable.line_statusLine {resp : ResponseFields} (h : resp.Sendable) :
    Line resp.statusLine := by
  rw [h.statusLine_eq]
  refine ⟨by simp, ?_⟩
  have hspace : space ≠ cr ∧ space ≠ lf ∧ space ≠ 0 := by decide
  rw [List.forall_mem_append, List.forall_mem_cons, List.forall_mem_append, List.forall_mem_cons]
  exact ⟨(token_versionText _).text.line, hspace, (token_uintToDecimalString _).text.line, hspace,
    h.text_statusText.1.line⟩

theorem Sendable.atoi_codeText {resp : ResponseFields} (h : resp.Sendable) :
    atoi resp.codeText = resp.statusCode := by
  obtain ⟨hpos, hlt⟩ := h.statusCode
  unfold atoi codeText
  rw [atol_uintToDecimalString (by omega) (by omega), Int.bmod_eq_of_le] <;> omega

/-- The headers of a sendable response are found and parsed. -/
theorem Sendable.parse {resp : ResponseFields} (h : resp.Sendable) {revision : List UInt8}
    (hrevision : Text (bytes "nxweb/" ++ revision)) (now : ℤ) :
    ∃ e body ssiOn templatesOn,
      findEndOfHttpHeaders (prepareResponseHeaders revision now resp) = some (e, body) ∧
      parseHttpResponse ((prepareResponseHeaders revision now resp).take e) =
        .ok (resp.readBack revision now ssiOn templatesOn resp.statusCode resp.statusText).finish := by
  have hprint := h.printable hrevision now
  have hne : resp.printed revision now ≠ [] := by simp [printed, printedFirst, headerIf]
  have hlines : ∀ l ∈ resp.statusLine :: (resp.printed revision now).map headerText, Line l := by
    rw [List.forall_mem_cons, List.forall_mem_map]
    exact ⟨h.line_statusLine, fun f hf => (hprint f hf).line⟩
  obtain ⟨htext, hstatus⟩ := h.text_statusText
  have hwords : resp.statusLine ++ [cr] =
      versionText resp.http11 ++ space :: (resp.codeText ++ space :: (resp.statusText ++ [cr])) := by
    rw [h.statusLine_eq]
    simp
  have hcode : Token resp.codeText := token_uintToDecimalString _
  have hhead : ∀ c ∈ (resp.statusText ++ [cr]).head?, isGraph c = true := by
    rw [List.head?_append_of_ne_nil _ htext.ne_nil]
    exact htext.head
  have htake : (resp.statusText ++ [cr]).takeWhile (space ≤ ·) = resp.statusText := by
    rw [List.takeWhile_append_of_pos (by simpa using hstatus)]
    simp [show ¬ space ≤ cr by decide]
  have hhttp11 : decide (¬ (!resp.http11) = true) = resp.http11 := by cases resp.http11 <;> rfl
  obtain ⟨ssiOn, templatesOn, hfold⟩ :=
    ResponseParser.foldl_printed h revision now resp.statusCode resp.statusText
  obtain ⟨e, body, hend, hblock⟩ := findEndOfHttpHeaders_headerBlock h.line_statusLine hprint
  rw [← h.prepare_eq revision now] at hend hblock
  refine ⟨e, body, ssiOn, templatesOn, hend, ?_⟩
  rw [hblock]
  unfold parseHttpResponse
  rw [splitFirstLine_joinLines (by simpa using hne) hlines]
  simp only [hwords, nextWord_append (token_versionText _) hcode.append_head,
    nextWord_append hcode hhead, htake, strcaseEq_versionText, hhttp11, h.atoi_codeText,
    readHeaderLines_joinLines hne hprint, List.foldl_map]
  rw [if_neg (by simp), if_neg (by simp), ← hfold]
  rfl

/-! ### The round trip -/

/-- The flags for caches when the directives have been read, into a record without flags. -/
theorem Sendable.elim_cacheControlText {resp : ResponseFields} (h : resp.Sendable)
    {r : ResponseFields} (hr : r.noCache = false ∧ r.cachePrivate = false ∧ r.maxAge = 0) :
    ∃ noCache cachePrivate maxAge,
      (resp.cacheControlText.elim r fun text => (splitOnByte comma text).foldl directive r) =
        { r with noCache, cachePrivate, maxAge } ∧
      (resp.cacheControl = none → noCache = resp.noCache ∧ cachePrivate = resp.cachePrivate ∧
        maxAge = resp.maxAge) := by
  cases hset : resp.cacheControl with
  | some text =>
    -- the flags are whatever the text says
    have htext : resp.cacheControlText = some text := by simp [cacheControlText, hset]
    obtain ⟨noCache, cachePrivate, maxAge, hfold⟩ := foldl_directive r (splitOnByte comma text)
    exact ⟨noCache, cachePrivate, maxAge, by rw [htext]; exact hfold, fun hnone => by simp at hnone⟩
  | none =>
    refine ⟨resp.noCache, resp.cachePrivate, resp.maxAge, ?_, fun _ => ⟨rfl, rfl, rfl⟩⟩
    cases htext : resp.cacheControlText with
    | some text => exact foldl_cacheControlText h.maxAge hset htext hr
    | none =>
      -- no header, no flags
      have hnone : ¬ (resp.noCache ∨ resp.cachePrivate ∨ resp.maxAge ≠ 0) := by
        intro hany
        simp [cacheControlText, hset, hany] at htext
      obtain ⟨hnoCache, hprivate, hage⟩ : resp.noCache = false ∧ resp.cachePrivate = false ∧
          resp.maxAge = 0 := by simpa using hnone
      rw [hnoCache.trans hr.1.symm, hprivate.trans hr.2.1.symm, hage.trans hr.2.2.symm]
      rfl

/-- The record that the parser returns. -/
theorem Sendable.finish_readBack {resp : ResponseFields} (h : resp.Sendable)
    (revision : List UInt8) (now : ℤ) (ssiOn templatesOn : Bool) (statusCode : ℤ)
    (status : List UInt8) {q : ResponseParser}
    (hq : resp.readBack revision now ssiOn templatesOn statusCode status = q) :
    ∃ noCache cachePrivate maxAge,
      q.finish = { q.resp with
        noCache
        cachePrivate
        maxAge
        contentLength := if resp.contentLength < 0 then -1 else resp.contentLength
        chunkedEncoding := resp.contentLength < 0 } ∧
      (resp.cacheControl = none → noCache = resp.noCache ∧ cachePrivate = resp.cachePrivate ∧
        maxAge = resp.maxAge) := by
  have hchunked : strcaseEq (bytes "chunked") (bytes "chunked") = true := by decide
  have htext : q.resp.cacheControl = resp.cacheControlText := by rw [← hq]; rfl
  have hencoding : q.transferEncoding =
      if resp.contentLength < 0 then some (bytes "chunked") else none := by rw [← hq]; rfl
  have hlength : q.resp.contentLength =
      if 0 ≤ resp.contentLength then resp.contentLength else -1 := by rw [← hq]; rfl
  have hnot : q.resp.chunkedEncoding = false := by rw [← hq]; rfl
  obtain ⟨noCache, cachePrivate, maxAge, hcache, hflags⟩ :=
    h.elim_cacheControlText (r := q.resp) (by rw [← hq]; exact ⟨rfl, rfl, rfl⟩)
  refine ⟨noCache, cachePrivate, maxAge, ?_, hflags⟩
  unfold ResponseParser.finish
  simp only [htext, hcache, hencoding]
  by_cases hneg : resp.contentLength < 0
  · simp [hneg, hchunked]
  · have hle : 0 ≤ resp.contentLength := not_lt.mp hneg
    rw [if_pos hle] at hlength
    have hne : resp.contentLength ≠ -1 := by omega
    simp [hneg, hlength, hne, hnot]

end ResponseFields

/-- A response is read back from the headers that are printed for it. -/
theorem responseHeaders_recovered {revision : List UInt8}
    (hrevision : Text (bytes "nxweb/" ++ revision)) (now : ℤ) {resp : ResponseFields}
    (h : resp.Sendable) :
    ∃ e body resp',
      findEndOfHttpHeaders (prepareResponseHeaders revision now resp) = some (e, body) ∧
      parseHttpResponse ((prepareResponseHeaders revision now resp).take e) = .ok resp' ∧
      resp.Recovered revision resp' := by
  obtain ⟨e, body, ssiOn, templatesOn, hend, hparse⟩ := h.parse hrevision now
  obtain ⟨noCache, cachePrivate, maxAge, hfinish, hflags⟩ :=
    h.finish_readBack revision now ssiOn templatesOn resp.statusCode resp.statusText rfl
  refine ⟨e, body, _, hend, hparse, ?_⟩
  rw [hfinish]
  exact
    { statusCode_eq := rfl
      status_eq := rfl
      http11_eq := rfl
      keepAlive_eq := rfl
      contentLength_eq := rfl
      chunkedEncoding_eq := rfl
      contentType_eq := ite_not _ _ _
      lastModified_eq := rfl
      expires_eq := rfl
      etag_eq := rfl
      cache_eq := hflags
      cacheControl_eq := fun text htext => by
        show resp.cacheControlText = some text
        simp [ResponseFields.cacheControlText, htext]
      headers_eq := rfl }

/-- A page with flags for caches and an extra header. -/
def pageResponse : ResponseFields where
  http11 := true
  keepAlive := true
  statusCode := 200
  status := some (bytes "All right")
  contentLength := 12
  contentCharset := some (bytes "utf-8")
  gzipEncoded := true
  lastModified := 951782400
  cachePrivate := true
  maxAge := -1
  headers := [(bytes "X-A", bytes "1"), (bytes "Keep-Alive", bytes "5")]

theorem pageResponse_sendable : pageResponse.Sendable where
  statusCode := by decide
  mayHaveBody := by decide
  status := by
    rintro s hs
    rw [← Option.some.inj hs]
    exact ⟨by decide, by decide⟩
  contentType := by simp [pageResponse]
  contentCharset := by
    rintro t ht
    rw [← Option.some.inj ht]
    decide
  cacheControl := by simp [pageResponse]
  etag := by simp [pageResponse]
  headers := by
    intro f hf
    fin_cases hf
    · exact ⟨by decide, by decide, by decide⟩
    · exact ⟨by decide, by decide, by decide⟩
  noRaw := rfl
  contentLength := by decide
  lastModified := ⟨by decide, by decide, by decide⟩
  expires := ⟨by decide, by decide, by decide⟩
  maxAge := by decide

theorem responseHeaders_recovered_page :
    ∃ e body resp',
      findEndOfHttpHeaders (prepareResponseHeaders (bytes "3") 0 pageResponse) = some (e, body) ∧
      parseHttpResponse ((prepareResponseHeaders (bytes "3") 0 pageResponse).take e) = .ok resp' ∧
      pageResponse.Recovered (bytes "3") resp' :=
  responseHeaders_recovered (by decide) 0 pageResponse_sendable

end Nxweb
