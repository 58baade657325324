import Nxweb.Http.RequestText

/-!
# A request is read back from its headers

`RequestFields.Sendable` says which requests can be sent without loss, and
`RequestFields.Recovered` what the parser finds in the headers of such a request. A content type
is only sent with a body: a request without a body loses it, and one with a body and no content
type gets the default.

The headers that are printed are all of the form that the line reader gives back, so parsing them
is a fold over the list of the headers (`foldl_printed`), computed one header at a time.
-/

namespace Nxweb

open Lib

/-- The strings are texts, the method and the uri words, the names of the extra headers are none
of those that are treated specially, and nothing but the fields that the parser reads is set. -/
structure RequestFields.Sendable (req : RequestFields) : Prop where
  method : ∃ m, req.method = some m ∧ Token m ∧
    if req.headMethod then m = bytes "GET" else strcaseEq m (bytes "HEAD") = false
  uri : ∃ u, req.uri = some u ∧ Token u ∧ u.head? = some slash
  host : ∃ h, req.host = some h ∧ Text h
  userAgent : ∃ a, req.userAgent = some a ∧ Text a
  cookie : ∀ c ∈ req.cookie, Text c
  acceptEncoding : ∀ a ∈ req.acceptEncoding, Text a
  contentType : ∀ t ∈ req.contentType, Text t
  headers : ∀ f ∈ req.headers, PrintableHeader f ∧ identifyHttpHeader f.1 = .unknown
  length : -1 ≤ req.contentLength ∧ req.contentLength < 2 ^ 63
  time : 0 ≤ req.ifModifiedSince ∧ req.ifModifiedSince < httpTimeEnd
  noForwarded : req.xForwardedSsl = false ∧ req.xForwardedHost = none ∧ req.xForwardedFor = none
  noUid : req.uid = 0 ∧ req.rootUid = none

/-- What is found in the headers of a request. -/
structure RequestFields.Recovered (req req' : RequestFields) : Prop where
  method_eq : req'.method = req.method
  headMethod_eq : req'.headMethod = req.headMethod
  uri_eq : req'.uri = req.uri
  host_eq : req'.host = req.host.map nxStrtolower
  http11_eq : req'.http11 = req.http11
  keepAlive_eq : req'.keepAlive = req.keepAlive
  ifModifiedSince_eq : req'.ifModifiedSince = req.ifModifiedSince
  expect100Continue_eq : req.contentLength ≠ 0 → req'.expect100Continue = req.expect100Continue
  userAgent_eq : req'.userAgent = req.userAgent
  cookie_eq : req'.cookie = req.cookie
  acceptEncoding_eq : req'.acceptEncoding = req.acceptEncoding
  contentLength_eq : req'.contentLength = req.contentLength
  chunkedEncoding_eq : req'.chunkedEncoding = decide (req.contentLength = -1)
  headers_eq : req'.headers = req.headers.reverse
  contentType_eq : req'.contentType =
    if req.contentLength = 0 then none
    else some (req.contentType.getD (bytes "application/x-www-form-urlencoded"))

/-! ### The printed headers -/

/-- Everything that is printed for a sendable request can be read back. -/
theorem RequestFields.Sendable.printable {req : RequestFields} (h : req.Sendable)
    (revision : List UInt8) {host : List UInt8} (hhost : Text host) :
    ∀ f ∈ req.printed revision host, PrintableHeader f := by
  obtain ⟨agent, hagent, htext⟩ := h.userAgent
  obtain ⟨hssl, hfhost, hffor⟩ := h.noForwarded
  obtain ⟨huid, hroot⟩ := h.noUid
  have hkeep : Text (bytes (if req.keepAlive then "keep-alive" else "close")) := by
    split_ifs <;> decide
  have htype : Text (req.contentType.getD (bytes "application/x-www-form-urlencoded")) := by
    cases htype : req.contentType with
    | none => decide
    | some t => exact h.contentType t htype
  unfold RequestFields.printed
  simp only [List.forall_mem_append, hssl, hfhost, hffor, huid, hroot, hagent, Option.getD_some]
  refine ⟨⟨⟨⟨⟨⟨⟨⟨⟨⟨⟨⟨⟨⟨⟨?_, ?_⟩, ?_⟩, ?_⟩, ?_⟩, ?_⟩, ?_⟩, ?_⟩, ?_⟩, ?_⟩, ?_⟩, ?_⟩, ?_⟩, ?_⟩, ?_⟩, ?_⟩
  · exact printable_headerIf (by decide) fun _ => hhost
  · exact printable_headerIf (by decide) fun _ => hkeep
  · exact printable_headerIf (by decide) fun _ => text_formatHttpTime _
  · exact printable_headerIf (by decide) fun _ => by decide
  · simp [headerIf]
  · simp [headerOpt]
  · simp [headerOpt]
  · simp [headerIf]
  · simp [headerIf]
  · exact printable_headerIf (by decide) fun _ => htext
  · exact printable_headerOpt (by decide) h.cookie
  · exact fun f hf => (h.headers f hf).1
  · exact printable_headerOpt (by decide) h.acceptEncoding
  · exact printable_headerIf (by decide) fun _ => htype
  · exact printable_headerIf (by decide) fun _ => (token_uintToDecimalString _).text
  · exact printable_headerIf (by decide) fun _ => by decide

/-! ### Reading the headers -/

/-- A header that was printed and read back. -/
def RequestParser.pair (p : RequestParser) (f : List UInt8 × List UInt8) : RequestParser :=
  p.header { name := f.1, value := f.2 }

/-- Headers without a special name are collected, the last one first. -/
theorem foldl_extra (p : RequestParser) {fs : List (List UInt8 × List UInt8)}
    (h : ∀ f ∈ fs, identifyHttpHeader f.1 = .unknown) :
    fs.foldl RequestParser.pair p = { p with req.headers := fs.reverse ++ p.req.headers } := by
  induction fs generalizing p with
  | nil => rfl
  | cons f fs ih =>
    have hf : p.pair f = { p with req.headers := f :: p.req.headers } := by
      simp [RequestParser.pair, RequestParser.header, h f (by simp), HeaderField.text]
    rw [List.foldl_cons, hf, ih _ fun f' hf' => h f' (by simp [hf'])]
    simp

variable {req : RequestFields} (p : RequestParser)

theorem foldl_host (host : List UInt8) : (headerIf true "Host" host).foldl RequestParser.pair p =
    { p with req.host := some (nxStrtolower host) } := by
  simp [foldl_headerIf, RequestParser.pair, RequestParser.header]

theorem foldl_connection (keepAlive : Bool) :
    (headerIf true "Connection" (bytes (if keepAlive then "keep-alive" else "close"))).foldl
      RequestParser.pair p = { p with req.keepAlive := keepAlive } := by
  have hkeep : strcaseEq (bytes (if keepAlive then "keep-alive" else "close"))
      (bytes "keep-alive") = keepAlive := by
    cases keepAlive <;> decide
  simp [foldl_headerIf, RequestParser.pair, RequestParser.header, hkeep]

theorem foldl_ifModifiedSince {t : ℤ} (h0 : 0 ≤ t) (h : t < httpTimeEnd) :
    (headerIf (t ≠ 0) "If-Modified-Since" (formatHttpTime (gmtime t))).foldl RequestParser.pair p =
      { p with req.ifModifiedSince := if t ≠ 0 then t else p.req.ifModifiedSince } := by
  have htime := parseHttpTime_formatHttpTime (.of_nonneg h0 h)
  by_cases ht : t = 0 <;> simp [foldl_headerIf, RequestParser.pair, RequestParser.header, ht, htime]

theorem foldl_expect (c : Bool) :
    (headerIf c "Expect" (bytes "100-continue")).foldl RequestParser.pair p =
      { p with expect := if c then some (bytes "100-continue") else p.expect } := by
  cases c <;> simp [foldl_headerIf, RequestParser.pair, RequestParser.header, HeaderField.text]

theorem foldl_userAgent (agent : List UInt8) :
    (headerIf true "User-Agent" agent).foldl RequestParser.pair p =
      { p with req.userAgent := some agent } := by
  simp [foldl_headerIf, RequestParser.pair, RequestParser.header, HeaderField.text]

theorem foldl_cookie (cookie : Option (List UInt8)) :
    (headerOpt "Cookie" cookie).foldl RequestParser.pair p =
      { p with req.cookie := cookie.or p.req.cookie } := by
  cases cookie <;>
    simp [foldl_headerOpt, RequestParser.pair, RequestParser.header, HeaderField.text]

theorem foldl_acceptEncoding (accept : Option (List UInt8)) :
    (headerOpt "Accept-Encoding" accept).foldl RequestParser.pair p =
      { p with req.acceptEncoding := accept.or p.req.acceptEncoding } := by
  cases accept <;>
    simp [foldl_headerOpt, RequestParser.pair, RequestParser.header, HeaderField.text]

theorem foldl_contentType (c : Bool) (type : List UInt8) :
    (headerIf c "Content-Type" type).foldl RequestParser.pair p =
      { p with req.contentType := if c then some type else p.req.contentType } := by
  cases c <;> simp [foldl_headerIf, RequestParser.pair, RequestParser.header, HeaderField.text]

theorem foldl_contentLength {n : ℤ} (h : n < 2 ^ 63) :
    (headerIf (0 < n) "Content-Length" (uintToDecimalString n)).foldl RequestParser.pair p =
      { p with req.contentLength := if 0 < n then n else p.req.contentLength } := by
  by_cases hn : 0 < n
  · simp [foldl_headerIf, RequestParser.pair, RequestParser.header, hn,
      atol_uintToDecimalString hn.le h]
  · simp [foldl_headerIf, hn]

theorem foldl_transferEncoding (c : Bool) :
    (headerIf c "Transfer-Encoding" (bytes "chunked")).foldl RequestParser.pair p =
      { p with req.transferEncoding :=
          if c then some (bytes "chunked") else p.req.transferEncoding } := by
  cases c <;> simp [foldl_headerIf, RequestParser.pair, RequestParser.header, HeaderField.text]

/-- The record when the first line has been read. -/
def RequestParser.start (http11 : Bool) (uri version : List UInt8) : RequestParser where
  req := { http11, keepAlive := http11, uri := some uri, httpVersion := some version }

/-- What the headers of a request leave in that record. -/
def RequestFields.readBack (req : RequestFields) (host uri version : List UInt8) :
    RequestParser where
  expect := if req.expect100Continue then some (bytes "100-continue") else none
  req := {
    http11 := req.http11
    uri := some uri
    httpVersion := some version
    host := some (nxStrtolower host)
    keepAlive := req.keepAlive
    ifModifiedSince := req.ifModifiedSince
    userAgent := req.userAgent
    cookie := req.cookie
    headers := req.headers.reverse
    acceptEncoding := req.acceptEncoding
    contentType :=
      if req.contentLength ≠ 0 then
        some (req.contentType.getD (bytes "application/x-www-form-urlencoded"))
      else none
    contentLength := if 0 < req.contentLength then req.contentLength else 0
    transferEncoding := if req.contentLength < 0 then some (bytes "chunked") else none }

theorem foldl_printed (h : req.Sendable) (revision host uri version : List UInt8) :
    (req.printed revision host).foldl RequestParser.pair (.start req.http11 uri version) =
      req.readBack host uri version := by
  obtain ⟨agent, hagent, -⟩ := h.userAgent
  obtain ⟨hssl, hfhost, hffor⟩ := h.noForwarded
  obtain ⟨huid, hroot⟩ := h.noUid
  have htime : (if req.ifModifiedSince ≠ 0 then req.ifModifiedSince else 0) =
      req.ifModifiedSince := by
    split_ifs with ht
    · rfl
    · exact (not_not.mp ht).symm
  have hnone : ∀ name value p, (headerIf false name value).foldl RequestParser.pair p = p :=
    fun _ _ _ => rfl
  have hnone' : ∀ name p, (headerOpt name none).foldl RequestParser.pair p = p := fun _ _ => rfl
  unfold RequestFields.printed RequestParser.start RequestFields.readBack
  simp only [List.foldl_append, foldl_host, foldl_connection,
    foldl_ifModifiedSince _ h.time.1 h.time.2, foldl_expect, hssl, hfhost, hffor, huid, hroot,
    hnone, hnone', ne_eq, not_true_eq_false, decide_false, Option.getD_none, hagent,
    Option.getD_some, foldl_userAgent, foldl_cookie, foldl_extra _ fun f hf => (h.headers f hf).2,
    foldl_acceptEncoding, foldl_contentType, foldl_contentLength _ h.length.2,
    foldl_transferEncoding, htime, Option.or_none, List.append_nil, decide_eq_true_eq]

/-! ### The first line -/

theorem requestLine_eq (method uri : List UInt8) (http11 : Bool) :
    requestLine method uri http11 = method ++ space :: (uri ++ space :: versionText http11) := by
  have hsep : bytes " HTTP/1." ++ bytes (if http11 then "1" else "0") =
      space :: versionText http11 := by
    cases http11 <;> decide
  unfold requestLine
  rw [List.append_assoc, hsep, show bytes " " = [space] from rfl]
  simp

theorem line_requestLine {method uri : List UInt8} (hmethod : Token method) (huri : Token uri)
    (http11 : Bool) : Line (requestLine method uri http11) := by
  rw [requestLine_eq]
  refine ⟨by simp [hmethod.ne_nil], ?_⟩
  have hspace : space ≠ cr ∧ space ≠ lf ∧ space ≠ 0 := by decide
  rw [List.forall_mem_append, List.forall_mem_cons, List.forall_mem_append, List.forall_mem_cons]
  exact ⟨hmethod.text.line, hspace, huri.text.line, hspace, (token_versionText http11).text.line⟩

/-- A uri that is a path is left as it is. -/
theorem splitAbsoluteUri_path {uri : List UInt8} (h : uri.head? = some slash) :
    splitAbsoluteUri uri = some (uri, none) := by
  have hhttp : uri.take 7 ≠ bytes "http://" := by
    intro heq
    have hhead : (uri.take 7).head? = some slash := by rw [List.head?_take, h]; rfl
    rw [heq] at hhead
    exact absurd hhead (by decide)
  exact if_neg hhttp

/-- Parsing a request line and printed headers is a fold over the headers. -/
theorem parseHttpRequest_joinLines {method uri : List UInt8} (hmethod : Token method)
    (huri : Token uri) (hpath : uri.head? = some slash) (http11 : Bool)
    {fs : List (List UInt8 × List UInt8)} (hne : fs ≠ []) (hfs : ∀ f ∈ fs, PrintableHeader f)
    (htrailer : ∀ f ∈ fs, identifyHttpHeader f.1 ≠ .trailer) {q : RequestParser}
    (hq : fs.foldl RequestParser.pair (.start http11 uri (versionText http11)) = q)
    (hhost : q.req.host.getD [] ≠ []) :
    parseHttpRequest (joinLines (requestLine method uri http11 :: fs.map headerText)) =
      .ok (q.finish method) := by
  have hlines : ∀ l ∈ requestLine method uri http11 :: fs.map headerText, Line l := by
    rw [List.forall_mem_cons, List.forall_mem_map]
    exact ⟨line_requestLine hmethod huri http11, fun f hf => (hfs f hf).line⟩
  have hversion := token_versionText http11
  have hwords : requestLine method uri http11 ++ [cr] =
      method ++ space :: (uri ++ space :: (versionText http11 ++ [cr])) := by
    rw [requestLine_eq]
    simp
  have hhttp11 : decide (¬ (!http11) = true) = http11 := by cases http11 <;> rfl
  have hno : ((fs.map fun f => ({ name := f.1, value := f.2 } : HeaderField)).any
      fun f => identifyHttpHeader f.name = .trailer) = false := by
    simpa using fun a b hf => htrailer (a, b) hf
  have hfold : (fs.map fun f => ({ name := f.1, value := f.2 } : HeaderField)).foldl
      RequestParser.header (.start http11 uri (versionText http11)) = q := by
    rw [List.foldl_map]
    exact hq
  unfold parseHttpRequest
  rw [splitFirstLine_joinLines (by simpa using hne) hlines]
  simp only [hwords, nextWord_append hmethod huri.append_head,
    nextWord_append huri hversion.append_head, nextWord_last hversion,
    splitAbsoluteUri_path hpath, readHeaderLines_joinLines hne hfs, hno, strcaseEq_versionText,
    hhttp11]
  rw [if_neg (by simp), if_neg (by simp), if_neg (by simp [hpath]), if_neg (by simp)]
  unfold RequestParser.start at hfold
  rw [hfold, if_neg hhost]
  rfl

/-! ### The round trip -/

/-- No header of a sendable request is a trailer. -/
theorem RequestFields.Sendable.noTrailer {req : RequestFields} (h : req.Sendable)
    (revision host : List UInt8) :
    ∀ f ∈ req.printed revision host, identifyHttpHeader f.1 ≠ .trailer := by
  unfold RequestFields.printed
  simp only [List.forall_mem_append]
  refine ⟨⟨⟨⟨⟨⟨⟨⟨⟨⟨⟨⟨⟨⟨⟨?_, ?_⟩, ?_⟩, ?_⟩, ?_⟩, ?_⟩, ?_⟩, ?_⟩, ?_⟩, ?_⟩, ?_⟩, ?_⟩, ?_⟩, ?_⟩, ?_⟩, ?_⟩
  case refine_12 =>
    intro f hf
    rw [(h.headers f hf).2]
    decide
  all_goals first
    | exact forall_mem_headerIf (P := fun name => identifyHttpHeader name ≠ .trailer) (by decide) _ _
    | exact forall_mem_headerOpt (P := fun name => identifyHttpHeader name ≠ .trailer) (by decide) _

/-- The headers of a sendable request are found and parsed. -/
theorem RequestFields.Sendable.parse {req : RequestFields} (h : req.Sendable)
    (revision : List UInt8) {method uri host : List UInt8} (hm : req.wireMethod = some method)
    (hmethod : Token method) (hu : req.uri = some uri) (huri : Token uri)
    (hpath : uri.head? = some slash) (hh : req.host = some host) (hhost : Text host) :
    ∃ text e body, prepareClientRequestHeaders revision req = some text ∧
      findEndOfHttpHeaders text = some (e, body) ∧
      parseHttpRequest (text.take e) =
        .ok ((req.readBack host uri (versionText req.http11)).finish method) := by
  have hprint := h.printable revision hhost
  have hne : req.printed revision host ≠ [] := by simp [RequestFields.printed, headerIf]
  have hlower : nxStrtolower host ≠ [] := by simpa [nxStrtolower] using hhost.ne_nil
  obtain ⟨e, body, hend, htake⟩ :=
    findEndOfHttpHeaders_headerBlock (line_requestLine hmethod huri req.http11) hprint
  refine ⟨_, e, body, ?_, hend, ?_⟩
  · unfold prepareClientRequestHeaders
    rw [hm, hu, hh]
    rfl
  · rw [htake]
    exact parseHttpRequest_joinLines hmethod huri hpath _ hne hprint (h.noTrailer revision host)
      (foldl_printed h revision host uri _) hlower

/-- Of the method that was printed, the parser makes the method and the flag. -/
theorem RequestFields.Sendable.finish_method {req : RequestFields} (h : req.Sendable)
    {method : List UInt8} (hm : req.wireMethod = some method) (q : RequestParser) :
    (q.finish method).method = req.method ∧ (q.finish method).headMethod = req.headMethod := by
  obtain ⟨m, hmethod, -, hhead⟩ := h.method
  unfold RequestFields.wireMethod at hm
  cases hflag : req.headMethod with
  | true =>
    rw [hflag, if_pos rfl] at hm hhead
    rw [← Option.some.inj hm, hmethod, hhead]
    exact ⟨rfl, rfl⟩
  | false =>
    rw [hflag, if_neg (by simp)] at hm hhead
    rw [hmethod] at hm
    rw [← Option.some.inj hm, hmethod]
    simp [RequestParser.finish, hhead]

/-- The length of the body is found again, `-1` through the chunked encoding. -/
theorem RequestParser.finish_length {q : RequestParser} {n : ℤ} (method : List UInt8) (hn : -1 ≤ n)
    (hlength : q.req.contentLength = if 0 < n then n else 0)
    (hchunked : q.req.transferEncoding = if n < 0 then some (bytes "chunked") else none) :
    (q.finish method).contentLength = n ∧ (q.finish method).chunkedEncoding = decide (n = -1) := by
  have hcase : strcaseEq (bytes "chunked") (bytes "chunked") = true := by decide
  simp only [RequestParser.finish, hlength, hchunked]
  by_cases hneg : n < 0
  · have : n = -1 := by omega
    simp [this, hcase]
  · have hne : n ≠ -1 := by omega
    simp only [if_neg hneg, Option.any_none, Bool.false_eq_true, if_false, hne, decide_false,
      and_true]
    split_ifs <;> omega

theorem RequestParser.finish_expect {q : RequestParser} {c : Bool} (method : List UInt8)
    (hexpect : q.expect = if c then some (bytes "100-continue") else none)
    (hbody : (q.finish method).contentLength ≠ 0) :
    (q.finish method).expect100Continue = c := by
  have hcase : strcaseEq (bytes "100-continue") (bytes "100-continue") = true := by decide
  have hflag : (q.finish method).expect100Continue = decide ((q.finish method).contentLength ≠ 0 ∧
      q.expect.any (strcaseEq · (bytes "100-continue"))) := rfl
  rw [hflag, hexpect]
  cases c <;> simp [hbody, hcase]

theorem RequestFields.Sendable.recovered {req : RequestFields} (h : req.Sendable)
    {method uri host : List UInt8} (hm : req.wireMethod = some method) (hu : req.uri = some uri)
    (hh : req.host = some host) (version : List UInt8) :
    req.Recovered ((req.readBack host uri version).finish method) := by
  have hlength : ((req.readBack host uri version).finish method).contentLength =
      req.contentLength := (RequestParser.finish_length method h.length.1 rfl rfl).1
  exact
    { method_eq := (h.finish_method hm _).1
      headMethod_eq := (h.finish_method hm _).2
      uri_eq := hu.symm
      host_eq := by rw [hh]; rfl
      http11_eq := rfl
      keepAlive_eq := rfl
      ifModifiedSince_eq := rfl
      expect100Continue_eq := fun hbody =>
        RequestParser.finish_expect method rfl (by rwa [hlength])
      userAgent_eq := rfl
      cookie_eq := rfl
      acceptEncoding_eq := rfl
      contentLength_eq := hlength
      chunkedEncoding_eq := (RequestParser.finish_length method h.length.1 rfl rfl).2
      headers_eq := rfl
      contentType_eq := by
        show (if req.contentLength ≠ 0 then _ else _) = _
        rw [ite_not] }

/-- A request is read back from the headers that are printed for it. -/
theorem requestHeaders_recovered (revision : List UInt8) (req : RequestFields) (h : req.Sendable) :
    ∃ text e body req', prepareClientRequestHeaders revision req = some text ∧
      findEndOfHttpHeaders text = some (e, body) ∧ parseHttpRequest (text.take e) = .ok req' ∧
      req.Recovered req' := by
  obtain ⟨m, hm, htoken, -⟩ := h.method
  obtain ⟨uri, hu, huri, hpath⟩ := h.uri
  obtain ⟨host, hh, hhost⟩ := h.host
  obtain ⟨method, hwire, hmethod⟩ : ∃ method, req.wireMethod = some method ∧ Token method := by
    unfold RequestFields.wireMethod
    split_ifs
    · exact ⟨_, rfl, by decide, by decide⟩
    · exact ⟨m, hm, htoken⟩
  obtain ⟨text, e, body, htext, hend, hparse⟩ :=
    h.parse revision hwire hmethod hu huri hpath hh hhost
  exact ⟨text, e, body, _, htext, hend, hparse, h.recovered hwire hu hh _⟩

/-- A chunked upload with a date and two extra headers. -/
def uploadRequest : RequestFields where
  http11 := true
  method := some (bytes "POST")
  uri := some (bytes "/a?b=c")
  host := some (bytes "Example.org")
  userAgent := some (bytes "curl/7 (x)")
  contentType := some (bytes "text/plain")
  contentLength := -1
  expect100Continue := true
  ifModifiedSince := 951782400
  headers := [(bytes "X-A", bytes "1"), (bytes "X-B", bytes "2 3")]

theorem uploadRequest_sendable : uploadRequest.Sendable where
  method := ⟨_, rfl, ⟨by decide, by decide⟩, by decide⟩
  uri := ⟨_, rfl, ⟨by decide, by decide⟩, rfl⟩
  host := ⟨_, rfl, by decide⟩
  userAgent := ⟨_, rfl, by decide⟩
  cookie := by simp [uploadRequest]
  acceptEncoding := by simp [uploadRequest]
  contentType := by
    rintro t ht
    rw [← Option.some.inj ht]
    decide
  headers := by
    intro f hf
    fin_cases hf
    · exact ⟨⟨by decide, by decide, by decide⟩, by decide⟩
    · exact ⟨⟨by decide, by decide, by decide⟩, by decide⟩
  length := by decide
  time := by decide
  noForwarded := ⟨rfl, rfl, rfl⟩
  noUid := ⟨rfl, rfl⟩

theorem requestHeaders_recovered_upload :
    ∃ text e body req', prepareClientRequestHeaders (bytes "3") uploadRequest = some text ∧
      findEndOfHttpHeaders text = some (e, body) ∧ parseHttpRequest (text.take e) = .ok req' ∧
      uploadRequest.Recovered req' :=
  requestHeaders_recovered (bytes "3") uploadRequest uploadRequest_sendable

/-- A request without a body, but with a content type. -/
def typedRequest : RequestFields where
  method := some (bytes "GET")
  uri := some (bytes "/")
  host := some (bytes "a")
  userAgent := some (bytes "b")
  contentType := some (bytes "text/plain")

theorem typedRequest_sendable : typedRequest.Sendable where
  method := ⟨_, rfl, ⟨by decide, by decide⟩, by decide⟩
  uri := ⟨_, rfl, ⟨by decide, by decide⟩, rfl⟩
  host := ⟨_, rfl, by decide⟩
  userAgent := ⟨_, rfl, by decide⟩
  cookie := by simp [typedRequest]
  acceptEncoding := by simp [typedRequest]
  contentType := by
    rintro t ht
    rw [← Option.some.inj ht]
    decide
  headers := by simp [typedRequest]
  length := by decide
  time := by decide
  noForwarded := ⟨rfl, rfl, rfl⟩
  noUid := ⟨rfl, rfl⟩

/-- The content type is not sent without a body, and not found again. -/
theorem requestHeaders_loseType :
    typedRequest.Sendable ∧ typedRequest.contentType = some (bytes "text/plain") ∧
      ∃ text e body req', prepareClientRequestHeaders (bytes "3") typedRequest = some text ∧
        findEndOfHttpHeaders text = some (e, body) ∧ parseHttpRequest (text.take e) = .ok req' ∧
        req'.contentType = none := by
  have hget : Token (bytes "GET") := ⟨by decide, by decide⟩
  have hroot : Token (bytes "/") := ⟨by decide, by decide⟩
  obtain ⟨text, e, body, htext, hend, hparse⟩ :=
    typedRequest_sendable.parse (bytes "3") rfl hget rfl hroot rfl rfl (by decide)
  exact ⟨typedRequest_sendable, rfl, text, e, body, _, htext, hend, hparse, rfl⟩

end Nxweb
