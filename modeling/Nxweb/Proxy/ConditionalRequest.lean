import Nxweb.Http.RequestLength
import Nxweb.Http.ResponseText
import Nxweb.Proxy.Request

/-!
# Conditional requests through the proxy

Model of the part of `start_proxy_request` (`modules/http_proxy.c`) that fills the record of the
forwarded request. The dates of a backend are shown to the client in the time of the server, and
the `If-Modified-Since` date of the client is translated back: the averaged clock difference is
subtracted from the former and added to the latter.

A time field of 0 stands for an absent header. A response without a date stays without one, but a
request without a date gets the clock difference for its date, and a date that is translated to 0
is lost (`ifModifiedSince_translated`). A date that the client sends back is translated to the one
it stems from, if the date that was shown can be read back.

## Main definitions

* `ProxyForward`, `ProxyForward.prepare`: the forwarded request;
* `ClientRequest`: the request of a client, as it is received;
* `Revalidation`: a client sends back a date that it was shown.
-/

namespace Nxweb

open Lib

/-- What `start_proxy_request` uses of the handler, the connection and the backend. -/
structure ProxyForward where
  /-- `proxy_copy_host` of the handler. -/
  copyHost : Bool := false
  /-- `uri` of the handler, which replaces what is in front of `pathInfo`. -/
  uri : Option (List UInt8) := none
  pathInfo : Option (List UInt8) := none
  backendHost : List UInt8
  remoteAddr : List UInt8
  secure : Bool := false
  deriving DecidableEq, Repr

/-- The uri of the forwarded request. -/
def ProxyForward.forwardedUri (fw : ProxyForward) (req : RequestFields) : Option (List UInt8) :=
  match fw.uri with
  | some base => (fw.pathInfo <|> req.uri).map fun pathInfo => base ++ pathInfo
  | none => req.uri

/-- The record of the forwarded request. `nxd_http_client_proto_start_request` supplies the host if
it is not copied. -/
def ProxyForward.prepare (fw : ProxyForward) (delta : ℤ) (req : RequestFields) : RequestFields where
  host := (if fw.copyHost then req.host else none) <|> some fw.backendHost
  method := req.method
  headMethod := req.headMethod
  contentLength := req.contentLength
  contentType := req.contentType
  expect100Continue := req.contentLength ≠ 0
  uri := fw.forwardedUri req
  http11 := true
  keepAlive := true
  userAgent := req.userAgent
  cookie := req.cookie
  ifModifiedSince := req.ifModifiedSince + delta
  xForwardedFor := some fw.remoteAddr
  xForwardedHost := req.host
  xForwardedSsl := fw.secure
  uid := req.uid
  rootUid := req.rootUid
  headers := req.headers

/-- The record of the pool after some differences have been reported. -/
def TimeDeltas.reportAll (p : TimeDeltas) (deltas : List ℤ) : TimeDeltas :=
  deltas.foldl TimeDeltas.report p

/-- The headers of a printed request that carry its date. -/
def RequestFields.printedDates (revision : List UInt8) (req : RequestFields) :
    List (List UInt8 × List UInt8) :=
  (req.printed revision (req.host.getD [])).filter
    fun f => identifyHttpHeader f.1 = .ifModifiedSince

/-- The request of a client, with the record that the parser returns. -/
structure ClientRequest where
  block : List UInt8
  req : RequestFields
  parsed : parseHttpRequest block = .ok req

/-- The date of the request, if it has one. Of several headers the last one counts. -/
def ClientRequest.date (c : ClientRequest) : Option HeaderField :=
  lastField .ifModifiedSince c.block

/-- The response of a backend is shown to a client, which sends its date back while the averaged
clock difference is the same. -/
structure Revalidation (pool : TimeDeltas) where
  /-- The date that the backend has sent. -/
  text : List UInt8
  presp : HttpResponse
  presp_lastModified : presp.lastModified = parseHttpTime text
  resp : HttpResponse
  now : ℤ
  /-- The response to the client, as it is printed. -/
  out : ResponseFields
  out_lastModified : out.lastModified = (copyBackendResponse pool now presp resp).2.lastModified
  shown : List UInt8
  shown_mem : (bytes "Last-Modified", shown) ∈ out.printedLast
  /-- The differences that are reported before the client sends its request. -/
  later : List ℤ
  later_get : ((copyBackendResponse pool now presp resp).1.reportAll later).get =
    (copyBackendResponse pool now presp resp).1.get
  request : ClientRequest
  sent : request.date.map HeaderField.value = some shown

namespace Revalidation

variable {pool : TimeDeltas} (r : Revalidation pool)

/-- The averaged clock difference when the response is copied. -/
def delta : ℤ := (copyBackendResponse pool r.now r.presp r.resp).1.get

/-- The averaged clock difference when the request is forwarded. -/
def laterDelta : ℤ := ((copyBackendResponse pool r.now r.presp r.resp).1.reportAll r.later).get

end Revalidation

/-- The request carries the moment `t`, in one header that is read so. -/
structure RequestFields.CarriesDate (revision : List UInt8) (req : RequestFields) (t : ℤ) :
    Prop where
  moment : req.ifModifiedSince = t
  header : ∃ f, req.printedDates revision = [f] ∧ parseHttpTime f.2 = t

/-! ### The record of the client's request -/

/-- The headers that are collected have other names. -/
theorem foldl_headers_ne {p : RequestParser} (fs : List HeaderField)
    (h : ∀ f ∈ p.req.headers, identifyHttpHeader f.1 ≠ .ifModifiedSince) :
    ∀ f ∈ (fs.foldl RequestParser.header p).req.headers,
      identifyHttpHeader f.1 ≠ .ifModifiedSince := by
  induction fs generalizing p with
  | nil => exact h
  | cons f fs ih =>
    refine ih ?_
    unfold RequestParser.header
    split
    case h_12 hname _ _ =>
      exact List.forall_mem_cons.mpr ⟨hname, h⟩
    all_goals exact h

namespace ClientRequest

variable (c : ClientRequest)

/-- A request without a date has a date of 0. -/
theorem ifModifiedSince_eq :
    c.req.ifModifiedSince = c.date.elim 0 fun f => parseHttpTime f.value :=
  parseHttpRequest_ifModifiedSince c.parsed

theorem headers_ne : ∀ f ∈ c.req.headers, identifyHttpHeader f.1 ≠ .ifModifiedSince := by
  obtain ⟨p, method, -, -, -, hnil, -, heq⟩ := parseHttpRequest_eq_ok c.parsed
  rw [heq]
  exact foldl_headers_ne _ (by simp [hnil])

end ClientRequest

/-! ### The headers of the forwarded request -/

section Filter

variable {id : HeaderName} {name : String}

theorem filter_headerIf_of_ne (h : identifyHttpHeader (bytes name) ≠ id) (c : Bool)
    (value : List UInt8) :
    (headerIf c name value).filter (fun f => identifyHttpHeader f.1 = id) = [] :=
  List.filter_eq_nil_iff.mpr fun f hf => by
    simpa using forall_mem_headerIf (P := fun name => identifyHttpHeader name ≠ id) h c value f hf

theorem filter_headerOpt_of_ne (h : identifyHttpHeader (bytes name) ≠ id)
    (value : Option (List UInt8)) :
    (headerOpt name value).filter (fun f => identifyHttpHeader f.1 = id) = [] :=
  List.filter_eq_nil_iff.mpr fun f hf => by
    simpa using forall_mem_headerOpt (P := fun name => identifyHttpHeader name ≠ id) h value f hf

end Filter

/-- The date is printed in a header of its own if it is not 0. -/
theorem RequestFields.printedDates_eq (revision : List UInt8) {req : RequestFields}
    (h : ∀ f ∈ req.headers, identifyHttpHeader f.1 ≠ .ifModifiedSince) :
    req.printedDates revision = headerIf (req.ifModifiedSince ≠ 0) "If-Modified-Since"
      (formatHttpTime (gmtime req.ifModifiedSince)) := by
  have hextra : req.headers.filter (fun f => identifyHttpHeader f.1 = .ifModifiedSince) = [] :=
    List.filter_eq_nil_iff.mpr fun f hf => by simpa using h f hf
  have hdate : (headerIf (req.ifModifiedSince ≠ 0) "If-Modified-Since"
      (formatHttpTime (gmtime req.ifModifiedSince))).filter
        (fun f => identifyHttpHeader f.1 = .ifModifiedSince) =
      headerIf (req.ifModifiedSince ≠ 0) "If-Modified-Since"
        (formatHttpTime (gmtime req.ifModifiedSince)) :=
    List.filter_eq_self.mpr fun f hf => decide_eq_true
      (forall_mem_headerIf (P := fun name => identifyHttpHeader name = .ifModifiedSince)
        (by decide) _ _ f hf)
  unfold RequestFields.printedDates RequestFields.printed
  simp only [List.filter_append, hextra, hdate]
  repeat rw [filter_headerIf_of_ne (by decide)]
  repeat rw [filter_headerOpt_of_ne (by decide)]
  simp only [List.nil_append, List.append_nil]

/-- The request carries a moment that a date can express exactly if its date is that moment. -/
theorem RequestFields.carriesDate_iff (revision : List UInt8) {req : RequestFields} {t : ℤ}
    (h : ∀ f ∈ req.headers, identifyHttpHeader f.1 ≠ .ifModifiedSince) (ht : HttpTime t)
    (hne : t ≠ 0) : req.CarriesDate revision t ↔ req.ifModifiedSince = t := by
  refine ⟨fun hcarries => hcarries.moment, fun heq => ⟨heq, ?_⟩⟩
  refine ⟨(bytes "If-Modified-Since", formatHttpTime (gmtime t)), ?_,
    parseHttpTime_formatHttpTime ht⟩
  rw [req.printedDates_eq revision h, heq, headerIf, if_pos (by simpa using hne)]

/-- The date that is shown is that of the record, which is not 0. -/
theorem ResponseFields.lastModified_of_mem {out : ResponseFields} {value : List UInt8}
    (h : (bytes "Last-Modified", value) ∈ out.printedLast) :
    out.lastModified ≠ 0 ∧ value = formatHttpTime (gmtime out.lastModified) := by
  have hne : ∀ {name : String} {c : Bool} {v : List UInt8}, bytes name ≠ bytes "Last-Modified" →
      (bytes "Last-Modified", value) ∉ headerIf c name v := fun hname hmem =>
    forall_mem_headerIf (P := fun n => n ≠ bytes "Last-Modified") hname _ _ _ hmem rfl
  have hne' : ∀ {name : String} {v : Option (List UInt8)}, bytes name ≠ bytes "Last-Modified" →
      (bytes "Last-Modified", value) ∉ headerOpt name v := fun hname hmem =>
    forall_mem_headerOpt (P := fun n => n ≠ bytes "Last-Modified") hname _ _ hmem rfl
  unfold ResponseFields.printedLast at h
  simp only [List.mem_append] at h
  rcases h with (((((((h | h) | h) | h) | h) | h) | h) | h)
  · exact absurd h (hne (by decide))
  · exact absurd h (hne (by decide))
  · unfold headerIf at h
    split_ifs at h with hc
    · exact ⟨of_decide_eq_true hc, (Prod.mk.inj (List.mem_singleton.mp h)).2⟩
    · simp at h
  · exact absurd h (hne' (by decide))
  · exact absurd h (hne (by decide))
  · exact absurd h (hne' (by decide))
  · exact absurd h (hne (by decide))
  · exact absurd h (hne (by decide))

/-! ### Both directions -/

/-- The forwarded request has a date exactly if its moment is not 0. -/
theorem ProxyForward.forwards_iff (fw : ProxyForward) (revision : List UInt8) (delta : ℤ)
    (c : ClientRequest) : (fw.prepare delta c.req).printedDates revision ≠ [] ↔
      c.req.ifModifiedSince + delta ≠ 0 := by
  have hheaders : ∀ f ∈ (fw.prepare delta c.req).headers,
      identifyHttpHeader f.1 ≠ .ifModifiedSince := c.headers_ne
  rw [RequestFields.printedDates_eq revision hheaders, headerIf]
  have hmoment : (fw.prepare delta c.req).ifModifiedSince = c.req.ifModifiedSince + delta := rfl
  rw [hmoment]
  by_cases h : c.req.ifModifiedSince + delta = 0 <;> simp [h]

namespace Revalidation

variable {pool : TimeDeltas} (r : Revalidation pool)

/-- The moment that is shown to the client. -/
theorem shown_eq : r.presp.lastModified - r.delta ≠ 0 ∧ r.presp.lastModified ≠ 0 ∧
    r.shown = formatHttpTime (gmtime (r.presp.lastModified - r.delta)) := by
  obtain ⟨hne, hshown⟩ := ResponseFields.lastModified_of_mem r.shown_mem
  have hout : r.out.lastModified =
      if r.presp.lastModified ≠ 0 then r.presp.lastModified - r.delta else 0 := r.out_lastModified
  rw [hout] at hne hshown
  by_cases hL : r.presp.lastModified = 0
  · rw [if_neg (not_not.mpr hL)] at hne
    contradiction
  · rw [if_pos hL] at hne hshown
    exact ⟨hne, hL, hshown⟩

/-- What the client sends back is translated to the date of the backend exactly if the date that it
was shown can be read back. -/
theorem carriesDate_iff (fw : ProxyForward) (revision : List UInt8) :
    (fw.prepare r.laterDelta r.request.req).CarriesDate revision r.presp.lastModified ↔
      HttpTime (r.presp.lastModified - r.delta) := by
  obtain ⟨hne, hL, hshown⟩ := r.shown_eq
  have htime : HttpTime r.presp.lastModified := by
    rw [r.presp_lastModified] at hL ⊢
    exact parseHttpTime_range r.text hL
  have hheaders : ∀ f ∈ (fw.prepare r.laterDelta r.request.req).headers,
      identifyHttpHeader f.1 ≠ .ifModifiedSince := r.request.headers_ne
  have hdelta : r.laterDelta = r.delta := r.later_get
  have hsent : r.request.req.ifModifiedSince = parseHttpTime r.shown := by
    obtain ⟨f, hf, hvalue⟩ := Option.map_eq_some_iff.mp r.sent
    rw [r.request.ifModifiedSince_eq, hf, Option.elim_some, hvalue]
  have hmoment : (fw.prepare r.laterDelta r.request.req).ifModifiedSince =
      parseHttpTime r.shown + r.delta := by rw [← hsent, ← hdelta]; rfl
  rw [RequestFields.carriesDate_iff revision hheaders htime hL, hmoment, hshown]
  constructor
  · intro heq
    have hback : parseHttpTime (formatHttpTime (gmtime (r.presp.lastModified - r.delta))) =
        r.presp.lastModified - r.delta := eq_sub_of_add_eq heq
    have hrange := parseHttpTime_range _ (hback.trans_ne hne)
    rwa [hback] at hrange
  · intro h
    rw [parseHttpTime_formatHttpTime h]
    exact sub_add_cancel _ _

end Revalidation

/-- After any history of reported clock differences: a request keeps whether it has a date if and
only if, without a date, the averaged difference is 0, and with one, the difference does not
translate it to 0. A date that was shown to the client comes back to the backend as it was if and
only if the date that was shown can be read back. -/
theorem ifModifiedSince_translated (fw : ProxyForward) (revision : List UInt8)
    (reported : List ℤ) :
    (∀ c : ClientRequest,
      (c.date.isSome ↔
        (fw.prepare (({} : TimeDeltas).reportAll reported).get c.req).printedDates revision ≠ []) ↔
      match c.date with
      | none => (({} : TimeDeltas).reportAll reported).get = 0
      | some f => parseHttpTime f.value ≠ -(({} : TimeDeltas).reportAll reported).get) ∧
    ∀ r : Revalidation (({} : TimeDeltas).reportAll reported),
      (fw.prepare r.laterDelta r.request.req).CarriesDate revision r.presp.lastModified ↔
        HttpTime (r.presp.lastModified - r.delta) := by
  refine ⟨fun c => ?_, fun r => r.carriesDate_iff fw revision⟩
  rw [fw.forwards_iff, c.ifModifiedSince_eq]
  cases hdate : c.date with
  | none => simp
  | some f =>
    simp only [Option.isSome_some, Option.elim_some, true_iff, ne_eq, not_iff_not]
    omega

/-- A handler without a path of its own. -/
def plainForward : ProxyForward where
  backendHost := bytes "backend"
  remoteAddr := bytes "10.0.0.1"

/-- A request without a date. -/
def plainGet : List UInt8 := bytes "GET / HTTP/1.1\r\nHost: a"

/-- A request that the parser accepts, from its text. -/
theorem ClientRequest.exists_of_isOk (block : List UInt8)
    (h : (parseHttpRequest block).isOk = true) : ∃ c : ClientRequest, c.block = block := by
  cases hparse : parseHttpRequest block with
  | error code =>
    rw [hparse] at h
    contradiction
  | ok req => exact ⟨⟨block, req, hparse⟩, rfl⟩

/-- If the clock of the backend is a minute ahead, a request without a date gets one. -/
theorem plainGet_gets_date : ∃ c : ClientRequest, c.block = plainGet ∧ ¬ (c.date.isSome ↔
    (plainForward.prepare (({} : TimeDeltas).reportAll [60]).get c.req).printedDates [] ≠ []) := by
  obtain ⟨c, hblock⟩ := ClientRequest.exists_of_isOk plainGet (by decide +kernel)
  have hdate : c.date = none := by
    rw [ClientRequest.date, hblock]
    decide +kernel
  have hdelta : (({} : TimeDeltas).reportAll [60]).get = 60 := by decide
  refine ⟨c, hblock, ?_⟩
  rw [plainForward.forwards_iff, c.ifModifiedSince_eq, hdate, hdelta]
  decide

/-- A request with the date that is shown if the averaged clock difference is half an hour. -/
def datedGet : List UInt8 :=
  bytes "GET / HTTP/1.1\r\nHost: a\r\nIf-Modified-Since: Tue, 24 Jan 2012 12:35:54 GMT"

/-- The response of a backend, and the request that sends its date back. -/
def datedRevalidation (c : ClientRequest) (hblock : c.block = datedGet) :
    Revalidation (({} : TimeDeltas).reportAll [3600]) where
  text := bytes "Tue, 24 Jan 2012 13:05:54 GMT"
  presp := { lastModified := 1327410354 }
  presp_lastModified := by decide +kernel
  resp := {}
  now := 1500000000
  out := { lastModified := 1327408554, contentLength := 0 }
  out_lastModified := by decide
  shown := bytes "Tue, 24 Jan 2012 12:35:54 GMT"
  shown_mem := by decide +kernel
  later := [1800]
  later_get := by decide
  request := c
  sent := by
    rw [ClientRequest.date, hblock]
    decide +kernel

theorem ifModifiedSince_translated_dated : ∃ c : ClientRequest, ∃ hblock : c.block = datedGet,
    (plainForward.prepare (datedRevalidation c hblock).laterDelta c.req).CarriesDate []
      1327410354 := by
  obtain ⟨c, hblock⟩ := ClientRequest.exists_of_isOk datedGet (by decide +kernel)
  refine ⟨c, hblock, ?_⟩
  have hdelta : (datedRevalidation c hblock).delta = 1800 := by
    show (({} : TimeDeltas).reportAll [3600, 0]).get = 1800
    decide
  refine ((ifModifiedSince_translated plainForward [] [3600]).2 (datedRevalidation c hblock)).mpr ?_
  rw [hdelta]
  show HttpTime (1327410354 - 1800)
  exact .of_nonneg (by decide) (by decide)

end Nxweb
