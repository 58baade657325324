import Nxweb.Http.DateBuffer
import Nxweb.Http.RequestText
import Nxweb.Memory.ArenaRoom

/-!
# The room of the request headers

`_nxweb_prepare_client_request_headers` appends the headers of a request to an arena. It mixes
checked appends, which make room, with unchecked ones, which rely on the room that was made
before: 250 bytes for the first line, 100 for the line `Host` and for what follows it up to the next
request for room. Here are the calls that it makes, in their order, and the requests for which every
unchecked call fits, whatever room the arena has.

## Main definitions

* `requestHeaderCalls`: the calls for a request;
* `RequestFields.HeadersFit`: the condition on the lengths.

## Main results

* `data_requestHeaderCalls`: the calls append the headers and a terminator;
* `requestHeaders_fit_iff`: the calls fit in every arena if and only if the condition holds.
-/

namespace Nxweb

open Lib

/-! ### The calls -/

/-- The calls up to the line `Host`. -/
def requestLineCalls (method uri : List UInt8) (http11 : Bool) : List ArenaCall :=
  [.makeRoom 250, .append method, .appendFast (bytes " "), .append uri,
    .appendFast (bytes " HTTP/1."), .appendFast (bytes (if http11 then "1" else "0"))]

/-- The line `Host`, and the room for what follows. -/
def hostCalls (host : List UInt8) : List ArenaCall :=
  [.makeRoom 100, .appendFast (crlf ++ bytes "Host: "), .append host, .makeRoom 100]

def connectionCalls (keepAlive : Bool) : List ArenaCall :=
  [.appendFast (crlf ++ bytes "Connection: "),
    .appendFast (bytes (if keepAlive then "keep-alive" else "close")), .appendFast crlf]

/-- The date is formatted into the room, then it is counted. -/
def ifModifiedSinceCalls (ifModifiedSince : ℤ) : List ArenaCall :=
  if ifModifiedSince = 0 then []
  else
    let tm := gmtime ifModifiedSince
    [.makeRoom 52, .appendFast (bytes "If-Modified-Since: "),
      .formatFast (formatHttpTime tm) (httpTimeSize tm) (httpTimeReach tm), .appendFast crlf]

def expectCalls (expect100Continue : Bool) : List ArenaCall :=
  if expect100Continue then [.appendFast (bytes "Expect: 100-continue" ++ crlf)] else []

def xForwardedSslCalls (xForwardedSsl : Bool) : List ArenaCall :=
  if xForwardedSsl then [.appendFast (bytes "X-NXWEB-Forwarded-SSL: ON" ++ crlf)] else []

/-- The strings appended for a header that is printed if its value is set. -/
def optionalHeader (name : String) (value : Option (List UInt8)) : List (List UInt8) :=
  value.toList.flatMap fun value => [bytes name ++ bytes ": ", value, crlf]

/-- The strings appended for a number that is printed unless it is zero. -/
def uidHeader (name : String) (uid : ℕ) : List (List UInt8) :=
  if uid = 0 then [] else [bytes name ++ bytes ": ", uintToHexStringZeropad uid 16, crlf]

/-- The strings that are appended from `X-NXWEB-Forwarded-Host` to `Accept-Encoding`, all of them
with a check. -/
def RequestFields.checkedStrings (revision : List UInt8) (req : RequestFields) :
    List (List UInt8) :=
  optionalHeader "X-NXWEB-Forwarded-Host" req.xForwardedHost ++
  optionalHeader "X-NXWEB-Forwarded-IP" req.xForwardedFor ++
  uidHeader "X-NXWEB-Request-ID" req.uid ++
  uidHeader "X-NXWEB-Root-Request-ID" (req.rootUid.getD 0) ++
  (match req.userAgent with
  | some userAgent => [bytes "User-Agent: ", userAgent, crlf]
  | none => [bytes "User-Agent: nxweb/" ++ revision ++ crlf]) ++
  optionalHeader "Cookie" req.cookie ++
  (req.headers.flatMap fun f => [f.1, bytes ":", bytes " ", f.2, crlf]) ++
  optionalHeader "Accept-Encoding" req.acceptEncoding

/-- The headers of a body. -/
def contentCalls (contentType : Option (List UInt8)) (contentLength : ℤ) : List ArenaCall :=
  if contentLength = 0 then []
  else
    [.append (bytes "Content-Type: "),
      .append (contentType.getD (bytes "application/x-www-form-urlencoded")), .append crlf,
      .makeRoom 48] ++
    (if 0 ≤ contentLength then
      [.appendFast (bytes "Content-Length: "), .appendFast (uintToDecimalString contentLength)]
    else [.appendFast (bytes "Transfer-Encoding: chunked")]) ++
    [.append crlf]

/-- The headers with a fixed text, for which room is made with the line `Host`. -/
def RequestFields.fixedCalls (req : RequestFields) : List ArenaCall :=
  connectionCalls req.keepAlive ++ ifModifiedSinceCalls req.ifModifiedSince ++
    expectCalls req.expect100Continue ++ xForwardedSslCalls req.xForwardedSsl

/-- `_nxweb_prepare_client_request_headers`: its calls behind `nxb_start_stream`; `none` if a null
pointer is followed. -/
def requestHeaderCalls (revision : List UInt8) (req : RequestFields) :
    Option (List ArenaCall) := do
  let method ← req.wireMethod
  let uri ← req.uri
  let host ← req.host
  return requestLineCalls method uri req.http11 ++ hostCalls host ++ req.fixedCalls ++
    (req.checkedStrings revision).map .append ++
    contentCalls req.contentType req.contentLength ++ [.appendFast (crlf ++ [0])]

/-! ### What the calls append -/

/-- The bytes of a sequence of calls. -/
def callsData (calls : List ArenaCall) : List UInt8 := calls.flatMap ArenaCall.data

@[simp]
theorem callsData_append (calls calls' : List ArenaCall) :
    callsData (calls ++ calls') = callsData calls ++ callsData calls' := List.flatMap_append

@[simp]
theorem callsData_map_append (datas : List (List UInt8)) :
    callsData (datas.map .append) = datas.flatten := by
  rw [callsData, List.flatMap_map, List.flatten_eq_flatMap]
  rfl

/-- The lines of headers as they are printed. -/
def headerLinesText (fs : List (List UInt8 × List UInt8)) : List UInt8 :=
  fs.flatMap fun f => headerText f ++ crlf

@[simp]
theorem headerLinesText_append (fs gs : List (List UInt8 × List UInt8)) :
    headerLinesText (fs ++ gs) = headerLinesText fs ++ headerLinesText gs := List.flatMap_append

@[simp]
theorem headerLinesText_headerIf (c : Bool) (name : String) (value : List UInt8) :
    headerLinesText (headerIf c name value) =
      if c then bytes name ++ bytes ": " ++ value ++ crlf else [] := by
  cases c <;> simp [headerLinesText, headerIf, headerText]

@[simp]
theorem flatten_optionalHeader (name : String) (value : Option (List UInt8)) :
    (optionalHeader name value).flatten = headerLinesText (headerOpt name value) := by
  cases value with
  | none => rfl
  | some value => simp [optionalHeader, headerOpt, headerLinesText, headerText]

@[simp]
theorem flatten_uidHeader (name : String) (uid : ℕ) :
    (uidHeader name uid).flatten =
      headerLinesText (headerIf (uid ≠ 0) name (uintToHexStringZeropad uid 16)) := by
  by_cases huid : uid = 0 <;> simp [uidHeader, huid]

theorem flatten_checkedStrings (revision : List UInt8) (req : RequestFields) :
    (req.checkedStrings revision).flatten =
      headerLinesText (headerOpt "X-NXWEB-Forwarded-Host" req.xForwardedHost ++
        headerOpt "X-NXWEB-Forwarded-IP" req.xForwardedFor ++
        headerIf (req.uid ≠ 0) "X-NXWEB-Request-ID" (uintToHexStringZeropad req.uid 16) ++
        headerIf (req.rootUid.getD 0 ≠ 0) "X-NXWEB-Root-Request-ID"
          (uintToHexStringZeropad (req.rootUid.getD 0) 16) ++
        headerIf true "User-Agent" (req.userAgent.getD (bytes "nxweb/" ++ revision)) ++
        headerOpt "Cookie" req.cookie ++ req.headers ++
        headerOpt "Accept-Encoding" req.acceptEncoding) := by
  have hagent : (match req.userAgent with
      | some userAgent => [bytes "User-Agent: ", userAgent, crlf]
      | none => [bytes "User-Agent: nxweb/" ++ revision ++ crlf]).flatten =
      headerLinesText
        (headerIf true "User-Agent" (req.userAgent.getD (bytes "nxweb/" ++ revision))) := by
    have hline : bytes "User-Agent: " = bytes "User-Agent" ++ bytes ": " := by decide
    have hdefault : bytes "User-Agent: nxweb/" =
        bytes "User-Agent" ++ bytes ": " ++ bytes "nxweb/" := by decide
    cases req.userAgent <;> simp [hline, hdefault]
  have hheaders : (req.headers.flatMap fun f => [f.1, bytes ":", bytes " ", f.2, crlf]).flatten =
      headerLinesText req.headers := by
    have hcolon : bytes ": " = bytes ":" ++ bytes " " := by decide
    induction req.headers with
    | nil => rfl
    | cons f fs ih =>
      rw [List.flatMap_cons, List.flatten_append, ih]
      simp [headerLinesText, headerText, hcolon]
  simp only [RequestFields.checkedStrings, List.flatten_append, headerLinesText_append, hagent,
    hheaders, flatten_optionalHeader, flatten_uidHeader]

theorem callsData_fixedCalls (req : RequestFields) (host : List UInt8) :
    callsData (hostCalls host) ++ callsData req.fixedCalls =
      crlf ++ headerLinesText (headerIf true "Host" host ++
        headerIf true "Connection" (bytes (if req.keepAlive then "keep-alive" else "close")) ++
        headerIf (req.ifModifiedSince ≠ 0) "If-Modified-Since"
          (formatHttpTime (gmtime req.ifModifiedSince)) ++
        headerIf req.expect100Continue "Expect" (bytes "100-continue") ++
        headerIf req.xForwardedSsl "X-NXWEB-Forwarded-SSL" (bytes "ON")) := by
  have hhost : bytes "Host: " = bytes "Host" ++ bytes ": " := by decide
  have hconnection : bytes "Connection: " = bytes "Connection" ++ bytes ": " := by decide
  have hdate : bytes "If-Modified-Since: " = bytes "If-Modified-Since" ++ bytes ": " := by decide
  have hexpect : bytes "Expect: 100-continue" =
      bytes "Expect" ++ bytes ": " ++ bytes "100-continue" := by decide
  have hssl : bytes "X-NXWEB-Forwarded-SSL: ON" =
      bytes "X-NXWEB-Forwarded-SSL" ++ bytes ": " ++ bytes "ON" := by decide
  have hdates : callsData (ifModifiedSinceCalls req.ifModifiedSince) =
      headerLinesText (headerIf (req.ifModifiedSince ≠ 0) "If-Modified-Since"
        (formatHttpTime (gmtime req.ifModifiedSince))) := by
    unfold ifModifiedSinceCalls
    split_ifs with hzero <;> simp [callsData, ArenaCall.data, hzero, hdate]
  have hexpects : callsData (expectCalls req.expect100Continue) =
      headerLinesText (headerIf req.expect100Continue "Expect" (bytes "100-continue")) := by
    cases req.expect100Continue <;> simp [expectCalls, callsData, ArenaCall.data, hexpect]
  have hssls : callsData (xForwardedSslCalls req.xForwardedSsl) =
      headerLinesText (headerIf req.xForwardedSsl "X-NXWEB-Forwarded-SSL" (bytes "ON")) := by
    cases req.xForwardedSsl <;> simp [xForwardedSslCalls, callsData, ArenaCall.data, hssl]
  simp only [RequestFields.fixedCalls, callsData_append, hdates, hexpects, hssls,
    headerLinesText_append]
  simp [hostCalls, connectionCalls, callsData, ArenaCall.data, hhost, hconnection]

theorem callsData_contentCalls (req : RequestFields) :
    callsData (contentCalls req.contentType req.contentLength) =
      headerLinesText (headerIf (req.contentLength ≠ 0) "Content-Type"
          (req.contentType.getD (bytes "application/x-www-form-urlencoded")) ++
        headerIf (0 < req.contentLength) "Content-Length" (uintToDecimalString req.contentLength) ++
        headerIf (req.contentLength < 0) "Transfer-Encoding" (bytes "chunked")) := by
  have htype : bytes "Content-Type: " = bytes "Content-Type" ++ bytes ": " := by decide
  have hlength : bytes "Content-Length: " = bytes "Content-Length" ++ bytes ": " := by decide
  have hchunked : bytes "Transfer-Encoding: chunked" =
      bytes "Transfer-Encoding" ++ bytes ": " ++ bytes "chunked" := by decide
  unfold contentCalls
  split_ifs with hzero hnonneg
  · simp [hzero, callsData]
  · have hpos : 0 < req.contentLength := by omega
    simp [hzero, hpos, hnonneg.not_gt, callsData, ArenaCall.data, htype, hlength]
  · have hneg : req.contentLength < 0 := by omega
    simp [hzero, hneg, hneg.not_gt, callsData, ArenaCall.data, htype, hchunked]

/-- The calls append the headers that are printed, and a terminator. -/
theorem data_requestHeaderCalls (revision : List UInt8) (req : RequestFields) :
    (requestHeaderCalls revision req).map callsData =
      (prepareClientRequestHeaders revision req).map (· ++ [0]) := by
  have hline : ∀ method uri, callsData (requestLineCalls method uri req.http11) =
      requestLine method uri req.http11 := by
    simp [requestLineCalls, requestLine, callsData, ArenaCall.data]
  unfold requestHeaderCalls prepareClientRequestHeaders
  rcases req.wireMethod with - | method
  · rfl
  rcases req.uri with - | uri
  · rfl
  rcases req.host with - | host
  · rfl
  have hfixed := callsData_fixedCalls req host
  have hchecked := flatten_checkedStrings revision req
  have hcontent := callsData_contentCalls req
  simp only [Option.bind_eq_bind, Option.bind_some, Option.pure_def, Option.map_some,
    Option.some.injEq, headerBlock, RequestFields.printed, callsData_append, callsData_map_append]
  rw [hchecked, hcontent, hline, List.append_assoc (requestLine _ _ _), hfixed]
  simp [callsData, ArenaCall.data, headerLinesText]

/-! ### Whether the calls fit -/

/-- The length of the headers with a fixed text. -/
def RequestFields.fixedLength (req : RequestFields) : ℕ :=
  16 + (if req.keepAlive then 10 else 5) +
    (if req.ifModifiedSince = 0 then 0 else 21 + httpTimeSize (gmtime req.ifModifiedSince)) +
    (if req.expect100Continue then 22 else 0) + (if req.xForwardedSsl then 27 else 0)

/-- What is left at least behind the line `Host`: the room that is made there, or what the first line
and the host have left of the room that was made for the first line. -/
def roomBehindHost (method uri host : List UInt8) : ℕ :=
  max 100 (250 - (method.length + uri.length + 10 + (8 + host.length)))

/-- The requests whose headers fit in every arena. -/
structure RequestFields.HeadersFit (revision : List UInt8) (req : RequestFields)
    (method uri host : List UInt8) : Prop where
  line : method.length + uri.length + 10 ≤ 250
  fixed : req.fixedLength ≤ roomBehindHost method uri host
  /-- Without a body no more room is made, and the empty line needs three bytes. -/
  last : req.contentLength = 0 → req.fixedLength + (req.checkedStrings revision).flatten.length + 3 ≤
    roomBehindHost method uri host

/-- A checked append behind the first line needs what is left of its room. -/
theorem leastRoom_requestLineCalls (method uri : List UInt8) (http11 : Bool) :
    leastRoom 0 (requestLineCalls method uri http11) =
      if method.length + uri.length + 10 ≤ 250 then
        some (250 - (method.length + uri.length + 10)) else none := by
  have hspace : (bytes " ").length = 1 := by decide
  have hversion : [bytes " HTTP/1.", bytes (if http11 then "1" else "0")].flatten.length = 9 := by
    cases http11 <;> decide
  have hrest := leastRoom_unchecked (250 - method.length - 1 - uri.length)
    [bytes " HTTP/1.", bytes (if http11 then "1" else "0")]
  rw [hversion] at hrest
  show (some (max 0 250 - method.length)).bind (fun r => ((ArenaCall.appendFast _).leastRoom r).bind
    fun r => leastRoom (r - uri.length) ([_, _].map .appendFast)) = _
  rw [Option.bind_some, ArenaCall.leastRoom, hspace]
  by_cases hmethod : 1 ≤ max 0 250 - method.length
  · rw [if_pos hmethod, Option.bind_some, show max 0 250 = 250 from rfl, hrest]
    by_cases hline : method.length + uri.length + 10 ≤ 250
    · rw [if_pos (by omega), if_pos hline]
      congr 1
      omega
    · rw [if_neg (by omega), if_neg hline]
  · rw [if_neg hmethod, Option.bind_none, if_neg (by omega)]

theorem leastRoom_hostCalls (r : ℕ) (host : List UInt8) :
    leastRoom r (hostCalls host) = some (max 100 (r - (8 + host.length))) := by
  have hname : (crlf ++ bytes "Host: ").length = 8 := by decide
  simp only [hostCalls, leastRoom_cons, leastRoom_nil, ArenaCall.leastRoom, Option.bind_some, hname]
  rw [if_pos (by omega), Option.bind_some]
  congr 1
  omega

theorem leastRoom_connectionCalls {r : ℕ} (hr : 26 ≤ r) (keepAlive : Bool) :
    leastRoom r (connectionCalls keepAlive) = some (r - (16 + if keepAlive then 10 else 5)) := by
  have hlength : [crlf ++ bytes "Connection: ", bytes (if keepAlive then "keep-alive" else "close"),
      crlf].flatten.length = 16 + if keepAlive then 10 else 5 := by
    cases keepAlive <;> decide
  show leastRoom r ([_, _, _].map .appendFast) = _
  rw [leastRoom_unchecked, hlength, if_pos (by split_ifs <;> omega)]

/-- The date fits in the room that is made for it. -/
theorem leastRoom_ifModifiedSinceCalls {r : ℕ} (hr : 52 ≤ r) (ifModifiedSince : ℤ) :
    leastRoom r (ifModifiedSinceCalls ifModifiedSince) = some (r -
      if ifModifiedSince = 0 then 0 else 21 + httpTimeSize (gmtime ifModifiedSince)) := by
  have hname : (bytes "If-Modified-Since: ").length = 19 := by decide
  have hcrlf : crlf.length = 2 := rfl
  have hsize := httpTimeSize_gmtime_le ifModifiedSince
  have hreach := httpTimeReach_gmtime_le ifModifiedSince
  unfold ifModifiedSinceCalls
  split_ifs
  · rfl
  · simp only [leastRoom_cons, leastRoom_nil, ArenaCall.leastRoom, Option.bind_some, hname, hcrlf]
    rw [if_pos (by omega), Option.bind_some, if_pos (by omega), Option.bind_some,
      if_pos (by omega), Option.bind_some]
    congr 1
    omega

theorem leastRoom_expectCalls {r : ℕ} (hr : 22 ≤ r) (expect100Continue : Bool) :
    leastRoom r (expectCalls expect100Continue) =
      some (r - if expect100Continue then 22 else 0) := by
  have hlength : (bytes "Expect: 100-continue" ++ crlf).length = 22 := by decide
  cases expect100Continue with
  | false => rfl
  | true => simp [expectCalls, ArenaCall.leastRoom, hlength, hr]

theorem leastRoom_xForwardedSslCalls (r : ℕ) (xForwardedSsl : Bool) :
    leastRoom r (xForwardedSslCalls xForwardedSsl) =
      if (if xForwardedSsl then 27 else 0) ≤ r then
        some (r - if xForwardedSsl then 27 else 0) else none := by
  have hlength : (bytes "X-NXWEB-Forwarded-SSL: ON" ++ crlf).length = 27 := by decide
  cases xForwardedSsl with
  | false => simp [xForwardedSslCalls]
  | true =>
    rw [xForwardedSslCalls, if_pos rfl, leastRoom_cons, ArenaCall.leastRoom, hlength]
    simp only [if_true, leastRoom_nil]
    split_ifs <;> rfl

/-- Only the last of the headers with a fixed text may not fit. -/
theorem leastRoom_fixedCalls {r : ℕ} (hr : 100 ≤ r) (req : RequestFields) :
    leastRoom r req.fixedCalls =
      if req.fixedLength ≤ r then some (r - req.fixedLength) else none := by
  have hsize := httpTimeSize_gmtime_le req.ifModifiedSince
  have hconnection : (if req.keepAlive then 10 else 5) ≤ 10 := by split_ifs <;> omega
  have hdate : (if req.ifModifiedSince = 0 then 0 else
      21 + httpTimeSize (gmtime req.ifModifiedSince)) ≤ 50 := by split_ifs <;> omega
  have hexpect : (if req.expect100Continue then 22 else 0) ≤ 22 := by split_ifs <;> omega
  unfold RequestFields.fixedCalls RequestFields.fixedLength
  rw [leastRoom_append, leastRoom_append, leastRoom_append,
    leastRoom_connectionCalls (by omega), Option.bind_some,
    leastRoom_ifModifiedSinceCalls (by omega), Option.bind_some,
    leastRoom_expectCalls (by omega), Option.bind_some, leastRoom_xForwardedSslCalls]
  generalize (if req.keepAlive then 10 else 5) = connection at *
  generalize (if req.ifModifiedSince = 0 then 0 else
    21 + httpTimeSize (gmtime req.ifModifiedSince)) = date at *
  generalize (if req.expect100Continue then 22 else 0) = expect at *
  generalize (if req.xForwardedSsl then 27 else 0) = ssl
  by_cases hfit : 16 + connection + date + expect + ssl ≤ r
  · rw [if_pos (by omega), if_pos hfit]
    congr 1
    omega
  · rw [if_neg (by omega), if_neg hfit]

/-- The headers of a body leave the room that was made for them. -/
theorem leastRoom_contentCalls (r : ℕ) (contentType : Option (List UInt8)) {contentLength : ℤ}
    (h : contentLength ≠ 0) :
    ∃ r', leastRoom r (contentCalls contentType contentLength) = some r' ∧ 3 ≤ r' := by
  have hdigits := length_uintToDecimalString_le contentLength
  have hlengthName : (bytes "Content-Length: ").length = 16 := by decide
  have hchunked : (bytes "Transfer-Encoding: chunked").length = 26 := by decide
  have hcrlf : crlf.length = 2 := rfl
  unfold contentCalls
  rw [if_neg h]
  split_ifs
  · simp only [List.cons_append, List.nil_append, leastRoom_cons, leastRoom_nil,
      ArenaCall.leastRoom, Option.bind_some, hlengthName, hcrlf]
    rw [if_pos (by omega), Option.bind_some, if_pos (by omega), Option.bind_some]
    exact ⟨_, rfl, by omega⟩
  · simp only [List.cons_append, List.nil_append, leastRoom_cons, leastRoom_nil,
      ArenaCall.leastRoom, Option.bind_some, hchunked, hcrlf]
    rw [if_pos (by omega), Option.bind_some]
    exact ⟨_, rfl, by omega⟩

/-- The headers of a request fit in every arena, whatever room it has, if and only if the first line
fits in 250 bytes and the headers with a fixed text, without a body all that follow, fit in the room
that there is behind the host. -/
theorem requestHeaders_fit_iff (revision : List UInt8) {req : RequestFields}
    {method uri host : List UInt8} (hmethod : req.wireMethod = some method)
    (huri : req.uri = some uri) (hhost : req.host = some host) :
    (∃ calls, requestHeaderCalls revision req = some calls ∧
      ∀ a : ArenaRoom, a.startStream.Fits calls) ↔ req.HeadersFit revision method uri host := by
  have hcalls : requestHeaderCalls revision req = some (requestLineCalls method uri req.http11 ++
      hostCalls host ++ req.fixedCalls ++ (req.checkedStrings revision).map .append ++
      contentCalls req.contentType req.contentLength ++ [.appendFast (crlf ++ [0])]) := by
    simp only [requestHeaderCalls, hmethod, huri, hhost, Option.bind_eq_bind, Option.bind_some,
      Option.pure_def]
  have hend : (crlf ++ [(0 : UInt8)]).length = 3 := rfl
  have hexists : ∀ {calls} {P : List ArenaCall → Prop},
      (∃ calls', some calls = some calls' ∧ P calls') ↔ P calls := by simp
  rw [hcalls, hexists, ArenaRoom.forall_fits_iff, leastRoom_append, leastRoom_append,
    leastRoom_append, leastRoom_append, leastRoom_append, leastRoom_requestLineCalls]
  by_cases hline : method.length + uri.length + 10 ≤ 250
  swap
  · rw [if_neg hline]
    exact iff_of_false (by simp) fun h => hline h.line
  rw [if_pos hline, Option.bind_some, leastRoom_hostCalls, Option.bind_some]
  have hroom : max 100 (250 - (method.length + uri.length + 10) - (8 + host.length)) =
      roomBehindHost method uri host := by
    unfold roomBehindHost
    omega
  rw [hroom, leastRoom_fixedCalls (by unfold roomBehindHost; omega)]
  by_cases hfixed : req.fixedLength ≤ roomBehindHost method uri host
  swap
  · rw [if_neg hfixed]
    exact iff_of_false (by simp) fun h => hfixed h.fixed
  rw [if_pos hfixed, Option.bind_some, leastRoom_checked, Option.bind_some]
  by_cases hbody : req.contentLength = 0
  · -- without a body the last bytes come out of what is left
    have hnone : contentCalls req.contentType req.contentLength = [] := if_pos hbody
    rw [hnone, leastRoom_nil, Option.bind_some, leastRoom_cons, ArenaCall.leastRoom, hend]
    split_ifs with hlast
    · exact iff_of_true rfl ⟨hline, hfixed, fun _ => by omega⟩
    · apply iff_of_false (by simp)
      intro h
      have := h.last hbody
      omega
  · obtain ⟨r', hr', hlast⟩ := leastRoom_contentCalls (roomBehindHost method uri host -
      req.fixedLength - (req.checkedStrings revision).flatten.length) req.contentType hbody
    rw [hr', Option.bind_some, leastRoom_cons, ArenaCall.leastRoom, hend, if_pos hlast]
    exact iff_of_true rfl ⟨hline, hfixed, fun h => absurd h hbody⟩

/-- A request for the root of a site. -/
def rootRequest : RequestFields where
  http11 := true
  method := some (bytes "GET")
  uri := some (bytes "/")
  host := some (bytes "example.com")

theorem requestHeaders_fit_iff_root :
    (∃ calls, requestHeaderCalls (bytes "3") rootRequest = some calls ∧
      ∀ a : ArenaRoom, a.startStream.Fits calls) ↔
    rootRequest.HeadersFit (bytes "3") (bytes "GET") (bytes "/") (bytes "example.com") :=
  requestHeaders_fit_iff (bytes "3") rfl rfl rfl

/-- With a uri of 246 characters the first line does not fit in the room that is made for it. -/
theorem requestHeaders_not_fit :
    ¬ ∃ calls, requestHeaderCalls (bytes "3")
        { rootRequest with uri := some (slash :: List.replicate 245 97) } = some calls ∧
      ∀ a : ArenaRoom, a.startStream.Fits calls := by
  rintro ⟨calls, hcalls, hfits⟩
  -- an arena with just the room that is asked for
  have hnone : ∀ calls' ∈ requestHeaderCalls (bytes "3")
      { rootRequest with uri := some (slash :: List.replicate 245 97) },
      ¬ ArenaRoom.Fits (ArenaRoom.startStream ⟨250, 0, 250, by decide⟩) calls' := by
    decide +kernel
  exact hnone calls hcalls (hfits _)

end Nxweb
