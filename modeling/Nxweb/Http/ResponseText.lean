import Nxweb.Http.Date
import Nxweb.Http.HeaderBlock
import Nxweb.Http.HeaderName

/-!
# Printing and parsing response headers

Model of `_nxweb_prepare_response_headers`, which prints the headers of a response to a client or
into the file cache, and of `_nxweb_parse_http_response`, which reads those of a backend
(`http_utils.c`).

The time of the `Date` header and the version of the server are parameters. The parser starts from
a record of zeros.

## Main definitions

* `ResponseFields`: the fields of `nxweb_http_response` that the two functions use;
* `prepareResponseHeaders`;
* `parseHttpResponse`.
-/

namespace Nxweb

open Lib

/-- `nxweb_http_response`, with the fields of the header block. A null pointer is `none`. -/
structure ResponseFields where
  contentLength : ℤ := 0
  keepAlive : Bool := false
  http11 : Bool := false
  chunkedEncoding : Bool := false
  gzipEncoded : Bool := false
  ssiOn : Bool := false
  templatesOn : Bool := false
  noCache : Bool := false
  cachePrivate : Bool := false
  status : Option (List UInt8) := none
  contentType : Option (List UInt8) := none
  contentCharset : Option (List UInt8) := none
  cacheControl : Option (List UInt8) := none
  etag : Option (List UInt8) := none
  headers : List (List UInt8 × List UInt8) := []
  extraRawHeaders : Option (List UInt8) := none
  date : ℤ := 0
  lastModified : ℤ := 0
  expires : ℤ := 0
  maxAge : ℤ := 0
  statusCode : ℤ := 0
  deriving DecidableEq, Repr

/-! ### The printer -/

/-- The headers that are not printed again by `_nxweb_add_extra_response_headers`. -/
def isFilteredHeader (name : List UInt8) : Bool :=
  match identifyHttpHeader name with
  | .connection | .server | .contentType | .contentLength | .transferEncoding | .date
  | .cacheControl | .expires | .lastModified | .etag | .acceptRanges => true
  | _ => false

/-- `_nxweb_add_extra_response_headers`. -/
def addExtraResponseHeaders (headers : List (List UInt8 × List UInt8)) :
    List (List UInt8 × List UInt8) :=
  headers.filter fun f => ¬ isFilteredHeader f.1

namespace ResponseFields

/-- A response with such a status has no body. -/
def mustNotHaveBody (resp : ResponseFields) : Bool :=
  resp.statusCode = 304 ∨ resp.statusCode = 204 ∨ resp.statusCode = 205

/-- The first line of a response. -/
def statusLine (resp : ResponseFields) : List UInt8 :=
  bytes "HTTP/1." ++ bytes (if resp.http11 then "1" else "0") ++ bytes " " ++
    uintToDecimalString (if resp.statusCode ≠ 0 then resp.statusCode else 200) ++ bytes " " ++
    resp.status.getD (bytes "OK")

/-- The directives that are printed if there is no `cache_control`. -/
def cacheDirectives (resp : ResponseFields) : List (List UInt8) :=
  (if resp.cachePrivate then [bytes "private"] else []) ++
  (if resp.noCache then [bytes "no-cache"] else []) ++
  (if resp.maxAge ≠ 0 then
    [bytes "max-age=" ++ if resp.maxAge = -1 then bytes "0" else uintToDecimalString resp.maxAge]
  else [])

/-- The value of the `Cache-Control` header. -/
def cacheControlText (resp : ResponseFields) : Option (List UInt8) :=
  if resp.cacheControl.isSome then resp.cacheControl
  else if resp.noCache ∨ resp.cachePrivate ∨ resp.maxAge ≠ 0 then
    some ((bytes ", ").intercalate resp.cacheDirectives)
  else none

/-- The value of the `Content-Type` header. -/
def contentTypeText (resp : ResponseFields) : List UInt8 :=
  resp.contentType.getD (bytes "text/html") ++
    resp.contentCharset.elim [] fun charset => bytes "; charset=" ++ charset

/-- The headers in front of the raw ones. -/
def printedFirst (revision : List UInt8) (now : ℤ) (resp : ResponseFields) :
    List (List UInt8 × List UInt8) :=
  headerIf true "Server" (bytes "nxweb/" ++ revision) ++
  headerIf true "Date" (formatHttpTime (gmtime now)) ++
  headerIf true "Connection" (bytes (if resp.keepAlive then "keep-alive" else "close")) ++
  addExtraResponseHeaders resp.headers

/-- The headers behind the raw ones. -/
def printedLast (resp : ResponseFields) : List (List UInt8 × List UInt8) :=
  headerIf (resp.contentLength ≠ 0) "Content-Type" resp.contentTypeText ++
  headerIf (resp.contentLength ≠ 0 ∧ resp.gzipEncoded) "Content-Encoding" (bytes "gzip") ++
  headerIf (resp.lastModified ≠ 0) "Last-Modified" (formatHttpTime (gmtime resp.lastModified)) ++
  headerOpt "ETag" resp.etag ++
  headerIf (resp.expires ≠ 0) "Expires" (formatHttpTime (gmtime resp.expires)) ++
  headerOpt "Cache-Control" resp.cacheControlText ++
  headerIf ((resp.contentLength ≠ 0 ∨ ¬ resp.mustNotHaveBody) ∧ 0 ≤ resp.contentLength)
    "Content-Length" (uintToDecimalString resp.contentLength) ++
  headerIf (resp.contentLength < 0) "Transfer-Encoding" (bytes "chunked")

end ResponseFields

/-- `_nxweb_prepare_response_headers`. -/
def prepareResponseHeaders (revision : List UInt8) (now : ℤ) (resp : ResponseFields) :
    List UInt8 :=
  resp.statusLine ++ crlf ++
    (resp.printedFirst revision now).flatMap (fun f => headerText f ++ crlf) ++
    resp.extraRawHeaders.getD [] ++
    resp.printedLast.flatMap (fun f => headerText f ++ crlf) ++ crlf

/-! ### The parser -/

/-- The record while the headers are read, with the local variable `transfer_encoding`. -/
structure ResponseParser where
  resp : ResponseFields
  transferEncoding : Option (List UInt8) := none
  deriving DecidableEq, Repr

/-- The `switch` over the names. -/
def ResponseParser.header (p : ResponseParser) (f : HeaderField) : ResponseParser :=
  match identifyHttpHeader f.name with
  | .contentType => { p with resp.contentType := some f.text }
  | .contentLength => { p with resp.contentLength := atol f.value }
  | .transferEncoding => { p with transferEncoding := some f.text }
  | .connection => { p with resp.keepAlive := strcaseEq f.value (bytes "keep-alive") }
  | .keepAlive => p
  | .xNxwebSsi => { p with resp.ssiOn := strcaseEq f.value (bytes "ON") }
  | .xNxwebTemplates => { p with resp.templatesOn := strcaseEq f.value (bytes "ON") }
  | .date => { p with resp.date := parseHttpTime f.value }
  | .lastModified => { p with resp.lastModified := parseHttpTime f.value }
  | .expires => { p with resp.expires := parseHttpTime f.value }
  | .cacheControl => { p with resp.cacheControl := some f.text }
  | .etag => { p with resp.etag := some f.text }
  | _ => { p with resp.headers := (f.name, f.text) :: p.resp.headers }

/-- The byte `,`. -/
abbrev comma : UInt8 := 44

/-- The byte `=`. -/
abbrev equalSign : UInt8 := 61

/-- The name and the value of a directive of `cache_control`. -/
def splitDirective (s : List UInt8) : List UInt8 × Option (List UInt8) :=
  let s := s.dropWhile fun c => ¬ isGraph c
  match splitAtByte equalSign s with
  | some (name, value) => (name, some (truncSpace value))
  | none => (s, none)

/-- What is done with a directive. -/
def ResponseFields.setDirective (resp : ResponseFields) (name : List UInt8)
    (value : Option (List UInt8)) : ResponseFields :=
  if strcaseEq name (bytes "no-cache") then { resp with noCache := true }
  else if strcaseEq name (bytes "private") then { resp with cachePrivate := true }
  else
    match strcaseEq name (bytes "max-age"), value with
    | true, some value => { resp with maxAge := if value = bytes "0" then -1 else atol value }
    | _, _ => resp

/-- One pass of the loop over the directives. -/
def ResponseFields.directive (resp : ResponseFields) (s : List UInt8) : ResponseFields :=
  resp.setDirective (splitDirective s).1 (splitDirective s).2

/-- What is computed after the last header. -/
def ResponseParser.finish (p : ResponseParser) : ResponseFields :=
  let resp := p.resp.cacheControl.elim p.resp fun text =>
    (splitOnByte comma text).foldl ResponseFields.directive p.resp
  if p.transferEncoding.any (strcaseEq · (bytes "chunked")) then
    { resp with chunkedEncoding := true, contentLength := -1 }
  else if resp.keepAlive ∧ resp.contentLength = -1 then
    -- the body of a connection that is kept alive does not end with the connection
    { resp with contentLength := 0 }
  else resp

/-- `_nxweb_parse_http_response`, on the header block without the line end of its last line. An
error is the value that the function returns. -/
def parseHttpResponse (block : List UInt8) : Except ℤ ResponseFields := do
  let (line, rest) := splitFirstLine block
  let (httpVersion, p) := nextWord line
  if p = [] then throw (-1)
  let (code, p) := nextWord p
  if p = [] then throw (-1)
  let http11 : Bool := ¬ strcaseEq httpVersion (bytes "HTTP/1.0")
  let resp : ResponseFields :=
    { status := some (p.takeWhile (space ≤ ·)), keepAlive := http11, http11
      contentLength := -1, statusCode := atoi code }
  return ((readHeaderLines rest).foldl ResponseParser.header { resp }).finish

end Nxweb
