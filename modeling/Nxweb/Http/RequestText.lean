import Nxweb.Http.Date
import Nxweb.Http.HeaderBlock
import Nxweb.Http.HeaderName
import Nxweb.Uri.Path

/-!
# Printing and parsing request headers

Model of `_nxweb_prepare_client_request_headers`, which prints the headers of a request to a
backend, and of `_nxweb_parse_http_request`, which reads those of a client (`http_utils.c`). The
two are written independently of each other, over the same record.

The arena into which the printer writes is assumed to have enough room.

## Main definitions

* `RequestFields`: the fields of `nxweb_http_request` that the two functions use;
* `prepareClientRequestHeaders`;
* `parseHttpRequest`.
-/

namespace Nxweb

open Lib

/-- `nxweb_http_request`, with the fields of the header block. A null pointer is `none`. -/
structure RequestFields where
  http11 : Bool := false
  headMethod : Bool := false
  getMethod : Bool := false
  postMethod : Bool := false
  otherMethod : Bool := false
  acceptGzipEncoding : Bool := false
  expect100Continue : Bool := false
  chunkedEncoding : Bool := false
  keepAlive : Bool := false
  xForwardedSsl : Bool := false
  method : Option (List UInt8) := none
  uri : Option (List UInt8) := none
  httpVersion : Option (List UInt8) := none
  host : Option (List UInt8) := none
  cookie : Option (List UInt8) := none
  userAgent : Option (List UInt8) := none
  contentType : Option (List UInt8) := none
  contentLength : ℤ := 0
  transferEncoding : Option (List UInt8) := none
  acceptEncoding : Option (List UInt8) := none
  range : Option (List UInt8) := none
  ifModifiedSince : ℤ := 0
  xForwardedFor : Option (List UInt8) := none
  xForwardedHost : Option (List UInt8) := none
  headers : List (List UInt8 × List UInt8) := []
  /-- The `uid` of the root of the chain of parents, `none` without a parent. -/
  rootUid : Option ℕ := none
  uid : ℕ := 0
  deriving DecidableEq, Repr

/-! ### The printer -/

/-- The headers of a request, in the order in which they are printed. -/
def RequestFields.printed (revision : List UInt8) (req : RequestFields) (host : List UInt8) :
    List (List UInt8 × List UInt8) :=
  headerIf true "Host" host ++
  headerIf true "Connection" (bytes (if req.keepAlive then "keep-alive" else "close")) ++
  headerIf (req.ifModifiedSince ≠ 0) "If-Modified-Since"
    (formatHttpTime (gmtime req.ifModifiedSince)) ++
  headerIf req.expect100Continue "Expect" (bytes "100-continue") ++
  headerIf req.xForwardedSsl "X-NXWEB-Forwarded-SSL" (bytes "ON") ++
  headerOpt "X-NXWEB-Forwarded-Host" req.xForwardedHost ++
  headerOpt "X-NXWEB-Forwarded-IP" req.xForwardedFor ++
  headerIf (req.uid ≠ 0) "X-NXWEB-Request-ID" (uintToHexStringZeropad req.uid 16) ++
  headerIf (req.rootUid.getD 0 ≠ 0) "X-NXWEB-Root-Request-ID"
    (uintToHexStringZeropad (req.rootUid.getD 0) 16) ++
  headerIf true "User-Agent" (req.userAgent.getD (bytes "nxweb/" ++ revision)) ++
  headerOpt "Cookie" req.cookie ++
  req.headers ++
  headerOpt "Accept-Encoding" req.acceptEncoding ++
  headerIf (req.contentLength ≠ 0) "Content-Type"
    (req.contentType.getD (bytes "application/x-www-form-urlencoded")) ++
  headerIf (0 < req.contentLength) "Content-Length" (uintToDecimalString req.contentLength) ++
  headerIf (req.contentLength < 0) "Transfer-Encoding" (bytes "chunked")

/-- The method that is printed. -/
def RequestFields.wireMethod (req : RequestFields) : Option (List UInt8) :=
  if req.headMethod then some (bytes "HEAD") else req.method

/-- The first line of a request. -/
def requestLine (method uri : List UInt8) (http11 : Bool) : List UInt8 :=
  method ++ bytes " " ++ uri ++ bytes " HTTP/1." ++ bytes (if http11 then "1" else "0")

/-- `_nxweb_prepare_client_request_headers`; `none` if a null pointer is followed. -/
def prepareClientRequestHeaders (revision : List UInt8) (req : RequestFields) :
    Option (List UInt8) := do
  let method ← req.wireMethod
  let uri ← req.uri
  let host ← req.host
  return headerBlock (requestLine method uri req.http11) (req.printed revision host)

/-! ### The parser -/

/-- The record while the headers are read, with the local variable `expect`. -/
structure RequestParser where
  req : RequestFields
  expect : Option (List UInt8) := none
  deriving DecidableEq, Repr

/-- The `switch` over the names, for all headers but `Trailer`. -/
def RequestParser.header (p : RequestParser) (f : HeaderField) : RequestParser :=
  match identifyHttpHeader f.name with
  | .host => { p with req.host := some (nxStrtolower f.value ++ f.cont) }
  | .expect => { p with expect := some f.text }
  | .cookie => { p with req.cookie := some f.text }
  | .userAgent => { p with req.userAgent := some f.text }
  | .contentType => { p with req.contentType := some f.text }
  | .contentLength => { p with req.contentLength := atol f.value }
  | .acceptEncoding => { p with req.acceptEncoding := some f.text }
  | .transferEncoding => { p with req.transferEncoding := some f.text }
  | .ifModifiedSince => { p with req.ifModifiedSince := parseHttpTime f.value }
  | .connection => { p with req.keepAlive := strcaseEq f.value (bytes "keep-alive") }
  | .range => { p with req.range := some f.text }
  | _ => { p with req.headers := (f.name, f.text) :: p.req.headers }

/-- The loop over `g` that looks for `gzip` in the accepted encodings, for a value that is not
empty. -/
def acceptsGzip (s : List UInt8) : Bool :=
  let ends (c : Option UInt8) : Bool := c = some 44 ∨ c = some 32
  (List.range s.length).any fun i =>
    (s.drop i).take 4 = bytes "gzip" ∧ (i = 0 ∨ ends s[i - 1]?) ∧ (s[i + 4]? = none ∨ ends s[i + 4]?)

/-- What is computed after the last header. -/
def RequestParser.finish (p : RequestParser) (method : List UInt8) : RequestFields :=
  let chunkedEncoding := p.req.transferEncoding.any (strcaseEq · (bytes "chunked"))
  let contentLength := if chunkedEncoding then -1 else p.req.contentLength
  let headMethod := strcaseEq method (bytes "HEAD")
  let method := if headMethod then bytes "GET" else method
  let getMethod := headMethod || strcaseEq method (bytes "GET")
  let postMethod := !headMethod && strcaseEq method (bytes "POST")
  { p.req with
    method := some method
    acceptGzipEncoding := p.req.acceptEncoding.any acceptsGzip
    chunkedEncoding
    contentLength
    expect100Continue := contentLength ≠ 0 ∧ p.expect.any (strcaseEq · (bytes "100-continue"))
    headMethod
    getMethod
    postMethod
    otherMethod := !getMethod && !postMethod }

/-- An absolute uri is taken apart into the host and the path. -/
def splitAbsoluteUri (uri : List UInt8) : Option (List UInt8 × Option (List UInt8)) :=
  if uri.take 7 = bytes "http://" then
    (splitAtByte slash (uri.drop 7)).map fun (host, path) =>
      (slash :: path, some (nxStrtolower host))
  else some (uri, none)

/-- `_nxweb_parse_http_request`, on the header block without the line end of its last line. An
error is the value that the function returns. All fields are read from the values of the headers
alone. For a date of less than three characters and for empty accepted encodings, the source reads
on behind the terminator; that is the parser in memory, `parseHttpRequestAt`. -/
def parseHttpRequest (block : List UInt8) : Except ℤ RequestFields := do
  let (line, rest) := splitFirstLine block
  let (method, p) := nextWord line
  if p = [] then throw (-1)
  let (uri, p) := nextWord p
  if p = [] then throw (-1)
  let (httpVersion, _) := nextWord p
  let http11 : Bool := ¬ strcaseEq httpVersion (bytes "HTTP/1.0")
  match splitAbsoluteUri uri with
  | none => throw (-1)
  | some (uri, host) =>
    if uri.head? ≠ some slash then throw (-1)
    let fields := readHeaderLines rest
    if fields.any fun f => identifyHttpHeader f.name = .trailer then throw (-2)
    let req : RequestFields :=
      { http11, keepAlive := http11, uri := some uri, httpVersion := some httpVersion, host }
    let p := fields.foldl RequestParser.header { req }
    if p.req.host.getD [] = [] then throw (-1)
    return p.finish method

end Nxweb
