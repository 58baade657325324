import Nxweb.Http.Text

/-!
# Header names

Model of `identify_http_header` (`http_utils.c`), which recognises the names of the header lines
that the server treats specially.
-/

namespace Nxweb

/-- `enum nxweb_http_header_name`. -/
inductive HeaderName where
  | unknown
  | date
  | host
  | etag
  | range
  | cookie
  | expect
  | server
  | expires
  | trailer
  | connection
  | keepAlive
  | userAgent
  | contentType
  | lastModified
  | cacheControl
  | acceptRanges
  | contentLength
  | acceptEncoding
  | ifModifiedSince
  | transferEncoding
  | xNxwebSsi
  | xNxwebTemplates
  deriving DecidableEq, Repr

/-- `identify_http_header`. The length decides which names are compared, and the first letter
which one. -/
def identifyHttpHeader (name : List UInt8) : HeaderName :=
  let firstChar := nxTolower (name.headD 0)
  let compare (text : String) (id : HeaderName) : HeaderName :=
    if strcaseEq name (bytes text) then id else .unknown
  match name.length with
  | 4 =>
    if firstChar = 104 then compare "Host" .host
    else if firstChar = 100 then compare "Date" .date
    else if firstChar = 101 then compare "ETag" .etag
    else .unknown
  | 5 => if firstChar = 114 then compare "Range" .range else .unknown
  | 6 =>
    if firstChar = 99 then compare "Cookie" .cookie
    else if firstChar = 101 then compare "Expect" .expect
    else if firstChar = 115 then compare "Server" .server
    else .unknown
  | 7 =>
    if firstChar = 116 then compare "Trailer" .trailer
    else if firstChar = 101 then compare "Expires" .expires
    else .unknown
  | 10 =>
    if firstChar = 99 then compare "Connection" .connection
    else if firstChar = 107 then compare "Keep-Alive" .keepAlive
    else if firstChar = 117 then compare "User-Agent" .userAgent
    else .unknown
  | 11 => if firstChar = 120 then compare "X-NXWEB-SSI" .xNxwebSsi else .unknown
  | 12 => if firstChar = 99 then compare "Content-Type" .contentType else .unknown
  | 13 =>
    if firstChar = 99 then compare "Cache-Control" .cacheControl
    else if firstChar = 108 then compare "Last-Modified" .lastModified
    else if firstChar = 97 then compare "Accept-Ranges" .acceptRanges
    else .unknown
  | 14 => if firstChar = 99 then compare "Content-Length" .contentLength else .unknown
  | 15 => if firstChar = 97 then compare "Accept-Encoding" .acceptEncoding else .unknown
  | 17 =>
    if firstChar = 116 then compare "Transfer-Encoding" .transferEncoding
    else if firstChar = 105 then compare "If-Modified-Since" .ifModifiedSince
    else if firstChar = 120 then compare "X-NXWEB-Templates" .xNxwebTemplates
    else .unknown
  | _ => .unknown

/-! ### The names that are printed -/

/-- The header without which a request is refused. -/
@[simp]
theorem identify_host : identifyHttpHeader (bytes "Host") = .host := by decide

/-- The header that `keep_alive` is taken from. -/
@[simp]
theorem identify_connection : identifyHttpHeader (bytes "Connection") = .connection := by decide

/-- The condition of a request. -/
@[simp]
theorem identify_ifModifiedSince :
    identifyHttpHeader (bytes "If-Modified-Since") = .ifModifiedSince := by decide

/-- The header with which a client waits for an interim response. -/
@[simp]
theorem identify_expect : identifyHttpHeader (bytes "Expect") = .expect := by decide

@[simp]
theorem identify_userAgent : identifyHttpHeader (bytes "User-Agent") = .userAgent := by decide

@[simp]
theorem identify_cookie : identifyHttpHeader (bytes "Cookie") = .cookie := by decide

/-- The header in which `gzip` is looked for. -/
@[simp]
theorem identify_acceptEncoding :
    identifyHttpHeader (bytes "Accept-Encoding") = .acceptEncoding := by decide

@[simp]
theorem identify_contentType : identifyHttpHeader (bytes "Content-Type") = .contentType := by
  decide

/-- The header that the length of a body is taken from. -/
@[simp]
theorem identify_contentLength :
    identifyHttpHeader (bytes "Content-Length") = .contentLength := by decide

/-- The header that makes a body chunked. -/
@[simp]
theorem identify_transferEncoding :
    identifyHttpHeader (bytes "Transfer-Encoding") = .transferEncoding := by decide

@[simp]
theorem identify_server : identifyHttpHeader (bytes "Server") = .server := by decide

@[simp]
theorem identify_date : identifyHttpHeader (bytes "Date") = .date := by decide

/-- This header has no number of its own, and goes to the other headers. -/
@[simp]
theorem identify_contentEncoding :
    identifyHttpHeader (bytes "Content-Encoding") = .unknown := by decide

@[simp]
theorem identify_lastModified :
    identifyHttpHeader (bytes "Last-Modified") = .lastModified := by decide

/-- A name of four letters, told from `Host` and `Date` by the first of them. -/
@[simp]
theorem identify_etag : identifyHttpHeader (bytes "ETag") = .etag := by decide

@[simp]
theorem identify_expires : identifyHttpHeader (bytes "Expires") = .expires := by decide

/-- The header whose directives the response parser reads. -/
@[simp]
theorem identify_cacheControl :
    identifyHttpHeader (bytes "Cache-Control") = .cacheControl := by decide

end Nxweb
