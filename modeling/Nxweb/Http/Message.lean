import Nxweb.Chunked.Decoder
import Nxweb.Chunked.Encoder
import Nxweb.Lib.CString

/-!
# Requests and responses

The records `nxweb_http_request` and `nxweb_http_response` (`nxweb.h`), with the fields that
the modeled functions read or write. Every field has the value a zero-filled record gives it,
so that `{}` is the record after `memset`. Strings are byte lists without their terminator,
of type `CStr` where they come from the client or the configuration, and `none` is the null
pointer.
-/

namespace Nxweb

open Lib

/-- `enum nxweb_result`. -/
inductive NxwebResult where
  | ok
  | next
  | async
  | delay
  | error
  | revalidate
  | miss
  deriving DecidableEq, Repr

/-- `nxweb_mime_type`. -/
structure MimeType where
  mime : List UInt8
  charsetRequired : Bool := false
  ssiOn : Bool := false
  templatesOn : Bool := false
  deriving DecidableEq, Repr

/-- The fields of `struct stat` that are read. -/
structure Stat where
  stIno : ℕ := 0
  stMode : ℕ := 0
  stMtime : ℤ := 0
  stSize : ℕ := 0
  deriving DecidableEq, Repr

/-- `nxweb_http_request`. -/
structure HttpRequest where
  headMethod : Bool := false
  getMethod : Bool := false
  postMethod : Bool := false
  otherMethod : Bool := false
  expect100Continue : Bool := false
  chunkedEncoding : Bool := false
  chunkedContentComplete : Bool := false
  keepAlive : Bool := false
  sending100Continue : Bool := false
  bufferingToMemory : Bool := false
  uri : Option CStr := none
  host : Option CStr := none
  pathInfo : Option CStr := none
  /-- `-1` stands for an unknown length. -/
  contentLength : ℤ := 0
  contentReceived : ℕ := 0
  ifModifiedSince : ℤ := 0
  cdstate : ChunkedDecoderState := .zero
  deriving DecidableEq, Repr

/-- The streams a response body can come from: the buffer for content in memory, the buffer for
a file, the ring buffer of a proxied response, and the output of a filter. -/
inductive ContentOut where
  | ob
  | fb
  | rbResp
  | dataOut
  deriving DecidableEq, Repr

/-- `nxweb_http_response`. -/
structure HttpResponse where
  content : Option (List UInt8) := none
  contentLength : ℤ := 0
  keepAlive : Bool := false
  chunkedAutoencode : Bool := false
  cestate : ChunkedEncoderState := {}
  bytesSent : ℕ := 0
  status : Option (List UInt8) := none
  statusCode : ℤ := 0
  lastModified : ℤ := 0
  runFilterIdx : ℕ := 0
  ssiOn : Bool := false
  templatesOn : Bool := false
  noCache : Bool := false
  cachePrivate : Bool := false
  cacheControl : Option (List UInt8) := none
  headers : List (List UInt8 × List UInt8) := []
  date : ℤ := 0
  expires : ℤ := 0
  maxAge : ℤ := 0
  contentOut : Option ContentOut := none
  cacheKey : Option (List UInt8) := none
  mtype : Option MimeType := none
  contentType : Option (List UInt8) := none
  contentCharset : Option (List UInt8) := none
  sendfilePath : Option (List UInt8) := none
  sendfileFd : ℤ := 0
  sendfileInfo : Stat := {}
  sendfileOffset : ℤ := 0
  sendfileEnd : ℤ := 0
  gzipEncoded : Bool := false
  etag : Option (List UInt8) := none
  extraRawHeaders : Option (List UInt8) := none
  rawHeaders : Option (List UInt8) := none
  chunkedEncoding : Bool := false
  contentReceived : ℕ := 0
  cdstate : ChunkedDecoderState := .zero
  deriving DecidableEq, Repr

/-- `_nxweb_http_response_init` on a zero-filled record. -/
def HttpResponse.init (req : Option HttpRequest) : HttpResponse :=
  { keepAlive := (req.map HttpRequest.keepAlive).getD false }

/-- The page `nxweb_send_http_error` shows, for a server built from the given revision. -/
def errorPage (revision message : List UInt8) : List UInt8 :=
  bytes "<html>\n<head><title>" ++ message ++ bytes "</title></head>\n<body>\n<h1>" ++ message ++
    bytes "</h1>\n<p>nxweb/" ++ revision ++ bytes "</p>\n</body>\n</html>"

/-- `nxweb_send_http_error`. -/
def HttpResponse.sendHttpError (resp : HttpResponse) (revision : List UInt8) (code : ℤ)
    (message : List UInt8) : HttpResponse :=
  { resp with
    statusCode := code
    status := some message
    content := some (errorPage revision message)
    contentLength := (errorPage revision message).length
    contentType := some (bytes "text/html")
    sendfilePath := none
    sendfileFd := 0
    contentOut := none }

end Nxweb
