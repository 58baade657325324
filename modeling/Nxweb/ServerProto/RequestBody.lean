import Nxweb.ServerProto.State

/-!
# Reading the request body

Model of `is_request_body_complete` and `req_body_out_read` (`nxd_http_server_proto.c`), the
function through which a consumer pulls the request body. A read first hands out what is left of
the bytes that came in with the headers, then reads the socket. Both parts are treated alike:
the bytes are decoded if the body is chunked, counted, and the body is complete when the count
reaches the length or the decoder has seen the end.

Nothing compares the bytes with the length before they are handed out.

## Main definitions

* `HttpRequest.receiveBody`: what happens to the bytes of one part;
* `Hsp.readBodyFromSocket`: the second part of a read;
* `Hsp.reqBodyOutRead`: the whole function.
-/

namespace Nxweb

/-- `NXWEB_MAX_REQUEST_BODY_SIZE`. -/
def maxRequestBodySize : ℕ := 512000

/-- The memory buffer of the connection is connected to the body and starts to read. -/
def Hsp.bufferToMemory (hsp : Hsp) : Hsp :=
  { hsp with req.bufferingToMemory := true, reqBodyOutPaired := true, dataInReady := true }

/-- `is_request_body_complete`. -/
def HttpRequest.isRequestBodyComplete (req : HttpRequest) : Bool :=
  (0 < req.contentLength ∧ req.contentLength ≤ req.contentReceived) ∨ req.chunkedContentComplete

/-- `hsp->req.content_received+=n`. -/
def HttpRequest.count (req : HttpRequest) (n : ℕ) : HttpRequest :=
  { req with contentReceived := req.contentReceived + n }

/-- The bytes of one part of a read are decoded and counted, and the flag tells of an encoding
error. `none` is a read outside the buffer by the decoder. -/
def HttpRequest.receiveBody (req : HttpRequest) (raw : List UInt8) :
    Option (List UInt8 × HttpRequest × Bool) := do
  let (data, req, err) ←
    if req.chunkedEncoding then do
      let r ← decodeChunkedStream req.cdstate raw
      let req := { req with
        cdstate := r.ds
        chunkedContentComplete := req.chunkedContentComplete || decide (0 < r.code) }
      pure (r.kept, req, decide (r.code < 0))
    else pure (raw, req, false)
  return (data, req.count data.length, err)

/-- One part of a read, with the message about an encoding error. -/
def Hsp.receiveBody (hsp : Hsp) (raw : List UInt8) : Option (List UInt8 × Hsp) := do
  let (data, req, err) ← hsp.req.receiveBody raw
  let hsp := { hsp with req }
  return (data, if err then hsp.publish .requestChunkedEncodingError else hsp)

/-- The body is complete: the handler is told, and nothing more is read. -/
def Hsp.bodyReceived (hsp : Hsp) : Hsp :=
  { hsp.publish .requestBodyReceived with
    state := .handling
    dataInReady := false
    reqBodyOutReady := false }

/-- What a read leaves behind: the bytes it returns, whether it sets `NXEF_EOF`, the protocol
object, and the socket behind it. -/
structure BodyRead where
  data : List UInt8
  eof : Bool
  hsp : Hsp
  sock : Option Socket
  deriving DecidableEq, Repr

/-- The second part of `req_body_out_read`, after `data` has been handed out and while there is
room for `size` more bytes. `sock` is `hsp->data_in.pair`. -/
def Hsp.readBodyFromSocket (hsp : Hsp) (sock : Option Socket) (data : List UInt8)
    (size avail : ℕ) : Option BodyRead :=
  if 0 < size then
    match sock with
    | some sock => do
      let (raw, sock) := sock.readIfReady size avail
      let hsp :=
        if sock.ready then hsp else { hsp with reqBodyOutReady := false, dataInReady := true }
      let (data₂, hsp) ← hsp.receiveBody raw
      if hsp.req.isRequestBodyComplete then
        return { data := data ++ data₂, eof := true, hsp := hsp.bodyReceived, sock := some sock }
      return {
        data := data ++ data₂, eof := false, hsp := hsp.setTimerRead
        sock := some sock }
    | none =>
      return {
        data, eof := false, hsp := { hsp with reqBodyOutReady := false }.setTimerRead
        sock := none }
  else return { data, eof := false, hsp := hsp.setTimerRead, sock }

/-- `req_body_out_read` with room for `size` bytes. `avail` is the number of bytes that have
arrived at the socket. -/
def Hsp.reqBodyOutRead (hsp : Hsp) (sock : Option Socket) (size avail : ℕ) : Option BodyRead :=
  match hsp.state with
  | .handling =>
    return { data := [], eof := true, hsp := { hsp with reqBodyOutReady := false }, sock }
  | .receivingBody => do
    let hsp := { hsp with timerRead := false }
    if hsp.firstBodyChunk ≠ [] then
      let (data, hsp) ←
        { hsp with firstBodyChunk := hsp.firstBodyChunk.drop size }.receiveBody
          (hsp.firstBodyChunk.take size)
      if hsp.req.isRequestBodyComplete then
        return { data, eof := true, hsp := hsp.bodyReceived, sock }
      hsp.readBodyFromSocket sock data (size - data.length) avail
    else hsp.readBodyFromSocket sock [] size avail
  | _ =>
    return {
      data := [], eof := false, hsp := { hsp with reqBodyOutReady := false, dataInReady := true }
      sock }

end Nxweb
