import Nxweb.ClientProto.State
import Nxweb.ServerProto.RequestHeaders

/-!
# Sending a request to the backend and receiving its response

Model of the stream functions of `nxd_http_client_proto.c`. `data_out_do_write` sends the request
headers and then lets the producer of the body write through `req_body_in_write`; a request with a
body waits for `100 Continue` in between. `data_in_do_read` collects the header block of a
response, and the consumer of the body reads through `resp_body_out_read`. Errors of the socket
come in through `data_error_on_message`.

The parser of the header block is a parameter. The socket stays connected to the protocol object
as long as that exists.

## Main definitions

* `Hcp.dataInReadHeaders`: `data_in_do_read` before the body;
* `Hcp.respBodyOutRead`: `resp_body_out_read`;
* `Hcp.reqBodyInWrite`: `req_body_in_write`;
* `Hcp.sendRequest`: `data_out_do_write` up to the body;
* `Hcp.dataErrorOnMessage`, `HcpTimer`, `Hcp.onTimeout`: what comes from outside.
-/

namespace Nxweb

/-- What the protocol uses of the rest of the program: the parser of a response header block. -/
structure ClientEnv where
  parseHttpResponse : List UInt8 → Option HttpResponse

/-! ### The response headers -/

/-- The first call of `data_in_do_read` for a header block. -/
def Hcp.openHeaders (hcp : Hcp) : Hcp :=
  if hcp.state = .waitingForResponse then
    { hcp with timer100Continue := false, timerRead := true, state := .receivingHeaders }
  else hcp

/-- A header block that is too long or that the parser refuses. -/
def Hcp.badResponse (hcp : Hcp) : Hcp :=
  { hcp with timerRead := false, dataInReady := false }.publish (.error hcpBadResponse)

/-- The interim response has arrived, and the request body is sent. -/
def Hcp.continueRequest (hcp : Hcp) : Hcp :=
  { hcp with
    dataInReady := false
    timerRead := false
    timerWrite := true
    dataOutReady := true
    state := .sendingBody }

/-- The bytes that were read behind the header block. A chunked body is decoded in place. -/
def Hcp.setFirstBodyChunk (hcp : Hcp) (rest : List UInt8) : Option Hcp :=
  if rest = [] then some { hcp with firstBodyChunk := none }
  else if hcp.resp.chunkedEncoding then do
    let r ← decodeChunkedStream hcp.resp.cdstate rest
    let hcp := { hcp with resp.cdstate := r.ds, firstBodyChunk := some r.kept }
    if r.code < 0 then return hcp.publish (.error hcpResponseChunkedEncodingError)
    return if 0 < r.code then { hcp with responseBodyComplete := true } else hcp
  else
    let hcp := { hcp with firstBodyChunk := some rest }
    if hcp.resp.contentLength ≤ (rest.length : ℤ) ∧ 0 ≤ hcp.resp.contentLength then
      some { hcp with responseBodyComplete := true }
    else some hcp

/-- A final header block, with the bytes read behind it. -/
def Hcp.responseReceived (hcp : Hcp) (rest : List UInt8) : Option Hcp := do
  let hcp ← hcp.setFirstBodyChunk rest
  let hcp := { hcp with dataInReady := false }.publish .responseReceived
  return { hcp with
    state := .receivingBody
    respBodyOutReady := true
    dataInReady := hcp.respBodyOutPaired }

/-- A header block that the parser accepts. The parser leaves the state of the decoder and the
count of received bytes alone. While `100 Continue` is awaited, another status is an error, and is
taken for the response nevertheless. -/
def Hcp.headersReceived (hcp : Hcp) (resp : HttpResponse) (rest : List UInt8) : Option Hcp :=
  let hcp := { hcp with
    readBuf := []
    resp := { resp with
      contentReceived := 0
      cdstate := { ChunkedDecoderState.zero with monitorOnly := hcp.chunkedDoNotDecode } } }
  if hcp.receiving100Continue then
    let hcp := { hcp with receiving100Continue := false }
    if hcp.resp.statusCode = 100 then some hcp.continueRequest
    else (hcp.publish (.error hcpNo100Continue)).responseReceived rest
  else hcp.responseReceived rest

/-- `data_in_do_read` while a header block is being received. The arena has room for `room` bytes,
and `avail` bytes have arrived at the socket. `none` is a read outside the buffer by the decoder. -/
def Hcp.dataInReadHeaders (env : ClientEnv) (hcp : Hcp) (sock : Socket) (room avail : ℕ) :
    Option (Hcp × Socket) := do
  let hcp := hcp.openHeaders
  let (data, sock) := sock.dataRecvRead room avail
  if data = [] then return (hcp, sock)
  let hcp := { hcp with readBuf := hcp.readBuf ++ data }
  match findEndOfHttpHeaders hcp.readBuf with
  | some (endOfHeaders, startOfBody) =>
    match env.parseHttpResponse (hcp.readBuf.take endOfHeaders) with
    | none => return ({ hcp with readBuf := [], resp := {} }.badResponse, sock)
    | some resp =>
      let hcp ← hcp.headersReceived resp (hcp.readBuf.drop startOfBody)
      return (hcp, sock)
  | none =>
    if maxRequestHeadersSize ≤ hcp.readBuf.length then return (hcp.badResponse, sock)
    else return (hcp, sock)

/-! ### The response body -/

/-- What a read leaves behind: the bytes it returns, whether it sets `NXEF_EOF`, the protocol
object, and the socket behind it. -/
structure RespRead where
  data : List UInt8
  eof : Bool
  hcp : Hcp
  sock : Socket
  deriving DecidableEq, Repr

/-- The bytes that a read takes from the socket are decoded and counted. -/
def Hcp.receiveBody (hcp : Hcp) (raw : List UInt8) : Option (List UInt8 × Hcp) :=
  if hcp.resp.chunkedEncoding then do
    let r ← decodeChunkedStream hcp.resp.cdstate raw
    let hcp := { hcp with
      resp.cdstate := r.ds, resp.contentReceived := hcp.resp.contentReceived + r.kept.length }
    if r.code < 0 then return (r.kept, hcp.publish (.error hcpResponseChunkedEncodingError))
    return (r.kept, if 0 < r.code then { hcp with responseBodyComplete := true } else hcp)
  else
    let hcp := { hcp with resp.contentReceived := hcp.resp.contentReceived + raw.length }
    if hcp.resp.contentLength ≤ hcp.resp.contentReceived ∧ 0 ≤ hcp.resp.contentLength then
      some (raw, { hcp with responseBodyComplete := true })
    else some (raw, hcp)

/-- The last bytes are returned and the connection can be used again. -/
def Hcp.endOfBody (hcp : Hcp) : Hcp := { hcp.completeRequest with respBodyOutReady := false }

/-- The second part of `resp_body_out_read`, after `data` has been handed out and while there is
room for `size` more bytes. -/
def Hcp.readBodyFromSocket (hcp : Hcp) (sock : Socket) (data : List UInt8) (size avail : ℕ) :
    Option RespRead :=
  if 0 < size then do
    let (raw, sock) := sock.readIfReady size avail
    let hcp :=
      if sock.ready then hcp else { hcp with respBodyOutReady := false, dataInReady := true }
    let (data₂, hcp) ← hcp.receiveBody raw
    if hcp.responseBodyComplete then
      return { data := data ++ data₂, eof := true, hcp := hcp.endOfBody, sock }
    return { data := data ++ data₂, eof := false, hcp, sock }
  else some { data, eof := false, hcp, sock }

/-- `resp_body_out_read` with room for `size` bytes. -/
def Hcp.respBodyOutRead (hcp : Hcp) (sock : Socket) (size avail : ℕ) : Option RespRead :=
  if hcp.requestComplete then
    some { data := [], eof := true, hcp := { hcp with respBodyOutReady := false }, sock }
  else if hcp.state ≠ .receivingBody then
    some {
      data := [], eof := false, hcp := { hcp with respBodyOutReady := false, dataInReady := true }
      sock }
  else
    match hcp.firstBodyChunk with
    | some chunk =>
      let data := chunk.take size
      let hcp := { hcp with
        firstBodyChunk := if chunk.length ≤ size then none else some (chunk.drop size)
        resp.contentReceived := hcp.resp.contentReceived + data.length }
      -- the rest of a chunk that did not fit is not looked at here
      if hcp.responseBodyComplete then some { data, eof := true, hcp := hcp.endOfBody, sock }
      else hcp.readBodyFromSocket sock data (size - data.length) avail
    | none => hcp.readBodyFromSocket sock [] size avail

/-! ### The request -/

/-- `req_body_in_write` of `data`, which with `eof` are the last bytes; the number of bytes that
were taken. The backend's socket is written only if it is ready. -/
def Hcp.reqBodyInWrite (hcp : Hcp) (os : NextOs) (data : List UInt8) (eof : Bool)
    (reply : WriteReply) : ℕ × Hcp × NextOs :=
  if hcp.state ≠ .sendingBody then
    (0, { hcp with reqBodyInReady := false, dataOutReady := true }, os)
  else
    let hcp := { hcp with reqBodySendingStarted := true, timerWrite := false }
    let (n, os) := if data ≠ [] ∧ os.ready then os.write data reply else (0, os)
    let hcp :=
      if data = [] ∨ os.ready then hcp else { hcp with reqBodyInReady := false, dataOutReady := true }
    if eof ∧ n = data.length then
      (n, { hcp with reqBodyInReady := false }.startReceivingResponse, os)
    else (n, { hcp with timerWrite := true }, os)

/-- The part of `data_out_do_write` before the body: a new connection is announced, and the
headers are sent. The flag says that the function goes on to the body. `none` is a null pointer
that was followed. -/
def Hcp.sendRequest (hcp : Hcp) (os : NextOs) (reply : WriteReply) :
    Option (Bool × Hcp × NextOs) :=
  let hcp := { hcp with timerWrite := false }
  let hcp := if hcp.state = .connecting then hcp.publish .connected else hcp
  if hcp.state = .connecting ∧ hcp.req = none then
    some (false, { hcp with state := .idle, timerKeepAlive := true, dataOutReady := false }, os)
  else
    let hcp := { hcp with
      state := if hcp.state = .connecting then .sendingHeaders else hcp.state, timerWrite := true }
    if hcp.state = .sendingHeaders then
      let headers := hcp.reqHeadersPtr.getD []
      let (n, os) := if headers = [] then (0, os) else os.write headers reply
      if n < headers.length then
        some (false, { hcp with reqHeadersPtr := some (headers.drop n) }, os)
      else do
        let hcp := { hcp with reqHeadersPtr := none }
        let req ← hcp.req
        if req.contentLength = (0 : ℤ) then return (false, hcp.startReceivingResponse, os)
        if req.expect100Continue then return (false, hcp.waitFor100Continue, os)
        return (true, { hcp with state := .sendingBody }, os)
    else some (true, hcp, os)

/-! ### Errors and timeouts -/

/-- `data_error_on_message`. The close of the connection ends a response of unknown length. -/
def Hcp.dataErrorOnMessage (hcp : Hcp) (code : ℤ) : Hcp :=
  if (code = nxeHup ∨ code = nxeRdhup ∨ code = nxeRdclosed) ∧
      (hcp.resp.contentLength < 0 ∧ hcp.resp.chunkedEncoding = false) ∧ hcp.state ≠ .idle then
    { hcp with responseBodyComplete := true, respBodyOutReady := true }
  else if hcp.responseBodyComplete ∧ ¬ hcp.requestComplete ∧ code < 0 then
    { hcp with queuedErrorMessage := code }
  else hcp.publish (.error code)

/-- The timers of the protocol. -/
inductive HcpTimer where
  | keepAlive
  | read
  | write
  | continue100
  deriving DecidableEq, Repr

/-- A timer has expired and is off; `none` if it was not on. -/
def Hcp.onTimeout (hcp : Hcp) : HcpTimer → Option Hcp
  | .keepAlive =>
    if hcp.timerKeepAlive then
      some ({ hcp with timerKeepAlive := false }.publish (.error hcpKeepAliveTimeout))
    else none
  | .read =>
    if hcp.timerRead then some ({ hcp with timerRead := false }.publish (.error hcpReadTimeout))
    else none
  | .write =>
    if hcp.timerWrite then some ({ hcp with timerWrite := false }.publish (.error hcpWriteTimeout))
    else none
  | .continue100 =>
    if hcp.timer100Continue then
      some ({ hcp with timer100Continue := false }.publish (.error hcp100ContinueTimeout))
    else none

end Nxweb
