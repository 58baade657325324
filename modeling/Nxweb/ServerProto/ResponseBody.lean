import Nxweb.ServerProto.State

/-!
# Writing the response body

Model of `resp_body_in_write_or_sendfile` (`nxd_http_server_proto.c`), the function through
which a content producer hands the response body to the socket. The producer offers bytes and
a flag that says that they reach the end of the body; the function passes them on, through the
chunked encoder if the response has no length, and answers how many of them were taken.

With the encoder one call makes up to three writes: the rest of the template in front of the
data, the data, and the line end or the terminator behind it. Each may be cut short.

## Main definitions

* `sendTemplate`: the encoder is asked what to send and the answer is written;
* `writeChunked`: the three writes of one call;
* `Hsp.passOn`: the writes, with or without the encoder;
* `respBodyInWriteOrSendfile`: the whole function.
-/

namespace Nxweb

/-- The answers of the next ostream to the three writes of one call. -/
structure WriteReplies where
  header : WriteReply
  data : WriteReply
  trailer : WriteReply
  deriving DecidableEq, Repr

/-- The encoder, the ostream and the local variables `chunk_size`, `cwf` and `skip`. -/
structure ChunkedWrite where
  es : ChunkedEncoderState
  os : NextOs
  chunkSize : ℕ
  eof : Bool
  skip : Bool
  deriving DecidableEq, Repr

/-- `if (_nxweb_encode_chunked_stream(...)) { write; advance; if (cbs!=send_size) skip=1; }`. -/
def sendTemplate (es : ChunkedEncoderState) (os : NextOs) (chunkSize : ℕ) (eof : Bool)
    (reply : WriteReply) : Option ChunkedWrite := do
  let r ← encodeChunkedStream es chunkSize eof
  if r.ret then
    let (cbs, os) := os.write r.send reply
    return {
      es := encodeChunkedAdvance r.es cbs, os, chunkSize := r.offeredSize, eof := r.eof
      skip := cbs ≠ r.send.length }
  else
    return { es := r.es, os, chunkSize := r.offeredSize, eof := r.eof, skip := false }

/-- The branch of `resp_body_in_write_or_sendfile` for `chunked_autoencode`, with the number of
body bytes taken. -/
def writeChunked (es : ChunkedEncoderState) (os : NextOs) (data : List UInt8) (eof : Bool)
    (replies : WriteReplies) : Option (ℕ × ChunkedEncoderState × NextOs) := do
  let w ← sendTemplate es os data.length eof replies.header
  let (bytesSent, w) :=
    if ¬ w.skip ∧ w.chunkSize ≠ 0 then
      let (n, os) := w.os.write (data.take w.chunkSize) replies.data
      (n, { w with es := encodeChunkedAdvance w.es n, os, skip := n ≠ w.chunkSize })
    else (0, w)
  if w.skip then return (bytesSent, w.es, w.os)
  -- the final chunk is sent only if the whole offer made it into the chunk
  let cwf := if w.chunkSize = data.length then eof else false
  let w' ← sendTemplate w.es w.os 0 cwf replies.trailer
  return (bytesSent, w'.es, w'.os)

/-- The bytes are written to an ostream that is ready, encoded if the response has no length. -/
def HttpResponse.writeBody (resp : HttpResponse) (os : NextOs) (data : List UInt8) (eof : Bool)
    (replies : WriteReplies) : Option (ℕ × HttpResponse × NextOs) :=
  if resp.chunkedAutoencode then
    (writeChunked resp.cestate os data eof replies).map fun (n, cestate, os) =>
      (n, { resp with cestate }, os)
  else
    let (n, os) := os.write data replies.data
    some (n, resp, os)

/-- The part of `resp_body_in_write_or_sendfile` that passes bytes on, if there are any or the
encoder may have some. Without a ready ostream the producer has to wait. -/
def Hsp.passOn (hsp : Hsp) (resp : HttpResponse) (nextOs : Option NextOs) (data : List UInt8)
    (eof : Bool) (replies : WriteReplies) : Option (ℕ × HttpResponse × Hsp × Option NextOs) :=
  if data.length ≠ 0 ∨ resp.chunkedAutoencode then
    match nextOs with
    | some os =>
      (if os.ready then resp.writeBody os data eof replies else some (0, resp, os)).map
        fun (bytesSent, resp, os) =>
          (bytesSent, resp,
            if os.ready then hsp else { hsp with respBodyInReady := false, dataOutReady := true },
            some os)
    | none => some (0, resp, { hsp with respBodyInReady := false }, none)
  else some (0, resp, hsp, nextOs)

/-- `resp_body_in_write_or_sendfile`: the bytes `data` are offered, `nextOs` is
`hsp->data_out.pair`. The result is the return value, the protocol object and the ostream. -/
def respBodyInWriteOrSendfile (hsp : Hsp) (nextOs : Option NextOs) (data : List UInt8)
    (eof : Bool) (replies : WriteReplies) : Option (ℕ × Hsp × Option NextOs) :=
  if hsp.state = .sendingBody then do
    let resp ← hsp.resp
    let (bytesSent, resp, hsp, nextOs) ←
      { hsp with timerWrite := false }.passOn resp nextOs data eof replies
    let resp := { resp with bytesSent := resp.bytesSent + bytesSent }
    let hsp := { hsp with resp := some resp }
    if eof ∧ bytesSent = data.length ∧
        (¬ resp.chunkedAutoencode ∨ encodeChunkedIsComplete resp.cestate) then
      return (bytesSent, hsp.requestComplete, nextOs)
    return (bytesSent, hsp.setTimerWrite, nextOs)
  else some (0, { hsp with respBodyInReady := false, dataOutReady := true }, nextOs)

end Nxweb
