import Nxweb.Bytes

/-!
# The chunked encoder

Model of `_nxweb_encode_chunked_init`, `_nxweb_encode_chunked_stream`,
`_nxweb_encode_chunked_advance` and `_nxweb_encode_chunked_is_complete` (`http_utils.c`).

The encoder does not copy the body. It keeps an eight-byte template `CR LF xxxx CR LF` that
holds the line end of the previous chunk and the size line of the next one, and a position
that runs through the template and on through the data of the current chunk. Each call says
which bytes of the template have to be written next and how many of the offered body bytes
may follow them; after each write the caller reports how far it came.

A failed `assert` is the value `none`.

## Main definitions

* `ChunkedEncoderState`: `nxweb_chunked_encoder_state`;
* `encodeChunkedStream`: what to write next;
* `encodeChunkedAdvance`: the bytes written are accounted for;
* `encodeChunkedIsComplete`: the terminator has been written.
-/

namespace Nxweb

/-- `nxweb_chunked_encoder_state`. -/
structure ChunkedEncoderState where
  finalChunk : Bool := false
  headerPrepared : Bool := false
  chunkSize : ℕ := 0
  pos : ℕ := 0
  buf : List UInt8 := []
  deriving DecidableEq, Repr

/-- `_nxweb_encode_chunked_init`: the first chunk has no line end in front of it. -/
def encodeChunkedInit : ChunkedEncoderState where
  chunkSize := 0
  buf := bytes "\r\n0000\r\n"
  pos := 2
  headerPrepared := false
  finalChunk := false

/-- What `_nxweb_encode_chunked_stream` leaves behind: the encoder state, `*offered_size`,
the `*send_size` bytes at `*send_ptr`, the `NXEF_EOF` bit of `*flags` and the return value. -/
structure EncodeResult where
  es : ChunkedEncoderState
  offeredSize : ℕ
  send : List UInt8
  eof : Bool
  ret : Bool
  deriving DecidableEq, Repr

/-- `_nxweb_encode_chunked_stream`. -/
def encodeChunkedStream (es : ChunkedEncoderState) (offeredSize : ℕ) (eof : Bool) :
    Option EncodeResult :=
  if es.finalChunk then
    -- assert(*flags&NXEF_EOF)
    if eof then
      some { es, offeredSize, send := (es.buf.drop es.pos).take (7 - es.pos), eof, ret := true }
    else none
  else if es.pos ≤ 2 ∧ ¬ es.headerPrepared then
    if offeredSize = 0 then
      if eof then
        let buf := es.buf.take 2 ++ bytes "0\r\n\r\n" ++ es.buf.drop 7
        some {
          es := { es with finalChunk := true, buf }
          offeredSize, send := (buf.drop es.pos).take (7 - es.pos), eof, ret := true }
      else
        some {
          es, offeredSize, send := (es.buf.drop es.pos).take (2 - es.pos), eof
          ret := 2 - es.pos ≠ 0 }
    else
      let chunkSize := min offeredSize 0xffff
      let buf := es.buf.take 2 ++ uintToHexStringZeropad chunkSize 4 ++ es.buf.drop 6
      some {
        es := { es with chunkSize, buf, headerPrepared := true }
        offeredSize := chunkSize, send := (buf.drop es.pos).take (8 - es.pos)
        eof := false, ret := true }
  else if es.pos < 8 then
    -- assert(*offered_size >= encoder_state->chunk_size)
    if es.chunkSize ≤ offeredSize then
      some {
        es, offeredSize := es.chunkSize, send := (es.buf.drop es.pos).take (8 - es.pos)
        eof := false, ret := true }
    else none
  else
    let chunkBytesLeft := es.chunkSize - (es.pos - 8)
    -- assert(*offered_size >= chunk_bytes_left)
    if chunkBytesLeft ≤ offeredSize then
      some { es, offeredSize := chunkBytesLeft, send := [], eof := false, ret := false }
    else none

/-- `_nxweb_encode_chunked_advance`. -/
def encodeChunkedAdvance (es : ChunkedEncoderState) (posDelta : ℕ) : ChunkedEncoderState :=
  if posDelta = 0 then es
  else
    let es := { es with pos := es.pos + posDelta }
    if es.pos = 8 + es.chunkSize then { es with pos := 0, headerPrepared := false } else es

/-- `_nxweb_encode_chunked_is_complete`. -/
def encodeChunkedIsComplete (es : ChunkedEncoderState) : Bool :=
  es.finalChunk && es.pos == 7

end Nxweb
