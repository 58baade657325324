import Nxweb.Chunked.Decoder
import Nxweb.Lib.CString
import Nxweb.Lib.Loop
import Nxweb.Lib.Number

/-!
# The one-shot chunk decoders

Model of `_nxweb_decode_chunked` and `_nxweb_verify_chunked` (`http_utils.c`). Both walk over a
whole message in memory: `strtol` reads a chunk size, `strchr` finds the end of the size line, and
the position jumps over the data. The first one also moves the data to the front.

The memory goes on behind the `buf_len` bytes that the caller names; the string functions stop at
the next zero byte. A read outside the memory is a fault, and so is a copy of a negative number of
bytes, which is about `2 ^ 64` of them for `memmove`. The word `size` is read back as a signed one,
so it is an integer here.

## Main definitions

* `readChunk`: the part of a turn that both loops share;
* `decodeChunkedTurn`, `verifyChunkedTurn`: one turn of each loop.
-/

namespace Nxweb

open Lib

/-- What `strtol` and `strchr` find at a position. -/
inductive ChunkHead where
  /-- There is no zero byte in the memory from here on. -/
  | unbounded
  /-- There is no line end in the string. -/
  | noLine
  /-- The number, cut down to an `int`, and the position behind the line end. -/
  | line (chunkSize : ℤ) (chunkData : ℕ)
  deriving DecidableEq, Repr

/-- `chunk_size=strtol(p, &endp, 16)` and `chunk_data=strchr(endp, '\n')+1`. -/
def chunkHead (buf : List UInt8) (p : ℕ) : ChunkHead :=
  if 0 ∈ buf.drop p then
    let text := cstr (buf.drop p)
    let (size, endp) := strToInteger 16 text
    let found := endp.dropWhile (· ≠ lf)
    if found = [] then .noLine
    else .line ((clampLong size).bmod (2 ^ 32)) (p + (text.length - found.length) + 1)
  else .unbounded

/-- What the loops find at a position. -/
inductive ChunkRead where
  | fault
  /-- `return -1`. -/
  | malformed
  /-- The chunk of size zero. -/
  | last
  /-- A chunk: its size, the position of its data and the position behind it. -/
  | chunk (chunkSize : ℤ) (chunkData : ℕ) (p : ℤ)
  deriving DecidableEq, Repr

/-- A turn up to the point where the position has moved behind a chunk. -/
def readChunk (buf : List UInt8) (bufLen : ℕ) (p : ℤ) : ChunkRead :=
  if p < 0 then .fault
  else
    match chunkHead buf p.toNat with
    | .unbounded => .fault
    | .noLine => .malformed
    | .line chunkSize chunkData =>
      if chunkSize = 0 then .last
      else
        let p := chunkData + chunkSize + 2
        if bufLen ≤ p then .malformed
        else
          match byteAt buf (p - 2), byteAt buf (p - 1) with
          | some c, some c' =>
            if c ≠ cr ∨ c' ≠ lf then .malformed else .chunk chunkSize chunkData p
          | _, _ => .fault

/-- The variables of `_nxweb_verify_chunked`, which has no `d`, and of `_nxweb_decode_chunked`. -/
structure OneShotFrame where
  buf : List UInt8
  p : ℤ
  d : ℕ
  size : ℤ
  deriving DecidableEq, Repr

/-- The variables before the first turn. -/
def OneShotFrame.enter (buf : List UInt8) : OneShotFrame where
  buf := buf
  p := 0
  d := 0
  size := 0

/-- One turn of `_nxweb_decode_chunked`. It returns its value and the memory. -/
def decodeChunkedTurn (bufLen : ℕ) (f : OneShotFrame) : Turn OneShotFrame (ℤ × List UInt8) :=
  match readChunk f.buf bufLen f.p with
  | .fault => .fault
  | .malformed => .ret (-1, f.buf)
  | .last => .ret (f.size, f.buf.set f.d 0)
  | .chunk chunkSize chunkData p =>
    if chunkSize < 0 then .fault
    else
      .next { buf := memmove f.buf f.d chunkData chunkSize.toNat
              p := p
              d := f.d + chunkSize.toNat
              size := f.size + chunkSize }

/-- One turn of `_nxweb_verify_chunked`. -/
def verifyChunkedTurn (bufLen : ℕ) (f : OneShotFrame) : Turn OneShotFrame (ℤ × List UInt8) :=
  match readChunk f.buf bufLen f.p with
  | .fault => .fault
  | .malformed => .ret (-1, f.buf)
  | .last => .ret (f.size, f.buf)
  | .chunk chunkSize _ p => .next { f with p := p, size := f.size + chunkSize }

/-- `_nxweb_decode_chunked`, with a bound on the number of turns. -/
def decodeChunked (fuel : ℕ) (buf : List UInt8) (bufLen : ℕ) : Option (ℤ × List UInt8) :=
  loop (decodeChunkedTurn bufLen) fuel (.enter buf)

/-- `_nxweb_verify_chunked`, with a bound on the number of turns. -/
def verifyChunked (fuel : ℕ) (buf : List UInt8) (bufLen : ℕ) : Option (ℤ × List UInt8) :=
  loop (verifyChunkedTurn bufLen) fuel (.enter buf)

end Nxweb
