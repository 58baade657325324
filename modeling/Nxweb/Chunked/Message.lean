import Nxweb.Bytes

/-!
# Chunked messages

The chunked transfer coding as a set of byte strings, independent of how the program
reads or writes it. A message is a list of non-empty chunks, each a size line in
hexadecimal followed by that many bytes, and a last size line of zeros. There are no
trailers and no chunk extensions.

Both directions of the program refer to this module: the decoder is shown to read
every `ChunkedMessage.wire` and the encoder to produce one.

## Main definitions

* `Chunk`: a chunk together with the digits its size line is written with;
* `ChunkedMessage`: chunks and the digits of the terminating size line;
* `ChunkedMessage.wire` and `ChunkedMessage.body`: the bytes on the wire and the bytes
  they carry;
* `Chunk.ofData`: a chunk of less than `16 ^ 4` bytes with a four-digit size line;
* `Chunk.ofByte`: a one-byte chunk with a one-digit size line.
-/

namespace Nxweb

/-- One chunk of a chunked message. The size line may use digits of either case and
leading zeros; it must denote the length of the data, which is at least one and below
`2 ^ 63`. -/
structure Chunk where
  /-- The digits of the size line. -/
  digits : List UInt8
  /-- The bytes the chunk carries. -/
  data : List UInt8
  digits_hex : ∀ c ∈ digits, hexDigitVal c ≠ none
  hexValue_eq : hexValue digits = data.length
  data_pos : 0 < data.length
  data_lt : data.length < 2 ^ 63

namespace Chunk

/-- The size line, the data and the line end after the data. -/
def wire (c : Chunk) : List UInt8 := c.digits ++ crlf ++ c.data ++ crlf

/-- A size line that denotes a positive number has at least one digit. -/
theorem digits_ne_nil (c : Chunk) : c.digits ≠ [] := by
  intro h
  have hval := c.hexValue_eq
  have hpos := c.data_pos
  rw [h] at hval
  simp only [hexValue, hexValueFrom] at hval
  omega

/-- The chunk with the given data and a size line of four digits. -/
def ofData (data : List UInt8) (h0 : 0 < data.length) (h : data.length ≤ 0xffff) : Chunk where
  digits := uintToHexStringZeropad data.length 4
  data := data
  digits_hex := fun _ hc => hexDigitVal_ne_none_of_mem hc
  hexValue_eq := by
    rw [hexValue_uintToHexStringZeropad, Nat.mod_eq_of_lt (by omega)]
  data_pos := h0
  data_lt := by omega

/-- The chunk that carries one byte. -/
def ofByte (b : UInt8) : Chunk where
  digits := [49]
  data := [b]
  digits_hex := by decide +kernel
  hexValue_eq := rfl
  data_pos := by simp
  data_lt := by simp

end Chunk

/-- A whole chunked message: its chunks and the zeros of the last size line. -/
structure ChunkedMessage where
  /-- The chunks before the terminator. -/
  chunks : List Chunk
  /-- The digits of the terminating size line. -/
  zeros : List UInt8
  zeros_ne_nil : zeros ≠ []
  zeros_eq : ∀ c ∈ zeros, c = 48

namespace ChunkedMessage

/-- The bytes of a list of chunks, without a terminator. -/
def chunksWire (cs : List Chunk) : List UInt8 := (cs.map Chunk.wire).flatten

/-- The bytes carried by a list of chunks. -/
def chunksData (cs : List Chunk) : List UInt8 := (cs.map Chunk.data).flatten

/-- The message as it appears on the wire. -/
def wire (m : ChunkedMessage) : List UInt8 :=
  chunksWire m.chunks ++ m.zeros ++ crlf ++ crlf

/-- The body the message carries. -/
def body (m : ChunkedMessage) : List UInt8 := chunksData m.chunks

/-- The message with the given chunks and the terminator `0 CRLF CRLF`. -/
def ofChunks (cs : List Chunk) : ChunkedMessage where
  chunks := cs
  zeros := [48]
  zeros_ne_nil := by simp
  zeros_eq := by simp

@[simp] theorem chunksWire_nil : chunksWire [] = [] := rfl

@[simp] theorem chunksData_nil : chunksData [] = [] := rfl

@[simp]
theorem chunksWire_cons (c : Chunk) (cs : List Chunk) :
    chunksWire (c :: cs) = c.wire ++ chunksWire cs := rfl

@[simp]
theorem chunksData_cons (c : Chunk) (cs : List Chunk) :
    chunksData (c :: cs) = c.data ++ chunksData cs := rfl

@[simp]
theorem chunksWire_append (cs ds : List Chunk) :
    chunksWire (cs ++ ds) = chunksWire cs ++ chunksWire ds := by
  simp [chunksWire]

@[simp]
theorem chunksData_append (cs ds : List Chunk) :
    chunksData (cs ++ ds) = chunksData cs ++ chunksData ds := by
  simp [chunksData]

/-- One-byte chunks carry the bytes they were made from. -/
@[simp]
theorem chunksData_map_ofByte (bs : List UInt8) : chunksData (bs.map Chunk.ofByte) = bs := by
  induction bs with
  | nil => rfl
  | cons b bs ih => rw [List.map_cons, chunksData_cons, ih]; rfl

/-- A message is never empty: it ends with a line end. -/
theorem wire_ne_nil (m : ChunkedMessage) : m.wire ≠ [] := by
  simp [wire]

end ChunkedMessage

end Nxweb
