import Nxweb.Bytes

/-!
# The SHA-1 functions

The signature of an image command is a SHA-1 digest. The functions of `sha1.c` keep the message
block that is not complete yet and the length of the message in two words of bits. All accesses to
the arrays are checked here: an access outside of the block of 64 bytes, or to a word of `W` that
has not been written, is `none`.
-/

namespace Nxweb

/-- The five words of `Message_Digest`, and the word buffers `A` to `E`. -/
structure Sha1Words where
  a : BitVec 32
  b : BitVec 32
  c : BitVec 32
  d : BitVec 32
  e : BitVec 32
  deriving DecidableEq, Repr

/-- `SHA1Context`. -/
structure Sha1Context where
  messageDigest : Sha1Words
  lengthLow : BitVec 32
  lengthHigh : BitVec 32
  messageBlock : Vector UInt8 64
  messageBlockIndex : ℕ
  computed : Bool
  corrupted : Bool

/-- `SHA1CircularShift`. -/
def sha1CircularShift (bits : ℕ) (word : BitVec 32) : BitVec 32 :=
  ((word <<< bits) &&& 0xFFFFFFFF) ||| (word >>> (32 - bits))

/-- The words that `SHA1Reset` puts into `Message_Digest`. -/
def sha1InitialDigest : Sha1Words :=
  ⟨0x67452301, 0xEFCDAB89, 0x98BADCFE, 0x10325476, 0xC3D2E1F0⟩

/-- `SHA1Reset`. The message block is not cleared. -/
def sha1Reset (context : Sha1Context) : Sha1Context :=
  { context with
    lengthLow := 0
    lengthHigh := 0
    messageBlockIndex := 0
    messageDigest := sha1InitialDigest
    computed := false
    corrupted := false }

/-! ### One block -/

/-- `(uint32_t) b`. -/
def sha1Octet (b : UInt8) : BitVec 32 := BitVec.ofNat 32 b.toNat

/-- One turn of the loop that fills `W[0]` to `W[15]`. -/
def sha1LoadWord (messageBlock : Vector UInt8 64) (W : List (BitVec 32)) (t : ℕ) :
    Option (List (BitVec 32)) := do
  let b₀ ← messageBlock[t * 4]?
  let b₁ ← messageBlock[t * 4 + 1]?
  let b₂ ← messageBlock[t * 4 + 2]?
  let b₃ ← messageBlock[t * 4 + 3]?
  some (W ++ [(sha1Octet b₀ <<< 24) ||| (sha1Octet b₁ <<< 16) ||| (sha1Octet b₂ <<< 8) |||
    sha1Octet b₃])

/-- One turn of the loop that fills `W[16]` to `W[79]`. -/
def sha1ExpandWord (W : List (BitVec 32)) (t : ℕ) : Option (List (BitVec 32)) := do
  let w₃ ← W[t - 3]?
  let w₈ ← W[t - 8]?
  let w₁₄ ← W[t - 14]?
  let w₁₆ ← W[t - 16]?
  some (W ++ [sha1CircularShift 1 (w₃ ^^^ w₈ ^^^ w₁₄ ^^^ w₁₆)])

/-- One turn of a loop over the word buffers. The four loops differ in the function of `B`, `C` and
`D` and in the constant. -/
def sha1Turn (f : BitVec 32 → BitVec 32 → BitVec 32 → BitVec 32) (k : BitVec 32)
    (W : List (BitVec 32)) (r : Sha1Words) (t : ℕ) : Option Sha1Words := do
  let temp := (sha1CircularShift 5 r.a + f r.b r.c r.d + r.e + (← W[t]?) + k) &&& 0xFFFFFFFF
  some { e := r.d, d := r.c, c := sha1CircularShift 30 r.b, b := r.a, a := temp }

/-- `SHA1ProcessMessageBlock`. -/
def sha1ProcessMessageBlock (context : Sha1Context) : Option Sha1Context := do
  let W ← (List.range 16).foldlM (sha1LoadWord context.messageBlock) []
  let W ← (List.range' 16 64).foldlM sha1ExpandWord W
  let r := context.messageDigest
  let r ← (List.range' 0 20).foldlM
    (sha1Turn (fun B C D => (B &&& C) ||| (~~~B &&& D)) 0x5A827999 W) r
  let r ← (List.range' 20 20).foldlM (sha1Turn (fun B C D => B ^^^ C ^^^ D) 0x6ED9EBA1 W) r
  let r ← (List.range' 40 20).foldlM
    (sha1Turn (fun B C D => (B &&& C) ||| (B &&& D) ||| (C &&& D)) 0x8F1BBCDC W) r
  let r ← (List.range' 60 20).foldlM (sha1Turn (fun B C D => B ^^^ C ^^^ D) 0xCA62C1D6 W) r
  some { context with
    messageDigest :=
      { a := (context.messageDigest.a + r.a) &&& 0xFFFFFFFF
        b := (context.messageDigest.b + r.b) &&& 0xFFFFFFFF
        c := (context.messageDigest.c + r.c) &&& 0xFFFFFFFF
        d := (context.messageDigest.d + r.d) &&& 0xFFFFFFFF
        e := (context.messageDigest.e + r.e) &&& 0xFFFFFFFF }
    messageBlockIndex := 0 }

/-! ### The message -/

/-- `context->Message_Block[i] = b`. -/
def Sha1Context.store (context : Sha1Context) (i : ℕ) (b : UInt8) : Option Sha1Context :=
  if h : i < 64 then some { context with messageBlock := context.messageBlock.set i b h } else none

/-- `context->Message_Block[context->Message_Block_Index++] = b`. -/
def Sha1Context.push (context : Sha1Context) (b : UInt8) : Option Sha1Context := do
  let context' ← context.store context.messageBlockIndex b
  some { context' with messageBlockIndex := context.messageBlockIndex + 1 }

/-- The length of the message, in bits, after one more octet. -/
def Sha1Context.addOctet (context : Sha1Context) : Sha1Context :=
  let lengthLow := (context.lengthLow + 8) &&& 0xFFFFFFFF
  if lengthLow = 0 then
    let lengthHigh := (context.lengthHigh + 1) &&& 0xFFFFFFFF
    -- the message is too long if the second word is zero again
    { context with lengthLow, lengthHigh, corrupted := context.corrupted || lengthHigh = 0 }
  else { context with lengthLow }

/-- The loop of `SHA1Input`. -/
def sha1InputLoop (context : Sha1Context) : List UInt8 → Option Sha1Context
  | [] => some context
  | b :: message =>
    if context.corrupted then some context
    else do
      let context := (← context.push b).addOctet
      if context.messageBlockIndex = 64 then
        sha1InputLoop (← sha1ProcessMessageBlock context) message
      else sha1InputLoop context message

/-- `SHA1Input`, where the array has as many octets as `length` says. -/
def sha1Input (context : Sha1Context) (message : List UInt8) : Option Sha1Context :=
  if message.length = 0 then some context
  else if context.computed || context.corrupted then some { context with corrupted := true }
  else sha1InputLoop context message

/-- `while(context->Message_Block_Index < limit) context->Message_Block[…++] = 0`, with at most so
many turns. -/
def sha1FillZero (limit : ℕ) : ℕ → Sha1Context → Option Sha1Context
  | 0, _ => none
  | fuel + 1, context =>
    if context.messageBlockIndex < limit then do sha1FillZero limit fuel (← context.push 0)
    else some context

/-- `(word >> shift) & 0xFF`. -/
def sha1LengthOctet (word : BitVec 32) (shift : ℕ) : UInt8 :=
  UInt8.ofNat ((word >>> shift) &&& 0xFF).toNat

/-- What `SHA1PadMessage` puts between the message and its length: if there is no room for the
length in the block, it goes into another one. -/
def sha1PadZeros (context : Sha1Context) : Option Sha1Context :=
  if context.messageBlockIndex > 55 then do
    let context ← context.push 0x80
    let context ← sha1FillZero 64 65 context
    let context ← sha1ProcessMessageBlock context
    sha1FillZero 56 65 context
  else do
    let context ← context.push 0x80
    sha1FillZero 56 65 context

/-- The length of the message in the last eight octets of the block. -/
def sha1StoreLength (context : Sha1Context) : Option Sha1Context := do
  let context ← context.store 56 (sha1LengthOctet context.lengthHigh 24)
  let context ← context.store 57 (sha1LengthOctet context.lengthHigh 16)
  let context ← context.store 58 (sha1LengthOctet context.lengthHigh 8)
  let context ← context.store 59 (sha1LengthOctet context.lengthHigh 0)
  let context ← context.store 60 (sha1LengthOctet context.lengthLow 24)
  let context ← context.store 61 (sha1LengthOctet context.lengthLow 16)
  let context ← context.store 62 (sha1LengthOctet context.lengthLow 8)
  context.store 63 (sha1LengthOctet context.lengthLow 0)

/-- `SHA1PadMessage`. -/
def sha1PadMessage (context : Sha1Context) : Option Sha1Context := do
  let context ← sha1PadZeros context
  let context ← sha1StoreLength context
  sha1ProcessMessageBlock context

/-- `SHA1Result`, and whether it succeeds. -/
def sha1Result (context : Sha1Context) : Option (Sha1Context × Bool) :=
  if context.corrupted then some (context, false)
  else if !context.computed then do
    let context ← sha1PadMessage context
    some ({ context with computed := true }, true)
  else some (context, true)

/-- The eight digits that `sha1sign` writes for a word. -/
def sha1WordDigits (n : BitVec 32) : List UInt8 :=
  [28, 24, 20, 16, 12, 8, 4, 0].map fun shift => hexDigit (n >>> shift).toNat

/-- `sha1sign`: the string in `result`. The context on the stack has any content. -/
def sha1sign (sha : Sha1Context) (str key : List UInt8) : Option (List UInt8) := do
  let sha := sha1Reset sha
  let sha ← sha1Input sha str
  -- `strlen(key)` is passed as `uint32_t`
  let sha ← sha1Input sha (key.take (key.length % 2 ^ 32))
  let (sha, _) ← sha1Result sha
  let digest := sha.messageDigest
  some (sha1WordDigits digest.a ++ sha1WordDigits digest.b ++ sha1WordDigits digest.c ++
    sha1WordDigits digest.d ++ sha1WordDigits digest.e)

end Nxweb
