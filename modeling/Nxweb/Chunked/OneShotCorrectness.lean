import Nxweb.Chunked.Extensions
import Nxweb.Chunked.OneShot
import Nxweb.Chunked.SizeArithmetic

/-!
# The one-shot decoders and the streaming one

The one-shot decoder returns the length of the body and leaves the body in front, for every chunked
message with sizes below `2 ^ 31`, and the verifier returns the same length. `strtol` stops at an
extension, `strchr` looks for the end of the size line, and nothing is read behind the last size
line. So extensions and trailers do not matter to them, and they agree with the streaming decoder
exactly if there are none.

Both loops walk along the chunks: the bytes from the position on are the rest of the message, and
what has been moved to the front is the data so far.

## Main definitions

* `DecodersAgree`: what the three functions leave and return is the same.

## Main results

* `chunkHead_of_line`: what is read of a size line;
* `loop_decodeChunkedTurn`, `loop_verifyChunkedTurn`: the loops on the chunks that are left;
* `decodersAgree_iff`: the three functions agree if and only if there is nothing but chunks.
-/

namespace Nxweb

open Lib

/-! ### Size lines -/

/-- The digits of the streaming decoder are those of `strtol`. -/
theorem digitValue_of_hexDigitVal {c : UInt8} {v : ℕ} (h : hexDigitVal c = some v) :
    digitValue c = v ∧ isDigitIn 16 c = true := by
  have hv : v < 16 := hexDigitVal_lt h
  have hc : digitValue c = v := by
    simp only [hexDigitVal, UInt8.le_iff_toNat_le, UInt8.reduceToNat] at h
    simp only [digitValue, UInt8.le_iff_toNat_le, UInt8.reduceToNat]
    split_ifs at h ⊢ <;> simp only [Option.some.injEq] at h <;> omega
  refine ⟨hc, ?_⟩
  simpa [isDigitIn, hc] using hv

theorem numberValueFrom_eq_hexValueFrom {ds : List UInt8} (h : ∀ c ∈ ds, hexDigitVal c ≠ none)
    (acc : ℕ) : numberValueFrom 16 acc ds = hexValueFrom acc ds := by
  induction ds generalizing acc with
  | nil => rfl
  | cons c cs ih =>
    obtain ⟨v, hv⟩ := Option.ne_none_iff_exists'.mp (h c (by simp))
    rw [numberValueFrom, hexValueFrom, (digitValue_of_hexDigitVal hv).1, hv]
    exact ih (fun x hx => h x (by simp [hx])) _

/-- A number ends where the extensions or the end of the line begin. -/
theorem endsNumberIn_extension {ext : List UInt8} (hext : IsExtension ext) (rest : List UInt8) :
    EndsNumberIn 16 (ext ++ crlf ++ rest) := by
  intro c hc
  by_cases hnil : ext = []
  · rw [hnil] at hc
    obtain rfl : cr = c := Option.some.inj hc
    decide
  · obtain ⟨b, tail, rfl, hb⟩ := hext.exists_cons hnil
    obtain rfl : b = c := Option.some.inj hc
    rcases hb with rfl | rfl | rfl <;> decide

/-- A size line with a zero somewhere behind it. -/
theorem chunkHead_of_line {buf digits ext rest : List UInt8} {p : ℕ}
    (hdrop : buf.drop p = digits ++ ext ++ crlf ++ rest) (h0 : 0 ∈ rest) (hne : digits ≠ [])
    (hhex : ∀ c ∈ digits, hexDigitVal c ≠ none) (hext : IsExtension ext)
    (hlt : hexValue digits < 2 ^ 31) :
    chunkHead buf p = .line (hexValue digits) (p + (digits ++ ext).length + 2) := by
  have hdigit : ∀ c ∈ digits, isDigitIn 16 c = true := by
    intro c hc
    obtain ⟨v, hv⟩ := Option.ne_none_iff_exists'.mp (hhex c hc)
    exact (digitValue_of_hexDigitVal hv).2
  have hzero : 0 ∉ digits ++ ext ++ crlf := by
    intro hmem
    rcases List.mem_append.mp hmem with hmem | hmem
    · rcases List.mem_append.mp hmem with hmem | hmem
      · exact hhex 0 hmem (by decide)
      · exact (hext.line 0 hmem).2.2 rfl
    · exact absurd hmem (by decide)
  have htext : cstr (buf.drop p) = digits ++ (ext ++ crlf ++ cstr rest) := by
    rw [hdrop, cstr_append hzero]
    simp only [List.append_assoc]
  have hread : strToInteger 16 (digits ++ (ext ++ crlf ++ cstr rest)) =
      ((hexValue digits : ℤ), ext ++ crlf ++ cstr rest) := by
    rw [strToInteger_digits (by decide) (by decide) hdigit hne (endsNumberIn_extension hext _),
      numberValue, numberValueFrom_eq_hexValueFrom hhex, hexValue]
  -- the number is neither cut down to a `long` nor to an `int`
  have hword : (clampLong (hexValue digits)).bmod (2 ^ 32) = hexValue digits := by
    have hclamp : clampLong (hexValue digits) = hexValue digits := by
      unfold clampLong
      omega
    rw [hclamp, Int.bmod_eq_of_le] <;> omega
  -- there is no line end inside the extensions
  have hfound : (ext ++ crlf ++ cstr rest).dropWhile (· ≠ lf) = lf :: cstr rest := by
    rw [List.append_assoc, List.dropWhile_append_of_pos]
    · simp [crlf, show cr ≠ lf by decide]
    · intro c hc
      simpa using (hext.line c hc).2.1
  have hmem : 0 ∈ buf.drop p := by
    rw [hdrop]
    exact List.mem_append_right _ h0
  unfold chunkHead
  rw [if_pos hmem, htext]
  simp only [hread, hword, hfound]
  rw [if_neg (List.cons_ne_nil _ _)]
  congr 1
  simp only [List.length_append, List.length_cons, crlf, List.length_nil]
  omega

theorem ExtendedChunk.length_wire (c : ExtendedChunk) :
    c.wire.length = (c.digits ++ c.ext).length + 2 + c.data.length + 2 := by
  simp only [ExtendedChunk.wire, List.length_append, crlf, List.length_cons, List.length_nil]

/-- What is read of a chunk inside the message. -/
theorem readChunk_of_chunk {buf rest : List UInt8} {p bufLen : ℕ} {c : ExtendedChunk}
    (hdrop : buf.drop p = c.wire ++ rest) (h0 : 0 ∈ rest) (hlt : c.data.length < 2 ^ 31)
    (hlen : p + c.wire.length < bufLen) :
    readChunk buf bufLen p =
      .chunk c.data.length (p + (c.digits ++ c.ext).length + 2) (p + c.wire.length : ℕ) := by
  have hline : buf.drop p = c.digits ++ c.ext ++ crlf ++ (c.data ++ crlf ++ rest) := by
    rw [hdrop, ExtendedChunk.wire]
    simp only [List.append_assoc]
  have hhead := chunkHead_of_line hline (by simp [h0]) c.digits_ne_nil c.digits_hex c.ext_ok
    (by rw [c.hexValue_eq]; exact hlt)
  rw [c.hexValue_eq] at hhead
  have hbefore : (c.digits ++ c.ext ++ crlf ++ c.data).length =
      (c.digits ++ c.ext).length + c.data.length + 2 := by
    simp only [List.length_append, crlf, List.length_cons, List.length_nil]
    omega
  have hwire := c.length_wire
  -- the two bytes in front of the new position are the line end behind the data
  have hbyte : ∀ k, byteAt buf (p + ((c.digits ++ c.ext).length + c.data.length + 2 + k) : ℕ) =
      (crlf ++ rest)[k]? := by
    intro k
    rw [byteAt, if_pos (by omega), Int.toNat_natCast, ← List.getElem?_drop, hdrop,
      ExtendedChunk.wire, List.append_assoc, List.getElem?_append_right (by omega), hbefore]
    congr 1
    omega
  have hpos := c.data_pos
  have hnext : ((p + (c.digits ++ c.ext).length + 2 : ℕ) : ℤ) + (c.data.length : ℕ) + 2 =
      (p + c.wire.length : ℕ) := by
    push_cast [hwire]
    ring
  have hcr : byteAt buf ((p + c.wire.length : ℕ) - 2) = some cr := by
    rw [← show (crlf ++ rest)[0]? = some cr from rfl, ← hbyte 0]
    congr 1
    omega
  have hlf : byteAt buf ((p + c.wire.length : ℕ) - 1) = some lf := by
    rw [← show (crlf ++ rest)[1]? = some lf from rfl, ← hbyte 1]
    congr 1
    omega
  unfold readChunk
  rw [if_neg (by omega), Int.toNat_natCast, hhead]
  simp only [hnext]
  rw [if_neg (by omega), if_neg (by omega), hcr, hlf]
  rfl

/-- The value of the zeros of the last size line. -/
theorem readChunk_of_zeros {buf zeros ext rest : List UInt8} {p bufLen : ℕ}
    (hdrop : buf.drop p = zeros ++ ext ++ crlf ++ rest) (h0 : 0 ∈ rest) (hne : zeros ≠ [])
    (hzeros : ∀ c ∈ zeros, c = 48) (hext : IsExtension ext) : readChunk buf bufLen p = .last := by
  have hvalue : hexValue zeros = 0 := hexValueFrom_zeros hzeros
  have hhex : ∀ c ∈ zeros, hexDigitVal c ≠ none := by
    intro c hc
    rw [hzeros c hc]
    decide
  have hhead := chunkHead_of_line hdrop h0 hne hhex hext (by rw [hvalue]; decide)
  rw [hvalue] at hhead
  unfold readChunk
  rw [if_neg (by omega), Int.toNat_natCast, hhead]
  rfl

/-! ### The loops -/

/-- A copy to the front does not change what lies behind its target. -/
theorem drop_memmove {buf : List UInt8} {dst src n p : ℕ} (hdst : dst ≤ src)
    (hsrc : src + n ≤ buf.length) (hp : dst + n ≤ p) :
    (memmove buf dst src n).drop p = buf.drop p := by
  have hlen : (buf.take dst ++ (buf.drop src).take n).length = dst + n := by
    simp only [List.length_append, List.length_take, List.length_drop]
    omega
  rw [memmove, List.drop_append, List.drop_of_length_le (by omega), hlen, List.nil_append,
    List.drop_drop]
  congr 1
  omega

/-- A copy extends what is in front of its target. -/
theorem take_memmove {buf : List UInt8} {dst src n : ℕ} (hdst : dst ≤ src)
    (hsrc : src + n ≤ buf.length) :
    (memmove buf dst src n).take (dst + n) = buf.take dst ++ (buf.drop src).take n := by
  have hlen : (buf.take dst ++ (buf.drop src).take n).length = dst + n := by
    simp only [List.length_append, List.length_take, List.length_drop]
    omega
  rw [memmove, ← hlen, List.take_left]

section Loops

variable {bufLen : ℕ} {zeros ext rest : List UInt8}

/-- The verifier on the chunks that are left. -/
theorem loop_verifyChunkedTurn (hne : zeros ≠ []) (hzeros : ∀ c ∈ zeros, c = 48)
    (hext : IsExtension ext) (h0 : 0 ∈ rest) {cs : List ExtendedChunk}
    (hlt : ∀ c ∈ cs, c.data.length < 2 ^ 31) {f : OneShotFrame} {p : ℕ} (hp : f.p = p)
    (hdrop : f.buf.drop p = ExtendedMessage.chunksWire cs ++ (zeros ++ ext ++ crlf ++ rest))
    (hlen : p + (ExtendedMessage.chunksWire cs).length < bufLen) :
    loop (verifyChunkedTurn bufLen) (cs.length + 1) f =
      some (f.size + (ChunkedMessage.chunksData (cs.map (·.toChunk))).length, f.buf) := by
  induction cs generalizing f p with
  | nil =>
    have hread := @readChunk_of_zeros f.buf zeros ext rest p bufLen hdrop h0 hne hzeros hext
    apply loop_of_ret
    simp [verifyChunkedTurn, hp, hread]
  | cons c cs ih =>
    rw [ExtendedMessage.chunksWire_cons, List.append_assoc] at hdrop
    rw [ExtendedMessage.chunksWire_cons, List.length_append] at hlen
    have hread := readChunk_of_chunk hdrop (by simp [h0]) (hlt c (by simp))
      (show p + c.wire.length < bufLen by omega)
    have hturn : verifyChunkedTurn bufLen f =
        .next { f with p := (p + c.wire.length : ℕ), size := f.size + c.data.length } := by
      simp only [verifyChunkedTurn, hp, hread]
    rw [List.length_cons, loop_of_next hturn,
      ih (fun x hx => hlt x (by simp [hx])) rfl _ (by omega)]
    · rw [List.map_cons, ChunkedMessage.chunksData_cons, List.length_append]
      push_cast
      rw [add_assoc]
    · show f.buf.drop (p + c.wire.length) = _
      rw [← List.drop_drop, hdrop, List.drop_left]

/-- The decoder on the chunks that are left. The data so far lies in front of `d`. -/
theorem loop_decodeChunkedTurn (hne : zeros ≠ []) (hzeros : ∀ c ∈ zeros, c = 48)
    (hext : IsExtension ext) (h0 : 0 ∈ rest) {cs : List ExtendedChunk}
    (hlt : ∀ c ∈ cs, c.data.length < 2 ^ 31) {f : OneShotFrame} {p : ℕ} (hp : f.p = p)
    (hd : f.d ≤ p)
    (hdrop : f.buf.drop p = ExtendedMessage.chunksWire cs ++ (zeros ++ ext ++ crlf ++ rest))
    (hlen : p + (ExtendedMessage.chunksWire cs).length < bufLen) :
    ∃ buf', loop (decodeChunkedTurn bufLen) (cs.length + 1) f =
        some (f.size + (ChunkedMessage.chunksData (cs.map (·.toChunk))).length, buf') ∧
      buf'.take (f.d + (ChunkedMessage.chunksData (cs.map (·.toChunk))).length) =
        f.buf.take f.d ++ ChunkedMessage.chunksData (cs.map (·.toChunk)) := by
  induction cs generalizing f p with
  | nil =>
    have hread := @readChunk_of_zeros f.buf zeros ext rest p bufLen hdrop h0 hne hzeros hext
    refine ⟨f.buf.set f.d 0, ?_, ?_⟩
    · apply loop_of_ret
      simp [decodeChunkedTurn, hp, hread]
    · rw [List.map_nil, ChunkedMessage.chunksData_nil, List.length_nil, Nat.add_zero,
        List.append_nil, List.take_set_of_le le_rfl]
  | cons c cs ih =>
    rw [ExtendedMessage.chunksWire_cons, List.append_assoc] at hdrop
    rw [ExtendedMessage.chunksWire_cons, List.length_append] at hlen
    have hread := readChunk_of_chunk hdrop (by simp [h0]) (hlt c (by simp))
      (show p + c.wire.length < bufLen by omega)
    have hwire := c.length_wire
    have hdata : (f.buf.drop (p + (c.digits ++ c.ext).length + 2)).take c.data.length =
        c.data := by
      have hline : (c.digits ++ c.ext ++ crlf).length = (c.digits ++ c.ext).length + 2 := by
        simp [crlf, add_assoc]
      have hsplit : f.buf.drop p = (c.digits ++ c.ext ++ crlf) ++ (c.data ++ (crlf ++
          (ExtendedMessage.chunksWire cs ++ (zeros ++ ext ++ crlf ++ rest)))) := by
        rw [hdrop, ExtendedChunk.wire]
        simp only [List.append_assoc]
      rw [add_assoc, ← List.drop_drop, hsplit, ← hline, List.drop_left, List.take_left]
    have hbuf : p + c.wire.length ≤ f.buf.length := by
      have := congrArg List.length hdrop
      simp only [List.length_drop, List.length_append] at this
      have hpos := c.data_pos
      omega
    have hturn : decodeChunkedTurn bufLen f = .next
        { buf := memmove f.buf f.d (p + (c.digits ++ c.ext).length + 2) c.data.length
          p := (p + c.wire.length : ℕ)
          d := f.d + c.data.length
          size := f.size + c.data.length } := by
      simp only [decodeChunkedTurn, hp, hread]
      rw [if_neg (by omega), Int.toNat_natCast]
    rw [List.length_cons, loop_of_next hturn]
    obtain ⟨buf', hloop, htake⟩ := @ih (fun x hx => hlt x (by simp [hx]))
      { buf := memmove f.buf f.d (p + (c.digits ++ c.ext).length + 2) c.data.length
        p := (p + c.wire.length : ℕ)
        d := f.d + c.data.length
        size := f.size + c.data.length } (p + c.wire.length) rfl (by dsimp only; omega)
      (by
        dsimp only
        rw [drop_memmove (by omega) (by omega) (by omega), ← List.drop_drop, hdrop, List.drop_left])
      (by omega)
    refine ⟨buf', ?_, ?_⟩
    · rw [hloop]
      dsimp only
      rw [List.map_cons, ChunkedMessage.chunksData_cons, List.length_append, Nat.cast_add,
        add_assoc]
    · dsimp only at htake
      rw [take_memmove (by omega) (by omega), hdata, List.append_assoc] at htake
      rw [List.map_cons, ChunkedMessage.chunksData_cons, List.length_append, ← add_assoc, htake]

end Loops

/-! ### Agreement -/

/-- The text in front of a zero byte is decoded to the same bytes by the one-shot decoder as by the
streaming one in one call, with the same length, and the verifier returns this length and leaves the
memory alone. -/
def DecodersAgree (text behind : List UInt8) : Prop :=
  ∃ r, decodeChunkedStream .zero text = some r ∧
    (∃ fuel buf', decodeChunked fuel (text ++ 0 :: behind) text.length =
      some ((r.bufLen : ℤ), buf') ∧ buf'.take r.bufLen = r.kept) ∧
    ∃ fuel, verifyChunked fuel (text ++ 0 :: behind) text.length =
      some ((r.bufLen : ℤ), text ++ 0 :: behind)

namespace ExtendedMessage

variable {m : ExtendedMessage}

/-- The one-shot decoders read every message, with anything between it and a zero byte. -/
theorem decodeChunked_eq (hlt : ∀ c ∈ m.chunks, c.data.length < 2 ^ 31)
    (extra behind : List UInt8) :
    (∃ buf', decodeChunked (m.chunks.length + 1) (m.wire ++ extra ++ 0 :: behind)
        (m.wire ++ extra).length = some ((m.toMessage.body.length : ℤ), buf') ∧
      buf'.take m.toMessage.body.length = m.toMessage.body) ∧
    verifyChunked (m.chunks.length + 1) (m.wire ++ extra ++ 0 :: behind)
      (m.wire ++ extra).length =
        some ((m.toMessage.body.length : ℤ), m.wire ++ extra ++ 0 :: behind) := by
  -- the memory from the first byte on is the message
  have hdrop : (m.wire ++ extra ++ 0 :: behind).drop 0 =
      chunksWire m.chunks ++ (m.zeros ++ m.lastExt ++ crlf ++
        (trailersWire m.trailers ++ crlf ++ extra ++ 0 :: behind)) := by
    simp only [List.drop_zero, wire, List.append_assoc]
  have hfits : 0 + (chunksWire m.chunks).length < (m.wire ++ extra).length := by
    simp only [wire, List.length_append, crlf, List.length_cons]
    omega
  constructor
  · obtain ⟨buf', hloop, htake⟩ := loop_decodeChunkedTurn m.zeros_ne_nil m.zeros_eq m.lastExt_ok
      (by simp) hlt (f := .enter (m.wire ++ extra ++ 0 :: behind)) (p := 0) rfl le_rfl hdrop hfits
    refine ⟨buf', ?_, ?_⟩
    · rw [decodeChunked, hloop]
      simp [OneShotFrame.enter, toMessage, ChunkedMessage.body]
    · simpa [OneShotFrame.enter, toMessage, ChunkedMessage.body] using htake
  · have hloop := loop_verifyChunkedTurn m.zeros_ne_nil m.zeros_eq m.lastExt_ok (by simp) hlt
      (f := .enter (m.wire ++ extra ++ 0 :: behind)) (p := 0) rfl hdrop hfits
    rw [verifyChunked, hloop]
    simp [OneShotFrame.enter, toMessage, ChunkedMessage.body]

/-- The streaming decoder reads a message that has nothing but chunks. -/
theorem decodeChunkedStream_of_plain (h : m.Plain) (extra : List UInt8) :
    ∃ r, decodeChunkedStream .zero (m.wire ++ extra) = some r ∧ r.code = 1 ∧
      r.Leaves m.toMessage.body := by
  obtain ⟨pre, ds, hwire, hpre, hdone⟩ := feeds_wire m.toMessage
  obtain ⟨hfeed, hfit⟩ := hpre.done hdone extra
  obtain ⟨r, hr, hcode, -, hleaves⟩ := decodeChunkedStream_leaves rfl hfit
  rw [hfeed] at hcode hleaves
  refine ⟨r, ?_, hcode, hleaves (by rw [hcode]; exact zero_le_one)⟩
  rw [wire_of_plain h, hwire, List.append_assoc]
  exact hr

end ExtendedMessage

/-- A message in front of a zero byte, with anything between and behind: the decoders agree on it if
and only if it has neither extensions nor a trailer. -/
theorem decodersAgree_iff (m : ExtendedMessage) (hlt : ∀ c ∈ m.chunks, c.data.length < 2 ^ 31)
    (extra behind : List UInt8) : DecodersAgree (m.wire ++ extra) behind ↔ m.Plain := by
  obtain ⟨⟨buf', hdecode, htake⟩, hverify⟩ := m.decodeChunked_eq hlt extra behind
  constructor
  · rintro ⟨r, hr, -, fuel, hverify'⟩
    by_contra hplain
    obtain ⟨r', hr', -, hlen⟩ := m.decodeChunkedStream_of_not_plain hplain extra
    obtain rfl := Option.some.inj (hr.symm.trans hr')
    -- the length that the streaming decoder leaves is the one it was given
    have hsame := loop_unique hverify hverify'
    have hlength : (m.toMessage.body.length : ℤ) = r.bufLen := congrArg Prod.fst hsame
    have hlt' := m.length_body_lt
    rw [hlen, List.length_append] at hlength
    omega
  · intro hplain
    obtain ⟨r, hr, -, hkept, hlen⟩ := ExtendedMessage.decodeChunkedStream_of_plain hplain extra
    rw [← hlen] at hdecode hverify htake
    rw [← hkept] at htake
    exact ⟨r, hr, ⟨_, buf', hdecode, htake⟩, _, hverify⟩

/-- Two chunks, the first one with a line end and a zero byte in its data. -/
def twoChunkMessage : ExtendedMessage where
  chunks := [
    { digits := bytes "4", data := bytes "3\r\n\x00", ext := [], ext_ok := ⟨.inl rfl, by decide⟩
      digits_hex := by decide +kernel, hexValue_eq := by decide, data_pos := by decide
      data_lt := by decide },
    { digits := bytes "1", data := bytes "a", ext := [], ext_ok := ⟨.inl rfl, by decide⟩
      digits_hex := by decide +kernel, hexValue_eq := by decide, data_pos := by decide
      data_lt := by decide }]
  zeros := bytes "0"
  zeros_ne_nil := by decide
  zeros_eq := by decide
  lastExt := []
  lastExt_ok := ⟨.inl rfl, by decide⟩
  trailers := []
  trailers_ok := by decide

theorem decodersAgree_twoChunks :
    twoChunkMessage.wire = bytes "4\r\n3\r\n\x00\r\n1\r\na\r\n0\r\n\r\n" ∧
      DecodersAgree (twoChunkMessage.wire ++ []) [7] :=
  ⟨by decide, (decodersAgree_iff twoChunkMessage (by decide) [] [7]).mpr
    ⟨by decide, rfl, rfl⟩⟩

/-- A chunk with an extension. -/
def extendedChunkMessage : ExtendedMessage where
  chunks := [
    { digits := bytes "2", data := bytes "ab", ext := bytes ";x"
      ext_ok := ⟨.inr ⟨[], bytes "x", rfl, by decide⟩, by decide⟩
      digits_hex := by decide +kernel, hexValue_eq := by decide, data_pos := by decide
      data_lt := by decide }]
  zeros := bytes "0"
  zeros_ne_nil := by decide
  zeros_eq := by decide
  lastExt := []
  lastExt_ok := ⟨.inl rfl, by decide⟩
  trailers := []
  trailers_ok := by decide

/-- The streaming decoder refuses a chunk with an extension, the other two read it. -/
theorem not_decodersAgree_extension :
    extendedChunkMessage.wire = bytes "2;x\r\nab\r\n0\r\n\r\n" ∧
      (decodeChunkedStream .zero extendedChunkMessage.wire).map (·.code) = some (-1) ∧
      (decodeChunked 2 (extendedChunkMessage.wire ++ [0]) 14).map (fun r => (r.1, r.2.take 2)) =
        some (2, bytes "ab") ∧
      (verifyChunked 2 (extendedChunkMessage.wire ++ [0]) 14).map (·.1) = some 2 ∧
      ¬ DecodersAgree extendedChunkMessage.wire [] := by
  refine ⟨by decide, by decide +kernel, by decide +kernel, by decide +kernel, ?_⟩
  rintro ⟨r, hr, -, fuel, hverify⟩
  have hlen : r.bufLen = 14 := by
    have hmap : (decodeChunkedStream .zero extendedChunkMessage.wire).map (·.bufLen) = some 14 := by
      decide +kernel
    rw [hr] at hmap
    exact Option.some.inj hmap
  have htwo : (verifyChunked 2 (extendedChunkMessage.wire ++ 0 :: []) 14).map (·.1) = some 2 := by
    decide +kernel
  obtain ⟨⟨size, buf⟩, hread, hsize⟩ := Option.map_eq_some_iff.mp htwo
  have hsame := congrArg Prod.fst (loop_unique hread hverify)
  rw [hlen] at hsame
  cases hsize.symm.trans hsame

end Nxweb
