import Nxweb.Bytes

/-!
# The streaming chunked decoder

Model of `_nxweb_decode_chunked_stream` (`http_utils.c`). The function decodes in place:
it walks the buffer with a read cursor `p` and a write cursor `d`, moves the rest of the
buffer down over each size line, and keeps between calls which part of a chunk it is in
and how many bytes of the chunk are left.

`chunk_bytes_left` is a signed 64-bit word and wraps. A wrapped, negative size moves the
read cursor backwards, possibly in front of the buffer, so the cursors are integers and a
read outside the buffer is the outcome `fault`.

## Main definitions

* `decodeIter`: one iteration of the `while` loop;
* `decodeLoop`: the loop, with a bound on the number of iterations;
* `decodeChunkedStream`: one call;
* `decodeBuffers`: successive calls on consecutive buffers.
-/

namespace Nxweb

/-- `enum nxweb_chunked_decoder_state_code`. -/
inductive CdsCode where
  | cr1
  | lf1
  | size
  | lf2
  | data
  deriving DecidableEq, Repr

/-- `nxweb_chunked_decoder_state`. -/
structure ChunkedDecoderState where
  state : CdsCode
  finalChunk : Bool
  monitorOnly : Bool
  chunkBytesLeft : ℤ
  deriving DecidableEq, Repr

/-- The state a zero-filled request or response starts with, in decoding mode. -/
def ChunkedDecoderState.zero : ChunkedDecoderState where
  state := .size
  finalChunk := false
  monitorOnly := false
  chunkBytesLeft := 0

/-- The byte at offset `p`, `none` outside the buffer. -/
def byteAt (buf : List UInt8) (p : ℤ) : Option UInt8 :=
  if 0 ≤ p then buf[p.toNat]? else none

/-- `memmove` inside one buffer: `n` bytes from offset `src` to offset `dst`. -/
def memmove (buf : List UInt8) (dst src n : ℕ) : List UInt8 :=
  buf.take dst ++ (buf.drop src).take n ++ buf.drop (dst + n)

/-- The local variables of one call. The cursors are offsets from `buf`; `bufEnd` is the
local `end` and `bufLen` the word `*buf_len`. -/
structure DecodeFrame where
  ds : ChunkedDecoderState
  buf : List UInt8
  bufLen : ℕ
  p : ℤ
  d : ℤ
  bufEnd : ℤ
  deriving DecidableEq, Repr

/-- What a call leaves behind: its return value, the decoder state, the buffer and
`*buf_len`. -/
structure DecodeResult where
  code : ℤ
  ds : ChunkedDecoderState
  buf : List UInt8
  bufLen : ℕ
  deriving DecidableEq, Repr

/-- The first `*buf_len` bytes left in the buffer. -/
def DecodeResult.kept (r : DecodeResult) : List UInt8 := r.buf.take r.bufLen

/-- Outcome of one loop iteration. -/
inductive DecodeStep where
  | next (f : DecodeFrame)
  | ret (r : DecodeResult)
  | fault

/-- Return from the call with the given code, leaving `*buf_len` alone. -/
def DecodeFrame.ret (f : DecodeFrame) (code : ℤ) : DecodeStep :=
  .ret { code, ds := f.ds, buf := f.buf, bufLen := f.bufLen }

/-- Return from the call after `if (!monitor_only) *buf_len=...`. -/
def DecodeFrame.retLen (f : DecodeFrame) (code : ℤ) (len : ℤ) : DecodeStep :=
  .ret { code, ds := f.ds, buf := f.buf,
         bufLen := if f.ds.monitorOnly then f.bufLen else len.toNat }

/-- Advance the read cursor by one and change the state code. -/
def DecodeFrame.advance (f : DecodeFrame) (code : CdsCode) : DecodeFrame :=
  { f with ds := { f.ds with state := code }, p := f.p + 1 }

/-- One iteration of `while (p<end)`, including the code after the loop. -/
def decodeIter (f : DecodeFrame) : DecodeStep :=
  if f.p < f.bufEnd then
    match byteAt f.buf f.p with
    | none => .fault
    | some c =>
      match f.ds.state with
      | .data =>
        if f.ds.chunkBytesLeft ≤ f.bufEnd - f.p then
          let p := f.p + f.ds.chunkBytesLeft
          .next { f with ds := { f.ds with chunkBytesLeft := 0, state := .cr1 }, p, d := p }
        else
          let left := f.ds.chunkBytesLeft - (f.bufEnd - f.p)
          { f with ds := { f.ds with chunkBytesLeft := left } }.retLen 0 f.bufEnd
      | .cr1 =>
        if c ≠ cr then f.ret (-1) else .next (f.advance .lf1)
      | .lf1 =>
        if c ≠ lf then f.ret (-1)
        else if f.ds.finalChunk then f.retLen 1 f.d
        else .next (f.advance .size)
      | .size =>
        if c = cr then
          let final := f.ds.finalChunk || f.ds.chunkBytesLeft == 0
          .next ({ f with ds := { f.ds with finalChunk := final } }.advance .lf2)
        else
          match hexDigitVal c with
          | none => f.ret (-1)
          | some v =>
            -- `(chunk_bytes_left<<4)+c` on a signed word
            let left := toSsize (f.ds.chunkBytesLeft * 16 + v)
            .next ({ f with ds := { f.ds with chunkBytesLeft := left } }.advance .size)
      | .lf2 =>
        if c ≠ lf then f.ret (-1)
        else
          let f := f.advance .data
          if f.ds.monitorOnly then .next f
          else
            .next { f with
              buf := memmove f.buf f.d.toNat f.p.toNat (f.bufEnd - f.p).toNat
              bufEnd := f.bufEnd - (f.p - f.d)
              p := f.d }
  else f.retLen 0 f.d

/-- What an iteration that goes on does to the buffer and the cursors. -/
theorem decodeIter_next {f f' : DecodeFrame} (h : decodeIter f = .next f') :
    f.p < f.bufEnd ∧ f'.bufLen = f.bufLen ∧ f'.ds.monitorOnly = f.ds.monitorOnly ∧
      ((f'.buf = f.buf ∧ f'.bufEnd = f.bufEnd ∧
        (f'.p = f.p + 1 ∧ f'.d = f.d ∨ f.ds.chunkBytesLeft ≤ f.bufEnd - f.p ∧
          f'.p = f.p + f.ds.chunkBytesLeft ∧ f'.d = f.p + f.ds.chunkBytesLeft)) ∨
      f.ds.monitorOnly = false ∧ f'.p = f.d ∧ f'.d = f.d ∧
        f'.bufEnd = f.bufEnd - (f.p + 1 - f.d) ∧
        f'.buf = memmove f.buf f.d.toNat (f.p + 1).toNat (f.bufEnd - (f.p + 1)).toNat) := by
  by_cases hlt : f.p < f.bufEnd
  case neg => simp [decodeIter, hlt, DecodeFrame.retLen] at h
  cases hbyte : byteAt f.buf f.p with
  | none => simp [decodeIter, hlt, hbyte] at h
  | some c =>
    refine ⟨hlt, ?_⟩
    rw [decodeIter, if_pos hlt, hbyte] at h
    cases hst : f.ds.state with
    | data =>
      simp only [hst, DecodeFrame.retLen] at h
      split_ifs at h with hle
      cases h
      exact ⟨rfl, rfl, .inl ⟨rfl, rfl, .inr ⟨hle, rfl, rfl⟩⟩⟩
    | cr1 =>
      simp only [hst, DecodeFrame.ret] at h
      split_ifs at h
      cases h
      exact ⟨rfl, rfl, .inl ⟨rfl, rfl, .inl ⟨rfl, rfl⟩⟩⟩
    | lf1 =>
      simp only [hst, DecodeFrame.ret, DecodeFrame.retLen] at h
      split_ifs at h
      cases h
      exact ⟨rfl, rfl, .inl ⟨rfl, rfl, .inl ⟨rfl, rfl⟩⟩⟩
    | size =>
      simp only [hst, DecodeFrame.ret] at h
      split_ifs at h
      · cases h
        exact ⟨rfl, rfl, .inl ⟨rfl, rfl, .inl ⟨rfl, rfl⟩⟩⟩
      · cases hv : hexDigitVal c with
        | none =>
          rw [hv] at h
          cases h
        | some v =>
          rw [hv] at h
          cases h
          exact ⟨rfl, rfl, .inl ⟨rfl, rfl, .inl ⟨rfl, rfl⟩⟩⟩
    | lf2 =>
      simp only [hst, DecodeFrame.ret] at h
      by_cases hc : c = lf
      case neg =>
        rw [if_pos hc] at h
        cases h
      rw [if_neg (not_not.mpr hc)] at h
      cases hmon : f.ds.monitorOnly with
      | true =>
        rw [if_pos (show (f.advance .data).ds.monitorOnly = true from hmon)] at h
        cases h
        exact ⟨rfl, hmon, .inl ⟨rfl, rfl, .inl ⟨rfl, rfl⟩⟩⟩
      | false =>
        rw [if_neg (by simp [DecodeFrame.advance, hmon])] at h
        cases h
        exact ⟨rfl, hmon, .inr ⟨rfl, rfl, rfl, rfl, rfl⟩⟩

/-- What an iteration that returns leaves in the buffer and in `*buf_len`. -/
theorem decodeIter_ret {f : DecodeFrame} {r : DecodeResult} (h : decodeIter f = .ret r) :
    r.buf = f.buf ∧ (r.bufLen = f.bufLen ∨
      f.ds.monitorOnly = false ∧ (r.bufLen = f.d.toNat ∨ r.bufLen = f.bufEnd.toNat)) := by
  have hlen : ∀ g : DecodeFrame, ∀ code len, g.retLen code len = .ret r → g.buf = f.buf →
      g.bufLen = f.bufLen → g.ds.monitorOnly = f.ds.monitorOnly → (len = f.d ∨ len = f.bufEnd) →
      r.buf = f.buf ∧ (r.bufLen = f.bufLen ∨
        f.ds.monitorOnly = false ∧ (r.bufLen = f.d.toNat ∨ r.bufLen = f.bufEnd.toNat)) := by
    intro g code len hret hbuf hbufLen hmon hval
    cases hret
    refine ⟨hbuf, ?_⟩
    cases hmode : g.ds.monitorOnly with
    | true => exact .inl (by simpa [hmode] using hbufLen)
    | false => exact .inr ⟨hmon.symm.trans hmode, by rcases hval with rfl | rfl <;> simp⟩
  by_cases hlt : f.p < f.bufEnd
  case neg =>
    rw [decodeIter, if_neg hlt] at h
    exact hlen f 0 f.d h rfl rfl rfl (.inl rfl)
  cases hbyte : byteAt f.buf f.p with
  | none => simp [decodeIter, hlt, hbyte] at h
  | some c =>
    rw [decodeIter, if_pos hlt, hbyte] at h
    cases hst : f.ds.state with
    | data =>
      simp only [hst] at h
      split_ifs at h
      exact hlen _ _ _ h rfl rfl rfl (.inr rfl)
    | cr1 =>
      simp only [hst, DecodeFrame.ret] at h
      split_ifs at h
      cases h
      exact ⟨rfl, .inl rfl⟩
    | lf1 =>
      simp only [hst, DecodeFrame.ret] at h
      split_ifs at h
      · cases h
        exact ⟨rfl, .inl rfl⟩
      · exact hlen _ _ _ h rfl rfl rfl (.inl rfl)
    | size =>
      simp only [hst, DecodeFrame.ret] at h
      split_ifs at h
      cases hv : hexDigitVal c with
      | none =>
        rw [hv] at h
        cases h
        exact ⟨rfl, .inl rfl⟩
      | some v =>
        rw [hv] at h
        cases h
    | lf2 =>
      simp only [hst, DecodeFrame.ret] at h
      split_ifs at h
      cases h
      exact ⟨rfl, .inl rfl⟩

/-- The loop. `none` stands for a read outside the buffer, or for more iterations than
`fuel`. -/
def decodeLoop : ℕ → DecodeFrame → Option DecodeResult
  | 0, _ => none
  | fuel + 1, f =>
    match decodeIter f with
    | .next f => decodeLoop fuel f
    | .ret r => some r
    | .fault => none

/-- The frame at the entry of a call on `buf` with `*buf_len` equal to its length. -/
def DecodeFrame.enter (ds : ChunkedDecoderState) (buf : List UInt8) : DecodeFrame where
  ds := ds
  buf := buf
  bufLen := buf.length
  p := 0
  d := 0
  bufEnd := buf.length

/-- `_nxweb_decode_chunked_stream`. Between two bytes the loop makes at most one iteration
that consumes nothing, which bounds the iterations of a call whose sizes do not wrap. -/
def decodeChunkedStream (ds : ChunkedDecoderState) (buf : List UInt8) : Option DecodeResult :=
  decodeLoop (2 * buf.length + 2) (.enter ds buf)

/-- Successive calls on consecutive buffers, each starting in the state the previous one
left. -/
def decodeBuffers (ds : ChunkedDecoderState) : List (List UInt8) → Option (List DecodeResult)
  | [] => some []
  | buf :: bufs => do
    let r ← decodeChunkedStream ds buf
    let rs ← decodeBuffers r.ds bufs
    return r :: rs

end Nxweb
