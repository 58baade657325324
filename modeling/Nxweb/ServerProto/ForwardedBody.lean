import Nxweb.Chunked.MonitorEquivalence
import Nxweb.Lib.Machine
import Nxweb.ServerProto.RequestBodySpec

/-!
# The body that the proxy forwards

The proxy reads a chunked request body with `req_body_out_read` and the decoder in monitoring mode,
and sends on what a read returns, until `NXEF_EOF`. A server that decodes the body gives the same
buffers to the decoder in decoding mode. It drops what stands in a buffer behind the end of the
message. In monitoring mode `*buf_len` is not cut, so these bytes are forwarded with the body.

A forwarded body ends with the byte with which the decoded one does if and only if the message ends
with the last byte of a buffer (`forwarding_ends_iff`).

## Main definitions

* `surplus`: the bytes of a buffer behind the end of the message;
* `bodyEnd`: the byte with which a decoding server ends the body;
* `Forwarding.step`: the proxy reads the body;
* `EndsAsDecoded`, `NoBytesBehind`: what is expected, and when it is so.
-/

namespace Nxweb

open Lib

/-! ### The end of a message in a buffer -/

/-- The bytes behind the one with which the message ends. -/
def surplus (ds : ChunkedDecoderState) : List UInt8 → List UInt8
  | [] => []
  | c :: cs =>
    match byteStep ds c with
    | .more ds' _ => surplus ds' cs
    | .error _ => []
    | .done _ => cs

/-- The number of bytes up to the end of the message, if a server decodes these buffers. It has read
all of a buffer but the line feed and what follows when it returns `1`. -/
def bodyEnd (ds : ChunkedDecoderState) : List (List UInt8) → Option ℕ
  | [] => none
  | buf :: bufs => do
    let r ← decodeChunkedStream ds buf
    let unread ← decodeUnread (2 * buf.length + 2) (.enter ds buf)
    if 0 < r.code then some (buf.length - (unread.toNat - 1))
    else (bodyEnd r.ds bufs).map (buf.length + ·)

section Surplus

variable {ds ds' : ChunkedDecoderState} {xs ys out : List UInt8}

theorem surplus_setMode (ds : ChunkedDecoderState) (mode : Bool) (cs : List UInt8) :
    surplus (ds.setMode mode) cs = surplus ds cs := by
  induction cs generalizing ds with
  | nil => rfl
  | cons c cs ih =>
    simp only [surplus, byteStep_setMode]
    cases byteStep ds c with
    | more ds' out => exact ih ds'
    | error ds' => rfl
    | done ds' => rfl

theorem surplus_length_le (ds : ChunkedDecoderState) (cs : List UInt8) :
    (surplus ds cs).length ≤ cs.length := by
  induction cs generalizing ds with
  | nil => exact le_rfl
  | cons c cs ih =>
    rw [surplus]
    cases byteStep ds c with
    | more ds' out => exact (ih ds').trans (Nat.le_succ _)
    | error ds' => exact Nat.zero_le _
    | done ds' => exact Nat.le_succ _

/-- What comes of reading bytes: the end, an error, or neither. -/
theorem feed_code_le (ds : ChunkedDecoderState) (cs : List UInt8) : (feed ds cs).code ≤ 1 := by
  induction cs generalizing ds with
  | nil => exact zero_le_one
  | cons c cs ih =>
    rw [feed]
    cases byteStep ds c with
    | more ds' out => exact ih ds'
    | error ds' => exact neg_one_lt_zero.le.trans zero_le_one
    | done ds' => exact le_rfl

/-- Nothing is behind a message that has not ended. -/
theorem surplus_of_code_ne {cs : List UInt8} (h : (feed ds cs).code ≠ 1) : surplus ds cs = [] := by
  induction cs generalizing ds with
  | nil => rfl
  | cons c cs ih =>
    simp only [feed] at h
    rw [surplus]
    cases hstep : byteStep ds c with
    | more ds' out =>
      rw [hstep] at h
      exact ih h
    | error ds' => rfl
    | done ds' =>
      rw [hstep] at h
      exact absurd rfl h

theorem surplus_of_feeds (h : (feed ds xs).code = 0) :
    surplus ds (xs ++ ys) = surplus (feed ds xs).ds ys := by
  induction xs generalizing ds with
  | nil => rfl
  | cons c xs ih =>
    simp only [feed] at h
    rw [List.cons_append, surplus, feed]
    cases hstep : byteStep ds c with
    | more ds' out =>
      rw [hstep] at h
      exact ih h
    | error ds' =>
      rw [hstep] at h
      cases h
    | done ds' =>
      rw [hstep] at h
      cases h

/-- The rest of a chunk in front of the end. -/
theorem surplus_data_ge (hst : ds.state = .data) (hlen : ds.chunkBytesLeft = xs.length)
    (hne : xs ++ ys ≠ []) :
    surplus ds (xs ++ ys) = surplus { ds with chunkBytesLeft := 0, state := .cr1 } ys := by
  rcases Nat.eq_zero_or_pos xs.length with h0 | hpos
  · obtain rfl := List.eq_nil_of_length_eq_zero h0
    obtain ⟨c, cs, rfl⟩ := List.exists_cons_of_ne_nil hne
    have hbyte : byteStep ds c = byteStep { ds with chunkBytesLeft := 0, state := .cr1 } c := by
      simp [byteStep, hst, hlen]
    simp only [List.nil_append, surplus, hbyte]
  · have hall := (feeds_data_all hst hpos hlen).feed_eq
    rw [surplus_of_feeds (by rw [hall]), hall]

/-- What a call has not read when it returns `1`: the last line feed and what is behind it. -/
theorem decodeUnread_of_done {fuel : ℕ} {f : DecodeFrame} {out rest : List UInt8}
    (hv : View f out rest) (hfit : SizesFit f.ds rest) (hdone : (feed f.ds rest).code = 1)
    (hfuel : 2 * rest.length + (if f.ds.state = .data then 1 else 0) < fuel) :
    decodeUnread fuel f = some (((surplus f.ds rest).length + 1 : ℕ) : ℤ) := by
  induction fuel generalizing f out rest with
  | zero => omega
  | succ fuel ih =>
    cases rest with
    | nil => cases hdone
    | cons c rest =>
      by_cases hst : f.ds.state = .data
      · rcases lt_or_ge ((c :: rest).length : ℤ) f.ds.chunkBytesLeft with hlt | hge
        · rw [(feeds_data hst hlt).feed_eq] at hdone
          cases hdone
        · obtain ⟨xs, ys, hsplit, hlen⟩ := exists_chunk_end hfit.nonneg hge
          have hne : xs ++ ys ≠ [] := by rw [← hsplit]; simp
          rw [hsplit] at hv hfit hfuel hdone ⊢
          obtain ⟨f', hf', hv', hds'⟩ := decodeIter_data_ge hv hne hst hlen
          obtain ⟨hfeed, hfit'⟩ := feed_data_ge hst hlen hne hfit
          rw [hfeed, ← hds'] at hdone
          rw [← hds'] at hfit'
          rw [decodeUnread_of_next hf', surplus_data_ge hst hlen hne, ← hds']
          apply ih hv' hfit' hdone
          rw [List.length_append, if_pos hst] at hfuel
          rw [hds', if_neg (by simp)]
          omega
      · have hbyte := decodeIter_byte hv hst
        simp only [feed] at hdone
        rw [surplus]
        cases hstep : byteStep f.ds c with
        | more ds' o =>
          rw [hstep] at hbyte hdone
          obtain ⟨f', hf', hv', hds'⟩ := hbyte
          rw [decodeUnread_of_next hf']
          subst hds'
          apply ih hv' (hfit.of_more hstep) hdone
          rw [List.length_cons, if_neg hst] at hfuel
          split <;> omega
        | error ds' =>
          rw [hstep] at hdone
          cases hdone
        | done ds' =>
          rw [hstep] at hbyte
          obtain ⟨r, hr, -⟩ := hbyte
          rw [decodeUnread_of_ret hr, hv.unread]
          rfl

/-- The message ends in the next buffer. -/
theorem bodyEnd_cons_of_done {buf : List UInt8} (hfit : SizesFit ds buf)
    (hdone : (feed ds buf).code = 1) (bufs : List (List UInt8)) :
    bodyEnd (ds.setMode false) (buf :: bufs) = some (buf.length - (surplus ds buf).length) := by
  have hfit' := (sizesFit_setMode false).mpr hfit
  have hdone' : (feed (ds.setMode false) buf).code = 1 := by rw [feed_setMode, hdone]
  obtain ⟨r, hr, hcode, -, -⟩ := @decodeChunkedStream_eq_feed (ds.setMode false) rfl buf hfit'
  have hunread := @decodeUnread_of_done (2 * buf.length + 2) (.enter (ds.setMode false) buf) [] buf
    (View.enter rfl buf) hfit' hdone' (by split <;> omega)
  rw [hdone'] at hcode
  simp only [bodyEnd, hr, hcode, Option.bind_eq_bind, Option.bind_some]
  rw [hunread, Option.bind_some, if_pos zero_lt_one, Int.toNat_natCast, Nat.add_sub_cancel,
    DecodeFrame.enter, surplus_setMode]

/-- The message goes on behind the next buffer. -/
theorem bodyEnd_cons_of_more {buf : List UInt8} (hfit : SizesFit ds buf)
    (hmore : (feed ds buf).code ≠ 1) (bufs : List (List UInt8)) :
    bodyEnd (ds.setMode false) (buf :: bufs) =
      (bodyEnd ((feed ds buf).ds.setMode false) bufs).map (buf.length + ·) := by
  have hfit' := (sizesFit_setMode false).mpr hfit
  obtain ⟨m, r, u, -, hr, -, -, -, hds, -, -, hunread⟩ :=
    @decodeChunkedStream_sameCall (ds.setMode false) rfl buf hfit'
  obtain ⟨r', hr', hcode, -, -⟩ := @decodeChunkedStream_eq_feed (ds.setMode false) rfl buf hfit'
  obtain rfl := Option.some.inj (hr.symm.trans hr')
  rw [feed_setMode] at hcode hds
  have hnot : ¬ 0 < r.code := by
    rw [hcode]
    have hle := feed_code_le ds buf
    dsimp only
    omega
  simp only [bodyEnd, hr, hunread, Option.bind_eq_bind, Option.bind_some, if_neg hnot, hds]

end Surplus

/-! ### The proxy -/

/-- The proxy while it reads a request body. `bufs` are the buffers that the decoder has been called
on. -/
structure Forwarding where
  hsp : Hsp
  sock : Socket
  forwarded : List UInt8 := []
  bufs : List (List UInt8) := []
  deriving DecidableEq, Repr

/-- The socket becomes ready, or a part of the body is read. -/
inductive ForwardingEvent where
  | arrival
  | read (size avail : ℕ)
  deriving DecidableEq, Repr

/-- The buffers that a read gives to the decoder: a part of the first chunk, and behind it what has
arrived, unless the message has ended. A call that the source leaves out is one on no bytes. -/
def Forwarding.buffers (s : Forwarding) (size avail : ℕ) : List (List UInt8) :=
  let first := s.hsp.firstBodyChunk.take size
  let second := (s.sock.arrived avail).take (size - first.length)
  if s.hsp.state ≠ .receivingBody then []
  else if (decodeChunkedStream s.hsp.req.cdstate first).elim false (fun r => 0 < r.code) then
    [first]
  else [first, second]

/-- One event. -/
def Forwarding.step (s : Forwarding) : ForwardingEvent → Option Forwarding
  | .arrival => some { s with sock.ready := true }
  | .read size avail =>
    (s.hsp.reqBodyOutRead (some s.sock) size avail).map fun r =>
      { hsp := r.hsp
        sock := r.sock.getD s.sock
        forwarded := s.forwarded ++ r.data
        bufs := s.bufs ++ s.buffers size avail }

/-- The proxy has been told of a chunked body, and has not read anything of it. The first chunk and
the socket hold what the client sends. -/
structure Hsp.StartsForwarding (hsp : Hsp) : Prop where
  state : hsp.state = .receivingBody
  chunked : hsp.req.chunkedEncoding = true
  /-- The parser sets it for a chunked request. -/
  contentLength : hsp.req.contentLength = -1
  cdstate : hsp.req.cdstate = ChunkedDecoderState.zero.setMode true
  more : hsp.req.chunkedContentComplete = false

/-- A body that is complete ends where a server that decodes the same buffers ends it. -/
def EndsAsDecoded (s : Forwarding) : Prop :=
  s.hsp.state = .handling → bodyEnd .zero s.bufs = some s.forwarded.length

/-- The buffer in which the message ends has nothing behind it. -/
def NoBytesBehind (s : Forwarding) : ForwardingEvent → Prop
  | .read size avail =>
    s.hsp.state = .receivingBody →
      let first := s.hsp.firstBodyChunk.take size
      let second := (s.sock.arrived avail).take (size - first.length)
      surplus s.hsp.req.cdstate first = [] ∧
        ((feed s.hsp.req.cdstate first).code ≠ 1 →
          surplus (feed s.hsp.req.cdstate first).ds second = [])
  | .arrival => True

instance (s : Forwarding) : Decidable (EndsAsDecoded s) :=
  inferInstanceAs (Decidable (_ → _))

instance (s : Forwarding) (e : ForwardingEvent) : Decidable (NoBytesBehind s e) :=
  match e with
  | .read _ _ => inferInstanceAs (Decidable (_ → _ ∧ (_ → _)))
  | .arrival => isTrue trivial

/-! ### One read -/

section Read

variable {s s' : Forwarding} {req : HttpRequest} {raw : List UInt8} {pos : ChunkPos}

/-- The request after a part of the body. -/
def HttpRequest.afterPart (req : HttpRequest) (raw : List UInt8) : HttpRequest :=
  { req with
    cdstate := (feed req.cdstate raw).ds
    chunkedContentComplete :=
      req.chunkedContentComplete || decide (0 < (feed req.cdstate raw).code) }.count raw.length

/-- A part of a monitored body is handed out as it is. -/
theorem receiveBody_monitor (hch : req.chunkedEncoding = true)
    (hmon : req.cdstate.monitorOnly = true) (hfit : SizesFit req.cdstate raw) :
    req.receiveBody raw =
      some (raw, req.afterPart raw, decide ((feed req.cdstate raw).code < 0)) := by
  obtain ⟨r, hr, hcode, hds, -⟩ := decodeChunkedStream_monitor hmon hfit
  obtain ⟨hbuf, hlen⟩ := decodeLoop_untouched hmon hr
  have hkept : r.kept = raw := by
    rw [DecodeResult.kept, hbuf, hlen]
    exact List.take_length
  simp only [HttpRequest.receiveBody, if_pos hch, hr, Option.bind_eq_bind, Option.bind_some,
    Option.pure_def, hcode, hds, hkept, HttpRequest.afterPart]

theorem isRequestBodyComplete_chunked (hlen : req.contentLength = -1) :
    req.isRequestBodyComplete = req.chunkedContentComplete := by
  simp [HttpRequest.isRequestBodyComplete, hlen]

/-- The buffers of a read, in terms of `feed`. -/
theorem Forwarding.buffers_eq {size avail : ℕ} (hst : s.hsp.state = .receivingBody)
    (hmon : s.hsp.req.cdstate.monitorOnly = true)
    (hfit : SizesFit s.hsp.req.cdstate (s.hsp.firstBodyChunk.take size)) :
    s.buffers size avail =
      if (feed s.hsp.req.cdstate (s.hsp.firstBodyChunk.take size)).code = 1 then
        [s.hsp.firstBodyChunk.take size]
      else
        [s.hsp.firstBodyChunk.take size,
          (s.sock.arrived avail).take (size - (s.hsp.firstBodyChunk.take size).length)] := by
  obtain ⟨r, hr, hcode, -⟩ := decodeChunkedStream_monitor hmon hfit
  have hle := feed_code_le s.hsp.req.cdstate (s.hsp.firstBodyChunk.take size)
  unfold Forwarding.buffers
  dsimp only
  rw [if_neg (not_not.mpr hst), hr, Option.elim_some]
  apply if_congr _ rfl rfl
  rw [decide_eq_true_eq, hcode]
  omega

/-- The sizes of consecutive buffers. -/
theorem sizesInRangeBuffers_append {bufs bufs' : List (List UInt8)} :
    SizesInRangeBuffers pos (bufs ++ bufs') ↔
      SizesInRangeBuffers pos bufs ∧
        SizesInRangeBuffers (bufs.foldl ChunkPos.after pos) bufs' := by
  induction bufs generalizing pos with
  | nil => exact (and_iff_right trivial).symm
  | cons buf bufs ih =>
    rw [List.cons_append, SizesInRangeBuffers, SizesInRangeBuffers, ih, and_assoc, List.foldl_cons]

/-- The decoder has followed the buffers without coming to the end of the message, and a decoding
server would not have either. -/
structure Following (ds : ChunkedDecoderState) (bufs : List (List UInt8)) (forwarded : List UInt8) :
    Prop where
  mode : ds.monitorOnly = true
  pos : (bufs.foldl ChunkPos.after (.size [])).Matches ds
  goes_on : ∀ bufs', bodyEnd .zero (bufs ++ bufs') =
    (bodyEnd (ds.setMode false) bufs').map (forwarded.length + ·)

section Following

variable {ds : ChunkedDecoderState} {bufs : List (List UInt8)} {forwarded buf : List UInt8}

theorem Following.start : Following (ChunkedDecoderState.zero.setMode true) [] [] where
  mode := rfl
  pos := ChunkPos.matches_zero true
  goes_on bufs' := by
    have hid : ((([] : List UInt8).length + ·) : ℕ → ℕ) = id := by
      ext n
      exact Nat.zero_add n
    rw [hid, Option.map_id]
    rfl

/-- A buffer with which the message does not end. -/
theorem Following.more (h : Following ds bufs forwarded) (hfit : SizesFit ds buf)
    (hpos : ((bufs.foldl ChunkPos.after (.size [])).after buf).Matches (feed ds buf).ds)
    (hmore : (feed ds buf).code ≠ 1) :
    Following (feed ds buf).ds (bufs ++ [buf]) (forwarded ++ buf) where
  mode := by
    have hds : ds = ds.setMode true := by
      obtain ⟨state, final, mode, left⟩ := ds
      cases h.mode
      rfl
    rw [hds, feed_setMode]
    rfl
  pos := by
    rw [List.foldl_append]
    exact hpos
  goes_on bufs' := by
    rw [List.append_assoc, h.goes_on, List.singleton_append, bodyEnd_cons_of_more hfit hmore,
      Option.map_map, List.length_append]
    congr 1
    ext n
    exact (Nat.add_assoc _ _ _).symm

/-- Whether the body ends as it is decoded depends on what is behind it in the last buffer. -/
theorem Following.ends_iff (h : Following ds bufs forwarded) (hfit : SizesFit ds buf)
    (hdone : (feed ds buf).code = 1) :
    bodyEnd .zero (bufs ++ [buf]) = some (forwarded ++ buf).length ↔ surplus ds buf = [] := by
  have hle := surplus_length_le ds buf
  rw [h.goes_on, bodyEnd_cons_of_done hfit hdone, Option.map_some, Option.some.injEq,
    List.length_append, ← List.length_eq_zero_iff]
  omega

end Following

/-- What is known while the proxy reads, and when it has read the body. -/
structure Forwarding.Inv (s : Forwarding) : Prop where
  state : s.hsp.state = .receivingBody ∨ s.hsp.state = .handling
  chunked : s.hsp.req.chunkedEncoding = true
  contentLength : s.hsp.req.contentLength = -1
  more : s.hsp.state = .receivingBody → s.hsp.req.chunkedContentComplete = false
  following : s.hsp.state = .receivingBody → Following s.hsp.req.cdstate s.bufs s.forwarded
  ends : EndsAsDecoded s

theorem afterPart_complete (hlen : req.contentLength = -1)
    (hmore : req.chunkedContentComplete = false) :
    (req.afterPart raw).isRequestBodyComplete = true ↔ (feed req.cdstate raw).code = 1 := by
  have hle := feed_code_le req.cdstate raw
  rw [isRequestBodyComplete_chunked (show (req.afterPart raw).contentLength = -1 from hlen)]
  simp only [HttpRequest.afterPart, HttpRequest.count, hmore, Bool.false_or, decide_eq_true_eq]
  omega

/-- A read that ends the body. -/
theorem Forwarding.ended (hst : s'.hsp.state = .handling)
    (hch : s'.hsp.req.chunkedEncoding = true) (hlen : s'.hsp.req.contentLength = -1) {Q : Prop}
    (hiff : bodyEnd .zero s'.bufs = some s'.forwarded.length ↔ Q) :
    (EndsAsDecoded s' ↔ Q) ∧ (EndsAsDecoded s' → s'.Inv) := by
  have hnot : s'.hsp.state ≠ .receivingBody := by simp [hst]
  exact ⟨Iff.trans ⟨fun h => h hst, fun h _ => h⟩ hiff, fun h =>
    ⟨.inr hst, hch, hlen, fun h => absurd h hnot, fun h => absurd h hnot, h⟩⟩

/-- A read that does not end the body. -/
theorem Forwarding.continued (hst : s'.hsp.state = .receivingBody)
    (hch : s'.hsp.req.chunkedEncoding = true) (hlen : s'.hsp.req.contentLength = -1)
    (hmore : s'.hsp.req.isRequestBodyComplete = false)
    (hfol : Following s'.hsp.req.cdstate s'.bufs s'.forwarded) {Q : Prop} (hQ : Q) :
    (EndsAsDecoded s' ↔ Q) ∧ (EndsAsDecoded s' → s'.Inv) := by
  have hends : EndsAsDecoded s' := fun hhandling => by cases hst.symm.trans hhandling
  rw [isRequestBodyComplete_chunked hlen] at hmore
  exact ⟨iff_of_true hends hQ, fun _ =>
    ⟨.inl hst, hch, hlen, fun _ => hmore, fun _ => hfol, hends⟩⟩

/-- One read of the body. -/
theorem Forwarding.Inv.read {size avail : ℕ} (h : s.Inv) (hst : s.hsp.state = .receivingBody)
    (hstep : s.step (.read size avail) = some s')
    (hsizes : SizesInRangeBuffers (.size []) s'.bufs) :
    (EndsAsDecoded s' ↔ NoBytesBehind s (.read size avail)) ∧ (EndsAsDecoded s' → s'.Inv) := by
  obtain ⟨r, hr, rfl⟩ := Option.map_eq_some_iff.mp hstep
  have hfol := h.following hst
  have hmore := h.more hst
  have hincomplete : s.hsp.req.isRequestBodyComplete = false := by
    rw [isRequestBodyComplete_chunked h.contentLength, hmore]
  have hrange := (sizesInRangeBuffers_append.mp hsizes).2
  -- the first buffer is the same whether there is a second one or not
  obtain ⟨hfit, hafter⟩ := hfol.pos.sizesFit
    (show SizesInRange _ (s.hsp.firstBodyChunk.take size) by
      unfold Forwarding.buffers at hrange
      rw [if_neg (not_not.mpr hst)] at hrange
      split_ifs at hrange <;> exact hrange.1)
  have hbufs : s.buffers size avail = _ := buffers_eq hst hfol.mode hfit
  have hreceive := receiveBody_monitor h.chunked hfol.mode hfit
  have hcases := reqBodyOutRead_cases hst hincomplete hr
  obtain ⟨hch, hlen, -, -⟩ := hcases.counts
  have hch' := hch.trans h.chunked
  have hlen' := hlen.trans h.contentLength
  rw [NoBytesBehind]
  simp only [hst, true_implies]
  rcases hcases with
    ⟨hfirst, hdone, hdata, -, hout⟩ | ⟨hfirst, hopen, hsecond, hdata, -, -, hout⟩
  · obtain ⟨rfl, rfl, rfl⟩ := hreceive.symm.trans hfirst
    have hcode := (afterPart_complete h.contentLength hmore).mp hdone
    rw [if_pos hcode] at hbufs
    apply ended (hout.handling_iff.mpr hdone) hch' hlen'
    dsimp only
    rw [hbufs, hdata, hfol.ends_iff hfit hcode]
    exact (and_iff_left fun hne => absurd hcode hne).symm
  · obtain ⟨rfl, rfl, rfl⟩ := hreceive.symm.trans hfirst
    have hcode : (feed s.hsp.req.cdstate (s.hsp.firstBodyChunk.take size)).code ≠ 1 := by
      rw [Ne, ← afterPart_complete h.contentLength hmore, hopen]
      exact Bool.false_ne_true
    have hfol₁ := hfol.more hfit hafter hcode
    rw [if_neg hcode] at hbufs
    rw [hbufs] at hrange
    rw [surplus_of_code_ne hcode]
    -- the second buffer is read with the decoder that the first one has left
    generalize (s.sock.arrived avail).take (size - (s.hsp.firstBodyChunk.take size).length) =
      second at *
    generalize s.hsp.firstBodyChunk.take size = first at *
    obtain ⟨hfit₂, hafter₂⟩ := hfol₁.pos.sizesFit (show SizesInRange _ second by
      rw [List.foldl_append]
      exact hrange.2.1)
    have hlen₁ : (s.hsp.req.afterPart first).contentLength = -1 := h.contentLength
    have hmore₁ : (s.hsp.req.afterPart first).chunkedContentComplete = false := by
      rw [← isRequestBodyComplete_chunked hlen₁]
      exact hopen
    have hreceive₂ := receiveBody_monitor (show (s.hsp.req.afterPart first).chunkedEncoding = true
      from h.chunked) hfol₁.mode hfit₂
    obtain ⟨hdata₂, hreq₂⟩ := Prod.mk.inj (Option.some.inj (hreceive₂.symm.trans hsecond))
    obtain ⟨hreq₂, -⟩ := Prod.mk.inj hreq₂
    rw [← hdata₂] at hdata
    rw [← hreq₂] at hout
    have hdone := @afterPart_complete (s.hsp.req.afterPart first) second h.contentLength hmore₁
    have hlist : s.bufs ++ s.buffers size avail = s.bufs ++ [first] ++ [second] := by
      rw [hbufs, List.append_assoc]
      rfl
    have hbytes : s.forwarded ++ r.data = s.forwarded ++ first ++ second := by
      rw [hdata, List.append_assoc]
    by_cases hcode₂ : (feed (feed s.hsp.req.cdstate first).ds second).code = 1
    · apply ended (hout.handling_iff.mpr (hdone.mpr hcode₂)) hch' hlen'
      dsimp only
      rw [hlist, hbytes, hfol₁.ends_iff hfit₂ hcode₂]
      exact ⟨fun h => ⟨rfl, fun _ => h⟩, fun h => h.2 hcode⟩
    · have hopen₂ := Bool.eq_false_iff.mpr (mt hdone.mp hcode₂)
      rw [← hout.req_eq] at hopen₂
      apply continued (hout.receiving_iff.mpr (hout.req_eq ▸ hopen₂)) hch' hlen' hopen₂
      · dsimp only
        rw [hout.req_eq, hlist, hbytes]
        exact hfol₁.more hfit₂ hafter₂ hcode₂
      · exact ⟨rfl, fun _ => surplus_of_code_ne hcode₂⟩

/-- A read behind the end of the body. -/
theorem Forwarding.step_of_handling {size avail : ℕ} (hst : s.hsp.state = .handling)
    (hstep : s.step (.read size avail) = some s') :
    s' = { s with hsp := s'.hsp } ∧ s'.hsp.state = .handling ∧ s'.hsp.req = s.hsp.req := by
  obtain ⟨r, hr, rfl⟩ := Option.map_eq_some_iff.mp hstep
  obtain ⟨hdata, hsock, hhsp⟩ := reqBodyOutRead_idle (by simp [hst]) hr
  have hbufs : s.buffers size avail = [] := by
    unfold Forwarding.buffers
    exact if_pos (by simp [hst])
  rw [hdata, hsock, hbufs, List.append_nil, List.append_nil, hhsp]
  exact ⟨rfl, hst, rfl⟩

/-- One event keeps what is expected if and only if it is not a read with something behind the
message. -/
theorem Forwarding.Inv.step {e : ForwardingEvent} (h : s.Inv) (hstep : s.step e = some s')
    (hsizes : SizesInRangeBuffers (.size []) s'.bufs) :
    (EndsAsDecoded s' ↔ NoBytesBehind s e) ∧ (EndsAsDecoded s' → s'.Inv) := by
  cases e with
  | arrival =>
    obtain rfl := Option.some.inj hstep
    exact ⟨iff_of_true h.ends trivial, fun hends =>
      ⟨h.state, h.chunked, h.contentLength, h.more, h.following, hends⟩⟩
  | read size avail =>
    rcases h.state with hst | hst
    · exact h.read hst hstep hsizes
    · obtain ⟨hsame, hst', hreq⟩ := step_of_handling hst hstep
      have hnot : s'.hsp.state ≠ .receivingBody := by simp [hst']
      have hends : EndsAsDecoded s' := by
        rw [hsame]
        exact fun _ => h.ends hst
      refine ⟨iff_of_true hends fun hrecv => ?_, fun _ => ?_⟩
      · cases hst.symm.trans hrecv
      · exact ⟨.inr hst', hreq ▸ h.chunked, hreq ▸ h.contentLength, fun h => absurd h hnot,
          fun h => absurd h hnot, hends⟩

theorem Forwarding.bufs_prefix {e : ForwardingEvent} (hstep : s.step e = some s') :
    s.bufs <+: s'.bufs := by
  cases e with
  | arrival =>
    obtain rfl := Option.some.inj hstep
    exact List.prefix_rfl
  | read size avail =>
    obtain ⟨r, -, rfl⟩ := Option.map_eq_some_iff.mp hstep
    exact List.prefix_append _ _

end Read

/-! ### Runs -/

/-- The sizes in the buffers of a run are in range. -/
def Forwarding.InRange (s : Forwarding) : Prop := SizesInRangeBuffers (.size []) s.bufs

theorem Forwarding.InRange.of_step {s s' : Forwarding} {e : ForwardingEvent} (h : s'.InRange)
    (hstep : s.step e = some s') : s.InRange := by
  obtain ⟨rest, hbufs⟩ := bufs_prefix hstep
  rw [InRange, ← hbufs] at h
  exact (sizesInRangeBuffers_append.mp h).1

/-- If the sizes are in range at the end of a run, they have been so before. -/
theorem Forwarding.InRange.along {s s' : Forwarding} {es : List ForwardingEvent} (h : s'.InRange)
    (hrun : run Forwarding.step s es = some s') :
    s.InRange ∧ Along Forwarding.step (fun _ _ s₁ => s₁.InRange) s es := by
  induction es generalizing s with
  | nil =>
    obtain rfl := Option.some.inj hrun
    exact ⟨h, trivial⟩
  | cons e es ih =>
    obtain ⟨s₁, hs₁, hrest⟩ := Option.bind_eq_some_iff.mp hrun
    obtain ⟨h₁, halong⟩ := ih hrest
    refine ⟨h₁.of_step hs₁, fun s₂ hs₂ => ?_⟩
    obtain rfl := Option.some.inj (hs₁.symm.trans hs₂)
    exact ⟨h₁, halong⟩

theorem Hsp.StartsForwarding.inv {hsp : Hsp} (h : hsp.StartsForwarding) (sock : Socket) :
    Forwarding.Inv { hsp, sock } where
  state := .inl h.state
  chunked := h.chunked
  contentLength := h.contentLength
  more _ := h.more
  following _ := by
    rw [h.cdstate]
    exact .start
  ends hst := by cases h.state.symm.trans hst

/-- On all buffers monitoring follows the chunks as decoding does. A chunked body that is read in
any parts and forwarded ends with the byte with which a decoding server would end it if and only if
no buffer has bytes behind the end of the message. -/
theorem forwarding_ends_iff {hsp : Hsp} (hstart : hsp.StartsForwarding) (sock : Socket) :
    (∀ bufs, SizesInRangeBuffers (.size []) bufs → MonitorsAsDecoding bufs) ∧
    ∀ es s, run Forwarding.step { hsp, sock } es = some s →
      SizesInRangeBuffers (.size []) s.bufs →
        (Along Forwarding.step (fun _ _ s' => EndsAsDecoded s') { hsp, sock } es ↔
          Along Forwarding.step (fun s e _ => NoBytesBehind s e) { hsp, sock } es) := by
  refine ⟨fun bufs hsizes => decodeBuffers_monitor hsizes, fun es s hrun hsizes => ?_⟩
  have hrange := (Forwarding.InRange.along hsizes hrun).2
  constructor
  · intro hends
    refine along_of_inv (fun s₁ e s₂ hinv hstep hQ => ?_) (hstart.inv sock) (hends.and hrange)
    obtain ⟨hiff, hkeep⟩ := Forwarding.Inv.step hinv hstep hQ.2
    exact ⟨hiff.mp hQ.1, hkeep hQ.1⟩
  · intro hnothing
    refine along_of_inv (fun s₁ e s₂ hinv hstep hQ => ?_) (hstart.inv sock) (hnothing.and hrange)
    obtain ⟨hiff, hkeep⟩ := Forwarding.Inv.step hinv hstep hQ.2
    exact ⟨hiff.mpr hQ.1, hkeep (hiff.mpr hQ.1)⟩

/-- A chunked body of one byte is to be read, of which `chunk` came in with the headers. -/
def forwardingHsp (chunk : List UInt8) : Hsp where
  state := .receivingBody
  req := {
    chunkedEncoding := true, contentLength := -1, cdstate := ChunkedDecoderState.zero.setMode true }
  firstBodyChunk := chunk

/-- The message is cut in its data, and another request stays at the socket. -/
def cutForwarding : Forwarding where
  hsp := forwardingHsp (bytes "1\r\n")
  sock := { incoming := bytes "a\r\n0\r\n\r\nGET" }

theorem forwarding_ends_cut :
    Along Forwarding.step (fun _ _ s' => EndsAsDecoded s') cutForwarding
      [.read 4096 2, .arrival, .read 4096 6] ∧
    (run Forwarding.step cutForwarding [.read 4096 2, .arrival, .read 4096 6]).map
        (fun s => (s.hsp.state, s.forwarded, s.bufs)) =
      some (.handling, bytes "1\r\na\r\n0\r\n\r\n",
        [bytes "1\r\n", bytes "a\r", [], bytes "\n0\r\n\r\n"]) := by
  have hmap : (run Forwarding.step cutForwarding [.read 4096 2, .arrival, .read 4096 6]).map
      (fun s => (s.hsp.state, s.forwarded, s.bufs)) =
        some (.handling, bytes "1\r\na\r\n0\r\n\r\n",
          [bytes "1\r\n", bytes "a\r", [], bytes "\n0\r\n\r\n"]) := by
    decide +kernel
  refine ⟨?_, hmap⟩
  obtain ⟨s, hrun, hs⟩ := Option.map_eq_some_iff.mp hmap
  obtain ⟨-, -, hbufs⟩ : _ ∧ _ ∧ s.bufs = _ := by simpa only [Prod.mk.injEq] using hs
  apply ((forwarding_ends_iff ⟨rfl, rfl, rfl, rfl, rfl⟩ cutForwarding.sock).2 _ s hrun ?_).mpr
  · decide +kernel
  · rw [hbufs]
    exact ⟨by decide, by decide, by decide, by decide, trivial⟩

/-- Another request came in with the body. -/
def pipelinedForwarding : Forwarding where
  hsp := forwardingHsp (bytes "1\r\na\r\n0\r\n\r\nGET")
  sock := {}

/-- What follows the message in its last buffer is forwarded with it, while a server that decodes
the body drops it. -/
theorem not_endsAsDecoded_pipelined :
    (run Forwarding.step pipelinedForwarding [.read 4096 0]).map
        (fun s => (s.hsp.state, s.forwarded, bodyEnd .zero s.bufs)) =
      some (.handling, bytes "1\r\na\r\n0\r\n\r\nGET", some 11) ∧
    (Hsp.reqBodyOutRead { pipelinedForwarding.hsp with req.cdstate := .zero } (some {}) 4096 0).map
        (fun r => (r.data, r.eof)) = some (bytes "a", true) ∧
    ¬ Along Forwarding.step (fun _ _ s' => EndsAsDecoded s') pipelinedForwarding
      [.read 4096 0] := by
  refine ⟨by decide +kernel, by decide +kernel, by decide +kernel⟩

end Nxweb
