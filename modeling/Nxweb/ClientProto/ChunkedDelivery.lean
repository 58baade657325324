import Nxweb.Chunked.Monitor
import Nxweb.ClientProto.Delivery

/-!
# Delivering a chunked response

The backend sends a header block and one chunked message, or only a beginning of them.
`data_in_do_read` decodes what it has read behind the headers, and `resp_body_out_read` decodes
every part that it gets from the socket, both in the buffer and with one decoder. If
`chunked_do_not_decode` is set, the decoder only watches for the end, and the message goes to the
consumer as it is. The message has neither extensions nor trailers, which the decoder takes for
errors.

`Decoding` says where the decoder stands between two calls. A read that finds the body complete
returns with a part of the first chunk, whatever is left of that. The consumer gets the whole body
if and only if no such read has too little room (`delivery_chunked_iff`).

## Main definitions

* `ChunkedMessage.expected`, `ChunkedMessage.Sends`: what the consumer should get, and what the
  backend sends for it;
* `Decoding`: the decoder in the middle of a message;
* `DeliversChunked`, `TakesFirstChunk`: what is expected, and when it is so.
-/

namespace Nxweb

open Lib

/-! ### The decoder in the middle of a message -/

/-- What the consumer should get of a message: its body, or all of it. -/
def ChunkedMessage.expected (m : ChunkedMessage) (doNotDecode : Bool) : List UInt8 :=
  if doNotDecode then m.wire else m.body

/-- What the backend may send behind the headers: a beginning of the message, or more than the
message. What comes behind a message that is passed on as it is would be passed on with it. -/
def ChunkedMessage.Sends (m : ChunkedMessage) (doNotDecode : Bool) (sent : List UInt8) : Prop :=
  sent <+: m.wire ∨ doNotDecode = false ∧ m.wire <+: sent

instance (m : ChunkedMessage) (doNotDecode : Bool) (sent : List UInt8) :
    Decidable (m.Sends doNotDecode sent) :=
  inferInstanceAs (Decidable (_ ∨ _))

theorem ChunkedMessage.Sends.parts {m : ChunkedMessage} {doNotDecode : Bool} {sent : List UInt8}
    (h : m.Sends doNotDecode sent) :
    ∃ missing behind, sent ++ missing = m.wire ++ behind ∧ (doNotDecode = true → behind = []) := by
  rcases h with ⟨missing, h⟩ | ⟨hmode, behind, h⟩
  · refine ⟨missing, [], ?_, fun _ => rfl⟩
    rw [h, List.append_nil]
  · refine ⟨[], behind, ?_, fun hm => ?_⟩
    · rw [h, List.append_nil]
    · cases hmode.symm.trans hm

/-- The decoder has read `raw` without coming to the end of the message and has left `out`;
`rest` is to come. -/
structure Decoding (m : ChunkedMessage) (sent : List UInt8) (doNotDecode : Bool)
    (ds : ChunkedDecoderState) (raw out rest : List UInt8) : Prop where
  sends : m.Sends doNotDecode sent
  parts : raw ++ rest = sent
  read : ∃ data, feed (ChunkedDecoderState.zero.setMode doNotDecode) raw = ⟨0, ds, data⟩ ∧
    out = if doNotDecode then raw else data

section Decoder

variable {m : ChunkedMessage} {sent : List UInt8} {doNotDecode : Bool}
  {ds : ChunkedDecoderState} {raw out rest : List UInt8}

theorem Decoding.init (hsends : m.Sends doNotDecode sent) (h : rest = sent) :
    Decoding m sent doNotDecode (ChunkedDecoderState.zero.setMode doNotDecode) [] [] rest where
  sends := hsends
  parts := h
  read := ⟨[], rfl, by rw [ite_self]⟩

/-- One call on bytes whose sizes do not wrap, in either mode. -/
theorem decodeChunkedStream_mode (hfit : SizesFit ds raw) :
    ∃ r, decodeChunkedStream ds raw = some r ∧ r.code = (feed ds raw).code ∧
      r.ds = (feed ds raw).ds ∧
      (0 ≤ r.code → r.kept = if ds.monitorOnly then raw else (feed ds raw).out) := by
  cases hmon : ds.monitorOnly with
  | true => exact decodeChunkedStream_monitor hmon hfit
  | false => exact decodeChunkedStream_eq_feed hmon hfit

/-- The mode of the decoder does not change. -/
theorem Decoding.monitorOnly (h : Decoding m sent doNotDecode ds raw out rest) :
    ds.monitorOnly = doNotDecode := by
  obtain ⟨data, hfeed, -⟩ := h.read
  have hmode := feed_monitorOnly (congrArg FeedResult.code hfeed)
  rw [hfeed] at hmode
  exact hmode

/-- What has been read is not yet the whole message. -/
theorem Decoding.before_end (h : Decoding m sent doNotDecode ds raw out rest)
    {pre : List UInt8} {ds' : ChunkedDecoderState} (hwire : m.wire = pre ++ [lf])
    (hpre : Feeds (ChunkedDecoderState.zero.setMode doNotDecode) pre ds' m.body)
    (hdone : byteStep ds' lf = .done ds') : raw <+: pre := by
  obtain ⟨missing, behind, hparts, -⟩ := h.sends.parts
  rw [← h.parts, hwire, List.append_assoc, List.append_assoc, List.singleton_append] at hparts
  rcases List.append_eq_append_iff.mp hparts with ⟨t, hpre', -⟩ | ⟨t, hraw, htail⟩
  · exact ⟨t, hpre'.symm⟩
  · cases t with
    | nil =>
      rw [hraw, List.append_nil]
    | cons c t =>
      -- the decoder would have reported the end
      obtain ⟨rfl, -⟩ := List.cons_eq_cons.mp htail
      obtain ⟨data, hfeed, -⟩ := h.read
      rw [hraw, (hpre.done hdone t).1] at hfeed
      cases hfeed

/-- What the decoder has left so far is the beginning of what is expected. -/
theorem Decoding.out_prefix (h : Decoding m sent doNotDecode ds raw out rest) :
    out <+: m.expected doNotDecode := by
  obtain ⟨pre, ds', hwire, hpre, hdone⟩ := feeds_wire_mode m doNotDecode
  have hraw := h.before_end hwire hpre hdone
  obtain ⟨data, hfeed, rfl⟩ := h.read
  unfold ChunkedMessage.expected
  split_ifs
  · rw [hwire]
    exact hraw.trans (List.prefix_append _ _)
  · obtain ⟨t, rfl⟩ := hraw
    obtain ⟨ds₁, out₁, out₂, hfirst, -, hbody⟩ := hpre.split
    rw [hfirst.feed_eq] at hfeed
    obtain ⟨-, -, rfl⟩ := FeedResult.mk.inj hfeed
    rw [hbody]
    exact List.prefix_append _ _

/-- If the whole message is sent, something of it is still to come. -/
theorem Decoding.rest_ne_nil (h : Decoding m sent doNotDecode ds raw out rest)
    (hwhole : m.wire <+: sent) : rest ≠ [] := by
  rintro rfl
  obtain ⟨pre, ds', hwire, hpre, hdone⟩ := feeds_wire_mode m doNotDecode
  have hle := (h.before_end hwire hpre hdone).length_le
  have hlength := hwhole.length_le
  rw [← h.parts, List.append_nil, hwire, List.length_append, List.length_singleton] at hlength
  omega

/-- What a call of the decoder leaves: it goes on, or the consumer's bytes are complete. -/
inductive DecodeCall (m : ChunkedMessage) (sent : List UInt8) (doNotDecode : Bool)
    (raw out seg rest : List UInt8) (r : DecodeResult) : Prop
  | more (hcode : r.code = 0)
      (h : Decoding m sent doNotDecode r.ds (raw ++ seg) (out ++ r.kept) rest)
  | complete (hcode : r.code = 1) (h : out ++ r.kept = m.expected doNotDecode)

/-- A call of the decoder on the next bytes. -/
theorem Decoding.decode {seg : List UInt8}
    (h : Decoding m sent doNotDecode ds raw out (seg ++ rest)) :
    ∃ r, decodeChunkedStream ds seg = some r ∧
      DecodeCall m sent doNotDecode raw out seg rest r := by
  obtain ⟨pre, ds', hwire, hpre, hdone⟩ := feeds_wire_mode m doNotDecode
  obtain ⟨t, rfl⟩ := h.before_end hwire hpre hdone
  obtain ⟨ds₁, out₁, out₂, hraw, ht, hbody⟩ := hpre.split
  obtain ⟨data, hfeed, hout⟩ := h.read
  -- the part that was read before has led to this state
  rw [hraw.feed_eq] at hfeed
  obtain ⟨-, rfl, rfl⟩ := FeedResult.mk.inj hfeed
  obtain ⟨missing, behind, hparts, hbehind⟩ := h.sends.parts
  rw [← h.parts, hwire, List.append_assoc, List.append_assoc, List.append_assoc,
    List.append_assoc] at hparts
  have hseg := List.append_cancel_left hparts
  rw [List.singleton_append] at hseg
  rcases List.append_eq_append_iff.mp hseg with ⟨t', ht', hrest⟩ | ⟨t', hseg', htail⟩
  · -- the bytes end before the last one of the message
    rw [ht'] at ht
    obtain ⟨ds₂, out₃, out₄, hsegfeeds, -, -⟩ := ht.split
    obtain ⟨r, hr, hcode, hds, hkept⟩ := decodeChunkedStream_mode hsegfeeds.fit
    rw [hsegfeeds.feed_eq] at hcode hds hkept
    refine ⟨r, hr, .more hcode ⟨h.sends, ?_, out₁ ++ out₃, ?_, ?_⟩⟩
    · rw [List.append_assoc]
      exact h.parts
    · rw [hds]
      exact (hraw.append hsegfeeds).feed_eq
    · rw [hkept hcode.ge, h.monitorOnly, hout]
      split_ifs <;> rfl
  · cases t' with
    | nil =>
      rw [List.append_nil] at hseg'
      subst hseg'
      obtain ⟨r, hr, hcode, hds, hkept⟩ := decodeChunkedStream_mode ht.fit
      rw [ht.feed_eq] at hcode hds hkept
      refine ⟨r, hr, .more hcode ⟨h.sends, ?_, out₁ ++ out₂, ?_, ?_⟩⟩
      · rw [List.append_assoc]
        exact h.parts
      · rw [hds]
        exact (hraw.append ht).feed_eq
      · rw [hkept hcode.ge, h.monitorOnly, hout]
        split_ifs <;> rfl
    | cons c ys =>
      -- the last byte of the message is among them
      obtain ⟨rfl, hys⟩ := List.cons_eq_cons.mp htail
      obtain ⟨hlast, hfit⟩ := ht.done hdone ys
      rw [← hseg'] at hlast hfit
      obtain ⟨r, hr, hcode, -, hkept⟩ := decodeChunkedStream_mode hfit
      rw [hlast] at hcode hkept
      refine ⟨r, hr, .complete hcode ?_⟩
      rw [hkept (hcode ▸ zero_le_one), h.monitorOnly, hout, ChunkedMessage.expected]
      split_ifs with hmode
      · -- a message that is passed on as it is has nothing behind it
        have hnil : ys = [] := by
          have hboth := hys
          rw [hbehind hmode] at hboth
          exact (List.append_eq_nil_iff.mp hboth.symm).1
        rw [hseg', hnil, hwire, List.append_assoc]
      · exact hbody.symm

end Decoder

/-! ### One read -/

section Read

variable {m : ChunkedMessage} {sent : List UInt8} {hcp : Hcp} {sock : Socket}

/-- A read that goes on has added to the consumer's bytes what the decoder has left; one that ends
the body has completed them. `out` is what the consumer has got, or will get from the first chunk,
when the socket is read with room for `size` bytes. -/
inductive ChunkedRead (m : ChunkedMessage) (sent : List UInt8) (hcp : Hcp)
    (out data : List UInt8) (size : ℕ) (r : RespRead) : Prop
  | more {kept raw' : List UInt8} (heof : r.eof = false) (hdata : r.data = data ++ kept)
      (hroom : 0 < size ∨ kept = [])
      (hstate : r.hcp.state = hcp.state) (hmore : r.hcp.requestComplete = hcp.requestComplete)
      (hchunk : r.hcp.firstBodyChunk = hcp.firstBodyChunk)
      (hopen : r.hcp.responseBodyComplete = false)
      (hmode : r.hcp.chunkedDoNotDecode = hcp.chunkedDoNotDecode)
      (hch : r.hcp.resp.chunkedEncoding = true)
      (h : Decoding m sent hcp.chunkedDoNotDecode r.hcp.resp.cdstate raw' (out ++ kept)
        r.sock.incoming)
  | complete {kept : List UInt8} (heof : r.eof = true) (hdata : r.data = data ++ kept)
      (hroom : 0 < size) (hstate : r.hcp.state = .idle) (hdone : r.hcp.requestComplete = true)
      (hch : r.hcp.resp.chunkedEncoding = true)
      (h : out ++ kept = m.expected hcp.chunkedDoNotDecode)

/-- The bytes that a read takes from the socket are decoded. -/
theorem Hcp.receiveBody_chunked {seg : List UInt8} {d : DecodeResult}
    (hch : hcp.resp.chunkedEncoding = true) (hopen : hcp.responseBodyComplete = false)
    (hd : decodeChunkedStream hcp.resp.cdstate seg = some d) (hcode : 0 ≤ d.code) :
    hcp.receiveBody seg = some (d.kept, { hcp with
      resp.cdstate := d.ds
      resp.contentReceived := hcp.resp.contentReceived + d.kept.length
      responseBodyComplete := decide (0 < d.code) }) := by
  unfold Hcp.receiveBody
  rw [if_pos hch, hd]
  simp only [Option.bind_eq_bind, Option.bind_some, if_neg (not_lt.mpr hcode)]
  split_ifs with hend
  · rw [decide_eq_true hend]
    rfl
  · rw [decide_eq_false hend, ← hopen]
    rfl

theorem DecodeCall.code_nonneg {doNotDecode : Bool} {raw out seg rest : List UInt8}
    {d : DecodeResult} (h : DecodeCall m sent doNotDecode raw out seg rest d) : 0 ≤ d.code := by
  cases h with
  | more hcode => exact hcode.ge
  | complete hcode => exact hcode ▸ zero_le_one

/-- What is read of the socket comes first of what has not been read. -/
theorem Socket.readIfReady_append (sock : Socket) (size avail : ℕ) :
    (sock.readIfReady size avail).1 ++ (sock.readIfReady size avail).2.incoming =
      sock.incoming := by
  rw [sock.readIfReady_incoming, sock.readIfReady_data]
  nth_rewrite 1 [sock.arrived_take_eq size avail]
  exact List.take_append_drop _ _

theorem Hcp.readBodyFromSocket_chunked {raw out : List UInt8}
    (hch : hcp.resp.chunkedEncoding = true) (hopen : hcp.responseBodyComplete = false)
    (h : Decoding m sent hcp.chunkedDoNotDecode hcp.resp.cdstate raw out sock.incoming)
    (data : List UInt8) (size avail : ℕ) :
    ∃ r, hcp.readBodyFromSocket sock data size avail = some r ∧
      ChunkedRead m sent hcp out data size r := by
  unfold Hcp.readBodyFromSocket
  by_cases hsize : 0 < size
  swap
  · -- there is no room left behind the first chunk
    rw [if_neg hsize]
    refine ⟨_, rfl, ?_⟩
    refine @ChunkedRead.more _ _ _ _ _ _ _ [] raw rfl ?_ (.inr rfl) rfl rfl rfl hopen rfl hch ?_
    · rw [List.append_nil]
    · rw [List.append_nil]
      exact h
  rw [if_pos hsize]
  have hparts := sock.readIfReady_append size avail
  generalize sock.readIfReady size avail = rd at hparts ⊢
  obtain ⟨seg, sock'⟩ := rd
  dsimp only at hparts ⊢
  -- only the readiness of two streams depends on the socket
  obtain ⟨hcp', hhcp', hsame⟩ : ∃ hcp', (if sock'.ready then hcp else
      { hcp with respBodyOutReady := false, dataInReady := true }) = hcp' ∧
      hcp'.resp = hcp.resp ∧ hcp'.state = hcp.state ∧
      hcp'.requestComplete = hcp.requestComplete ∧
      hcp'.firstBodyChunk = hcp.firstBodyChunk ∧
      hcp'.responseBodyComplete = hcp.responseBodyComplete ∧
      hcp'.chunkedDoNotDecode = hcp.chunkedDoNotDecode := by
    refine ⟨_, rfl, ?_⟩
    split_ifs <;> exact ⟨rfl, rfl, rfl, rfl, rfl, rfl⟩
  obtain ⟨hresp, hstate, hreq, hchunk, hbody, hmode⟩ := hsame
  rw [hhcp']
  have hch' : hcp'.resp.chunkedEncoding = true := by rw [hresp, hch]
  rw [← hparts, ← hresp] at h
  obtain ⟨d, hd, hcall⟩ := h.decode
  rw [Hcp.receiveBody_chunked hch' (hbody.trans hopen) hd hcall.code_nonneg]
  simp only [Option.bind_eq_bind, Option.bind_some]
  cases hcall with
  | more hcode h =>
    have hgoes : ¬ decide (0 < d.code) = true := by rw [hcode]; decide
    rw [if_neg hgoes]
    exact ⟨_, rfl, .more rfl rfl (.inl hsize) hstate hreq hchunk (Bool.not_eq_true _ ▸ hgoes)
      hmode hch' h⟩
  | complete hcode h =>
    have hends : decide (0 < d.code) = true := by rw [hcode]; decide
    rw [if_pos hends]
    refine ⟨_, rfl, .complete rfl rfl hsize rfl rfl ?_ h⟩
    rw [Hcp.endOfBody_resp]
    exact hch'

/-- Where the bytes of the message are while the consumer reads: something is still to come, or the
first chunk has the end of the body. -/
inductive ChunkedBody (m : ChunkedMessage) (sent : List UInt8) (hcp : Hcp) (sock : Socket)
    (delivered : List UInt8) : Prop
  | decoding {raw : List UInt8} (hopen : hcp.responseBodyComplete = false)
      (h : Decoding m sent hcp.chunkedDoNotDecode hcp.resp.cdstate raw
        (delivered ++ hcp.firstBodyChunk.getD []) sock.incoming)
  | complete {chunk : List UInt8} (hall : hcp.responseBodyComplete = true)
      (hchunk : hcp.firstBodyChunk = some chunk)
      (h : delivered ++ chunk = m.expected hcp.chunkedDoNotDecode)

/-- What a read of the body comes to. -/
inductive DecodedRead (m : ChunkedMessage) (sent : List UInt8) (hcp : Hcp)
    (delivered : List UInt8) (size : ℕ) (r : RespRead) : Prop
  /-- There is more to come. -/
  | more (heof : r.eof = false) (hopen : hcp.responseBodyComplete = false)
      (hstate : r.hcp.state = .receivingBody) (hmore : r.hcp.requestComplete = false)
      (hmode : r.hcp.chunkedDoNotDecode = hcp.chunkedDoNotDecode)
      (hch : r.hcp.resp.chunkedEncoding = true)
      (h : ChunkedBody m sent r.hcp r.sock (delivered ++ r.data))
  /-- The end of the message has been read from the socket. -/
  | complete (heof : r.eof = true) (hstate : r.hcp.state = .idle)
      (hdone : r.hcp.requestComplete = true) (hch : r.hcp.resp.chunkedEncoding = true)
      (hopen : hcp.responseBodyComplete = false)
      (h : delivered ++ r.data = m.expected hcp.chunkedDoNotDecode)
  /-- The end of the message had been read before, and what is left of it has more or less room. -/
  | cut {chunk : List UInt8} (heof : r.eof = true) (hstate : r.hcp.state = .idle)
      (hdone : r.hcp.requestComplete = true) (hch : r.hcp.resp.chunkedEncoding = true)
      (hall : hcp.responseBodyComplete = true) (hchunk : hcp.firstBodyChunk = some chunk)
      (hdata : r.data = chunk.take size)
      (h : delivered ++ chunk = m.expected hcp.chunkedDoNotDecode)

theorem Hcp.respBodyOutRead_chunked {delivered : List UInt8}
    (hch : hcp.resp.chunkedEncoding = true) (hst : hcp.state = .receivingBody)
    (hmore : hcp.requestComplete = false) (h : ChunkedBody m sent hcp sock delivered)
    (size avail : ℕ) :
    ∃ r, hcp.respBodyOutRead sock size avail = some r ∧
      DecodedRead m sent hcp delivered size r := by
  unfold Hcp.respBodyOutRead
  rw [if_neg (by simp [hmore]), if_neg (by simp [hst])]
  cases h with
  | @complete chunk hall hchunk h =>
    simp only [hchunk, if_pos hall]
    refine ⟨_, rfl, .cut rfl rfl rfl ?_ hall hchunk rfl h⟩
    rw [Hcp.endOfBody_resp]
    exact hch
  | @decoding raw hopen h =>
    cases hchunk : hcp.firstBodyChunk with
    | none =>
      rw [hchunk, Option.getD_none, List.append_nil] at h
      obtain ⟨r, hr, hread⟩ := Hcp.readBodyFromSocket_chunked hch hopen h [] size avail
      refine ⟨r, hr, ?_⟩
      cases hread with
      | @more kept raw' heof hdata _ hstate hmore' hnone hopen' hmode hch' h =>
        rw [List.nil_append] at hdata
        refine .more heof hopen (hstate.trans hst) (hmore'.trans hmore) hmode hch'
          (@ChunkedBody.decoding _ _ _ _ _ raw' hopen' ?_)
        rw [hmode, hnone, hchunk, Option.getD_none, List.append_nil, hdata]
        exact h
      | complete heof hdata _ hstate hdone hch' h =>
        rw [List.nil_append] at hdata
        exact .complete heof hstate hdone hch' hopen (hdata ▸ h)
    | some chunk =>
      rw [hchunk, Option.getD_some] at h
      simp only [if_neg (show ¬ hcp.responseBodyComplete = true by simp [hopen])]
      -- the rest of the chunk stays, and the socket is read only behind all of it
      obtain ⟨hcp', hhcp', hsame⟩ : ∃ hcp' : Hcp, { hcp with
          firstBodyChunk := if chunk.length ≤ size then none else some (chunk.drop size)
          resp.contentReceived := hcp.resp.contentReceived + (chunk.take size).length } = hcp' ∧
          hcp'.firstBodyChunk.getD [] = chunk.drop size ∧
          hcp'.resp.cdstate = hcp.resp.cdstate ∧
          hcp'.resp.chunkedEncoding = true ∧ hcp'.state = hcp.state ∧
          hcp'.requestComplete = hcp.requestComplete ∧ hcp'.responseBodyComplete = false ∧
          hcp'.chunkedDoNotDecode = hcp.chunkedDoNotDecode := by
        refine ⟨_, rfl, ?_, rfl, hch, rfl, rfl, hopen, rfl⟩
        show (if chunk.length ≤ size then none else some (chunk.drop size)).getD [] =
          chunk.drop size
        split_ifs with hle
        · exact (List.drop_eq_nil_of_le hle).symm
        · rfl
      obtain ⟨hrest, hds, hch₁, hst₁, hmore₁, hopen₁, hmode₁⟩ := hsame
      have hall : 0 < size - (chunk.take size).length → chunk.drop size = [] := by
        intro hroom
        rw [List.length_take] at hroom
        exact List.drop_eq_nil_of_le (by omega)
      have htake : 0 < size - (chunk.take size).length → chunk.take size = chunk := by
        intro hroom
        rw [← List.append_nil (chunk.take size), ← hall hroom, List.take_append_drop]
      obtain ⟨r, hr, hread⟩ := Hcp.readBodyFromSocket_chunked hch₁ hopen₁
        (hmode₁.symm ▸ hds.symm ▸ h) (chunk.take size) (size - (chunk.take size).length) avail
      rw [← hhcp'] at hr
      refine ⟨r, hr, ?_⟩
      cases hread with
      | @more kept raw' heof hdata hroom hstate hmore' hsome hopen' hmode hch' h =>
        refine .more heof hopen ((hstate.trans hst₁).trans hst) ((hmore'.trans hmore₁).trans hmore)
          (hmode.trans hmode₁) hch' (@ChunkedBody.decoding _ _ _ _ _ raw' hopen' ?_)
        have hbytes : delivered ++ r.data ++ r.hcp.firstBodyChunk.getD [] =
            delivered ++ chunk ++ kept := by
          rw [hsome, hrest, hdata]
          rcases hroom with hroom | rfl
          · rw [hall hroom, htake hroom, List.append_nil, List.append_assoc]
          · rw [List.append_nil, List.append_nil, List.append_assoc, List.take_append_drop]
        rw [hbytes, hmode]
        exact h
      | complete heof hdata hroom hstate hdone hch' h =>
        refine .complete heof hstate hdone hch' hopen ?_
        rw [hdata, htake hroom, ← List.append_assoc, h, hmode₁]

/-- The bytes that have come in with the headers of a chunked response. -/
theorem Hcp.headersReceived_chunked {resp : HttpResponse} {rest : List UInt8}
    (hsends : m.Sends hcp.chunkedDoNotDecode sent)
    (h100 : hcp.receiving100Continue = false) (hopen : hcp.responseBodyComplete = false)
    (hch : resp.chunkedEncoding = true) (hparts : rest ++ sock.incoming = sent) :
    ∃ hcp', hcp.headersReceived resp rest = some hcp' ∧
      hcp'.chunkedDoNotDecode = hcp.chunkedDoNotDecode ∧ ChunkedBody m sent hcp' sock [] := by
  unfold Hcp.headersReceived
  dsimp only
  rw [if_neg (by simp [h100])]
  unfold Hcp.responseReceived Hcp.setFirstBodyChunk
  by_cases hnil : rest = []
  · rw [if_pos hnil]
    refine ⟨_, rfl, rfl, @ChunkedBody.decoding _ _ _ _ _ [] hopen ?_⟩
    rw [hnil] at hparts
    exact .init hsends hparts
  rw [if_neg hnil, if_pos hch]
  -- the decoder starts with the bytes behind the headers
  obtain ⟨d, hd, hcall⟩ := (Decoding.init hsends hparts).decode
  have hd' : decodeChunkedStream
      { ChunkedDecoderState.zero with monitorOnly := hcp.chunkedDoNotDecode } rest = some d := hd
  simp only [hd', Option.bind_eq_bind, Option.bind_some, if_neg (not_lt.mpr hcall.code_nonneg)]
  cases hcall with
  | more hcode h =>
    rw [if_neg (by rw [hcode]; exact lt_irrefl 0)]
    exact ⟨_, rfl, rfl, @ChunkedBody.decoding _ _ _ _ _ ([] ++ rest) hopen h⟩
  | complete hcode h =>
    rw [if_pos (by rw [hcode]; exact zero_lt_one)]
    exact ⟨_, rfl, rfl, .complete rfl rfl h⟩

/-- A read does not change how the body is to be handed out. -/
theorem respBodyOutRead_mode {size avail : ℕ} {r : RespRead}
    (h : hcp.respBodyOutRead sock size avail = some r) :
    r.hcp.chunkedDoNotDecode = hcp.chunkedDoNotDecode := by
  have hend : ∀ hcp : Hcp, hcp.endOfBody.chunkedDoNotDecode = hcp.chunkedDoNotDecode := by
    intro hcp
    unfold Hcp.endOfBody Hcp.completeRequest
    dsimp only
    split_ifs <;> rfl
  have hreceive : ∀ {hcp hcp' : Hcp} {seg kept : List UInt8},
      hcp.receiveBody seg = some (kept, hcp') →
      hcp'.chunkedDoNotDecode = hcp.chunkedDoNotDecode := by
    intro hcp hcp' seg kept h
    unfold Hcp.receiveBody at h
    split_ifs at h
    · obtain ⟨d, -, h⟩ := Option.bind_eq_some_iff.mp h
      dsimp only at h
      split_ifs at h
      all_goals
        obtain ⟨-, rfl⟩ := Prod.mk.inj (Option.some.inj h)
        rfl
    · dsimp only at h
      split_ifs at h
      all_goals
        obtain ⟨-, rfl⟩ := Prod.mk.inj (Option.some.inj h)
        rfl
  have hsocket : ∀ {hcp : Hcp} {data : List UInt8} {n : ℕ},
      hcp.readBodyFromSocket sock data n avail = some r →
      r.hcp.chunkedDoNotDecode = hcp.chunkedDoNotDecode := by
    intro hcp data n h
    unfold Hcp.readBodyFromSocket at h
    split_ifs at h with hn
    · obtain ⟨⟨data₂, hcp'⟩, hrecv, h⟩ := Option.bind_eq_some_iff.mp h
      have hmode := hreceive hrecv
      dsimp only at hmode h
      have hready : (if (sock.readIfReady n avail).2.ready then hcp else
          { hcp with respBodyOutReady := false, dataInReady := true }).chunkedDoNotDecode =
          hcp.chunkedDoNotDecode := by
        split_ifs <;> rfl
      split_ifs at h
      · obtain rfl := Option.some.inj h
        exact (hend hcp').trans (hmode.trans hready)
      · obtain rfl := Option.some.inj h
        exact hmode.trans hready
    · obtain rfl := Option.some.inj h
      rfl
  unfold Hcp.respBodyOutRead at h
  split_ifs at h
  · obtain rfl := Option.some.inj h
    rfl
  · obtain rfl := Option.some.inj h
    rfl
  · split at h
    next chunk _ =>
      dsimp only at h
      by_cases hbody : hcp.responseBodyComplete = true
      · rw [if_pos hbody] at h
        obtain rfl := Option.some.inj h
        exact hend _
      · rw [if_neg hbody] at h
        have hmode := hsocket h
        exact hmode
    next => exact hsocket h

theorem ChunkedBody.congr {hcp' : Hcp} {sock' : Socket} {delivered : List UInt8}
    (h : ChunkedBody m sent hcp sock delivered)
    (hmode : hcp'.chunkedDoNotDecode = hcp.chunkedDoNotDecode)
    (hbody : hcp'.responseBodyComplete = hcp.responseBodyComplete)
    (hchunk : hcp'.firstBodyChunk = hcp.firstBodyChunk) (hresp : hcp'.resp = hcp.resp)
    (hin : sock'.incoming = sock.incoming) : ChunkedBody m sent hcp' sock' delivered := by
  cases h with
  | @decoding raw hopen h =>
    refine @ChunkedBody.decoding _ _ _ _ _ raw (hbody.trans hopen) ?_
    rw [hmode, hchunk, hresp, hin]
    exact h
  | complete hall hsome h =>
    refine .complete (hbody.trans hall) (hchunk.trans hsome) ?_
    rw [hmode]
    exact h

end Read

/-! ### Runs -/

section Run

variable {env : ClientEnv} {stream sent : List UInt8} {m : ChunkedMessage} {s s' : Delivery}
  {e : DeliveryEvent} {doNotDecode : Bool}

/-- Of a chunked body, a part from its beginning on has been delivered, and the whole body once its
end was signalled; nothing else was delivered. -/
def DeliversChunked (m : ChunkedMessage) (doNotDecode : Bool) (s : Delivery) : Prop :=
  s.Responding → s.hcp.resp.chunkedEncoding = true →
    s.delivered <+: m.expected doNotDecode ∧
      (s.eof = true → s.delivered = m.expected doNotDecode)

/-- A read that finds the body complete has room for what is left of the first chunk. -/
def TakesFirstChunk (s : Delivery) : DeliveryEvent → Prop
  | .read size _ =>
    s.hcp.state = .receivingBody → s.hcp.resp.chunkedEncoding = true →
      s.hcp.responseBodyComplete = true → (s.hcp.firstBodyChunk.getD []).length ≤ size
  | _ => True

instance (s : Delivery) (e : DeliveryEvent) : Decidable (TakesFirstChunk s e) :=
  match e with
  | .read size _ => inferInstanceAs (Decidable (_ → _ → _ → List.length _ ≤ size))
  | .arrival | .headers _ _ | .close | .notify _ => isTrue trivial

/-- What is known of the message on the way. Before the headers nothing may count as the end of the
response. -/
structure Delivery.ChunkedInv (m : ChunkedMessage) (sent : List UInt8) (doNotDecode : Bool)
    (s : Delivery) : Prop where
  mode : s.hcp.chunkedDoNotDecode = doNotDecode
  sends : m.Sends doNotDecode sent
  waiting : s.hcp.state = .waitingForResponse ∨ s.hcp.state = .receivingHeaders → ¬ s.Refused →
    s.hcp.responseBodyComplete = false ∧ ¬ s.hcp.resp.UntilClose
  body : s.hcp.state = .receivingBody → s.hcp.resp.chunkedEncoding = true →
    ChunkedBody m sent s.hcp s.sock s.delivered

theorem dataErrorOnMessage_mode (hcp : Hcp) (code : ℤ) :
    (hcp.dataErrorOnMessage code).chunkedDoNotDecode = hcp.chunkedDoNotDecode := by
  unfold Hcp.dataErrorOnMessage
  split_ifs <;> rfl

/-- Reports of the socket end a response only if it ends with the connection. -/
theorem dataErrorOnMessage_complete {hcp : Hcp} (h : ¬ hcp.resp.UntilClose) (code : ℤ) :
    (hcp.dataErrorOnMessage code).responseBodyComplete = hcp.responseBodyComplete := by
  unfold Hcp.dataErrorOnMessage
  split_ifs with hclose
  · exact absurd hclose.2.1.symm h
  · rfl
  · rfl

theorem HttpResponse.not_untilClose_of_chunked {resp : HttpResponse}
    (hch : resp.chunkedEncoding = true) : ¬ resp.UntilClose := by
  rintro ⟨hplain, -⟩
  rw [hch] at hplain
  cases hplain

/-- An event that reads nothing. -/
theorem Delivery.ChunkedInv.same (h : s.ChunkedInv m sent doNotDecode) (hsame : s.SameBytes s')
    (hmode : s'.hcp.chunkedDoNotDecode = s.hcp.chunkedDoNotDecode)
    (hbody : ¬ s.hcp.resp.UntilClose →
      s'.hcp.responseBodyComplete = s.hcp.responseBodyComplete) :
    s'.ChunkedInv m sent doNotDecode := by
  refine ⟨hmode.trans h.mode, h.sends, fun hhead hok => ?_, fun hst hch => ?_⟩
  · rw [hsame.state_eq] at hhead
    obtain ⟨hopen, hnot⟩ := h.waiting hhead fun hmem => hok (hsame.events hmem)
    rw [hsame.resp_eq, hbody hnot]
    exact ⟨hopen, hnot⟩
  · rw [hsame.resp_eq] at hch
    rw [hsame.delivered_eq]
    apply (h.body (hsame.state_eq ▸ hst) hch).congr hmode
    · exact hbody (HttpResponse.not_untilClose_of_chunked hch)
    · exact hsame.chunk_eq
    · exact hsame.resp_eq
    · exact hsame.incoming_eq

theorem headersReceived_mode {hcp hcp' : Hcp} {resp : HttpResponse} {rest : List UInt8}
    (h : hcp.headersReceived resp rest = some hcp') :
    hcp'.chunkedDoNotDecode = hcp.chunkedDoNotDecode := by
  have hresponse : ∀ hcp : Hcp, hcp.responseReceived rest = some hcp' →
      hcp'.chunkedDoNotDecode = hcp.chunkedDoNotDecode := by
    intro hcp h
    obtain ⟨hcp₁, hchunk, hret⟩ := Option.bind_eq_some_iff.mp h
    obtain rfl := Option.some.inj hret
    unfold Hcp.setFirstBodyChunk at hchunk
    split_ifs at hchunk
    · obtain rfl := Option.some.inj hchunk
      rfl
    · obtain ⟨d, -, hchunk⟩ := Option.bind_eq_some_iff.mp hchunk
      dsimp only at hchunk
      split_ifs at hchunk
      all_goals
        obtain rfl := Option.some.inj hchunk
        rfl
    · dsimp only at hchunk
      split_ifs at hchunk
      all_goals
        obtain rfl := Option.some.inj hchunk
        rfl
  unfold Hcp.headersReceived at h
  dsimp only at h
  split_ifs at h
  · obtain rfl := Option.some.inj h
    rfl
  · have hmode := hresponse _ h
    exact hmode
  · have hmode := hresponse _ h
    exact hmode

theorem dataInReadHeaders_mode {hcp hcp' : Hcp} {sock sock' : Socket} {room avail : ℕ}
    (h : hcp.dataInReadHeaders env sock room avail = some (hcp', sock')) :
    hcp'.chunkedDoNotDecode = hcp.chunkedDoNotDecode := by
  have hopen : hcp.openHeaders.chunkedDoNotDecode = hcp.chunkedDoNotDecode := by
    unfold Hcp.openHeaders
    split_ifs <;> rfl
  rw [← hopen]
  unfold Hcp.dataInReadHeaders at h
  generalize sock.dataRecvRead room avail = rd at h
  obtain ⟨data, sock₁⟩ := rd
  dsimp only at h
  by_cases hdata : data = []
  · rw [if_pos hdata] at h
    obtain ⟨rfl, -⟩ := h
    rfl
  · rw [if_neg hdata] at h
    split at h
    · split at h
      · obtain ⟨rfl, -⟩ := h
        rfl
      · obtain ⟨hcp₁, hrecv, hret⟩ := Option.bind_eq_some_iff.mp h
        obtain ⟨rfl, -⟩ := hret
        have hmode := headersReceived_mode hrecv
        exact hmode
    · split_ifs at h
      all_goals
        obtain ⟨rfl, -⟩ := h
        rfl

/-- The headers of the response are read, in whatever parts. -/
theorem Delivery.ChunkedInv.readHeaders (h : s.ChunkedInv m sent doNotDecode)
    (hinv : s.Inv stream) (hwire : bytesAfterHeaders stream = sent) {room avail : ℕ}
    (hstep : s.step env (.headers room avail) = some s') : s'.ChunkedInv m sent doNotDecode := by
  obtain ⟨-, hdel, -⟩ := hinv.readHeaders hstep
  simp only [Delivery.step] at hstep
  obtain ⟨⟨hst, hok⟩, hstep⟩ := Option.ite_none_right_eq_some.mp hstep
  obtain ⟨⟨hcp', sock'⟩, hread, rfl⟩ := Option.map_eq_some_iff.mp hstep
  obtain ⟨hnone, hnot⟩ := h.waiting hst hok
  obtain ⟨h100, hbytes⟩ := hinv.headers hst
  have hmode := dataInReadHeaders_mode hread
  obtain ⟨rfl, hcases⟩ := hcp_dataInReadHeaders_cases hread
  obtain ⟨hopen, hbuf, -, hcont, hcomplete⟩ := openHeaders_spec hst
  have hresp : s.hcp.openHeaders.resp = s.hcp.resp := by
    unfold Hcp.openHeaders
    split_ifs <;> rfl
  -- the bytes that were read move from the socket to the arena
  have hparts := hbytes hok
  rw [← List.take_append_drop (min (s.arrivedBytes avail) room) s.sock.incoming,
    ← Socket.dataRecvRead_data, ← Socket.dataRecvRead_incoming, ← List.append_assoc] at hparts
  rw [hbuf] at hcases
  refine ⟨hmode.trans h.mode, h.sends, ?_, ?_⟩
  · intro hhead hok'
    cases hcases with
    | pending => exact ⟨hcomplete.trans hnone, hresp ▸ hnot⟩
    | bad hmem => exact absurd hmem hok'
    | received hfind hparse hrecv =>
      have hbody := (headersReceived_fresh (hcont.trans h100) hrecv).state_eq
      rcases hhead with hhead | hhead <;> cases hbody.symm.trans hhead
  · intro hbody hch
    cases hcases with
    | pending => cases hbody.symm.trans hopen
    | bad _ hstate => cases hbody.symm.trans (hstate.trans hopen)
    | @received _ e b resp hfind hparse hrecv =>
      have hfresh := headersReceived_fresh (hcont.trans h100) hrecv
      have hch' : resp.chunkedEncoding = true := by
        have hch₁ := hch
        rw [hfresh.resp_eq] at hch₁
        exact hch₁
      -- what follows the headers in the arena comes before what is at the socket
      have hle := findEndOfHttpHeaders_le hfind
      obtain ⟨hwhole, -⟩ := headerBlock_eq hparts hfind
      rw [bytesAfterHeaders, hwhole, Option.map_some, Option.getD_some, ← hparts,
        List.drop_append_of_le_length hle] at hwire
      have hmode₁ := (headersReceived_mode hrecv).symm.trans hmode
      obtain ⟨hcp₁, hrecv₁, -, hat⟩ := Hcp.headersReceived_chunked
        (hmode₁ ▸ h.mode ▸ h.sends) (hcont.trans h100)
        (hcomplete.trans hnone) hch' hwire
      obtain rfl := Option.some.inj (hrecv₁.symm.trans hrecv)
      show ChunkedBody m sent _ _ s.delivered
      have hdel' : s.delivered = [] := hdel
      rw [hdel']
      exact hat

/-- A read outside of the body changes nothing that matters. -/
theorem Delivery.Inv.idleRead (hinv : s.Inv stream) (hst : s.hcp.state ≠ .receivingBody)
    {size avail : ℕ} {r : RespRead} (hr : s.hcp.respBodyOutRead s.sock size avail = some r) :
    s.SameBytes (s.afterRead r) ∧
      r.hcp.responseBodyComplete = s.hcp.responseBodyComplete := by
  obtain ⟨r', hr', hdata, heof, hsock, hhcp⟩ := respBodyOutRead_idle hst s.sock size avail
  obtain rfl := Option.some.inj (hr'.symm.trans hr)
  refine ⟨⟨?_, ?_, ?_, ?_, ?_, ?_, ?_, ?_, ?_, ?_⟩, ?_⟩
  · show r'.hcp.state = _
    rw [hhcp]
  · show r'.hcp.requestComplete = _
    rw [hhcp]
  · show r'.hcp.receiving100Continue = _
    rw [hhcp]
  · show r'.hcp.resp = _
    rw [hhcp]
  · show r'.hcp.firstBodyChunk = _
    rw [hhcp]
  · show r'.hcp.readBuf = _
    rw [hhcp]
  · show s.hcp.eventsPub ⊆ r'.hcp.eventsPub
    rw [hhcp]
    exact List.Subset.refl _
  · exact congrArg Socket.incoming hsock
  · show s.delivered ++ r'.data = s.delivered
    rw [hdata, List.append_nil]
  · show (s.eof || r'.eof) = s.eof
    rw [heof]
    cases hdone : s.hcp.requestComplete with
    | true => rw [hinv.late hdone, Bool.or_true]
    | false => rw [Bool.or_false]
  · show r'.hcp.responseBodyComplete = _
    rw [hhcp]

/-- A read of the body. -/
theorem Delivery.ChunkedInv.read (env : ClientEnv) (h : s.ChunkedInv m sent doNotDecode)
    (hinv : s.Inv stream) (hst : s.hcp.state = .receivingBody)
    (hch : s.hcp.resp.chunkedEncoding = true) (size avail : ℕ) :
    ∃ r, s.step env (.read size avail) = some (s.afterRead r) ∧
      DecodedRead m sent s.hcp s.delivered size r := by
  obtain ⟨r, hr, hread⟩ := Hcp.respBodyOutRead_chunked
    hch hst (hinv.not_complete (by simp [hst]))
    (h.body hst hch) size (s.arrivedBytes avail)
  exact ⟨r, by rw [Delivery.step, hr, Option.map_some], hread⟩

theorem Delivery.ChunkedInv.step (h : s.ChunkedInv m sent doNotDecode) (hinv : s.Inv stream)
    (hwire : bytesAfterHeaders stream = sent) (hstep : s.step env e = some s') :
    s'.ChunkedInv m sent doNotDecode := by
  cases e with
  | arrival =>
    obtain rfl := Option.some.inj hstep
    exact h.same ⟨rfl, rfl, rfl, rfl, rfl, rfl, fun _ h => h, rfl, rfl, rfl⟩ rfl fun _ => rfl
  | close =>
    obtain rfl := Option.some.inj hstep
    exact h.same ⟨rfl, rfl, rfl, rfl, rfl, rfl, fun _ h => h, rfl, rfl, rfl⟩ rfl fun _ => rfl
  | notify code =>
    obtain ⟨-, hstep⟩ := Option.ite_none_right_eq_some.mp hstep
    obtain rfl := Option.some.inj hstep
    exact h.same (dataErrorOnMessage_same s code) (dataErrorOnMessage_mode s.hcp code)
      fun hnot => dataErrorOnMessage_complete hnot code
  | headers room avail => exact h.readHeaders hinv hwire hstep
  | read size avail =>
    obtain ⟨r, hr, rfl⟩ := Option.map_eq_some_iff.mp hstep
    have hmode : (s.afterRead r).hcp.chunkedDoNotDecode = s.hcp.chunkedDoNotDecode :=
      respBodyOutRead_mode hr
    by_cases hst : s.hcp.state = .receivingBody
    · -- the body goes on in the same state, or there is nothing more to be known
      have hphase := respBodyOutRead_phase hst (hinv.not_complete (by simp [hst])) hr
      refine ⟨hmode.trans h.mode, h.sends, fun hhead => ?_, fun hst' hch' => ?_⟩
      · have hstate : r.hcp.state = .receivingBody ∨ r.hcp.state = .idle := by
          cases heof : r.eof with
          | true => exact .inr (hphase.done heof).1
          | false => exact .inl ((hphase.more heof).1.trans hst)
        have hhead' : r.hcp.state = .waitingForResponse ∨ r.hcp.state = .receivingHeaders := hhead
        rcases hstate with hstate | hstate <;> simp [hstate] at hhead'
      · have hch : s.hcp.resp.chunkedEncoding = true := hphase.same.chunked_eq.symm.trans hch'
        obtain ⟨r', hr', hread⟩ := h.read env hinv hst hch size avail
        rw [Delivery.step, hr, Option.map_some] at hr'
        have hsame : s.afterRead r = s.afterRead r' := Option.some.inj hr'
        rw [hsame] at hst' ⊢
        cases hread with
        | more _ _ _ _ _ _ h => exact h
        | complete _ hidle => cases hidle.symm.trans hst'
        | cut _ hidle => cases hidle.symm.trans hst'
    · obtain ⟨hsame, hbody⟩ := hinv.idleRead hst hr
      exact h.same hsame hmode fun _ => hbody

/-- Reading the headers never fails: the decoder stays inside its buffer. -/
theorem Delivery.ChunkedInv.headers_isSome (h : s.ChunkedInv m sent doNotDecode)
    (hinv : s.Inv stream) (hwire : bytesAfterHeaders stream = sent)
    (hst : s.hcp.state = .waitingForResponse ∨ s.hcp.state = .receivingHeaders)
    (hok : ¬ s.Refused) (room avail : ℕ) : (s.step env (.headers room avail)).isSome = true := by
  obtain ⟨hnone, -⟩ := h.waiting hst hok
  obtain ⟨h100, hbytes⟩ := hinv.headers hst
  obtain ⟨-, hbuf, -, hcont, hcomplete⟩ := openHeaders_spec hst
  have hparts := hbytes hok
  rw [← List.take_append_drop (min (s.arrivedBytes avail) room) s.sock.incoming,
    ← Socket.dataRecvRead_data, ← Socket.dataRecvRead_incoming, ← List.append_assoc, ← hbuf]
    at hparts
  have hmode : s.hcp.openHeaders.chunkedDoNotDecode = s.hcp.chunkedDoNotDecode := by
    unfold Hcp.openHeaders
    split_ifs <;> rfl
  rw [Delivery.step, if_pos ⟨hst, hok⟩, Option.isSome_map]
  unfold Hcp.dataInReadHeaders
  generalize s.sock.dataRecvRead room (s.arrivedBytes avail) = rd at hparts ⊢
  obtain ⟨data, sock'⟩ := rd
  dsimp only at hparts ⊢
  by_cases hdata : data = []
  · rw [if_pos hdata]
    rfl
  rw [if_neg hdata]
  cases hfind : findEndOfHttpHeaders (s.hcp.openHeaders.readBuf ++ data) with
  | none =>
    dsimp only
    split_ifs <;> rfl
  | some found =>
    obtain ⟨e, b⟩ := found
    dsimp only
    cases hparse : env.parseHttpResponse ((s.hcp.openHeaders.readBuf ++ data).take e) with
    | none => rfl
    | some resp =>
      dsimp only
      have hle := findEndOfHttpHeaders_le hfind
      obtain ⟨hwhole, -⟩ := headerBlock_eq hparts hfind
      rw [bytesAfterHeaders, hwhole, Option.map_some, Option.getD_some, ← hparts,
        List.drop_append_of_le_length hle] at hwire
      obtain ⟨hcp', hrecv⟩ : ∃ hcp', ({ s.hcp.openHeaders with
          readBuf := s.hcp.openHeaders.readBuf ++ data } : Hcp).headersReceived resp
            ((s.hcp.openHeaders.readBuf ++ data).drop b) = some hcp' := by
        cases hch : resp.chunkedEncoding with
        | true =>
          obtain ⟨hcp', hrecv, -⟩ := @Hcp.headersReceived_chunked m sent
            { s.hcp.openHeaders with readBuf := s.hcp.openHeaders.readBuf ++ data } sock' resp _
            (hmode ▸ h.mode ▸ h.sends)
            (hcont.trans h100) (hcomplete.trans hnone) hch hwire
          exact ⟨hcp', hrecv⟩
        | false =>
          -- without a decoder nothing can fail
          unfold Hcp.headersReceived
          dsimp only
          rw [if_neg (by simp [hcont, h100])]
          unfold Hcp.responseReceived Hcp.setFirstBodyChunk
          rw [if_neg (show ¬ resp.chunkedEncoding = true by simp [hch])]
          dsimp only
          split_ifs <;> exact ⟨_, rfl⟩
      rw [hrecv]
      rfl

theorem ChunkedBody.delivered_prefix {hcp : Hcp} {sock : Socket} {delivered : List UInt8}
    (h : ChunkedBody m sent hcp sock delivered) :
    delivered <+: m.expected hcp.chunkedDoNotDecode := by
  cases h with
  | decoding _ h => exact (List.prefix_append _ _).trans h.out_prefix
  | complete _ _ h =>
    rw [← h]
    exact List.prefix_append _ _

/-- One read of a chunked body. -/
theorem deliversChunked_read_iff (h : s.ChunkedInv m sent doNotDecode) (hinv : s.Inv stream)
    (hst : s.hcp.state = .receivingBody) (hch : s.hcp.resp.chunkedEncoding = true)
    {size avail : ℕ} (hstep : s.step env (.read size avail) = some s') :
    DeliversChunked m doNotDecode s' ↔ TakesFirstChunk s (.read size avail) := by
  obtain ⟨heof, -⟩ := hinv.early (hinv.not_complete (by simp [hst]))
  obtain ⟨r, hr, hread⟩ := h.read env hinv hst hch size avail
  obtain rfl := Option.some.inj (hr.symm.trans hstep)
  cases hread with
  | more heof' hopen hstate hmore hmode hch' h' =>
    refine iff_of_true (fun _ _ => ⟨?_, fun hend => ?_⟩) (fun _ _ hall => ?_)
    · rw [← h.mode, ← hmode]
      exact h'.delivered_prefix
    · have hnot : (s.eof || r.eof) = false := by rw [heof, heof', Bool.or_false]
      cases hnot.symm.trans hend
    · cases hopen.symm.trans hall
  | complete heof' hstate hdone hch' hopen h' =>
    refine iff_of_true (fun _ _ => ?_) (fun _ _ hall => ?_)
    · have hdel : (s.afterRead r).delivered = m.expected doNotDecode := by
        rw [← h.mode]
        exact h'
      exact ⟨hdel ▸ List.prefix_rfl, fun _ => hdel⟩
    · cases hopen.symm.trans hall
  | @cut chunk heof' hstate hdone hch' hall hchunk hdata h' =>
    have hwhole : s.delivered ++ chunk = m.expected doNotDecode := by
      rw [← h.mode]
      exact h'
    have hdel : (s.afterRead r).delivered = s.delivered ++ chunk.take size := by
      show s.delivered ++ r.data = _
      rw [hdata]
    constructor
    · intro hdelivers _ _ _
      -- the end was signalled, so nothing may be missing
      have heq := (hdelivers (.inr hdone) hch').2 (by
        show (s.eof || r.eof) = true
        rw [heof', Bool.or_true])
      rw [hdel, ← hwhole] at heq
      rw [hchunk, Option.getD_some, ← List.take_eq_self_iff]
      exact List.append_cancel_left heq
    · intro htakes _ _
      have hfits := htakes hst hch hall
      rw [hchunk, Option.getD_some] at hfits
      rw [List.take_of_length_le hfits, hwhole] at hdel
      exact ⟨hdel ▸ List.prefix_rfl, fun _ => hdel⟩

theorem DeliversChunked.same (h : DeliversChunked m doNotDecode s) (hsame : s.SameBytes s') :
    DeliversChunked m doNotDecode s' := by
  intro hresp hch
  rw [Delivery.Responding, hsame.state_eq, hsame.complete_eq] at hresp
  rw [hsame.resp_eq] at hch
  rw [hsame.delivered_eq, hsame.eof_eq]
  exact h hresp hch

/-- Every other event leaves a chunked response as it was. -/
theorem deliversChunked_other (hinv : s.Inv stream) (hdelivers : DeliversChunked m doNotDecode s)
    (hother : ∀ size avail, e = .read size avail →
      s.hcp.state ≠ .receivingBody ∨ s.hcp.resp.chunkedEncoding = false)
    (hstep : s.step env e = some s') : DeliversChunked m doNotDecode s' := by
  obtain ⟨-, hcases⟩ := delivery_step hinv hstep
  cases hcases with
  | same _ hsame => exact hdelivers.same hsame
  | headers hdel heof =>
    intro _ _
    rw [hdel, heof]
    refine ⟨List.nil_prefix, fun hend => ?_⟩
    cases hend
  | read hst hplain hr =>
    intro _ hch
    have hresp := congrArg HttpResponse.chunkedEncoding hr.resp_eq
    cases hplain.symm.trans (hresp.symm.trans hch)
  | idle hst =>
    obtain ⟨r, hr, rfl⟩ := Option.map_eq_some_iff.mp hstep
    exact hdelivers.same (hinv.idleRead hst hr).1
  | chunked hch =>
    obtain ⟨r, hr, rfl⟩ := Option.map_eq_some_iff.mp hstep
    rcases hother _ _ rfl with hst | hplain
    · exact hdelivers.same (hinv.idleRead hst hr).1
    · cases hplain.symm.trans hch

/-- One event keeps what is expected if and only if it is not a read that has too little room. -/
theorem deliversChunked_step (hwire : bytesAfterHeaders stream = sent) (s : Delivery)
    (e : DeliveryEvent) (s' : Delivery)
    (hI : s.Inv stream ∧ s.ChunkedInv m sent doNotDecode ∧ DeliversChunked m doNotDecode s)
    (hstep : s.step env e = some s') :
    (DeliversChunked m doNotDecode s' ↔ TakesFirstChunk s e) ∧
      (DeliversChunked m doNotDecode s' →
        s'.Inv stream ∧ s'.ChunkedInv m sent doNotDecode ∧
          DeliversChunked m doNotDecode s') := by
  obtain ⟨hinv, h, hdelivers⟩ := hI
  obtain ⟨hinv', -⟩ := delivery_step hinv hstep
  refine ⟨?_, fun hd => ⟨hinv', h.step hinv hwire hstep, hd⟩⟩
  by_cases hbody : (∃ size avail, e = .read size avail) ∧ s.hcp.state = .receivingBody ∧
      s.hcp.resp.chunkedEncoding = true
  · obtain ⟨⟨size, avail, rfl⟩, hst, hch⟩ := hbody
    exact deliversChunked_read_iff h hinv hst hch hstep
  · have hother : ∀ size avail, e = .read size avail →
        s.hcp.state ≠ .receivingBody ∨ s.hcp.resp.chunkedEncoding = false := by
      intro size avail he
      by_contra hnot
      rw [not_or, not_not, Bool.not_eq_false] at hnot
      exact hbody ⟨⟨size, avail, he⟩, hnot⟩
    refine iff_of_true (deliversChunked_other hinv hdelivers hother hstep) ?_
    cases e with
    | read size avail =>
      intro hst hch
      rcases hother size avail rfl with hst' | hplain
      · exact absurd hst hst'
      · cases hplain.symm.trans hch
    | arrival | headers | close | notify => trivial

theorem Delivery.chunkedInv_start {hcp : Hcp} (sock : Socket) (hfresh : ¬ hcp.resp.UntilClose)
    (hsends : m.Sends hcp.chunkedDoNotDecode sent) :
    (Delivery.start hcp sock).ChunkedInv m sent hcp.chunkedDoNotDecode where
  mode := rfl
  sends := hsends
  waiting _ _ := ⟨rfl, hfresh⟩
  body hst := by cases hst

end Run

/-- A parser that finds a chunked response. -/
def chunkedResponseEnv : ClientEnv where
  parseHttpResponse := fun _ => some {
    statusCode := 200, status := some (bytes "OK"), keepAlive := true, contentLength := -1
    chunkedEncoding := true }

/-- Two chunks of one byte. -/
def twoByteMessage : ChunkedMessage :=
  .ofChunks [.ofByte 97, .ofByte 98]

/-- A response of two chunks, as it comes from the backend. -/
def twoByteResponse : List UInt8 :=
  bytes "HTTP/1.1 200 OK\r\nTransfer-Encoding: chunked\r\n\r\n1\r\na\r\n1\r\nb\r\n0\r\n\r\n"

/-- A part of the first chunk comes in with the headers. -/
def twoByteDelivery : List DeliveryEvent :=
  [.headers 5120 30, .headers 5120 23, .arrival, .read 4 3, .arrival, .read 4096 100,
    .arrival, .read 4096 100]

-- the connection is closed in the middle of the second chunk, and the end is not signalled
example :
    (run (Delivery.step chunkedResponseEnv)
        (.start {} { incoming := twoByteResponse.take 56 })
        (twoByteDelivery ++ [.close, .read 4096 100, .notify (-1)])).map
      (fun s => (s.eof, s.delivered, s.sock.incoming, s.hcp.responseBodyComplete)) =
    some (false, bytes "a", [], false) := by
  decide +kernel

end Nxweb
