import Nxweb.Chunked.Monitor
import Nxweb.ServerProto.RequestBodySpec
import Nxweb.ServerProto.RequestHeaders

/-!
# Receiving a whole request body

A `RequestBody` is a body as a client sends it, with its length announced or in chunks. While it
is being received the request record says how far (`Receiving`), and one part of it either leaves
it incomplete or ends it (`receiveBody_receiving`). A body that is only monitored, as the proxy
does, is handed out as it was sent; a chunked body that is decoded is handed out without its
framing. What is sent behind the body is handed out with the last part of a body of known length
or of a monitored one, and dropped by the decoder.

The same is then said of a read of the body, which has up to two parts (`ReceivingFrom.read`). A
read that asks for less than is left of the first chunk should not go to the socket; it does so
if the decoder has dropped some of the bytes. `InOrder` excludes that.
-/

namespace Nxweb

/-- A request body as a client sends it. -/
inductive RequestBody where
  | sized (data : List UInt8) (ne_nil : data ≠ [])
  | chunked (m : ChunkedMessage)

namespace RequestBody

/-- The bytes that are sent. -/
def wire : RequestBody → List UInt8
  | sized data _ => data
  | chunked m => m.wire

/-- The content. -/
def data : RequestBody → List UInt8
  | sized data _ => data
  | chunked m => m.body

/-- The headers that announce the body. -/
def head (b : RequestBody) (head : RequestHead) : RequestHead :=
  match b with
  | sized data _ => { head with chunkedEncoding := false, contentLength := data.length }
  | chunked _ => { head with chunkedEncoding := true }

/-- The content a consumer gets of the bytes `fed`, if the body ends with them. -/
def delivered (b : RequestBody) (monitor : Bool) (fed : List UInt8) : List UInt8 :=
  match b with
  | sized _ _ => fed
  | chunked m => if monitor then fed else m.body

/-- The consumer gets the bytes as they were sent. -/
def Verbatim (b : RequestBody) (monitor : Bool) : Prop :=
  match b with
  | sized _ _ => True
  | chunked _ => monitor = true

end RequestBody

/-- The request after the bytes `fed` of its body, of which `out` were handed out. -/
structure Receiving (b : RequestBody) (monitor : Bool) (req : HttpRequest)
    (fed out : List UInt8) : Prop where
  more : req.chunkedContentComplete = false
  fed_lt : fed.length < b.wire.length
  framing : match b with
    | .sized data _ => req.chunkedEncoding = false ∧ req.contentLength = data.length ∧
      req.contentReceived = fed.length ∧ out = fed
    | .chunked _ => req.chunkedEncoding = true ∧ req.contentLength = -1 ∧
      req.cdstate.monitorOnly = monitor ∧
      ∃ dec, Feeds (ChunkedDecoderState.zero.setMode monitor) fed req.cdstate dec ∧
        out = if monitor then fed else dec

/-- The request after its whole body, when the last part reached to the end of `fed`. -/
structure Received (b : RequestBody) (monitor : Bool) (req : HttpRequest)
    (fed out : List UInt8) : Prop where
  complete : req.isRequestBodyComplete = true
  fed_ge : b.wire.length ≤ fed.length
  out_eq : out = b.delivered monitor fed

/-- What has been handed out is what has been received, if the bytes are passed on. -/
theorem Receiving.out_eq {b : RequestBody} {monitor : Bool} {req : HttpRequest}
    {fed out : List UInt8} (h : Receiving b monitor req fed out) (hv : b.Verbatim monitor) :
    out = fed := by
  have hframing := h.framing
  cases b with
  | sized data hne => exact hframing.2.2.2
  | chunked m =>
    obtain ⟨-, -, -, dec, -, hout⟩ := hframing
    rw [hout, show monitor = true from hv, if_pos rfl]

/-- A body that is being received is not complete. -/
theorem Receiving.incomplete {b : RequestBody} {monitor : Bool} {req : HttpRequest}
    {fed out : List UInt8} (h : Receiving b monitor req fed out) :
    req.isRequestBodyComplete = false := by
  have hlt := h.fed_lt
  have hframing := h.framing
  simp only [HttpRequest.isRequestBodyComplete, h.more, Bool.false_eq_true, or_false,
    decide_eq_false_iff_not, not_and, not_le]
  intro hpos
  cases b with
  | sized data hne =>
    obtain ⟨-, hlen, hcount, -⟩ := hframing
    simp only [RequestBody.wire] at hlt
    omega
  | chunked m =>
    obtain ⟨-, hlen, -⟩ := hframing
    omega

/-- A part of a chunked body, in terms of `feed`. -/
theorem receiveBody_feed {req : HttpRequest} {raw : List UInt8} (hch : req.chunkedEncoding = true)
    (hfit : SizesFit req.cdstate raw) (hcode : 0 ≤ (feed req.cdstate raw).code) :
    let data := if req.cdstate.monitorOnly then raw else (feed req.cdstate raw).out
    req.receiveBody raw = some (data, { req with
      cdstate := (feed req.cdstate raw).ds
      chunkedContentComplete :=
        req.chunkedContentComplete || decide (0 < (feed req.cdstate raw).code) }.count data.length,
      false) := by
  obtain ⟨r, hr, hrcode, hds, hkept⟩ : ∃ r, decodeChunkedStream req.cdstate raw = some r ∧
      r.code = (feed req.cdstate raw).code ∧ r.ds = (feed req.cdstate raw).ds ∧
      r.kept = if req.cdstate.monitorOnly then raw else (feed req.cdstate raw).out := by
    cases hmon : req.cdstate.monitorOnly with
    | true =>
      obtain ⟨r, hr, hrcode, hds, hkept⟩ := decodeChunkedStream_monitor hmon hfit
      exact ⟨r, hr, hrcode, hds, by simpa using hkept (hrcode ▸ hcode)⟩
    | false =>
      obtain ⟨r, hr, hrcode, hds, hkept⟩ := decodeChunkedStream_eq_feed hmon hfit
      exact ⟨r, hr, hrcode, hds, by simpa using hkept (hrcode ▸ hcode)⟩
  have hok : decide ((feed req.cdstate raw).code < 0) = false := by
    rw [decide_eq_false_iff_not]
    omega
  simp only [HttpRequest.receiveBody, if_pos hch, hr, Option.bind_eq_bind, Option.bind_some,
    Option.pure_def, hok, hrcode, hds, hkept]

/-- A part of a message in chunks that does not reach its last byte is read to its end. -/
theorem feeds_inside {m : ChunkedMessage} {monitor : Bool} {ds : ChunkedDecoderState}
    {fed dec raw rest : List UInt8}
    (h : Feeds (ChunkedDecoderState.zero.setMode monitor) fed ds dec)
    (hwire : fed ++ raw ++ rest = m.wire) (hne : rest ≠ []) :
    ∃ ds' dec', Feeds ds raw ds' dec' ∧
      Feeds (ChunkedDecoderState.zero.setMode monitor) (fed ++ raw) ds' (dec ++ dec') := by
  obtain ⟨pre, dsLast, hpre, hfeeds, -⟩ := feeds_wire_mode m monitor
  -- the part lies in front of the last byte
  obtain ⟨tail, htail⟩ : ∃ tail, pre = fed ++ raw ++ tail := by
    refine ⟨rest.dropLast, ?_⟩
    have hlast := congrArg List.dropLast (hwire.trans hpre)
    rw [List.dropLast_append_of_ne_nil hne, List.dropLast_concat] at hlast
    exact hlast.symm
  rw [htail] at hfeeds
  obtain ⟨ds', out₁, out₂, hparts, -, -⟩ := hfeeds.split
  obtain ⟨ds₀, dec₀, dec', hfed, hraw, rfl⟩ := hparts.split
  obtain ⟨-, rfl, rfl⟩ := FeedResult.mk.inj (hfed.feed_eq.symm.trans h.feed_eq)
  exact ⟨ds', dec', hraw, hparts⟩

/-- The part of a message in chunks that reaches its last byte ends it, whatever follows. -/
theorem feeds_last {m : ChunkedMessage} {monitor : Bool} {ds : ChunkedDecoderState}
    {fed dec raw : List UInt8} (h : Feeds (ChunkedDecoderState.zero.setMode monitor) fed ds dec)
    (hwire : fed ++ raw = m.wire) (hne : raw ≠ []) (extra : List UInt8) :
    ∃ ds' dec', feed ds (raw ++ extra) = ⟨1, ds', dec'⟩ ∧ SizesFit ds (raw ++ extra) ∧
      dec ++ dec' = m.body := by
  obtain ⟨pre, dsLast, hpre, hfeeds, hdone⟩ := feeds_wire_mode m monitor
  obtain ⟨init, hinit⟩ : ∃ init, raw = init ++ [lf] ∧ pre = fed ++ init := by
    have hall := hwire.trans hpre
    refine ⟨raw.dropLast, ?_, ?_⟩
    · have hlast := congrArg List.getLast? hall
      rw [List.getLast?_append_of_ne_nil _ hne, List.getLast?_concat] at hlast
      exact (List.dropLast_append_getLast? _ hlast).symm
    · have hdrop := congrArg List.dropLast hall
      rw [List.dropLast_append_of_ne_nil hne, List.dropLast_concat] at hdrop
      exact hdrop.symm
  obtain ⟨rfl, rfl⟩ := hinit
  obtain ⟨ds₀, dec₀, dec', hfed, hraw, hbody⟩ := hfeeds.split
  obtain ⟨-, rfl, rfl⟩ := FeedResult.mk.inj (hfed.feed_eq.symm.trans h.feed_eq)
  obtain ⟨hfeed, hfit⟩ := hraw.done hdone extra
  refine ⟨dsLast, dec', ?_, ?_, hbody.symm⟩
  · rw [List.append_assoc]
    exact hfeed
  · rw [List.append_assoc]
    exact hfit

/-- A part of the body either leaves it incomplete or ends it. -/
theorem Receiving.receive {b : RequestBody} {monitor : Bool} {req : HttpRequest}
    {fed out raw rest extra : List UInt8} (h : Receiving b monitor req fed out)
    (hwire : fed ++ raw ++ rest = b.wire ++ extra) :
    ∃ data req', req.receiveBody raw = some (data, req', false) ∧ data.length ≤ raw.length ∧
      (Receiving b monitor req' (fed ++ raw) (out ++ data) ∨
        Received b monitor req' (fed ++ raw) (out ++ data)) := by
  obtain ⟨hmore, hlt, hframing⟩ := h
  have hpre : fed ++ raw <+: b.wire ++ extra := ⟨rest, hwire⟩
  cases b with
  | sized data hne =>
    obtain ⟨hplain, hlen, hcount, rfl⟩ := hframing
    refine ⟨raw, req.count raw.length, receiveBody_plain hplain raw, le_rfl, ?_⟩
    rcases lt_or_ge (out ++ raw).length data.length with hin | hend
    · exact .inl ⟨hmore, hin, hplain, hlen, by simp [hcount], rfl⟩
    · refine .inr ⟨?_, hend, rfl⟩
      have hpos : 0 < data.length := List.length_pos_iff.mpr hne
      rw [List.length_append] at hend
      simp only [HttpRequest.isRequestBodyComplete, HttpRequest.count_contentLength,
        HttpRequest.count_contentReceived, hlen, hcount, decide_eq_true_eq]
      exact .inl ⟨by omega, by omega⟩
  | chunked m =>
    obtain ⟨hch, hlen, hmode, dec, hfeeds, rfl⟩ := hframing
    have hshort := feed_out_length req.cdstate raw
    rcases lt_or_ge (fed ++ raw).length m.wire.length with hin | hend
    · obtain ⟨restW, hrestW⟩ :=
        List.prefix_of_prefix_length_le hpre (List.prefix_append m.wire extra) hin.le
      have hne : restW ≠ [] := by
        rintro rfl
        rw [List.append_nil] at hrestW
        exact absurd hin (by rw [hrestW]; exact lt_irrefl _)
      obtain ⟨ds', dec', hraw, hall⟩ := feeds_inside hfeeds hrestW hne
      have hrecv := receiveBody_feed hch hraw.fit (by rw [hraw.feed_eq])
      rw [hraw.feed_eq] at hrecv hshort
      refine ⟨_, _, hrecv, ?_, .inl ⟨?_, hin, hch, hlen, ?_, dec ++ dec', hall, ?_⟩⟩
      · split_ifs
        · exact le_rfl
        · exact hshort
      · simpa using hmore
      · have hkeep : (feed req.cdstate raw).ds.monitorOnly = req.cdstate.monitorOnly :=
          feed_monitorOnly (by rw [hraw.feed_eq])
        rw [hraw.feed_eq] at hkeep
        exact hkeep.trans hmode
      · rw [hmode]
        split_ifs <;> rfl
    · obtain ⟨surplus, hsurplus⟩ :=
        List.prefix_of_prefix_length_le (List.prefix_append m.wire extra) hpre hend
      -- the body ends inside the part
      obtain ⟨raw₁, hraw₁, rfl⟩ : ∃ raw₁, fed ++ raw₁ = m.wire ∧ raw = raw₁ ++ surplus := by
        rcases List.append_eq_append_iff.mp hsurplus with ⟨a, ha, -⟩ | ⟨c, hc, hraw⟩
        · rw [RequestBody.wire, ha, List.length_append] at hlt
          omega
        · exact ⟨c, hc.symm, hraw⟩
      have hne : raw₁ ≠ [] := by
        rintro rfl
        rw [List.append_nil] at hraw₁
        exact absurd hlt (by rw [hraw₁]; exact lt_irrefl _)
      obtain ⟨ds', dec', hfeed, hfit, hbody⟩ := feeds_last hfeeds hraw₁ hne surplus
      have hrecv := receiveBody_feed hch hfit (by rw [hfeed]; exact zero_le_one)
      rw [hfeed] at hrecv hshort
      refine ⟨_, _, hrecv, ?_, .inr ⟨?_, hend, ?_⟩⟩
      · split_ifs
        · exact le_rfl
        · exact hshort
      · simp [HttpRequest.isRequestBodyComplete]
      · rw [hmode, RequestBody.delivered]
        split_ifs
        · rfl
        · exact hbody

/-- A body that is only followed from now on, or decoded from now on. -/
theorem Receiving.setMode {b : RequestBody} {monitor : Bool} {req : HttpRequest}
    {fed out : List UInt8} (h : Receiving b monitor req fed out) (mode : Bool) :
    ∃ out', Receiving b mode { req with cdstate := req.cdstate.setMode mode } fed out' := by
  obtain ⟨hmore, hlt, hframing⟩ := h
  cases b with
  | sized data hne => exact ⟨out, hmore, hlt, hframing⟩
  | chunked m =>
    obtain ⟨hch, hlen, -, dec, hfeeds, -⟩ := hframing
    exact ⟨_, hmore, hlt, hch, hlen, rfl, dec, hfeeds.setMode mode, rfl⟩

/-! ### A whole read -/

/-- A read does not go to the socket in front of bytes of the first chunk. -/
def InOrder (b : RequestBody) (monitor : Bool) (hsp : Hsp) (sock : Socket) (size avail : ℕ) :
    Prop :=
  ¬ b.Verbatim monitor → size < hsp.firstBodyChunk.length → sock.arrived avail = []

/-- What a read takes of the socket comes behind the first chunk. -/
theorem InOrder.second_comm {b : RequestBody} {monitor : Bool} {hsp : Hsp} {sock : Socket}
    {size avail : ℕ} {data : List UInt8} (hord : InOrder b monitor hsp sock size avail)
    (hdata : b.Verbatim monitor → data = hsp.firstBodyChunk.take size) :
    (sock.arrived avail).take (size - data.length) = [] ∨ hsp.firstBodyChunk.drop size = [] := by
  rcases le_or_gt hsp.firstBodyChunk.length size with hle | hgt
  · exact .inr (List.drop_eq_nil_of_le hle)
  · refine .inl ?_
    by_cases hv : b.Verbatim monitor
    · rw [hdata hv, List.length_take, min_eq_left hgt.le, Nat.sub_self, List.take_zero]
    · rw [hord hv hgt, List.take_nil]

/-- What a read leaves of a body of which it has fed the bytes up to `fed`. -/
inductive ReadLeaves (b : RequestBody) (monitor : Bool) (r : BodyRead) (fed out : List UInt8) : Prop
  | receiving (hst : r.hsp.state = .receivingBody) (heof : r.eof = false)
      (hreq : Receiving b monitor r.hsp.req fed out)
  | received (hst : r.hsp.state = .handling) (heof : r.eof = true)
      (hreq : Received b monitor r.hsp.req fed out)

/-- A read either leaves the body incomplete or ends it, and sets `NXEF_EOF` in that case. Here
`taken` are the bytes it takes from the socket. -/
theorem Receiving.read {b : RequestBody} {monitor : Bool} {hsp : Hsp} {sock : Socket}
    {fed out taken rest extra : List UInt8} {size avail : ℕ} {r : BodyRead}
    (h : Receiving b monitor hsp.req fed out) (hst : hsp.state = .receivingBody)
    (hord : InOrder b monitor hsp sock size avail)
    (hread : hsp.reqBodyOutRead (some sock) size avail = some r)
    (htaken : sock.incoming = taken ++ (r.sock.getD sock).incoming)
    (hwire : fed ++ hsp.firstBodyChunk ++ taken ++ rest = b.wire ++ extra) :
    ∃ fed', fed ++ fed' ++ r.hsp.firstBodyChunk = fed ++ hsp.firstBodyChunk ++ taken ∧
      ReadLeaves b monitor r (fed ++ fed') (out ++ r.data) := by
  have hsplit : fed ++ hsp.firstBodyChunk.take size ++
      (hsp.firstBodyChunk.drop size ++ taken ++ rest) = b.wire ++ extra := by
    rw [← hwire]
    conv_rhs => rw [← List.take_append_drop size hsp.firstBodyChunk]
    simp only [List.append_assoc]
  obtain ⟨data₁, req₁, hrecv₁, -, hafter₁⟩ := h.receive hsplit
  rcases reqBodyOutRead_cases hst h.incomplete hread with
    ⟨hfirst, hdone, hdata, hsock, hout⟩ | ⟨hfirst, hmore, hsecond, hdata, hsock, hincoming, hout⟩
  · obtain ⟨rfl, rfl, rfl⟩ := hrecv₁.symm.trans hfirst
    have hnone : taken = [] := by simpa [hsock] using htaken
    refine ⟨hsp.firstBodyChunk.take size, ?_, .received (hout.handling_iff.mpr hdone) ?_ ?_⟩
    · simp [hout.chunk_eq, hnone]
    · rw [hout.eof_eq, hdone]
    · rw [hout.req_eq, hdata]
      exact hafter₁.resolve_left fun hrecv => by simp [hrecv.incomplete] at hdone
  · obtain ⟨rfl, rfl, rfl⟩ := hrecv₁.symm.trans hfirst
    have hreq₁ := hafter₁.resolve_right fun hrecv => by simp [hrecv.complete] at hmore
    have hverb : b.Verbatim monitor → data₁ = hsp.firstBodyChunk.take size := by
      intro hv
      have h₁ := hreq₁.out_eq hv
      rw [h.out_eq hv] at h₁
      exact List.append_cancel_left h₁
    have hcomm := hord.second_comm hverb
    have htake := sock.arrived_take_eq (size - data₁.length) avail
    generalize (sock.arrived avail).take (size - data₁.length) = second
      at hsecond hincoming hcomm htake
    obtain rfl : taken = second := by
      rw [hsock, Option.getD_some, hincoming] at htaken
      conv_lhs at htaken => rw [← List.take_append_drop second.length sock.incoming, ← htake]
      exact (List.append_cancel_right htaken).symm
    have hbytes : hsp.firstBodyChunk.take size ++ taken ++ hsp.firstBodyChunk.drop size =
        hsp.firstBodyChunk ++ taken := by
      rcases hcomm with rfl | hnil
      · simp
      · conv_rhs => rw [← List.take_append_drop size hsp.firstBodyChunk]
        simp [hnil]
    have hsplit₂ : fed ++ hsp.firstBodyChunk.take size ++ taken ++
        (hsp.firstBodyChunk.drop size ++ rest) = b.wire ++ extra := by
      rw [← hwire, ← List.append_assoc, List.append_assoc fed, List.append_assoc fed, hbytes,
        ← List.append_assoc fed]
    obtain ⟨data₂, req₂, hrecv₂, -, hafter₂⟩ := hreq₁.receive hsplit₂
    obtain ⟨rfl, rfl, rfl⟩ := hrecv₂.symm.trans hsecond
    refine ⟨hsp.firstBodyChunk.take size ++ taken, ?_, ?_⟩
    · rw [hout.chunk_eq, List.append_assoc, hbytes, List.append_assoc]
    · rw [← List.append_assoc, hdata, ← List.append_assoc]
      rcases hafter₂ with hrecv | hrecv
      · refine .receiving (hout.receiving_iff.mpr hrecv.incomplete) ?_ (hout.req_eq ▸ hrecv)
        rw [hout.eof_eq, hrecv.incomplete]
      · refine .received (hout.handling_iff.mpr hrecv.complete) ?_ (hout.req_eq ▸ hrecv)
        rw [hout.eof_eq, hrecv.complete]

/-! ### The client's whole stream -/

/-- A connection in the middle of a body: the bytes `fed` of it have been received and `out`
handed out, and what is left of the first chunk and at the socket follows. -/
structure ReceivingFrom (b : RequestBody) (monitor : Bool) (extra : List UInt8) (hsp : Hsp)
    (sock : Socket) (fed out : List UInt8) : Prop where
  state_eq : hsp.state = .receivingBody
  req : Receiving b monitor hsp.req fed out
  count : hsp.req.contentReceived = out.length
  bytes_eq : fed ++ hsp.firstBodyChunk ++ sock.incoming = b.wire ++ extra

/-- A connection that has received a whole body. -/
structure ReceivedFrom (b : RequestBody) (monitor : Bool) (extra : List UInt8) (hsp : Hsp)
    (sock : Socket) (fed out : List UInt8) : Prop where
  state_eq : hsp.state = .handling
  req : Received b monitor hsp.req fed out
  count : hsp.req.contentReceived = out.length
  bytes_eq : fed ++ hsp.firstBodyChunk ++ sock.incoming = b.wire ++ extra

/-- A body that its headers have announced is received from its first byte on. -/
theorem requestReceived_receiving (b : RequestBody) (hsp : Hsp) (head : RequestHead)
    {rest extra : List UInt8} {sock : Socket} (hbytes : rest ++ sock.incoming = b.wire ++ extra) :
    ReceivingFrom b false extra (hsp.requestReceived (b.head head).request rest) sock [] [] := by
  obtain ⟨hreq, hchunk, -, hstate⟩ := requestReceived_fresh hsp (b.head head) rest
  generalize hsp.requestReceived (b.head head).request rest = hsp' at hreq hchunk hstate ⊢
  have hne : b.wire ≠ [] := by
    cases b with
    | sized data hne => exact hne
    | chunked m => exact m.wire_ne_nil
  have hlen : (b.head head).request.contentLength ≠ 0 := by
    cases b with
    | sized data hdata => simp [RequestBody.head, RequestHead.request, hdata]
    | chunked m => simp [RequestBody.head, RequestHead.request]
  rw [if_pos hlen] at hstate
  refine ⟨hstate, ⟨by rw [hreq]; rfl, List.length_pos_iff.mpr hne, ?_⟩, by rw [hreq]; rfl, ?_⟩
  · rw [hreq]
    cases b with
    | sized data hne => exact ⟨rfl, rfl, rfl, rfl⟩
    | chunked m => exact ⟨rfl, rfl, rfl, [], .nil le_rfl, rfl⟩
  · rw [hchunk, List.nil_append]
    exact hbytes

/-- What is read of the socket was in front of the rest. -/
theorem reqBodyOutRead_incoming {hsp : Hsp} {sock : Socket} {size avail : ℕ} {r : BodyRead}
    (hst : hsp.state = .receivingBody) (hmore : hsp.req.isRequestBodyComplete = false)
    (hread : hsp.reqBodyOutRead (some sock) size avail = some r) :
    ∃ taken sock', r.sock = some sock' ∧ sock.incoming = taken ++ sock'.incoming := by
  rcases reqBodyOutRead_cases hst hmore hread with
    ⟨-, -, -, hsock, -⟩ | ⟨-, -, -, -, hsock, hincoming, -⟩
  · exact ⟨[], sock, hsock, rfl⟩
  · exact ⟨_, _, hsock, by rw [hincoming, List.take_append_drop]⟩

/-- A read of the client's stream either leaves the body incomplete or ends it. -/
theorem ReceivingFrom.read {b : RequestBody} {monitor : Bool} {extra : List UInt8} {hsp : Hsp}
    {sock : Socket} {fed out : List UInt8} (h : ReceivingFrom b monitor extra hsp sock fed out)
    {size avail : ℕ} {r : BodyRead} (hord : InOrder b monitor hsp sock size avail)
    (hread : hsp.reqBodyOutRead (some sock) size avail = some r) :
    ∃ fed' sock', r.sock = some sock' ∧
      ((ReceivingFrom b monitor extra r.hsp sock' (fed ++ fed') (out ++ r.data) ∧ r.eof = false) ∨
        (ReceivedFrom b monitor extra r.hsp sock' (fed ++ fed') (out ++ r.data) ∧
          r.eof = true)) := by
  obtain ⟨hst, hreq, hcount, hbytes⟩ := h
  obtain ⟨taken, sock', hsock, htaken⟩ := reqBodyOutRead_incoming hst hreq.incomplete hread
  have hwire : fed ++ hsp.firstBodyChunk ++ taken ++ sock'.incoming = b.wire ++ extra := by
    rw [← hbytes, htaken, List.append_assoc _ taken]
  obtain ⟨fed', hfed', hleaves⟩ :=
    hreq.read hst hord hread (by rw [hsock]; exact htaken) hwire
  have hcount' : r.hsp.req.contentReceived = (out ++ r.data).length := by
    rw [(reqBodyOutRead_cases hst hreq.incomplete hread).counts.contentReceived_eq, hcount,
      List.length_append]
  rw [← hfed'] at hwire
  refine ⟨fed', sock', hsock, ?_⟩
  rcases hleaves with ⟨hst', heof, hreq'⟩ | ⟨hst', heof, hreq'⟩
  · exact .inl ⟨⟨hst', hreq', hcount', hwire⟩, heof⟩
  · exact .inr ⟨⟨hst', hreq', hcount', hwire⟩, heof⟩

end Nxweb
