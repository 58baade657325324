import Nxweb.Lib.Machine
import Nxweb.ServerProto.DataOut
import Nxweb.ServerProto.RequestBody
import Nxweb.ServerProto.RequestHeaders
import Nxweb.ServerProto.ResponseBodyCorrectness

/-!
# What is written to the client for one request

The machine of this file is the output side of a connection between the end of the request
headers and the message that the request is complete. The handler answers at some moment, the
socket takes some of the bytes of every write, the request body is read, and the producer of the
response body offers bytes on its own or when it is asked to.

One pointer, `resp_headers_ptr`, serves the interim response and the headers. While the interim
response is under way, `sending_100_continue` keeps the answer from moving the pointer, and the
write that completes the interim response moves it instead. `OpenStage` says where the pointer
stands in every situation, and what has been written then.

## Main definitions

* `ResponseOutput.step`: the machine, and `OutputStart`: where it starts;
* `HttpResponse.IsOutput`, `ResponseOutput.Framed`: the output that is due;
* `ResponseOutput.Inv`: the stages of the output, from which `Framed` follows
  (`ResponseOutput.Inv.framed`).
-/

namespace Nxweb

open Lib ChunkedMessage

/-! ### The machine -/

/-- The output of one request: the transfer of its response body, and the response as it was when
the handler's answer was accepted. -/
structure ResponseOutput extends BodyTransfer where
  answer : Option HttpResponse := none

/-- What an offer is to the transfer of the body. The ostream is ready unless a write says
otherwise. -/
def BodyOffer.call (offer : BodyOffer) : BodyCall :=
  ⟨offer.data.length, offer.eof, true, offer.replies⟩

/-- The producer offers the bytes of the body that come next. -/
structure BodyOffer.Offers (body : List UInt8) (t : BodyTransfer) (offer : BodyOffer) : Prop where
  valid : offer.call.Valid body t
  data_eq : offer.data = (body.drop t.accepted).take offer.data.length

instance (body : List UInt8) (t : BodyTransfer) (offer : BodyOffer) :
    Decidable (offer.Offers body t) :=
  decidable_of_iff (offer.call.Valid body t ∧
      offer.data = (body.drop t.accepted).take offer.data.length)
    ⟨fun ⟨h1, h2⟩ => ⟨h1, h2⟩, fun ⟨h1, h2⟩ => ⟨h1, h2⟩⟩

/-- `resp->bytes_sent`, `0` without a response. -/
def Hsp.bytesSent (hsp : Hsp) : ℕ := (hsp.resp.map HttpResponse.bytesSent).getD 0

/-- The transfer after `data_out_do_write`. The bytes taken from the producer are those counted in
`bytes_sent`. -/
def ResponseOutput.wrote (s : ResponseOutput) (hsp : Hsp) (os : NextOs)
    (offer : Option BodyOffer) : ResponseOutput :=
  let n := hsp.bytesSent - s.hsp.bytesSent
  { s with
    hsp, os
    accepted := s.accepted + n
    outstanding := (offer.map fun offer => offer.data.length - n).getD s.outstanding
    eofSeen := s.eofSeen || offer.any BodyOffer.eof }

/-- What can happen until the request is complete. -/
inductive OutputEvent where
  /-- `start_sending_response` -/
  | answer (resp : HttpResponse)
  /-- `req_body_out_read`, from a socket in any condition -/
  | readBody (sock : Option Socket) (size avail : ℕ)
  /-- `data_out_do_write`, with the offer of the producer if it is ready -/
  | doWrite (reply100 reply : WriteReply) (offer : Option BodyOffer)
  /-- the producer calls `resp_body_in_write_or_sendfile` on its own -/
  | produce (c : BodyCall)
  deriving DecidableEq

/-- One event; `body` is what `content_out` produces. The event loop calls `data_out_do_write`
only while `data_out` and the socket are ready, and only a connected producer writes. An offer
that is not asked for is not made: the same run without it leaves the producer freer. -/
def ResponseOutput.step (env : ServerEnv) (body : List UInt8) (s : ResponseOutput) :
    OutputEvent → Option ResponseOutput
  | .answer resp => do
    let hsp ← s.hsp.startSendingResponse env resp
    return { s with hsp, answer := s.answer.or hsp.resp }
  | .readBody sock size avail => do
    let r ← s.hsp.reqBodyOutRead sock size avail
    return { s with hsp := r.hsp }
  | .doWrite reply100 reply offer =>
    if s.hsp.dataOutReady ∧ ∀ o ∈ offer, o.Offers body s.toBodyTransfer then do
      let (hsp, os) ← s.hsp.dataOutDoWrite { s.os with ready := true } reply100 reply offer
      return s.wrote hsp os offer
    else none
  | .produce c =>
    if s.hsp.respBodyInPaired ∧ c.Valid body s.toBodyTransfer then do
      let t ← s.toBodyTransfer.call body c
      return { s with toBodyTransfer := t }
    else none

/-! ### The output that is due -/

/-- The interim response to a request whose headers came with the bytes `rest` behind them. -/
def interimResponse (req : HttpRequest) (rest : List UInt8) : List UInt8 :=
  if rest = [] ∧ req.expect100Continue then response100Continue else []

/-- The object when the headers of a request have been read, and the interim response that is
due: the request is handed on, or it is refused and will be answered with `400`. The message that
completed the request before has been delivered. -/
inductive OutputStart : List UInt8 → Hsp → Prop
  | received {hsp : Hsp} (head : RequestHead) (rest : List UInt8)
      (hidle : HspMessage.requestComplete ∉ hsp.eventsPub) :
      OutputStart (interimResponse head.request rest) (hsp.requestReceived head.request rest)
  | refused {hsp : Hsp} (hidle : HspMessage.requestComplete ∉ hsp.eventsPub)
      (hstate : hsp.state = .receivingHeaders) (h100 : hsp.req.sending100Continue = false) :
      OutputStart [] hsp

/-- The form in which a body has to be written. -/
def HttpResponse.BodyWire (resp : HttpResponse) (headMethod : Bool) (body wire : List UInt8) :
    Prop :=
  if resp.contentLength = 0 ∨ headMethod then wire = []
  else if resp.chunkedAutoencode then IsMessageOf body wire
  else wire = body

/-- The whole output for a request that is answered with `resp`. -/
def HttpResponse.IsOutput (resp : HttpResponse) (interim : List UInt8) (headMethod : Bool)
    (body out : List UInt8) : Prop :=
  ∃ wire, resp.BodyWire headMethod body wire ∧ out = interim ++ resp.rawHeaders.getD [] ++ wire

/-- The output so far is an initial part of what is due, and all of it once the request is
complete. -/
structure ResponseOutput.Framed (interim : List UInt8) (headMethod : Bool) (body : List UInt8)
    (s : ResponseOutput) : Prop where
  waiting : s.answer = none → s.os.received <+: interim
  answered : ∀ resp ∈ s.answer, ∃ rest,
    resp.IsOutput interim headMethod body (s.os.received ++ rest)
  complete : .requestComplete ∈ s.hsp.eventsPub →
    ∃ resp ∈ s.answer, resp.IsOutput interim headMethod body s.os.received

/-! ### Writing behind other bytes -/

/-- The ostream as it is if the bytes `pre` were written first. -/
def NextOs.after (os : NextOs) (pre : List UInt8) : NextOs :=
  { os with received := pre ++ os.received }

theorem NextOs.write_after (os : NextOs) (pre data : List UInt8) (reply : WriteReply) :
    (os.after pre).write data reply =
      ((os.write data reply).1, (os.write data reply).2.after pre) := by
  simp [NextOs.write, NextOs.after]

theorem sendTemplate_after (es : ChunkedEncoderState) (os : NextOs) (pre : List UInt8)
    (chunkSize : ℕ) (eof : Bool) (reply : WriteReply) :
    sendTemplate es (os.after pre) chunkSize eof reply =
      (sendTemplate es os chunkSize eof reply).map fun w => { w with os := w.os.after pre } := by
  unfold sendTemplate
  cases encodeChunkedStream es chunkSize eof with
  | none => rfl
  | some r =>
    simp only [Option.bind_eq_bind, Option.bind_some, NextOs.write_after]
    split_ifs <;> rfl

/-- The encoder does not depend on what has been written before. -/
theorem writeChunked_after (es : ChunkedEncoderState) (os : NextOs) (pre data : List UInt8)
    (eof : Bool) (replies : WriteReplies) :
    writeChunked es (os.after pre) data eof replies =
      (writeChunked es os data eof replies).map fun (n, es, os) => (n, es, os.after pre) := by
  unfold writeChunked
  rw [sendTemplate_after]
  cases sendTemplate es os data.length eof replies.header with
  | none => rfl
  | some w =>
    simp only [Option.map_some, Option.bind_eq_bind, Option.bind_some, NextOs.write_after]
    by_cases hdata : ¬ w.skip = true ∧ w.chunkSize ≠ 0
    · simp only [if_pos hdata]
      split_ifs
      · rfl
      · rw [sendTemplate_after]
        cases sendTemplate _ (w.os.write _ _).2 0 _ replies.trailer <;> rfl
      · rw [sendTemplate_after]
        cases sendTemplate _ (w.os.write _ _).2 0 _ replies.trailer <;> rfl
    · simp only [if_neg hdata]
      split_ifs
      · rfl
      · rw [sendTemplate_after]
        cases sendTemplate _ w.os 0 _ replies.trailer <;> rfl
      · rw [sendTemplate_after]
        cases sendTemplate _ w.os 0 _ replies.trailer <;> rfl

/-! ### One write of the body -/

/-- What the bytes `wire` are when `accepted` bytes of the body have been taken: the same bytes,
or what the encoder has made of them. -/
def HttpResponse.Progress (resp : HttpResponse) (body wire : List UInt8)
    (accepted outstanding : ℕ) (eof : Bool) : Prop :=
  if resp.chunkedAutoencode then EncoderInv body resp.cestate wire accepted outstanding eof
  else wire = body.take accepted

/-- The two records differ in what sending the body changes. -/
def HttpResponse.SameFraming (resp resp' : HttpResponse) : Prop :=
  resp' = { resp with cestate := resp'.cestate, bytesSent := resp'.bytesSent }

theorem HttpResponse.SameFraming.refl (resp : HttpResponse) : resp.SameFraming resp := rfl

theorem HttpResponse.SameFraming.trans {resp₁ resp₂ resp₃ : HttpResponse}
    (h₁ : resp₁.SameFraming resp₂) (h₂ : resp₂.SameFraming resp₃) : resp₁.SameFraming resp₃ := by
  unfold HttpResponse.SameFraming at *
  rw [h₂, h₁]

theorem HttpResponse.SameFraming.bodyWire {resp resp' : HttpResponse} {headMethod : Bool}
    {body wire : List UInt8} (h : resp.SameFraming resp') :
    resp'.BodyWire headMethod body wire ↔ resp.BodyWire headMethod body wire := by
  rw [h]
  rfl

/-- Sending the body starts with nothing written. -/
theorem HttpResponse.progress_init {resp : HttpResponse} {body : List UInt8} (outstanding : ℕ)
    (eof : Bool) (h : resp.chunkedAutoencode = true → resp.cestate = encodeChunkedInit) :
    resp.Progress body [] 0 outstanding eof := by
  unfold HttpResponse.Progress
  split_ifs with hauto
  · rw [h hauto]
    exact .between (between_init body)
  · rfl

/-- What was written of the body can be continued. -/
theorem HttpResponse.Progress.continue {resp : HttpResponse} {body wire : List UInt8}
    {accepted outstanding : ℕ} {eof headMethod : Bool}
    (h : resp.Progress body wire accepted outstanding eof) (hbody : resp.contentLength ≠ 0)
    (hhead : headMethod = false) : ∃ rest, resp.BodyWire headMethod body (wire ++ rest) := by
  have hnot : ¬ (resp.contentLength = 0 ∨ headMethod = true) := by simp [hbody, hhead]
  unfold HttpResponse.Progress at h
  simp only [HttpResponse.BodyWire, if_neg hnot]
  split_ifs at h ⊢
  · cases hcomplete : encodeChunkedIsComplete resp.cestate with
    | true => exact ⟨[], by simpa using h.complete hcomplete⟩
    | false =>
      obtain ⟨rest, -, hrest⟩ := h.incomplete hcomplete
      exact ⟨rest, hrest⟩
  · exact ⟨body.drop accepted, by rw [h, List.take_append_drop]⟩

/-- A write of the body to an ostream that is ready. -/
theorem HttpResponse.Progress.writeBody {resp : HttpResponse} {body pre wire data : List UInt8}
    {os : NextOs} {accepted : ℕ} {eof : Bool} (replies : WriteReplies)
    (h : resp.Progress body wire accepted data.length eof) (hos : os.received = pre ++ wire)
    (hdata : data = (body.drop accepted).take data.length)
    (hlen : accepted + data.length ≤ body.length)
    (heof : eof = true → accepted + data.length = body.length) :
    ∃ n resp' os' wire', resp.writeBody os data eof replies = some (n, resp', os') ∧
      n ≤ data.length ∧ os'.received = pre ++ wire' ∧ resp.SameFraming resp' ∧
      resp'.bytesSent = resp.bytesSent ∧
      resp'.Progress body wire' (accepted + n) (data.length - n) eof := by
  unfold HttpResponse.writeBody
  unfold HttpResponse.Progress at h ⊢
  split_ifs at h ⊢ with hauto
  · -- the encoder sees an ostream to which only its own bytes were written
    have hafter : os = NextOs.after ⟨os.ready, wire⟩ pre := by
      cases os
      simpa [NextOs.after] using hos
    obtain ⟨n, es', os', hw, hn, hinv⟩ :=
      @writeChunked_inv body data resp.cestate ⟨os.ready, wire⟩ accepted eof replies h hdata hlen
        heof
    rw [hafter, writeChunked_after, hw]
    refine ⟨n, { resp with cestate := es' }, os'.after pre, os'.received, rfl, hn, rfl, rfl, rfl, ?_⟩
    rw [if_pos hauto]
    exact hinv
  · obtain ⟨n, hn, hwrite⟩ := os.write_spec data replies.data
    rw [hwrite]
    refine ⟨n, resp, _, wire ++ data.take n, rfl, hn, ?_, rfl, rfl, ?_⟩
    · rw [hos, List.append_assoc]
    · rw [if_neg hauto, h, List.take_add, hdata, List.take_take, Nat.min_eq_left hn]

/-- The body has been written completely: the last offer reached the end and was taken. -/
theorem HttpResponse.Progress.bodyWire {resp : HttpResponse} {body wire : List UInt8}
    {accepted outstanding : ℕ} {eof headMethod : Bool}
    (h : resp.Progress body wire accepted outstanding eof) (hbody : resp.contentLength ≠ 0)
    (hhead : headMethod = false) (hall : accepted = body.length)
    (hes : ¬ resp.chunkedAutoencode ∨ encodeChunkedIsComplete resp.cestate) :
    resp.BodyWire headMethod body wire := by
  have hnot : ¬ (resp.contentLength = 0 ∨ headMethod = true) := by simp [hbody, hhead]
  unfold HttpResponse.Progress at h
  simp only [HttpResponse.BodyWire, if_neg hnot]
  split_ifs at h ⊢ with hauto
  · exact h.complete (hes.resolve_left (not_not.mpr hauto))
  · rw [h, hall, List.take_length]

/-- The result of a write of the body, by the response record and the bytes it leaves. -/
structure BodyWritten (pre body : List UInt8) (resp : HttpResponse) (hsp : Hsp)
    (accepted outstanding : ℕ) (eof : Bool) (hsp' : Hsp) (os' : NextOs) : Prop where
  state_eq : hsp'.state = hsp.state
  req_eq : hsp'.req = hsp.req
  written : ∃ resp' wire, hsp'.resp = some resp' ∧ resp.SameFraming resp' ∧
    os'.received = pre ++ wire ∧ resp'.Progress body wire accepted outstanding eof ∧
    (hsp'.eventsPub = hsp.eventsPub ∨
      (hsp'.dataOutReady = false ∧ hsp'.respBodyInPaired = false) ∧ accepted = body.length ∧
        (¬ resp'.chunkedAutoencode ∨ encodeChunkedIsComplete resp'.cestate))

/-- The bytes are passed on as far as the ostream takes them. -/
theorem HttpResponse.Progress.passOn {hsp : Hsp} {resp : HttpResponse}
    {body pre wire data : List UInt8} {os : NextOs} {accepted : ℕ} {eof : Bool}
    (replies : WriteReplies) (h : resp.Progress body wire accepted data.length eof)
    (hos : os.received = pre ++ wire) (hdata : data = (body.drop accepted).take data.length)
    (hlen : accepted + data.length ≤ body.length)
    (heof : eof = true → accepted + data.length = body.length) :
    ∃ n resp' hsp' os' wire',
      hsp.passOn resp (some os) data eof replies = some (n, resp', hsp', some os') ∧
      n ≤ data.length ∧ os'.received = pre ++ wire' ∧ resp.SameFraming resp' ∧
      resp'.bytesSent = resp.bytesSent ∧
      resp'.Progress body wire' (accepted + n) (data.length - n) eof := by
  unfold Hsp.passOn
  split_ifs with hsome
  · dsimp only
    split_ifs with hready
    · obtain ⟨n, resp', os', wire', hw, hrest⟩ := h.writeBody replies hos hdata hlen heof
      exact ⟨n, resp', _, os', wire', by rw [hw]; rfl, hrest⟩
    · exact ⟨0, resp, _, os, wire, rfl, Nat.zero_le _, hos, rfl, rfl, h⟩
  · exact ⟨0, resp, hsp, os, wire, rfl, Nat.zero_le _, hos, rfl, rfl, h⟩

/-- What follows when the bytes have been passed on: they are counted, and the request may be
complete. -/
theorem respBodyInWriteOrSendfile_eq {hsp hsp₁ : Hsp} {resp resp₁ : HttpResponse}
    {os os₁ : Option NextOs} {data : List UInt8} {eof : Bool} {replies : WriteReplies} {n : ℕ}
    (hstate : hsp.state = .sendingBody) (hresp : hsp.resp = some resp)
    (hpass : { hsp with timerWrite := false }.passOn resp os data eof replies =
      some (n, resp₁, hsp₁, os₁)) :
    respBodyInWriteOrSendfile hsp os data eof replies =
      let hsp₂ : Hsp := { hsp₁ with
        resp := some { resp₁ with bytesSent := resp₁.bytesSent + n } }
      some (n,
        if eof ∧ n = data.length ∧
            (¬ resp₁.chunkedAutoencode ∨ encodeChunkedIsComplete resp₁.cestate) then
          hsp₂.requestComplete
        else hsp₂.setTimerWrite, os₁) := by
  unfold respBodyInWriteOrSendfile
  rw [if_pos hstate]
  refine Option.bind_eq_some_iff.mpr ⟨resp, hresp, Option.bind_eq_some_iff.mpr ⟨_, hpass, ?_⟩⟩
  dsimp only
  split_ifs <;> rfl

/-- A producer writes part of the body while it is being sent; no assertion fails. -/
theorem respBodyInWriteOrSendfile_written {hsp : Hsp} {resp : HttpResponse}
    {body pre wire data : List UInt8} {os : NextOs} {accepted : ℕ} {eof : Bool}
    (replies : WriteReplies) (hstate : hsp.state = .sendingBody) (hresp : hsp.resp = some resp)
    (h : resp.Progress body wire accepted data.length eof) (hos : os.received = pre ++ wire)
    (hdata : data = (body.drop accepted).take data.length)
    (hlen : accepted + data.length ≤ body.length)
    (heof : eof = true → accepted + data.length = body.length) :
    ∃ n hsp' os', respBodyInWriteOrSendfile hsp (some os) data eof replies =
        some (n, hsp', some os') ∧ hsp'.bytesSent = hsp.bytesSent + n ∧
      BodyWritten pre body resp hsp (accepted + n) (data.length - n) eof hsp' os' := by
  obtain ⟨n, resp', hsp₁, os', wire', hpass, -, hos', hframing, hsent, hprogress⟩ :=
    @HttpResponse.Progress.passOn { hsp with timerWrite := false } resp body pre wire data os
      accepted eof replies h hos hdata hlen heof
  obtain ⟨-, hhsp⟩ := passOn_spec hpass
  have hcount : hsp.bytesSent + n = resp'.bytesSent + n := by
    simp [Hsp.bytesSent, hresp, hsent]
  have hframing' : resp.SameFraming { resp' with bytesSent := resp'.bytesSent + n } := by
    unfold HttpResponse.SameFraming at hframing ⊢
    rw [hframing]
  refine ⟨n, _, os', respBodyInWriteOrSendfile_eq hstate hresp hpass, ?_, ?_⟩
  · rw [hcount]
    split_ifs <;> rfl
  · rw [hhsp]
    split_ifs with hlast
    · obtain ⟨he, htaken, hes⟩ := hlast
      refine ⟨rfl, rfl, _, wire', rfl, hframing', hos', hprogress, .inr ⟨⟨rfl, rfl⟩, ?_, hes⟩⟩
      rw [htaken, heof he]
    · exact ⟨rfl, rfl, _, wire', rfl, hframing', hos', hprogress, .inl rfl⟩

/-! ### The stages of the output -/

/-- The interim response is under way, and the pointer is at the rest of it. -/
structure InterimPending (interim : List UInt8) (hsp : Hsp) (received : List UInt8) : Prop where
  sending : hsp.req.sending100Continue = true
  rest : ∃ c cs, hsp.respHeadersPtr = some (c :: cs) ∧ received ++ c :: cs = interim

/-- The handler has not answered. -/
structure WaitingStage (interim : List UInt8) (s : ResponseOutput) : Prop where
  canStart : s.hsp.state.CanStart
  answer_eq : s.answer = none
  written : InterimPending interim s.hsp s.os.received ∨
    s.hsp.req.sending100Continue = false ∧ s.os.received = interim

/-- The headers of the answer are due or under way. -/
structure HeadersStage (interim : List UInt8) (resp : HttpResponse) (s : ResponseOutput) :
    Prop where
  state_eq : s.hsp.state = .sendingHeaders
  answer_eq : s.answer = some resp
  resp_eq : s.hsp.resp = some resp
  prepared : resp.rawHeaders.isSome
  fresh : resp.chunkedAutoencode = true → resp.cestate = encodeChunkedInit
  written : InterimPending interim s.hsp s.os.received ∨
    s.hsp.req.sending100Continue = false ∧ ∃ rest, s.hsp.respHeadersPtr = some rest ∧
      s.os.received ++ rest = interim ++ resp.rawHeaders.getD []

/-- The headers have been written and the body is under way. -/
structure BodyStage (interim body : List UInt8) (resp : HttpResponse) (s : ResponseOutput) :
    Prop where
  state_eq : s.hsp.state = .sendingBody
  answer_eq : s.answer = some resp
  no100 : s.hsp.req.sending100Continue = false
  length_ne : resp.contentLength ≠ 0
  noHead : s.hsp.req.headMethod = false
  written : ∃ resp' wire, s.hsp.resp = some resp' ∧ resp.SameFraming resp' ∧
    s.os.received = interim ++ resp.rawHeaders.getD [] ++ wire ∧
    resp'.Progress body wire s.accepted s.outstanding s.eofSeen

/-- Something is left to write. -/
inductive OpenStage (interim body : List UInt8) (s : ResponseOutput) : Prop
  | waiting (hfirst : s.accepted = 0) (h : WaitingStage interim s)
  | headers {resp : HttpResponse} (hfirst : s.accepted = 0) (h : HeadersStage interim resp s)
  | body {resp : HttpResponse} (h : BodyStage interim body resp s)

/-- The request is complete, and no further write can be made for it. -/
structure OutputDone (interim body : List UInt8) (s : ResponseOutput) : Prop where
  sending : s.hsp.state.Sending
  dataOut : s.hsp.dataOutReady = false
  unpaired : s.hsp.respBodyInPaired = false
  output : ∃ resp, s.answer = some resp ∧
    resp.IsOutput interim s.hsp.req.headMethod body s.os.received

/-- Invariant of the output. -/
def ResponseOutput.Inv (interim body : List UInt8) (s : ResponseOutput) : Prop :=
  .requestComplete ∉ s.hsp.eventsPub ∧ OpenStage interim body s ∨ OutputDone interim body s

/-- Every body can be written in the form that is due. -/
theorem HttpResponse.exists_bodyWire (resp : HttpResponse) (headMethod : Bool)
    (body : List UInt8) : ∃ wire, resp.BodyWire headMethod body wire := by
  by_cases hnone : resp.contentLength = 0 ∨ headMethod = true
  · exact ⟨[], by simp [HttpResponse.BodyWire, hnone]⟩
  · rw [not_or, Bool.not_eq_true] at hnone
    -- a fresh encoder could write it
    let resp₀ : HttpResponse := { resp with cestate := encodeChunkedInit }
    have hinit : resp₀.Progress body [] 0 0 false := resp₀.progress_init 0 false fun _ => rfl
    obtain ⟨wire, hwire⟩ := hinit.continue hnone.1 hnone.2
    exact ⟨wire, hwire⟩

/-- The stages say what the output is. -/
theorem ResponseOutput.Inv.framed {interim body : List UInt8} {s : ResponseOutput}
    (h : s.Inv interim body) : s.Framed interim s.hsp.req.headMethod body := by
  rcases h with ⟨hquiet, hopen⟩ | ⟨-, -, -, resp, hanswer, hout⟩
  · cases hopen with
    | waiting _ h =>
      refine ⟨fun _ => ?_, by simp [h.answer_eq], fun hdone => absurd hdone hquiet⟩
      rcases h.written with ⟨-, c, cs, -, heq⟩ | ⟨-, heq⟩
      · exact ⟨c :: cs, heq⟩
      · rw [heq]
    | @headers resp _ h =>
      refine ⟨by simp [h.answer_eq], ?_, fun hdone => absurd hdone hquiet⟩
      rw [h.answer_eq]
      rintro _ ⟨⟩
      obtain ⟨wire, hwire⟩ := resp.exists_bodyWire s.hsp.req.headMethod body
      rcases h.written with ⟨-, c, cs, -, heq⟩ | ⟨-, rest, -, heq⟩
      · refine ⟨c :: cs ++ (resp.rawHeaders.getD [] ++ wire), wire, hwire, ?_⟩
        rw [← heq]
        simp
      · refine ⟨rest ++ wire, wire, hwire, ?_⟩
        rw [← heq]
        simp
    | @body resp h =>
      refine ⟨by simp [h.answer_eq], ?_, fun hdone => absurd hdone hquiet⟩
      rw [h.answer_eq]
      rintro _ ⟨⟩
      obtain ⟨resp', wire, -, hframing, hreceived, hprogress⟩ := h.written
      have hlen : resp'.contentLength ≠ 0 := by
        rw [hframing]
        exact h.length_ne
      obtain ⟨rest, hrest⟩ := hprogress.continue hlen h.noHead
      exact ⟨rest, wire ++ rest, hframing.bodyWire.mp hrest, by rw [hreceived, List.append_assoc]⟩
  · refine ⟨by simp [hanswer], ?_, fun _ => ⟨resp, by simp [hanswer], hout⟩⟩
    rw [hanswer]
    rintro _ ⟨⟩
    exact ⟨[], by rwa [List.append_nil]⟩

end Nxweb
