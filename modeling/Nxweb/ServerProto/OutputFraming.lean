import Nxweb.ServerProto.RequestBodySpec
import Nxweb.ServerProto.ResponseOutput

/-!
# The output for a request is framed at every moment

One lemma for each event of `ResponseOutput.step` says that it keeps the stages of the output:
reading the request body writes nothing, the answer moves the pointer or leaves that to the write
which completes the interim response, the producer is refused until the headers have been written,
and `data_out_do_write` goes through the stages in order.

The result is `responseOutput_framed`: what was written is always an initial part of the interim
response, if there is one, followed by the headers and the body, and it is all of that when the
request is complete.
-/

namespace Nxweb

open Lib

/-! ### Events that write nothing -/

/-- What the stages read of the object. What must not be written to stays so. -/
structure OutputKept (hsp hsp' : Hsp) : Prop where
  state_eq : hsp'.state = hsp.state ∨ hsp.state.CanStart ∧ hsp'.state.CanStart
  sending_eq : hsp'.req.sending100Continue = hsp.req.sending100Continue
  head_eq : hsp'.req.headMethod = hsp.req.headMethod
  resp_eq : hsp'.resp = hsp.resp
  ptr_eq : hsp'.respHeadersPtr = hsp.respHeadersPtr
  shut : hsp.dataOutReady = false ∧ hsp.respBodyInPaired = false →
    hsp'.dataOutReady = false ∧ hsp'.respBodyInPaired = false
  complete_iff : .requestComplete ∈ hsp'.eventsPub ↔ .requestComplete ∈ hsp.eventsPub

theorem OutputKept.trans {hsp₁ hsp₂ hsp₃ : Hsp} (h₁ : OutputKept hsp₁ hsp₂)
    (h₂ : OutputKept hsp₂ hsp₃) : OutputKept hsp₁ hsp₃ where
  state_eq := by
    rcases h₁.state_eq, h₂.state_eq with ⟨h | ⟨ha, hb⟩, h' | ⟨hc, hd⟩⟩
    · exact .inl (h'.trans h)
    · exact .inr ⟨h ▸ hc, hd⟩
    · exact .inr ⟨ha, h' ▸ hb⟩
    · exact .inr ⟨ha, hd⟩
  sending_eq := h₂.sending_eq.trans h₁.sending_eq
  head_eq := h₂.head_eq.trans h₁.head_eq
  resp_eq := h₂.resp_eq.trans h₁.resp_eq
  ptr_eq := h₂.ptr_eq.trans h₁.ptr_eq
  shut := h₂.shut ∘ h₁.shut
  complete_iff := h₂.complete_iff.trans h₁.complete_iff

theorem HspState.CanStart.not_sending {st : HspState} (h : st.CanStart) : ¬ st.Sending := by
  rcases h with rfl | rfl | rfl <;> rintro (h | h) <;> cases h

theorem OutputKept.canStart {hsp hsp' : Hsp} (h : OutputKept hsp hsp')
    (hst : hsp.state.CanStart) : hsp'.state.CanStart := by
  rcases h.state_eq with heq | ⟨-, hstart⟩
  · exact heq ▸ hst
  · exact hstart

/-- A state that was left is one in which the answer was awaited. -/
theorem OutputKept.state_of_sending {hsp hsp' : Hsp} (h : OutputKept hsp hsp')
    (hst : hsp.state.Sending) : hsp'.state = hsp.state :=
  h.state_eq.resolve_right fun hstart => hstart.1.not_sending hst

theorem InterimPending.kept {interim received : List UInt8} {hsp hsp' : Hsp}
    (h : InterimPending interim hsp received) (hkept : OutputKept hsp hsp') :
    InterimPending interim hsp' received :=
  ⟨hkept.sending_eq.trans h.sending, by rw [hkept.ptr_eq]; exact h.rest⟩

variable {interim body : List UInt8} {resp : HttpResponse} {s s' : ResponseOutput}

theorem WaitingStage.kept (h : WaitingStage interim s) (hkept : OutputKept s.hsp s'.hsp)
    (hanswer : s'.answer = s.answer) (hreceived : s'.os.received = s.os.received) :
    WaitingStage interim s' := by
  refine ⟨hkept.canStart h.canStart, hanswer.trans h.answer_eq, ?_⟩
  rw [hreceived]
  rcases h.written with hpending | ⟨h100, heq⟩
  · exact .inl (hpending.kept hkept)
  · exact .inr ⟨hkept.sending_eq.trans h100, heq⟩

theorem HeadersStage.kept (h : HeadersStage interim resp s) (hkept : OutputKept s.hsp s'.hsp)
    (hanswer : s'.answer = s.answer) (hreceived : s'.os.received = s.os.received) :
    HeadersStage interim resp s' := by
  have hstate := hkept.state_of_sending (.inl h.state_eq)
  refine ⟨hstate.trans h.state_eq, hanswer.trans h.answer_eq, hkept.resp_eq.trans h.resp_eq,
    h.prepared, h.fresh, ?_⟩
  rw [hreceived]
  rcases h.written with hpending | ⟨h100, rest, hptr, heq⟩
  · exact .inl (hpending.kept hkept)
  · exact .inr ⟨hkept.sending_eq.trans h100, rest, hkept.ptr_eq.trans hptr, heq⟩

theorem OutputDone.kept (h : OutputDone interim body s) (hkept : OutputKept s.hsp s'.hsp)
    (hanswer : s'.answer = s.answer) (hreceived : s'.os.received = s.os.received) :
    OutputDone interim body s' := by
  have hstate := hkept.state_of_sending h.sending
  obtain ⟨hdataOut, hunpaired⟩ := hkept.shut ⟨h.dataOut, h.unpaired⟩
  refine ⟨hstate.symm ▸ h.sending, hdataOut, hunpaired, ?_⟩
  rw [hanswer, hreceived, hkept.head_eq]
  exact h.output

theorem OpenStage.kept {hsp' : Hsp} {os' : NextOs} (h : OpenStage interim body s)
    (hkept : OutputKept s.hsp hsp') (hreceived : os'.received = s.os.received) :
    OpenStage interim body { s with hsp := hsp', os := os' } := by
  cases h with
  | waiting hfirst h => exact .waiting hfirst (h.kept hkept rfl hreceived)
  | headers hfirst h => exact .headers hfirst (h.kept hkept rfl hreceived)
  | body h =>
    have hstate := hkept.state_of_sending (.inr h.state_eq)
    obtain ⟨resp', wire, hresp, hframing, heq, hprogress⟩ := h.written
    exact .body ⟨hstate.trans h.state_eq, h.answer_eq, hkept.sending_eq.trans h.no100,
      h.length_ne, hkept.head_eq.trans h.noHead, resp', wire, hkept.resp_eq.trans hresp, hframing,
      hreceived.trans heq, hprogress⟩

/-- An event that leaves the output side alone. -/
theorem ResponseOutput.Inv.kept {hsp' : Hsp} (h : s.Inv interim body)
    (hkept : OutputKept s.hsp hsp') : ResponseOutput.Inv interim body { s with hsp := hsp' } := by
  rcases h with ⟨hquiet, hopen⟩ | hdone
  · exact .inl ⟨fun hmem => hquiet (hkept.complete_iff.mp hmem), hopen.kept hkept rfl⟩
  · exact .inr (hdone.kept hkept rfl rfl)

/-- Bytes of the request body are decoded and counted. -/
theorem receiveBody_kept {hsp hsp' : Hsp} {raw data : List UInt8}
    (h : hsp.receiveBody raw = some (data, hsp')) : OutputKept hsp hsp' := by
  obtain ⟨req, err, hreq, rfl⟩ := receiveBody_cases h
  have hkeep : req.sending100Continue = hsp.req.sending100Continue ∧
      req.headMethod = hsp.req.headMethod := by
    cases hch : hsp.req.chunkedEncoding with
    | false =>
      rw [receiveBody_plain hch] at hreq
      obtain ⟨-, rfl, -⟩ := hreq
      exact ⟨rfl, rfl⟩
    | true =>
      simp only [HttpRequest.receiveBody, if_pos hch] at hreq
      obtain ⟨r, -, hret⟩ := Option.bind_eq_some_iff.mp hreq
      obtain ⟨-, rfl, -⟩ := hret
      exact ⟨rfl, rfl⟩
  refine ⟨.inl rfl, hkeep.1, hkeep.2, rfl, rfl, id, ?_⟩
  cases err <;> simp [encodingError]

theorem bodyReceived_kept {hsp : Hsp} (h : hsp.state.CanStart) : OutputKept hsp hsp.bodyReceived :=
  ⟨.inr ⟨h, .inr (.inr rfl)⟩, rfl, rfl, rfl, rfl, id, by simp [Hsp.bodyReceived, Hsp.publish]⟩

theorem readBodyFromSocket_kept {hsp : Hsp} {sock : Option Socket} {data : List UInt8}
    {size avail : ℕ} {r : BodyRead} (hst : hsp.state = .receivingBody)
    (h : hsp.readBodyFromSocket sock data size avail = some r) : OutputKept hsp r.hsp := by
  unfold Hsp.readBodyFromSocket at h
  split_ifs at h
  · cases sock with
    | none =>
      obtain rfl := Option.some.inj h
      exact ⟨.inl rfl, rfl, rfl, rfl, rfl, id, Iff.rfl⟩
    | some sock =>
      dsimp only at h
      generalize sock.readIfReady size avail = rd at h
      obtain ⟨⟨data₂, hsp₂⟩, hrecv, hret⟩ := Option.bind_eq_some_iff.mp h
      have hsock : OutputKept hsp
          (if rd.2.ready then hsp else { hsp with reqBodyOutReady := false, dataInReady := true }) := by
        split_ifs <;> exact ⟨.inl rfl, rfl, rfl, rfl, rfl, id, Iff.rfl⟩
      have hkept := hsock.trans (receiveBody_kept hrecv)
      dsimp only at hret
      split_ifs at hret
      · obtain rfl := Option.some.inj hret
        exact hkept.trans (bodyReceived_kept (hkept.canStart (.inr (.inl hst))))
      · obtain rfl := Option.some.inj hret
        exact hkept.trans ⟨.inl rfl, rfl, rfl, rfl, rfl, id, Iff.rfl⟩
  · obtain rfl := Option.some.inj h
    exact ⟨.inl rfl, rfl, rfl, rfl, rfl, id, Iff.rfl⟩

/-- Reading the request body does not touch the output. -/
theorem reqBodyOutRead_kept {hsp : Hsp} {sock : Option Socket} {size avail : ℕ} {r : BodyRead}
    (h : hsp.reqBodyOutRead sock size avail = some r) : OutputKept hsp r.hsp := by
  unfold Hsp.reqBodyOutRead at h
  split at h
  next =>
    obtain rfl := Option.some.inj h
    exact ⟨.inl rfl, rfl, rfl, rfl, rfl, id, Iff.rfl⟩
  next hst =>
    have htimer : OutputKept hsp { hsp with timerRead := false } :=
      ⟨.inl rfl, rfl, rfl, rfl, rfl, id, Iff.rfl⟩
    refine htimer.trans ?_
    dsimp only at h
    split_ifs at h
    · obtain ⟨⟨data, hsp₁⟩, hrecv, hret⟩ := Option.bind_eq_some_iff.mp h
      have hchunk : OutputKept { hsp with timerRead := false }
          { hsp with timerRead := false, firstBodyChunk := hsp.firstBodyChunk.drop size } :=
        ⟨.inl rfl, rfl, rfl, rfl, rfl, id, Iff.rfl⟩
      have hkept := hchunk.trans (receiveBody_kept hrecv)
      obtain ⟨req, err, -, heq⟩ := receiveBody_cases hrecv
      have hst₁ : hsp₁.state = .receivingBody := by
        rw [heq]
        exact hst
      dsimp only at hret
      split_ifs at hret
      · obtain rfl := Option.some.inj hret
        exact hkept.trans (bodyReceived_kept (.inr (.inl hst₁)))
      · exact hkept.trans (readBodyFromSocket_kept hst₁ hret)
    · exact readBodyFromSocket_kept hst h
  next =>
    obtain rfl := Option.some.inj h
    exact ⟨.inl rfl, rfl, rfl, rfl, rfl, id, Iff.rfl⟩

/-! ### The answer -/

theorem setupContentOut_framing (env : ServerEnv) (resp : HttpResponse) :
    (resp.setupContentOut env).chunkedAutoencode = resp.chunkedAutoencode ∧
      (resp.setupContentOut env).cestate = resp.cestate := by
  unfold HttpResponse.setupContentOut
  split_ifs
  · exact ⟨rfl, rfl⟩
  · exact ⟨rfl, rfl⟩
  · exact ⟨rfl, rfl⟩
  · split <;> exact ⟨rfl, rfl⟩

/-- A response that will be encoded starts with a fresh encoder. -/
theorem complete_fresh (env : ServerEnv) (resp : HttpResponse) (req : HttpRequest)
    (h : (resp.complete env req).chunkedAutoencode = true) :
    (resp.complete env req).cestate = encodeChunkedInit := by
  unfold HttpResponse.complete at h ⊢
  dsimp only at h ⊢
  rw [(setupContentOut_framing env _).1] at h
  rw [(setupContentOut_framing env _).2]
  split_ifs at h ⊢ with hauto
  · rfl
  · exact absurd h hauto

/-- The pointer is moved to the headers unless the interim response is under way. -/
theorem startSendingResponse_ptr {env : ServerEnv} {hsp hsp' : Hsp} {resp : HttpResponse}
    (hst : hsp.state.CanStart) (h : hsp.startSendingResponse env resp = some hsp') :
    hsp'.respHeadersPtr =
      if hsp.req.sending100Continue then hsp.respHeadersPtr
      else (resp.complete env hsp.req).rawHeaders := by
  unfold HspState.CanStart at hst
  unfold Hsp.startSendingResponse at h
  rw [if_pos hst] at h
  by_cases hchunked : resp.chunkedAutoencode = true ∧ resp.contentLength ≠ -1
  · rw [if_pos hchunked] at h
    cases h
  · rw [if_neg hchunked] at h
    obtain rfl := Option.some.inj h
    dsimp only
    split_ifs <;> rfl

theorem WaitingStage.answer {env : ServerEnv} {hsp' : Hsp} (h : WaitingStage interim s)
    (hstart : s.hsp.startSendingResponse env resp = some hsp') :
    HeadersStage interim (resp.complete env s.hsp.req)
      { s with hsp := hsp', answer := s.answer.or hsp'.resp } := by
  rcases startSendingResponse_spec hstart with ⟨hst, hstarted⟩ | ⟨hnot, -⟩
  · have hptr := startSendingResponse_ptr hst hstart
    refine ⟨hstarted.state_eq, by simp [h.answer_eq, hstarted.resp_eq], hstarted.resp_eq, rfl,
      complete_fresh env resp s.hsp.req, ?_⟩
    rcases h.written with ⟨h100, hrest⟩ | ⟨h100, hreceived⟩
    · rw [if_pos h100] at hptr
      refine .inl ⟨?_, ?_⟩
      · show hsp'.req.sending100Continue = true
        rw [hstarted.req_eq, h100]
      · show ∃ c cs, hsp'.respHeadersPtr = some (c :: cs) ∧ s.os.received ++ c :: cs = interim
        rwa [hptr]
    · rw [if_neg (by simp [h100])] at hptr
      refine .inr ⟨?_, _, hptr, by rw [hreceived]; rfl⟩
      show hsp'.req.sending100Continue = false
      rw [hstarted.req_eq, h100]
  · exact absurd h.canStart hnot

/-- The handler answers, at whatever moment. -/
theorem ResponseOutput.Inv.answer {env : ServerEnv} {hsp' : Hsp} (h : s.Inv interim body)
    (hstart : s.hsp.startSendingResponse env resp = some hsp') :
    ResponseOutput.Inv interim body { s with hsp := hsp', answer := s.answer.or hsp'.resp } := by
  -- a second answer is refused
  have hrefused : s.hsp.state.Sending → s.answer.isSome →
      ({ s with hsp := hsp', answer := s.answer.or hsp'.resp } : ResponseOutput) = s := by
    intro hsending hanswered
    obtain ⟨resp', hresp'⟩ := Option.isSome_iff_exists.mp hanswered
    rcases startSendingResponse_spec hstart with ⟨hst, -⟩ | ⟨-, rfl⟩
    · exact absurd hsending hst.not_sending
    · rw [hresp', Option.some_or, ← hresp']
  rcases h with ⟨hquiet, hopen⟩ | hdone
  · cases hopen with
    | waiting hfirst h =>
      refine .inl ⟨?_, .headers hfirst (h.answer hstart)⟩
      rcases startSendingResponse_spec hstart with ⟨-, hstarted⟩ | ⟨hnot, -⟩
      · show HspMessage.requestComplete ∉ hsp'.eventsPub
        rw [hstarted.events_eq]
        exact hquiet
      · exact absurd h.canStart hnot
    | headers hfirst h =>
      rw [hrefused (.inl h.state_eq) (by simp [h.answer_eq])]
      exact .inl ⟨hquiet, .headers hfirst h⟩
    | body h =>
      rw [hrefused (.inr h.state_eq) (by simp [h.answer_eq])]
      exact .inl ⟨hquiet, .body h⟩
  · obtain ⟨resp', hresp', -⟩ := hdone.output
    rw [hrefused hdone.sending (by simp [hresp'])]
    exact .inr hdone

/-! ### The body -/

/-- A larger offer, and an announced end. -/
theorem HttpResponse.Progress.mono {wire : List UInt8} {accepted offered offered' : ℕ}
    {eof eof' : Bool} (h : resp.Progress body wire accepted offered eof)
    (hoffered : offered ≤ offered') (heof : eof = true → eof' = true) :
    resp.Progress body wire accepted offered' eof' := by
  unfold HttpResponse.Progress at h ⊢
  split_ifs at h ⊢
  · exact h.mono hoffered heof
  · exact h

/-- What a write of the body leads to. -/
theorem BodyStage.next {resp' : HttpResponse} {accepted outstanding : ℕ} {eof : Bool} {hsp' : Hsp}
    {os' : NextOs} (h : BodyStage interim body resp s)
    (hquiet : .requestComplete ∉ s.hsp.eventsPub) (hframing : resp.SameFraming resp')
    (hw : BodyWritten (interim ++ resp.rawHeaders.getD []) body resp' s.hsp accepted outstanding
      eof hsp' os') :
    ResponseOutput.Inv interim body
      { s with hsp := hsp', os := os', accepted, outstanding, eofSeen := eof } := by
  obtain ⟨hstate, hreq, resp₂, wire, hresp₂, hframing₂, hreceived, hprogress, hevents⟩ := hw
  have hsame := hframing.trans hframing₂
  rcases hevents with hsame_events | ⟨⟨hdataOut, hunpaired⟩, hall, hes⟩
  · refine .inl ⟨by rw [hsame_events]; exact hquiet, .body ⟨hstate.trans h.state_eq, h.answer_eq,
      ?_, h.length_ne, ?_, resp₂, wire, hresp₂, hsame, hreceived, hprogress⟩⟩
    · rw [hreq]
      exact h.no100
    · rw [hreq]
      exact h.noHead
  · refine .inr ⟨.inr (hstate.trans h.state_eq), hdataOut, hunpaired, resp, h.answer_eq, wire, ?_,
      hreceived⟩
    have hlen : resp₂.contentLength ≠ 0 := by
      rw [hsame]
      exact h.length_ne
    rw [← hsame.bodyWire]
    refine hprogress.bodyWire hlen ?_ hall hes
    rw [hreq]
    exact h.noHead

/-- Once the end has been announced it is announced with every offer. -/
theorem BodyCall.Valid.eof_eq {t : BodyTransfer} {c : BodyCall} (h : c.Valid body t) :
    (t.eofSeen || c.eof) = c.eof := by
  cases hseen : t.eofSeen with
  | false => rfl
  | true =>
    rw [h.eof_stays hseen]
    rfl

/-- The producer makes an offer while the body is being sent. -/
theorem BodyStage.write {c : BodyCall} {data : List UInt8} {os : NextOs}
    (h : BodyStage interim body resp s) (hc : c.Valid body s.toBodyTransfer)
    (hdata : data = (body.drop s.accepted).take c.size) (hos : os.received = s.os.received) :
    ∃ n hsp' os' resp', respBodyInWriteOrSendfile s.hsp (some os) data c.eof c.replies =
        some (n, hsp', some os') ∧ hsp'.bytesSent = s.hsp.bytesSent + n ∧
      resp.SameFraming resp' ∧
      BodyWritten (interim ++ resp.rawHeaders.getD []) body resp' s.hsp (s.accepted + n)
        (c.size - n) (s.eofSeen || c.eof) hsp' os' := by
  obtain ⟨resp', wire, hresp', hframing, hreceived, hprogress⟩ := h.written
  have hsize : data.length = c.size := by
    have := hc.in_body
    rw [hdata, List.length_take, List.length_drop]
    omega
  obtain ⟨n, hsp', os', hcall, hsent, hw⟩ := respBodyInWriteOrSendfile_written c.replies
    h.state_eq hresp' (hprogress.mono (hsize.symm ▸ hc.no_shrink) hc.eof_stays)
    (hos.trans hreceived) (by rw [hsize]; exact hdata) (by rw [hsize]; exact hc.in_body)
    (by rw [hsize]; exact hc.eof_at_end)
  rw [hsize] at hw
  refine ⟨n, hsp', os', resp', hcall, hsent, hframing, ?_⟩
  rw [hc.eof_eq]
  exact hw

/-- Before the body may be sent, an offer is refused. -/
theorem respBodyInWriteOrSendfile_refused {hsp : Hsp} (os : Option NextOs) (data : List UInt8)
    (eof : Bool) (replies : WriteReplies) (h : hsp.state ≠ .sendingBody) :
    respBodyInWriteOrSendfile hsp os data eof replies =
      some (0, { hsp with respBodyInReady := false, dataOutReady := true }, os) := by
  unfold respBodyInWriteOrSendfile
  rw [if_neg h]

/-- The producer writes on its own. -/
theorem ResponseOutput.Inv.produce {c : BodyCall} {t : BodyTransfer} (h : s.Inv interim body)
    (hpaired : s.hsp.respBodyInPaired = true) (hc : c.Valid body s.toBodyTransfer)
    (hcall : s.toBodyTransfer.call body c = some t) :
    ResponseOutput.Inv interim body { s with toBodyTransfer := t } := by
  obtain ⟨⟨n, hsp', nextOs⟩, hwrite, hret⟩ := Option.bind_eq_some_iff.mp hcall
  obtain ⟨os', hos', hret⟩ := Option.bind_eq_some_iff.mp hret
  obtain rfl := Option.some.inj hret
  dsimp only at hwrite hos'
  rcases h with ⟨hquiet, hopen⟩ | hdone
  · -- before the body nothing is taken
    have hrefused : s.hsp.state ≠ .sendingBody → n = 0 ∧ os'.received = s.os.received ∧
        OutputKept s.hsp hsp' := by
      intro hst
      rw [respBodyInWriteOrSendfile_refused _ _ _ _ hst] at hwrite
      obtain ⟨rfl, rfl, rfl⟩ := hwrite
      obtain rfl := Option.some.inj hos'
      refine ⟨rfl, rfl, .inl rfl, rfl, rfl, rfl, rfl, ?_, Iff.rfl⟩
      rintro ⟨-, hunpaired⟩
      rw [hpaired] at hunpaired
      cases hunpaired
    cases hopen with
    | waiting hfirst h =>
      have hst : s.hsp.state ≠ .sendingBody := fun heq => h.canStart.not_sending (.inr heq)
      obtain ⟨rfl, hreceived, hkept⟩ := hrefused hst
      exact .inl ⟨fun hmem => hquiet (hkept.complete_iff.mp hmem),
        .waiting hfirst (h.kept hkept rfl hreceived)⟩
    | headers hfirst h =>
      obtain ⟨rfl, hreceived, hkept⟩ := hrefused (by simp [h.state_eq])
      exact .inl ⟨fun hmem => hquiet (hkept.complete_iff.mp hmem),
        .headers hfirst (h.kept hkept rfl hreceived)⟩
    | body h =>
      obtain ⟨n₁, hsp₁, os₁, resp₁, hwrite₁, -, hframing, hw⟩ :=
        @BodyStage.write interim body _ s c _ { s.os with ready := c.osReady } h hc rfl rfl
      rw [hwrite] at hwrite₁
      obtain ⟨rfl, rfl, rfl⟩ := hwrite₁
      obtain rfl := Option.some.inj hos'
      exact h.next hquiet hframing hw
  · rw [hdone.unpaired] at hpaired
    cases hpaired

/-! ### `data_out_do_write` -/

/-- What a write of the interim response leads to: part of it is left, or the function returns
because nobody has answered, or the pointer is moved to the headers of the answer. -/
inductive InterimWritten (interim : List UInt8) (hsp : Hsp) : Bool × Hsp × NextOs → Prop
  | part {os' : NextOs} {c : UInt8} {cs : List UInt8} (heq : os'.received ++ c :: cs = interim) :
      InterimWritten interim hsp (false, { hsp with respHeadersPtr := some (c :: cs) }, os')
  | unanswered {os' : NextOs} {ptr : Option (List UInt8)} (hst : hsp.state ≠ .sendingHeaders)
      (heq : os'.received = interim) :
      InterimWritten interim hsp (false, { hsp with
        req.sending100Continue := false, respHeadersPtr := ptr, dataOutReady := false }, os')
  | answered {os' : NextOs} (hst : hsp.state = .sendingHeaders) (heq : os'.received = interim) :
      InterimWritten interim hsp (true, { hsp with
        req.sending100Continue := false
        respHeadersPtr := hsp.resp.bind HttpResponse.rawHeaders }, os')

theorem InterimPending.send {hsp : Hsp} {os : NextOs} (h : InterimPending interim hsp os.received)
    (reply : WriteReply) : InterimWritten interim hsp (hsp.send100Continue os reply) := by
  obtain ⟨c, cs, hptr, heq⟩ := h.rest
  obtain ⟨n, hn, hwrite⟩ := os.write_spec (c :: cs) reply
  unfold Hsp.send100Continue
  simp only [h.sending, hptr, hwrite]
  split_ifs with hall hst
  · refine .answered hst ?_
    show os.received ++ (c :: cs).take n = interim
    rw [hall, List.take_length, heq]
  · refine .unanswered hst ?_
    show os.received ++ (c :: cs).take n = interim
    rw [hall, List.take_length, heq]
  · cases hdrop : (c :: cs).drop n with
    | nil =>
      have hle := List.drop_eq_nil_iff.mp hdrop
      exact absurd (Nat.le_antisymm hn hle) hall
    | cons c' cs' =>
      refine .part ?_
      show os.received ++ (c :: cs).take n ++ c' :: cs' = interim
      rw [← hdrop, List.append_assoc, List.take_append_drop, heq]

/-- Without an interim response to send, the function goes on. -/
theorem send100Continue_idle {hsp : Hsp} (os : NextOs) (reply : WriteReply)
    (h : hsp.req.sending100Continue = false) : hsp.send100Continue os reply = (true, hsp, os) := by
  unfold Hsp.send100Continue
  simp only [h]

/-- The transfer after a write that started from another object with the same count. -/
theorem ResponseOutput.wrote_of {hsp hsp' : Hsp} {os os' : NextOs} (offer : Option BodyOffer)
    (h : hsp.bytesSent = s.hsp.bytesSent) :
    ResponseOutput.wrote { s with hsp, os } hsp' os' offer = s.wrote hsp' os' offer := by
  simp only [ResponseOutput.wrote, h]

/-- A write that takes nothing from the producer. -/
theorem OpenStage.wrote {offer : Option BodyOffer} {hsp' : Hsp} {os' : NextOs}
    (h : OpenStage interim body { s with hsp := hsp', os := os' })
    (hoffer : ∀ o ∈ offer, o.Offers body s.toBodyTransfer)
    (hsent : hsp'.bytesSent = s.hsp.bytesSent) :
    OpenStage interim body (s.wrote hsp' os' offer) := by
  have hzero : s.accepted + (hsp'.bytesSent - s.hsp.bytesSent) = s.accepted := by omega
  cases h with
  | waiting hfirst h =>
    exact .waiting (hzero.trans hfirst) ⟨h.canStart, h.answer_eq, h.written⟩
  | headers hfirst h =>
    exact .headers (hzero.trans hfirst)
      ⟨h.state_eq, h.answer_eq, h.resp_eq, h.prepared, h.fresh, h.written⟩
  | body h =>
    obtain ⟨resp', wire, hresp', hframing, hreceived, hprogress⟩ := h.written
    refine .body ⟨h.state_eq, h.answer_eq, h.no100, h.length_ne, h.noHead, resp', wire, hresp',
      hframing, hreceived, ?_⟩
    show resp'.Progress body wire (s.accepted + (hsp'.bytesSent - s.hsp.bytesSent)) _ _
    rw [hzero]
    refine hprogress.mono ?_ fun hseen => by simp [ResponseOutput.wrote, show s.eofSeen = true from hseen]
    cases offer with
    | none => exact le_rfl
    | some offer =>
      have hle := (hoffer offer rfl).valid.no_shrink
      simp only [ResponseOutput.wrote, Option.map_some, Option.getD_some]
      rw [show hsp'.bytesSent - s.hsp.bytesSent = 0 by omega]
      exact hle

/-- A producer that is not ready after its write is waited for. -/
theorem BodyWritten.unready {pre : List UInt8} {hsp hsp' : Hsp} {accepted outstanding : ℕ}
    {eof : Bool} {os' : NextOs}
    (h : BodyWritten pre body resp hsp accepted outstanding eof hsp' os') :
    BodyWritten pre body resp hsp accepted outstanding eof
      { hsp' with dataOutReady := false, respBodyInReady := true } os' := by
  obtain ⟨resp', wire, hresp', hframing, hreceived, hprogress, hevents⟩ := h.written
  refine ⟨h.state_eq, h.req_eq, resp', wire, hresp', hframing, hreceived, hprogress, ?_⟩
  rcases hevents with hevents | ⟨⟨-, hunpaired⟩, hrest⟩
  · exact .inl hevents
  · exact .inr ⟨⟨rfl, hunpaired⟩, hrest⟩

/-- The producer is asked to write. -/
theorem BodyStage.sendBody {offer : Option BodyOffer} {hsp' : Hsp} {os' : NextOs}
    (h : BodyStage interim body resp s) (hquiet : .requestComplete ∉ s.hsp.eventsPub)
    (hoffer : ∀ o ∈ offer, o.Offers body s.toBodyTransfer)
    (hcall : s.hsp.sendBody s.os offer = some (hsp', os')) :
    ResponseOutput.Inv interim body (s.wrote hsp' os' offer) := by
  -- nobody writes: only the readiness of the streams changes
  have hidle : ∀ hsp₁ : Hsp, hsp₁ = { s.hsp with
      dataOutReady := hsp₁.dataOutReady, respBodyInReady := hsp₁.respBodyInReady } →
      ResponseOutput.Inv interim body (s.wrote hsp₁ s.os offer) := by
    intro hsp₁ heq
    have hstage : BodyStage interim body resp { s with hsp := hsp₁, os := s.os } := by
      rw [heq]
      exact ⟨h.state_eq, h.answer_eq, h.no100, h.length_ne, h.noHead, h.written⟩
    refine .inl ⟨?_, OpenStage.wrote (.body hstage) hoffer (by rw [heq]; rfl)⟩
    show HspMessage.requestComplete ∉ hsp₁.eventsPub
    rw [heq]
    exact hquiet
  unfold Hsp.sendBody at hcall
  split_ifs at hcall with hpaired
  · cases offer with
    | none =>
      obtain ⟨rfl, rfl⟩ := hcall
      exact hidle _ rfl
    | some offer =>
      obtain ⟨hvalid, hdata⟩ := hoffer offer rfl
      obtain ⟨⟨n, hsp₁, os₁⟩, hwrite, hret⟩ := Option.bind_eq_some_iff.mp hcall
      obtain ⟨rfl, rfl⟩ := Prod.mk.inj (Option.some.inj hret)
      have hready : BodyStage interim body resp
          { s with hsp := { s.hsp with respBodyInReady := true } } :=
        ⟨h.state_eq, h.answer_eq, h.no100, h.length_ne, h.noHead, h.written⟩
      obtain ⟨n₂, hsp₂, os₂, resp₂, hwrite₂, hsent, hframing, hw⟩ :=
        @BodyStage.write interim body resp { s with hsp := { s.hsp with respBodyInReady := true } }
          offer.call offer.data s.os hready
          ⟨hvalid.in_body, hvalid.no_shrink, hvalid.eof_at_end, hvalid.eof_stays⟩ hdata rfl
      rw [show respBodyInWriteOrSendfile _ _ _ offer.call.eof offer.call.replies =
        respBodyInWriteOrSendfile _ _ _ offer.eof offer.replies from rfl, hwrite] at hwrite₂
      obtain ⟨rfl, rfl, rfl⟩ := hwrite₂
      set hsp₃ : Hsp := if offer.ready then hsp₁ else
        { hsp₁ with dataOutReady := false, respBodyInReady := true } with hhsp₃
      have hsent₃ : hsp₃.bytesSent - s.hsp.bytesSent = n := by
        have hsame : hsp₃.bytesSent = hsp₁.bytesSent := by
          rw [hhsp₃]
          split_ifs <;> rfl
        rw [hsame, hsent]
        exact Nat.add_sub_cancel_left _ _
      have hw₃ : BodyWritten (interim ++ resp.rawHeaders.getD []) body resp₂ s.hsp
          (s.accepted + n) (offer.data.length - n) (s.eofSeen || offer.eof) hsp₃ os₂ := by
        rw [hhsp₃]
        split_ifs
        · exact ⟨hw.state_eq, hw.req_eq, hw.written⟩
        · exact ⟨hw.unready.state_eq, hw.unready.req_eq, hw.unready.written⟩
      have hnext := h.next hquiet hframing hw₃
      simpa only [ResponseOutput.wrote, hsent₃, Option.map_some, Option.getD_some, Option.any_some]
        using hnext
  · obtain ⟨rfl, rfl⟩ := hcall
    exact hidle _ rfl

/-- What a write of the headers leads to. -/
theorem HeadersStage.sendHeaders (h : HeadersStage interim resp s)
    (h100 : s.hsp.req.sending100Continue = false) (reply : WriteReply) :
    ∃ sent os' ptr, s.hsp.sendHeaders s.os reply =
        (sent, { s.hsp with respHeadersPtr := ptr }, os') ∧
      (sent = false → HeadersStage interim resp
        { s with hsp := { s.hsp with respHeadersPtr := ptr }, os := os' }) ∧
      (sent = true → os'.received = interim ++ resp.rawHeaders.getD []) := by
  obtain ⟨rest, hptr, heq⟩ : ∃ rest, s.hsp.respHeadersPtr = some rest ∧
      s.os.received ++ rest = interim ++ resp.rawHeaders.getD [] := by
    rcases h.written with ⟨hsending, -⟩ | ⟨-, hrest⟩
    · simp [h100] at hsending
    · exact hrest
  cases rest with
  | nil =>
    refine ⟨true, s.os, s.hsp.respHeadersPtr, ?_, by simp, fun _ => by simpa using heq⟩
    unfold Hsp.sendHeaders
    simp only [hptr]
    rw [← hptr]
  | cons c cs =>
    obtain ⟨n, hn, hwrite⟩ := s.os.write_spec (c :: cs) reply
    by_cases hshort : n < (c :: cs).length
    · refine ⟨false, ⟨reply.ready, s.os.received ++ (c :: cs).take n⟩,
        some ((c :: cs).drop n), ?_, fun _ => ?_, by simp⟩
      · unfold Hsp.sendHeaders
        simp only [hptr, hwrite, if_pos hshort]
      · refine ⟨h.state_eq, h.answer_eq, h.resp_eq, h.prepared, h.fresh, .inr ⟨h100, _, rfl, ?_⟩⟩
        show s.os.received ++ (c :: cs).take n ++ (c :: cs).drop n = _
        rw [List.append_assoc, List.take_append_drop, heq]
    · have hall : n = (c :: cs).length := by omega
      refine ⟨true, ⟨reply.ready, s.os.received ++ (c :: cs).take n⟩, none, ?_, by simp,
        fun _ => ?_⟩
      · unfold Hsp.sendHeaders
        simp only [hptr, hwrite, if_neg hshort]
      · show s.os.received ++ (c :: cs).take n = _
        rw [hall, List.take_length, heq]

/-- The offer does not depend on the object or the ostream. -/
theorem BodyOffer.Offers.congr {t t' : BodyTransfer} {o : BodyOffer} (h : o.Offers body t)
    (haccepted : t'.accepted = t.accepted) (houtstanding : t'.outstanding = t.outstanding)
    (heof : t'.eofSeen = t.eofSeen) : o.Offers body t' := by
  obtain ⟨⟨hin, hshrink, hend, hstays⟩, hdata⟩ := h
  rw [← haccepted] at hin hend hdata
  rw [← houtstanding] at hshrink
  rw [← heof] at hstays
  exact ⟨⟨hin, hshrink, hend, hstays⟩, hdata⟩

/-- The headers have been written: the request is complete, or its body follows. -/
theorem HeadersStage.sent {offer : Option BodyOffer} {ptr : Option (List UInt8)} {hsp' : Hsp}
    {os₁ os' : NextOs} (h : HeadersStage interim resp s) (hfirst : s.accepted = 0)
    (hquiet : .requestComplete ∉ s.hsp.eventsPub)
    (h100 : s.hsp.req.sending100Continue = false)
    (hoffer : ∀ o ∈ offer, o.Offers body s.toBodyTransfer)
    (hreceived : os₁.received = interim ++ resp.rawHeaders.getD [])
    (hcall : (if resp.contentLength = 0 ∨ s.hsp.req.headMethod = true then
        pure (({ s.hsp with respHeadersPtr := ptr } : Hsp).requestComplete, os₁)
      else ({ s.hsp with respHeadersPtr := ptr, state := .sendingBody } : Hsp).sendBody os₁ offer) =
        some (hsp', os')) :
    ResponseOutput.Inv interim body (s.wrote hsp' os' offer) := by
  split_ifs at hcall with hnone
  · obtain ⟨rfl, rfl⟩ := hcall
    refine .inr ⟨.inl h.state_eq, rfl, rfl, resp, h.answer_eq, [], ?_, ?_⟩
    · show resp.BodyWire s.hsp.req.headMethod body []
      unfold HttpResponse.BodyWire
      rw [if_pos hnone]
    · rw [List.append_nil]
      exact hreceived
  · rw [not_or, Bool.not_eq_true] at hnone
    have hbody : BodyStage interim body resp { s with
        hsp := { s.hsp with respHeadersPtr := ptr, state := .sendingBody }, os := os₁ } := by
      refine ⟨rfl, h.answer_eq, h100, hnone.1, hnone.2, resp, [], h.resp_eq, rfl, ?_, ?_⟩
      · rw [List.append_nil]
        exact hreceived
      · show resp.Progress body [] s.accepted s.outstanding s.eofSeen
        rw [hfirst]
        exact resp.progress_init _ _ h.fresh
    exact hbody.sendBody hquiet (fun o ho => (hoffer o ho).congr rfl rfl rfl) hcall

/-- The response is written, when no interim response is under way. -/
theorem OpenStage.sendResponse {reply : WriteReply} {offer : Option BodyOffer} {hsp' : Hsp}
    {os' : NextOs} (h : OpenStage interim body s) (hquiet : .requestComplete ∉ s.hsp.eventsPub)
    (h100 : s.hsp.req.sending100Continue = false)
    (hoffer : ∀ o ∈ offer, o.Offers body s.toBodyTransfer)
    (hcall : s.hsp.sendResponse s.os reply offer = some (hsp', os')) :
    ResponseOutput.Inv interim body (s.wrote hsp' os' offer) := by
  unfold Hsp.sendResponse at hcall
  split at hcall
  next hst =>
    cases h with
    | waiting hfirst h => exact absurd (.inl hst) h.canStart.not_sending
    | @headers resp hfirst h =>
      obtain ⟨sent, os₁, ptr, hsend, hpart, hall⟩ := h.sendHeaders h100 reply
      rw [hsend] at hcall
      dsimp only at hcall
      cases sent with
      | false =>
        obtain ⟨rfl, rfl⟩ := hcall
        exact .inl ⟨hquiet, OpenStage.wrote (.headers hfirst (hpart rfl)) hoffer rfl⟩
      | true =>
        rw [if_neg (by simp)] at hcall
        obtain ⟨resp₁, hresp₁, hcall⟩ := Option.bind_eq_some_iff.mp hcall
        obtain rfl := Option.some.inj (h.resp_eq.symm.trans hresp₁)
        exact h.sent hfirst hquiet h100 hoffer (hall rfl) hcall
    | body h => simp [h.state_eq] at hst
  next hst =>
    cases h with
    | waiting hfirst h => exact absurd (.inr hst) h.canStart.not_sending
    | headers hfirst h => simp [h.state_eq] at hst
    | body h => exact h.sendBody hquiet hoffer hcall
  next hheaders hbody =>
    obtain ⟨rfl, rfl⟩ := hcall
    cases h with
    | waiting hfirst h =>
      have hkept : OutputKept s.hsp { s.hsp with dataOutReady := false } :=
        ⟨.inl rfl, rfl, rfl, rfl, rfl, fun hshut => ⟨rfl, hshut.2⟩, Iff.rfl⟩
      exact .inl ⟨hquiet, OpenStage.wrote ((OpenStage.waiting hfirst h).kept hkept rfl) hoffer rfl⟩
    | headers hfirst h => exact absurd h.state_eq hheaders
    | body h => exact absurd h.state_eq hbody

theorem send100Continue_resp (hsp : Hsp) (os : NextOs) (reply : WriteReply) :
    (hsp.send100Continue os reply).2.1.resp = hsp.resp := by
  unfold Hsp.send100Continue
  split
  · dsimp only
    split_ifs <;> rfl
  · rfl

/-- Writing the interim response keeps the stage, and if the function goes on there is nothing
left of it. -/
theorem OpenStage.send100Continue (h : OpenStage interim body s) (reply : WriteReply)
    {more : Bool} {hsp' : Hsp} {os' : NextOs}
    (hsend : s.hsp.send100Continue s.os reply = (more, hsp', os')) :
    OpenStage interim body { s with hsp := hsp', os := os' } ∧
      (more = true → hsp'.req.sending100Continue = false) := by
  have hidle : s.hsp.req.sending100Continue = false →
      OpenStage interim body { s with hsp := hsp', os := os' } ∧
        (more = true → hsp'.req.sending100Continue = false) := by
    intro h100
    rw [send100Continue_idle _ _ h100] at hsend
    obtain ⟨-, rfl, rfl⟩ := hsend
    exact ⟨h, fun _ => h100⟩
  cases h with
  | waiting hfirst hw =>
    rcases hw.written with hpending | ⟨h100, -⟩
    · have hwritten := hpending.send reply
      rw [hsend] at hwritten
      cases hwritten with
      | part heq =>
        exact ⟨.waiting hfirst ⟨hw.canStart, hw.answer_eq, .inl ⟨hpending.sending, _, _, rfl, heq⟩⟩,
          by simp⟩
      | unanswered hst heq =>
        exact ⟨.waiting hfirst ⟨hw.canStart, hw.answer_eq, .inr ⟨rfl, heq⟩⟩, by simp⟩
      | answered hst heq => exact absurd (.inl hst) hw.canStart.not_sending
    · exact hidle h100
  | @headers resp hfirst hh =>
    rcases hh.written with hpending | ⟨h100, -⟩
    · have hwritten := hpending.send reply
      rw [hsend] at hwritten
      cases hwritten with
      | part heq =>
        refine ⟨@OpenStage.headers _ _ _ resp hfirst ⟨hh.state_eq, hh.answer_eq, hh.resp_eq,
          hh.prepared, hh.fresh, .inl ⟨hpending.sending, _, _, rfl, heq⟩⟩, by simp⟩
      | unanswered hst heq => exact absurd hh.state_eq hst
      | answered hst heq =>
        obtain ⟨headers, hheaders⟩ := Option.isSome_iff_exists.mp hh.prepared
        refine ⟨@OpenStage.headers _ _ _ resp hfirst ⟨hh.state_eq, hh.answer_eq, hh.resp_eq,
          hh.prepared, hh.fresh, .inr ⟨rfl, headers, ?_, ?_⟩⟩, fun _ => rfl⟩
        · show s.hsp.resp.bind HttpResponse.rawHeaders = some headers
          rw [hh.resp_eq]
          exact hheaders
        · show os'.received ++ headers = interim ++ resp.rawHeaders.getD []
          rw [heq, hheaders]
          rfl
    · exact hidle h100
  | body hb => exact hidle hb.no100

/-- The event loop lets the connection write. -/
theorem ResponseOutput.Inv.doWrite {reply100 reply : WriteReply} {offer : Option BodyOffer}
    {hsp' : Hsp} {os' : NextOs} (h : s.Inv interim body) (hready : s.hsp.dataOutReady = true)
    (hoffer : ∀ o ∈ offer, o.Offers body s.toBodyTransfer)
    (hcall : s.hsp.dataOutDoWrite { s.os with ready := true } reply100 reply offer =
      some (hsp', os')) :
    ResponseOutput.Inv interim body (s.wrote hsp' os' offer) := by
  rcases h with ⟨hquiet, hopen⟩ | hdone
  · -- the readiness of the socket is not part of a stage
    have hsame : OutputKept s.hsp s.hsp :=
      ⟨.inl rfl, rfl, rfl, rfl, rfl, id, Iff.rfl⟩
    have hopen' : OpenStage interim body { s with hsp := s.hsp, os := { s.os with ready := true } } :=
      hopen.kept hsame rfl
    unfold Hsp.dataOutDoWrite at hcall
    cases hsend : s.hsp.send100Continue { s.os with ready := true } reply100 with
    | mk more r =>
      obtain ⟨hsp₁, os₁⟩ := r
      obtain ⟨hstage, hmore⟩ := hopen'.send100Continue reply100 hsend
      obtain ⟨-, hevents⟩ := send100Continue_sends s.hsp { s.os with ready := true } reply100
      have hresp : hsp₁.resp = s.hsp.resp := by
        have := send100Continue_resp s.hsp { s.os with ready := true } reply100
        rwa [hsend] at this
      have hsent : hsp₁.bytesSent = s.hsp.bytesSent := by
        unfold Hsp.bytesSent
        rw [hresp]
      rw [hsend] at hcall hevents
      have hquiet₁ : .requestComplete ∉ hsp₁.eventsPub := by
        rw [hevents]
        exact hquiet
      cases more with
      | false =>
        obtain ⟨rfl, rfl⟩ := hcall
        exact .inl ⟨hquiet₁, OpenStage.wrote hstage hoffer hsent⟩
      | true =>
        have htimer : OutputKept hsp₁ { hsp₁ with timerWrite := false }.setTimerWrite :=
          ⟨.inl rfl, rfl, rfl, rfl, rfl, id, Iff.rfl⟩
        have hinv := (hstage.kept htimer rfl).sendResponse hquiet₁ (hmore rfl)
          (fun o ho => (hoffer o ho).congr rfl rfl rfl) hcall
        have hwrote := @ResponseOutput.wrote_of s { hsp₁ with timerWrite := false }.setTimerWrite
          hsp' os₁ os' offer hsent
        exact hwrote ▸ hinv
  · rw [hdone.dataOut] at hready
    cases hready

/-! ### Runs -/

/-- Every event keeps the invariant. -/
theorem ResponseOutput.Inv.step {env : ServerEnv} {e : OutputEvent} (h : s.Inv interim body)
    (hstep : s.step env body e = some s') : s'.Inv interim body := by
  cases e with
  | answer resp =>
    obtain ⟨hsp', hstart, hret⟩ := Option.bind_eq_some_iff.mp hstep
    obtain rfl := Option.some.inj hret
    exact h.answer hstart
  | readBody sock size avail =>
    obtain ⟨r, hread, hret⟩ := Option.bind_eq_some_iff.mp hstep
    obtain rfl := Option.some.inj hret
    exact h.kept (reqBodyOutRead_kept hread)
  | doWrite reply100 reply offer =>
    obtain ⟨⟨hready, hoffer⟩, hcall⟩ := Option.ite_none_right_eq_some.mp hstep
    obtain ⟨⟨hsp', os'⟩, hwrite, hret⟩ := Option.bind_eq_some_iff.mp hcall
    obtain rfl := Option.some.inj hret
    exact h.doWrite hready hoffer hwrite
  | produce c =>
    obtain ⟨⟨hpaired, hvalid⟩, hcall⟩ := Option.ite_none_right_eq_some.mp hstep
    obtain ⟨t, hwrite, hret⟩ := Option.bind_eq_some_iff.mp hcall
    obtain rfl := Option.some.inj hret
    exact h.produce hpaired hvalid hwrite

/-- No event changes the method of the request. -/
theorem ResponseOutput.step_headMethod {env : ServerEnv} {e : OutputEvent}
    (hstep : s.step env body e = some s') : s'.hsp.req.headMethod = s.hsp.req.headMethod := by
  cases e with
  | answer resp =>
    obtain ⟨hsp', hstart, hret⟩ := Option.bind_eq_some_iff.mp hstep
    obtain rfl := Option.some.inj hret
    rcases startSendingResponse_spec hstart with ⟨-, hstarted⟩ | ⟨-, rfl⟩
    · show hsp'.req.headMethod = s.hsp.req.headMethod
      rw [hstarted.req_eq]
    · rfl
  | readBody sock size avail =>
    obtain ⟨r, hread, hret⟩ := Option.bind_eq_some_iff.mp hstep
    obtain rfl := Option.some.inj hret
    exact (reqBodyOutRead_kept hread).head_eq
  | doWrite reply100 reply offer =>
    obtain ⟨-, hcall⟩ := Option.ite_none_right_eq_some.mp hstep
    obtain ⟨⟨hsp', os'⟩, hwrite, hret⟩ := Option.bind_eq_some_iff.mp hcall
    obtain rfl := Option.some.inj hret
    show hsp'.req.headMethod = s.hsp.req.headMethod
    rw [(dataOutDoWrite_sends hwrite).req_eq]
  | produce c =>
    obtain ⟨-, hcall⟩ := Option.ite_none_right_eq_some.mp hstep
    obtain ⟨t, hwrite, hret⟩ := Option.bind_eq_some_iff.mp hcall
    obtain rfl := Option.some.inj hret
    obtain ⟨⟨n, hsp', nextOs⟩, hsend, hret⟩ := Option.bind_eq_some_iff.mp hwrite
    obtain ⟨os', -, hret⟩ := Option.bind_eq_some_iff.mp hret
    obtain rfl := Option.some.inj hret
    show hsp'.req.headMethod = s.hsp.req.headMethod
    rw [(respBodyInWriteOrSendfile_sends hsend).req_eq]

/-- The invariant holds when the headers have been read. -/
theorem OutputStart.inv {hsp : Hsp} (h : OutputStart interim hsp) :
    ResponseOutput.Inv interim body { hsp, os := ⟨true, []⟩ } := by
  cases h with
  | @received hsp head rest hidle =>
    have hfresh := requestReceived_fresh hsp head rest
    refine .inl ⟨?_, .waiting rfl ⟨?_, rfl, ?_⟩⟩
    · unfold Hsp.requestReceived
      split_ifs <;> simpa [Hsp.publish] using hidle
    · show (hsp.requestReceived head.request rest).state.CanStart
      rw [hfresh.state_eq]
      split_ifs
      · exact .inr (.inl rfl)
      · exact .inr (.inr rfl)
    · unfold interimResponse Hsp.requestReceived
      by_cases hinterim : rest = [] ∧ head.request.expect100Continue = true
      · refine .inl ?_
        simp only [if_pos hinterim]
        split_ifs <;> exact ⟨rfl, _, _, rfl, rfl⟩
      · refine .inr ?_
        simp only [if_neg hinterim]
        split_ifs <;> exact ⟨rfl, trivial⟩
  | refused hidle hstate h100 =>
    exact .inl ⟨hidle, .waiting rfl ⟨.inl hstate, rfl, .inr ⟨h100, rfl⟩⟩⟩

/-- Whatever the request and the answer are, however the writes are cut, and whenever the handler
answers: the bytes written for a request are the interim response that is due, the headers of the
answer and its body, and before the request is complete an initial part of that. -/
theorem responseOutput_framed (env : ServerEnv) (body : List UInt8) {interim : List UInt8}
    {hsp : Hsp} (hstart : OutputStart interim hsp) {es : List OutputEvent} {s : ResponseOutput}
    (hrun : run (ResponseOutput.step env body) { hsp, os := ⟨true, []⟩ } es = some s) :
    s.Framed interim hsp.req.headMethod body := by
  have hinv : s.Inv interim body ∧ s.hsp.req.headMethod = hsp.req.headMethod := by
    refine run_inv (I := fun s => s.Inv interim body ∧ s.hsp.req.headMethod = hsp.req.headMethod)
      (fun s e s' hs hs' => ?_) ⟨hstart.inv, rfl⟩ hrun
    exact ⟨hs.1.step hs', (ResponseOutput.step_headMethod hs').trans hs.2⟩
  rw [← hinv.2]
  exact hinv.1.framed

/-- A request that expects `100 Continue` is answered when five bytes of the interim response have
been written. -/
theorem responseOutput_framed_interrupted :
    let env : ServerEnv := ⟨[], fun _ => none, fun _ => -1, fun _ => []⟩
    let head : RequestHead := { contentLength := 1, expect := true }
    let resp : HttpResponse := {
      content := some (bytes "ok"), contentLength := 2, rawHeaders := some (bytes "H\r\n\r\n") }
    let full : WriteReply := ⟨100, true⟩
    let es : List OutputEvent := [
      .doWrite ⟨5, true⟩ full none, .answer resp,
      .doWrite full full (some ⟨bytes "ok", true, ⟨full, full, full⟩, true⟩)]
    ∃ s, run (ResponseOutput.step env (bytes "ok"))
        { hsp := Hsp.requestReceived {} head.request [], os := ⟨true, []⟩ } es = some s ∧
      .requestComplete ∈ s.hsp.eventsPub ∧
      s.Framed response100Continue false (bytes "ok") := by
  intro env head resp full es
  have hcomplete : (run (ResponseOutput.step env (bytes "ok"))
      { hsp := Hsp.requestReceived {} head.request [], os := ⟨true, []⟩ } es).any
      (fun s => .requestComplete ∈ s.hsp.eventsPub) = true := by decide +kernel
  obtain ⟨s, hrun, hdone⟩ := (Option.any_eq_true _ _).mp hcomplete
  refine ⟨s, hrun, of_decide_eq_true hdone, ?_⟩
  exact responseOutput_framed env (bytes "ok") (@OutputStart.received {} head [] (by decide)) hrun

end Nxweb
