import Nxweb.ServerProto.ResponseBody

/-!
# Writing the response

Model of `data_out_do_write` (`nxd_http_server_proto.c`), which the event loop calls while the
socket can be written: it sends the interim `100 Continue`, then the response headers, and then
lets the producer of the body write. The producer offers bytes to `resp_body_in_write_or_sendfile`
once, and is ready for more afterwards or not.

`Sends` collects what a write can change: the state moves from the headers to the body at most,
and the only message is that the request is complete, after which nothing is left to write
(`dataOutDoWrite_sends`, `respBodyInWriteOrSendfile_sends`).
-/

namespace Nxweb

/-- What the producer of the body offers when it is asked to write, how the ostream answers, and
whether the producer is still ready afterwards. -/
structure BodyOffer where
  data : List UInt8
  eof : Bool
  replies : WriteReplies
  ready : Bool
  deriving DecidableEq, Repr

/-- The interim response is written. The flag says that the function goes on. -/
def Hsp.send100Continue (hsp : Hsp) (os : NextOs) (reply : WriteReply) : Bool × Hsp × NextOs :=
  match hsp.req.sending100Continue, hsp.respHeadersPtr with
  | true, some (c :: cs) =>
    let (n, os) := os.write (c :: cs) reply
    let hsp := { hsp with respHeadersPtr := some ((c :: cs).drop n) }
    if n = (c :: cs).length then
      let hsp := { hsp with req.sending100Continue := false }
      if hsp.state = .sendingHeaders then
        (true, { hsp with respHeadersPtr := hsp.resp.bind HttpResponse.rawHeaders }, os)
      else (false, { hsp with dataOutReady := false }, os)
    else (false, hsp, os)
  | _, _ => (true, hsp, os)

/-- The rest of the headers is written. The flag says that nothing of them is left. -/
def Hsp.sendHeaders (hsp : Hsp) (os : NextOs) (reply : WriteReply) : Bool × Hsp × NextOs :=
  match hsp.respHeadersPtr with
  | some (c :: cs) =>
    let (n, os) := os.write (c :: cs) reply
    if n < (c :: cs).length then (false, { hsp with respHeadersPtr := some ((c :: cs).drop n) }, os)
    else (true, { hsp with respHeadersPtr := none }, os)
  | _ => (true, hsp, os)

/-- The producer of the body is asked to write; `none` if it is not ready. -/
def Hsp.sendBody (hsp : Hsp) (os : NextOs) (offer : Option BodyOffer) :
    Option (Hsp × NextOs) :=
  if hsp.respBodyInPaired then
    match offer with
    | some offer => do
      let (_, hsp, os') ← respBodyInWriteOrSendfile { hsp with respBodyInReady := true } (some os)
        offer.data offer.eof offer.replies
      let hsp :=
        if offer.ready then hsp else { hsp with dataOutReady := false, respBodyInReady := true }
      return (hsp, os'.getD os)
    | none => return ({ hsp with dataOutReady := false, respBodyInReady := true }, os)
  else return ({ hsp with dataOutReady := false }, os)

/-- The response is written: its headers, and then its body if it has one. -/
def Hsp.sendResponse (hsp : Hsp) (os : NextOs) (reply : WriteReply) (offer : Option BodyOffer) :
    Option (Hsp × NextOs) :=
  match hsp.state with
  | .sendingHeaders => do
    let (sent, hsp, os) := hsp.sendHeaders os reply
    if ¬ sent then return (hsp, os)
    let resp ← hsp.resp
    if resp.contentLength = 0 ∨ hsp.req.headMethod then return (hsp.requestComplete, os)
    { hsp with state := .sendingBody }.sendBody os offer
  | .sendingBody => hsp.sendBody os offer
  | _ => some ({ hsp with dataOutReady := false }, os)

/-- `data_out_do_write`; `none` if an assertion fails or a null pointer is followed. -/
def Hsp.dataOutDoWrite (hsp : Hsp) (os : NextOs) (reply100 reply : WriteReply)
    (offer : Option BodyOffer) : Option (Hsp × NextOs) :=
  match hsp.send100Continue os reply100 with
  | (true, hsp, os) =>
    { hsp with timerWrite := false }.setTimerWrite.sendResponse os reply offer
  | (false, hsp, os) => some (hsp, os)

/-! ### What a write changes -/

/-- A response is being sent. -/
def HspState.Sending (st : HspState) : Prop := st = .sendingHeaders ∨ st = .sendingBody

/-- The request is complete, and nothing is left to write. -/
structure Completes (hsp hsp' : Hsp) : Prop where
  events_eq : hsp'.eventsPub = hsp.eventsPub ++ [.requestComplete]
  sending : hsp'.state.Sending
  dataOut : hsp'.dataOutReady = false
  unpaired : hsp'.respBodyInPaired = false

/-- What a write leaves as it was. -/
structure Sends (hsp hsp' : Hsp) : Prop where
  req_eq : hsp'.req = { hsp.req with sending100Continue := hsp'.req.sending100Continue }
  chunk_eq : hsp'.firstBodyChunk = hsp.firstBodyChunk
  keepAlive_eq : hsp'.resp.map HttpResponse.keepAlive = hsp.resp.map HttpResponse.keepAlive
  state_eq : hsp'.state = hsp.state ∨ hsp.state.Sending ∧ hsp'.state.Sending
  events : hsp'.eventsPub = hsp.eventsPub ∨ Completes hsp hsp'

theorem Sends.of_eq {hsp hsp' : Hsp} (hreq : hsp'.req = hsp.req)
    (hchunk : hsp'.firstBodyChunk = hsp.firstBodyChunk) (hresp : hsp'.resp = hsp.resp)
    (hstate : hsp'.state = hsp.state) (hevents : hsp'.eventsPub = hsp.eventsPub) :
    Sends hsp hsp' :=
  ⟨by rw [hreq], hchunk, by rw [hresp], .inl hstate, .inl hevents⟩

/-- A step in front of a write that keeps the messages. -/
theorem Sends.trans {hsp₁ hsp₂ hsp₃ : Hsp} (h₁ : Sends hsp₁ hsp₂)
    (hquiet : hsp₂.eventsPub = hsp₁.eventsPub) (h₂ : Sends hsp₂ hsp₃) : Sends hsp₁ hsp₃ where
  req_eq := by rw [h₂.req_eq, h₁.req_eq]
  chunk_eq := h₂.chunk_eq.trans h₁.chunk_eq
  keepAlive_eq := h₂.keepAlive_eq.trans h₁.keepAlive_eq
  state_eq := by
    rcases h₁.state_eq, h₂.state_eq with ⟨h | ⟨ha, hb⟩, h' | ⟨hc, hd⟩⟩
    · exact .inl (h'.trans h)
    · exact .inr ⟨h ▸ hc, hd⟩
    · exact .inr ⟨ha, h' ▸ hb⟩
    · exact .inr ⟨ha, hd⟩
  events := h₂.events.imp (·.trans hquiet) fun h =>
    ⟨h.events_eq.trans (by rw [hquiet]), h.sending, h.dataOut, h.unpaired⟩

theorem writeBody_keepAlive {resp resp' : HttpResponse} {os os' : NextOs} {data : List UInt8}
    {eof : Bool} {replies : WriteReplies} {n : ℕ}
    (h : resp.writeBody os data eof replies = some (n, resp', os')) :
    resp'.keepAlive = resp.keepAlive := by
  unfold HttpResponse.writeBody at h
  split_ifs at h
  · obtain ⟨⟨k, es, os₁⟩, -, heq⟩ := Option.map_eq_some_iff.mp h
    obtain ⟨-, rfl, -⟩ := heq
    rfl
  · obtain ⟨-, rfl, -⟩ := h
    rfl

/-- Passing bytes on changes the record of the response and tells the streams to wait. -/
theorem passOn_spec {hsp hsp' : Hsp} {resp resp' : HttpResponse} {os os' : Option NextOs}
    {data : List UInt8} {eof : Bool} {replies : WriteReplies} {n : ℕ}
    (h : hsp.passOn resp os data eof replies = some (n, resp', hsp', os')) :
    resp'.keepAlive = resp.keepAlive ∧ hsp' = { hsp with
      dataOutReady := hsp'.dataOutReady, respBodyInReady := hsp'.respBodyInReady } := by
  unfold Hsp.passOn at h
  split_ifs at h
  · cases os with
    | none =>
      obtain ⟨-, rfl, rfl, -⟩ := h
      exact ⟨rfl, rfl⟩
    | some os =>
      obtain ⟨⟨k, resp₁, os₁⟩, hwrite, heq⟩ := Option.map_eq_some_iff.mp h
      obtain ⟨-, rfl, rfl, -⟩ := heq
      refine ⟨?_, by split_ifs <;> rfl⟩
      split_ifs at hwrite
      · exact writeBody_keepAlive hwrite
      · obtain ⟨-, rfl, -⟩ := hwrite
        rfl
  · obtain ⟨-, rfl, rfl, -⟩ := h
    exact ⟨rfl, rfl⟩

/-- A producer writes part of the body, or its end. -/
theorem respBodyInWriteOrSendfile_sends {hsp hsp' : Hsp} {os os' : Option NextOs}
    {data : List UInt8} {eof : Bool} {replies : WriteReplies} {n : ℕ}
    (h : respBodyInWriteOrSendfile hsp os data eof replies = some (n, hsp', os')) :
    Sends hsp hsp' := by
  unfold respBodyInWriteOrSendfile at h
  split_ifs at h with hst
  · obtain ⟨resp, hresp, h⟩ := Option.bind_eq_some_iff.mp h
    obtain ⟨⟨sent, resp₁, hsp₁, os₁⟩, hpass, h⟩ := Option.bind_eq_some_iff.mp h
    obtain ⟨hka, hhsp⟩ := passOn_spec hpass
    dsimp only at h
    have hkeep : some resp₁.keepAlive = hsp.resp.map HttpResponse.keepAlive := by
      rw [hresp, hka]
      rfl
    split_ifs at h
    · obtain ⟨-, rfl, -⟩ := h
      rw [hhsp]
      exact ⟨rfl, rfl, hkeep, .inl rfl, .inr ⟨rfl, .inr hst, rfl, rfl⟩⟩
    · obtain ⟨-, rfl, -⟩ := h
      rw [hhsp]
      exact ⟨rfl, rfl, hkeep, .inl rfl, .inl rfl⟩
  · obtain ⟨-, rfl, -⟩ := h
    exact .of_eq rfl rfl rfl rfl rfl

theorem sendBody_sends {hsp hsp' : Hsp} {os os' : NextOs} {offer : Option BodyOffer}
    (h : hsp.sendBody os offer = some (hsp', os')) : Sends hsp hsp' := by
  unfold Hsp.sendBody at h
  split_ifs at h
  · cases offer with
    | none =>
      obtain ⟨rfl, -⟩ := h
      exact .of_eq rfl rfl rfl rfl rfl
    | some offer =>
      obtain ⟨⟨n, hsp₁, os₁⟩, hwrite, hret⟩ := Option.bind_eq_some_iff.mp h
      obtain ⟨rfl, -⟩ := hret
      obtain ⟨hreq, hchunk, hkeep, hstate, hevents⟩ := respBodyInWriteOrSendfile_sends hwrite
      split_ifs
      · refine ⟨hreq, hchunk, hkeep, hstate, hevents.imp id fun hdone => ?_⟩
        exact ⟨hdone.events_eq, hdone.sending, hdone.dataOut, hdone.unpaired⟩
      · refine ⟨hreq, hchunk, hkeep, hstate, hevents.imp id fun hdone => ?_⟩
        exact ⟨hdone.events_eq, hdone.sending, rfl, hdone.unpaired⟩
  · obtain ⟨rfl, -⟩ := h
    exact .of_eq rfl rfl rfl rfl rfl

theorem send100Continue_sends (hsp : Hsp) (os : NextOs) (reply : WriteReply) :
    Sends hsp (hsp.send100Continue os reply).2.1 ∧
      (hsp.send100Continue os reply).2.1.eventsPub = hsp.eventsPub := by
  unfold Hsp.send100Continue
  split
  · dsimp only
    split_ifs <;> exact ⟨⟨rfl, rfl, rfl, .inl rfl, .inl rfl⟩, rfl⟩
  · exact ⟨.of_eq rfl rfl rfl rfl rfl, rfl⟩

theorem sendHeaders_sends (hsp : Hsp) (os : NextOs) (reply : WriteReply) :
    Sends hsp (hsp.sendHeaders os reply).2.1 ∧
      (hsp.sendHeaders os reply).2.1.eventsPub = hsp.eventsPub ∧
      (hsp.sendHeaders os reply).2.1.state = hsp.state := by
  unfold Hsp.sendHeaders
  split
  · dsimp only
    split_ifs <;> exact ⟨.of_eq rfl rfl rfl rfl rfl, rfl, rfl⟩
  · exact ⟨.of_eq rfl rfl rfl rfl rfl, rfl, rfl⟩

theorem sendResponse_sends {hsp hsp' : Hsp} {os os' : NextOs} {reply : WriteReply}
    {offer : Option BodyOffer} (h : hsp.sendResponse os reply offer = some (hsp', os')) :
    Sends hsp hsp' := by
  unfold Hsp.sendResponse at h
  split at h
  next hheaders =>
    obtain ⟨hsent, hquiet, hstate⟩ := sendHeaders_sends hsp os reply
    generalize hsp.sendHeaders os reply = rh at h hsent hquiet hstate
    obtain ⟨sent, hsp₁, os₁⟩ := rh
    dsimp only at h hsent hquiet hstate
    cases sent with
    | false =>
      obtain ⟨rfl, -⟩ := h
      exact hsent
    | true =>
      rw [if_neg (by simp)] at h
      obtain ⟨resp, -, h⟩ := Option.bind_eq_some_iff.mp h
      refine hsent.trans hquiet ?_
      have hsending : hsp₁.state.Sending := .inl (hstate.trans hheaders)
      split_ifs at h
      · obtain ⟨rfl, -⟩ := h
        exact ⟨rfl, rfl, rfl, .inl rfl, .inr ⟨rfl, hsending, rfl, rfl⟩⟩
      · have hbody : Sends hsp₁ { hsp₁ with state := .sendingBody } :=
          ⟨rfl, rfl, rfl, .inr ⟨hsending, .inr rfl⟩, .inl rfl⟩
        exact hbody.trans rfl (sendBody_sends h)
  next => exact sendBody_sends h
  next =>
    obtain ⟨rfl, -⟩ := h
    exact .of_eq rfl rfl rfl rfl rfl

/-- The event loop lets the connection write. -/
theorem dataOutDoWrite_sends {hsp hsp' : Hsp} {os os' : NextOs} {reply100 reply : WriteReply}
    {offer : Option BodyOffer} (h : hsp.dataOutDoWrite os reply100 reply offer = some (hsp', os')) :
    Sends hsp hsp' := by
  unfold Hsp.dataOutDoWrite at h
  obtain ⟨h100, hquiet⟩ := send100Continue_sends hsp os reply100
  generalize hsp.send100Continue os reply100 = r100 at h h100 hquiet
  obtain ⟨more, hsp₁, os₁⟩ := r100
  dsimp only at h100 hquiet
  cases more with
  | false =>
    obtain ⟨rfl, -⟩ := h
    exact h100
  | true =>
    have htimer : Sends hsp₁ { hsp₁ with timerWrite := false }.setTimerWrite :=
      .of_eq rfl rfl rfl rfl rfl
    exact h100.trans hquiet (htimer.trans rfl (sendResponse_sends h))

end Nxweb
