import Nxweb.Server.Connection
import Nxweb.Server.BodyConsumed

/-!
# The body of the current request, along a connection

`Connection.Inv` is what a connection keeps: while a body is received, the request record has
followed what was taken; afterwards the body is consumed unless the response closes the
connection; and the message that a request is complete is the last one, with nothing left to
write.

A transition is taken apart into stages. Each of them changes only the response record and the
streams of the request body (`Quiet`), or starts the response (`Starts`). A response may be started
if no body is pending or if it closes the connection (`Connection.Inv.stage_start`); the places in
the server that refuse a request before its body do the latter.
-/

namespace Nxweb

/-! ### The invariant -/

/-- How far the body of the current request is. -/
def Connection.Synced (c : Connection) : Prop :=
  match c.hsp.state with
  | .waitingForRequest | .receivingHeaders => c.hsp.req.contentLength = 0
  | .receivingBody => Followed c.hsp c.taken
  | .handling => Consumed c.hsp.req c.taken
  | .sendingHeaders | .sendingBody => c.hsp.rearms = true → Consumed c.hsp.req c.taken

/-- The last message says that the request is complete, and nothing is left to write. -/
structure Hsp.Done (hsp : Hsp) : Prop where
  sending : hsp.state.Sending
  dataOut : hsp.dataOutReady = false
  unpaired : hsp.respBodyInPaired = false
  last : ∃ msgs, hsp.eventsPub = msgs ++ [.requestComplete] ∧ .requestComplete ∉ msgs

structure Connection.Inv (c : Connection) : Prop where
  sync : c.Synced
  received : .requestBodyReceived ∈ c.hsp.eventsPub → c.hsp.state = .handling ∨ c.hsp.state.Sending
  complete : .requestComplete ∈ c.hsp.eventsPub → c.hsp.Done

theorem Connection.Synced.of_sending {c : Connection} (h : c.Synced) (hst : c.hsp.state.Sending) :
    c.hsp.rearms = true → Consumed c.hsp.req c.taken := by
  unfold Connection.Synced at h
  rcases hst with hst | hst <;> rw [hst] at h <;> exact h

theorem Connection.synced_of_sending {c : Connection} (hst : c.hsp.state.Sending)
    (h : c.hsp.rearms = true → Consumed c.hsp.req c.taken) : c.Synced := by
  unfold Connection.Synced
  rcases hst with hst | hst <;> rw [hst] <;> exact h

/-- A body that is not being received is consumed, or the response closes the connection. -/
theorem Connection.Synced.consumed {c : Connection} (h : c.Synced)
    (hst : c.hsp.state ≠ .receivingBody) (hopen : c.hsp.state.Sending → c.hsp.rearms = true) :
    Consumed c.hsp.req c.taken := by
  by_cases hsend : c.hsp.state.Sending
  · exact h.of_sending hsend (hopen hsend)
  · unfold Connection.Synced at h
    cases hs : c.hsp.state <;> rw [hs] at h
    case receivingBody => exact absurd hs hst
    case handling => exact h
    case sendingHeaders => exact absurd (.inl hs) hsend
    case sendingBody => exact absurd (.inr hs) hsend
    all_goals exact consumed_of_length_zero h c.taken

/-- A transition that only touches the response record, the mode of the decoder and the streams of
the request body. -/
structure Quiet (c c' : Connection) : Prop where
  req : SameBody c.hsp.req c'.hsp.req
  chunk_eq : c'.hsp.firstBodyChunk = c.hsp.firstBodyChunk
  taken_eq : c'.taken = c.taken
  events_eq : c'.hsp.eventsPub = c.hsp.eventsPub
  state_eq : c'.hsp.state = c.hsp.state
  dataOut_eq : c'.hsp.dataOutReady = c.hsp.dataOutReady
  paired_eq : c'.hsp.respBodyInPaired = c.hsp.respBodyInPaired
  rearms : c'.hsp.rearms = true → c.hsp.rearms = true

theorem Connection.Inv.quiet {c c' : Connection} (hinv : c.Inv) (h : Quiet c c') : c'.Inv where
  sync := by
    have hsync := hinv.sync
    unfold Connection.Synced at hsync ⊢
    rw [h.state_eq, h.taken_eq]
    cases hs : c.hsp.state <;> rw [hs] at hsync
    case receivingBody => exact hsync.congr h.req h.chunk_eq
    case handling => exact hsync.congr h.req.chunkedEncoding_eq h.req.contentLength_eq
    case sendingHeaders | sendingBody =>
      intro hr
      exact (hsync (h.rearms hr)).congr h.req.chunkedEncoding_eq h.req.contentLength_eq
    all_goals exact h.req.contentLength_eq.trans hsync
  received := by
    rw [h.events_eq, h.state_eq]
    exact hinv.received
  complete := by
    rw [h.events_eq]
    intro hmem
    obtain ⟨hsend, hout, hpair, msgs, hmsgs, hnot⟩ := hinv.complete hmem
    exact ⟨by rw [h.state_eq]; exact hsend, by rw [h.dataOut_eq]; exact hout,
      by rw [h.paired_eq]; exact hpair, msgs, by rw [h.events_eq]; exact hmsgs, hnot⟩

/-- A response with the record `resp` is started. -/
structure Starts (c c' : Connection) (resp : HttpResponse) : Prop where
  req_eq : c'.hsp.req = c.hsp.req
  taken_eq : c'.taken = c.taken
  events_eq : c'.hsp.eventsPub = c.hsp.eventsPub
  before : ¬ c.hsp.state.Sending
  after : c'.hsp.state = .sendingHeaders
  rearms : c'.hsp.rearms = true → resp.keepAlive = true

theorem Connection.Inv.start {c c' : Connection} {resp : HttpResponse} (hinv : c.Inv)
    (h : Starts c c' resp)
    (hbody : c.hsp.state = .receivingBody → resp.keepAlive = true →
      Consumed c.hsp.req c.taken) : c'.Inv where
  sync := by
    refine Connection.synced_of_sending (.inl h.after) fun hr => ?_
    rw [h.req_eq, h.taken_eq]
    by_cases hst : c.hsp.state = .receivingBody
    · exact hbody hst (h.rearms hr)
    · exact hinv.sync.consumed hst fun hsend => absurd hsend h.before
  received := fun _ => .inr (.inl h.after)
  complete := fun hmem => absurd (hinv.complete (h.events_eq ▸ hmem)).sending h.before

/-! ### Starting a response -/

/-- The response record is replaced. -/
theorem quiet_setResp {c : Connection} {resp : HttpResponse}
    (h : resp.keepAlive = true → c.hsp.rearms = true) :
    Quiet c { c with hsp.resp := some resp } :=
  ⟨.refl _, rfl, rfl, rfl, rfl, rfl, rfl, h⟩

/-- The protocol starts the response, or refuses it because of its state. -/
theorem startProtocol_cases {env : ServerEnv} {c c' : Connection} {resp : HttpResponse}
    (hka : resp.keepAlive = true → c.hsp.rearms = true)
    (h : c.startProtocol env resp = some c') : Starts c c' resp ∨ Quiet c c' := by
  obtain ⟨hsp, hstart, rfl⟩ := Option.map_eq_some_iff.mp h
  rcases startSendingResponse_spec hstart with ⟨hst, hstate, hreq, hevents, hresp⟩ | ⟨-, rfl⟩
  · refine .inl ⟨hreq, rfl, hevents, ?_, hstate, fun hr => ?_⟩
    · rintro (hs | hs) <;> simp [HspState.CanStart, hs] at hst
    · rw [rearms_of_resp hresp, complete_keepAlive] at hr
      exact hr
  · exact .inr (quiet_setResp hka)

theorem startSendingResponse_cases {env : ServerEnv} {c c' : Connection} {resp : HttpResponse}
    (hka : resp.keepAlive = true → c.hsp.rearms = true)
    (h : c.startSendingResponse env resp = some c') : Starts c c' resp ∨ Quiet c c' := by
  have hsetup := setupContentOut_keepAlive env resp
  unfold Connection.startSendingResponse at h
  dsimp only at h
  generalize resp.setupContentOut env = resp' at h hsetup
  rw [← hsetup] at hka
  have hfinish : ∀ resp'', (resp''.keepAlive = true → resp'.keepAlive = true) →
      c.startProtocol env resp'' = some c' → Starts c c' resp ∨ Quiet c c' := by
    intro resp'' hmono hstart
    refine (startProtocol_cases (fun hk => hka (hmono hk)) hstart).imp (fun hs => ?_) id
    exact { hs with rearms := fun hr => hsetup ▸ hmono (hs.rearms hr) }
  split at h
  next hd _ =>
    have hmono := hd.filters.update.keepAlive_of resp'
    split_ifs at h
    · obtain rfl := Option.some.inj h
      exact .inr (quiet_setResp fun hk => hka (hmono hk))
    · exact hfinish _ hmono h
  next => exact hfinish resp' id h

/-- A part of a transition that keeps the invariant and the announced length, and does not go back
to the body. -/
structure Stage (c c' : Connection) : Prop where
  inv : c'.Inv
  length_eq : c'.hsp.req.contentLength = c.hsp.req.contentLength
  receiving : c'.hsp.state = .receivingBody → c.hsp.state = .receivingBody

theorem Stage.trans {c₁ c₂ c₃ : Connection} (h₁ : Stage c₁ c₂) (h₂ : Stage c₂ c₃) : Stage c₁ c₃ :=
  ⟨h₂.inv, h₂.length_eq.trans h₁.length_eq, fun h => h₁.receiving (h₂.receiving h)⟩

theorem Connection.Inv.stage {c c' : Connection} (hinv : c.Inv) (h : Quiet c c') : Stage c c' :=
  ⟨hinv.quiet h, h.req.contentLength_eq, fun hst => h.state_eq ▸ hst⟩

/-- A response may be started if it closes the connection or no body is pending. -/
theorem Connection.Inv.stage_start {env : ServerEnv} {c c' : Connection} {resp : HttpResponse}
    (hinv : c.Inv) (hka : resp.keepAlive = true → c.hsp.rearms = true)
    (hsafe : resp.keepAlive = true →
      c.hsp.req.contentLength = 0 ∨ c.hsp.state ≠ .receivingBody)
    (h : c.startSendingResponse env resp = some c') : Stage c c' := by
  rcases startSendingResponse_cases hka h with hstart | hquiet
  · refine ⟨hinv.start hstart fun hst hk => ?_, by rw [hstart.req_eq], by simp [hstart.after]⟩
    exact consumed_of_length_zero ((hsafe hk).resolve_right (not_not.mpr hst)) c.taken
  · exact hinv.stage hquiet

/-- A callback that starts the response clears `keep_alive`. -/
def CallbackRun.Closes (r : CallbackRun) : Prop :=
  r.starts = true → ∀ resp, (r.update.apply resp).keepAlive = false

theorem Connection.Inv.stage_callback {env : ServerEnv} {c c' : Connection} {r : CallbackRun}
    (hinv : c.Inv)
    (hsafe : r.Closes ∨ c.hsp.req.contentLength = 0 ∨ c.hsp.state ≠ .receivingBody)
    (h : c.runCallback env r = some c') : Stage c c' := by
  obtain ⟨resp, hresp, h⟩ := Option.bind_eq_some_iff.mp h
  have hka : (r.update.apply resp).keepAlive = true → c.hsp.rearms = true := fun hk =>
    (rearms_of_resp hresp).trans (r.update.keepAlive_of resp hk)
  by_cases hstarts : r.starts = true
  · rw [if_pos hstarts] at h
    refine hinv.stage_start hka (fun hk => hsafe.resolve_left fun hclose => ?_) h
    simp [hclose hstarts resp] at hk
  · rw [if_neg hstarts] at h
    obtain rfl := Option.some.inj h
    exact hinv.stage (quiet_setResp hka)

theorem closeIfBody_keepAlive {resp : HttpResponse} {req : HttpRequest}
    (h : (resp.closeIfBody req).keepAlive = true) :
    resp.keepAlive = true ∧ req.contentLength = 0 := by
  unfold HttpResponse.closeIfBody at h
  by_cases hlen : req.contentLength = 0
  · rw [if_neg (not_not.mpr hlen)] at h
    exact ⟨h, hlen⟩
  · rw [if_pos hlen] at h
    cases h

/-! ### A request has been received -/

/-- The callbacks that run while a body is pending do not start a response that keeps the
connection open. -/
structure Callbacks.Close (cb : Callbacks) : Prop where
  select : cb.select.Closes
  onHeaders : cb.onHeaders.Closes
  onPostData : cb.onPostData.Closes

theorem Connection.Inv.stage_dispatch {env : ServerEnv} {c c' : Connection} {cb : Callbacks}
    (hinv : c.Inv) (hclose : c.hsp.req.contentLength ≠ 0 → cb.Close)
    (h : c.dispatch env cb = some c') : Stage c c' := by
  unfold Connection.dispatch at h
  split_ifs at h
  · obtain ⟨resp, hresp, h⟩ := Option.bind_eq_some_iff.mp h
    obtain ⟨c₁, hstart, hret⟩ := Option.bind_eq_some_iff.mp h
    obtain rfl := Option.some.inj hret
    have hunset : ({ c with handler := none } : Connection).Inv :=
      ⟨hinv.sync, hinv.received, hinv.complete⟩
    obtain ⟨hinv₁, hlen, hst⟩ := hunset.stage_start
      (fun hk => (rearms_of_resp hresp).trans
        (cb.select.update.keepAlive_of resp (closeIfBody_keepAlive hk).1))
      (fun hk => .inl (closeIfBody_keepAlive hk).2) hstart
    exact ⟨⟨hinv₁.sync, hinv₁.received, hinv₁.complete⟩, hlen, hst⟩
  · have hset : ({ c with handler := some cb.handler } : Connection).Inv :=
      ⟨hinv.sync, hinv.received, hinv.complete⟩
    have hsafe : cb.select.Closes ∨ c.hsp.req.contentLength = 0 ∨ c.hsp.state ≠ .receivingBody := by
      by_cases hlen : c.hsp.req.contentLength = 0
      · exact .inr (.inl hlen)
      · exact .inl (hclose hlen).select
    obtain ⟨hinv', hlen, hst⟩ := hset.stage_callback hsafe h
    exact ⟨hinv', hlen, hst⟩

/-- Connecting the body of a proxied request. -/
theorem quiet_connectProxyBody {c c' : Connection} (h : Quiet c c') :
    Quiet c { c' with hsp := c'.hsp.connectProxyBody } := by
  unfold Hsp.connectProxyBody
  split_ifs
  · obtain ⟨⟨hch, hlen, hcount, hdone, mode, hcd⟩, hchunk, htaken, hev, hst, hout, hpair, hr⟩ := h
    exact ⟨⟨hch, hlen, hcount, hdone, true, by rw [hcd]; rfl⟩, hchunk, htaken, hev, hst, hout, hpair,
      hr⟩
  · exact h

theorem startProxyRequest_keepAlive (env : ProxyEnv) (p : ProxyRequest) (connects : Bool) :
    (startProxyRequest env p connects).2.resp.keepAlive = p.resp.keepAlive := by
  unfold startProxyRequest
  split_ifs <;> rfl

theorem Connection.Inv.stage_beginProxy {env : ServerEnv} {c c' : Connection} {cb : Callbacks}
    {ok : Bool} (hinv : c.Inv) (h : c.beginProxy env cb = some (ok, c')) : Stage c c' := by
  obtain ⟨resp, hresp, h⟩ := Option.bind_eq_some_iff.mp h
  have hka := rearms_of_resp hresp
  have hkeep := startProxyRequest_keepAlive env.proxyEnv
    { resp, pool := cb.pool, hspState := c.hsp.state } cb.connects
  generalize startProxyRequest env.proxyEnv { resp, pool := cb.pool, hspState := c.hsp.state }
    cb.connects = started at h hkeep
  have hset : Quiet c { c with proxy := some started.2, hsp.resp := some started.2.resp } :=
    ⟨.refl _, rfl, rfl, rfl, rfl, rfl, rfl, fun hk => hka.trans (hkeep ▸ hk)⟩
  split at h
  · obtain ⟨-, rfl⟩ := Prod.mk.inj (Option.some.inj h)
    exact hinv.stage (quiet_connectProxyBody hset)
  · obtain ⟨-, rfl⟩ := Prod.mk.inj (Option.some.inj h)
    exact hinv.stage hset

theorem Connection.Inv.stage_onHeaders {env : ServerEnv} {c c' : Connection} {cb : Callbacks}
    {ok : Bool} (hinv : c.Inv) (hclose : c.hsp.req.contentLength ≠ 0 → cb.Close)
    (h : c.onHeaders env cb = some (ok, c')) : Stage c c' := by
  unfold Connection.onHeaders at h
  split_ifs at h
  · exact hinv.stage_beginProxy h
  · obtain ⟨c₁, hcall, heq⟩ := Option.map_eq_some_iff.mp h
    obtain ⟨-, rfl⟩ := Prod.mk.inj heq
    refine hinv.stage_callback ?_ hcall
    by_cases hlen : c.hsp.req.contentLength = 0
    · exact .inr (.inl hlen)
    · exact .inl (hclose hlen).onHeaders

/-- The handler may answer when the whole request is there. -/
theorem Connection.Inv.stage_invoke {env : ServerEnv} {c c' : Connection} {run : RequestRun}
    (hinv : c.Inv) (hsafe : c.hsp.req.contentLength = 0 ∨ c.hsp.state ≠ .receivingBody)
    (h : c.invokeRequestHandler env run = some c') : Stage c c' := by
  cases run with
  | answer update =>
    obtain ⟨resp, hresp, h⟩ := Option.bind_eq_some_iff.mp h
    exact hinv.stage_start
      (fun hk => (rearms_of_resp hresp).trans (update.keepAlive_of resp hk)) (fun _ => hsafe) h
  | noWorker =>
    obtain ⟨resp, hresp, h⟩ := Option.bind_eq_some_iff.mp h
    refine hinv.stage_start ?_ (fun _ => hsafe) h
    intro hk
    exact (rearms_of_resp hresp).trans hk
  | later =>
    obtain rfl := Option.some.inj h
    exact ⟨hinv, rfl, id⟩

theorem Connection.Inv.stage_receiveBody {env : ServerEnv} {c c' : Connection} (hinv : c.Inv)
    (h : c.receiveBody env = some c') : Stage c c' := by
  unfold Connection.receiveBody at h
  by_cases hgo : c.hsp.state ≠ .sendingHeaders ∧ c.hsp.reqBodyOutPaired = false
  · rw [if_pos hgo] at h
    obtain ⟨resp, hresp, h⟩ := Option.bind_eq_some_iff.mp h
    split_ifs at h
    · exact hinv.stage_start (fun hk => by cases hk) (fun hk => by cases hk) h
    · obtain rfl := Option.some.inj h
      exact hinv.stage ⟨⟨rfl, rfl, rfl, rfl, _, rfl⟩, rfl, rfl, rfl, rfl, rfl, rfl, id⟩
  · rw [if_neg hgo] at h
    obtain rfl := Option.some.inj h
    exact ⟨hinv, rfl, id⟩

theorem Connection.Inv.stage_proceed {env : ServerEnv} {c c' : Connection} {cb : Callbacks}
    (hinv : c.Inv) (hclose : c.hsp.req.contentLength ≠ 0 → cb.Close)
    (h : c.proceed env cb = some c') : Stage c c' := by
  unfold Connection.proceed at h
  split_ifs at h with hproxy hlen
  · obtain rfl := Option.some.inj h
    exact ⟨hinv, rfl, id⟩
  · obtain ⟨c₁, hpost, h⟩ := Option.bind_eq_some_iff.mp h
    obtain ⟨c₂, hcall, rfl⟩ := Option.map_eq_some_iff.mp hpost
    have hstage := hinv.stage_callback (.inl (hclose hlen).onPostData) hcall
    refine hstage.trans (.trans ?_ (Connection.Inv.stage_receiveBody ?_ h))
    · exact hstage.inv.stage ⟨.refl _, rfl, rfl, rfl, rfl, rfl, rfl, id⟩
    · exact hstage.inv.quiet ⟨.refl _, rfl, rfl, rfl, rfl, rfl, rfl, id⟩
  · exact hinv.stage_invoke (.inl (not_not.mp hlen)) h

theorem Connection.Inv.stage_admit {env : ServerEnv} {c c' : Connection} {cb : Callbacks}
    (hinv : c.Inv) (hclose : c.hsp.req.contentLength ≠ 0 → cb.Close)
    (h : c.admit env cb = some c') : Stage c c' := by
  unfold Connection.admit at h
  split_ifs at h
  · obtain ⟨resp, hresp, h⟩ := Option.bind_eq_some_iff.mp h
    refine hinv.stage_start ?_ (fun hk => .inl (closeIfBody_keepAlive hk).2) h
    intro hk
    exact (rearms_of_resp hresp).trans (closeIfBody_keepAlive hk).1
  · obtain ⟨⟨ok, c₁⟩, hheaders, h⟩ := Option.bind_eq_some_iff.mp h
    have hstage := hinv.stage_onHeaders hclose hheaders
    cases ok with
    | false =>
      obtain ⟨resp, hresp, h⟩ := Option.bind_eq_some_iff.mp h
      exact hstage.trans (hstage.inv.stage_start
        (fun hk => (rearms_of_resp hresp).trans (closeIfBody_keepAlive hk).1)
        (fun hk => .inl (closeIfBody_keepAlive hk).2) h)
    | true =>
      dsimp only at h
      split_ifs at h
      · obtain rfl := Option.some.inj h
        exact hstage
      · exact hstage.trans (hstage.inv.stage_proceed (fun hlen => hclose (hstage.length_eq ▸ hlen)) h)

theorem Connection.Inv.onRequestReceived {env : ServerEnv} {c c' : Connection} {cb : Callbacks}
    (hinv : c.Inv) (hclose : c.hsp.req.contentLength ≠ 0 → cb.Close)
    (h : c.onRequestReceived env cb = some c') : c'.Inv := by
  obtain ⟨c₁, hdispatch, h⟩ := Option.bind_eq_some_iff.mp h
  have hstage := hinv.stage_dispatch hclose hdispatch
  split_ifs at h
  · obtain rfl := Option.some.inj h
    exact hstage.inv
  · exact (hstage.inv.stage_admit (fun hlen => hclose (hstage.length_eq ▸ hlen)) h).inv

/-! ### The other events -/

/-- Taking the oldest message. -/
theorem Connection.Inv.pop {c : Connection} {msg : HspMessage} {msgs : List HspMessage}
    (hinv : c.Inv) (hmsgs : c.hsp.eventsPub = msg :: msgs) :
    ({ c with hsp.eventsPub := msgs } : Connection).Inv := by
  obtain ⟨hsync, hreceived, hcomplete⟩ := hinv
  refine ⟨?_, fun hmem => hreceived (hmsgs ▸ List.mem_cons_of_mem msg hmem), fun hmem => ?_⟩
  · unfold Connection.Synced at hsync ⊢
    dsimp only
    cases hs : c.hsp.state <;> rw [hs] at hsync
    case receivingBody => exact ⟨hsync.more, hsync.body⟩
    all_goals exact hsync
  · obtain ⟨hsend, hout, hpair, front, hfront, hnot⟩ :=
      hcomplete (hmsgs ▸ List.mem_cons_of_mem msg hmem)
    refine ⟨hsend, hout, hpair, ?_⟩
    rw [hmsgs] at hfront
    cases front with
    | nil =>
      obtain ⟨-, rfl⟩ := List.cons.inj hfront
      simp at hmem
    | cons m front =>
      obtain ⟨-, rfl⟩ := List.cons.inj hfront
      exact ⟨front, rfl, fun hm => hnot (List.mem_cons_of_mem m hm)⟩

/-- The end of a request leaves no message behind. -/
theorem Connection.Inv.onRequestComplete {c : Connection} {msgs : List HspMessage} (hinv : c.Inv)
    (hmsgs : c.hsp.eventsPub = .requestComplete :: msgs) :
    ({ c with hsp.eventsPub := msgs } : Connection).onRequestComplete.Inv := by
  obtain ⟨front, hfront, hnot⟩ := (hinv.complete (by simp [hmsgs])).last
  rw [hmsgs] at hfront
  have hnil : msgs = [] := by
    cases front with
    | nil => exact (List.cons.inj hfront).2
    | cons m front =>
      obtain ⟨rfl, -⟩ := List.cons.inj hfront
      simp at hnot
  subst hnil
  exact ⟨rfl, by simp [Connection.onRequestComplete, Hsp.requestCleanup],
    by simp [Connection.onRequestComplete, Hsp.requestCleanup]⟩

/-- A write, while the end of the request has not been announced. -/
theorem Connection.Inv.sends {c : Connection} {hsp' : Hsp} (out : NextOs) (hinv : c.Inv)
    (hopen : .requestComplete ∉ c.hsp.eventsPub) (h : Sends c.hsp hsp') :
    ({ c with hsp := hsp', out } : Connection).Inv := by
  have hbody : SameBody c.hsp.req hsp'.req := by
    rw [h.req_eq]
    exact ⟨rfl, rfl, rfl, rfl, _, rfl⟩
  have hrearms : hsp'.rearms = c.hsp.rearms := by
    unfold Hsp.rearms
    rw [h.keepAlive_eq]
  have hmem : ∀ msg ∈ hsp'.eventsPub, msg = .requestComplete ∨ msg ∈ c.hsp.eventsPub := by
    intro msg hmsg
    rcases h.events with heq | hdone
    · exact .inr (heq ▸ hmsg)
    · rw [hdone.events_eq, List.mem_append, List.mem_singleton] at hmsg
      exact hmsg.symm
  refine ⟨?_, fun hmsg => ?_, fun hmsg => ?_⟩
  · rcases h.state_eq with hst | ⟨hsend, hsend'⟩
    · have hsync := hinv.sync
      unfold Connection.Synced at hsync ⊢
      dsimp only
      rw [hst, hrearms]
      cases hs : c.hsp.state <;> rw [hs] at hsync
      case receivingBody => exact hsync.congr hbody h.chunk_eq
      case handling => exact hsync.congr hbody.chunkedEncoding_eq hbody.contentLength_eq
      case sendingHeaders | sendingBody =>
        intro hr
        exact (hsync hr).congr hbody.chunkedEncoding_eq hbody.contentLength_eq
      all_goals exact hbody.contentLength_eq.trans hsync
    · refine Connection.synced_of_sending hsend' fun hr => ?_
      exact (hinv.sync.of_sending hsend (hrearms ▸ hr)).congr hbody.chunkedEncoding_eq
        hbody.contentLength_eq
  · have hst := hinv.received ((hmem _ hmsg).resolve_left (by simp))
    rcases h.state_eq with heq | ⟨-, hsend'⟩
    · dsimp only
      rw [heq]
      exact hst
    · exact .inr hsend'
  · rcases h.events with heq | ⟨hevents, hsend, hout, hpair⟩
    · exact absurd (heq ▸ hmsg) hopen
    · exact ⟨hsend, hout, hpair, c.hsp.eventsPub, hevents, hopen⟩

/-- Reading the headers of a request. -/
theorem Connection.Inv.readHeaders {env : ServerEnv} {c c' : Connection} {room avail : ℕ}
    (hinv : c.Inv) (h : c.readHeaders env room avail = some c') : c'.Inv := by
  obtain ⟨⟨-, hst⟩, hmap⟩ := Option.ite_none_right_eq_some.mp h
  obtain ⟨⟨hsp', sock'⟩, hread, rfl⟩ := Option.map_eq_some_iff.mp hmap
  obtain ⟨-, hcases⟩ := dataInReadHeaders_cases hread
  have hlen : c.hsp.req.contentLength = 0 := by
    have hsync := hinv.sync
    unfold Connection.Synced at hsync
    rcases hst with hst | hst <;> rw [hst] at hsync <;> exact hsync
  -- no message about a body or an end is left from the last request
  have hreceived : HspMessage.requestBodyReceived ∉ c.hsp.eventsPub := by
    intro hmem
    rcases hinv.received hmem with hs | hs | hs <;> rcases hst with hst | hst <;>
      simp [hst] at hs
  have hcomplete : HspMessage.requestComplete ∉ c.hsp.eventsPub := by
    intro hmem
    rcases (hinv.complete hmem).sending with hs | hs <;> rcases hst with hst | hst <;>
      simp [hst] at hs
  generalize hdata : (c.sock.dataRecvRead room avail).1 = data at hcases
  have hopen : (c.hsp.collectHeaders data).state = .receivingHeaders ∧
      (c.hsp.collectHeaders data).req = c.hsp.req ∧
      (c.hsp.collectHeaders data).eventsPub = c.hsp.eventsPub := by
    unfold Hsp.collectHeaders
    split_ifs with hwait
    · exact ⟨rfl, rfl, rfl⟩
    · exact ⟨hst.resolve_left hwait, rfl, rfl⟩
  generalize c.hsp.collectHeaders data = hsp at hcases hopen
  obtain ⟨hstate, hreq, hevents⟩ := hopen
  cases hcases with
  | pending =>
    refine ⟨?_, ?_, ?_⟩
    · simp only [Connection.Synced, hstate, hreq]
      exact hlen
    · simp [hevents, hreceived]
    · simp [hevents, hcomplete]
  | bad hbad =>
    obtain ⟨hsend, -, hevents', hrearms⟩ := badRequest_spec hstate hbad
    refine ⟨?_, ?_, ?_⟩
    · simp [Connection.Synced, hsend, hrearms]
    · simp [hevents', hevents, hreceived]
    · simp [hevents', hevents, hcomplete]
  | @request e b head hfind hparse =>
    have hfollowed := requestReceived_followed hsp head (hsp.readBuf.drop b)
    have hpub : (hsp.requestReceived head.request (hsp.readBuf.drop b)).eventsPub =
        hsp.eventsPub ++ [.requestReceived] := by
      unfold Hsp.requestReceived
      split_ifs <;> rfl
    obtain ⟨hreq', hchunk, -, hstate'⟩ := requestReceived_fresh hsp head (hsp.readBuf.drop b)
    generalize hsp.requestReceived head.request (hsp.readBuf.drop b) = hsp' at *
    refine ⟨?_, ?_, ?_⟩
    · unfold Connection.Synced
      dsimp only
      split_ifs at hstate' with hbody
      · rw [hstate', hchunk]
        exact hfollowed
      · rw [hstate']
        refine consumed_of_length_zero ?_ _
        rw [hreq']
        exact not_not.mp hbody
    · simp [hpub, hevents, hreceived]
    · simp [hpub, hevents, hcomplete]

/-- A read of the body. -/
theorem Connection.Inv.readBody {c c' : Connection} {size avail : ℕ} (hinv : c.Inv)
    (hord : c.hsp.InOrder c.sock size avail) (h : c.readBody size avail = some c') : c'.Inv := by
  obtain ⟨-, hmap⟩ := Option.ite_none_right_eq_some.mp h
  obtain ⟨r, hread, rfl⟩ := Option.map_eq_some_iff.mp hmap
  by_cases hst : c.hsp.state = .receivingBody
  · have hfollowed : Followed c.hsp c.taken := by
      have hsync := hinv.sync
      unfold Connection.Synced at hsync
      rw [hst] at hsync
      exact hsync
    have hcases := reqBodyOutRead_cases hst hfollowed.more hread
    obtain ⟨errs, herrs, hout⟩ := hcases.exists_outcome
    obtain ⟨got, sock', hsock, hgot⟩ := reqBodyOutRead_incoming hst hfollowed.more hread
    have hcomplete : HspMessage.requestComplete ∉ c.hsp.eventsPub := by
      intro hmem
      rcases (hinv.complete hmem).sending with hs | hs <;> simp [hst] at hs
    have hreceived : HspMessage.requestBodyReceived ∉ c.hsp.eventsPub := by
      intro hmem
      rcases hinv.received hmem with hs | hs | hs <;> simp [hst] at hs
    have htake : c.sock.incoming.take (c.sock.incoming.length - sock'.incoming.length) = got := by
      rw [hgot, List.length_append, Nat.add_sub_cancel, List.take_left]
    have hafter := hfollowed.read hst hord hread (by rw [hsock]; exact hgot)
    simp only [hsock, Option.getD_some, htake]
    have hnot : ∀ msg ∈ r.hsp.eventsPub, msg ≠ .requestComplete := by
      rintro msg hmsg rfl
      rw [hout.events_eq, List.mem_append, List.mem_append] at hmsg
      rcases hmsg with (hmsg | hmsg) | hmsg
      · exact hcomplete hmsg
      · cases herrs _ hmsg
      · split_ifs at hmsg <;> simp at hmsg
    refine ⟨?_, ?_, fun hmsg => absurd rfl (hnot _ hmsg)⟩
    · unfold Connection.Synced
      dsimp only
      rcases hafter with ⟨hst', hf⟩ | ⟨hst', hc⟩ <;> rw [hst'] <;> assumption
    · intro hmsg
      rcases hafter with ⟨hst', hf⟩ | ⟨hst', -⟩
      · rw [hout.events_eq, hf.more, List.mem_append, List.mem_append] at hmsg
        rcases hmsg with (hmsg | hmsg) | hmsg
        · exact absurd hmsg hreceived
        · cases herrs _ hmsg
        · simp at hmsg
      · exact .inl hst'
  · obtain ⟨-, hsock, hhsp⟩ := reqBodyOutRead_idle hst hread
    have hquiet : Quiet c { c with hsp := r.hsp } := by
      rw [hhsp]
      exact ⟨.refl _, rfl, rfl, rfl, rfl, rfl, rfl, id⟩
    have hinv' := hinv.quiet hquiet
    simp only [hsock, Option.getD_some, Nat.sub_self, List.take_zero, List.append_nil]
    exact ⟨hinv'.sync, hinv'.received, hinv'.complete⟩

end Nxweb
