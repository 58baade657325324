import Nxweb.ClientProto.Delivery
import Nxweb.Proxy.Request

/-!
# A final answer instead of `100 Continue`

A request with a body is forwarded with `Expect: 100-continue`, and the backend may answer its
headers with a final response at once. `data_in_do_read` then publishes the error
`NXD_HCP_NO_100CONTINUE` in front of `NXD_HCP_RESPONSE_RECEIVED`, and the event loop delivers them
in this order to the handler of the proxy.

The handler takes the error for a failed attempt. It repeats the request, or answers with a `504` of
its own if it has repeated it often enough already. The response of the backend is forwarded only
if its status is `504` as well, and the request has been repeated for the last time
(`directAnswer_forwarded_iff`).

## Main definitions

* `DirectAnswer`, `DirectAnswer.step`: the request, its connection to the backend, and the messages
  between them;
* `DirectAnswer.Forwarded`: what is expected;
* `DirectAnswer.Phase`: the invariant.
-/

namespace Nxweb

open Lib

/-- The response with which the function calls `nxweb_start_sending_response`, if it does. -/
def ProxyRequest.startedResponse (env : ProxyEnv) (s : ProxyRequest) (msg : HcpMessage)
    (connects : Bool) : Option HttpResponse :=
  let s' := proxyEventsSubOnMessage { env with startSendingResponse := id } s msg connects
  if s.startCalls < s'.startCalls then some s'.resp else none

/-- A message as the handler sees it: with the record of the response, and the current time. -/
def HcpEvent.toMessage (resp : HttpResponse) (now : ℤ) : HcpEvent → Option HcpMessage
  | .connected => none
  | .responseReceived => some (.responseReceived resp now)
  | .requestComplete => some .requestComplete
  | .error code => some (.error code)

/-- A proxied request with the connection over which it has sent its headers. -/
structure DirectAnswer where
  proxy : ProxyRequest
  hcp : Hcp
  sock : Socket
  /-- The request still uses the connection. -/
  attached : Bool := true
  /-- The status codes of the responses to the client, in the order in which they are started. -/
  started : List ℤ := []
  /-- The request has gone to the backend once more. -/
  sentAgain : Bool := false
  deriving DecidableEq, Repr

/-- What can happen. -/
inductive DirectAnswerEvent where
  /-- The socket becomes ready. -/
  | arrival
  /-- The event loop reads headers into an arena with some room. -/
  | headers (room avail : ℕ)
  /-- The ring buffer of the response reads. -/
  | read (size avail : ℕ)
  /-- The event loop delivers the oldest message. The flag says whether a new connection can be
  made if one is tried. -/
  | deliver (now : ℤ) (connects : Bool)
  deriving DecidableEq, Repr

namespace DirectAnswer

/-- The headers have been sent to a new connection, and `100 Continue` is awaited. -/
def start (env : ProxyEnv) (proxy : ProxyRequest) (hcp : Hcp) (sock : Socket) : DirectAnswer where
  proxy := (startProxyRequest env proxy true).2
  hcp := { hcp.waitFor100Continue with readBuf := [], eventsPub := [] }
  sock := sock

/-- The handler gets a message. Repeating the request gives up the connection, with the messages
that have not been delivered. -/
def handle (env : ProxyEnv) (s : DirectAnswer) (msg : HcpMessage) (connects : Bool) :
    Option DirectAnswer :=
  (proxyStep env s.proxy (.message msg connects)).map fun proxy =>
    let retried : Bool := proxy.retryCount ≠ s.proxy.retryCount
    { s with
      proxy
      attached := !retried
      started := s.started ++
        (s.proxy.startedResponse env msg connects).toList.map HttpResponse.statusCode
      sentAgain := s.sentAgain || retried && proxy.subscribed }

/-- One event. -/
def step (cenv : ClientEnv) (penv : ProxyEnv) (s : DirectAnswer) :
    DirectAnswerEvent → Option DirectAnswer
  | .arrival => some { s with sock.ready := true }
  | .headers room avail =>
    if s.attached ∧ (s.hcp.state = .waitingForResponse ∨ s.hcp.state = .receivingHeaders) ∧
        HcpEvent.error hcpBadResponse ∉ s.hcp.eventsPub then
      (s.hcp.dataInReadHeaders cenv s.sock room avail).map fun (hcp, sock) =>
        { s with hcp, sock }
    else none
  | .read size avail =>
    if s.attached then
      (s.hcp.respBodyOutRead s.sock size avail).map fun r =>
        { s with hcp := r.hcp, sock := r.sock }
    else none
  | .deliver now connects =>
    match s.attached, s.hcp.eventsPub with
    | true, event :: events =>
      let s := { s with hcp.eventsPub := events }
      match event.toMessage s.hcp.resp now with
      | some msg => s.handle penv msg connects
      | none => some s
    | _, _ => none

/-- The client gets the status of the backend, and the request is not repeated. -/
def Forwarded (status : ℤ) (s : DirectAnswer) : Prop :=
  s.started.head? = some status ∧ s.sentAgain = false

instance (status : ℤ) (s : DirectAnswer) : Decidable (s.Forwarded status) :=
  inferInstanceAs (Decidable (s.started.head? = some status ∧ s.sentAgain = false))

/-- The headers of the response are no longer awaited on the connection. -/
def HeadersDone (s : DirectAnswer) : Prop :=
  s.hcp.state ≠ .waitingForResponse ∧ s.hcp.state ≠ .receivingHeaders

/-- The answer has been received, and all that it caused has been delivered. -/
def Settled (s : DirectAnswer) : Prop :=
  s.HeadersDone ∧ (s.attached = true → s.hcp.eventsPub = [])

instance (s : DirectAnswer) : Decidable s.Settled :=
  inferInstanceAs (Decidable ((s.hcp.state ≠ .waitingForResponse ∧
    s.hcp.state ≠ .receivingHeaders) ∧ (s.attached = true → s.hcp.eventsPub = [])))

end DirectAnswer

/-! ### What the connection publishes -/

/-- The consumer can add messages, and nothing leads back to the headers. -/
structure ReadPublishes (hcp hcp' : Hcp) : Prop where
  events : hcp.eventsPub <+: hcp'.eventsPub
  state : hcp'.state = hcp.state ∨ hcp'.state = .idle

theorem Hcp.endOfBody_publishes (hcp : Hcp) : ReadPublishes hcp hcp.endOfBody := by
  refine ⟨?_, .inr rfl⟩
  unfold Hcp.endOfBody Hcp.completeRequest
  dsimp only
  split_ifs
  · exact (List.prefix_append _ _).trans (List.prefix_append _ _)
  · exact List.prefix_append _ _

theorem ReadPublishes.trans {hcp hcp' hcp'' : Hcp} (h : ReadPublishes hcp hcp')
    (h' : ReadPublishes hcp' hcp'') : ReadPublishes hcp hcp'' :=
  ⟨h.events.trans h'.events, h'.state.elim (fun heq => heq ▸ h.state) .inr⟩

theorem ReadPublishes.of_same {hcp₀ hcp hcp' : Hcp} (h : ReadPublishes hcp hcp')
    (hevents : hcp.eventsPub = hcp₀.eventsPub) (hstate : hcp.state = hcp₀.state) :
    ReadPublishes hcp₀ hcp' :=
  ⟨hevents ▸ h.events, hstate ▸ h.state⟩

theorem receiveBody_publishes {hcp hcp' : Hcp} {raw data : List UInt8}
    (h : hcp.receiveBody raw = some (data, hcp')) : ReadPublishes hcp hcp' := by
  unfold Hcp.receiveBody at h
  split_ifs at h with hchunked
  · obtain ⟨r, -, h⟩ := Option.bind_eq_some_iff.mp h
    dsimp only at h
    split_ifs at h
    all_goals obtain ⟨-, rfl⟩ := Prod.mk.inj (Option.some.inj h)
    · exact ⟨List.prefix_append _ _, .inl rfl⟩
    · exact ⟨List.prefix_rfl, .inl rfl⟩
    · exact ⟨List.prefix_rfl, .inl rfl⟩
  · dsimp only at h
    split_ifs at h
    all_goals
      obtain ⟨-, rfl⟩ := Prod.mk.inj (Option.some.inj h)
      exact ⟨List.prefix_rfl, .inl rfl⟩

theorem readBodyFromSocket_publishes {hcp : Hcp} {sock : Socket} {data : List UInt8}
    {size avail : ℕ} {r : RespRead} (h : hcp.readBodyFromSocket sock data size avail = some r) :
    ReadPublishes hcp r.hcp := by
  unfold Hcp.readBodyFromSocket at h
  split_ifs at h with hsize
  · generalize sock.readIfReady size avail = rd at h
    obtain ⟨raw, sock'⟩ := rd
    obtain ⟨⟨data₂, hcp'⟩, hrecv, h⟩ := Option.bind_eq_some_iff.mp h
    have hstep : ReadPublishes hcp hcp' := by
      have hpub := receiveBody_publishes hrecv
      split_ifs at hpub <;> exact ⟨hpub.events, hpub.state⟩
    dsimp only at h
    split_ifs at h <;> obtain rfl := Option.some.inj h
    · exact hstep.trans hcp'.endOfBody_publishes
    · exact hstep
  · obtain rfl := Option.some.inj h
    exact ⟨List.prefix_rfl, .inl rfl⟩

theorem respBodyOutRead_publishes {hcp : Hcp} {sock : Socket} {size avail : ℕ} {r : RespRead}
    (h : hcp.respBodyOutRead sock size avail = some r) : ReadPublishes hcp r.hcp := by
  unfold Hcp.respBodyOutRead at h
  split_ifs at h with hdone hst
  · obtain rfl := Option.some.inj h
    exact ⟨List.prefix_rfl, .inl rfl⟩
  · obtain rfl := Option.some.inj h
    exact ⟨List.prefix_rfl, .inl rfl⟩
  · split at h
    next chunk _ =>
      dsimp only at h
      by_cases hbody : hcp.responseBodyComplete = true
      · rw [if_pos hbody] at h
        obtain rfl := Option.some.inj h
        exact (Hcp.endOfBody_publishes _).of_same rfl rfl
      · rw [if_neg hbody] at h
        exact (readBodyFromSocket_publishes h).of_same rfl rfl
    next => exact readBodyFromSocket_publishes h

/-- While `100 Continue` is awaited, another response publishes an error before all else. -/
theorem headersReceived_noContinue {hcp hcp' : Hcp} {resp : HttpResponse} {rest : List UInt8}
    (h100 : hcp.receiving100Continue = true) (hfinal : resp.statusCode ≠ 100)
    (h : hcp.headersReceived resp rest = some hcp') :
    hcp.eventsPub ++ [.error hcpNo100Continue] <+: hcp'.eventsPub ∧
      hcp'.state = .receivingBody := by
  unfold Hcp.headersReceived at h
  simp only [h100, if_true, if_neg hfinal] at h
  obtain ⟨hcp₁, hchunk, hret⟩ := Option.bind_eq_some_iff.mp h
  obtain rfl := Option.some.inj hret
  refine ⟨List.IsPrefix.trans ?_ (List.prefix_append hcp₁.eventsPub [.responseReceived]), rfl⟩
  unfold Hcp.setFirstBodyChunk at hchunk
  dsimp only at hchunk
  split_ifs at hchunk
  · obtain rfl := Option.some.inj hchunk
    exact List.prefix_rfl
  · obtain ⟨r, -, hchunk⟩ := Option.bind_eq_some_iff.mp hchunk
    split_ifs at hchunk <;> obtain rfl := Option.some.inj hchunk
    · exact List.prefix_append _ _
    · exact List.prefix_rfl
    · exact List.prefix_rfl
  · obtain rfl := Option.some.inj hchunk
    exact List.prefix_rfl
  · obtain rfl := Option.some.inj hchunk
    exact List.prefix_rfl

/-- A stream begins with the header block of a final response. -/
structure FinalAnswer (env : ClientEnv) (stream : List UInt8) (status : ℤ) : Prop where
  header : ∃ e b resp, findEndOfHttpHeaders stream = some (e, b) ∧
    env.parseHttpResponse (stream.take e) = some resp ∧ resp.statusCode = status
  final : status ≠ 100

/-- Reading the header block of a final response, while `100 Continue` is awaited: more of it is
awaited, or an error is published. -/
theorem readHeaders_publishes {env : ClientEnv} {stream : List UInt8} {status : ℤ}
    (hfinal : FinalAnswer env stream status) {hcp hcp' : Hcp} {sock sock' : Socket}
    {room avail : ℕ} (h : hcp.dataInReadHeaders env sock room avail = some (hcp', sock'))
    (hst : hcp.state = .waitingForResponse ∨ hcp.state = .receivingHeaders)
    (h100 : hcp.receiving100Continue = true) (hevents : hcp.eventsPub = [])
    (hbytes : hcp.readBuf ++ sock.incoming = stream) :
    (hcp'.eventsPub = [] ∧ hcp'.receiving100Continue = true ∧ hcp'.state = .receivingHeaders ∧
        hcp'.readBuf ++ sock'.incoming = stream) ∨
      ∃ code, [HcpEvent.error code] <+: hcp'.eventsPub ∧
        (code = hcpBadResponse ∨ hcp'.state = .receivingBody) := by
  obtain ⟨hopen, hbuf, -, hcont, -⟩ := openHeaders_spec hst
  have hnone : hcp.openHeaders.eventsPub = [] := by
    unfold Hcp.openHeaders
    split_ifs <;> exact hevents
  have hparts : hcp.openHeaders.readBuf ++ (sock.dataRecvRead room avail).1 ++
      (sock.dataRecvRead room avail).2.incoming = stream := by
    rw [Socket.dataRecvRead_data, Socket.dataRecvRead_incoming, List.append_assoc,
      List.take_append_drop, hbuf]
    exact hbytes
  unfold Hcp.dataInReadHeaders at h
  generalize sock.dataRecvRead room avail = rd at h hparts
  obtain ⟨data, sock₁⟩ := rd
  generalize hcp.openHeaders = hcp at h hopen hcont hnone hparts
  dsimp only at h hparts
  by_cases hdata : data = []
  · rw [if_pos hdata] at h
    obtain ⟨rfl, rfl⟩ := h
    rw [hdata, List.append_nil] at hparts
    exact .inl ⟨hnone, hcont.trans h100, hopen, hparts⟩
  rw [if_neg hdata] at h
  cases hfind : findEndOfHttpHeaders (hcp.readBuf ++ data) with
  | none =>
    simp only [hfind] at h
    split_ifs at h
    · obtain ⟨rfl, rfl⟩ := h
      refine .inr ⟨hcpBadResponse, ?_, .inl rfl⟩
      simp [Hcp.badResponse, Hcp.publish, hnone]
    · obtain ⟨rfl, rfl⟩ := h
      exact .inl ⟨hnone, hcont.trans h100, hopen, hparts⟩
  | some found =>
    obtain ⟨e, b⟩ := found
    obtain ⟨hwhole, htake⟩ := headerBlock_eq hparts hfind
    obtain ⟨e', b', resp, hfind', hparse, hstatus⟩ := hfinal.header
    obtain ⟨rfl, rfl⟩ := Prod.mk.inj (Option.some.inj (hfind'.symm.trans hwhole))
    simp only [hfind, ← htake, hparse] at h
    obtain ⟨hcp₁, hrecv, hret⟩ := Option.bind_eq_some_iff.mp h
    obtain ⟨rfl, rfl⟩ := hret
    obtain ⟨hpub, hstate⟩ :=
      headersReceived_noContinue (hcont.trans h100) (hstatus ▸ hfinal.final) hrecv
    refine .inr ⟨hcpNo100Continue, ?_, .inr hstate⟩
    simpa [hnone] using hpub

/-! ### What the handler does -/

/-- The request waits for the answer to its `k`th repetition. -/
structure ProxyRequest.Awaiting (k : ℕ) (s : ProxyRequest) : Prop where
  hpx : s.hpx = some {}
  notStarted : s.responseSendingStarted = false
  notComplete : s.proxyRequestComplete = false
  retryCount : s.retryCount = k

theorem startProxyRequest_awaiting (env : ProxyEnv) (s : ProxyRequest) :
    (startProxyRequest env s true).2.Awaiting s.retryCount := ⟨rfl, rfl, rfl, rfl⟩

/-- A step on an error is what the handler does with it. -/
theorem proxyStep_message {env : ProxyEnv} {s s' : ProxyRequest} {msg : HcpMessage}
    {connects : Bool} (h : proxyStep env s (.message msg connects) = some s') :
    s.aborted = false ∧ s' = proxyEventsSubOnMessage env s msg connects := by
  refine ⟨?_, ?_⟩
  · by_contra habort
    have hover : s.connFinalized = true ∨ s.aborted = true := .inr (by simpa using habort)
    unfold proxyStep at h
    rw [if_pos hover] at h
    cases h
  · generalize he : ProxyEvent.message msg connects = e at h
    cases proxyStep_cases h with
    | response presp now connects' =>
      obtain ⟨rfl, rfl⟩ := ProxyEvent.message.inj he
      rfl
    | complete connects' =>
      obtain ⟨rfl, rfl⟩ := ProxyEvent.message.inj he
      rfl
    | error code connects' =>
      obtain ⟨rfl, rfl⟩ := ProxyEvent.message.inj he
      rfl
    | timeout | bodySendingStarted | client | finalize => cases he

/-- A repetition starts no response, and is counted unless an assertion fails. -/
theorem retryProxyRequest_counts (env : ProxyEnv) (s : ProxyRequest) (connects : Bool) :
    (retryProxyRequest env s connects).startCalls = s.startCalls ∧
      ((retryProxyRequest env s connects).retryCount = s.retryCount + 1 ∨
        (retryProxyRequest env s connects).aborted = true) := by
  unfold retryProxyRequest startProxyRequest
  split_ifs
  · exact ⟨rfl, .inl rfl⟩
  · exact ⟨rfl, .inl rfl⟩
  · exact ⟨rfl, .inr rfl⟩

/-- An error before the last repetition starts nothing, and repeats the request or stops the
program. -/
theorem error_retries (env : ProxyEnv) {s : ProxyRequest} {k : ℕ} (h : s.Awaiting k)
    (hk : k < proxyRetryCount) (code : ℤ) (connects : Bool) :
    s.startedResponse env (.error code) connects = none ∧
      ((proxyEventsSubOnMessage env s (.error code) connects).retryCount ≠ s.retryCount ∨
        (proxyEventsSubOnMessage env s (.error code) connects).aborted = true) := by
  have hcases : ∀ env : ProxyEnv,
      proxyEventsSubOnMessage env s (.error code) connects =
        retryProxyRequest env { s with proxyRequestError := true, timerBackend := false }
          connects := by
    intro env
    simp [proxyEventsSubOnMessage, h.notComplete, h.notStarted, h.hpx, h.retryCount,
      Nat.not_le.mpr hk]
  constructor
  · unfold ProxyRequest.startedResponse
    dsimp only
    rw [hcases, (retryProxyRequest_counts _ _ connects).1]
    exact if_neg (lt_irrefl _)
  · rw [hcases]
    refine (retryProxyRequest_counts env _ connects).2.imp_left fun hcount => ?_
    rw [hcount]
    exact Nat.succ_ne_self _

/-- An error after the last repetition is answered with a `504`. -/
theorem error_fails (env : ProxyEnv) {s : ProxyRequest} {k : ℕ} (h : s.Awaiting k)
    (hk : proxyRetryCount ≤ k) (code : ℤ) (connects : Bool) :
    (s.startedResponse env (.error code) connects).map HttpResponse.statusCode = some 504 ∧
      (proxyEventsSubOnMessage env s (.error code) connects).retryCount = s.retryCount ∧
      (proxyEventsSubOnMessage env s (.error code) connects).proxyRequestComplete = true := by
  have hcases : ∀ env : ProxyEnv,
      proxyEventsSubOnMessage env s (.error code) connects =
        failProxyRequest env { s with proxyRequestError := true, timerBackend := false } := by
    intro env
    simp [proxyEventsSubOnMessage, h.notComplete, h.notStarted, h.hpx, h.retryCount, hk]
  unfold ProxyRequest.startedResponse
  simp only [hcases]
  unfold failProxyRequest
  simp [h.notStarted, ProxyRequest.startSendingResponse, HttpResponse.sendHttpError]

/-- When the request is complete, no message repeats it. -/
theorem complete_not_retried (env : ProxyEnv) {s : ProxyRequest}
    (h : s.proxyRequestComplete = true) (msg : HcpMessage) (connects : Bool) :
    (proxyEventsSubOnMessage env s msg connects).retryCount = s.retryCount ∧
      (proxyEventsSubOnMessage env s msg connects).proxyRequestComplete = true := by
  cases msg with
  | responseReceived presp now => exact ⟨rfl, h⟩
  | requestComplete => exact ⟨rfl, rfl⟩
  | error code => simp [proxyEventsSubOnMessage, h]

/-! ### The invariant -/

namespace DirectAnswer

/-- How far the answer has come, to a request that has been repeated `k` times. -/
inductive Phase (stream : List UInt8) (k : ℕ) (s : DirectAnswer) : Prop
  /-- Headers are awaited. -/
  | headers (hproxy : s.proxy.Awaiting k) (hattached : s.attached = true)
      (hstarted : s.started = []) (hsent : s.sentAgain = false) (hevents : s.hcp.eventsPub = [])
      (h100 : s.hcp.receiving100Continue = true)
      (hstate : s.hcp.state = .waitingForResponse ∨ s.hcp.state = .receivingHeaders)
      (hbytes : s.hcp.readBuf ++ s.sock.incoming = stream)
  /-- An error is the first message to be delivered. -/
  | published (hproxy : s.proxy.Awaiting k) (hattached : s.attached = true)
      (hstarted : s.started = []) (hsent : s.sentAgain = false) (code : ℤ)
      (hevents : [HcpEvent.error code] <+: s.hcp.eventsPub)
      (hstate : code = hcpBadResponse ∨ s.HeadersDone)
  /-- The request has been repeated, or the program has stopped. -/
  | retried (hk : k < proxyRetryCount) (hstarted : s.started = [])
      (hover : s.attached = false ∨ s.proxy.aborted = true)
  /-- A `504` has been started. -/
  | failed (hk : proxyRetryCount ≤ k) (hstarted : s.started.head? = some 504)
      (hsent : s.sentAgain = false) (hcomplete : s.proxy.proxyRequestComplete = true)

variable {cenv : ClientEnv} {penv : ProxyEnv} {stream : List UInt8} {status : ℤ} {k : ℕ}
  {s s' : DirectAnswer}

theorem start_phase (penv : ProxyEnv) (proxy : ProxyRequest) (hcp : Hcp) (sock : Socket) :
    (start penv proxy hcp sock).Phase sock.incoming proxy.retryCount :=
  .headers (startProxyRequest_awaiting penv proxy) rfl rfl rfl rfl rfl (.inl rfl) rfl

/-- What happens on the connection. -/
theorem Phase.connection (h : s.Phase stream k) {hcp : Hcp} {sock : Socket}
    (hheaders : s.hcp.eventsPub = [] → s.hcp.receiving100Continue = true →
      (s.hcp.state = .waitingForResponse ∨ s.hcp.state = .receivingHeaders) →
      s.hcp.readBuf ++ s.sock.incoming = stream →
      (hcp.eventsPub = [] ∧ hcp.receiving100Continue = true ∧
        (hcp.state = .waitingForResponse ∨ hcp.state = .receivingHeaders) ∧
        hcp.readBuf ++ sock.incoming = stream) ∨
      ∃ code, [HcpEvent.error code] <+: hcp.eventsPub ∧
        (code = hcpBadResponse ∨ hcp.state = .receivingBody))
    (hpublished : ∀ code, [HcpEvent.error code] <+: s.hcp.eventsPub →
      (code = hcpBadResponse ∨ s.HeadersDone) → [HcpEvent.error code] <+: hcp.eventsPub ∧
        (code = hcpBadResponse ∨ HeadersDone { s with hcp, sock })) :
    Phase stream k { s with hcp, sock } := by
  cases h with
  | headers hproxy hattached hstarted hsent hevents h100 hstate hbytes =>
    rcases hheaders hevents h100 hstate hbytes with ⟨he, h1, hs, hb⟩ | ⟨code, hcode, hwhy⟩
    · exact .headers hproxy hattached hstarted hsent he h1 hs hb
    · refine .published hproxy hattached hstarted hsent code hcode (hwhy.imp_right fun hbody => ?_)
      exact ⟨by simp [hbody], by simp [hbody]⟩
  | published hproxy hattached hstarted hsent code hevents hstate =>
    obtain ⟨hevents', hstate'⟩ := hpublished code hevents hstate
    exact .published hproxy hattached hstarted hsent code hevents' hstate'
  | retried hk hstarted hover => exact .retried hk hstarted hover
  | failed hk hstarted hsent hcomplete => exact .failed hk hstarted hsent hcomplete

theorem Phase.readHeaders (hfinal : FinalAnswer cenv stream status) (h : s.Phase stream k)
    {room avail : ℕ} (hstep : s.step cenv penv (.headers room avail) = some s') :
    s'.Phase stream k := by
  obtain ⟨⟨-, hst, hbad⟩, hstep⟩ := Option.ite_none_right_eq_some.mp hstep
  obtain ⟨⟨hcp, sock⟩, hread, rfl⟩ := Option.map_eq_some_iff.mp hstep
  refine h.connection (fun hevents h100 hstate hbytes => ?_) fun code hevents hstate => ?_
  · refine (readHeaders_publishes hfinal hread hstate h100 hevents hbytes).imp_left ?_
    rintro ⟨he, h1, hs, hb⟩
    exact ⟨he, h1, .inr hs, hb⟩
  · rcases hstate with rfl | hdone
    · exact absurd (hevents.subset (List.mem_singleton_self _)) hbad
    · exact absurd hst (not_or.mpr hdone)

theorem Phase.read (h : s.Phase stream k) {size avail : ℕ}
    (hstep : s.step cenv penv (.read size avail) = some s') : s'.Phase stream k := by
  obtain ⟨-, hstep⟩ := Option.ite_none_right_eq_some.mp hstep
  obtain ⟨r, hread, rfl⟩ := Option.map_eq_some_iff.mp hstep
  refine h.connection (fun hevents h100 hstate hbytes => .inl ?_) fun code hevents hstate => ?_
  · -- the consumer does not get anything before the body
    have hbody : s.hcp.state ≠ .receivingBody := by rcases hstate with h | h <;> simp [h]
    obtain ⟨r', hr', -, -, hsock, heq⟩ := respBodyOutRead_idle hbody s.sock size avail
    obtain rfl := Option.some.inj (hr'.symm.trans hread)
    rw [heq, hsock]
    exact ⟨hevents, h100, hstate, hbytes⟩
  · have hpub := respBodyOutRead_publishes hread
    refine ⟨hevents.trans hpub.events, hstate.imp_right fun hdone => ?_⟩
    rcases hpub.state with heq | hidle
    · exact ⟨heq.trans_ne hdone.1, heq.trans_ne hdone.2⟩
    · exact ⟨hidle.trans_ne (by decide), hidle.trans_ne (by decide)⟩

/-- A message is handled while the program goes on. -/
theorem handle_cases {msg : HcpMessage} {connects : Bool}
    (hstep : s.handle penv msg connects = some s') :
    s.proxy.aborted = false ∧ s'.proxy = proxyEventsSubOnMessage penv s.proxy msg connects ∧
      (s'.proxy.retryCount ≠ s.proxy.retryCount → s'.attached = false) ∧
      s'.started = s.started ++
        ((s.proxy.startedResponse penv msg connects).map HttpResponse.statusCode).toList ∧
      (s'.proxy.retryCount = s.proxy.retryCount → s'.sentAgain = s.sentAgain) := by
  obtain ⟨proxy, hproxy, rfl⟩ := Option.map_eq_some_iff.mp hstep
  obtain ⟨habort, rfl⟩ := proxyStep_message hproxy
  refine ⟨habort, rfl, fun hne => by simp [hne], ?_, fun heq => ?_⟩
  · cases s.proxy.startedResponse penv msg connects <;> rfl
  · have hcount : (proxyEventsSubOnMessage penv s.proxy msg connects).retryCount =
        s.proxy.retryCount := heq
    simp [hcount]

/-- The first error settles what becomes of the request. -/
theorem Phase.handle_error (hproxy : s.proxy.Awaiting k) (hstarted : s.started = [])
    (hsent : s.sentAgain = false) {code : ℤ} {connects : Bool}
    (hstep : s.handle penv (.error code) connects = some s') : s'.Phase stream k := by
  obtain ⟨-, heq, hattached, hstarted', hsent'⟩ := handle_cases hstep
  rcases lt_or_ge k proxyRetryCount with hk | hk
  · obtain ⟨hnone, hover⟩ := error_retries penv hproxy hk code connects
    rw [← heq] at hover
    refine .retried hk ?_ (hover.imp_left hattached)
    rw [hstarted', hstarted, hnone]
    rfl
  · obtain ⟨hstatus, hcount, hcomplete⟩ := error_fails penv hproxy hk code connects
    rw [← heq] at hcount hcomplete
    refine .failed hk ?_ ((hsent' hcount).trans hsent) hcomplete
    rw [hstarted', hstarted, hstatus]
    rfl

/-- After the `504` nothing is repeated. -/
theorem Phase.handle_failed (hk : proxyRetryCount ≤ k) (hstarted : s.started.head? = some 504)
    (hsent : s.sentAgain = false) (hcomplete : s.proxy.proxyRequestComplete = true)
    {msg : HcpMessage} {connects : Bool} (hstep : s.handle penv msg connects = some s') :
    s'.Phase stream k := by
  obtain ⟨-, heq, -, hstarted', hsent'⟩ := handle_cases hstep
  obtain ⟨hcount, hcomplete'⟩ := complete_not_retried penv hcomplete msg connects
  rw [← heq] at hcount hcomplete'
  refine .failed hk ?_ ((hsent' hcount).trans hsent) hcomplete'
  rw [hstarted', List.head?_append, hstarted]
  rfl

theorem Phase.deliver (h : s.Phase stream k) {now : ℤ} {connects : Bool}
    (hstep : s.step cenv penv (.deliver now connects) = some s') : s'.Phase stream k := by
  unfold step at hstep
  dsimp only at hstep
  split at hstep
  next event events hattached hqueue =>
    cases h with
    | headers hproxy _ hstarted hsent hevents h100 hstate hbytes =>
      rw [hevents] at hqueue
      cases hqueue
    | published hproxy _ hstarted hsent code hevents hstate =>
      rw [hqueue] at hevents
      obtain ⟨rfl, -⟩ := List.cons_prefix_cons.mp hevents
      exact Phase.handle_error (s := { s with hcp.eventsPub := events }) hproxy hstarted hsent hstep
    | retried hk hstarted hover =>
      have habort : s.proxy.aborted = true := hover.resolve_left (by simp [hattached])
      split at hstep
      next msg _ =>
        have hnot := (handle_cases hstep).1
        exact absurd (habort.symm.trans hnot) (by simp)
      next =>
        obtain rfl := Option.some.inj hstep
        exact .retried hk hstarted (.inr habort)
    | failed hk hstarted hsent hcomplete =>
      split at hstep
      next msg _ =>
        exact Phase.handle_failed (s := { s with hcp.eventsPub := events }) hk hstarted hsent
          hcomplete hstep
      next =>
        obtain rfl := Option.some.inj hstep
        exact .failed hk hstarted hsent hcomplete
  next => cases hstep

theorem Phase.step (hfinal : FinalAnswer cenv stream status) (h : s.Phase stream k)
    {e : DirectAnswerEvent} (hstep : s.step cenv penv e = some s') : s'.Phase stream k := by
  cases e with
  | arrival =>
    obtain rfl := Option.some.inj hstep
    exact h.connection (fun he h1 hs hb => .inl ⟨he, h1, hs, hb⟩) fun _ he hs => ⟨he, hs⟩
  | headers room avail => exact h.readHeaders hfinal hstep
  | read size avail => exact h.read hstep
  | deliver now connects => exact h.deliver hstep

/-- In a phase that is settled the status is forwarded only by coincidence. -/
theorem Phase.forwarded_iff (h : s.Phase stream k) (hsettled : s.Settled) (status : ℤ) :
    s.Forwarded status ↔ proxyRetryCount ≤ k ∧ status = 504 := by
  obtain ⟨⟨hwait, hrecv⟩, hqueue⟩ := hsettled
  cases h with
  | headers hproxy hattached hstarted hsent hevents h100 hstate hbytes =>
    exact absurd hstate (by simp [hwait, hrecv])
  | published hproxy hattached hstarted hsent code hevents hstate =>
    rw [hqueue hattached] at hevents
    exact absurd (List.prefix_nil.mp hevents) (List.cons_ne_nil _ _)
  | retried hk hstarted hover =>
    exact iff_of_false (by simp [Forwarded, hstarted]) fun h => absurd h.1 (Nat.not_le.mpr hk)
  | failed hk hstarted hsent hcomplete =>
    simp only [Forwarded, hstarted, hsent, hk, Option.some.injEq, and_true, true_and]
    exact eq_comm

end DirectAnswer

/-- If the backend answers the headers of a request with a final response at once, its status is
forwarded, without sending the request again, if and only if the request has been repeated as often
as it can be and the status is the `504` with which the proxy gives up. -/
theorem directAnswer_forwarded_iff (cenv : ClientEnv) (penv : ProxyEnv) (proxy : ProxyRequest)
    (hcp : Hcp) (sock : Socket) {status : ℤ} (hfinal : FinalAnswer cenv sock.incoming status)
    {es : List DirectAnswerEvent} {s : DirectAnswer}
    (hrun : run (DirectAnswer.step cenv penv) (.start penv proxy hcp sock) es = some s)
    (hsettled : s.Settled) :
    s.Forwarded status ↔ proxyRetryCount ≤ proxy.retryCount ∧ status = 504 :=
  have hphase : s.Phase sock.incoming proxy.retryCount :=
    run_inv (fun _ _ _ h hstep => h.step hfinal hstep)
      (DirectAnswer.start_phase penv proxy hcp sock) hrun
  hphase.forwarded_iff hsettled status

/-- A server whose filters do nothing. -/
def plainProxyEnv : ProxyEnv where
  revision := bytes "3"
  startSendingResponse := id

/-- A backend whose answers have the status `200`, and no body. -/
def okEnv : ClientEnv where
  parseHttpResponse _ := some { statusCode := 200, contentLength := 0 }

/-- The answer of the backend. -/
def okAnswer : List UInt8 := bytes "HTTP/1.1 200 OK\r\nContent-Length: 0\r\n\r\n"

/-- The first attempt of a request, to which the backend answers. -/
def okDirectAnswer : DirectAnswer := .start plainProxyEnv {} {} { ready := true, incoming := okAnswer }

theorem okAnswer_final : FinalAnswer okEnv okAnswer 200 where
  header := ⟨34, 38, { statusCode := 200, contentLength := 0 }, by decide +kernel, rfl, rfl⟩
  final := by decide

/-- The header block is read, and the error in front of the response is delivered. -/
theorem okAnswer_run : (run (DirectAnswer.step okEnv plainProxyEnv) okDirectAnswer
    [.headers 5120 100, .deliver 0 true]).map
      (fun s => (decide s.Settled, s.started, s.sentAgain)) = some (true, [], true) := by
  decide +kernel

/-- The answer to the first attempt is dropped, and the request is sent again. -/
theorem okAnswer_dropped : ∃ s, run (DirectAnswer.step okEnv plainProxyEnv) okDirectAnswer
    [.headers 5120 100, .deliver 0 true] = some s ∧ s.Settled ∧ ¬ s.Forwarded 200 := by
  obtain ⟨s, hrun, heq⟩ := Option.map_eq_some_iff.mp okAnswer_run
  obtain ⟨hsettled, hrest⟩ := Prod.mk.inj heq
  obtain ⟨hstarted, -⟩ := Prod.mk.inj hrest
  exact ⟨s, hrun, of_decide_eq_true hsettled, by simp [DirectAnswer.Forwarded, hstarted]⟩

theorem directAnswer_forwarded_iff_ok : ∃ s, run (DirectAnswer.step okEnv plainProxyEnv)
    okDirectAnswer [.headers 5120 100, .deliver 0 true] = some s ∧
      (s.Forwarded 200 ↔ proxyRetryCount ≤ 0 ∧ (200 : ℤ) = 504) := by
  obtain ⟨s, hrun, heq⟩ := Option.map_eq_some_iff.mp okAnswer_run
  obtain ⟨hsettled, -⟩ := Prod.mk.inj heq
  exact ⟨s, hrun, directAnswer_forwarded_iff okEnv plainProxyEnv {} {} _ okAnswer_final hrun
    (of_decide_eq_true hsettled)⟩

end Nxweb
