import Nxweb.ServerProto.State

/-!
# Reading the request headers and starting a response

Model of `_nxweb_find_end_of_http_headers` (`http_utils.c`) and of the functions of
`nxd_http_server_proto.c` that open and close a request: the part of `data_in_do_read` that
collects the header block, `nxd_http_server_proto_setup_content_out`,
`nxd_http_server_proto_start_sending_response` and `request_cleanup`.

The parser of the header block and the printer of the response headers are parameters of the
server. What the parser leaves to compute from the fields it has found is `RequestHead.request`. A
parser that is a function of the block does not look behind it. The one of the source may, and then
it is run on the arena (`RequestReading.step`).
The range of a file to send, and the check that it has the length of the content, are not in the
model.

## Main definitions

* `findEndOfHttpHeaders`;
* `RequestHead`, `ServerEnv`: what is left to the parser and to the rest of the server;
* `Hsp.startSendingResponse`, `Hsp.requestCleanup`;
* `Hsp.dataInReadHeaders`: `data_in_do_read` before the body.
-/

namespace Nxweb

open Lib

/-- `NXWEB_MAX_REQUEST_HEADERS_SIZE`. -/
def maxRequestHeadersSize : ℕ := 4096

/-- `_nxweb_find_end_of_http_headers`: the offsets of the end of the headers and of the start of
the body. The search visits the line feeds from the fourth byte on. -/
def findEndOfHttpHeaders (buf : List UInt8) : Option (ℕ × ℕ) :=
  (List.range' 3 (buf.length - 3)).findSome? fun p =>
    if buf[p]? = some lf then
      if buf[p - 1]? = some lf then some (p - 1, p + 1)
      else if buf[p - 3]? = some cr ∧ buf[p - 2]? = some lf ∧ buf[p - 1]? = some cr then
        some (p - 3, p + 1)
      else none
    else none

/-- What `_nxweb_parse_http_request` finds in the header lines. -/
structure RequestHead where
  headMethod : Bool := false
  getMethod : Bool := false
  postMethod : Bool := false
  otherMethod : Bool := false
  keepAlive : Bool := false
  uri : Option CStr := none
  host : Option CStr := none
  ifModifiedSince : ℤ := 0
  /-- The value of `Content-Length`, `0` without one. -/
  contentLength : ℤ := 0
  /-- `Transfer-Encoding: chunked` -/
  chunkedEncoding : Bool := false
  /-- `Expect: 100-continue` -/
  expect : Bool := false
  deriving DecidableEq, Repr

/-- The request record after the last lines of `_nxweb_parse_http_request`: a chunked body has
no known length, and without a body there is nothing to continue with. -/
def RequestHead.request (head : RequestHead) : HttpRequest :=
  let contentLength := if head.chunkedEncoding then -1 else head.contentLength
  { headMethod := head.headMethod
    getMethod := head.getMethod
    postMethod := head.postMethod
    otherMethod := head.otherMethod
    keepAlive := head.keepAlive
    uri := head.uri
    host := head.host
    ifModifiedSince := head.ifModifiedSince
    contentLength
    chunkedEncoding := head.chunkedEncoding
    expect100Continue := contentLength ≠ 0 ∧ head.expect }

/-- What the protocol uses of the rest of the server: its revision, the parser of a header block,
`open` with `-1` for a failure, and the printer of the response headers. -/
structure ServerEnv where
  revision : List UInt8
  parseHttpRequest : List UInt8 → Option RequestHead
  openFile : List UInt8 → ℤ
  prepareResponseHeaders : HttpResponse → List UInt8

/-! ### Starting a response -/

/-- `nxweb_reset_content_out`. -/
def HttpResponse.resetContentOut (resp : HttpResponse) : HttpResponse :=
  { resp with
    contentOut := none
    content := none
    contentLength := 0
    sendfilePath := none
    sendfileFd := 0
    chunkedAutoencode := false }

/-- `nxd_http_server_proto_setup_content_out`, for a response whose content has been finished. -/
def HttpResponse.setupContentOut (env : ServerEnv) (resp : HttpResponse) : HttpResponse :=
  if resp.contentOut.isSome ∨ resp.contentLength ≤ 0 then resp
  else if resp.content.isSome then { resp with contentOut := some .ob }
  else if resp.sendfileFd ≠ 0 then { resp with contentOut := some .fb }
  else
    match resp.sendfilePath with
    | none => resp
    | some path =>
      let fd := env.openFile path
      { resp with sendfileFd := fd, contentOut := if fd = -1 then none else some .fb }

/-- The answer to a conditional request whose target has not been modified. -/
def HttpResponse.checkModified (resp : HttpResponse) (req : HttpRequest) : HttpResponse :=
  if req.ifModifiedSince ≠ 0 ∧ resp.lastModified ≠ 0 ∧ resp.lastModified ≤ req.ifModifiedSince ∧
      resp.statusCode ≠ 304 then
    { resp.resetContentOut with statusCode := 304, status := some (bytes "Not Modified") }
  else resp

/-- The response as `nxd_http_server_proto_start_sending_response` completes it. -/
def HttpResponse.complete (env : ServerEnv) (resp : HttpResponse) (req : HttpRequest) :
    HttpResponse :=
  let resp := resp.checkModified req
  let resp := if resp.chunkedAutoencode then { resp with cestate := encodeChunkedInit } else resp
  let resp := resp.setupContentOut env
  { resp with rawHeaders := some (resp.rawHeaders.getD (env.prepareResponseHeaders resp)) }

/-- `nxd_http_server_proto_start_sending_response`; `none` is a failed assertion. -/
def Hsp.startSendingResponse (env : ServerEnv) (hsp : Hsp) (resp : HttpResponse) : Option Hsp :=
  if hsp.state = .receivingHeaders ∨ hsp.state = .receivingBody ∨ hsp.state = .handling then
    if resp.chunkedAutoencode ∧ resp.contentLength ≠ -1 then none
    else
      let resp := resp.complete env hsp.req
      let hsp := { hsp with
        resp := some resp
        timerRead := false
        respBodyInPaired := hsp.respBodyInPaired || resp.contentOut.isSome }
      let hsp :=
        if hsp.req.sending100Continue then hsp
        else { hsp with respHeadersPtr := resp.rawHeaders, dataOutReady := true }
      some { hsp with state := .sendingHeaders }.setTimerWrite
  else some hsp

theorem setupContentOut_keepAlive (env : ServerEnv) (resp : HttpResponse) :
    (resp.setupContentOut env).keepAlive = resp.keepAlive := by
  unfold HttpResponse.setupContentOut
  split_ifs
  · rfl
  · rfl
  · rfl
  · split <;> rfl

/-- Nothing that completes a response keeps the connection open. -/
theorem complete_keepAlive (env : ServerEnv) (resp : HttpResponse) (req : HttpRequest) :
    (resp.complete env req).keepAlive = resp.keepAlive := by
  have hmod : (resp.checkModified req).keepAlive = resp.keepAlive := by
    unfold HttpResponse.checkModified
    split_ifs <;> rfl
  unfold HttpResponse.complete
  dsimp only
  rw [setupContentOut_keepAlive]
  split_ifs <;> exact hmod

/-! ### The end of a request -/

/-- The connection waits for another request: `resp->keep_alive` is set at its end. -/
def Hsp.rearms (hsp : Hsp) : Bool := (hsp.resp.map HttpResponse.keepAlive).getD false

/-- `request_cleanup`. Without `keep_alive` the socket is shut down for writing instead of being
read again. -/
def Hsp.requestCleanup (hsp : Hsp) : Hsp :=
  { hsp with
    state := .waitingForRequest
    readBuf := []
    dataInReady := hsp.dataInReady || hsp.rearms
    req := {}
    resp := none }.setTimerKeepAlive

theorem rearms_of_resp {hsp : Hsp} {resp : HttpResponse} (h : hsp.resp = some resp) :
    hsp.rearms = resp.keepAlive := by
  simp [Hsp.rearms, h]

/-! ### The header block -/

/-- `response_100_continue`. -/
def response100Continue : List UInt8 := bytes "HTTP/1.1 100 Continue\r\n\r\n"

/-- `400` is answered and the connection closed. -/
def Hsp.badRequest (env : ServerEnv) (hsp : Hsp) : Option Hsp :=
  let resp := (HttpResponse.init none).sendHttpError env.revision 400 (bytes "Bad Request")
  { hsp with timerRead := false, dataInReady := false }.startSendingResponse env
    { resp with keepAlive := false }

/-- A header block that the parser accepts, with the bytes read after it. -/
def Hsp.requestReceived (hsp : Hsp) (req : HttpRequest) (rest : List UInt8) : Hsp :=
  let hsp := { hsp with req, firstBodyChunk := rest }
  let hsp :=
    if rest = [] ∧ req.expect100Continue then
      { hsp with
        req.sending100Continue := true
        respHeadersPtr := some response100Continue
        dataOutReady := true }
    else hsp
  let hsp := { hsp with dataInReady := false, resp := some (.init hsp.req) }
  let hsp := hsp.publish .requestReceived
  if req.contentLength ≠ 0 then { hsp with state := .receivingBody, reqBodyOutReady := true }
  else { hsp with timerRead := false, state := .handling }

/-- The first bytes of a request open its arena, and all bytes of the headers go there. -/
def Hsp.collectHeaders (hsp : Hsp) (data : List UInt8) : Hsp :=
  if hsp.state = .waitingForRequest then
    { hsp with
      readBuf := data, timerKeepAlive := false, state := .receivingHeaders }.setTimerRead
  else { hsp with readBuf := hsp.readBuf ++ data }

/-- `data_in_do_read` while the headers are being received. The arena has room for `room` bytes,
and `avail` bytes have arrived at the socket. -/
def Hsp.dataInReadHeaders (env : ServerEnv) (hsp : Hsp) (sock : Socket) (room avail : ℕ) :
    Option (Hsp × Socket) := do
  let (data, sock) := sock.dataRecvRead room avail
  let hsp := hsp.collectHeaders data
  if data = [] then return (hsp, sock)
  match findEndOfHttpHeaders hsp.readBuf with
  | some (endOfHeaders, startOfBody) =>
    match env.parseHttpRequest (hsp.readBuf.take endOfHeaders) with
    | none => return (← hsp.badRequest env, sock)
    | some head => return (hsp.requestReceived head.request (hsp.readBuf.drop startOfBody), sock)
  | none =>
    if maxRequestHeadersSize ≤ hsp.readBuf.length then return (← hsp.badRequest env, sock)
    else return (hsp, sock)

/-- What reading headers can do: wait for more of them, refuse the request, or hand it on. Here
`hsp` is the object with the new bytes in its arena. -/
inductive HeadersCases (env : ServerEnv) (hsp : Hsp) : Hsp → Prop
  | pending : HeadersCases env hsp hsp
  | bad {hsp' : Hsp} (hbad : hsp.badRequest env = some hsp') : HeadersCases env hsp hsp'
  | request {e b : ℕ} {head : RequestHead} (hfind : findEndOfHttpHeaders hsp.readBuf = some (e, b))
      (hparse : env.parseHttpRequest (hsp.readBuf.take e) = some head) :
      HeadersCases env hsp (hsp.requestReceived head.request (hsp.readBuf.drop b))

theorem dataInReadHeaders_cases {env : ServerEnv} {hsp hsp' : Hsp} {sock sock' : Socket}
    {room avail : ℕ} (h : hsp.dataInReadHeaders env sock room avail = some (hsp', sock')) :
    sock' = (sock.dataRecvRead room avail).2 ∧
      HeadersCases env (hsp.collectHeaders (sock.dataRecvRead room avail).1) hsp' := by
  unfold Hsp.dataInReadHeaders at h
  generalize sock.dataRecvRead room avail = rd at h ⊢
  obtain ⟨data, sock₁⟩ := rd
  dsimp only at h ⊢
  generalize hsp.collectHeaders data = hsp at h ⊢
  by_cases hdata : data = []
  · rw [if_pos hdata] at h
    obtain ⟨rfl, rfl⟩ := h
    exact ⟨rfl, .pending⟩
  rw [if_neg hdata] at h
  cases hfind : findEndOfHttpHeaders hsp.readBuf with
  | none =>
    simp only [hfind] at h
    split_ifs at h
    · obtain ⟨hsp₁, hbad, hret⟩ := Option.bind_eq_some_iff.mp h
      obtain ⟨rfl, rfl⟩ := hret
      exact ⟨rfl, .bad hbad⟩
    · obtain ⟨rfl, rfl⟩ := h
      exact ⟨rfl, .pending⟩
  | some found =>
    obtain ⟨e, b⟩ := found
    simp only [hfind] at h
    cases hparse : env.parseHttpRequest (hsp.readBuf.take e) with
    | none =>
      simp only [hparse] at h
      obtain ⟨hsp₁, hbad, hret⟩ := Option.bind_eq_some_iff.mp h
      obtain ⟨rfl, rfl⟩ := hret
      exact ⟨rfl, .bad hbad⟩
    | some head =>
      simp only [hparse] at h
      obtain ⟨rfl, rfl⟩ := h
      exact ⟨rfl, .request hfind hparse⟩

/-- The bytes of the headers are collected in order. -/
theorem collectHeaders_spec {hsp : Hsp} (data : List UInt8)
    (hst : hsp.state = .waitingForRequest ∨ hsp.state = .receivingHeaders)
    (hbuf : hsp.state = .waitingForRequest → hsp.readBuf = []) :
    (hsp.collectHeaders data).state = .receivingHeaders ∧
      (hsp.collectHeaders data).readBuf = hsp.readBuf ++ data ∧
      (hsp.collectHeaders data).req = hsp.req := by
  unfold Hsp.collectHeaders
  split_ifs with hwait
  · simp [hbuf hwait]
  · exact ⟨hst.resolve_left hwait, rfl, rfl⟩

/-- The body starts inside the buffer or right behind it. -/
theorem findEndOfHttpHeaders_le {buf : List UInt8} {e b : ℕ}
    (h : findEndOfHttpHeaders buf = some (e, b)) : b ≤ buf.length := by
  obtain ⟨p, hp, hfound⟩ := List.exists_of_findSome?_eq_some h
  have hlt : p < buf.length := by
    rw [List.mem_range'] at hp
    omega
  split_ifs at hfound <;> obtain ⟨-, rfl⟩ := Prod.mk.inj (Option.some.inj hfound) <;> omega

/-- The states in which a response can be started. -/
def HspState.CanStart (st : HspState) : Prop :=
  st = .receivingHeaders ∨ st = .receivingBody ∨ st = .handling

/-- What starting a response leaves behind. -/
structure ResponseStarted (env : ServerEnv) (hsp : Hsp) (resp : HttpResponse) (hsp' : Hsp) :
    Prop where
  state_eq : hsp'.state = .sendingHeaders
  req_eq : hsp'.req = hsp.req
  events_eq : hsp'.eventsPub = hsp.eventsPub
  resp_eq : hsp'.resp = some (resp.complete env hsp.req)

/-- A response is started, or refused because of the state. -/
theorem startSendingResponse_spec {env : ServerEnv} {hsp hsp' : Hsp} {resp : HttpResponse}
    (h : hsp.startSendingResponse env resp = some hsp') :
    hsp.state.CanStart ∧ ResponseStarted env hsp resp hsp' ∨
      ¬ hsp.state.CanStart ∧ hsp' = hsp := by
  unfold Hsp.startSendingResponse at h
  by_cases hst : hsp.state = .receivingHeaders ∨ hsp.state = .receivingBody ∨
      hsp.state = .handling
  · rw [if_pos hst] at h
    refine .inl ⟨hst, ?_⟩
    by_cases hchunked : resp.chunkedAutoencode = true ∧ resp.contentLength ≠ -1
    · rw [if_pos hchunked] at h
      cases h
    · rw [if_neg hchunked] at h
      obtain rfl := Option.some.inj h
      constructor <;> dsimp only <;> split_ifs <;> rfl
  · rw [if_neg hst] at h
    obtain rfl := Option.some.inj h
    exact .inr ⟨hst, rfl⟩

/-- A bad request is answered without a request record, and the connection closed. -/
theorem badRequest_spec {env : ServerEnv} {hsp hsp' : Hsp} (hst : hsp.state = .receivingHeaders)
    (h : hsp.badRequest env = some hsp') :
    hsp'.state = .sendingHeaders ∧ hsp'.req = hsp.req ∧ hsp'.eventsPub = hsp.eventsPub ∧
      hsp'.rearms = false := by
  rcases startSendingResponse_spec h with ⟨-, hstate, hreq, hevents, hresp⟩ | ⟨hnot, -⟩
  · refine ⟨hstate, hreq, hevents, ?_⟩
    rw [rearms_of_resp hresp, complete_keepAlive]
  · exact absurd (.inl hst) hnot

/-- What is known of a request when its headers have been parsed. -/
structure Fresh (hsp : Hsp) (head : RequestHead) (rest : List UInt8) (hsp' : Hsp) : Prop where
  req_eq : hsp'.req = { head.request with sending100Continue := hsp'.req.sending100Continue }
  chunk_eq : hsp'.firstBodyChunk = rest
  readBuf_eq : hsp'.readBuf = hsp.readBuf
  state_eq : hsp'.state = if head.request.contentLength ≠ 0 then .receivingBody else .handling

theorem requestReceived_fresh (hsp : Hsp) (head : RequestHead) (rest : List UInt8) :
    Fresh hsp head rest (hsp.requestReceived head.request rest) := by
  unfold Hsp.requestReceived
  constructor <;> split_ifs <;> simp_all [Hsp.publish, RequestHead.request]

end Nxweb
