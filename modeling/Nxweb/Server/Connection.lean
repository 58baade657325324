import Nxweb.Proxy.Request
import Nxweb.ServerProto.DataOut
import Nxweb.ServerProto.RequestBody
import Nxweb.ServerProto.RequestHeaders

/-!
# A client connection

One client connection over all the requests it carries: `nxd_http_server_proto` with its socket,
the handler of the current request, the data of a proxied request, and
`nxweb_http_server_connection_events_sub_on_message` (`http_server.c`), which gets the messages
that the protocol publishes. Messages are delivered one by one, in the order in which they were
published, and between two events every function runs to its end.

What handlers and filters do to the response is arbitrary, except that none of them switches
`keep_alive` on: it is set from the request, and all assignments in the server clear it. A handler
may start the response from inside a callback or at any later time (`ConnEvent.respond`), which
also covers worker threads and filters that have delayed it. The handler `http_proxy` runs as
`proxyStep` says.

The ghost field `taken` holds the bytes that have been taken from the socket behind the header
block of the current request.

The memory buffer, the files and the access log are not part of this module, and neither are
subrequests: a subrequest has no body and no socket.

## Main definitions

* `Connection`, `ConnEvent`, `Connection.step`: the machine;
* `Connection.startSendingResponse`: `nxweb_start_sending_response`;
* `Connection.onRequestReceived`, `Connection.onRequestBodyReceived`,
  `Connection.onRequestComplete`: the three messages of a request.
-/

namespace Nxweb

/-- What a callback makes of the response record. -/
structure ResponseUpdate where
  apply : HttpResponse → HttpResponse
  keepAlive_of : ∀ resp, (apply resp).keepAlive = true → resp.keepAlive = true

/-- A callback that leaves the response alone. -/
def ResponseUpdate.none : ResponseUpdate := ⟨id, fun _ h => h⟩

/-- One call of a callback: what it does to the response, whether it starts to send it, and
whether it answers `NXWEB_OK`. A callback that is missing does nothing. -/
structure CallbackRun where
  update : ResponseUpdate := .none
  starts : Bool := false
  ok : Bool := true

/-- The filters of a handler and the cache that stores its responses: what they make of a
response, with `run_filter_idx` where they have to be resumed, and whether one delays it. -/
structure FilterRun where
  update : ResponseUpdate := .none
  delays : HttpResponse → Bool := fun _ => false

/-- How `invoke_request_handler` ends: with a response, without a worker to get it from, or
without a response for now. -/
inductive RequestRun where
  | answer (update : ResponseUpdate)
  | noWorker
  | later

/-- The fields of `nxweb_handler` that are used. -/
structure RequestHandler where
  handleGet : Bool := false
  handlePost : Bool := false
  handleOther : Bool := false
  acceptContent : Bool := false
  /-- The handler is `http_proxy`. -/
  isProxy : Bool := false
  filters : FilterRun := {}

/-- The handler does not take the method, or a body. -/
def RequestHandler.refuses (h : RequestHandler) (req : HttpRequest) : Bool :=
  (h.handleGet || h.handlePost || h.handleOther) &&
    ((!(h.handleGet && req.getMethod) && !(h.handlePost && req.postMethod) &&
        !(h.handleOther && req.otherMethod)) ||
      (decide (req.contentLength ≠ 0) && !(h.handlePost || h.acceptContent)))

/-- What the code outside of this module does while one message is handled. -/
structure Callbacks where
  /-- The handler that the dispatcher selects. -/
  handler : RequestHandler
  /-- `on_select` answers `NXWEB_ERROR`. -/
  selectFails : Bool := false
  select : CallbackRun := {}
  onHeaders : CallbackRun := {}
  onPostData : CallbackRun := {}
  /-- `on_post_data` connects a stream of its own to the body. -/
  connectsBody : Bool := false
  onPostDataComplete : CallbackRun := {}
  request : RequestRun := .later
  /-- A connection to the backend can be made. -/
  connects : Bool := false
  pool : TimeDeltas := {}

/-- `nxweb_http_server_connection`. -/
structure Connection where
  hsp : Hsp := {}
  sock : Socket := {}
  out : NextOs := ⟨true, []⟩
  handler : Option RequestHandler := none
  proxy : Option ProxyRequest := none
  closed : Bool := false
  taken : List UInt8 := []

/-! ### Starting a response -/

/-- The protocol is told to send the response. Its record has been changed in any case. -/
def Connection.startProtocol (env : ServerEnv) (c : Connection) (resp : HttpResponse) :
    Option Connection :=
  ({ c.hsp with resp := some resp }.startSendingResponse env resp).map fun hsp => { c with hsp }

/-- `nxweb_start_sending_response`. -/
def Connection.startSendingResponse (env : ServerEnv) (c : Connection) (resp : HttpResponse) :
    Option Connection :=
  let resp := resp.setupContentOut env
  match c.handler with
  | some h =>
    if h.filters.delays resp then
      some { c with hsp.resp := some (h.filters.update.apply resp) }
    else c.startProtocol env (h.filters.update.apply resp)
  | none => c.startProtocol env resp

/-- A callback is called. -/
def Connection.runCallback (env : ServerEnv) (c : Connection) (r : CallbackRun) :
    Option Connection := do
  let resp ← c.hsp.resp
  if r.starts then c.startSendingResponse env (r.update.apply resp)
  else some { c with hsp.resp := some (r.update.apply resp) }

/-- `resp->keep_alive=0`, if there is a body pending. -/
def HttpResponse.closeIfBody (resp : HttpResponse) (req : HttpRequest) : HttpResponse :=
  if req.contentLength ≠ 0 then { resp with keepAlive := false } else resp

/-! ### A request has been received -/

/-- `request_dispatcher`: an error of `on_select` is answered without filters, as no handler has
been selected then. -/
def Connection.dispatch (env : ServerEnv) (c : Connection) (cb : Callbacks) : Option Connection :=
  if cb.selectFails then do
    let resp ← c.hsp.resp
    let c ← { c with handler := none }.startSendingResponse env
      ((cb.select.update.apply resp).closeIfBody c.hsp.req)
    return { c with handler := some cb.handler }
  else { c with handler := some cb.handler }.runCallback env cb.select

/-- The body is connected to the ring buffer of a proxied request. -/
def Hsp.connectProxyBody (hsp : Hsp) : Hsp :=
  if hsp.req.contentLength ≠ 0 then
    { hsp with
      reqBodyOutPaired := true
      req.cdstate := { hsp.req.cdstate with monitorOnly := true }
      dataInReady := true }
  else hsp

/-- The environment of `proxyStep` on a connection: a response is only prepared there, and sent
by the connection. -/
def ServerEnv.proxyEnv (env : ServerEnv) : ProxyEnv := ⟨env.revision, id⟩

/-- `nxweb_http_proxy_handler_on_headers`, with the flag for `NXWEB_OK`. -/
def Connection.beginProxy (env : ServerEnv) (c : Connection) (cb : Callbacks) :
    Option (Bool × Connection) := do
  let resp ← c.hsp.resp
  match startProxyRequest env.proxyEnv { resp, pool := cb.pool, hspState := c.hsp.state }
    cb.connects with
  | (.ok, p) => return (true, { c with
      proxy := some p, hsp := { c.hsp with resp := some p.resp }.connectProxyBody })
  | (_, p) => return (false, { c with proxy := some p, hsp.resp := some p.resp })

/-- `on_headers` of the handler. -/
def Connection.onHeaders (env : ServerEnv) (c : Connection) (cb : Callbacks) :
    Option (Bool × Connection) :=
  if cb.handler.isProxy then c.beginProxy env cb
  else (c.runCallback env cb.onHeaders).map fun c => (cb.onHeaders.ok, c)

/-- `invoke_request_handler`. -/
def Connection.invokeRequestHandler (env : ServerEnv) (c : Connection) (run : RequestRun) :
    Option Connection :=
  match run with
  | .answer update => c.hsp.resp.bind fun resp => c.startSendingResponse env (update.apply resp)
  | .noWorker => c.hsp.resp.bind fun resp => c.startSendingResponse env
      (resp.sendHttpError env.revision 503 (bytes "Service Unavailable"))
  | .later => some c

/-- `on_post_data`, which may connect the body. -/
def Connection.onPostData (env : ServerEnv) (c : Connection) (cb : Callbacks) : Option Connection :=
  (c.runCallback env cb.onPostData).map fun c =>
    { c with hsp.reqBodyOutPaired := c.hsp.reqBodyOutPaired || cb.connectsBody }

/-- A body that no callback has connected goes to memory, if it is not too large. -/
def Connection.receiveBody (env : ServerEnv) (c : Connection) : Option Connection :=
  if c.hsp.state ≠ .sendingHeaders ∧ c.hsp.reqBodyOutPaired = false then do
    let resp ← c.hsp.resp
    if maxRequestBodySize < c.hsp.req.contentLength then
      c.startSendingResponse env { resp.sendHttpError env.revision 413
        (bytes "Request Entity Too Large") with keepAlive := false }
    else return { c with hsp := c.hsp.bufferToMemory }
  else some c

/-- The request goes on after its headers. The handler `http_proxy` has connected the body, and it
has neither `on_post_data` nor `on_request`. -/
def Connection.proceed (env : ServerEnv) (c : Connection) (cb : Callbacks) : Option Connection :=
  if cb.handler.isProxy then some c
  else if c.hsp.req.contentLength ≠ 0 then do
    (← c.onPostData env cb).receiveBody env
  else c.invokeRequestHandler env cb.request

/-- The part of the branch after the dispatcher: the method is checked and `on_headers` called. -/
def Connection.admit (env : ServerEnv) (c : Connection) (cb : Callbacks) : Option Connection :=
  if cb.handler.refuses c.hsp.req then do
    let resp ← c.hsp.resp
    c.startSendingResponse env
      ((resp.sendHttpError env.revision 405 (bytes "Method Not Allowed")).closeIfBody c.hsp.req)
  else do
    match ← c.onHeaders env cb with
    | (false, c) =>
      let resp ← c.hsp.resp
      c.startSendingResponse env (resp.closeIfBody c.hsp.req)
    | (true, c) => if c.hsp.state = .sendingHeaders then return c else c.proceed env cb

/-- A callback of the dispatcher has started the response, or a filter has delayed it. -/
def Connection.answering (c : Connection) : Bool :=
  decide (c.hsp.state = .sendingHeaders) ||
    decide ((c.hsp.resp.map HttpResponse.runFilterIdx).getD 0 ≠ 0)

/-- The branch for `NXD_HSP_REQUEST_RECEIVED`. -/
def Connection.onRequestReceived (env : ServerEnv) (c : Connection) (cb : Callbacks) :
    Option Connection := do
  let c ← c.dispatch env cb
  if c.answering then return c else c.admit env cb

/-! ### The other messages -/

/-- The branch for `NXD_HSP_REQUEST_BODY_RECEIVED`. -/
def Connection.onRequestBodyReceived (env : ServerEnv) (c : Connection) (cb : Callbacks) :
    Option Connection :=
  match c.handler with
  | none => none
  | some h =>
    if h.isProxy then some c
    else do (← c.runCallback env cb.onPostDataComplete).invokeRequestHandler env cb.request

/-- The branch for `NXD_HSP_REQUEST_COMPLETE`: `request_cleanup`, with the finalizers of the
request. -/
def Connection.onRequestComplete (c : Connection) : Connection :=
  { c with hsp := c.hsp.requestCleanup, handler := none, proxy := none }

/-- `nxweb_http_server_connection_events_sub_on_message` for the oldest message. An error closes
the connection. -/
def Connection.deliver (env : ServerEnv) (c : Connection) (cb : Callbacks) : Option Connection :=
  match c.hsp.eventsPub with
  | [] => none
  | msg :: msgs =>
    let c := { c with hsp.eventsPub := msgs }
    match msg with
    | .requestReceived => c.onRequestReceived env cb
    | .requestBodyReceived => c.onRequestBodyReceived env cb
    | .requestComplete => some c.onRequestComplete
    | .requestChunkedEncodingError => some { c with closed := true }

/-! ### The backend -/

/-- The body is connected again for another attempt, if there is a connection. -/
def Hsp.reconnectProxyBody (hsp : Hsp) (connected : Bool) : Hsp :=
  if connected then { hsp with reqBodyOutPaired := false }.connectProxyBody
  else { hsp with reqBodyOutPaired := false }

/-- What the connection does after an event of the backend that has changed the data of the
proxied request from `p` to `p'`. -/
def Connection.afterProxy (env : ServerEnv) (c : Connection) (p p' : ProxyRequest) :
    Option Connection :=
  if p'.aborted then none
  else if p'.connFinalized then some { c with closed := true }
  else
    let c := { c with proxy := some p' }
    if p'.startCalls ≠ p.startCalls then c.startSendingResponse env p'.resp
    else if p'.retryCount ≠ p.retryCount then
      some { c with
        hsp := { c.hsp with resp := some p'.resp }.reconnectProxyBody p'.hpx.isSome }
    else some { c with hsp.resp := some p'.resp }

/-- The proxied request as the backend finds it: it shares the response record and the state of
the protocol with the connection. -/
def Connection.proxyView (c : Connection) : Option ProxyRequest := do
  let p ← c.proxy
  let resp ← c.hsp.resp
  return { p with resp, hspState := c.hsp.state }

/-- Events of the backend connection and of the backend timer. -/
def ProxyEvent.ofBackend : ProxyEvent → Bool
  | .message _ _ | .timeout _ | .bodySendingStarted => true
  | .client _ | .finalize => false

/-- An event of the backend. -/
def Connection.stepProxy (env : ServerEnv) (c : Connection) (e : ProxyEvent) :
    Option Connection := do
  let p ← c.proxyView
  if e.ofBackend then c.afterProxy env p (← proxyStep env.proxyEnv p e) else none

/-! ### The machine -/

/-- What can happen on a connection. -/
inductive ConnEvent where
  /-- The socket has become readable. -/
  | arrival
  /-- `data_in_do_read` before the body. -/
  | readHeaders (room avail : ℕ)
  /-- The consumer of the body reads. -/
  | readBody (size avail : ℕ)
  /-- The event loop delivers the oldest message. -/
  | deliver (cb : Callbacks)
  /-- A handler, a worker or a filter starts the response. -/
  | respond (update : ResponseUpdate)
  /-- The backend of a proxied request. -/
  | backend (e : ProxyEvent)
  /-- `data_out_do_write`. -/
  | write (reply100 reply : WriteReply) (offer : Option BodyOffer)
  /-- The producer of the response body writes. -/
  | writeBody (data : List UInt8) (eof : Bool) (replies : WriteReplies)
  /-- A timeout or an error of the socket closes the connection. -/
  | finalize

/-- The body is read, and what is taken from the socket is noted. -/
def Connection.readBody (c : Connection) (size avail : ℕ) : Option Connection :=
  if c.hsp.reqBodyOutPaired then
    (c.hsp.reqBodyOutRead (some c.sock) size avail).map fun r =>
      let sock := r.sock.getD c.sock
      { c with
        hsp := r.hsp
        sock
        taken := c.taken ++
          c.sock.incoming.take (c.sock.incoming.length - sock.incoming.length) }
  else none

/-- The headers are read. If they are complete, the bytes read after them have been taken. -/
def Connection.readHeaders (env : ServerEnv) (c : Connection) (room avail : ℕ) :
    Option Connection :=
  if c.hsp.dataInReady ∧ (c.hsp.state = .waitingForRequest ∨ c.hsp.state = .receivingHeaders) then
    (c.hsp.dataInReadHeaders env c.sock room avail).map fun (hsp, sock) =>
      { c with hsp, sock, taken := hsp.firstBodyChunk }
  else none

/-- One event on a connection that is open. -/
def Connection.step (env : ServerEnv) (c : Connection) (e : ConnEvent) : Option Connection :=
  if c.closed then none
  else
    match e with
    | .arrival => some { c with sock.ready := true }
    | .readHeaders room avail => c.readHeaders env room avail
    | .readBody size avail => c.readBody size avail
    | .deliver cb => c.deliver env cb
    | .respond update => do
      let resp ← c.hsp.resp
      c.startSendingResponse env (update.apply resp)
    | .backend e => c.stepProxy env e
    | .write reply100 reply offer =>
      if c.hsp.dataOutReady then
        (c.hsp.dataOutDoWrite c.out reply100 reply offer).map fun (hsp, out) =>
          { c with hsp, out }
      else none
    | .writeBody data eof replies =>
      if c.hsp.respBodyInPaired then
        (respBodyInWriteOrSendfile c.hsp (some c.out) data eof replies).map fun (_, hsp, out) =>
          { c with hsp, out := out.getD c.out }
      else none
    | .finalize => some { c with closed := true }

/-- A connection that a client has just opened, with the bytes it is going to send. -/
def Connection.connect (incoming : List UInt8) : Connection :=
  { sock := { incoming }, hsp := { timerKeepAlive := true } }

end Nxweb
