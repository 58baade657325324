import Nxweb.Lib.Machine
import Nxweb.ServerProto.State

/-!
# A proxied request

Model of the part of `modules/http_proxy.c` that follows one client request over its attempts at
the backend: `nxweb_http_proxy_handler_on_headers`, `start_proxy_request`,
`retry_proxy_request`, `fail_proxy_request`, `timer_backend_on_timeout` and
`nxweb_http_server_proxy_events_sub_on_message`, together with the averaging of the clock
difference of the backend from `nxd_http_proxy.c`.

The state is `nxweb_http_proxy_request_data` and the response record of the connection. Its
events are the messages of the backend connection, the expiry of the backend timer, and what the
backend connection and the client do on their own. A message is delivered only while the request
is subscribed to the backend connection, and the timer expires only while it is set.

The record of the forwarded request and the two ring buffers are not part of this module.

## Main definitions

* `ProxyRequest`: `nxweb_http_proxy_request_data`;
* `ProxyEvent`, `proxyStep`: the machine;
* `beginProxyRequest`: its initial states.
-/

namespace Nxweb

/-! ### Clock difference of the backend -/

/-- `NXD_HTTP_PROXY_POOL_TIME_DELTA_NO_VALUE`. -/
def timeDeltaNoValue : ℤ := 1000000

/-- The samples of the clock difference in `nxd_http_proxy_pool`. -/
structure TimeDeltas where
  samples : List ℤ := List.replicate 8 timeDeltaNoValue
  idx : ℕ := 0
  deriving DecidableEq, Repr

/-- `nxd_http_proxy_pool_report_backend_time_delta`. -/
def TimeDeltas.report (p : TimeDeltas) (delta : ℤ) : TimeDeltas where
  samples := p.samples.set p.idx delta
  idx := (p.idx + 1) % 8

/-- `nxd_http_proxy_pool_get_backend_time_delta`. -/
def TimeDeltas.get (p : TimeDeltas) : ℤ :=
  let values := p.samples.filter (· ≠ timeDeltaNoValue)
  let cnt : ℤ := values.length
  if cnt = 0 then 0 else (values.sum + cnt.tdiv 2).tdiv cnt

/-! ### The request -/

/-- `NXWEB_PROXY_RETRY_COUNT`. -/
def proxyRetryCount : ℕ := 4

/-- What the request reads of its backend connection. -/
structure BackendConn where
  reqBodySendingStarted : Bool := false
  deriving DecidableEq, Repr

/-- `nxweb_http_proxy_request_data`, with the response record and the protocol state of the
client connection. `startCalls` counts the calls of `nxweb_start_sending_response`. -/
structure ProxyRequest where
  retryCount : ℕ := 0
  responseSendingStarted : Bool := false
  proxyRequestComplete : Bool := false
  proxyRequestError : Bool := false
  hpx : Option BackendConn := none
  subscribed : Bool := false
  timerBackend : Bool := false
  pool : TimeDeltas := {}
  resp : HttpResponse := {}
  hspState : HspState := .receivingHeaders
  startCalls : ℕ := 0
  connFinalized : Bool := false
  /-- An assertion has failed or a null pointer was followed. -/
  aborted : Bool := false
  deriving DecidableEq, Repr

/-- What the functions use of the rest of the server: its revision, and
`nxweb_start_sending_response`, which runs the filters of the handler and starts the protocol. -/
structure ProxyEnv where
  revision : List UInt8
  startSendingResponse : HspState × HttpResponse → HspState × HttpResponse

/-- A call of `nxweb_start_sending_response`. -/
def ProxyRequest.startSendingResponse (env : ProxyEnv) (s : ProxyRequest) : ProxyRequest :=
  let (hspState, resp) := env.startSendingResponse (s.hspState, s.resp)
  { s with hspState, resp, startCalls := s.startCalls + 1 }

/-- `nxweb_http_server_connection_finalize`: the request is finalized with its connection. -/
def ProxyRequest.finalizeConnection (s : ProxyRequest) : ProxyRequest :=
  { s with connFinalized := true, hpx := none, subscribed := false, timerBackend := false }

/-- `start_proxy_request`. The flag says whether `nxd_http_proxy_pool_connect` succeeds. -/
def startProxyRequest (env : ProxyEnv) (s : ProxyRequest) (connects : Bool) :
    NxwebResult × ProxyRequest :=
  let s := { s with
    proxyRequestComplete := false, proxyRequestError := false, responseSendingStarted := false }
  if connects then
    (.ok, { s with hpx := some {}, subscribed := true, timerBackend := true })
  else
    (.error, { s with resp := s.resp.sendHttpError env.revision 502 (bytes "Bad Gateway") })

/-- `retry_proxy_request`. The result of `start_proxy_request` is ignored. -/
def retryProxyRequest (env : ProxyEnv) (s : ProxyRequest) (connects : Bool) : ProxyRequest :=
  if s.hspState = .receivingHeaders ∨ s.hspState = .receivingBody ∨ s.hspState = .handling then
    let s := { s with subscribed := false, hpx := none, retryCount := s.retryCount + 1 }
    (startProxyRequest env s connects).2
  else { s with aborted := true }

/-- `fail_proxy_request`. -/
def failProxyRequest (env : ProxyEnv) (s : ProxyRequest) : ProxyRequest :=
  if s.responseSendingStarted then s.finalizeConnection
  else
    let s := { s with
      resp := s.resp.sendHttpError env.revision 504 (bytes "Gateway Timeout") }
    { s.startSendingResponse env with responseSendingStarted := true, proxyRequestComplete := true }

/-- `timer_backend_on_timeout`. -/
def timerBackendOnTimeout (env : ProxyEnv) (s : ProxyRequest) (connects : Bool) : ProxyRequest :=
  match s.hpx with
  | none => { s with aborted := true }
  | some hpx =>
    if hpx.reqBodySendingStarted ∨ s.responseSendingStarted then s
    else if proxyRetryCount ≤ s.retryCount then failProxyRequest env s
    else retryProxyRequest env s connects

/-- The response of the backend is copied to the client. `now` is the current time. -/
def copyBackendResponse (pool : TimeDeltas) (now : ℤ) (presp resp : HttpResponse) :
    TimeDeltas × HttpResponse :=
  let pool := pool.report (if presp.date ≠ 0 then presp.date - now else 0)
  let delta := pool.get
  (pool, { resp with
    status := presp.status
    statusCode := presp.statusCode
    contentType := presp.contentType
    contentLength := presp.contentLength
    chunkedAutoencode := presp.contentLength < 0 || resp.chunkedAutoencode
    ssiOn := presp.ssiOn
    templatesOn := presp.templatesOn
    headers := presp.headers
    date := if presp.date ≠ 0 then presp.date - delta else 0
    lastModified := if presp.lastModified ≠ 0 then presp.lastModified - delta else 0
    expires := if presp.expires ≠ 0 then presp.expires - delta else 0
    cacheControl := presp.cacheControl
    maxAge := presp.maxAge
    noCache := presp.noCache
    cachePrivate := presp.cachePrivate
    contentOut := some .rbResp })

/-- The messages of the backend connection. An error has a negative code. -/
inductive HcpMessage where
  | responseReceived (presp : HttpResponse) (now : ℤ)
  | requestComplete
  | error (code : ℤ)
  deriving DecidableEq, Repr

/-- `nxweb_http_server_proxy_events_sub_on_message`. -/
def proxyEventsSubOnMessage (env : ProxyEnv) (s : ProxyRequest) (msg : HcpMessage)
    (connects : Bool) : ProxyRequest :=
  match msg with
  | .responseReceived presp now =>
    let (pool, resp) := copyBackendResponse s.pool now presp s.resp
    let s := { s with timerBackend := false, pool, resp }
    { s.startSendingResponse env with responseSendingStarted := true }
  | .requestComplete => { s with proxyRequestComplete := true }
  | .error _ =>
    let s := { s with proxyRequestError := true }
    if s.proxyRequestComplete then s
    else if s.responseSendingStarted then failProxyRequest env s
    else
      let s := { s with timerBackend := false }
      match s.hpx with
      | none => { s with aborted := true }
      | some hpx =>
        if proxyRetryCount ≤ s.retryCount ∨ hpx.reqBodySendingStarted then failProxyRequest env s
        else retryProxyRequest env s connects

/-! ### The machine -/

/-- What can happen to a request: a message of the backend connection, the expiry of the backend
timer, the backend asking for the request body, progress of the client protocol, and the end of
the client's request. The flags say whether a new connection can be made where one is tried. -/
inductive ProxyEvent where
  | message (msg : HcpMessage) (connects : Bool)
  | timeout (connects : Bool)
  | bodySendingStarted
  | client (state : HspState)
  | finalize
  deriving DecidableEq, Repr

/-- One event. A message needs a subscription, and the code of an error is negative; the timer
must be set and is not set any more when it has expired. -/
def proxyStep (env : ProxyEnv) (s : ProxyRequest) (e : ProxyEvent) : Option ProxyRequest :=
  if s.connFinalized ∨ s.aborted then none
  else
    match e with
    | .message (.error code) connects =>
      if s.subscribed ∧ code < 0 then some (proxyEventsSubOnMessage env s (.error code) connects)
      else none
    | .message msg connects =>
      if s.subscribed then some (proxyEventsSubOnMessage env s msg connects) else none
    | .timeout connects =>
      if s.timerBackend then some (timerBackendOnTimeout env { s with timerBackend := false } connects)
      else none
    | .bodySendingStarted =>
      s.hpx.map fun hpx => { s with hpx := some { hpx with reqBodySendingStarted := true } }
    | .client state => some { s with hspState := state }
    | .finalize => some s.finalizeConnection

/-- What a step can do, event by event. -/
inductive ProxyTransition (env : ProxyEnv) (s : ProxyRequest) : ProxyEvent → ProxyRequest → Prop
  | response (presp : HttpResponse) (now : ℤ) (connects : Bool) (hsub : s.subscribed = true) :
      ProxyTransition env s (.message (.responseReceived presp now) connects)
        (proxyEventsSubOnMessage env s (.responseReceived presp now) connects)
  | complete (connects : Bool) (hsub : s.subscribed = true) :
      ProxyTransition env s (.message .requestComplete connects)
        { s with proxyRequestComplete := true }
  | error (code : ℤ) (connects : Bool) (hsub : s.subscribed = true) (hcode : code < 0) :
      ProxyTransition env s (.message (.error code) connects)
        (proxyEventsSubOnMessage env s (.error code) connects)
  | timeout (connects : Bool) (htimer : s.timerBackend = true) :
      ProxyTransition env s (.timeout connects)
        (timerBackendOnTimeout env { s with timerBackend := false } connects)
  | bodySendingStarted (hpx : BackendConn) (hhpx : s.hpx = some hpx) :
      ProxyTransition env s .bodySendingStarted
        { s with hpx := some { hpx with reqBodySendingStarted := true } }
  | client (state : HspState) : ProxyTransition env s (.client state) { s with hspState := state }
  | finalize : ProxyTransition env s .finalize s.finalizeConnection

theorem proxyStep_cases {env : ProxyEnv} {s s' : ProxyRequest} {e : ProxyEvent}
    (hstep : proxyStep env s e = some s') : ProxyTransition env s e s' := by
  unfold proxyStep at hstep
  by_cases hover : s.connFinalized = true ∨ s.aborted = true
  · simp [hover] at hstep
  rw [if_neg hover] at hstep
  match e with
  | .message (.responseReceived presp now) connects =>
    obtain ⟨hsub, ⟨⟩⟩ := Option.ite_none_right_eq_some.mp hstep
    exact .response presp now connects hsub
  | .message .requestComplete connects =>
    obtain ⟨hsub, ⟨⟩⟩ := Option.ite_none_right_eq_some.mp hstep
    exact .complete connects hsub
  | .message (.error code) connects =>
    obtain ⟨hsub, ⟨⟩⟩ := Option.ite_none_right_eq_some.mp hstep
    exact .error code connects hsub.1 hsub.2
  | .timeout connects =>
    obtain ⟨htimer, ⟨⟩⟩ := Option.ite_none_right_eq_some.mp hstep
    exact .timeout connects htimer
  | .bodySendingStarted =>
    obtain ⟨hpx, hhpx, rfl⟩ := Option.map_eq_some_iff.mp hstep
    exact .bodySendingStarted hpx hhpx
  | .client state =>
    obtain rfl := Option.some.inj hstep
    exact .client state
  | .finalize =>
    obtain rfl := Option.some.inj hstep
    exact .finalize

/-- `nxweb_http_proxy_handler_on_headers`, and what the caller does with its result: an error is
answered at once. -/
def beginProxyRequest (env : ProxyEnv) (hspState : HspState) (resp : HttpResponse)
    (pool : TimeDeltas) (connects : Bool) : ProxyRequest :=
  match startProxyRequest env { hspState, resp, pool } connects with
  | (.ok, s) => s
  | (_, s) => s.startSendingResponse env

end Nxweb
