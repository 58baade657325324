import Nxweb.ClientProto.Transfer
import Nxweb.Memory.Pool

/-!
# The pool of backend connections

Model of `nxd_http_proxy.c`. A `nxd_http_proxy_pool` takes its connection objects from `free_pool`
and hands them out to requests. A connection that comes back with its response complete waits on
the idle list, where it is subscribed to its own events; any other one is closed and freed.

The objects are named as in their `nxp_pool`, and the `prev` and `next` of all of them are the
links of the idle list. What the loop does to a connection between two calls of the pool is told
by calls of the protocol functions. A connection is known to have subscribers of two kinds: its
own `events_sub`, and the one of the request that it is handed out to.

## Main definitions

* `HttpProxy`, `HttpProxyPool`: `nxd_http_proxy` and `nxd_http_proxy_pool`;
* `HttpProxyPool.connect`, `HttpProxyPool.giveBack`, `HttpProxyPool.eventsSubOnMessage`: the
  functions of the pool;
* `HttpProxyPool.step`: one event in the life of a pool.
-/

namespace Nxweb

/-! ### A connection -/

/-- Who subscribes to the events of a connection. -/
inductive HpxSubscriber where
  /-- The `events_sub` of the connection itself. -/
  | eventsSub
  /-- The `proxy_events_sub` of a request. -/
  | request
  deriving DecidableEq, Repr

/-- `nxd_http_proxy`. Its socket has no state here. -/
structure HttpProxy where
  hcp : Hcp := {}
  /-- Whether `hcp.nxb` is set. -/
  nxb : Bool := false
  /-- The subscribers of `hcp.events_pub`. -/
  subs : List HpxSubscriber := []
  deriving DecidableEq, Repr

/-- The values of `errno` that a `connect` is known to leave. -/
inductive ConnectErrno where
  | einprogress
  | ealready
  | eisconn
  | other (code : ℕ)
  deriving DecidableEq, Repr

/-- What the system answers when a connection is opened. -/
structure ConnectAnswers where
  /-- Whether `socket` returns a descriptor. -/
  socket : Bool
  /-- Whether `_nxweb_setup_client_socket` succeeds. -/
  setupClientSocket : Bool
  /-- The error of `connect`, if there is one. -/
  connect : Option ConnectErrno
  deriving DecidableEq, Repr

/-- The connection is open, or is being opened. -/
def ConnectAnswers.Good (answers : ConnectAnswers) : Prop :=
  answers.socket = true ∧ answers.setupClientSocket = true ∧
    ∀ code, answers.connect ≠ some (.other code)

instance (answers : ConnectAnswers) : Decidable answers.Good :=
  match h : answers.connect with
  | some (.other code) => .isFalse fun hgood => hgood.2.2 code h
  | some .einprogress | some .ealready | some .eisconn | none =>
    decidable_of_iff (answers.socket = true ∧ answers.setupClientSocket = true) <| by
      simp [ConnectAnswers.Good, h]

/-- `nxd_http_proxy_connect`; `none` is the result `-1`. -/
def HttpProxy.connect (hpx : HttpProxy) (answers : ConnectAnswers) : Option HttpProxy :=
  if !answers.socket then none
  else if !answers.setupClientSocket then none
  else
    match answers.connect with
    | some (.other _) => none
    | _ => some { hpx with hcp := Hcp.connect }

/-- `nxd_http_client_proto_finalize`. -/
def HttpProxy.finalizeProto (hpx : HttpProxy) : HttpProxy where
  hcp := { hpx.hcp with
    timerKeepAlive := false
    timerRead := false
    timerWrite := false
    timer100Continue := false
    reqBodyInPaired := false
    respBodyOutPaired := false }
  nxb := false
  subs := []

/-- `nxd_http_client_proto_rearm`; `none` is a failed assertion. -/
def HttpProxy.rearm (hpx : HttpProxy) : Option HttpProxy :=
  if hpx.nxb then
    some {
      hcp := { hpx.hcp with
        readBuf := []
        reqBodyInPaired := false
        respBodyOutPaired := false
        reqBodyInReady := false
        respBodyOutReady := false
        dataInReady := false
        dataOutReady := false }
      nxb := false
      subs := [] }
  else none

/-- A connection that `nxd_http_proxy_pool_return` does not keep. -/
def HttpProxy.Spent (hpx : HttpProxy) (closed : Bool) : Prop :=
  closed = true ∨ hpx.hcp.requestComplete = false ∨ hpx.hcp.state ≠ .idle ∨
    hpx.hcp.resp.keepAlive = false

instance (hpx : HttpProxy) (closed : Bool) : Decidable (hpx.Spent closed) :=
  inferInstanceAs (Decidable (_ ∨ _))

/-- `nxe_subscribe` to the events of a connection. -/
def HttpProxy.subscribe (hpx : HttpProxy) (sub : HpxSubscriber) : HttpProxy :=
  { hpx with subs := sub :: hpx.subs }

/-- `nxe_unsubscribe`; `none` is a failed assertion. -/
def HttpProxy.unsubscribe (hpx : HttpProxy) (sub : HpxSubscriber) : Option HttpProxy :=
  if sub ∈ hpx.subs then some { hpx with subs := hpx.subs.erase sub } else none

/-! ### What the loop does to a connection -/

/-- `data_in_do_read` when the headers have been received: the reader of the body reads until it
is not ready any more. -/
def Hcp.passBody (hcp : Hcp) (nextReady : Bool) : Hcp :=
  if hcp.respBodyOutPaired then
    if nextReady then hcp else { hcp with dataInReady := false, respBodyOutReady := true }
  else { hcp with dataInReady := false }

/-- The part of `data_out_do_write` behind the headers: the writer of the body writes until it is
not ready any more. -/
def Hcp.sendBody (hcp : Hcp) (prevReady : Bool) : Hcp :=
  if hcp.state = .sendingBody then
    let hcp := { hcp with reqBodySendingStarted := true }
    if hcp.reqBodyInPaired then
      { hcp with reqBodyInReady := true, dataOutReady := hcp.dataOutReady && prevReady }
    else { hcp with dataOutReady := false }
  else { hcp with dataOutReady := false }

/-- A call of a protocol function by the loop or by another stream. The flags say whether the
stream on the other side is left ready. -/
inductive HcpCall where
  | dataInDoRead (sock : Socket) (room avail : ℕ) (nextReady : Bool)
  | respBodyOutRead (sock : Socket) (size avail : ℕ)
  | dataOutDoWrite (os : NextOs) (reply : WriteReply) (prevReady : Bool)
  | reqBodyInWrite (os : NextOs) (data : List UInt8) (eof : Bool) (reply : WriteReply)
  | dataError (code : ℤ)
  | timeout (timer : HcpTimer)
  deriving DecidableEq, Repr

/-- The effect of a call. Stream functions are called on ends that are ready, or are connected to
the caller. -/
def Hcp.call (env : ClientEnv) (hcp : Hcp) : HcpCall → Option Hcp
  | .dataInDoRead sock room avail nextReady =>
    if hcp.dataInReady then
      match hcp.state with
      | .waitingForResponse | .receivingHeaders =>
        (hcp.dataInReadHeaders env sock room avail).map Prod.fst
      | .receivingBody => some (hcp.passBody nextReady)
      | _ => some hcp
    else none
  | .respBodyOutRead sock size avail =>
    if hcp.respBodyOutPaired then (hcp.respBodyOutRead sock size avail).map RespRead.hcp else none
  | .dataOutDoWrite os reply prevReady =>
    if hcp.dataOutReady then
      (hcp.sendRequest os reply).map fun r => if r.1 then r.2.1.sendBody prevReady else r.2.1
    else none
  | .reqBodyInWrite os data eof reply =>
    if hcp.reqBodyInPaired then some (hcp.reqBodyInWrite os data eof reply).2.1 else none
  | .dataError code => some (hcp.dataErrorOnMessage code)
  | .timeout timer => hcp.onTimeout timer

/-! ### The pool -/

/-- `nxd_http_proxy_pool`, and the connections that it has handed out. -/
structure HttpProxyPool where
  /-- `first` and `last`, and the `next` and `prev` of all connections. -/
  idle : Lib.DList ObjRef
  freePool : NxpPool
  connCount : ℤ
  connCountMax : ℤ
  /-- The other fields of all connections. -/
  hpx : ObjRef → HttpProxy
  /-- The connections that were handed out and have not been returned. -/
  handedOut : List ObjRef

namespace HttpProxyPool

/-- `NXD_FREE_PROXY_POOL_INITIAL_SIZE`. -/
def freeProxyPoolInitialSize : ℕ := 4

/-- `nxd_http_proxy_pool_init`, with the pool that `nxp_create` returns. -/
def init (freePool : NxpPool) : HttpProxyPool where
  idle := { next := fun _ => none, prev := fun _ => none, first := none, last := none }
  freePool := freePool
  connCount := 0
  connCountMax := 0
  hpx := fun _ => {}
  handedOut := []

/-- `IS_LINKED`. -/
def IsLinked (pp : HttpProxyPool) (o : ObjRef) : Prop :=
  (pp.idle.prev o).isSome ∨ pp.idle.first = some o

instance (pp : HttpProxyPool) (o : ObjRef) : Decidable (pp.IsLinked o) :=
  inferInstanceAs (Decidable (_ ∨ _))

/-- Overwrite the fields of a connection. -/
def setHpx (pp : HttpProxyPool) (o : ObjRef) (hpx : HttpProxy) : HttpProxyPool :=
  { pp with hpx := Function.update pp.hpx o hpx }

/-- `conn_count` and its maximum go up, and the connection is handed out. -/
def handOut (pp : HttpProxyPool) (o : ObjRef) : HttpProxyPool :=
  { pp with
    connCount := pp.connCount + 1
    connCountMax := max (pp.connCount + 1) pp.connCountMax
    handedOut := o :: pp.handedOut }

/-- `conn_count` goes down, and the connection is not handed out any more. -/
def takeBack (pp : HttpProxyPool) (o : ObjRef) : HttpProxyPool :=
  { pp with connCount := pp.connCount - 1, handedOut := pp.handedOut.erase o }

/-- `nxd_http_proxy_finalize`. -/
def finalize (pp : HttpProxyPool) (o : ObjRef) : HttpProxyPool :=
  let pp := if pp.IsLinked o then { pp with idle := pp.idle.unlink o } else pp
  pp.setHpx o (pp.hpx o).finalizeProto

/-- A connection is closed, and its object goes back to `free_pool`. -/
def discard (pp : HttpProxyPool) (o : ObjRef) : Option HttpProxyPool := do
  let pp := pp.finalize o
  let freePool ← pp.freePool.release o
  return { pp with freePool }

/-- `nxp_alloc` from `free_pool` and `nxd_http_proxy_init`, which writes to what it is given. -/
def allocHpx (pp : HttpProxyPool) (mem : Option ℕ) : Option (ObjRef × HttpProxyPool) := do
  let (freePool, obj) ← pp.freePool.alloc mem
  let o ← obj
  return (o, { pp with freePool, idle := (pp.idle.setNext o none).setPrev o none }.setHpx o {})

/-- `nxd_http_proxy_pool_connect`. If a new object is needed, `mem` is what `nx_alloc` answers to
the pool of objects, and `answers` are those of the system. `none` is a failed assertion or a null
pointer that was followed. -/
def connect (pp : HttpProxyPool) (mem : Option ℕ) (answers : ConnectAnswers) :
    Option HttpProxyPool :=
  match pp.idle.first with
  | some o => do
    let pp := { pp with idle := pp.idle.unlink o }
    let hpx ← (pp.hpx o).unsubscribe .eventsSub
    return (pp.setHpx o hpx).handOut o
  | none => do
    let (o, pp) ← pp.allocHpx mem
    match (pp.hpx o).connect answers with
    | none => return pp
    | some hpx => return (pp.setHpx o hpx).handOut o

/-- `nxd_http_proxy_pool_return` with a connection that was handed out; `none` is a failed
assertion. -/
def giveBack (pp : HttpProxyPool) (o : ObjRef) (closed : Bool) : Option HttpProxyPool := do
  let pp := pp.takeBack o
  if (pp.hpx o).Spent closed then pp.discard o
  else
    let hpx ← (pp.hpx o).rearm
    let pp := pp.setHpx o (hpx.subscribe .eventsSub)
    return { pp with idle := pp.idle.pushBack o }

/-- `nxd_http_proxy_events_sub_on_message`. -/
def eventsSubOnMessage (pp : HttpProxyPool) (o : ObjRef) (data : ℤ) : Option HttpProxyPool :=
  if data < 0 then pp.discard o else some pp

/-- `gc_sub_on_message`. -/
def gcSubOnMessage (pp : HttpProxyPool) : HttpProxyPool :=
  { pp with freePool := pp.freePool.gc }

/-- A function that the holder of a connection or the loop calls on it. -/
def update (pp : HttpProxyPool) (o : ObjRef) (f : HttpProxy → Option HttpProxy) :
    Option HttpProxyPool :=
  (f (pp.hpx o)).map (pp.setHpx o)

end HttpProxyPool

/-- What a request does with its connection. -/
inductive HpxUse where
  /-- `nxd_http_proxy_start_request`, with the headers that are sent. -/
  | startRequest (req : HttpRequest) (headers : List UInt8)
  /-- The streams of the two bodies are connected, or disconnected. -/
  | connectStreams (reqBody respBody : Bool)
  | subscribe
  | unsubscribe
  deriving DecidableEq, Repr

/-- The effect on the connection. -/
def HttpProxy.use (hpx : HttpProxy) : HpxUse → Option HttpProxy
  | .startRequest req headers =>
    (hpx.hcp.startRequest req headers).map fun hcp => { hpx with hcp, nxb := true }
  | .connectStreams reqBody respBody =>
    let hcp := { hpx.hcp with reqBodyInPaired := reqBody, respBodyOutPaired := respBody }
    some { hpx with hcp }
  | .subscribe => some (hpx.subscribe .request)
  | .unsubscribe => hpx.unsubscribe .request

/-- What happens to a pool. -/
inductive HttpProxyPoolEvent where
  /-- `nxd_http_proxy_pool_connect`. -/
  | connect (mem : Option ℕ) (answers : ConnectAnswers)
  /-- The request that holds a connection uses it. -/
  | use (o : ObjRef) (u : HpxUse)
  /-- `nxd_http_proxy_pool_return`. -/
  | giveBack (o : ObjRef) (closed : Bool)
  /-- The loop calls a protocol function of a connection. -/
  | call (o : ObjRef) (c : HcpCall)
  /-- A message is delivered to the `events_sub` of a connection. -/
  | message (o : ObjRef) (data : ℤ)
  /-- A message of `gc_pub`. -/
  | gc
  deriving DecidableEq, Repr

namespace HttpProxyPool

/-- New memory for `free_pool` is as `PoolRun.Allowed` says. A connection is used and returned by
the request that holds it, the loop knows those that are open, and a message needs a
subscription. -/
def Allowed (pp : HttpProxyPool) : HttpProxyPoolEvent → Prop
  | .connect mem _ => PoolRun.Allowed { pool := pp.freePool, held := [] } (.alloc mem)
  | .use o _ => o ∈ pp.handedOut
  | .giveBack o _ => o ∈ pp.handedOut
  | .call o _ => o ∈ pp.handedOut ∨ pp.IsLinked o
  | .message o _ => .eventsSub ∈ (pp.hpx o).subs
  | .gc => True

instance (pp : HttpProxyPool) (e : HttpProxyPoolEvent) : Decidable (pp.Allowed e) := by
  cases e <;> unfold Allowed <;> infer_instance

/-- The effect of an event; `none` if an assertion fails or a null pointer is followed. -/
def exec (env : ClientEnv) (pp : HttpProxyPool) : HttpProxyPoolEvent → Option HttpProxyPool
  | .connect mem answers => pp.connect mem answers
  | .use o u => pp.update o (HttpProxy.use · u)
  | .giveBack o closed => pp.giveBack o closed
  | .call o c => pp.update o fun hpx => (hpx.hcp.call env c).map fun hcp => { hpx with hcp }
  | .message o data => pp.eventsSubOnMessage o data
  | .gc => some pp.gcSubOnMessage

/-- One event that can happen. -/
def step (env : ClientEnv) (pp : HttpProxyPool) (e : HttpProxyPoolEvent) : Option HttpProxyPool :=
  if pp.Allowed e then pp.exec env e else none

end HttpProxyPool

end Nxweb
