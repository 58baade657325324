import Nxweb.Lib.Machine

/-!
# Request finalizers

When a request is over, or its connection is closed, `_nxweb_call_request_finalizers`
(`nxd_http_server_proto.c`) calls what was installed for it: the finalizer of the handler's module
(`hsp->req_finalize`), those of the request data (`nxweb_set_request_data`), those of the filters
that were initialised for it, and the `on_complete` callback of its handler. It may be called
several times for one request, so that each callback is cleared when it has been called.

Several connections are modeled side by side, since they share the handlers. The model follows
every request with what was installed, and records the calls that are made for it and those that
are due. Installations are numbered.

Of `nxweb_select_handler` this module has what concerns `conn->handler` and `req->filter_data`;
the function itself is in `Nxweb.Server.SelectHandler`.

## Main definitions

* `HandlerCallbacks`, `registerHandler`: handlers and `_nxweb_register_handler`;
* `RequestState`: what was installed for a request;
* `callRequestFinalizers`: `_nxweb_call_request_finalizers`;
* `FinalizerEvent`, `finalizerStep`: the machine.
-/

namespace Nxweb

/-! ### Handlers -/

/-- The fields of `nxweb_handler` that finalizing depends on: whether `on_complete` is set, and
whether each of the filters has a `finalize` callback. -/
structure HandlerCallbacks where
  onComplete : Bool := false
  filters : List Bool := []
  deriving DecidableEq, Repr

/-- `_nxweb_register_handler`: callbacks that are not set are taken from the base handler. -/
def registerHandler (handler : HandlerCallbacks) (base : Option HandlerCallbacks) :
    HandlerCallbacks :=
  match base with
  | some base => { handler with onComplete := handler.onComplete || base.onComplete }
  | none => handler

/-! ### Requests -/

/-- A call of a finalizer, with the number of its installation, or of `on_complete`. -/
inductive FinalizerCall where
  | reqFinalize (installed : ℕ)
  | requestData (installed : ℕ)
  | filter (handler slot installed : ℕ)
  | onComplete (handler : ℕ)
  deriving DecidableEq, Repr

/-- `nxweb_http_request_data`. The key may be null, and so may the finalizer. -/
structure RequestData where
  key : Option ℕ
  finalize : Option ℕ
  deriving DecidableEq, Repr

/-- A request with its connection: `conn->handler`, `hsp->req_finalize`, `req->data_chain` and
`req->filter_data`. The rest is its history: the calls that were made and those that are due, the
handler that was selected, and whether the finalizers have been called. -/
structure RequestState where
  handler : Option ℕ := none
  reqFinalize : Option ℕ := none
  dataChain : List RequestData := []
  filterData : ℕ → Option ℕ := fun _ => none
  calls : List FinalizerCall := []
  due : List FinalizerCall := []
  own : Option ℕ := none
  completed : Bool := false

/-- The finalizers of the request data, in the order of the chain. -/
def dataCalls (chain : List RequestData) : List FinalizerCall :=
  chain.filterMap fun d => d.finalize.map FinalizerCall.requestData

/-- `rdata->finalize=0` for all request data. -/
def clearData (chain : List RequestData) : List RequestData :=
  chain.map fun d => { d with finalize := none }

/-- The calls for the slots of a handler's filters: a slot must be in use, and its filter must have
a `finalize` callback. -/
def filterCalls (h : ℕ) (filters : List Bool) (filterData : ℕ → Option ℕ) : List FinalizerCall :=
  filters.zipIdx.filterMap fun (hasFinalize, i) =>
    if hasFinalize then (filterData i).map (.filter h i) else none

/-- `req->filter_data[i]=0` for the filters of a handler. -/
def clearSlots (filters : List Bool) (filterData : ℕ → Option ℕ) (i : ℕ) : Option ℕ :=
  if i < filters.length then none else filterData i

/-- `_nxweb_call_request_finalizers`. The handlers are shared by all requests. -/
def callRequestFinalizers (handlers : ℕ → HandlerCallbacks) (r : RequestState) :
    (ℕ → HandlerCallbacks) × RequestState :=
  let r := { r with
    calls := r.calls ++ r.reqFinalize.toList.map FinalizerCall.reqFinalize, reqFinalize := none }
  let r := { r with
    calls := r.calls ++ dataCalls r.dataChain
    dataChain := clearData r.dataChain }
  match r.handler with
  | none => (handlers, { r with completed := true })
  | some h =>
    let filters := (handlers h).filters
    let r := { r with
      calls := r.calls ++ filterCalls h filters r.filterData
      filterData := clearSlots filters r.filterData }
    if (handlers h).onComplete then
      -- the callback is cleared in the handler, not in the request
      (Function.update handlers h { handlers h with onComplete := false },
        { r with calls := r.calls ++ [FinalizerCall.onComplete h], handler := none, completed := true })
    else (handlers, { r with handler := none, completed := true })

/-- `nxweb_set_request_data` with the installation `n`, or with a null finalizer. What was
installed under the same key before is replaced. -/
def setRequestData (r : RequestState) (key : Option ℕ) (finalize : Bool) (n : ℕ) : RequestState :=
  let installed := if finalize then some n else none
  match r.dataChain.findIdx? fun d => d.key.isSome && d.key == key with
  | none => { r with
      dataChain := { key, finalize := installed } :: r.dataChain
      due := r.due ++ installed.toList.map FinalizerCall.requestData }
  | some i =>
    let replaced := (r.dataChain[i]?.bind (·.finalize)).toList.map FinalizerCall.requestData
    { r with
      dataChain := r.dataChain.modify i fun d => { d with finalize := installed }
      due := r.due.diff replaced ++ installed.toList.map FinalizerCall.requestData }

/-- How the selection of a handler ends. -/
inductive SelectOutcome where
  /-- The cache-key callback refuses the request. -/
  | refusedByKey
  /-- `on_select` refuses the request. -/
  | refused
  | selected
  deriving DecidableEq, Repr

/-- `nxweb_select_handler` for the handler `h`. `inits` are the filters whose `init` returns data;
their installations are numbered from `n` on. -/
def select (r : RequestState) (h : ℕ) (filters : List Bool) (inits : ℕ → Bool)
    (outcome : SelectOutcome) (n : ℕ) : RequestState :=
  let filterData := fun i =>
    if i < filters.length then (if inits i then some (n + i) else none) else r.filterData i
  let r := { r with
    handler := some h, own := some h, filterData, due := r.due ++ filterCalls h filters filterData }
  match outcome with
  | .selected => r
  | .refusedByKey => r
  | .refused => { r with
      calls := r.calls ++ filterCalls h filters filterData
      filterData := clearSlots filters filterData
      handler := none
      own := none }

/-! ### The machine -/

/-- The connections, the handlers they share, and the requests that are over. `installs` is the
number of the next installation. -/
structure FinalizerState where
  handlers : ℕ → HandlerCallbacks
  conns : ℕ → Option RequestState := fun _ => none
  installs : ℕ := 0
  finished : List RequestState := []

/-- What happens on a connection. `finish` is `request_cleanup`, after which the connection waits
for another request, or `nxd_http_server_proto_finalize`. -/
inductive FinalizerEvent where
  | begin (c : ℕ)
  | select (c h : ℕ) (inits : ℕ → Bool) (outcome : SelectOutcome)
  | setReqFinalize (c : ℕ)
  | setRequestData (c : ℕ) (key : Option ℕ) (finalize : Bool)
  | callFinalizers (c : ℕ)
  | finish (c : ℕ)

/-- One event. A handler is selected before the finalizers are called, and `hsp->req_finalize` is
set when there is none (asserted in `cache.c`). -/
def finalizerStep (s : FinalizerState) (e : FinalizerEvent) : Option FinalizerState :=
  match e with
  | .begin c =>
    if (s.conns c).isNone then some { s with conns := Function.update s.conns c (some {}) } else none
  | .select c h inits outcome =>
    (s.conns c).bind fun r =>
      if r.completed then none
      else
        let filters := (s.handlers h).filters
        some { s with
          conns := Function.update s.conns c (select r h filters inits outcome s.installs)
          installs := s.installs + filters.length }
  | .setReqFinalize c =>
    (s.conns c).bind fun r =>
      if r.reqFinalize = none then
        some { s with
          conns := Function.update s.conns c (some { r with
            reqFinalize := some s.installs, due := r.due ++ [.reqFinalize s.installs] })
          installs := s.installs + 1 }
      else none
  | .setRequestData c key finalize =>
    (s.conns c).map fun r => { s with
      conns := Function.update s.conns c (setRequestData r key finalize s.installs)
      installs := s.installs + 1 }
  | .callFinalizers c =>
    (s.conns c).map fun r =>
      let (handlers, r) := callRequestFinalizers s.handlers r
      { s with handlers, conns := Function.update s.conns c (some r) }
  | .finish c =>
    (s.conns c).map fun r =>
      let (handlers, r) := callRequestFinalizers s.handlers r
      { s with handlers, conns := Function.update s.conns c none, finished := s.finished ++ [r] }

end Nxweb
