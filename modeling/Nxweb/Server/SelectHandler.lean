import Nxweb.Http.Message

/-!
# Selecting a handler

Model of `nxweb_select_handler` (`http_server.c`). The dispatcher offers a request to one
handler after the other; a handler that does not want it answers `NXWEB_NEXT`. Before a handler
is asked, its filters are initialised and may rewrite the URI, the caches are consulted, and the
response is filled in. A refusal has to take all of this back.

The callbacks of handlers and filters are arbitrary functions on the part of the state that they
write: the request and the response records and a `world` of everything else. They reach filter
data only through the argument they are given, and none of them writes `conn->handler`.

The code after `on_select` does undo everything. The refusal of a cache key returns before it.

## Main definitions

* `Filter`, `Handler`: the callbacks;
* `Conn`: the connection as the function sees it;
* `runSelect`: the function up to the answer of the handler;
* `selectHandler`: `nxweb_select_handler`;
* `startSendingResponse`: `nxweb_start_sending_response`.
-/

namespace Nxweb

open Lib

/-- `nxweb_filter_data`, with the private part of the filter that owns it. -/
structure FilterData (P : Type) where
  cacheKey : Option (List UInt8) := none
  bypass : Bool := false
  priv : P

/-- The state that callbacks change: the request, the response and everything else. -/
structure Exchange (W : Type) where
  req : HttpRequest
  resp : HttpResponse
  world : W

/-- `nxweb_filter`. A callback that may be missing is an option. -/
structure Filter (W P : Type) where
  init : Exchange W → Option (FilterData P) × Exchange W
  decodeUri : Option (FilterData P → Option CStr → Exchange W →
    Option CStr × FilterData P × Exchange W) := none
  translateCacheKey : Option (FilterData P → List UInt8 → Exchange W →
    NxwebResult × FilterData P × Exchange W) := none
  serveFromCache : Option (FilterData P → ℤ → Exchange W →
    NxwebResult × FilterData P × Exchange W) := none
  doFilter : Option (FilterData P → Exchange W → NxwebResult × FilterData P × Exchange W) := none
  finalize : Option (FilterData P → Exchange W → Exchange W) := none

/-- The fields of `nxweb_handler` that are used for its selection. -/
structure Handler (W P : Type) where
  id : ℕ
  prefixLen : ℕ := 0
  memcache : Bool := false
  filters : List (Filter W P) := []
  onGenerateCacheKey : Option (Exchange W → NxwebResult × Exchange W) := none
  onSelect : Option (Exchange W → NxwebResult × Exchange W) := none

/-- The results of `nxweb_cache_try`. There are no others, so the branch of the source that
passes another result on is never taken. -/
inductive CacheTryResult where
  | ok
  | revalidate
  | miss
  deriving DecidableEq, Repr

/-- The functions of the server that are called besides the callbacks. -/
structure ServerFunctions (W : Type) where
  cacheTry : List UInt8 → ℤ → Exchange W → CacheTryResult × Exchange W
  cacheStoreResponse : Exchange W → Exchange W
  startSendingResponse : Exchange W → Exchange W
  currentHttpTime : Exchange W → ℤ

/-- The connection: `conn->handler`, `conn->handler_param`, the slots of `req->filter_data`, and
what the callbacks see. `finalized` lists the slots whose filters were finalized. -/
structure Conn (W P : Type) where
  handler : Option ℕ := none
  handlerParam : ℕ := 0
  filterData : ℕ → Option (FilterData P) := fun _ => none
  finalized : List ℕ := []
  ex : Exchange W

variable {W P : Type}

/-- `req->filter_data[i]=fdata`. -/
def Conn.setFilterData (c : Conn W P) (i : ℕ) (fdata : Option (FilterData P)) : Conn W P :=
  { c with filterData := Function.update c.filterData i fdata }

/-- The data of a filter that takes part: `fdata && !fdata->bypass`. -/
def Conn.activeFilterData (c : Conn W P) (i : ℕ) : Option (FilterData P) :=
  (c.filterData i).filter fun fdata => !fdata.bypass

/-- The filters of a handler with their slots. -/
def Handler.slots (h : Handler W P) : List (Filter W P × ℕ) := h.filters.zipIdx

/-- `req->filter_data[i]=filter->init(filter, conn, req, resp)`. -/
def initFilter (c : Conn W P) (s : Filter W P × ℕ) : Conn W P :=
  let (fdata, ex) := s.1.init c.ex
  { c with ex }.setFilterData s.2 fdata

/-- One filter decodes the URI. -/
def decodeUri (u : Option CStr × Conn W P) (s : Filter W P × ℕ) : Option CStr × Conn W P :=
  match u.2.activeFilterData s.2, s.1.decodeUri with
  | some fdata, some f =>
    let (uri, fdata, ex) := f fdata u.1 u.2.ex
    (uri, { u.2 with ex }.setFilterData s.2 (some fdata))
  | _, _ => u

/-- Filters are initialised in order and decode the URI in reverse order; then `path_info` is
set. -/
def initFilters (h : Handler W P) (c : Conn W P) : Conn W P :=
  let c := h.slots.foldl initFilter c
  let (uri, c) := h.slots.reverse.foldl decodeUri (c.ex.req.uri, c)
  { c with ex := { c.ex with req := { c.ex.req with
      uri, pathInfo := uri.map fun uri => uri.drop h.prefixLen } } }

/-- One filter translates the cache key. An empty result fails an assertion. -/
def translateCacheKey (k : List UInt8 × Conn W P) (s : Filter W P × ℕ) :
    Option (List UInt8 × Conn W P) :=
  match k.2.activeFilterData s.2, s.1.translateCacheKey with
  | some fdata, some f =>
    let (r, fdata, ex) := f fdata k.1 k.2.ex
    let c := { k.2 with ex }.setFilterData s.2 (some fdata)
    if r = .next then some (k.1, c)
    else
      match fdata.cacheKey with
      | some (b :: key) => some (b :: key, c)
      | _ => none
  | _, _ => some k

/-- Content from the cache of a filter goes through the filters behind it. The flag says that
one of them delays the response. -/
def runFilters (c : Conn W P) : List (Filter W P × ℕ) → Bool × Conn W P
  | [] => (false, c)
  | s :: ss =>
    match c.activeFilterData s.2, s.1.doFilter with
    | some fdata, some f =>
      let (r, fdata, ex) := f fdata c.ex
      let c := { c with ex }.setFilterData s.2 (some fdata)
      if r = .delay then
        (true, { c with ex := { c.ex with resp := { c.ex.resp with runFilterIdx := s.2 + 1 } } })
      else runFilters c ss
    | _, _ => runFilters c ss

/-- The filters are asked for cached content, the last one first. The flag says that one of
them has served the response. -/
def serveFromCache (env : ServerFunctions W) (h : Handler W P) (checkTime : ℤ) (c : Conn W P) :
    List (Filter W P × ℕ) → Bool × Conn W P
  | [] => (false, c)
  | s :: ss =>
    match c.activeFilterData s.2, s.1.serveFromCache with
    | some fdata, some f =>
      let (r, fdata, ex) := f fdata checkTime c.ex
      let c := { c with ex }.setFilterData s.2 (some fdata)
      if r = .ok then
        match runFilters c (h.slots.drop (s.2 + 1)) with
        | (true, c) => (true, c)
        | (false, c) =>
          let ex := if h.memcache then env.cacheStoreResponse c.ex else c.ex
          (true, { c with ex := env.startSendingResponse ex })
      else serveFromCache env h checkTime c ss
    | _, _ => serveFromCache env h checkTime c ss

/-- `nxweb_cache_try`, for a handler that uses the memory cache. -/
def tryMemcache (env : ServerFunctions W) (h : Handler W P) (key : List UInt8) (c : Conn W P) :
    CacheTryResult × Conn W P :=
  if h.memcache then
    let (res, ex) := env.cacheTry key c.ex.req.ifModifiedSince c.ex
    (res, { c with ex })
  else (.miss, c)

/-- The client has the version of which the date is already known. -/
def Exchange.NotModified (ex : Exchange W) : Prop :=
  ex.resp.lastModified ≠ 0 ∧ ex.req.ifModifiedSince ≠ 0 ∧
    ex.resp.lastModified ≤ ex.req.ifModifiedSince

instance (ex : Exchange W) : Decidable ex.NotModified :=
  inferInstanceAs (Decidable (_ ∧ _ ∧ _))

/-- The response becomes `304 Not Modified`. -/
def Exchange.setNotModified (ex : Exchange W) : Exchange W :=
  { ex with resp := { ex.resp with
      statusCode := 304, status := some (bytes "Not Modified") } }

/-- `resp->cache_key=key`. -/
def Exchange.setCacheKey (ex : Exchange W) (key : List UInt8) : Exchange W :=
  { ex with resp := { ex.resp with cacheKey := some key } }

/-- The caches are consulted under a key. The flag says that the response has been started. -/
def consultCaches (env : ServerFunctions W) (h : Handler W P) (key : List UInt8)
    (c : Conn W P) : Option (Bool × Conn W P) := do
  let (key, c) ← h.slots.foldlM translateCacheKey (key, c)
  match tryMemcache env h key { c with ex := c.ex.setCacheKey key } with
  | (.ok, c) => return (true, { c with ex := env.startSendingResponse c.ex })
  | (_, c) =>
    if c.ex.NotModified then
      return (true, { c with ex := env.startSendingResponse c.ex.setNotModified })
    let lastModified := c.ex.resp.lastModified
    let checkTime := if lastModified ≠ 0 then lastModified else env.currentHttpTime c.ex
    return serveFromCache env h checkTime c h.slots.reverse

/-- The cache-key callback is only asked about requests that can be cached. -/
def cacheKeyCallback (h : Handler W P) (c : Conn W P) :
    Option (Exchange W → NxwebResult × Exchange W) :=
  if c.ex.req.getMethod ∧ c.ex.req.contentLength = 0 then h.onGenerateCacheKey else none

/-- How the part of the function before `on_select` ends. -/
inductive CacheStage (W P : Type) where
  /-- The cache-key callback refuses the request. -/
  | refused (c : Conn W P)
  /-- The response has been started. -/
  | served (c : Conn W P)
  /-- The handler is asked. -/
  | proceed (c : Conn W P)

/-- The part of the function between the filters and `on_select`. -/
def checkCache (env : ServerFunctions W) (h : Handler W P) (c : Conn W P) :
    Option (CacheStage W P) :=
  match cacheKeyCallback h c with
  | none => some (.proceed c)
  | some f =>
    let (r, ex) := f c.ex
    let c := { c with ex }
    if r = .next then some (.refused c)
    else
      match c.ex.resp.cacheKey with
      | some (b :: key) => do
        let (served, c) ← consultCaches env h (b :: key) c
        return if served then .served c else .proceed c
      | _ => some (.proceed c)

/-- One filter is finalized and its slot cleared. -/
def finalizeFilter (c : Conn W P) (s : Filter W P × ℕ) : Conn W P :=
  match c.filterData s.2, s.1.finalize with
  | some fdata, some f =>
    { c with ex := f fdata c.ex, finalized := c.finalized ++ [s.2] }.setFilterData s.2 none
  | _, _ => c.setFilterData s.2 none

/-- The filters are finalized in order. -/
def finalizeFilters (h : Handler W P) (c : Conn W P) : Conn W P :=
  h.slots.foldl finalizeFilter c

/-- The saved fields are restored and the changed ones reset. -/
def restoreFields (uriOriginal : Option CStr) (ifModifiedSinceOriginal : ℤ) (c : Conn W P) :
    Conn W P :=
  { c with
    handler := none
    handlerParam := 0
    ex := { c.ex with
      req := { c.ex.req with uri := uriOriginal, ifModifiedSince := ifModifiedSinceOriginal }
      resp := { c.ex.resp with
        cacheKey := none
        lastModified := 0
        mtype := none
        contentType := none
        contentCharset := none
        sendfilePath := none
        sendfileFd := 0
        sendfileInfo :=
          if c.ex.resp.sendfileInfo.stIno ≠ 0 then {} else c.ex.resp.sendfileInfo } } }

/-- `conn->handler=handler; conn->handler_param=handler_param`. -/
def selecting (h : Handler W P) (handlerParam : ℕ) (c : Conn W P) : Conn W P :=
  { c with handler := some h.id, handlerParam }

/-- The function up to the point where the answer of the handler is known: either it has
returned already, or `on_select` has. The flag tells which. -/
def runSelect (env : ServerFunctions W) (h : Handler W P) (handlerParam : ℕ) (c : Conn W P) :
    Option (Bool × NxwebResult × Conn W P) := do
  match ← checkCache env h (initFilters h (selecting h handlerParam c)) with
  | .refused c => return (true, .next, c)
  | .served c => return (true, .ok, c)
  | .proceed c =>
    match h.onSelect with
    | none => return (false, .ok, c)
    | some f =>
      let (r, ex) := f c.ex
      return (false, r, { c with ex })

/-- `nxweb_select_handler`, `none` if an assertion fails. -/
def selectHandler (env : ServerFunctions W) (h : Handler W P) (handlerParam : ℕ) (c : Conn W P) :
    Option (NxwebResult × Conn W P) := do
  let (returned, r, c') ← runSelect env h handlerParam c
  if returned ∨ r = .ok then return (r, c')
  return (r, restoreFields c.ex.req.uri c.ex.req.ifModifiedSince (finalizeFilters h c'))

/-- `nxweb_start_sending_response` on a connection that has selected a handler, with what
`nxd_http_server_proto_setup_content_out` does. Filters that have run before a delay are not run
again. The flag says that a filter delays the response. -/
def startSendingResponse (env : ServerFunctions W) (setupContentOut : Exchange W → Exchange W)
    (h : Handler W P) (c : Conn W P) : Bool × Conn W P :=
  let c := { c with ex := setupContentOut c.ex }
  match runFilters c (h.slots.drop c.ex.resp.runFilterIdx) with
  | (true, c) => (true, c)
  | (false, c) =>
    let ex := if h.memcache then env.cacheStoreResponse c.ex else c.ex
    (false, { c with ex := env.startSendingResponse ex })

end Nxweb
