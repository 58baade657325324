import Nxweb.Lib.Machine

/-!
# The tree of subrequests of a connection

A request may start subrequests (`nxweb_http_server_subrequest_start`), each of which is a
connection of its own and may start further ones. Handlers of some connections run in worker
threads. Model of `nxweb_http_server_connection_finalize` and its helpers, of the message by which
a worker reports its end, and of the part of `_nxweb_call_request_finalizers` that closes the
subrequests of a request (`http_server.c`, `nxd_http_server_proto.c`).

A connection that is closed is returned to the pool of its thread. It must not be as long as its
handler runs in a worker, so closing is put off then: the whole tree is marked
`connection_closing` instead.

The callback `on_response_ready` of a failed subrequest may close the parent connection
(`http_subrequest.c` does it if the response is being streamed already). What the callbacks do is
part of the event. Their other effects do not concern the tree.

## Main definitions

* `Subrequests`: a list of subrequests, with their subrequests;
* `ConnTree`: a client connection with its subrequests;
* `TreeEvent`, `treeStep`: the machine.
-/

namespace Nxweb

/-- The fields of `nxweb_http_server_connection` that closing depends on. -/
structure ConnNode where
  uid : ℕ
  subrequestFailed : Bool := false
  inWorker : Bool := false
  connectionClosing : Bool := false
  deriving DecidableEq, Repr

/-- The list behind `conn->subrequests`: a connection, its own subrequests, and `next`. -/
inductive Subrequests where
  | nil
  | conn (c : ConnNode) (subrequests next : Subrequests)
  deriving DecidableEq, Repr

namespace Subrequests

/-- `nxweb_http_server_connection_finalize_subrequests`: the connections in the order in which
they are returned to the pool. A connection goes after its own subrequests. -/
def finalizeSubrequests : Subrequests → List ℕ
  | nil => []
  | conn c subrequests next =>
    subrequests.finalizeSubrequests ++ [c.uid] ++ next.finalizeSubrequests

/-- `nxweb_http_server_connection_check_if_can_close` for every subrequest of the list. All of
them are marked, also behind one that cannot be closed. -/
def checkIfCanClose : Subrequests → Bool × Subrequests
  | nil => (true, nil)
  | conn c subrequests next =>
    let (canClose, subrequests) := subrequests.checkIfCanClose
    let (canCloseNext, next) := next.checkIfCanClose
    (!c.inWorker && canClose && canCloseNext,
      conn { c with connectionClosing := true } subrequests next)

/-- `nxweb_http_server_connection_finalize` for the subrequest `uid`, which only marks it as
failed. The flag says that it is called for the parent of the list next: `callbacks` are the
connections whose `on_response_ready` closes the parent. -/
def finalize (callbacks : ℕ → Bool) (uid : ℕ) : Subrequests → Bool × Subrequests
  | nil => (false, nil)
  | conn c subrequests next =>
    let (called, subrequests) :=
      if c.uid = uid then (true, subrequests) else subrequests.finalize callbacks uid
    if called then
      if c.subrequestFailed then (false, conn c subrequests next)
      else (callbacks c.uid, conn { c with subrequestFailed := true } subrequests next)
    else
      let (called, next) := next.finalize callbacks uid
      (called, conn c subrequests next)

/-- `conn->in_worker=inWorker` for the subrequest `uid`. -/
def setInWorker (uid : ℕ) (inWorker : Bool) : Subrequests → Subrequests
  | nil => nil
  | conn c subrequests next =>
    conn (if c.uid = uid then { c with inWorker } else c)
      (subrequests.setInWorker uid inWorker) (next.setInWorker uid inWorker)

/-- A new connection `uid` becomes the first subrequest of `parent`. -/
def start (parent uid : ℕ) : Subrequests → Subrequests
  | nil => nil
  | conn c subrequests next =>
    conn c
      (if c.uid = parent then conn { uid } nil subrequests else subrequests.start parent uid)
      (next.start parent uid)

/-- The connection `uid`. -/
def find? (uid : ℕ) : Subrequests → Option ConnNode
  | nil => none
  | conn c subrequests next =>
    if c.uid = uid then some c else (subrequests.find? uid).or (next.find? uid)

/-- Some connection of the list, or below it, runs in a worker. -/
def busy : Subrequests → Bool
  | nil => false
  | conn c subrequests next => c.inWorker || subrequests.busy || next.busy

end Subrequests

/-- A client connection with its subrequests. `nextUid` is the next unique id, `freed` are the
connections that were returned to the pool, and `finalized` says that the client connection is
among them. -/
structure ConnTree where
  root : ConnNode := { uid := 0 }
  subrequests : Subrequests := .nil
  nextUid : ℕ := 1
  freed : List ℕ := []
  finalized : Bool := false
  deriving DecidableEq, Repr

namespace ConnTree

/-- The connection `uid` of the tree. -/
def find? (t : ConnTree) (uid : ℕ) : Option ConnNode :=
  if t.root.uid = uid then some t.root else t.subrequests.find? uid

/-- Some connection of the tree runs in a worker. -/
def busy (t : ConnTree) : Bool := t.root.inWorker || t.subrequests.busy

/-- `nxweb_http_server_connection_finalize_subrequests` for the client connection. -/
def finalizeSubrequests (t : ConnTree) : ConnTree :=
  { t with subrequests := .nil, freed := t.freed ++ t.subrequests.finalizeSubrequests }

/-- `nxweb_http_server_connection_do_finalize` for the client connection. -/
def doFinalize (t : ConnTree) : ConnTree :=
  let t := t.finalizeSubrequests
  { t with freed := t.freed ++ [t.root.uid], finalized := true }

/-- `nxweb_http_server_connection_finalize` for the client connection. -/
def finalizeRoot (t : ConnTree) : ConnTree :=
  let (canClose, subrequests) := t.subrequests.checkIfCanClose
  let t := { t with root := { t.root with connectionClosing := true }, subrequests }
  if !t.root.inWorker && canClose then t.doFinalize else t

/-- `nxweb_http_server_connection_finalize` for the connection `uid`. -/
def finalize (t : ConnTree) (callbacks : ℕ → Bool) (uid : ℕ) : ConnTree :=
  if t.root.uid = uid then t.finalizeRoot
  else
    let (called, subrequests) := t.subrequests.finalize callbacks uid
    let t := { t with subrequests }
    if called then t.finalizeRoot else t

/-- `conn->in_worker=inWorker`. -/
def setInWorker (t : ConnTree) (uid : ℕ) (inWorker : Bool) : ConnTree :=
  if t.root.uid = uid then { t with root := { t.root with inWorker } }
  else { t with subrequests := t.subrequests.setInWorker uid inWorker }

/-- `nxweb_http_server_subrequest_start`, for a connection that is not closing. -/
def subrequestStart (t : ConnTree) (parent : ℕ) : ConnTree :=
  let t' := { t with nextUid := t.nextUid + 1 }
  if t.root.uid = parent then
    { t' with subrequests := .conn { uid := t.nextUid } .nil t.subrequests }
  else { t' with subrequests := t.subrequests.start parent t.nextUid }

end ConnTree

/-- What happens to a tree: a connection starts a subrequest, its handler is handed to a worker,
the worker reports its end, someone closes a connection, and the request of the client connection
is complete. -/
inductive TreeEvent where
  | subrequestStart (parent : ℕ)
  | invokeInWorker (uid : ℕ)
  | workerComplete (uid : ℕ) (callbacks : ℕ → Bool)
  | close (uid : ℕ) (callbacks : ℕ → Bool)
  | requestComplete

/-- One event. A connection that is closing starts neither subrequests nor workers. The handler of
a connection is started once, and only a worker that was started reports its end. -/
def treeStep (t : ConnTree) (e : TreeEvent) : Option ConnTree :=
  if t.finalized then none
  else
    match e with
    | .subrequestStart parent =>
      (t.find? parent).map fun c => if c.connectionClosing then t else t.subrequestStart parent
    | .invokeInWorker uid =>
      (t.find? uid).bind fun c =>
        if c.inWorker then none
        else some (if c.connectionClosing then t else t.setInWorker uid true)
    | .workerComplete uid callbacks =>
      (t.find? uid).bind fun c =>
        if c.inWorker then
          let t := t.setInWorker uid false
          some (if c.connectionClosing then t.finalize callbacks uid else t)
        else none
    | .close uid callbacks => (t.find? uid).map fun _ => t.finalize callbacks uid
    | .requestComplete => some t.finalizeSubrequests

end Nxweb
