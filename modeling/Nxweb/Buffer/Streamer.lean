import Nxweb.Lib.Machine
import Nxweb.ServerProto.State

/-!
# Streamer

A streamer joins the streams of several nodes into one. Its nodes form a list, and `current` is the
node whose source is passed on. A node gives way to the next one when its source writes an end of
file; after the last node so far, the streamer waits for another node or to be closed. A composite
stream appends its nodes without the `final` mark, and `nxd_streamer_close` sets it on the last.

* `NodeProgress` and `StreamerNode`: a node, how far it has got, and its source.
* `dataInWrite`: what the streamer does with a write of a node's source.
* `dataOutDoWrite`: what it does when the downstream ostream asks for data.
* `step`: calls of the owner, events of streams, and changes of readiness, in any order.

`none` stands for a failed assertion, or for an event that cannot happen.
-/

namespace Nxweb

/-- How far a node has got. -/
structure NodeProgress where
  /-- `final`. -/
  final : Bool := false
  /-- `complete`. -/
  complete : Bool := false
  /-- All bytes that the source of the node provides, in the end. -/
  content : List UInt8
  /-- How many bytes of the source have been accepted: where the source goes on. -/
  taken : ℕ := 0
  deriving DecidableEq, Repr

/-- A node, with its end `data_in` and the source that is connected to it. -/
structure StreamerNode extends NodeProgress where
  /-- `data_in.ready`. -/
  ready : Bool := false
  /-- Whether `data_in` has a pair. -/
  connected : Bool := false
  /-- The `ready` of the source. -/
  sourceReady : Bool := false
  deriving DecidableEq, Repr

/-- A call of the downstream ostream's `write`. -/
structure DownstreamWrite where
  /-- What had been accepted before. -/
  before : List UInt8
  /-- What the write offers. -/
  offered : List UInt8
  /-- `NXEF_EOF`. -/
  eof : Bool
  deriving DecidableEq, Repr

/-- A streamer with its downstream ostream, and the writes that were made to it. -/
structure Streamer where
  nodes : List StreamerNode := []
  current : Option ℕ := none
  running : Bool := false
  /-- `force_eof`. -/
  forceEof : Bool := false
  /-- Whether `nxd_streamer_close` has been called. -/
  closed : Bool := false
  /-- `data_out.ready`. -/
  ready : Bool := false
  /-- Whether `data_out` has a pair. -/
  paired : Bool := false
  /-- The ostream that `data_out` is connected to. -/
  nextOs : NextOs := ⟨false, []⟩
  /-- The calls of its `write` so far. -/
  writes : List DownstreamWrite := []

/-- A write by the source of a node: it offers up to `size` of the bytes that are left, and the end
of file if it is asked to and these are all of them. -/
structure SourceWrite where
  size : ℕ
  eof : Bool
  /-- The answer of the downstream ostream, if it gets to it. -/
  reply : WriteReply
  /-- Whether the source is ready afterwards. -/
  ready : Bool
  deriving DecidableEq, Repr

/-- What can happen to a streamer. -/
inductive StreamerEvent
  /-- A node is appended; its source will provide the given bytes. -/
  | addNode (content : List UInt8)
  /-- `nxd_streamer_start`. -/
  | start
  /-- `nxd_streamer_close`. -/
  | close
  /-- A source is connected to a node. -/
  | connectSource (node : ℕ) (ready : Bool)
  /-- The source of a node becomes ready or unready. -/
  | sourceReady (node : ℕ) (ready : Bool)
  /-- `data_out` is connected. -/
  | connectNext (ready : Bool)
  /-- The downstream ostream becomes ready or unready. -/
  | nextReady (ready : Bool)
  /-- The event of a source and its node is delivered; the source makes the given writes. -/
  | deliverIn (node : ℕ) (script : List SourceWrite)
  /-- The event of `data_out` and the downstream ostream is delivered. The source makes the given
  writes if it is asked to; `reply` is the answer to a write without a node. -/
  | deliverOut (script : List SourceWrite) (reply : WriteReply)

namespace Streamer

/-- Change a node. -/
def modifyNode (strm : Streamer) (k : ℕ) (f : StreamerNode → StreamerNode) : Streamer :=
  { strm with nodes := strm.nodes.modify k f }

/-- `nxe_ostream_set_ready` and `nxe_ostream_unset_ready` of a node. -/
def setNodeReady (strm : Streamer) (k : ℕ) (ready : Bool) : Streamer :=
  strm.modifyNode k fun snode => { snode with ready := ready }

/-- `nxd_streamer_node_start`. -/
def nodeStart (strm : Streamer) (k : ℕ) : Option Streamer :=
  match strm.nodes[k]? with
  | some snode =>
    if snode.complete then none
    else some ({ strm with current := some k }.setNodeReady k true)
  | none => none

/-- Whether the current node is complete, or there is none. -/
def awaitsNode (strm : Streamer) : Bool :=
  match strm.current.bind (strm.nodes[·]?) with
  | some snode => snode.complete
  | none => true

/-- A new node at the end of the list, not final. -/
def pushNode (strm : Streamer) (content : List UInt8) : Streamer :=
  { strm with nodes := strm.nodes ++ [{ content := content }] }

/-- `nxd_streamer_add_node`, for a node that is not final. -/
def addNode (strm : Streamer) (content : List UInt8) : Option Streamer :=
  let k := strm.nodes.length
  let strm := strm.pushNode content
  if strm.running && strm.awaitsNode then strm.nodeStart k else some strm

/-- `nxweb_composite_stream_append_node`: the node that was last is not final any more. -/
def appendNode (strm : Streamer) (content : List UInt8) : Option Streamer :=
  (strm.modifyNode (strm.nodes.length - 1) fun snode =>
    { snode with final := false }).addNode content

/-- `nxd_streamer_start`. -/
def start (strm : Streamer) : Option Streamer :=
  let strm := { strm with running := true }
  if strm.nodes ≠ [] then strm.nodeStart 0
  else if strm.forceEof then some { strm with ready := true }
  else some strm

/-- `nxd_streamer_close`. -/
def close (strm : Streamer) : Streamer :=
  let strm := match strm.nodes.getLast? with
    | none => { strm with forceEof := true }
    | some snode =>
      { strm.modifyNode (strm.nodes.length - 1) fun snode => { snode with final := true } with
        forceEof := strm.forceEof || snode.complete }
  { strm with
    closed := true
    ready := strm.ready || strm.running && strm.forceEof }

/-- The `write` of the downstream ostream. -/
def writeNext (strm : Streamer) (data : List UInt8) (eof : Bool) (reply : WriteReply) :
    ℕ × Streamer :=
  let (sent, os) := strm.nextOs.write data reply
  (sent, { strm with
    nextOs := os
    writes := strm.writes ++ [⟨strm.nextOs.received, data, eof⟩] })

/-- The middle part of `streamer_data_in_write`: the data of the current node goes downstream. -/
def passOn (strm : Streamer) (k : ℕ) (final : Bool) (data : List UInt8) (eof : Bool)
    (reply : WriteReply) : ℕ × Streamer :=
  if strm.paired then
    let (sent, strm) :=
      if strm.nextOs.ready then strm.writeNext data (eof && final) reply else (0, strm)
    if strm.nextOs.ready then (sent, strm)
    else (sent, { strm.setNodeReady k false with ready := true })
  else (0, strm.setNodeReady k false)

/-- The last part of `streamer_data_in_write`: at the end of the node's stream, the next node is
started. A node that is added later starts by itself. -/
def endOfNode (strm : Streamer) (k : ℕ) (final : Bool) : Option Streamer :=
  let strm := strm.modifyNode k fun snode => { snode with complete := true }
  if final then some strm
  else if k + 1 < strm.nodes.length then strm.nodeStart (k + 1)
  else some { strm.setNodeReady k false with ready := false }

/-- `streamer_data_in_write`, with the number of bytes it returns. -/
def dataInWrite (strm : Streamer) (k : ℕ) (final : Bool) (data : List UInt8) (eof : Bool)
    (reply : WriteReply) : Option (ℕ × Streamer) :=
  if strm.current ≠ some k then some (0, strm.setNodeReady k false)
  else
    let (sent, strm) :=
      if data ≠ [] ∨ eof then strm.passOn k final data eof reply else (0, strm)
    if eof ∧ sent = data.length then (strm.endOfNode k final).map (sent, ·)
    else some (sent, strm)

/-- A source goes on behind what was accepted. -/
def sourceGoesOn (strm : Streamer) (k sent : ℕ) (ready : Bool) : Streamer :=
  strm.modifyNode k fun snode =>
    { snode with taken := snode.taken + sent, sourceReady := ready }

/-- A write by the source of a node. -/
def sourceWrite (strm : Streamer) (k : ℕ) (w : SourceWrite) : Option Streamer :=
  match strm.nodes[k]? with
  | none => none
  | some snode =>
    let rest := snode.content.drop snode.taken
    let eof := w.eof && rest.length ≤ w.size
    (strm.dataInWrite k snode.final (rest.take w.size) eof w.reply).map fun (sent, strm) =>
      strm.sourceGoesOn k sent w.ready

/-- The `do_write` of the source of a node. -/
def sourceDoWrite (strm : Streamer) (k : ℕ) : List SourceWrite → Option Streamer
  | [] => some strm
  | w :: ws => (strm.sourceWrite k w).bind (·.sourceDoWrite k ws)

/-- The last part of `streamer_data_out_do_write`: wait until the source is ready again. -/
def awaitSource (strm : Streamer) (k : ℕ) : Streamer :=
  match strm.nodes[k]? with
  | some snode =>
    if snode.sourceReady then strm else { strm.setNodeReady k true with ready := false }
  | none => strm

/-- `streamer_data_out_do_write`. -/
def dataOutDoWrite (strm : Streamer) (script : List SourceWrite) (reply : WriteReply) :
    Option Streamer :=
  match strm.current with
  | none =>
    if strm.forceEof then some { (strm.writeNext [] true reply).2 with ready := false }
    else none
  | some k =>
    match strm.nodes[k]? with
    | none => none
    | some snode =>
      if snode.connected then
        if snode.sourceReady then
          ((strm.setNodeReady k true).sourceDoWrite k script).map (·.awaitSource k)
        else some (strm.awaitSource k)
      else some { strm with ready := false }

/-- A single event. No node is added after the streamer was closed, only ends without a pair are
connected, and events of streams are delivered while both ends are ready. -/
def step (strm : Streamer) : StreamerEvent → Option Streamer
  | .addNode content => if strm.closed then none else strm.appendNode content
  | .start => strm.start
  | .close => some strm.close
  | .connectSource k ready =>
    match strm.nodes[k]? with
    | some snode =>
      if snode.connected then none
      else some (strm.modifyNode k fun snode =>
        { snode with connected := true, sourceReady := ready })
    | none => none
  | .sourceReady k ready =>
    some (strm.modifyNode k fun snode => { snode with sourceReady := ready })
  | .connectNext ready =>
    if strm.paired then none
    else some { strm with paired := true, nextOs := { strm.nextOs with ready := ready } }
  | .nextReady ready => some { strm with nextOs := { strm.nextOs with ready := ready } }
  | .deliverIn k script =>
    match strm.nodes[k]? with
    | some snode =>
      if snode.connected && snode.sourceReady && snode.ready then strm.sourceDoWrite k script
      else none
    | none => none
  | .deliverOut script reply =>
    if strm.paired && strm.ready && strm.nextOs.ready then strm.dataOutDoWrite script reply
    else none

end Streamer

/-- The contents of the nodes that a run adds, in their order. -/
def addedContents (events : List StreamerEvent) : List (List UInt8) :=
  events.filterMap fun
    | .addNode content => some content
    | _ => none

end Nxweb
