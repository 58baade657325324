import Nxweb.Lib.DList
import Nxweb.Lib.Machine

/-!
# Streams of the event loop

An input stream and an output stream can be connected to a pair. While both ends are ready, data
is transferred by callbacks of either end. The loop is told so by an event that is embedded in the
input stream: the functions that make an end ready put it on the queue of the loop, and
`stream_event_deliver` takes it off and calls the callbacks until one end is no longer ready.

Input streams are named by `ι` and output streams by `ο`. A callback is given by what it does to
streams; `script n` is what the `n`-th callback of a delivery does. Events of other kinds are left
out of the queue: what they do to streams is done from outside.
-/

namespace Nxweb

variable {ι ο : Type*} [DecidableEq ι] [DecidableEq ο]

/-- All streams, and the queue of the loop. -/
structure StreamLoop (ι ο : Type*) where
  /-- The `ready` of input streams. -/
  isReady : ι → Bool
  /-- The `pair` of input streams. -/
  isPair : ι → Option ο
  /-- The `ready` of output streams. -/
  osReady : ο → Bool
  /-- The `pair` of output streams. -/
  osPair : ο → Option ι
  /-- Whether the `loop` of an embedded event is set. -/
  linked : ι → Bool
  /-- The `receiver` of embedded events. -/
  receiver : ι → Option ο
  /-- The queue of embedded events. -/
  queue : Lib.DList ι

/-- What callbacks, and code outside of them, do to streams. -/
inductive StreamOp (ι ο : Type*)
  /-- `nxe_connect_streams`. -/
  | connect (i : ι) (o : ο)
  /-- `nxe_disconnect_streams`. -/
  | disconnect (i : ι) (o : ο)
  /-- `nxe_istream_set_ready`. -/
  | isSetReady (i : ι)
  /-- `nxe_istream_unset_ready`. -/
  | isUnsetReady (i : ι)
  /-- `nxe_ostream_set_ready`. -/
  | osSetReady (o : ο)
  /-- `nxe_ostream_unset_ready`. -/
  | osUnsetReady (o : ο)
deriving DecidableEq, Repr

/-- Why a call has not returned. -/
inductive StreamStop
  /-- An assertion has failed. -/
  | assertion
  /-- Ends were connected that have a pair, or disconnected that are not one. -/
  | misuse
deriving DecidableEq, Repr

namespace StreamLoop

/-- `nxe_link` of the event of an input stream. -/
def link (s : StreamLoop ι ο) (i : ι) : Except StreamStop (StreamLoop ι ο) :=
  if s.receiver i = none ∨ s.linked i = true then .error .assertion
  else .ok { s with
    queue := s.queue.pushBack i
    linked := Function.update s.linked i true }

/-- `nxe_unlink` of the event of an input stream. -/
def unlink (s : StreamLoop ι ο) (i : ι) : StreamLoop ι ο :=
  { s with
    queue := s.queue.unlink i
    linked := Function.update s.linked i false }

/-- Queue the event of an input stream for its pair. -/
def emit (s : StreamLoop ι ο) (i : ι) (o : ο) : Except StreamStop (StreamLoop ι ο) :=
  { s with receiver := Function.update s.receiver i (some o) }.link i

/-- `nxe_istream_set_ready`. -/
def isSetReady (s : StreamLoop ι ο) (i : ι) : Except StreamStop (StreamLoop ι ο) :=
  if s.isReady i then .ok s
  else
    let s := { s with isReady := Function.update s.isReady i true }
    match s.isPair i with
    | some o => if s.osReady o && !s.linked i then s.emit i o else .ok s
    | none => .ok s

/-- `nxe_ostream_set_ready`. -/
def osSetReady (s : StreamLoop ι ο) (o : ο) : Except StreamStop (StreamLoop ι ο) :=
  let s := { s with osReady := Function.update s.osReady o true }
  match s.osPair o with
  | some i => if s.isReady i && !s.linked i then s.emit i o else .ok s
  | none => .ok s

/-- `nxe_connect_streams`. -/
def connect (s : StreamLoop ι ο) (i : ι) (o : ο) : Except StreamStop (StreamLoop ι ο) :=
  let s := { s with
    isPair := Function.update s.isPair i (some o)
    osPair := Function.update s.osPair o (some i) }
  if s.isReady i && s.osReady o then s.emit i o else .ok s

/-- `nxe_disconnect_streams`. -/
def disconnect (s : StreamLoop ι ο) (i : ι) (o : ο) : StreamLoop ι ο :=
  let s := { s with
    isPair := Function.update s.isPair i none
    osPair := Function.update s.osPair o none }
  if s.linked i then s.unlink i else s

/-- A single operation. Only ends without a pair are connected, and only ends that are a pair, or
have none, are disconnected. -/
def exec (s : StreamLoop ι ο) : StreamOp ι ο → Except StreamStop (StreamLoop ι ο)
  | .connect i o =>
    if s.isPair i = none ∧ s.osPair o = none then s.connect i o else .error .misuse
  | .disconnect i o =>
    if s.isPair i = some o ∧ s.osPair o = some i ∨ s.isPair i = none ∧ s.osPair o = none then
      .ok (s.disconnect i o)
    else .error .misuse
  | .isSetReady i => s.isSetReady i
  | .isUnsetReady i => .ok { s with isReady := Function.update s.isReady i false }
  | .osSetReady o => s.osSetReady o
  | .osUnsetReady o => .ok { s with osReady := Function.update s.osReady o false }

/-- A callback. -/
def execAll (s : StreamLoop ι ο) : List (StreamOp ι ο) → Except StreamStop (StreamLoop ι ο)
  | [] => .ok s
  | op :: ops =>
    match s.exec op with
    | .ok s' => s'.execAll ops
    | .error e => .error e

/-- The condition of the loops of `stream_event_deliver`. -/
def busy (s : StreamLoop ι ο) (i : ι) (o : ο) : Bool :=
  s.isReady i && s.osReady o && s.osPair o = some i

/-- The callbacks of `stream_event_deliver`, from the `n`-th one on, with the given number of
rounds left. The result says whether the pair is still busy when no round is left. -/
def rounds (script : ℕ → List (StreamOp ι ο)) (i : ι) (o : ο) :
    ℕ → ℕ → StreamLoop ι ο → Except StreamStop (StreamLoop ι ο × Bool)
  | 0, _, s => .ok (s, s.busy i o)
  | count + 1, n, s =>
    if s.busy i o then
      match s.execAll (script n) with
      | .ok s' => rounds script i o count (n + 1) s'
      | .error e => .error e
    else .ok (s, false)

/-- `stream_event_deliver` of the event of `evt`, which is not on the queue. `hasWrite` and
`hasRead` tell which classes of streams have a callback. -/
def streamEventDeliver (hasWrite : ι → Bool) (hasRead : ο → Bool)
    (script : ℕ → List (StreamOp ι ο)) (s : StreamLoop ι ο) (evt : ι) :
    Except StreamStop (StreamLoop ι ο) :=
  match s.receiver evt with
  | none => .error .assertion
  | some o =>
    match s.osPair o with
    | none => .ok s
    | some i =>
      if hasWrite i || hasRead o then
        match rounds script i o 50 0 s with
        | .ok (s', true) => s'.link evt
        | .ok (s', false) => .ok s'
        | .error e => .error e
      else .error .assertion

/-- The streams while the event at the head of the queue is delivered: it is off the queue. -/
def takeEvent (s : StreamLoop ι ο) (evt : ι) : StreamLoop ι ο :=
  { s with queue := { s.queue with first := s.queue.next evt } }.unlink evt

/-- One round of `nxe_process_loop`. -/
def processEvent (hasWrite : ι → Bool) (hasRead : ο → Bool) (script : ℕ → List (StreamOp ι ο))
    (s : StreamLoop ι ο) : Except StreamStop (StreamLoop ι ο) :=
  match s.queue.first with
  | none => .ok s
  | some evt => (s.takeEvent evt).streamEventDeliver hasWrite hasRead script evt

/-- No stream is ready or has a pair. -/
def init : StreamLoop ι ο where
  isReady _ := false
  isPair _ := none
  osReady _ := false
  osPair _ := none
  linked _ := false
  receiver _ := none
  queue := ⟨fun _ => none, fun _ => none, none, none⟩

end StreamLoop

/-- What happens to streams. -/
inductive StreamEvent (ι ο : Type*)
  /-- An operation from outside of deliveries. -/
  | op (op : StreamOp ι ο)
  /-- The loop processes the next event. -/
  | process (script : ℕ → List (StreamOp ι ο))

namespace StreamLoop

/-- One event; none if it does not return. -/
def step (hasWrite : ι → Bool) (hasRead : ο → Bool) (s : StreamLoop ι ο) :
    StreamEvent ι ο → Option (StreamLoop ι ο)
  | .op op => (s.exec op).toOption
  | .process script => (s.processEvent hasWrite hasRead script).toOption

end StreamLoop

end Nxweb
