import Nxweb.Lib.DList
import Nxweb.Lib.Machine

/-!
# Messages of the event loop

A publisher has a list of subscribers. Publishing a message makes one event for each of them, which
is put on the queue of the loop and on a list of the subscriber's own. The loop takes events off
the queue and calls the subscribers, which may subscribe, unsubscribe and publish themselves;
unsubscribing takes the events of the subscriber off both lists.

Publishers are named by `π`, subscribers by `σ`, event objects by `ε` and messages by `δ`. Event
objects come from a pool, which hands out any object that is not in use. Events of other kinds are
left out of the queue: what they do is done from outside. What has been published to a subscriber
since it has subscribed, and what has been delivered to it, is recorded.
-/

namespace Nxweb

variable {π σ ε δ : Type*} [DecidableEq π] [DecidableEq σ] [DecidableEq ε]

/-- Publishers, subscribers, event objects and the queue of the loop. -/
structure MessageLoop (π σ ε δ : Type*) where
  /-- Whether the `loop` of a publisher is set. -/
  pubLoop : π → Bool
  /-- The subscribers of a publisher, the latest one first. -/
  subs : π → List σ
  /-- The publisher that a subscriber has subscribed to. -/
  pub : σ → Option π
  /-- The active events of a subscriber. -/
  evts : σ → List ε
  /-- The receiver of an event. -/
  receiver : ε → σ
  /-- The data of an event. -/
  data : ε → δ
  /-- Whether the `loop` of an event is set. -/
  linked : ε → Bool
  /-- The queue of the loop. -/
  queue : Lib.DList ε
  /-- The objects of the pool that are in use. -/
  inUse : List ε
  /-- The publisher of an event. -/
  source : ε → π
  /-- What has been published to a subscriber since it has subscribed. -/
  sent : σ → List (π × δ)
  /-- What has been delivered to a subscriber since it has subscribed. -/
  received : σ → List (π × δ)

/-- What subscribers, and code outside of deliveries, do. -/
inductive MessageOp (π σ ε δ : Type*)
  /-- `nxe_subscribe`. -/
  | subscribe (p : π) (sub : σ)
  /-- `nxe_unsubscribe`. -/
  | unsubscribe (p : π) (sub : σ)
  /-- `nxe_publish`, with the objects that the pool returns. -/
  | publish (p : π) (data : δ) (objs : List ε)
deriving DecidableEq, Repr

/-- Why a call has not returned. -/
inductive MessageStop
  /-- The assertions on the arguments of `nxe_subscribe` or `nxe_unsubscribe` have failed, or the
  pool does not return these objects. -/
  | misuse
  /-- An assertion about events has failed. -/
  | assertion
  /-- An object was returned to the pool that was not in use. -/
  | badFree
deriving DecidableEq, Repr

namespace MessageLoop

/-- `nxe_link` of an event. -/
def link (s : MessageLoop π σ ε δ) (e : ε) : Except MessageStop (MessageLoop π σ ε δ) :=
  if s.linked e then .error .assertion
  else .ok { s with
    queue := s.queue.pushBack e
    linked := Function.update s.linked e true }

/-- `nxe_unlink` of an event. -/
def unlink (s : MessageLoop π σ ε δ) (e : ε) : Except MessageStop (MessageLoop π σ ε δ) :=
  if s.linked e then
    .ok { s with
      queue := s.queue.unlink e
      linked := Function.update s.linked e false }
  else .error .assertion

/-- Return an event object to the pool. -/
def free (s : MessageLoop π σ ε δ) (e : ε) : Except MessageStop (MessageLoop π σ ε δ) :=
  if e ∈ s.inUse then .ok { s with inUse := s.inUse.erase e } else .error .badFree

/-- `nxe_subscribe`. -/
def subscribe (s : MessageLoop π σ ε δ) (p : π) (sub : σ) :
    Except MessageStop (MessageLoop π σ ε δ) :=
  if s.pub sub = none then
    .ok { s with
      pubLoop := Function.update s.pubLoop p true
      pub := Function.update s.pub sub (some p)
      subs := Function.update s.subs p (sub :: s.subs p)
      sent := Function.update s.sent sub []
      received := Function.update s.received sub [] }
  else .error .misuse

/-- The loop of `nxe_unsubscribe`: unlink and free all scheduled events. -/
def dropEvents (s : MessageLoop π σ ε δ) :
    List ε → Except MessageStop (MessageLoop π σ ε δ)
  | [] => .ok s
  | e :: es =>
    match s.unlink e with
    | .error stop => .error stop
    | .ok s₁ =>
      match s₁.free e with
      | .error stop => .error stop
      | .ok s₂ => s₂.dropEvents es

/-- `nxe_unsubscribe`. -/
def unsubscribe (s : MessageLoop π σ ε δ) (p : π) (sub : σ) :
    Except MessageStop (MessageLoop π σ ε δ) :=
  if s.pub sub = some p then
    let s₁ := if sub ∈ s.subs p then
        { s with
          subs := Function.update s.subs p ((s.subs p).erase sub)
          pub := Function.update s.pub sub none }
      else s
    match s₁.dropEvents (s₁.evts sub) with
    | .error stop => .error stop
    | .ok s₂ => .ok { s₂ with evts := Function.update s₂.evts sub [] }
  else .error .misuse

/-- A round of the loop of `nxe_publish`: one event for one subscriber, in the object `e`. -/
def publishTo (s : MessageLoop π σ ε δ) (p : π) (data : δ) (sub : σ) (e : ε) :
    Except MessageStop (MessageLoop π σ ε δ) :=
  if e ∈ s.inUse then .error .misuse
  else
    let s₁ := { s with
      inUse := e :: s.inUse
      receiver := Function.update s.receiver e sub
      data := Function.update s.data e data
      source := Function.update s.source e p
      linked := Function.update s.linked e false
      sent := Function.update s.sent sub (s.sent sub ++ [(p, data)]) }
    match s₁.link e with
    | .error stop => .error stop
    | .ok s₂ => .ok { s₂ with evts := Function.update s₂.evts sub (s₂.evts sub ++ [e]) }

/-- The loop of `nxe_publish`. -/
def publishAll (s : MessageLoop π σ ε δ) (p : π) (data : δ) :
    List σ → List ε → Except MessageStop (MessageLoop π σ ε δ)
  | [], _ => .ok s
  | _ :: _, [] => .error .misuse
  | sub :: subs, e :: es =>
    match s.publishTo p data sub e with
    | .error stop => .error stop
    | .ok s' => s'.publishAll p data subs es

/-- `nxe_publish`. -/
def publish (s : MessageLoop π σ ε δ) (p : π) (data : δ) (objs : List ε) :
    Except MessageStop (MessageLoop π σ ε δ) :=
  if s.pubLoop p then s.publishAll p data (s.subs p) objs else .ok s

/-- A single operation. -/
def exec (s : MessageLoop π σ ε δ) :
    MessageOp π σ ε δ → Except MessageStop (MessageLoop π σ ε δ)
  | .subscribe p sub => s.subscribe p sub
  | .unsubscribe p sub => s.unsubscribe p sub
  | .publish p data objs => s.publish p data objs

/-- What a subscriber does when it is called. -/
def execAll (s : MessageLoop π σ ε δ) :
    List (MessageOp π σ ε δ) → Except MessageStop (MessageLoop π σ ε δ)
  | [] => .ok s
  | op :: ops =>
    match s.exec op with
    | .error stop => .error stop
    | .ok s' => s'.execAll ops

/-- `message_event_deliver`; the subscriber, when called, does `ops`. -/
def messageEventDeliver (s : MessageLoop π σ ε δ) (e : ε) (ops : List (MessageOp π σ ε δ)) :
    Except MessageStop (MessageLoop π σ ε δ) :=
  let sub := s.receiver e
  match s.pub sub, s.evts sub with
  | some p, e' :: rest =>
    if e' = e then
      { s with
        evts := Function.update s.evts sub rest
        received := Function.update s.received sub (s.received sub ++ [(p, s.data e)]) }.execAll ops
    else .error .assertion
  | _, _ => .error .assertion

/-- A round of `nxe_process_loop` up to the point where the subscriber has made the calls `ops`: the
event that is being delivered, if there is one, and the state. -/
def deliverNext (s : MessageLoop π σ ε δ) (ops : List (MessageOp π σ ε δ)) :
    Except MessageStop (Option ε × MessageLoop π σ ε δ) :=
  match s.queue.first with
  | none => .ok (none, s)
  | some e =>
    match { s with queue := { s.queue with first := s.queue.next e } }.unlink e with
    | .error stop => .error stop
    | .ok s₁ =>
      match s₁.messageEventDeliver e ops with
      | .error stop => .error stop
      | .ok s₂ => .ok (some e, s₂)

/-- One round of `nxe_process_loop`. -/
def processEvent (s : MessageLoop π σ ε δ) (ops : List (MessageOp π σ ε δ)) :
    Except MessageStop (MessageLoop π σ ε δ) :=
  match s.deliverNext ops with
  | .error stop => .error stop
  | .ok (none, s') => .ok s'
  | .ok (some e, s') => s'.free e

/-- Nobody has subscribed to anything; the other fields hold whatever is in memory. -/
def init (memory : MessageLoop π σ ε δ) : MessageLoop π σ ε δ :=
  { memory with
    pubLoop := fun _ => false
    subs := fun _ => []
    pub := fun _ => none
    evts := fun _ => []
    linked := fun _ => false
    queue := { memory.queue with first := none, last := none }
    inUse := [] }

end MessageLoop

/-- What happens to messages. -/
inductive MessageEvent (π σ ε δ : Type*)
  /-- An operation from outside of deliveries. -/
  | op (op : MessageOp π σ ε δ)
  /-- The loop processes the next event. -/
  | process (ops : List (MessageOp π σ ε δ))
deriving DecidableEq, Repr

namespace MessageLoop

/-- One event; none if it does not return. -/
def step (s : MessageLoop π σ ε δ) : MessageEvent π σ ε δ → Option (MessageLoop π σ ε δ)
  | .op op => (s.exec op).toOption
  | .process ops => (s.processEvent ops).toOption

end MessageLoop

end Nxweb
