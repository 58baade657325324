import Nxweb.Lib.DList
import Nxweb.Lib.Machine

/-!
# Timers of the event loop

The timer queues of `nx_event.c`. Every queue has one timeout for all its timers, so that a timer
is always appended, and `nxe_process_timers` only looks at the heads of the queues. The callbacks
of timers that fire may set and unset any timers, also of the queue that is being processed.

Times are unsigned 64-bit numbers of microseconds. A callback is given by what it does to timers;
`script n` is what the callback of the `n`-th timer does that fires in one call of
`nxe_process_timers`.
-/

namespace Nxweb

variable {τ : Type*} [DecidableEq τ]

/-- The index of one of the `NXE_NUMBER_OF_TIMER_QUEUES` timer queues. -/
abbrev QueueIdx := Fin 8

/-- The part of `nxe_loop` that timers live in, with the fields of all timers. -/
structure TimerLoop (τ : Type*) where
  /-- The clock reading the loop works with. -/
  currentTime : ℕ
  /-- The timeout of each queue. -/
  timeout : QueueIdx → ℕ
  /-- The first timer of each queue. -/
  first : QueueIdx → Option τ
  /-- The last timer of each queue. -/
  last : QueueIdx → Option τ
  /-- The next timer in the queue of a timer. -/
  next : τ → Option τ
  /-- The previous timer in the queue of a timer. -/
  prev : τ → Option τ
  /-- When a timer expires, zero if it is not set. -/
  absTime : τ → ℕ

namespace TimerLoop

/-- One queue as a doubly linked list. -/
def queue (loop : TimerLoop τ) (q : QueueIdx) : Lib.DList τ :=
  ⟨loop.next, loop.prev, loop.first q, loop.last q⟩

/-- Write the links and the ends of one queue back. -/
def setQueue (loop : TimerLoop τ) (q : QueueIdx) (d : Lib.DList τ) : TimerLoop τ :=
  { loop with
    next := d.next
    prev := d.prev
    first := Function.update loop.first q d.first
    last := Function.update loop.last q d.last }

/-- `nxe_set_timer`; there is no result if its assertion fails. -/
def setTimer (loop : TimerLoop τ) (q : QueueIdx) (t : τ) : Option (TimerLoop τ) :=
  if loop.absTime t = 0 ∧ loop.next t = none ∧ loop.prev t = none then
    let absTime := (loop.currentTime + loop.timeout q) % 2 ^ 64
    some { loop.setQueue q ((loop.queue q).pushBack t) with
      absTime := Function.update loop.absTime t absTime }
  else none

/-- `nxe_unset_timer`. -/
def unsetTimer (loop : TimerLoop τ) (q : QueueIdx) (t : τ) : TimerLoop τ :=
  if loop.absTime t = 0 then loop
  else { loop.setQueue q ((loop.queue q).unlink t) with
    absTime := Function.update loop.absTime t 0 }

/-- The test of `nxe_process_timers`, `abs_time-250000 <= current_time` on unsigned numbers. -/
def isDue (loop : TimerLoop τ) (t : τ) : Bool :=
  (loop.absTime t + 2 ^ 64 - 250000) % 2 ^ 64 ≤ loop.currentTime

/-- The head of a queue, if it is due. -/
def dueHead (loop : TimerLoop τ) (q : QueueIdx) : Option τ :=
  (loop.first q).filter loop.isDue

/-- Take a timer that fires off the head of its queue. -/
def takeFirst (loop : TimerLoop τ) (q : QueueIdx) (t : τ) : TimerLoop τ :=
  { loop.setQueue q ((loop.queue q).popFront t) with
    absTime := Function.update loop.absTime t 0 }

/-- One round of the loop of `nxe_closest_tq`. -/
def closer (loop : TimerLoop τ) (closest : Option QueueIdx) (q : QueueIdx) : Option QueueIdx :=
  match loop.first q with
  | none => closest
  | some t =>
    match closest with
    | none => some q
    | some q' =>
      match loop.first q' with
      | none => closest
      | some t' => if loop.absTime t < loop.absTime t' then some q else closest

/-- `nxe_closest_tq`. -/
def closestTq (loop : TimerLoop τ) : Option QueueIdx :=
  (List.finRange 8).foldl loop.closer none

end TimerLoop

/-- What a callback, or code outside of callbacks, does to timers. -/
inductive TimerOp (τ : Type*)
  /-- `nxe_set_timer`. -/
  | set (q : QueueIdx) (t : τ)
  /-- `nxe_unset_timer`, with the queue that the timer was set on. -/
  | unset (t : τ)
deriving DecidableEq, Repr

/-- What has happened during a call of `nxe_process_timers`. -/
inductive TimerAct (τ : Type*)
  /-- The callback of a timer was called. -/
  | fired (t : τ)
  /-- A callback has unset a timer that was set. -/
  | unset (t : τ)
deriving DecidableEq, Repr

/-- The timers, with the queue each of them was last set on, and what has happened since
`nxe_process_timers` was last called. -/
structure TimerRun (τ : Type*) where
  /-- The timers. -/
  loop : TimerLoop τ
  /-- The queue a timer was last set on. -/
  queueOf : τ → QueueIdx
  /-- What has happened, in order. -/
  log : List (TimerAct τ)

/-- Why a call has not returned. -/
inductive TimerStop
  /-- An assertion has failed. -/
  | assertion
  /-- The loop has not ended after the given number of rounds. -/
  | fuel
deriving DecidableEq, Repr

namespace TimerRun

/-- The timers that have fired, in order. -/
def fired (s : TimerRun τ) : List τ :=
  s.log.filterMap fun
    | .fired t => some t
    | .unset _ => none

/-- A single operation. -/
def exec (s : TimerRun τ) : TimerOp τ → Except TimerStop (TimerRun τ)
  | .set q t =>
    match s.loop.setTimer q t with
    | some loop => .ok { s with loop, queueOf := Function.update s.queueOf t q }
    | none => .error .assertion
  | .unset t =>
    .ok { s with
      loop := s.loop.unsetTimer (s.queueOf t) t
      log := if s.loop.absTime t = 0 then s.log else s.log ++ [.unset t] }

/-- A callback. -/
def execAll (s : TimerRun τ) : List (TimerOp τ) → Except TimerStop (TimerRun τ)
  | [] => .ok s
  | op :: ops =>
    match s.exec op with
    | .ok s' => s'.execAll ops
    | .error e => .error e

/-- Take a timer off the head of its queue and call its callback. -/
def fire (s : TimerRun τ) (q : QueueIdx) (t : τ) : TimerRun τ :=
  { s with loop := s.loop.takeFirst q t, log := s.log ++ [.fired t] }

/-- The inner loop of `nxe_process_timers` on one queue, for at most the given number of
rounds. -/
def drain (script : ℕ → List (TimerOp τ)) (q : QueueIdx) :
    ℕ → TimerRun τ → Except TimerStop (TimerRun τ)
  | 0, s =>
    match s.loop.dueHead q with
    | none => .ok s
    | some _ => .error .fuel
  | fuel + 1, s =>
    match s.loop.dueHead q with
    | none => .ok s
    | some t =>
      match (s.fire q t).execAll (script s.fired.length) with
      | .ok s' => drain script q fuel s'
      | .error e => .error e

/-- The queues in the given order. -/
def drainAll (script : ℕ → List (TimerOp τ)) (fuel : ℕ) :
    List QueueIdx → TimerRun τ → Except TimerStop (TimerRun τ)
  | [], s => .ok s
  | q :: qs, s =>
    match drain script q fuel s with
    | .ok s' => drainAll script fuel qs s'
    | .error e => .error e

/-- `nxe_process_timers`. -/
def processTimers (script : ℕ → List (TimerOp τ)) (fuel : ℕ) (s : TimerRun τ) :
    Except TimerStop (TimerRun τ) :=
  drainAll script fuel (List.finRange 8) { s with log := [] }

end TimerRun

/-- What happens to timers. -/
inductive TimerEvent (τ : Type*)
  /-- The loop reads the clock. -/
  | tick (now : ℕ)
  /-- An operation outside of callbacks. -/
  | op (op : TimerOp τ)
  /-- `nxe_process_timers`. -/
  | process (script : ℕ → List (TimerOp τ)) (fuel : ℕ)

namespace TimerRun

/-- No timer is set. -/
def init (timeout : QueueIdx → ℕ) (now : ℕ) : TimerRun τ where
  loop :=
    { currentTime := now, timeout, first := fun _ => none, last := fun _ => none,
      next := fun _ => none, prev := fun _ => none, absTime := fun _ => 0 }
  queueOf := fun _ => 0
  log := []

/-- The clock does not go back, and no timeout leads beyond the range of times. -/
def ClockAllows (s : TimerRun τ) (now : ℕ) : Prop :=
  s.loop.currentTime ≤ now ∧ ∀ q, now + s.loop.timeout q < 2 ^ 64

instance (s : TimerRun τ) (now : ℕ) : Decidable (s.ClockAllows now) := by
  unfold ClockAllows
  infer_instance

/-- One event; none if it cannot happen or does not return. -/
def step (s : TimerRun τ) : TimerEvent τ → Option (TimerRun τ)
  | .tick now =>
    if s.ClockAllows now then some { s with loop := { s.loop with currentTime := now } } else none
  | .op op => (s.exec op).toOption
  | .process script fuel => (s.processTimers script fuel).toOption

end TimerRun

end Nxweb
