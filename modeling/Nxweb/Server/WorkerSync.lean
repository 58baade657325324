import Nxweb.Server.Workers

/-!
# Synchronisation of worker threads

Every worker is in one of a few situations (`Situation`), which say where its thread can be, whether
it has a job, whether it is in the queue of idle workers, and what the factory thread is about to do
with it (`Hold`). Its `start_mux` is held by who is between locking and unlocking it (`Worker.Ok`),
so that a worker neither falls asleep over a job nor finds one half written.

`Synced` says this of all workers, that the cells of the queue hold the workers that are idle, and
that a worker that adds itself to the queue is alone in doing so. Every event keeps it
(`WorkerFactory.Synced.step`).
-/

namespace Nxweb

open Lib

/-- Between its own entry into the queue and the loop's finding something to do. -/
def WorkerPc.atRest : WorkerPc → Bool
  | .unlockQueue true | .lockStart | .checkJob | .checkShutdown | .waiting | .relock => true
  | _ => false

/-- The worker holds its `start_mux`. -/
def WorkerPc.locksStart : WorkerPc → Bool
  | .checkJob | .checkShutdown | .unlockStart => true
  | _ => false

/-- The worker holds `queue_mux`. -/
def WorkerPc.locksQueue : WorkerPc → Bool
  | .testShutdown | .pushCheck | .pushItem | .pushTail | .unlockQueue _ => true
  | _ => false

/-- The worker goes to its job, or is in it. -/
def WorkerPc.toJob : WorkerPc → Bool
  | .unlockQueue true | .lockStart | .relock | .checkJob | .unlockStart | .testJob | .call
  | .running | .clearJob => true
  | _ => false

/-- The worker has reported its job, and is not in the queue yet. -/
def WorkerPc.toQueue : WorkerPc → Bool
  | .trigger | .lockQueue | .testShutdown | .pushCheck | .pushItem | .pushTail
  | .unlockQueue false => true
  | _ => false

/-- The worker leaves its loop, or has left it. -/
def WorkerPc.toExit : WorkerPc → Bool
  | .unlockStart | .testJob | .setDead | .exited => true
  | _ => false

/-- On its way to the queue, a worker is nowhere else. -/
theorem WorkerPc.toQueue_apart {pc : WorkerPc} (h : pc.toQueue = true) :
    pc.atRest = false ∧ pc.toJob = false ∧ pc.toExit = false ∧ pc.locksStart = false ∧
      pc ≠ .unborn ∧ pc ≠ .setDone ∧ pc ≠ .setDead ∧ pc ≠ .exited := by
  cases pc with
  | unlockQueue goOn => cases goOn <;> simp_all [toQueue, atRest, toJob, toExit, locksStart]
  | _ => simp_all [toQueue, atRest, toJob, toExit, locksStart]

/-- A worker at rest that neither sleeps nor holds its mutex will look for a job. -/
theorem WorkerPc.toJob_of_atRest {pc : WorkerPc} (h : pc.atRest = true) (hwoken : pc ≠ .waiting)
    (hlocks : pc.locksStart = false) : pc.toJob = true := by
  cases pc with
  | unlockQueue goOn => cases goOn <;> simp_all [atRest, toJob]
  | _ => simp_all [atRest, toJob, locksStart]

/-- `do_job` has been set. -/
def StartPhase.armed : StartPhase → Bool
  | .lock | .setDoJob => false
  | _ => true

/-- What the factory thread is about to do with a worker. -/
inductive Hold
  | none
  /-- It has read the worker from the queue. -/
  | reading
  | starting (phase : StartPhase)
  | stopping (phase : StopPhase)
  deriving DecidableEq, Repr

/-- The factory thread holds the worker's `start_mux`. -/
def Hold.locksStart : Hold → Bool
  | .starting phase => phase ≠ .lock
  | .stopping phase => phase = .signal || phase = .unlock
  | _ => false

section Hold

variable {W C : Type*} [DecidableEq W]

/-- What the factory thread is about to do with the worker `w`. -/
def FactoryPc.hold (pc : FactoryPc W C) (w : W) : Hold :=
  match pc with
  | .popHead w' _ => if w' = w then .reading else .none
  | .start w' _ phase => if w' = w then .starting phase else .none
  | .stop w' _ phase => if w' = w then .stopping phase else .none
  | _ => .none

namespace FactoryPc

variable {w w' : W} {c : C} {extra : ℕ}

@[simp]
theorem hold_popHead_self (purpose : PopPurpose C) :
    (popHead w purpose : FactoryPc W C).hold w = .reading := if_pos rfl

@[simp]
theorem hold_start_self (phase : StartPhase) :
    (start w c phase : FactoryPc W C).hold w = .starting phase := if_pos rfl

@[simp]
theorem hold_stop_self (phase : StopPhase) :
    (stop w extra phase : FactoryPc W C).hold w = .stopping phase := if_pos rfl

/-- Only one worker is held at a time. -/
theorem hold_popHead_of_ne (h : w' ≠ w) (purpose : PopPurpose C) :
    (popHead w purpose : FactoryPc W C).hold w' = .none := if_neg h.symm

theorem hold_start_of_ne (h : w' ≠ w) (phase : StartPhase) :
    (start w c phase : FactoryPc W C).hold w' = .none := if_neg h.symm

theorem hold_stop_of_ne (h : w' ≠ w) (phase : StopPhase) :
    (stop w extra phase : FactoryPc W C).hold w' = .none := if_neg h.symm

end FactoryPc

end Hold

variable {W C : Type*}

/-- The states of a worker that is in the queue or not, and that the factory thread is about to do
something with. -/
inductive Situation (k : Worker C) : Bool → Hold → Prop
  | unborn (hpc : k.pc = .unborn) (hjob : k.job = none) (hdoJob : k.doJob = none)
      (hshutdown : k.shutdown = false) : Situation k false .none
  /-- In the queue. -/
  | idle {hold : Hold} (hpc : k.pc.atRest = true) (hjob : k.job = none) (hdoJob : k.doJob = none)
      (hshutdown : k.shutdown = false) (hhold : hold = .none ∨ hold = .reading) :
      Situation k true hold
  /-- Taken from the queue to be given a job. -/
  | starting {phase : StartPhase} (hpc : k.pc.atRest = true) (hjob : k.job ≠ none)
      (hdoJob : k.doJob = if phase.armed then k.job else none) (hshutdown : k.shutdown = false)
      (hwoken : phase = .unlock → k.pc ≠ .waiting) : Situation k false (.starting phase)
  /-- Given a job, until the job's function has returned. -/
  | given (hpc : k.pc.toJob = true) (hjob : k.job ≠ none) (hdoJob : k.doJob = k.job)
      (hshutdown : k.shutdown = false) : Situation k false .none
  /-- About to report the job. -/
  | reporting (hpc : k.pc = .setDone) (hjob : k.job ≠ none) (hdoJob : k.doJob = none)
      (hshutdown : k.shutdown = false) : Situation k false .none
  /-- On the way to the queue. -/
  | returning (hpc : k.pc.toQueue = true) (hjob : k.job = none) (hdoJob : k.doJob = none)
      (hshutdown : k.shutdown = false) : Situation k false .none
  /-- Taken from the queue to be shut down. -/
  | flagging (hpc : k.pc.atRest = true) (hjob : k.job = none) (hdoJob : k.doJob = none)
      (hshutdown : k.shutdown = false) : Situation k false (.stopping .flag)
  /-- Shut down. -/
  | stopping {hold : Hold} (hpc : k.pc.atRest = true ∨ k.pc.toExit = true) (hjob : k.job = none)
      (hdoJob : k.doJob = none) (hshutdown : k.shutdown = true)
      (hhold : hold = .none ∨ ∃ phase, hold = .stopping phase ∧ phase ≠ .flag) :
      Situation k false hold
  /-- The queue was full. -/
  | leaving (hpc : k.pc = .setDead ∨ k.pc = .exited) (hjob : k.job = none)
      (hdoJob : k.doJob = none) (hshutdown : k.shutdown = false) : Situation k false .none

/-- A worker is in one of its situations, and its `start_mux` is held by who is between locking and
unlocking it. -/
structure Worker.Ok (k : Worker C) (queued : Bool) (hold : Hold) : Prop where
  situation : Situation k queued hold
  dead : k.dead = (k.pc == .exited)
  startMux : k.startMux =
    if hold.locksStart then some .factory else if k.pc.locksStart then some .worker else none
  exclusive : hold.locksStart = true → k.pc.locksStart = false

attribute [grind] WorkerPc.atRest WorkerPc.locksStart WorkerPc.locksQueue WorkerPc.toJob
  WorkerPc.toQueue WorkerPc.toExit StartPhase.armed Hold.locksStart

attribute [grind cases, grind intro] Situation

namespace Worker.Ok

variable {k : Worker C} {queued : Bool} {hold : Hold}

/-! ### Steps of the worker -/

/-- `start_mux` is locked, at first or after waking up. -/
theorem lockStart (h : k.Ok queued hold) (hpc : k.pc = .lockStart ∨ k.pc = .relock)
    (hmux : k.startMux = none) :
    { k with startMux := some .worker, pc := .checkJob }.Ok queued hold := by
  obtain ⟨hsituation, hdead, hstart, hexclusive⟩ := h
  constructor <;> grind

/-- The test of `do_job` in the loop around the wait. -/
theorem checkJob (h : k.Ok queued hold) (hpc : k.pc = .checkJob) :
    { k with pc := if k.doJob = none then .checkShutdown else .unlockStart }.Ok queued hold := by
  obtain ⟨hsituation, hdead, hstart, hexclusive⟩ := h
  constructor <;> grind

/-- A worker falls asleep with the mutex in its hands, so that it has no job then and
`nxw_start_worker` is not between setting one and the signal. -/
theorem sleep (h : k.Ok queued hold) (hpc : k.pc = .checkShutdown)
    (hshutdown : k.shutdown = false) :
    { k with startMux := none, pc := .waiting }.Ok queued hold := by
  obtain ⟨hsituation, hdead, hstart, hexclusive⟩ := h
  constructor <;> grind

/-- The wait is over because the worker has been shut down. -/
theorem leaveWait (h : k.Ok queued hold) (hpc : k.pc = .checkShutdown)
    (hshutdown : k.shutdown = true) : { k with pc := .unlockStart }.Ok queued hold := by
  obtain ⟨hsituation, hdead, hstart, hexclusive⟩ := h
  constructor <;> grind

/-- Waking up also happens without a signal. -/
theorem wake (h : k.Ok queued hold) (hpc : k.pc = .waiting) :
    { k with pc := .relock }.Ok queued hold := by
  obtain ⟨hsituation, hdead, hstart, hexclusive⟩ := h
  constructor <;> grind

theorem unlockStart (h : k.Ok queued hold) (hpc : k.pc = .unlockStart) :
    { k with startMux := none, pc := .testJob }.Ok queued hold := by
  obtain ⟨hsituation, hdead, hstart, hexclusive⟩ := h
  constructor <;> grind

/-- The test of `do_job` behind the wait: without a job the worker leaves its loop. -/
theorem testJob (h : k.Ok queued hold) (hpc : k.pc = .testJob) :
    { k with pc := if k.doJob = none then .setDead else .call }.Ok queued hold := by
  obtain ⟨hsituation, hdead, hstart, hexclusive⟩ := h
  constructor <;> grind

/-- The function of the job is called. -/
theorem call (h : k.Ok queued hold) (hpc : k.pc = .call) :
    { k with pc := .running }.Ok queued hold := by
  obtain ⟨hsituation, hdead, hstart, hexclusive⟩ := h
  constructor <;> grind

theorem returns (h : k.Ok queued hold) (hpc : k.pc = .running) :
    { k with pc := .clearJob }.Ok queued hold := by
  obtain ⟨hsituation, hdead, hstart, hexclusive⟩ := h
  constructor <;> grind

/-- `do_job` is cleared behind the call, so that the job is not done twice. -/
theorem clearJob (h : k.Ok queued hold) (hpc : k.pc = .clearJob) :
    { k with doJob := none, pc := .setDone }.Ok queued hold := by
  obtain ⟨hsituation, hdead, hstart, hexclusive⟩ := h
  constructor <;> grind

/-- The job is reported. -/
theorem setDone (h : k.Ok queued hold) (hpc : k.pc = .setDone) :
    { k with job := none, client := none, pc := .trigger }.Ok queued hold := by
  obtain ⟨hsituation, hdead, hstart, hexclusive⟩ := h
  constructor <;> grind

theorem trigger (h : k.Ok queued hold) (hpc : k.pc = .trigger) :
    { k with eventfd := true, pc := .lockQueue }.Ok queued hold := by
  obtain ⟨hsituation, hdead, hstart, hexclusive⟩ := h
  constructor <;> grind

/-- The worker goes on towards the queue. -/
theorem toQueue {pc : WorkerPc} (h : k.Ok queued hold) (hpc : k.pc.toQueue = true)
    (hpc' : pc.toQueue = true) : { k with pc := pc }.Ok queued hold := by
  obtain ⟨hsituation, hdead, hstart, hexclusive⟩ := h
  have hapart := WorkerPc.toQueue_apart hpc
  have hapart' := WorkerPc.toQueue_apart hpc'
  constructor <;> grind

/-- From here on the worker is in the queue. -/
theorem pushTail (h : k.Ok queued hold) (hpc : k.pc = .pushTail) :
    queued = false ∧ { k with pc := .unlockQueue true }.Ok true hold := by
  obtain ⟨hsituation, hdead, hstart, hexclusive⟩ := h
  refine ⟨by grind, ?_⟩
  constructor <;> grind

/-- A worker that did not find room in the queue leaves its loop. -/
theorem unlockQueue (h : k.Ok queued hold) {goOn : Bool} (hpc : k.pc = .unlockQueue goOn) :
    { k with pc := if goOn then .lockStart else .setDead }.Ok queued hold := by
  obtain ⟨hsituation, hdead, hstart, hexclusive⟩ := h
  constructor <;> grind

/-- The last thing a worker does. -/
theorem setDead (h : k.Ok queued hold) (hpc : k.pc = .setDead) :
    { k with dead := true, pc := .exited }.Ok queued hold := by
  obtain ⟨hsituation, hdead, hstart, hexclusive⟩ := h
  constructor <;> grind

/-- A thread that has not been created is not in the queue. -/
theorem unborn (h : k.Ok queued hold) (hpc : k.pc = .unborn) : queued = false := by
  obtain ⟨hsituation, hdead, hstart, hexclusive⟩ := h
  grind

theorem unborn_job (h : k.Ok queued hold) (hpc : k.pc = .unborn) : k.job = none := by
  obtain ⟨hsituation, hdead, hstart, hexclusive⟩ := h
  grind

theorem exited_job (h : k.Ok queued hold) (hpc : k.pc = .exited) : k.job = none := by
  obtain ⟨hsituation, hdead, hstart, hexclusive⟩ := h
  grind

/-- A worker in the queue has nothing to do, and is neither dead nor shutting down. -/
theorem queued_free (h : k.Ok true hold) : k.pc.atRest = true ∧ k.job = none ∧ k.doJob = none ∧
    k.shutdown = false ∧ k.dead = false := by
  obtain ⟨hsituation, hdead, hstart, hexclusive⟩ := h
  grind

/-- A worker that is about to be given a job has nothing to do, and is neither dead nor shutting
down. -/
theorem starting_free (h : k.Ok queued (.starting .lock)) : k.pc.atRest = true ∧ k.doJob = none ∧
    k.shutdown = false ∧ k.dead = false := by
  obtain ⟨hsituation, hdead, hstart, hexclusive⟩ := h
  grind

/-- The factory thread leaves a worker alone that is about to call the function of its job, or is
in it. -/
theorem at_job (h : k.Ok queued hold) (hpc : k.pc = .call ∨ k.pc = .running) :
    hold = .none ∧ k.doJob = k.job ∧ k.job ≠ none := by
  obtain ⟨hsituation, hdead, hstart, hexclusive⟩ := h
  grind

/-- The factory thread leaves a worker alone that is about to report its job. -/
theorem at_setDone (h : k.Ok queued hold) (hpc : k.pc = .setDone) :
    hold = .none ∧ k.job ≠ none := by
  obtain ⟨hsituation, hdead, hstart, hexclusive⟩ := h
  grind

/-! ### Steps of the factory thread -/

/-- The factory thread has read the worker from the head of the queue. -/
theorem reading (h : k.Ok true .none) : k.Ok true .reading := by
  obtain ⟨hsituation, hdead, hstart, hexclusive⟩ := h
  constructor <;> grind

/-- A worker from the queue is given a job. -/
theorem assign (h : k.Ok true .reading) (j : ℕ) (c : C) :
    { k with job := some j, client := some c }.Ok false (.starting .lock) := by
  obtain ⟨hsituation, hdead, hstart, hexclusive⟩ := h
  constructor <;> grind

/-- A new worker is given a job. -/
theorem assign_new (j : ℕ) (c : C) :
    ({ pc := .lockStart, job := some j, client := some c } : Worker C).Ok false
      (.starting .lock) := by
  constructor <;> grind

theorem startLock (h : k.Ok queued (.starting .lock)) (hmux : k.startMux = none) :
    { k with startMux := some .factory }.Ok queued (.starting .setDoJob) := by
  obtain ⟨hsituation, hdead, hstart, hexclusive⟩ := h
  constructor <;> grind

/-- The job is written under `start_mux`. -/
theorem setDoJob (h : k.Ok queued (.starting .setDoJob)) :
    { k with doJob := k.job }.Ok queued (.starting .setJobParam) := by
  obtain ⟨hsituation, hdead, hstart, hexclusive⟩ := h
  constructor <;> grind

theorem setJobParam (h : k.Ok queued (.starting .setJobParam)) (c : C) :
    { k with jobParam := some c }.Ok queued (.starting .setJobDone) := by
  obtain ⟨hsituation, hdead, hstart, hexclusive⟩ := h
  constructor <;> grind

theorem setJobDone (h : k.Ok queued (.starting .setJobDone)) (c : C) :
    { k with jobDone := some c }.Ok queued (.starting .clearDone) := by
  obtain ⟨hsituation, hdead, hstart, hexclusive⟩ := h
  constructor <;> grind

/-- The last field of the job, before the signal. -/
theorem clearDone (h : k.Ok queued (.starting .clearDone)) : k.Ok queued (.starting .signal) := by
  obtain ⟨hsituation, hdead, hstart, hexclusive⟩ := h
  constructor <;> grind

/-- After the signal the worker is awake. -/
theorem startSignal (h : k.Ok queued (.starting .signal)) :
    { k with pc := if k.pc = WorkerPc.waiting then .relock else k.pc }.Ok queued
      (.starting .unlock) := by
  obtain ⟨hsituation, hdead, hstart, hexclusive⟩ := h
  constructor <;> grind

/-- The worker has its job, and goes on alone. -/
theorem startUnlock (h : k.Ok queued (.starting .unlock)) :
    { k with startMux := none }.Ok queued .none := by
  obtain ⟨hsituation, hdead, hstart, hexclusive⟩ := h
  have hlocks : k.pc.locksStart = false := hexclusive rfl
  refine ⟨?_, hdead, ?_, by simp [Hold.locksStart]⟩
  · cases hsituation with
    | starting hpc hjob hdoJob hshutdown hwoken =>
      exact .given (WorkerPc.toJob_of_atRest hpc (hwoken rfl) hlocks) hjob hdoJob hshutdown
    | idle hpc hjob hdoJob hshutdown hhold => simp at hhold
    | stopping hpc hjob hdoJob hshutdown hhold => simp at hhold
  · simp [Hold.locksStart, hlocks]

/-- A worker is taken from the queue to be shut down. -/
theorem extra (h : k.Ok true .reading) : k.Ok false (.stopping .flag) := by
  obtain ⟨hsituation, hdead, hstart, hexclusive⟩ := h
  constructor <;> grind

/-- `shutdown` is set without the mutex. -/
theorem flag (h : k.Ok queued (.stopping .flag)) :
    { k with shutdown := true }.Ok queued (.stopping .lock) := by
  obtain ⟨hsituation, hdead, hstart, hexclusive⟩ := h
  constructor <;> grind

theorem stopLock (h : k.Ok queued (.stopping .lock)) (hmux : k.startMux = none) :
    { k with startMux := some .factory }.Ok queued (.stopping .signal) := by
  obtain ⟨hsituation, hdead, hstart, hexclusive⟩ := h
  constructor <;> grind

theorem stopSignal (h : k.Ok queued (.stopping .signal)) :
    { k with pc := if k.pc = WorkerPc.waiting then .relock else k.pc }.Ok queued
      (.stopping .unlock) := by
  obtain ⟨hsituation, hdead, hstart, hexclusive⟩ := h
  constructor <;> grind

/-- The worker will find that it is shut down. -/
theorem stopUnlock (h : k.Ok queued (.stopping .unlock)) :
    { k with startMux := none }.Ok queued .none := by
  obtain ⟨hsituation, hdead, hstart, hexclusive⟩ := h
  constructor <;> grind

/-- The eventfd does not matter. -/
theorem readEventfd (h : k.Ok queued hold) : { k with eventfd := false }.Ok queued hold := by
  obtain ⟨hsituation, hdead, hstart, hexclusive⟩ := h
  constructor <;> grind

end Worker.Ok

variable [DecidableEq W]

/-- The queue holds the workers `idle`, and every worker is in one of its situations. A worker that
adds itself to the queue holds `queue_mux` from the test that there is room for it on. -/
structure Synced (queue : WorkerQueue W) (idle : List W) (queueMux : Option W)
    (pc : FactoryPc W C) (worker : W → Worker C) : Prop where
  ring : Ring queue.items queue.head queue.tail false (idle.map some)
  size : queue.items.length = maxWorkersInQueue
  nodup : idle.Nodup
  ok : ∀ w, (worker w).Ok (decide (w ∈ idle)) (pc.hold w)
  mux : ∀ w, queueMux = some w ↔ (worker w).pc.locksQueue = true
  room : ∀ w, (worker w).pc = .pushItem ∨ (worker w).pc = .pushTail →
    idle.length + 1 < maxWorkersInQueue
  item : ∀ w, (worker w).pc = .pushTail → queue.items[queue.tail]? = some (some w)
  popItem : ∀ purpose, pc = .popItem purpose → idle ≠ []
  popHead : ∀ w purpose, pc = .popHead w purpose → idle.head? = some w

namespace Synced

variable {queue : WorkerQueue W} {idle : List W} {queueMux : Option W} {pc pc' : FactoryPc W C}
  {worker worker' : W → Worker C} {w : W} {k : Worker C} {c : C} {phase : StartPhase} {extra : ℕ}

/-- Threads move on without touching the queue and its mutex. -/
theorem keep (h : Synced queue idle queueMux pc worker)
    (hok : ∀ w, (worker' w).Ok (decide (w ∈ idle)) (pc'.hold w))
    (hqueue : ∀ w, (worker' w).pc.locksQueue = (worker w).pc.locksQueue)
    (hpush : ∀ w, (worker' w).pc = .pushItem ∨ (worker' w).pc = .pushTail →
      (worker' w).pc = (worker w).pc)
    (hpopItem : ∀ purpose, pc' = .popItem purpose → idle ≠ [])
    (hpopHead : ∀ w purpose, pc' = .popHead w purpose → idle.head? = some w) :
    Synced queue idle queueMux pc' worker' where
  ring := h.ring
  size := h.size
  nodup := h.nodup
  ok := hok
  mux w := by
    rw [hqueue w]
    exact h.mux w
  room w hw := by
    rw [hpush w hw] at hw
    exact h.room w hw
  item w hw := by
    rw [hpush w (.inr hw)] at hw
    exact h.item w hw
  popItem := hpopItem
  popHead := hpopHead

/-- A change of one worker leaves the others as they are. -/
theorem ok_update (h : Synced queue idle queueMux pc worker)
    (hok : k.Ok (decide (w ∈ idle)) (pc.hold w)) (w' : W) :
    (Function.update worker w k w').Ok (decide (w' ∈ idle)) (pc.hold w') :=
  (Function.forall_update_iff worker fun w k => k.Ok (decide (w ∈ idle)) (pc.hold w)).mpr
    ⟨hok, fun w' _ => h.ok w'⟩ w'

/-- A worker moves on. -/
theorem move (h : Synced queue idle queueMux pc worker)
    (hok : k.Ok (decide (w ∈ idle)) (pc.hold w))
    (hqueue : k.pc.locksQueue = (worker w).pc.locksQueue)
    (hpush : k.pc = .pushItem ∨ k.pc = .pushTail → k.pc = (worker w).pc) :
    Synced queue idle queueMux pc (Function.update worker w k) := by
  refine h.keep ?_ ?_ ?_ h.popItem h.popHead
  · exact h.ok_update hok
  · exact (Function.forall_update_iff worker
      fun w k => k.pc.locksQueue = (worker w).pc.locksQueue).mpr ⟨hqueue, fun _ _ => rfl⟩
  · exact (Function.forall_update_iff worker
      fun w k => k.pc = .pushItem ∨ k.pc = .pushTail → k.pc = (worker w).pc).mpr
      ⟨hpush, fun _ _ _ => rfl⟩

/-- The factory thread goes on, with no worker in its hands before and after. -/
theorem goOn (h : Synced queue idle queueMux pc worker) (hpc : ∀ w, pc.hold w = .none)
    (hpc' : ∀ w, pc'.hold w = .none) (hpopItem : ∀ purpose, pc' = .popItem purpose → idle ≠ []) :
    Synced queue idle queueMux pc' worker := by
  refine h.keep (fun w => ?_) (fun _ => rfl) (fun _ _ => rfl) hpopItem fun w purpose hw => ?_
  · rw [hpc' w, ← hpc w]
    exact h.ok w
  · have hhold := hpc' w
    rw [hw] at hhold
    simp [FactoryPc.hold] at hhold

/-- The factory thread goes on with the worker in its hands, which is not from the queue. -/
theorem act (h : Synced queue idle queueMux pc worker)
    (hok : k.Ok (decide (w ∈ idle)) (pc'.hold w))
    (hqueue : k.pc.locksQueue = (worker w).pc.locksQueue)
    (hpush : k.pc = .pushItem ∨ k.pc = .pushTail → k.pc = (worker w).pc)
    (hpc : ∀ w', w' ≠ w → pc.hold w' = .none) (hpc' : ∀ w', w' ≠ w → pc'.hold w' = .none)
    (hpopItem : ∀ purpose, pc' ≠ .popItem purpose)
    (hpopHead : ∀ w purpose, pc' ≠ .popHead w purpose) :
    Synced queue idle queueMux pc' (Function.update worker w k) := by
  refine h.keep ?_ ?_ ?_ (fun purpose hw => absurd hw (hpopItem purpose))
    fun w purpose hw => absurd hw (hpopHead w purpose)
  · refine (Function.forall_update_iff worker fun w k =>
      k.Ok (decide (w ∈ idle)) (pc'.hold w)).mpr ⟨hok, fun w' hw => ?_⟩
    rw [hpc' w' hw, ← hpc w' hw]
    exact h.ok w'
  · exact (Function.forall_update_iff worker
      fun w k => k.pc.locksQueue = (worker w).pc.locksQueue).mpr ⟨hqueue, fun _ _ => rfl⟩
  · exact (Function.forall_update_iff worker
      fun w k => k.pc = .pushItem ∨ k.pc = .pushTail → k.pc = (worker w).pc).mpr
      ⟨hpush, fun _ _ _ => rfl⟩

/-- A step of `nxw_start_worker`. -/
theorem actStart (h : Synced queue idle queueMux (.start w c phase) worker)
    {phase' : StartPhase} (hok : k.Ok (decide (w ∈ idle)) (.starting phase'))
    (hqueue : k.pc.locksQueue = (worker w).pc.locksQueue)
    (hpush : k.pc = .pushItem ∨ k.pc = .pushTail → k.pc = (worker w).pc) :
    Synced queue idle queueMux (.start w c phase') (Function.update worker w k) := by
  refine h.act ?_ hqueue hpush (fun w' hw => FactoryPc.hold_start_of_ne hw _)
    (fun w' hw => FactoryPc.hold_start_of_ne hw _) (by simp) (by simp)
  rwa [FactoryPc.hold_start_self]

/-- A step of `nxw_gc_factory` with a worker that it wakes up for its end. -/
theorem actStop {stopPhase : StopPhase}
    (h : Synced queue idle queueMux (.stop w extra stopPhase) worker)
    {phase' : StopPhase} (hok : k.Ok (decide (w ∈ idle)) (.stopping phase'))
    (hqueue : k.pc.locksQueue = (worker w).pc.locksQueue)
    (hpush : k.pc = .pushItem ∨ k.pc = .pushTail → k.pc = (worker w).pc) :
    Synced queue idle queueMux (.stop w extra phase') (Function.update worker w k) := by
  refine h.act ?_ hqueue hpush (fun w' hw => FactoryPc.hold_stop_of_ne hw _)
    (fun w' hw => FactoryPc.hold_stop_of_ne hw _) (by simp) (by simp)
  rwa [FactoryPc.hold_stop_self]

/-- The factory thread is done with the worker. -/
theorem release (h : Synced queue idle queueMux pc worker)
    (hok : k.Ok (decide (w ∈ idle)) .none)
    (hsame : k.pc = (worker w).pc) (hpc : ∀ w', w' ≠ w → pc.hold w' = .none) :
    Synced queue idle queueMux .idle (Function.update worker w k) :=
  h.act hok (congrArg _ hsame) (fun _ => hsame) hpc (fun _ _ => rfl) (by simp) (by simp)

/-! ### The queue -/

/-- Only one worker holds `queue_mux`. -/
theorem locksQueue_unique (h : Synced queue idle queueMux pc worker) {w w' : W}
    (hw : (worker w).pc.locksQueue = true) (hw' : (worker w').pc.locksQueue = true) : w' = w := by
  have hmux := (h.mux w).mpr hw
  rw [(h.mux w').mpr hw'] at hmux
  exact Option.some.inj hmux

/-- A worker takes `queue_mux`. -/
theorem lockQueue (h : Synced queue idle none pc worker) (hpc : (worker w).pc = .lockQueue) :
    Synced queue idle (some w) pc
      (Function.update worker w { worker w with pc := .testShutdown }) := by
  have hfree : ∀ w', (worker w').pc.locksQueue = false := fun w' => by
    by_contra hlocks
    simpa using (h.mux w').mpr (Bool.of_not_eq_false hlocks)
  refine { h with ok := ?_, mux := ?_, room := ?_, item := ?_ }
  · exact h.ok_update ((h.ok w).toQueue (by rw [hpc]; rfl) rfl)
  · refine (Function.forall_update_iff worker
      fun w' k => some w = some w' ↔ k.pc.locksQueue = true).mpr ⟨by simp [WorkerPc.locksQueue],
      fun w' hw => ?_⟩
    rw [hfree w']
    simpa using Ne.symm hw
  · exact (Function.forall_update_iff worker
      fun _ k => k.pc = .pushItem ∨ k.pc = .pushTail → idle.length + 1 < maxWorkersInQueue).mpr
      ⟨by simp, fun w' _ => h.room w'⟩
  · exact (Function.forall_update_iff worker fun w k => k.pc = .pushTail →
      queue.items[queue.tail]? = some (some w)).mpr ⟨by simp, fun w' _ => h.item w'⟩

/-- There is room in the queue if the test says so, and nobody else adds to it. -/
theorem pushCheck (h : Synced queue idle queueMux pc worker) (hpc : (worker w).pc = .pushCheck)
    (hfull : queue.isFull = false) :
    Synced queue idle queueMux pc
      (Function.update worker w { worker w with pc := .pushItem }) := by
  have hroom : idle.length + 1 < maxWorkersInQueue := by
    have hlt := h.ring.length_lt_of_ne (by simpa [WorkerQueue.isFull, h.size] using hfull)
    rwa [List.length_map, h.size] at hlt
  refine { h with ok := ?_, mux := ?_, room := fun _ _ => hroom, item := ?_ }
  · exact h.ok_update ((h.ok w).toQueue (by rw [hpc]; rfl) rfl)
  · refine (Function.forall_update_iff worker
      fun w k => queueMux = some w ↔ k.pc.locksQueue = true).mpr ⟨?_, fun w' _ => h.mux w'⟩
    rw [h.mux w, hpc]
    rfl
  · exact (Function.forall_update_iff worker fun w k => k.pc = .pushTail →
      queue.items[queue.tail]? = some (some w)).mpr ⟨by simp, fun w' _ => h.item w'⟩

/-- The worker is written to the free cell. -/
theorem pushItem (h : Synced queue idle queueMux pc worker) (hpc : (worker w).pc = .pushItem) :
    Synced { queue with items := queue.items.set queue.tail (some w) } idle queueMux pc
      (Function.update worker w { worker w with pc := .pushTail }) := by
  refine { h with ring := h.ring.set_free _, size := ?_, ok := ?_, mux := ?_, room := ?_,
                  item := ?_ }
  · rw [List.length_set, h.size]
  · exact h.ok_update ((h.ok w).toQueue (by rw [hpc]; rfl) rfl)
  · refine (Function.forall_update_iff worker
      fun w k => queueMux = some w ↔ k.pc.locksQueue = true).mpr ⟨?_, fun w' _ => h.mux w'⟩
    rw [h.mux w, hpc]
    rfl
  · exact fun _ _ => h.room w (.inl hpc)
  · refine (Function.forall_update_iff worker fun w' k => k.pc = .pushTail →
      (queue.items.set queue.tail (some w))[queue.tail]? = some (some w')).mpr
      ⟨fun _ => ?_, fun w' hw hpc' => ?_⟩
    · rw [List.getElem?_set_self h.ring.write_lt]
    · exact absurd (h.locksQueue_unique (by rw [hpc]; rfl) (by rw [hpc']; rfl)) hw

/-- The worker is in the queue. -/
theorem pushTail (h : Synced queue idle queueMux pc worker) (hpc : (worker w).pc = .pushTail) :
    Synced { queue with tail := (queue.tail + 1) % maxWorkersInQueue } (idle ++ [w]) queueMux pc
      (Function.update worker w { worker w with pc := .unlockQueue true }) := by
  obtain ⟨hqueued, hok⟩ := (h.ok w).pushTail hpc
  have hmem : w ∉ idle := of_decide_eq_false hqueued
  have hroom := h.room w (.inr hpc)
  have hother : ∀ w', w' ≠ w → (worker w').pc.locksQueue = false := fun w' hw => by
    by_contra hlocks
    exact hw (h.locksQueue_unique (by rw [hpc]; rfl) (Bool.of_not_eq_false hlocks))
  have hring := h.ring.push (h.item w hpc) (by rw [List.length_map, h.size]; exact hroom)
  refine { ring := ?_, size := h.size, nodup := ?_, ok := ?_, mux := ?_, room := ?_, item := ?_,
           popItem := by simp, popHead := fun w' purpose hw => ?_ }
  · rw [h.size] at hring
    rwa [List.map_append, List.map_singleton]
  · rw [List.nodup_append_comm]
    simpa using ⟨hmem, h.nodup⟩
  · refine (Function.forall_update_iff worker fun w' k =>
      k.Ok (decide (w' ∈ idle ++ [w])) (pc.hold w')).mpr ⟨?_, fun w' hw => ?_⟩
    · simpa using hok
    · simpa [hw] using h.ok w'
  · refine (Function.forall_update_iff worker
      fun w k => queueMux = some w ↔ k.pc.locksQueue = true).mpr ⟨?_, fun w' _ => h.mux w'⟩
    rw [h.mux w, hpc]
    rfl
  · refine (Function.forall_update_iff worker fun _ k => k.pc = .pushItem ∨ k.pc = .pushTail →
      (idle ++ [w]).length + 1 < maxWorkersInQueue).mpr ⟨by simp, fun w' hw hpc' => ?_⟩
    have hlocks := hother w' hw
    rcases hpc' with hpc' | hpc'
    · rw [hpc'] at hlocks
      contradiction
    · rw [hpc'] at hlocks
      contradiction
  · refine (Function.forall_update_iff worker fun w' k => k.pc = .pushTail →
      queue.items[(queue.tail + 1) % maxWorkersInQueue]? = some (some w')).mpr
      ⟨by simp, fun w' hw hpc' => ?_⟩
    have hlocks := hother w' hw
    rw [hpc'] at hlocks
    contradiction
  · have hhead := h.popHead w' purpose hw
    rw [List.head?_append, hhead]
    rfl

/-- The worker releases `queue_mux`. -/
theorem unlockQueue (h : Synced queue idle queueMux pc worker) {goOn : Bool}
    (hpc : (worker w).pc = .unlockQueue goOn) :
    Synced queue idle none pc (Function.update worker w
      { worker w with pc := if goOn then .lockStart else .setDead }) := by
  refine { h with ok := ?_, mux := ?_, room := ?_, item := ?_ }
  · exact h.ok_update ((h.ok w).unlockQueue hpc)
  · refine (Function.forall_update_iff worker
      fun w k => none = some w ↔ k.pc.locksQueue = true).mpr ⟨?_, fun w' hw => ?_⟩
    · cases goOn <;> simp [WorkerPc.locksQueue]
    · have hlocks : (worker w').pc.locksQueue ≠ true := fun hlocks =>
        hw (h.locksQueue_unique (by rw [hpc]; rfl) hlocks)
      simp [hlocks]
  · refine (Function.forall_update_iff worker
      fun _ k => k.pc = .pushItem ∨ k.pc = .pushTail → idle.length + 1 < maxWorkersInQueue).mpr
      ⟨by cases goOn <;> simp, fun w' _ => h.room w'⟩
  · refine (Function.forall_update_iff worker fun w k => k.pc = .pushTail →
      queue.items[queue.tail]? = some (some w)).mpr
      ⟨by cases goOn <;> simp, fun w' _ => h.item w'⟩

/-- The factory thread takes the first worker from the queue. -/
theorem takeHead (h : Synced queue idle queueMux pc worker) {purpose : PopPurpose C}
    (hpc : pc = .popHead w purpose) (hok : k.Ok false (pc'.hold w))
    (hsame : k.pc = (worker w).pc) (hpc' : ∀ w', w' ≠ w → pc'.hold w' = .none)
    (hpopItem : ∀ purpose, pc' ≠ .popItem purpose)
    (hpopHead : ∀ w purpose, pc' ≠ .popHead w purpose) :
    Synced { queue with head := (queue.head + 1) % maxWorkersInQueue } idle.tail queueMux pc'
      (Function.update worker w k) := by
  obtain ⟨rest, rfl⟩ : ∃ rest, idle = w :: rest := by
    have hhead := h.popHead w purpose hpc
    exact ⟨idle.tail, (List.cons_head?_tail hhead).symm⟩
  obtain ⟨hmem, hnodup⟩ := List.nodup_cons.mp h.nodup
  have hring := h.ring.pop
  rw [h.size] at hring
  refine { ring := hring, size := h.size, nodup := hnodup, ok := ?_, mux := ?_, room := ?_,
           item := ?_, popItem := fun purpose hw => absurd hw (hpopItem purpose),
           popHead := fun w purpose hw => absurd hw (hpopHead w purpose) }
  · refine (Function.forall_update_iff worker fun w' k =>
      k.Ok (decide (w' ∈ rest)) (pc'.hold w')).mpr ⟨?_, fun w' hw => ?_⟩
    · simpa [hmem] using hok
    · have hok' := h.ok w'
      rw [hpc' w' hw]
      simpa [hpc, FactoryPc.hold, hw, Ne.symm hw] using hok'
  · refine (Function.forall_update_iff worker
      fun w k => queueMux = some w ↔ k.pc.locksQueue = true).mpr ⟨?_, fun w' _ => h.mux w'⟩
    rw [hsame]
    exact h.mux w
  · refine (Function.forall_update_iff worker fun _ k => k.pc = .pushItem ∨ k.pc = .pushTail →
      rest.length + 1 < maxWorkersInQueue).mpr ⟨fun hpush => ?_, fun w' _ hpush => ?_⟩
    · rw [hsame] at hpush
      exact Nat.lt_of_succ_lt (h.room w hpush)
    · exact Nat.lt_of_succ_lt (h.room w' hpush)
  · refine (Function.forall_update_iff worker fun w k => k.pc = .pushTail →
      queue.items[queue.tail]? = some (some w)).mpr ⟨fun hpush => ?_, fun w' _ => h.item w'⟩
    rw [hsame] at hpush
    exact h.item w hpush

end Synced

namespace WorkerFactory

variable {f f' : WorkerFactory W C}

/-- The factory thread takes a `start_mux`, which is free then. -/
theorem lockStart_eq {w : W} {pc : FactoryPc W C} (h : f.lockStart w pc = some f') :
    (f.worker w).startMux = none ∧
      f' = { f.setWorker w { f.worker w with startMux := some .factory } with pc := pc } := by
  rw [lockStart] at h
  split at h
  · exact ⟨‹_›, (Option.some.inj h).symm⟩
  · contradiction

/-- The queue, the mutexes and the workers of the factory agree. -/
def Synced (f : WorkerFactory W C) : Prop :=
  Nxweb.Synced f.queue f.idle f.queueMux f.pc f.worker

/-- At the start there are no workers. -/
theorem synced_init : (init : WorkerFactory W C).Synced where
  ring := .straight [] _ rfl (by simp) rfl rfl fun _ => rfl
  size := List.length_replicate
  nodup := List.nodup_nil
  ok w := ⟨by simpa [init] using .unborn rfl rfl rfl rfl, rfl, rfl, fun _ => rfl⟩
  mux w := by simp [init, WorkerPc.locksQueue]
  room w := by simp [init]
  item w := by simp [init]
  popItem := by simp [init]
  popHead := by simp [init]

/-- The next worker that is too many, or the end of the collection. -/
theorem Synced.nextExtra (h : f.Synced) (hpc : ∀ w, f.pc.hold w = .none) (extra : ℕ) :
    (f.nextExtra extra).Synced := by
  refine Nxweb.Synced.goOn h hpc (fun w => ?_) fun purpose hpop => ?_
  · simp only [WorkerFactory.nextExtra]
    split <;> rfl
  · simp only [WorkerFactory.nextExtra] at hpop
    split at hpop <;> contradiction

/-- A signal changes whether the worker sleeps, and nothing else. -/
theorem signal_pc (pc : WorkerPc) :
    let pc' := if pc = .waiting then .relock else pc
    pc'.locksQueue = pc.locksQueue ∧ (pc' = .pushItem ∨ pc' = .pushTail → pc' = pc) := by
  by_cases hpc : pc = .waiting <;> simp [hpc, WorkerPc.locksQueue]

/-- Shutting down a worker keeps all in order. -/
theorem Synced.stop_step (h : f.Synced) {w : W} {extra : ℕ} {phase : StopPhase}
    (hpc : f.pc = .stop w extra phase) (hstep : f.stopStep w extra phase = some f') :
    f'.Synced := by
  rw [Synced, hpc] at h
  have hok := h.ok w
  rw [FactoryPc.hold_stop_self] at hok
  cases phase with
  | flag =>
    obtain rfl := Option.some.inj hstep
    exact h.actStop hok.flag rfl fun _ => rfl
  | lock =>
    obtain ⟨hmux, rfl⟩ := lockStart_eq hstep
    exact h.actStop (hok.stopLock hmux) rfl fun _ => rfl
  | signal =>
    obtain rfl := Option.some.inj hstep
    obtain ⟨hqueue, hpush⟩ := signal_pc (f.worker w).pc
    exact h.actStop hok.stopSignal hqueue hpush
  | unlock =>
    obtain rfl := Option.some.inj hstep
    have hrelease := h.release hok.stopUnlock rfl fun w' hw => FactoryPc.hold_stop_of_ne hw _
    exact Synced.nextExtra (f := f.unlockStart w .idle) hrelease (fun _ => rfl) _

variable [DecidableEq C]

/-- A step of a worker, wherever it is. -/
theorem Synced.worker_step (h : f.Synced) {w : W} (hstep : f.workerStep w = some f') :
    f'.Synced := by
  have hok := h.ok w
  cases hpc : (f.worker w).pc with
  | unborn => simp [workerStep, hpc] at hstep
  | lockStart =>
    simp only [workerStep, hpc] at hstep
    split at hstep
    · obtain rfl := Option.some.inj hstep
      exact h.move (hok.lockStart (.inl hpc) ‹_›) (by rw [hpc]; rfl) (by simp)
    · contradiction
  | checkJob =>
    simp only [workerStep, hpc] at hstep
    obtain rfl := Option.some.inj hstep
    refine h.move (hok.checkJob hpc) ?_ ?_
    · rw [hpc]
      split <;> rfl
    · split <;> simp
  | checkShutdown =>
    simp only [workerStep, hpc] at hstep
    split at hstep
    · obtain rfl := Option.some.inj hstep
      exact h.move (hok.leaveWait hpc ‹_›) (by rw [hpc]; rfl) (by simp)
    · obtain rfl := Option.some.inj hstep
      exact h.move (hok.sleep hpc (Bool.eq_false_of_not_eq_true ‹_›)) (by rw [hpc]; rfl) (by simp)
  | waiting => simp [workerStep, hpc] at hstep
  | relock =>
    simp only [workerStep, hpc] at hstep
    split at hstep
    · obtain rfl := Option.some.inj hstep
      exact h.move (hok.lockStart (.inr hpc) ‹_›) (by rw [hpc]; rfl) (by simp)
    · contradiction
  | unlockStart =>
    simp only [workerStep, hpc] at hstep
    obtain rfl := Option.some.inj hstep
    exact h.move (hok.unlockStart hpc) (by rw [hpc]; rfl) (by simp)
  | testJob =>
    simp only [workerStep, hpc] at hstep
    obtain rfl := Option.some.inj hstep
    refine h.move (hok.testJob hpc) ?_ ?_
    · rw [hpc]
      split <;> rfl
    · split <;> simp
  | call =>
    simp only [workerStep, hpc] at hstep
    split at hstep
    · contradiction
    · obtain rfl := Option.some.inj hstep
      exact h.move (hok.call hpc) (by rw [hpc]; rfl) (by simp)
  | running =>
    simp only [workerStep, hpc] at hstep
    split at hstep
    · contradiction
    · obtain rfl := Option.some.inj hstep
      exact h.move (hok.returns hpc) (by rw [hpc]; rfl) (by simp)
  | clearJob =>
    simp only [workerStep, hpc] at hstep
    obtain rfl := Option.some.inj hstep
    exact h.move (hok.clearJob hpc) (by rw [hpc]; rfl) (by simp)
  | setDone =>
    simp only [workerStep, hpc] at hstep
    split at hstep
    · contradiction
    · obtain rfl := Option.some.inj hstep
      exact h.move (hok.setDone hpc) (by rw [hpc]; rfl) (by simp)
  | trigger =>
    simp only [workerStep, hpc] at hstep
    obtain rfl := Option.some.inj hstep
    exact h.move (hok.trigger hpc) (by rw [hpc]; rfl) (by simp)
  | lockQueue =>
    simp only [workerStep, hpc] at hstep
    split at hstep
    · rename_i hfree
      obtain rfl := Option.some.inj hstep
      rw [Synced, hfree] at h
      exact h.lockQueue hpc
    · contradiction
  | testShutdown =>
    simp only [workerStep, hpc] at hstep
    obtain rfl := Option.some.inj hstep
    refine h.move (hok.toQueue (by rw [hpc]; rfl) ?_) ?_ ?_
    · split <;> rfl
    · rw [hpc]
      split <;> rfl
    · split <;> simp
  | pushCheck =>
    simp only [workerStep, hpc] at hstep
    obtain rfl := Option.some.inj hstep
    cases hfull : f.queue.isFull with
    | true => exact h.move (hok.toQueue (by rw [hpc]; rfl) rfl) (by rw [hpc]; rfl) (by simp)
    | false => exact h.pushCheck hpc hfull
  | pushItem =>
    simp only [workerStep, hpc] at hstep
    obtain rfl := Option.some.inj hstep
    exact h.pushItem hpc
  | pushTail =>
    simp only [workerStep, hpc] at hstep
    obtain rfl := Option.some.inj hstep
    exact h.pushTail hpc
  | unlockQueue goOn =>
    simp only [workerStep, hpc] at hstep
    obtain rfl := Option.some.inj hstep
    exact h.unlockQueue hpc
  | setDead =>
    simp only [workerStep, hpc] at hstep
    obtain rfl := Option.some.inj hstep
    exact h.move (hok.setDead hpc) (by rw [hpc]; rfl) (by simp)
  | exited => simp [workerStep, hpc] at hstep

/-- Giving a job to a worker keeps all in order. -/
theorem Synced.start_step (h : f.Synced) {w : W} {c : C} {phase : StartPhase}
    (hpc : f.pc = .start w c phase) (hstep : f.startStep w c phase = some f') : f'.Synced := by
  rw [Synced, hpc] at h
  have hok := h.ok w
  rw [FactoryPc.hold_start_self] at hok
  cases phase with
  | lock =>
    obtain ⟨hmux, rfl⟩ := lockStart_eq hstep
    exact h.actStart (hok.startLock hmux) rfl fun _ => rfl
  | setDoJob =>
    obtain rfl := Option.some.inj hstep
    exact h.actStart hok.setDoJob rfl fun _ => rfl
  | setJobParam =>
    obtain rfl := Option.some.inj hstep
    exact h.actStart (hok.setJobParam c) rfl fun _ => rfl
  | setJobDone =>
    obtain rfl := Option.some.inj hstep
    exact h.actStart (hok.setJobDone c) rfl fun _ => rfl
  | clearDone =>
    obtain rfl := Option.some.inj hstep
    have hact := h.actStart hok.clearDone rfl fun _ => rfl
    rwa [Function.update_eq_self] at hact
  | signal =>
    obtain rfl := Option.some.inj hstep
    obtain ⟨hqueue, hpush⟩ := signal_pc (f.worker w).pc
    exact h.actStart hok.startSignal hqueue hpush
  | unlock =>
    obtain rfl := Option.some.inj hstep
    exact h.release hok.startUnlock rfl fun w' hw => FactoryPc.hold_start_of_ne hw _

/-- A worker with a new job, which has been taken from the queue or created. -/
theorem assign_eq {w : W} {c : C} (h : f.assign w c = some f') :
    f.pub c = none ∧
      f' = { f.setWorker w { f.worker w with job := some f.jobs.length, client := some c } with
        pub := Function.update f.pub c (some w)
        jobs := f.jobs ++ [c]
        pc := .start w c .lock } := by
  rw [assign] at h
  split at h
  · exact ⟨‹_›, (Option.some.inj h).symm⟩
  · contradiction

/-- A step of the factory thread, wherever it is. -/
theorem Synced.factory_step (h : f.Synced) (hstep : f.factoryStep = some f') : f'.Synced := by
  cases hpc : f.pc with
  | idle => simp [factoryStep, hpc] at hstep
  | popCheck purpose =>
    have hnone : ∀ w, f.pc.hold w = .none := fun w => by rw [hpc]; rfl
    simp only [factoryStep, hpc] at hstep
    split at hstep
    · cases purpose with
      | get c =>
        obtain rfl := Option.some.inj hstep
        exact Nxweb.Synced.goOn h hnone (fun _ => rfl) (by simp)
      | gc extra =>
        obtain rfl := Option.some.inj hstep
        exact Nxweb.Synced.goOn h hnone (fun _ => rfl) (by simp)
    · rename_i hne
      obtain rfl := Option.some.inj hstep
      refine Nxweb.Synced.goOn h hnone (fun _ => rfl) fun _ _ hnil => hne ?_
      exact (h.ring.empty_iff.mpr (by rw [hnil]; rfl)).1
  | popItem purpose =>
    simp only [factoryStep, hpc] at hstep
    split at hstep
    · rename_i w hitem
      obtain rfl := Option.some.inj hstep
      obtain ⟨w', rest, hidle⟩ := List.exists_cons_of_ne_nil (h.popItem purpose hpc)
      have hfront := h.ring
      rw [hidle, List.map_cons] at hfront
      obtain rfl : w' = w := by simpa using hfront.front.symm.trans hitem
      rw [Synced, hpc] at h
      refine h.keep (fun w => ?_) (fun _ => rfl) (fun _ _ => rfl) (by simp) fun w purpose hw => ?_
      · by_cases hw : w = w'
        · subst hw
          have hok := h.ok w
          rw [FactoryPc.hold_popHead_self]
          rw [hidle, decide_eq_true (List.mem_cons_self ..)] at hok ⊢
          exact hok.reading
        · rw [FactoryPc.hold_popHead_of_ne hw]
          exact h.ok w
      · obtain ⟨rfl, -⟩ := FactoryPc.popHead.inj hw
        rw [hidle, List.head?_cons]
    · contradiction
  | popHead w purpose =>
    have hok := h.ok w
    have hmem : w ∈ f.idle := List.mem_of_head? (h.popHead w purpose hpc)
    rw [hpc, FactoryPc.hold_popHead_self, decide_eq_true hmem] at hok
    simp only [factoryStep, hpc] at hstep
    cases purpose with
    | get c =>
      obtain ⟨-, rfl⟩ := assign_eq hstep
      refine Nxweb.Synced.takeHead h hpc ?_ rfl (fun w' hw => FactoryPc.hold_start_of_ne hw _)
        (by simp) (by simp)
      rw [FactoryPc.hold_start_self]
      exact hok.assign _ _
    | gc extra =>
      obtain rfl := Option.some.inj hstep
      have hextra : (f.worker w).Ok false ((FactoryPc.stop w extra .flag).hold (C := C) w) := by
        rw [FactoryPc.hold_stop_self]
        exact hok.extra
      have htake := Nxweb.Synced.takeHead h hpc hextra rfl
        (fun w' hw => FactoryPc.hold_stop_of_ne hw _) (by simp) (by simp)
      rwa [Function.update_eq_self] at htake
  | create c =>
    simp only [factoryStep, hpc] at hstep
    split at hstep
    · obtain rfl := Option.some.inj hstep
      exact Nxweb.Synced.goOn h (fun w => by rw [hpc]; rfl) (fun _ => rfl) (by simp)
    · contradiction
  | start w c phase =>
    simp only [factoryStep, hpc] at hstep
    exact h.start_step hpc hstep
  | gcScan list =>
    have hnone : ∀ w, f.pc.hold w = .none := fun w => by rw [hpc]; rfl
    cases list with
    | nil =>
      simp only [factoryStep, hpc] at hstep
      obtain rfl := Option.some.inj hstep
      exact Nxweb.Synced.goOn h hnone (fun _ => rfl) (by simp)
    | cons w rest =>
      simp only [factoryStep, hpc] at hstep
      split at hstep
      · split at hstep
        · obtain rfl := Option.some.inj hstep
          have hmove := h.move (h.ok w).readEventfd rfl fun _ => rfl
          exact hmove.goOn hnone (fun _ => rfl) (by simp)
        · contradiction
      · obtain rfl := Option.some.inj hstep
        exact Nxweb.Synced.goOn h hnone (fun _ => rfl) (by simp)
  | gcExtra =>
    simp only [factoryStep, hpc] at hstep
    obtain rfl := Option.some.inj hstep
    exact h.nextExtra (fun w => by rw [hpc]; rfl) _
  | stop w extra phase =>
    simp only [factoryStep, hpc] at hstep
    exact h.stop_step hpc hstep
  | spin c =>
    simp only [factoryStep, hpc] at hstep
    split at hstep
    · obtain rfl := Option.some.inj hstep
      exact Nxweb.Synced.goOn h (fun w => by rw [hpc]; rfl) (fun _ => rfl) (by simp)
    · obtain rfl := Option.some.inj hstep
      exact h

/-- The thread of a new worker has been created or not. -/
theorem Synced.create_step (h : f.Synced) {created : Option W}
    (hstep : f.createStep created = some f') : f'.Synced := by
  rw [createStep] at hstep
  split at hstep
  · rename_i c hpc
    split at hstep
    · split at hstep
      · obtain rfl := Option.some.inj hstep
        exact Nxweb.Synced.goOn h (fun w => by rw [hpc]; rfl) (fun _ => rfl) (by simp)
      · rename_i w
        split at hstep
        · rename_i hunborn
          obtain ⟨-, rfl⟩ := assign_eq hstep
          have hok : Worker.Ok { pc := .lockStart, job := some f.jobs.length, client := some c }
              (decide (w ∈ f.idle)) ((FactoryPc.start w c .lock).hold w) := by
            rw [FactoryPc.hold_start_self, (h.ok w).unborn hunborn]
            exact Worker.Ok.assign_new _ _
          have hact := Nxweb.Synced.act h hok (by rw [hunborn]; rfl) (by simp)
            (fun w' _ => by rw [hpc]; rfl) (fun w' hw => FactoryPc.hold_start_of_ne hw _) (by simp)
            (by simp)
          simpa only [Synced, setWorker, Function.update_self, Function.update_idem] using hact
        · contradiction
    · contradiction
  · contradiction

/-- Whatever happens, the queue, the mutexes and the workers agree. -/
theorem Synced.step (h : f.Synced) {event : WorkersEvent W C} (hstep : f.step event = some f') :
    f'.Synced := by
  cases event with
  | request c =>
    simp only [WorkerFactory.step] at hstep
    split at hstep
    · rename_i hpc
      obtain rfl := Option.some.inj hstep
      exact Nxweb.Synced.goOn h (fun w => by rw [hpc]; rfl) (fun _ => rfl) (by simp)
    · contradiction
  | gc =>
    simp only [WorkerFactory.step] at hstep
    split at hstep
    · rename_i hpc
      obtain rfl := Option.some.inj hstep
      exact Nxweb.Synced.goOn h (fun w => by rw [hpc]; rfl) (fun _ => rfl) (by simp)
    · contradiction
  | notify w =>
    simp only [WorkerFactory.step] at hstep
    split at hstep
    · split at hstep
      · obtain rfl := Option.some.inj hstep
        exact h.move (h.ok w).readEventfd rfl fun _ => rfl
      · contradiction
    · contradiction
  | complete c =>
    simp only [WorkerFactory.step, completeOnMessage] at hstep
    split at hstep
    · rename_i hpc
      split at hstep
      · split at hstep
        · contradiction
        · obtain rfl := Option.some.inj hstep
          exact Nxweb.Synced.goOn h (fun w => by rw [hpc]; rfl) (fun _ => rfl) (by simp)
      · contradiction
    · contradiction
  | factory => exact h.factory_step hstep
  | create created => exact h.create_step hstep
  | worker w => exact h.worker_step hstep
  | wake w =>
    simp only [WorkerFactory.step] at hstep
    split at hstep
    · rename_i hpc
      obtain rfl := Option.some.inj hstep
      exact h.move ((h.ok w).wake hpc) (by rw [hpc]; rfl) (by simp)
    · contradiction

end WorkerFactory

end Nxweb
