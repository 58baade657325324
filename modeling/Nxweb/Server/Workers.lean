import Mathlib.Logic.Function.Basic
import Nxweb.Lib.Machine
import Nxweb.Lib.Ring

/-!
# Worker threads

Handlers that take long are run by worker threads. The network thread, which is called the factory
thread here, takes a worker from the queue of idle workers or creates one, hands it a job, and goes
on when the worker's eventfd tells it so. A worker puts itself back into the queue when it is done
with its job, before the factory thread has seen the eventfd.

The threads take turns in steps of one access to a mutex, to the queue or to a shared field each:

* `Worker.pc` says where `nxw_worker_main` is, and `WorkerFactory.pc` where the factory thread is.
* `factoryStep` and `workerStep`: the next step of a thread, `none` if it is blocked or crashes.
* `step`: an event of any thread, or of the loop that calls the factory thread.

`nxw_finalize_factory` is left out, so that the factory's own `shutdown_in_progress` stays clear.
Workers are named by `W` and connections by `C`. A call of `nxw_start_worker` is named by its
number; the jobs that were started, run and finished are recorded.
-/

namespace Nxweb

open Lib

/-- Who holds a `start_mux`. -/
inductive StartMuxOwner
  | factory
  | worker
  deriving DecidableEq, Repr

/-- Where `nxw_worker_main` is: what it does next. -/
inductive WorkerPc
  /-- The thread has not been created. -/
  | unborn
  | lockStart
  /-- `!w->do_job`, in the loop around `pthread_cond_wait`. -/
  | checkJob
  /-- `!w->shutdown_in_progress`. -/
  | checkShutdown
  /-- Asleep in `pthread_cond_wait`. -/
  | waiting
  /-- Woken up in `pthread_cond_wait`, without the mutex. -/
  | relock
  | unlockStart
  /-- `if (!w->do_job) break`. -/
  | testJob
  | call
  /-- In the job's function. -/
  | running
  /-- `w->do_job=0`. -/
  | clearJob
  /-- `*w->job_done=1`. -/
  | setDone
  | trigger
  | lockQueue
  /-- `if (w->shutdown_in_progress ...)`. -/
  | testShutdown
  /-- `nx_queue_workers_is_full`. -/
  | pushCheck
  /-- `q->items[q->tail]=*item`. -/
  | pushItem
  /-- `q->tail=(q->tail+1)%(max_items)`. -/
  | pushTail
  /-- Unlock `queue_mux`, and go on with the loop or leave it. -/
  | unlockQueue (goOn : Bool)
  /-- `w->dead=1`. -/
  | setDead
  | exited
  deriving DecidableEq, Repr

/-- A worker and its thread. -/
structure Worker (C : Type*) where
  pc : WorkerPc := .unborn
  /-- `do_job`: the number of the job. -/
  doJob : Option ℕ := none
  /-- `job_param`. -/
  jobParam : Option C := none
  /-- The connection whose `worker_job_done` is pointed to by `job_done`. -/
  jobDone : Option C := none
  /-- `shutdown_in_progress`. -/
  shutdown : Bool := false
  dead : Bool := false
  startMux : Option StartMuxOwner := none
  /-- Whether `complete_efs` was triggered since it was read. -/
  eventfd : Bool := false
  /-- The number of the job that the worker was given and has not reported yet. -/
  job : Option ℕ := none
  /-- The connection that this job is for. -/
  client : Option C := none

/-- Where `nxw_start_worker` is. -/
inductive StartPhase
  | lock
  | setDoJob
  | setJobParam
  | setJobDone
  /-- `*job_done=0`. -/
  | clearDone
  | signal
  | unlock
  deriving DecidableEq, Repr

/-- Where `nxw_gc_factory` is with a worker that it wakes up for its end. -/
inductive StopPhase
  /-- `w->shutdown_in_progress=1`. -/
  | flag
  | lock
  | signal
  | unlock
  deriving DecidableEq, Repr

/-- What a worker is taken from the queue for. -/
inductive PopPurpose (C : Type*)
  /-- `nxw_get_worker`, for a request of a connection. -/
  | get (c : C)
  /-- `nxw_gc_factory`, with the number of workers that are still to be taken. -/
  | gc (extra : ℕ)
  deriving DecidableEq, Repr

/-- Where the factory thread is. -/
inductive FactoryPc (W C : Type*)
  /-- In the loop, between events. -/
  | idle
  /-- `nx_queue_workers_is_empty`. -/
  | popCheck (purpose : PopPurpose C)
  /-- `*item=q->items[q->head]`. -/
  | popItem (purpose : PopPurpose C)
  /-- `q->head=(q->head+1)%(max_items)`. -/
  | popHead (w : W) (purpose : PopPurpose C)
  /-- In `nxw_get_worker`, with an empty queue. -/
  | create (c : C)
  | start (w : W) (c : C) (phase : StartPhase)
  /-- In the first loop of `nxw_gc_factory`, with the rest of the list. -/
  | gcScan (rest : List W)
  | gcExtra
  | stop (w : W) (extra : ℕ) (phase : StopPhase)
  /-- `while (!conn->worker_job_done) cnt++`. -/
  | spin (c : C)

/-- `nx_queue_workers`. -/
structure WorkerQueue (W : Type*) where
  head : ℕ := 0
  tail : ℕ := 0
  items : List (Option W)

/-- A factory with its workers, and the connections of the factory thread. -/
structure WorkerFactory (W C : Type*) where
  pc : FactoryPc W C
  queue : WorkerQueue W
  /-- Who holds `queue_mux`. -/
  queueMux : Option W
  /-- `list`. -/
  list : List W
  /-- `worker_count`. -/
  workerCount : ℕ
  worker : W → Worker C
  /-- `worker_job_done` of connections. -/
  done : C → Bool
  /-- `in_worker` of connections. -/
  inWorker : C → Bool
  /-- The worker to whose eventfd a connection has subscribed. -/
  pub : C → Option W
  /-- The number of messages on their way to a connection. -/
  messages : C → ℕ
  /-- The workers in the queue, in their order. -/
  idle : List W
  /-- The connections for which `nxw_start_worker` was called. -/
  jobs : List C
  /-- The jobs whose function was called, and with which parameter. -/
  ran : List (ℕ × Option C)
  /-- The jobs whose function has returned. -/
  finished : List ℕ

/-- What can happen. -/
inductive WorkersEvent (W C : Type*)
  /-- A request of a connection is to be handled by a worker. -/
  | request (c : C)
  /-- `nxw_gc_factory` is called. -/
  | gc
  /-- The eventfd of a worker is readable. -/
  | notify (w : W)
  /-- A message is delivered to `worker_complete` of a connection. -/
  | complete (c : C)
  /-- The next step of the factory thread. -/
  | factory
  /-- `nxw_create_worker`, and the new worker unless it fails. -/
  | create (created : Option W)
  /-- The next step of a worker's thread. -/
  | worker (w : W)
  /-- A worker wakes up without a signal. -/
  | wake (w : W)
  deriving DecidableEq, Repr

/-- `NXWEB_MAX_WORKERS`. -/
def maxWorkers : ℕ := 512

/-- `NXWEB_MAX_IDLE_WORKERS_IN_QUEUE`. -/
def maxIdleWorkersInQueue : ℕ := 16

/-- `NXWEB_MAX_WORKERS_IN_QUEUE`. -/
def maxWorkersInQueue : ℕ := 128

namespace WorkerQueue

variable {W : Type*}

/-- `nx_queue_workers_is_full`. -/
def isFull (q : WorkerQueue W) : Bool := q.head == (q.tail + 1) % maxWorkersInQueue

/-- `nx_queue_workers_length`. -/
def length (q : WorkerQueue W) : ℕ :=
  if q.head ≤ q.tail then q.tail - q.head else q.tail + maxWorkersInQueue - q.head

end WorkerQueue

namespace WorkerFactory

variable {W C : Type*} [DecidableEq W] [DecidableEq C]

/-- `nxw_init_factory`, with `NXWEB_START_WORKERS_IN_QUEUE` workers: none. -/
def init : WorkerFactory W C where
  pc := .idle
  queue := { items := List.replicate maxWorkersInQueue none }
  queueMux := none
  list := []
  workerCount := 0
  worker := fun _ => {}
  done := fun _ => false
  inWorker := fun _ => false
  pub := fun _ => none
  messages := fun _ => 0
  idle := []
  jobs := []
  ran := []
  finished := []

/-- Change a worker. -/
def setWorker (f : WorkerFactory W C) (w : W) (k : Worker C) : WorkerFactory W C :=
  { f with worker := Function.update f.worker w k }

/-- `nxw_get_worker` has returned a worker: the connection subscribes to its eventfd, and
`nxw_start_worker` is called. -/
def assign (f : WorkerFactory W C) (w : W) (c : C) : Option (WorkerFactory W C) :=
  if f.pub c = none then
    some { f.setWorker w { f.worker w with job := some f.jobs.length, client := some c } with
      pub := Function.update f.pub c (some w)
      jobs := f.jobs ++ [c]
      pc := .start w c .lock }
  else none

/-- `pthread_mutex_lock` of a `start_mux` by the factory thread, which is at `pc` then. -/
def lockStart (f : WorkerFactory W C) (w : W) (pc : FactoryPc W C) : Option (WorkerFactory W C) :=
  if (f.worker w).startMux = none then
    some { f.setWorker w { f.worker w with startMux := some .factory } with pc := pc }
  else none

/-- `pthread_cond_signal` of a `start_cond`. -/
def signal (f : WorkerFactory W C) (w : W) (pc : FactoryPc W C) : WorkerFactory W C :=
  let k := f.worker w
  { f.setWorker w { k with pc := if k.pc = .waiting then .relock else k.pc } with pc := pc }

/-- `pthread_mutex_unlock` of a `start_mux` by the factory thread. -/
def unlockStart (f : WorkerFactory W C) (w : W) (pc : FactoryPc W C) : WorkerFactory W C :=
  { f.setWorker w { f.worker w with startMux := none } with pc := pc }

/-- A step of `nxw_start_worker`. At its end, the connection is marked as being in a worker. -/
def startStep (f : WorkerFactory W C) (w : W) (c : C) :
    StartPhase → Option (WorkerFactory W C)
  | .lock => f.lockStart w (.start w c .setDoJob)
  | .setDoJob =>
    some { f.setWorker w { f.worker w with doJob := (f.worker w).job } with
      pc := .start w c .setJobParam }
  | .setJobParam =>
    some { f.setWorker w { f.worker w with jobParam := some c } with
      pc := .start w c .setJobDone }
  | .setJobDone =>
    some { f.setWorker w { f.worker w with jobDone := some c } with
      pc := .start w c .clearDone }
  | .clearDone =>
    some { f with done := Function.update f.done c false, pc := .start w c .signal }
  | .signal => some (f.signal w (.start w c .unlock))
  | .unlock =>
    some { f.unlockStart w .idle with inWorker := Function.update f.inWorker c true }

/-- `nxw_destroy_worker`. The eventfd source is unregistered, and its subscribers are
unsubscribed. -/
def destroy (f : WorkerFactory W C) (w : W) : WorkerFactory W C :=
  { f.setWorker w { f.worker w with eventfd := false } with
    list := f.list.erase w
    workerCount := f.workerCount - 1
    pub := fun c => if f.pub c = some w then none else f.pub c
    messages := fun c => if f.pub c = some w then 0 else f.messages c }

/-- The loop of `nxw_gc_factory` that wakes up extra workers, with the number of those left. -/
def nextExtra (f : WorkerFactory W C) (extra : ℕ) : WorkerFactory W C :=
  { f with pc := if 0 < extra then .popCheck (.gc extra) else .idle }

/-- A step of the loop of `nxw_gc_factory` with a worker that it has taken from the queue. -/
def stopStep (f : WorkerFactory W C) (w : W) (extra : ℕ) :
    StopPhase → Option (WorkerFactory W C)
  | .flag =>
    some { f.setWorker w { f.worker w with shutdown := true } with pc := .stop w extra .lock }
  | .lock => f.lockStart w (.stop w extra .signal)
  | .signal => some (f.signal w (.stop w extra .unlock))
  | .unlock => some ((f.unlockStart w .idle).nextExtra (extra - 1))

/-- The next step of the factory thread. While it creates a worker it has none. -/
def factoryStep (f : WorkerFactory W C) : Option (WorkerFactory W C) :=
  match f.pc with
  | .idle => none
  | .popCheck purpose =>
    if f.queue.head = f.queue.tail then
      match purpose with
      | .get c => some { f with pc := .create c }
      | .gc _ => some { f with pc := .idle }
    else some { f with pc := .popItem purpose }
  | .popItem purpose =>
    match f.queue.items[f.queue.head]? with
    | some (some w) => some { f with pc := .popHead w purpose }
    | _ => none
  | .popHead w purpose =>
    let f := { f with
      queue := { f.queue with head := (f.queue.head + 1) % maxWorkersInQueue }
      idle := f.idle.tail }
    match purpose with
    | .get c => f.assign w c
    | .gc extra => some { f with pc := .stop w extra .flag }
  | .create _ => if maxWorkers < f.workerCount then some { f with pc := .idle } else none
  | .start w c phase => f.startStep w c phase
  | .gcScan [] => some { f with pc := .gcExtra }
  | .gcScan (w :: rest) =>
    if (f.worker w).dead then
      -- `pthread_join`
      if (f.worker w).pc = .exited then some { f.destroy w with pc := .gcScan rest } else none
    else some { f with pc := .gcScan rest }
  | .gcExtra => some (f.nextExtra ((f.queue.length - maxIdleWorkersInQueue + 1) / 2))
  | .stop w extra phase => f.stopStep w extra phase
  | .spin c => if f.done c then some { f with pc := .idle } else some f

/-- `nxw_create_worker` in `nxw_get_worker`. If it fails, the request is answered with an error. -/
def createStep (f : WorkerFactory W C) (created : Option W) : Option (WorkerFactory W C) :=
  match f.pc with
  | .create c =>
    if f.workerCount ≤ maxWorkers then
      match created with
      | none => some { f with pc := .idle }
      | some w =>
        if (f.worker w).pc = .unborn then
          { f.setWorker w { pc := .lockStart } with
            list := w :: f.list
            workerCount := f.workerCount + 1 }.assign w c
        else none
    else none
  | _ => none

/-- The next step of a worker's thread. -/
def workerStep (f : WorkerFactory W C) (w : W) : Option (WorkerFactory W C) :=
  let k := f.worker w
  let goTo := fun pc => some (f.setWorker w { k with pc := pc })
  match k.pc with
  | .unborn => none
  | .lockStart | .relock =>
    if k.startMux = none then
      some (f.setWorker w { k with startMux := some .worker, pc := .checkJob })
    else none
  | .checkJob => goTo (if k.doJob = none then .checkShutdown else .unlockStart)
  | .checkShutdown =>
    if k.shutdown then goTo .unlockStart
    else some (f.setWorker w { k with startMux := none, pc := .waiting })
  | .waiting => none
  | .unlockStart => some (f.setWorker w { k with startMux := none, pc := .testJob })
  | .testJob => goTo (if k.doJob = none then .setDead else .call)
  | .call =>
    match k.doJob with
    | none => none
    | some j =>
      some { f.setWorker w { k with pc := .running } with ran := f.ran ++ [(j, k.jobParam)] }
  | .running =>
    match k.doJob with
    | none => none
    | some j => some { f.setWorker w { k with pc := .clearJob } with finished := f.finished ++ [j] }
  | .clearJob => some (f.setWorker w { k with doJob := none, pc := .setDone })
  | .setDone =>
    match k.jobDone with
    | none => none
    | some c =>
      some { f.setWorker w { k with job := none, client := none, pc := .trigger } with
        done := Function.update f.done c true }
  | .trigger => some (f.setWorker w { k with eventfd := true, pc := .lockQueue })
  | .lockQueue =>
    if f.queueMux = none then
      some { f.setWorker w { k with pc := .testShutdown } with queueMux := some w }
    else none
  | .testShutdown => goTo (if k.shutdown then .unlockQueue false else .pushCheck)
  | .pushCheck => goTo (if f.queue.isFull then .unlockQueue false else .pushItem)
  | .pushItem =>
    some { f.setWorker w { k with pc := .pushTail } with
      queue := { f.queue with items := f.queue.items.set f.queue.tail (some w) } }
  | .pushTail =>
    some { f.setWorker w { k with pc := .unlockQueue true } with
      queue := { f.queue with tail := (f.queue.tail + 1) % maxWorkersInQueue }
      idle := f.idle ++ [w] }
  | .unlockQueue goOn =>
    some { f.setWorker w { k with pc := if goOn then .lockStart else .setDead } with
      queueMux := none }
  | .setDead => some (f.setWorker w { k with dead := true, pc := .exited })
  | .exited => none

/-- The handler `nxweb_http_server_connection_worker_complete_on_message`, up to its loop. -/
def completeOnMessage (f : WorkerFactory W C) (c : C) : Option (WorkerFactory W C) :=
  if f.pub c = none then none
  else some { f with
    pub := Function.update f.pub c none
    messages := Function.update f.messages c 0
    inWorker := Function.update f.inWorker c false
    pc := .spin c }

/-- A single event. The loop calls the factory thread when it is not busy. -/
def step (f : WorkerFactory W C) : WorkersEvent W C → Option (WorkerFactory W C)
  | .request c => match f.pc with
    | .idle => some { f with pc := .popCheck (.get c) }
    | _ => none
  | .gc => match f.pc with
    | .idle => some { f with pc := .gcScan f.list }
    | _ => none
  | .notify w => match f.pc with
    | .idle =>
      if (f.worker w).eventfd then
        some { f.setWorker w { f.worker w with eventfd := false } with
          messages := fun c => f.messages c + if f.pub c = some w then 1 else 0 }
      else none
    | _ => none
  | .complete c => match f.pc with
    | .idle => if 0 < f.messages c then f.completeOnMessage c else none
    | _ => none
  | .factory => f.factoryStep
  | .create created => f.createStep created
  | .worker w => f.workerStep w
  | .wake w =>
    if (f.worker w).pc = .waiting then
      some (f.setWorker w { f.worker w with pc := .relock })
    else none

end WorkerFactory

end Nxweb
