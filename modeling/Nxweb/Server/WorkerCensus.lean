import Nxweb.Lib.DList
import Nxweb.Server.Workers

/-!
# The workers of a factory

Which workers a factory has: `link_worker`, `unlink_worker`, `nxw_create_worker`,
`nxw_destroy_worker`, `nxw_get_worker`, `nxw_gc_factory` and `nxw_finalize_factory` of
`nx_workers.c`, on the links that the workers themselves carry.

The factory thread makes one turn of a loop at a time, so that worker threads can enter the queue
and die in between. What an operation on the queue or the list does is one step. A worker is a
piece of memory that was allocated once; how far it had come when it was destroyed is recorded.

The links spell what `WorkerFactory.list` is as a list: `link_worker` puts a worker in front of it
(`WorkerLinks.Spells.link`) and `unlink_worker` erases one (`WorkerLinks.Spells.unlink`).

## Main statements

* `consistent_run`: in every run, the list is doubly linked, `worker_count` is its length, and
  workers are destroyed once, and only if their threads are dead or were never created;
* `workerCensus_iff`: when the number of workers stays within `NXWEB_MAX_WORKERS` as well.
-/

namespace Nxweb

open Lib

variable {W : Type*}

/-! ### Links -/

/-- The fields of workers and of their factory that make up the list of workers. -/
structure WorkerLinks (W : Type*) where
  next : W → Option W
  prev : W → Option W
  list : Option W

namespace WorkerLinks

/-- The list with a last pointer, which the factory does not keep. -/
def toDList (f : WorkerLinks W) (last : Option W) : DList W :=
  ⟨f.next, f.prev, f.list, last⟩

/-- The links spell a list, in both directions. -/
def Spells (f : WorkerLinks W) (ws : List W) : Prop :=
  (f.toDList ws.getLast?).Holds ws

variable [DecidableEq W] {f : WorkerLinks W} {ws : List W} {w : W}

/-- `link_worker`. -/
def linkWorker (f : WorkerLinks W) (w : W) : WorkerLinks W :=
  let f := { f with next := Function.update f.next w f.list }
  let f := match f.list with
    | some x => { f with prev := Function.update f.prev x (some w) }
    | none => f
  let f := { f with list := some w }
  { f with prev := Function.update f.prev w none }

/-- `unlink_worker`. -/
def unlinkWorker (f : WorkerLinks W) (w : W) : WorkerLinks W :=
  let f := match f.prev w with
    | some x => { f with next := Function.update f.next x (f.next w) }
    | none => { f with list := f.next w }
  let f := match f.next w with
    | some x => { f with prev := Function.update f.prev x (f.prev w) }
    | none => f
  let f := { f with next := Function.update f.next w none }
  { f with prev := Function.update f.prev w none }

/-- Taking a worker off is taking it off the list with a last pointer. -/
theorem unlinkWorker_toDList (last : Option W) :
    (f.unlinkWorker w).toDList ((f.toDList last).unlink w).last = (f.toDList last).unlink w := by
  simp only [unlinkWorker, toDList, DList.unlink, DList.remove]
  cases hp : f.prev w with
  | none =>
    simp only [DList.setNextOf]
    cases hn : f.next w <;> rfl
  | some p =>
    simp only [DList.setNextOf, DList.setNext]
    cases hn : Function.update f.next p (f.next w) w <;> rfl

/-- Linking a worker that is not the first one is putting it in front of the list. -/
theorem linkWorker_toDList (last : Option W) (hw : f.list ≠ some w) :
    (f.linkWorker w).toDList ((f.toDList last).pushFront w).last =
      (f.toDList last).pushFront w := by
  simp only [linkWorker, toDList, DList.pushFront]
  cases hl : f.list with
  | none => rfl
  | some x =>
    have hxw : x ≠ w := fun heq => hw (heq ▸ hl)
    have hcomm := Function.update_comm (β := fun _ => Option W) hxw (some w) none f.prev
    simp only [DList.setPrevOf, DList.setPrev, DList.setNext, hcomm]

omit [DecidableEq W] in
/-- A list whose last pointer is right is spelled. -/
theorem spells_of_holds {last : Option W} (h : (f.toDList last).Holds ws) : f.Spells ws := by
  have hlast : last = ws.getLast? := h.last_eq
  rwa [Spells, ← hlast]

/-- A worker that is not on the list is linked in front of it. -/
theorem Spells.link (h : f.Spells ws) (hw : w ∉ ws) : (f.linkWorker w).Spells (w :: ws) := by
  have hpush := DList.Holds.pushFront h hw
  rw [← linkWorker_toDList _ fun hfirst => hw (h.mem_of_first hfirst)] at hpush
  exact spells_of_holds hpush

/-- A worker on the list is taken off it. -/
theorem Spells.unlink (h : f.Spells ws) (hw : w ∈ ws) : (f.unlinkWorker w).Spells (ws.erase w) := by
  obtain ⟨as, bs, rfl⟩ := List.append_of_mem hw
  have hunlink := DList.Holds.unlink h
  rw [← unlinkWorker_toDList] at hunlink
  have herase : (as ++ w :: bs).erase w = as ++ bs := by
    rw [List.erase_append_right _ (DList.Holds.not_mem_sides h).1, List.erase_cons_head]
  rw [herase]
  exact spells_of_holds hunlink

end WorkerLinks

/-! ### The factory -/

/-- How far a worker has come. -/
inductive WorkerLife
  /-- Its memory has not been allocated. -/
  | unborn
  /-- It is on the list, but `pthread_create` has not succeeded. -/
  | unthreaded
  /-- Its thread runs outside of the queue. -/
  | active
  /-- It is in the queue of idle workers. -/
  | idle
  /-- Its thread has set `dead`. -/
  | dead
  /-- Its memory has been freed. -/
  | freed
  deriving DecidableEq, Repr

/-- Where the factory thread is. -/
inductive CensusPc (W : Type*)
  /-- Between calls. -/
  | loop
  /-- In the first loop of `nxw_gc_factory`, with the worker to look at. -/
  | gcScan (w : Option W)
  /-- In the second loop of `nxw_gc_factory`, with the number of workers still to wake up. -/
  | gcExtra (extra : ℤ)
  /-- In the loop of `nxw_finalize_factory` that empties the queue. -/
  | drain
  /-- In the loop of `nxw_finalize_factory` that joins the threads. -/
  | join
  deriving DecidableEq, Repr

/-- `nxw_factory`, with the state of all workers. -/
structure WorkerCensus (W : Type*) where
  pc : CensusPc W
  shutdownInProgress : Bool
  workerCount : ℤ
  /-- The list of workers. -/
  links : WorkerLinks W
  /-- The workers in the queue, in their order. -/
  queue : List W
  life : W → WorkerLife
  /-- `shutdown_in_progress` of a worker. -/
  shutdown : W → Bool
  /-- The workers that were destroyed, and how far they had come. -/
  destroyed : List (W × WorkerLife)

/-- What can happen. -/
inductive CensusEvent (W : Type*)
  /-- `nxw_get_worker`. If it comes to create a worker, that is the one in newly allocated memory,
  and `pthread_create` succeeds or not. -/
  | getWorker (w : W) (created : Bool)
  /-- `nxw_gc_factory` is called. -/
  | gc
  /-- `nxw_finalize_factory` is called. -/
  | finalize
  /-- The next step of `nxw_gc_factory` or `nxw_finalize_factory`. -/
  | factory
  /-- A worker is done with its job and puts itself into the queue. -/
  | enqueue (w : W)
  /-- The thread of a worker comes to its end. -/
  | exit (w : W)
  deriving DecidableEq, Repr

namespace WorkerCensus

variable [DecidableEq W]

/-- `nxw_init_factory`, with `NXWEB_START_WORKERS_IN_QUEUE` workers: none. -/
def init : WorkerCensus W where
  pc := .loop
  shutdownInProgress := false
  workerCount := 0
  links := { next := fun _ => none, prev := fun _ => none, list := none }
  queue := []
  life := fun _ => .unborn
  shutdown := fun _ => false
  destroyed := []

/-- A worker has come further. -/
def setLife (f : WorkerCensus W) (w : W) (life : WorkerLife) : WorkerCensus W :=
  { f with life := Function.update f.life w life }

/-- `nxw_destroy_worker`. -/
def destroyWorker (f : WorkerCensus W) (w : W) : WorkerCensus W :=
  { f.setLife w .freed with
    destroyed := f.destroyed ++ [(w, f.life w)]
    links := f.links.unlinkWorker w
    workerCount := f.workerCount - 1 }

/-- `nxw_create_worker` up to `f->worker_count++`. -/
def addWorker (f : WorkerCensus W) (w : W) : WorkerCensus W :=
  { f.setLife w .unthreaded with
    links := f.links.linkWorker w
    workerCount := f.workerCount + 1 }

/-- `nxw_create_worker`. The memory of the worker is new. -/
def createWorker (f : WorkerCensus W) (w : W) (created : Bool) : Option (WorkerCensus W) :=
  if f.life w = .unborn then
    let f := f.addWorker w
    some (if created then f.setLife w .active else f.destroyWorker w)
  else none

/-- `nxw_get_worker`. -/
def getWorker (f : WorkerCensus W) (w : W) (created : Bool) : Option (WorkerCensus W) :=
  if f.shutdownInProgress then some f
  else
    match f.queue with
    | x :: queue => some { f.setLife x .active with queue }
    | [] => if maxWorkers < f.workerCount then some f else f.createWorker w created

/-- The next step of `nxw_gc_factory` or `nxw_finalize_factory`. -/
def factoryStep (f : WorkerCensus W) : Option (WorkerCensus W) :=
  match f.pc with
  | .loop => none
  | .gcScan none =>
    some { f with pc := .gcExtra (((f.queue.length : ℤ) - maxIdleWorkersInQueue + 1).tdiv 2) }
  | .gcScan (some w) =>
    let next := f.links.next w
    some { (if f.life w = .dead then f.destroyWorker w else f) with pc := .gcScan next }
  | .gcExtra extra =>
    match f.queue with
    | x :: queue =>
      if 0 < extra then
        some { f.setLife x .active with
          queue
          shutdown := Function.update f.shutdown x true
          pc := .gcExtra (extra - 1) }
      else some { f with pc := .loop }
    | [] => some { f with pc := .loop }
  | .drain =>
    match f.queue with
    | _ :: queue => some { f with queue }
    | [] => some { f with pc := .join }
  | .join =>
    match f.links.list with
    | none => none
    -- `pthread_join` waits for the end of the thread.
    | some w => if f.life w = .dead then some (f.destroyWorker w) else none

/-- A worker puts itself into the queue, unless it is to end or the queue is full. -/
def enqueue (f : WorkerCensus W) (w : W) : Option (WorkerCensus W) :=
  if f.life w = .active ∧ f.shutdown w = false ∧ f.shutdownInProgress = false ∧
      f.queue.length < maxWorkersInQueue - 1 then
    some { f.setLife w .idle with queue := f.queue ++ [w] }
  else none

/-- A thread ends after a job if its worker is to end or the queue is full, and in the queue only
if the factory shuts down. -/
def exit (f : WorkerCensus W) (w : W) : Option (WorkerCensus W) :=
  if f.life w = .active ∧
        (f.shutdown w ∨ f.shutdownInProgress ∨ f.queue.length = maxWorkersInQueue - 1) ∨
      f.life w = .idle ∧ f.shutdownInProgress then
    some (f.setLife w .dead)
  else none

/-- A single event. Calls are made by the factory thread, one after another. -/
def step (f : WorkerCensus W) : CensusEvent W → Option (WorkerCensus W)
  | .getWorker w created => if f.pc = .loop then f.getWorker w created else none
  | .gc => if f.pc = .loop then some { f with pc := .gcScan f.links.list } else none
  | .finalize =>
    if f.pc = .loop then some { f with pc := .drain, shutdownInProgress := true } else none
  | .factory => f.factoryStep
  | .enqueue w => f.enqueue w
  | .exit w => f.exit w

@[simp]
theorem setLife_self (f : WorkerCensus W) (w : W) (life : WorkerLife) :
    (f.setLife w life).life w = life :=
  Function.update_self ..

theorem setLife_of_ne (f : WorkerCensus W) {w x : W} (life : WorkerLife) (hx : x ≠ w) :
    (f.setLife w life).life x = f.life x :=
  Function.update_of_ne hx _ _

/-! ### What holds in every run -/

/-- The list is doubly linked, `worker_count` is its length, and workers are destroyed once, when
their threads are dead or were never created. -/
structure Consistent (f : WorkerCensus W) : Prop where
  list : ∃ ws, f.links.Spells ws ∧ f.workerCount = ws.length
  destroyed_once : (f.destroyed.map Prod.fst).Nodup
  destroyed_dead : ∀ d ∈ f.destroyed, d.2 = .dead ∨ d.2 = .unthreaded

/-- The list `ws` has the workers that are allocated, and those in the queue are idle. -/
structure Tally (f : WorkerCensus W) (ws : List W) : Prop where
  spells : f.links.Spells ws
  count : f.workerCount = ws.length
  mem : ∀ w, w ∈ ws ↔ f.life w ≠ .unborn ∧ f.life w ≠ .freed
  queue_nodup : f.queue.Nodup
  queue_life : ∀ w ∈ f.queue, f.life w = .idle ∨ f.shutdownInProgress = true ∧ f.life w = .dead
  freed : ∀ d ∈ f.destroyed, f.life d.1 = .freed
  once : (f.destroyed.map Prod.fst).Nodup
  ended : ∀ d ∈ f.destroyed, d.2 = .dead ∨ d.2 = .unthreaded

/-- What holds between two steps. -/
structure Counted (f : WorkerCensus W) (ws : List W) : Prop extends Tally f ws where
  scan : ∀ w, f.pc = .gcScan (some w) → w ∈ ws
  shutdown : f.shutdownInProgress = true ↔ f.pc = .drain ∨ f.pc = .join
  join : f.pc = .join → f.queue = []

variable {f f' : WorkerCensus W} {ws : List W} {w : W}

omit [DecidableEq W] in
theorem Tally.consistent (h : f.Tally ws) : f.Consistent :=
  ⟨⟨ws, h.spells, h.count⟩, h.once, h.ended⟩

omit [DecidableEq W] in
/-- The place of the factory thread does not matter to the list. -/
theorem Tally.goTo (h : f.Tally ws) (pc : CensusPc W) : Tally { f with pc } ws :=
  ⟨h.spells, h.count, h.mem, h.queue_nodup, h.queue_life, h.freed, h.once, h.ended⟩

omit [DecidableEq W] in
/-- A worker is taken from the queue. -/
theorem Tally.pop (h : f.Tally ws) {queue : List W} (hq : f.queue = w :: queue) :
    Tally { f with queue } ws := by
  have hnodup : (w :: queue).Nodup := hq ▸ h.queue_nodup
  refine ⟨h.spells, h.count, h.mem, (List.nodup_cons.mp hnodup).2, fun x hx => ?_, h.freed, h.once,
    h.ended⟩
  exact h.queue_life x (hq ▸ List.mem_cons_of_mem w hx)

/-- A worker on the list comes further, and stays on it. -/
theorem Tally.setLife (h : f.Tally ws) (hw : w ∈ ws) {life : WorkerLife}
    (hlife : life ≠ .unborn ∧ life ≠ .freed)
    (hqueue : w ∈ f.queue → life = .idle ∨ f.shutdownInProgress = true ∧ life = .dead) :
    (f.setLife w life).Tally ws := by
  refine ⟨h.spells, h.count, fun x => ?_, h.queue_nodup, fun x hx => ?_, fun d hd => ?_, h.once,
    h.ended⟩
  · by_cases hxw : x = w
    · subst hxw
      simp [hw, hlife]
    · rw [h.mem x, setLife_of_ne f life hxw]
  · by_cases hxw : x = w
    · subst hxw
      rw [setLife_self]
      exact hqueue hx
    · rw [setLife_of_ne f life hxw]
      exact h.queue_life x hx
  · have hfreed := h.freed d hd
    have hne : d.1 ≠ w := fun heq => ((h.mem w).mp hw).2 (heq ▸ hfreed)
    rw [setLife_of_ne f life hne]
    exact hfreed

/-- A worker is put behind the others in the queue. -/
theorem Tally.push (h : f.Tally ws) (hw : w ∈ ws) (hlife : f.life w = .active) :
    Tally { f.setLife w .idle with queue := f.queue ++ [w] } ws := by
  have hout : w ∉ f.queue := fun hmem => by
    rcases h.queue_life w hmem with hidle | ⟨-, hdead⟩ <;> simp_all
  have hset : (f.setLife w .idle).Tally ws :=
    h.setLife hw ⟨by decide, by decide⟩ fun _ => .inl rfl
  refine ⟨hset.spells, hset.count, hset.mem, ?_, fun x hx => ?_, hset.freed, hset.once, hset.ended⟩
  · exact List.nodup_append.mpr ⟨h.queue_nodup, List.nodup_singleton w, fun a ha b hb hab =>
      hout (List.mem_singleton.mp hb ▸ hab ▸ ha)⟩
  · rcases List.mem_append.mp hx with hmem | hmem
    · exact hset.queue_life x hmem
    · rw [List.mem_singleton.mp hmem]
      exact .inl (setLife_self f w .idle)

/-- A worker on the list that is not in the queue is destroyed. -/
theorem Tally.destroy (h : f.Tally ws) (hw : w ∈ ws) (hout : w ∉ f.queue)
    (hlife : f.life w = .dead ∨ f.life w = .unthreaded) :
    (f.destroyWorker w).Tally (ws.erase w) := by
  have hnodup : ws.Nodup := h.spells.nodup
  have hfresh : w ∉ f.destroyed.map Prod.fst := fun hmem => by
    obtain ⟨d, hd, rfl⟩ := List.mem_map.mp hmem
    exact ((h.mem _).mp hw).2 (h.freed d hd)
  have hothers : ∀ x, x ≠ w → (f.destroyWorker w).life x = f.life x := fun x hx =>
    setLife_of_ne f .freed hx
  have hself : (f.destroyWorker w).life w = .freed := setLife_self f w .freed
  refine ⟨h.spells.unlink hw, ?_, fun x => ?_, h.queue_nodup, fun x hx => ?_, fun d hd => ?_, ?_,
    fun d hd => ?_⟩
  · have hpos : 0 < ws.length := List.length_pos_of_mem hw
    show f.workerCount - 1 = _
    rw [h.count, List.length_erase_of_mem hw]
    omega
  · rw [hnodup.mem_erase_iff]
    by_cases hxw : x = w
    · subst hxw
      simp [hself]
    · rw [hothers x hxw, h.mem x]
      simp [hxw]
  · rw [hothers x fun heq => hout (heq ▸ hx)]
    exact h.queue_life x hx
  · rcases List.mem_append.mp hd with hd | hd
    · rw [hothers d.1 fun heq => hfresh (heq ▸ List.mem_map_of_mem hd)]
      exact h.freed d hd
    · rw [List.mem_singleton.mp hd]
      exact hself
  · show ((f.destroyed ++ [(w, f.life w)]).map Prod.fst).Nodup
    rw [List.map_append, List.nodup_append]
    refine ⟨h.once, List.nodup_singleton w, fun a ha b hb hab => hfresh ?_⟩
    have haw : a = w := hab.trans (List.mem_singleton.mp hb)
    exact haw ▸ ha
  · rcases List.mem_append.mp hd with hd | hd
    · exact h.ended d hd
    · rw [List.mem_singleton.mp hd]
      exact hlife

/-- A new worker is linked, before its thread is created. -/
theorem Tally.add (h : f.Tally ws) (hw : f.life w = .unborn) :
    (f.addWorker w).Tally (w :: ws) := by
  have hout : w ∉ ws := fun hmem => ((h.mem w).mp hmem).1 hw
  have hothers : ∀ x, x ≠ w → (f.setLife w .unthreaded).life x = f.life x := fun x hx =>
    setLife_of_ne f .unthreaded hx
  refine ⟨h.spells.link hout, ?_, fun x => ?_, h.queue_nodup, fun x hx => ?_, fun d hd => ?_,
    h.once, h.ended⟩
  · show f.workerCount + 1 = _
    rw [h.count, List.length_cons]
    omega
  · rw [List.mem_cons]
    by_cases hxw : x = w
    · subst hxw
      simp [addWorker]
    · show _ ↔ (f.setLife w .unthreaded).life x ≠ _ ∧ (f.setLife w .unthreaded).life x ≠ _
      rw [hothers x hxw, ← h.mem x]
      simp [hxw]
  · have hne : x ≠ w := fun heq => by
      rcases h.queue_life x hx with hidle | ⟨-, hdead⟩ <;> simp_all
    show (f.setLife w .unthreaded).life x = _ ∨ _ ∧ (f.setLife w .unthreaded).life x = _
    rw [hothers x hne]
    exact h.queue_life x hx
  · have hfreed := h.freed d hd
    have hne : d.1 ≠ w := fun heq => by simp [heq, hw] at hfreed
    exact (hothers d.1 hne).trans hfreed

/-! ### Steps -/

/-- What `nxw_create_worker` leads to, when no worker is idle. -/
theorem Tally.create (h : f.Tally ws) (hqueue : f.queue = []) {created : Bool}
    (hcreate : f.createWorker w created = some f') :
    ∃ ws', f'.Tally ws' ∧ f'.pc = f.pc ∧ f'.shutdownInProgress = f.shutdownInProgress ∧
      f'.workerCount = f.workerCount + if created then 1 else 0 := by
  by_cases hw : f.life w = .unborn
  · have hadd := h.add hw
    have hmem : w ∈ w :: ws := List.mem_cons_self
    have hout : w ∉ (f.addWorker w).queue := by
      show w ∉ f.queue
      rw [hqueue]
      exact List.not_mem_nil
    rw [createWorker, if_pos hw] at hcreate
    obtain rfl := Option.some.inj hcreate
    cases created with
    | true =>
      exact ⟨_, hadd.setLife hmem ⟨by decide, by decide⟩ (absurd · hout), rfl, rfl, rfl⟩
    | false =>
      refine ⟨_, hadd.destroy hmem hout (.inr (setLife_self ..)), rfl, rfl, ?_⟩
      show f.workerCount + 1 - 1 = f.workerCount + 0
      omega
  · simp [createWorker, hw] at hcreate

/-- A worker is taken from the queue to work or to end. -/
theorem Tally.take {queue : List W} (h : f.Tally ws) (hq : f.queue = w :: queue)
    (hrunning : f.shutdownInProgress = false) :
    Tally { f.setLife w .active with queue } ws := by
  have hnodup : (w :: queue).Nodup := hq ▸ h.queue_nodup
  have hmem : w ∈ ws := by
    rw [h.mem w]
    rcases h.queue_life w (hq ▸ List.mem_cons_self) with hidle | ⟨hshutdown, -⟩
    · simp [hidle]
    · simp [hrunning] at hshutdown
  exact (h.pop hq).setLife hmem ⟨by decide, by decide⟩
    (absurd · (List.nodup_cons.mp hnodup).1)

omit [DecidableEq W] in
/-- Between calls the factory does not shut down. -/
theorem Counted.running (h : f.Counted ws) (hpc : f.pc ≠ .drain ∧ f.pc ≠ .join) :
    f.shutdownInProgress = false := by
  by_contra hshutdown
  exact (h.shutdown.mp (by simpa using hshutdown)).elim hpc.1 hpc.2

omit [DecidableEq W] in
/-- Until the factory shuts down, only the list matters and the worker to look at. -/
theorem Tally.counted (h : f.Tally ws) (hscan : ∀ w, f.pc = .gcScan (some w) → w ∈ ws)
    (hpc : f.pc ≠ .drain ∧ f.pc ≠ .join) (hrunning : f.shutdownInProgress = false) :
    f.Counted ws :=
  ⟨h, hscan, by simp [hrunning, hpc], fun hpc' => absurd hpc' hpc.2⟩

/-- `nxw_get_worker` takes an idle worker, or creates one if there are none and `worker_count` is
not beyond the limit. -/
theorem Counted.getWorker (h : f.Counted ws) (hpc : f.pc = .loop) {created : Bool}
    (hget : f.getWorker w created = some f') :
    (∃ ws', f'.Counted ws') ∧
      f'.workerCount = f.workerCount +
        if f.queue = [] ∧ f.workerCount ≤ maxWorkers ∧ created then 1 else 0 := by
  have hrunning := h.running (by simp [hpc])
  rw [WorkerCensus.getWorker, hrunning, if_neg Bool.false_ne_true] at hget
  cases hqueue : f.queue with
  | cons x queue =>
    simp only [hqueue, Option.some.injEq] at hget
    subst hget
    have htake := h.toTally.take hqueue hrunning
    exact ⟨⟨ws, htake.counted (by simp [setLife, hpc]) (by simp [setLife, hpc]) hrunning⟩,
      by simp [setLife]⟩
  | nil =>
    simp only [hqueue] at hget
    split_ifs at hget with hfull
    · obtain rfl := Option.some.inj hget
      exact ⟨⟨ws, h⟩, by simp [hfull]⟩
    · obtain ⟨ws', htally, hpc', hrunning', hcount⟩ := h.toTally.create hqueue hget
      refine ⟨⟨ws', htally.counted (by simp [hpc', hpc]) (by simp [hpc', hpc])
        (hrunning'.trans hrunning)⟩, ?_⟩
      rw [hcount]
      simp [not_lt.mp hfull]

omit [DecidableEq W] in
/-- The worker after another one on the list is a different one. -/
theorem Tally.next_mem (h : f.Tally ws) (hw : w ∈ ws) {x : W} (hx : f.links.next w = some x) :
    x ∈ ws ∧ x ≠ w := by
  obtain ⟨as, bs, rfl⟩ := List.append_of_mem hw
  have hnext : f.links.next w = bs.head? := h.spells.next_eq as w bs rfl
  have hmem : x ∈ bs := List.mem_of_mem_head? (hnext ▸ hx)
  refine ⟨by simp [hmem], fun heq => ?_⟩
  exact (DList.Holds.not_mem_sides h.spells).2 (heq ▸ hmem)

/-- A turn of the first loop of `nxw_gc_factory` destroys a dead worker, and goes on with the one
after it. -/
theorem Counted.gcScan (h : f.Counted ws) (hpc : f.pc = .gcScan (some w)) :
    ∃ ws', Counted { (if f.life w = .dead then f.destroyWorker w else f) with
      pc := .gcScan (f.links.next w) } ws' := by
  have hrunning := h.running (by simp [hpc])
  have hw := h.scan w hpc
  split_ifs with hdead
  · -- A dead worker is not in the queue, and the next one stays on the list.
    have hout : w ∉ f.queue := fun hmem => by
      rcases h.queue_life w hmem with hidle | ⟨hshutdown, -⟩ <;> simp_all
    have hdestroy := h.toTally.destroy hw hout (.inl hdead)
    refine ⟨ws.erase w, (hdestroy.goTo _).counted (fun x hx => ?_) (by simp) hrunning⟩
    obtain ⟨hmem, hne⟩ := h.next_mem hw (CensusPc.gcScan.inj hx)
    exact (List.mem_erase_of_ne hne).mpr hmem
  · refine ⟨ws, (h.toTally.goTo _).counted (fun x hx => ?_) (by simp) hrunning⟩
    exact (h.next_mem hw (CensusPc.gcScan.inj hx)).1

/-- A turn of the last loop of `nxw_finalize_factory` destroys the first worker, whose thread has
ended. -/
theorem Counted.joinStep (h : f.Counted ws) (hpc : f.pc = .join) (hfirst : f.links.list = some w)
    (hdead : f.life w = .dead) : (f.destroyWorker w).Counted (ws.erase w) := by
  have hw : w ∈ ws := h.spells.mem_of_first hfirst
  have hqueue := h.join hpc
  have hdestroy := h.toTally.destroy hw (by simp [hqueue]) (.inl hdead)
  have hpc' : (f.destroyWorker w).pc = .join := hpc
  have hshutdown : (f.destroyWorker w).shutdownInProgress = true := h.shutdown.mpr (.inr hpc)
  exact ⟨hdestroy, by simp [hpc'], by simp [hpc', hshutdown], fun _ => hqueue⟩

/-- A step of `nxw_gc_factory` or `nxw_finalize_factory` creates no worker. -/
theorem Counted.factoryStep (h : f.Counted ws) (hstep : f.factoryStep = some f') :
    (∃ ws', f'.Counted ws') ∧ f'.workerCount ≤ f.workerCount := by
  rw [WorkerCensus.factoryStep] at hstep
  cases hpc : f.pc with
  | loop => simp [hpc] at hstep
  | gcScan w =>
    cases w with
    | none =>
      simp only [hpc, Option.some.injEq] at hstep
      subst hstep
      have hrunning := h.running (by simp [hpc])
      exact ⟨⟨ws, (h.toTally.goTo _).counted (by simp) (by simp) hrunning⟩, le_rfl⟩
    | some w =>
      simp only [hpc, Option.some.injEq] at hstep
      subst hstep
      refine ⟨h.gcScan hpc, ?_⟩
      split_ifs
      · simp [destroyWorker]
      · exact le_rfl
  | gcExtra extra =>
    have hrunning := h.running (by simp [hpc])
    have hloop : Counted { f with pc := .loop } ws :=
      (h.toTally.goTo _).counted (by simp) (by simp) hrunning
    cases hqueue : f.queue with
    | nil =>
      simp only [hpc, hqueue, Option.some.injEq] at hstep
      subst hstep
      exact ⟨⟨ws, hqueue ▸ hloop⟩, le_rfl⟩
    | cons x queue =>
      simp only [hpc, hqueue] at hstep
      split_ifs at hstep
      · obtain rfl := Option.some.inj hstep
        have htake := (h.toTally.take hqueue hrunning).goTo (.gcExtra (extra - 1))
        have htally : Tally { f.setLife x .active with
            queue
            shutdown := Function.update f.shutdown x true
            pc := .gcExtra (extra - 1) } ws :=
          ⟨htake.spells, htake.count, htake.mem, htake.queue_nodup, htake.queue_life, htake.freed,
            htake.once, htake.ended⟩
        exact ⟨⟨ws, htally.counted (by simp) (by simp) hrunning⟩, le_rfl⟩
      · obtain rfl := Option.some.inj hstep
        exact ⟨⟨ws, hqueue ▸ hloop⟩, le_rfl⟩
  | drain =>
    have hshutdown := h.shutdown.mpr (.inl hpc)
    cases hqueue : f.queue with
    | nil =>
      simp only [hpc, hqueue, Option.some.injEq] at hstep
      subst hstep
      exact ⟨⟨ws, hqueue ▸ h.toTally.goTo _, by simp, by simp [hshutdown], fun _ => rfl⟩, le_rfl⟩
    | cons x queue =>
      simp only [hpc, hqueue, Option.some.injEq] at hstep
      subst hstep
      exact ⟨⟨ws, hpc ▸ h.toTally.pop hqueue, by simp, by simp [hshutdown], by simp⟩, le_rfl⟩
  | join =>
    simp only [hpc] at hstep
    cases hfirst : f.links.list with
    | none => simp [hfirst] at hstep
    | some w =>
      simp only [hfirst] at hstep
      split_ifs at hstep with hdead
      obtain rfl := Option.some.inj hstep
      exact ⟨⟨_, h.joinStep hpc hfirst hdead⟩, by simp [destroyWorker]⟩

/-- What a worker thread does to the queue and to its own life does not change the list. -/
theorem Counted.enqueue (h : f.Counted ws) (hstep : f.enqueue w = some f') :
    f'.Counted ws ∧ f'.workerCount = f.workerCount := by
  rw [WorkerCensus.enqueue] at hstep
  split_ifs at hstep with hcond
  obtain rfl := Option.some.inj hstep
  obtain ⟨hlife, -, hrunning, -⟩ := hcond
  have hw : w ∈ ws := by
    rw [h.mem w]
    simp [hlife]
  refine ⟨⟨h.toTally.push hw hlife, h.scan, h.shutdown, fun hpc => ?_⟩, rfl⟩
  have hshutdown := h.shutdown.mpr (.inr hpc)
  exact absurd (hrunning.symm.trans hshutdown) Bool.false_ne_true

theorem Counted.exit (h : f.Counted ws) (hstep : f.exit w = some f') :
    f'.Counted ws ∧ f'.workerCount = f.workerCount := by
  rw [WorkerCensus.exit] at hstep
  split_ifs at hstep with hcond
  obtain rfl := Option.some.inj hstep
  have hw : w ∈ ws := by
    rw [h.mem w]
    rcases hcond with ⟨hlife, -⟩ | ⟨hlife, -⟩ <;> simp [hlife]
  refine ⟨⟨h.toTally.setLife hw ⟨by decide, by decide⟩ fun hmem => ?_, h.scan, h.shutdown, h.join⟩,
    rfl⟩
  -- A worker in the queue dies only when the factory shuts down.
  rcases hcond with ⟨hactive, -⟩ | ⟨-, hshutdown⟩
  · rcases h.queue_life w hmem with hidle | ⟨-, hdead⟩ <;> simp_all
  · exact .inr ⟨hshutdown, rfl⟩

/-- `nxw_get_worker` creates a worker although there are `NXWEB_MAX_WORKERS` already. -/
def CreatesBeyond (f : WorkerCensus W) (e : CensusEvent W) : Prop :=
  ∃ w, e = .getWorker w true ∧ f.queue = [] ∧ f.workerCount = maxWorkers

/-- Every event keeps the list, and only the creation of a worker makes it longer. That happens up
to `NXWEB_MAX_WORKERS`, and once more with so many. -/
theorem Counted.step {e : CensusEvent W} (h : f.Counted ws) (hstep : f.step e = some f') :
    (∃ ws', f'.Counted ws') ∧
      (f'.workerCount ≤ f.workerCount ∧ ¬ f.CreatesBeyond e ∨
        f'.workerCount = f.workerCount + 1 ∧ f.workerCount ≤ maxWorkers ∧
          (f.CreatesBeyond e ↔ f.workerCount = maxWorkers)) := by
  cases e with
  | getWorker w created =>
    rw [WorkerCensus.step] at hstep
    split_ifs at hstep with hpc
    obtain ⟨hcounted, hcount⟩ := h.getWorker hpc hstep
    refine ⟨hcounted, ?_⟩
    rw [hcount]
    split_ifs with hcreates
    · obtain ⟨hqueue, hle, rfl⟩ := hcreates
      refine .inr ⟨rfl, hle, ?_⟩
      simp [CreatesBeyond, hqueue]
    · refine .inl ⟨by omega, ?_⟩
      rintro ⟨w', heq, hqueue, hmax⟩
      obtain ⟨-, rfl⟩ := CensusEvent.getWorker.inj heq
      exact hcreates ⟨hqueue, hmax.le, rfl⟩
  | gc =>
    rw [WorkerCensus.step] at hstep
    split_ifs at hstep with hpc
    obtain rfl := Option.some.inj hstep
    refine ⟨⟨ws, (h.toTally.goTo _).counted (fun x hx => ?_) (by simp)
      (h.running (by simp [hpc]))⟩, .inl ⟨le_rfl, by simp [CreatesBeyond]⟩⟩
    exact h.spells.mem_of_first (CensusPc.gcScan.inj hx)
  | finalize =>
    rw [WorkerCensus.step] at hstep
    split_ifs at hstep with hpc
    obtain rfl := Option.some.inj hstep
    have hrunning := h.running (by simp [hpc])
    refine ⟨⟨ws, ⟨h.spells, h.count, h.mem, h.queue_nodup, fun x hx => ?_, h.freed, h.once,
      h.ended⟩, by simp, by simp, by simp⟩, .inl ⟨le_rfl, by simp [CreatesBeyond]⟩⟩
    exact (h.queue_life x hx).imp_right fun ⟨_, hdead⟩ => ⟨rfl, hdead⟩
  | factory =>
    obtain ⟨hcounted, hle⟩ := h.factoryStep hstep
    exact ⟨hcounted, .inl ⟨hle, by simp [CreatesBeyond]⟩⟩
  | enqueue w =>
    obtain ⟨hcounted, hcount⟩ := h.enqueue hstep
    exact ⟨⟨ws, hcounted⟩, .inl ⟨hcount.le, by simp [CreatesBeyond]⟩⟩
  | exit w =>
    obtain ⟨hcounted, hcount⟩ := h.exit hstep
    exact ⟨⟨ws, hcounted⟩, .inl ⟨hcount.le, by simp [CreatesBeyond]⟩⟩

/-! ### Runs -/

omit [DecidableEq W] in
/-- A factory starts without workers. -/
theorem counted_init : (init : WorkerCensus W).Counted [] where
  spells := DList.holds_nil rfl rfl
  count := rfl
  mem := by simp [init]
  queue_nodup := List.nodup_nil
  queue_life := by simp [init]
  freed := by simp [init]
  once := List.nodup_nil
  ended := by simp [init]
  scan := by simp [init]
  shutdown := by simp [init]
  join := fun _ => rfl

/-- In every run the list of workers is consistent, and there is never more than one worker too
many. -/
theorem consistent_run {es : List (CensusEvent W)} (hrun : run step init es = some f) :
    f.Consistent ∧ f.workerCount ≤ maxWorkers + 1 := by
  have hstep : ∀ (f : WorkerCensus W) e f',
      (∃ ws, f.Counted ws ∧ f.workerCount ≤ maxWorkers + 1) → f.step e = some f' →
      ∃ ws, f'.Counted ws ∧ f'.workerCount ≤ maxWorkers + 1 := by
    rintro f e f' ⟨ws, h, hle⟩ hf'
    obtain ⟨⟨ws', h'⟩, hcount⟩ := h.step hf'
    refine ⟨ws', h', ?_⟩
    rcases hcount with ⟨hcount, -⟩ | ⟨hcount, hmax, -⟩ <;> omega
  have hinit : (init : WorkerCensus W).workerCount ≤ maxWorkers + 1 := Int.zero_le_ofNat _
  obtain ⟨ws, h, hle⟩ := run_inv hstep ⟨[], counted_init, hinit⟩ hrun
  exact ⟨h.consistent, hle⟩

/-- In a run, the list of workers is consistent and never has more than `NXWEB_MAX_WORKERS`
workers, if and only if `nxw_get_worker` never creates a worker in a state with exactly so many and
none of them idle. -/
theorem workerCensus_iff (es : List (CensusEvent W)) :
    Along step (fun _ _ f => f.Consistent ∧ f.workerCount ≤ maxWorkers) (init : WorkerCensus W) es ↔
      Along step (fun f e _ => ¬ f.CreatesBeyond e) (init : WorkerCensus W) es := by
  refine along_iff (I := fun f : WorkerCensus W => ∃ ws, f.Counted ws ∧ f.workerCount ≤ maxWorkers)
    ?_ es ⟨[], counted_init, Int.natCast_nonneg _⟩
  rintro f e f' ⟨ws, h, hle⟩ hf'
  obtain ⟨⟨ws', h'⟩, hcount⟩ := h.step hf'
  have hconsistent := h'.toTally.consistent
  refine ⟨?_, fun hf => ⟨ws', h', hf.2⟩⟩
  rcases hcount with ⟨hcount, hnot⟩ | ⟨hcount, -, hbeyond⟩
  · exact iff_of_true ⟨hconsistent, hcount.trans hle⟩ hnot
  · rw [hbeyond, and_iff_right hconsistent, hcount]
    omega

/-- The workers up to `n` have been created, and none of them has become idle. -/
structure AllBusy (f : WorkerCensus ℕ) (n : ℕ) : Prop where
  pc : f.pc = .loop
  running : f.shutdownInProgress = false
  queue : f.queue = []
  count : f.workerCount = n
  unborn : ∀ w, n ≤ w → f.life w = .unborn

/-- Up to `NXWEB_MAX_WORKERS`, and once more with so many, a request creates another worker. -/
theorem AllBusy.step {f : WorkerCensus ℕ} {n : ℕ} (h : f.AllBusy n) (hn : n ≤ maxWorkers) :
    ∃ f', f.step (.getWorker n true) = some f' ∧ f'.AllBusy (n + 1) := by
  have hcount := h.count
  have hroom : ¬ (maxWorkers : ℤ) < f.workerCount := by omega
  refine ⟨(f.addWorker n).setLife n .active, ?_, h.pc, h.running, h.queue, ?_, fun w hw => ?_⟩
  · simp [WorkerCensus.step, WorkerCensus.getWorker, createWorker, h.pc, h.running, h.queue, hroom,
      h.unborn n le_rfl]
  · show f.workerCount + 1 = _
    rw [hcount, Nat.cast_add_one]
  · have hne : w ≠ n := by omega
    rw [setLife_of_ne _ _ hne]
    exact (setLife_of_ne f _ hne).trans (h.unborn w (by omega))

/-- Requests that find no idle worker create one after another. -/
theorem run_allBusy {n : ℕ} (hn : n ≤ maxWorkers + 1) :
    ∃ f, run WorkerCensus.step init ((List.range n).map (.getWorker · true)) = some f ∧
      f.AllBusy n := by
  induction n with
  | zero => exact ⟨init, rfl, rfl, rfl, rfl, rfl, fun _ _ => rfl⟩
  | succ n ih =>
    obtain ⟨f, hrun, hbusy⟩ := ih (by omega)
    obtain ⟨f', hstep, hbusy'⟩ := hbusy.step (by omega)
    refine ⟨f', ?_, hbusy'⟩
    rw [List.range_succ, List.map_append]
    exact run_append hrun (run_single hstep)

/-- As many requests as there may be workers, and one more, none of which finds an idle worker,
create a worker each. -/
theorem not_workerCensus :
    ¬ ∀ es, Along step (fun _ _ f => f.Consistent ∧ f.workerCount ≤ maxWorkers)
      (init : WorkerCensus ℕ) es := by
  intro h
  obtain ⟨f, hrun, hbusy⟩ := run_allBusy (n := maxWorkers) (by omega)
  obtain ⟨f', hstep, hbusy'⟩ := hbusy.step le_rfl
  have hlast := (h (_ ++ [.getWorker maxWorkers true])).of_run hrun
  have hle := (hlast f' hstep).1.2
  rw [hbusy'.count] at hle
  omega

end WorkerCensus

end Nxweb
