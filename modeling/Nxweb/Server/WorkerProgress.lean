import Nxweb.Lib.Fairness
import Nxweb.Server.WorkerHandOff

/-!
# Progress of jobs

A job that was started and whose function has not been called yet is with a worker
(`Worker.WillCall`). It goes there in three stages, each with a rank that shrinks:

* `BusyStart`: the factory thread waits for a `start_mux` that the worker holds, until the worker
  falls asleep (`WorkerPc.toSleep`).
* `Starting`: the factory thread is in `nxw_start_worker`, and has so many steps left
  (`StartPhase.left`).
* `Started`: the worker has so many steps left before the call (`WorkerPc.toCall`), and nobody
  stops it.

Fair executions go through all of them (`called_eventually`). `jobs_handedOff` puts this together
with what the invariant says.
-/

namespace Nxweb

open Lib

/-- How many steps `nxw_start_worker` has left. -/
def StartPhase.left : StartPhase → ℕ
  | .lock => 7
  | .setDoJob => 6
  | .setJobParam => 5
  | .setJobDone => 4
  | .clearDone => 3
  | .signal => 2
  | .unlock => 1

/-- How many steps the factory thread has left in `nxw_start_worker` for a worker. -/
def Hold.left : Hold → ℕ
  | .starting phase => phase.left
  | _ => 0

/-- How many steps a worker that looks for a job, and finds none, has left before it sleeps. -/
def WorkerPc.toSleep : WorkerPc → ℕ
  | .checkJob => 2
  | .checkShutdown => 1
  | _ => 0

/-- How many steps a worker that has a job has left before it calls its function. -/
def WorkerPc.toCall : WorkerPc → ℕ
  | .unlockQueue true => 6
  | .lockStart | .relock => 5
  | .checkJob => 4
  | .unlockStart => 3
  | .testJob => 2
  | .call => 1
  | _ => 0

variable {W C : Type*}

namespace Worker.Ok

variable {k : Worker C} {queued : Bool} {hold : Hold}

/-- Nobody does anything to a worker with a job but `nxw_start_worker`. -/
theorem of_job (h : k.Ok queued hold) (hjob : k.job ≠ none) :
    hold = .none ∨ ∃ phase, hold = .starting phase := by
  obtain ⟨hsituation, hdead, hstart, hexclusive⟩ := h
  cases hsituation with
  | starting => exact .inr ⟨_, rfl⟩
  | given | reporting | returning | unborn | leaving => exact .inl rfl
  | idle _ hnone | flagging _ hnone | stopping _ hnone => exact absurd hnone hjob

/-- A worker that was given a job goes straight to it. -/
theorem given (h : k.Ok queued .none) (hjob : k.job ≠ none) (hcalled : k.pc.called = false) :
    k.doJob = k.job ∧ k.pc.toJob = true ∧
      k.startMux = if k.pc.locksStart then some .worker else none := by
  obtain ⟨hsituation, hdead, hstart, hexclusive⟩ := h
  cases hsituation with
  | given hpc _ hdoJob => exact ⟨hdoJob, hpc, by simpa [Hold.locksStart] using hstart⟩
  | reporting hpc =>
    rw [hpc] at hcalled
    contradiction
  | idle _ hnone | returning _ hnone | unborn _ hnone | stopping _ hnone | leaving _ hnone =>
    exact absurd hnone hjob

/-- If `nxw_start_worker` has to wait for the mutex, then for a worker that is about to sleep. -/
theorem busy (h : k.Ok queued (.starting .lock)) (hmux : k.startMux ≠ none) :
    (k.pc = .checkJob ∨ k.pc = .checkShutdown) ∧ k.doJob = none ∧ k.shutdown = false := by
  obtain ⟨hsituation, hdead, hstart, hexclusive⟩ := h
  grind

end Worker.Ok

namespace WorkerFactory

variable [DecidableEq W] {f f' : WorkerFactory W C} {w : W} {j : ℕ}

/-- A worker with a job is left alone, or it is just being started. -/
theorem Inv.hold_cases (h : f.Inv) (hjob : (f.worker w).job = some j) :
    f.pc.hold w = .none ∨ ∃ c phase, f.pc = .start w c phase := by
  have hne : (f.worker w).job ≠ none := by simp [hjob]
  refine ((h.synced.ok w).of_job hne).imp_right fun ⟨phase, hphase⟩ => ?_
  cases hpc : f.pc with
  | start w' c phase' =>
    rw [hpc, FactoryPc.hold] at hphase
    split at hphase
    · rename_i heq
      exact ⟨c, phase', by rw [heq]⟩
    · contradiction
  | popHead w' purpose =>
    rw [hpc, FactoryPc.hold] at hphase
    split at hphase <;> contradiction
  | stop w' extra phase' =>
    rw [hpc, FactoryPc.hold] at hphase
    split at hphase <;> contradiction
  | _ =>
    rw [hpc] at hphase
    contradiction

/-- The job is being started. -/
def Starting (w : W) (j : ℕ) (f : WorkerFactory W C) : Prop :=
  f.Inv ∧ (f.worker w).WillCall j ∧ ∃ c phase, f.pc = .start w c phase

/-- The job was started. -/
def Started (w : W) (j : ℕ) (f : WorkerFactory W C) : Prop :=
  f.Inv ∧ (f.worker w).WillCall j ∧ f.pc.hold w = .none

theorem Inv.started_or (h : f.Inv) (hwill : (f.worker w).WillCall j) :
    Started w j f ∨ Starting w j f :=
  (h.hold_cases hwill.1).imp (fun hhold => ⟨h, hwill, hhold⟩) fun hstart => ⟨h, hwill, hstart⟩

/-- Reading an eventfd leaves every worker where it is. -/
theorem same_eventfd (w' : W) :
    (Function.update f.worker w' { f.worker w' with eventfd := false } w).job =
        (f.worker w).job ∧
      (Function.update f.worker w' { f.worker w' with eventfd := false } w).pc =
        (f.worker w).pc := by
  refine (Function.forall_update_iff f.worker fun w k => k.job = (f.worker w).job ∧
    k.pc = (f.worker w).pc).mpr ⟨?_, fun _ _ => ⟨rfl, rfl⟩⟩ w
  exact ⟨rfl, rfl⟩

/-- The workers in the queue have nothing to do. -/
theorem Inv.queued (h : f.Inv)
    (hw : some w ∈ Ring.contents f.queue.items f.queue.head f.queue.tail) :
    (f.worker w).job = none ∧ (f.worker w).doJob = none ∧ (f.worker w).pc.atRest = true := by
  have hmem : w ∈ f.idle := by
    rw [h.synced.ring.contents_eq] at hw
    simpa using hw
  have hok := h.synced.ok w
  rw [decide_eq_true hmem] at hok
  obtain ⟨hrest, hjob, hdoJob, -⟩ := hok.queued_free
  exact ⟨hjob, hdoJob, hrest⟩

variable [DecidableEq C]

/-- A step of a worker changes no other one. -/
theorem workerStep_other {w' : W} (h : f.workerStep w' = some f') (hw : w ≠ w') :
    f'.worker w = f.worker w := by
  obtain ⟨-, -, -, heffect⟩ := workerStep_effect h
  cases heffect with
  | quiet k hworker => rw [hworker, Function.update_of_ne hw]
  | call j hpc hjob hworker => rw [hworker, Function.update_of_ne hw]
  | returns j hpc hjob hworker => rw [hworker, Function.update_of_ne hw]
  | report c hpc hpointer hworker => rw [hworker, Function.update_of_ne hw]

/-! ### While the job is being started -/

/-- In `nxw_start_worker` there are only steps of the factory thread, steps of workers and
workers that wake up. -/
theorem start_next {c : C} {phase : StartPhase} {event : WorkersEvent W C}
    (hpc : f.pc = .start w c phase) (hstep : f.step event = some f') :
    event = .factory ∧ f.startStep w c phase = some f' ∨
      (∃ w', event = .worker w' ∧ f.workerStep w' = some f') ∨
      ∃ w', event = .wake w' ∧ (f.worker w').pc = .waiting ∧
        f' = f.setWorker w' { f.worker w' with pc := .relock } := by
  cases event with
  | factory =>
    simp only [step, factoryStep, hpc] at hstep
    exact .inl ⟨rfl, hstep⟩
  | worker w' => exact .inr (.inl ⟨w', rfl, hstep⟩)
  | wake w' =>
    simp only [step] at hstep
    split at hstep
    · exact .inr (.inr ⟨w', rfl, ‹_›, (Option.some.inj hstep).symm⟩)
    · contradiction
  | create created => simp [step, createStep, hpc] at hstep
  | request c' | gc | notify w' | complete c' => simp [step, hpc] at hstep

/-- `nxw_start_worker` has to wait for nothing but the mutex. -/
theorem start_isSome {c : C} {phase : StartPhase} (hpc : f.pc = .start w c phase)
    (hmux : phase = .lock → (f.worker w).startMux = none) : (f.step .factory).isSome := by
  simp only [step, factoryStep, hpc]
  cases phase with
  | lock =>
    rw [startStep, lockStart, if_pos (hmux rfl)]
    rfl
  | _ => rfl

/-- The factory thread waits in `nxw_start_worker` for the worker. -/
def BusyStart (w : W) (f : WorkerFactory W C) : Prop :=
  f.Inv ∧ (∃ c, f.pc = .start w c .lock) ∧ (f.worker w).startMux ≠ none

/-- The worker falls asleep, so that the factory thread does not wait forever. -/
theorem BusyStart.step {event : WorkersEvent W C} (h : BusyStart w f)
    (hstep : f.step event = some f') :
    (f'.step .factory).isSome ∨ BusyStart w f' ∧
      ((f'.worker w).pc.toSleep < (f.worker w).pc.toSleep ∨
        event ≠ .worker w ∧ (f'.worker w).pc.toSleep ≤ (f.worker w).pc.toSleep) := by
  obtain ⟨hinv, ⟨c, hpc⟩, hmux⟩ := h
  have hok := hinv.synced.ok w
  rw [hpc, FactoryPc.hold_start_self] at hok
  obtain ⟨hbusy, hdoJob, hshutdown⟩ := hok.busy hmux
  have hinv' := hinv.step hstep
  obtain ⟨-, hfactory⟩ | ⟨w', rfl, hworker⟩ | ⟨w', rfl, hwaiting, rfl⟩ := start_next hpc hstep
  · exact absurd (lockStart_eq hfactory).1 hmux
  · have hpc' : f'.pc = .start w c .lock := (workerStep_effect hworker).1.trans hpc
    by_cases hw : w = w'
    · subst hw
      rcases hbusy with hcheck | hcheck
      · simp only [workerStep, hcheck, hdoJob] at hworker
        obtain rfl := Option.some.inj hworker
        refine .inr ⟨⟨hinv', ⟨c, hpc'⟩, ?_⟩, .inl ?_⟩
        · simpa [setWorker] using hmux
        · simp [setWorker, hcheck, WorkerPc.toSleep]
      · simp only [workerStep, hcheck, hshutdown] at hworker
        obtain rfl := Option.some.inj hworker
        exact .inl (start_isSome hpc' fun _ => by simp [setWorker])
    · have hsame := workerStep_other hworker hw
      refine .inr ⟨⟨hinv', ⟨c, hpc'⟩, by rwa [hsame]⟩, .inr ⟨?_, by rw [hsame]⟩⟩
      simpa using Ne.symm hw
  · have hw : w ≠ w' := fun heq => by
      subst heq
      rw [hwaiting] at hbusy
      simp at hbusy
    have hsame : (f.setWorker w' { f.worker w' with pc := .relock }).worker w = f.worker w :=
      Function.update_of_ne hw ..
    exact .inr ⟨⟨hinv', ⟨c, hpc⟩, by rwa [hsame]⟩, .inr ⟨by simp, by rw [hsame]⟩⟩

theorem BusyStart.worker_isSome (h : BusyStart w f) : (f.workerStep w).isSome := by
  obtain ⟨hinv, ⟨c, hpc⟩, hmux⟩ := h
  have hok := hinv.synced.ok w
  rw [hpc, FactoryPc.hold_start_self] at hok
  obtain ⟨hcheck | hcheck, hdoJob, hshutdown⟩ := hok.busy hmux
  · simp [workerStep, hcheck]
  · simp [workerStep, hcheck, hshutdown]

/-- A worker keeps its job until it calls the function. -/
theorem workerStep_willCall {w' : W} (h : f.workerStep w' = some f')
    (hwill : (f.worker w).WillCall j) (hcall : w = w' → (f.worker w).pc ≠ .call) :
    (f'.worker w).WillCall j := by
  by_cases hw : w = w'
  · subst hw
    obtain ⟨hjob, hcalled⟩ := hwill
    obtain ⟨-, -, -, heffect⟩ := workerStep_effect h
    cases heffect with
    | quiet k hworker hk hpc =>
      rw [hworker, Function.update_self]
      exact ⟨hk.1.trans hjob, hpc.1.trans hcalled⟩
    | call i hpc => exact absurd hpc (hcall rfl)
    | returns i hpc =>
      rw [hpc] at hcalled
      contradiction
    | report c hpc =>
      rw [hpc] at hcalled
      contradiction
  · rwa [workerStep_other h hw]

theorem startStep_left {c : C} {phase : StartPhase} (h : f.startStep w c phase = some f') :
    (f'.pc.hold w).left < phase.left ∧
      ((f.worker w).WillCall j → (f'.worker w).WillCall j) := by
  cases phase with
  | lock =>
    obtain ⟨-, rfl⟩ := lockStart_eq h
    exact ⟨by simp [Hold.left, StartPhase.left], by simp [Worker.WillCall, setWorker]⟩
  | signal =>
    obtain rfl := Option.some.inj h
    refine ⟨by simp [signal, Hold.left, StartPhase.left], ?_⟩
    rintro ⟨hjob, hcalled⟩
    simp only [Worker.WillCall, signal, setWorker, Function.update_self]
    exact ⟨hjob, (signal_called _).1.trans hcalled⟩
  | unlock =>
    obtain rfl := Option.some.inj h
    refine ⟨by simp [unlockStart, FactoryPc.hold, Hold.left, StartPhase.left], ?_⟩
    simp [Worker.WillCall, unlockStart, setWorker]
  | _ =>
    obtain rfl := Option.some.inj h
    exact ⟨by simp [Hold.left, StartPhase.left], by simp [Worker.WillCall, setWorker]⟩

/-- `nxw_start_worker` goes on, and the worker does not get to the job before its end. -/
theorem Starting.step {event : WorkersEvent W C} (h : Starting w j f)
    (hstep : f.step event = some f') :
    Started w j f' ∨ Starting w j f' ∧
      ((f'.pc.hold w).left < (f.pc.hold w).left ∨
        event ≠ .factory ∧ (f'.pc.hold w).left ≤ (f.pc.hold w).left) := by
  obtain ⟨hinv, hwill, c, phase, hpc⟩ := h
  have hinv' := hinv.step hstep
  have hleft : (f.pc.hold w).left = phase.left := by
    rw [hpc, FactoryPc.hold_start_self]
    rfl
  obtain ⟨rfl, hfactory⟩ | ⟨w', rfl, hworker⟩ | ⟨w', rfl, hwaiting, rfl⟩ := start_next hpc hstep
  · obtain ⟨hless, hkeep⟩ := startStep_left (j := j) hfactory
    exact (hinv'.started_or (hkeep hwill)).imp_right fun hstart => ⟨hstart, .inl (hleft ▸ hless)⟩
  · have hcall : w = w' → (f.worker w).pc ≠ .call := fun _ hcall => by
      have hnone := ((hinv.synced.ok w).at_job (.inl hcall)).1
      rw [hpc, FactoryPc.hold_start_self] at hnone
      contradiction
    have hpc' : f'.pc = f.pc := (workerStep_effect hworker).1
    exact .inr ⟨⟨hinv', workerStep_willCall hworker hwill hcall, c, phase, hpc'.trans hpc⟩,
      .inr ⟨by simp, by rw [hpc']⟩⟩
  · refine .inr ⟨⟨hinv', ?_, c, phase, hpc⟩, .inr ⟨by simp, le_rfl⟩⟩
    by_cases hw : w = w'
    · subst hw
      simpa [Worker.WillCall, setWorker, WorkerPc.called] using hwill.1
    · have hsame : (f.setWorker w' { f.worker w' with pc := .relock }).worker w = f.worker w :=
        Function.update_of_ne hw ..
      rwa [hsame]

/-! ### When the job was started -/

/-- The worker can go on, and comes closer to the call. -/
theorem Started.worker_step (h : Started w j f) : ∃ f', f.workerStep w = some f' ∧
    (j ∈ f'.ran.map Prod.fst ∨ (f'.worker w).WillCall j ∧ f'.pc = f.pc ∧
      (f'.worker w).pc.toCall < (f.worker w).pc.toCall) := by
  obtain ⟨hinv, ⟨hjob, hcalled⟩, hhold⟩ := h
  have hok := hinv.synced.ok w
  rw [hhold] at hok
  obtain ⟨hdoJob, htoJob, hmux⟩ := hok.given (by simp [hjob]) hcalled
  rw [hjob] at hdoJob
  -- the job stays with the worker while it goes on
  have hkeep : ∀ {f' : WorkerFactory W C} {k : Worker C},
      f'.worker = Function.update f.worker w k → f'.pc = f.pc → k.job = (f.worker w).job →
      k.pc.called = false → k.pc.toCall < (f.worker w).pc.toCall → j ∈ f'.ran.map Prod.fst ∨ (f'.worker w).WillCall j ∧ f'.pc = f.pc ∧
        (f'.worker w).pc.toCall < (f.worker w).pc.toCall :=
    fun {f' k} hworker hpc hk hcalled hless => by
      have hself : f'.worker w = k := by rw [hworker, Function.update_self]
      exact .inr ⟨by rw [hself]; exact ⟨hk.trans hjob, hcalled⟩, hpc, by rwa [hself]⟩
  cases hpc : (f.worker w).pc with
  | lockStart | relock =>
    have hfree : (f.worker w).startMux = none := by simpa [hpc, WorkerPc.locksStart] using hmux
    have hstep : f.workerStep w = some (f.setWorker w
        { f.worker w with startMux := some .worker, pc := .checkJob }) := by
      simp only [workerStep, hpc]
      exact if_pos hfree
    exact ⟨_, hstep, hpc ▸ hkeep rfl rfl rfl rfl (by rw [hpc]; exact Nat.lt_succ_self 4)⟩
  | checkJob =>
    have hstep : f.workerStep w = some (f.setWorker w
        { f.worker w with pc := .unlockStart }) := by simp [workerStep, hpc, hdoJob]
    exact ⟨_, hstep, hpc ▸ hkeep rfl rfl rfl rfl (by rw [hpc]; exact Nat.lt_succ_self 3)⟩
  | unlockStart =>
    have hstep : f.workerStep w = some (f.setWorker w
        { f.worker w with startMux := none, pc := .testJob }) := by simp only [workerStep, hpc]
    exact ⟨_, hstep, hpc ▸ hkeep rfl rfl rfl rfl (by rw [hpc]; exact Nat.lt_succ_self 2)⟩
  | testJob =>
    have hstep : f.workerStep w = some (f.setWorker w { f.worker w with pc := .call }) := by
      simp [workerStep, hpc, hdoJob]
    exact ⟨_, hstep, hpc ▸ hkeep rfl rfl rfl rfl (by rw [hpc]; exact Nat.lt_succ_self 1)⟩
  | unlockQueue goOn =>
    cases goOn with
    | false =>
      rw [hpc] at htoJob
      contradiction
    | true =>
      have hstep : f.workerStep w = some { f.setWorker w { f.worker w with pc := .lockStart } with
          queueMux := none } := by simp [workerStep, hpc]
      exact ⟨_, hstep, hpc ▸ hkeep rfl rfl rfl rfl (by rw [hpc]; exact Nat.lt_succ_self 5)⟩
  | call => exact ⟨_, by simp only [workerStep, hpc, hdoJob]; rfl, .inl (by simp)⟩
  | running | clearJob | setDone =>
    rw [hpc] at hcalled
    contradiction
  | unborn | checkShutdown | waiting | trigger | lockQueue | testShutdown | pushCheck | pushItem
  | pushTail | setDead | exited =>
    rw [hpc] at htoJob
    contradiction

/-- The factory thread does nothing to a worker that it has not in its hands. -/
theorem frame_factory (hhold : f.pc.hold w = .none) (hstep : f.factoryStep = some f') :
    (∀ c phase, f'.pc ≠ .start w c phase) ∧ (f'.worker w).job = (f.worker w).job ∧
      (f'.worker w).pc = (f.worker w).pc := by
  have hother : ∀ {w'}, f.pc.hold w' ≠ .none → w ≠ w' := fun hne heq => hne (heq ▸ hhold)
  cases hpc : f.pc with
  | idle => simp [factoryStep, hpc] at hstep
  | popCheck purpose =>
    simp only [factoryStep, hpc] at hstep
    split at hstep
    · cases purpose with
      | get c | gc extra =>
        obtain rfl := Option.some.inj hstep
        exact ⟨by simp, rfl, rfl⟩
    · obtain rfl := Option.some.inj hstep
      exact ⟨by simp, rfl, rfl⟩
  | popItem purpose =>
    simp only [factoryStep, hpc] at hstep
    split at hstep
    · obtain rfl := Option.some.inj hstep
      exact ⟨by simp, rfl, rfl⟩
    · contradiction
  | popHead w' purpose =>
    have hw : w ≠ w' := hother (by simp [hpc])
    simp only [factoryStep, hpc] at hstep
    cases purpose with
    | get c =>
      obtain ⟨-, rfl⟩ := assign_eq hstep
      simp [setWorker, hw, hw.symm]
    | gc extra =>
      obtain rfl := Option.some.inj hstep
      exact ⟨by simp, rfl, rfl⟩
  | create c =>
    simp only [factoryStep, hpc] at hstep
    split at hstep
    · obtain rfl := Option.some.inj hstep
      exact ⟨by simp, rfl, rfl⟩
    · contradiction
  | start w' c phase =>
    have hw : w ≠ w' := hother (by simp [hpc])
    simp only [factoryStep, hpc] at hstep
    cases phase with
    | lock =>
      obtain ⟨-, rfl⟩ := lockStart_eq hstep
      simp [setWorker, hw, hw.symm]
    | _ =>
      obtain rfl := Option.some.inj hstep
      simp [signal, unlockStart, setWorker, hw, hw.symm]
  | gcScan list =>
    cases list with
    | nil =>
      simp only [factoryStep, hpc] at hstep
      obtain rfl := Option.some.inj hstep
      exact ⟨by simp, rfl, rfl⟩
    | cons w' rest =>
      simp only [factoryStep, hpc] at hstep
      split at hstep
      · split at hstep
        · obtain rfl := Option.some.inj hstep
          exact ⟨by simp, same_eventfd w'⟩
        · contradiction
      · obtain rfl := Option.some.inj hstep
        exact ⟨by simp, rfl, rfl⟩
  | gcExtra =>
    simp only [factoryStep, hpc] at hstep
    obtain rfl := Option.some.inj hstep
    exact ⟨fun c phase => FactoryPc.ne_start (outside_nextExtra ..) w c phase, rfl, rfl⟩
  | stop w' extra phase =>
    have hw : w ≠ w' := hother (by simp [hpc])
    simp only [factoryStep, hpc] at hstep
    cases phase with
    | lock =>
      obtain ⟨-, rfl⟩ := lockStart_eq hstep
      simp [setWorker, hw]
    | unlock =>
      obtain rfl := Option.some.inj hstep
      refine ⟨fun c phase => FactoryPc.ne_start (outside_nextExtra ..) w c phase, ?_⟩
      simp [nextExtra, unlockStart, setWorker, hw]
    | _ =>
      obtain rfl := Option.some.inj hstep
      simp [signal, setWorker, hw]
  | spin c =>
    simp only [factoryStep, hpc] at hstep
    split at hstep
    · obtain rfl := Option.some.inj hstep
      exact ⟨by simp, rfl, rfl⟩
    · obtain rfl := Option.some.inj hstep
      exact ⟨by simp [hpc], rfl, rfl⟩

/-- The factory thread and other workers leave it alone. -/
theorem Started.frame {event : WorkersEvent W C} (h : Started w j f) (hne : event ≠ .worker w)
    (hstep : f.step event = some f') :
    (∀ c phase, f'.pc ≠ .start w c phase) ∧ (f'.worker w).job = (f.worker w).job ∧
      (f'.worker w).pc = (f.worker w).pc := by
  obtain ⟨hinv, ⟨hjob, hcalled⟩, hhold⟩ := h
  have hok := hinv.synced.ok w
  rw [hhold] at hok
  obtain ⟨hdoJob, htoJob, -⟩ := hok.given (by simp [hjob]) hcalled
  have hborn : (f.worker w).pc ≠ .unborn ∧ (f.worker w).pc ≠ .waiting := by
    constructor <;> intro hpc <;> rw [hpc] at htoJob <;> contradiction
  cases event with
  | request c =>
    simp only [WorkerFactory.step] at hstep
    split at hstep
    · obtain rfl := Option.some.inj hstep
      exact ⟨by simp, rfl, rfl⟩
    · contradiction
  | gc =>
    simp only [WorkerFactory.step] at hstep
    split at hstep
    · obtain rfl := Option.some.inj hstep
      exact ⟨by simp, rfl, rfl⟩
    · contradiction
  | notify w' =>
    simp only [WorkerFactory.step] at hstep
    split at hstep
    · rename_i hpc
      split at hstep
      · obtain rfl := Option.some.inj hstep
        refine ⟨by simp [setWorker, hpc], ?_⟩
        exact same_eventfd w'
      · contradiction
    · contradiction
  | complete c =>
    simp only [WorkerFactory.step, completeOnMessage] at hstep
    split at hstep
    · split at hstep
      · split at hstep
        · contradiction
        · obtain rfl := Option.some.inj hstep
          exact ⟨by simp, rfl, rfl⟩
      · contradiction
    · contradiction
  | factory => exact frame_factory hhold hstep
  | create created =>
    simp only [WorkerFactory.step, createStep] at hstep
    split at hstep
    · split at hstep
      · split at hstep
        · obtain rfl := Option.some.inj hstep
          exact ⟨by simp, rfl, rfl⟩
        · rename_i w'
          split at hstep
          · rename_i hunborn
            have hw : w' ≠ w := fun heq => hborn.1 (heq ▸ hunborn)
            obtain ⟨-, rfl⟩ := assign_eq hstep
            simp [setWorker, hw, hw.symm]
          · contradiction
      · contradiction
    · contradiction
  | worker w' =>
    have hw : w ≠ w' := fun heq => hne (heq ▸ rfl)
    have hpc : f'.pc = f.pc := (workerStep_effect hstep).1
    refine ⟨fun c phase hpc' => ?_, ?_⟩
    · rw [← hpc, hpc', FactoryPc.hold_start_self] at hhold
      contradiction
    · rw [workerStep_other hstep hw]
      exact ⟨rfl, rfl⟩
  | wake w' =>
    simp only [WorkerFactory.step] at hstep
    split at hstep
    · rename_i hwaiting
      obtain rfl := Option.some.inj hstep
      have hw : w ≠ w' := fun heq => hborn.2 (heq ▸ hwaiting)
      refine ⟨fun c phase hpc' => ?_, ?_⟩
      · change f.pc = _ at hpc'
        rw [hpc', FactoryPc.hold_start_self] at hhold
        contradiction
      · simp [setWorker, hw]
    · contradiction

/-- The worker comes closer to the call, or has called. -/
theorem Started.step {event : WorkersEvent W C} (h : Started w j f)
    (hstep : f.step event = some f') :
    j ∈ f'.ran.map Prod.fst ∨ Started w j f' ∧
      ((f'.worker w).pc.toCall < (f.worker w).pc.toCall ∨
        event ≠ .worker w ∧ (f'.worker w).pc.toCall ≤ (f.worker w).pc.toCall) := by
  have hinv' := h.1.step hstep
  by_cases hevent : event = .worker w
  · subst hevent
    obtain ⟨f'', hf'', hran | ⟨hwill, hpc, hless⟩⟩ := h.worker_step
    · obtain rfl := Option.some.inj (hf''.symm.trans hstep)
      exact .inl hran
    · obtain rfl := Option.some.inj (hf''.symm.trans hstep)
      exact .inr ⟨⟨hinv', hwill, by rw [hpc]; exact h.2.2⟩, .inl hless⟩
  · obtain ⟨hstart, hjob, hpc⟩ := h.frame hevent hstep
    have hwill : (f'.worker w).WillCall j := ⟨hjob.trans h.2.1.1, by rw [hpc]; exact h.2.1.2⟩
    refine .inr ⟨(hinv'.started_or hwill).resolve_right ?_, .inr ⟨hevent, by rw [hpc]⟩⟩
    rintro ⟨-, -, c, phase, hpc'⟩
    exact hstart c phase hpc'

/-! ### Fair executions -/

variable (x : Execution (WorkerFactory.step (W := W) (C := C)))

/-- The factory thread gets the mutex. -/
theorem start_enabled (hworker : x.FairTo (.worker w)) {n : ℕ} (h : Starting w j (x.state n)) :
    ∃ m ≥ n, Started w j (x.state m) ∨ ((x.state m).step .factory).isSome := by
  obtain ⟨hinv, -, c, phase, hpc⟩ := h
  by_cases hmux : ((x.state n).worker w).startMux = none
  · exact ⟨n, le_rfl, .inr (start_isSome hpc fun _ => hmux)⟩
  · by_cases hlock : phase = .lock
    · subst hlock
      obtain ⟨m, hm, hsome⟩ := x.eventually hworker (fun _ _ _ => BusyStart.step)
        (fun m hm => ⟨m, le_rfl, .inr hm.worker_isSome⟩) ⟨hinv, ⟨c, hpc⟩, hmux⟩
      exact ⟨m, hm, .inr hsome⟩
    · exact ⟨n, le_rfl, .inr (start_isSome hpc fun heq => absurd heq hlock)⟩

/-- The function of every job is called. -/
theorem called_eventually (hfactory : x.FairTo .factory) (hworker : ∀ w, x.FairTo (.worker w))
    {n : ℕ} (hinv : (x.state n).Inv) (hj : j < (x.state n).jobs.length) :
    ∃ m ≥ n, j ∈ (x.state m).ran.map Prod.fst := by
  have hstarted : ∀ {n w}, Started w j (x.state n) → ∃ m ≥ n, j ∈ (x.state m).ran.map Prod.fst :=
    fun {n w} h => x.eventually (hworker w) (fun _ _ _ => Started.step)
      (fun m hm => ⟨m, le_rfl, .inr (by
        obtain ⟨f', hf', -⟩ := hm.worker_step
        exact Option.isSome_of_eq_some hf')⟩) h
  obtain hran | ⟨w, hwill⟩ := hinv.accounts.pending j hj
  · exact ⟨n, le_rfl, hran⟩
  · obtain h | h := hinv.started_or hwill
    · exact hstarted h
    · obtain ⟨m, hm, h⟩ := x.eventually hfactory (fun _ _ _ => Starting.step)
        (fun m hm => start_enabled x (hworker w) hm) h
      obtain ⟨k, hk, hran⟩ := hstarted h
      exact ⟨k, hm.trans hk, hran⟩

/-- When `worker_complete` of a connection leaves its loop, the jobs of this connection are done. -/
theorem Inv.spin_done (h : f.Inv) {c : C} (hpc : f.pc = .spin c)
    (hstep : f.step .factory = some f') (hpc' : f'.pc = .idle)
    (hj : f.jobs[j]? = some c) :
    j ∈ f.finished := by
  have hdone : f.done c = true := by
    simp only [WorkerFactory.step, factoryStep, hpc] at hstep
    split at hstep
    · assumption
    · obtain rfl := Option.some.inj hstep
      rw [hpc] at hpc'
      contradiction
  obtain ⟨hlt, -⟩ := List.getElem?_eq_some_iff.mp hj
  refine (h.accounts.unfinished j hlt).resolve_right ?_
  rintro ⟨w, hjob, hreturned⟩
  obtain ⟨c', hclient, hc'⟩ := h.accounts.known w j hjob
  obtain rfl : c = c' := Option.some.inj (hj.symm.trans hc')
  have hcleared := h.clients.cleared w c hclient (by rw [hpc]; exact le_rfl)
  rw [hdone] at hcleared
  contradiction

/-- The hand-off of jobs in every reachable state. No job is run twice, each is run with the
connection that it is for, and in fair executions every job is run. A worker in the queue has no
job. When `nxw_get_worker` has returned a worker, the worker rests without a job, and is neither
dead nor shutting down. `worker_complete` of a connection goes on when the jobs of this connection
are done, whatever has woken it up. -/
theorem jobs_handedOff {events : List (WorkersEvent W C)}
    (hrun : run step (init : WorkerFactory W C) events = some f) :
    (f.ran.map Prod.fst).Nodup ∧ (∀ p ∈ f.ran, ∃ c, p.2 = some c ∧ f.jobs[p.1]? = some c) ∧
    (∀ x : Execution (step (W := W) (C := C)), x.state 0 = f → x.FairTo .factory →
      (∀ w, x.FairTo (.worker w)) → ∀ n j, j < (x.state n).jobs.length →
      ∃ m ≥ n, ((x.state m).ran.map Prod.fst).count j = 1) ∧
    (∀ w, some w ∈ Ring.contents f.queue.items f.queue.head f.queue.tail →
      (f.worker w).job = none ∧ (f.worker w).doJob = none ∧ (f.worker w).pc.atRest = true) ∧
    (∀ w c, f.pc = .start w c .lock → (f.worker w).pc.atRest = true ∧
      (f.worker w).doJob = none ∧ (f.worker w).shutdown = false ∧ (f.worker w).dead = false) ∧
    (∀ c f', f.pc = .spin c → f.step .factory = some f' → f'.pc = .idle →
      ∀ j : ℕ, f.jobs[j]? = some c → j ∈ f.finished) := by
  have hinv : f.Inv := inv_run inv_init hrun
  refine ⟨hinv.accounts.ranOnce, hinv.accounts.ranWith, fun x hx hfactory hworker n j hj => ?_,
    fun w => hinv.queued, fun w c hpc => ?_, fun c f' hpc hstep hpc' j => hinv.spin_done hpc hstep hpc'⟩
  · have hstate : ∀ n, (x.state n).Inv := fun n =>
      x.inv (fun _ _ _ h hstep => h.step hstep) (Nat.zero_le n) (hx ▸ hinv)
    obtain ⟨m, hm, hran⟩ := called_eventually x hfactory hworker (hstate n) hj
    exact ⟨m, hm, List.count_eq_one_of_mem (hstate m).accounts.ranOnce hran⟩
  · have hok := hinv.synced.ok w
    rw [hpc, FactoryPc.hold_start_self] at hok
    exact hok.starting_free

/-- Two connections are subscribed to the eventfd of one worker. The second is woken up by the job
of the first, and waits for its own. -/
def sharedEventfd : List (WorkersEvent ℕ ℕ) :=
  [.request 0, .factory, .create (some 0)] ++ List.replicate 7 .factory ++
    List.replicate 15 (.worker 0) ++ [.request 1] ++ List.replicate 10 .factory ++
    [.notify 0, .complete 1, .factory] ++ List.replicate 8 (.worker 0)

theorem jobs_handedOff_sharedEventfd : ∃ f, run step init sharedEventfd = some f ∧
    f.finished = [0, 1] ∧ (f.ran.map Prod.fst).Nodup ∧
    ∀ f', f.step .factory = some f' → f'.pc = .idle → ∀ j, f.jobs[j]? = some 1 → j ∈ f.finished := by
  obtain ⟨f, hf, hpc, hfinished⟩ : ∃ f, run step init sharedEventfd = some f ∧ f.pc = .spin 1 ∧
      f.finished = [0, 1] := ⟨_, rfl, rfl, rfl⟩
  obtain ⟨honce, -, -, -, -, hspin⟩ := jobs_handedOff hf
  exact ⟨f, hf, hfinished, honce, fun f' => hspin 1 f' hpc⟩

end WorkerFactory

end Nxweb
