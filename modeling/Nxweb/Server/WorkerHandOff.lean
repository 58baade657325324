import Nxweb.Server.WorkerJobs

/-!
# Hand-off of jobs to worker threads

The invariant `WorkerFactory.Inv` joins `Synced`, `Accounts` and `Clients`. It holds at the
beginning (`inv_init`), every event keeps it (`Inv.step`), and so it holds in every reachable state
(`inv_run`).

A step of a worker's thread is seen by jobs and connections in few ways (`WorkerEffect`); most steps
of the factory thread leave both alone (`SameJobs`).
-/

namespace Nxweb

open Lib

variable {W C : Type*}

namespace WorkerFactory

theorem outside_nextExtra (f : WorkerFactory W C) (extra : ℕ) :
    (f.nextExtra extra).pc.outside = true := by
  rw [nextExtra]
  by_cases hextra : 0 < extra <;> simp [hextra, FactoryPc.outside]

variable [DecidableEq W]

variable {f f' : WorkerFactory W C} {w : W}

/-- The invariant. -/
structure Inv (f : WorkerFactory W C) : Prop where
  synced : f.Synced
  accounts : Accounts f.jobs f.ran f.finished f.worker
  clients : Clients f.pc f.pub f.done f.worker

theorem inv_init : (init : WorkerFactory W C).Inv where
  synced := synced_init
  accounts := by constructor <;> simp [init]
  clients := by constructor <;> simp [init]

/-- Nothing changes for jobs and connections. -/
structure SameJobs (f f' : WorkerFactory W C) : Prop where
  worker : f'.worker = f.worker
  jobs : f'.jobs = f.jobs
  ran : f'.ran = f.ran
  finished : f'.finished = f.finished
  pub : f'.pub = f.pub
  done : f'.done = f.done

/-- The factory thread goes on, outside of `nxw_start_worker` and `worker_complete`. -/
theorem Inv.goOn (h : f.Inv) (hsynced : f'.Synced) (hpc : f.pc.outside = true)
    (hpc' : f'.pc.outside = true) (hsame : SameJobs f f') : f'.Inv := by
  refine ⟨hsynced, ?_, ?_⟩
  · rw [hsame.worker, hsame.jobs, hsame.ran, hsame.finished]
    exact h.accounts
  · rw [hsame.worker, hsame.pub, hsame.done]
    exact h.clients.goOn hpc hpc'

theorem atRest_not_called {pc : WorkerPc} (h : pc.atRest = true) :
    pc.called = false ∧ pc.returned = false := by
  cases pc <;> simp_all [WorkerPc.atRest, WorkerPc.called, WorkerPc.returned]

/-- A signal does not begin or end a job. -/
theorem signal_called (pc : WorkerPc) :
    let pc' := if pc = .waiting then .relock else pc
    pc'.called = pc.called ∧ pc'.returned = pc.returned := by
  by_cases hpc : pc = .waiting <;> simp [hpc, WorkerPc.called, WorkerPc.returned]

theorem Inv.stop_step (h : f.Inv) {extra : ℕ} {phase : StopPhase} (hpc : f.pc = .stop w extra phase)
    (hstep : f.stopStep w extra phase = some f') : f'.Inv := by
  have hsynced := h.synced.stop_step hpc hstep
  have houtside : f.pc.outside = true := by rw [hpc]; rfl
  cases phase with
  | flag =>
    obtain rfl := Option.some.inj hstep
    exact ⟨hsynced, h.accounts.move rfl rfl rfl rfl,
      h.clients.act houtside rfl rfl rfl rfl⟩
  | lock =>
    obtain ⟨-, rfl⟩ := lockStart_eq hstep
    exact ⟨hsynced, h.accounts.move rfl rfl rfl rfl,
      h.clients.act houtside rfl rfl rfl rfl⟩
  | signal =>
    obtain rfl := Option.some.inj hstep
    obtain ⟨hcalled, hreturned⟩ := signal_called (f.worker w).pc
    exact ⟨hsynced, h.accounts.move rfl rfl hcalled hreturned,
      h.clients.act houtside rfl rfl rfl rfl⟩
  | unlock =>
    obtain rfl := Option.some.inj hstep
    exact ⟨hsynced, h.accounts.move rfl rfl rfl rfl,
      h.clients.act houtside (outside_nextExtra ..) rfl rfl rfl⟩

variable [DecidableEq C]

/-- What a step of a worker does to jobs and connections. -/
inductive WorkerEffect (f : WorkerFactory W C) (w : W) (f' : WorkerFactory W C) : Prop
  | quiet (k : Worker C) (hworker : f'.worker = Function.update f.worker w k)
      (hk : k.job = (f.worker w).job ∧ k.client = (f.worker w).client ∧
        k.jobParam = (f.worker w).jobParam ∧ k.jobDone = (f.worker w).jobDone)
      (hpc : k.pc.called = (f.worker w).pc.called ∧ k.pc.returned = (f.worker w).pc.returned)
      (hran : f'.ran = f.ran) (hfinished : f'.finished = f.finished) (hdone : f'.done = f.done)
  | call (j : ℕ) (hpc : (f.worker w).pc = .call) (hjob : (f.worker w).doJob = some j)
      (hworker : f'.worker = Function.update f.worker w { f.worker w with pc := .running })
      (hran : f'.ran = f.ran ++ [(j, (f.worker w).jobParam)]) (hfinished : f'.finished = f.finished)
      (hdone : f'.done = f.done)
  | returns (j : ℕ) (hpc : (f.worker w).pc = .running) (hjob : (f.worker w).doJob = some j)
      (hworker : f'.worker = Function.update f.worker w { f.worker w with pc := .clearJob })
      (hran : f'.ran = f.ran) (hfinished : f'.finished = f.finished ++ [j])
      (hdone : f'.done = f.done)
  | report (c : C) (hpc : (f.worker w).pc = .setDone) (hpointer : (f.worker w).jobDone = some c)
      (hworker : f'.worker = Function.update f.worker w
        { f.worker w with job := none, client := none, pc := .trigger })
      (hran : f'.ran = f.ran) (hfinished : f'.finished = f.finished)
      (hdone : f'.done = Function.update f.done c true)

/-- A step of a worker leaves the factory thread, the subscriptions and the list of jobs alone. -/
theorem workerStep_effect (h : f.workerStep w = some f') :
    f'.pc = f.pc ∧ f'.pub = f.pub ∧ f'.jobs = f.jobs ∧ WorkerEffect f w f' := by
  have hquiet : ∀ {pc : WorkerPc} {k : Worker C}, (f.worker w).pc = pc →
      (k.job = (f.worker w).job ∧ k.client = (f.worker w).client ∧
        k.jobParam = (f.worker w).jobParam ∧ k.jobDone = (f.worker w).jobDone) →
      k.pc.called = pc.called → k.pc.returned = pc.returned →
      WorkerEffect f w (f.setWorker w k) := fun {pc k} hpc hk hcalled hreturned =>
    .quiet k rfl hk ⟨hpc ▸ hcalled, hpc ▸ hreturned⟩ rfl rfl rfl
  cases hpc : (f.worker w).pc with
  | unborn => simp [workerStep, hpc] at h
  | lockStart =>
    simp only [workerStep, hpc] at h
    split at h
    · obtain rfl := Option.some.inj h
      exact ⟨rfl, rfl, rfl, hquiet hpc ⟨rfl, rfl, rfl, rfl⟩ rfl rfl⟩
    · contradiction
  | checkJob =>
    simp only [workerStep, hpc] at h
    obtain rfl := Option.some.inj h
    refine ⟨rfl, rfl, rfl, hquiet hpc ⟨rfl, rfl, rfl, rfl⟩ ?_ ?_⟩ <;> split <;> rfl
  | checkShutdown =>
    simp only [workerStep, hpc] at h
    split at h
    · obtain rfl := Option.some.inj h
      exact ⟨rfl, rfl, rfl, hquiet hpc ⟨rfl, rfl, rfl, rfl⟩ rfl rfl⟩
    · obtain rfl := Option.some.inj h
      exact ⟨rfl, rfl, rfl, hquiet hpc ⟨rfl, rfl, rfl, rfl⟩ rfl rfl⟩
  | waiting => simp [workerStep, hpc] at h
  | relock =>
    simp only [workerStep, hpc] at h
    split at h
    · obtain rfl := Option.some.inj h
      exact ⟨rfl, rfl, rfl, hquiet hpc ⟨rfl, rfl, rfl, rfl⟩ rfl rfl⟩
    · contradiction
  | unlockStart =>
    simp only [workerStep, hpc] at h
    obtain rfl := Option.some.inj h
    exact ⟨rfl, rfl, rfl, hquiet hpc ⟨rfl, rfl, rfl, rfl⟩ rfl rfl⟩
  | testJob =>
    simp only [workerStep, hpc] at h
    obtain rfl := Option.some.inj h
    refine ⟨rfl, rfl, rfl, hquiet hpc ⟨rfl, rfl, rfl, rfl⟩ ?_ ?_⟩ <;> split <;> rfl
  | call =>
    simp only [workerStep, hpc] at h
    split at h
    · contradiction
    · rename_i j hjob
      obtain rfl := Option.some.inj h
      exact ⟨rfl, rfl, rfl, .call j hpc hjob rfl rfl rfl rfl⟩
  | running =>
    simp only [workerStep, hpc] at h
    split at h
    · contradiction
    · rename_i j hjob
      obtain rfl := Option.some.inj h
      exact ⟨rfl, rfl, rfl, .returns j hpc hjob rfl rfl rfl rfl⟩
  | clearJob =>
    simp only [workerStep, hpc] at h
    obtain rfl := Option.some.inj h
    exact ⟨rfl, rfl, rfl, hquiet hpc ⟨rfl, rfl, rfl, rfl⟩ rfl rfl⟩
  | setDone =>
    simp only [workerStep, hpc] at h
    split at h
    · contradiction
    · rename_i c hpointer
      obtain rfl := Option.some.inj h
      exact ⟨rfl, rfl, rfl, .report c hpc hpointer rfl rfl rfl rfl⟩
  | trigger =>
    simp only [workerStep, hpc] at h
    obtain rfl := Option.some.inj h
    exact ⟨rfl, rfl, rfl, hquiet hpc ⟨rfl, rfl, rfl, rfl⟩ rfl rfl⟩
  | lockQueue =>
    simp only [workerStep, hpc] at h
    split at h
    · obtain rfl := Option.some.inj h
      exact ⟨rfl, rfl, rfl, .quiet _ rfl ⟨rfl, rfl, rfl, rfl⟩ (by rw [hpc]; exact ⟨rfl, rfl⟩)
        rfl rfl rfl⟩
    · contradiction
  | testShutdown =>
    simp only [workerStep, hpc] at h
    obtain rfl := Option.some.inj h
    refine ⟨rfl, rfl, rfl, hquiet hpc ⟨rfl, rfl, rfl, rfl⟩ ?_ ?_⟩ <;> split <;> rfl
  | pushCheck =>
    simp only [workerStep, hpc] at h
    obtain rfl := Option.some.inj h
    refine ⟨rfl, rfl, rfl, hquiet hpc ⟨rfl, rfl, rfl, rfl⟩ ?_ ?_⟩ <;> split <;> rfl
  | pushItem =>
    simp only [workerStep, hpc] at h
    obtain rfl := Option.some.inj h
    exact ⟨rfl, rfl, rfl, .quiet _ rfl ⟨rfl, rfl, rfl, rfl⟩ (by rw [hpc]; exact ⟨rfl, rfl⟩)
      rfl rfl rfl⟩
  | pushTail =>
    simp only [workerStep, hpc] at h
    obtain rfl := Option.some.inj h
    exact ⟨rfl, rfl, rfl, .quiet _ rfl ⟨rfl, rfl, rfl, rfl⟩ (by rw [hpc]; exact ⟨rfl, rfl⟩)
      rfl rfl rfl⟩
  | unlockQueue goOn =>
    simp only [workerStep, hpc] at h
    obtain rfl := Option.some.inj h
    refine ⟨rfl, rfl, rfl, .quiet _ rfl ⟨rfl, rfl, rfl, rfl⟩ ?_ rfl rfl rfl⟩
    rw [hpc]
    cases goOn <;> exact ⟨rfl, rfl⟩
  | setDead =>
    simp only [workerStep, hpc] at h
    obtain rfl := Option.some.inj h
    exact ⟨rfl, rfl, rfl, hquiet hpc ⟨rfl, rfl, rfl, rfl⟩ rfl rfl⟩
  | exited => simp [workerStep, hpc] at h

theorem Inv.worker_step (h : f.Inv) (hstep : f.workerStep w = some f') : f'.Inv := by
  refine ⟨h.synced.worker_step hstep, ?_, ?_⟩
  · obtain ⟨-, -, hjobs, heffect⟩ := workerStep_effect hstep
    have hok := h.synced.ok w
    cases heffect with
    | quiet k hworker hk hpc hran hfinished hdone =>
      rw [hjobs, hran, hfinished, hworker]
      exact h.accounts.move hk.1 hk.2.1 hpc.1 hpc.2
    | call j hpc hdoJob hworker hran hfinished hdone =>
      obtain ⟨hhold, heq, -⟩ := hok.at_job (.inl hpc)
      have hj : (f.worker w).job = some j := heq.symm.trans hdoJob
      obtain ⟨c, hclient, -⟩ := h.accounts.known w j hj
      have hparam : (f.worker w).jobParam = some c :=
        h.clients.param w c hclient (by rw [hhold]; exact Nat.le_add_left 1 2)
      rw [hjobs, hran, hfinished, hworker, hparam]
      exact h.accounts.call hj (by rw [hpc]; rfl) hclient hj hclient (by rw [hpc]; rfl) rfl
    | returns j hpc hdoJob hworker hran hfinished hdone =>
      obtain ⟨-, heq, -⟩ := hok.at_job (.inr hpc)
      have hj : (f.worker w).job = some j := heq.symm.trans hdoJob
      rw [hjobs, hran, hfinished, hworker]
      exact h.accounts.returns hj hj rfl (by rw [hpc]; rfl)
    | report c hpc hpointer hworker hran hfinished hdone =>
      rw [hjobs, hran, hfinished, hworker]
      exact h.accounts.report (by rw [hpc]; rfl) (by rw [hpc]; rfl) rfl rfl
  · obtain ⟨hpc', hpub, -, heffect⟩ := workerStep_effect hstep
    rw [hpc', hpub]
    have hok := h.synced.ok w
    cases heffect with
    | quiet k hworker hk hpc hran hfinished hdone =>
      rw [hdone, hworker]
      exact h.clients.move hk.2.1 hk.2.2.1 hk.2.2.2
    | call j hpc hdoJob hworker hran hfinished hdone =>
      rw [hdone, hworker]
      exact h.clients.move rfl rfl rfl
    | returns j hpc hdoJob hworker hran hfinished hdone =>
      rw [hdone, hworker]
      exact h.clients.move rfl rfl rfl
    | report c hpc hpointer hworker hran hfinished hdone =>
      obtain ⟨hhold, hjob⟩ := hok.at_setDone hpc
      obtain ⟨j, hj⟩ := Option.ne_none_iff_exists'.mp hjob
      obtain ⟨c', hclient, -⟩ := h.accounts.known w j hj
      rw [hdone, hworker]
      exact h.clients.report hhold hclient rfl hpointer

theorem Inv.start_step (h : f.Inv) {c : C} {phase : StartPhase} (hpc : f.pc = .start w c phase)
    (hstep : f.startStep w c phase = some f') : f'.Inv := by
  refine ⟨h.synced.start_step hpc hstep, ?_, ?_⟩
  · cases phase with
    | lock =>
      obtain ⟨-, rfl⟩ := lockStart_eq hstep
      exact h.accounts.move rfl rfl rfl rfl
    | setDoJob | setJobParam | setJobDone | unlock =>
      obtain rfl := Option.some.inj hstep
      exact h.accounts.move rfl rfl rfl rfl
    | clearDone =>
      obtain rfl := Option.some.inj hstep
      exact h.accounts
    | signal =>
      obtain rfl := Option.some.inj hstep
      obtain ⟨hcalled, hreturned⟩ := signal_called (f.worker w).pc
      exact h.accounts.move rfl rfl hcalled hreturned
  · have hclients := h.clients
    rw [hpc] at hclients
    have hc : (f.worker w).client = some c := hclients.start w c phase rfl
    have hwritten : ((FactoryPc.start w c phase : FactoryPc W C).hold w).written =
        phase.written := by rw [FactoryPc.hold_start_self]; rfl
    have hparam := hclients.param w c hc
    have hpointer := hclients.pointer w c hc
    have hcleared := hclients.cleared w c hc
    rw [hwritten] at hparam hpointer hcleared
    cases phase with
    | lock =>
      obtain ⟨-, rfl⟩ := lockStart_eq hstep
      refine hclients.startStep .setDoJob ?_ ?_ ?_ ?_ fun _ _ => rfl
      · rfl
      all_goals simp [StartPhase.written]
    | setDoJob =>
      obtain rfl := Option.some.inj hstep
      refine hclients.startStep .setJobParam ?_ ?_ ?_ ?_ fun _ _ => rfl
      · rfl
      all_goals simp [StartPhase.written]
    | setJobParam =>
      obtain rfl := Option.some.inj hstep
      refine hclients.startStep .setJobDone ?_ (fun _ => ?_) ?_ ?_ fun _ _ => rfl
      · rfl
      · rfl
      all_goals simp [StartPhase.written]
    | setJobDone =>
      obtain rfl := Option.some.inj hstep
      refine hclients.startStep .clearDone ?_ (fun _ => ?_) (fun _ => ?_) ?_ fun _ _ => rfl
      · rfl
      · exact hparam le_rfl
      · rfl
      · simp [StartPhase.written]
    | clearDone =>
      obtain rfl := Option.some.inj hstep
      have hstart : Clients (.start w c .signal) f.pub (Function.update f.done c false)
          (Function.update f.worker w (f.worker w)) :=
        hclients.startStep .signal rfl (fun _ => hparam (by decide)) (fun _ => hpointer le_rfl)
          (fun _ => Function.update_self ..) fun c' hne => Function.update_of_ne hne ..
      rwa [Function.update_eq_self] at hstart
    | signal =>
      obtain rfl := Option.some.inj hstep
      refine hclients.startStep .unlock ?_ (fun _ => ?_) (fun _ => ?_) (fun _ => ?_) fun _ _ => rfl
      · rfl
      · exact hparam (by decide)
      · exact hpointer (by decide)
      · exact hcleared le_rfl
    | unlock =>
      obtain rfl := Option.some.inj hstep
      refine hclients.keep (Clients.same_update rfl rfl rfl) (fun w' => ?_)
        (fun _ _ _ hstart => by contradiction) (fun _ hspin => by contradiction)
      by_cases hw : w' = w
      · subst hw
        rw [hwritten]
        exact le_rfl
      · rw [FactoryPc.hold_start_of_ne hw]
        exact le_rfl

theorem Inv.factory_step (h : f.Inv) (hstep : f.factoryStep = some f') : f'.Inv := by
  have hsynced := h.synced.factory_step hstep
  cases hpc : f.pc with
  | idle => simp [factoryStep, hpc] at hstep
  | popCheck purpose =>
    simp only [factoryStep, hpc] at hstep
    split at hstep
    · cases purpose with
      | get c =>
        obtain rfl := Option.some.inj hstep
        exact h.goOn hsynced (by rw [hpc]; rfl) rfl ⟨rfl, rfl, rfl, rfl, rfl, rfl⟩
      | gc extra =>
        obtain rfl := Option.some.inj hstep
        exact h.goOn hsynced (by rw [hpc]; rfl) rfl ⟨rfl, rfl, rfl, rfl, rfl, rfl⟩
    · obtain rfl := Option.some.inj hstep
      exact h.goOn hsynced (by rw [hpc]; rfl) rfl ⟨rfl, rfl, rfl, rfl, rfl, rfl⟩
  | popItem purpose =>
    simp only [factoryStep, hpc] at hstep
    split at hstep
    · obtain rfl := Option.some.inj hstep
      exact h.goOn hsynced (by rw [hpc]; rfl) rfl ⟨rfl, rfl, rfl, rfl, rfl, rfl⟩
    · contradiction
  | popHead w purpose =>
    have hok := h.synced.ok w
    have hmem : w ∈ f.idle := List.mem_of_head? (h.synced.popHead w purpose hpc)
    rw [decide_eq_true hmem] at hok
    obtain ⟨hrest, hnone, -⟩ := hok.queued_free
    obtain ⟨hcalled, hreturned⟩ := atRest_not_called hrest
    simp only [factoryStep, hpc] at hstep
    cases purpose with
    | get c =>
      obtain ⟨hpub, rfl⟩ := assign_eq hstep
      exact ⟨hsynced, h.accounts.assign hnone rfl rfl hcalled hreturned,
        h.clients.assign (by rw [hpc]; rfl) hpub (h.accounts.noClient w hnone) rfl⟩
    | gc extra =>
      obtain rfl := Option.some.inj hstep
      exact h.goOn hsynced (by rw [hpc]; rfl) rfl ⟨rfl, rfl, rfl, rfl, rfl, rfl⟩
  | create c =>
    simp only [factoryStep, hpc] at hstep
    split at hstep
    · obtain rfl := Option.some.inj hstep
      exact h.goOn hsynced (by rw [hpc]; rfl) rfl ⟨rfl, rfl, rfl, rfl, rfl, rfl⟩
    · contradiction
  | start w c phase =>
    simp only [factoryStep, hpc] at hstep
    exact h.start_step hpc hstep
  | gcScan list =>
    cases list with
    | nil =>
      simp only [factoryStep, hpc] at hstep
      obtain rfl := Option.some.inj hstep
      exact h.goOn hsynced (by rw [hpc]; rfl) rfl ⟨rfl, rfl, rfl, rfl, rfl, rfl⟩
    | cons w rest =>
      simp only [factoryStep, hpc] at hstep
      split at hstep
      · split at hstep
        · rename_i hexited
          obtain rfl := Option.some.inj hstep
          have hnone := (h.synced.ok w).exited_job hexited
          have hdestroy := h.clients.destroy (h.accounts.noClient w hnone)
          exact ⟨hsynced, h.accounts.move rfl rfl rfl rfl,
            hdestroy.act (by rw [hpc]; rfl) rfl rfl rfl rfl⟩
        · contradiction
      · obtain rfl := Option.some.inj hstep
        exact h.goOn hsynced (by rw [hpc]; rfl) rfl ⟨rfl, rfl, rfl, rfl, rfl, rfl⟩
  | gcExtra =>
    simp only [factoryStep, hpc] at hstep
    obtain rfl := Option.some.inj hstep
    exact h.goOn hsynced (by rw [hpc]; rfl) (outside_nextExtra ..) ⟨rfl, rfl, rfl, rfl, rfl, rfl⟩
  | stop w extra phase =>
    simp only [factoryStep, hpc] at hstep
    exact h.stop_step hpc hstep
  | spin c =>
    simp only [factoryStep, hpc] at hstep
    split at hstep
    · rename_i hdone
      obtain rfl := Option.some.inj hstep
      have hclients := h.clients
      rw [hpc] at hclients
      exact ⟨hsynced, h.accounts, hclients.sent hdone⟩
    · obtain rfl := Option.some.inj hstep
      exact h

theorem Inv.create_step (h : f.Inv) {created : Option W} (hstep : f.createStep created = some f') :
    f'.Inv := by
  have hsynced := h.synced.create_step hstep
  rw [createStep] at hstep
  split at hstep
  · rename_i c hpc
    split at hstep
    · split at hstep
      · obtain rfl := Option.some.inj hstep
        exact h.goOn hsynced (by rw [hpc]; rfl) rfl ⟨rfl, rfl, rfl, rfl, rfl, rfl⟩
      · rename_i w
        split at hstep
        · rename_i hunborn
          obtain ⟨hpub, rfl⟩ := assign_eq hstep
          have hnone := (h.synced.ok w).unborn_job hunborn
          have haccounts := h.accounts.assign (w := w)
            (k := { pc := .lockStart, job := some f.jobs.length, client := some c })
            hnone rfl rfl rfl rfl
          have hclients := h.clients.assign (w := w)
            (k := { pc := .lockStart, job := some f.jobs.length, client := some c })
            (by rw [hpc]; rfl) hpub (h.accounts.noClient w hnone) rfl
          refine ⟨hsynced, ?_, ?_⟩
          · simpa only [setWorker, Function.update_self, Function.update_idem] using haccounts
          · simpa only [setWorker, Function.update_self, Function.update_idem] using hclients
        · contradiction
    · contradiction
  · contradiction

/-- Every event keeps the invariant. -/
theorem Inv.step (h : f.Inv) {event : WorkersEvent W C} (hstep : f.step event = some f') :
    f'.Inv := by
  have hsynced := h.synced.step hstep
  cases event with
  | request c =>
    simp only [WorkerFactory.step] at hstep
    split at hstep
    · rename_i hpc
      obtain rfl := Option.some.inj hstep
      exact h.goOn hsynced (by rw [hpc]; rfl) rfl ⟨rfl, rfl, rfl, rfl, rfl, rfl⟩
    · contradiction
  | gc =>
    simp only [WorkerFactory.step] at hstep
    split at hstep
    · rename_i hpc
      obtain rfl := Option.some.inj hstep
      exact h.goOn hsynced (by rw [hpc]; rfl) rfl ⟨rfl, rfl, rfl, rfl, rfl, rfl⟩
    · contradiction
  | notify w =>
    simp only [WorkerFactory.step] at hstep
    split at hstep
    · split at hstep
      · obtain rfl := Option.some.inj hstep
        exact ⟨hsynced, h.accounts.move rfl rfl rfl rfl, h.clients.move rfl rfl rfl⟩
      · contradiction
    · contradiction
  | complete c =>
    simp only [WorkerFactory.step, completeOnMessage] at hstep
    split at hstep
    · rename_i hpc
      split at hstep
      · split at hstep
        · contradiction
        · obtain rfl := Option.some.inj hstep
          have hclients := h.clients
          rw [hpc] at hclients
          exact ⟨hsynced, h.accounts, hclients.complete c⟩
      · contradiction
    · contradiction
  | factory => exact h.factory_step hstep
  | create created => exact h.create_step hstep
  | worker w => exact h.worker_step hstep
  | wake w =>
    simp only [WorkerFactory.step] at hstep
    split at hstep
    · rename_i hpc
      obtain rfl := Option.some.inj hstep
      exact ⟨hsynced, h.accounts.move rfl rfl (by rw [hpc]; rfl) (by rw [hpc]; rfl),
        h.clients.move rfl rfl rfl⟩
    · contradiction

/-- The invariant holds in every state that is reached from one with it. -/
theorem inv_run {events : List (WorkersEvent W C)} (h : f.Inv)
    (hrun : run WorkerFactory.step f events = some f') : f'.Inv :=
  run_inv (fun _ _ _ h hstep => Inv.step h hstep) h hrun

end WorkerFactory

end Nxweb
