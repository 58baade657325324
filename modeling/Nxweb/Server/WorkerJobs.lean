import Nxweb.Server.WorkerSync

/-!
# Jobs of worker threads and their connections

* `Accounts`: every job that was started has been run, or a worker was given it and has not called
  it yet. No job is run twice.
* `Clients`: the parameters of a job are written before the worker uses them, and `worker_job_done`
  of a connection is clear while a worker has a job for it.

Both are kept by what threads do to them: a worker is given a job (`assign`), calls its function
(`call`), returns from it (`returns`) and reports it (`report`).
-/

namespace Nxweb

open Lib

/-- The function of the job has been called, and the job is not reported yet. -/
def WorkerPc.called : WorkerPc → Bool
  | .running | .clearJob | .setDone => true
  | _ => false

/-- The function of the job has returned, and the job is not reported yet. -/
def WorkerPc.returned : WorkerPc → Bool
  | .clearJob | .setDone => true
  | _ => false

/-- How many of `job_param`, `job_done` and `*job_done` have been written. -/
def StartPhase.written : StartPhase → ℕ
  | .lock | .setDoJob | .setJobParam => 0
  | .setJobDone => 1
  | .clearDone => 2
  | .signal | .unlock => 3

/-- How many of them have been written for the job that a worker has. -/
def Hold.written : Hold → ℕ
  | .starting phase => phase.written
  | _ => 3

variable {W C : Type*}

/-- The worker has the job, and has not called its function yet. -/
def Worker.WillCall (k : Worker C) (j : ℕ) : Prop := k.job = some j ∧ k.pc.called = false

/-- The worker has the job, and its function has not returned yet. -/
def Worker.WillReturn (k : Worker C) (j : ℕ) : Prop := k.job = some j ∧ k.pc.returned = false

/-- Jobs that were started, run and finished, and those that workers have. -/
structure Accounts (jobs : List C) (ran : List (ℕ × Option C)) (finished : List ℕ)
    (worker : W → Worker C) : Prop where
  known : ∀ w j, (worker w).job = some j → ∃ c, (worker w).client = some c ∧ jobs[j]? = some c
  noClient : ∀ w, (worker w).job = none → (worker w).client = none
  unique : ∀ w w' j, (worker w).job = some j → (worker w').job = some j → w = w'
  ranOnce : (ran.map Prod.fst).Nodup
  ranWith : ∀ p ∈ ran, ∃ c, p.2 = some c ∧ jobs[p.1]? = some c
  notRan : ∀ w j, (worker w).job = some j → (worker w).pc.called = false → j ∉ ran.map Prod.fst
  pending : ∀ j < jobs.length, j ∈ ran.map Prod.fst ∨ ∃ w, (worker w).WillCall j
  unfinished : ∀ j < jobs.length, j ∈ finished ∨ ∃ w, (worker w).WillReturn j

namespace Accounts

variable {jobs : List C} {ran : List (ℕ × Option C)} {finished : List ℕ}
  {worker worker' : W → Worker C} {w : W} {k : Worker C} {j : ℕ} {c : C}

/-- Threads go on without beginning or ending a job. -/
theorem keep (h : Accounts jobs ran finished worker)
    (hjob : ∀ w, (worker' w).job = (worker w).job)
    (hclient : ∀ w, (worker' w).client = (worker w).client)
    (hcalled : ∀ w, (worker' w).pc.called = (worker w).pc.called)
    (hreturned : ∀ w, (worker' w).pc.returned = (worker w).pc.returned) :
    Accounts jobs ran finished worker' := by
  obtain ⟨hknown, hnoClient, hunique, hranOnce, hranWith, hnotRan, hpending, hunfinished⟩ := h
  constructor <;>
    simpa only [Worker.WillCall, Worker.WillReturn, hjob, hclient, hcalled, hreturned]

theorem lt (h : Accounts jobs ran finished worker) (hj : (worker w).job = some j) :
    j < jobs.length := by
  obtain ⟨c, -, hc⟩ := h.known w j hj
  exact (List.getElem?_eq_some_iff.mp hc).1

theorem not_ran_length (h : Accounts jobs ran finished worker) :
    jobs.length ∉ ran.map Prod.fst := fun hmem => by
  obtain ⟨p, hp, hlength⟩ := List.mem_map.mp hmem
  obtain ⟨c', -, hc'⟩ := h.ranWith p hp
  rw [hlength] at hc'
  simp at hc'

variable [DecidableEq W]

/-- A worker with a property is still there if the one that changes keeps the property. -/
theorem exists_update {P : Worker C → Prop} (h : ∃ w', P (worker w')) (hw : P (worker w) → P k) :
    ∃ w', P (Function.update worker w k w') := by
  obtain ⟨w', hw'⟩ := h
  by_cases heq : w' = w
  · subst heq
    exact ⟨w', by rw [Function.update_self]; exact hw hw'⟩
  · exact ⟨w', by rwa [Function.update_of_ne heq]⟩

/-- A worker goes on without beginning or ending a job. -/
theorem move (h : Accounts jobs ran finished worker) (hjob : k.job = (worker w).job)
    (hclient : k.client = (worker w).client) (hcalled : k.pc.called = (worker w).pc.called)
    (hreturned : k.pc.returned = (worker w).pc.returned) :
    Accounts jobs ran finished (Function.update worker w k) := by
  refine h.keep ?_ ?_ ?_ ?_
  · exact (Function.forall_update_iff worker fun w k => k.job = (worker w).job).mpr
      ⟨hjob, fun _ _ => rfl⟩
  · exact (Function.forall_update_iff worker fun w k => k.client = (worker w).client).mpr
      ⟨hclient, fun _ _ => rfl⟩
  · exact (Function.forall_update_iff worker
      fun w k => k.pc.called = (worker w).pc.called).mpr ⟨hcalled, fun _ _ => rfl⟩
  · exact (Function.forall_update_iff worker
      fun w k => k.pc.returned = (worker w).pc.returned).mpr ⟨hreturned, fun _ _ => rfl⟩

/-- A worker without a job is given the next one. -/
theorem assign (h : Accounts jobs ran finished worker) (hnone : (worker w).job = none)
    (hjob : k.job = some jobs.length) (hclient : k.client = some c)
    (hcalled : k.pc.called = false) (hreturned : k.pc.returned = false) :
    Accounts (jobs ++ [c]) ran finished (Function.update worker w k) := by
  have hself : Function.update worker w k w = k := Function.update_self w k worker
  have hother : ∀ w', w' ≠ w → Function.update worker w k w' = worker w' := fun w' hw =>
    Function.update_of_ne hw k worker
  have hold : ∀ {j c'}, jobs[j]? = some c' → (jobs ++ [c])[j]? = some c' := fun {j c'} hj => by
    rw [List.getElem?_append_left (List.getElem?_eq_some_iff.mp hj).1, hj]
  -- the new number is that of no other worker
  have hfresh : ∀ w' j, w' ≠ w → (worker w').job = some j → k.job ≠ some j := fun w' j _ hj heq =>
    absurd (h.lt hj) (by rw [Option.some.inj (hjob.symm.trans heq)]; exact lt_irrefl _)
  refine ⟨?_, ?_, fun w₁ w₂ j h₁ h₂ => ?_, h.ranOnce, fun p hp => ?_, ?_, fun j hj => ?_,
    fun j hj => ?_⟩
  · refine (Function.forall_update_iff worker fun _ k => ∀ j, k.job = some j →
      ∃ c', k.client = some c' ∧ (jobs ++ [c])[j]? = some c').mpr
      ⟨fun j hj => ?_, fun w' _ j hj => ?_⟩
    · obtain rfl := Option.some.inj (hjob.symm.trans hj)
      exact ⟨c, hclient, List.getElem?_concat_length⟩
    · obtain ⟨c', hclient', hc'⟩ := h.known w' j hj
      exact ⟨c', hclient', hold hc'⟩
  · refine (Function.forall_update_iff worker fun _ k => k.job = none → k.client = none).mpr
      ⟨fun hnone' => ?_, fun w' _ => h.noClient w'⟩
    rw [hjob] at hnone'
    contradiction
  · by_cases hw₁ : w₁ = w
    · by_cases hw₂ : w₂ = w
      · rw [hw₁, hw₂]
      · rw [hw₁, hself] at h₁
        rw [hother w₂ hw₂] at h₂
        exact absurd h₁ (hfresh w₂ j hw₂ h₂)
    · rw [hother w₁ hw₁] at h₁
      by_cases hw₂ : w₂ = w
      · rw [hw₂, hself] at h₂
        exact absurd h₂ (hfresh w₁ j hw₁ h₁)
      · rw [hother w₂ hw₂] at h₂
        exact h.unique w₁ w₂ j h₁ h₂
  · obtain ⟨c', hp', hc'⟩ := h.ranWith p hp
    exact ⟨c', hp', hold hc'⟩
  · refine (Function.forall_update_iff worker fun _ k => ∀ j, k.job = some j →
      k.pc.called = false → j ∉ ran.map Prod.fst).mpr
      ⟨fun j hj _ => ?_, fun w' _ => h.notRan w'⟩
    obtain rfl := Option.some.inj (hjob.symm.trans hj)
    exact h.not_ran_length
  · rcases Nat.lt_succ_iff_lt_or_eq.mp (by simpa using hj) with hlt | rfl
    · refine (h.pending j hlt).imp_right fun hw =>
        exists_update (P := (·.WillCall j)) hw fun hw => ?_
      exact absurd (hnone.symm.trans hw.1) (Option.some_ne_none j).symm
    · exact .inr ⟨w, by rw [hself]; exact ⟨hjob, hcalled⟩⟩
  · rcases Nat.lt_succ_iff_lt_or_eq.mp (by simpa using hj) with hlt | rfl
    · refine (h.unfinished j hlt).imp_right fun hw =>
        exists_update (P := (·.WillReturn j)) hw fun hw => ?_
      exact absurd (hnone.symm.trans hw.1) (Option.some_ne_none j).symm
    · exact .inr ⟨w, by rw [hself]; exact ⟨hjob, hreturned⟩⟩

/-- A worker calls the function of its job. -/
theorem call (h : Accounts jobs ran finished worker) (hj : (worker w).job = some j)
    (hpc : (worker w).pc.called = false) (hclient : (worker w).client = some c)
    (hjob : k.job = some j) (hclient' : k.client = some c)
    (hreturned : k.pc.returned = (worker w).pc.returned) (hcalled : k.pc.called = true) :
    Accounts jobs (ran ++ [(j, some c)]) finished (Function.update worker w k) := by
  have hself : Function.update worker w k w = k := Function.update_self w k worker
  have hran : ∀ {i}, i ∈ (ran ++ [(j, some c)]).map Prod.fst ↔ i ∈ ran.map Prod.fst ∨ i = j :=
    fun {i} => by simp
  refine ⟨?_, ?_, fun w₁ w₂ i h₁ h₂ => ?_, ?_, fun p hp => ?_, ?_, fun i hi => ?_, fun i hi => ?_⟩
  · refine (Function.forall_update_iff worker fun _ k => ∀ j, k.job = some j →
      ∃ c', k.client = some c' ∧ jobs[j]? = some c').mpr
      ⟨fun i hi => ?_, fun w' _ => h.known w'⟩
    rw [hclient', ← hclient]
    exact h.known w i (hj.trans (hjob.symm.trans hi))
  · refine (Function.forall_update_iff worker fun _ k => k.job = none → k.client = none).mpr
      ⟨fun hnone => ?_, fun w' _ => h.noClient w'⟩
    rw [hjob] at hnone
    contradiction
  · have hsame : ∀ w', (Function.update worker w k w').job = (worker w').job :=
      (Function.forall_update_iff worker fun w k => k.job = (worker w).job).mpr
        ⟨hjob.trans hj.symm, fun _ _ => rfl⟩
    rw [hsame] at h₁ h₂
    exact h.unique w₁ w₂ i h₁ h₂
  · rw [List.map_append, List.map_singleton, List.nodup_append_comm]
    exact List.nodup_cons.mpr ⟨h.notRan w j hj hpc, h.ranOnce⟩
  · rcases List.mem_append.mp hp with hp | hp
    · exact h.ranWith p hp
    · obtain rfl := List.mem_singleton.mp hp
      obtain ⟨c', hc', hjobs⟩ := h.known w j hj
      obtain rfl := Option.some.inj (hclient.symm.trans hc')
      exact ⟨c, rfl, hjobs⟩
  · refine (Function.forall_update_iff worker fun _ k => ∀ i, k.job = some i →
      k.pc.called = false → i ∉ (ran ++ [(j, some c)]).map Prod.fst).mpr
      ⟨fun i _ hpc' => ?_, fun w' hw i hi hpc' hmem => ?_⟩
    · rw [hcalled] at hpc'
      contradiction
    · rcases hran.mp hmem with hmem | rfl
      · exact h.notRan w' i hi hpc' hmem
      · exact hw (h.unique w' w i hi hj)
  · rw [hran]
    by_cases heq : i = j
    · exact .inl (.inr heq)
    · refine (h.pending i hi).imp .inl fun hw =>
        exists_update (P := (·.WillCall i)) hw fun hw => ?_
      exact absurd (Option.some.inj (hw.1.symm.trans hj)) heq
  · refine (h.unfinished i hi).imp_right fun hw =>
      exists_update (P := (·.WillReturn i)) hw fun hw => ?_
    exact ⟨hjob.trans (hj.symm.trans hw.1), hreturned.trans hw.2⟩

/-- The function of a job returns. -/
theorem returns (h : Accounts jobs ran finished worker) (hj : (worker w).job = some j)
    (hjob : k.job = some j) (hclient : k.client = (worker w).client)
    (hcalled : k.pc.called = (worker w).pc.called) :
    Accounts jobs ran (finished ++ [j]) (Function.update worker w k) := by
  have hjobs : ∀ w', (Function.update worker w k w').job = (worker w').job :=
    (Function.forall_update_iff worker fun w k => k.job = (worker w).job).mpr
      ⟨hjob.trans hj.symm, fun _ _ => rfl⟩
  have hclients : ∀ w', (Function.update worker w k w').client = (worker w').client :=
    (Function.forall_update_iff worker fun w k => k.client = (worker w).client).mpr
      ⟨hclient, fun _ _ => rfl⟩
  have hcalls : ∀ w', (Function.update worker w k w').pc.called = (worker w').pc.called :=
    (Function.forall_update_iff worker fun w k => k.pc.called = (worker w).pc.called).mpr
      ⟨hcalled, fun _ _ => rfl⟩
  obtain ⟨hknown, hnoClient, hunique, hranOnce, hranWith, hnotRan, hpending, hunfinished⟩ := h
  refine ⟨by simpa only [hjobs, hclients], by simpa only [hjobs, hclients],
    by simpa only [hjobs], hranOnce, hranWith, by simpa only [hjobs, hcalls],
    by simpa only [Worker.WillCall, hjobs, hcalls], fun i hi => ?_⟩
  by_cases heq : i = j
  · exact .inl (List.mem_append_right _ (List.mem_singleton.mpr heq))
  · refine (hunfinished i hi).imp (List.mem_append_left _) fun hw =>
      exists_update (P := (·.WillReturn i)) hw fun hw => ?_
    exact absurd (Option.some.inj (hw.1.symm.trans hj)) heq

/-- A worker reports its job. -/
theorem report (h : Accounts jobs ran finished worker) (hcalled : (worker w).pc.called = true)
    (hreturned : (worker w).pc.returned = true) (hjob : k.job = none) (hclient : k.client = none) :
    Accounts jobs ran finished (Function.update worker w k) := by
  have hno : ∀ {i}, k.job ≠ some i := fun {i} hi => by
    rw [hjob] at hi
    contradiction
  refine ⟨?_, ?_, fun w₁ w₂ i h₁ h₂ => ?_, h.ranOnce, h.ranWith, ?_, fun i hi => ?_,
    fun i hi => ?_⟩
  · exact (Function.forall_update_iff worker fun _ k => ∀ j, k.job = some j →
      ∃ c', k.client = some c' ∧ jobs[j]? = some c').mpr
      ⟨fun i hi => absurd hi hno, fun w' _ => h.known w'⟩
  · exact (Function.forall_update_iff worker fun _ k => k.job = none → k.client = none).mpr
      ⟨fun _ => hclient, fun w' _ => h.noClient w'⟩
  · have hsome : ∀ {w' i}, (Function.update worker w k w').job = some i →
        (worker w').job = some i := fun {w' i} hi => by
      by_cases hw : w' = w
      · rw [hw, Function.update_self] at hi
        exact absurd hi hno
      · rwa [Function.update_of_ne hw] at hi
    exact h.unique w₁ w₂ i (hsome h₁) (hsome h₂)
  · exact (Function.forall_update_iff worker fun _ k => ∀ i, k.job = some i →
      k.pc.called = false → i ∉ ran.map Prod.fst).mpr
      ⟨fun i hi => absurd hi hno, fun w' _ => h.notRan w'⟩
  · refine (h.pending i hi).imp_right fun hw =>
      exists_update (P := (·.WillCall i)) hw fun hw => ?_
    exact absurd (hw.2.symm.trans hcalled) Bool.false_ne_true
  · refine (h.unfinished i hi).imp_right fun hw =>
      exists_update (P := (·.WillReturn i)) hw fun hw => ?_
    exact absurd (hw.2.symm.trans hreturned) Bool.false_ne_true

end Accounts

/-! ### Connections -/

/-- The factory thread is neither in `nxw_start_worker` nor in `worker_complete`. -/
def FactoryPc.outside : FactoryPc W C → Bool
  | .start .. | .spin _ => false
  | _ => true

theorem FactoryPc.ne_start {pc : FactoryPc W C} (h : pc.outside = true) (w : W) (c : C)
    (phase : StartPhase) : pc ≠ .start w c phase := fun heq => by
  rw [heq] at h
  contradiction

theorem FactoryPc.ne_spin {pc : FactoryPc W C} (h : pc.outside = true) (c : C) :
    pc ≠ .spin c := fun heq => by
  rw [heq] at h
  contradiction

theorem Hold.written_le (hold : Hold) : hold.written ≤ 3 := by
  cases hold with
  | starting phase => cases phase <;> decide
  | _ => exact le_rfl

variable [DecidableEq W]

theorem FactoryPc.written_of_outside {pc : FactoryPc W C} (h : pc.outside = true) (w : W) :
    (pc.hold w).written = 3 := by
  cases pc with
  | start w' c phase => contradiction
  | popHead w' purpose =>
    rw [FactoryPc.hold]
    split <;> rfl
  | stop w' extra phase =>
    rw [FactoryPc.hold]
    split <;> rfl
  | _ => rfl

/-- The connections for which workers have jobs. What `nxw_start_worker` writes for a job is there
from the moment on at which it is written, and the connection is subscribed to the eventfd of its
worker until `worker_complete` is called. -/
structure Clients (pc : FactoryPc W C) (pub : C → Option W) (done : C → Bool)
    (worker : W → Worker C) : Prop where
  start : ∀ w c phase, pc = .start w c phase → (worker w).client = some c
  param : ∀ w c, (worker w).client = some c → 1 ≤ (pc.hold w).written →
    (worker w).jobParam = some c
  pointer : ∀ w c, (worker w).client = some c → 2 ≤ (pc.hold w).written →
    (worker w).jobDone = some c
  cleared : ∀ w c, (worker w).client = some c → 3 ≤ (pc.hold w).written → done c = false
  subscribed : ∀ w c, (worker w).client = some c → pub c = some w ∨ pc = .spin c
  unique : ∀ w w' c, (worker w).client = some c → (worker w').client = some c → w = w'

namespace Clients

variable {pc pc' : FactoryPc W C} {pub : C → Option W} {done : C → Bool}
  {worker worker' : W → Worker C} {w : W} {k : Worker C} {c : C} {phase : StartPhase}

/-- Threads go on without touching what was written for the jobs. -/
theorem keep (h : Clients pc pub done worker)
    (hsame : ∀ w, (worker' w).client = (worker w).client ∧
      (worker' w).jobParam = (worker w).jobParam ∧ (worker' w).jobDone = (worker w).jobDone)
    (hwritten : ∀ w, (pc'.hold w).written ≤ (pc.hold w).written)
    (hstart : ∀ w c phase, pc' = .start w c phase → (worker w).client = some c)
    (hspin : ∀ c, pc = .spin c → pc' = .spin c) : Clients pc' pub done worker' where
  start w c phase hw := (hsame w).1.trans (hstart w c phase hw)
  param w c hc hw := by
    rw [(hsame w).1] at hc
    exact (hsame w).2.1.trans (h.param w c hc (hw.trans (hwritten w)))
  pointer w c hc hw := by
    rw [(hsame w).1] at hc
    exact (hsame w).2.2.trans (h.pointer w c hc (hw.trans (hwritten w)))
  cleared w c hc hw := by
    rw [(hsame w).1] at hc
    exact h.cleared w c hc (hw.trans (hwritten w))
  subscribed w c hc := by
    rw [(hsame w).1] at hc
    exact (h.subscribed w c hc).imp_right (hspin c)
  unique w w' c hc hc' := by
    rw [(hsame _).1] at hc hc'
    exact h.unique w w' c hc hc'

theorem same_update (hclient : k.client = (worker w).client)
    (hparam : k.jobParam = (worker w).jobParam) (hpointer : k.jobDone = (worker w).jobDone)
    (w' : W) : (Function.update worker w k w').client = (worker w').client ∧
      (Function.update worker w k w').jobParam = (worker w').jobParam ∧
      (Function.update worker w k w').jobDone = (worker w').jobDone :=
  (Function.forall_update_iff worker fun w k => k.client = (worker w).client ∧
    k.jobParam = (worker w).jobParam ∧ k.jobDone = (worker w).jobDone).mpr
    ⟨⟨hclient, hparam, hpointer⟩, fun _ _ => ⟨rfl, rfl, rfl⟩⟩ w'

/-- A worker goes on. -/
theorem move (h : Clients pc pub done worker) (hclient : k.client = (worker w).client)
    (hparam : k.jobParam = (worker w).jobParam) (hpointer : k.jobDone = (worker w).jobDone) :
    Clients pc pub done (Function.update worker w k) :=
  h.keep (same_update hclient hparam hpointer) (fun _ => le_rfl) h.start fun _ => id

/-- The factory thread goes on, outside of `nxw_start_worker` and `worker_complete`. -/
theorem goOn (h : Clients pc pub done worker) (hpc : pc.outside = true)
    (hpc' : pc'.outside = true) : Clients pc' pub done worker := by
  refine h.keep (fun _ => ⟨rfl, rfl, rfl⟩) (fun w => ?_)
    (fun w c phase hw => absurd hw (FactoryPc.ne_start hpc' w c phase))
    fun c hc => absurd hc (FactoryPc.ne_spin hpc c)
  rw [FactoryPc.written_of_outside hpc]
  exact Hold.written_le _

/-- The factory thread goes on, and does something with a worker. -/
theorem act (h : Clients pc pub done worker) (hpc : pc.outside = true)
    (hpc' : pc'.outside = true) (hclient : k.client = (worker w).client)
    (hparam : k.jobParam = (worker w).jobParam) (hpointer : k.jobDone = (worker w).jobDone) :
    Clients pc' pub done (Function.update worker w k) :=
  (h.goOn hpc hpc').move hclient hparam hpointer

/-- A step of `nxw_start_worker`, which may write something. -/
theorem startStep (h : Clients (.start w c phase) pub done worker)
    (phase' : StartPhase) (hclient : k.client = (worker w).client) {done' : C → Bool}
    (hparam : 1 ≤ phase'.written → k.jobParam = some c)
    (hpointer : 2 ≤ phase'.written → k.jobDone = some c)
    (hcleared : 3 ≤ phase'.written → done' c = false)
    (hdone : ∀ c', c' ≠ c → done' c' = done c') :
    Clients (.start w c phase') pub done' (Function.update worker w k) := by
  have hc : (worker w).client = some c := h.start w c phase rfl
  have hself : Function.update worker w k w = k := Function.update_self w k worker
  have hother : ∀ w', w' ≠ w → Function.update worker w k w' = worker w' := fun w' hw =>
    Function.update_of_ne hw k worker
  have hwritten : ((FactoryPc.start w c phase' : FactoryPc W C).hold w).written =
      phase'.written := by rw [FactoryPc.hold_start_self]; rfl
  have hfull : ∀ {w'}, w' ≠ w →
      ((FactoryPc.start w c phase : FactoryPc W C).hold w').written = 3 := fun {w'} hw => by
    rw [FactoryPc.hold_start_of_ne hw]; rfl
  have hclients : ∀ w', (Function.update worker w k w').client = (worker w').client :=
    (Function.forall_update_iff worker fun w k => k.client = (worker w).client).mpr
      ⟨hclient, fun _ _ => rfl⟩
  refine ⟨fun w' c' p hw => ?_, fun w' c' hc' hn => ?_, fun w' c' hc' hn => ?_,
    fun w' c' hc' hn => ?_, fun w' c' hc' => ?_, fun w₁ w₂ c' h₁ h₂ => ?_⟩
  · obtain ⟨rfl, rfl, -⟩ := FactoryPc.start.inj hw
    rw [hclients, hc]
  · rw [hclients] at hc'
    by_cases hw : w' = w
    · subst hw
      obtain rfl := Option.some.inj (hc.symm.trans hc')
      rw [hwritten] at hn
      rw [hself, hparam hn]
    · rw [hother w' hw]
      exact h.param w' c' hc' (by rw [hfull hw]; omega)
  · rw [hclients] at hc'
    by_cases hw : w' = w
    · subst hw
      obtain rfl := Option.some.inj (hc.symm.trans hc')
      rw [hwritten] at hn
      rw [hself, hpointer hn]
    · rw [hother w' hw]
      exact h.pointer w' c' hc' (by rw [hfull hw]; omega)
  · rw [hclients] at hc'
    by_cases hw : w' = w
    · subst hw
      obtain rfl := Option.some.inj (hc.symm.trans hc')
      rw [hwritten] at hn
      exact hcleared hn
    · rw [hdone c' fun heq => hw (h.unique w' w c (heq ▸ hc') hc)]
      exact h.cleared w' c' hc' (by rw [hfull hw])
  · rw [hclients] at hc'
    exact .inl ((h.subscribed w' c' hc').resolve_right (by simp))
  · rw [hclients] at h₁ h₂
    exact h.unique w₁ w₂ c' h₁ h₂

/-- `worker_complete` goes on: no worker has a job for the connection any more. -/
theorem sent (h : Clients (.spin c) pub done worker) (hdone : done c = true) :
    Clients .idle pub done worker := by
  refine { h with start := by simp, subscribed := fun w c' hc' => .inl ?_ }
  refine (h.subscribed w c' hc').resolve_right fun heq => ?_
  obtain rfl := FactoryPc.spin.inj heq
  rw [h.cleared w c hc' le_rfl] at hdone
  contradiction

/-- A worker without a job is destroyed, and its subscribers are unsubscribed. -/
theorem destroy (h : Clients pc pub done worker) (hnone : (worker w).client = none) :
    Clients pc (fun c => if pub c = some w then none else pub c) done worker := by
  refine { h with subscribed := fun w' c hc => ?_ }
  refine (h.subscribed w' c hc).imp_left fun hsub => ?_
  rw [if_neg, hsub]
  intro heq
  obtain rfl := Option.some.inj (hsub.symm.trans heq)
  rw [hnone] at hc
  contradiction

variable [DecidableEq C]

/-- A worker without a job is given one for a connection that is not subscribed. -/
theorem assign (h : Clients pc pub done worker) (hpc : pc.outside = true)
    (hpub : pub c = none) (hnone : (worker w).client = none) (hclient : k.client = some c) :
    Clients (.start w c .lock) (Function.update pub c (some w)) done
      (Function.update worker w k) := by
  have hself : Function.update worker w k w = k := Function.update_self w k worker
  have hother : ∀ w', w' ≠ w → Function.update worker w k w' = worker w' := fun w' hw =>
    Function.update_of_ne hw k worker
  have hwritten : ∀ {n}, 1 ≤ n →
      ¬n ≤ ((FactoryPc.start w c .lock : FactoryPc W C).hold w).written := fun {n} hn => by
    rw [FactoryPc.hold_start_self]
    change ¬n ≤ 0
    omega
  -- nobody else has a job for the connection
  have hfree : ∀ w' c', (worker w').client = some c' → pub c' = some w' ∧ c' ≠ c :=
    fun w' c' hc' => by
      have hsub := (h.subscribed w' c' hc').resolve_right (FactoryPc.ne_spin hpc c')
      refine ⟨hsub, fun heq => ?_⟩
      rw [heq, hpub] at hsub
      contradiction
  refine ⟨fun w' c' phase hw => ?_, fun w' c' hc' hn => ?_, fun w' c' hc' hn => ?_,
    fun w' c' hc' hn => ?_, fun w' c' hc' => .inl ?_, fun w₁ w₂ c' h₁ h₂ => ?_⟩
  · obtain ⟨rfl, rfl, -⟩ := FactoryPc.start.inj hw
    rw [hself, hclient]
  · by_cases hw : w' = w
    · subst hw
      exact absurd hn (hwritten le_rfl)
    · rw [hother w' hw] at hc' ⊢
      exact h.param w' c' hc' (by rw [FactoryPc.written_of_outside hpc]; omega)
  · by_cases hw : w' = w
    · subst hw
      exact absurd hn (hwritten (by omega))
    · rw [hother w' hw] at hc' ⊢
      exact h.pointer w' c' hc' (by rw [FactoryPc.written_of_outside hpc]; omega)
  · by_cases hw : w' = w
    · subst hw
      exact absurd hn (hwritten (by omega))
    · rw [hother w' hw] at hc'
      exact h.cleared w' c' hc' (by rw [FactoryPc.written_of_outside hpc])
  · by_cases hw : w' = w
    · subst hw
      rw [hself, hclient] at hc'
      obtain rfl := Option.some.inj hc'
      rw [Function.update_self]
    · rw [hother w' hw] at hc'
      obtain ⟨hsub, hne⟩ := hfree w' c' hc'
      rw [Function.update_of_ne hne, hsub]
  · by_cases hw₁ : w₁ = w
    · by_cases hw₂ : w₂ = w
      · rw [hw₁, hw₂]
      · rw [hw₁, hself, hclient] at h₁
        rw [hother w₂ hw₂] at h₂
        exact absurd (Option.some.inj h₁).symm (hfree w₂ c' h₂).2
    · rw [hother w₁ hw₁] at h₁
      by_cases hw₂ : w₂ = w
      · rw [hw₂, hself, hclient] at h₂
        exact absurd (Option.some.inj h₂).symm (hfree w₁ c' h₁).2
      · rw [hother w₂ hw₂] at h₂
        exact h.unique w₁ w₂ c' h₁ h₂

/-- A worker reports its job to its connection. -/
theorem report (h : Clients pc pub done worker) (hhold : pc.hold w = .none)
    (hc : (worker w).client = some c) (hclient : k.client = none) {c' : C}
    (hpointer : (worker w).jobDone = some c') :
    Clients pc pub (Function.update done c' true) (Function.update worker w k) := by
  have hself : Function.update worker w k w = k := Function.update_self w k worker
  have hother : ∀ w', w' ≠ w → Function.update worker w k w' = worker w' := fun w' hw =>
    Function.update_of_ne hw k worker
  obtain rfl : c = c' := by
    have hpointer' := h.pointer w c hc (by rw [hhold]; change 2 ≤ 3; omega)
    exact Option.some.inj (hpointer'.symm.trans hpointer)
  have hne : ∀ {w' c'}, (Function.update worker w k w').client = some c' → w' ≠ w :=
    fun {w' c'} hc' heq => by
      rw [heq, hself, hclient] at hc'
      contradiction
  refine ⟨fun w' c' p hw => ?_, fun w' c' hc' hn => ?_, fun w' c' hc' hn => ?_,
    fun w' c' hc' hn => ?_, fun w' c' hc' => ?_, fun w₁ w₂ c' h₁ h₂ => ?_⟩
  · have hw' : w' ≠ w := fun heq => by
      rw [hw, heq, FactoryPc.hold_start_self] at hhold
      contradiction
    rw [hother w' hw']
    exact h.start w' c' p hw
  · have hw := hne hc'
    rw [hother w' hw] at hc' ⊢
    exact h.param w' c' hc' hn
  · have hw := hne hc'
    rw [hother w' hw] at hc' ⊢
    exact h.pointer w' c' hc' hn
  · have hw := hne hc'
    rw [hother w' hw] at hc'
    have hconn : c' ≠ c := fun heq => hw (h.unique w' w c (heq ▸ hc') hc)
    rw [Function.update_of_ne hconn]
    exact h.cleared w' c' hc' hn
  · have hw := hne hc'
    rw [hother w' hw] at hc'
    exact h.subscribed w' c' hc'
  · have hw₁ := hne h₁
    have hw₂ := hne h₂
    rw [hother w₁ hw₁] at h₁
    rw [hother w₂ hw₂] at h₂
    exact h.unique w₁ w₂ c' h₁ h₂

/-- `worker_complete` of a connection is called. -/
theorem complete (h : Clients .idle pub done worker) (c : C) :
    Clients (.spin c) (Function.update pub c none) done worker := by
  refine { h with start := by simp, subscribed := fun w c' hc' => ?_ }
  have hsub := (h.subscribed w c' hc').resolve_right (by simp)
  by_cases heq : c' = c
  · exact .inr (heq ▸ rfl)
  · exact .inl (by rw [Function.update_of_ne heq, hsub])

end Clients

end Nxweb
