import Cserv.Process.Master

/-!
# Respawning and shutting down

`shall_create_worker` and `all_workers_exit` tell the master loop what the table of workers has
come to. The first is cleared before the spawn loop, so that a slot whose `fork` fails is
scheduled again only if a worker exits later. The second is set by the exit of a worker only,
so that a stopping master without workers waits for ever.
-/
namespace Cserv.Process

open Foundations Relation

variable {R : Master → ℕ → Prop} {F : Master → Prop} {x y : Master}

/-- How many slots the spawn loop has passed; outside the loop it has passed all. -/
def Master.passed (x : Master) : ℕ :=
  match x.pc with
  | .testWorker i | .fork i | .setPid i _ => min i x.worker.length
  | _ => x.worker.length

/-- A step that leaves the table, the flags and the place in the spawn loop as they are, apart from
signals to stop. -/
structure Calm (x y : Master) : Prop where
  worker : y.worker = x.worker
  create : y.shallCreateWorker = x.shallCreateWorker
  allExit : y.allWorkersExit = x.allWorkersExit
  stopping : x.stopping = true → y.stopping = true
  handler : y.handler = x.handler ∨
    x.handler ≠ some .raiseCreate ∧ x.handler ≠ some .raiseAllExit ∧
      y.handler ≠ some .raiseCreate ∧ y.handler ≠ some .raiseAllExit
  passed : y.passed = x.passed
  free : ∀ i, y.pc = .fork i → x.pc = .fork i ∨ x.worker[i]? = some none

/-- What a step does to the table and the flags. -/
inductive Change (F : Master → Prop) (x : Master) : Master → Prop
  | calm (y : Master) (h : Calm x y) : Change F x y
  | clearWorkers (pid : ℕ) (hpc : x.handler = some (.clearWorkers pid)) :
      Change F x ((x.clearWorkers pid).handlerTo (some .raiseCreate))
  | raiseCreate (hpc : x.handler = some .raiseCreate) :
      Change F x (x.raiseCreate.handlerTo (some .raiseAllExit))
  | raiseAllExit (hpc : x.handler = some .raiseAllExit) :
      Change F x (x.raiseAllExit.handlerTo (some .waitpid))
  | clearCreate (hnone : x.handler = none) (hpc : x.pc = .clearCreate) :
      Change F x { x.goto (.testWorker 0) with shallCreateWorker := false }
  | taken (i pid : ℕ) (hnone : x.handler = none) (hpc : x.pc = .testWorker i)
      (hp : x.worker[i]? = some (some pid)) : Change F x (x.goto (.testWorker (i + 1)))
  | forkFailed (i : ℕ) (hnone : x.handler = none) (hpc : x.pc = .fork i) (hF : F x) :
      Change F x (x.goto (.testWorker (i + 1)))
  | setPid (i pid : ℕ) (hnone : x.handler = none) (hpc : x.pc = .setPid i pid) :
      Change F x { x.goto (.testWorker (i + 1)) with worker := x.worker.set i (some pid) }

theorem Calm.goto (x : Master) (pc : MasterPc) (hpassed : (x.goto pc).passed = x.passed)
    (hfree : ∀ i, pc = .fork i → x.worker[i]? = some none) : Calm x (x.goto pc) :=
  ⟨rfl, rfl, rfl, id, Or.inl rfl, hpassed, fun i hpc => Or.inr (hfree i hpc)⟩

theorem step_change (hstep : MasterStep R F x y) : Change F x y := by
  cases hstep with
  | sigStop halive =>
    exact .calm _ ⟨rfl, rfl, rfl, by simp [Master.stopping], Or.inl rfl, rfl, fun _ => Or.inl⟩
  | sigExit halive =>
    exact .calm _ ⟨rfl, rfl, rfl, by simp [Master.stopping], Or.inl rfl, rfl, fun _ => Or.inl⟩
  | childExit pid hpid => exact .calm _ ⟨rfl, rfl, rfl, id, Or.inl rfl, rfl, fun _ => Or.inl⟩
  | sigChld halive hnone =>
    exact .calm _ ⟨rfl, rfl, rfl, id, Or.inr (by simp [hnone, Master.handlerTo]), rfl,
      fun _ => Or.inl⟩
  | reap pid hpc hpid hR =>
    exact .calm _ ⟨rfl, rfl, rfl, id, Or.inr (by simp [hpc, Master.handlerTo]), rfl,
      fun _ => Or.inl⟩
  | noZombie hpc hnone =>
    exact .calm _ ⟨rfl, rfl, rfl, id, Or.inr (by simp [hpc, Master.handlerTo]), rfl,
      fun _ => Or.inl⟩
  | clearWorkers pid hpc => exact .clearWorkers pid hpc
  | raiseCreate hpc => exact .raiseCreate hpc
  | raiseAllExit hpc => exact .raiseAllExit hpc
  | testStop hnone hpc =>
    exact .calm _ (.goto x _ (by split_ifs <;> simp [Master.passed, Master.goto, hpc])
      (by split_ifs <;> simp))
  | testExit hnone hpc =>
    exact .calm _ (.goto x _ (by split_ifs <;> simp [Master.passed, Master.goto, hpc])
      (by split_ifs <;> simp))
  | sendSignal signo i p hnone hpc hp =>
    have hcalm := Calm.goto x (.sendSignal signo (i + 1)) (by simp [Master.passed, Master.goto, hpc])
      (by simp)
    cases p with
    | none => exact .calm _ hcalm
    | some pid => exact .calm _ { hcalm with }
  | sendEnd signo i hnone hpc hi =>
    exact .calm _ (.goto x _ (by simp [Master.passed, Master.goto, hpc]) (by simp))
  | setSent signo hnone hpc =>
    cases signo with
    | shutdown =>
      exact .calm _ ⟨rfl, rfl, rfl, by simp [Master.setSent, Master.stopping], Or.inl rfl,
        by simp [Master.passed, Master.setSent, hpc], by simp [Master.setSent]⟩
    | terminate =>
      exact .calm _ ⟨rfl, rfl, rfl, by simp [Master.setSent, Master.stopping], Or.inl rfl,
        by simp [Master.passed, Master.setSent, hpc], by simp [Master.setSent]⟩
  | testAllExit hnone hpc =>
    exact .calm _ (.goto x _ (by split_ifs <;> simp [Master.passed, Master.goto, hpc])
      (by split_ifs <;> simp))
  | testCreate hnone hpc =>
    exact .calm _ (.goto x _ (by split_ifs <;> simp [Master.passed, Master.goto, hpc])
      (by split_ifs <;> simp))
  | clearCreate hnone hpc => exact .clearCreate hnone hpc
  | taken i pid hnone hpc hp => exact .taken i pid hnone hpc hp
  | free i hnone hpc hp =>
    refine .calm _ (.goto x _ (by simp [Master.passed, Master.goto, hpc]) ?_)
    intro j hj
    cases hj
    exact hp
  | spawnEnd i hnone hpc hi =>
    exact .calm _ (.goto x _ (by simp [Master.passed, Master.goto, hpc, hi]) (by simp))
  | fork i pid hnone hpc hpos hpid =>
    exact .calm _ ⟨rfl, rfl, rfl, id, Or.inl rfl, by simp [Master.passed, Master.goto, hpc],
      by simp [Master.goto]⟩
  | forkFailed i hnone hpc hF => exact .forkFailed i hnone hpc hF
  | setPid i pid hnone hpc => exact .setPid i pid hnone hpc
  | scanWrite hnone hpc =>
    exact .calm _ (.goto x _ (by simp [Master.passed, Master.goto, hpc]) (by simp))
  | iterate hnone hpc =>
    exact .calm _ (.goto x _ (by simp [Master.passed, Master.goto, hpc]) (by simp))

/-- The slot of a `fork` is free, whatever handler runs before it. -/
theorem run_free {n : ℕ} (hrun : ReflTransGen (MasterStep R F) (masterInit n) x) (i : ℕ)
    (hpc : x.pc = .fork i) : x.worker[i]? = some none := by
  revert i
  apply run_invariant (fun x : Master => ∀ i, x.pc = .fork i → x.worker[i]? = some none) _ _ hrun
  · intro x y hfree hstep i hpc
    cases step_change hstep with
    | calm _ h =>
      rw [h.worker]
      exact (h.free i hpc).elim (hfree i) id
    | clearWorkers pid =>
      change (x.worker.map _)[i]? = _
      simp [hfree i hpc]
    | raiseCreate =>
      rw [Master.raiseCreate_eq] at hpc ⊢
      exact hfree i hpc
    | raiseAllExit =>
      rw [Master.raiseAllExit_eq] at hpc ⊢
      exact hfree i hpc
    | clearCreate | taken | forkFailed | setPid => cases hpc
  · intro i hpc
    cases hpc

/-! ## Respawning -/

/-- The flag for a new spawn loop is up, or the master is stopping. -/
def Raised (x : Master) : Prop := x.shallCreateWorker = true ∨ x.stopping = true

/-- At the end of an iteration a free slot is scheduled, unless the master is stopping. -/
def Respawns (x : Master) : Prop :=
  x.handler = none → x.pc = .iterationEnd → x.stopping = false → none ∈ x.worker →
    x.shallCreateWorker = true

/-- The flag is up for the free slots that the spawn loop has passed, once the handler has seen to
it. -/
def RespawnInv (x : Master) : Prop :=
  x.handler ≠ some .raiseCreate → ∀ i < x.passed, x.worker[i]? = some none → Raised x

theorem RespawnInv.step (h : RespawnInv x) (hstep : MasterStep R Raised x y) : RespawnInv y := by
  intro hhandler i hi hfree
  cases step_change hstep with
  | calm _ hcalm =>
    rw [hcalm.passed] at hi
    rw [hcalm.worker] at hfree
    have hx : x.handler ≠ some .raiseCreate := by
      rcases hcalm.handler with hsame | hother
      · rw [← hsame]
        exact hhandler
      · exact hother.1
    unfold Raised
    rw [hcalm.create]
    exact (h hx i hi hfree).imp_right hcalm.stopping
  | clearWorkers pid hpc => exact absurd rfl hhandler
  | raiseCreate hpc =>
    rw [Master.raiseCreate_eq]
    by_cases hstop : x.stopping = true
    · exact Or.inr hstop
    · exact Or.inl (by simp [Master.handlerTo, hstop])
  | raiseAllExit hpc =>
    rw [Master.raiseAllExit_eq] at hi hfree ⊢
    exact h (by simp [hpc]) i hi hfree
  | clearCreate hnone hpc => simp [Master.passed, Master.goto] at hi
  | taken j pid hnone hpc hp =>
    apply h (by simp [hnone]) i _ hfree
    simp only [Master.passed, Master.goto, hpc] at hi hfree ⊢
    have hne : i ≠ j := by
      rintro rfl
      simp [hp] at hfree
    omega
  | forkFailed j hnone hpc hF => exact hF
  | setPid j pid hnone hpc =>
    have hne : j ≠ i := by
      rintro rfl
      simp only [Master.passed, Master.goto, List.length_set] at hi hfree
      rw [List.getElem?_set_self (by omega)] at hfree
      cases hfree
    apply h (by simp [hnone]) i
    · simp only [Master.passed, Master.goto, hpc, List.length_set] at hi ⊢
      omega
    · change (x.worker.set j (some pid))[i]? = some none at hfree
      rwa [List.getElem?_set_ne hne] at hfree

theorem RespawnInv.respawns (h : RespawnInv x) : Respawns x := by
  intro hnone hpc hstop hfree
  obtain ⟨i, hi, hslot⟩ := List.mem_iff_getElem.mp hfree
  have hraised := h (by simp [hnone]) i (by simpa [Master.passed, hpc] using hi)
    (by rw [List.getElem?_eq_getElem hi, hslot])
  exact hraised.resolve_right (by simp [hstop])

/-- In every run in which `fork` fails only while the flag is up or the master is stopping, a free
slot is scheduled at the end of every iteration. Whenever `fork` could fail otherwise, its slot
can be forgotten. -/
theorem master_respawns (n : ℕ) (x : Master)
    (hrun : ReflTransGen (MasterStep (fun _ _ => True) Raised) (masterInit n) x) :
    Respawns x ∧
      ∀ i, x.handler = none → x.pc = .fork i → ¬ Raised x →
        ∃ y, ReflTransGen AnyStep x y ∧ ¬ Respawns y := by
  constructor
  · apply RespawnInv.respawns
    apply run_invariant RespawnInv (fun _ _ => RespawnInv.step) _ hrun
    intro _ _ _ _
    exact Or.inl rfl
  · intro i hnone hpc hraised
    have hfree := run_free hrun i hpc
    have hfailed : AnyStep x _ := .forkFailed x i hnone hpc trivial
    have hend := spawn_fails (x.goto (.testWorker (i + 1))) (i + 1) hnone rfl
    refine ⟨_, (ReflTransGen.single hfailed).trans hend, ?_⟩
    intro hresp
    have hstop : x.stopping = false := by
      by_contra hstop
      exact hraised (Or.inr (by simpa using hstop))
    exact hraised (Or.inl (hresp hnone rfl hstop (List.mem_of_getElem? hfree)))

/-- The only worker exits, and is reaped, before the end of the first iteration. -/
theorem master_respawns_one : ∃ x : Master, x.pc = .iterationEnd ∧ x.worker = [none] ∧
    x.shallCreateWorker = true := by
  have h₁ := (first_spawn (fun _ _ => True) Raised 1).tail (.free _ 0 rfl rfl rfl)
  have h₂ := h₁.tail (.fork _ 0 1 rfl rfl (by decide) (by decide))
  have h₃ := (h₂.tail (.setPid _ 0 1 rfl rfl)).tail (.spawnEnd _ 1 rfl rfl (by decide))
  have h₄ := (h₃.tail (.childExit _ 1 (by decide))).tail (.sigChld _ nofun rfl)
  have h₅ := (h₄.tail (.reap _ 1 rfl (by decide) trivial)).tail (.clearWorkers _ 1 rfl)
  have h₆ := (h₅.tail (.raiseCreate _ rfl)).tail (.raiseAllExit _ rfl)
  have h₇ := (h₆.tail (.noZombie _ rfl (by decide))).tail (.scanWrite _ rfl rfl)
  exact ⟨_, rfl, by decide, (master_respawns 1 _ h₇).1 rfl rfl (by decide) (by decide)⟩

/-- The only `fork` of the first iteration fails. -/
theorem fork_failed_forgotten : ∃ x : Master,
    ReflTransGen AnyStep (masterInit 1) x ∧ x.handler = none ∧ x.pc = .iterationEnd ∧
      x.stopping = false ∧ x.worker = [none] ∧ x.shallCreateWorker = false := by
  have h₁ := (first_spawn (fun _ _ => True) (fun _ => True) 1).trans (spawn_fails _ 0 rfl rfl)
  exact ⟨_, h₁, rfl, rfl, by decide, by decide, rfl⟩

/-! ## Shutting down -/

/-- At the end of an iteration a stopping master that has no worker and creates none exits in the
next. -/
def ShutsDown (x : Master) : Prop :=
  x.handler = none → x.pc = .iterationEnd → x.stopping = true → x.workerEmpty = true →
    x.shallCreateWorker = false → x.allWorkersExit = true

/-- One of the flags is up that keep a master without workers going. -/
def Going (x : Master) : Prop := x.shallCreateWorker = true ∨ x.allWorkersExit = true

/-- The last `fork` of a spawn loop does not fail for a master without workers, unless one of the
flags is up. -/
def LastFork (x : Master) : Prop :=
  x.pc = .fork (x.worker.length - 1) → x.workerEmpty = true → Going x

/-- The invariant of a master that does not get stuck. -/
structure ShutdownInv (x : Master) : Prop where
  processes : 0 < x.worker.length
  going : x.handler ≠ some .raiseCreate → x.handler ≠ some .raiseAllExit →
    x.passed = x.worker.length → x.workerEmpty = true → Going x
  raised : x.handler = some .raiseAllExit → Raised x

theorem not_workerEmpty {i pid : ℕ} (hp : x.worker[i]? = some (some pid)) :
    x.workerEmpty = false := by
  rw [Master.workerEmpty, List.all_eq_false]
  exact ⟨some pid, List.mem_of_getElem? hp, by simp⟩

theorem ShutdownInv.calm (h : ShutdownInv x) (hcalm : Calm x y) : ShutdownInv y where
  processes := by
    rw [hcalm.worker]
    exact h.processes
  going hcreate hallExit hpassed hempty := by
    have hx : x.handler ≠ some .raiseCreate ∧ x.handler ≠ some .raiseAllExit := by
      rcases hcalm.handler with hsame | hother
      · rw [← hsame]
        exact ⟨hcreate, hallExit⟩
      · exact ⟨hother.1, hother.2.1⟩
    rw [hcalm.passed, hcalm.worker] at hpassed
    unfold Master.workerEmpty at hempty
    rw [hcalm.worker] at hempty
    unfold Going
    rw [hcalm.create, hcalm.allExit]
    exact h.going hx.1 hx.2 hpassed hempty
  raised hpc := by
    unfold Raised
    rw [hcalm.create]
    rcases hcalm.handler with hsame | hother
    · exact (h.raised (hsame ▸ hpc)).imp_right hcalm.stopping
    · exact absurd hpc hother.2.2.2

theorem ShutdownInv.pass (h : ShutdownInv x) {i : ℕ} (hnone : x.handler = none)
    (hpassed : x.passed = min i x.worker.length)
    (hgoing : i + 1 = x.worker.length → x.workerEmpty = true → Going x) :
    ShutdownInv (x.goto (.testWorker (i + 1))) where
  processes := h.processes
  going _ _ hall hempty := by
    change min (i + 1) x.worker.length = x.worker.length at hall
    by_cases hlast : i + 1 = x.worker.length
    · exact hgoing hlast hempty
    · apply h.going (by simp [hnone]) (by simp [hnone]) _ hempty
      omega
  raised hpc := h.raised hpc

theorem ShutdownInv.step (h : ShutdownInv x) (hstep : MasterStep R LastFork x y) :
    ShutdownInv y := by
  cases step_change hstep with
  | calm _ hcalm => exact h.calm hcalm
  | clearWorkers pid hpc =>
    refine ⟨?_, fun hcreate => absurd rfl hcreate, by simp [Master.handlerTo]⟩
    change 0 < (x.worker.map _).length
    rw [List.length_map]
    exact h.processes
  | raiseCreate hpc =>
    rw [Master.raiseCreate_eq]
    refine ⟨h.processes, fun _ hallExit => absurd rfl hallExit, fun _ => ?_⟩
    by_cases hstop : x.stopping = true
    · exact Or.inr hstop
    · exact Or.inl (by simp [Master.handlerTo, hstop])
  | raiseAllExit hpc =>
    rw [Master.raiseAllExit_eq]
    refine ⟨h.processes, fun _ _ _ hempty => ?_, by simp [Master.handlerTo]⟩
    change x.workerEmpty = true at hempty
    rcases h.raised hpc with hcreate | hstop
    · exact Or.inl hcreate
    · exact Or.inr (by simp [Master.handlerTo, hempty, hstop])
  | clearCreate hnone hpc =>
    have hprocesses := h.processes
    refine ⟨hprocesses, fun _ _ hpassed => ?_, fun hh => ?_⟩
    · simp only [Master.passed, Master.goto] at hpassed
      omega
    · change x.handler = _ at hh
      simp [hnone] at hh
  | taken i pid hnone hpc hp =>
    apply h.pass hnone (by simp [Master.passed, hpc])
    intro _ hempty
    simp [not_workerEmpty hp] at hempty
  | forkFailed i hnone hpc hF =>
    apply h.pass hnone (by simp [Master.passed, hpc])
    intro hlast hempty
    apply hF _ hempty
    rw [hpc, ← hlast]
    rfl
  | setPid i pid hnone hpc =>
    refine ⟨?_, fun _ _ hpassed hempty => ?_, fun hh => ?_⟩
    · change 0 < (x.worker.set i _).length
      rw [List.length_set]
      exact h.processes
    · by_cases hi : i < x.worker.length
      · have hslot : (x.worker.set i (some pid))[i]? = some (some pid) :=
          List.getElem?_set_self hi
        rw [not_workerEmpty hslot] at hempty
        cases hempty
      · -- the slot is not in the table, and the assignment does nothing
        simp only [Master.workerEmpty] at hempty
        rw [List.set_eq_of_length_le (by omega)] at hempty
        apply h.going (by simp [hnone]) (by simp [hnone]) _ hempty
        simp only [Master.passed, hpc]
        omega
    · change x.handler = _ at hh
      simp [hnone] at hh

theorem masterInit_shutdownInv {n : ℕ} (hn : 0 < n) : ShutdownInv (masterInit n) where
  processes := by
    change 0 < (List.replicate n (none : Option ℕ)).length
    rwa [List.length_replicate]
  going _ _ _ _ := Or.inl rfl
  raised := nofun

theorem ShutdownInv.shutsDown (h : ShutdownInv x) : ShutsDown x := by
  intro hnone hpc _ hempty hcreate
  have hgoing := h.going (by simp [hnone]) (by simp [hnone]) (by simp [Master.passed, hpc]) hempty
  exact hgoing.resolve_left (by simp [hcreate])

/-- A stop signal comes at the end of an iteration. -/
theorem stuck_of_stop (hnone : x.handler = none) (hpc : x.pc = .iterationEnd)
    (hempty : x.workerEmpty = true) (hgoing : ¬ Going x) :
    ∃ y, MasterStep R F x y ∧ ¬ ShutsDown y := by
  refine ⟨_, .sigStop x (by simp [hpc]), ?_⟩
  intro hdown
  unfold Going at hgoing
  push Not at hgoing
  exact hgoing.2 (hdown hnone hpc rfl hempty (by simpa using hgoing.1))

theorem idle_iteration : ∃ x, ReflTransGen (MasterStep R F) (masterInit 0) x ∧ x.handler = none ∧
    x.pc = .iterationEnd ∧ x.workerEmpty = true ∧ ¬ Going x := by
  have h₁ := (first_spawn R F 0).tail (.spawnEnd _ 0 rfl rfl (by decide))
  exact ⟨_, h₁.tail (.scanWrite _ rfl rfl), rfl, rfl, rfl, by simp [Going, Master.goto, masterInit]⟩

/-- For every accepted number of worker processes: in all runs in which the last `fork` of a spawn
loop does not fail for a master without workers, a stopping master shuts down, if and only if
the number is not zero. Whenever that `fork` could fail, the master can get stuck. -/
theorem master_shutsDown (c : ℤ) (n : ℕ) (hc : setWorkerProcesses c = some n) :
    ((∀ x, ReflTransGen (MasterStep (fun _ _ => True) LastFork) (masterInit n) x → ShutsDown x) ↔
        0 < c) ∧
      ∀ x, ReflTransGen (MasterStep (fun _ _ => True) LastFork) (masterInit n) x →
        x.handler = none → ¬ LastFork x → ∃ y, ReflTransGen AnyStep x y ∧ ¬ ShutsDown y := by
  have hcn : c = n := by
    unfold setWorkerProcesses at hc
    split_ifs at hc with hrange
    cases hc
    omega
  constructor
  · constructor
    · intro hdown
      by_contra hpos
      have hzero : n = 0 := by omega
      subst hzero
      obtain ⟨x, hrun, hnone, hpc, hempty, hgoing⟩ := idle_iteration
      obtain ⟨y, hstop, hstuck⟩ := stuck_of_stop hnone hpc hempty hgoing
      exact hstuck (hdown y (hrun.tail hstop))
    · intro hpos x hrun
      have hinit := masterInit_shutdownInv (n := n) (by omega)
      exact (run_invariant ShutdownInv (fun _ _ => ShutdownInv.step) hinit hrun).shutsDown
  · intro x hrun hnone hlast
    unfold LastFork at hlast
    push Not at hlast
    obtain ⟨hpc, hempty, hgoing⟩ := hlast
    have hfailed : AnyStep x _ := .forkFailed x _ hnone hpc trivial
    have hend : ReflTransGen AnyStep (x.goto (.testWorker _)) (x.goto .iterationEnd) :=
      spawn_fails _ (x.worker.length - 1 + 1) hnone rfl
    obtain ⟨y, hstop, hstuck⟩ := stuck_of_stop (x := x.goto .iterationEnd) hnone rfl hempty hgoing
    exact ⟨y, ((ReflTransGen.single hfailed).trans hend).tail hstop, hstuck⟩

/-- One worker process is enough. -/
theorem master_shutsDown_one : setWorkerProcesses 1 = some 1 ∧ ∀ x,
    ReflTransGen (MasterStep (fun _ _ => True) LastFork) (masterInit 1) x → ShutsDown x :=
  ⟨by decide, (master_shutsDown 1 1 (by decide)).1.mpr (by decide)⟩

/-- No worker process was configured, and the stop signal comes after the first iteration. -/
theorem stop_without_workers : setWorkerProcesses 0 = some 0 ∧ ∃ x : Master,
    ReflTransGen AnyStep (masterInit 0) x ∧ x.handler = none ∧ x.pc = .iterationEnd ∧
      x.stopping = true ∧ x.workerEmpty = true ∧ x.shallCreateWorker = false ∧
      x.allWorkersExit = false := by
  have h₁ := (first_spawn (fun _ _ => True) (fun _ => True) 0).trans (spawn_fails _ 0 rfl rfl)
  have h₂ := h₁.tail (.sigStop _ (by decide))
  exact ⟨by decide, _, h₂, rfl, rfl, rfl, rfl, rfl, rfl⟩

end Cserv.Process
