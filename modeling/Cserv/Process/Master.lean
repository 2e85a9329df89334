import Cserv.Foundations.Transition
import Mathlib.Data.Finset.Card

/-!
# The master process

`master_process_cycle` of `process.c` with the loops it calls, and the signal handlers of
`signal.c`, statement by statement. The handler of `SIGCHLD` interrupts the master between
any two statements; the signals to stop interrupt both the master and that handler. A child
may exit at any time after its `fork`, and is a zombie until `waitpid` returns its pid.
-/
namespace Cserv.Process

open Relation

/-- The signals the master passes on: `SHUTDOWN_SIGNAL` and `TERMINATE_SIGNAL`. -/
inductive Signal
  | shutdown
  | terminate
  deriving DecidableEq, Repr

/-- The next statement of `master_process_cycle`, where `i` is the index of the inner loop. -/
inductive MasterPc
  | testStop
  | testExit
  /-- `send_signal_to_workers`. -/
  | sendSignal (signo : Signal) (i : ℕ)
  /-- `g_shall_stop = 2`, or `g_shall_exit = 2`. -/
  | setSent (signo : Signal)
  | testAllExit
  | testCreate
  /-- `shall_create_worker = false`. -/
  | clearCreate
  /-- The loop of `spawn_worker_process`. -/
  | testWorker (i : ℕ)
  | fork (i : ℕ)
  /-- In `fork_worker`, after `fork` has returned `pid`. -/
  | setPid (i pid : ℕ)
  /-- `log_scan_write` and `usleep`. -/
  | scanWrite
  | iterationEnd
  | exited
  deriving DecidableEq, Repr

inductive HandlerPc
  | waitpid
  /-- The loop over the workers. -/
  | clearWorkers (pid : ℕ)
  /-- `shall_create_worker = true`, unless the master is stopping. -/
  | raiseCreate
  /-- `all_workers_exit = true`, if the master is stopping and has no worker. -/
  | raiseAllExit
  deriving DecidableEq, Repr

/-- The variables of the master; `none` is `INVALID_PID`. `children` are the pids of the children
that `waitpid` has not returned, `zombies` those of them that have exited, and `sent` are the
calls of `kill`. -/
structure Master where
  worker : List (Option ℕ)
  shallStop : ℕ
  shallExit : ℕ
  allWorkersExit : Bool
  shallCreateWorker : Bool
  children : Finset ℕ
  zombies : Finset ℕ
  sent : List (Signal × ℕ)
  handler : Option HandlerPc
  pc : MasterPc

def maxWorkerProcess : ℤ := 64

/-- The check of `worker_processes` in `set_worker_env`, which exits for `none`. -/
def setWorkerProcesses (c : ℤ) : Option ℕ :=
  if c < 0 ∨ c > maxWorkerProcess then none else some c.toNat

/-- The master after `process_init`, for `n` worker processes. -/
def masterInit (n : ℕ) : Master :=
  ⟨List.replicate n none, 0, 0, false, true, ∅, ∅, [], none, .testStop⟩

namespace Master

variable (x : Master)

def workerEmpty : Bool := x.worker.all (· = none)

def stopping : Bool := x.shallStop ≠ 0 || x.shallExit ≠ 0

def goto (pc : MasterPc) : Master := { x with pc := pc }

def handlerTo (handler : Option HandlerPc) : Master := { x with handler := handler }

def sendSignal (signo : Signal) : Option ℕ → Master
  | none => x
  | some pid => { x with sent := x.sent ++ [(signo, pid)] }

def setSent : Signal → Master
  | .shutdown => { x with shallStop := 2, pc := .testExit }
  | .terminate => { x with shallExit := 2, pc := .testAllExit }

def clearWorkers (pid : ℕ) : Master :=
  { x with worker := x.worker.map fun p => if p = some pid then none else p }

def raiseCreate : Master := if x.stopping then x else { x with shallCreateWorker := true }

def raiseAllExit : Master :=
  if x.workerEmpty && x.stopping then { x with allWorkersExit := true } else x

end Master

/-- The steps of the kernel, of the handlers and of the master. `waitpid` returns a pid that `R`
allows, and `fork` fails where `F` allows it. The child leaves the loop after its `fork`, and
the master does not. -/
inductive MasterStep (R : Master → ℕ → Prop) (F : Master → Prop) : Master → Master → Prop
  | sigStop (x : Master) (halive : x.pc ≠ .exited) : MasterStep R F x { x with shallStop := 1 }
  | sigExit (x : Master) (halive : x.pc ≠ .exited) : MasterStep R F x { x with shallExit := 1 }
  | childExit (x : Master) (pid : ℕ) (hpid : pid ∈ x.children) :
      MasterStep R F x { x with zombies := insert pid x.zombies }
  | sigChld (x : Master) (halive : x.pc ≠ .exited) (hnone : x.handler = none) :
      MasterStep R F x (x.handlerTo (some .waitpid))
  | reap (x : Master) (pid : ℕ) (hpc : x.handler = some .waitpid) (hpid : pid ∈ x.zombies)
      (hR : R x pid) :
      MasterStep R F x
        { x.handlerTo (some (.clearWorkers pid)) with
          children := x.children.erase pid
          zombies := x.zombies.erase pid }
  | noZombie (x : Master) (hpc : x.handler = some .waitpid) (hnone : x.zombies = ∅) :
      MasterStep R F x (x.handlerTo none)
  | clearWorkers (x : Master) (pid : ℕ) (hpc : x.handler = some (.clearWorkers pid)) :
      MasterStep R F x ((x.clearWorkers pid).handlerTo (some .raiseCreate))
  | raiseCreate (x : Master) (hpc : x.handler = some .raiseCreate) :
      MasterStep R F x (x.raiseCreate.handlerTo (some .raiseAllExit))
  | raiseAllExit (x : Master) (hpc : x.handler = some .raiseAllExit) :
      MasterStep R F x (x.raiseAllExit.handlerTo (some .waitpid))
  | testStop (x : Master) (hnone : x.handler = none) (hpc : x.pc = .testStop) :
      MasterStep R F x
        (x.goto (if x.shallStop = 1 then .sendSignal .shutdown 0 else .testExit))
  | testExit (x : Master) (hnone : x.handler = none) (hpc : x.pc = .testExit) :
      MasterStep R F x
        (x.goto (if x.shallExit = 1 then .sendSignal .terminate 0 else .testAllExit))
  | sendSignal (x : Master) (signo : Signal) (i : ℕ) (p : Option ℕ) (hnone : x.handler = none)
      (hpc : x.pc = .sendSignal signo i) (hp : x.worker[i]? = some p) :
      MasterStep R F x ((x.sendSignal signo p).goto (.sendSignal signo (i + 1)))
  | sendEnd (x : Master) (signo : Signal) (i : ℕ) (hnone : x.handler = none)
      (hpc : x.pc = .sendSignal signo i) (hi : x.worker.length ≤ i) :
      MasterStep R F x (x.goto (.setSent signo))
  | setSent (x : Master) (signo : Signal) (hnone : x.handler = none) (hpc : x.pc = .setSent signo) :
      MasterStep R F x (x.setSent signo)
  | testAllExit (x : Master) (hnone : x.handler = none) (hpc : x.pc = .testAllExit) :
      MasterStep R F x (x.goto (if x.allWorkersExit then .exited else .testCreate))
  | testCreate (x : Master) (hnone : x.handler = none) (hpc : x.pc = .testCreate) :
      MasterStep R F x (x.goto (if x.shallCreateWorker then .clearCreate else .scanWrite))
  | clearCreate (x : Master) (hnone : x.handler = none) (hpc : x.pc = .clearCreate) :
      MasterStep R F x { x.goto (.testWorker 0) with shallCreateWorker := false }
  | taken (x : Master) (i pid : ℕ) (hnone : x.handler = none) (hpc : x.pc = .testWorker i)
      (hp : x.worker[i]? = some (some pid)) : MasterStep R F x (x.goto (.testWorker (i + 1)))
  | free (x : Master) (i : ℕ) (hnone : x.handler = none) (hpc : x.pc = .testWorker i)
      (hp : x.worker[i]? = some none) : MasterStep R F x (x.goto (.fork i))
  | spawnEnd (x : Master) (i : ℕ) (hnone : x.handler = none) (hpc : x.pc = .testWorker i)
      (hi : x.worker.length ≤ i) : MasterStep R F x (x.goto .scanWrite)
  | fork (x : Master) (i pid : ℕ) (hnone : x.handler = none) (hpc : x.pc = .fork i)
      (hpos : 0 < pid) (hpid : pid ∉ x.children) :
      MasterStep R F x { x.goto (.setPid i pid) with children := insert pid x.children }
  | forkFailed (x : Master) (i : ℕ) (hnone : x.handler = none) (hpc : x.pc = .fork i)
      (hF : F x) : MasterStep R F x (x.goto (.testWorker (i + 1)))
  | setPid (x : Master) (i pid : ℕ) (hnone : x.handler = none) (hpc : x.pc = .setPid i pid) :
      MasterStep R F x
        { x.goto (.testWorker (i + 1)) with worker := x.worker.set i (some pid) }
  | scanWrite (x : Master) (hnone : x.handler = none) (hpc : x.pc = .scanWrite) :
      MasterStep R F x (x.goto .iterationEnd)
  | iterate (x : Master) (hnone : x.handler = none) (hpc : x.pc = .iterationEnd) :
      MasterStep R F x (x.goto .testStop)

abbrev AnyStep : Master → Master → Prop := MasterStep (fun _ _ => True) fun _ => True

/-! ## Runs to the end of a loop -/

theorem Master.raiseCreate_eq (x : Master) :
    x.raiseCreate = { x with shallCreateWorker := x.shallCreateWorker || !x.stopping } := by
  unfold Master.raiseCreate
  split_ifs with hstop <;> simp [hstop]

theorem Master.raiseAllExit_eq (x : Master) :
    x.raiseAllExit =
      { x with allWorkersExit := x.allWorkersExit || x.workerEmpty && x.stopping } := by
  unfold Master.raiseAllExit
  split_ifs with hlast <;> simp [hlast]

theorem handler_round (x : Master) (hpc : x.handler = some .waitpid) {pid : ℕ}
    (hpid : pid ∈ x.zombies) :
    ∃ y, ReflTransGen AnyStep x y ∧ y.handler = some .waitpid ∧ y.pc = x.pc ∧
      y.worker.length = x.worker.length ∧ y.children = x.children.erase pid ∧
      y.zombies = x.zombies.erase pid := by
  have h₁ : AnyStep x _ := .reap x pid hpc hpid trivial
  have h₂ := (ReflTransGen.single h₁).tail (.clearWorkers _ pid rfl)
  have h₃ := (h₂.tail (.raiseCreate _ rfl)).tail (.raiseAllExit _ rfl)
  refine ⟨_, h₃, rfl, ?_⟩
  simp [Master.raiseAllExit_eq, Master.raiseCreate_eq, Master.handlerTo, Master.clearWorkers]

theorem handler_ends (x : Master) (hpc : x.handler = some .waitpid) :
    ∃ y, ReflTransGen AnyStep x y ∧ y.handler = none ∧ y.pc = x.pc ∧
      y.worker.length = x.worker.length ∧ y.children ⊆ x.children := by
  induction hcard : x.zombies.card generalizing x with
  | zero =>
    have hstep : AnyStep x _ := .noZombie x hpc (Finset.card_eq_zero.mp hcard)
    exact ⟨_, .single hstep, rfl, rfl, rfl, subset_rfl⟩
  | succ n ih =>
    obtain ⟨pid, hpid⟩ := Finset.card_pos.mp (by omega : 0 < x.zombies.card)
    obtain ⟨y, hround, hwait, hsame, hlength, hchildren, hzombies⟩ := handler_round x hpc hpid
    obtain ⟨z, hrun, hnone, hz⟩ := ih y hwait (by
      rw [hzombies, Finset.card_erase_of_mem hpid, hcard]
      rfl)
    rw [hsame, hlength, hchildren] at hz
    exact ⟨z, hround.trans hrun, hnone, hz.1, hz.2.1, hz.2.2.trans (Finset.erase_subset ..)⟩

theorem first_spawn (R : Master → ℕ → Prop) (F : Master → Prop) (n : ℕ) :
    ReflTransGen (MasterStep R F) (masterInit n)
      { (masterInit n).goto (.testWorker 0) with shallCreateWorker := false } := by
  have h₁ : MasterStep R F (masterInit n) _ := .testStop _ rfl rfl
  have h₂ := (ReflTransGen.single h₁).tail (.testExit _ rfl rfl)
  have h₃ := (h₂.tail (.testAllExit _ rfl rfl)).tail (.testCreate _ rfl rfl)
  exact h₃.tail (.clearCreate _ rfl rfl)

theorem spawn_fails (x : Master) (i : ℕ) (hnone : x.handler = none) (hpc : x.pc = .testWorker i) :
    ReflTransGen AnyStep x (x.goto .iterationEnd) := by
  induction hrest : x.worker.length - i generalizing x i with
  | zero =>
    have hstep : AnyStep x _ := .spawnEnd x i hnone hpc (by omega)
    exact (ReflTransGen.single hstep).tail (.scanWrite _ hnone rfl)
  | succ n ih =>
    have hnext := ih (x.goto (.testWorker (i + 1))) (i + 1) hnone rfl
      (by change x.worker.length - (i + 1) = n; omega)
    have hi : i < x.worker.length := by omega
    cases hp : x.worker[i] with
    | none =>
      have hfree : AnyStep x _ := .free x i hnone hpc (by rw [List.getElem?_eq_getElem hi, hp])
      exact ((ReflTransGen.single hfree).tail (.forkFailed _ i hnone rfl trivial)).trans hnext
    | some pid =>
      have htaken : AnyStep x _ :=
        .taken x i pid hnone hpc (by rw [List.getElem?_eq_getElem hi, hp])
      exact (ReflTransGen.single htaken).trans hnext

end Cserv.Process
