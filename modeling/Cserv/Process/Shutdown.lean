import Cserv.Process.Reaping

/-!
# Stopping the workers

A signal to stop sets a flag of the master, and the master passes it on once to each worker in its
table. Every child gets it if the signal arrives while the master creates no worker; one that is
forked after the signals were sent is not told. The master exits after the last child was reaped.
-/
namespace Cserv.Process

open Foundations Relation

variable {F : Master → Prop} {x y : Master}

/-- The statements from `shall_create_worker = false` to the end of `spawn_worker_process`. -/
def MasterPc.spawning : MasterPc → Bool
  | clearCreate | testWorker _ | fork _ | setPid _ _ => true
  | _ => false

/-- The master creates no worker and has not been asked to. -/
def Settled (x : Master) : Prop := x.shallCreateWorker = false ∧ x.pc.spawning = false

/-- A step of a master whose first signal to stop arrives while it is settled. -/
def SettledStep (F : Master → Prop) (x y : Master) : Prop :=
  MasterStep Recorded F x y ∧ (x.stopping = false → y.stopping = true → Settled x)

/-! ## The children are in the table -/

/-- A child is in the table, or is about to be recorded in a free slot. -/
structure KnownInv (x : Master) : Prop where
  known : ∀ pid ∈ x.children, some pid ∈ x.worker ∨ ∃ i, x.pc = .setPid i pid
  free : ∀ i, (x.pc = .fork i ∨ ∃ pid, x.pc = .setPid i pid) → x.worker[i]? = some none
  cleared : ∀ pid, x.handler = some (.clearWorkers pid) → pid ∉ x.children

namespace KnownInv

theorem goto (h : KnownInv x) (pc : MasterPc) (hold : ∀ i pid, x.pc ≠ .setPid i pid)
    (hset : ∀ i pid, pc ≠ .setPid i pid) (hfork : ∀ i, pc = .fork i → x.worker[i]? = some none) :
    KnownInv (x.goto pc) where
  known pid hpid := by
    rcases h.known pid hpid with hin | ⟨i, hi⟩
    · exact Or.inl hin
    · exact absurd hi (hold i pid)
  free i hi := by
    rcases hi with hi | ⟨pid, hi⟩
    · exact hfork i hi
    · exact absurd hi (hset i pid)
  cleared := h.cleared

theorem handlerTo (h : KnownInv x) (handler : Option HandlerPc)
    (hnew : ∀ pid, handler ≠ some (.clearWorkers pid)) : KnownInv (x.handlerTo handler) where
  known := h.known
  free := h.free
  cleared pid hpid := absurd hpid (hnew pid)

theorem reap (h : KnownInv x) {pid : ℕ} :
    KnownInv { x.handlerTo (some (.clearWorkers pid)) with
      children := x.children.erase pid
      zombies := x.zombies.erase pid } where
  known q hq := h.known q (Finset.mem_of_mem_erase hq)
  free := h.free
  cleared q hq := by
    cases hq
    exact Finset.notMem_erase pid x.children

theorem clearWorkers (h : KnownInv x) {pid : ℕ} (hpc : x.handler = some (.clearWorkers pid)) :
    KnownInv ((x.clearWorkers pid).handlerTo (some .raiseCreate)) where
  known q hq := by
    have hne : some q ≠ some pid := by
      intro heq
      cases heq
      exact h.cleared pid hpc hq
    refine (h.known q hq).imp_left fun hin => ?_
    exact List.mem_map.mpr ⟨some q, hin, if_neg hne⟩
  free i hi := by
    change (x.worker.map _)[i]? = some none
    rw [List.getElem?_map, h.free i hi]
    rfl
  cleared := nofun

theorem fork (h : KnownInv x) {i pid : ℕ} (hnone : x.handler = none) (hpc : x.pc = .fork i) :
    KnownInv { x.goto (.setPid i pid) with children := insert pid x.children } where
  known q hq := by
    rcases Finset.mem_insert.mp hq with rfl | hq
    · exact Or.inr ⟨i, rfl⟩
    · rcases h.known q hq with hin | ⟨j, hj⟩
      · exact Or.inl hin
      · rw [hpc] at hj
        cases hj
  free j hj := by
    rcases hj with hj | ⟨q, hj⟩
    · cases hj
    · cases hj
      exact h.free i (Or.inl hpc)
  cleared q hq := by
    change x.handler = _ at hq
    rw [hnone] at hq
    cases hq

theorem setPid (h : KnownInv x) {i pid : ℕ} (hpc : x.pc = .setPid i pid) :
    KnownInv { x.goto (.testWorker (i + 1)) with worker := x.worker.set i (some pid) } where
  known q hq := by
    refine Or.inl ?_
    obtain ⟨hi, hget⟩ := List.getElem?_eq_some_iff.mp (h.free i (Or.inr ⟨pid, hpc⟩))
    rcases h.known q hq with hin | ⟨j, hj⟩
    · obtain ⟨j, hj⟩ := List.mem_iff_getElem?.mp hin
      have hij : i ≠ j := by
        rintro rfl
        rw [List.getElem?_eq_getElem hi, hget] at hj
        cases hj
      refine List.mem_iff_getElem?.mpr ⟨j, ?_⟩
      rw [List.getElem?_set_ne hij]
      exact hj
    · rw [hpc] at hj
      cases hj
      exact List.mem_set hi _
  free j hj := by
    rcases hj with hj | ⟨q, hj⟩ <;> cases hj
  cleared := h.cleared

theorem step (h : KnownInv x) (hstep : MasterStep Recorded F x y) : KnownInv y := by
  cases hstep with
  | sigStop | sigExit | childExit => exact ⟨h.known, h.free, h.cleared⟩
  | sigChld halive hnone => exact h.handlerTo _ nofun
  | reap pid hpc hpid hR => exact h.reap
  | noZombie hpc hnone => exact h.handlerTo _ nofun
  | clearWorkers pid hpc => exact h.clearWorkers hpc
  | raiseCreate hpc =>
    rw [Master.raiseCreate_eq]
    have hnext := h.handlerTo (some .raiseAllExit) nofun
    exact ⟨hnext.known, hnext.free, hnext.cleared⟩
  | raiseAllExit hpc =>
    rw [Master.raiseAllExit_eq]
    have hnext := h.handlerTo (some .waitpid) nofun
    exact ⟨hnext.known, hnext.free, hnext.cleared⟩
  | testStop hnone hpc =>
    exact h.goto _ (by simp [hpc]) (by split_ifs <;> simp) (by split_ifs <;> simp)
  | testExit hnone hpc =>
    exact h.goto _ (by simp [hpc]) (by split_ifs <;> simp) (by split_ifs <;> simp)
  | sendSignal signo i p hnone hpc hp =>
    have hnext := h.goto (.sendSignal signo (i + 1)) (by simp [hpc]) (by simp) (by simp)
    cases p with
    | none => exact hnext
    | some pid => exact ⟨hnext.known, hnext.free, hnext.cleared⟩
  | sendEnd signo i hnone hpc hi => exact h.goto _ (by simp [hpc]) (by simp) (by simp)
  | setSent signo hnone hpc =>
    cases signo with
    | shutdown =>
      have hnext := h.goto .testExit (by simp [hpc]) (by simp) (by simp)
      exact ⟨hnext.known, hnext.free, hnext.cleared⟩
    | terminate =>
      have hnext := h.goto .testAllExit (by simp [hpc]) (by simp) (by simp)
      exact ⟨hnext.known, hnext.free, hnext.cleared⟩
  | testAllExit hnone hpc =>
    exact h.goto _ (by simp [hpc]) (by split_ifs <;> simp) (by split_ifs <;> simp)
  | testCreate hnone hpc =>
    exact h.goto _ (by simp [hpc]) (by split_ifs <;> simp) (by split_ifs <;> simp)
  | clearCreate hnone hpc =>
    have hnext := h.goto (.testWorker 0) (by simp [hpc]) (by simp) (by simp)
    exact ⟨hnext.known, hnext.free, hnext.cleared⟩
  | taken i pid hnone hpc hp => exact h.goto _ (by simp [hpc]) (by simp) (by simp)
  | free i hnone hpc hp =>
    refine h.goto _ (by simp [hpc]) (by simp) ?_
    intro j hj
    cases hj
    exact hp
  | spawnEnd i hnone hpc hi => exact h.goto _ (by simp [hpc]) (by simp) (by simp)
  | fork i pid hnone hpc hpos hpid => exact h.fork hnone hpc
  | forkFailed i hnone hpc hF => exact h.goto _ (by simp [hpc]) (by simp) (by simp)
  | setPid i pid hnone hpc => exact h.setPid hpc
  | scanWrite hnone hpc => exact h.goto _ (by simp [hpc]) (by simp) (by simp)
  | iterate hnone hpc => exact h.goto _ (by simp [hpc]) (by simp) (by simp)

end KnownInv

/-! ## The signals -/

/-- Each worker in the table has been sent the signal. -/
def Told (signo : Signal) (x : Master) : Prop := ∀ pid, some pid ∈ x.worker → (signo, pid) ∈ x.sent

/-- A stopping master stays settled; the loop of `send_signal_to_workers` has told the workers it has
passed, and when it is over, all; and `all_workers_exit` is set with an empty table. -/
structure StopInv (x : Master) : Prop where
  settled : x.stopping = true → Settled x
  sending : ∀ signo i, x.pc = .sendSignal signo i → x.stopping = true ∧
    ∀ j < i, ∀ pid, x.worker[j]? = some (some pid) → (signo, pid) ∈ x.sent
  sent : ∀ signo, x.pc = .setSent signo → x.stopping = true ∧ Told signo x
  stopped : x.shallStop = 2 → Told .shutdown x
  exited : x.shallExit = 2 → Told .terminate x
  allExit : x.allWorkersExit = true → x.stopping = true ∧ ∀ p ∈ x.worker, p = none
  ended : x.pc = .exited → x.allWorkersExit = true

namespace StopInv

theorem goto (h : StopInv x) (pc : MasterPc) (hsettled : x.stopping = true → pc.spawning = false)
    (hsending : ∀ signo i, pc ≠ .sendSignal signo i) (hsent : ∀ signo, pc ≠ .setSent signo)
    (hended : pc = .exited → x.allWorkersExit = true) : StopInv (x.goto pc) where
  settled hstop := ⟨(h.settled hstop).1, hsettled hstop⟩
  sending signo i hpc := absurd hpc (hsending signo i)
  sent signo hpc := absurd hpc (hsent signo)
  stopped := h.stopped
  exited := h.exited
  allExit := h.allExit
  ended := hended

theorem handlerTo (h : StopInv x) (handler : Option HandlerPc) : StopInv (x.handlerTo handler) :=
  ⟨h.settled, h.sending, h.sent, h.stopped, h.exited, h.allExit, h.ended⟩

theorem told_clear {signo : Signal} (h : Told signo x) (pid : ℕ) : Told signo (x.clearWorkers pid) := by
  intro q hq
  obtain ⟨p, hp, hpq⟩ := List.mem_map.mp hq
  split_ifs at hpq
  subst hpq
  exact h q hp

theorem clearWorkers (h : StopInv x) (pid : ℕ) : StopInv (x.clearWorkers pid) where
  settled := h.settled
  sending signo i hpc := by
    obtain ⟨hstop, htold⟩ := h.sending signo i hpc
    refine ⟨hstop, fun j hj q hq => htold j hj q ?_⟩
    change (x.worker.map _)[j]? = _ at hq
    rw [List.getElem?_map] at hq
    obtain ⟨p, hp, hpq⟩ := Option.map_eq_some_iff.mp hq
    split_ifs at hpq
    rw [hp, hpq]
  sent signo hpc := ⟨(h.sent signo hpc).1, told_clear (h.sent signo hpc).2 pid⟩
  stopped hstop := told_clear (h.stopped hstop) pid
  exited hexit := told_clear (h.exited hexit) pid
  allExit hall := by
    obtain ⟨hstop, hnone⟩ := h.allExit hall
    refine ⟨hstop, fun p hp => ?_⟩
    obtain ⟨q, hq, rfl⟩ := List.mem_map.mp hp
    rw [hnone q hq]
    rfl
  ended := h.ended

theorem raiseCreate (h : StopInv x) : StopInv x.raiseCreate := by
  unfold Master.raiseCreate
  split_ifs with hstop
  · exact h
  · have hidle : x.stopping = false := Bool.eq_false_iff.mpr hstop
    refine ⟨fun hstop' => absurd hstop' hstop, ?_, ?_, h.stopped, h.exited, h.allExit, h.ended⟩
    · intro signo i hpc
      exact absurd (h.sending signo i hpc).1 hstop
    · intro signo hpc
      exact absurd (h.sent signo hpc).1 hstop

theorem raiseAllExit (h : StopInv x) : StopInv x.raiseAllExit := by
  unfold Master.raiseAllExit
  split_ifs with hlast
  · rw [Bool.and_eq_true] at hlast
    refine ⟨h.settled, h.sending, h.sent, h.stopped, h.exited, fun _ => ⟨hlast.2, ?_⟩, fun _ => rfl⟩
    intro p hp
    simpa using List.all_eq_true.mp hlast.1 p hp
  · exact h

theorem sigStop (h : StopInv x) (hsettled : x.stopping = false → Settled x) :
    StopInv { x with shallStop := 1 } := by
  have hstopping : Master.stopping { x with shallStop := 1 } = true := rfl
  refine ⟨fun _ => ?_, ?_, ?_, nofun, h.exited, ?_, h.ended⟩
  · cases hstop : x.stopping with
    | false => exact hsettled hstop
    | true => exact h.settled hstop
  · intro signo i hpc
    exact ⟨hstopping, (h.sending signo i hpc).2⟩
  · intro signo hpc
    exact ⟨hstopping, (h.sent signo hpc).2⟩
  · intro hall
    exact ⟨hstopping, (h.allExit hall).2⟩

theorem sigExit (h : StopInv x) (hsettled : x.stopping = false → Settled x) :
    StopInv { x with shallExit := 1 } := by
  have hstopping : Master.stopping { x with shallExit := 1 } = true := by simp [Master.stopping]
  refine ⟨fun _ => ?_, ?_, ?_, h.stopped, nofun, ?_, h.ended⟩
  · cases hstop : x.stopping with
    | false => exact hsettled hstop
    | true => exact h.settled hstop
  · intro signo i hpc
    exact ⟨hstopping, (h.sending signo i hpc).2⟩
  · intro signo hpc
    exact ⟨hstopping, (h.sent signo hpc).2⟩
  · intro hall
    exact ⟨hstopping, (h.allExit hall).2⟩

theorem sendSignal (h : StopInv x) {signo : Signal} {i : ℕ} {p : Option ℕ}
    (hpc : x.pc = .sendSignal signo i) (hp : x.worker[i]? = some p) :
    StopInv ((x.sendSignal signo p).goto (.sendSignal signo (i + 1))) := by
  obtain ⟨hstop, htold⟩ := h.sending signo i hpc
  have hworker : (x.sendSignal signo p).worker = x.worker := by cases p <;> rfl
  have hstopping : (x.sendSignal signo p).stopping = x.stopping := by cases p <;> rfl
  have hsub : ∀ e ∈ x.sent, e ∈ (x.sendSignal signo p).sent := by
    intro e he
    cases p with
    | none => exact he
    | some pid => exact List.mem_append_left _ he
  have hkeep : ∀ s, Told s x → Told s (x.sendSignal signo p) := by
    intro s hs pid hpid
    exact hsub _ (hs pid (hworker ▸ hpid))
  refine ⟨fun _ => ?_, ?_, nofun, ?_, ?_, ?_, nofun⟩
  · have hsettled := h.settled hstop
    cases p <;> exact ⟨hsettled.1, rfl⟩
  · intro s j hj
    cases hj
    refine ⟨hstopping.trans hstop, fun k hk pid hpid => ?_⟩
    change (x.sendSignal signo p).worker[k]? = _ at hpid
    change _ ∈ (x.sendSignal signo p).sent
    rw [hworker] at hpid
    rcases Nat.lt_succ_iff_lt_or_eq.mp hk with hk | rfl
    · exact hsub _ (htold k hk pid hpid)
    · obtain rfl : p = some pid := Option.some.inj (hp.symm.trans hpid)
      exact List.mem_append_right _ (List.mem_singleton.mpr rfl)
  · intro hstop2
    refine hkeep _ (h.stopped ?_)
    cases p <;> exact hstop2
  · intro hexit2
    refine hkeep _ (h.exited ?_)
    cases p <;> exact hexit2
  · intro hall
    have hall' : x.allWorkersExit = true := by cases p <;> exact hall
    refine ⟨hstopping.trans hstop, fun q hq => (h.allExit hall').2 q ?_⟩
    exact hworker ▸ hq

theorem sendEnd (h : StopInv x) {signo : Signal} {i : ℕ} (hpc : x.pc = .sendSignal signo i)
    (hi : x.worker.length ≤ i) : StopInv (x.goto (.setSent signo)) := by
  obtain ⟨hstop, htold⟩ := h.sending signo i hpc
  refine ⟨fun _ => ⟨(h.settled hstop).1, rfl⟩, nofun, ?_, h.stopped, h.exited, h.allExit, nofun⟩
  intro s hs
  cases hs
  refine ⟨hstop, fun pid hpid => ?_⟩
  obtain ⟨j, hj⟩ := List.mem_iff_getElem?.mp hpid
  exact htold j (lt_of_lt_of_le (List.getElem?_eq_some_iff.mp hj).1 hi) pid hj

theorem setSent (h : StopInv x) {signo : Signal} (hpc : x.pc = .setSent signo) :
    StopInv (x.setSent signo) := by
  obtain ⟨hstop, htold⟩ := h.sent signo hpc
  have hcreate := (h.settled hstop).1
  cases signo with
  | shutdown =>
    exact
      { settled := fun _ => ⟨hcreate, rfl⟩
        sending := fun _ _ hpc => by cases hpc
        sent := fun _ hpc => by cases hpc
        stopped := fun _ => htold
        exited := h.exited
        allExit := fun hall => ⟨rfl, (h.allExit hall).2⟩
        ended := fun hpc => by cases hpc }
  | terminate =>
    have hstopping : (x.setSent .terminate).stopping = true := by simp [Master.setSent, Master.stopping]
    exact
      { settled := fun _ => ⟨hcreate, rfl⟩
        sending := fun _ _ hpc => by cases hpc
        sent := fun _ hpc => by cases hpc
        stopped := h.stopped
        exited := fun _ => htold
        allExit := fun hall => ⟨hstopping, (h.allExit hall).2⟩
        ended := fun hpc => by cases hpc }

theorem not_stopping (h : StopInv x) (hspawning : x.pc.spawning = true) : x.stopping ≠ true := by
  intro hstop
  have hidle := (h.settled hstop).2
  rw [hspawning] at hidle
  cases hidle

theorem spawn (h : StopInv x) (hspawning : x.pc.spawning = true) (y : Master)
    (hstop : y.stopping = x.stopping) (hshallStop : y.shallStop = x.shallStop)
    (hshallExit : y.shallExit = x.shallExit) (hall : y.allWorkersExit = x.allWorkersExit)
    (hsending : ∀ signo i, y.pc ≠ .sendSignal signo i) (hsent : ∀ signo, y.pc ≠ .setSent signo)
    (hended : y.pc ≠ .exited) : StopInv y := by
  have hidle := h.not_stopping hspawning
  have hzero : x.shallStop = 0 ∧ x.shallExit = 0 := by
    simpa [Master.stopping] using hidle
  refine ⟨fun hy => absurd (hstop ▸ hy) hidle, fun s i hpc => absurd hpc (hsending s i),
    fun s hpc => absurd hpc (hsent s), ?_, ?_, ?_, fun hpc => absurd hpc hended⟩
  · rw [hshallStop, hzero.1]
    exact nofun
  · rw [hshallExit, hzero.2]
    exact nofun
  · intro hy
    exact absurd (h.allExit (hall ▸ hy)).1 hidle

theorem step (h : StopInv x) (hstep : SettledStep F x y) : StopInv y := by
  obtain ⟨hstep, hsettled⟩ := hstep
  cases hstep with
  | sigStop halive => exact h.sigStop fun hidle => hsettled hidle rfl
  | sigExit halive => exact h.sigExit fun hidle => hsettled hidle (by simp [Master.stopping])
  | childExit pid hpid =>
    exact ⟨h.settled, h.sending, h.sent, h.stopped, h.exited, h.allExit, h.ended⟩
  | sigChld halive hnone => exact h.handlerTo _
  | reap pid hpc hpid hR =>
    have hnext := h.handlerTo (some (.clearWorkers pid))
    exact ⟨hnext.settled, hnext.sending, hnext.sent, hnext.stopped, hnext.exited, hnext.allExit,
      hnext.ended⟩
  | noZombie hpc hnone => exact h.handlerTo _
  | clearWorkers pid hpc => exact (h.clearWorkers pid).handlerTo _
  | raiseCreate hpc => exact h.raiseCreate.handlerTo _
  | raiseAllExit hpc => exact h.raiseAllExit.handlerTo _
  | testStop hnone hpc =>
    split_ifs with hflag
    · have hstop : x.stopping = true := by simp [Master.stopping, hflag]
      refine ⟨fun _ => ⟨(h.settled hstop).1, rfl⟩, ?_, nofun, h.stopped, h.exited, h.allExit, nofun⟩
      intro s i hi
      cases hi
      exact ⟨hstop, fun j hj => absurd hj (Nat.not_lt_zero j)⟩
    · exact h.goto _ (fun _ => rfl) nofun nofun nofun
  | testExit hnone hpc =>
    split_ifs with hflag
    · have hstop : x.stopping = true := by simp [Master.stopping, hflag]
      refine ⟨fun _ => ⟨(h.settled hstop).1, rfl⟩, ?_, nofun, h.stopped, h.exited, h.allExit, nofun⟩
      intro s i hi
      cases hi
      exact ⟨hstop, fun j hj => absurd hj (Nat.not_lt_zero j)⟩
    · exact h.goto _ (fun _ => rfl) nofun nofun nofun
  | sendSignal signo i p hnone hpc hp => exact h.sendSignal hpc hp
  | sendEnd signo i hnone hpc hi => exact h.sendEnd hpc hi
  | setSent signo hnone hpc => exact h.setSent hpc
  | testAllExit hnone hpc =>
    split_ifs with hall
    · exact h.goto _ (fun _ => rfl) nofun nofun fun _ => hall
    · exact h.goto _ (fun _ => rfl) nofun nofun nofun
  | testCreate hnone hpc =>
    split_ifs with hcreate
    · refine h.goto _ (fun hstop => ?_) nofun nofun nofun
      have hnot := (h.settled hstop).1
      rw [hcreate] at hnot
      cases hnot
    · exact h.goto _ (fun _ => rfl) nofun nofun nofun
  | clearCreate hnone hpc => exact h.spawn (by rw [hpc]; rfl) _ rfl rfl rfl rfl nofun nofun nofun
  | taken i pid hnone hpc hp => exact h.spawn (by rw [hpc]; rfl) _ rfl rfl rfl rfl nofun nofun nofun
  | free i hnone hpc hp => exact h.spawn (by rw [hpc]; rfl) _ rfl rfl rfl rfl nofun nofun nofun
  | spawnEnd i hnone hpc hi => exact h.spawn (by rw [hpc]; rfl) _ rfl rfl rfl rfl nofun nofun nofun
  | fork i pid hnone hpc hpos hpid =>
    exact h.spawn (by rw [hpc]; rfl) _ rfl rfl rfl rfl nofun nofun nofun
  | forkFailed i hnone hpc hF => exact h.spawn (by rw [hpc]; rfl) _ rfl rfl rfl rfl nofun nofun nofun
  | setPid i pid hnone hpc => exact h.spawn (by rw [hpc]; rfl) _ rfl rfl rfl rfl nofun nofun nofun
  | scanWrite hnone hpc => exact h.goto _ (fun _ => rfl) nofun nofun nofun
  | iterate hnone hpc => exact h.goto _ (fun _ => rfl) nofun nofun nofun

end StopInv

/-! ## Runs -/

/-- A signal to stop that arrives before the spawn loop of the same iteration: the worker that is
forked there is not told. -/
theorem stop_misses_spawned : ∃ x : Master, ReflTransGen AnyStep (masterInit 1) x ∧
    x.shallStop = 2 ∧ x.pc = .iterationEnd ∧ x.worker = [some 1] ∧ x.children = {1} ∧ x.sent = [] := by
  have h₁ : AnyStep (masterInit 1) _ := .sigStop _ nofun
  have h₂ := (ReflTransGen.single h₁).tail (.testStop _ rfl rfl)
  have h₃ := h₂.tail (.sendSignal _ .shutdown 0 none rfl rfl rfl)
  have h₄ := (h₃.tail (.sendEnd _ .shutdown 1 rfl rfl (by decide))).tail (.setSent _ .shutdown rfl rfl)
  have h₅ := (h₄.tail (.testExit _ rfl rfl)).tail (.testAllExit _ rfl rfl)
  have h₆ := (h₅.tail (.testCreate _ rfl rfl)).tail (.clearCreate _ rfl rfl)
  have h₇ := (h₆.tail (.free _ 0 rfl rfl rfl)).tail
    (.fork _ 0 1 rfl rfl (by decide) (by decide))
  have h₈ := (h₇.tail (.setPid _ 0 1 rfl rfl)).tail (.spawnEnd _ 1 rfl rfl (by decide))
  exact ⟨_, h₈.tail (.scanWrite _ rfl rfl), rfl, rfl, by decide, by decide, rfl⟩

end Cserv.Process
