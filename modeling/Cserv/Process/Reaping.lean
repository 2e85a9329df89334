import Cserv.Process.Master

/-!
# Worker slots and reaped children

`fork_worker` records the pid of a child after `fork` has returned it, and the handler of
`SIGCHLD` looks for the pid of a reaped child in the table. The table names no reaped child,
if the handler does not reap a child before its pid is recorded.
-/
namespace Cserv.Process

open Foundations Relation

variable {F : Master → Prop} {x y : Master}

/-- `waitpid` does not return a child whose pid the master has yet to record. -/
def Recorded (x : Master) (pid : ℕ) : Prop := ∀ i, x.pc ≠ .setPid i pid

/-- Outside the handler, and not between a `fork` and its assignment, the slots name children that
were not reaped. -/
def SlotsUnreaped (x : Master) : Prop :=
  x.handler = none → (∀ i pid, x.pc ≠ .setPid i pid) → ∀ pid, some pid ∈ x.worker →
    pid ∈ x.children

/-- The invariant of a master whose children are reaped after they were recorded. A reaped child is
in the table only until the handler clears it. -/
structure ReapInv (x : Master) : Prop where
  zombies : x.zombies ⊆ x.children
  worker : ∀ pid, some pid ∈ x.worker →
    pid ∈ x.children ∨ x.handler = some (.clearWorkers pid)
  forked : ∀ i pid, x.pc = .setPid i pid → pid ∈ x.children
  slot : ∀ i, x.pc = .fork i ∨ (∃ pid, x.pc = .setPid i pid) → i < x.worker.length

namespace ReapInv

theorem goto (h : ReapInv x) (pc : MasterPc) (hset : ∀ i pid, pc ≠ .setPid i pid)
    (hslot : ∀ i, pc = .fork i → i < x.worker.length) : ReapInv (x.goto pc) where
  zombies := h.zombies
  worker := h.worker
  forked i pid hpc := absurd hpc (hset i pid)
  slot i hpc := by
    rcases hpc with hpc | ⟨pid, hpc⟩
    · exact hslot i hpc
    · exact absurd hpc (hset i pid)

theorem handlerTo (h : ReapInv x) (handler : Option HandlerPc)
    (hpc : ∀ pid, x.handler ≠ some (.clearWorkers pid)) : ReapInv (x.handlerTo handler) where
  zombies := h.zombies
  worker pid hpid := Or.inl ((h.worker pid hpid).resolve_right (hpc pid))
  forked := h.forked
  slot := h.slot

theorem reap (h : ReapInv x) {pid : ℕ} (hpc : x.handler = some .waitpid)
    (hrecorded : Recorded x pid) :
    ReapInv { x.handlerTo (some (.clearWorkers pid)) with
      children := x.children.erase pid
      zombies := x.zombies.erase pid } where
  zombies := Finset.erase_subset_erase pid h.zombies
  worker q hq := by
    have hchild : q ∈ x.children := (h.worker q hq).resolve_right (by simp [hpc])
    by_cases hqp : q = pid
    · exact Or.inr (by rw [hqp]; rfl)
    · exact Or.inl (Finset.mem_erase.mpr ⟨hqp, hchild⟩)
  forked i q hq := by
    refine Finset.mem_erase.mpr ⟨?_, h.forked i q hq⟩
    intro hqp
    exact hrecorded i (hqp ▸ hq)
  slot := h.slot

theorem clearWorkers (h : ReapInv x) {pid : ℕ} (hpc : x.handler = some (.clearWorkers pid)) :
    ReapInv ((x.clearWorkers pid).handlerTo (some .raiseCreate)) where
  zombies := h.zombies
  worker q hq := by
    obtain ⟨p, hp, hpq⟩ := List.mem_map.mp hq
    split_ifs at hpq with hclear
    subst hpq
    rcases h.worker q hp with hchild | hreaped
    · exact Or.inl hchild
    · rw [hpc] at hreaped
      cases hreaped
      exact absurd rfl hclear
  forked := h.forked
  slot i hi := by
    have hlength : ((x.clearWorkers pid).handlerTo (some .raiseCreate)).worker.length =
        x.worker.length := List.length_map ..
    rw [hlength]
    exact h.slot i hi

theorem fork (h : ReapInv x) {i pid : ℕ} (hpc : x.pc = .fork i) :
    ReapInv { x.goto (.setPid i pid) with children := insert pid x.children } where
  zombies := h.zombies.trans (Finset.subset_insert ..)
  worker q hq := (h.worker q hq).imp_left fun hchild => Finset.mem_insert_of_mem hchild
  forked j q hq := by
    cases hq
    exact Finset.mem_insert_self ..
  slot j hj := by
    rcases hj with hj | ⟨q, hj⟩
    · cases hj
    · cases hj
      exact h.slot i (Or.inl hpc)

theorem setPid (h : ReapInv x) {i pid : ℕ} (hpc : x.pc = .setPid i pid) :
    ReapInv { x.goto (.testWorker (i + 1)) with worker := x.worker.set i (some pid) } where
  zombies := h.zombies
  worker q hq := by
    rcases List.mem_or_eq_of_mem_set hq with hq | hq
    · exact h.worker q hq
    · cases hq
      exact Or.inl (h.forked i pid hpc)
  forked j q hq := by cases hq
  slot j hj := by
    rcases hj with hj | ⟨q, hj⟩ <;> cases hj

theorem step (h : ReapInv x) (hstep : MasterStep Recorded F x y) : ReapInv y := by
  cases hstep with
  | sigStop | sigExit => exact ⟨h.zombies, h.worker, h.forked, h.slot⟩
  | childExit pid hpid =>
    exact ⟨Finset.insert_subset hpid h.zombies, h.worker, h.forked, h.slot⟩
  | sigChld halive hnone => exact h.handlerTo _ (by simp [hnone])
  | reap pid hpc hpid hR => exact h.reap hpc hR
  | noZombie hpc hnone => exact h.handlerTo _ (by simp [hpc])
  | clearWorkers pid hpc => exact h.clearWorkers hpc
  | raiseCreate hpc =>
    rw [Master.raiseCreate_eq]
    have hnext := h.handlerTo (some .raiseAllExit) (by simp [hpc])
    exact ⟨hnext.zombies, hnext.worker, hnext.forked, hnext.slot⟩
  | raiseAllExit hpc =>
    rw [Master.raiseAllExit_eq]
    have hnext := h.handlerTo (some .waitpid) (by simp [hpc])
    exact ⟨hnext.zombies, hnext.worker, hnext.forked, hnext.slot⟩
  | testStop hnone hpc => exact h.goto _ (by split_ifs <;> simp) (by split_ifs <;> simp)
  | testExit hnone hpc => exact h.goto _ (by split_ifs <;> simp) (by split_ifs <;> simp)
  | sendSignal signo i p hnone hpc hp =>
    have hnext := h.goto (.sendSignal signo (i + 1)) (by simp) (by simp)
    cases p with
    | none => exact hnext
    | some pid => exact ⟨hnext.zombies, hnext.worker, hnext.forked, hnext.slot⟩
  | sendEnd signo i hnone hpc hi => exact h.goto _ (by simp) (by simp)
  | setSent signo hnone hpc =>
    cases signo with
    | shutdown =>
      have hnext := h.goto .testExit (by simp) (by simp)
      exact ⟨hnext.zombies, hnext.worker, hnext.forked, hnext.slot⟩
    | terminate =>
      have hnext := h.goto .testAllExit (by simp) (by simp)
      exact ⟨hnext.zombies, hnext.worker, hnext.forked, hnext.slot⟩
  | testAllExit hnone hpc => exact h.goto _ (by split_ifs <;> simp) (by split_ifs <;> simp)
  | testCreate hnone hpc => exact h.goto _ (by split_ifs <;> simp) (by split_ifs <;> simp)
  | clearCreate hnone hpc =>
    have hnext := h.goto (.testWorker 0) (by simp) (by simp)
    exact ⟨hnext.zombies, hnext.worker, hnext.forked, hnext.slot⟩
  | taken i pid hnone hpc hp => exact h.goto _ (by simp) (by simp)
  | free i hnone hpc hp =>
    apply h.goto _ (by simp)
    intro j hj
    cases hj
    exact (List.getElem?_eq_some_iff.mp hp).1
  | spawnEnd i hnone hpc hi => exact h.goto _ (by simp) (by simp)
  | fork i pid hnone hpc hpos hpid => exact h.fork hpc
  | forkFailed i hnone hpc hF => exact h.goto _ (by simp) (by simp)
  | setPid i pid hnone hpc => exact h.setPid hpc
  | scanWrite hnone hpc => exact h.goto _ (by simp) (by simp)
  | iterate hnone hpc => exact h.goto _ (by simp) (by simp)

end ReapInv

theorem masterInit_reapInv (n : ℕ) : ReapInv (masterInit n) where
  zombies := subset_rfl
  worker pid hpid := by
    have hnone := List.eq_of_mem_replicate hpid
    cases hnone
  forked := nofun
  slot i hi := by
    rcases hi with hi | ⟨pid, hi⟩ <;> cases hi

theorem run_reapInv {n : ℕ} (hrun : ReflTransGen (MasterStep Recorded F) (masterInit n) x) :
    ReapInv x :=
  run_invariant ReapInv (fun _ _ => ReapInv.step) (masterInit_reapInv n) hrun

/-- The master signals children that were not reaped, and no other process. -/
theorem signalled_unreaped {n : ℕ} (hrun : ReflTransGen (MasterStep Recorded F) (masterInit n) x)
    (hstep : MasterStep Recorded F x y) {signo : Signal} {pid : ℕ}
    (hsent : y.sent = x.sent ++ [(signo, pid)]) : pid ∈ x.children := by
  have hinv := run_reapInv hrun
  cases hstep with
  | sendSignal s i p hnone hpc hp =>
    cases p with
    | none => simp [Master.sendSignal, Master.goto] at hsent
    | some q =>
      simp only [Master.sendSignal, Master.goto, List.append_cancel_left_eq, List.cons.injEq,
        Prod.mk.injEq, and_true] at hsent
      rw [← hsent.2]
      exact (hinv.worker q (List.mem_of_getElem? hp)).resolve_right (by simp [hnone])
  | raiseCreate => simp [Master.raiseCreate_eq, Master.handlerTo] at hsent
  | raiseAllExit => simp [Master.raiseAllExit_eq, Master.handlerTo] at hsent
  | setSent s => cases s <;> simp [Master.setSent] at hsent
  | _ => simp [Master.goto, Master.handlerTo, Master.clearWorkers] at hsent

/-- In every run in which no child is reaped before its pid is recorded, the slots name children
that were not reaped. Whenever a child could be reaped before, its slot can keep the pid. -/
theorem slots_unreaped (n : ℕ) (x : Master)
    (hrun : ReflTransGen (MasterStep Recorded fun _ => True) (masterInit n) x) :
    SlotsUnreaped x ∧
      ∀ pid, x.handler = some .waitpid → pid ∈ x.zombies → ¬ Recorded x pid →
        ∃ y, ReflTransGen AnyStep x y ∧ ¬ SlotsUnreaped y := by
  have hinv := run_reapInv hrun
  constructor
  · intro hnone _ pid hpid
    exact (hinv.worker pid hpid).resolve_right (by simp [hnone])
  · intro pid hwait hzombie hrecorded
    unfold Recorded at hrecorded
    push Not at hrecorded
    obtain ⟨i, hpc⟩ := hrecorded
    -- the handler reaps the child and ends, and then the master records the pid
    obtain ⟨y, hround, hywait, hypc, hylength, hychildren, -⟩ := handler_round x hwait hzombie
    obtain ⟨z, hends, hznone, hzpc, hzlength, hzchildren⟩ := handler_ends y hywait
    have hset : AnyStep z _ := .setPid z i pid hznone (by rw [hzpc, hypc, hpc])
    refine ⟨_, (hround.trans hends).tail hset, ?_⟩
    intro hslots
    have hi : i < z.worker.length := by
      rw [hzlength, hylength]
      exact hinv.slot i (Or.inr ⟨pid, hpc⟩)
    have hchild := hslots hznone nofun pid (List.mem_set hi _)
    have hreaped := hzchildren hchild
    rw [hychildren] at hreaped
    exact absurd rfl (Finset.mem_erase.mp hreaped).1

/-- The run of a master that has forked and recorded its only worker. -/
theorem slots_unreaped_one : ∃ x : Master, some 1 ∈ x.worker ∧ x.children = {1} ∧
    SlotsUnreaped x := by
  have h₁ := (first_spawn Recorded (fun _ => True) 1).tail (.free _ 0 rfl rfl rfl)
  have h₂ := h₁.tail (.fork _ 0 1 rfl rfl (by decide) (by decide))
  have h₃ := h₂.tail (.setPid _ 0 1 rfl rfl)
  exact ⟨_, by decide, by decide, (slots_unreaped 1 _ h₃).1⟩

/-- The child exits right after its `fork`, and is reaped before its pid is recorded. -/
theorem reaped_before_recorded : ∃ x : Master,
    ReflTransGen AnyStep (masterInit 1) x ∧ x.handler = none ∧ x.pc = .testWorker 1 ∧
      x.worker = [some 1] ∧ x.children = ∅ := by
  have h₁ := (first_spawn (fun _ _ => True) (fun _ => True) 1).tail (.free _ 0 rfl rfl rfl)
  have h₂ := h₁.tail (.fork _ 0 1 rfl rfl (by decide) (by decide))
  have h₃ := (h₂.tail (.childExit _ 1 (by decide))).tail (.sigChld _ nofun rfl)
  have h₄ := (h₃.tail (.reap _ 1 rfl (by decide) trivial)).tail (.clearWorkers _ 1 rfl)
  have h₅ := (h₄.tail (.raiseCreate _ rfl)).tail (.raiseAllExit _ rfl)
  have h₆ := (h₅.tail (.noZombie _ rfl (by decide))).tail (.setPid _ 0 1 rfl rfl)
  exact ⟨_, h₆, rfl, rfl, by decide, by decide⟩

end Cserv.Process
