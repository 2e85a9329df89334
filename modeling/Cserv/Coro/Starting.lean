import Cserv.Coro.Running

/-!
# The start of a coroutine

From `dispatch_coro` to the first switch to it, a coroutine is active and nobody touches its stack.
The switch then goes to `coro_routine_entry`, which calls `coro_routine_proxy` for this coroutine.
-/
namespace Cserv.Coro

open Foundations WordMemory Relation

variable {T : Target} {N : ℕ} {L : Layout (Fin (N + 1))} {entry proxy : Word64} {coroAddr : ℕ → Word64}
  {W : Work (Fin (N + 1))} {x y : Run} {c c' : Machine T (Fin (N + 1))} {id d : ℕ}

/-- No thread writes to the stack of another. -/
def PrivateStacks {ι : Type} (L : Layout ι) (W : Work ι) : Prop :=
  ∀ i v v', W i v v' → ∀ j, j ≠ i → ∀ b, (L.stack j).Within b → v'.mem b = v.mem b

/-- The thread has a new stack: it will go on in `coro_routine_entry` and finds the argument and the
routine there. -/
structure Fresh {ι : Type} (L : Layout ι) (entry routine args : Word64) (j : ι) (a : Threads ι) :
    Prop where
  regs : ∃ saved, a.regs j = some ⟨saved, (L.stack j).ptr - 16, entry⟩
  args : a.mem ((L.stack j).ptr - 16) = some args
  routine : a.mem ((L.stack j).ptr - 8) = some routine

theorem within_top {ι : Type} (L : Layout ι) (j : ι) :
    (L.stack j).Within ((L.stack j).ptr - 16) ∧ (L.stack j).Within ((L.stack j).ptr - 8) := by
  have hsize := L.size_le j
  unfold CoroStack.Within CoroStack.offset
  constructor <;> bv_omega

theorem Fresh.congr {ι : Type} {L : Layout ι} {routine args : Word64} {j : ι} {a a' : Threads ι}
    (h : Fresh L entry routine args j a) (hregs : a'.regs j = a.regs j)
    (hmem : ∀ b, (L.stack j).Within b → a'.mem b = a.mem b) : Fresh L entry routine args j a' where
  regs := by
    obtain ⟨saved, hr⟩ := h.regs
    exact ⟨saved, hregs.trans hr⟩
  args := (hmem _ (within_top L j).1).trans h.args
  routine := (hmem _ (within_top L j).2).trans h.routine

/-! ## The scheduler -/

/-- An active coroutine stays active until the scheduler switches to it. -/
theorem clockStep_active {P : Run → ℤ → Prop} (hstep : ClockStep P x y) (hd : d ∈ x.sched.active) :
    d ∈ y.sched.active ∨ y.sched.current = some d := by
  cases hstep with
  | timeout s S L id now milliseconds alloc => exact Or.inl hd
  | step _ _ hinner =>
    cases hinner with
    | dispatch s S L mem =>
      refine Or.inl ?_
      dsimp only at hd ⊢
      unfold Sched.dispatchCoro Sched.getCoroutine Sched.createCoroutine
      cases s.idle with
      | cons => exact List.mem_append_left _ hd
      | nil =>
        split_ifs
        · exact hd
        · exact hd
        · exact List.mem_append_left _ hd
    | timeout s S L id now milliseconds alloc => exact Or.inl hd
    | timeoutFailed s S L id now milliseconds => exact Or.inl hd
    | wakeup s S L id => exact Or.inl (List.mem_append_left _ hd)
    | wakeupPriority s S L id => exact Or.inl (List.mem_cons_of_mem _ hd)
    | check s S L now =>
      obtain ⟨expired, inactive, heq, -⟩ := s.checkTimeoutCoroutine_spec now
      refine Or.inl ?_
      dsimp only at hd ⊢
      rw [heq]
      exact List.mem_append_left _ hd
    | isWakeup s S L id => exact Or.inl hd
    | finish s S L id hcurrent => exact Or.inl hd
    | resume s S L hcurrent =>
      dsimp only at hd ⊢
      unfold Sched.runNextActive
      cases hactive : s.active with
      | nil => rw [hactive] at hd; cases hd
      | cons e rest =>
        rw [hactive] at hd
        rcases List.mem_cons.mp hd with rfl | hd
        · exact Or.inr rfl
        · exact Or.inl hd

theorem dispatch_active {s s' : Sched} {mem : Bool} (hget : s.getCoroutine mem = some (id, s')) :
    id ∈ (s.dispatchCoro mem).2.active := by
  simp [Sched.dispatchCoro, hget]

theorem RunInv.dispatch_other (h : RunInv x) {mem : Bool} {s' : Sched}
    (hget : x.sched.getCoroutine mem = some (id, s')) (hd : d ∈ x.sched.active) : d ≠ id := by
  obtain ⟨hrange, hidle⟩ := h.busy_active hd
  rintro rfl
  obtain ⟨hin, -⟩ | ⟨hnew, -, -⟩ := getCoroutine_cases hget
  · exact hidle hin
  · have hnext := h.next
    rw [List.mem_range'_1] at hrange
    omega

/-! ## The processor -/

/-- A step of the others leaves the stack of a new coroutine alone. -/
theorem runningStep_fresh {p q : Run × Machine T (Fin (N + 1))} (h : RunningInv L p.1 p.2)
    (hW : PrivateStacks L W) (hstep : RunningStep T L entry proxy coroAddr W p q)
    (hd : d ∈ p.1.sched.active) (hcurrent : p.1.sched.current ≠ some d)
    (hfresh : Fresh L entry proxy (coroAddr d) (thread N (some d)) (p.2.threads L)) :
    Fresh L entry proxy (coroAddr d) (thread N (some d)) (q.2.threads L) := by
  have hup : UpTo N (some d) := h.upTo_range (h.run.busy_active hd).1
  have hother : thread N (some d) ≠ p.2.current := by
    intro heq
    exact hcurrent (thread_inj hup h.upTo_current (heq.trans h.current)).symm
  cases hstep with
  | work x c s hworks =>
    refine hfresh.congr ?_ fun b hb => hW _ _ _ hworks.work _ hother b hb
    have hregs := work_regs h.machine hworks
    exact (congrFun hregs _).trans (Function.update_of_ne hother ..)
  | quiet x y c => exact hfresh
  | dispatch x y c id s hdispatch =>
    obtain ⟨mem, s', hget, -⟩ := hdispatch.got
    obtain ⟨hid, -, -⟩ := h.dispatch_ne hget
    have hne : thread N (some d) ≠ thread N (some id) := by
      intro heq
      exact h.run.dispatch_other hget hd (Option.some.inj (thread_inj hup hid heq))
    obtain ⟨saved, hstarted⟩ := h.machine.started _ hdispatch.init
    rw [start_threads h.machine (h.dispatch_thread hdispatch) hdispatch.regs hdispatch.shared hstarted]
    refine hfresh.congr (Function.update_of_ne hne ..) fun b hb => ?_
    exact if_neg fun hb' => hne (L.disjoint _ _ b hb hb')
  | switch x y c ret s hstep hne hroom hswitch =>
    obtain ⟨hthread, hready⟩ := h.switch_ready hstep hne
    obtain ⟨r, hr, t, ht, hswitched⟩ := h.machine.switch_returns ret hthread hready hroom
    obtain rfl : t = s := Option.some.inj (ht.symm.trans hswitch)
    rw [switch_threads h.machine hthread hroom hr hswitched]
    exact hfresh.congr (Function.update_of_ne hother ..) fun b _ => rfl

/-- A step while the coroutine `d` does not run. -/
def Elsewhere (T : Target) (L : Layout (Fin (N + 1))) (entry proxy : Word64) (coroAddr : ℕ → Word64)
    (W : Work (Fin (N + 1))) (d : ℕ) (p q : Run × Machine T (Fin (N + 1))) : Prop :=
  RunningStep T L entry proxy coroAddr W p q ∧ p.1.sched.current ≠ some d

/-- What holds of a dispatched coroutine until it runs for the first time. -/
structure StartInv (L : Layout (Fin (N + 1))) (entry proxy : Word64) (coroAddr : ℕ → Word64) (d : ℕ)
    (p : Run × Machine T (Fin (N + 1))) : Prop where
  running : RunningInv L p.1 p.2
  active : d ∈ p.1.sched.active ∨ p.1.sched.current = some d
  fresh : Fresh L entry proxy (coroAddr d) (thread N (some d)) (p.2.threads L)

theorem elsewhere_inv {p q : Run × Machine T (Fin (N + 1))} (hW : PrivateStacks L W)
    (h : StartInv L entry proxy coroAddr d p) (hstep : Elsewhere T L entry proxy coroAddr W d p q) :
    StartInv L entry proxy coroAddr d q := by
  obtain ⟨hmove, hcurrent⟩ := hstep
  have hd := h.active.resolve_right hcurrent
  refine ⟨runningStep_inv h.running hmove, ?_, runningStep_fresh h.running hW hmove hd hcurrent h.fresh⟩
  cases hmove with
  | work x c s hworks => exact Or.inl hd
  | quiet x y c hstep => exact clockStep_active hstep hd
  | dispatch x y c id s hdispatch => exact clockStep_active hdispatch.step hd
  | switch x y c ret s hstep => exact clockStep_active hstep hd

theorem dispatch_startInv (h : RunningInv L x c) {s : T.State}
    (hdispatch : Dispatches L entry proxy coroAddr d x c y s) :
    StartInv L entry proxy coroAddr d
      (y, { c with state := s, ready := Function.update c.ready (thread N (some d)) true }) := by
  obtain ⟨mem, s', hget, hy⟩ := hdispatch.got
  obtain ⟨saved, hstarted⟩ := h.machine.started _ hdispatch.init
  have hthread := h.dispatch_thread hdispatch
  refine ⟨h.dispatch hdispatch (start_inv h.machine hdispatch.regs hstarted), ?_, ?_⟩
  · refine Or.inl ?_
    dsimp only
    rw [hy]
    exact dispatch_active hget
  · dsimp only
    rw [start_threads h.machine hthread hdispatch.regs hdispatch.shared hstarted]
    obtain ⟨hargs, hroutine⟩ := within_top L (thread N (some d))
    refine ⟨⟨saved, Function.update_self ..⟩, ?_, ?_⟩
    · exact (if_pos hargs).trans (if_pos rfl)
    · have hne : (L.stack (thread N (some d))).ptr - 8 ≠ (L.stack (thread N (some d))).ptr - 16 := by
        bv_omega
      exact (if_pos hroutine).trans ((if_neg hne).trans (if_pos rfl))

/-- The processor is at `coro_routine_entry` when the coroutine runs for the first time. -/
theorem StartInv.entry_returns {p : Run × Machine T (Fin (N + 1))}
    (h : StartInv L entry proxy coroAddr d p) (hcurrent : p.1.sched.current = some d) (next : Word64) :
    p.2.cpu.regs.pc = entry ∧ Returns (T.coroRoutineEntry next p.2.state) fun s =>
      T.argument s = coroAddr d ∧ (T.cpu s).regs.pc = proxy ∧ T.entryAligned (T.cpu s).regs.sp ∧
        (L.stack (thread N (some d))).Points (T.cpu s).regs.sp := by
  obtain ⟨⟨saved, hregs⟩, hargs, hroutine⟩ := h.fresh
  have hthread : p.2.current = thread N (some d) := by rw [h.running.current, hcurrent]
  have hcpu : p.2.cpu.regs = ⟨saved, (L.stack (thread N (some d))).ptr - 16, entry⟩ := by
    rw [← hthread] at hregs ⊢
    exact Option.some.inj (Machine.regs_current.symm.trans hregs)
  have hsp : (T.cpu p.2.state).regs.sp = (L.stack (thread N (some d))).ptr - 16 :=
    congrArg Regs.sp hcpu
  have hptr := L.ptr_aligned (thread N (some d))
  have hnext : (L.stack (thread N (some d))).ptr - 16 + 8 =
      (L.stack (thread N (some d))).ptr - 8 := by bv_omega
  have hargs' : (T.cpu p.2.state).mem.word (T.cpu p.2.state).regs.sp = some (coroAddr d) := by
    rw [hsp]
    exact Machine.word_of_mem hargs
  have hroutine' : (T.cpu p.2.state).mem.word ((T.cpu p.2.state).regs.sp + 8) = some proxy := by
    rw [hsp, hnext]
    exact Machine.word_of_mem hroutine
  refine ⟨congrArg Regs.pc hcpu, (T.entry_returns (by rw [hsp]; bv_omega) hargs' hroutine').mono ?_⟩
  rintro s ⟨harg, hpc, haligned, hmoved, -⟩
  refine ⟨harg, hpc, haligned, ?_⟩
  have hsize := L.size_le (thread N (some d))
  have hsizeAligned := L.size_aligned (thread N (some d))
  rw [hsp] at hmoved
  unfold CoroStack.Points CoroStack.offset
  rcases hmoved with hmoved | hmoved
  · rw [hmoved]
    constructor <;> bv_omega
  · rw [hmoved]
    constructor <;> bv_omega

/-- A dispatched coroutine, when the scheduler switches to it for the first time, calls
`coro_routine_proxy` with its own `struct coroutine`, with an aligned stack pointer on its stack. -/
theorem dispatched_coroutine_starts (arch : Arch) {c₀ c c' : Machine arch.target (Fin (N + 1))}
    {mem : ℕ → Coroutine} {hmax : N < 2 ^ 31} {z : Run} {s : arch.target.State}
    (h₀ : MachineInv L c₀) (hmain : c₀.current = 0) (hW : PrivateStacks L W)
    (hrun : ReflTransGen (RunningStep arch.target L entry proxy coroAddr W)
      (⟨scheduleInit N mem hmax, ∅, []⟩, c₀) (x, c))
    (hdispatch : Dispatches L entry proxy coroAddr d x c y s)
    (hlater : ReflTransGen (Elsewhere arch.target L entry proxy coroAddr W d)
      (y, { c with state := s, ready := Function.update c.ready (thread N (some d)) true }) (z, c'))
    (hcurrent : z.sched.current = some d) (next : Word64) :
    c'.cpu.regs.pc = entry ∧ Returns (arch.target.coroRoutineEntry next c'.state) fun s =>
      arch.target.argument s = coroAddr d ∧ (arch.target.cpu s).regs.pc = proxy ∧
        arch.target.entryAligned (arch.target.cpu s).regs.sp ∧
        (L.stack (thread N (some d))).Points (arch.target.cpu s).regs.sp := by
  have hinit := runningInv_init mem hmax h₀ hmain
  have hinv := run_invariant (fun p : Run × Machine arch.target (Fin (N + 1)) => RunningInv L p.1 p.2)
    (fun _ _ => runningStep_inv) hinit hrun
  have hstart := run_invariant (StartInv L entry proxy coroAddr d) (fun _ _ => elsewhere_inv hW)
    (dispatch_startInv hinv hdispatch) hlater
  exact hstart.entry_returns hcurrent next

/-- The first coroutine of a process starts. -/
theorem dispatched_coroutine_starts_first :
    ∃ c : Machine Arch.x86_64.target (Fin 3), c.cpu.regs.pc = 16 ∧
      Returns (Arch.x86_64.target.coroRoutineEntry 24 c.state) fun s =>
        Arch.x86_64.target.argument s = 48 ∧ (Arch.x86_64.target.cpu s).regs.pc = 32 := by
  have hinit := runningInv_init (fun _ => ⟨0, false⟩) (by decide) mainRuns_inv rfl
  obtain ⟨s, hdispatch⟩ := hinit.dispatches 16 32 (fun _ => 48)
    (ClockStep.step _ _ (Step.dispatch _ _ _ true)) rfl rfl
  have hinv := (dispatch_startInv hinit hdispatch).running
  have hroom : (threeStacks.stack 0).Room Arch.x86_64.target.numSaved
      (Arch.x86_64.target.cpu s).regs.sp := by
    rw [hdispatch.regs]
    change CoroStack.Room _ 6 65536
    decide
  have hresume : ∃ c, RunningStep Arch.x86_64.target threeStacks 16 32 (fun _ => 48)
      (fun _ v v' => v'.mem = v.mem) _ (_, c) :=
    hinv.exists_step hroom (ClockStep.step _ _ (Step.resume _ _ _ rfl))
  obtain ⟨c, hstep⟩ := hresume
  obtain ⟨hpc, hreturns⟩ := dispatched_coroutine_starts .x86_64 mainRuns_inv rfl
    (fun i v v' hmem j _ b _ => congrFun hmem b) ReflTransGen.refl hdispatch
    (ReflTransGen.single ⟨hstep, (Option.some_ne_none 1).symm⟩) rfl 24
  exact ⟨c, hpc, hreturns.mono fun t ht => ⟨ht.1, ht.2.1⟩⟩

end Cserv.Coro
