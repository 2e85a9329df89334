import Cserv.Coro.Pool
import Cserv.Coro.Threads

/-!
# The scheduler on a processor

The calls of the scheduler with what they do to the processor: `dispatch_coro` prepares a stack, and
whenever the scheduler changes `sched.current` the processor switches to the context of that
coroutine. The main coroutine is the thread 0, a coroutine the thread with its id.
-/
namespace Cserv.Coro

open Foundations WordMemory Relation

def thread (N : ℕ) (current : Option ℕ) : Fin (N + 1) := Fin.ofNat (N + 1) (current.getD 0)

section Thread

variable {N id : ℕ} {o o' : Option ℕ}

def UpTo (N : ℕ) (o : Option ℕ) : Prop := ∀ id ∈ o, 1 ≤ id ∧ id ≤ N

theorem thread_inj (h : UpTo N o) (h' : UpTo N o') (heq : thread N o = thread N o') : o = o' := by
  have hval := congrArg Fin.val heq
  simp only [thread, Fin.val_ofNat] at hval
  cases o with
  | none =>
    cases o' with
    | none => rfl
    | some id' =>
      have hid' := h' id' rfl
      rw [Option.getD_none, Option.getD_some, Nat.mod_eq_of_lt (by omega),
        Nat.mod_eq_of_lt (by omega)] at hval
      omega
  | some id =>
    have hid := h id rfl
    cases o' with
    | none =>
      rw [Option.getD_none, Option.getD_some, Nat.mod_eq_of_lt (by omega),
        Nat.mod_eq_of_lt (by omega)] at hval
      omega
    | some id' =>
      have hid' := h' id' rfl
      rw [Option.getD_some, Option.getD_some, Nat.mod_eq_of_lt (by omega),
        Nat.mod_eq_of_lt (by omega)] at hval
      rw [hval]

theorem upTo_none : UpTo N none := fun _ h => by cases h

theorem upTo_some : UpTo N (some id) ↔ 1 ≤ id ∧ id ≤ N := by simp [UpTo]

end Thread

section Running

variable {T : Target} {N : ℕ} {L : Layout (Fin (N + 1))} {entry proxy : Word64} {coroAddr : ℕ → Word64}
  {W : Work (Fin (N + 1))}

/-- `dispatch_coro` takes the coroutine `id`: the scheduler is `y` and the processor in the state `s`
after the call. `proxy` is the address of `coro_routine_proxy`, and `coroAddr` has the addresses of
the coroutines. -/
structure Dispatches (L : Layout (Fin (N + 1))) (entry proxy : Word64) (coroAddr : ℕ → Word64) (id : ℕ)
    (x : Run) (c : Machine T (Fin (N + 1))) (y : Run) (s : T.State) : Prop where
  step : ClockStep Filed x y
  got : ∃ mem s', x.sched.getCoroutine mem = some (id, s') ∧ y.sched = (x.sched.dispatchCoro mem).2
  regs : (T.cpu s).regs = c.cpu.regs
  shared : (T.cpu s).shared = c.cpu.shared
  init : coroStackInit T.numSaved entry (L.ctx (thread N (some id))) (L.stack (thread N (some id)))
    proxy (coroAddr id) c.cpu.mem = some (T.cpu s).mem

/-- The running coroutine does some work, or there is a call of the scheduler. -/
inductive RunningStep (T : Target) (L : Layout (Fin (N + 1))) (entry proxy : Word64)
    (coroAddr : ℕ → Word64) (W : Work (Fin (N + 1))) :
    Run × Machine T (Fin (N + 1)) → Run × Machine T (Fin (N + 1)) → Prop
  | work (x : Run) (c : Machine T (Fin (N + 1))) (s : T.State) (hworks : Works L W c s) :
      RunningStep T L entry proxy coroAddr W (x, c) (x, { c with state := s })
  | quiet (x y : Run) (c : Machine T (Fin (N + 1))) (hstep : ClockStep Filed x y)
      (hpool : SamePool x.sched y.sched) (hcurrent : y.sched.current = x.sched.current) :
      RunningStep T L entry proxy coroAddr W (x, c) (y, c)
  | dispatch (x y : Run) (c : Machine T (Fin (N + 1))) (id : ℕ) (s : T.State)
      (hdispatch : Dispatches L entry proxy coroAddr id x c y s) :
      RunningStep T L entry proxy coroAddr W (x, c)
        (y, { c with state := s, ready := Function.update c.ready (thread N (some id)) true })
  | switch (x y : Run) (c : Machine T (Fin (N + 1))) (ret : Word64) (s : T.State)
      (hstep : ClockStep Filed x y) (hcurrent : y.sched.current ≠ x.sched.current)
      (hroom : (L.stack c.current).Room T.numSaved c.cpu.regs.sp)
      (hswitch : T.contextSwitch (L.ctx c.current) (L.ctx (thread N y.sched.current)) ret c.state =
        some s) :
      RunningStep T L entry proxy coroAddr W (x, c)
        (y, ⟨s, thread N y.sched.current, Function.update c.ready c.current true⟩)

/-- The processor runs `sched.current`, and each other coroutine that has been created is ready; so is
the main coroutine while another runs. -/
structure RunningInv (L : Layout (Fin (N + 1))) (x : Run) (c : Machine T (Fin (N + 1))) : Prop where
  run : RunInv x
  machine : MachineInv L c
  max : x.sched.maxCoroSize = N
  current : c.current = thread N x.sched.current
  ready : ∀ id ∈ List.range' 1 x.sched.currCoroSize, x.sched.current ≠ some id →
    c.ready (thread N (some id))
  main : x.sched.current ≠ none → c.ready (thread N none)

variable {x y : Run} {c c' : Machine T (Fin (N + 1))} {id : ℕ}

namespace RunningInv

theorem upTo_range (h : RunningInv L x c) (hid : id ∈ List.range' 1 x.sched.currCoroSize) :
    UpTo N (some id) := by
  have hsize := h.run.size
  have hmax := h.max
  rw [List.mem_range'_1] at hid
  rw [upTo_some]
  omega

theorem upTo_current (h : RunningInv L x c) : UpTo N x.sched.current := by
  intro id hid
  exact h.upTo_range (h.run.busy_current hid).1 id rfl

end RunningInv

theorem poolStep_current {s s' : Sched} (h : PoolStep s s') (hne : s'.current ≠ s.current) :
    (∃ id, s.current = some id ∧ s'.current = none) ∨
      (s.current = none ∧ SamePool s s' ∧ ∃ id, s.Busy id ∧ s'.current = some id) := by
  cases h with
  | dispatch mem => exact absurd (dispatchCoro_current s mem) hne
  | finish id hcurrent => exact Or.inl ⟨id, hcurrent, rfl⟩
  | stay _ _ hcurrent => exact absurd hcurrent hne
  | suspend _ _ hcurrent =>
    cases hs : s.current with
    | none => exact absurd (hcurrent.trans hs.symm) hne
    | some id => exact Or.inl ⟨id, rfl, hcurrent⟩
  | resume _ id hpool hnone hbusy hcurrent => exact Or.inr ⟨hnone, hpool, id, hbusy, hcurrent⟩

theorem poolStep_same {s s' : Sched} (h : PoolStep s s') (heq : s'.current = s.current) :
    (∃ mem, s' = (s.dispatchCoro mem).2) ∨ SamePool s s' := by
  cases h with
  | dispatch mem => exact Or.inl ⟨mem, rfl⟩
  | finish id hcurrent =>
    rw [hcurrent] at heq
    cases heq
  | stay _ hpool _ => exact Or.inr hpool
  | suspend _ hpool _ => exact Or.inr hpool
  | resume _ id hpool _ _ _ => exact Or.inr hpool

theorem poolStep_size {s s' : Sched} (h : PoolStep s s') (hne : s'.current ≠ s.current) :
    s'.currCoroSize = s.currCoroSize := by
  cases h with
  | dispatch mem => exact absurd (dispatchCoro_current s mem) hne
  | finish => rfl
  | stay _ hpool _ => exact hpool.size
  | suspend _ hpool _ => exact hpool.size
  | resume _ _ hpool _ _ _ => exact hpool.size

theorem RunningInv.switch_ready (h : RunningInv L x c) (hstep : ClockStep Filed x y)
    (hne : y.sched.current ≠ x.sched.current) :
    thread N y.sched.current ≠ c.current ∧ c.ready (thread N y.sched.current) := by
  have hpool := clockStep_pool h.run hstep
  rw [h.current]
  obtain ⟨id, hx, hy⟩ | ⟨hx, -, id, hbusy, hy⟩ := poolStep_current hpool hne
  · rw [hy]
    constructor
    · intro heq
      have hcurrent := thread_inj upTo_none h.upTo_current heq
      rw [hx] at hcurrent
      cases hcurrent
    · exact h.main (by rw [hx]; exact Option.some_ne_none id)
  · rw [hy]
    constructor
    · intro heq
      have hcurrent := thread_inj (h.upTo_range hbusy.1) h.upTo_current heq
      rw [hx] at hcurrent
      cases hcurrent
    · exact h.ready id hbusy.1 (by rw [hx]; exact (Option.some_ne_none id).symm)

theorem getCoroutine_cases {s s' : Sched} {mem : Bool} (hget : s.getCoroutine mem = some (id, s')) :
    (id ∈ s.idle ∧ (s.dispatchCoro mem).2.currCoroSize = s.currCoroSize) ∨
      (id = s.nextCoroId + 1 ∧ s.currCoroSize ≠ s.maxCoroSize ∧
        (s.dispatchCoro mem).2.currCoroSize = s.currCoroSize + 1) := by
  have hsize : (s.dispatchCoro mem).2.currCoroSize = s'.currCoroSize := by
    simp only [Sched.dispatchCoro, hget]
  rw [hsize]
  unfold Sched.getCoroutine at hget
  cases hidle : s.idle with
  | cons d rest =>
    rw [hidle] at hget
    cases hget
    exact Or.inl ⟨List.mem_cons_self, rfl⟩
  | nil =>
    rw [hidle] at hget
    unfold Sched.createCoroutine at hget
    split_ifs at hget with hfull
    · cases hget
    · cases hget
    · cases hget
      exact Or.inr ⟨rfl, hfull, rfl⟩

theorem RunningInv.dispatch_ne (h : RunningInv L x c) {mem : Bool} {s' : Sched}
    (hget : x.sched.getCoroutine mem = some (id, s')) :
    UpTo N (some id) ∧ x.sched.current ≠ some id ∧
      ∀ d ∈ List.range' 1 (x.sched.dispatchCoro mem).2.currCoroSize,
        d ∈ List.range' 1 x.sched.currCoroSize ∨ d = id := by
  obtain ⟨hidle, hsize⟩ | ⟨hid, hfull, hsize⟩ := getCoroutine_cases hget
  · have hrange : id ∈ List.range' 1 x.sched.currCoroSize :=
      h.run.places.subset (List.mem_append_left _ hidle)
    refine ⟨h.upTo_range hrange, fun hcurrent => ?_, fun d hd => Or.inl (hsize ▸ hd)⟩
    exact (h.run.busy_current hcurrent).2 hidle
  · have hnext := h.run.next
    have hle := h.run.size
    have hmax := h.max
    refine ⟨upTo_some.mpr (by omega), fun hcurrent => ?_, fun d hd => ?_⟩
    · have hrange := (h.run.busy_current hcurrent).1
      rw [List.mem_range'_1] at hrange
      omega
    · rw [List.mem_range'_1] at hd ⊢
      omega

theorem RunningInv.dispatch_thread (h : RunningInv L x c) {s : T.State}
    (hdispatch : Dispatches L entry proxy coroAddr id x c y s) : thread N (some id) ≠ c.current := by
  obtain ⟨mem, s', hget, -⟩ := hdispatch.got
  obtain ⟨hid, hne, -⟩ := h.dispatch_ne hget
  intro heq
  exact hne (thread_inj hid h.upTo_current (heq.trans h.current)).symm

theorem RunningInv.switch (h : RunningInv L x c) (hstep : ClockStep Filed x y)
    (hne : y.sched.current ≠ x.sched.current) {s : T.State}
    (hmachine : MachineInv L (⟨s, thread N y.sched.current, Function.update c.ready c.current true⟩ :
      Machine T (Fin (N + 1)))) :
    RunningInv L y ⟨s, thread N y.sched.current, Function.update c.ready c.current true⟩ := by
  have hpool := clockStep_pool h.run hstep
  have hmax := poolStep_max hpool
  have hsize := poolStep_size hpool hne
  have hkept : ∀ o, (o ≠ x.sched.current → c.ready (thread N o)) →
      Function.update c.ready c.current true (thread N o) := by
    intro o ho
    by_cases hcurrent : thread N o = c.current
    · rw [hcurrent, Function.update_self]
    · rw [Function.update_of_ne hcurrent]
      refine ho ?_
      rintro rfl
      exact hcurrent h.current.symm
  refine
    { run := clockStep_inv h.run hstep
      machine := hmachine
      max := hmax.trans h.max
      current := rfl
      ready := fun id hid _ => hkept (some id) fun hother => ?_
      main := fun _ => hkept none fun hother => h.main hother.symm }
  rw [hsize] at hid
  exact h.ready id hid hother.symm

theorem RunningInv.dispatch (h : RunningInv L x c) {s : T.State}
    (hdispatch : Dispatches L entry proxy coroAddr id x c y s)
    (hmachine : MachineInv L
      { c with state := s, ready := Function.update c.ready (thread N (some id)) true }) :
    RunningInv L y
      { c with state := s, ready := Function.update c.ready (thread N (some id)) true } := by
  obtain ⟨mem, s', hget, hy⟩ := hdispatch.got
  obtain ⟨-, -, hrange⟩ := h.dispatch_ne hget
  have hcurrent : y.sched.current = x.sched.current := by rw [hy, dispatchCoro_current]
  have hkept : ∀ i, c.ready i → Function.update c.ready (thread N (some id)) true i := by
    intro i hi
    by_cases heq : i = thread N (some id)
    · rw [heq, Function.update_self]
    · rw [Function.update_of_ne heq]
      exact hi
  refine
    { run := clockStep_inv h.run hdispatch.step
      machine := hmachine
      max := by rw [hy, dispatchCoro_max, h.max]
      current := by rw [hcurrent]; exact h.current
      ready := fun d hd hne => ?_
      main := fun hne => hkept _ (h.main (hcurrent ▸ hne)) }
  rw [hy] at hd
  rcases hrange d hd with hd | rfl
  · exact hkept _ (h.ready d hd (hcurrent ▸ hne))
  · exact Function.update_self ..

theorem RunningInv.quiet (h : RunningInv L x c) (hstep : ClockStep Filed x y)
    (hpool : SamePool x.sched y.sched) (hcurrent : y.sched.current = x.sched.current) :
    RunningInv L y c where
  run := clockStep_inv h.run hstep
  machine := h.machine
  max := hpool.max.trans h.max
  current := by rw [hcurrent]; exact h.current
  ready id hid hne := h.ready id (hpool.size ▸ hid) (hcurrent ▸ hne)
  main hne := h.main (hcurrent ▸ hne)

theorem RunningInv.work (h : RunningInv L x c) {s : T.State} (hworks : Works L W c s) :
    RunningInv L x { c with state := s } where
  run := h.run
  machine := work_inv h.machine hworks
  max := h.max
  current := h.current
  ready := h.ready
  main := h.main

/-- Each step of the scheduler on a processor is a step of the processor, or leaves it as it is. -/
theorem runningStep_machine {p q : Run × Machine T (Fin (N + 1))} (h : RunningInv L p.1 p.2)
    (hstep : RunningStep T L entry proxy coroAddr W p q) :
    q.2 = p.2 ∨ MachineStep T L entry W p.2 q.2 := by
  cases hstep with
  | work x c s hworks => exact Or.inr (MachineStep.work c s hworks)
  | quiet x y c => exact Or.inl rfl
  | dispatch x y c id s hdispatch =>
    exact Or.inr (MachineStep.start c _ proxy (coroAddr id) s (h.dispatch_thread hdispatch)
      hdispatch.regs hdispatch.shared hdispatch.init)
  | switch x y c ret s hstep hcurrent hroom hswitch =>
    obtain ⟨hne, hready⟩ := h.switch_ready hstep hcurrent
    exact Or.inr (MachineStep.switch c _ ret s hne hready hroom hswitch)

theorem runningStep_inv {p q : Run × Machine T (Fin (N + 1))} (h : RunningInv L p.1 p.2)
    (hstep : RunningStep T L entry proxy coroAddr W p q) : RunningInv L q.1 q.2 := by
  have hmachine : MachineInv L q.2 := by
    rcases runningStep_machine h hstep with heq | hmove
    · rw [heq]
      exact h.machine
    · exact machineStep_inv h.machine hmove
  cases hstep with
  | work x c s hworks => exact h.work hworks
  | quiet x y c hstep hpool hcurrent => exact h.quiet hstep hpool hcurrent
  | dispatch x y c id s hdispatch => exact h.dispatch hdispatch hmachine
  | switch x y c ret s hstep hcurrent => exact h.switch hstep hcurrent hmachine

theorem runningInv_init (mem : ℕ → Coroutine) (hmax : N < 2 ^ 31) (h : MachineInv L c)
    (hmain : c.current = 0) : RunningInv L ⟨scheduleInit N mem hmax, ∅, []⟩ c where
  run := init_inv N mem hmax
  machine := h
  max := rfl
  current := by rw [hmain]; rfl
  ready id hid := by cases hid
  main hne := absurd rfl hne

/-! ## Progress -/

theorem RunningInv.dispatches (h : RunningInv L x c) (entry proxy : Word64) (coroAddr : ℕ → Word64)
    (hstep : ClockStep Filed x y) {mem : Bool} {s' : Sched}
    (hget : x.sched.getCoroutine mem = some (id, s'))
    (hy : y.sched = (x.sched.dispatchCoro mem).2) :
    ∃ s, Dispatches L entry proxy coroAddr id x c y s := by
  obtain ⟨m, hm, -⟩ := h.machine.init_returns entry (thread N (some id)) proxy (coroAddr id)
  have hcpu := T.cpu_setMem m c.state
  exact ⟨T.setMem m c.state, hstep, ⟨mem, s', hget, hy⟩, by rw [hcpu]; rfl, by rw [hcpu]; rfl,
    by rw [hcpu]; exact hm⟩

/-- Whatever the scheduler does, the processor can do its part. -/
theorem RunningInv.exists_step (h : RunningInv L x c)
    (hroom : (L.stack c.current).Room T.numSaved c.cpu.regs.sp) (hstep : ClockStep Filed x y) :
    ∃ c', RunningStep T L entry proxy coroAddr W (x, c) (y, c') := by
  by_cases hne : y.sched.current = x.sched.current
  · rcases poolStep_same (clockStep_pool h.run hstep) hne with ⟨mem, hy⟩ | hpool
    · cases hget : x.sched.getCoroutine mem with
      | some got =>
        obtain ⟨id, s'⟩ := got
        obtain ⟨s, hdispatch⟩ := h.dispatches entry proxy coroAddr hstep hget hy
        exact ⟨_, RunningStep.dispatch x y c id s hdispatch⟩
      | none =>
        have hsame : y.sched = x.sched := by rw [hy, Sched.dispatchCoro, hget]
        refine ⟨c, RunningStep.quiet x y c hstep ?_ hne⟩
        rw [hsame]
        exact ⟨rfl, rfl, rfl, rfl⟩
    · exact ⟨c, RunningStep.quiet x y c hstep hpool hne⟩
  · obtain ⟨hthread, hready⟩ := h.switch_ready hstep hne
    obtain ⟨r, -, s, hs, -⟩ := h.machine.switch_returns c.cpu.regs.pc hthread hready hroom
    exact ⟨_, RunningStep.switch x y c _ s hstep hne hroom hs⟩

end Running

/-- The coroutines of a process run as threads with registers of their own, on both architectures,
that share the registers which `context_switch` does not save: those keep their values if no coroutine
changes them. Whatever the scheduler does next, no access of the processor faults. -/
theorem coroutines_run_as_threads (arch : Arch) {N : ℕ} {L : Layout (Fin (N + 1))}
    {entry proxy : Word64} {coroAddr : ℕ → Word64} {W : Work (Fin (N + 1))} {mem : ℕ → Coroutine}
    {hmax : N < 2 ^ 31} {c₀ c : Machine arch.target (Fin (N + 1))} {x : Run} (h₀ : MachineInv L c₀)
    (hmain : c₀.current = 0)
    (hrun : ReflTransGen (RunningStep arch.target L entry proxy coroAddr W)
      (⟨scheduleInit N mem hmax, ∅, []⟩, c₀) (x, c)) :
    ReflTransGen (ThreadStep L entry W) (c₀.threads L) (c.threads L) ∧
      (KeepsShared W → c.cpu.shared = c₀.cpu.shared) ∧
      c.current = thread N x.sched.current ∧
      ∀ y : Run, (L.stack c.current).Room arch.target.numSaved c.cpu.regs.sp →
        ClockStep Filed x y →
        ∃ c', RunningStep arch.target L entry proxy coroAddr W (x, c) (y, c') := by
  have hinit := runningInv_init mem hmax h₀ hmain
  have hinv := run_invariant (fun p : Run × Machine arch.target (Fin (N + 1)) => RunningInv L p.1 p.2)
    (fun _ _ => runningStep_inv) hinit hrun
  have hthreads : ReflTransGen (ThreadStep L entry W) (c₀.threads L) (c.threads L) := by
    refine run_simulation (fun p : Run × Machine arch.target (Fin (N + 1)) => RunningInv L p.1 p.2)
      (f := fun p => p.2.threads L) (fun _ _ => runningStep_inv) (fun p q hp hstep => ?_) hinit hrun
    rcases runningStep_machine hp hstep with heq | hmove
    · rw [heq]
    · exact ReflTransGen.single (machineStep_threads hp.machine hmove)
  refine ⟨hthreads, fun hW => ?_, hinv.current, fun y hroom hstep => hinv.exists_step hroom hstep⟩
  exact run_invariant (fun a : Threads (Fin (N + 1)) => a.shared = c₀.cpu.shared)
    (fun _ _ ha hstep => (threadStep_shared hW hstep).trans ha) rfl hthreads

/-- Three contexts and three stacks of 4 KiB. -/
def threeStacks : Layout (Fin 3) where
  ctx i := BitVec.ofNat 64 (4096 + 8 * i)
  stack i := ⟨BitVec.ofNat 64 (65536 * (i + 1)), 4096⟩
  ctx_injective := by decide
  ctx_out := by decide
  disjoint i j b := by
    unfold CoroStack.Within CoroStack.offset
    intro hi hj
    ext
    dsimp only at hi hj
    have hi3 := i.isLt
    have hj3 := j.isLt
    bv_omega
  ptr_aligned := by decide
  size_aligned := by decide
  size_le := by decide

def zeroMemory : WordMemory where
  word b := if b.toNat % 8 = 0 then some 0 else none
  aligned b h := by
    by_contra hb
    rw [if_neg hb] at h
    cases h

/-- The main coroutine runs, with an empty stack, and there is no other. -/
def mainRuns : Machine Arch.x86_64.target (Fin 3) where
  state := ⟨fun r => if r = .rsp then 65536 else 0, fun _ => 0, 0, zeroMemory⟩
  current := 0
  ready _ := false

theorem mainRuns_inv : MachineInv threeStacks mainRuns where
  ctx_mapped := by decide
  stack_mapped i b _ hb := by
    have hword : zeroMemory.word b = some 0 := if_pos hb
    exact Option.isSome_of_eq_some hword
  running := by
    change CoroStack.Points _ 65536
    decide
  suspended i _ hready := by cases hready

/-- The main coroutine dispatches the first coroutine and switches to it. -/
theorem coroutines_run_as_threads_first :
    ∃ c : Machine Arch.x86_64.target (Fin 3), c.current = thread 2 (some 1) ∧
      ReflTransGen (ThreadStep threeStacks 16 fun _ _ _ => True) (mainRuns.threads threeStacks)
        (c.threads threeStacks) := by
  have hinit := runningInv_init (fun _ => ⟨0, false⟩) (by decide) mainRuns_inv rfl
  obtain ⟨s, hdispatch⟩ := hinit.dispatches 16 32 (fun _ => 48)
    (ClockStep.step _ _ (Step.dispatch _ _ _ true)) rfl rfl
  have hrun := ReflTransGen.single
    (RunningStep.dispatch (T := Arch.x86_64.target) (W := fun _ _ _ => True) _ _ _ 1 s hdispatch)
  obtain ⟨-, -, -, hprogress⟩ := coroutines_run_as_threads .x86_64 mainRuns_inv rfl hrun
  have hroom : (threeStacks.stack 0).Room Arch.x86_64.target.numSaved
      (Arch.x86_64.target.cpu s).regs.sp := by
    rw [hdispatch.regs]
    change CoroStack.Room _ 6 65536
    decide
  obtain ⟨c, hstep⟩ := hprogress _ hroom (ClockStep.step _ _ (Step.resume _ _ _ rfl))
  obtain ⟨hthreads, -, hcurrent, -⟩ := coroutines_run_as_threads .x86_64 mainRuns_inv rfl
    (hrun.tail hstep)
  exact ⟨c, hcurrent, hthreads⟩

end Cserv.Coro
