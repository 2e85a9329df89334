import Cserv.Coro.Switch
import Cserv.Foundations.Transition

/-!
# Coroutines as threads

The coroutines of a process run on one processor, each on a stack of its own. They behave as
threads do that have registers of their own, apart from the few registers that `context_switch` does
not save and that all threads share: a switch changes which thread runs and nothing else. The running
thread may use all memory but the contexts and the parts of the stacks below the stack pointers, where
the frames of the others are.
-/
namespace Cserv.Coro

open Foundations WordMemory Relation

namespace CoroStack

variable (s : CoroStack)

def offset (b : Word64) : ℕ := (b - (s.ptr - s.sizeBytes)).toNat

def Within (b : Word64) : Prop := s.offset b < s.sizeBytes.toNat

def Points (sp : Word64) : Prop := s.offset sp ≤ s.sizeBytes.toNat ∧ s.offset sp % 8 = 0

/-- There is room for a frame below a stack pointer. -/
def Room (numSaved : ℕ) (sp : Word64) : Prop := 8 * (numSaved + 1) ≤ s.offset sp

instance (b : Word64) : Decidable (s.Within b) := inferInstanceAs (Decidable (_ < _))

instance (sp : Word64) : Decidable (s.Points sp) := inferInstanceAs (Decidable (_ ∧ _))

instance (numSaved : ℕ) (sp : Word64) : Decidable (s.Room numSaved sp) :=
  inferInstanceAs (Decidable (_ ≤ _))

variable {s} {numSaved : ℕ} {sp b : Word64}

theorem within_frame (hpoints : s.Points sp) (hroom : s.Room numSaved sp)
    (hb : ¬ Outside (sp - frameBytes numSaved) (numSaved + 1) b) :
    s.Within b ∧ s.offset b < s.offset sp := by
  unfold Points Room at *
  unfold Within
  unfold offset Outside frameBytes at *
  constructor <;> bv_omega

end CoroStack

/-- Where the contexts and the stacks lie. -/
structure Layout (ι : Type) where
  ctx : ι → Word64
  stack : ι → CoroStack
  ctx_injective : Function.Injective ctx
  ctx_out : ∀ i j, ¬ (stack j).Within (ctx i)
  disjoint : ∀ i j b, (stack i).Within b → (stack j).Within b → i = j
  ptr_aligned : ∀ i, (stack i).ptr.toNat % 16 = 0
  size_aligned : ∀ i, (stack i).sizeBytes.toNat % 16 = 0
  size_le : ∀ i, 112 ≤ (stack i).sizeBytes.toNat

/-- Memory that is used: no context, and nothing below the stack pointer of a stack. -/
def Layout.Live {ι : Type} (L : Layout ι) (regs : ι → Option Regs) (b : Word64) : Prop :=
  (∀ i, b ≠ L.ctx i) ∧ ∀ i, (L.stack i).Within b →
    ∃ r, regs i = some r ∧ (L.stack i).offset r.sp ≤ (L.stack i).offset b

/-! ## Threads -/

section Threads

variable {ι : Type} [DecidableEq ι]

abbrev LiveMemory := Word64 → Option Word64

/-- Threads with registers of their own and some that they share. Those that have not been started
have none of their own. -/
@[ext]
structure Threads (ι : Type) where
  current : ι
  regs : ι → Option Regs
  shared : List Word64
  mem : LiveMemory

structure View where
  regs : Regs
  shared : List Word64
  mem : LiveMemory

abbrev Work (ι : Type) := ι → View → View → Prop

/-- The memory with a stack that holds only what a routine is started with. -/
def startStack (stack : CoroStack) (routine args : Word64) (mem : LiveMemory) : LiveMemory := fun b =>
  if stack.Within b then
    if b = stack.ptr - 16 then some args else if b = stack.ptr - 8 then some routine else none
  else
    mem b

/-- The registers of the other threads change in no step of a thread; a switch changes no memory and
no shared register, so that a thread finds those as the thread before it left them; a thread is
started with any callee-saved registers. -/
inductive ThreadStep (L : Layout ι) (entry : Word64) (W : Work ι) : Threads ι → Threads ι → Prop
  | work (a : Threads ι) (r : Regs) (v : View) (hr : a.regs a.current = some r)
      (hwork : W a.current ⟨r, a.shared, a.mem⟩ v) :
      ThreadStep L entry W a
        { a with
          regs := Function.update a.regs a.current (some v.regs)
          shared := v.shared
          mem := v.mem }
  | switch (a : Threads ι) (j : ι) (ret : Word64) (r : Regs) (hr : a.regs a.current = some r)
      (hj : j ≠ a.current) (hready : (a.regs j).isSome) :
      ThreadStep L entry W a
        { a with
          current := j
          regs := Function.update a.regs a.current (some { r with pc := ret }) }
  | start (a : Threads ι) (j : ι) (saved : List Word64) (routine args : Word64) (hj : j ≠ a.current) :
      ThreadStep L entry W a
        { a with
          regs := Function.update a.regs j (some ⟨saved, (L.stack j).ptr - 16, entry⟩)
          mem := startStack (L.stack j) routine args a.mem }

end Threads

/-! ## The processor -/

section Machine

variable {ι : Type} [DecidableEq ι] {T : Target}

/-- A processor that runs a thread. A thread is ready when it has a context. -/
structure Machine (T : Target) (ι : Type) where
  state : T.State
  current : ι
  ready : ι → Bool

namespace Machine

def cpu (c : Machine T ι) : Cpu := T.cpu c.state

def regs (L : Layout ι) (c : Machine T ι) (i : ι) : Option Regs :=
  if i = c.current then some c.cpu.regs
  else if c.ready i then frame T.numSaved c.cpu.mem (L.ctx i)
  else none

open Classical in
noncomputable def threads (L : Layout ι) (c : Machine T ι) : Threads ι where
  current := c.current
  regs := c.regs L
  shared := c.cpu.shared
  mem b := if L.Live (c.regs L) b then c.cpu.mem.word b else none

end Machine

/-- The running thread does some work, after which the processor is in the state `s`: it uses its
stack and the live memory, unmaps nothing, and its stack pointer stays on its stack. -/
structure Works (L : Layout ι) (W : Work ι) (c : Machine T ι) (s : T.State) : Prop where
  work : W c.current ⟨c.cpu.regs, c.cpu.shared, (c.threads L).mem⟩
    ⟨(T.cpu s).regs, (T.cpu s).shared, (Machine.threads L { c with state := s }).mem⟩
  same : ∀ b, ¬ L.Live (c.regs L) b → ¬ (L.stack c.current).Within b →
    (T.cpu s).mem.word b = c.cpu.mem.word b
  mapped : ∀ b, (c.cpu.mem.word b).isSome → ((T.cpu s).mem.word b).isSome
  sp : (L.stack c.current).Points (T.cpu s).regs.sp

/-- The running thread does some work, calls `context_switch`, or calls `coro_stack_init` for another
thread. -/
inductive MachineStep (T : Target) (L : Layout ι) (entry : Word64) (W : Work ι) :
    Machine T ι → Machine T ι → Prop
  | work (c : Machine T ι) (s : T.State) (hworks : Works L W c s) :
      MachineStep T L entry W c { c with state := s }
  | switch (c : Machine T ι) (j : ι) (ret : Word64) (s : T.State) (hj : j ≠ c.current)
      (hready : c.ready j) (hroom : (L.stack c.current).Room T.numSaved c.cpu.regs.sp)
      (hswitch : T.contextSwitch (L.ctx c.current) (L.ctx j) ret c.state = some s) :
      MachineStep T L entry W c ⟨s, j, Function.update c.ready c.current true⟩
  | start (c : Machine T ι) (j : ι) (routine args : Word64) (s : T.State) (hj : j ≠ c.current)
      (hregs : (T.cpu s).regs = c.cpu.regs) (hshared : (T.cpu s).shared = c.cpu.shared)
      (hinit : coroStackInit T.numSaved entry (L.ctx j) (L.stack j) routine args c.cpu.mem =
        some (T.cpu s).mem) :
      MachineStep T L entry W c { c with state := s, ready := Function.update c.ready j true }

/-- The contexts and stacks are mapped, the stack pointers lie on their stacks, and each thread that
is ready and does not run has its frame on its stack. -/
structure MachineInv (L : Layout ι) (c : Machine T ι) : Prop where
  ctx_mapped : ∀ i, (c.cpu.mem.word (L.ctx i)).isSome
  stack_mapped : ∀ i b, (L.stack i).Within b → b.toNat % 8 = 0 → (c.cpu.mem.word b).isSome
  running : (L.stack c.current).Points c.cpu.regs.sp
  suspended : ∀ i, i ≠ c.current → c.ready i → ∃ r,
    frame T.numSaved c.cpu.mem (L.ctx i) = some r ∧ (L.stack i).Points r.sp ∧
      (L.stack i).Room T.numSaved r.sp

variable {L : Layout ι} {entry : Word64} {W : Work ι} {c c' : Machine T ι} {i j : ι} {r : Regs}
  {b ret : Word64}

theorem Machine.regs_current : c.regs L c.current = some c.cpu.regs := if_pos rfl

theorem Machine.regs_ready (hi : i ≠ c.current) (hready : c.ready i) :
    c.regs L i = frame T.numSaved c.cpu.mem (L.ctx i) := by
  rw [Machine.regs, if_neg hi, if_pos hready]

theorem Machine.mem_live (hb : L.Live (c.regs L) b) :
    (c.threads L).mem b = c.cpu.mem.word b := if_pos hb

theorem Machine.mem_dead (hb : ¬ L.Live (c.regs L) b) : (c.threads L).mem b = none := if_neg hb

theorem Machine.word_of_mem {w : Word64} (h : (c.threads L).mem b = some w) :
    c.cpu.mem.word b = some w := by
  by_cases hb : L.Live (c.regs L) b
  · exact (Machine.mem_live hb).symm.trans h
  · rw [Machine.mem_dead hb] at h
    cases h

namespace MachineInv

theorem regs_spec (h : MachineInv L c) (hr : c.regs L i = some r) :
    (L.stack i).Points r.sp ∧ (i ≠ c.current → (L.stack i).Room T.numSaved r.sp ∧
      frame T.numSaved c.cpu.mem (L.ctx i) = some r) := by
  unfold Machine.regs at hr
  split_ifs at hr with hi hready
  · cases hr
    subst hi
    exact ⟨h.running, fun hne => absurd rfl hne⟩
  · obtain ⟨r', hr', hpoints, hroom⟩ := h.suspended i hi hready
    obtain rfl : r' = r := Option.some.inj (hr'.symm.trans hr)
    exact ⟨hpoints, fun _ => ⟨hroom, hr⟩⟩

/-- The frame of a suspended thread is its context and the memory below its stack pointer. -/
theorem frame_same (h : MachineInv L c) (hi : i ≠ c.current) (hr : c.regs L i = some r)
    {m : WordMemory} (hctx : m.word (L.ctx i) = c.cpu.mem.word (L.ctx i))
    (hbelow : ∀ b, (L.stack i).Within b → (L.stack i).offset b < (L.stack i).offset r.sp →
      m.word b = c.cpu.mem.word b) : frame T.numSaved m (L.ctx i) = some r := by
  obtain ⟨hpoints, hsuspended⟩ := h.regs_spec hr
  obtain ⟨hroom, hframe⟩ := hsuspended hi
  refine frame_congr hframe hctx fun b hb => ?_
  obtain ⟨hwithin, hlt⟩ := CoroStack.within_frame hpoints hroom hb
  exact hbelow b hwithin hlt

end MachineInv

/-- What lies below the stack pointer of a thread is not live. -/
theorem not_live_below (hr : c.regs L i = some r) (hb : (L.stack i).Within b)
    (hbelow : (L.stack i).offset b < (L.stack i).offset r.sp) : ¬ L.Live (c.regs L) b := by
  rintro ⟨-, hlive⟩
  obtain ⟨r', hr', hle⟩ := hlive i hb
  rw [hr] at hr'
  cases hr'
  omega

theorem not_live_ctx (i : ι) : ¬ L.Live (c.regs L) (L.ctx i) := fun h => h.1 i rfl

/-! ### Work -/

section Work

variable {s : T.State}

theorem work_frame (h : MachineInv L c) (hworks : Works L W c s) (hi : i ≠ c.current)
    (hr : c.regs L i = some r) : frame T.numSaved (T.cpu s).mem (L.ctx i) = some r := by
  refine h.frame_same hi hr (hworks.same _ (not_live_ctx i) (L.ctx_out i _)) fun b hwithin hlt => ?_
  refine hworks.same b (not_live_below hr hwithin hlt) fun hcurrent => hi ?_
  exact L.disjoint i c.current b hwithin hcurrent

theorem work_regs (h : MachineInv L c) (hworks : Works L W c s) :
    Machine.regs L { c with state := s } =
      Function.update (c.regs L) c.current (some (T.cpu s).regs) := by
  funext i
  by_cases hi : i = c.current
  · subst hi
    rw [Function.update_self]
    exact if_pos rfl
  · rw [Function.update_of_ne hi]
    cases hready : c.ready i with
    | false => simp [Machine.regs, hi, hready]
    | true =>
      obtain ⟨r, hr, -⟩ := h.suspended i hi hready
      have hregs : c.regs L i = some r := (Machine.regs_ready hi hready).trans hr
      rw [hregs, Machine.regs_ready (c := { c with state := s }) hi hready]
      exact work_frame h hworks hi hregs

theorem work_inv (h : MachineInv L c) (hworks : Works L W c s) :
    MachineInv L { c with state := s } where
  ctx_mapped i := hworks.mapped _ (h.ctx_mapped i)
  stack_mapped i b hb hb' := hworks.mapped b (h.stack_mapped i b hb hb')
  running := hworks.sp
  suspended i hi hready := by
    obtain ⟨r, hr, hpoints, hroom⟩ := h.suspended i hi hready
    have hregs : c.regs L i = some r := (Machine.regs_ready (c := c) hi hready).trans hr
    exact ⟨r, work_frame h hworks hi hregs, hpoints, hroom⟩

end Work

/-! ### Switches -/

section Switch

theorem MachineInv.switchPre (h : MachineInv L c) (hj : j ≠ c.current)
    (hroom : (L.stack c.current).Room T.numSaved c.cpu.regs.sp) (hr : c.regs L j = some r) :
    SwitchPre T.numSaved c.cpu.mem c.cpu.regs.sp (L.ctx c.current) (L.ctx j)
      (c.cpu.regs.sp - frameBytes T.numSaved) r := by
  obtain ⟨hpoints, hsuspended⟩ := h.regs_spec hr
  obtain ⟨hroomj, hframe⟩ := hsuspended hj
  have hwithin : ∀ b, ¬ Outside (c.cpu.regs.sp - frameBytes T.numSaved) (T.numSaved + 1) b →
      (L.stack c.current).Within b :=
    fun b hb => (CoroStack.within_frame h.running hroom hb).1
  have hctx : ∀ k, Outside (c.cpu.regs.sp - frameBytes T.numSaved) (T.numSaved + 1) (L.ctx k) :=
    fun k => not_not.mp fun hin => L.ctx_out k c.current (hwithin _ hin)
  refine
    { sp_eq := by bv_omega
      mapped := ?_
      prev_mapped := h.ctx_mapped _
      prev_out := hctx _
      next_out := hctx j
      next_ne := fun heq => hj (L.ctx_injective heq)
      resumes := hframe
      apart := ?_ }
  · refine mapped_of_isSome ?_ ?_ fun b hb hin => h.stack_mapped _ b (hwithin b hin) hb
    · have hnum := T.numSaved_le
      omega
    · have hrunning := h.running
      have hptr := L.ptr_aligned c.current
      have hsize := L.size_aligned c.current
      unfold CoroStack.Points CoroStack.offset at hrunning
      unfold frameBytes
      bv_omega
  · intro b hb
    obtain ⟨hb', -⟩ := CoroStack.within_frame hpoints hroomj hb
    constructor
    · by_contra hin
      exact hj (L.disjoint j c.current b hb' (hwithin b hin))
    · rintro rfl
      exact L.ctx_out _ _ hb'

theorem MachineInv.switch_returns (h : MachineInv L c) (ret : Word64) (hj : j ≠ c.current)
    (hready : c.ready j) (hroom : (L.stack c.current).Room T.numSaved c.cpu.regs.sp) :
    ∃ r, c.regs L j = some r ∧
      Returns (T.contextSwitch (L.ctx c.current) (L.ctx j) ret c.state) fun s =>
        Switched T.numSaved c.cpu (T.cpu s) (L.ctx c.current)
          (c.cpu.regs.sp - frameBytes T.numSaved) ret r := by
  obtain ⟨r, hframe, -⟩ := h.suspended j hj hready
  have hr : c.regs L j = some r := (Machine.regs_ready hj hready).trans hframe
  exact ⟨r, hr, T.switch_returns (h.switchPre hj hroom hr)⟩

variable {s : T.State}

omit [DecidableEq ι] in
/-- A switch writes only the context and below the stack pointer of the thread that ran. -/
theorem switch_same (h : MachineInv L c) (hroom : (L.stack c.current).Room T.numSaved c.cpu.regs.sp)
    (hswitched : Switched T.numSaved c.cpu (T.cpu s) (L.ctx c.current)
      (c.cpu.regs.sp - frameBytes T.numSaved) ret r) (hctx : b ≠ L.ctx c.current)
    (hb : (L.stack c.current).Within b →
      (L.stack c.current).offset c.cpu.regs.sp ≤ (L.stack c.current).offset b) :
    (T.cpu s).mem.word b = c.cpu.mem.word b := by
  refine hswitched.saved.same b ?_ hctx
  have hlen : (c.cpu.regs.saved ++ [ret]).length = T.numSaved + 1 := by
    rw [List.length_append, List.length_singleton, Machine.cpu, T.length_saved]
  rw [hlen]
  by_contra hin
  obtain ⟨hwithin, hlt⟩ := CoroStack.within_frame h.running hroom hin
  exact absurd (hb hwithin) (not_le.mpr hlt)

theorem switch_frame (h : MachineInv L c)
    (hroom : (L.stack c.current).Room T.numSaved c.cpu.regs.sp)
    (hswitched : Switched T.numSaved c.cpu (T.cpu s) (L.ctx c.current)
      (c.cpu.regs.sp - frameBytes T.numSaved) ret r) (hi : i ≠ c.current) {r' : Regs}
    (hr : c.regs L i = some r') : frame T.numSaved (T.cpu s).mem (L.ctx i) = some r' := by
  refine h.frame_same hi hr ?_ fun b hb _ => ?_
  · refine switch_same h hroom hswitched (fun heq => hi (L.ctx_injective heq)) fun hwithin => ?_
    exact absurd hwithin (L.ctx_out i _)
  · refine switch_same h hroom hswitched ?_ fun hwithin => ?_
    · rintro rfl
      exact L.ctx_out _ _ hb
    · exact absurd (L.disjoint i c.current b hb hwithin) hi

omit [DecidableEq ι] in
theorem switch_left (hswitched : Switched T.numSaved c.cpu (T.cpu s) (L.ctx c.current)
      (c.cpu.regs.sp - frameBytes T.numSaved) ret r) :
    frame T.numSaved (T.cpu s).mem (L.ctx c.current) = some { c.cpu.regs with pc := ret } := by
  refine frame_eq_some_iff.mpr ⟨_, hswitched.saved.ctx, T.length_saved _, hswitched.saved.holds, ?_⟩
  change c.cpu.regs.sp = _
  bv_omega

theorem switch_regs (h : MachineInv L c) (hj : j ≠ c.current)
    (hroom : (L.stack c.current).Room T.numSaved c.cpu.regs.sp) (hr : c.regs L j = some r)
    (hswitched : Switched T.numSaved c.cpu (T.cpu s) (L.ctx c.current)
      (c.cpu.regs.sp - frameBytes T.numSaved) ret r) :
    Machine.regs L ⟨s, j, Function.update c.ready c.current true⟩ =
      Function.update (c.regs L) c.current (some { c.cpu.regs with pc := ret }) := by
  funext i
  by_cases hij : i = j
  · subst hij
    rw [Function.update_of_ne hj, hr]
    exact (if_pos rfl).trans (congrArg some hswitched.regs)
  by_cases hi : i = c.current
  · subst hi
    rw [Function.update_self, ← switch_left hswitched]
    exact Machine.regs_ready (c := ⟨s, j, _⟩) hij (Function.update_self ..)
  · have hready : Function.update c.ready c.current true i = c.ready i := Function.update_of_ne hi ..
    rw [Function.update_of_ne hi]
    cases hc : c.ready i with
    | false => simp [Machine.regs, hi, hij, hc]
    | true =>
      obtain ⟨r', hr', -⟩ := h.suspended i hi hc
      have hregs : c.regs L i = some r' := (Machine.regs_ready hi hc).trans hr'
      rw [hregs, ← switch_frame h hroom hswitched hi hregs]
      exact Machine.regs_ready (c := ⟨s, j, _⟩) hij (hready.trans hc)

theorem switch_inv (h : MachineInv L c)
    (hroom : (L.stack c.current).Room T.numSaved c.cpu.regs.sp) (hr : c.regs L j = some r)
    (hswitched : Switched T.numSaved c.cpu (T.cpu s) (L.ctx c.current)
      (c.cpu.regs.sp - frameBytes T.numSaved) ret r) :
    MachineInv L (⟨s, j, Function.update c.ready c.current true⟩ : Machine T ι) where
  ctx_mapped i := hswitched.saved.isSome (h.ctx_mapped i)
  stack_mapped i b hb hb' := hswitched.saved.isSome (h.stack_mapped i b hb hb')
  running := by
    have hsp : (T.cpu s).regs = r := hswitched.regs
    change (L.stack j).Points (T.cpu s).regs.sp
    rw [hsp]
    exact (h.regs_spec hr).1
  suspended i hi hready := by
    by_cases hcurrent : i = c.current
    · subst hcurrent
      exact ⟨_, switch_left hswitched, h.running, hroom⟩
    · have hc : c.ready i := by
        rw [← hready]
        exact (Function.update_of_ne hcurrent ..).symm
      obtain ⟨r', hr', hpoints, hroom'⟩ := h.suspended i hcurrent hc
      have hregs : c.regs L i = some r' := (Machine.regs_ready hcurrent hc).trans hr'
      exact ⟨r', switch_frame h hroom hswitched hcurrent hregs, hpoints, hroom'⟩

/-- A switch changes no memory that is used. -/
theorem switch_live (h : MachineInv L c)
    (hroom : (L.stack c.current).Room T.numSaved c.cpu.regs.sp)
    (hswitched : Switched T.numSaved c.cpu (T.cpu s) (L.ctx c.current)
      (c.cpu.regs.sp - frameBytes T.numSaved) ret r) (hb : L.Live (c.regs L) b) :
    (T.cpu s).mem.word b = c.cpu.mem.word b := by
  refine switch_same h hroom hswitched (hb.1 _) fun hwithin => ?_
  obtain ⟨r', hr', hle⟩ := hb.2 _ hwithin
  rw [Machine.regs_current] at hr'
  cases hr'
  exact hle

theorem live_update_pc {regs : ι → Option Regs} (hr : regs i = some r) :
    L.Live (Function.update regs i (some { r with pc := ret })) b ↔ L.Live regs b := by
  refine and_congr_right fun _ => forall_congr' fun k => imp_congr_right fun _ => ?_
  by_cases hk : k = i
  · subst hk
    simp [hr]
  · rw [Function.update_of_ne hk]

theorem switch_threads (h : MachineInv L c) (hj : j ≠ c.current)
    (hroom : (L.stack c.current).Room T.numSaved c.cpu.regs.sp) (hr : c.regs L j = some r)
    (hswitched : Switched T.numSaved c.cpu (T.cpu s) (L.ctx c.current)
      (c.cpu.regs.sp - frameBytes T.numSaved) ret r) :
    Machine.threads L ⟨s, j, Function.update c.ready c.current true⟩ =
      { c.threads L with
        current := j
        regs := Function.update (c.regs L) c.current (some { c.cpu.regs with pc := ret }) } := by
  have hregs := switch_regs h hj hroom hr hswitched
  refine Threads.ext rfl hregs hswitched.shared (funext fun b => ?_)
  have hiff : L.Live (Machine.regs L ⟨s, j, Function.update c.ready c.current true⟩) b ↔
      L.Live (c.regs L) b := by
    rw [hregs]
    exact live_update_pc Machine.regs_current
  by_cases hlive : L.Live (c.regs L) b
  · rw [Machine.mem_live (hiff.mpr hlive)]
    exact (switch_live h hroom hswitched hlive).trans (Machine.mem_live hlive).symm
  · rw [Machine.mem_dead fun h' => hlive (hiff.mp h')]
    exact (Machine.mem_dead hlive).symm

end Switch

/-! ### Starts -/

section Start

variable {s : T.State} {routine args : Word64}

omit [DecidableEq ι] in
theorem MachineInv.init_returns (h : MachineInv L c) (entry : Word64) (j : ι) (routine args : Word64) :
    Returns (coroStackInit T.numSaved entry (L.ctx j) (L.stack j) routine args c.cpu.mem) fun m =>
      (∃ saved, frame T.numSaved m (L.ctx j) = some ⟨saved, (L.stack j).ptr - 16, entry⟩) ∧
        m.Holds ((L.stack j).ptr - 24) [entry, args, routine] ∧
        ∀ b, Outside ((L.stack j).ptr - 24) 3 b → b ≠ L.ctx j → m.word b = c.cpu.mem.word b := by
  have hnum := T.numSaved_le
  have hsize := L.size_le j
  have hptr := L.ptr_aligned j
  have hwithin : ∀ b, ¬ Outside ((L.stack j).ptr - BitVec.ofNat 64 (8 * (T.numSaved + 3)))
      (T.numSaved + 3) b → (L.stack j).Within b := by
    intro b hb
    unfold Outside at hb
    unfold CoroStack.Within CoroStack.offset
    bv_omega
  refine coroStackInit_returns hnum ?_ (h.ctx_mapped j) ?_
  · refine mapped_of_isSome (by omega) (by bv_omega) fun b hb hin => ?_
    exact h.stack_mapped j b (hwithin b hin) hb
  · by_contra hin
    exact L.ctx_out j j (hwithin _ hin)

/-- What `coro_stack_init` has made of the memory. -/
structure Started (L : Layout ι) (numSaved : ℕ) (entry : Word64) (j : ι) (routine args : Word64)
    (saved : List Word64) (m m' : WordMemory) : Prop where
  frame : frame numSaved m' (L.ctx j) = some ⟨saved, (L.stack j).ptr - 16, entry⟩
  holds : m'.Holds ((L.stack j).ptr - 24) [entry, args, routine]
  same : ∀ b, Outside ((L.stack j).ptr - 24) 3 b → b ≠ L.ctx j → m'.word b = m.word b

namespace Started

variable {saved : List Word64} {m m' : WordMemory} {numSaved : ℕ}

omit [DecidableEq ι] in
theorem same_out (h : Started L numSaved entry j routine args saved m m')
    (hb : ¬ (L.stack j).Within b) (hctx : b ≠ L.ctx j) : m'.word b = m.word b := by
  refine h.same b ?_ hctx
  have hsize := L.size_le j
  unfold CoroStack.Within CoroStack.offset at hb
  unfold Outside
  bv_omega

omit [DecidableEq ι] in
theorem isSome (h : Started L numSaved entry j routine args saved m m') (hb : (m.word b).isSome) :
    (m'.word b).isSome := by
  by_cases hctx : b = L.ctx j
  · obtain ⟨a, ha, -⟩ := frame_eq_some_iff.mp h.frame
    rw [hctx, ha]
    rfl
  by_cases hout : Outside ((L.stack j).ptr - 24) 3 b
  · rw [h.same b hout hctx]
    exact hb
  · exact h.holds.isSome (m.aligned b hb) hout

end Started

omit [DecidableEq ι] in
theorem MachineInv.started (h : MachineInv L c) (j : ι)
    (hinit : coroStackInit T.numSaved entry (L.ctx j) (L.stack j) routine args c.cpu.mem =
      some (T.cpu s).mem) :
    ∃ saved, Started L T.numSaved entry j routine args saved c.cpu.mem (T.cpu s).mem := by
  obtain ⟨m, hm, ⟨saved, hframe⟩, hholds, hsame⟩ := h.init_returns entry j routine args
  obtain rfl : m = (T.cpu s).mem := Option.some.inj (hm.symm.trans hinit)
  exact ⟨saved, hframe, hholds, hsame⟩

theorem start_frame (h : MachineInv L c) {saved : List Word64}
    (hstarted : Started L T.numSaved entry j routine args saved c.cpu.mem (T.cpu s).mem)
    (hij : i ≠ j) (hi : i ≠ c.current) (hr : c.regs L i = some r) :
    Coro.frame T.numSaved (T.cpu s).mem (L.ctx i) = some r := by
  refine h.frame_same hi hr ?_ fun b hb _ => ?_
  · exact hstarted.same_out (L.ctx_out i j) fun heq => hij (L.ctx_injective heq)
  · refine hstarted.same_out (fun hb' => hij (L.disjoint i j b hb hb')) ?_
    rintro rfl
    exact L.ctx_out _ _ hb

theorem start_regs (h : MachineInv L c) (hj : j ≠ c.current) {saved : List Word64}
    (hregs : (T.cpu s).regs = c.cpu.regs)
    (hstarted : Started L T.numSaved entry j routine args saved c.cpu.mem (T.cpu s).mem) :
    Machine.regs L { c with state := s, ready := Function.update c.ready j true } =
      Function.update (c.regs L) j (some ⟨saved, (L.stack j).ptr - 16, entry⟩) := by
  funext i
  by_cases hij : i = j
  · subst hij
    rw [Function.update_self, ← hstarted.frame]
    exact Machine.regs_ready (c := { c with state := s, ready := _ }) hj (Function.update_self ..)
  rw [Function.update_of_ne hij]
  by_cases hi : i = c.current
  · subst hi
    exact (if_pos rfl).trans ((congrArg some hregs).trans Machine.regs_current.symm)
  · have hready : Function.update c.ready j true i = c.ready i := Function.update_of_ne hij ..
    cases hc : c.ready i with
    | false => simp [Machine.regs, hi, hij, hc]
    | true =>
      obtain ⟨r', hr', -⟩ := h.suspended i hi hc
      have hr : c.regs L i = some r' := (Machine.regs_ready hi hc).trans hr'
      rw [hr, ← start_frame h hstarted hij hi hr]
      exact Machine.regs_ready (c := { c with state := s, ready := _ }) hi (hready.trans hc)

omit [DecidableEq ι] in
theorem start_points (j : ι) (hnum : T.numSaved ≤ 11) : (L.stack j).Points ((L.stack j).ptr - 16) ∧
    (L.stack j).Room T.numSaved ((L.stack j).ptr - 16) ∧
    (L.stack j).offset ((L.stack j).ptr - 16) = (L.stack j).sizeBytes.toNat - 16 := by
  have hsize := L.size_le j
  have haligned := L.size_aligned j
  have hoffset : (L.stack j).offset ((L.stack j).ptr - 16) = (L.stack j).sizeBytes.toNat - 16 := by
    unfold CoroStack.offset
    bv_omega
  unfold CoroStack.Points CoroStack.Room
  omega

theorem start_inv (h : MachineInv L c) {saved : List Word64}
    (hregs : (T.cpu s).regs = c.cpu.regs)
    (hstarted : Started L T.numSaved entry j routine args saved c.cpu.mem (T.cpu s).mem) :
    MachineInv L { c with state := s, ready := Function.update c.ready j true } where
  ctx_mapped i := hstarted.isSome (h.ctx_mapped i)
  stack_mapped i b hb hb' := hstarted.isSome (h.stack_mapped i b hb hb')
  running := by
    change (L.stack c.current).Points (T.cpu s).regs.sp
    rw [hregs]
    exact h.running
  suspended i hi hready := by
    by_cases hij : i = j
    · subst hij
      obtain ⟨hpoints, hroom, -⟩ := start_points (T := T) (L := L) i T.numSaved_le
      exact ⟨_, hstarted.frame, hpoints, hroom⟩
    · have hc : c.ready i := by
        rw [← hready]
        exact (Function.update_of_ne hij ..).symm
      obtain ⟨r', hr', hpoints, hroom⟩ := h.suspended i hi hc
      have hr : c.regs L i = some r' := (Machine.regs_ready (c := c) hi hc).trans hr'
      exact ⟨r', start_frame h hstarted hij hi hr, hpoints, hroom⟩

omit [DecidableEq ι] in
theorem live_within {regs : ι → Option Regs} (hr : regs j = some r) (hb : (L.stack j).Within b) :
    L.Live regs b ↔ (L.stack j).offset r.sp ≤ (L.stack j).offset b := by
  constructor
  · rintro ⟨-, hlive⟩
    obtain ⟨r', hr', hle⟩ := hlive j hb
    obtain rfl : r = r' := Option.some.inj (hr.symm.trans hr')
    exact hle
  · intro hle
    constructor
    · rintro i rfl
      exact L.ctx_out i j hb
    · intro i hi
      obtain rfl := L.disjoint i j b hi hb
      exact ⟨r, hr, hle⟩

theorem live_update_out {regs : ι → Option Regs} {o : Option Regs} (hb : ¬ (L.stack j).Within b) :
    L.Live (Function.update regs j o) b ↔ L.Live regs b := by
  refine and_congr_right fun _ => forall_congr' fun k => imp_congr_right fun hk => ?_
  have hkj : k ≠ j := by
    rintro rfl
    exact hb hk
  rw [Function.update_of_ne hkj]

omit [DecidableEq ι] in
theorem Started.word_top {saved : List Word64} {m m' : WordMemory} {numSaved : ℕ}
    (h : Started L numSaved entry j routine args saved m m') (hb : (L.stack j).Within b)
    (hle : (L.stack j).sizeBytes.toNat - 16 ≤ (L.stack j).offset b) :
    m'.word b = if b = (L.stack j).ptr - 16 then some args
      else if b = (L.stack j).ptr - 8 then some routine else none := by
  obtain ⟨-, hargs, hroutine, -⟩ := h.holds
  have hargs' : (L.stack j).ptr - 24 + 8 = (L.stack j).ptr - 16 := by bv_omega
  have hroutine' : (L.stack j).ptr - 24 + 8 + 8 = (L.stack j).ptr - 8 := by bv_omega
  rw [hargs'] at hargs
  rw [hroutine'] at hroutine
  split_ifs with hfirst hsecond
  · rw [hfirst, hargs]
  · rw [hsecond, hroutine]
  · by_contra hsome
    have haligned := m'.aligned b (Option.isSome_iff_ne_none.mpr hsome)
    have hptr := L.ptr_aligned j
    have hsize := L.size_le j
    unfold CoroStack.Within CoroStack.offset at *
    bv_omega

theorem start_threads (h : MachineInv L c) (hj : j ≠ c.current) {saved : List Word64}
    (hregs : (T.cpu s).regs = c.cpu.regs) (hshared : (T.cpu s).shared = c.cpu.shared)
    (hstarted : Started L T.numSaved entry j routine args saved c.cpu.mem (T.cpu s).mem) :
    Machine.threads L { c with state := s, ready := Function.update c.ready j true } =
      { c.threads L with
        regs := Function.update (c.regs L) j (some ⟨saved, (L.stack j).ptr - 16, entry⟩)
        mem := startStack (L.stack j) routine args (c.threads L).mem } := by
  have hregs' := start_regs h hj hregs hstarted
  refine Threads.ext rfl hregs' hshared (funext fun b => ?_)
  obtain ⟨-, -, hoffset⟩ := start_points (T := T) (L := L) j T.numSaved_le
  change _ = startStack (L.stack j) routine args (c.threads L).mem b
  unfold startStack
  by_cases hb : (L.stack j).Within b
  · rw [if_pos hb]
    have hr : Machine.regs L { c with state := s, ready := Function.update c.ready j true } j =
        some ⟨saved, (L.stack j).ptr - 16, entry⟩ := by rw [hregs', Function.update_self]
    have hiff := live_within hr hb
    rw [hoffset] at hiff
    by_cases hle : (L.stack j).sizeBytes.toNat - 16 ≤ (L.stack j).offset b
    · rw [Machine.mem_live (hiff.mpr hle)]
      exact hstarted.word_top hb hle
    · rw [Machine.mem_dead fun hlive => hle (hiff.mp hlive), if_neg, if_neg]
      · rintro rfl
        have hsize := L.size_le j
        unfold CoroStack.offset at hle
        bv_omega
      · rintro rfl
        exact hle hoffset.ge
  · rw [if_neg hb]
    have hiff : L.Live
        (Machine.regs L { c with state := s, ready := Function.update c.ready j true }) b ↔
        L.Live (c.regs L) b := by
      rw [hregs']
      exact live_update_out hb
    by_cases hlive : L.Live (c.regs L) b
    · rw [Machine.mem_live (hiff.mpr hlive), Machine.mem_live hlive]
      exact hstarted.same_out hb (hlive.1 j)
    · rw [Machine.mem_dead fun h' => hlive (hiff.mp h'), Machine.mem_dead hlive]

end Start

/-! ### Runs -/

theorem machineStep_inv (h : MachineInv L c) (hstep : MachineStep T L entry W c c') :
    MachineInv L c' := by
  cases hstep with
  | work s hworks => exact work_inv h hworks
  | switch j ret s hj hready hroom hswitch =>
    obtain ⟨r, hr, hreturns⟩ := h.switch_returns ret hj hready hroom
    obtain ⟨t, ht, hswitched⟩ := hreturns
    obtain rfl : t = s := Option.some.inj (ht.symm.trans hswitch)
    exact switch_inv h hroom hr hswitched
  | start j routine args s hj hregs hshared hinit =>
    obtain ⟨saved, hstarted⟩ := h.started j hinit
    exact start_inv h hregs hstarted

/-- Each step of the processor is a step of the threads. -/
theorem machineStep_threads (h : MachineInv L c) (hstep : MachineStep T L entry W c c') :
    ThreadStep L entry W (c.threads L) (c'.threads L) := by
  cases hstep with
  | work s hworks =>
    have hregs := work_regs h hworks
    have hthreads : Machine.threads L { c with state := s } =
        { c.threads L with
          regs := Function.update (c.regs L) c.current (some (T.cpu s).regs)
          shared := (T.cpu s).shared
          mem := (Machine.threads L { c with state := s }).mem } := Threads.ext rfl hregs rfl rfl
    rw [hthreads]
    exact ThreadStep.work (c.threads L) _ ⟨_, _, _⟩ Machine.regs_current hworks.work
  | switch j ret s hj hready hroom hswitch =>
    obtain ⟨r, hr, hreturns⟩ := h.switch_returns ret hj hready hroom
    obtain ⟨t, ht, hswitched⟩ := hreturns
    obtain rfl : t = s := Option.some.inj (ht.symm.trans hswitch)
    rw [switch_threads h hj hroom hr hswitched]
    exact ThreadStep.switch (c.threads L) j ret _ Machine.regs_current hj
      (Option.isSome_of_eq_some hr)
  | start j routine args s hj hregs hshared hinit =>
    obtain ⟨saved, hstarted⟩ := h.started j hinit
    rw [start_threads h hj hregs hshared hstarted]
    exact ThreadStep.start (c.threads L) j saved routine args hj

/-- Work that leaves the shared registers as they are. -/
def KeepsShared {ι : Type} (W : Work ι) : Prop := ∀ i v v', W i v v' → v'.shared = v.shared

theorem threadStep_shared {a a' : Threads ι} (hW : KeepsShared W) (h : ThreadStep L entry W a a') :
    a'.shared = a.shared := by
  cases h with
  | work r v hr hwork => exact hW _ _ _ hwork
  | switch | start => rfl

end Machine

end Cserv.Coro
