import Cserv.Foundations.Aarch64
import Cserv.Foundations.X86

/-!
# Context switches

The assembly of `context_switch` and `coro_routine_entry` for both architectures, and
`coro_stack_init`. A call of `context_switch` leaves the general callee-saved registers and the return
address in a frame below the stack pointer, and the address of the frame in `ctx->sp`. The calling
conventions have callee-saved registers for floating-point numbers too (`d8` to `d15` on AArch64, and
control words on both architectures): `context_switch` does not save them, so the coroutines share
them.
-/
namespace Cserv.Coro

open Foundations WordMemory

/-- What `context_switch` keeps for a caller: the callee-saved registers of a frame, from the lowest
address, the stack pointer, and where it goes on. -/
structure Regs where
  saved : List Word64
  sp : Word64
  pc : Word64
  deriving DecidableEq, Repr

/-- `shared` has the callee-saved registers that `context_switch` does not save. -/
structure Cpu where
  regs : Regs
  shared : List Word64
  mem : WordMemory

def frameBytes (numSaved : ℕ) : Word64 := BitVec.ofNat 64 (8 * (numSaved + 1))

def frame (numSaved : ℕ) (m : WordMemory) (ctx : Word64) : Option Regs := do
  let sp ← m.load ctx
  let saved ← m.read sp numSaved
  let pc ← m.load (sp + BitVec.ofNat 64 (8 * numSaved))
  return ⟨saved, sp + frameBytes numSaved, pc⟩

section Frame

variable {numSaved : ℕ} {m m' m₁ : WordMemory} {sp prev next ctx a b : Word64} {ws : List Word64}
  {r : Regs}

theorem frame_eq_some_iff : frame numSaved m ctx = some r ↔ ∃ a, m.word ctx = some a ∧
    r.saved.length = numSaved ∧ m.Holds a (r.saved ++ [r.pc]) ∧ r.sp = a + frameBytes numSaved := by
  constructor
  · intro h
    obtain ⟨a, ha, h⟩ := Option.bind_eq_some_iff.mp h
    obtain ⟨saved, hsaved, h⟩ := Option.bind_eq_some_iff.mp h
    obtain ⟨pc, hpc, h⟩ := Option.bind_eq_some_iff.mp h
    cases h
    obtain ⟨hlen, hholds⟩ := read_eq_some_iff.mp hsaved
    refine ⟨a, ha, hlen, holds_append.mpr ⟨hholds, ?_, trivial⟩, rfl⟩
    rw [hlen]
    exact hpc
  · rintro ⟨a, ha, hlen, hholds, hsp⟩
    obtain ⟨hsaved, hpc, -⟩ := holds_append.mp hholds
    rw [hlen] at hpc
    have hread := read_eq_some_iff.mpr ⟨hlen, hsaved⟩
    simp only [frame, load, ha, hread, hpc, Option.bind_eq_bind, Option.bind_some, ← hsp]
    rfl

theorem frame_congr (h : frame numSaved m ctx = some r) (hctx : m'.word ctx = m.word ctx)
    (hsame : ∀ c, ¬ Outside (r.sp - frameBytes numSaved) (numSaved + 1) c → m'.word c = m.word c) :
    frame numSaved m' ctx = some r := by
  obtain ⟨a, ha, hlen, hholds, hsp⟩ := frame_eq_some_iff.mp h
  have hstart : r.sp - frameBytes numSaved = a := by
    rw [hsp]
    bv_omega
  rw [hstart] at hsame
  refine frame_eq_some_iff.mpr ⟨a, hctx.trans ha, hlen, hholds.congr fun c hc => hsame c ?_, hsp⟩
  simpa [hlen] using hc

/-- `context_switch(prev, next)` with the stack pointer `sp`: the frame that begins at `a` is
mapped, `next` has a context, and nothing that is written is part of it. -/
structure SwitchPre (numSaved : ℕ) (m : WordMemory) (sp prev next a : Word64) (r : Regs) : Prop where
  sp_eq : sp = a + frameBytes numSaved
  mapped : m.Mapped a (numSaved + 1)
  prev_mapped : (m.word prev).isSome
  prev_out : Outside a (numSaved + 1) prev
  next_out : Outside a (numSaved + 1) next
  next_ne : next ≠ prev
  resumes : frame numSaved m next = some r
  apart : ∀ c, ¬ Outside (r.sp - frameBytes numSaved) (numSaved + 1) c →
    Outside a (numSaved + 1) c ∧ c ≠ prev

/-- The frame `ws` has been left at `a` for the context `prev`. -/
structure Saved (m m' : WordMemory) (prev a : Word64) (ws : List Word64) : Prop where
  holds : m'.Holds a ws
  ctx : m'.word prev = some a
  same : ∀ c, Outside a ws.length c → c ≠ prev → m'.word c = m.word c

/-- The processor resumes `r` and has left what it had for `prev`. -/
structure Switched (numSaved : ℕ) (cpu cpu' : Cpu) (prev a ret : Word64) (r : Regs) : Prop where
  regs : cpu'.regs = r
  shared : cpu'.shared = cpu.shared
  saved : Saved cpu.mem cpu'.mem prev a (cpu.regs.saved ++ [ret])

theorem Saved.isSome (h : Saved m m' prev a ws) (hb : (m.word b).isSome) : (m'.word b).isSome := by
  by_cases hprev : b = prev
  · rw [hprev, h.ctx]
    rfl
  by_cases hout : Outside a ws.length b
  · rw [h.same b hout hprev]
    exact hb
  · exact h.holds.isSome (m.aligned b hb) hout

/-- Storing `ctx->sp` behind the frame leaves the context of `next` as it is. -/
theorem SwitchPre.save (h : SwitchPre numSaved m sp prev next a r) (hwrote : Wrote m m₁ a ws)
    (hlen : ws.length = numSaved + 1) :
    ∃ m₂, m₁.store prev a = some m₂ ∧ Saved m m₂ prev a ws ∧ frame numSaved m₂ next = some r := by
  obtain ⟨m₂, hstore, hprev, hsame⟩ := store_mapped (hwrote.isSome h.prev_mapped) a
  have hout : ∀ c, Outside a (numSaved + 1) c → c ≠ prev → m₂.word c = m.word c := by
    intro c hc hne
    rw [hsame c hne, hwrote.frame c (hlen ▸ hc)]
  refine ⟨m₂, hstore, ⟨?_, hprev, fun c hc => hout c (hlen ▸ hc)⟩, ?_⟩
  · refine hwrote.holds.congr fun c hc => hsame c ?_
    rintro rfl
    exact hc (hlen ▸ h.prev_out)
  · refine frame_congr h.resumes (hout next h.next_out h.next_ne) fun c hc => ?_
    exact hout c (h.apart c hc).1 (h.apart c hc).2

end Frame

/-! ## x86-64 -/

namespace X86

open Foundations.X86

def contextSwitch : List Instr :=
  [.push .rbp, .push .rbx, .push .r12, .push .r13, .push .r14, .push .r15,
    .store .rsp .rdi, .load .rsi .rsp,
    .pop .r15, .pop .r14, .pop .r13, .pop .r12, .pop .rbx, .pop .rbp, .pop .rcx, .jmp .rcx]

def coroRoutineEntry (next : Word64) : List Instr := [.pop .rdi, .pop .rcx, .call .rcx next]

def numSaved : ℕ := 6

/-- The callee-saved registers of `context_switch`, the last one pushed first. -/
def saved : List Reg := [.r15, .r14, .r13, .r12, .rbx, .rbp]

def cpu (s : State) : Cpu :=
  ⟨⟨saved.map s.reg, s.reg .rsp, s.rip⟩, [ControlReg.mxcsr, .x87].map s.control, s.mem⟩

/-- The arguments are in `rdi` and `rsi`, and the call pushes its return address. -/
def callContextSwitch (prev next ret : Word64) (s : State) : Option State := do
  let t ← ((s.set .rdi prev).set .rsi next).pushWord ret
  t.run contextSwitch

theorem contextSwitch_eq : contextSwitch = saved.reverse.map .push ++
    ([.store .rsp .rdi, .load .rsi .rsp] ++ ((saved ++ [Reg.rcx]).map .pop ++ [.jmp .rcx])) := rfl

variable {s : State} {prev next a b ret : Word64} {r : Regs}

theorem push_frame (prev next ret : Word64) (hsp : s.reg .rsp = a + frameBytes numSaved)
    (hmapped : s.mem.Mapped a (numSaved + 1)) :
    Returns (((s.set .rdi prev).set .rsi next).pushWord ret >>= fun t =>
        t.run (saved.reverse.map .push)) fun u =>
      u.reg .rsp = a ∧ u.reg .rdi = prev ∧ u.reg .rsi = next ∧
        Wrote s.mem u.mem a (saved.map s.reg ++ [ret]) := by
  obtain ⟨hregs, hret⟩ := hmapped.split
  have hsp₀ : ((s.set .rdi prev).set .rsi next).reg .rsp = a + BitVec.ofNat 64 (8 * numSaved) + 8 := by
    change s.reg .rsp = _
    rw [hsp, frameBytes]
    bv_omega
  have hcall := pushWord_returns (m := s.mem) hsp₀ hret.head (Wrote.nil ..) (by simp) ret
  refine hcall.bind ?_
  rintro t ⟨hreg, -, hwrote⟩
  have htsp : t.reg .rsp = a + BitVec.ofNat 64 (8 * saved.reverse.length) := by
    rw [hreg]
    rfl
  refine (push_returns (by decide) (by decide) htsp
    (hregs.mono fun b hb => hwrote.isSome hb)).mono ?_
  rintro u ⟨hureg, -, huwrote⟩
  rw [hureg, hreg]
  refine ⟨rfl, rfl, rfl, ?_⟩
  have hsaved : saved.reverse.reverse.map t.reg = saved.map s.reg := by
    rw [hreg]
    rfl
  rw [hsaved] at huwrote
  exact hwrote.append huwrote (by simp [saved])

theorem pop_frame (hframe : frame numSaved s.mem next = some r)
    (hsp : s.mem.word next = some (s.reg .rsp)) :
    Returns (s.run ((saved ++ [Reg.rcx]).map .pop ++ [.jmp .rcx])) fun t =>
      (cpu t).regs = r ∧ t.mem = s.mem := by
  obtain ⟨a, ha, hlen, hholds, hrsp⟩ := frame_eq_some_iff.mp hframe
  have hstart : a = s.reg .rsp := Option.some.inj (ha.symm.trans hsp)
  rw [hstart] at hholds hrsp
  rw [Foundations.X86.run_append]
  have hpop := pop_returns (s := s) (saved ++ [.rcx]) (by decide) (by decide)
    (by simp [saved, hlen, numSaved]) hholds
  refine hpop.bind ?_
  rintro t ⟨hregs, hmem, -, htsp, -⟩
  rw [List.map_append] at hregs
  obtain ⟨hsaved, hpc⟩ := List.append_inj' hregs rfl
  refine Returns.some ?_
  have hrip : t.reg .rcx = r.pc := (List.cons.inj hpc).1
  have hresumed : t.reg .rsp = r.sp := by
    rw [htsp, hrsp]
    rfl
  exact ⟨by simp only [cpu, hsaved, hrip, hresumed], hmem⟩

theorem callContextSwitch_shared {t : State} (h : callContextSwitch prev next ret s = some t) :
    (cpu t).shared = (cpu s).shared := by
  obtain ⟨u, hu, h⟩ := Option.bind_eq_some_iff.mp h
  have hcontrol : t.control = ((s.set .rdi prev).set .rsi next).control :=
    (run_control h).trans (pushWord_control hu)
  simp only [cpu, hcontrol]
  rfl

theorem callContextSwitch_returns
    (h : SwitchPre numSaved s.mem (s.reg .rsp) prev next a r) :
    Returns (callContextSwitch prev next ret s) fun t =>
      Switched numSaved (cpu s) (cpu t) prev a ret r := by
  have hreturns : Returns (callContextSwitch prev next ret s) fun t =>
      (cpu t).regs = r ∧ Saved s.mem t.mem prev a (saved.map s.reg ++ [ret]) := by
    have hpush := push_frame prev next ret h.sp_eq h.mapped
    simp only [callContextSwitch, contextSwitch_eq,
      Foundations.X86.run_append _ (saved.reverse.map .push)]
    rw [← bind_assoc]
    refine hpush.bind ?_
    rintro u ⟨hsp, hrdi, hrsi, hwrote⟩
    obtain ⟨m, hstore, hsaved, hframe⟩ := h.save hwrote rfl
    obtain ⟨b, hb, -⟩ := frame_eq_some_iff.mp hframe
    have hmov : u.run [.store .rsp .rdi, .load .rsi .rsp] = some { u.set .rsp b with mem := m } := by
      simp [State.run, State.step, hsp, hrdi, hrsi, hstore, load, hb, State.set]
    rw [Foundations.X86.run_append]
    refine Returns.step hmov ?_
    refine (pop_frame (s := { u.set .rsp b with mem := m }) hframe hb).mono ?_
    rintro t ⟨hregs, hmem⟩
    exact ⟨hregs, by rw [hmem]; exact hsaved⟩
  obtain ⟨t, ht, hregs, hsaved⟩ := hreturns
  exact ⟨t, ht, hregs, callContextSwitch_shared ht, hsaved⟩

theorem coroRoutineEntry_returns {args routine : Word64} (hargs : s.mem.word (s.reg .rsp) = some args)
    (hroutine : s.mem.word (s.reg .rsp + 8) = some routine) :
    Returns (s.run (coroRoutineEntry next)) fun t => t.reg .rdi = args ∧ t.rip = routine ∧
      t.reg .rsp = s.reg .rsp + 8 ∧ Wrote s.mem t.mem (s.reg .rsp + 8) [next] := by
  have hpop := pop_returns (s := s) [.rdi, .rcx] (by decide) (by decide) (Eq.refl [args, routine].length)
    ⟨hargs, hroutine, trivial⟩
  change Returns (s.run ([Reg.rdi, .rcx].map .pop ++ [.call .rcx next])) _
  rw [Foundations.X86.run_append]
  refine hpop.bind ?_
  rintro t ⟨hregs, hmem, -, htsp, -⟩
  obtain ⟨hrdi, hrcx⟩ := List.cons.inj hregs
  have hsp : t.reg .rsp = s.reg .rsp + 8 + 8 := by
    rw [htsp, List.length_cons, List.length_singleton]
    bv_omega
  have hcall := pushWord_returns hsp (by rw [hmem, hroutine]; rfl)
    (by rw [hmem]; exact Wrote.nil s.mem _) (by simp) next
  obtain ⟨u, hu, hureg, -, huwrote⟩ := hcall
  refine ⟨{ u with rip := t.reg .rcx }, by simp [State.run, State.step, hu], ?_, ?_, ?_, huwrote⟩
  · rw [hureg]
    exact hrdi
  · exact (List.cons.inj hrcx).1
  · rw [hureg]
    rfl

/-- At the first instruction of a function the return address lies on the stack. -/
def EntryAligned (sp : Word64) : Prop := (sp + 8).toNat % 16 = 0

theorem entry_returns {args routine : Word64} (hsp : (s.reg .rsp).toNat % 16 = 0)
    (hargs : s.mem.word (s.reg .rsp) = some args)
    (hroutine : s.mem.word (s.reg .rsp + 8) = some routine) :
    Returns (s.run (coroRoutineEntry next)) fun t => t.reg .rdi = args ∧ t.rip = routine ∧
      EntryAligned (t.reg .rsp) ∧
      (t.reg .rsp = s.reg .rsp + 8 ∨ t.reg .rsp = s.reg .rsp + 16) ∧
      ∀ b, Outside (s.reg .rsp) 2 b → t.mem.word b = s.mem.word b := by
  refine (coroRoutineEntry_returns hargs hroutine).mono ?_
  rintro t ⟨hrdi, hrip, hrsp, hwrote⟩
  rw [hrsp]
  refine ⟨hrdi, hrip, ?_, Or.inl rfl, fun b hb => hwrote.frame b hb.tail⟩
  unfold EntryAligned
  bv_omega

end X86

/-! ## AArch64 -/

namespace Aarch64

open Foundations.Aarch64

def contextSwitch : List Instr :=
  [.sub .sp 96, .mov .x8 .sp,
    .stp .x19 .x20 .x8, .stp .x21 .x22 .x8, .stp .x23 .x24 .x8, .stp .x25 .x26 .x8,
    .stp .x27 .x28 .x8, .stp .x29 .lr .x8,
    .mov .x8 .sp, .str .x8 .x0, .ldr .x8 .x1, .mov .sp .x8,
    .ldp .x19 .x20 .x8, .ldp .x21 .x22 .x8, .ldp .x23 .x24 .x8, .ldp .x25 .x26 .x8,
    .ldp .x27 .x28 .x8, .ldp .x29 .lr .x8,
    .mov .sp .x8, .br .lr]

def coroRoutineEntry (next : Word64) : List Instr :=
  [.mov .x8 .sp, .ldp .x0 .x9 .x8, .mov .sp .x8, .blr .x9 next]

def numSaved : ℕ := 11

def saved : List Reg := [.x19, .x20, .x21, .x22, .x23, .x24, .x25, .x26, .x27, .x28, .x29]

/-- The pairs of `context_switch`, with the return address in the last one. -/
def pairs : List (Reg × Reg) :=
  [(.x19, .x20), (.x21, .x22), (.x23, .x24), (.x25, .x26), (.x27, .x28), (.x29, .lr)]

def shared : List FpReg := [.d8, .d9, .d10, .d11, .d12, .d13, .d14, .d15, .fpcr]

def cpu (s : State) : Cpu := ⟨⟨saved.map s.reg, s.reg .sp, s.pc⟩, shared.map s.fp, s.mem⟩

/-- The arguments are in `x0` and `x1`, and the call leaves its return address in `lr`. -/
def callContextSwitch (prev next ret : Word64) (s : State) : Option State :=
  (((s.set .x0 prev).set .x1 next).set .lr ret).run contextSwitch

theorem contextSwitch_eq : contextSwitch = [.sub .sp 96, .mov .x8 .sp] ++ (stpAll .x8 pairs ++
    ([.mov .x8 .sp, .str .x8 .x0, .ldr .x8 .x1, .mov .sp .x8] ++ (ldpAll .x8 pairs ++
      [.mov .sp .x8, .br .lr]))) := rfl

theorem unpair_pairs : unpair pairs = saved ++ [.lr] := rfl

variable {s : State} {prev next a b ret : Word64} {r : Regs}

theorem store_frame (prev next ret : Word64) (hsp : s.reg .sp = a + frameBytes numSaved)
    (hmapped : s.mem.Mapped a (numSaved + 1)) :
    Returns ((((s.set .x0 prev).set .x1 next).set .lr ret).run
        ([.sub .sp 96, .mov .x8 .sp] ++ stpAll .x8 pairs)) fun u =>
      u.reg .sp = a ∧ u.reg .x0 = prev ∧ u.reg .x1 = next ∧
        Wrote s.mem u.mem a (saved.map s.reg ++ [ret]) := by
  have ha : s.reg .sp - BitVec.ofNat 64 96 = a := by
    rw [hsp, frameBytes, numSaved]
    bv_omega
  rw [Foundations.Aarch64.run_append]
  refine Returns.step (a := ((((s.set .x0 prev).set .x1 next).set .lr ret).set .sp a).set .x8 a) ?_ ?_
  · simp only [State.run, List.foldlM_cons, List.foldlM_nil, State.step]
    change some ((State.set _ .sp (s.reg .sp - BitVec.ofNat 64 96)).set .x8
      (s.reg .sp - BitVec.ofNat 64 96)) = _
    rw [ha]
  · refine (stp_returns (s := ((((s.set .x0 prev).set .x1 next).set .lr ret).set .sp a).set .x8 a)
      .x8 pairs (by decide) (by decide) rfl hmapped).mono ?_
    rintro u ⟨hreg, -, hwrote⟩
    rw [hreg]
    exact ⟨rfl, rfl, rfl, hwrote⟩

theorem load_frame (hframe : frame numSaved s.mem next = some r)
    (hsp : s.mem.word next = some (s.reg .x8)) :
    Returns (s.run (ldpAll .x8 pairs ++ [.mov .sp .x8, .br .lr])) fun t =>
      (cpu t).regs = r ∧ t.mem = s.mem := by
  obtain ⟨a, ha, hlen, hholds, hrsp⟩ := frame_eq_some_iff.mp hframe
  have hstart : a = s.reg .x8 := Option.some.inj (ha.symm.trans hsp)
  rw [hstart] at hholds hrsp
  rw [Foundations.Aarch64.run_append]
  have hload := ldp_returns (s := s) .x8 pairs (by decide) (by decide)
    (by simp [unpair_pairs, saved, hlen, numSaved]) hholds
  refine hload.bind ?_
  rintro t ⟨hregs, hmem, -, hx8, -⟩
  rw [unpair_pairs, List.map_append] at hregs
  obtain ⟨hsaved, hpc⟩ := List.append_inj' hregs rfl
  refine Returns.some (a := { t.set .sp (t.reg .x8) with pc := t.reg .lr }) ?_
  have hlr : t.reg .lr = r.pc := (List.cons.inj hpc).1
  have hresumed : t.reg .x8 = r.sp := by
    rw [hx8, hrsp]
    rfl
  refine ⟨?_, hmem⟩
  change (⟨saved.map t.reg, t.reg .x8, t.reg .lr⟩ : Regs) = r
  rw [hsaved, hlr, hresumed]

theorem callContextSwitch_shared {t : State} (h : callContextSwitch prev next ret s = some t) :
    (cpu t).shared = (cpu s).shared := by
  have hfp : t.fp = (((s.set .x0 prev).set .x1 next).set .lr ret).fp := run_fp h
  simp only [cpu, hfp]
  rfl

theorem callContextSwitch_returns
    (h : SwitchPre numSaved s.mem (s.reg .sp) prev next a r) :
    Returns (callContextSwitch prev next ret s) fun t =>
      Switched numSaved (cpu s) (cpu t) prev a ret r := by
  have hreturns : Returns (callContextSwitch prev next ret s) fun t =>
      (cpu t).regs = r ∧ Saved s.mem t.mem prev a (saved.map s.reg ++ [ret]) := by
    have hstore := store_frame prev next ret h.sp_eq h.mapped
    rw [callContextSwitch, contextSwitch_eq, ← List.append_assoc, Foundations.Aarch64.run_append]
    refine hstore.bind ?_
    rintro u ⟨hsp, hx0, hx1, hwrote⟩
    obtain ⟨m, hstore, hsaved, hframe⟩ := h.save hwrote rfl
    obtain ⟨b, hb, -⟩ := frame_eq_some_iff.mp hframe
    have hmov : u.run [.mov .x8 .sp, .str .x8 .x0, .ldr .x8 .x1, .mov .sp .x8] =
        some { (u.set .x8 b).set .sp b with mem := m } := by
      simp [State.run, State.step, hsp, hx0, hx1, hstore, load, hb, State.set]
    rw [Foundations.Aarch64.run_append]
    refine Returns.step hmov ?_
    refine (load_frame (s := { (u.set .x8 b).set .sp b with mem := m }) hframe hb).mono ?_
    rintro t ⟨hregs, hmem⟩
    exact ⟨hregs, by rw [hmem]; exact hsaved⟩
  obtain ⟨t, ht, hregs, hsaved⟩ := hreturns
  exact ⟨t, ht, hregs, callContextSwitch_shared ht, hsaved⟩

theorem coroRoutineEntry_returns {args routine : Word64} (hargs : s.mem.word (s.reg .sp) = some args)
    (hroutine : s.mem.word (s.reg .sp + 8) = some routine) :
    Returns (s.run (coroRoutineEntry next)) fun t => t.reg .x0 = args ∧ t.pc = routine ∧
      t.reg .sp = s.reg .sp + 16 ∧ t.mem = s.mem := by
  have hload : (s.set .x8 (s.reg .sp)).step (.ldp .x0 .x9 .x8) =
      some ((((s.set .x8 (s.reg .sp)).set .x8 (s.reg .sp + 16)).set .x0 args).set .x9 routine) := by
    change (s.mem.word (s.reg .sp) >>= _) = _
    rw [hargs, Option.bind_eq_bind, Option.bind_some]
    change (s.mem.word (s.reg .sp + 8) >>= _) = _
    rw [hroutine]
    rfl
  refine Returns.step (o := s.step (.mov .x8 .sp)) rfl (Returns.step hload ?_)
  exact Returns.some ⟨rfl, rfl, rfl, rfl⟩

def EntryAligned (sp : Word64) : Prop := sp.toNat % 16 = 0

theorem entry_returns {args routine : Word64} (hsp : (s.reg .sp).toNat % 16 = 0)
    (hargs : s.mem.word (s.reg .sp) = some args)
    (hroutine : s.mem.word (s.reg .sp + 8) = some routine) :
    Returns (s.run (coroRoutineEntry next)) fun t => t.reg .x0 = args ∧ t.pc = routine ∧
      EntryAligned (t.reg .sp) ∧ (t.reg .sp = s.reg .sp + 8 ∨ t.reg .sp = s.reg .sp + 16) ∧
      ∀ b, Outside (s.reg .sp) 2 b → t.mem.word b = s.mem.word b := by
  refine (coroRoutineEntry_returns hargs hroutine).mono ?_
  rintro t ⟨hx0, hpc, htsp, hmem⟩
  rw [htsp, hmem]
  refine ⟨hx0, hpc, ?_, Or.inr rfl, fun b _ => rfl⟩
  unfold EntryAligned
  bv_omega

end Aarch64

/-! ## Both architectures -/

/-- What an architecture has for the coroutines, and what holds for it. `entryAligned` is the
alignment of the stack pointer that its calling convention asks for at the first instruction of a
function. -/
structure Target where
  State : Type
  cpu : State → Cpu
  setMem : WordMemory → State → State
  numSaved : ℕ
  /-- A call of `context_switch(prev, next)` that returns to `ret`. -/
  contextSwitch (prev next ret : Word64) : State → Option State
  /-- `coro_routine_entry`, with the address behind its call. -/
  coroRoutineEntry (next : Word64) : State → Option State
  /-- The first argument of a function. -/
  argument : State → Word64
  entryAligned : Word64 → Prop
  cpu_setMem : ∀ m s, cpu (setMem m s) = { cpu s with mem := m }
  numSaved_le : numSaved ≤ 11
  length_saved : ∀ s, (cpu s).regs.saved.length = numSaved
  switch_returns : ∀ {s prev next a ret r},
    SwitchPre numSaved (cpu s).mem (cpu s).regs.sp prev next a r →
      Returns (contextSwitch prev next ret s) fun t =>
        Switched numSaved (cpu s) (cpu t) prev a ret r
  entry_returns : ∀ {s next args routine}, (cpu s).regs.sp.toNat % 16 = 0 →
    (cpu s).mem.word (cpu s).regs.sp = some args →
    (cpu s).mem.word ((cpu s).regs.sp + 8) = some routine →
      Returns (coroRoutineEntry next s) fun t => argument t = args ∧ (cpu t).regs.pc = routine ∧
        entryAligned (cpu t).regs.sp ∧
        ((cpu t).regs.sp = (cpu s).regs.sp + 8 ∨ (cpu t).regs.sp = (cpu s).regs.sp + 16) ∧
        ∀ b, Outside (cpu s).regs.sp 2 b → (cpu t).mem.word b = (cpu s).mem.word b

inductive Arch
  | x86_64
  | aarch64
  deriving DecidableEq, Repr

def Arch.target : Arch → Target
  | .x86_64 =>
    { State := Foundations.X86.State
      cpu := X86.cpu
      setMem := fun m s => { s with mem := m }
      numSaved := X86.numSaved
      contextSwitch := X86.callContextSwitch
      coroRoutineEntry := fun next s => s.run (X86.coroRoutineEntry next)
      argument := fun s => s.reg .rdi
      entryAligned := X86.EntryAligned
      cpu_setMem := fun _ _ => rfl
      numSaved_le := by decide
      length_saved := fun _ => rfl
      switch_returns := X86.callContextSwitch_returns
      entry_returns := X86.entry_returns }
  | .aarch64 =>
    { State := Foundations.Aarch64.State
      cpu := Aarch64.cpu
      setMem := fun m s => { s with mem := m }
      numSaved := Aarch64.numSaved
      contextSwitch := Aarch64.callContextSwitch
      coroRoutineEntry := fun next s => s.run (Aarch64.coroRoutineEntry next)
      argument := fun s => s.reg .x0
      entryAligned := Aarch64.EntryAligned
      cpu_setMem := fun _ _ => rfl
      numSaved_le := by decide
      length_saved := fun _ => rfl
      switch_returns := Aarch64.callContextSwitch_returns
      entry_returns := Aarch64.entry_returns }

/-! ## The stack of a coroutine -/

/-- `struct coro_stack`; the stack grows down from `ptr`. -/
structure CoroStack where
  ptr : Word64
  sizeBytes : Word64
  deriving DecidableEq, Repr

def pushCtx (ctx word : Word64) (m : WordMemory) : Option WordMemory := do
  let sp ← m.load ctx
  let m ← m.store ctx (sp - 8)
  m.store (sp - 8) word

/-- `coro_stack_init`; `entry` is the address of `coro_routine_entry`. -/
def coroStackInit (numSaved : ℕ) (entry ctx : Word64) (stack : CoroStack) (routine args : Word64)
    (m : WordMemory) : Option WordMemory := do
  let m ← m.store ctx stack.ptr
  let m ← pushCtx ctx routine m
  let m ← pushCtx ctx args m
  let m ← pushCtx ctx entry m
  let sp ← m.load ctx
  m.store ctx (sp - BitVec.ofNat 64 (8 * numSaved))

section Init

variable {m m₀ : WordMemory} {numSaved : ℕ} {entry ctx a w routine args : Word64} {ws : List Word64}
  {stack : CoroStack}

theorem Saved.push (h : Saved m₀ m ctx (a + 8) ws) (hmapped : (m₀.word a).isSome)
    (hlen : ws.length < 2 ^ 61) (hctx : Outside a (ws.length + 1) ctx) (w : Word64) :
    Returns (pushCtx ctx w m) fun m' => Saved m₀ m' ctx a (w :: ws) := by
  have hsp : a + 8 - 8 = a := by bv_omega
  have hne : a ≠ ctx := Ne.symm hctx.ne
  obtain ⟨m₁, hstore₁, hhead₁, hsame₁⟩ := store_mapped (m := m) (a := ctx) (by rw [h.ctx]; rfl) a
  have ha : (m₁.word a).isSome := by
    rw [hsame₁ a hne, h.same a (outside_next a hlen) hne]
    exact hmapped
  obtain ⟨m₂, hstore₂, hhead₂, hsame₂⟩ := store_mapped ha w
  refine Returns.step h.ctx ?_
  rw [hsp]
  refine Returns.step hstore₁ ⟨m₂, hstore₂, ⟨⟨hhead₂, ?_⟩, ?_, ?_⟩⟩
  · refine h.holds.congr fun b hb => ?_
    have hba : b ≠ a := by
      rintro rfl
      exact hb (outside_next _ hlen)
    have hbctx : b ≠ ctx := by
      rintro rfl
      exact hb hctx.tail
    rw [hsame₂ b hba, hsame₁ b hbctx]
  · rw [hsame₂ ctx hne.symm, hhead₁]
  · intro b hb hbctx
    rw [hsame₂ b hb.ne, hsame₁ b hbctx, h.same b hb.tail hbctx]

/-- A new context resumes in `coro_routine_entry`, with the argument and the routine on top of the
stack. Only three words and the context are written. -/
theorem coroStackInit_returns (hnum : numSaved ≤ 11)
    (hmapped : m₀.Mapped (stack.ptr - BitVec.ofNat 64 (8 * (numSaved + 3))) (numSaved + 3))
    (hmappedCtx : (m₀.word ctx).isSome)
    (hctx : Outside (stack.ptr - BitVec.ofNat 64 (8 * (numSaved + 3))) (numSaved + 3) ctx) :
    Returns (coroStackInit numSaved entry ctx stack routine args m₀) fun m =>
      (∃ saved, frame numSaved m ctx = some ⟨saved, stack.ptr - 16, entry⟩) ∧
        m.Holds (stack.ptr - 24) [entry, args, routine] ∧
        ∀ b, Outside (stack.ptr - 24) 3 b → b ≠ ctx → m.word b = m₀.word b := by
  obtain ⟨a, ha⟩ : ∃ a, a = stack.ptr - BitVec.ofNat 64 (8 * (numSaved + 3)) +
    BitVec.ofNat 64 (8 * numSaved) := ⟨_, rfl⟩
  have hptr : stack.ptr = a + 8 + 8 + 8 := by bv_omega
  obtain ⟨⟨saved, hlen, hholds⟩, htop⟩ := hmapped.split
  rw [← ha] at htop
  have hctxTop : Outside a 3 ctx := by
    unfold Outside at hctx ⊢
    bv_omega
  obtain ⟨m₁, hstore₁, hhead₁, hsame₁⟩ := store_mapped hmappedCtx stack.ptr
  have hsaved₁ : Saved m₀ m₁ ctx (a + 8 + 8 + 8) [] := by
    rw [← hptr]
    exact ⟨trivial, hhead₁, fun b _ hb => hsame₁ b hb⟩
  have hroutine := hsaved₁.push htop.tail.tail.head (by simp) hctxTop.tail.tail routine
  refine Returns.step hstore₁ (hroutine.bind fun m₂ hsaved₂ => ?_)
  have hargs := hsaved₂.push htop.tail.head (by simp) hctxTop.tail args
  refine hargs.bind fun m₃ hsaved₃ => ?_
  have hentry := hsaved₃.push htop.head (by simp) hctxTop entry
  refine hentry.bind fun m₄ hsaved₄ => ?_
  obtain ⟨m₅, hstore₅, hhead₅, hsame₅⟩ := store_mapped (m := m₄) (a := ctx)
    (by rw [hsaved₄.ctx]; rfl) (a - BitVec.ofNat 64 (8 * numSaved))
  refine Returns.step hsaved₄.ctx ⟨m₅, hstore₅, ?_⟩
  have hframe : a - BitVec.ofNat 64 (8 * numSaved) =
      stack.ptr - BitVec.ofNat 64 (8 * (numSaved + 3)) := by bv_omega
  have htop₅ : m₅.Holds a [entry, args, routine] := by
    refine hsaved₄.holds.congr fun b hb => hsame₅ b ?_
    rintro rfl
    exact hb hctxTop
  have hregs₅ : m₅.Holds (a - BitVec.ofNat 64 (8 * numSaved)) saved := by
    rw [hframe]
    refine hholds.congr fun b hb => ?_
    have hbctx : b ≠ ctx := by
      rintro rfl
      refine hb ?_
      unfold Outside at hctx ⊢
      omega
    have hbout : Outside a 3 b := by
      unfold Outside at hb ⊢
      bv_omega
    rw [hsame₅ b hbctx, hsaved₄.same b hbout hbctx]
  refine ⟨⟨saved, frame_eq_some_iff.mpr ⟨_, hhead₅, hlen, holds_append.mpr ⟨hregs₅, ?_, trivial⟩, ?_⟩⟩,
    ?_, ?_⟩
  · have hpc : a - BitVec.ofNat 64 (8 * numSaved) + BitVec.ofNat 64 (8 * saved.length) = a := by
      rw [hlen]
      bv_omega
    rw [hpc]
    exact htop₅.1
  · rw [frameBytes]
    bv_omega
  · have hstart : stack.ptr - 24 = a := by bv_omega
    rw [hstart]
    exact htop₅
  · intro b hb hbctx
    have hbout : Outside a 3 b := by
      unfold Outside at hb ⊢
      bv_omega
    rw [hsame₅ b hbctx, hsaved₄.same b hbout hbctx]

end Init

end Cserv.Coro
