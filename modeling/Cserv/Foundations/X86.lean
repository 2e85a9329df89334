import Cserv.Foundations.Returns
import Cserv.Foundations.Words

/-!
# A fragment of the x86-64 instruction set

Straight-line code that pushes, pops and moves 64-bit registers and ends in an indirect jump or
call. Code fails where it touches memory that is not mapped.
-/
namespace Cserv.Foundations.X86

open WordMemory

inductive Reg
  | rbp
  | rbx
  | r12
  | r13
  | r14
  | r15
  | rsp
  | rcx
  | rdi
  | rsi
  deriving DecidableEq, Repr

/-- The control words of the floating-point units. -/
inductive ControlReg
  | mxcsr
  | x87
  deriving DecidableEq, Repr

structure State where
  reg : Reg → Word64
  control : ControlReg → Word64
  rip : Word64
  mem : WordMemory

/-- The operands are in the order of the assembler: `mov %src, (%base)` and `mov (%base), %dst`. A
call knows the address behind it. -/
inductive Instr
  | push (r : Reg)
  | pop (r : Reg)
  | store (src base : Reg)
  | load (base dst : Reg)
  | jmp (r : Reg)
  | call (r : Reg) (next : Word64)
  deriving DecidableEq, Repr

namespace State

variable (s : State)

def set (r : Reg) (w : Word64) : State := { s with reg := Function.update s.reg r w }

def pushWord (w : Word64) : Option State := do
  let m ← s.mem.store (s.reg .rsp - 8) w
  return { s.set .rsp (s.reg .rsp - 8) with mem := m }

def step : Instr → Option State
  | .push r => s.pushWord (s.reg r)
  | .pop r => do
    let w ← s.mem.load (s.reg .rsp)
    return (s.set .rsp (s.reg .rsp + 8)).set r w
  | .store src base => do
    let m ← s.mem.store (s.reg base) (s.reg src)
    return { s with mem := m }
  | .load base dst => do
    let w ← s.mem.load (s.reg base)
    return s.set dst w
  | .jmp r => some { s with rip := s.reg r }
  | .call r next => do
    let t ← s.pushWord next
    return { t with rip := s.reg r }

def run (code : List Instr) : Option State := code.foldlM step s

end State

variable {s : State} {a w : Word64} {ws : List Word64} {rs : List Reg}

theorem run_append (s : State) (code code' : List Instr) :
    s.run (code ++ code') = s.run code >>= fun t => t.run code' := List.foldlM_append ..

theorem pushWord_control {t : State} (h : s.pushWord w = some t) : t.control = s.control := by
  obtain ⟨m, -, h⟩ := Option.bind_eq_some_iff.mp h
  cases h
  rfl

theorem step_control {i : Instr} {t : State} (h : s.step i = some t) : t.control = s.control := by
  cases i with
  | push r => exact pushWord_control h
  | pop r | store src base | load base dst =>
    obtain ⟨_, -, h⟩ := Option.bind_eq_some_iff.mp h
    cases h
    rfl
  | jmp r =>
    cases h
    rfl
  | call r next =>
    obtain ⟨u, hu, h⟩ := Option.bind_eq_some_iff.mp h
    have hcontrol : u.control = s.control := pushWord_control hu
    cases h
    exact hcontrol

/-- Code of the fragment leaves the control words alone. -/
theorem run_control {code : List Instr} {t : State} (h : s.run code = some t) :
    t.control = s.control := by
  induction code generalizing s with
  | nil =>
    cases h
    rfl
  | cons i code ih =>
    obtain ⟨u, hu, h⟩ := Option.bind_eq_some_iff.mp h
    exact (ih h).trans (step_control hu)

theorem pushWord_returns {m : WordMemory} (hsp : s.reg .rsp = a + 8) (hmapped : (s.mem.word a).isSome)
    (h : Wrote m s.mem (a + 8) ws) (hlen : ws.length < 2 ^ 61) (w : Word64) :
    Returns (s.pushWord w) fun t => t.reg = Function.update s.reg .rsp a ∧ t.rip = s.rip ∧
      Wrote m t.mem a (w :: ws) := by
  have haddr : s.reg .rsp - 8 = a := by rw [hsp]; bv_omega
  obtain ⟨m', hstore, hhead, hsame⟩ := store_mapped hmapped w
  rw [State.pushWord, haddr]
  exact Returns.step hstore (Returns.some ⟨rfl, rfl, h.cons hlen hhead hsame⟩)

theorem push_returns (hrs : Reg.rsp ∉ rs) (hlen : rs.length < 2 ^ 61)
    (hsp : s.reg .rsp = a + BitVec.ofNat 64 (8 * rs.length)) (hmapped : s.mem.Mapped a rs.length) :
    Returns (s.run (rs.map .push)) fun t => t.reg = Function.update s.reg .rsp a ∧
      t.rip = s.rip ∧ Wrote s.mem t.mem a (rs.reverse.map s.reg) := by
  induction rs using List.reverseRecOn generalizing a with
  | nil =>
    have ha : s.reg .rsp = a := by simpa using hsp
    refine Returns.some ⟨?_, rfl, Wrote.nil ..⟩
    rw [← ha, Function.update_eq_self]
  | append_singleton rs r ih =>
    rw [List.length_append, List.length_singleton] at hlen hsp hmapped
    have hnext : s.reg .rsp = a + 8 + BitVec.ofNat 64 (8 * rs.length) := by
      rw [hsp]
      bv_omega
    have hrest : Reg.rsp ∉ rs := fun hmem => hrs (List.mem_append_left _ hmem)
    rw [List.map_append, run_append]
    refine (ih hrest (by omega) hnext hmapped.tail).bind ?_
    rintro t ⟨hreg, hrip, hwrote⟩
    have hr : t.reg r = s.reg r := by
      rw [hreg, Function.update_of_ne]
      rintro rfl
      exact hrs (by simp)
    have hone : Returns (t.pushWord (t.reg r)) _ :=
      pushWord_returns (by rw [hreg, Function.update_self]) (hwrote.isSome hmapped.head) hwrote
        (by simp; omega) (t.reg r)
    obtain ⟨u, hu, hureg, hurip, huwrote⟩ := hone
    refine ⟨u, by simp [State.run, State.step, hu], ?_, hurip.trans hrip, ?_⟩
    · rw [hureg, hreg, Function.update_idem]
    · rw [List.reverse_append, List.reverse_singleton, List.singleton_append, List.map_cons, ← hr]
      exact huwrote

theorem pop_returns (rs : List Reg) (hrs : Reg.rsp ∉ rs) (hnodup : rs.Nodup)
    (hlen : ws.length = rs.length)
    (hholds : s.mem.Holds (s.reg .rsp) ws) :
    Returns (s.run (rs.map .pop)) fun t => rs.map t.reg = ws ∧ t.mem = s.mem ∧ t.rip = s.rip ∧
      t.reg .rsp = s.reg .rsp + BitVec.ofNat 64 (8 * rs.length) ∧
      ∀ r, r ∉ rs → r ≠ .rsp → t.reg r = s.reg r := by
  induction rs generalizing s ws with
  | nil =>
    have hnil := List.length_eq_zero_iff.mp hlen
    exact Returns.some ⟨hnil.symm, rfl, rfl, by simp, fun _ _ _ => rfl⟩
  | cons r rs ih =>
    cases ws with
    | nil => cases hlen
    | cons w ws =>
      rw [List.mem_cons, not_or] at hrs
      rw [List.nodup_cons] at hnodup
      have hpop : s.step (.pop r) = some ((s.set .rsp (s.reg .rsp + 8)).set r w) := by
        simp [State.step, load, hholds.1]
      have hsp : ((s.set .rsp (s.reg .rsp + 8)).set r w).reg .rsp = s.reg .rsp + 8 := by
        simp [State.set, Function.update_of_ne hrs.1]
      have hrest := ih (s := (s.set .rsp (s.reg .rsp + 8)).set r w) hrs.2 hnodup.2
        (Nat.succ.inj hlen) (by rw [hsp]; exact hholds.2)
      refine Returns.step hpop (hrest.mono ?_)
      rintro t ⟨hregs, hmem, hrip, htsp, hothers⟩
      have hr : t.reg r = w := by
        rw [hothers r hnodup.1 (Ne.symm hrs.1)]
        exact Function.update_self ..
      refine ⟨by rw [List.map_cons, hr, hregs], hmem, hrip, ?_, ?_⟩
      · rw [htsp, hsp, List.length_cons]
        bv_omega
      · intro q hq hqsp
        rw [List.mem_cons, not_or] at hq
        rw [hothers q hq.2 hqsp]
        simp [State.set, Function.update_of_ne hq.1, Function.update_of_ne hqsp]

end Cserv.Foundations.X86
