import Cserv.Foundations.Returns
import Cserv.Foundations.Words

/-!
# A fragment of the AArch64 instruction set

Straight-line code that stores and loads pairs of 64-bit registers through a base register, which
moves on behind each pair, and ends in an indirect branch. Code fails where it touches memory that
is not mapped.
-/
namespace Cserv.Foundations.Aarch64

open WordMemory

inductive Reg
  | x0
  | x1
  | x8
  | x9
  | x19
  | x20
  | x21
  | x22
  | x23
  | x24
  | x25
  | x26
  | x27
  | x28
  | x29
  | lr
  | sp
  deriving DecidableEq, Repr

/-- The floating-point registers that a callee saves, by their lower halves, and the control
register. -/
inductive FpReg
  | d8
  | d9
  | d10
  | d11
  | d12
  | d13
  | d14
  | d15
  | fpcr
  deriving DecidableEq, Repr

structure State where
  reg : Reg → Word64
  fp : FpReg → Word64
  pc : Word64
  mem : WordMemory

/-- The pairs are accessed with the post-index `[base], #16`. A branch with link knows the address
behind it. -/
inductive Instr
  | sub (r : Reg) (imm : ℕ)
  | mov (dst src : Reg)
  | stp (r r' base : Reg)
  | ldp (r r' base : Reg)
  | str (r base : Reg)
  | ldr (r base : Reg)
  | br (r : Reg)
  | blr (r : Reg) (next : Word64)
  deriving DecidableEq, Repr

namespace State

variable (s : State)

def set (r : Reg) (w : Word64) : State := { s with reg := Function.update s.reg r w }

def step : Instr → Option State
  | .sub r imm => some (s.set r (s.reg r - BitVec.ofNat 64 imm))
  | .mov dst src => some (s.set dst (s.reg src))
  | .stp r r' base => do
    let m ← s.mem.store (s.reg base) (s.reg r)
    let m ← m.store (s.reg base + 8) (s.reg r')
    return { s.set base (s.reg base + 16) with mem := m }
  | .ldp r r' base => do
    let w ← s.mem.load (s.reg base)
    let w' ← s.mem.load (s.reg base + 8)
    return ((s.set base (s.reg base + 16)).set r w).set r' w'
  | .str r base => do
    let m ← s.mem.store (s.reg base) (s.reg r)
    return { s with mem := m }
  | .ldr r base => do
    let w ← s.mem.load (s.reg base)
    return s.set r w
  | .br r => some { s with pc := s.reg r }
  | .blr r next => some { s.set .lr next with pc := s.reg r }

def run (code : List Instr) : Option State := code.foldlM step s

end State

def unpair (ps : List (Reg × Reg)) : List Reg := ps.flatMap fun p => [p.1, p.2]

def stpAll (base : Reg) (ps : List (Reg × Reg)) : List Instr := ps.map fun p => .stp p.1 p.2 base

def ldpAll (base : Reg) (ps : List (Reg × Reg)) : List Instr := ps.map fun p => .ldp p.1 p.2 base

variable {s : State} {a w : Word64} {ws : List Word64}

theorem run_append (s : State) (code code' : List Instr) :
    s.run (code ++ code') = s.run code >>= fun t => t.run code' := List.foldlM_append ..

theorem step_fp {i : Instr} {t : State} (h : s.step i = some t) : t.fp = s.fp := by
  cases i with
  | sub r imm | mov dst src | br r | blr r next =>
    cases h
    rfl
  | stp r r' base | ldp r r' base =>
    obtain ⟨_, -, h⟩ := Option.bind_eq_some_iff.mp h
    obtain ⟨_, -, h⟩ := Option.bind_eq_some_iff.mp h
    cases h
    rfl
  | str r base | ldr r base =>
    obtain ⟨_, -, h⟩ := Option.bind_eq_some_iff.mp h
    cases h
    rfl

/-- Code of the fragment leaves the floating-point registers alone. -/
theorem run_fp {code : List Instr} {t : State} (h : s.run code = some t) : t.fp = s.fp := by
  induction code generalizing s with
  | nil =>
    cases h
    rfl
  | cons i code ih =>
    obtain ⟨u, hu, h⟩ := Option.bind_eq_some_iff.mp h
    exact (ih h).trans (step_fp hu)

theorem unpair_cons (p : Reg × Reg) (ps : List (Reg × Reg)) :
    unpair (p :: ps) = p.1 :: p.2 :: unpair ps := rfl

theorem stp_returns (base : Reg) (ps : List (Reg × Reg)) (hbase : base ∉ unpair ps)
    (hlen : (unpair ps).length < 2 ^ 61) (ha : s.reg base = a)
    (hmapped : s.mem.Mapped a (unpair ps).length) :
    Returns (s.run (stpAll base ps)) fun t =>
      t.reg = Function.update s.reg base (a + BitVec.ofNat 64 (8 * (unpair ps).length)) ∧
        t.pc = s.pc ∧ Wrote s.mem t.mem a ((unpair ps).map s.reg) := by
  induction ps generalizing s a with
  | nil =>
    refine Returns.some ⟨?_, rfl, Wrote.nil ..⟩
    simp [unpair, ← ha]
  | cons p ps ih =>
    obtain ⟨r, r'⟩ := p
    rw [unpair_cons] at hbase hlen hmapped ⊢
    simp only [List.mem_cons, not_or] at hbase
    rw [List.length_cons, List.length_cons] at hlen hmapped
    obtain ⟨m, hstore, hhead, hsame⟩ := store_mapped hmapped.head (s.reg r)
    have hsome : ∀ b, (s.mem.word b).isSome → (m.word b).isSome :=
      fun b => isSome_store hhead hsame
    obtain ⟨m', hstore', hhead', hsame'⟩ := store_mapped (hsome _ hmapped.tail.head) (s.reg r')
    have hstep : s.step (.stp r r' base) = some { s.set base (a + 16) with mem := m' } := by
      rw [State.step, ha, hstore, Option.bind_eq_bind, Option.bind_some, hstore']
      rfl
    have hnext : a + 8 + 8 = a + 16 := by bv_omega
    have hrest : m'.Mapped (a + 16) (unpair ps).length := by
      rw [← hnext]
      exact hmapped.tail.tail.mono fun b hb => isSome_store hhead' hsame' (hsome b hb)
    have htail := ih (s := { s.set base (a + 16) with mem := m' }) hbase.2.2 (by omega)
      (Function.update_self ..) hrest
    refine Returns.step hstep (htail.mono ?_)
    rintro t ⟨hreg, hpc, hwrote⟩
    have hregs : ∀ q ∈ unpair ps, (s.set base (a + 16)).reg q = s.reg q := by
      intro q hq
      refine Function.update_of_ne ?_ ..
      rintro rfl
      exact hbase.2.2 hq
    have hwords : (unpair ps).map (s.set base (a + 16)).reg = (unpair ps).map s.reg :=
      List.map_congr_left hregs
    refine ⟨?_, hpc, ?_⟩
    · rw [hreg]
      change Function.update (Function.update s.reg base (a + 16)) base _ = _
      rw [Function.update_idem, List.length_cons, List.length_cons]
      congr 1
      bv_omega
    · have hwrote' : Wrote m' t.mem (a + 8 + 8) ((unpair ps).map s.reg) := by
        rw [← hwords, hnext]
        exact hwrote
      have hsecond : Wrote m t.mem (a + 8) (s.reg r' :: (unpair ps).map s.reg) :=
        hwrote'.front (by simp; omega) hhead' hsame'
      exact hsecond.front (by simp; omega) hhead hsame

theorem ldp_returns (base : Reg) (ps : List (Reg × Reg)) (hbase : base ∉ unpair ps)
    (hnodup : (unpair ps).Nodup) (hlen : ws.length = (unpair ps).length)
    (hholds : s.mem.Holds (s.reg base) ws) :
    Returns (s.run (ldpAll base ps)) fun t => (unpair ps).map t.reg = ws ∧ t.mem = s.mem ∧
      t.pc = s.pc ∧ t.reg base = s.reg base + BitVec.ofNat 64 (8 * (unpair ps).length) ∧
      ∀ r, r ∉ unpair ps → r ≠ base → t.reg r = s.reg r := by
  induction ps generalizing s ws with
  | nil =>
    have hnil := List.length_eq_zero_iff.mp hlen
    exact Returns.some ⟨hnil.symm, rfl, rfl, by simp [unpair], fun _ _ _ => rfl⟩
  | cons p ps ih =>
    obtain ⟨r, r'⟩ := p
    rw [unpair_cons] at hbase hnodup hlen ⊢
    simp only [List.mem_cons, not_or] at hbase
    rw [List.nodup_cons, List.nodup_cons, List.mem_cons, not_or] at hnodup
    obtain ⟨⟨hrr', hr⟩, hr', hnodup⟩ := hnodup
    match ws, hlen with
    | w :: w' :: ws, hlen =>
      obtain ⟨hw, hw', hrest⟩ := hholds
      have hstep : s.step (.ldp r r' base) =
          some (((s.set base (s.reg base + 16)).set r w).set r' w') := by
        rw [State.step, load, hw, Option.bind_eq_bind, Option.bind_some, load, hw']
        rfl
      have hnext : (((s.set base (s.reg base + 16)).set r w).set r' w').reg base =
          s.reg base + 8 + 8 := by
        simp only [State.set]
        rw [Function.update_of_ne hbase.2.1, Function.update_of_ne hbase.1, Function.update_self]
        bv_omega
      have htail := ih (s := ((s.set base (s.reg base + 16)).set r w).set r' w') hbase.2.2 hnodup
        (Nat.succ.inj (Nat.succ.inj hlen)) (by rw [hnext]; exact hrest)
      refine Returns.step hstep (htail.mono ?_)
      rintro t ⟨hregs, hmem, hpc, hbase', hothers⟩
      have ht : t.reg r = w := by
        rw [hothers r hr (Ne.symm hbase.1)]
        simp only [State.set]
        rw [Function.update_of_ne hrr', Function.update_self]
      have ht' : t.reg r' = w' := by
        rw [hothers r' hr' (Ne.symm hbase.2.1)]
        exact Function.update_self ..
      refine ⟨by rw [List.map_cons, List.map_cons, ht, ht', hregs], hmem, hpc, ?_, ?_⟩
      · rw [hbase', hnext, List.length_cons, List.length_cons]
        bv_omega
      · intro q hq hqbase
        simp only [List.mem_cons, not_or] at hq
        rw [hothers q hq.2.2 hqbase]
        simp only [State.set]
        rw [Function.update_of_ne hq.2.1, Function.update_of_ne hq.1, Function.update_of_ne hqbase]

end Cserv.Foundations.Aarch64
