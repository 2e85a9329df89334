import Cserv.Foundations.MachineInt
import Cserv.Foundations.Transition

/-!
# The ticket lock

The lock of `spinlock.h`: a process takes the next ticket and waits until it is served, or takes it
only if it is served already. The two counters wrap around. A step is one access to a counter;
the steps of `n` processes interleave.
-/
namespace Cserv.Util

open Foundations Relation

structure SpinLock where
  start : UInt32
  ticket : UInt32
  deriving DecidableEq, Repr

def spinLockInit : SpinLock := ⟨0, 0⟩

/-- Where a process is: it waits in `spin_lock` with its ticket, is in `spin_trylock` between the
load of `start` and the exchange, or in `spin_unlock` between the load and the store of `start`.
`issued` is the number of tickets that had been issued at the load. -/
inductive LockPc
  | outside
  | waiting (ticket : UInt32)
  | trying (start : UInt32) (issued : ℕ)
  | unlocking (start : UInt32)
  deriving DecidableEq, Repr

/-- `holds` is set between a successful acquire and the end of `spin_unlock`. -/
structure LockProc where
  pc : LockPc
  holds : Bool
  deriving DecidableEq, Repr

inductive Acquire
  | lock
  | trylock
  deriving DecidableEq, Repr

/-- The lock and its processes; `issued` are the tickets in the order in which they were taken,
`acquired` those that were acquired, in that order, and `served` counts the unlocks. -/
structure LockState (n : ℕ) where
  lock : SpinLock
  proc : Fin n → LockProc
  issued : List (Fin n × Acquire)
  acquired : List (Fin n × Acquire)
  served : ℕ

variable {n : ℕ}

namespace LockState

def init (n : ℕ) : LockState n := ⟨spinLockInit, fun _ => ⟨.outside, false⟩, [], [], 0⟩

def setProc (x : LockState n) (p : Fin n) (pc : LockPc) (holds : Bool) : LockState n :=
  { x with proc := Function.update x.proc p ⟨pc, holds⟩ }

def pc (x : LockState n) (p : Fin n) : LockPc := (x.proc p).pc

def holds (x : LockState n) (p : Fin n) : Bool := (x.proc p).holds

end LockState

/-- The atomic steps. An exchange succeeds with less than `2 ^ 32 - n` tickets issued since the load
of `start`. -/
inductive LockStep : LockState n → LockState n → Prop
  | fetchAdd (x : LockState n) (p : Fin n) (hpc : x.pc p = .outside) :
      LockStep x
        { x.setProc p (.waiting x.lock.ticket) (x.holds p) with
          lock.ticket := x.lock.ticket + 1
          issued := x.issued ++ [(p, .lock)] }
  | spin (x : LockState n) (p : Fin n) (ticket : UInt32) (hpc : x.pc p = .waiting ticket)
      (htest : x.lock.start ≠ ticket) : LockStep x x
  | acquire (x : LockState n) (p : Fin n) (ticket : UInt32) (hpc : x.pc p = .waiting ticket)
      (htest : x.lock.start = ticket) :
      LockStep x { x.setProc p .outside true with acquired := x.acquired ++ [(p, .lock)] }
  | loadStart (x : LockState n) (p : Fin n) (hpc : x.pc p = .outside) :
      LockStep x (x.setProc p (.trying x.lock.start x.issued.length) (x.holds p))
  | exchange (x : LockState n) (p : Fin n) (start : UInt32) (issued : ℕ)
      (hpc : x.pc p = .trying start issued) (htest : x.lock.ticket = start)
      (hfew : x.issued.length - issued < 2 ^ 32 - n) :
      LockStep x
        { x.setProc p .outside true with
          lock.ticket := start + 1
          issued := x.issued ++ [(p, .trylock)]
          acquired := x.acquired ++ [(p, .trylock)] }
  | exchangeFails (x : LockState n) (p : Fin n) (start : UInt32) (issued : ℕ)
      (hpc : x.pc p = .trying start issued) (htest : x.lock.ticket ≠ start) :
      LockStep x (x.setProc p .outside (x.holds p))
  | unlockLoad (x : LockState n) (p : Fin n) (hpc : x.pc p = .outside) (hholds : x.holds p = true) :
      LockStep x (x.setProc p (.unlocking x.lock.start) true)
  | unlockStore (x : LockState n) (p : Fin n) (start : UInt32) (hpc : x.pc p = .unlocking start) :
      LockStep x
        { x.setProc p .outside false with
          lock.start := start + 1
          served := x.served + 1 }

/-- The processes in `queue` wait, in this order, behind those that have acquired the lock. -/
structure LockInv (x : LockState n) (queue : List (Fin n)) : Prop where
  start : x.lock.start = UInt32.ofNat x.served
  ticket : x.lock.ticket = UInt32.ofNat x.issued.length
  issued : x.issued = x.acquired ++ queue.map (·, .lock)
  served : x.acquired.length = x.served ∨ x.acquired.length = x.served + 1
  nodup : queue.Nodup
  position : ∀ p t, x.pc p = .waiting t →
    ∃ i, queue[i]? = some p ∧ t = UInt32.ofNat (x.acquired.length + i)
  waiting : ∀ p ∈ queue, ∃ t, x.pc p = .waiting t
  holder : ∀ p, x.holds p = true →
    x.acquired.length = x.served + 1 ∧ x.acquired.getLast?.map Prod.fst = some p
  trying : ∀ p v k, x.pc p = .trying v k →
    ∃ s, v = UInt32.ofNat s ∧ s ≤ x.served ∧ k ≤ x.issued.length ∧ k ≤ s + n
  unlocking : ∀ p v, x.pc p = .unlocking v → x.holds p = true ∧ v = x.lock.start

theorem LockState.pc_of_update {x y : LockState n} {p : Fin n} {c : LockProc}
    (h : y.proc = Function.update x.proc p c) (q : Fin n) :
    y.pc q = if q = p then c.pc else x.pc q := by
  unfold LockState.pc
  rw [h, Function.update_apply]
  split_ifs <;> rfl

theorem LockState.holds_of_update {x y : LockState n} {p : Fin n} {c : LockProc}
    (h : y.proc = Function.update x.proc p c) (q : Fin n) :
    y.holds q = if q = p then c.holds else x.holds q := by
  unfold LockState.holds
  rw [h, Function.update_apply]
  split_ifs <;> rfl

namespace LockInv

variable {x y : LockState n} {queue : List (Fin n)} {p : Fin n}

theorem init (n : ℕ) : LockInv (LockState.init n) [] where
  start := rfl
  ticket := rfl
  issued := rfl
  served := Or.inl rfl
  nodup := List.nodup_nil
  position := nofun
  waiting := nofun
  holder := nofun
  trying := nofun
  unlocking := nofun

theorem length_issued (h : LockInv x queue) :
    x.issued.length = x.acquired.length + queue.length := by
  rw [h.issued, List.length_append, List.length_map]

theorem length_queue_le (h : LockInv x queue) : queue.length ≤ n := by
  have hle := h.nodup.length_le_card
  rwa [Fintype.card_fin] at hle

theorem not_mem_queue (h : LockInv x queue) (hpc : ∀ t, x.pc p ≠ .waiting t) : p ∉ queue := by
  intro hmem
  obtain ⟨t, ht⟩ := h.waiting p hmem
  exact hpc t ht

theorem length_queue_lt (h : LockInv x queue) (hpc : ∀ t, x.pc p ≠ .waiting t) :
    queue.length < n := by
  have hnodup : (p :: queue).Nodup := List.nodup_cons.mpr ⟨h.not_mem_queue hpc, h.nodup⟩
  have hle := hnodup.length_le_card
  rwa [Fintype.card_fin] at hle

/-- At most one process holds the lock. -/
theorem holder_unique (h : LockInv x queue) {q : Fin n} (hp : x.holds p = true)
    (hq : x.holds q = true) : p = q := by
  have hlast := (h.holder p hp).2
  rw [(h.holder q hq).2] at hlast
  exact (Option.some.inj hlast).symm

theorem setProc (h : LockInv x queue) {pc : LockPc} {holds : Bool}
    (hold : ∀ t, x.pc p ≠ .waiting t) (hnew : ∀ t, pc ≠ .waiting t)
    (hholds : holds = true → x.holds p = true)
    (htrying : ∀ v k, pc = .trying v k →
      ∃ s, v = UInt32.ofNat s ∧ s ≤ x.served ∧ k ≤ x.issued.length ∧ k ≤ s + n)
    (hunlocking : ∀ v, pc = .unlocking v → holds = true ∧ v = x.lock.start) :
    LockInv (x.setProc p pc holds) queue := by
  have hpcs := LockState.pc_of_update (x := x) (y := x.setProc p pc holds) rfl
  have hhold := LockState.holds_of_update (x := x) (y := x.setProc p pc holds) rfl
  refine ⟨h.start, h.ticket, h.issued, h.served, h.nodup, ?_, ?_, ?_, ?_, ?_⟩
  · intro q t hq
    rw [hpcs] at hq
    split_ifs at hq with heq
    · exact absurd hq (hnew t)
    · exact h.position q t hq
  · intro q hq
    obtain ⟨t, ht⟩ := h.waiting q hq
    refine ⟨t, ?_⟩
    rw [hpcs, if_neg, ht]
    rintro rfl
    exact hold t ht
  · intro q hq
    rw [hhold] at hq
    split_ifs at hq with heq
    · rw [heq]
      exact h.holder p (hholds hq)
    · exact h.holder q hq
  · intro q v k hq
    rw [hpcs] at hq
    split_ifs at hq with heq
    · exact htrying v k hq
    · exact h.trying q v k hq
  · intro q v hq
    rw [hpcs] at hq
    rw [hhold]
    split_ifs at hq ⊢ with heq
    · exact hunlocking v hq
    · exact h.unlocking q v hq

theorem trying_of_update (h : LockInv x queue) {c : LockProc}
    (hy : y.proc = Function.update x.proc p c) (hc : ∀ v k, c.pc ≠ .trying v k)
    (hserved : x.served ≤ y.served) (hissued : x.issued.length ≤ y.issued.length) (q : Fin n)
    (v : UInt32) (k : ℕ) (hq : y.pc q = .trying v k) :
    ∃ s, v = UInt32.ofNat s ∧ s ≤ y.served ∧ k ≤ y.issued.length ∧ k ≤ s + n := by
  rw [LockState.pc_of_update hy] at hq
  split_ifs at hq with heq
  · exact absurd hq (hc v k)
  · obtain ⟨s, hv, hs, hk, hkn⟩ := h.trying q v k hq
    exact ⟨s, hv, hs.trans hserved, hk.trans hissued, hkn⟩

theorem unlocking_of_update (h : LockInv x queue) {c : LockProc}
    (hy : y.proc = Function.update x.proc p c) (hc : ∀ v, c.pc ≠ .unlocking v)
    (hstart : ∀ q, q ≠ p → x.holds q = true → y.lock.start = x.lock.start) (q : Fin n)
    (v : UInt32) (hq : y.pc q = .unlocking v) : y.holds q = true ∧ v = y.lock.start := by
  rw [LockState.pc_of_update hy] at hq
  split_ifs at hq with heq
  · exact absurd hq (hc v)
  · obtain ⟨hholds, hv⟩ := h.unlocking q v hq
    rw [LockState.holds_of_update hy, if_neg heq, hstart q heq hholds]
    exact ⟨hholds, hv⟩

theorem fetchAdd (h : LockInv x queue) (hpc : x.pc p = .outside) :
    LockInv { x.setProc p (.waiting x.lock.ticket) (x.holds p) with
      lock.ticket := x.lock.ticket + 1
      issued := x.issued ++ [(p, .lock)] } (queue ++ [p]) := by
  have hpcs := LockState.pc_of_update (x := x) (y := { x.setProc p (.waiting x.lock.ticket)
    (x.holds p) with lock.ticket := x.lock.ticket + 1, issued := x.issued ++ [(p, .lock)] }) rfl
  have hhold := LockState.holds_of_update (x := x) (y := { x.setProc p (.waiting x.lock.ticket)
    (x.holds p) with lock.ticket := x.lock.ticket + 1, issued := x.issued ++ [(p, .lock)] }) rfl
  have hfresh : p ∉ queue := h.not_mem_queue (by simp [hpc])
  refine ⟨h.start, ?_, ?_, h.served, ?_, ?_, ?_, ?_, ?_, ?_⟩
  · change x.lock.ticket + 1 = _
    rw [h.ticket, List.length_append, UInt32.ofNat_add]
    rfl
  · change x.issued ++ _ = x.acquired ++ _
    rw [h.issued, List.append_assoc, List.map_append]
    rfl
  · rw [← List.concat_eq_append]
    exact h.nodup.concat hfresh
  · intro q t hq
    rw [hpcs] at hq
    split_ifs at hq with heq
    · refine ⟨queue.length, by simp [heq], ?_⟩
      cases hq
      exact h.length_issued ▸ h.ticket
    · obtain ⟨i, hi, ht⟩ := h.position q t hq
      refine ⟨i, ?_, ht⟩
      rw [List.getElem?_append_left (List.getElem?_eq_some_iff.mp hi).1]
      exact hi
  · intro q hq
    rw [hpcs]
    split_ifs with heq
    · exact ⟨_, rfl⟩
    · have hmem : q ∈ queue := by simpa [heq] using hq
      exact h.waiting q hmem
  · intro q hq
    rw [hhold] at hq
    apply h.holder q
    split_ifs at hq with heq
    · rw [heq]
      exact hq
    · exact hq
  · exact h.trying_of_update rfl nofun le_rfl (by simp)
  · exact h.unlocking_of_update rfl nofun fun _ _ _ => rfl

theorem next (h : LockInv x queue) (hn : n < 2 ^ 32) (hpc : x.pc p = .waiting x.lock.start) :
    ∃ rest, queue = p :: rest ∧ x.acquired.length = x.served := by
  obtain ⟨i, hi, ht⟩ := h.position p _ hpc
  obtain ⟨hlt, hget⟩ := List.getElem?_eq_some_iff.mp hi
  have hle := h.length_queue_le
  have hserved := h.served
  rw [h.start] at ht
  have heq := uint32_ofNat_inj ht (by omega) (by omega)
  have hzero : i = 0 := by omega
  subst hzero
  refine ⟨queue.tail, ?_, by omega⟩
  rw [← hget]
  exact (List.cons_head_tail (List.ne_nil_of_length_pos hlt)).symm.trans (by rw [List.head_eq_getElem])

theorem acquire (h : LockInv x queue) (hn : n < 2 ^ 32) (hpc : x.pc p = .waiting x.lock.start) :
    LockInv { x.setProc p .outside true with acquired := x.acquired ++ [(p, .lock)] }
      queue.tail := by
  have hpcs := LockState.pc_of_update (x := x)
    (y := { x.setProc p .outside true with acquired := x.acquired ++ [(p, .lock)] }) rfl
  have hhold := LockState.holds_of_update (x := x)
    (y := { x.setProc p .outside true with acquired := x.acquired ++ [(p, .lock)] }) rfl
  obtain ⟨rest, hqueue, hserved⟩ := h.next hn hpc
  have hnodup := h.nodup
  rw [hqueue, List.nodup_cons] at hnodup
  rw [hqueue, List.tail_cons]
  refine ⟨h.start, h.ticket, ?_, ?_, hnodup.2, ?_, ?_, ?_, ?_, ?_⟩
  · change x.issued = (x.acquired ++ _) ++ _
    rw [h.issued, hqueue, List.append_assoc]
    rfl
  · right
    change (x.acquired ++ _).length = x.served + 1
    rw [List.length_append, hserved]
    rfl
  · intro q t hq
    rw [hpcs] at hq
    split_ifs at hq with heq
    obtain ⟨i, hi, ht⟩ := h.position q t hq
    rw [hqueue] at hi
    cases i with
    | zero => exact absurd (Option.some.inj hi).symm heq
    | succ i =>
      refine ⟨i, hi, ?_⟩
      rw [ht, List.length_append, Nat.add_assoc, Nat.add_comm i]
      rfl
  · intro q hq
    rw [hpcs, if_neg (by rintro rfl; exact hnodup.1 hq)]
    exact h.waiting q (hqueue ▸ List.mem_cons_of_mem p hq)
  · intro q hq
    rw [hhold] at hq
    split_ifs at hq with heq
    · refine ⟨?_, ?_⟩
      · change (x.acquired ++ _).length = x.served + 1
        rw [List.length_append, hserved]
        rfl
      · simp [heq]
    · have hlen := (h.holder q hq).1
      omega
  · exact h.trying_of_update rfl nofun le_rfl le_rfl
  · exact h.unlocking_of_update rfl nofun fun _ _ _ => rfl

/-- An exchange succeeds only if the lock is free. -/
theorem free (h : LockInv x queue) {issued : ℕ} (hpc : x.pc p = .trying x.lock.ticket issued)
    (hn : n < 2 ^ 32) (hfew : x.issued.length - issued < 2 ^ 32 - n) :
    queue = [] ∧ x.acquired.length = x.served := by
  obtain ⟨s, hv, hs, hk, hkn⟩ := h.trying p _ issued hpc
  have hlen := h.length_issued
  have hserved := h.served
  rw [h.ticket] at hv
  have heq := uint32_ofNat_inj hv.symm (by omega) (by omega)
  have hnil : queue.length = 0 := by omega
  exact ⟨List.length_eq_zero_iff.mp hnil, by omega⟩

theorem exchange (h : LockInv x queue) {issued : ℕ}
    (hpc : x.pc p = .trying x.lock.ticket issued) (hn : n < 2 ^ 32)
    (hfew : x.issued.length - issued < 2 ^ 32 - n) :
    LockInv { x.setProc p .outside true with
      lock.ticket := x.lock.ticket + 1
      issued := x.issued ++ [(p, .trylock)]
      acquired := x.acquired ++ [(p, .trylock)] } [] := by
  have hpcs := LockState.pc_of_update (x := x) (y := { x.setProc p .outside true with
    lock.ticket := x.lock.ticket + 1, issued := x.issued ++ [(p, .trylock)],
    acquired := x.acquired ++ [(p, .trylock)] }) rfl
  have hhold := LockState.holds_of_update (x := x) (y := { x.setProc p .outside true with
    lock.ticket := x.lock.ticket + 1, issued := x.issued ++ [(p, .trylock)],
    acquired := x.acquired ++ [(p, .trylock)] }) rfl
  obtain ⟨hqueue, hserved⟩ := h.free hpc hn hfew
  have hlen : (x.acquired ++ [(p, Acquire.trylock)]).length = x.served + 1 := by
    rw [List.length_append, hserved]
    rfl
  refine ⟨h.start, ?_, ?_, Or.inr hlen, List.nodup_nil, ?_, nofun, ?_, ?_, ?_⟩
  · change x.lock.ticket + 1 = _
    rw [h.ticket, List.length_append, UInt32.ofNat_add]
    rfl
  · change x.issued ++ _ = (x.acquired ++ _) ++ _
    rw [h.issued, hqueue, List.map_nil, List.append_nil, List.append_nil]
  · intro q t hq
    rw [hpcs] at hq
    split_ifs at hq with heq
    obtain ⟨i, hi, -⟩ := h.position q t hq
    rw [hqueue] at hi
    cases hi
  · intro q hq
    rw [hhold] at hq
    split_ifs at hq with heq
    · exact ⟨hlen, by simp [heq]⟩
    · have hlen' := (h.holder q hq).1
      omega
  · exact h.trying_of_update rfl nofun le_rfl (by simp)
  · exact h.unlocking_of_update rfl nofun fun _ _ _ => rfl

theorem unlockStore (h : LockInv x queue) {start : UInt32} (hpc : x.pc p = .unlocking start) :
    LockInv { x.setProc p .outside false with
      lock.start := start + 1
      served := x.served + 1 } queue := by
  have hpcs := LockState.pc_of_update (x := x) (y := { x.setProc p .outside false with
    lock.start := start + 1, served := x.served + 1 }) rfl
  have hhold := LockState.holds_of_update (x := x) (y := { x.setProc p .outside false with
    lock.start := start + 1, served := x.served + 1 }) rfl
  obtain ⟨hp, hstart⟩ := h.unlocking p start hpc
  have hlen := (h.holder p hp).1
  have hnone : ∀ q, q ≠ p → x.holds q ≠ true := fun q hne hq => hne (h.holder_unique hq hp)
  refine ⟨?_, h.ticket, h.issued, Or.inl hlen, h.nodup, ?_, ?_, ?_, ?_, ?_⟩
  · change start + 1 = _
    rw [hstart, h.start, UInt32.ofNat_add]
    rfl
  · intro q t hq
    rw [hpcs] at hq
    split_ifs at hq with heq
    exact h.position q t hq
  · intro q hq
    obtain ⟨t, ht⟩ := h.waiting q hq
    refine ⟨t, ?_⟩
    rw [hpcs, if_neg, ht]
    rintro rfl
    rw [hpc] at ht
    cases ht
  · intro q hq
    rw [hhold] at hq
    split_ifs at hq with heq
    exact absurd hq (hnone q heq)
  · exact h.trying_of_update rfl nofun (Nat.le_succ _) le_rfl
  · exact h.unlocking_of_update rfl nofun fun q hne hq => absurd hq (hnone q hne)

theorem step (hn : n < 2 ^ 32) (h : LockInv x queue) (hstep : LockStep x y) :
    ∃ queue', LockInv y queue' := by
  cases hstep with
  | fetchAdd p hpc => exact ⟨_, h.fetchAdd hpc⟩
  | spin => exact ⟨queue, h⟩
  | acquire p ticket hpc htest =>
    subst htest
    exact ⟨_, h.acquire hn hpc⟩
  | loadStart p hpc =>
    have hroom := h.length_queue_lt (p := p) (by simp [hpc])
    have hlen := h.length_issued
    have hserved := h.served
    refine ⟨queue, h.setProc (by simp [hpc]) nofun id ?_ nofun⟩
    intro v k hk
    cases hk
    exact ⟨x.served, h.start, le_rfl, le_rfl, by omega⟩
  | exchange p start issued hpc htest hfew =>
    subst htest
    exact ⟨_, h.exchange hpc hn hfew⟩
  | exchangeFails p start issued hpc htest =>
    exact ⟨queue, h.setProc (by simp [hpc]) nofun id nofun nofun⟩
  | unlockLoad p hpc hholds =>
    refine ⟨queue, h.setProc (by simp [hpc]) nofun (fun _ => hholds) nofun ?_⟩
    intro v hv
    cases hv
    exact ⟨rfl, rfl⟩
  | unlockStore p start hpc => exact ⟨queue, h.unlockStore hpc⟩

end LockInv

def queued (tickets : List (Fin n × Acquire)) : List (Fin n) :=
  (tickets.filter fun e => e.2 = .lock).map Prod.fst

/-- At most one process holds the lock, and processes acquire it in `spin_lock` in the order in
which they took their tickets. -/
theorem spin_lock_exclusive (n : ℕ) (hn : n < 2 ^ 32) (x : LockState n)
    (hrun : ReflTransGen LockStep (LockState.init n) x) :
    (∀ p q, x.holds p = true → x.holds q = true → p = q) ∧
      queued x.acquired <+: queued x.issued := by
  have hinv := run_invariant (fun x : LockState n => ∃ queue, LockInv x queue)
    (fun _ _ h hstep => h.elim fun _ h => h.step hn hstep) ⟨[], LockInv.init n⟩ hrun
  obtain ⟨queue, h⟩ := hinv
  refine ⟨fun p q => h.holder_unique, ?_⟩
  rw [h.issued]
  exact ((List.prefix_append _ _).filter _).map _

/-- Two processes: the first one takes the lock at once, the second one waits for it. -/
theorem spin_lock_exclusive_two : ∃ x : LockState 2, x.holds 0 = true ∧ x.pc 1 = .waiting 1 ∧
    ((∀ p q, x.holds p = true → x.holds q = true → p = q) ∧
      queued x.acquired <+: queued x.issued) := by
  have h₀ : LockStep (LockState.init 2) _ := LockStep.loadStart _ 0 rfl
  have h₁ := (ReflTransGen.single h₀).tail (LockStep.exchange _ 0 0 0 rfl rfl (by decide))
  have h₂ := h₁.tail (LockStep.fetchAdd _ 1 rfl)
  exact ⟨_, rfl, rfl, spin_lock_exclusive 2 (by decide) _ h₂⟩

end Cserv.Util
