import Cserv.Process.Master
import Mathlib.Tactic

/-!
# Logger slots for respawned workers

A forked worker takes a slot of the logger in `log_worker_alloc`. The slot of a worker that has
exited is marked by the handler of `SIGCHLD` and freed by a later `log_scan_write` of the master,
which spawns the new worker before. The steps of the master are those of `Cserv.Process.Master`,
with the accesses of its `log_scan_write` and of the handler's `log_worker_flush_and_reset` to the
slots; the lock of the logger is a mutex.
-/
namespace Cserv.Process

open Foundations Relation

structure LogSlot where
  pid : ℕ
  needInit : Bool
  deriving DecidableEq, Repr

inductive LockHolder
  | handler
  | child (pid : ℕ)
  deriving DecidableEq, Repr

inductive ChildPc
  | lock
  | test (i : ℕ)
  /-- `log->need_init = false`, and `cirbuf_init`. -/
  | clear (i : ℕ)
  | unlock (r : ℤ)
  | returned (r : ℤ)
  deriving DecidableEq, Repr

inductive FlushPc
  | outside
  | lock (pid : ℕ)
  | test (pid i : ℕ)
  deriving DecidableEq, Repr

inductive ScanPc
  | outside
  | testPid (i : ℕ)
  | testNeedInit (i : ℕ)
  | setPid (i : ℕ)
  | clearNeedInit (i : ℕ)
  deriving DecidableEq, Repr

/-- The master with the slots, and the workers in `log_worker_alloc`. -/
structure SlotState where
  master : Master
  slots : List LogSlot
  lock : Option LockHolder
  child : ℕ → ChildPc
  flush : FlushPc
  scan : ScanPc

/-- The state after `process_init` for `n` worker processes: the first of `n + 1` slots is that of the
master. -/
def slotInit (n pid : ℕ) : SlotState :=
  ⟨masterInit n, ⟨pid, false⟩ :: List.replicate n ⟨0, false⟩, none, fun _ => .returned 0, .outside,
    .outside⟩

def ChildPc.pending : ChildPc → Bool
  | lock | test _ => true
  | _ => false

namespace SlotState

variable (x : SlotState)

def alive : Finset ℕ := x.master.children \ x.master.zombies

def pending : Finset ℕ := x.alive.filter fun pid => (x.child pid).pending

def free : ℕ := x.slots.countP fun s => s.pid = 0

/-- There are more free slots than workers going to take one. -/
def Room : Prop := x.pending.card < x.free

def Released (pid : ℕ) : Prop := x.lock ≠ some (.child pid)

def childTo (pid : ℕ) (pc : ChildPc) : SlotState :=
  { x with child := Function.update x.child pid pc }

/-- The state after `fork` in the spawn loop at the worker `i`. -/
def fork (i pid : ℕ) : SlotState :=
  { x.childTo pid .lock with
    master := { x.master.goto (.setPid i pid) with
      children := insert pid x.master.children } }

def exit (pid : ℕ) : SlotState :=
  { x with master := { x.master with zombies := insert pid x.master.zombies } }

theorem fork_child (i pid q : ℕ) :
    (x.fork i pid).child q = if q = pid then .lock else x.child q :=
  Function.update_apply ..

end SlotState

/-- The steps of the master, the handler and the workers. A worker is forked when `G` allows it, and
exits when `E` does. -/
inductive SlotStep (G : SlotState → Prop) (E : SlotState → ℕ → Prop) : SlotState → SlotState → Prop
  /-- A step of the master or of the kernel that does not touch the slots. -/
  | control (x : SlotState) (m : Master) (hstep : AnyStep x.master m)
      (hfork : m.children = x.master.children) (hreap : x.master.zombies ⊆ m.zombies)
      (hscan : x.master.pc = .scanWrite → m.pc = .scanWrite)
      (hflush : x.flush ≠ .outside → m.handler = x.master.handler)
      (hexit : ∀ pid ∈ m.zombies, pid ∉ x.master.zombies → E x pid) :
      SlotStep G E x { x with master := m }
  | fork (x : SlotState) (i pid : ℕ) (hnone : x.master.handler = none)
      (hpc : x.master.pc = .fork i) (hpos : 0 < pid) (hpid : pid ∉ x.master.children) (hG : G x) :
      SlotStep G E x (x.fork i pid)
  | reap (x : SlotState) (pid : ℕ) (hpc : x.master.handler = some .waitpid)
      (hpid : pid ∈ x.master.zombies) :
      SlotStep G E x
        { x with
          master := { x.master.handlerTo (some (.clearWorkers pid)) with
            children := x.master.children.erase pid
            zombies := x.master.zombies.erase pid }
          flush := .lock pid }
  | flushLock (x : SlotState) (pid : ℕ) (hpc : x.flush = .lock pid) (hlock : x.lock = none) :
      SlotStep G E x { x with lock := some .handler, flush := .test pid 0 }
  | flushMark (x : SlotState) (pid i : ℕ) (s : LogSlot) (hpc : x.flush = .test pid i)
      (hs : x.slots[i]? = some s) (hpid : s.pid = pid) :
      SlotStep G E x
        { x with slots := x.slots.set i { s with needInit := true }, flush := .test pid (i + 1) }
  | flushSkip (x : SlotState) (pid i : ℕ) (s : LogSlot) (hpc : x.flush = .test pid i)
      (hs : x.slots[i]? = some s) (hpid : s.pid ≠ pid) :
      SlotStep G E x { x with flush := .test pid (i + 1) }
  | flushUnlock (x : SlotState) (pid i : ℕ) (hpc : x.flush = .test pid i)
      (hi : x.slots.length ≤ i) : SlotStep G E x { x with lock := none, flush := .outside }
  | scanBegin (x : SlotState) (hnone : x.master.handler = none) (hpc : x.master.pc = .scanWrite)
      (hscan : x.scan = .outside) : SlotStep G E x { x with scan := .testPid 0 }
  | scanSkip (x : SlotState) (i : ℕ) (s : LogSlot) (hnone : x.master.handler = none)
      (hscan : x.scan = .testPid i) (hs : x.slots[i]? = some s) (hpid : s.pid = 0) :
      SlotStep G E x { x with scan := .testPid (i + 1) }
  | scanDrain (x : SlotState) (i : ℕ) (s : LogSlot) (hnone : x.master.handler = none)
      (hscan : x.scan = .testPid i) (hs : x.slots[i]? = some s) (hpid : s.pid ≠ 0) :
      SlotStep G E x { x with scan := .testNeedInit i }
  | scanKeep (x : SlotState) (i : ℕ) (s : LogSlot) (hnone : x.master.handler = none)
      (hscan : x.scan = .testNeedInit i) (hs : x.slots[i]? = some s) (hneed : s.needInit = false) :
      SlotStep G E x { x with scan := .testPid (i + 1) }
  | scanFree (x : SlotState) (i : ℕ) (s : LogSlot) (hnone : x.master.handler = none)
      (hscan : x.scan = .testNeedInit i) (hs : x.slots[i]? = some s) (hneed : s.needInit = true) :
      SlotStep G E x { x with scan := .setPid i }
  | scanSetPid (x : SlotState) (i : ℕ) (s : LogSlot) (hnone : x.master.handler = none)
      (hscan : x.scan = .setPid i) (hs : x.slots[i]? = some s) :
      SlotStep G E x { x with slots := x.slots.set i { s with pid := 0 }, scan := .clearNeedInit i }
  | scanClear (x : SlotState) (i : ℕ) (s : LogSlot) (hnone : x.master.handler = none)
      (hscan : x.scan = .clearNeedInit i) (hs : x.slots[i]? = some s) :
      SlotStep G E x
        { x with slots := x.slots.set i { s with needInit := false }, scan := .testPid (i + 1) }
  | scanEnd (x : SlotState) (i : ℕ) (hnone : x.master.handler = none)
      (hscan : x.scan = .testPid i) (hi : x.slots.length ≤ i) :
      SlotStep G E x { x with scan := .outside, master := x.master.goto .iterationEnd }
  | childLock (x : SlotState) (pid : ℕ) (halive : pid ∈ x.alive) (hpc : x.child pid = .lock)
      (hlock : x.lock = none) :
      SlotStep G E x { x.childTo pid (.test 0) with lock := some (.child pid) }
  | childSkip (x : SlotState) (pid i : ℕ) (s : LogSlot) (halive : pid ∈ x.alive)
      (hpc : x.child pid = .test i) (hs : x.slots[i]? = some s) (hpid : s.pid ≠ 0) :
      SlotStep G E x (x.childTo pid (.test (i + 1)))
  | childTake (x : SlotState) (pid i : ℕ) (s : LogSlot) (halive : pid ∈ x.alive)
      (hpc : x.child pid = .test i) (hs : x.slots[i]? = some s) (hpid : s.pid = 0) :
      SlotStep G E x
        { x.childTo pid (.clear i) with slots := x.slots.set i { s with pid := pid } }
  | childClear (x : SlotState) (pid i : ℕ) (s : LogSlot) (halive : pid ∈ x.alive)
      (hpc : x.child pid = .clear i) (hs : x.slots[i]? = some s) :
      SlotStep G E x
        { x.childTo pid (.unlock 0) with slots := x.slots.set i { s with needInit := false } }
  | childEnd (x : SlotState) (pid i : ℕ) (halive : pid ∈ x.alive) (hpc : x.child pid = .test i)
      (hi : x.slots.length ≤ i) : SlotStep G E x (x.childTo pid (.unlock (-1)))
  | childUnlock (x : SlotState) (pid : ℕ) (r : ℤ) (halive : pid ∈ x.alive)
      (hpc : x.child pid = .unlock r) :
      SlotStep G E x { x.childTo pid (.returned r) with lock := none }

theorem SlotStep.quiet {G : SlotState → Prop} {E : SlotState → ℕ → Prop} (x : SlotState) (m : Master)
    (hstep : AnyStep x.master m) (hfork : m.children = x.master.children)
    (hzombies : m.zombies = x.master.zombies) (hscan : x.master.pc = .scanWrite → m.pc = .scanWrite)
    (hflush : x.flush ≠ .outside → m.handler = x.master.handler) :
    SlotStep G E x { x with master := m } :=
  .control x m hstep hfork hzombies.symm.subset hscan hflush fun _ hpid hold =>
    absurd (hzombies ▸ hpid) hold

/-! ## Room for every worker -/

def FreeAt (slots : List LogSlot) (j : ℕ) : Prop := ∃ s, slots[j]? = some s ∧ s.pid = 0

def ChildPc.critical : ChildPc → Bool
  | test _ | clear _ | unlock _ => true
  | _ => false

/-- There is a free slot for every worker that is going to take one; a worker in the loop of
`log_worker_alloc` has one ahead. -/
structure SlotInv (x : SlotState) : Prop where
  room : x.pending.card ≤ x.free
  holder : ∀ pid, (x.child pid).critical = true → x.lock = some (.child pid)
  flushing : ∀ pid i, x.flush = .test pid i → x.lock = some .handler
  ahead : ∀ pid i, x.child pid = .test i → ∃ j, i ≤ j ∧ FreeAt x.slots j
  zero : ∀ pid r, x.child pid = .unlock r ∨ x.child pid = .returned r → r = 0
  pos : ∀ pid ∈ x.pending, pid ≠ 0

theorem countP_free_set {slots : List LogSlot} {i : ℕ} {s t : LogSlot}
    (hs : slots[i]? = some s) :
    (slots.set i t).countP (fun s => s.pid = 0) =
      (slots.countP (fun s => s.pid = 0) - if s.pid = 0 then 1 else 0) +
        if t.pid = 0 then 1 else 0 := by
  obtain ⟨hi, hget⟩ := List.getElem?_eq_some_iff.mp hs
  rw [List.countP_set hi, hget]
  simp

theorem countP_free_pos {slots : List LogSlot} {i : ℕ} (h : FreeAt slots i) :
    0 < slots.countP fun s => s.pid = 0 := by
  obtain ⟨s, hs, hpid⟩ := h
  rw [List.countP_pos_iff]
  exact ⟨s, List.mem_of_getElem? hs, by simpa using hpid⟩

theorem FreeAt.set {slots : List LogSlot} {i j : ℕ} {s t : LogSlot} (hs : slots[i]? = some s)
    (ht : s.pid = 0 → t.pid = 0) (h : FreeAt slots j) : FreeAt (slots.set i t) j := by
  obtain ⟨hi, -⟩ := List.getElem?_eq_some_iff.mp hs
  by_cases hij : i = j
  · subst hij
    obtain ⟨s', hs', hpid⟩ := h
    obtain rfl : s = s' := Option.some.inj (hs.symm.trans hs')
    exact ⟨t, List.getElem?_set_self hi, ht hpid⟩
  · obtain ⟨s', hs', hpid⟩ := h
    exact ⟨s', (List.getElem?_set_ne hij).trans hs', hpid⟩

namespace SlotInv

variable {x y : SlotState}

theorem frame (h : SlotInv x) (hpending : y.pending ⊆ x.pending) (hfree : x.free ≤ y.free)
    (hchild : y.child = x.child) (hlock : y.lock = x.lock)
    (hflush : ∀ pid i, y.flush = .test pid i → ∃ j, x.flush = .test pid j)
    (hslots : ∀ j, FreeAt x.slots j → FreeAt y.slots j) : SlotInv y where
  room := (Finset.card_le_card hpending).trans (h.room.trans hfree)
  holder := by
    rw [hchild, hlock]
    exact h.holder
  flushing pid i hi := by
    obtain ⟨j, hj⟩ := hflush pid i hi
    rw [hlock]
    exact h.flushing pid j hj
  ahead pid i hi := by
    rw [hchild] at hi
    obtain ⟨j, hij, hj⟩ := h.ahead pid i hi
    exact ⟨j, hij, hslots j hj⟩
  zero := by
    rw [hchild]
    exact h.zero
  pos pid hpid := h.pos pid (hpending hpid)

theorem setSlot (h : SlotInv x) {i : ℕ} {s t : LogSlot} (hs : x.slots[i]? = some s)
    (ht : s.pid = 0 → t.pid = 0) (hmaster : y.master = x.master) (hslots : y.slots = x.slots.set i t)
    (hchild : y.child = x.child) (hlock : y.lock = x.lock)
    (hflush : ∀ pid i, y.flush = .test pid i → ∃ j, x.flush = .test pid j) : SlotInv y := by
  refine h.frame ?_ ?_ hchild hlock hflush ?_
  · unfold SlotState.pending SlotState.alive
    rw [hmaster, hchild]
  · unfold SlotState.free
    rw [hslots, countP_free_set hs]
    split_ifs with h₁ h₂
    · have hpos := countP_free_pos ⟨s, hs, h₁⟩
      omega
    · exact absurd (ht h₁) h₂
    · omega
    · omega
  · intro j hj
    rw [hslots]
    exact hj.set hs ht

/-- Only the holder of the lock is in its critical section. -/
theorem not_critical (h : SlotInv x) {pid : ℕ} (hlock : x.lock ≠ some (.child pid)) :
    (x.child pid).critical = false := by
  by_contra hcritical
  exact hlock (h.holder pid (by simpa using hcritical))

theorem child (h : SlotInv x) {pid : ℕ} {pc : ChildPc}
    (hchild : y.child = Function.update x.child pid pc)
    (hothers : ∀ q, q ≠ pid → (x.child q).critical = false) (hpending : y.pending ⊆ x.pending)
    (hroom : y.pending.card ≤ y.free)
    (hlock : pc.critical = true → y.lock = some (.child pid))
    (hflush : ∀ p i, y.flush = .test p i → y.lock = some .handler)
    (hahead : ∀ i, pc = .test i → ∃ j, i ≤ j ∧ FreeAt y.slots j)
    (hzero : ∀ r, pc = .unlock r ∨ pc = .returned r → r = 0) : SlotInv y where
  room := hroom
  holder q hq := by
    rw [hchild, Function.update_apply] at hq
    split_ifs at hq with heq
    · rw [heq]
      exact hlock hq
    · rw [hothers q heq] at hq
      cases hq
  flushing := hflush
  ahead q i hq := by
    rw [hchild, Function.update_apply] at hq
    split_ifs at hq with heq
    · exact hahead i hq
    · have hcritical := hothers q heq
      rw [hq] at hcritical
      cases hcritical
  zero q r hq := by
    rw [hchild, Function.update_apply] at hq
    split_ifs at hq with heq
    · exact hzero r hq
    · exact h.zero q r hq
  pos q hq := h.pos q (hpending hq)

theorem pending_of_pending {pid : ℕ} {pc : ChildPc} (hmaster : y.master = x.master)
    (hchild : y.child = Function.update x.child pid pc) (hold : (x.child pid).pending = true)
    (hnew : pc.pending = true) : y.pending = x.pending := by
  unfold SlotState.pending SlotState.alive
  rw [hmaster, hchild]
  apply Finset.filter_congr
  intro q _
  rw [Function.update_apply]
  split_ifs with heq
  · rw [heq, hold, hnew]
  · rfl

theorem pending_of_not_pending {pid : ℕ} {pc : ChildPc} (hmaster : y.master = x.master)
    (hchild : y.child = Function.update x.child pid pc) (hnew : pc.pending = false) :
    y.pending = x.pending.erase pid := by
  ext q
  unfold SlotState.pending SlotState.alive
  rw [hmaster, hchild, Finset.mem_erase, Finset.mem_filter, Finset.mem_filter,
    Function.update_apply]
  split_ifs with heq
  · simp [heq, hnew]
  · simp [heq]

theorem others (h : SlotInv x) {pid : ℕ} (hcritical : (x.child pid).critical = true) (q : ℕ)
    (hq : q ≠ pid) : (x.child q).critical = false := by
  apply h.not_critical
  rw [h.holder pid hcritical]
  simpa using Ne.symm hq

theorem not_flushing (h : SlotInv x) {pid p i : ℕ} (hcritical : (x.child pid).critical = true) :
    x.flush ≠ .test p i := by
  intro hflush
  have hlock := h.flushing p i hflush
  rw [h.holder pid hcritical] at hlock
  cases hlock

theorem childLock (h : SlotInv x) {pid : ℕ} (halive : pid ∈ x.alive) (hpc : x.child pid = .lock)
    (hlock : x.lock = none) :
    SlotInv { x.childTo pid (.test 0) with lock := some (.child pid) } := by
  have hmem : pid ∈ x.pending := Finset.mem_filter.mpr ⟨halive, by rw [hpc]; rfl⟩
  have hpending := pending_of_pending (x := x)
    (y := { x.childTo pid (.test 0) with lock := some (.child pid) }) rfl rfl (by rw [hpc]; rfl) rfl
  refine h.child rfl (fun q _ => h.not_critical (by simp [hlock])) hpending.subset ?_
    (fun _ => rfl) ?_ ?_ nofun
  · rw [hpending]
    exact h.room
  · intro p i hflush
    have hheld := h.flushing p i hflush
    rw [hlock] at hheld
    cases hheld
  · intro i hi
    cases hi
    have hpos : 0 < x.slots.countP fun s => s.pid = 0 :=
      (Finset.card_pos.mpr ⟨pid, hmem⟩).trans_le h.room
    obtain ⟨s, hs, hpid⟩ := List.countP_pos_iff.mp hpos
    obtain ⟨j, hj, hget⟩ := List.mem_iff_getElem.mp hs
    exact ⟨j, Nat.zero_le j, s, List.getElem?_eq_some_iff.mpr ⟨hj, hget⟩, by simpa using hpid⟩

theorem childSkip (h : SlotInv x) {pid i : ℕ} {s : LogSlot} (hpc : x.child pid = .test i)
    (hs : x.slots[i]? = some s) (hpid : s.pid ≠ 0) : SlotInv (x.childTo pid (.test (i + 1))) := by
  have hcritical : (x.child pid).critical = true := by rw [hpc]; rfl
  have hpending := pending_of_pending (x := x) (y := x.childTo pid (.test (i + 1))) rfl rfl
    (by rw [hpc]; rfl) rfl
  refine h.child rfl (h.others hcritical) hpending.subset ?_ (fun _ => h.holder pid hcritical)
    (fun p i hflush => absurd hflush (h.not_flushing hcritical)) ?_ nofun
  · rw [hpending]
    exact h.room
  · intro k hk
    cases hk
    obtain ⟨j, hij, t, ht, hfree⟩ := h.ahead pid i hpc
    refine ⟨j, ?_, t, ht, hfree⟩
    have hne : i ≠ j := by
      rintro rfl
      rw [hs] at ht
      exact hpid (Option.some.inj ht ▸ hfree)
    omega

theorem childTake (h : SlotInv x) {pid i : ℕ} {s : LogSlot} (halive : pid ∈ x.alive)
    (hpc : x.child pid = .test i) (hs : x.slots[i]? = some s) :
    SlotInv { x.childTo pid (.clear i) with slots := x.slots.set i { s with pid := pid } } := by
  have hcritical : (x.child pid).critical = true := by rw [hpc]; rfl
  have hmem : pid ∈ x.pending := Finset.mem_filter.mpr ⟨halive, by rw [hpc]; rfl⟩
  have hpending := pending_of_not_pending (x := x)
    (y := { x.childTo pid (.clear i) with slots := x.slots.set i { s with pid := pid } }) rfl rfl rfl
  refine h.child rfl (h.others hcritical) (hpending.trans_subset (Finset.erase_subset ..)) ?_
    (fun _ => h.holder pid hcritical)
    (fun p i hflush => absurd hflush (h.not_flushing hcritical)) nofun nofun
  rw [hpending, Finset.card_erase_of_mem hmem]
  have hroom := h.room
  unfold SlotState.free at hroom ⊢
  rw [countP_free_set hs]
  split_ifs <;> omega

theorem childClear (h : SlotInv x) {pid i : ℕ} {s : LogSlot} (hpc : x.child pid = .clear i)
    (hs : x.slots[i]? = some s) :
    SlotInv { x.childTo pid (.unlock 0) with
      slots := x.slots.set i { s with needInit := false } } := by
  have hcritical : (x.child pid).critical = true := by rw [hpc]; rfl
  have hslots : SlotInv { x with slots := x.slots.set i { s with needInit := false } } :=
    h.setSlot (t := { s with needInit := false }) hs id rfl rfl rfl rfl fun p j hj => ⟨j, hj⟩
  have hpending := pending_of_not_pending (x := x) (y := { x.childTo pid (.unlock 0) with
    slots := x.slots.set i { s with needInit := false } }) rfl rfl rfl
  refine hslots.child rfl (h.others hcritical) (hpending.trans_subset (Finset.erase_subset ..)) ?_
    (fun _ => h.holder pid hcritical)
    (fun p i hflush => absurd hflush (h.not_flushing hcritical)) nofun ?_
  · rw [hpending]
    exact (Finset.card_le_card (Finset.erase_subset ..)).trans hslots.room
  · intro r hr
    rcases hr with hr | hr <;> cases hr
    rfl

theorem not_childEnd (h : SlotInv x) {pid i : ℕ} (hpc : x.child pid = .test i) :
    i < x.slots.length := by
  obtain ⟨j, hij, s, hs, -⟩ := h.ahead pid i hpc
  exact hij.trans_lt (List.getElem?_eq_some_iff.mp hs).1

theorem childUnlock (h : SlotInv x) {pid : ℕ} {r : ℤ} (hpc : x.child pid = .unlock r) :
    SlotInv { x.childTo pid (.returned r) with lock := none } := by
  have hcritical : (x.child pid).critical = true := by rw [hpc]; rfl
  have hpending := pending_of_not_pending (x := x)
    (y := { x.childTo pid (.returned r) with lock := none }) rfl rfl rfl
  refine h.child rfl (h.others hcritical) (hpending.trans_subset (Finset.erase_subset ..)) ?_ nofun
    (fun p i hflush => absurd hflush (h.not_flushing hcritical)) nofun ?_
  · rw [hpending]
    exact (Finset.card_le_card (Finset.erase_subset ..)).trans h.room
  · intro r' hr
    rcases hr with hr | hr <;> cases hr
    exact h.zero pid r (Or.inl hpc)

theorem pending_fork_subset (x : SlotState) (i pid : ℕ) :
    (x.fork i pid).pending ⊆ insert pid x.pending := by
  intro q hq
  obtain ⟨halive, hpending⟩ := Finset.mem_filter.mp hq
  rw [Finset.mem_insert]
  by_cases heq : q = pid
  · exact Or.inl heq
  · rw [SlotState.fork_child, if_neg heq] at hpending
    refine Or.inr (Finset.mem_filter.mpr ⟨?_, hpending⟩)
    simpa [SlotState.alive, SlotState.fork, Master.goto, heq] using halive

/-- A worker that is forked needs room. -/
theorem fork (h : SlotInv x) {i pid : ℕ} (hpos : 0 < pid) (hroom : x.Room) :
    SlotInv (x.fork i pid) := by
  constructor
  · exact (Finset.card_le_card (pending_fork_subset x i pid)).trans
      ((Finset.card_insert_le pid x.pending).trans (Nat.succ_le_of_lt hroom))
  · intro q hq
    rw [SlotState.fork_child] at hq
    split_ifs at hq with heq
    · cases hq
    · exact h.holder q hq
  · exact h.flushing
  · intro q k hq
    rw [SlotState.fork_child] at hq
    split_ifs at hq with heq
    exact h.ahead q k hq
  · intro q r hq
    rw [SlotState.fork_child] at hq
    split_ifs at hq with heq
    · simp at hq
    · exact h.zero q r hq
  · intro q hq
    rcases Finset.mem_insert.mp (pending_fork_subset x i pid hq) with rfl | hq
    · exact hpos.ne'
    · exact h.pos q hq

theorem step {E : SlotState → ℕ → Prop} (h : SlotInv x) (hstep : SlotStep SlotState.Room E x y) :
    SlotInv y := by
  cases hstep with
  | control m hstep hfork hreap hscan hflush hexit =>
    refine h.frame ?_ le_rfl rfl rfl (fun p i hi => ⟨i, hi⟩) fun _ => id
    apply Finset.filter_subset_filter
    unfold SlotState.alive
    rw [hfork]
    exact Finset.sdiff_subset_sdiff subset_rfl hreap
  | fork i pid hnone hpc hpos hpid hG => exact h.fork hpos hG
  | reap pid hpc hpid =>
    refine h.frame ?_ le_rfl rfl rfl nofun fun _ => id
    apply Finset.filter_subset_filter
    intro q hq
    simp only [SlotState.alive, Finset.mem_sdiff, Finset.mem_erase] at hq ⊢
    exact ⟨hq.1.2, fun hz => hq.2 ⟨hq.1.1, hz⟩⟩
  | flushLock pid hpc hlock =>
    have hnone : ∀ q, (x.child q).critical = false := fun q => h.not_critical (by simp [hlock])
    refine ⟨h.room, fun q hq => ?_, fun _ _ _ => rfl, h.ahead, h.zero, h.pos⟩
    rw [hnone q] at hq
    cases hq
  | flushMark pid i s hpc hs hpid =>
    refine h.setSlot (t := { s with needInit := true }) hs id rfl rfl rfl rfl ?_
    intro p j hj
    cases hj
    exact ⟨i, hpc⟩
  | flushSkip pid i s hpc hs hpid =>
    refine h.frame subset_rfl le_rfl rfl rfl ?_ fun _ => id
    intro p j hj
    cases hj
    exact ⟨i, hpc⟩
  | flushUnlock pid i hpc hi =>
    have hlock := h.flushing pid i hpc
    have hnone : ∀ q, (x.child q).critical = false := fun q => h.not_critical (by simp [hlock])
    refine ⟨h.room, fun q hq => ?_, nofun, h.ahead, h.zero, h.pos⟩
    rw [hnone q] at hq
    cases hq
  | scanBegin | scanSkip | scanDrain | scanKeep | scanFree | scanEnd =>
    exact h.frame subset_rfl le_rfl rfl rfl (fun p i hi => ⟨i, hi⟩) fun _ => id
  | scanSetPid i s hnone hscan hs =>
    exact h.setSlot (t := { s with pid := 0 }) hs (fun _ => rfl) rfl rfl rfl rfl
      fun p i hi => ⟨i, hi⟩
  | scanClear i s hnone hscan hs =>
    exact h.setSlot (t := { s with needInit := false }) hs id rfl rfl rfl rfl fun p i hi => ⟨i, hi⟩
  | childLock pid halive hpc hlock => exact h.childLock halive hpc hlock
  | childSkip pid i s halive hpc hs hpid => exact h.childSkip hpc hs hpid
  | childTake pid i s halive hpc hs hpid => exact h.childTake halive hpc hs
  | childClear pid i s halive hpc hs => exact h.childClear hpc hs
  | childEnd pid i halive hpc hi => exact absurd (h.not_childEnd hpc) (by omega)
  | childUnlock pid r halive hpc => exact h.childUnlock hpc

theorem init (n pid : ℕ) : SlotInv (slotInit n pid) where
  room := by simp [SlotState.pending, SlotState.alive, slotInit, masterInit]
  holder := by simp [slotInit, ChildPc.critical]
  flushing := nofun
  ahead := nofun
  zero q r hr := by
    rcases hr with hr | hr <;> cases hr
    rfl
  pos := by simp [SlotState.pending, SlotState.alive, slotInit, masterInit]

end SlotInv

/-! ## The lock comes free -/

/-- Who holds the lock is at work: a worker that has not exited, or the handler in its loop. -/
structure HeldInv (x : SlotState) : Prop where
  child : ∀ pid, x.lock = some (.child pid) → pid ∈ x.alive ∧ (x.child pid).critical = true
  handler : x.lock = some .handler → ∃ pid i, x.flush = .test pid i
  flushing : x.flush ≠ .outside → ∃ pid, x.master.handler = some (.clearWorkers pid)
  clearing : ∀ pid i, x.child pid = .clear i → i < x.slots.length

namespace HeldInv

variable {x y : SlotState}

theorem frame (h : HeldInv x) (halive : x.alive ⊆ y.alive) (hchild : y.child = x.child)
    (hlock : y.lock = x.lock) (hlength : y.slots.length = x.slots.length)
    (hhandler : x.lock = some .handler → ∃ pid i, y.flush = .test pid i)
    (hflushing : y.flush ≠ .outside → ∃ pid, y.master.handler = some (.clearWorkers pid)) :
    HeldInv y where
  child pid hpid := by
    rw [hlock] at hpid
    rw [hchild]
    exact ⟨halive (h.child pid hpid).1, (h.child pid hpid).2⟩
  handler hheld := hhandler (hlock ▸ hheld)
  flushing := hflushing
  clearing := by
    rw [hchild, hlength]
    exact h.clearing

theorem goOn (h : HeldInv x) {pid : ℕ} {pc : ChildPc} (hmaster : y.master = x.master)
    (hchild : y.child = Function.update x.child pid pc) (hlock : y.lock = x.lock)
    (hflush : y.flush = x.flush) (hlength : y.slots.length = x.slots.length)
    (hcritical : pc.critical = true) (hclear : ∀ i, pc = .clear i → i < x.slots.length) :
    HeldInv y where
  child q hq := by
    rw [hlock] at hq
    obtain ⟨halive, hcrit⟩ := h.child q hq
    refine ⟨by rwa [SlotState.alive, hmaster], ?_⟩
    rw [hchild, Function.update_apply]
    split_ifs
    · exact hcritical
    · exact hcrit
  handler hheld := by
    rw [hflush]
    exact h.handler (hlock ▸ hheld)
  flushing := by
    rw [hflush, hmaster]
    exact h.flushing
  clearing q i hq := by
    rw [hchild, Function.update_apply] at hq
    rw [hlength]
    split_ifs at hq
    · exact hclear i hq
    · exact h.clearing q i hq

theorem control (h : HeldInv x) {m : Master} (hfork : m.children = x.master.children)
    (hflush : x.flush ≠ .outside → m.handler = x.master.handler)
    (hexit : ∀ pid ∈ m.zombies, pid ∉ x.master.zombies → x.Released pid) :
    HeldInv { x with master := m } where
  child pid hpid := by
    obtain ⟨halive, hcritical⟩ := h.child pid hpid
    refine ⟨?_, hcritical⟩
    simp only [SlotState.alive, Finset.mem_sdiff] at halive ⊢
    rw [hfork]
    exact ⟨halive.1, fun hzombie => hexit pid hzombie halive.2 hpid⟩
  handler := h.handler
  flushing hne := by
    obtain ⟨pid, hpid⟩ := h.flushing hne
    exact ⟨pid, (hflush hne).trans hpid⟩
  clearing := h.clearing

theorem fork (h : HeldInv x) {i pid : ℕ} (hnone : x.master.handler = none)
    (hpid : pid ∉ x.master.children) : HeldInv (x.fork i pid) where
  child q hq := by
    obtain ⟨halive, hcritical⟩ := h.child q hq
    have hmem := (Finset.mem_sdiff.mp halive).1
    have hne : q ≠ pid := by
      rintro rfl
      exact hpid hmem
    constructor
    · simp only [SlotState.alive, SlotState.fork, Master.goto, Finset.mem_sdiff, Finset.mem_insert]
      exact ⟨Or.inr hmem, (Finset.mem_sdiff.mp halive).2⟩
    · rw [SlotState.fork_child, if_neg hne]
      exact hcritical
  handler := h.handler
  flushing hne := by
    obtain ⟨p, hp⟩ := h.flushing hne
    rw [hnone] at hp
    cases hp
  clearing q k hq := by
    rw [SlotState.fork_child] at hq
    split_ifs at hq
    exact h.clearing q k hq

theorem reap (h : HeldInv x) {pid : ℕ} (hpc : x.master.handler = some .waitpid)
    (hpid : pid ∈ x.master.zombies) :
    HeldInv { x with
      master := { x.master.handlerTo (some (.clearWorkers pid)) with
        children := x.master.children.erase pid
        zombies := x.master.zombies.erase pid }
      flush := .lock pid } := by
  refine h.frame ?_ rfl rfl rfl (fun hheld => ?_) fun _ => ⟨pid, rfl⟩
  · intro q hq
    simp only [SlotState.alive, Finset.mem_sdiff, Finset.mem_erase] at hq ⊢
    refine ⟨⟨?_, hq.1⟩, fun hz => hq.2 hz.2⟩
    rintro rfl
    exact hq.2 hpid
  · -- the handler does not wait for a child while it is in its loop over the slots
    obtain ⟨p, i, hflush⟩ := h.handler hheld
    obtain ⟨q, hq⟩ := h.flushing (by rw [hflush]; exact FlushPc.noConfusion)
    rw [hpc] at hq
    cases hq

theorem step {G : SlotState → Prop} (h : HeldInv x) (hstep : SlotStep G SlotState.Released x y) :
    HeldInv y := by
  have hset : ∀ {i : ℕ} {s : LogSlot}, (x.slots.set i s).length = x.slots.length :=
    fun {_ _} => List.length_set
  have hstay : ∀ {pid i j : ℕ}, x.flush = .test pid i →
      FlushPc.test pid j ≠ .outside → ∃ p, x.master.handler = some (.clearWorkers p) :=
    fun hpc _ => h.flushing (by rw [hpc]; exact FlushPc.noConfusion)
  cases hstep with
  | control m hstep hfork hreap hscan hflush hexit => exact h.control hfork hflush hexit
  | fork i pid hnone hpc hpos hpid hG => exact h.fork hnone hpid
  | reap pid hpc hpid => exact h.reap hpc hpid
  | flushLock pid hpc hlock =>
    refine ⟨fun q hq => (by cases hq), fun _ => ⟨pid, 0, rfl⟩, fun _ => ?_, h.clearing⟩
    exact h.flushing (by rw [hpc]; exact FlushPc.noConfusion)
  | flushMark pid i s hpc hs hpid =>
    exact h.frame subset_rfl rfl rfl hset (fun _ => ⟨pid, i + 1, rfl⟩) (hstay hpc)
  | flushSkip pid i s hpc hs hpid =>
    exact h.frame subset_rfl rfl rfl rfl (fun _ => ⟨pid, i + 1, rfl⟩) (hstay hpc)
  | flushUnlock pid i hpc hi =>
    exact ⟨fun q hq => (by cases hq), fun hq => (by cases hq), fun hne => absurd rfl hne, h.clearing⟩
  | scanSetPid i s hnone hscan hs | scanClear i s hnone hscan hs =>
    exact h.frame subset_rfl rfl rfl hset h.handler h.flushing
  | scanBegin | scanSkip | scanDrain | scanKeep | scanFree | scanEnd =>
    exact h.frame subset_rfl rfl rfl rfl h.handler h.flushing
  | childLock pid halive hpc hlock =>
    refine ⟨fun q hq => ?_, fun hq => (by cases hq), h.flushing, fun q i hq => ?_⟩
    · cases hq
      exact ⟨halive, by simp [SlotState.childTo, ChildPc.critical]⟩
    · simp only [SlotState.childTo, Function.update_apply] at hq
      split_ifs at hq
      exact h.clearing q i hq
  | childSkip pid i s halive hpc hs hpid => exact h.goOn rfl rfl rfl rfl rfl rfl fun _ hk => by cases hk
  | childTake pid i s halive hpc hs hpid =>
    refine h.goOn rfl rfl rfl rfl hset rfl fun k hk => ?_
    cases hk
    exact (List.getElem?_eq_some_iff.mp hs).1
  | childClear pid i s halive hpc hs =>
    exact h.goOn rfl rfl rfl rfl hset rfl fun _ hk => by cases hk
  | childEnd pid i halive hpc hi => exact h.goOn rfl rfl rfl rfl rfl rfl fun _ hk => by cases hk
  | childUnlock pid r halive hpc =>
    refine ⟨fun q hq => (by cases hq), fun hq => (by cases hq), h.flushing, fun q i hq => ?_⟩
    simp only [SlotState.childTo, Function.update_apply] at hq
    split_ifs at hq
    exact h.clearing q i hq

theorem init (n pid : ℕ) : HeldInv (slotInit n pid) where
  child _ hq := by cases hq
  handler hq := by cases hq
  flushing hne := absurd rfl hne
  clearing _ _ hq := by cases hq

end HeldInv

/-- The lock is held by nobody who will release it: by a worker that has exited. -/
structure Stuck (x : SlotState) : Prop where
  lock : x.lock ≠ none
  child : ∀ pid ∈ x.alive, (x.child pid).critical = false
  flush : ∀ pid i, x.flush ≠ .test pid i

namespace Stuck

variable {x y : SlotState}

/-- A step from a stuck state leads to one, and moves no worker that waits for the lock. -/
theorem step {G : SlotState → Prop} {E : SlotState → ℕ → Prop} (h : Stuck x)
    (hstep : SlotStep G E x y) : Stuck y ∧ ∀ q, x.child q = .lock → y.child q = .lock := by
  have hcritical : ∀ {pid : ℕ}, pid ∈ x.alive → (x.child pid).critical ≠ true := by
    intro pid halive hcrit
    rw [h.child pid halive] at hcrit
    cases hcrit
  cases hstep with
  | control m hstep hfork hreap hscan hflush hexit =>
    refine ⟨⟨h.lock, fun pid hpid => h.child pid ?_, h.flush⟩, fun _ hq => hq⟩
    simp only [SlotState.alive, Finset.mem_sdiff] at hpid ⊢
    rw [hfork] at hpid
    exact ⟨hpid.1, fun hz => hpid.2 (hreap hz)⟩
  | fork i pid hnone hpc hpos hpid hG =>
    refine ⟨⟨h.lock, fun q hq => ?_, h.flush⟩, fun q hq => ?_⟩
    · rw [SlotState.fork_child]
      split_ifs with hne
      · rfl
      · refine h.child q ?_
        simpa [SlotState.alive, SlotState.fork, Master.goto, hne] using hq
    · rw [SlotState.fork_child]
      split_ifs
      · rfl
      · exact hq
  | reap pid hpc hpid =>
    refine ⟨⟨h.lock, fun q hq => h.child q ?_, nofun⟩, fun _ hq => hq⟩
    simp only [SlotState.alive, Finset.mem_sdiff, Finset.mem_erase] at hq ⊢
    exact ⟨hq.1.2, fun hz => hq.2 ⟨hq.1.1, hz⟩⟩
  | flushLock pid hpc hlock => exact absurd hlock h.lock
  | flushMark pid i s hpc => exact absurd hpc (h.flush pid i)
  | flushSkip pid i s hpc => exact absurd hpc (h.flush pid i)
  | flushUnlock pid i hpc => exact absurd hpc (h.flush pid i)
  | childLock pid halive hpc hlock => exact absurd hlock h.lock
  | childSkip pid i s halive hpc => exact absurd (by rw [hpc]; rfl) (hcritical halive)
  | childTake pid i s halive hpc => exact absurd (by rw [hpc]; rfl) (hcritical halive)
  | childClear pid i s halive hpc => exact absurd (by rw [hpc]; rfl) (hcritical halive)
  | childEnd pid i halive hpc => exact absurd (by rw [hpc]; rfl) (hcritical halive)
  | childUnlock pid r halive hpc => exact absurd (by rw [hpc]; rfl) (hcritical halive)
  | _ => exact ⟨⟨h.lock, h.child, h.flush⟩, fun _ hq => hq⟩

end Stuck

end Cserv.Process
