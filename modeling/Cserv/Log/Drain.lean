import Cserv.Log.Slot

/-!
# The records of a worker that exits

The master frees the slot of a worker after it has found its ring empty and `need_init` set. The
ring was found empty first, so that the last records of the worker may come between the two
tests; they are read exactly if the handler of the exit does not run there.
-/
namespace Cserv.Log

open Foundations Relation

variable {ρ : Type*} {elemCount pid : ℕ} {P : LogState ρ → Prop} {x y : LogState ρ}

def tenant (ρ : Type*) (elemCount pid : ℕ) (reader : ReaderPc) : LogState ρ :=
  ⟨⟨pid, false, ⟨elemCount, 0, 0, fun _ => none⟩⟩, .running, reader, [], []⟩

/-- Where the master may be when it meets a new worker. If it has just freed the slot, it has still to
clear `need_init`. -/
def ReaderPc.scanning : ReaderPc → Bool
  | outside | testPid | testEmpty | testNeedInit | clearNeedInit => true
  | _ => false

/-- The handler does not run between the test of the ring and the test of `need_init` while there
are records in the ring. -/
def Kept (x : LogState ρ) : Prop :=
  x.reader = .testNeedInit → x.slot.queue.cirbufIsEmpty = true

/-- The master has decided to free the slot, or has freed it. -/
def Settled (x : LogState ρ) : Prop :=
  x.reader = .testNeedInit ∧ x.slot.needInit = true ∨ x.reader = .setPid ∨ x.slot.pid = 0

def ReaderPc.copying : ReaderPc → Bool
  | testEmpty | readCb | advanceStart | testNeedInit | setPid => true
  | _ => false

/-- The invariant of a slot that loses no records. -/
structure DrainInv (elemCount pid : ℕ) (x : LogState ρ) : Prop where
  flow : ∃ xs, Flow elemCount x xs
  working : x.writer.allocating = false
  owner : x.slot.pid = pid ∨ x.slot.pid = 0
  copying : x.reader.copying = true → x.slot.pid = pid
  needInit : x.slot.needInit = true → x.writer = .reaped
  settled : Settled x → x.slot.queue.cirbufIsEmpty = true ∧ x.writer = .reaped

namespace DrainInv

theorem worker (h : DrainInv elemCount pid x) (hstep : Step elemCount pid P x y)
    (hpc : x.writer ≠ .reaped) (hreader : y.reader = x.reader) (hpid : y.slot.pid = x.slot.pid)
    (hneed : y.slot.needInit = x.slot.needInit) (hworking : y.writer.allocating = false) :
    DrainInv elemCount pid y where
  flow := by
    obtain ⟨xs, hflow⟩ := h.flow
    exact hflow.step hstep
  working := hworking
  owner := by
    rw [hpid]
    exact h.owner
  copying hcopying := by
    rw [hpid]
    exact h.copying (hreader ▸ hcopying)
  needInit hy := absurd (h.needInit (hneed ▸ hy)) hpc
  settled hy := by
    unfold Settled at hy
    rw [hreader, hpid, hneed] at hy
    exact absurd (h.settled hy).2 hpc

theorem master (h : DrainInv elemCount pid x) (hstep : Step elemCount pid P x y)
    (hwriter : y.writer = x.writer) (howner : y.slot.pid = x.slot.pid ∨ y.slot.pid = 0)
    (hcopying : y.reader.copying = true → y.slot.pid = pid)
    (hneed : y.slot.needInit = true → x.slot.needInit = true)
    (hsettled : Settled y → y.slot.queue.cirbufIsEmpty = true ∧ x.writer = .reaped) :
    DrainInv elemCount pid y where
  flow := by
    obtain ⟨xs, hflow⟩ := h.flow
    exact hflow.step hstep
  working := by
    rw [hwriter]
    exact h.working
  owner := by
    rcases howner with howner | howner
    · rw [howner]
      exact h.owner
    · exact Or.inr howner
  copying := hcopying
  needInit hy := by
    rw [hwriter]
    exact h.needInit (hneed hy)
  settled hy := by
    rw [hwriter]
    exact hsettled hy

theorem handler (h : DrainInv elemCount pid x)
    (hstep : Step elemCount pid P x ((x.logWorkerFlushAndReset pid).writerTo .reaped))
    (hkept : Kept x) :
    DrainInv elemCount pid ((x.logWorkerFlushAndReset pid).writerTo .reaped) := by
  have hslot : ((x.logWorkerFlushAndReset pid).writerTo .reaped).slot.pid = x.slot.pid ∧
      ((x.logWorkerFlushAndReset pid).writerTo .reaped).slot.queue = x.slot.queue ∧
      ((x.logWorkerFlushAndReset pid).writerTo .reaped).reader = x.reader := by
    unfold LogState.logWorkerFlushAndReset
    split_ifs <;> exact ⟨rfl, rfl, rfl⟩
  obtain ⟨hpid, hqueue, hreader⟩ := hslot
  obtain ⟨xs, hflow⟩ := h.flow
  constructor
  · exact hflow.step hstep
  · rfl
  · rw [hpid]
    exact h.owner
  · rw [hpid, hreader]
    exact h.copying
  · intro _
    rfl
  · intro hsettled
    refine ⟨?_, rfl⟩
    rw [hqueue]
    unfold Settled at hsettled
    rw [hpid, hreader] at hsettled
    rcases hsettled with hsettled | hsettled
    · exact hkept hsettled.1
    · exact (h.settled (Or.inr hsettled)).1

theorem step (hpid : pid ≠ 0) (h : DrainInv elemCount pid x)
    (hstep : Step elemCount pid Kept x y) : DrainInv elemCount pid y := by
  have hall := hstep
  have hworking := h.working
  have hpidOf : x.reader.copying = true → x.slot.pid ≠ 0 := by
    intro hcopying
    rw [h.copying hcopying]
    exact hpid
  cases hstep with
  | allocPid hpc | allocNeedInit hpc | initElemCount hpc | initStart hpc | initEnd hpc =>
    simp [hpc, WriterPc.allocating] at hworking
  | full => exact h
  | write r hpc htest => exact h.worker hall (by simp [hpc]) rfl rfl rfl rfl
  | writeCb r hpc => exact h.worker hall (by simp [hpc]) rfl rfl rfl rfl
  | advanceEnd r hpc => exact h.worker hall (by simp [hpc]) rfl rfl rfl rfl
  | exit hpc =>
    have hne : x.writer ≠ .reaped := by
      rcases hpc with hpc | ⟨r, hpc | hpc⟩ <;> simp [hpc]
    exact h.worker hall hne rfl rfl rfl rfl
  | handler hpc hP => exact h.handler hall hP
  | scan hpc =>
    apply h.master hall rfl (Or.inl rfl) (by simp [LogState.readerTo, ReaderPc.copying]) id
    intro hsettled
    apply h.settled
    simpa [Settled, LogState.readerTo, hpc] using hsettled
  | pidZero hpc htest =>
    apply h.master hall rfl (Or.inl rfl) (by simp [LogState.readerTo, ReaderPc.copying]) id
    intro _
    exact h.settled (Or.inr (Or.inr htest))
  | pidSet hpc htest =>
    apply h.master hall rfl (Or.inl rfl) (fun _ => h.owner.resolve_right htest) id
    simp [Settled, LogState.readerTo, htest]
  | empty hpc htest =>
    have hzero := hpidOf (by rw [hpc]; rfl)
    apply h.master hall rfl (Or.inl rfl) (fun _ => h.copying (by rw [hpc]; rfl)) id
    intro hsettled
    refine ⟨htest, h.needInit ?_⟩
    simpa [Settled, LogState.readerTo, hzero] using hsettled
  | nonempty hpc htest =>
    have hzero := hpidOf (by rw [hpc]; rfl)
    apply h.master hall rfl (Or.inl rfl) (fun _ => h.copying (by rw [hpc]; rfl)) id
    simp [Settled, LogState.readerTo, hzero]
  | readCb hpc =>
    have hzero := hpidOf (by rw [hpc]; rfl)
    apply h.master hall rfl (Or.inl rfl) (fun _ => h.copying (by rw [hpc]; rfl)) id
    simp [Settled, LogState.readerTo, hzero]
  | advanceStart hpc =>
    have hzero := hpidOf (by rw [hpc]; rfl)
    apply h.master hall rfl (Or.inl rfl) (fun _ => h.copying (by rw [hpc]; rfl)) id
    simp [Settled, LogState.readerTo, LogState.setQueue, hzero]
  | keep hpc htest =>
    have hzero := hpidOf (by rw [hpc]; rfl)
    apply h.master hall rfl (Or.inl rfl) (by simp [LogState.readerTo, ReaderPc.copying]) id
    simp [Settled, LogState.readerTo, hzero]
  | release hpc htest =>
    apply h.master hall rfl (Or.inl rfl) (fun _ => h.copying (by rw [hpc]; rfl)) id
    intro _
    exact h.settled (Or.inl ⟨hpc, htest⟩)
  | setPid hpc =>
    apply h.master hall rfl (Or.inr rfl) (by simp [LogState.readerTo, ReaderPc.copying]) id
    intro _
    exact h.settled (Or.inr (Or.inl hpc))
  | clearNeedInit hpc =>
    apply h.master hall rfl (Or.inl rfl) (by simp [LogState.readerTo, ReaderPc.copying])
      (by simp [LogState.readerTo])
    intro hsettled
    apply h.settled
    simpa [Settled, LogState.readerTo, hpc] using hsettled

end DrainInv

theorem tenant_inv (hn : 0 < elemCount) {reader : ReaderPc} (hreader : reader.scanning = true)
    (hpid : pid ≠ 0) : DrainInv elemCount pid (tenant ρ elemCount pid reader) where
  flow := by
    refine ⟨[], rfl, RingHolds.empty hn, ?_, ?_, ?_, nofun, nofun⟩
    · change [] = if reader = .advanceStart then [] else []
      rw [ite_self]
    · intro hpc
      rcases hpc with hpc | hpc <;> (simp only [tenant] at hpc; rw [hpc] at hreader; cases hreader)
    · intro r hr
      rcases hr with hr | hr <;> cases hr
  working := rfl
  owner := Or.inl rfl
  copying _ := rfl
  needInit := nofun
  settled hsettled := by
    rcases hsettled with hsettled | hsettled | hsettled
    · cases hsettled.2
    · simp only [tenant] at hsettled
      rw [hsettled] at hreader
      cases hreader
    · exact absurd hsettled hpid

/-- A slot is freed after all records were read. -/
theorem DrainInv.reads_eq (h : DrainInv elemCount pid x) (hpid : x.slot.pid = 0) :
    x.reads = x.written.map some := by
  obtain ⟨xs, hflow⟩ := h.flow
  have hempty := (h.settled (Or.inr (Or.inr hpid))).1
  have hnil := hflow.isEmpty_iff.mp hempty
  have heq := hflow.flow
  rw [hnil] at heq
  simpa using heq.symm

/-- In every run in which the handler does not come between the two tests of the master while the
ring has records, the slot is freed after all records were read. Whenever it could come there,
the records in the ring can be lost. -/
theorem drained_before_free (ρ : Type*) (elemCount pid : ℕ) (hn : 0 < elemCount) (hpid : pid ≠ 0)
    (reader : ReaderPc) (hreader : reader.scanning = true) (x : LogState ρ)
    (hrun : ReflTransGen (Step elemCount pid Kept) (tenant ρ elemCount pid reader) x) :
    (x.slot.pid = 0 → x.reads = x.written.map some) ∧
      (x.writer = .exited → ¬ Kept x → ∃ y,
        ReflTransGen (Step elemCount pid fun _ => True) x y ∧ y.slot.pid = 0 ∧
          y.reads ≠ y.written.map some) := by
  have hinv := run_invariant (DrainInv elemCount pid) (fun _ _ => DrainInv.step hpid)
    (tenant_inv hn hreader hpid) hrun
  refine ⟨hinv.reads_eq, ?_⟩
  intro hexited hkept
  unfold Kept at hkept
  push Not at hkept
  obtain ⟨hpc, hempty⟩ := hkept
  have howner := hinv.copying (by rw [hpc]; rfl)
  obtain ⟨xs, hflow⟩ := hinv.flow
  have hne : xs ≠ [] := fun hnil => hempty (hflow.isEmpty_iff.mpr hnil)
  have heq := hflow.flow
  rw [if_neg (by simp [hpc])] at heq
  -- the handler sets `need_init` now, and the master frees the slot
  let x₁ : LogState ρ := { x with slot.needInit := true, writer := .reaped }
  have h₁ : Step elemCount pid (fun _ => True) x x₁ := by
    have hstep : Step elemCount pid (fun _ => True) x _ := Step.handler x hexited trivial
    rw [LogState.logWorkerFlushAndReset, if_pos howner] at hstep
    exact hstep
  have h₂ : Step elemCount pid (fun _ => True) x₁ (x₁.readerTo .setPid) :=
    Step.release x₁ hpc rfl
  have h₃ : Step elemCount pid (fun _ => True) (x₁.readerTo .setPid) _ := Step.setPid _ rfl
  refine ⟨_, ((ReflTransGen.single h₁).tail h₂).tail h₃, rfl, ?_⟩
  change x.reads ≠ x.written.map some
  rw [heq]
  simpa using hne

/-- A worker that writes one record and exits while the master is outside. -/
theorem drained_before_free_one : ∃ x : LogState ℕ, x.slot.pid = 0 ∧ x.written = [7] ∧
    x.reads = x.written.map some := by
  have h₀ : Step 2 1 Kept (tenant ℕ 2 1 .outside) _ := Step.write _ 7 rfl rfl
  have h₁ := (ReflTransGen.single h₀).tail (Step.writeCb _ 7 rfl)
  have h₂ := h₁.tail (Step.advanceEnd _ 7 rfl)
  have h₃ := h₂.tail (Step.exit _ (Or.inl rfl))
  have h₄ := h₃.tail (Step.handler _ rfl nofun)
  have h₅ := (h₄.tail (Step.scan _ rfl)).tail (Step.pidSet _ rfl (by decide))
  have h₆ := h₅.tail (Step.nonempty _ rfl rfl)
  have h₇ := (h₆.tail (Step.readCb _ rfl)).tail (Step.advanceStart _ rfl)
  have h₈ := (h₇.tail (Step.empty _ rfl rfl)).tail (Step.release _ rfl rfl)
  have h₉ := h₈.tail (Step.setPid _ rfl)
  exact ⟨_, rfl, rfl, (drained_before_free ℕ 2 1 (by decide) (by decide) .outside rfl _ h₉).1 rfl⟩

/-- The record 7 is written, the worker exits and the handler runs between the two tests. -/
theorem free_loses_record : ∃ x : LogState ℕ,
    ReflTransGen (Step 2 1 fun _ => True) (tenant ℕ 2 1 .outside) x ∧ x.slot.pid = 0 ∧
      x.written = [7] ∧ x.reads = [] := by
  have h₀ : Step 2 1 (fun _ => True) (tenant ℕ 2 1 .outside) _ := Step.scan _ rfl
  have h₁ := (ReflTransGen.single h₀).tail (Step.pidSet _ rfl (by decide))
  have h₂ := h₁.tail (Step.empty _ rfl rfl)
  have h₃ := (h₂.tail (Step.write _ 7 rfl rfl)).tail (Step.writeCb _ 7 rfl)
  have h₄ := h₃.tail (Step.advanceEnd _ 7 rfl)
  have h₅ := (h₄.tail (Step.exit _ (Or.inl rfl))).tail (Step.handler _ rfl trivial)
  have h₆ := (h₅.tail (Step.release _ rfl rfl)).tail (Step.setPid _ rfl)
  exact ⟨_, h₆, rfl, rfl, rfl⟩

end Cserv.Log
