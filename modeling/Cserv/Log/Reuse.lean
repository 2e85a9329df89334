import Cserv.Log.Slot

/-!
# A slot that is used again

`log_worker_alloc` sets the pid of a slot before `cirbuf_init` resets the indices of its ring one
after the other, and the master scans without the lock. Records of an earlier worker are
read again exactly if that worker left the ring empty at an index other than 0.
-/
namespace Cserv.Log

open Foundations Relation

variable {ρ : Type*} {elemCount pid : ℕ} {P : LogState ρ → Prop} {x : LogState ρ}

/-- A free slot with an empty ring at the index `k`, when a worker starts to allocate it. The master
may be about to clear `need_init`. -/
def vacated (ρ : Type*) (elemCount k : ℕ) (reader : ReaderPc) : LogState ρ :=
  ⟨⟨0, reader = .clearNeedInit, ⟨elemCount, k, k, fun _ => none⟩⟩, .allocPid, reader, [], []⟩

def ReaderPc.away : ReaderPc → Bool
  | outside | testPid | clearNeedInit => true
  | _ => false

/-- All that was read was written by the present worker. -/
def Fresh (x : LogState ρ) : Prop := ∀ r ∈ x.reads, ∃ w ∈ x.written, r = some w

theorem Flow.fresh {xs : List (Option ρ)} (h : Flow elemCount x xs) : Fresh x := by
  intro r hr
  have hmem : r ∈ x.written.map some := by
    rw [h.flow]
    exact List.mem_append_left _ hr
  obtain ⟨w, hw, heq⟩ := List.mem_map.mp hmem
  exact ⟨w, hw, heq.symm⟩

theorem not_fresh (h : none ∈ x.reads) : ¬ Fresh x := by
  intro hfresh
  obtain ⟨w, -, heq⟩ := hfresh none h
  cases heq

theorem vacated_flow {reader : ReaderPc} (hn : 0 < elemCount) (hreader : reader.away = true) :
    Flow elemCount (vacated ρ elemCount 0 reader) [] where
  count := rfl
  ring := RingHolds.empty hn
  flow := by
    change [] = if reader = .advanceStart then [] else []
    rw [ite_self]
  reading hpc := by
    rcases hpc with hpc | hpc <;> (simp only [vacated] at hpc; rw [hpc] at hreader; cases hreader)
  room r hr := by
    rcases hr with hr | hr <;> cases hr
  stored := nofun
  alloc _ := ⟨rfl, rfl⟩

theorem run_testPid (P : LogState ρ → Prop) (elemCount pid : ℕ) (hreader : x.reader.away = true) :
    ∃ y, ReflTransGen (Step elemCount pid P) x y ∧ y.reader = .testPid ∧
      y.slot.pid = x.slot.pid ∧ y.slot.queue = x.slot.queue ∧ y.reads = x.reads := by
  cases hpc : x.reader with
  | outside => exact ⟨_, ReflTransGen.single (Step.scan x hpc), rfl, rfl, rfl, rfl⟩
  | testPid => exact ⟨x, ReflTransGen.refl, hpc, rfl, rfl, rfl⟩
  | clearNeedInit =>
    have h₁ : ReflTransGen (Step elemCount pid P) x _ :=
      ReflTransGen.single (Step.clearNeedInit x hpc)
    exact ⟨_, h₁.tail (Step.scan _ rfl), rfl, rfl, rfl, rfl⟩
  | _ =>
    rw [hpc] at hreader
    cases hreader

/-- With the start reset and the end not, the master reads an old record. -/
theorem run_stale {k : ℕ} {reader : ReaderPc} (hpid : pid ≠ 0) (hk : k ≠ 0)
    (hreader : reader.away = true) :
    ∃ x, ReflTransGen (Step elemCount pid P) (vacated ρ elemCount k reader) x ∧
      x.reads = [none] := by
  let x₂ : LogState ρ :=
    ⟨⟨pid, false, ⟨elemCount, 0, k, fun _ => none⟩⟩, .initEnd, reader, [], []⟩
  have h₀ : Step elemCount pid P (vacated ρ elemCount k reader) _ := Step.allocPid _ rfl rfl
  have h₁ := (ReflTransGen.single h₀).tail (Step.allocNeedInit _ rfl)
  have h₂ : ReflTransGen (Step elemCount pid P) (vacated ρ elemCount k reader) x₂ :=
    (h₁.tail (Step.initElemCount _ rfl)).tail (Step.initStart _ rfl)
  have haway : x₂.reader.away = true := hreader
  obtain ⟨y, h₃, hpc, hy, hqueue, hreads⟩ := run_testPid P elemCount pid haway
  have hset : y.slot.pid ≠ 0 := by
    rw [hy]
    exact hpid
  have hnonempty : y.slot.queue.cirbufIsEmpty = false := by
    rw [hqueue]
    exact decide_eq_false (Ne.symm hk)
  have h₄ := ((h₂.trans h₃).tail (Step.pidSet y hpc hset)).tail (Step.nonempty _ rfl hnonempty)
  refine ⟨_, h₄.tail (Step.readCb _ rfl), ?_⟩
  change y.reads ++ [y.slot.queue.elem y.slot.queue.start] = [none]
  rw [hreads, hqueue]
  rfl

/-- A worker that allocates a slot whose ring was left empty at the index `k` sees only its own
records read, whatever the interleaving, if and only if `k` is 0. -/
theorem reuse_fresh_iff (ρ : Type*) (elemCount pid k : ℕ) (hk : k < elemCount) (hpid : pid ≠ 0)
    (reader : ReaderPc) (hreader : reader.away = true) :
    (∀ x, ReflTransGen (Step elemCount pid fun _ => True) (vacated ρ elemCount k reader) x →
      Fresh x) ↔ k = 0 := by
  constructor
  · intro hfresh
    by_contra hne
    obtain ⟨x, hrun, hreads⟩ := run_stale hpid hne hreader
    exact not_fresh (by simp [hreads]) (hfresh x hrun)
  · intro hzero x hrun
    subst hzero
    have hstart : ∃ xs, Flow elemCount (vacated ρ elemCount 0 reader) xs :=
      ⟨[], vacated_flow hk hreader⟩
    obtain ⟨xs, hflow⟩ := run_invariant (fun y => ∃ ys, Flow elemCount y ys)
      (fun _ _ hys hstep => by
        obtain ⟨ys, hys⟩ := hys
        exact hys.step hstep) hstart hrun
    exact hflow.fresh

/-- A ring of two cells, while the master is about to clear `need_init`. -/
theorem reuse_fresh_two :
    (∀ x, ReflTransGen (Step 2 1 fun _ => True) (vacated ℕ 2 0 .clearNeedInit) x → Fresh x) ∧
      ¬ ∀ x, ReflTransGen (Step 2 1 fun _ => True) (vacated ℕ 2 1 .clearNeedInit) x → Fresh x := by
  refine ⟨(reuse_fresh_iff ℕ 2 1 0 (by decide) (by decide) .clearNeedInit rfl).mpr rfl, fun hfresh => ?_⟩
  exact one_ne_zero ((reuse_fresh_iff ℕ 2 1 1 (by decide) (by decide) .clearNeedInit rfl).mp hfresh)

/-- A ring of two cells left empty at the index 1. -/
theorem reuse_reads_stale : ∃ x : LogState ℕ,
    ReflTransGen (Step 2 1 fun _ => True) (vacated ℕ 2 1 .outside) x ∧ x.reads = [none] ∧
      ¬ Fresh x := by
  have hstale : ∃ x : LogState ℕ,
      ReflTransGen (Step 2 1 fun _ => True) (vacated ℕ 2 1 .outside) x ∧ x.reads = [none] :=
    run_stale (by decide) one_ne_zero rfl
  obtain ⟨x, hrun, hreads⟩ := hstale
  exact ⟨x, hrun, hreads, not_fresh (by simp [hreads])⟩

end Cserv.Log
