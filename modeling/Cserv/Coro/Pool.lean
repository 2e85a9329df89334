import Cserv.Coro.Filing

/-!
# The pool of coroutines

The scheduler seen from the code that runs in coroutines: how many there are, which are idle,
and which one runs. Wakeups and expiries do not show here, and a switch may go to any
coroutine that has not ended.
-/
namespace Cserv.Coro

/-- The coroutine has been created and is not idle. -/
def Sched.Busy (s : Sched) (c : ℕ) : Prop := c ∈ List.range' 1 s.currCoroSize ∧ c ∉ s.idle

theorem RunInv.of_busy {x : Run} (h : RunInv x) (hlost : x.lost = []) {c : ℕ} (hc : x.sched.Busy c) :
    c ∈ x.sched.active ∨ c ∈ x.sched.waiting ∨ x.sched.current = some c := by
  have hmem := h.places.mem_iff.mpr hc.1
  simp only [List.mem_append, Option.mem_toList, hlost, List.append_nil] at hmem
  exact hmem.resolve_left hc.2

theorem RunInv.busy_current {x : Run} (h : RunInv x) {c : ℕ} (hc : x.sched.current = some c) :
    x.sched.Busy c := by
  have hmem : c ∈ x.sched.current.toList ++ x.lost := by simp [hc]
  constructor
  · apply h.places.subset
    simp only [List.mem_append] at hmem ⊢
    exact Or.inr (Or.inr (Or.inr hmem))
  · intro hidle
    have hdisjoint := List.disjoint_of_nodup_append h.nodup
    exact hdisjoint hidle (List.mem_append_right _ (List.mem_append_right _ hmem))

theorem RunInv.waiting_only {x : Run} (h : RunInv x) {c : ℕ} (hc : c ∈ x.sched.waiting) :
    c ∉ x.sched.active ∧ c ∉ x.sched.idle := by
  have hnodup := h.nodup
  have hidle := List.disjoint_of_nodup_append hnodup
  have hactive := List.disjoint_of_nodup_append (List.Nodup.of_append_right hnodup)
  constructor
  · intro hin
    exact hactive hin (List.mem_append_left _ hc)
  · intro hin
    exact hidle hin (List.mem_append_right _ (List.mem_append_left _ hc))

theorem Sched.Busy.dispatchCoro {s : Sched} {c : ℕ} (h : s.Busy c) (mem : Bool) :
    (s.dispatchCoro mem).2.Busy c := by
  obtain ⟨hrange, hidle⟩ := h
  unfold Sched.dispatchCoro Sched.getCoroutine
  cases hcases : s.idle with
  | cons d rest =>
    rw [hcases] at hidle
    exact ⟨hrange, fun hin => hidle (List.mem_cons_of_mem d hin)⟩
  | nil =>
    unfold Sched.createCoroutine
    split_ifs
    · exact ⟨hrange, hidle⟩
    · exact ⟨hrange, hidle⟩
    · constructor
      · rw [List.mem_range'_1] at hrange ⊢
        simp only [Option.map_some, Sched.coroutineInit]
        omega
      · simpa [Sched.coroutineInit] using hidle

theorem Sched.Busy.checkTimeoutCoroutine {s : Sched} {c : ℕ} (h : s.Busy c) (now : ℤ) :
    (s.checkTimeoutCoroutine now).Busy c := by
  obtain ⟨expired, inactive, heq, _⟩ := s.checkTimeoutCoroutine_spec now
  rw [heq]
  exact h

theorem Sched.Busy.runNextActive {s : Sched} {c : ℕ} (h : s.Busy c) : s.runNextActive.Busy c := by
  unfold Sched.runNextActive
  cases s.active <;> exact h

structure SamePool (s s' : Sched) : Prop where
  max : s'.maxCoroSize = s.maxCoroSize
  size : s'.currCoroSize = s.currCoroSize
  next : s'.nextCoroId = s.nextCoroId
  idle : s'.idle = s.idle

/-- What the calls of the scheduler can do to the pool and to `current`. -/
inductive PoolStep : Sched → Sched → Prop
  | dispatch (s : Sched) (mem : Bool) : PoolStep s (s.dispatchCoro mem).2
  | finish (s : Sched) (c : ℕ) (hcurrent : s.current = some c) : PoolStep s (s.finishCoroutine c)
  | stay (s s' : Sched) (hpool : SamePool s s') (hcurrent : s'.current = s.current) : PoolStep s s'
  | suspend (s s' : Sched) (hpool : SamePool s s') (hcurrent : s'.current = none) : PoolStep s s'
  | resume (s s' : Sched) (c : ℕ) (hpool : SamePool s s') (hnone : s.current = none)
      (hbusy : s.Busy c) (hcurrent : s'.current = some c) : PoolStep s s'

theorem scheduleTimeout_samePool (s : Sched) (id : ℕ) (now milliseconds : ℤ) (alloc : Bool) :
    SamePool s (s.scheduleTimeout id now milliseconds alloc) := ⟨rfl, rfl, rfl, rfl⟩

theorem checkTimeoutCoroutine_samePool (s : Sched) (now : ℤ) :
    SamePool s (s.checkTimeoutCoroutine now) ∧
      (s.checkTimeoutCoroutine now).current = s.current := by
  obtain ⟨expired, inactive, heq, _⟩ := s.checkTimeoutCoroutine_spec now
  rw [heq]
  exact ⟨⟨rfl, rfl, rfl, rfl⟩, rfl⟩

theorem RunInv.busy_active {x : Run} (h : RunInv x) {c : ℕ} (hc : c ∈ x.sched.active) :
    x.sched.Busy c := by
  constructor
  · apply h.places.subset
    simp [hc]
  · intro hidle
    exact List.disjoint_of_nodup_append h.nodup hidle (by simp [hc])

/-- Every step of the scheduler, with any timeouts, is a step of the pool. -/
theorem clockStep_pool {P : Run → ℤ → Prop} {x y : Run} (h : RunInv x)
    (hstep : ClockStep P x y) : PoolStep x.sched y.sched := by
  cases hstep with
  | timeout s S L id now milliseconds alloc =>
    exact PoolStep.suspend _ _ (scheduleTimeout_samePool s id now milliseconds alloc) rfl
  | step _ _ hinner =>
    cases hinner with
    | dispatch s S L mem => exact PoolStep.dispatch s mem
    | timeout s S L id now milliseconds alloc =>
      exact PoolStep.suspend _ _ (scheduleTimeout_samePool s id now milliseconds alloc) rfl
    | timeoutFailed s S L id now milliseconds =>
      exact PoolStep.suspend _ _ (scheduleTimeout_samePool s id now milliseconds false) rfl
    | wakeup s S L id => exact PoolStep.stay _ _ ⟨rfl, rfl, rfl, rfl⟩ rfl
    | wakeupPriority s S L id => exact PoolStep.stay _ _ ⟨rfl, rfl, rfl, rfl⟩ rfl
    | check s S L now =>
      obtain ⟨hpool, hcurrent⟩ := checkTimeoutCoroutine_samePool s now
      exact PoolStep.stay _ _ hpool hcurrent
    | isWakeup s S L id => exact PoolStep.stay _ _ ⟨rfl, rfl, rfl, rfl⟩ rfl
    | finish s S L id hcurrent => exact PoolStep.finish s id hcurrent
    | resume s S L hcurrent =>
      cases hactive : s.active with
      | nil =>
        have heq : s.runNextActive = s := by simp [Sched.runNextActive, hactive]
        dsimp only
        rw [heq]
        exact PoolStep.stay _ _ ⟨rfl, rfl, rfl, rfl⟩ rfl
      | cons c rest =>
        have heq : s.runNextActive = { s with active := rest, current := some c } := by
          simp [Sched.runNextActive, hactive]
        have hbusy := h.busy_active (c := c) (by simp [hactive])
        dsimp only
        rw [heq]
        exact PoolStep.resume _ _ c ⟨rfl, rfl, rfl, rfl⟩ hcurrent hbusy rfl

/-! ## Dispatch -/

section Dispatch

variable {s s' : Sched} {mem : Bool} {id : ℕ}

theorem dispatchCoro_pool (hget : s.getCoroutine mem = some (id, s')) {live : List ℕ}
    (hlive : (s.idle ++ live).Perm (List.range' 1 s.currCoroSize))
    (hnext : s.nextCoroId = s.currCoroSize) (hsize : s.currCoroSize ≤ s.maxCoroSize) :
    ((s.dispatchCoro mem).2.idle ++ id :: live).Perm
        (List.range' 1 (s.dispatchCoro mem).2.currCoroSize) ∧
      (s.dispatchCoro mem).2.nextCoroId = (s.dispatchCoro mem).2.currCoroSize ∧
      (s.dispatchCoro mem).2.currCoroSize ≤ s.maxCoroSize := by
  unfold Sched.dispatchCoro
  unfold Sched.getCoroutine at hget ⊢
  cases hidle : s.idle with
  | cons d rest =>
    rw [hidle] at hget hlive
    cases hget
    refine ⟨List.Perm.trans List.perm_middle hlive, hnext, hsize⟩
  | nil =>
    rw [hidle] at hget hlive
    unfold Sched.createCoroutine at hget ⊢
    split_ifs at hget ⊢ with hfull hmem
    · cases hget
    · cases hget
    · cases hget
      refine ⟨?_, congrArg (· + 1) hnext, ?_⟩
      · simp only [Option.map_some, Sched.coroutineInit, hidle]
        rw [List.range'_1_concat, hnext, Nat.add_comm 1]
        rw [List.nil_append] at hlive ⊢
        exact (List.Perm.cons _ hlive).trans (List.perm_append_singleton _ _).symm
      · simp only [Option.map_some, Sched.coroutineInit]
        omega

theorem dispatchCoro_max (s : Sched) (mem : Bool) :
    (s.dispatchCoro mem).2.maxCoroSize = s.maxCoroSize := by
  unfold Sched.dispatchCoro Sched.getCoroutine Sched.createCoroutine
  cases s.idle with
  | cons => rfl
  | nil => split_ifs <;> rfl

theorem poolStep_max {s s' : Sched} (h : PoolStep s s') : s'.maxCoroSize = s.maxCoroSize := by
  cases h with
  | dispatch mem => exact dispatchCoro_max s mem
  | finish => rfl
  | stay _ hpool _ => exact hpool.max
  | suspend _ hpool _ => exact hpool.max
  | resume _ _ hpool _ _ _ => exact hpool.max

theorem dispatchCoro_current (s : Sched) (mem : Bool) :
    (s.dispatchCoro mem).2.current = s.current := by
  unfold Sched.dispatchCoro Sched.getCoroutine Sched.createCoroutine
  cases s.idle with
  | cons => rfl
  | nil => split_ifs <;> rfl

/-- With memory, `dispatch_coro` succeeds if a coroutine is idle or can be created. -/
theorem dispatchCoro_ok (h : s.idle ≠ [] ∨ s.currCoroSize < s.maxCoroSize) :
    (s.dispatchCoro true).1 = 0 := by
  unfold Sched.dispatchCoro Sched.getCoroutine
  cases hidle : s.idle with
  | cons => rfl
  | nil =>
    have hlt := h.resolve_left (not_not.mpr hidle)
    simp [Sched.createCoroutine, hlt.ne]

end Dispatch

end Cserv.Coro
