import Cserv.Coro.Partition

/-!
# Where a suspended coroutine is filed

`schedule_timeout` with any clock reading and any interval. The insertion narrows the
difference of two timeouts to an `int`, the lookup does not; they agree as long as the
insertion goes the way of the true differences. Without memory for a new timer node the
coroutine is filed nowhere.
-/
namespace Cserv.Coro

open Foundations Relation Util Util.RbTree ColorTree

/-- The steps of the scheduler with any timeouts that `P` allows. -/
inductive ClockStep (P : Run → ℤ → Prop) : Run → Run → Prop
  | step (x y : Run) (hstep : Step x y) : ClockStep P x y
  | timeout (s : Sched) (S : Set ℕ) (L : List ℕ) (id : ℕ) (now milliseconds : ℤ) (alloc : Bool)
      (hcurrent : s.current = some id) (hP : P ⟨s, S, L⟩ (toInt64 (now + milliseconds)))
      (halloc : alloc = true ∨ s.HasTimer (toInt64 (now + milliseconds))) :
      ClockStep P ⟨s, S, L⟩ ⟨s.scheduleTimeout id now milliseconds alloc, insert id S, L⟩

/-- The 64-bit differences of a timeout and the pending ones do not overflow. -/
def FitsAll (x : Run) (timeout : ℤ) : Prop :=
  ∀ d ∈ x.suspended, Fits timeout (x.sched.coro d).timeout

/-- A timeout that is filed at its place. -/
def Filed (x : Run) (timeout : ℤ) : Prop := FitsAll x timeout ∧ Files x.sched.inactive timeout

variable {x y : Run}

theorem RunInv.fits (h : RunInv x) {timeout : ℤ} (hfits : FitsAll x timeout) :
    ∀ a ∈ x.sched.inactive.toList, Fits timeout a.timeout := by
  intro a ha
  obtain ⟨d, hd⟩ := List.exists_mem_of_ne_nil _ (h.timers.nonempty a ha)
  rw [← h.timers.timeout a ha d hd]
  exact hfits d ((h.suspended d).mpr (mem_members.mpr ⟨a, ha, hd⟩))

theorem clockStep_inv (h : RunInv x) (hstep : ClockStep Filed x y) : RunInv y := by
  cases hstep with
  | step _ _ hinner => exact step_inv h hinner
  | timeout s S L id now milliseconds alloc hcurrent hP halloc =>
    exact filed_inv h now milliseconds hcurrent (h.fits hP.1) hP.2 halloc

theorem clockRun_inv (h : RunInv x) (hrun : ReflTransGen (ClockStep Filed) x y) : RunInv y :=
  run_invariant RunInv (fun _ _ => clockStep_inv) h hrun

/-! ## Lookup -/

/-- The timer nodes are strictly ordered, and the lookup of the timeout of a suspended coroutine
finds the timer node that holds it. -/
structure LookupAgrees (x : Run) : Prop where
  sorted : x.sched.inactive.toList.Pairwise fun a b => a.timeout < b.timeout
  found : ∀ d ∈ x.suspended, ∃ c l tm r up,
    findTimerNode x.sched.inactive (x.sched.coro d).timeout = (.node c l tm r, up) ∧
      d ∈ tm.root.toList

theorem RunInv.lookupAgrees (h : RunInv x) : LookupAgrees x where
  sorted := h.timers.sorted
  found d hd := by
    obtain ⟨tm, htm, hmem⟩ := mem_members.mp ((h.suspended d).mp hd)
    obtain ⟨c, l, r, up, hfind, _⟩ := h.timers.findTimerNode_spec htm
    rw [← h.timers.timeout tm htm d hmem] at hfind
    exact ⟨c, l, tm, r, up, hfind, hmem⟩

theorem between_exact {up : List (Crumb TimerNode)} {timeout : ℤ}
    (hbefore : ∀ a ∈ before up, a.timeout < timeout)
    (hafter : ∀ a ∈ after up, timeout < a.timeout) :
    Between (fun tm : TimerNode => direction (timeout - tm.timeout)) up := by
  constructor
  · intro a ha
    have h := hbefore a ha
    rw [direction_gt]
    omega
  · intro a ha
    have h := hafter a ha
    rw [direction_lt]
    omega

section Converse

variable {s : Sched} {S : Set ℕ} {L : List ℕ} {id : ℕ} {now milliseconds : ℤ} {alloc : Bool}

theorem files_of_sorted {up : List (Crumb TimerNode)} {tm : TimerNode} {timeout : ℤ}
    (hdesc : s.inactive.descend (fun tm => direction (toInt32 (timeout - tm.timeout))) [] =
      (.nil, up))
    (htm : tm.timeout = timeout)
    (hsorted : (before up ++ tm :: after up).Pairwise fun a b => a.timeout < b.timeout) :
    Files s.inactive timeout := by
  subst htm
  obtain ⟨_, hcons, hcross⟩ := List.pairwise_append.mp hsorted
  have hbefore : ∀ a ∈ before up, a.timeout < tm.timeout :=
    fun a ha => hcross a ha tm List.mem_cons_self
  have hexact := descend_plug (between_exact hbefore (List.pairwise_cons.mp hcons).1) .nil
  rw [descend_nil hdesc] at hexact
  unfold Files
  rw [hdesc, hexact]
  rfl

theorem files_of_found {c : Color} {l r : ColorTree TimerNode} {tm : TimerNode}
    {up : List (Crumb TimerNode)} {timeout : ℤ}
    (hdesc : s.inactive.descend (fun tm => direction (toInt32 (timeout - tm.timeout))) [] =
      (.node c l tm r, up))
    (htm : tm.timeout = timeout)
    (hsorted : s.inactive.toList.Pairwise fun a b => a.timeout < b.timeout) :
    Files s.inactive timeout := by
  subst htm
  have hplug := (descend_node hdesc).2
  rw [← hplug, toList_plug, toList_node, List.append_assoc, List.cons_append] at hsorted
  obtain ⟨_, hrest, hcross⟩ := List.pairwise_append.mp hsorted
  have hlater := (List.pairwise_append.mp hrest).2.1
  have hbefore : ∀ a ∈ before up, a.timeout < tm.timeout :=
    fun a ha => hcross a ha tm (by simp)
  have hafter : ∀ a ∈ after up, tm.timeout < a.timeout :=
    fun a ha => (List.pairwise_cons.mp hlater).1 a (by simp [ha])
  have hexact := descend_plug (between_exact hbefore hafter) (.node c l tm r)
  have heq : direction (tm.timeout - tm.timeout) = .eq := by
    rw [direction_eq]
    omega
  rw [hplug, descend, heq] at hexact
  unfold Files
  rw [hdesc, hexact]

/-- The timer node a lookup returns has the timeout, up to 64 bits. -/
theorem findTimerNode_mem {inactive : ColorTree TimerNode} {timeout : ℤ} {c : Color}
    {l r : ColorTree TimerNode} {tm : TimerNode} {up : List (Crumb TimerNode)}
    (h : findTimerNode inactive timeout = (.node c l tm r, up)) :
    tm ∈ inactive.toList ∧ toInt64 (timeout - tm.timeout) = 0 := by
  obtain ⟨heq, hplug⟩ := descend_node h
  constructor
  · simp [← hplug]
  · exact direction_eq.mp heq

/-- If the lookup still agrees after `schedule_timeout`, the coroutine is at its place. -/
theorem files_of_lookupAgrees (h : RunInv ⟨s, S, L⟩) (hcurrent : s.current = some id)
    (hfits : FitsAll ⟨s, S, L⟩ (toInt64 (now + milliseconds)))
    (halloc : alloc = true ∨ s.HasTimer (toInt64 (now + milliseconds)))
    (hafter : LookupAgrees ⟨s.scheduleTimeout id now milliseconds alloc, insert id S, L⟩) :
    Files s.inactive (toInt64 (now + milliseconds)) := by
  obtain ⟨hsorted, hfound⟩ := hafter
  simp only [Sched.scheduleTimeout, moveToInactiveTree_filed halloc] at hsorted hfound
  obtain ⟨⟨f, up⟩, hdesc⟩ : ∃ z, s.inactive.descend
      (fun tm => direction (toInt32 (toInt64 (now + milliseconds) - tm.timeout))) [] = z := ⟨_, rfl⟩
  generalize toInt64 (now + milliseconds) = timeout at *
  cases f with
  | nil =>
    have hnew : (moveToInactiveTree s.inactive id timeout true).toList =
        before up ++ ⟨timeout, addToTimerNode .nil id⟩ :: after up := by
      simp [moveToInactiveTree, hdesc]
    rw [hnew] at hsorted
    exact files_of_sorted hdesc rfl hsorted
  | node c l tm r =>
    have hold := congrArg toList (descend_node hdesc).2
    rw [toList_plug, toList_node] at hold
    have hmem : tm ∈ s.inactive.toList := by simp [← hold]
    apply files_of_found hdesc _ h.timers.sorted
    -- the lookup of the new timeout ends at the only timer node with the coroutine
    obtain ⟨c', l', tm', r', up', hfind, hid⟩ := hfound id (Set.mem_insert id S)
    rw [Function.update_self] at hfind
    obtain ⟨hmem', hzero⟩ := findTimerNode_mem hfind
    have hsame : tm'.timeout = tm.timeout := by
      have hcases : tm' = { tm with root := addToTimerNode tm.root id } ∨
          tm' ∈ s.inactive.toList := by
        simp only [moveToInactiveTree, hdesc, toList_plug, toList_node, List.mem_append,
          List.mem_cons, ← hold] at hmem' ⊢
        tauto
      rcases hcases with htm' | htm'
      · rw [htm']
      · exact absurd (mem_members.mpr ⟨tm', htm', hid⟩) (h.current_not_waiting hcurrent)
    rw [hsame, (h.fits hfits tm hmem).toInt64] at hzero
    omega

end Converse

/-- In every run whose timeouts are filed at their places the lookup agrees with the insertion;
and there a further timeout keeps it so exactly if it is filed at its place. -/
theorem lookupAgrees_iff_files (maxCoroSize : ℕ) (mem : ℕ → Coroutine)
    (hmax : maxCoroSize < 2 ^ 31) (x : Run)
    (hrun : ReflTransGen (ClockStep Filed) ⟨scheduleInit maxCoroSize mem hmax, ∅, []⟩ x) :
    LookupAgrees x ∧ ∀ (id : ℕ) (now milliseconds : ℤ) (alloc : Bool),
      x.sched.current = some id → FitsAll x (toInt64 (now + milliseconds)) →
      (alloc = true ∨ x.sched.HasTimer (toInt64 (now + milliseconds))) →
      (LookupAgrees ⟨x.sched.scheduleTimeout id now milliseconds alloc, insert id x.suspended,
        x.lost⟩ ↔ Files x.sched.inactive (toInt64 (now + milliseconds))) := by
  have hinv := clockRun_inv (init_inv maxCoroSize mem hmax) hrun
  refine ⟨hinv.lookupAgrees, ?_⟩
  intro id now milliseconds alloc hcurrent hfits halloc
  constructor
  · exact files_of_lookupAgrees hinv hcurrent hfits halloc
  · intro hfiles
    have hafter := filed_inv hinv now milliseconds hcurrent (hinv.fits hfits) hfiles halloc
    exact hafter.lookupAgrees

/-- A coroutine that suspends itself alone is found. -/
theorem lookupAgrees_iff_files_first :
    LookupAgrees ⟨((scheduleInit 2 (fun _ => ⟨0, false⟩) (by decide)).dispatchCoro
      true).2.runNextActive.scheduleTimeout 1 0 10 true, insert 1 ∅, []⟩ := by
  refine (lookupAgrees_iff_files 2 (fun _ => ⟨0, false⟩) (by decide) _ ?_).1
  have h₁ := ReflTransGen.single (ClockStep.step (P := Filed) _ _
    (Step.dispatch (scheduleInit 2 (fun _ => ⟨0, false⟩) (by decide)) ∅ [] true))
  have h₂ := h₁.tail (ClockStep.step _ _ (Step.resume _ _ _ rfl))
  exact h₂.tail (ClockStep.step _ _ (Step.timeout _ _ _ 1 0 10 true rfl (by simp) (Or.inl rfl)))

/-- Two coroutines, the first suspended for 10 milliseconds and the second running. -/
def secondRuns : Sched :=
  let s := (scheduleInit 2 (fun _ => ⟨0, false⟩) (by decide)).dispatchCoro true
  let s := s.2.dispatchCoro true
  (s.2.runNextActive.scheduleTimeout 1 0 10 true).runNextActive

/-- The second suspends itself after the clock was set forward by `2 ^ 32` milliseconds. -/
def clockSetForward : Run :=
  ⟨secondRuns.scheduleTimeout 2 (2 ^ 32) 10 true, insert 2 (insert 1 ∅), []⟩

/-- The second coroutine is filed with the first, and its lookup finds nothing. -/
theorem lookup_clockSetForward :
    ReflTransGen (ClockStep fun _ _ => True)
        ⟨scheduleInit 2 (fun _ => ⟨0, false⟩) (by decide), ∅, []⟩ clockSetForward ∧
      ¬ LookupAgrees clockSetForward := by
  constructor
  · have h₁ := ReflTransGen.single (ClockStep.step (P := fun _ _ => True) _ _
      (Step.dispatch (scheduleInit 2 (fun _ => ⟨0, false⟩) (by decide)) ∅ [] true))
    have h₂ := h₁.tail (ClockStep.step _ _ (Step.dispatch _ _ _ true))
    have h₃ := h₂.tail (ClockStep.step _ _ (Step.resume _ _ _ rfl))
    have h₄ := h₃.tail (ClockStep.timeout _ _ _ 1 0 10 true rfl trivial (Or.inl rfl))
    have h₅ := h₄.tail (ClockStep.step _ _ (Step.resume _ _ _ rfl))
    exact h₅.tail (ClockStep.timeout _ _ _ 2 (2 ^ 32) 10 true rfl trivial (Or.inl rfl))
  · intro h
    obtain ⟨c, l, tm, r, up, hfind, _⟩ := h.found 2 (Set.mem_insert 2 _)
    have hmiss : (findTimerNode clockSetForward.sched.inactive
        (clockSetForward.sched.coro 2).timeout).1 = .nil := by decide
    rw [hfind] at hmiss
    cases hmiss

/-! ## No memory -/

theorem mem_waiting_of_hasTimer {s : Sched} {id : ℕ} {now milliseconds : ℤ} {alloc : Bool}
    (h : s.HasTimer (toInt64 (now + milliseconds))) :
    id ∈ (s.scheduleTimeout id now milliseconds alloc).waiting := by
  unfold Sched.HasTimer at h
  obtain ⟨⟨f, up⟩, hdesc⟩ : ∃ z, s.inactive.descend
      (fun tm => direction (toInt32 (toInt64 (now + milliseconds) - tm.timeout))) [] = z := ⟨_, rfl⟩
  cases f with
  | nil =>
    rw [hdesc] at h
    exact absurd rfl h
  | node c l tm r =>
    apply mem_members.mpr
    refine ⟨{ tm with root := addToTimerNode tm.root id }, ?_, ?_⟩
    · simp [Sched.scheduleTimeout, moveToInactiveTree, hdesc]
    · simp [addToTimerNode]

/-- The coroutine is in exactly one of the active list and the timer nodes, so that a later step can
resume it. -/
def Sched.Resumable (s : Sched) (id : ℕ) : Prop :=
  id ∈ s.active ∧ id ∉ s.waiting ∨ id ∉ s.active ∧ id ∈ s.waiting

theorem waiting_of_not_hasTimer {s : Sched} {id : ℕ} {now milliseconds : ℤ}
    (h : ¬ s.HasTimer (toInt64 (now + milliseconds))) :
    (s.scheduleTimeout id now milliseconds false).waiting = s.waiting := by
  have htree : moveToInactiveTree s.inactive id (toInt64 (now + milliseconds)) false =
      s.inactive := moveToInactiveTree_failed h
  simp only [Sched.scheduleTimeout, Sched.waiting, htree]

theorem resumable_of_hasTimer {s : Sched} {id : ℕ} {now milliseconds : ℤ}
    (h : s.HasTimer (toInt64 (now + milliseconds))) :
    (s.scheduleTimeout id now milliseconds false).Resumable id ↔ id ∉ s.active := by
  have hwaiting : id ∈ (s.scheduleTimeout id now milliseconds false).waiting :=
    mem_waiting_of_hasTimer h
  constructor
  · intro hkept
    rcases hkept with hkept | hkept
    · exact absurd hwaiting hkept.2
    · exact hkept.1
  · intro hactive
    exact Or.inr ⟨hactive, hwaiting⟩

theorem resumable_of_not_hasTimer {s : Sched} {id : ℕ} {now milliseconds : ℤ}
    (h : ¬ s.HasTimer (toInt64 (now + milliseconds))) :
    (s.scheduleTimeout id now milliseconds false).Resumable id ↔ s.Resumable id := by
  unfold Sched.Resumable
  rw [waiting_of_not_hasTimer h]
  rfl

/-- After `schedule_timeout` without memory the caller can be resumed, if and only if there is a
timer node for it, so that `memcache_alloc` is not called, or it was in exactly one of the lists
before. In a state of a run it was in none. -/
theorem scheduleTimeout_kept_iff (s : Sched) (id : ℕ) (now milliseconds : ℤ) :
    ((s.scheduleTimeout id now milliseconds false).Resumable id ↔
      s.HasTimer (toInt64 (now + milliseconds)) ∧ id ∉ s.active ∨
        ¬ s.HasTimer (toInt64 (now + milliseconds)) ∧ s.Resumable id) ∧
    ∀ (maxCoroSize : ℕ) (mem : ℕ → Coroutine) (hmax : maxCoroSize < 2 ^ 31) (x : Run),
      ReflTransGen (ClockStep Filed) ⟨scheduleInit maxCoroSize mem hmax, ∅, []⟩ x →
      x.sched = s → s.current = some id →
      ((s.scheduleTimeout id now milliseconds false).Resumable id ↔
        s.HasTimer (toInt64 (now + milliseconds))) := by
  by_cases htimer : s.HasTimer (toInt64 (now + milliseconds))
  · rw [resumable_of_hasTimer htimer]
    constructor
    · simp [htimer]
    · intro maxCoroSize mem hmax x hrun hs hcurrent
      subst hs
      have hinv := clockRun_inv (init_inv maxCoroSize mem hmax) hrun
      exact iff_of_true (hinv.current_not_active hcurrent) htimer
  · rw [resumable_of_not_hasTimer htimer]
    constructor
    · simp [htimer]
    · intro maxCoroSize mem hmax x hrun hs hcurrent
      subst hs
      have hinv := clockRun_inv (init_inv maxCoroSize mem hmax) hrun
      apply iff_of_false _ htimer
      intro hkept
      rcases hkept with hkept | hkept
      · exact hinv.current_not_active hcurrent hkept.1
      · exact hinv.current_not_waiting hcurrent hkept.2

/-- With a timer node for the same timeout at hand, the second coroutine is kept. -/
theorem scheduleTimeout_kept_second :
    secondRuns.current = some 2 ∧ (secondRuns.scheduleTimeout 2 5 5 false).Resumable 2 := by
  have h₁ := ReflTransGen.single (ClockStep.step (P := Filed) _ _
    (Step.dispatch (scheduleInit 2 (fun _ => ⟨0, false⟩) (by decide)) ∅ [] true))
  have h₂ := h₁.tail (ClockStep.step _ _ (Step.dispatch _ _ _ true))
  have h₃ := h₂.tail (ClockStep.step _ _ (Step.resume _ _ _ rfl))
  have h₄ := h₃.tail
    (ClockStep.step _ _ (Step.timeout _ _ _ 1 0 10 true rfl (by simp) (Or.inl rfl)))
  have h₅ := h₄.tail (ClockStep.step _ _ (Step.resume _ _ _ rfl))
  exact ⟨rfl, ((scheduleTimeout_kept_iff secondRuns 2 5 5).2 2 (fun _ => ⟨0, false⟩) (by decide) _
    h₅ rfl rfl).mpr (by decide)⟩

/-- The first coroutine without memory for its timer node. -/
theorem scheduleTimeout_lost :
    ∃ x : Run, ReflTransGen (ClockStep Filed)
        ⟨scheduleInit 2 (fun _ => ⟨0, false⟩) (by decide), ∅, []⟩ x ∧
      x.sched.current = some 1 ∧ ¬ x.sched.HasTimer (toInt64 (0 + 10)) ∧
      1 ∉ (x.sched.scheduleTimeout 1 0 10 false).active ∧
      1 ∉ (x.sched.scheduleTimeout 1 0 10 false).waiting ∧
      ¬ (x.sched.scheduleTimeout 1 0 10 false).Resumable 1 := by
  have h₁ := ReflTransGen.single (ClockStep.step (P := Filed) _ _
    (Step.dispatch (scheduleInit 2 (fun _ => ⟨0, false⟩) (by decide)) ∅ [] true))
  have h₂ := h₁.tail (ClockStep.step _ _ (Step.resume _ _ _ rfl))
  exact ⟨_, h₂, rfl, not_not.mpr rfl, by decide, by decide, by unfold Sched.Resumable; decide⟩

/-- A coroutine that is lost is in no place in any later state. -/
theorem lost_forever {d : ℕ} (h : RunInv x) (hd : d ∈ x.lost)
    (hrun : ReflTransGen (ClockStep Filed) x y) :
    d ∉ y.sched.active ∧ d ∉ y.sched.waiting ∧ y.sched.current ≠ some d ∧ d ∉ y.sched.idle := by
  have hkept : d ∈ y.lost := by
    apply run_invariant (fun z => d ∈ z.lost) _ hd hrun
    intro a b ha hstep
    cases hstep with
    | step _ _ hinner =>
      cases hinner with
      | timeoutFailed => exact List.mem_cons_of_mem _ ha
      | _ => exact ha
    | timeout => exact ha
  have hidle := (clockRun_inv h hrun).nodup
  have hactive := List.Nodup.of_append_right hidle
  have hwaiting := List.Nodup.of_append_right hactive
  have hcurrent := List.Nodup.of_append_right hwaiting
  refine ⟨?_, ?_, ?_, ?_⟩
  · intro hin
    exact List.disjoint_of_nodup_append hactive hin (by simp [hkept])
  · intro hin
    exact List.disjoint_of_nodup_append hwaiting hin (by simp [hkept])
  · intro hin
    exact List.disjoint_of_nodup_append hcurrent (by simp [hin]) hkept
  · intro hin
    exact List.disjoint_of_nodup_append hidle hin (by simp [hkept])

end Cserv.Coro
