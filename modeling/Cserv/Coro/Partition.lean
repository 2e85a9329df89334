import Cserv.Coro.TimerTree
import Cserv.Foundations.Transition

/-!
# Every coroutine is in one place

The runs of the scheduler: the calls that move coroutines, in any order its callers
may make them. A run keeps, beside the scheduler, the coroutines that are suspended in
`schedule_timeout`, to which the wakeups go, and those that suspended themselves when no
timer node could be allocated.
-/
namespace Cserv.Coro

open Foundations Util Util.RbTree ColorTree

/-! ## Expiry -/

def expire (ids : List ℕ) (coro : ℕ → Coroutine) (c : ℕ) : Coroutine :=
  if c ∈ ids then { coro c with activeByTimeout := true } else coro c

@[simp] theorem expire_timeout (ids : List ℕ) (coro : ℕ → Coroutine) (c : ℕ) :
    (expire ids coro c).timeout = (coro c).timeout := by
  unfold expire
  split_ifs <;> rfl

@[simp] theorem expire_nil (coro : ℕ → Coroutine) : expire [] coro = coro := by
  funext c
  simp [expire]

theorem expire_append (ids ids' : List ℕ) (coro : ℕ → Coroutine) :
    expire ids' (expire ids coro) = expire (ids ++ ids') coro := by
  funext c
  unfold expire
  split_ifs <;> simp_all

namespace Sched

theorem timeoutCoroutineHandler_eq (s : Sched) (root : ColorTree ℕ) :
    timeoutCoroutineHandler s root =
      { s with
        active := s.active ++ rootOrder root
        coro := expire (rootOrder root) s.coro } := by
  fun_induction timeoutCoroutineHandler s root with
  | case1 s => simp [rootOrder]
  | case2 s c l id r ih =>
    rw [ih, rootOrder]
    have hcoro : Function.update s.coro id { s.coro id with activeByTimeout := true } =
        expire [id] s.coro := by
      funext d
      by_cases hd : d = id
      · subst hd
        simp [expire]
      · simp [expire, hd]
    simp [setActiveByTimeout, hcoro, expire_append]

/-- `check_timeout_coroutine` takes the timer nodes up to `now` off the front. -/
theorem checkTimeoutCoroutine_spec (s : Sched) (now : ℤ) :
    ∃ expired inactive,
      s.checkTimeoutCoroutine now =
        { s with
          inactive := inactive
          active := s.active ++ expired.flatMap fun tm => rootOrder tm.root
          coro := expire (expired.flatMap fun tm => rootOrder tm.root) s.coro } ∧
      s.inactive.toList = expired ++ inactive.toList ∧ (∀ tm ∈ expired, tm.timeout ≤ now) ∧
      ∀ tm ∈ inactive.toList.head?, now < tm.timeout := by
  fun_induction checkTimeoutCoroutine s now with
  | case1 s up hfirst =>
    have hnil := rbFirst_nil hfirst
    exact ⟨[], s.inactive, by simp, by simp, by simp, by simp [hnil]⟩
  | case2 s c l tm r up hfirst hlt =>
    have hlist := rbFirst_node hfirst
    refine ⟨[], s.inactive, by simp, by simp, by simp, ?_⟩
    simp only [hlist, List.head?_cons, Option.mem_some_iff, forall_eq']
    exact hlt
  | case3 s c l tm r up hfirst hlt ih =>
    obtain ⟨expired, inactive, heq, hlist, hexpired, hhead⟩ := ih
    refine ⟨tm :: expired, inactive, ?_, ?_, ?_, hhead⟩
    · rw [heq, timeoutCoroutineHandler_eq]
      simp [expire_append]
    · rw [rbFirst_node hfirst]
      simpa using hlist
    · intro a ha
      rcases List.mem_cons.mp ha with rfl | ha
      · omega
      · exact hexpired a ha

theorem checkTimeoutCoroutine_inactive (s : Sched) (now : ℤ) :
    (s.checkTimeoutCoroutine now).inactive = dropDue (fun tm => tm.timeout ≤ now) s.inactive := by
  fun_induction checkTimeoutCoroutine s now with
  | case1 s up hfirst => exact (dropDue_nil hfirst).symm
  | case2 s c l tm r up hfirst hlt => rw [dropDue_node hfirst, if_neg hlt.not_ge]
  | case3 s c l tm r up hfirst hlt ih =>
    rw [ih, dropDue_node hfirst, if_pos (not_lt.mp hlt), timeoutCoroutineHandler_inactive]

end Sched

/-! ## Runs -/

/-- A scheduler with the coroutines that are suspended in `schedule_timeout`: those in a timer
node, and those for which `memcache_alloc` gave none. -/
structure Run where
  sched : Sched
  suspended : Set ℕ
  lost : List ℕ

/-- `move_to_inactive_tree` finds a timer node for a timeout and calls no `memcache_alloc`. -/
def Sched.HasTimer (s : Sched) (timeout : ℤ) : Prop :=
  (s.inactive.descend (fun tm => direction (toInt32 (timeout - tm.timeout))) []).1 ≠ .nil

/-- `schedule_init`; `mem` is what the memory of the coroutines holds before. -/
def scheduleInit (maxCoroSize : ℕ) (mem : ℕ → Coroutine) (h : maxCoroSize < 2 ^ 31) : Sched :=
  ⟨maxCoroSize, 0, 0, none, [], [], .nil, mem, h⟩

instance (s : Sched) (timeout : ℤ) : Decidable (s.HasTimer timeout) :=
  inferInstanceAs (Decidable (_ ≠ _))

/-- The calls of the scheduler. A running coroutine suspends itself, asks why it runs, or ends; a
wakeup is for a coroutine in a timer node; the main coroutine switches to the next active one.
A new timeout is near those of the suspended coroutines. -/
inductive Step : Run → Run → Prop
  | dispatch (s : Sched) (S : Set ℕ) (L : List ℕ) (mem : Bool) :
      Step ⟨s, S, L⟩ ⟨(s.dispatchCoro mem).2, S, L⟩
  | timeout (s : Sched) (S : Set ℕ) (L : List ℕ) (id : ℕ) (now milliseconds : ℤ) (alloc : Bool)
      (hcurrent : s.current = some id)
      (hnear : ∀ d ∈ S, Near (toInt64 (now + milliseconds)) (s.coro d).timeout)
      (halloc : alloc = true ∨ s.HasTimer (toInt64 (now + milliseconds))) :
      Step ⟨s, S, L⟩ ⟨s.scheduleTimeout id now milliseconds alloc, insert id S, L⟩
  | timeoutFailed (s : Sched) (S : Set ℕ) (L : List ℕ) (id : ℕ) (now milliseconds : ℤ)
      (hcurrent : s.current = some id)
      (halloc : ¬ s.HasTimer (toInt64 (now + milliseconds))) :
      Step ⟨s, S, L⟩ ⟨s.scheduleTimeout id now milliseconds false, S, id :: L⟩
  | wakeup (s : Sched) (S : Set ℕ) (L : List ℕ) (id : ℕ) (hid : id ∈ S) :
      Step ⟨s, S, L⟩ ⟨s.wakeupCoro id, S \ {id}, L⟩
  | wakeupPriority (s : Sched) (S : Set ℕ) (L : List ℕ) (id : ℕ) (hid : id ∈ S) :
      Step ⟨s, S, L⟩ ⟨s.wakeupCoroPriority id, S \ {id}, L⟩
  | check (s : Sched) (S : Set ℕ) (L : List ℕ) (now : ℤ) :
      Step ⟨s, S, L⟩ ⟨s.checkTimeoutCoroutine now, { d ∈ S | now < (s.coro d).timeout }, L⟩
  | resume (s : Sched) (S : Set ℕ) (L : List ℕ) (hcurrent : s.current = none) :
      Step ⟨s, S, L⟩ ⟨s.runNextActive, S, L⟩
  | isWakeup (s : Sched) (S : Set ℕ) (L : List ℕ) (id : ℕ) (hcurrent : s.current = some id) :
      Step ⟨s, S, L⟩ ⟨(s.isWakeupByTimeout id).2, S, L⟩
  | finish (s : Sched) (S : Set ℕ) (L : List ℕ) (id : ℕ) (hcurrent : s.current = some id) :
      Step ⟨s, S, L⟩ ⟨s.finishCoroutine id, S, L⟩

def Sched.waiting (s : Sched) : List ℕ := members s.inactive.toList

/-- The coroutines counted in `curr_coro_size` are those with the ids from 1 on. Each is
once in exactly one of the lists, the timer nodes and `current`; the timer nodes are not
empty, sorted by distinct timeouts, and hold the coroutines with their timeout. -/
structure Partition (s : Sched) : Prop where
  places : (s.idle ++ (s.active ++ (s.waiting ++ s.current.toList))).Perm
    (List.range' 1 s.currCoroSize)
  nonempty : ∀ tm ∈ s.inactive.toList, tm.root ≠ .nil
  sorted : s.inactive.toList.Pairwise fun a b => a.timeout < b.timeout
  timeout : ∀ tm ∈ s.inactive.toList, ∀ c ∈ tm.root.toList, (s.coro c).timeout = tm.timeout

structure RunInv (x : Run) : Prop where
  places : (x.sched.idle ++ (x.sched.active ++ (x.sched.waiting ++
    (x.sched.current.toList ++ x.lost)))).Perm (List.range' 1 x.sched.currCoroSize)
  timers : Timers x.sched.coro x.sched.inactive.toList
  next : x.sched.nextCoroId = x.sched.currCoroSize
  size : x.sched.currCoroSize ≤ x.sched.maxCoroSize
  suspended : ∀ d, d ∈ x.suspended ↔ d ∈ x.sched.waiting

theorem RunInv.partition {x : Run} (h : RunInv x) (hlost : x.lost = []) : Partition x.sched where
  places := by simpa [hlost] using h.places
  nonempty tm htm := by
    intro hnil
    exact h.timers.nonempty tm htm (by simp [hnil])
  sorted := h.timers.sorted
  timeout := h.timers.timeout

section Steps

variable {s : Sched} {S : Set ℕ} {L : List ℕ}

theorem RunInv.id_lt (h : RunInv ⟨s, S, L⟩) {id : ℕ}
    (hid : id ∈ s.idle ++ (s.active ++ (s.waiting ++ (s.current.toList ++ L)))) :
    id < 2 ^ 31 := by
  have hrange := h.places.subset hid
  rw [List.mem_range'_1] at hrange
  have hsize := h.size
  have hmax := s.max_lt
  dsimp only at hrange hsize
  omega

theorem RunInv.nodup (h : RunInv ⟨s, S, L⟩) :
    (s.idle ++ (s.active ++ (s.waiting ++ (s.current.toList ++ L)))).Nodup :=
  h.places.nodup_iff.mpr (List.nodup_range' 1)

theorem RunInv.timers_update (h : RunInv ⟨s, S, L⟩) {id : ℕ} (hid : id ∉ s.waiting) (x : Coroutine) :
    Timers (Function.update s.coro id x) s.inactive.toList := by
  apply h.timers.congr
  intro c hc
  have hne : c ≠ id := by
    intro heq
    exact hid (heq ▸ hc)
  rw [Function.update_of_ne hne]

theorem dispatch_inv (h : RunInv ⟨s, S, L⟩) (mem : Bool) : RunInv ⟨(s.dispatchCoro mem).2, S, L⟩ := by
  have hplaces := h.places
  have hnodup := h.nodup
  have hnext := h.next
  dsimp only at hplaces hnext
  unfold Sched.dispatchCoro Sched.getCoroutine
  cases hidle : s.idle with
  | cons id rest =>
    rw [hidle] at hplaces hnodup
    have hid : id ∉ s.waiting := by
      simp only [List.cons_append, List.nodup_cons, List.mem_append, not_or] at hnodup
      exact hnodup.1.2.2.1
    exact
      { places := List.Perm.trans (by simp only [Sched.coroutineInit, Sched.waiting]; grind) hplaces
        timers := h.timers_update hid _
        next := h.next
        size := h.size
        suspended := h.suspended }
  | nil =>
    unfold Sched.createCoroutine
    split_ifs with hfull hmem
    · exact h
    · exact h
    · rw [hidle, List.nil_append] at hplaces
      have hid : s.nextCoroId + 1 ∉ s.waiting := by
        intro hin
        have hrange : s.nextCoroId + 1 ∈ List.range' 1 s.currCoroSize :=
          hplaces.subset (by simp [hin])
        rw [List.mem_range'_1] at hrange
        omega
      refine
        { places := ?_
          timers := h.timers_update hid _
          next := congrArg (· + 1) hnext
          size := ?_
          suspended := h.suspended }
      · simp only [Option.map_some, Sched.coroutineInit, Sched.waiting, hidle]
        rw [List.range'_1_concat, hnext, Nat.add_comm 1]
        rw [Sched.waiting] at hplaces
        grind
      · have hsize := h.size
        simp only [Option.map_some, Sched.coroutineInit] at hsize ⊢
        omega

theorem RunInv.current_not_active (h : RunInv ⟨s, S, L⟩) {id : ℕ}
    (hcurrent : s.current = some id) : id ∉ s.active := by
  have hnodup := h.nodup
  rw [hcurrent] at hnodup
  intro hin
  have hdis := List.disjoint_of_nodup_append (List.nodup_append.mp hnodup).2.1
  exact hdis hin (by simp)

/-- The place of a coroutine does not depend on `memcache_alloc` if there is a timer node. -/
theorem moveToInactiveTree_filed {alloc : Bool} {id : ℕ} {timeout : ℤ}
    (h : alloc = true ∨ s.HasTimer timeout) :
    moveToInactiveTree s.inactive id timeout alloc =
      moveToInactiveTree s.inactive id timeout true := by
  unfold Sched.HasTimer at h
  unfold moveToInactiveTree
  split
  · rfl
  · next hdesc =>
    rw [hdesc] at h
    simp_all

theorem moveToInactiveTree_failed {id : ℕ} {timeout : ℤ} (h : ¬ s.HasTimer timeout) :
    moveToInactiveTree s.inactive id timeout false = s.inactive := by
  unfold Sched.HasTimer at h
  unfold moveToInactiveTree
  split
  · next hdesc =>
    rw [hdesc] at h
    simp at h
  · simp

theorem RunInv.current_not_waiting (h : RunInv ⟨s, S, L⟩) {id : ℕ} (hcurrent : s.current = some id) :
    id ∉ s.waiting := by
  have hnodup := h.nodup
  rw [hcurrent] at hnodup
  intro hin
  have hdis := (List.nodup_append.mp (List.nodup_append.mp (List.nodup_append.mp hnodup).2.1).2.1)
  exact hdis.2.2 id hin id (by simp) rfl

theorem filed_inv (h : RunInv ⟨s, S, L⟩) {id : ℕ} (now milliseconds : ℤ) {alloc : Bool}
    (hcurrent : s.current = some id)
    (hfits : ∀ a ∈ s.inactive.toList, Fits (toInt64 (now + milliseconds)) a.timeout)
    (hfiles : Files s.inactive (toInt64 (now + milliseconds)))
    (halloc : alloc = true ∨ s.HasTimer (toInt64 (now + milliseconds))) :
    RunInv ⟨s.scheduleTimeout id now milliseconds alloc, insert id S, L⟩ := by
  have hplaces := h.places
  rw [hcurrent] at hplaces
  have hid := h.current_not_waiting hcurrent
  have hlt : id < 2 ^ 31 := h.id_lt (by simp [hcurrent])
  have hold := h.timers_update hid { s.coro id with timeout := toInt64 (now + milliseconds) }
  obtain ⟨htimers, hperm⟩ := hold.insert hid hlt hfits hfiles (by simp)
  rw [← moveToInactiveTree_filed halloc] at htimers hperm
  constructor
  · refine List.Perm.trans ?_ hplaces
    simp only [Sched.scheduleTimeout, Sched.waiting]
    grind
  · exact htimers
  · exact h.next
  · exact h.size
  · intro d
    have hmem := hperm.mem_iff (a := d)
    simp only [Set.mem_insert_iff, h.suspended d, Sched.waiting, Sched.scheduleTimeout, hmem,
      List.mem_cons]

theorem timeout_inv (h : RunInv ⟨s, S, L⟩) {id : ℕ} (now milliseconds : ℤ) {alloc : Bool}
    (hcurrent : s.current = some id)
    (hnear : ∀ d ∈ S, Near (toInt64 (now + milliseconds)) (s.coro d).timeout)
    (halloc : alloc = true ∨ s.HasTimer (toInt64 (now + milliseconds))) :
    RunInv ⟨s.scheduleTimeout id now milliseconds alloc, insert id S, L⟩ := by
  have hnear' : ∀ a ∈ s.inactive.toList, Near (toInt64 (now + milliseconds)) a.timeout := by
    intro a ha
    obtain ⟨d, hd⟩ := List.exists_mem_of_ne_nil _ (h.timers.nonempty a ha)
    rw [← h.timers.timeout a ha d hd]
    exact hnear d ((h.suspended d).mpr (mem_members.mpr ⟨a, ha, hd⟩))
  apply filed_inv h now milliseconds hcurrent
  · intro a ha
    exact (hnear' a ha).fits
  · exact Files.of_near hnear'
  · exact halloc

/-- A coroutine that gets no timer node is in no place at all. -/
theorem timeoutFailed_inv (h : RunInv ⟨s, S, L⟩) {id : ℕ} (now milliseconds : ℤ)
    (hcurrent : s.current = some id) (halloc : ¬ s.HasTimer (toInt64 (now + milliseconds))) :
    RunInv ⟨s.scheduleTimeout id now milliseconds false, S, id :: L⟩ := by
  have hplaces := h.places
  rw [hcurrent] at hplaces
  have hid := h.current_not_waiting hcurrent
  have htree : moveToInactiveTree s.inactive id (toInt64 (now + milliseconds)) false =
      s.inactive := moveToInactiveTree_failed halloc
  constructor
  · refine List.Perm.trans ?_ hplaces
    simp only [Sched.scheduleTimeout, Sched.waiting, htree]
    grind
  · simp only [Sched.scheduleTimeout, htree]
    exact h.timers_update hid _
  · exact h.next
  · exact h.size
  · simp only [Sched.scheduleTimeout, Sched.waiting, htree]
    exact h.suspended

theorem RunInv.remove (h : RunInv ⟨s, S, L⟩) {id : ℕ} (hid : id ∈ S) (flag : Bool) :
    let inactive := removeFromInactiveTree s.inactive id (s.coro id).timeout
    Timers (s.setActiveByTimeout id flag).coro inactive.toList ∧
      s.waiting.Perm (id :: members inactive.toList) ∧
      ∀ d, d ∈ S \ {id} ↔ d ∈ members inactive.toList := by
  have hwait : id ∈ s.waiting := (h.suspended id).mp hid
  obtain ⟨htimers, hperm⟩ := h.timers.remove hwait
  have hnodup : s.waiting.Nodup :=
    (List.nodup_append.mp (List.nodup_append.mp (List.nodup_append.mp h.nodup).2.1).2.1).1
  have hcons := hperm.nodup_iff.mp hnodup
  refine ⟨?_, hperm, ?_⟩
  · apply htimers.congr
    intro c hc
    by_cases heq : c = id
    · subst heq
      simp [Sched.setActiveByTimeout]
    · simp [Sched.setActiveByTimeout, Function.update_of_ne heq]
  · intro d
    rw [Set.mem_sdiff, h.suspended d, Sched.waiting, hperm.mem_iff, List.mem_cons,
      Set.mem_singleton_iff]
    constructor
    · intro hd
      exact hd.1.resolve_left hd.2
    · intro hd
      refine ⟨Or.inr hd, ?_⟩
      rintro rfl
      exact (List.nodup_cons.mp hcons).1 hd

theorem wakeup_inv (h : RunInv ⟨s, S, L⟩) {id : ℕ} (hid : id ∈ S) :
    RunInv ⟨s.wakeupCoro id, S \ {id}, L⟩ := by
  obtain ⟨htimers, hperm, hsuspended⟩ := h.remove hid false
  refine ⟨List.Perm.trans ?_ h.places, htimers, h.next, h.size, hsuspended⟩
  simp only [Sched.wakeupCoro, Sched.setActiveByTimeout, Sched.waiting] at hperm ⊢
  grind

theorem wakeupPriority_inv (h : RunInv ⟨s, S, L⟩) {id : ℕ} (hid : id ∈ S) :
    RunInv ⟨s.wakeupCoroPriority id, S \ {id}, L⟩ := by
  obtain ⟨htimers, hperm, hsuspended⟩ := h.remove hid false
  refine ⟨List.Perm.trans ?_ h.places, htimers, h.next, h.size, hsuspended⟩
  simp only [Sched.wakeupCoroPriority, Sched.setActiveByTimeout, Sched.waiting] at hperm ⊢
  grind

theorem check_inv (h : RunInv ⟨s, S, L⟩) (now : ℤ) :
    RunInv ⟨s.checkTimeoutCoroutine now, { d ∈ S | now < (s.coro d).timeout }, L⟩ := by
  obtain ⟨expired, inactive, heq, hlist, hexpired, hhead⟩ := s.checkTimeoutCoroutine_spec now
  rw [heq]
  have horder : (expired.flatMap fun tm => rootOrder tm.root).Perm (members expired) :=
    List.Perm.flatMap_left _ fun tm _ => rootOrder_perm tm.root
  have htimers := h.timers
  have hsuspended := h.suspended
  have hplaces := h.places
  simp only [Sched.waiting, hlist, members_append] at htimers hsuspended hplaces
  have hrest := htimers.sublist (List.sublist_append_right expired inactive.toList)
  -- the timer nodes are sorted, so that all that stay are later than `now`
  have hlater : ∀ tm ∈ inactive.toList, now < tm.timeout := by
    have hsorted := hrest.sorted
    cases hcases : inactive.toList with
    | nil => simp
    | cons first tl =>
      rw [hcases] at hsorted hhead
      have hfirst : now < first.timeout := hhead first rfl
      intro tm htm
      rcases List.mem_cons.mp htm with rfl | htm
      · exact hfirst
      · have hlt := (List.pairwise_cons.mp hsorted).1 tm htm
        omega
  refine ⟨List.Perm.trans ?_ hplaces, ?_, h.next, h.size, ?_⟩
  · simp only [Sched.waiting]
    grind
  · apply hrest.congr
    intro c _
    exact expire_timeout _ _ _
  · intro d
    rw [Set.mem_sep_iff, hsuspended d, List.mem_append, Sched.waiting]
    constructor
    · intro hd
      apply hd.1.resolve_left
      intro hin
      obtain ⟨tm, htm, hmem⟩ := mem_members.mp hin
      have htime := htimers.timeout tm (by simp [htm]) d hmem
      have hle := hexpired tm htm
      omega
    · intro hd
      refine ⟨Or.inr hd, ?_⟩
      obtain ⟨tm, htm, hmem⟩ := mem_members.mp hd
      rw [hrest.timeout tm htm d hmem]
      exact hlater tm htm

theorem resume_inv (h : RunInv ⟨s, S, L⟩) (hcurrent : s.current = none) :
    RunInv ⟨s.runNextActive, S, L⟩ := by
  unfold Sched.runNextActive
  cases hactive : s.active with
  | nil => exact h
  | cons id rest =>
    refine ⟨List.Perm.trans ?_ h.places, h.timers, h.next, h.size, h.suspended⟩
    simp only [hactive, hcurrent, Sched.waiting]
    grind

theorem isWakeup_inv (h : RunInv ⟨s, S, L⟩) {id : ℕ} (hcurrent : s.current = some id) :
    RunInv ⟨(s.isWakeupByTimeout id).2, S, L⟩ where
  places := h.places
  timers := h.timers_update (h.current_not_waiting hcurrent) _
  next := h.next
  size := h.size
  suspended := h.suspended

theorem finish_inv (h : RunInv ⟨s, S, L⟩) {id : ℕ} (hcurrent : s.current = some id) :
    RunInv ⟨s.finishCoroutine id, S, L⟩ := by
  refine ⟨List.Perm.trans ?_ h.places, h.timers, h.next, h.size, h.suspended⟩
  simp only [Sched.finishCoroutine, hcurrent, Sched.waiting]
  grind

theorem step_inv {x y : Run} (h : RunInv x) (hstep : Step x y) : RunInv y := by
  cases hstep with
  | dispatch s S L mem => exact dispatch_inv h mem
  | timeout s S L id now milliseconds alloc hcurrent hnear halloc =>
    exact timeout_inv h now milliseconds hcurrent hnear halloc
  | timeoutFailed s S L id now milliseconds hcurrent halloc =>
    exact timeoutFailed_inv h now milliseconds hcurrent halloc
  | wakeup s S L id hid => exact wakeup_inv h hid
  | wakeupPriority s S L id hid => exact wakeupPriority_inv h hid
  | check s S L now => exact check_inv h now
  | resume s S L hcurrent => exact resume_inv h hcurrent
  | isWakeup s S L id hcurrent => exact isWakeup_inv h hcurrent
  | finish s S L id hcurrent => exact finish_inv h hcurrent

theorem init_inv (maxCoroSize : ℕ) (mem : ℕ → Coroutine) (hmax : maxCoroSize < 2 ^ 31) :
    RunInv ⟨scheduleInit maxCoroSize mem hmax, ∅, []⟩ := by
  refine ⟨by simp [scheduleInit, Sched.waiting, members], ?_, rfl, by simp [scheduleInit], ?_⟩
  · constructor <;> simp [scheduleInit]
  · simp [scheduleInit, Sched.waiting, members]

theorem run_inv {x y : Run} (h : RunInv x) (hrun : Relation.ReflTransGen Step x y) : RunInv y :=
  run_invariant RunInv (fun _ _ => step_inv) h hrun

end Steps

/-- In every state of every run each coroutine is in one place, as long as timer nodes can be
allocated. -/
theorem run_partition (maxCoroSize : ℕ) (mem : ℕ → Coroutine) (hmax : maxCoroSize < 2 ^ 31)
    (x : Run) (hrun : Relation.ReflTransGen Step ⟨scheduleInit maxCoroSize mem hmax, ∅, []⟩ x)
    (hlost : x.lost = []) : Partition x.sched :=
  (run_inv (init_inv maxCoroSize mem hmax) hrun).partition hlost

/-- A coroutine that is started and suspends itself. -/
theorem run_partition_timeout :
    Partition (((scheduleInit 2 (fun _ => ⟨0, false⟩) (by decide)).dispatchCoro
      true).2.runNextActive.scheduleTimeout 1 0 10 true) := by
  apply run_partition 2 (fun _ => ⟨0, false⟩) (by decide) ⟨_, insert 1 ∅, []⟩
  · have h₁ := Relation.ReflTransGen.single
      (Step.dispatch (scheduleInit 2 (fun _ => ⟨0, false⟩) (by decide)) ∅ [] true)
    have h₂ := h₁.tail (Step.resume _ _ _ rfl)
    exact h₂.tail (Step.timeout _ _ _ 1 0 10 true rfl (by simp) (Or.inl rfl))
  · rfl

end Cserv.Coro
