import Cserv.Coro.Pool
import Cserv.Coro.SchedMemory
import Cserv.Coro.Simulation

/-!
# The scheduler in memory refines the scheduler on ids

Every run of calls from `schedule_init` on is carried out in memory: no call dereferences memory
that is not there, the lists stay circles, and the memory holds the lists and trees of ids of the
same run of the scheduler on ids.
-/
namespace Cserv.Coro

open Foundations Relation Util ColorTree

/-! ## Lists -/

/-- The list heads of the coroutines `A`, of which `idle` and `active` are linked to the lists of
the scheduler. -/
structure SchedLists (m : Links ListNode) (A : Finset Addr) (idle active : List Addr) : Prop where
  coroutine : ∀ c, c ∈ A ↔ (m (.coro c)).isSome = true
  idleCircle : Circle m .idle (idle.map .coro)
  activeCircle : Circle m .active (active.map .coro)
  apart : idle.Disjoint active

namespace SchedLists

variable {m : Links ListNode} {A : Finset Addr} {idle active : List Addr} {c : Addr}

theorem idle_apart (h : idle.Disjoint active) :
    ∀ a ∈ ListNode.idle :: idle.map .coro, a ∉ ListNode.active :: active.map .coro := by
  intro a ha ha'
  rcases List.mem_cons.mp ha with rfl | ha
  · simp at ha'
  · obtain ⟨d, hd, rfl⟩ := List.mem_map.mp ha
    exact h hd (by simpa using ha')

theorem mem_idle (h : SchedLists m A idle active) (hc : c ∈ idle) : c ∈ A :=
  (h.coroutine c).mpr (h.idleCircle.isSome (by simp [hc]))

theorem mem_active (h : SchedLists m A idle active) (hc : c ∈ active) : c ∈ A :=
  (h.coroutine c).mpr (h.activeCircle.isSome (by simp [hc]))

theorem addActiveTail (h : SchedLists m A idle active) (hc : c ∈ A) (hidle : c ∉ idle)
    (hactive : c ∉ active) :
    Returns (m.listAddTail (.coro c) .active) (SchedLists · A idle (active ++ [c])) := by
  have hcircle := h.activeCircle
  rw [← List.append_nil (active.map _)] at hcircle
  have hnew : ListNode.coro c ∉ ListNode.active :: (active.map .coro ++ []) := by
    simpa using hactive
  refine (hcircle.listAddTail hnew ((h.coroutine c).mp hc)).mono ?_
  rintro m' ⟨hcircle', hsome, hsame⟩
  rw [List.append_nil] at hsame
  refine ⟨fun d => (h.coroutine d).trans (by rw [hsome]), h.idleCircle.congr fun a ha => hsame a ?_ ?_,
    by simpa using hcircle', by simpa [List.disjoint_append_right] using ⟨h.apart, hidle⟩⟩
  · rintro rfl
    simp [hidle] at ha
  · exact idle_apart h.apart a ha

theorem addActiveHead (h : SchedLists m A idle active) (hc : c ∈ A) (hidle : c ∉ idle)
    (hactive : c ∉ active) :
    Returns (m.listAdd (.coro c) .active) (SchedLists · A idle (c :: active)) := by
  have hnew : ListNode.coro c ∉ ListNode.active :: active.map .coro := by simpa using hactive
  refine (h.activeCircle.listAdd hnew ((h.coroutine c).mp hc)).mono ?_
  rintro m' ⟨hcircle', hsome, hsame⟩
  refine ⟨fun d => (h.coroutine d).trans (by rw [hsome]), h.idleCircle.congr fun a ha => hsame a ?_ ?_,
    hcircle', by simpa [List.disjoint_cons_right] using ⟨hidle, h.apart⟩⟩
  · rintro rfl
    simp [hidle] at ha
  · exact idle_apart h.apart a ha

theorem addIdleTail (h : SchedLists m A idle active) (hc : c ∈ A) (hidle : c ∉ idle)
    (hactive : c ∉ active) :
    Returns (m.listAddTail (.coro c) .idle) (SchedLists · A (idle ++ [c]) active) := by
  have hcircle := h.idleCircle
  rw [← List.append_nil (idle.map _)] at hcircle
  have hnew : ListNode.coro c ∉ ListNode.idle :: (idle.map .coro ++ []) := by
    simpa using hidle
  refine (hcircle.listAddTail hnew ((h.coroutine c).mp hc)).mono ?_
  rintro m' ⟨hcircle', hsome, hsame⟩
  rw [List.append_nil] at hsame
  refine ⟨fun d => (h.coroutine d).trans (by rw [hsome]), by simpa using hcircle',
    h.activeCircle.congr fun a ha => hsame a ?_ ?_,
    by simpa [List.disjoint_append_left] using ⟨h.apart, hactive⟩⟩
  · rintro rfl
    simp [hactive] at ha
  · exact fun ha' => idle_apart h.apart a ha' ha

theorem takeIdle (h : SchedLists m A (c :: idle) active) :
    Returns (m.listDel (.coro c)) (SchedLists · A idle active) := by
  have hcircle := h.idleCircle
  rw [List.map_cons, ← List.nil_append (ListNode.coro c :: _)] at hcircle
  refine hcircle.listDel.mono ?_
  rintro m' ⟨hcircle', hsome, hsame⟩
  refine ⟨fun d => (h.coroutine d).trans (by rw [hsome]), hcircle',
    h.activeCircle.congr fun a ha => hsame a fun ha' => idle_apart h.apart a ha' ha,
    (List.disjoint_cons_left.mp h.apart).2⟩

theorem takeActive (h : SchedLists m A idle (c :: active)) :
    Returns (m.listDelInit (.coro c)) (SchedLists · A idle active) := by
  have hcircle := h.activeCircle
  rw [List.map_cons, ← List.nil_append (ListNode.coro c :: _)] at hcircle
  refine hcircle.listDelInit.mono ?_
  rintro m' ⟨hcircle', hsome, hsame⟩
  refine ⟨fun d => (h.coroutine d).trans (by rw [hsome]),
    h.idleCircle.congr fun a ha => hsame a (idle_apart h.apart a ha), hcircle',
    (List.disjoint_cons_right.mp h.apart).2⟩

theorem initList (h : SchedLists m A idle active) (hc : c ∈ A) (hidle : c ∉ idle)
    (hactive : c ∉ active) :
    Returns (m.initListHead (.coro c)) (SchedLists · A idle active) := by
  refine (Links.initListHead_returns ((h.coroutine c).mp hc)).mono ?_
  rintro m' ⟨-, hsome, hsame⟩
  refine ⟨fun d => (h.coroutine d).trans (by rw [hsome]), h.idleCircle.congr fun a ha => hsame a ?_,
    h.activeCircle.congr fun a ha => hsame a ?_, h.apart⟩
  · rintro rfl
    simp [hidle] at ha
  · rintro rfl
    simp [hactive] at ha

theorem create (h : SchedLists m A idle active) (hc : c ∉ A) (l : ListHead ListNode) :
    SchedLists (Function.update m (.coro c) (some l)) (insert c A) idle active where
  coroutine d := by
    by_cases hd : d = c
    · simp [hd]
    · have hne : ListNode.coro d ≠ .coro c := by simpa using hd
      rw [Function.update_of_ne hne, Finset.mem_insert, or_iff_right hd]
      exact h.coroutine d
  idleCircle := h.idleCircle.congr fun a ha => Function.update_of_ne (by
    rintro rfl
    exact hc (h.mem_idle (by simpa using ha))) ..
  activeCircle := h.activeCircle.congr fun a ha => Function.update_of_ne (by
    rintro rfl
    exact hc (h.mem_active (by simpa using ha))) ..
  apart := h.apart

theorem addAll {due : List Addr} (h : SchedLists m A idle active) (hdue : ∀ d ∈ due, d ∈ A)
    (hidle : ∀ d ∈ due, d ∉ idle) (hactive : ∀ d ∈ due, d ∉ active) (hnodup : due.Nodup) :
    Returns (Coro.addAll m due) (SchedLists · A idle (active ++ due)) := by
  induction due generalizing m active with
  | nil => exact Returns.some (by simpa using h)
  | cons d due ih =>
    rw [List.forall_mem_cons] at hdue hidle hactive
    rw [List.nodup_cons] at hnodup
    refine Returns.bind (h.addActiveTail hdue.1 hidle.1 hactive.1) fun m' h' => ?_
    have hrest := ih h' hdue.2 hidle.2 (fun e he => by
      have hne : e ≠ d := fun heq => hnodup.1 (heq ▸ he)
      simp [hactive.2 e he, hne]) hnodup.2
    rw [List.append_assoc] at hrest
    exact hrest

end SchedLists

/-! ## The scheduler -/

/-- The fields of the coroutines `A` in memory and by their ids. -/
def SameFields (A : Finset Addr) (s : SchedHeap (Links ListNode)) (coro : ℕ → Coroutine) : Prop :=
  ∀ c ∈ A, coro (s.coroId c) = ⟨s.timeout c, s.activeByTimeout c⟩

/-- The memory holds the lists and trees of `σ`, where the coroutines are those at the addresses
`A`. They have the ids from 1 on. -/
structure HoldsSched (A : Finset Addr) (idle active : List Addr) (timers : ColorTree Addr)
    (coros : Addr → ColorTree Addr) (x : SchedMemory) (σ : Sched) : Prop where
  lists : SchedLists x.lists A idle active
  timers : HoldsTimers A x.mem timers coros σ.inactive
  idle : σ.idle = idle.map x.mem.coroId
  active : σ.active = active.map x.mem.coroId
  current : σ.current = x.current.map x.mem.coroId
  running : ∀ c ∈ x.current, c ∈ A
  max : σ.maxCoroSize = x.maxCoroSize
  size : σ.currCoroSize = x.currCoroSize
  next : σ.nextCoroId = x.nextCoroId
  card : A.card = x.currCoroSize
  ids : ∀ c ∈ A, x.mem.coroId c ≤ x.nextCoroId

def Represents (x : SchedMemory) (σ : Sched) : Prop :=
  ∃ A idle active timers coros, HoldsSched A idle active timers coros x σ ∧
    SameFields A x.mem σ.coro

section Calls

variable {A : Finset Addr} {idle active : List Addr} {timers : ColorTree Addr}
  {coros : Addr → ColorTree Addr} {x : SchedMemory} {σ : Sched} {S : Set ℕ} {L : List ℕ} {c : Addr}
  {fuel : ℕ}

theorem SameFields.update {s : SchedHeap (Links ListNode)} {coro : ℕ → Coroutine}
    (hid : Set.InjOn s.coroId A) (hc : c ∈ A) (d : Coroutine)
    (hold : ∀ a ∈ A, a ≠ c → coro (s.coroId a) = ⟨s.timeout a, s.activeByTimeout a⟩) :
    SameFields A { s with
        timeout := Function.update s.timeout c d.timeout
        activeByTimeout := Function.update s.activeByTimeout c d.activeByTimeout }
      (Function.update coro (s.coroId c) d) := by
  intro a ha
  by_cases heq : a = c
  · subst heq
    simp
  · have hne : s.coroId a ≠ s.coroId c := fun h => heq (hid ha hc h)
    dsimp only
    rw [Function.update_of_ne hne, Function.update_of_ne heq, Function.update_of_ne heq]
    exact hold a ha heq

/-- No coroutine is in two places. -/
theorem HoldsSched.nodup (h : HoldsSched A idle active timers coros x σ)
    (hinv : RunInv ⟨σ, S, L⟩) :
    (idle ++ (active ++ (corosOf coros timers.toList ++ x.current.toList))).Nodup := by
  have hids := hinv.nodup
  rw [h.idle, h.active, h.current, Sched.waiting, h.timers.members_eq] at hids
  have hcurrent : (x.current.map x.mem.coroId).toList = x.current.toList.map x.mem.coroId := by
    cases x.current <;> rfl
  rw [hcurrent] at hids
  apply List.Nodup.of_map x.mem.coroId
  simp only [List.map_append]
  grind

theorem HoldsSched.fuel_le (h : HoldsSched A idle active timers coros x σ)
    (hinv : RunInv ⟨σ, S, L⟩) (hfuel : 2 * x.maxCoroSize + 2 ≤ fuel) : 2 * A.card + 2 ≤ fuel := by
  have hsize := hinv.size
  dsimp only at hsize
  rw [h.size, h.max] at hsize
  rw [h.card]
  omega

theorem HoldsSched.coroutineInit (h : HoldsSched A idle active timers coros x σ) (hc : c ∈ A)
    (hidle : c ∉ idle) (hactive : c ∉ active) (hout : c ∉ corosOf coros timers.toList)
    (hold : ∀ a ∈ A, a ≠ c → σ.coro (x.mem.coroId a) = ⟨x.mem.timeout a, x.mem.activeByTimeout a⟩) :
    Returns (x.coroutineInit c) fun y =>
      HoldsSched A idle active timers coros y (σ.coroutineInit (x.mem.coroId c)) ∧
        SameFields A y.mem (σ.coroutineInit (x.mem.coroId c)).coro ∧
        y.mem.coroId = x.mem.coroId := by
  refine Returns.bind (h.lists.initList hc hidle hactive) fun lists hlists => ?_
  obtain ⟨n, hn⟩ := Option.isSome_iff_exists.mp (h.timers.inUse c hc)
  have hload : x.mem.heap.load c = some n :=
    (RbHeap.load_eq (h.timers.isNode c hc).1).trans hn
  have hmodify : x.mem.heap.modify c (·.rbSetParent c) =
      some (x.mem.heap.store c (n.rbSetParent c)) := by
    simp [RbHeap.modify, hload]
  have hother : ∀ a, a ≠ c → (x.mem.heap.store c (n.rbSetParent c)).node a = x.mem.heap.node a :=
    fun a ha => Function.update_of_ne ha ..
  have htimers : HoldsTimers A
      { x.mem with
        heap := x.mem.heap.store c (n.rbSetParent c)
        timeout := Function.update x.mem.timeout c 0
        activeByTimeout := Function.update x.mem.activeByTimeout c false
        active := lists } timers coros σ.inactive := by
    refine h.timers.frame (Finset.Subset.refl A) rfl ?_ rfl (fun _ _ => rfl)
      (fun a ha hna => absurd ha hna) h.timers.isNode ?_ h.timers.idInj h.timers.idBound
    · intro a ha
      refine hother a fun heq => ?_
      subst heq
      rcases List.mem_append.mp ha with ha | ha
      · exact h.timers.notCoro a ha hc
      · exact hout ha
    · intro a ha
      by_cases heq : a = c
      · subst heq
        simp [RbHeap.store]
      · dsimp only
        rw [hother a heq]
        exact h.timers.inUse a ha
  exact Returns.step hmodify (Returns.some ⟨{ h with lists := hlists, timers := htimers },
    SameFields.update h.timers.idInj hc ⟨0, false⟩ hold, rfl⟩)

theorem HoldsSched.createCoroutine (h : HoldsSched A idle active timers coros x σ)
    (hinv : RunInv ⟨σ, S, L⟩) (hfields : SameFields A x.mem σ.coro) {new : NewCoroutine}
    (hroom : x.currCoroSize ≠ x.maxCoroSize) (hnode : IsNode new.coro)
    (hfree : x.mem.heap.node new.coro = none) :
    ∃ y, x.createCoroutine (some new) = some (new.coro, y) ∧
      y.mem.coroId new.coro = σ.nextCoroId + 1 ∧ new.coro ∉ A ∧
      HoldsSched (insert new.coro A) idle active timers coros y
        { σ with nextCoroId := σ.nextCoroId + 1, currCoroSize := σ.currCoroSize + 1 } ∧
      ∀ a ∈ insert new.coro A, a ≠ new.coro →
        σ.coro (y.mem.coroId a) = ⟨y.mem.timeout a, y.mem.activeByTimeout a⟩ := by
  have hnew : new.coro ∉ A := fun hmem => by simpa [hfree] using h.timers.inUse new.coro hmem
  have hold : ∀ a ∈ A, a ≠ new.coro := fun a ha heq => hnew (heq ▸ ha)
  have hid : ∀ a ∈ A, Function.update x.mem.coroId new.coro (x.nextCoroId + 1) a =
      x.mem.coroId a := fun a ha => Function.update_of_ne (hold a ha) ..
  have hmap : ∀ cs : List Addr, (∀ a ∈ cs, a ∈ A) →
      cs.map (Function.update x.mem.coroId new.coro (x.nextCoroId + 1)) = cs.map x.mem.coroId :=
    fun cs hcs => List.map_congr_left fun a ha => hid a (hcs a ha)
  have hbound : x.nextCoroId + 1 < 2 ^ 31 := by
    have hsize := hinv.size
    have hnext := hinv.next
    have hmax := σ.max_lt
    dsimp only at hsize hnext
    rw [h.next, h.size] at hnext
    rw [h.size, h.max] at hsize
    rw [h.max] at hmax
    omega
  have htimers := h.timers.create hnode hfree new.node
    (fun a ha => Nat.lt_succ_of_le (h.ids a ha)) hbound
    (Function.update x.lists (.coro new.coro) (some new.list))
  refine ⟨_, by rw [SchedMemory.createCoroutine, if_neg hroom, Option.map_some], ?_, hnew, ?_, ?_⟩
  · rw [h.next]
    exact Function.update_self ..
  · refine
      { lists := h.lists.create hnew new.list
        timers := htimers
        idle := h.idle.trans (hmap idle fun a => h.lists.mem_idle).symm
        active := h.active.trans (hmap active fun a => h.lists.mem_active).symm
        current := ?_
        running := fun a ha => Finset.mem_insert_of_mem (h.running a ha)
        max := h.max
        size := congrArg (· + 1) h.size
        next := congrArg (· + 1) h.next
        card := by rw [Finset.card_insert_of_notMem hnew, h.card]
        ids := ?_ }
    · rw [h.current]
      cases hcurrent : x.current with
      | none => rfl
      | some a => exact congrArg some (hid a (h.running a hcurrent)).symm
    · intro a ha
      rcases Finset.mem_insert.mp ha with rfl | ha
      · exact (Function.update_self ..).le
      · dsimp only
        rw [hid a ha]
        exact (h.ids a ha).trans (Nat.le_succ _)
  · intro a ha hne
    have ha := Finset.mem_of_mem_insert_of_ne ha hne
    dsimp only
    rw [hid a ha]
    exact hfields a ha

theorem HoldsSched.moveToActiveListTailDirect (h : HoldsSched A idle active timers coros x σ)
    (hfields : SameFields A x.mem σ.coro) (hc : c ∈ A) (hidle : c ∉ idle) (hactive : c ∉ active) :
    Returns (x.mem.moveToActiveListTailDirect c) fun mem =>
      Represents { x with mem := mem } { σ with active := σ.active ++ [x.mem.coroId c] } := by
  refine Returns.bind (h.lists.addActiveTail hc hidle hactive) fun lists hlists => Returns.some ?_
  exact ⟨A, idle, active ++ [c], timers, coros,
    { h with
      lists := hlists
      timers := h.timers.congr rfl rfl rfl
      active := by simp [h.active] }, hfields⟩

/-- `get_coroutine` returns the coroutine `c`, which is in no list or tree, as it does on ids. -/
structure Gets (alloc : Option NewCoroutine) (active : List Addr) (timers : ColorTree Addr)
    (coros : Addr → ColorTree Addr) (x : SchedMemory) (σ : Sched) (c : Addr) (y : SchedMemory)
    (σ' : Sched) (A : Finset Addr) (idle : List Addr) : Prop where
  onIds : σ.getCoroutine alloc.isSome = some (y.mem.coroId c, σ')
  inMemory : x.getCoroutine alloc = some (some c, y)
  holds : HoldsSched A idle active timers coros y σ'
  fields : SameFields A y.mem σ'.coro
  mem : c ∈ A
  not_idle : c ∉ idle
  not_active : c ∉ active

theorem HoldsSched.getCoroutine_idle {d : Addr}
    (h : HoldsSched A (d :: idle) active timers coros x σ) (hfields : SameFields A x.mem σ.coro)
    (hinv : RunInv ⟨σ, S, L⟩) (alloc : Option NewCoroutine) :
    ∃ y σ', Gets alloc active timers coros x σ d y σ' A idle := by
  have hnodup := h.nodup hinv
  obtain ⟨head, hhead, hfirst⟩ := Option.map_eq_some_iff.mp h.lists.idleCircle.first.1
  have hnext : head.next = .coro d := hfirst
  obtain ⟨lists, hdel, hlists⟩ := h.lists.takeIdle
  have hd : d ∈ A := h.lists.mem_idle (by simp)
  have hy : HoldsSched A idle active timers coros (x.setLists lists)
      { σ with idle := idle.map x.mem.coroId } :=
    { h with lists := hlists, timers := h.timers.congr rfl rfl rfl, idle := rfl }
  have hidle : d ∉ idle := by grind
  have hactive : d ∉ active := by grind
  have hout : d ∉ corosOf coros timers.toList := by grind
  obtain ⟨z, hinit, hz, hzfields, hid⟩ := hy.coroutineInit hd hidle hactive hout
    fun a ha _ => hfields a ha
  refine ⟨z, _, ?_, ?_, hz, hzfields, hd, hidle, hactive⟩
  · rw [Sched.getCoroutine, h.idle, hid]
    rfl
  · simp [SchedMemory.getCoroutine, hhead, hnext, hdel, hinit]

theorem HoldsSched.getCoroutine_new (h : HoldsSched A [] active timers coros x σ)
    (hfields : SameFields A x.mem σ.coro) (hinv : RunInv ⟨σ, S, L⟩) {new : NewCoroutine}
    (hroom : x.currCoroSize ≠ x.maxCoroSize) (hnode : IsNode new.coro)
    (hfree : x.mem.heap.node new.coro = none) :
    ∃ y σ', Gets (some new) active timers coros x σ new.coro y σ' (insert new.coro A) [] := by
  obtain ⟨head, hhead, hfirst⟩ := Option.map_eq_some_iff.mp h.lists.idleCircle.first.1
  have hempty : head.next = .idle := hfirst
  obtain ⟨y, hcreate, hid, hnew, hy, hold⟩ := h.createCoroutine hinv hfields hroom hnode hfree
  have hactive : new.coro ∉ active := fun hmem => hnew (h.lists.mem_active hmem)
  have hout : new.coro ∉ corosOf coros timers.toList := fun hmem => hnew (h.timers.members _ hmem)
  obtain ⟨z, hinit, hz, hzfields, hzid⟩ := hy.coroutineInit (Finset.mem_insert_self ..)
    (by simp) hactive hout hold
  have hroom' : σ.currCoroSize ≠ σ.maxCoroSize := by rwa [h.size, h.max]
  refine ⟨z, _, ?_, ?_, hz, hzfields, Finset.mem_insert_self .., by simp, hactive⟩
  · have hnone : σ.idle = [] := h.idle
    simp only [Sched.getCoroutine, hnone, hzid, hid, Sched.createCoroutine, if_neg hroom']
    simp
  · simp [SchedMemory.getCoroutine, hhead, hempty, hcreate, hinit]

theorem HoldsSched.getCoroutine (h : HoldsSched A idle active timers coros x σ)
    (hfields : SameFields A x.mem σ.coro) (hinv : RunInv ⟨σ, S, L⟩) {alloc : Option NewCoroutine}
    (halloc : ∀ new, alloc = some new → IsNode new.coro ∧ x.mem.heap.node new.coro = none) :
    (σ.getCoroutine alloc.isSome = none ∧ x.getCoroutine alloc = some (none, x)) ∨
      ∃ c y σ' A' idle', Gets alloc active timers coros x σ c y σ' A' idle' := by
  cases idle with
  | cons d idle =>
    obtain ⟨y, σ', hgets⟩ := h.getCoroutine_idle hfields hinv alloc
    exact Or.inr ⟨d, y, σ', A, idle, hgets⟩
  | nil =>
    by_cases hroom : x.currCoroSize ≠ x.maxCoroSize ∧ alloc.isSome = true
    · obtain ⟨new, rfl⟩ := Option.isSome_iff_exists.mp hroom.2
      obtain ⟨hnode, hfree⟩ := halloc new rfl
      obtain ⟨y, σ', hgets⟩ := h.getCoroutine_new hfields hinv hroom.1 hnode hfree
      exact Or.inr ⟨new.coro, y, σ', _, [], hgets⟩
    · obtain ⟨head, hhead, hfirst⟩ := Option.map_eq_some_iff.mp h.lists.idleCircle.first.1
      have hempty : head.next = .idle := hfirst
      have hcreate : x.createCoroutine alloc = none ∧ σ.createCoroutine alloc.isSome = none := by
        have hfull : σ.currCoroSize = σ.maxCoroSize ↔ x.currCoroSize = x.maxCoroSize := by
          rw [h.size, h.max]
        unfold SchedMemory.createCoroutine Sched.createCoroutine
        cases alloc <;> simp_all
      refine Or.inl ⟨?_, by simp [SchedMemory.getCoroutine, hhead, hempty, hcreate.1]⟩
      rw [Sched.getCoroutine, h.idle, List.map_nil, hcreate.2]
      rfl

theorem HoldsSched.dispatchCoro (h : HoldsSched A idle active timers coros x σ)
    (hfields : SameFields A x.mem σ.coro) (hinv : RunInv ⟨σ, S, L⟩) {alloc : Option NewCoroutine}
    (halloc : ∀ new, alloc = some new → IsNode new.coro ∧ x.mem.heap.node new.coro = none) :
    Returns (x.dispatchCoro alloc) fun p => p.1 = (σ.dispatchCoro alloc.isSome).1 ∧
      Represents p.2 (σ.dispatchCoro alloc.isSome).2 := by
  unfold Sched.dispatchCoro
  rcases h.getCoroutine hfields hinv halloc with ⟨hnone, hget⟩ | ⟨c, y, σ', A', idle', hgets⟩
  · rw [hnone]
    exact Returns.step hget (Returns.some ⟨rfl, A, idle, active, timers, coros, h, hfields⟩)
  · rw [hgets.onIds]
    refine Returns.step hgets.inMemory (Returns.bind (hgets.holds.moveToActiveListTailDirect
      hgets.fields hgets.mem hgets.not_idle hgets.not_active) fun mem hrep => ?_)
    exact Returns.some ⟨rfl, hrep⟩

/-- Other memory with the same ids, in which other coroutines are active or wait. -/
theorem HoldsSched.setMemory (h : HoldsSched A idle active timers coros x σ)
    {mem : SchedHeap (Links ListNode)} (hid : mem.coroId = x.mem.coroId) {active' : List Addr}
    (hlists : SchedLists mem.active A idle active') {timers' : ColorTree Addr}
    {coros' : Addr → ColorTree Addr} {inactive : ColorTree TimerNode}
    (htimers : HoldsTimers A mem timers' coros' inactive) {ids : List ℕ}
    (hactive : ids = active'.map x.mem.coroId) (coro : ℕ → Coroutine) :
    HoldsSched A idle active' timers' coros' { x with mem := mem }
      { σ with inactive := inactive, active := ids, coro := coro } where
  lists := hlists
  timers := htimers
  idle := by rw [hid]; exact h.idle
  active := by rw [hid]; exact hactive
  current := by rw [hid]; exact h.current
  running := h.running
  max := h.max
  size := h.size
  next := h.next
  card := h.card
  ids := by rw [hid]; exact h.ids

theorem HoldsSched.switchMain (h : HoldsSched A idle active timers coros x σ) :
    HoldsSched A idle active timers coros { x with current := none } { σ with current := none } :=
  { h with current := rfl, running := by simp }

theorem HoldsSched.scheduleTimeout (h : HoldsSched A idle active timers coros x σ)
    (hfields : SameFields A x.mem σ.coro) (hinv : RunInv ⟨σ, S, L⟩) (hfuel : 2 * A.card + 2 ≤ fuel)
    (hcurrent : x.current = some c) (now milliseconds : ℤ) {alloc : Option (Addr × RbNode)}
    (halloc : ∀ tmp old, alloc = some (tmp, old) → IsNode tmp ∧ x.mem.heap.node tmp = none) :
    Returns (x.scheduleTimeout fuel now milliseconds alloc) fun y =>
      Represents y (σ.scheduleTimeout (x.mem.coroId c) now milliseconds alloc.isSome) := by
  have hnodup := h.nodup hinv
  rw [hcurrent] at hnodup
  have hc : c ∈ A := h.running c hcurrent
  have hout : c ∉ corosOf coros timers.toList := by grind
  have ht₀ : HoldsTimers A
      { x.mem with timeout := Function.update x.mem.timeout c (toInt64 (now + milliseconds)) }
      timers coros σ.inactive := h.timers.congr rfl rfl rfl
  obtain ⟨mem, timers', coros', hmove, hsame, ht⟩ := ht₀.moveToInactiveTree hc hout hfuel halloc
  dsimp only at ht
  rw [Function.update_self] at ht
  refine Returns.step hcurrent (Returns.step hmove (Returns.some ?_))
  have hlists : SchedLists mem.active A idle active := by
    rw [hsame.active]
    exact h.lists
  refine ⟨A, idle, active, timers', coros',
    (h.setMemory hsame.coroId hlists ht h.active _).switchMain, ?_⟩
  have hupdate := SameFields.update h.timers.idInj hc
    ⟨toInt64 (now + milliseconds), x.mem.activeByTimeout c⟩ fun a ha _ => hfields a ha
  intro a ha
  dsimp only
  rw [hsame.coroId, hsame.timeout, hsame.activeByTimeout]
  simpa [Sched.scheduleTimeout, hfields c hc] using hupdate a ha

theorem HoldsSched.leaveInactive (h : HoldsSched A idle active timers coros x σ)
    (hfields : SameFields A x.mem σ.coro) (hfuel : 2 * A.card + 2 ≤ fuel) (hc : c ∈ A) :
    ∃ mem timers' coros', x.mem.leaveInactive fuel c = some mem ∧ mem.coroId = x.mem.coroId ∧
      HoldsSched A idle active timers' coros' { x with mem := mem }
        { σ.setActiveByTimeout (x.mem.coroId c) false with
          inactive := Coro.removeFromInactiveTree σ.inactive (x.mem.coroId c)
            (σ.coro (x.mem.coroId c)).timeout } ∧
      SameFields A mem (σ.setActiveByTimeout (x.mem.coroId c) false).coro := by
  have ht₀ : HoldsTimers A
      { x.mem with activeByTimeout := Function.update x.mem.activeByTimeout c false }
      timers coros σ.inactive := h.timers.congr rfl rfl rfl
  obtain ⟨mem, timers', coros', hremove, hsame, ht⟩ := ht₀.removeFromInactiveTree hc hfuel
  have hfield := hfields c hc
  refine ⟨mem, timers', coros', hremove, hsame.coroId, ?_, ?_⟩
  · have hlists : SchedLists mem.active A idle active := by
      rw [hsame.active]
      exact h.lists
    rw [hfield]
    exact h.setMemory hsame.coroId hlists ht h.active _
  · have hupdate := SameFields.update h.timers.idInj hc ⟨x.mem.timeout c, false⟩
      fun a ha _ => hfields a ha
    intro a ha
    rw [hsame.coroId, hsame.timeout, hsame.activeByTimeout, Sched.setActiveByTimeout, hfield]
    simpa using hupdate a ha

theorem HoldsSched.wakeupCoro (h : HoldsSched A idle active timers coros x σ)
    (hfields : SameFields A x.mem σ.coro) (hfuel : 2 * A.card + 2 ≤ fuel) (hc : c ∈ A)
    (hidle : c ∉ idle) (hactive : c ∉ active) :
    Returns (x.wakeupCoro fuel c) fun y => Represents y (σ.wakeupCoro (x.mem.coroId c)) := by
  obtain ⟨mem, timers', coros', hleave, hid, hmem, hmemFields⟩ := h.leaveInactive hfields hfuel hc
  obtain ⟨mem', hadd, hrep⟩ := hmem.moveToActiveListTailDirect hmemFields hc hidle hactive
  have hwake : x.mem.wakeupCoro fuel c = some mem' := by
    simp only [SchedHeap.wakeupCoro, hleave, Option.bind_eq_bind, Option.bind_some]
    exact hadd
  refine Returns.step hwake (Returns.some ?_)
  dsimp only at hrep
  rw [hid] at hrep
  exact hrep

theorem HoldsSched.wakeupCoroPriority (h : HoldsSched A idle active timers coros x σ)
    (hfields : SameFields A x.mem σ.coro) (hfuel : 2 * A.card + 2 ≤ fuel) (hc : c ∈ A)
    (hidle : c ∉ idle) (hactive : c ∉ active) :
    Returns (x.wakeupCoroPriority fuel c) fun y =>
      Represents y (σ.wakeupCoroPriority (x.mem.coroId c)) := by
  obtain ⟨mem, timers', coros', hleave, hid, hmem, hmemFields⟩ := h.leaveInactive hfields hfuel hc
  obtain ⟨lists, hadd, hlists⟩ := hmem.lists.addActiveHead hc hidle hactive
  have hadd' : ActiveList.addHead mem.active c = some lists := hadd
  have hwake : x.mem.wakeupCoroPriority fuel c = some { mem with active := lists } := by
    simp [SchedHeap.wakeupCoroPriority, hleave, hadd']
  refine Returns.step hwake (Returns.some ⟨A, idle, c :: active, timers', coros', ?_, hmemFields⟩)
  have hactiveIds : σ.active = active.map mem.coroId := hmem.active
  exact
    { hmem with
      lists := hlists
      timers := hmem.timers.congr rfl rfl rfl
      active := by simp [Sched.wakeupCoroPriority, hactiveIds, hid] }

theorem HoldsSched.addAll (h : HoldsSched A idle active timers coros x σ) (hinv : RunInv ⟨σ, S, L⟩)
    {due : List Addr} (hdue : ∀ d ∈ due, d ∈ corosOf coros timers.toList) (hnodup : due.Nodup) :
    Returns (Coro.addAll x.mem.active due) (SchedLists · A idle (active ++ due)) := by
  have hplaces := h.nodup hinv
  refine h.lists.addAll (fun d hd => h.timers.members d (hdue d hd)) (fun d hd => ?_)
    (fun d hd => ?_) hnodup
  · have hmem := hdue d hd
    grind
  · have hmem := hdue d hd
    grind

theorem HoldsSched.checkTimeoutCoroutine (h : HoldsSched A idle active timers coros x σ)
    (hfields : SameFields A x.mem σ.coro) (hinv : RunInv ⟨σ, S, L⟩) (hfuel : 2 * A.card + 2 ≤ fuel)
    (now : ℤ) :
    Returns (x.checkTimeoutCoroutine fuel now) fun y =>
      Represents y (σ.checkTimeoutCoroutine now) := by
  have hwaiting := (List.nodup_append.mp h.timers.apart).2.1
  obtain ⟨mem, timers', due, hcheck, hid, hadd, hnodup, hdue, hactive, htimers, hmemFields⟩ :=
    h.timers.checkTimeoutCoroutine hfields hfuel now fun due hperm => by
      obtain ⟨lists, hlists, -⟩ := h.addAll hinv (fun d hd => hperm.mem_iff.mp hd)
        (hperm.nodup_iff.mpr hwaiting)
      rw [hlists]
      rfl
  obtain ⟨lists, hadd', hlists⟩ := h.addAll hinv hdue hnodup
  obtain rfl : lists = mem.active := Option.some.inj (hadd'.symm.trans hadd)
  obtain ⟨expired, inactive, heq, -⟩ := σ.checkTimeoutCoroutine_spec now
  refine Returns.step hcheck (Returns.some ⟨A, idle, active ++ due, timers', coros, ?_, ?_⟩)
  · rw [h.active, ← List.map_append] at hactive
    rw [heq] at hactive htimers ⊢
    exact h.setMemory hid hlists htimers hactive _
  · intro a ha
    rw [hid]
    exact hmemFields a ha

theorem HoldsSched.runNextActive (h : HoldsSched A idle active timers coros x σ)
    (hfields : SameFields A x.mem σ.coro) :
    Returns x.runNextActive fun y => Represents y σ.runNextActive := by
  obtain ⟨head, hhead, hfirst⟩ := Option.map_eq_some_iff.mp h.lists.activeCircle.first.1
  unfold Sched.runNextActive
  rw [h.active]
  cases active with
  | nil =>
    have hempty : head.next = .active := hfirst
    have hget : x.getActiveCoroutine = some (none, x) := by
      simp [SchedMemory.getActiveCoroutine, hhead, hempty]
    exact Returns.step hget (Returns.some ⟨A, idle, [], timers, coros, h, hfields⟩)
  | cons d active =>
    have hnext : head.next = .coro d := hfirst
    obtain ⟨lists, hdel, hlists⟩ := h.lists.takeActive
    have hget : x.getActiveCoroutine = some (some d, x.setLists lists) := by
      simp [SchedMemory.getActiveCoroutine, hhead, hnext, hdel]
    refine Returns.step hget (Returns.some ⟨A, idle, active, timers, coros, ?_, hfields⟩)
    exact
      { h with
        lists := hlists
        timers := h.timers.congr rfl rfl rfl
        active := rfl
        current := rfl
        running := fun a ha => by
          obtain rfl : d = a := Option.some.inj ha
          exact h.lists.mem_active (by simp) }

theorem HoldsSched.isWakeupByTimeout (h : HoldsSched A idle active timers coros x σ)
    (hfields : SameFields A x.mem σ.coro) (hcurrent : x.current = some c) :
    Returns x.isWakeupByTimeout fun p =>
      p.1 = (σ.isWakeupByTimeout (x.mem.coroId c)).1 ∧
        Represents p.2 (σ.isWakeupByTimeout (x.mem.coroId c)).2 := by
  have hc : c ∈ A := h.running c hcurrent
  have hfield := hfields c hc
  refine Returns.step hcurrent (Returns.some ⟨?_, A, idle, active, timers, coros,
    { h with timers := h.timers.congr rfl rfl rfl }, ?_⟩)
  · rw [Sched.isWakeupByTimeout, hfield]
  · have hupdate := SameFields.update h.timers.idInj hc ⟨x.mem.timeout c, false⟩
      fun a ha _ => hfields a ha
    intro a ha
    rw [Sched.isWakeupByTimeout, Sched.setActiveByTimeout, hfield]
    simpa using hupdate a ha

theorem HoldsSched.finishCoroutine (h : HoldsSched A idle active timers coros x σ)
    (hfields : SameFields A x.mem σ.coro) (hinv : RunInv ⟨σ, S, L⟩)
    (hcurrent : x.current = some c) :
    Returns (x.finishCoroutine c) fun y => Represents y (σ.finishCoroutine (x.mem.coroId c)) := by
  have hnodup := h.nodup hinv
  rw [hcurrent] at hnodup
  have hidle : c ∉ idle := by grind
  have hactive : c ∉ active := by grind
  refine Returns.bind (h.lists.addIdleTail (h.running c hcurrent) hidle hactive)
    fun lists hlists => Returns.some ?_
  exact ⟨A, idle ++ [c], active, timers, coros,
    { h with
      lists := hlists
      timers := h.timers.congr rfl rfl rfl
      idle := by simp [Sched.finishCoroutine, h.idle, SchedMemory.setLists]
      current := rfl
      running := by simp }, hfields⟩

end Calls

/-! ## Runs -/

structure MemoryRun where
  memory : SchedMemory
  run : Run

namespace SchedCall

/-- What the callers keep to. A coroutine suspends itself, asks why it runs and ends while it runs,
and the main coroutine switches to the next one. A wakeup is for a coroutine that waits in a timer
node, and a timeout is filed at its place. New memory was not in use. -/
def Allowed (p : MemoryRun) : SchedCall → Prop
  | dispatchCoro alloc => ∀ new, alloc = some new →
      IsNode new.coro ∧ p.memory.mem.heap.node new.coro = none
  | scheduleTimeout now milliseconds alloc => p.memory.current.isSome = true ∧
      Filed p.run (toInt64 (now + milliseconds)) ∧
      ∀ tmp old, alloc = some (tmp, old) → IsNode tmp ∧ p.memory.mem.heap.node tmp = none
  | wakeupCoro coro | wakeupCoroPriority coro => (p.memory.lists (.coro coro)).isSome = true ∧
      p.memory.mem.coroId coro ∈ p.run.suspended
  | checkTimeoutCoroutine _ => True
  | runNextActive => p.memory.current = none
  | isWakeupByTimeout => p.memory.current.isSome = true
  | finishCoroutine coro => p.memory.current = some coro

/-- The call on ids, with what it returns. -/
def apply (coroId : Addr → ℕ) (r : Run) : SchedCall → SchedReply × Run
  | dispatchCoro alloc => (.int (r.sched.dispatchCoro alloc.isSome).1,
      { r with sched := (r.sched.dispatchCoro alloc.isSome).2 })
  | scheduleTimeout now milliseconds alloc =>
    match r.sched.current with
    | none => (.void, r)
    | some id =>
      if alloc.isSome = true ∨ r.sched.HasTimer (toInt64 (now + milliseconds)) then
        (.void, { r with
          sched := r.sched.scheduleTimeout id now milliseconds alloc.isSome
          suspended := insert id r.suspended })
      else
        (.void, { r with
          sched := r.sched.scheduleTimeout id now milliseconds false
          lost := id :: r.lost })
  | wakeupCoro coro => (.void, { r with
      sched := r.sched.wakeupCoro (coroId coro)
      suspended := r.suspended \ {coroId coro} })
  | wakeupCoroPriority coro => (.void, { r with
      sched := r.sched.wakeupCoroPriority (coroId coro)
      suspended := r.suspended \ {coroId coro} })
  | checkTimeoutCoroutine now => (.void, { r with
      sched := r.sched.checkTimeoutCoroutine now
      suspended := { d ∈ r.suspended | now < (r.sched.coro d).timeout } })
  | runNextActive => (.void, { r with sched := r.sched.runNextActive })
  | isWakeupByTimeout =>
    match r.sched.current with
    | none => (.void, r)
    | some id => (.bool (r.sched.isWakeupByTimeout id).1,
        { r with sched := (r.sched.isWakeupByTimeout id).2 })
  | finishCoroutine coro => (.void, { r with sched := r.sched.finishCoroutine (coroId coro) })

end SchedCall

/-- One call, in memory and on ids. -/
def CallStep (fuel : ℕ) (p q : MemoryRun) : Prop :=
  ∃ (call : SchedCall) (reply : SchedReply), call.Allowed p ∧
    call.exec fuel p.memory = some (reply, q.memory) ∧
    q.run = (call.apply p.memory.mem.coroId p.run).2

section Runs

variable {p q : MemoryRun} {fuel : ℕ} {call : SchedCall}

theorem Represents.current (h : Represents p.memory p.run.sched) {c : Addr}
    (hcurrent : p.memory.current = some c) :
    p.run.sched.current = some (p.memory.mem.coroId c) := by
  obtain ⟨A, idle, active, timers, coros, h, -⟩ := h
  rw [h.current, hcurrent]
  rfl

/-- A call that is allowed in memory is a step of the scheduler on ids. -/
theorem Represents.clockStep (h : Represents p.memory p.run.sched) (hallowed : call.Allowed p) :
    ClockStep Filed p.run (call.apply p.memory.mem.coroId p.run).2 := by
  cases call with
  | dispatchCoro alloc => exact .step _ _ (.dispatch ..)
  | scheduleTimeout now milliseconds alloc =>
    obtain ⟨hrunning, hfiled, -⟩ := hallowed
    obtain ⟨c, hc⟩ := Option.isSome_iff_exists.mp hrunning
    have hcurrent := h.current hc
    simp only [SchedCall.apply, hcurrent]
    split_ifs with halloc
    · exact .timeout _ _ _ _ _ _ _ hcurrent hfiled halloc
    · exact .step _ _ (.timeoutFailed _ _ _ _ _ _ hcurrent (not_or.mp halloc).2)
  | wakeupCoro coro => exact .step _ _ (.wakeup _ _ _ _ hallowed.2)
  | wakeupCoroPriority coro => exact .step _ _ (.wakeupPriority _ _ _ _ hallowed.2)
  | checkTimeoutCoroutine now => exact .step _ _ (.check ..)
  | runNextActive =>
    refine .step _ _ (.resume _ _ _ ?_)
    obtain ⟨A, idle, active, timers, coros, h, -⟩ := h
    rw [h.current, show p.memory.current = none from hallowed]
    rfl
  | isWakeupByTimeout =>
    obtain ⟨c, hc⟩ := Option.isSome_iff_exists.mp hallowed
    have hcurrent := h.current hc
    simp only [SchedCall.apply, hcurrent]
    exact .step _ _ (.isWakeup _ _ _ _ hcurrent)
  | finishCoroutine coro => exact .step _ _ (.finish _ _ _ _ (h.current hallowed))

/-- A coroutine that waits is linked to no list. -/
theorem HoldsSched.not_linked {A : Finset Addr} {idle active : List Addr} {timers : ColorTree Addr}
    {coros : Addr → ColorTree Addr} {c : Addr}
    (h : HoldsSched A idle active timers coros p.memory p.run.sched) (hinv : RunInv p.run)
    (hc : c ∈ A) (hwaits : p.memory.mem.coroId c ∈ p.run.suspended) : c ∉ idle ∧ c ∉ active := by
  have hwaiting := (hinv.suspended _).mp hwaits
  rw [Sched.waiting, h.timers.members_eq] at hwaiting
  obtain ⟨d, hd, hid⟩ := List.mem_map.mp hwaiting
  obtain rfl := h.timers.idInj (h.timers.members d hd) hc hid
  have hnodup := h.nodup hinv
  constructor <;> grind

/-- A call that is allowed returns, and does what it does on ids. -/
theorem Represents.exec (h : Represents p.memory p.run.sched) (hinv : RunInv p.run)
    (hfuel : 2 * p.memory.maxCoroSize + 2 ≤ fuel) (hallowed : call.Allowed p) :
    ∃ y, call.exec fuel p.memory = some ((call.apply p.memory.mem.coroId p.run).1, y) ∧
      Represents y (call.apply p.memory.mem.coroId p.run).2.sched := by
  have hcurrent : ∀ {c}, p.memory.current = some c →
    p.run.sched.current = some (p.memory.mem.coroId c) := h.current
  obtain ⟨A, idle, active, timers, coros, h, hfields⟩ := h
  have hfuel' := h.fuel_le hinv hfuel
  cases call with
  | dispatchCoro alloc =>
    obtain ⟨⟨result, y⟩, hexec, hresult, hrep⟩ := h.dispatchCoro hfields hinv hallowed
    obtain rfl : result = _ := hresult
    exact ⟨y, by simp [SchedCall.exec, hexec, SchedCall.apply], hrep⟩
  | scheduleTimeout now milliseconds alloc =>
    obtain ⟨hrunning, -, halloc⟩ := hallowed
    obtain ⟨c, hc⟩ := Option.isSome_iff_exists.mp hrunning
    obtain ⟨y, hexec, hrep⟩ := h.scheduleTimeout hfields hinv hfuel' hc now milliseconds halloc
    have hids := hcurrent hc
    refine ⟨y, ?_, ?_⟩
    · simp only [SchedCall.exec, hexec, SchedCall.apply, hids]
      split_ifs <;> rfl
    · simp only [SchedCall.apply, hids]
      split_ifs with hfiled
      · exact hrep
      · obtain rfl : alloc = none := by simpa using (not_or.mp hfiled).1
        exact hrep
  | wakeupCoro coro =>
    have hc : coro ∈ A := (h.lists.coroutine coro).mpr hallowed.1
    obtain ⟨hidle, hactive⟩ := h.not_linked hinv hc hallowed.2
    obtain ⟨y, hexec, hrep⟩ := h.wakeupCoro hfields hfuel' hc hidle hactive
    exact ⟨y, by simp [SchedCall.exec, hexec, SchedCall.apply], hrep⟩
  | wakeupCoroPriority coro =>
    have hc : coro ∈ A := (h.lists.coroutine coro).mpr hallowed.1
    obtain ⟨hidle, hactive⟩ := h.not_linked hinv hc hallowed.2
    obtain ⟨y, hexec, hrep⟩ := h.wakeupCoroPriority hfields hfuel' hc hidle hactive
    exact ⟨y, by simp [SchedCall.exec, hexec, SchedCall.apply], hrep⟩
  | checkTimeoutCoroutine now =>
    obtain ⟨y, hexec, hrep⟩ := h.checkTimeoutCoroutine hfields hinv hfuel' now
    exact ⟨y, by simp [SchedCall.exec, hexec, SchedCall.apply], hrep⟩
  | runNextActive =>
    obtain ⟨y, hexec, hrep⟩ := h.runNextActive hfields
    exact ⟨y, by simp [SchedCall.exec, hexec, SchedCall.apply], hrep⟩
  | isWakeupByTimeout =>
    obtain ⟨c, hc⟩ := Option.isSome_iff_exists.mp hallowed
    obtain ⟨⟨result, y⟩, hexec, hresult, hrep⟩ := h.isWakeupByTimeout hfields hc
    obtain rfl : result = _ := hresult
    have hids := hcurrent hc
    refine ⟨y, ?_, ?_⟩
    · simp [SchedCall.exec, hexec, SchedCall.apply, hids]
    · simp only [SchedCall.apply, hids]
      exact hrep
  | finishCoroutine coro =>
    obtain ⟨y, hexec, hrep⟩ := h.finishCoroutine hfields hinv hallowed
    exact ⟨y, by simp [SchedCall.exec, hexec, SchedCall.apply], hrep⟩

theorem Represents.scheduleInit {maxCoroSize : ℕ} (hmax : maxCoroSize < 2 ^ 31)
    (coro : ℕ → Coroutine) {mem : SchedHeap (Links ListNode)}
    (hidle : (mem.active .idle).isSome = true) (hactive : (mem.active .active).isSome = true)
    (hnone : ∀ c, mem.active (.coro c) = none) :
    Returns (SchedMemory.scheduleInit maxCoroSize mem) fun x =>
      Represents x (Coro.scheduleInit maxCoroSize coro hmax) := by
  refine Returns.bind (Links.initListHead_returns hidle) fun lists ⟨hjoined, hsome, hsame⟩ => ?_
  refine Returns.bind (Links.initListHead_returns ((hsome _).trans hactive))
    fun lists' ⟨hjoined', _, hsame'⟩ => Returns.some ⟨∅, [], [], nil, fun _ => nil, ?_, ?_⟩
  · have hempty : Circle lists .idle [] := ⟨by simp, .cons hjoined .nil⟩
    have hlists : SchedLists lists' ∅ [] [] :=
      { coroutine := fun c => by simp [hsame' (.coro c) (by simp), hsame (.coro c) (by simp), hnone]
        idleCircle := hempty.congr fun a ha => hsame' a (by simp_all)
        activeCircle := ⟨by simp, .cons hjoined' .nil⟩
        apart := by simp }
    exact
      { lists := hlists
        timers := .empty (show Function.update mem.heap.root .inactive NULL .inactive = NULL from
          Function.update_self ..)
        idle := rfl
        active := rfl
        current := rfl
        running := by simp
        max := rfl
        size := rfl
        next := rfl
        card := rfl
        ids := by simp }
  · simp [SameFields]

/-- What holds along a run: the memory represents a state of a run on ids from `start` on. -/
structure MemoryInv (maxCoroSize : ℕ) (start : Run) (p : MemoryRun) : Prop where
  represents : Represents p.memory p.run.sched
  run : RunInv p.run
  size : p.run.sched.maxCoroSize = maxCoroSize
  path : ReflTransGen (ClockStep Filed) start p.run

variable {maxCoroSize : ℕ} {start : Run}

theorem MemoryInv.exec (h : MemoryInv maxCoroSize start p) (hfuel : 2 * maxCoroSize + 2 ≤ fuel)
    (hallowed : call.Allowed p) :
    ∃ y, call.exec fuel p.memory = some ((call.apply p.memory.mem.coroId p.run).1, y) ∧
      Represents y (call.apply p.memory.mem.coroId p.run).2.sched := by
  refine h.represents.exec h.run ?_ hallowed
  obtain ⟨A, idle, active, timers, coros, hholds, -⟩ := h.represents
  rwa [← hholds.max, h.size]

theorem MemoryInv.step (hfuel : 2 * maxCoroSize + 2 ≤ fuel) (h : MemoryInv maxCoroSize start p)
    (hstep : CallStep fuel p q) : MemoryInv maxCoroSize start q := by
  obtain ⟨call, reply, hallowed, hexec, hrun⟩ := hstep
  have hclock := h.represents.clockStep hallowed
  obtain ⟨y, hexec', hrep⟩ := h.exec hfuel hallowed
  obtain ⟨-, hy⟩ := Prod.mk.inj (Option.some.inj (hexec.symm.trans hexec'))
  rw [← hrun] at hclock hrep
  rw [← hy] at hrep
  exact ⟨hrep, clockStep_inv h.run hclock,
    (poolStep_max (clockStep_pool h.run hclock)).trans h.size, h.path.tail hclock⟩

end Runs

/-- From `schedule_init` on, the scheduler in memory does what the scheduler on ids does. Every call
that its callers may make returns, with the same result: none dereferences memory that is not
there, links a coroutine twice or runs out of its loops. After every run the memory holds the lists
and the trees of the run on ids, which is one of the scheduler with timeouts that are filed at their
places. -/
theorem scheduler_memory_refines {maxCoroSize fuel : ℕ} (hmax : maxCoroSize < 2 ^ 31)
    (hfuel : 2 * maxCoroSize + 2 ≤ fuel) (coro : ℕ → Coroutine)
    (mem : SchedHeap (Links ListNode)) (hidle : (mem.active .idle).isSome = true)
    (hactive : (mem.active .active).isSome = true) (hnone : ∀ c, mem.active (.coro c) = none) :
    ∃ x, SchedMemory.scheduleInit maxCoroSize mem = some x ∧
      ∀ p, ReflTransGen (CallStep fuel) ⟨x, scheduleInit maxCoroSize coro hmax, ∅, []⟩ p →
        Represents p.memory p.run.sched ∧
        ReflTransGen (ClockStep Filed) ⟨scheduleInit maxCoroSize coro hmax, ∅, []⟩ p.run ∧
        ∀ call : SchedCall, call.Allowed p → ∃ y, call.exec fuel p.memory =
            some ((call.apply p.memory.mem.coroId p.run).1, y) ∧
          Represents y (call.apply p.memory.mem.coroId p.run).2.sched := by
  obtain ⟨x, hx, hrep⟩ := Represents.scheduleInit hmax coro hidle hactive hnone
  refine ⟨x, hx, fun p hrun => ?_⟩
  have hinv : MemoryInv maxCoroSize ⟨scheduleInit maxCoroSize coro hmax, ∅, []⟩ p :=
    run_invariant (MemoryInv maxCoroSize _) (fun _ _ => MemoryInv.step hfuel)
      ⟨hrep, init_inv maxCoroSize coro hmax, rfl, .refl⟩ hrun
  exact ⟨hinv.represents, hinv.path, fun call => hinv.exec hfuel⟩

/-! ## Two coroutines -/

/-- A memory in which nothing is in use but the list heads of the scheduler. -/
def rawMemory : SchedHeap (Links ListNode) where
  heap := ⟨fun _ => none, fun _ => NULL⟩
  timerTimeout := fun _ => 0
  coroId := fun _ => 0
  timeout := fun _ => 0
  activeByTimeout := fun _ => false
  active
    | .coro _ => none
    | _ => some ⟨.idle, .idle⟩
  freed := []

theorem isSome_scheduleInit : (SchedMemory.scheduleInit 2 rawMemory).isSome = true := by
  decide +kernel

theorem two_lt : 2 < 2 ^ 31 := by decide

/-- The memory after `schedule_init`, with the run that starts there. -/
def startRun : MemoryRun :=
  ⟨(SchedMemory.scheduleInit 2 rawMemory).get isSome_scheduleInit,
    scheduleInit 2 (fun _ => ⟨0, false⟩) two_lt, ∅, []⟩

namespace MemoryRun

def call (p : MemoryRun) (call : SchedCall) : MemoryRun :=
  ⟨(call.exec 6 p.memory).elim p.memory Prod.snd, (call.apply p.memory.mem.coroId p.run).2⟩

variable {p q : MemoryRun}

theorem run_call (hrun : ReflTransGen (CallStep 6) p q) {call : SchedCall}
    (hallowed : call.Allowed q) (hsome : (call.exec 6 q.memory).isSome = true) :
    ReflTransGen (CallStep 6) p (q.call call) := by
  obtain ⟨⟨reply, y⟩, hexec⟩ := Option.isSome_iff_exists.mp hsome
  exact hrun.tail ⟨call, reply, hallowed, by simp [MemoryRun.call, hexec], rfl⟩

theorem dispatchCoro_allowed (new : NewCoroutine) (hnode : IsNode new.coro)
    (hfree : p.memory.mem.heap.node new.coro = none) :
    (SchedCall.dispatchCoro (some new)).Allowed p := by
  rintro _ ⟨⟩
  exact ⟨hnode, hfree⟩

theorem scheduleTimeout_allowed (now milliseconds : ℤ) (tmp : Addr) (old : RbNode)
    (hcurrent : p.memory.current.isSome = true) (hfiled : Filed p.run (toInt64 (now + milliseconds)))
    (hnode : IsNode tmp) (hfree : p.memory.mem.heap.node tmp = none) :
    (SchedCall.scheduleTimeout now milliseconds (some (tmp, old))).Allowed p := by
  refine ⟨hcurrent, hfiled, ?_⟩
  rintro _ _ ⟨⟩
  exact ⟨hnode, hfree⟩

theorem runNextActive_allowed (hcurrent : p.memory.current = none) :
    SchedCall.runNextActive.Allowed p := hcurrent

end MemoryRun

/-- Two coroutines, at 16 and at 24, of which the first runs. -/
def twoCoroutines : MemoryRun :=
  [SchedCall.dispatchCoro (some ⟨16, ⟨0, 0, 0⟩, ⟨.idle, .idle⟩⟩),
    .dispatchCoro (some ⟨24, ⟨0, 0, 0⟩, ⟨.idle, .idle⟩⟩), .runNextActive].foldl .call startRun

/-- They suspend themselves for 10 and for 50 milliseconds, in timer nodes at 64 and at 96. -/
def twoSuspended : MemoryRun :=
  [SchedCall.scheduleTimeout 0 10 (some (64, ⟨0, 0, 0⟩)), .runNextActive,
    .scheduleTimeout 0 50 (some (96, ⟨0, 0, 0⟩))].foldl .call twoCoroutines

theorem twoCoroutines_run : ReflTransGen (CallStep 6) startRun twoCoroutines := by
  have h₁ := MemoryRun.run_call (p := startRun) .refl
    (MemoryRun.dispatchCoro_allowed ⟨16, ⟨0, 0, 0⟩, ⟨.idle, .idle⟩⟩ (by decide +kernel)
      (by decide +kernel)) (by decide +kernel)
  have h₂ := MemoryRun.run_call h₁
    (MemoryRun.dispatchCoro_allowed ⟨24, ⟨0, 0, 0⟩, ⟨.idle, .idle⟩⟩ (by decide +kernel)
      (by decide +kernel)) (by decide +kernel)
  exact MemoryRun.run_call h₂ (MemoryRun.runNextActive_allowed (by decide +kernel))
    (by decide +kernel)

theorem twoSuspended_run : ReflTransGen (CallStep 6) startRun twoSuspended := by
  have h₁ := MemoryRun.run_call twoCoroutines_run
    (MemoryRun.scheduleTimeout_allowed 0 10 64 ⟨0, 0, 0⟩ (by decide +kernel)
      ⟨fun d hd => absurd hd (Set.notMem_empty d), rfl⟩ (by decide +kernel) (by decide +kernel))
    (by decide +kernel)
  have h₂ := MemoryRun.run_call h₁ (MemoryRun.runNextActive_allowed (by decide +kernel))
    (by decide +kernel)
  refine MemoryRun.run_call h₂ (MemoryRun.scheduleTimeout_allowed 0 50 96 ⟨0, 0, 0⟩
    (by decide +kernel) ⟨?_, ?_⟩ (by decide +kernel) (by decide +kernel)) (by decide +kernel)
  · intro d hd
    obtain rfl : d = 1 := by simpa using (show d ∈ insert 1 (∅ : Set ℕ) from hd)
    unfold Fits
    decide +kernel
  · unfold Files
    decide +kernel

/-- At the time 20 one of the two timer nodes is due: it is freed and its coroutine is linked to the
active list, and the other timer node stays. -/
theorem scheduler_memory_refines_two : ∃ y,
    (SchedCall.checkTimeoutCoroutine 20).exec 6 twoSuspended.memory = some (.void, y) ∧
      Represents y (twoSuspended.run.sched.checkTimeoutCoroutine 20) ∧
      y.lists .active = some ⟨.coro 16, .coro 16⟩ ∧ y.mem.freed = [64] ∧
      y.mem.heap.root .inactive = 96 := by
  obtain ⟨x, hx, hruns⟩ := scheduler_memory_refines two_lt
    (show 2 * 2 + 2 ≤ 6 by decide) (fun _ => ⟨0, false⟩) rawMemory rfl rfl fun _ => rfl
  obtain rfl : startRun.memory = x := by simp [startRun, hx]
  obtain ⟨y, hexec, hrep⟩ := (hruns _ twoSuspended_run).2.2 (.checkTimeoutCoroutine 20) trivial
  have hmemory : ((SchedCall.checkTimeoutCoroutine 20).exec 6 twoSuspended.memory).map
      (fun r => (r.2.lists .active, r.2.mem.freed, r.2.mem.heap.root .inactive)) =
        some (some ⟨.coro 16, .coro 16⟩, [64], 96) := by decide +kernel
  rw [hexec] at hmemory
  simp only [Option.map_some, Option.some.injEq, Prod.mk.injEq] at hmemory
  exact ⟨y, hexec, hrep, hmemory⟩

end Cserv.Coro
