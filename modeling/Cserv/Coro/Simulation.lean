import Cserv.Coro.Expiry
import Cserv.Coro.Insertion
import Cserv.Coro.Partition

/-!
# The scheduler in memory simulates the scheduler on trees

Runs of the scheduler are about trees of ids. Here the functions of `sched.c` on the nodes in
memory are shown to do what those functions do on the trees that the memory holds: they return,
which is to say that they dereference no `NULL` and end, and the memory then holds the trees that
the functions on trees give. All of them commute with the renaming of addresses to ids.
-/
namespace Cserv.Coro

open Foundations Util ColorTree

def SchedHeap.timerNode {α : Type} (s : SchedHeap α) (coros : Addr → ColorTree Addr) (tm : Addr) :
    TimerNode :=
  ⟨s.timerTimeout tm, (coros tm).map s.coroId⟩

/-- The memory holds the tree `inactive` of timer nodes. The coroutines are those at the addresses
`A`, which are never freed; each has its own id. -/
structure HoldsTimers {α : Type} (A : Finset Addr) (s : SchedHeap α) (timers : ColorTree Addr)
    (coros : Addr → ColorTree Addr) (inactive : ColorTree TimerNode) : Prop
    extends TwoLevel s timers coros where
  same : inactive = timers.map (s.timerNode coros)
  members : ∀ x ∈ corosOf coros timers.toList, x ∈ A
  notCoro : ∀ tm ∈ timers.toList, tm ∉ A
  filled : ∀ tm ∈ timers.toList, coros tm ≠ nil
  isNode : ∀ x ∈ A, IsNode x
  inUse : ∀ x ∈ A, (s.heap.node x).isSome
  idInj : Set.InjOn s.coroId A
  idBound : ∀ x ∈ A, s.coroId x < 2 ^ 31

/-- What the functions on the tree of timer nodes leave as it is. -/
structure SameCoros {α : Type} (s s' : SchedHeap α) : Prop where
  coroId : s'.coroId = s.coroId
  timeout : s'.timeout = s.timeout
  activeByTimeout : s'.activeByTimeout = s.activeByTimeout
  active : s'.active = s.active

theorem SameCoros.refl {α : Type} (s : SchedHeap α) : SameCoros s s := ⟨rfl, rfl, rfl, rfl⟩

theorem SameCoros.heap {α : Type} (s : SchedHeap α) (m : RbHeap TreeRoot) :
    SameCoros s { s with heap := m } :=
  ⟨rfl, rfl, rfl, rfl⟩

section Timers

variable {α : Type} {A : Finset Addr} {s s' : SchedHeap α} {timers timers' t : ColorTree Addr}
  {coros coros' : Addr → ColorTree Addr} {inactive inactive' : ColorTree TimerNode} {tm coro : Addr}
  {fuel : ℕ}

/-! ## Fuel -/

theorem length_le_corosOf {tms : List Addr} (h : ∀ tm ∈ tms, coros tm ≠ nil) :
    tms.length ≤ (corosOf coros tms).length := by
  induction tms with
  | nil => exact le_rfl
  | cons tm tms ih =>
    rw [List.forall_mem_cons] at h
    have hrest := ih h.2
    have hpos : 0 < (coros tm).toList.length := by
      cases hc : coros tm with
      | nil => exact absurd hc h.1
      | node c l x r => simp
    rw [corosOf_cons, List.length_append, List.length_cons]
    omega

/-- The number of coroutines bounds the fuel that all searches and loops need. -/
theorem HoldsTimers.fuel_le (h : HoldsTimers A s timers coros inactive)
    (hfuel : 2 * A.card + 2 ≤ fuel) :
    (timers.toList ++ corosOf coros timers.toList).length + 2 ≤ fuel := by
  have hcoros : (corosOf coros timers.toList).length ≤ A.card := by
    rw [← List.toFinset_card_of_nodup (List.nodup_append.mp h.apart).2.1]
    exact Finset.card_le_card fun x hx => h.members x (List.mem_toFinset.mp hx)
  have htimers := length_le_corosOf h.filled
  rw [List.length_append]
  omega

theorem HoldsTimers.mono (h : HoldsTimers A s timers coros inactive) (hsame : SameCoros s s')
    (hlevels : TwoLevel s' timers' coros') (htrees : inactive' = timers'.map (s'.timerNode coros'))
    (hmembers : ∀ x ∈ corosOf coros' timers'.toList, x ∈ A)
    (htimers : ∀ tm ∈ timers'.toList, tm ∉ A) (hfilled : ∀ tm ∈ timers'.toList, coros' tm ≠ nil)
    (hkept : ∀ x ∈ A, (s.heap.node x).isSome → (s'.heap.node x).isSome) :
    HoldsTimers A s' timers' coros' inactive' where
  toTwoLevel := hlevels
  same := htrees
  members := hmembers
  notCoro := htimers
  filled := hfilled
  isNode := h.isNode
  inUse x hx := hkept x hx (h.inUse x hx)
  idInj := by
    rw [hsame.coroId]
    exact h.idInj
  idBound x hx := by
    rw [hsame.coroId]
    exact h.idBound x hx

theorem not_mem_rest {c : Color} {l r : ColorTree Addr} {up : List (Crumb Addr)}
    (hnodup : (plug (node c l tm r) up).toList.Nodup) :
    ∀ x ∈ l.toList ++ (r.toList ++ pathList up), x ≠ tm := by
  have hperm : (plug (node c l tm r) up).toList.Perm
      (tm :: (l.toList ++ (r.toList ++ pathList up))) := by
    refine (toList_plug_perm _ up).trans ?_
    rw [toList_node, List.append_assoc, List.cons_append]
    exact List.perm_middle
  rintro x hx rfl
  exact (List.nodup_cons.mp (hperm.nodup_iff.mp hnodup)).1 hx

theorem map_update_timer {c : Color} {l r : ColorTree Addr} {up : List (Crumb Addr)}
    (hplug : plug (node c l tm r) up = timers) (hnodup : timers.toList.Nodup) (m : RbHeap TreeRoot)
    (t : ColorTree Addr) :
    timers.map (SchedHeap.timerNode { s with heap := m } (Function.update coros tm t)) =
      plug (node c (l.map (s.timerNode coros)) ⟨s.timerTimeout tm, t.map s.coroId⟩
        (r.map (s.timerNode coros))) (up.map (Crumb.map (s.timerNode coros))) := by
  subst hplug
  rw [map_plug_node (g := s.timerNode coros)]
  · rw [SchedHeap.timerNode, Function.update_self]
  · intro x hx
    have hne := not_mem_rest hnodup x hx
    rw [SchedHeap.timerNode, Function.update_of_ne hne]
    rfl

theorem HoldsTimers.updateTimer (h : HoldsTimers A s timers coros inactive) {c : Color}
    {l r : ColorTree Addr} {up : List (Crumb Addr)} (hplug : plug (node c l tm r) up = timers)
    {m : RbHeap TreeRoot}
    (hlevels : TwoLevel { s with heap := m } timers (Function.update coros tm t))
    (hne : t ≠ nil) (hmem : ∀ x ∈ t.toList, x ∈ A)
    (hkept : ∀ x, (s.heap.node x).isSome → (m.node x).isSome) :
    HoldsTimers A { s with heap := m } timers (Function.update coros tm t)
      (plug (node c (l.map (s.timerNode coros)) ⟨s.timerTimeout tm, t.map s.coroId⟩
        (r.map (s.timerNode coros))) (up.map (Crumb.map (s.timerNode coros)))) := by
  refine h.mono (.heap s m) hlevels
    (map_update_timer hplug h.timerTree.nodup m t).symm ?_ h.notCoro ?_ fun x _ => hkept x
  · intro x hx
    obtain ⟨tm', htm', hx⟩ := mem_corosOf.mp hx
    by_cases heq : tm' = tm
    · rw [heq, Function.update_self] at hx
      exact hmem x hx
    · rw [Function.update_of_ne heq] at hx
      exact h.members x (mem_corosOf.mpr ⟨tm', htm', hx⟩)
  · intro tm' htm'
    by_cases heq : tm' = tm
    · rwa [heq, Function.update_self]
    · rw [Function.update_of_ne heq]
      exact h.filled tm' htm'

/-! ## Insertion -/

theorem addToTimerNode_map {up : List (Crumb Addr)}
    (hdesc : descend (s.idDirection coro) t [] = (nil, up)) :
    addToTimerNode (t.map s.coroId) (s.coroId coro) = (RbTree.rbInsert coro up).map s.coroId := by
  have hmap := descend_renamed s.coroId
    (fun each : ℕ => linkDirection (toInt32 (s.coroId coro - each))) hdesc
  rw [addToTimerNode, hmap, RbTree.map_rbInsert]

theorem timeoutDirection_map (coros : Addr → ColorTree Addr) {up : List (Crumb Addr)}
    (hdesc : descend (s.timeoutDirection coro) timers [] = (t, up)) :
    descend (fun tm => direction (toInt32 (s.timeout coro - tm.timeout)))
        (timers.map (s.timerNode coros)) [] =
      (t.map (s.timerNode coros), up.map (Crumb.map (s.timerNode coros))) :=
  descend_renamed (s.timerNode coros)
    (fun tm : TimerNode => direction (toInt32 (s.timeout coro - tm.timeout))) hdesc

theorem rbInsert_ne_nil (x : Addr) (up : List (Crumb Addr)) : RbTree.rbInsert x up ≠ nil := by
  intro heq
  have hlist := congrArg toList heq
  simp at hlist

theorem mem_rbInsert {x y : Addr} {up : List (Crumb Addr)} (hplug : plug nil up = t) :
    y ∈ (RbTree.rbInsert x up).toList ↔ y = x ∨ y ∈ t.toList := by
  rw [(RbTree.rbInsert_perm x hplug).mem_iff, List.mem_cons]

theorem HoldsTimers.newTimer (h : HoldsTimers A s timers coros inactive) {tmp : Addr}
    (hnode : IsNode tmp) (hfree : s.heap.node tmp = none) : New timers coros tmp := by
  refine ⟨hnode, fun hmem => ?_⟩
  have hsome : (s.heap.node tmp).isSome := by
    rcases List.mem_append.mp hmem with hmem | hmem
    · exact h.timerTree.nodes.isSome hmem
    · exact h.inUse tmp (h.members tmp hmem)
  simp [hfree] at hsome

theorem HoldsTimers.newCoro (h : HoldsTimers A s timers coros inactive) (hcoro : coro ∈ A)
    (hout : coro ∉ corosOf coros timers.toList) : New timers coros coro := by
  refine ⟨h.isNode coro hcoro, fun hmem => ?_⟩
  rcases List.mem_append.mp hmem with hmem | hmem
  · exact h.notCoro coro hmem hcoro
  · exact hout hmem

theorem HoldsTimers.moveToTimer (h : HoldsTimers A s timers coros inactive) (hcoro : coro ∈ A)
    (hnew : New timers coros coro)
    (hfuel : (timers.toList ++ corosOf coros timers.toList).length + 2 ≤ fuel) {c : Color}
    {l r : ColorTree Addr} {up : List (Crumb Addr)}
    (hdesc : descend (s.timeoutDirection coro) timers [] = (node c l tm r, up))
    (alloc : Option (Addr × RbNode)) :
    ∃ s' timers' coros', s.moveToInactiveTree fuel coro alloc = some s' ∧ SameCoros s s' ∧
      HoldsTimers A s' timers' coros'
        (Coro.moveToInactiveTree inactive (s.coroId coro) (s.timeout coro) alloc.isSome) := by
  have hplug := (descend_node hdesc).2
  have htm := mem_of_descend hdesc
  have hnull : tm ≠ NULL := (h.timerTree.isNode tm htm).1
  obtain ⟨m, up', hadd, hdesc', h', hkept⟩ := h.addToTimerNode htm hnew (h.inUse coro hcoro) hfuel
  have htree := timeoutDirection_map coros hdesc
  have hmem : ∀ x ∈ (RbTree.rbInsert coro up').toList, x ∈ A := by
    intro x hx
    rcases (mem_rbInsert (descend_nil hdesc')).mp hx with rfl | hx
    · exact hcoro
    · exact h.members x (mem_corosOf.mpr ⟨tm, htm, hx⟩)
  refine ⟨{ s with heap := m }, timers, Function.update coros tm (RbTree.rbInsert coro up'), ?_,
    .heap s m, ?_⟩
  · have hplace := h.searchTimer coro hfuel
    rw [hdesc] at hplace
    simp only [SchedHeap.moveToInactiveTree, hplace, Option.bind_eq_bind, Option.bind_some, addr,
      ne_eq, hnull, not_false_eq_true, if_true, hadd]
  · have hupdate := h.updateTimer hplug h' (rbInsert_ne_nil coro up') hmem hkept
    rw [h.same, Coro.moveToInactiveTree, htree]
    rw [← addToTimerNode_map hdesc'] at hupdate
    exact hupdate

theorem HoldsTimers.moveToNewTimer (h : HoldsTimers A s timers coros inactive) (hcoro : coro ∈ A)
    (hnew : New timers coros coro)
    (hfuel : (timers.toList ++ corosOf coros timers.toList).length + 2 ≤ fuel)
    {up : List (Crumb Addr)} (hdesc : descend (s.timeoutDirection coro) timers [] = (nil, up))
    {tmp : Addr} (hnode : IsNode tmp) (hfree : s.heap.node tmp = none) (old : RbNode) :
    ∃ s' timers' coros', s.moveToInactiveTree fuel coro (some (tmp, old)) = some s' ∧
      SameCoros s s' ∧ HoldsTimers A s' timers' coros'
        (Coro.moveToInactiveTree inactive (s.coroId coro) (s.timeout coro) true) := by
  have htmp := h.newTimer hnode hfree
  have htmpA : tmp ∉ A := fun hmem => by simpa [hfree] using h.inUse tmp hmem
  have hne : tmp ≠ coro := fun heq => htmpA (heq ▸ hcoro)
  obtain ⟨s', hmove, hs', h', hkept⟩ :=
    h.insertTimer hdesc hnew (h.inUse coro hcoro) htmp hne hfuel old
  have hout : tmp ∉ timers.toList := fun hmem => htmp.not_mem (List.mem_append_left _ hmem)
  have hsame : SameCoros s s' := by
    rw [hs']
    exact ⟨rfl, rfl, rfl, rfl⟩
  have hcases : ∀ tm ∈ (RbTree.rbInsert tmp up).toList, tm = tmp ∨ tm ∈ timers.toList :=
    fun tm hmem => (mem_rbInsert (descend_nil hdesc)).mp hmem
  have hother : ∀ tm ∈ timers.toList,
      Function.update coros tmp (RbTree.rbInsert coro []) tm = coros tm := by
    intro tm htm
    have hne : tm ≠ tmp := fun heq => hout (heq ▸ htm)
    exact Function.update_of_ne hne ..
  refine ⟨s', _, _, hmove, hsame, h.mono hsame h' ?_ ?_ ?_ ?_ fun x _ => hkept x⟩
  · have htimeout : s'.timerTimeout = Function.update s.timerTimeout tmp (s.timeout coro) := by
      rw [hs']
    have hpath : ∀ tm ∈ pathList up, s'.timerNode
        (Function.update coros tmp (RbTree.rbInsert coro [])) tm = s.timerNode coros tm := by
      intro tm htm
      have hmem : tm ∈ timers.toList := by
        rw [← descend_nil hdesc, (toList_plug_perm nil up).mem_iff]
        simpa using htm
      have hne : tm ≠ tmp := fun heq => hout (heq ▸ hmem)
      rw [SchedHeap.timerNode, hother tm hmem, htimeout, hsame.coroId, Function.update_of_ne hne]
      rfl
    have hnode : s'.timerNode (Function.update coros tmp (RbTree.rbInsert coro [])) tmp =
        ⟨s.timeout coro, Coro.addToTimerNode nil (s.coroId coro)⟩ := by
      rw [SchedHeap.timerNode, htimeout, hsame.coroId, Function.update_self, Function.update_self]
      exact congrArg (TimerNode.mk _) (addToTimerNode_map (t := nil) rfl).symm
    rw [RbTree.map_rbInsert, crumbs_map_congr _ hpath, hnode, h.same, Coro.moveToInactiveTree,
      timeoutDirection_map coros hdesc]
    rfl
  · intro x hx
    obtain ⟨tm, htm, hx⟩ := mem_corosOf.mp hx
    rcases hcases tm htm with rfl | htm
    · rw [Function.update_self, mem_rbInsert (t := nil) rfl] at hx
      simp only [toList_nil, List.not_mem_nil, or_false] at hx
      exact hx ▸ hcoro
    · rw [hother tm htm] at hx
      exact h.members x (mem_corosOf.mpr ⟨tm, htm, hx⟩)
  · intro tm htm
    rcases hcases tm htm with rfl | htm
    · exact htmpA
    · exact h.notCoro tm htm
  · intro tm htm
    rcases hcases tm htm with rfl | htm
    · rw [Function.update_self]
      exact rbInsert_ne_nil coro []
    · rw [hother tm htm]
      exact h.filled tm htm

/-- `move_to_inactive_tree` in memory does what it does on the tree of timer nodes. -/
theorem HoldsTimers.moveToInactiveTree (h : HoldsTimers A s timers coros inactive)
    (hcoro : coro ∈ A) (hout : coro ∉ corosOf coros timers.toList) (hfuel : 2 * A.card + 2 ≤ fuel)
    {alloc : Option (Addr × RbNode)}
    (halloc : ∀ tmp old, alloc = some (tmp, old) → IsNode tmp ∧ s.heap.node tmp = none) :
    ∃ s' timers' coros', s.moveToInactiveTree fuel coro alloc = some s' ∧ SameCoros s s' ∧
      HoldsTimers A s' timers' coros'
        (Coro.moveToInactiveTree inactive (s.coroId coro) (s.timeout coro) alloc.isSome) := by
  have hnew := h.newCoro hcoro hout
  have hfuel' := h.fuel_le hfuel
  obtain ⟨⟨f, up⟩, hdesc⟩ : ∃ z, descend (s.timeoutDirection coro) timers [] = z := ⟨_, rfl⟩
  cases f with
  | node c l tm r => exact h.moveToTimer hcoro hnew hfuel' hdesc alloc
  | nil =>
    cases alloc with
    | some a =>
      obtain ⟨hnode, hfree⟩ := halloc a.1 a.2 rfl
      exact h.moveToNewTimer hcoro hnew hfuel' hdesc hnode hfree a.2
    | none =>
      refine ⟨s, timers, coros, ?_, .refl s, ?_⟩
      · have hplace := h.searchTimer coro hfuel'
        rw [hdesc] at hplace
        simp [SchedHeap.moveToInactiveTree, hplace, addr]
      · rw [h.same, Coro.moveToInactiveTree, timeoutDirection_map coros hdesc]
        simpa [← h.same] using h

/-! ## Removal -/

/-- The coroutine that `find_in_timer` finds under an id is the one with that id. -/
theorem HoldsTimers.found_eq (h : HoldsTimers A s timers coros inactive) (hcoro : coro ∈ A)
    (htm : tm ∈ timers.toList) {c : Color} {l r : ColorTree Addr} {x : Addr}
    {up : List (Crumb Addr)}
    (hdesc : descend (fun each => direction (toInt32 (s.coroId coro - s.coroId each))) (coros tm) [] =
      (node c l x r, up)) : x = coro := by
  obtain ⟨heq, hplug⟩ := descend_node hdesc
  have hx : x ∈ A := by
    refine h.members x (mem_corosOf.mpr ⟨tm, htm, ?_⟩)
    rw [← hplug, (toList_plug_perm _ up).mem_iff]
    simp
  have hlt := h.idBound coro hcoro
  have hlt' := h.idBound x hx
  rw [direction_eq, toInt32_of_range (by omega) (by omega)] at heq
  exact h.idInj hx hcoro (by omega)

theorem HoldsTimers.removeFromTimerNode (h : HoldsTimers A s timers coros inactive)
    (hcoro : coro ∈ A) (htm : tm ∈ timers.toList)
    (hfuel : (timers.toList ++ corosOf coros timers.toList).length + 2 ≤ fuel) :
    ∃ m t, s.removeFromTimerNode fuel tm coro = some { s with heap := m } ∧
      HoldsFrom s.heap { z | z ∈ (coros tm).toList } (.timer tm) t m ∧ t.RedBlack ∧
      t.map s.coroId = Coro.removeFromTimerNode ((coros tm).map s.coroId) (s.coroId coro) := by
  have hlength := length_coros_le coros htm
  have htree := h.coroTree tm htm
  obtain ⟨⟨f, up⟩, hdesc⟩ : ∃ z, descend
      (fun each => direction (toInt32 (s.coroId coro - s.coroId each))) (coros tm) [] = z := ⟨_, rfl⟩
  have hfind : s.findInTimer fuel tm (s.coroId coro) = some (addr f) := by
    have hsearch := searchNode_eq (show Holds s.heap (.timer tm) (plug (coros tm) []) from htree)
      (fun each => direction (toInt32 (s.coroId coro - s.coroId each)))
      (show (coros tm).toList.length < fuel by omega)
    rw [hdesc, ← htree.root] at hsearch
    exact hsearch
  have hids : findInTimer ((coros tm).map s.coroId) (s.coroId coro) =
      (f.map s.coroId, up.map (Crumb.map s.coroId)) :=
    descend_renamed s.coroId
      (fun each : ℕ => direction (toInt32 (s.coroId coro - each))) hdesc
  cases f with
  | nil =>
    refine ⟨s.heap, coros tm, ?_, ?_, h.corosRedBlack tm htm, ?_⟩
    · simp [SchedHeap.removeFromTimerNode, hfind, addr]
    · exact ⟨htree, fun _ hx => hx, fun x hx => htree.nodes.isSome hx, fun _ _ => rfl, fun _ _ => rfl⟩
    · rw [Coro.removeFromTimerNode, hids]
      rfl
  | node c l x r =>
    obtain rfl := h.found_eq hcoro htm hdesc
    have hplug := (descend_node hdesc).2
    obtain ⟨m, herase, h'⟩ := (hplug ▸ htree).rbErase (hplug ▸ h.corosRedBlack tm htm)
      (show _ ≤ fuel by rw [hplug]; omega)
    rw [hplug] at h'
    have hnull : x ≠ NULL := (h.isNode x hcoro).1
    refine ⟨m, _, ?_, h', RbTree.rbErase_redBlack (hplug ▸ h.corosRedBlack tm htm), ?_⟩
    · simp [SchedHeap.removeFromTimerNode, hfind, addr, hnull, herase]
    · rw [Coro.removeFromTimerNode, hids, RbTree.map_rbErase]
      rfl

theorem HoldsTimers.freeTimer (h : HoldsTimers A s timers coros inactive) {c : Color}
    {l r : ColorTree Addr} {up : List (Crumb Addr)} (hplug : plug (node c l tm r) up = timers)
    {m : RbHeap TreeRoot}
    (hlevels : TwoLevel { s with heap := m } timers (Function.update coros tm nil))
    (hkept : ∀ x, (s.heap.node x).isSome → (m.node x).isSome)
    (hfuel : (timers.toList ++ corosOf coros timers.toList).length + 2 ≤ fuel) :
    ∃ m' s', m.rbErase fuel tm .inactive = some m' ∧
      SchedHeap.memcacheFree { s with heap := m' } tm = some s' ∧ SameCoros s s' ∧
      HoldsTimers A s' (RbTree.rbErase (node c l tm r) up) (Function.update coros tm nil)
        (RbTree.rbErase ((node c l tm r).map (s.timerNode coros))
          (up.map (Crumb.map (s.timerNode coros)))) := by
  have hperm := RbTree.toList_plug_rbErase c l tm r up
  rw [hplug] at hperm
  have htm : tm ∈ timers.toList := hperm.mem_iff.mpr (by simp)
  have hrest : ∀ x ∈ (RbTree.rbErase (node c l tm r) up).toList, x ∈ timers.toList ∧ x ≠ tm := by
    intro x hx
    refine ⟨hperm.mem_iff.mpr (by simp [hx]), ?_⟩
    rintro rfl
    exact (List.nodup_cons.mp (hperm.nodup_iff.mp h.timerTree.nodup)).1 hx
  have hother : ∀ x ∈ (RbTree.rbErase (node c l tm r) up).toList,
      Function.update coros tm nil x = coros x := by
    intro x hx
    exact Function.update_of_ne (hrest x hx).2 ..
  simp only [List.length_append] at hfuel
  obtain ⟨m', herase, h'⟩ := (hplug ▸ hlevels.timerTree).rbErase (hplug ▸ h.timersRedBlack)
    (show _ ≤ fuel by rw [hplug]; omega)
  rw [hplug] at h'
  obtain ⟨n, hn⟩ := Option.isSome_iff_exists.mp (h'.inUse tm htm)
  have hload : m'.load tm = some n :=
    (RbHeap.load_eq (h.timerTree.isNode tm htm).1).trans hn
  refine ⟨m', { s with
    heap := { m' with node := Function.update m'.node tm none }
    freed := s.freed ++ [tm] }, herase, by simp [SchedHeap.memcacheFree, hload], ⟨rfl, rfl, rfl, rfl⟩,
    ?_⟩
  refine h.mono ⟨rfl, rfl, rfl, rfl⟩ ?_ ?_ ?_ ?_ ?_ ?_
  · refine hlevels.dropTimer hplug rfl h'.toHolds fun x hx hne => ?_
    exact h'.frame (hlevels.coroTree x hx) (by simp) fun z hz => (hlevels.not_mem hx hz).1
  · rw [← RbTree.map_rbErase]
    apply ColorTree.map_congr
    intro x hx
    rw [SchedHeap.timerNode, SchedHeap.timerNode, hother x hx]
  · intro x hx
    obtain ⟨tm', htm', hx⟩ := mem_corosOf.mp hx
    rw [hother tm' htm'] at hx
    exact h.members x (mem_corosOf.mpr ⟨tm', (hrest tm' htm').1, hx⟩)
  · exact fun x hx => h.notCoro x (hrest x hx).1
  · intro x hx
    rw [hother x hx]
    exact h.filled x (hrest x hx).1
  · intro x hx hsome
    have hne : x ≠ tm := fun heq => h.notCoro tm htm (heq ▸ hx)
    have hsame : Function.update m'.node tm none x = m'.node x := Function.update_of_ne hne ..
    exact (congrArg Option.isSome hsame).trans (h'.kept (hkept x hsome))

/-- `remove_from_inactive_tree` in memory does what it does on the tree of timer nodes. -/
theorem HoldsTimers.removeFromInactiveTree (h : HoldsTimers A s timers coros inactive)
    (hcoro : coro ∈ A) (hfuel : 2 * A.card + 2 ≤ fuel) :
    ∃ s' timers' coros', s.removeFromInactiveTree fuel coro = some s' ∧ SameCoros s s' ∧
      HoldsTimers A s' timers' coros'
        (Coro.removeFromInactiveTree inactive (s.coroId coro) (s.timeout coro)) := by
  have hfuel' := h.fuel_le hfuel
  obtain ⟨⟨f, up⟩, hdesc⟩ : ∃ z, descend
      (fun tm => direction (toInt64 (s.timeout coro - s.timerTimeout tm))) timers [] = z := ⟨_, rfl⟩
  have hfind : s.findTimerNode fuel (s.timeout coro) = some (addr f) := by
    rw [List.length_append] at hfuel'
    have hsearch := searchNode_eq (show Holds s.heap .inactive (plug timers []) from h.timerTree)
      (fun tm => direction (toInt64 (s.timeout coro - s.timerTimeout tm)))
      (show timers.toList.length < fuel by omega)
    rw [hdesc, ← h.timerTree.root] at hsearch
    exact hsearch
  have htree : findTimerNode inactive (s.timeout coro) =
      (f.map (s.timerNode coros), up.map (Crumb.map (s.timerNode coros))) := by
    rw [h.same]
    exact descend_renamed (s.timerNode coros)
      (fun tm : TimerNode => direction (toInt64 (s.timeout coro - tm.timeout))) hdesc
  cases f with
  | nil =>
    refine ⟨s, timers, coros, ?_, .refl s, ?_⟩
    · simp [SchedHeap.removeFromInactiveTree, hfind, addr]
    · rw [Coro.removeFromInactiveTree, htree]
      exact h
  | node c l tm r =>
    have hplug := (descend_node hdesc).2
    have htm := mem_of_descend hdesc
    have hnull : tm ≠ NULL := (h.timerTree.isNode tm htm).1
    obtain ⟨m, t, hremove, h', hrb, hids⟩ := h.removeFromTimerNode hcoro htm hfuel'
    have hlevels := h.update htm h' hrb fun x hx => h.not_mem htm hx
    have hinner : Coro.removeFromTimerNode (s.timerNode coros tm).root (s.coroId coro) =
        t.map s.coroId := hids.symm
    rw [Coro.removeFromInactiveTree, htree]
    simp only [map_node, hinner]
    cases t with
    | nil =>
      obtain ⟨m', s', herase, hfree, hsame, hholds⟩ :=
        h.freeTimer hplug hlevels (fun x hx => h'.kept hx) hfuel'
      refine ⟨s', _, _, ?_, hsame, hholds⟩
      have hroot : m.root (.timer tm) = NULL := h'.root
      simp [SchedHeap.removeFromInactiveTree, hfind, addr, hnull, hremove, hroot, herase, hfree]
    | node c' l' x r' =>
      refine ⟨{ s with heap := m }, timers, _, ?_, .heap s m,
        h.updateTimer hplug hlevels (by simp) (fun y hy => ?_) fun x hx => h'.kept hx⟩
      · have hroot : m.root (.timer tm) ≠ NULL := by
          rw [h'.root]
          exact (h'.isNode x (by simp)).1
        simp [SchedHeap.removeFromInactiveTree, hfind, addr, hnull, hremove, hroot]
      · exact h.members y (mem_corosOf.mpr ⟨tm, htm, h'.inside y hy⟩)

theorem HoldsTimers.congr (h : HoldsTimers A s timers coros inactive) (hheap : s'.heap = s.heap)
    (htimeout : s'.timerTimeout = s.timerTimeout) (hid : s'.coroId = s.coroId) :
    HoldsTimers A s' timers coros inactive := by
  obtain ⟨heap, timerTimeout, coroId, timeout, activeByTimeout, active, freed⟩ := s'
  obtain rfl : heap = s.heap := hheap
  obtain rfl : timerTimeout = s.timerTimeout := htimeout
  obtain rfl : coroId = s.coroId := hid
  exact ⟨⟨h.timerTree, h.coroTree, h.timersRedBlack, h.corosRedBlack, h.apart⟩, h.same, h.members,
    h.notCoro, h.filled, h.isNode, h.inUse, h.idInj, h.idBound⟩

theorem HoldsTimers.members_eq (h : HoldsTimers A s timers coros inactive) :
    Coro.members inactive.toList = (corosOf coros timers.toList).map s.coroId := by
  rw [h.same, toList_map, Coro.members, corosOf, List.flatMap_map, List.map_flatMap]
  apply List.flatMap_congr
  intro tm _
  exact toList_map s.coroId (coros tm)

/-- The trees do not depend on the other coroutines, of which there may be more. -/
theorem HoldsTimers.frame {A' : Finset Addr} (h : HoldsTimers A s timers coros inactive)
    (hA : A ⊆ A') (hroot : s'.heap.root = s.heap.root)
    (hnode : ∀ x ∈ timers.toList ++ corosOf coros timers.toList, s'.heap.node x = s.heap.node x)
    (htimeout : s'.timerTimeout = s.timerTimeout) (hid : ∀ x ∈ A, s'.coroId x = s.coroId x)
    (hnew : ∀ x ∈ A', x ∉ A → s.heap.node x = none) (hisNode : ∀ x ∈ A', IsNode x)
    (hinUse : ∀ x ∈ A', (s'.heap.node x).isSome = true) (hinj : Set.InjOn s'.coroId A')
    (hbound : ∀ x ∈ A', s'.coroId x < 2 ^ 31) : HoldsTimers A' s' timers coros inactive := by
  have hcoros : ∀ tm ∈ timers.toList, ∀ x ∈ (coros tm).toList, x ∈ corosOf coros timers.toList :=
    fun tm htm x hx => mem_corosOf.mpr ⟨tm, htm, hx⟩
  refine
    { timerTree := h.timerTree.congr (fun x hx => hnode x (by simp [hx])) (by rw [hroot])
      coroTree := fun tm htm => (h.coroTree tm htm).congr
        (fun x hx => hnode x (by simp [hcoros tm htm x hx])) (by rw [hroot])
      timersRedBlack := h.timersRedBlack
      corosRedBlack := h.corosRedBlack
      apart := h.apart
      same := ?_
      members := fun x hx => hA (h.members x hx)
      notCoro := ?_
      filled := h.filled
      isNode := hisNode
      inUse := hinUse
      idInj := hinj
      idBound := hbound }
  · rw [h.same]
    apply ColorTree.map_congr
    intro tm htm
    rw [SchedHeap.timerNode, SchedHeap.timerNode, htimeout]
    congr 1
    apply ColorTree.map_congr
    intro x hx
    exact (hid x (h.members x (hcoros tm htm x hx))).symm
  · intro tm htm hmem
    by_cases hold : tm ∈ A
    · exact h.notCoro tm htm hold
    · simpa [hnew tm hmem hold] using h.timerTree.nodes.isSome htm

theorem HoldsTimers.create (h : HoldsTimers A s timers coros inactive) (hnode : IsNode coro)
    (hfree : s.heap.node coro = none) (n : RbNode) {id : ℕ} (hid : ∀ x ∈ A, s.coroId x < id)
    (hbound : id < 2 ^ 31) (active : α) :
    HoldsTimers (insert coro A)
      { s with
        heap := s.heap.store coro n
        coroId := Function.update s.coroId coro id
        active := active } timers coros inactive := by
  have hnew : coro ∉ A := fun hmem => by simpa [hfree] using h.inUse coro hmem
  have hold : ∀ x ∈ A, x ≠ coro := fun x hx heq => hnew (heq ▸ hx)
  have hsame : ∀ x ∈ A, Function.update s.coroId coro id x = s.coroId x :=
    fun x hx => Function.update_of_ne (hold x hx) ..
  refine h.frame (Finset.subset_insert coro A) rfl ?_ rfl hsame ?_ ?_ ?_ ?_ ?_
  · intro x hx
    refine Function.update_of_ne (fun heq => ?_) ..
    subst heq
    rcases List.mem_append.mp hx with hx | hx
    · simpa [hfree] using h.timerTree.nodes.isSome hx
    · exact hnew (h.members x hx)
  · intro x hx hnx
    rcases Finset.mem_insert.mp hx with rfl | hx
    · exact hfree
    · exact absurd hx hnx
  · exact Finset.forall_mem_insert _ _ _ |>.mpr ⟨hnode, h.isNode⟩
  · rw [Finset.forall_mem_insert]
    refine ⟨by simp [RbHeap.store], fun x hx => ?_⟩
    have hkept : (s.heap.store coro n).node x = s.heap.node x :=
      Function.update_of_ne (hold x hx) ..
    dsimp only
    rw [hkept]
    exact h.inUse x hx
  · rw [Finset.coe_insert, Set.injOn_insert hnew]
    dsimp only
    refine ⟨h.idInj.congr fun x hx => (hsame x hx).symm, ?_⟩
    rintro ⟨x, hx, heq⟩
    rw [hsame x hx, Function.update_self] at heq
    exact (hid x hx).ne heq
  · dsimp only
    rw [Finset.forall_mem_insert, Function.update_self]
    refine ⟨hbound, fun x hx => ?_⟩
    rw [hsame x hx]
    exact h.idBound x hx

theorem HoldsTimers.empty (hroot : s.heap.root .inactive = NULL) :
    HoldsTimers ∅ s nil (fun _ => nil) nil := by
  have hlevels : TwoLevel s nil fun _ => nil :=
    ⟨⟨hroot, trivial, List.nodup_nil, by simp⟩, by simp, redBlack_nil, by simp, List.nodup_nil⟩
  exact ⟨hlevels, rfl, by simp [corosOf], by simp, by simp, by simp, by simp, by simp, by simp⟩

end Timers

/-! ## Expiry -/

section Check

variable {α : Type} {A : Finset Addr} {s : SchedHeap α} {timers : ColorTree Addr}
  {coros : Addr → ColorTree Addr} {σ : Sched} {fuel : ℕ}

theorem expire_setFlags (hid : Set.InjOn s.coroId A) {xs : List Addr} (hxs : ∀ x ∈ xs, x ∈ A)
    (hold : ∀ x ∈ A, σ.coro (s.coroId x) = ⟨s.timeout x, s.activeByTimeout x⟩) :
    ∀ x ∈ A, expire (xs.map s.coroId) σ.coro (s.coroId x) =
      ⟨s.timeout x, setFlags xs s.activeByTimeout x⟩ := by
  intro x hx
  have hmem : s.coroId x ∈ xs.map s.coroId ↔ x ∈ xs := by
    constructor
    · intro h
      obtain ⟨y, hy, heq⟩ := List.mem_map.mp h
      exact hid (hxs y hy) hx heq ▸ hy
    · exact fun h => List.mem_map_of_mem h
  unfold expire setFlags
  simp only [hmem, hold x hx]
  split_ifs <;> rfl

/-- On the tree of timer nodes the loop takes the timer nodes that it takes in memory. -/
theorem HoldsTimers.expired_same (h : HoldsTimers A s timers coros σ.inactive) (now : ℤ)
    {timers' : ColorTree Addr} {tms : List Addr}
    (hdrop : timers' = RbTree.dropDue (fun tm => s.timerTimeout tm ≤ now) timers)
    (hlist : timers.toList = tms ++ timers'.toList) :
    σ.checkTimeoutCoroutine now =
      { σ with
        inactive := timers'.map (s.timerNode coros)
        active := σ.active ++ (tms.flatMap fun tm => RbTree.rootOrder (coros tm)).map s.coroId
        coro := expire ((tms.flatMap fun tm => RbTree.rootOrder (coros tm)).map s.coroId) σ.coro } := by
  obtain ⟨expired, inactive, hσ, hsplit, -, -⟩ := σ.checkTimeoutCoroutine_spec now
  have hinactive : inactive = timers'.map (s.timerNode coros) := by
    have hinactive := σ.checkTimeoutCoroutine_inactive now
    rw [hσ, h.same, RbTree.dropDue_map] at hinactive
    rw [hdrop]
    exact hinactive
  have hexpired : expired = tms.map (s.timerNode coros) := by
    rw [h.same, hinactive, toList_map, toList_map, hlist, List.map_append] at hsplit
    exact (List.append_cancel_right hsplit).symm
  have horder : (expired.flatMap fun tm => RbTree.rootOrder tm.root) =
      (tms.flatMap fun tm => RbTree.rootOrder (coros tm)).map s.coroId := by
    rw [hexpired, List.flatMap_map, List.map_flatMap]
    apply List.flatMap_congr
    intro tm _
    exact RbTree.rootOrder_map s.coroId (coros tm)
  rw [hσ, hinactive, horder]

/-- `check_timeout_coroutine` in memory does what it does on the tree of timer nodes, if the active
list can take all coroutines that wait. -/
theorem HoldsTimers.checkTimeoutCoroutine [ActiveList α]
    (h : HoldsTimers A s timers coros σ.inactive)
    (hcoro : ∀ x ∈ A, σ.coro (s.coroId x) = ⟨s.timeout x, s.activeByTimeout x⟩)
    (hfuel : 2 * A.card + 2 ≤ fuel) (now : ℤ)
    (hadd : ∀ due : List Addr, due.Perm (corosOf coros timers.toList) →
      (addAll s.active due).isSome = true) :
    ∃ s' timers' due, SchedHeap.checkTimeoutCoroutine fuel now fuel s = some s' ∧
      s'.coroId = s.coroId ∧ addAll s.active due = some s'.active ∧ due.Nodup ∧
      (∀ x ∈ due, x ∈ corosOf coros timers.toList) ∧
      (σ.checkTimeoutCoroutine now).active = σ.active ++ due.map s.coroId ∧
      HoldsTimers A s' timers' coros (σ.checkTimeoutCoroutine now).inactive ∧
      ∀ x ∈ A, (σ.checkTimeoutCoroutine now).coro (s.coroId x) =
        ⟨s'.timeout x, s'.activeByTimeout x⟩ := by
  have hfuel' := h.fuel_le hfuel
  have hrounds : timers.toList.length < fuel := by
    rw [List.length_append] at hfuel'
    omega
  obtain ⟨s', timers', tms, hcheck, hdrop, h', hexp, hlist, -, -, hkept⟩ :=
    h.toTwoLevel.checkTimeoutCoroutine hfuel' hrounds now (hadd _ (rootOrder_corosOf coros _))
  have hsplit : corosOf coros timers.toList = corosOf coros tms ++ corosOf coros timers'.toList := by
    rw [hlist, corosOf_append]
  have hperm := rootOrder_corosOf coros tms
  have hdue : ∀ x ∈ tms.flatMap fun tm => RbTree.rootOrder (coros tm),
      x ∈ corosOf coros timers.toList := by
    intro x hx
    rw [hsplit]
    exact List.mem_append_left _ (hperm.mem_iff.mp hx)
  have hrest : ∀ tm ∈ timers'.toList, tm ∈ timers.toList := fun tm htm => by simp [hlist, htm]
  rw [h.expired_same now hdrop hlist]
  refine ⟨s', timers', _, hcheck, hexp.coroId, hexp.active, ?_, hdue, rfl, ?_, ?_⟩
  · have hnodup := (List.nodup_append.mp h.apart).2.1
    rw [hsplit] at hnodup
    exact hperm.nodup_iff.mpr (List.nodup_append.mp hnodup).1
  · have hnode : s'.timerNode coros = s.timerNode coros := by
      funext tm
      rw [SchedHeap.timerNode, SchedHeap.timerNode, hexp.timerTimeout, hexp.coroId]
    refine ⟨h', by rw [hnode], ?_, fun tm htm => h.notCoro tm (hrest tm htm),
      fun tm htm => h.filled tm (hrest tm htm), h.isNode, ?_, ?_, ?_⟩
    · intro x hx
      refine h.members x ?_
      rw [hsplit]
      exact List.mem_append_right _ hx
    · exact fun x hx => hkept x (fun hmem => h.notCoro x hmem hx) (h.inUse x hx)
    · rw [hexp.coroId]
      exact h.idInj
    · rw [hexp.coroId]
      exact h.idBound
  · rw [hexp.timeout, hexp.flags]
    exact expire_setFlags h.idInj (fun x hx => h.members x (hdue x hx)) hcoro

end Check

end Cserv.Coro
