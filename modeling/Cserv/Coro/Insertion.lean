import Cserv.Coro.TimerHeap

/-!
# Insertion into sorted trees

`add_to_timer_node` keeps the coroutines of a timer node sorted by their ids.
`move_to_inactive_tree` stores the difference of two timeouts in an `int`; it keeps the timer
nodes sorted by their timeouts if and only if that search finds a timer node or comes to the
place where the timeout belongs.
-/
namespace Cserv.Coro

open Foundations Util ColorTree

section Place

variable {α : Type*} {key : α → ℤ} {t : ColorTree α} {up : List (Crumb α)}

theorem descend_exact_iff (hsorted : SortedBy key t) (hplug : plug nil up = t) (k : ℤ) :
    descend (fun y => direction (k - key y)) t [] = (nil, up) ↔
      (∀ y ∈ before up, key y < k) ∧ ∀ y ∈ after up, k < key y := by
  constructor
  · intro hdesc
    have hup := descend_between (guides_exact key k hsorted) Between.nil
    rw [hdesc] at hup
    constructor
    · intro y hy
      have hgt := direction_gt.mp (hup.before y hy)
      omega
    · intro y hy
      have hlt := direction_lt.mp (hup.after y hy)
      omega
  · rintro ⟨hbefore, hafter⟩
    have hup : Between (fun y => direction (k - key y)) up := by
      constructor
      · intro y hy
        have hlt := hbefore y hy
        exact direction_gt.mpr (by omega)
      · intro y hy
        have hlt := hafter y hy
        exact direction_lt.mpr (by omega)
    rw [← hplug, descend_plug hup]
    rfl

/-- A new element keeps a tree sorted in the place of its key only. -/
theorem sortedBy_insert_iff [DecidableEq α] {x : α} (hsorted : SortedBy key t)
    (hplug : plug nil up = t) (hx : x ∉ t.toList) (k : ℤ) :
    SortedBy (Function.update key x k) (RbTree.rbInsert x up) ↔
      (∀ y ∈ before up, key y < k) ∧ ∀ y ∈ after up, k < key y := by
  have hlist : t.toList = before up ++ after up := by rw [← hplug, toList_plug]; simp
  have hold : ∀ y ∈ t.toList, Function.update key x k y = key y :=
    fun y hy => Function.update_of_ne (fun heq : y = x => hx (heq ▸ hy)) ..
  have hself : Function.update key x k x = k := Function.update_self ..
  have hkeys : (before up ++ after up).Pairwise
      fun a b => Function.update key x k a < Function.update key x k b := by
    rw [← hlist]
    apply List.Pairwise.imp_of_mem _ hsorted
    intro a b ha hb hab
    rwa [hold a ha, hold b hb]
  rw [SortedBy, RbTree.toList_rbInsert]
  constructor
  · intro h
    obtain ⟨-, ha, hba⟩ := List.pairwise_append.mp h
    constructor
    · intro y hy
      have hlt := hba y hy x (by simp)
      rwa [hself, hold y (by simp [hlist, hy])] at hlt
    · intro y hy
      have hlt := (List.pairwise_cons.mp ha).1 y hy
      rwa [hself, hold y (by simp [hlist, hy])] at hlt
  · rintro ⟨hbefore, hafter⟩
    apply sorted_between _ hkeys
    · intro y hy
      rw [hself, hold y (by simp [hlist, hy])]
      exact hbefore y hy
    · intro y hy
      rw [hself, hold y (by simp [hlist, hy])]
      exact hafter y hy

end Place

/-- A suspended coroutine is to be put into the sorted levels of `sched.inactive`. The ids are
those that `create_coroutine` gives. -/
structure Filing {α : Type} (s : SchedHeap α) (timers : ColorTree Addr) (coros : Addr → ColorTree Addr)
    (coro : Addr) : Prop where
  levels : TwoLevel s timers coros
  timersSorted : SortedBy s.timerTimeout timers
  corosSorted : ∀ tm ∈ timers.toList, SortedBy (fun x => s.coroId x) (coros tm)
  idBound : ∀ x ∈ coro :: corosOf coros timers.toList, s.coroId x < 2 ^ 31
  new : New timers coros coro
  idNew : ∀ x ∈ corosOf coros timers.toList, s.coroId x ≠ s.coroId coro
  inUse : (s.heap.node coro).isSome

section Insertion

variable {α : Type} {s : SchedHeap α} {timers : ColorTree Addr} {coros : Addr → ColorTree Addr}
  {tm coro : Addr} {fuel : ℕ}

theorem Filing.sorted_ids (h : Filing s timers coros coro) (htm : tm ∈ timers.toList)
    {up : List (Crumb Addr)} (hdesc : descend (s.idDirection coro) (coros tm) [] = (nil, up)) :
    SortedBy (fun x => s.coroId x) (RbTree.rbInsert coro up) := by
  have hlist : (coros tm).toList = before up ++ after up := by
    rw [← descend_nil hdesc, toList_plug]
    simp
  have hmem : ∀ x ∈ (coros tm).toList, x ∈ corosOf coros timers.toList :=
    fun x hx => mem_corosOf.mpr ⟨tm, htm, hx⟩
  have hdir : ∀ x ∈ (coros tm).toList,
      s.idDirection coro x = if s.coroId coro < s.coroId x then .lt else .gt := by
    intro x hx
    have hnear := Near.of_ids (h.idBound coro (by simp)) (h.idBound x (by simp [hmem x hx]))
    rw [SchedHeap.idDirection, hnear.toInt32, linkDirection]
    split_ifs <;> first | rfl | omega
  have hguide : Guides (s.idDirection coro) (coros tm).toList := by
    apply guides_of_sorted (fun x : Addr => (s.coroId x : ℤ)) (s.coroId coro) (h.corosSorted tm htm)
    · intro x hx
      rw [hdir x hx]
      split_ifs <;> simp_all
    · intro x hx hlt
      rw [hdir x hx, if_neg (by omega)]
  have hup := descend_between hguide Between.nil
  rw [hdesc] at hup
  rw [SortedBy, RbTree.toList_rbInsert]
  apply sorted_between
  · rw [← hlist]
    exact h.corosSorted tm htm
  · intro x hx
    have hx' : x ∈ (coros tm).toList := by simp [hlist, hx]
    have hgt := hup.before x hx
    have hne := h.idNew x (hmem x hx')
    rw [hdir x hx'] at hgt
    split_ifs at hgt
    omega
  · intro x hx
    have hlt := hup.after x hx
    rw [hdir x (by simp [hlist, hx])] at hlt
    split_ifs at hlt
    omega

theorem Filing.addToTimerNode (h : Filing s timers coros coro) (htm : tm ∈ timers.toList)
    (hfuel : (timers.toList ++ corosOf coros timers.toList).length + 2 ≤ fuel) :
    ∃ m t, s.addToTimerNode fuel tm coro = some { s with heap := m } ∧
      TwoLevel { s with heap := m } timers (Function.update coros tm t) ∧
      SortedBy (fun x => s.coroId x) t ∧ t.toList.Perm (coro :: (coros tm).toList) := by
  obtain ⟨m, up, hadd, hdesc, h', -⟩ := h.levels.addToTimerNode htm h.new h.inUse hfuel
  refine ⟨m, _, hadd, h', h.sorted_ids htm hdesc, ?_⟩
  rw [RbTree.toList_rbInsert, ← descend_nil hdesc]
  simp

/-- The 32-bit search of `move_to_inactive_tree` finds a timer node, or the place to which the
exact differences lead. -/
def SchedHeap.FindsPlace {α : Type} (s : SchedHeap α) (timers : ColorTree Addr) (coro : Addr) : Prop :=
  (descend (s.timeoutDirection coro) timers []).1 ≠ nil ∨
    descend (s.timeoutDirection coro) timers [] =
      descend (fun tm => direction (s.timeout coro - s.timerTimeout tm)) timers []

theorem findsPlace_of_near (h : ∀ tm ∈ timers.toList, Near (s.timeout coro) (s.timerTimeout tm)) :
    s.FindsPlace timers coro := by
  refine Or.inr (descend_congr fun tm htm => ?_)
  rw [SchedHeap.timeoutDirection, (h tm htm).toInt32]

theorem TwoLevel.searchTimer (h : TwoLevel s timers coros) (coro : Addr)
    (hfuel : (timers.toList ++ corosOf coros timers.toList).length + 2 ≤ fuel) :
    searchLink s.heap (fun tm => direction (toInt32 (s.timeout coro - s.timerTimeout tm))) fuel NULL
        (.root .inactive) =
      some (addr (descend (s.timeoutDirection coro) timers []).1,
        top (descend (s.timeoutDirection coro) timers []).2,
        endLink .inactive (descend (s.timeoutDirection coro) timers []).2) := by
  simp only [List.length_append] at hfuel
  exact searchLink_eq (show Holds s.heap .inactive (plug timers []) from h.timerTree)
    (s.timeoutDirection coro) (by omega)

theorem Filing.moveToInactiveTree_found (h : Filing s timers coros coro) {c : Color}
    {l r : ColorTree Addr} {up : List (Crumb Addr)}
    (hdesc : descend (s.timeoutDirection coro) timers [] = (node c l tm r, up))
    (hfuel : (timers.toList ++ corosOf coros timers.toList).length + 2 ≤ fuel)
    (alloc : Option (Addr × RbNode)) :
    ∃ s' coros', s.moveToInactiveTree fuel coro alloc = some s' ∧ TwoLevel s' timers coros' ∧
      (∀ tm ∈ timers.toList, SortedBy (fun x => s'.coroId x) (coros' tm)) ∧
      (corosOf coros' timers.toList).Perm (coro :: corosOf coros timers.toList) ∧
      SortedBy s'.timerTimeout timers := by
  have htm := mem_of_descend hdesc
  have hnull : tm ≠ NULL := (h.levels.timerTree.isNode tm htm).1
  obtain ⟨m, t, hadd, h', hsorted, hperm⟩ := h.addToTimerNode htm hfuel
  refine ⟨{ s with heap := m }, Function.update coros tm t, ?_, h', fun tm' htm' => ?_, ?_,
    h.timersSorted⟩
  · have hplace := h.levels.searchTimer coro hfuel
    rw [hdesc] at hplace
    simp only [SchedHeap.moveToInactiveTree, hplace, Option.bind_eq_bind, Option.bind_some, addr,
      ne_eq, hnull, not_false_eq_true, if_true, hadd]
  · by_cases heq : tm' = tm
    · subst heq
      rwa [Function.update_self]
    · rw [Function.update_of_ne heq]
      exact h.corosSorted tm' htm'
  · have hnew := corosOf_erase (Function.update coros tm t) htm
    rw [Function.update_self, corosOf_update h.levels.timerTree.nodup.not_mem_erase] at hnew
    exact hnew.trans ((hperm.append_right _).trans ((corosOf_erase coros htm).symm.cons coro))

/-- A new timer node gets the coroutine. It is in its place if the search was. -/
theorem Filing.moveToInactiveTree_new (h : Filing s timers coros coro) {up : List (Crumb Addr)}
    (hdesc : descend (s.timeoutDirection coro) timers [] = (nil, up)) {tmp : Addr}
    (htmp : New timers coros tmp) (hne : tmp ≠ coro)
    (hfuel : (timers.toList ++ corosOf coros timers.toList).length + 2 ≤ fuel) (old : RbNode) :
    ∃ s' timers' coros', s.moveToInactiveTree fuel coro (some (tmp, old)) = some s' ∧
      TwoLevel s' timers' coros' ∧
      (∀ tm ∈ timers'.toList, SortedBy (fun x => s'.coroId x) (coros' tm)) ∧
      (corosOf coros' timers'.toList).Perm (coro :: corosOf coros timers.toList) ∧
      (SortedBy s'.timerTimeout timers' ↔ s.FindsPlace timers coro) := by
  have hplug := descend_nil hdesc
  have hout : tmp ∉ timers.toList := fun hmem => htmp.not_mem (List.mem_append_left _ hmem)
  have hperm := RbTree.rbInsert_perm tmp hplug
  obtain ⟨s', hmove, hs', h', -⟩ := h.levels.insertTimer hdesc h.new h.inUse htmp hne hfuel old
  have hid : s'.coroId = s.coroId := by rw [hs']
  have htimeout : s'.timerTimeout = Function.update s.timerTimeout tmp (s.timeout coro) := by
    rw [hs']
  refine ⟨s', _, _, hmove, h', fun tm htm => ?_, ?_, ?_⟩
  · rw [hid]
    rcases List.mem_cons.mp (hperm.mem_iff.mp htm) with rfl | htm
    · rw [Function.update_self, SortedBy, RbTree.toList_rbInsert_nil]
      exact List.pairwise_singleton ..
    · rw [Function.update_of_ne fun heq : tm = tmp => hout (heq ▸ htm)]
      exact h.corosSorted tm htm
  · have hall := corosOf_perm (Function.update coros tmp (RbTree.rbInsert coro [])) hperm
    rwa [corosOf_cons, Function.update_self, corosOf_update hout, RbTree.toList_rbInsert_nil] at hall
  · rw [htimeout, sortedBy_insert_iff h.timersSorted hplug hout,
      ← descend_exact_iff h.timersSorted hplug]
    simp [SchedHeap.FindsPlace, hdesc, eq_comm]

end Insertion

/-- `rb_link_node` and `rb_insert_color` at any empty link of a red-black tree, and the two
insertions of the scheduler: into the coroutines of a timer node, and into the timer nodes. The
last keeps the timer nodes sorted exactly when its search comes to the right place. -/
theorem insertions_keep_order (ι : Type) [DecidableEq ι] :
    (∀ (m : RbHeap ι) (i : ι) (up : List (Crumb Addr)) (x : Addr) (fuel : ℕ),
      Holds m i (plug nil up) → (plug nil up).RedBlack → IsNode x → (m.node x).isSome →
      x ∉ (plug nil up).toList → (plug nil up).toList.length + 2 ≤ fuel →
      ∃ m' t, (m.rbLinkNode x (top up) (endLink i up)).bind (·.rbInsertColor fuel x i) = some m' ∧
        Holds m' i t ∧ t.RedBlack ∧ t.toList = before up ++ x :: after up ∧
        (∀ z, z ≠ x → z ∉ (plug nil up).toList → m'.node z = m.node z) ∧
        ∀ j ≠ i, m'.root j = m.root j) ∧
    ∀ (α : Type) (s : SchedHeap α) (timers : ColorTree Addr) (coros : Addr → ColorTree Addr)
      (coro : Addr) (fuel : ℕ), Filing s timers coros coro →
      (timers.toList ++ corosOf coros timers.toList).length + 2 ≤ fuel →
      (∀ tm ∈ timers.toList, ∃ m t, s.addToTimerNode fuel tm coro = some { s with heap := m } ∧
        TwoLevel { s with heap := m } timers (Function.update coros tm t) ∧
        SortedBy (fun x => s.coroId x) t ∧ t.toList.Perm (coro :: (coros tm).toList)) ∧
      ∀ alloc : Option (Addr × RbNode),
        (∀ tmp old, alloc = some (tmp, old) → New timers coros tmp ∧ tmp ≠ coro) →
        ∃ s' timers' coros', s.moveToInactiveTree fuel coro alloc = some s' ∧
          TwoLevel s' timers' coros' ∧
          (∀ tm ∈ timers'.toList, SortedBy (fun x => s'.coroId x) (coros' tm)) ∧
          (alloc ≠ none → (corosOf coros' timers'.toList).Perm (coro :: corosOf coros timers.toList)) ∧
          (SortedBy s'.timerTimeout timers' ↔ alloc = none ∨ s.FindsPlace timers coro) := by
  constructor
  · intro m i up x fuel h hrb hnode hmem hnew hfuel
    have hlength := length_le_plug nil up
    obtain ⟨m', hm', h'⟩ := h.rbInsert hrb hnode hmem hnew (show up.length + 2 ≤ fuel by omega)
    refine ⟨m', _, hm', h'.toHolds, RbTree.rbInsert_redBlack x hrb, RbTree.toList_rbInsert x up, ?_,
      h'.other⟩
    exact fun z hzx hz => h'.outside z (not_or.mpr ⟨hzx, hz⟩)
  · intro α s timers coros coro fuel h hfuel
    refine ⟨fun tm htm => h.addToTimerNode htm hfuel, fun alloc halloc => ?_⟩
    obtain ⟨⟨f, up⟩, hdesc⟩ : ∃ z, descend (s.timeoutDirection coro) timers [] = z := ⟨_, rfl⟩
    cases f with
    | node c l tm r =>
      obtain ⟨s', coros', hmove, h', hids, hperm, hsorted⟩ :=
        h.moveToInactiveTree_found hdesc hfuel alloc
      refine ⟨s', timers, coros', hmove, h', hids, fun _ => hperm, ?_⟩
      simp [hsorted, SchedHeap.FindsPlace, hdesc]
    | nil =>
      cases alloc with
      | none =>
        have hplace := h.levels.searchTimer coro hfuel
        rw [hdesc] at hplace
        refine ⟨s, timers, coros, ?_, h.levels, h.corosSorted, by simp, by simp [h.timersSorted]⟩
        simp [SchedHeap.moveToInactiveTree, hplace, addr]
      | some p =>
        obtain ⟨tmp, old⟩ := p
        obtain ⟨htmp, hne⟩ := halloc tmp old rfl
        obtain ⟨s', timers', coros', hmove, h', hids, hperm, hsorted⟩ :=
          h.moveToInactiveTree_new hdesc htmp hne hfuel old
        exact ⟨s', timers', coros', hmove, h', hids, fun _ => hperm, by simpa using hsorted⟩

theorem filing_oneTimer (timeout : ℤ) :
    Filing (oneTimer timeout) (node .black nil 8 nil) (fun _ => node .black nil 16 nil) 24 := by
  refine ⟨twoLevel_oneTimer timeout, ?_, ?_, ?_, ⟨by decide +kernel, by decide⟩, ?_, rfl⟩
  · simp [SortedBy]
  · simp [SortedBy]
  · simp [corosOf, oneTimer]
  · simp [corosOf, oneTimer]

/-- The node at 24 below the node at 8, in its timer node, and in a timer node for the time 5. -/
theorem insertions_keep_order_five :
    (∃ m' t, ((oneTimer 5).heap.rbLinkNode 24 8 (.child 8 .left)).bind
        (·.rbInsertColor 3 24 .inactive) = some m' ∧
      Holds m' .inactive t ∧ t.RedBlack ∧ t.toList = [24, 8]) ∧
    (∃ m t, (oneTimer 5).addToTimerNode 4 8 24 = some { oneTimer 5 with heap := m } ∧
      SortedBy (fun x => (oneTimer 5).coroId x) t ∧ t.toList.Perm [24, 16]) ∧
    ∃ s' timers' coros', (oneTimer 5).moveToInactiveTree 4 24 (some (32, ⟨0, 0, 0⟩)) = some s' ∧
      TwoLevel s' timers' coros' ∧ SortedBy s'.timerTimeout timers' := by
  obtain ⟨hlink, hfiling⟩ := insertions_keep_order TreeRoot
  have h := filing_oneTimer 5
  obtain ⟨hadd, hmove⟩ := hfiling _ (oneTimer 5) _ _ 24 4 h (by decide)
  refine ⟨?_, ?_, ?_⟩
  · obtain ⟨m', t, hm', h', hrb, hlist, -⟩ := hlink (oneTimer 5).heap .inactive
      [.left .black 8 nil] 24 3 h.levels.timerTree h.levels.timersRedBlack h.new.isNode h.inUse
      (by decide) (by decide)
    exact ⟨m', t, hm', h', hrb, hlist⟩
  · obtain ⟨m, t, hm, -, hsorted, hperm⟩ := hadd 8 (by simp)
    exact ⟨m, t, hm, hsorted, hperm⟩
  · obtain ⟨s', timers', coros', hs', h', -, -, hsorted⟩ := hmove (some (32, ⟨0, 0, 0⟩)) (by
      rintro tmp old ⟨⟩
      exact ⟨⟨by decide +kernel, by decide⟩, by decide⟩)
    refine ⟨s', timers', coros', hs', h', hsorted.mpr (Or.inr (findsPlace_of_near ?_))⟩
    simp [Near, oneTimer]

/-- A timeout `2 ^ 31` milliseconds behind the others goes in front of them. -/
theorem late_timeout_misplaced :
    Filing (oneTimer (2 ^ 31)) (node .black nil 8 nil) (fun _ => node .black nil 16 nil) 24 ∧
      ∃ s' timers' coros',
        (oneTimer (2 ^ 31)).moveToInactiveTree 4 24 (some (32, ⟨0, 0, 0⟩)) = some s' ∧
        TwoLevel s' timers' coros' ∧ ¬SortedBy s'.timerTimeout timers' := by
  have h := filing_oneTimer (2 ^ 31)
  have hdesc : descend ((oneTimer (2 ^ 31)).timeoutDirection 24) (node .black nil 8 nil) [] =
      (nil, [.left .black 8 nil]) := by decide +kernel
  have hexact : descend (fun tm => direction ((oneTimer (2 ^ 31)).timeout 24 -
      (oneTimer (2 ^ 31)).timerTimeout tm)) (node .black nil 8 nil) [] =
      (nil, [.right .black nil 8]) := by decide +kernel
  obtain ⟨s', timers', coros', hmove, h', -, -, hsorted⟩ := h.moveToInactiveTree_new hdesc
    (show New _ _ 32 from ⟨by decide +kernel, by decide⟩) (by decide) (show _ ≤ 4 by decide) ⟨0, 0, 0⟩
  refine ⟨h, s', timers', coros', hmove, h', fun hs => ?_⟩
  have hplace := hsorted.mp hs
  rw [SchedHeap.FindsPlace, hdesc, hexact] at hplace
  simp at hplace

end Cserv.Coro
