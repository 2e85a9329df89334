import Cserv.Coro.SchedHeap
import Cserv.Coro.TimerTree
import Cserv.Util.RbInsert
import Cserv.Util.RbRemove

/-!
# The two levels of `sched.inactive` in memory

Timer nodes and coroutines stand in memory as a red-black tree of red-black trees. The searches
of `sched.c` follow the links as the searches of trees do, and insertions and removals leave two
such levels again.
-/
namespace Cserv.Coro

open Foundations Util ColorTree

/-! ## Searches -/

section Searches

variable {ι : Type} {m : RbHeap ι} {i : ι} {t : ColorTree Addr} {up : List (Crumb Addr)}

theorem readLink_eq (h : Holds m i (plug t up)) : readLink m (endLink i up) = some (addr t) := by
  have hz := h.zipped
  cases up with
  | nil => exact congrArg some hz.path
  | cons k up =>
    obtain ⟨s, c, x, u, rfl⟩ := k.exists_on
    rw [plug_on] at h
    obtain ⟨n, hn, his⟩ := h.load
    simp [readLink, hn, his.near]

/-- The loop of an insertion comes to the place that `descend` finds. -/
theorem searchLink_eq (h : Holds m i (plug t up)) (dir : Addr → Ordering) {fuel : ℕ}
    (hfuel : t.toList.length < fuel) :
    searchLink m dir fuel (top up) (endLink i up) =
      some (addr (descend dir t up).1, top (descend dir t up).2,
        endLink i (descend dir t up).2) := by
  induction t generalizing up fuel with
  | nil =>
    obtain ⟨fuel, rfl⟩ := Nat.exists_eq_add_of_le' (show 1 ≤ fuel by omega)
    simp [searchLink, readLink_eq h, addr, descend]
  | node c l x r ihl ihr =>
    obtain ⟨fuel, rfl⟩ := Nat.exists_eq_add_of_le' (show 1 ≤ fuel by omega)
    simp only [toList_node, List.length_append, List.length_cons] at hfuel
    have hx : x ≠ NULL := (h.isNode x ((toList_plug_perm _ up).mem_iff.mpr (by simp))).1
    rw [searchLink, readLink_eq h, descend, addr, Option.bind_eq_bind, Option.bind_some, if_neg hx]
    cases dir x with
    | lt => exact ihl (show Holds m i (plug l (.left c x r :: up)) from h) (by omega)
    | eq => rfl
    | gt => exact ihr (show Holds m i (plug r (.right c l x :: up)) from h) (by omega)

theorem searchNode_eq (h : Holds m i (plug t up)) (dir : Addr → Ordering) {fuel : ℕ}
    (hfuel : t.toList.length < fuel) :
    searchNode m dir fuel (addr t) = some (addr (descend dir t up).1) := by
  induction t generalizing up fuel with
  | nil =>
    obtain ⟨fuel, rfl⟩ := Nat.exists_eq_add_of_le' (show 1 ≤ fuel by omega)
    simp [searchNode, addr, descend]
  | node c l x r ihl ihr =>
    obtain ⟨fuel, rfl⟩ := Nat.exists_eq_add_of_le' (show 1 ≤ fuel by omega)
    simp only [toList_node, List.length_append, List.length_cons] at hfuel
    have hx : x ≠ NULL := (h.isNode x ((toList_plug_perm _ up).mem_iff.mpr (by simp))).1
    obtain ⟨n, hn, his⟩ := h.load (s := .left)
    have hleft : n.rbLeft = addr l := his.near
    have hright : n.rbRight = addr r := his.far
    rw [searchNode, descend, addr, if_neg hx, hn]
    simp only [Option.bind_eq_bind, Option.bind_some, hleft, hright]
    cases dir x with
    | lt => exact ihl (show Holds m i (plug l (.left c x r :: up)) from h) (by omega)
    | eq => rfl
    | gt => exact ihr (show Holds m i (plug r (.right c l x :: up)) from h) (by omega)

end Searches

/-! ## Two levels -/

namespace SchedHeap

variable {α : Type} (s : SchedHeap α)

def idDirection (coro each : Addr) : Ordering :=
  linkDirection (toInt32 (s.coroId coro - s.coroId each))

/-- The way of the search in `move_to_inactive_tree`, with the difference in an `int`. -/
def timeoutDirection (coro tm : Addr) : Ordering :=
  direction (toInt32 (s.timeout coro - s.timerTimeout tm))

end SchedHeap

def SortedBy {α : Type*} (key : α → ℤ) (t : ColorTree α) : Prop :=
  t.toList.Pairwise fun a b => key a < key b

def corosOf (coros : Addr → ColorTree Addr) (tms : List Addr) : List Addr :=
  tms.flatMap fun tm => (coros tm).toList

/-- A red-black tree of timer nodes in memory, and one of coroutines for each of them. -/
structure TwoLevel {α : Type} (s : SchedHeap α) (timers : ColorTree Addr)
    (coros : Addr → ColorTree Addr) : Prop where
  timerTree : Holds s.heap .inactive timers
  coroTree : ∀ tm ∈ timers.toList, Holds s.heap (.timer tm) (coros tm)
  timersRedBlack : timers.RedBlack
  corosRedBlack : ∀ tm ∈ timers.toList, (coros tm).RedBlack
  apart : (timers.toList ++ corosOf coros timers.toList).Nodup

section Levels

variable {α : Type} {s : SchedHeap α} {timers t : ColorTree Addr} {coros : Addr → ColorTree Addr}
  {m : RbHeap TreeRoot} {S : Set Addr} {tm coro x : Addr} {tms : List Addr} {fuel : ℕ}

theorem mem_corosOf : x ∈ corosOf coros tms ↔ ∃ tm ∈ tms, x ∈ (coros tm).toList := List.mem_flatMap

theorem corosOf_cons : corosOf coros (tm :: tms) = (coros tm).toList ++ corosOf coros tms :=
  List.flatMap_cons

theorem corosOf_append (tms' : List Addr) :
    corosOf coros (tms ++ tms') = corosOf coros tms ++ corosOf coros tms' := List.flatMap_append

theorem corosOf_perm (coros : Addr → ColorTree Addr) {tms' : List Addr} (h : tms.Perm tms') :
    (corosOf coros tms).Perm (corosOf coros tms') := h.flatMap_right _

theorem corosOf_update (h : tm ∉ tms) :
    corosOf (Function.update coros tm t) tms = corosOf coros tms := by
  apply List.flatMap_congr
  intro x hx
  have hne : x ≠ tm := fun heq => h (heq ▸ hx)
  rw [Function.update_of_ne hne]

theorem corosOf_erase (coros : Addr → ColorTree Addr) (h : tm ∈ tms) :
    (corosOf coros tms).Perm ((coros tm).toList ++ corosOf coros (tms.erase tm)) := by
  rw [← corosOf_cons]
  exact corosOf_perm coros (List.perm_cons_erase h)

/-- The coroutines of a timer node change; no other tree has nodes that are written. -/
theorem TwoLevel.update (h : TwoLevel s timers coros) (htm : tm ∈ timers.toList)
    (h' : HoldsFrom s.heap S (.timer tm) t m) (hrb : t.RedBlack)
    (hS : ∀ x ∈ S, x ∉ timers.toList ∧ x ∉ corosOf coros (timers.toList.erase tm)) :
    TwoLevel { s with heap := m } timers (Function.update coros tm t) := by
  have hnd : timers.toList.Nodup := h.timerTree.nodup
  have hother : ∀ tm' ∈ timers.toList, tm' ≠ tm → ∀ x ∈ (coros tm').toList, x ∉ S :=
    fun tm' htm' hne x hx hxS =>
      (hS x hxS).2 (mem_corosOf.mpr ⟨tm', (hnd.mem_erase_iff).mpr ⟨hne, htm'⟩, hx⟩)
  constructor
  · exact h'.frame h.timerTree nofun fun z hz hzS => (hS z hzS).1 hz
  · intro tm' htm'
    by_cases hne : tm' = tm
    · subst hne
      rw [Function.update_self]
      exact h'.toHolds
    · rw [Function.update_of_ne hne]
      exact h'.frame (h.coroTree tm' htm') (by simpa using hne) (hother tm' htm' hne)
  · exact h.timersRedBlack
  · intro tm' htm'
    by_cases hne : tm' = tm
    · subst hne
      rwa [Function.update_self]
    · rw [Function.update_of_ne hne]
      exact h.corosRedBlack tm' htm'
  · have hperm := corosOf_erase (Function.update coros tm t) htm
    rw [Function.update_self, corosOf_update hnd.not_mem_erase] at hperm
    rw [(hperm.append_left _).nodup_iff]
    have hold := ((corosOf_erase coros htm).append_left timers.toList).nodup_iff.mp h.apart
    simp only [List.nodup_append, List.mem_append] at hold ⊢
    obtain ⟨-, ⟨-, hrest, -⟩, hdisj⟩ := hold
    refine ⟨hnd, ⟨h'.nodup, hrest, fun x hx y hy hxy => ?_⟩, fun x hx y hy hxy => ?_⟩
    · exact (hS x (h'.inside x hx)).2 (hxy ▸ hy)
    · rcases hy with hy | hy
      · exact (hS y (h'.inside y hy)).1 (hxy ▸ hx)
      · exact hdisj x hx y (Or.inr hy) hxy

theorem TwoLevel.not_mem (h : TwoLevel s timers coros) (htm : tm ∈ timers.toList)
    (hx : x ∈ (coros tm).toList) : x ∉ timers.toList ∧ x ∉ corosOf coros (timers.toList.erase tm) := by
  have hperm := (corosOf_erase coros htm).append_left timers.toList
  obtain ⟨-, hrest, hdisj⟩ := List.nodup_append.mp (hperm.nodup_iff.mp h.apart)
  constructor
  · exact fun hmem => hdisj x hmem x (List.mem_append_left _ hx) rfl
  · exact fun hmem => (List.nodup_append.mp hrest).2.2 x hx x hmem rfl

theorem length_coros_le (coros : Addr → ColorTree Addr) (htm : tm ∈ timers.toList) :
    (coros tm).toList.length ≤ (timers.toList ++ corosOf coros timers.toList).length := by
  have hlength := (corosOf_erase coros htm).length_eq
  simp only [List.length_append] at hlength ⊢
  omega

structure New (timers : ColorTree Addr) (coros : Addr → ColorTree Addr) (x : Addr) : Prop where
  isNode : IsNode x
  not_mem : x ∉ timers.toList ++ corosOf coros timers.toList

/-! ## Insertion -/

theorem linkDirection_ne_eq (z : ℤ) : linkDirection z ≠ .eq := by
  unfold linkDirection
  split_ifs <;> nofun

theorem addToTimerNode_returns (h : Holds s.heap (.timer tm) t) (hrb : t.RedBlack)
    (hnode : IsNode coro) (hmem : (s.heap.node coro).isSome) (hnew : coro ∉ t.toList)
    (hfuel : t.toList.length + 2 ≤ fuel) :
    ∃ m up, s.addToTimerNode fuel tm coro = some { s with heap := m } ∧
      descend (s.idDirection coro) t [] = (nil, up) ∧
      HoldsFrom s.heap { z | z = coro ∨ z ∈ t.toList } (.timer tm) (RbTree.rbInsert coro up) m := by
  obtain ⟨⟨f, up⟩, hdesc⟩ : ∃ z, descend (s.idDirection coro) t [] = z := ⟨_, rfl⟩
  have hsearch := searchLink_eq (show Holds s.heap (.timer tm) (plug t []) from h)
    (s.idDirection coro) (show t.toList.length < fuel by omega)
  have hplug := plug_descend (s.idDirection coro) t []
  have hfocus := descend_focus (s.idDirection coro) t []
  rw [hdesc] at hsearch hplug hfocus
  obtain rfl : f = nil := by
    rcases hfocus with hnil | ⟨_, _, _, _, _, heq⟩
    · exact hnil
    · exact absurd heq (linkDirection_ne_eq _)
  obtain rfl : plug nil up = t := hplug
  have hlength := length_le_plug nil up
  obtain ⟨m, hm, h'⟩ := h.rbInsert hrb hnode hmem hnew (show up.length + 2 ≤ fuel by omega)
  obtain ⟨m₁, hlink, hcolor⟩ := Option.bind_eq_some_iff.mp hm
  refine ⟨m, up, ?_, hdesc, h'⟩
  have hplace : searchLink s.heap (fun each => s.idDirection coro each) fuel NULL
      (.root (.timer tm)) = some (NULL, top up, endLink (.timer tm) up) := hsearch
  simp only [SchedHeap.idDirection] at hplace
  simp [SchedHeap.addToTimerNode, hplace, hlink, hcolor]

theorem TwoLevel.addToTimerNode (h : TwoLevel s timers coros) (htm : tm ∈ timers.toList)
    (hnew : New timers coros coro) (hmem : (s.heap.node coro).isSome)
    (hfuel : (timers.toList ++ corosOf coros timers.toList).length + 2 ≤ fuel) :
    ∃ m up, s.addToTimerNode fuel tm coro = some { s with heap := m } ∧
      descend (s.idDirection coro) (coros tm) [] = (nil, up) ∧
      TwoLevel { s with heap := m } timers (Function.update coros tm (RbTree.rbInsert coro up)) ∧
      ∀ x, (s.heap.node x).isSome → (m.node x).isSome := by
  obtain ⟨hout, hout'⟩ := not_or.mp fun hm => hnew.not_mem (List.mem_append.mpr hm)
  have hcoro : coro ∉ (coros tm).toList := fun hx => hout' (mem_corosOf.mpr ⟨tm, htm, hx⟩)
  have hlength := length_coros_le coros htm
  obtain ⟨m, up, hadd, hdesc, h'⟩ := addToTimerNode_returns (h.coroTree tm htm)
    (h.corosRedBlack tm htm) hnew.isNode hmem hcoro
    (show (coros tm).toList.length + 2 ≤ fuel by omega)
  refine ⟨m, up, hadd, hdesc, h.update htm h' ?_ fun x hx => ?_, fun x hx => h'.kept hx⟩
  · have hplug := descend_nil hdesc
    exact RbTree.rbInsert_redBlack coro (hplug ▸ h.corosRedBlack tm htm)
  · rcases hx with rfl | hx
    · refine ⟨hout, fun hx' => hout' ?_⟩
      obtain ⟨tm', htm', hx'⟩ := mem_corosOf.mp hx'
      exact mem_corosOf.mpr ⟨tm', List.mem_of_mem_erase htm', hx'⟩
    · exact h.not_mem htm hx

theorem TwoLevel.initTimerNode (h : TwoLevel s timers coros) {tmp : Addr} (hnew : New timers coros tmp)
    (old : RbNode) (timeout : ℤ) :
    TwoLevel (s.initTimerNode tmp old timeout) timers coros ∧
      Holds (s.initTimerNode tmp old timeout).heap (.timer tmp) nil := by
  obtain ⟨hout, hout'⟩ := not_or.mp fun hm => hnew.not_mem (List.mem_append.mpr hm)
  have hkeep : ∀ {j : TreeRoot} {u : ColorTree Addr}, Holds s.heap j u → j ≠ .timer tmp →
      tmp ∉ u.toList → Holds (s.initTimerNode tmp old timeout).heap j u := by
    intro j u hu hj htmp
    apply hu.congr
    · intro z hz
      exact RbHeap.store_of_ne fun heq => htmp (heq ▸ hz)
    · exact Function.update_of_ne hj ..
  constructor
  · refine { h with timerTree := hkeep h.timerTree nofun hout, coroTree := fun tm htm => ?_ }
    refine hkeep (h.coroTree tm htm) ?_ fun hx => hout' (mem_corosOf.mpr ⟨tm, htm, hx⟩)
    rintro ⟨⟩
    exact hout htm
  · exact ⟨Function.update_self .., trivial, List.nodup_nil, by simp⟩

theorem TwoLevel.addTimer (h : TwoLevel s timers coros) {tmp : Addr} {up : List (Crumb Addr)}
    {s' : SchedHeap α} (hplug : plug nil up = timers) (hnew : New timers coros coro)
    (htmp : New timers coros tmp) (hne : tmp ≠ coro)
    (hcoros : ∀ tm ∈ timers.toList, Holds m (.timer tm) (coros tm))
    (hone : Holds m (.timer tmp) (RbTree.rbInsert coro []))
    (h' : HoldsFrom m { z | z = tmp ∨ z ∈ timers.toList } .inactive (RbTree.rbInsert tmp up) s'.heap) :
    TwoLevel s' (RbTree.rbInsert tmp up) (Function.update coros tmp (RbTree.rbInsert coro [])) := by
  obtain ⟨hout, hout'⟩ := not_or.mp fun hm => htmp.not_mem (List.mem_append.mpr hm)
  obtain ⟨hcout, hcout'⟩ := not_or.mp fun hm => hnew.not_mem (List.mem_append.mpr hm)
  have hsingle := RbTree.toList_rbInsert_nil coro
  have hperm := RbTree.rbInsert_perm tmp hplug
  have hcases : ∀ tm ∈ (RbTree.rbInsert tmp up).toList, tm = tmp ∨ tm ∈ timers.toList :=
    fun tm htm => List.mem_cons.mp (hperm.mem_iff.mp htm)
  have hold : ∀ tm ∈ timers.toList, tm ≠ tmp := fun tm htm heq => hout (heq ▸ htm)
  constructor
  · exact h'.toHolds
  · intro tm htm
    rcases hcases tm htm with rfl | htm
    · rw [Function.update_self]
      refine h'.frame hone (by simp) fun z hz hzS => ?_
      rw [hsingle, List.mem_singleton] at hz
      subst hz
      exact hzS.elim (Ne.symm hne) hcout
    · rw [Function.update_of_ne (hold tm htm)]
      refine h'.frame (hcoros tm htm) (by simp) fun z hz hzS => ?_
      rcases hzS with rfl | hzS
      · exact hout' (mem_corosOf.mpr ⟨tm, ‹_›, hz⟩)
      · exact (h.not_mem ‹_› hz).1 hzS
  · exact RbTree.rbInsert_redBlack tmp (hplug ▸ h.timersRedBlack)
  · intro tm htm
    rcases hcases tm htm with rfl | htm
    · rw [Function.update_self]
      exact RbTree.rbInsert_redBlack coro redBlack_nil
    · rw [Function.update_of_ne (hold tm htm)]
      exact h.corosRedBlack tm htm
  · have hall := hperm.append
      (corosOf_perm (Function.update coros tmp (RbTree.rbInsert coro [])) hperm)
    rw [corosOf_cons, Function.update_self, corosOf_update hout, hsingle] at hall
    rw [hall.nodup_iff, List.cons_append, List.nodup_cons]
    have hmove : (timers.toList ++ ([coro] ++ corosOf coros timers.toList)).Perm
        (coro :: (timers.toList ++ corosOf coros timers.toList)) := List.perm_middle
    rw [hmove.nodup_iff, hmove.mem_iff, List.nodup_cons]
    refine ⟨fun hmem => ?_, hnew.not_mem, h.apart⟩
    rcases List.mem_cons.mp hmem with heq | hmem
    · exact hne heq
    · exact htmp.not_mem hmem

theorem TwoLevel.insertTimer (h : TwoLevel s timers coros) {up : List (Crumb Addr)}
    (hdesc : descend (s.timeoutDirection coro) timers [] = (nil, up)) (hnew : New timers coros coro)
    (hmem : (s.heap.node coro).isSome) {tmp : Addr} (htmp : New timers coros tmp) (hne : tmp ≠ coro)
    (hfuel : (timers.toList ++ corosOf coros timers.toList).length + 2 ≤ fuel) (old : RbNode) :
    ∃ s', s.moveToInactiveTree fuel coro (some (tmp, old)) = some s' ∧
      s' = { s with
        heap := s'.heap
        timerTimeout := Function.update s.timerTimeout tmp (s.timeout coro) } ∧
      TwoLevel s' (RbTree.rbInsert tmp up) (Function.update coros tmp (RbTree.rbInsert coro [])) ∧
      ∀ x, (s.heap.node x).isSome → (s'.heap.node x).isSome := by
  obtain ⟨hinit, hempty⟩ := h.initTimerNode htmp old (s.timeout coro)
  obtain ⟨hout, hout'⟩ := not_or.mp fun hm => htmp.not_mem (List.mem_append.mpr hm)
  obtain ⟨hcout, hcout'⟩ := not_or.mp fun hm => hnew.not_mem (List.mem_append.mpr hm)
  have hplug := descend_nil hdesc
  have hlength := length_le_plug nil up
  rw [hplug] at hlength
  simp only [List.length_append] at hfuel
  have hplace : searchLink s.heap (fun tm => direction (toInt32 (s.timeout coro - s.timerTimeout tm)))
      fuel NULL (.root .inactive) = some (NULL, top up, endLink .inactive up) := by
    have hsearch := searchLink_eq (show Holds s.heap .inactive (plug timers []) from h.timerTree)
      (s.timeoutDirection coro) (show timers.toList.length < fuel by omega)
    rwa [hdesc] at hsearch
  -- the coroutine goes into the empty tree of the timer node
  have hmem' : ((s.initTimerNode tmp old (s.timeout coro)).heap.node coro).isSome := by
    have heq : (s.initTimerNode tmp old (s.timeout coro)).heap.node coro = s.heap.node coro :=
      RbHeap.store_of_ne (Ne.symm hne)
    rwa [heq]
  obtain ⟨m₁, up₁, hadd, hdesc₁, h₁⟩ := addToTimerNode_returns hempty redBlack_nil hnew.isNode hmem'
    (by simp) (show _ ≤ fuel by simp; omega)
  obtain rfl : up₁ = [] := (Prod.ext_iff.mp hdesc₁).2.symm
  have hwritten : ∀ z, z ∈ { z | z = coro ∨ z ∈ (nil : ColorTree Addr).toList } → z = coro := by
    rintro z (hz | hz)
    · exact hz
    · simp at hz
  have htimers₁ : Holds m₁ .inactive timers :=
    h₁.frame hinit.timerTree nofun fun z hz hzS => hcout (hwritten z hzS ▸ hz)
  have hcoros₁ : ∀ tm ∈ timers.toList, Holds m₁ (.timer tm) (coros tm) := by
    intro tm htm
    refine h₁.frame (hinit.coroTree tm htm) ?_ fun z hz hzS => ?_
    · rintro ⟨⟩
      exact hout htm
    · exact hcout' (mem_corosOf.mpr ⟨tm, htm, hwritten z hzS ▸ hz⟩)
  have hmem₁ : (m₁.node tmp).isSome := by
    rw [h₁.outside tmp fun hzS => hne (hwritten tmp hzS)]
    exact congrArg Option.isSome RbHeap.store_self
  -- and the timer node into the tree of timer nodes
  obtain ⟨m₂, hm₂, h₂⟩ := (hplug ▸ htimers₁).rbInsert (hplug ▸ h.timersRedBlack) htmp.isNode hmem₁
    (hplug ▸ hout) (show up.length + 2 ≤ fuel by omega)
  obtain ⟨m', hlink, hcolor⟩ := Option.bind_eq_some_iff.mp hm₂
  refine ⟨{ s with
    heap := m₂
    timerTimeout := Function.update s.timerTimeout tmp (s.timeout coro) }, ?_, rfl, ?_, ?_⟩
  · simp only [SchedHeap.moveToInactiveTree, hplace, Option.bind_eq_bind, Option.bind_some, hadd,
      hlink, hcolor, ne_eq, not_true, if_false]
    rfl
  · exact h.addTimer hplug hnew htmp hne hcoros₁ h₁.toHolds (hplug ▸ h₂)
  · intro x hx
    refine h₂.kept (h₁.kept ?_)
    by_cases heq : x = tmp
    · rw [heq]
      exact congrArg Option.isSome RbHeap.store_self
    · have hsame : (s.initTimerNode tmp old (s.timeout coro)).heap.node x = s.heap.node x :=
        RbHeap.store_of_ne heq
      rwa [hsame]

/-! ## Removal -/

theorem TwoLevel.dropTimer (h : TwoLevel s timers coros) {c : Color} {l r : ColorTree Addr}
    {up : List (Crumb Addr)} (hplug : plug (node c l tm r) up = timers) {s' : SchedHeap α}
    (hheap : s'.heap = { m with node := Function.update m.node tm none })
    (htree : Holds m .inactive (RbTree.rbErase (node c l tm r) up))
    (hcoros : ∀ x ∈ timers.toList, x ≠ tm → Holds m (.timer x) (coros x)) :
    TwoLevel s' (RbTree.rbErase (node c l tm r) up) coros := by
  have hperm := RbTree.toList_plug_rbErase c l tm r up
  rw [hplug] at hperm
  have htm : tm ∈ timers.toList := hperm.mem_iff.mpr (by simp)
  have hout : tm ∉ (RbTree.rbErase (node c l tm r) up).toList :=
    (List.nodup_cons.mp (hperm.nodup_iff.mp h.timerTree.nodup)).1
  have hold : ∀ x ∈ (RbTree.rbErase (node c l tm r) up).toList, x ∈ timers.toList ∧ x ≠ tm :=
    fun x hx => ⟨hperm.mem_iff.mpr (by simp [hx]), fun heq => hout (heq ▸ hx)⟩
  have hfree : ∀ {j : TreeRoot} {u : ColorTree Addr}, Holds m j u → tm ∉ u.toList →
      Holds s'.heap j u := by
    intro j u hu hu'
    rw [hheap]
    exact hu.congr (fun z hz => Function.update_of_ne (fun heq : z = tm => hu' (heq ▸ hz)) ..) rfl
  constructor
  · exact hfree htree hout
  · intro x hx
    obtain ⟨hx', hne⟩ := hold x hx
    exact hfree (hcoros x hx' hne) fun hmem => (h.not_mem hx' hmem).1 htm
  · exact RbTree.rbErase_redBlack (hplug ▸ h.timersRedBlack)
  · exact fun x hx => h.corosRedBlack x (hold x hx).1
  · have hapart := (hperm.append (corosOf_perm coros hperm)).nodup_iff.mp h.apart
    rw [corosOf_cons] at hapart
    exact hapart.sublist ((List.sublist_cons_self ..).append (List.sublist_append_right ..))

end Levels

/-! ## A memory with one timer node -/

/-- A timer node at 8 for the time 0 with a coroutine at 16, and a coroutine at 24 with the time
`timeout`. -/
def oneTimer (timeout : ℤ) : SchedHeap (List Addr) where
  heap :=
    { node := fun x => if x = 8 ∨ x = 16 ∨ x = 24 then some ⟨RB_BLACK, NULL, NULL⟩ else none
      root := fun i => match i with
        | .inactive => 8
        | .timer _ => 16 }
  timerTimeout := fun _ => 0
  coroId := fun x => x.toNat
  timeout := fun x => if x = 24 then timeout else 0
  activeByTimeout := fun _ => false
  active := []
  freed := []

theorem holds_one {m : RbHeap TreeRoot} {i : TreeRoot} {x : Addr} (hroot : m.root i = x)
    (hx : IsNode x) (hn : m.node x = some ⟨RB_BLACK, NULL, NULL⟩) :
    Holds m i (node .black nil x nil) :=
  ⟨hroot, ⟨⟨_, hn, RbNode.is_colored .black NULL NULL⟩, trivial, trivial⟩, by simp, by simpa using hx⟩

theorem redBlack_one (x : Addr) : (node .black nil x nil).RedBlack :=
  ⟨rfl, by simp [NoRedRed], 1, 0, rfl, rfl, rfl⟩

theorem twoLevel_oneTimer (timeout : ℤ) :
    TwoLevel (oneTimer timeout) (node .black nil 8 nil) (fun _ => node .black nil 16 nil) where
  timerTree := holds_one rfl (by decide +kernel) rfl
  coroTree _ _ := holds_one rfl (by decide +kernel) rfl
  timersRedBlack := redBlack_one 8
  corosRedBlack _ _ := redBlack_one 16
  apart := by decide

end Cserv.Coro
