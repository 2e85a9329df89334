import Cserv.Coro.TimerHeap

/-!
# Expiry

`check_timeout_coroutine` on the two levels in memory. Each round takes the first timer node out
of its tree, empties the tree of its coroutines root by root, and frees it; the loop stops at the
first timer node that is not due. What one round does is said once, and carried through the loop.
-/
namespace Cserv.Coro

open Foundations Util ColorTree

def setFlags (xs : List Addr) (flag : Addr → Bool) (c : Addr) : Bool :=
  if c ∈ xs then true else flag c

theorem setFlags_nil (flag : Addr → Bool) : setFlags [] flag = flag := by
  funext c
  simp [setFlags]

theorem setFlags_append (xs ys : List Addr) (flag : Addr → Bool) :
    setFlags ys (setFlags xs flag) = setFlags (xs ++ ys) flag := by
  funext c
  unfold setFlags
  split_ifs <;> simp_all

theorem setFlags_singleton (x : Addr) (flag : Addr → Bool) :
    Function.update flag x true = setFlags [x] flag := by
  funext c
  by_cases hc : c = x
  · subst hc
    simp [setFlags]
  · simp [setFlags, hc]

variable {α : Type} {s s' : SchedHeap α} {timers t : ColorTree Addr} {coros : Addr → ColorTree Addr}
  {tm : Addr} {fuel rounds : ℕ} {now : ℤ}

section Loops

variable [ActiveList α]

/-- The coroutines `due` are added to the active list one after the other. -/
def addAll (active : α) (due : List Addr) : Option α := due.foldlM ActiveList.addTail active

theorem addAll_append (active : α) (due due' : List Addr) :
    addAll active (due ++ due') = (addAll active due).bind (addAll · due') :=
  List.foldlM_append

theorem addAll_list (active due : List Addr) : addAll active due = some (active ++ due) := by
  induction due generalizing active with
  | nil => simp [addAll]
  | cons c due ih =>
    have hrest := ih (active ++ [c])
    rw [List.append_assoc] at hrest
    exact hrest

theorem timeoutCoroutineHandler_returns (h : Holds s.heap (.timer tm) t) (hrb : t.RedBlack)
    (hfuel : t.toList.length + 2 ≤ fuel) (hrounds : t.toList.length < rounds) {active : α}
    (hadd : addAll s.active (RbTree.rootOrder t) = some active) :
    ∃ m, SchedHeap.timeoutCoroutineHandler fuel tm rounds s = some
        { s with
          heap := m
          activeByTimeout := setFlags (RbTree.rootOrder t) s.activeByTimeout
          active := active } ∧
      HoldsFrom s.heap { z | z ∈ t.toList } (.timer tm) nil m := by
  induction rounds generalizing s t with
  | zero => omega
  | succ rounds ih =>
    cases t with
    | nil =>
      refine ⟨s.heap, ?_, h, by simp, by simp, fun _ _ => rfl, fun _ _ => rfl⟩
      have hroot : s.heap.root (.timer tm) = NULL := h.root
      have hsame : s.active = active := by simpa [RbTree.rootOrder, addAll] using hadd
      simp [SchedHeap.timeoutCoroutineHandler, hroot, RbTree.rootOrder, setFlags_nil, ← hsame]
    | node c l x r =>
      have hroot : s.heap.root (.timer tm) = x := h.root
      have hx : x ≠ NULL := (h.isNode x (by simp)).1
      obtain ⟨m₁, hm₁, h₁⟩ := Holds.rbErase
        (show Holds s.heap (.timer tm) (plug (node c l x r) []) from h) hrb hfuel
      have hlist : (RbTree.rbErase (node c l x r) []).toList = l.toList ++ r.toList := by
        simp [RbTree.toList_rbErase, before, after]
      have hsub : ∀ z ∈ (RbTree.rbErase (node c l x r) []).toList, z ∈ (node c l x r).toList := by
        intro z hz
        rw [hlist] at hz
        simp only [toList_node, List.mem_append, List.mem_cons] at hz ⊢
        tauto
      have hlength : (RbTree.rbErase (node c l x r) []).toList.length <
          (node c l x r).toList.length := by
        simp [hlist]
      rw [RbTree.rootOrder] at hadd
      obtain ⟨active₁, hactive, hrest⟩ := Option.bind_eq_some_iff.mp hadd
      obtain ⟨m, hm, h'⟩ := ih (s := { s with
          heap := m₁
          activeByTimeout := Function.update s.activeByTimeout x true
          active := active₁ }) h₁.toHolds
        (RbTree.rbErase_redBlack (show (plug (node c l x r) []).RedBlack from hrb)) (by omega)
        (by omega) hrest
      refine ⟨m, ?_, h₁.trans h' hsub⟩
      rw [SchedHeap.timeoutCoroutineHandler]
      simp only [hroot, if_neg hx, hm₁, SchedHeap.moveToActiveListTailDirect, hactive,
        Option.bind_eq_bind, Option.bind_some, Option.pure_def, hm]
      simp only [setFlags_singleton, setFlags_append, RbTree.rootOrder, List.cons_append,
        List.nil_append]

/-- What the expiry of the timer nodes `tms` changes: the coroutines go to the end of the active
list with their flags set, and the timer nodes are freed. Only the nodes of the timer tree and of
the expired coroutines are written. -/
structure Expired (s : SchedHeap α) (timers : ColorTree Addr) (coros : Addr → ColorTree Addr)
    (tms : List Addr) (s' : SchedHeap α) : Prop where
  active : addAll s.active (tms.flatMap fun tm => RbTree.rootOrder (coros tm)) = some s'.active
  flags : s'.activeByTimeout =
    setFlags (tms.flatMap fun tm => RbTree.rootOrder (coros tm)) s.activeByTimeout
  freed : s'.freed = s.freed ++ tms
  timeout : s'.timeout = s.timeout
  timerTimeout : s'.timerTimeout = s.timerTimeout
  coroId : s'.coroId = s.coroId
  gone : ∀ tm ∈ tms, s'.heap.node tm = none
  nodes : ∀ x ∉ timers.toList, x ∉ corosOf coros tms → s'.heap.node x = s.heap.node x
  roots : ∀ tm ∉ tms, s'.heap.root (.timer tm) = s.heap.root (.timer tm)

theorem Expired.refl (s : SchedHeap α) (timers : ColorTree Addr) (coros : Addr → ColorTree Addr) :
    Expired s timers coros [] s where
  active := rfl
  flags := by simp [setFlags_nil]
  freed := by simp
  timeout := rfl
  timerTimeout := rfl
  coroId := rfl
  gone := by simp
  nodes _ _ _ := rfl
  roots _ _ := rfl

theorem Expired.cons {s₁ : SchedHeap α} {timers₁ : ColorTree Addr} {tms : List Addr}
    (h₁ : Expired s timers coros [tm] s₁) (h : Expired s₁ timers₁ coros tms s')
    (hlist : timers.toList = tm :: timers₁.toList) (htm : tm ∉ timers₁.toList)
    (hcoros : tm ∉ corosOf coros tms) : Expired s timers coros (tm :: tms) s' where
  active := by
    have hfirst := h₁.active
    rw [List.flatMap_singleton] at hfirst
    rw [List.flatMap_cons, addAll_append, hfirst]
    exact h.active
  flags := by simp [h.flags, h₁.flags, setFlags_append]
  freed := by simp [h.freed, h₁.freed]
  timeout := h.timeout.trans h₁.timeout
  timerTimeout := h.timerTimeout.trans h₁.timerTimeout
  coroId := h.coroId.trans h₁.coroId
  gone := by
    intro x hx
    rcases List.mem_cons.mp hx with rfl | hx
    · rw [h.nodes x htm hcoros]
      exact h₁.gone x (by simp)
    · exact h.gone x hx
  nodes := by
    intro x hx hx'
    rw [hlist, List.mem_cons, not_or] at hx
    rw [corosOf_cons, List.mem_append, not_or] at hx'
    rw [h.nodes x hx.2 hx'.2, h₁.nodes x (by simp [hlist, hx]) (by simpa [corosOf] using hx'.1)]
  roots := by
    intro x hx
    rw [List.mem_cons, not_or] at hx
    rw [h.roots x hx.2, h₁.roots x (by simpa using hx.1)]

theorem TwoLevel.expireFirst (h : TwoLevel s timers coros) {c : Color} {l r : ColorTree Addr}
    {up : List (Crumb Addr)} (hfirst : RbTree.rbFirst timers [] = (node c l tm r, up))
    (hfuel : (timers.toList ++ corosOf coros timers.toList).length + 2 ≤ fuel) {active : α}
    (hadd : addAll s.active (RbTree.rootOrder (coros tm)) = some active) :
    ∃ m s₂ s', s.heap.rbErase fuel tm .inactive = some m ∧
      SchedHeap.timeoutCoroutineHandler fuel tm fuel { s with heap := m } = some s₂ ∧
      s₂.memcacheFree tm = some s' ∧ TwoLevel s' (RbTree.rbErase (node c l tm r) up) coros ∧
      Expired s timers coros [tm] s' ∧
      ∀ x ≠ tm, (s.heap.node x).isSome → (s'.heap.node x).isSome := by
  have hplug : plug (node c l tm r) up = timers := by
    have hplug := RbTree.plug_rbFirst timers []
    rwa [hfirst] at hplug
  have hlist := RbTree.rbFirst_node hfirst
  have htm : tm ∈ timers.toList := by simp [hlist]
  have hlength := length_coros_le coros htm
  simp only [List.length_append] at hfuel hlength
  have hcoros : ∀ {x : Addr}, x ∈ timers.toList → ∀ z ∈ (coros x).toList, z ∉ timers.toList :=
    fun hx z hz => (h.not_mem hx hz).1
  -- the timer node leaves its tree
  obtain ⟨m₁, hm₁, h₁⟩ := (hplug ▸ h.timerTree).rbErase (hplug ▸ h.timersRedBlack)
    (show _ ≤ fuel by rw [hplug]; omega)
  rw [hplug] at h₁
  have hframe₁ : ∀ {x : Addr}, x ∈ timers.toList → Holds m₁ (.timer x) (coros x) :=
    fun hx => h₁.frame (h.coroTree _ hx) nofun (hcoros hx)
  -- its coroutines leave theirs
  obtain ⟨m₂, hm₂, h₂⟩ := timeoutCoroutineHandler_returns (s := { s with heap := m₁ })
    (hframe₁ htm) (h.corosRedBlack tm htm) (show _ ≤ fuel by omega) (show _ < fuel by omega) hadd
  have htm₂ : m₂.node tm = m₁.node tm := h₂.outside tm fun hmem => hcoros htm tm hmem htm
  obtain ⟨n, hn⟩ := Option.isSome_iff_exists.mp (h₁.inUse tm htm)
  have hload : m₂.load tm = some n :=
    (RbHeap.load_eq (h.timerTree.isNode tm htm).1).trans (htm₂.trans hn)
  refine ⟨m₁, _,
    { s with
      heap := { m₂ with node := Function.update m₂.node tm none }
      activeByTimeout := setFlags (RbTree.rootOrder (coros tm)) s.activeByTimeout
      active := active
      freed := s.freed ++ [tm] }, hm₁, hm₂, by simp [SchedHeap.memcacheFree, hload], ?_, ?_, ?_⟩
  · refine h.dropTimer hplug rfl ?_ fun x hx hne => ?_
    · exact h₂.frame h₁.toHolds nofun fun z hz hzS => hcoros htm z hzS (by simp [hlist, hz])
    · refine h₂.frame (hframe₁ hx) (by simpa using hne) fun z hz hzS => ?_
      have herase : x ∈ timers.toList.erase tm := (List.mem_erase_of_ne hne).mpr hx
      exact (h.not_mem htm hzS).2 (mem_corosOf.mpr ⟨x, herase, hz⟩)
  · constructor
    · rw [List.flatMap_singleton]
      exact hadd
    · simp
    · rfl
    · rfl
    · rfl
    · rfl
    · intro x hx
      rw [List.mem_singleton.mp hx]
      exact Function.update_self ..
    · intro x hx hx'
      have hne : x ≠ tm := fun heq => hx (heq ▸ htm)
      rw [corosOf_cons, List.mem_append, not_or] at hx'
      exact (Function.update_of_ne hne ..).trans ((h₂.outside x hx'.1).trans (h₁.outside x hx))
    · intro x hx
      have hne : TreeRoot.timer x ≠ .timer tm := by simpa using hx
      exact (h₂.other _ hne).trans (h₁.other _ nofun)
  · intro x hne hx
    have hsame : Function.update m₂.node tm none x = m₂.node x := Function.update_of_ne hne ..
    exact (congrArg Option.isSome hsame).trans (h₂.kept (h₁.kept hx))

theorem TwoLevel.checkTimeoutCoroutine (h : TwoLevel s timers coros)
    (hfuel : (timers.toList ++ corosOf coros timers.toList).length + 2 ≤ fuel)
    (hrounds : timers.toList.length < rounds) (now : ℤ)
    (hadd : (addAll s.active (timers.toList.flatMap fun tm =>
      RbTree.rootOrder (coros tm))).isSome = true) :
    ∃ s' timers' tms, SchedHeap.checkTimeoutCoroutine fuel now rounds s = some s' ∧
      timers' = RbTree.dropDue (fun tm => s.timerTimeout tm ≤ now) timers ∧
      TwoLevel s' timers' coros ∧ Expired s timers coros tms s' ∧
      timers.toList = tms ++ timers'.toList ∧ (∀ tm ∈ tms, s.timerTimeout tm ≤ now) ∧
      (∀ tm ∈ timers'.toList.head?, now < s.timerTimeout tm) ∧
      ∀ x ∉ timers.toList, (s.heap.node x).isSome → (s'.heap.node x).isSome := by
  induction rounds generalizing s timers with
  | zero => omega
  | succ rounds ih =>
    obtain ⟨⟨f, up⟩, hfirst⟩ : ∃ z, RbTree.rbFirst timers [] = z := ⟨_, rfl⟩
    have hstep : s.heap.rbFirst fuel .inactive = some (addr f) := by
      simp only [List.length_append] at hfuel
      rw [h.timerTree.rbFirst (by omega), hfirst]
    rw [SchedHeap.checkTimeoutCoroutine, hstep]
    cases f with
    | nil =>
      have hnil := RbTree.rbFirst_nil hfirst
      exact ⟨s, timers, [], rfl, (RbTree.dropDue_nil hfirst).symm, h, .refl s timers coros, rfl,
        by simp, by simp [hnil], fun _ _ hx => hx⟩
    | node c l tm r =>
      have hlist := RbTree.rbFirst_node hfirst
      have htm : tm ≠ NULL := (h.timerTree.isNode tm (by simp [hlist])).1
      simp only [addr, Option.bind_eq_bind, Option.bind_some, if_neg htm]
      split_ifs with hdue
      · refine ⟨s, timers, [], rfl, ?_, h, .refl s timers coros, rfl, by simp, ?_, fun _ _ hx => hx⟩
        · rw [RbTree.dropDue_node hfirst, if_neg hdue.not_ge]
        · simpa [hlist] using hdue
      · rw [hlist, List.flatMap_cons, addAll_append] at hadd
        obtain ⟨active, hactive⟩ := Option.isSome_iff_exists.mp (Option.isSome_of_isSome_bind hadd)
        rw [hactive, Option.bind_some] at hadd
        obtain ⟨m, s₂, s₁, hm, hs₂, hs₁, h₁, hexp, hkept⟩ := h.expireFirst hfirst hfuel hactive
        have hactive₁ : s₁.active = active := by
          have hadd₁ := hexp.active
          rw [List.flatMap_singleton, hactive] at hadd₁
          exact (Option.some.inj hadd₁).symm
        have hfuel₁ : ((RbTree.rbErase (node c l tm r) up).toList ++
            corosOf coros (RbTree.rbErase (node c l tm r) up).toList).length + 2 ≤ fuel := by
          rw [hlist, corosOf_cons] at hfuel
          simp only [List.length_append, List.length_cons] at hfuel ⊢
          omega
        obtain ⟨s', timers', tms, hcheck, hdrop, h', hexp', hlist', hold, hnext, hkept'⟩ := ih h₁ hfuel₁
          (by rw [hlist, List.length_cons] at hrounds; omega) (by rw [hactive₁]; exact hadd)
        rw [hexp.timerTimeout] at hdrop hold hnext
        have hnodup := h.timerTree.nodup
        rw [hlist] at hnodup
        have hcoros : tm ∉ corosOf coros tms := by
          intro hmem
          obtain ⟨x, hx, hx'⟩ := mem_corosOf.mp hmem
          exact (h.not_mem (by simp [hlist, hlist', hx]) hx').1 (by simp [hlist])
        refine ⟨s', timers', tm :: tms, ?_, ?_, h', hexp.cons hexp' hlist
          (List.nodup_cons.mp hnodup).1 hcoros, by simp [hlist, hlist'], ?_, hnext, ?_⟩
        · simp [hm, hs₂, hs₁, hcheck]
        · rw [RbTree.dropDue_node hfirst, if_pos (not_lt.mp hdue)]
          exact hdrop
        · intro x hx
          rcases List.mem_cons.mp hx with rfl | hx
          · omega
          · exact hold x hx
        · intro x hx hsome
          rw [hlist, List.mem_cons, not_or] at hx
          exact hkept' x hx.2 (hkept x hx.1 hsome)

end Loops

/-- The sorted levels of `sched.inactive`: the timer nodes are in the order of their timeouts,
which are those of their coroutines. -/
structure SortedLevels (s : SchedHeap α) (timers : ColorTree Addr) (coros : Addr → ColorTree Addr) :
    Prop extends TwoLevel s timers coros where
  sorted : SortedBy s.timerTimeout timers
  timeouts : ∀ tm ∈ timers.toList, ∀ c ∈ (coros tm).toList, s.timeout c = s.timerTimeout tm

theorem filter_due {key : Addr → ℤ} {tms rest : List Addr}
    (hsorted : (tms ++ rest).Pairwise fun a b => key a < key b) (hdue : ∀ tm ∈ tms, key tm ≤ now)
    (hnext : ∀ tm ∈ rest.head?, now < key tm) :
    (tms ++ rest).filter (fun tm => key tm ≤ now) = tms ∧
      (tms ++ rest).filter (fun tm => now < key tm) = rest := by
  have hrest : ∀ tm ∈ rest, now < key tm := by
    cases rest with
    | nil => simp
    | cons x rest =>
      have hx := hnext x rfl
      obtain ⟨hlt, -⟩ := List.pairwise_cons.mp (List.pairwise_append.mp hsorted).2.1
      intro tm htm
      rcases List.mem_cons.mp htm with rfl | htm
      · exact hx
      · exact hx.trans (hlt tm htm)
  simp only [List.filter_append]
  constructor
  · rw [List.filter_eq_self.mpr (by simpa using hdue), List.filter_eq_nil_iff.mpr, List.append_nil]
    simpa using hrest
  · rw [List.filter_eq_nil_iff.mpr, List.filter_eq_self.mpr (by simpa using hrest), List.nil_append]
    simpa using hdue

theorem rootOrder_corosOf (coros : Addr → ColorTree Addr) (tms : List Addr) :
    (tms.flatMap fun tm => RbTree.rootOrder (coros tm)).Perm (corosOf coros tms) :=
  List.Perm.flatMap_left tms fun tm _ => RbTree.rootOrder_perm (coros tm)

/-- The expired coroutines, in the order in which they become active. -/
theorem SortedLevels.expired (h : SortedLevels s timers coros) {tms rest : List Addr}
    (hlist : timers.toList = tms ++ rest) :
    (tms.flatMap fun tm => RbTree.rootOrder (coros tm)).Perm (corosOf coros tms) ∧
      (tms.flatMap fun tm => RbTree.rootOrder (coros tm)).Pairwise
        fun a b => s.timeout a ≤ s.timeout b := by
  have hmem : ∀ tm ∈ tms, tm ∈ timers.toList := fun tm htm => by simp [hlist, htm]
  have htimeout : ∀ tm ∈ tms, ∀ c ∈ RbTree.rootOrder (coros tm), s.timeout c = s.timerTimeout tm :=
    fun tm htm c hc => h.timeouts tm (hmem tm htm) c ((RbTree.rootOrder_perm _).mem_iff.mp hc)
  constructor
  · exact rootOrder_corosOf coros tms
  · have hsorted := h.sorted
    rw [SortedBy, hlist] at hsorted
    rw [List.pairwise_flatMap]
    constructor
    · intro tm htm
      apply List.pairwise_of_forall_mem_list
      intro a ha b hb
      rw [htimeout tm htm a ha, htimeout tm htm b hb]
    · apply List.Pairwise.imp_of_mem _ (List.pairwise_append.mp hsorted).1
      intro x y hx hy hxy a ha b hb
      rw [htimeout x hx a ha, htimeout y hy b hb]
      exact hxy.le

/-- `check_timeout_coroutine` appends each coroutine that is due to the active list, once and in
the order of the timeouts, with its flag set; it frees their timer nodes, and leaves everything
else as it was. -/
theorem expiry_exact {s : SchedHeap (List Addr)} (h : SortedLevels s timers coros) (now : ℤ)
    (hfuel : (timers.toList ++ corosOf coros timers.toList).length + 2 ≤ fuel) :
    ∃ s' timers' due, SchedHeap.checkTimeoutCoroutine fuel now fuel s = some s' ∧
      s'.active = s.active ++ due ∧ due.Nodup ∧
      (∀ c, c ∈ due ↔ c ∈ corosOf coros timers.toList ∧ s.timeout c ≤ now) ∧
      (due.Pairwise fun a b => s.timeout a ≤ s.timeout b) ∧
      (∀ c, s'.activeByTimeout c = if c ∈ due then true else s.activeByTimeout c) ∧
      s'.freed = s.freed ++ timers.toList.filter (fun tm => s.timerTimeout tm ≤ now) ∧
      timers'.toList = timers.toList.filter (fun tm => now < s.timerTimeout tm) ∧
      SortedLevels s' timers' coros ∧ s'.timeout = s.timeout ∧ s'.timerTimeout = s.timerTimeout ∧
      s'.coroId = s.coroId ∧
      (∀ tm ∈ timers.toList, s.timerTimeout tm ≤ now → s'.heap.node tm = none) ∧
      (∀ x ∉ timers.toList, x ∉ due → s'.heap.node x = s.heap.node x) ∧
      ∀ tm, (tm ∈ timers.toList → now < s.timerTimeout tm) →
        s'.heap.root (.timer tm) = s.heap.root (.timer tm) := by
  have hrounds : timers.toList.length < fuel := by
    simp only [List.length_append] at hfuel
    omega
  obtain ⟨s', timers', tms, hcheck, -, h', hexp, hlist, hdue, hnext, -⟩ :=
    h.toTwoLevel.checkTimeoutCoroutine hfuel hrounds now (by rw [addAll_list]; rfl)
  have hactive := hexp.active
  rw [addAll_list] at hactive
  have hsorted := h.sorted
  rw [SortedBy, hlist] at hsorted
  obtain ⟨hold, hnew⟩ := filter_due hsorted hdue hnext
  obtain ⟨hperm, horder⟩ := h.expired hlist
  rw [← hlist] at hold hnew
  have hmem : ∀ tm, tm ∈ tms ↔ tm ∈ timers.toList ∧ s.timerTimeout tm ≤ now := by
    intro tm
    rw [← hold]
    simp
  refine ⟨s', timers', _, hcheck, (Option.some.inj hactive).symm, ?_, ?_, horder, ?_, ?_,
    hnew.symm, ?_, hexp.timeout, hexp.timerTimeout, hexp.coroId, ?_, ?_, ?_⟩
  · have hapart := h.apart
    rw [hlist, corosOf_append] at hapart
    rw [hperm.nodup_iff]
    exact hapart.of_append_right.of_append_left
  · intro c
    rw [hperm.mem_iff, mem_corosOf, mem_corosOf]
    constructor
    · rintro ⟨tm, htm, hc⟩
      obtain ⟨htm, hle⟩ := (hmem tm).mp htm
      exact ⟨⟨tm, htm, hc⟩, by rwa [h.timeouts tm htm c hc]⟩
    · rintro ⟨⟨tm, htm, hc⟩, hle⟩
      rw [h.timeouts tm htm c hc] at hle
      exact ⟨tm, (hmem tm).mpr ⟨htm, hle⟩, hc⟩
  · intro c
    rw [hexp.flags]
    rfl
  · rw [hexp.freed, hold]
  · have hsub : ∀ tm ∈ timers'.toList, tm ∈ timers.toList := fun tm htm => by simp [hlist, htm]
    refine { h' with sorted := ?_, timeouts := fun tm htm c hc => ?_ }
    · rw [SortedBy, hexp.timerTimeout]
      exact (List.pairwise_append.mp hsorted).2.1
    · rw [hexp.timeout, hexp.timerTimeout]
      exact h.timeouts tm (hsub tm htm) c hc
  · intro tm htm hle
    exact hexp.gone tm ((hmem tm).mpr ⟨htm, hle⟩)
  · intro x hx hx'
    exact hexp.nodes x hx fun hmem' => hx' (hperm.mem_iff.mpr hmem')
  · intro tm htm
    refine hexp.roots tm fun hmem' => ?_
    obtain ⟨hmem', hle⟩ := (hmem tm).mp hmem'
    exact (htm hmem').not_ge hle

/-- Two timer nodes: at 8 for the time 0 with a coroutine at 16, and below it at 32 for the time 50
with a coroutine at 24. -/
def twoTimers : SchedHeap (List Addr) where
  heap :=
    { node := fun x =>
        if x = 8 then some ⟨RB_BLACK, NULL, 32⟩
        else if x = 32 then some ⟨8, NULL, NULL⟩
        else if x = 16 ∨ x = 24 then some ⟨RB_BLACK, NULL, NULL⟩
        else none
      root := fun i => match i with
        | .inactive => 8
        | .timer tm => if tm = 8 then 16 else 24 }
  timerTimeout := fun x => if x = 32 then 50 else 0
  coroId := fun x => x.toNat
  timeout := fun x => if x = 24 then 50 else 0
  activeByTimeout := fun _ => false
  active := []
  freed := []

theorem sortedLevels_twoTimers :
    SortedLevels twoTimers (node .black nil 8 (node .red nil 32 nil))
      (fun tm => node .black nil (if tm = 8 then 16 else 24) nil) where
  timerTree := by
    have h₈ : twoTimers.heap.node 8 = some ⟨RB_BLACK, NULL, 32⟩ := rfl
    have h₃₂ : twoTimers.heap.node 32 = some ⟨8, NULL, NULL⟩ := by simp [twoTimers]
    have hred : RbNode.Is ⟨8, NULL, NULL⟩ 8 .red .left NULL NULL :=
      ⟨by decide, by decide, rfl, rfl⟩
    have hnodes : IsNode 8 ∧ IsNode 32 := by decide +kernel
    exact ⟨rfl, ⟨⟨_, h₈, RbNode.is_colored .black NULL 32⟩, trivial, ⟨_, h₃₂, hred⟩, trivial, trivial⟩,
      by decide, by simpa using hnodes⟩
  coroTree tm htm := by
    have hcases : tm = 8 ∨ tm = 32 := by simpa using htm
    rcases hcases with rfl | rfl
    · rw [if_pos rfl]
      exact holds_one rfl (by decide +kernel) (by simp [twoTimers])
    · rw [if_neg (by decide)]
      exact holds_one (by simp [twoTimers]) (by decide +kernel) (by simp [twoTimers])
  timersRedBlack := ⟨rfl, by simp [NoRedRed], 1, 0, rfl, rfl, 0, rfl, rfl, rfl⟩
  corosRedBlack tm _ := redBlack_one _
  apart := by decide
  sorted := by simp [SortedBy, twoTimers]
  timeouts := by simp [twoTimers]

/-- At the time of the first timeout, one of two coroutines becomes active. -/
theorem expiry_exact_two : ∃ s', SchedHeap.checkTimeoutCoroutine 6 0 6 twoTimers = some s' ∧
    (∀ c, c ∈ s'.active ↔ c = 16) ∧ s'.activeByTimeout 16 = true ∧
    s'.activeByTimeout 24 = false ∧ s'.freed = [8] ∧ s'.heap.root (.timer 32) = 24 := by
  obtain ⟨s', timers', due, hcheck, hactive, -, hdue, -, hflags, hfreed, -, -, -, -, -, -, -, hroots⟩ :=
    expiry_exact sortedLevels_twoTimers 0 (show _ ≤ 6 by decide)
  have hdue' : ∀ c, c ∈ due ↔ c = 16 := by
    intro c
    have hcases : c ∈ corosOf (fun tm => node .black nil (if tm = 8 then 16 else 24) nil)
        (node .black nil 8 (node .red nil 32 nil)).toList ↔ c = 16 ∨ c = 24 := by simp [corosOf]
    rw [hdue c, hcases]
    constructor
    · rintro ⟨rfl | rfl, hle⟩
      · rfl
      · simp [twoTimers] at hle
    · rintro rfl
      exact ⟨Or.inl rfl, by simp [twoTimers]⟩
  refine ⟨s', hcheck, ?_, ?_, ?_, ?_, ?_⟩
  · rw [hactive]
    exact hdue'
  · rw [hflags, if_pos ((hdue' 16).mpr rfl)]
  · rw [hflags, if_neg fun h => absurd ((hdue' 24).mp h) (by decide)]
    rfl
  · rw [hfreed]
    simp [twoTimers]
  · exact hroots 32 fun _ => by decide

end Cserv.Coro
