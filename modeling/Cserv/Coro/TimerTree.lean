import Cserv.Coro.Sched

/-!
# The two-level tree of suspended coroutines

What the searches and updates of `sched.inactive` do to the list of timer nodes, when
the nodes are sorted by timeout and the coroutines of each node by their id. The
insertion compares 32 bits of a difference and the lookup 64. The lookup is exact on
timeouts within `2 ^ 63` of each other; the insertion goes the right way, for one, on
timeouts within `2 ^ 31`.
-/
namespace Cserv.Coro

open Foundations Util Util.RbTree ColorTree

/-- Two timeouts whose difference an `int` holds. -/
def Near (a b : ℤ) : Prop := |a - b| < 2 ^ 31

theorem Near.toInt32 {a b : ℤ} (h : Near a b) : toInt32 (a - b) = a - b := by
  obtain ⟨h₁, h₂⟩ := abs_lt.mp h
  exact toInt32_of_range (by omega) (by omega)

/-- Two timeouts whose difference a `long long` holds. -/
def Fits (a b : ℤ) : Prop := |a - b| < 2 ^ 63

theorem Fits.toInt64 {a b : ℤ} (h : Fits a b) : toInt64 (a - b) = a - b := by
  obtain ⟨h₁, h₂⟩ := abs_lt.mp h
  exact toInt64_of_range (by omega) (by omega)

theorem Fits.symm {a b : ℤ} (h : Fits a b) : Fits b a := by
  rwa [Fits, abs_sub_comm]

theorem Near.fits {a b : ℤ} (h : Near a b) : Fits a b := lt_trans h (by norm_num)

theorem Near.of_ids {a b : ℕ} (ha : a < 2 ^ 31) (hb : b < 2 ^ 31) : Near a b := by
  apply abs_lt.mpr
  omega

theorem guides_of_sorted {α : Type*} {dir : α → Ordering} {xs : List α} (key : α → ℤ) (k : ℤ)
    (hsorted : xs.Pairwise fun a b => key a < key b)
    (hlt : ∀ x ∈ xs, dir x = .lt ↔ k < key x) (hgt : ∀ x ∈ xs, key x < k → dir x = .gt) :
    Guides dir xs := by
  apply List.Pairwise.imp_of_mem _ hsorted
  intro x y hx hy hxy
  by_cases h : key x < k
  · exact Or.inl (hgt x hx h)
  · exact Or.inr ((hlt y hy).mpr (by omega))

theorem sorted_between {α : Type*} (key : α → ℤ) {up : List (Crumb α)} {x : α}
    (hsorted : (before up ++ after up).Pairwise fun a b => key a < key b)
    (hbefore : ∀ y ∈ before up, key y < key x) (hafter : ∀ y ∈ after up, key x < key y) :
    (before up ++ x :: after up).Pairwise fun a b => key a < key b := by
  obtain ⟨hb, ha, hba⟩ := List.pairwise_append.mp hsorted
  refine List.pairwise_append.mpr ⟨hb, List.pairwise_cons.mpr ⟨hafter, ha⟩, fun b hb' y hy => ?_⟩
  rcases List.mem_cons.mp hy with rfl | hy
  · exact hbefore b hb'
  · exact hba b hb' y hy

theorem direction_lt {z : ℤ} : direction z = .lt ↔ z < 0 := by
  unfold direction
  split_ifs <;> simp_all

theorem direction_gt {z : ℤ} : direction z = .gt ↔ 0 < z := by
  unfold direction
  split_ifs <;> simp_all
  omega

theorem direction_eq {z : ℤ} : direction z = .eq ↔ z = 0 := by
  unfold direction
  split_ifs <;> simp_all
  · omega
  · omega
  · omega

theorem guides_exact {α : Type*} {xs : List α} (key : α → ℤ) (k : ℤ)
    (hsorted : xs.Pairwise fun a b => key a < key b) :
    Guides (fun y => direction (k - key y)) xs := by
  apply guides_of_sorted key k hsorted
  · intro y _
    rw [direction_lt]
    omega
  · intro y _ hlt
    rw [direction_gt]
    omega

/-! ## The coroutines of one timer node -/

section Node

variable {root : ColorTree ℕ} {id : ℕ}

theorem removeFromTimerNode_spec (hsorted : root.toList.Pairwise (· < ·))
    (hids : ∀ c ∈ root.toList, c < 2 ^ 31) (hid : id ∈ root.toList) :
    ∃ xs ys, root.toList = xs ++ id :: ys ∧ (removeFromTimerNode root id).toList = xs ++ ys := by
  have hdiff : ∀ c ∈ root.toList, toInt32 ((id : ℤ) - c) = (id : ℤ) - c := fun c hc =>
    (Near.of_ids (hids id hid) (hids c hc)).toInt32
  have hguide : Guides (fun each : ℕ => direction (toInt32 (id - each))) root.toList := by
    apply guides_of_sorted (fun c : ℕ => (c : ℤ)) (id : ℤ)
    · exact hsorted.imp (by omega)
    · intro c hc
      rw [hdiff c hc, direction_lt]
      omega
    · intro c hc hlt
      rw [hdiff c hc, direction_gt]
      omega
  have hself : direction (toInt32 ((id : ℤ) - id)) = .eq := by simp [direction, toInt32]
  obtain ⟨c, l, y, r, up, hdesc, hy, hlist⟩ := descend_of_mem hguide hid hself
  have hmem : y ∈ root.toList := by simp [hlist]
  have heq : y = id := by
    rw [hdiff y hmem, direction_eq] at hy
    omega
  subst heq
  refine ⟨before up ++ l.toList, r.toList ++ after up, hlist, ?_⟩
  rw [removeFromTimerNode, findInTimer, hdesc, toList_rbErase]
  simp

theorem addToTimerNode_spec (hsorted : root.toList.Pairwise (· < ·))
    (hids : ∀ c ∈ root.toList, c < 2 ^ 31) (hlt : id < 2 ^ 31) (hid : id ∉ root.toList) :
    (addToTimerNode root id).toList.Pairwise (· < ·) ∧
      (addToTimerNode root id).toList.Perm (id :: root.toList) := by
  have hdiff : ∀ c ∈ root.toList, toInt32 ((id : ℤ) - c) = (id : ℤ) - c := fun c hc =>
    (Near.of_ids hlt (hids c hc)).toInt32
  have hdir : ∀ c ∈ root.toList,
      linkDirection (toInt32 ((id : ℤ) - c)) = if id < c then .lt else .gt := by
    intro c hc
    rw [hdiff c hc, linkDirection]
    split_ifs <;> first | rfl | omega
  have hguide : Guides (fun each : ℕ => linkDirection (toInt32 (id - each))) root.toList := by
    apply guides_of_sorted (fun c : ℕ => (c : ℤ)) (id : ℤ)
    · exact hsorted.imp (by omega)
    · intro c hc
      rw [hdir c hc]
      split_ifs <;> simp_all
    · intro c hc h
      rw [hdir c hc, if_neg (by omega)]
  rcases descend_cases hguide with ⟨up, hdesc, hup, hlist⟩ | ⟨c, l, y, r, up, -, hy, hlist⟩
  · have hadd : (addToTimerNode root id).toList = before up ++ id :: after up := by
      rw [addToTimerNode, hdesc, toList_rbInsert]
    rw [hadd, hlist]
    constructor
    · rw [hlist] at hsorted
      have hkeys : (before up ++ after up).Pairwise fun a b : ℕ => (a : ℤ) < b :=
        hsorted.imp (by omega)
      have hnew := sorted_between (fun c : ℕ => (c : ℤ)) (x := id) hkeys
        (fun b hb => ?_) fun c hc => ?_
      · exact hnew.imp (by omega)
      · have h := hup.before b hb
        rw [hdir b (by simp [hlist, hb])] at h
        have hne : b ≠ id := by
          rintro rfl
          exact hid (by simp [hlist, hb])
        split_ifs at h with hlt'
        omega
      · have h := hup.after c hc
        rw [hdir c (by simp [hlist, hc])] at h
        split_ifs at h with hlt'
        omega
    · exact List.perm_middle
  · have hmem : y ∈ root.toList := by simp [hlist]
    rw [hdir y hmem] at hy
    split_ifs at hy

end Node

/-! ## The timer nodes -/

def members (ts : List TimerNode) : List ℕ := ts.flatMap fun tm => tm.root.toList

@[simp] theorem members_append (ts us : List TimerNode) :
    members (ts ++ us) = members ts ++ members us := List.flatMap_append

@[simp] theorem members_cons (tm : TimerNode) (ts : List TimerNode) :
    members (tm :: ts) = tm.root.toList ++ members ts := List.flatMap_cons

theorem mem_members {ts : List TimerNode} {id : ℕ} :
    id ∈ members ts ↔ ∃ tm ∈ ts, id ∈ tm.root.toList := List.mem_flatMap

/-- The 32-bit search of `move_to_inactive_tree` goes the way of the true differences. -/
def Files (inactive : ColorTree TimerNode) (timeout : ℤ) : Prop :=
  inactive.descend (fun tm => direction (toInt32 (timeout - tm.timeout))) [] =
    inactive.descend (fun tm => direction (timeout - tm.timeout)) []

theorem Files.of_near {inactive : ColorTree TimerNode} {timeout : ℤ}
    (h : ∀ a ∈ inactive.toList, Near timeout a.timeout) : Files inactive timeout := by
  apply descend_congr
  intro a ha
  rw [(h a ha).toInt32]

/-- The timer nodes of a scheduler whose coroutines have these fields. -/
structure Timers (coro : ℕ → Coroutine) (ts : List TimerNode) : Prop where
  nonempty : ∀ tm ∈ ts, tm.root.toList ≠ []
  sorted : ts.Pairwise fun a b => a.timeout < b.timeout
  timeout : ∀ tm ∈ ts, ∀ c ∈ tm.root.toList, (coro c).timeout = tm.timeout
  ids : ∀ tm ∈ ts, tm.root.toList.Pairwise (· < ·)
  bound : ∀ tm ∈ ts, ∀ c ∈ tm.root.toList, c < 2 ^ 31
  fits : ∀ a ∈ ts, ∀ b ∈ ts, Fits a.timeout b.timeout

namespace Timers

variable {coro : ℕ → Coroutine} {inactive : ColorTree TimerNode} {id : ℕ} {timeout : ℤ}

theorem sublist {ts us : List TimerNode} (h : Timers coro ts) (hsub : us.Sublist ts) :
    Timers coro us where
  nonempty tm htm := h.nonempty tm (hsub.subset htm)
  sorted := h.sorted.sublist hsub
  timeout tm htm := h.timeout tm (hsub.subset htm)
  ids tm htm := h.ids tm (hsub.subset htm)
  bound tm htm := h.bound tm (hsub.subset htm)
  fits a ha b hb := h.fits a (hsub.subset ha) b (hsub.subset hb)

theorem congr {coro' : ℕ → Coroutine} {ts : List TimerNode} (h : Timers coro ts)
    (heq : ∀ c ∈ members ts, (coro' c).timeout = (coro c).timeout) : Timers coro' ts :=
  { h with
    timeout := by
      intro tm htm c hc
      rw [heq c (mem_members.mpr ⟨tm, htm, hc⟩)]
      exact h.timeout tm htm c hc }

theorem replace {A B : List TimerNode} {tm : TimerNode} {root : ColorTree ℕ}
    (h : Timers coro (A ++ tm :: B)) (hne : root.toList ≠ [])
    (htimeout : ∀ c ∈ root.toList, (coro c).timeout = tm.timeout)
    (hids : root.toList.Pairwise (· < ·)) (hbound : ∀ c ∈ root.toList, c < 2 ^ 31) :
    Timers coro (A ++ { tm with root := root } :: B) := by
  have hold : ∀ a ∈ A ++ { tm with root := root } :: B,
      a = { tm with root := root } ∨ a ∈ A ++ tm :: B := by
    intro a ha
    simp only [List.mem_append, List.mem_cons] at ha ⊢
    tauto
  have htime : ∀ a ∈ A ++ { tm with root := root } :: B,
      ∃ a' ∈ A ++ tm :: B, a'.timeout = a.timeout := by
    intro a ha
    rcases hold a ha with rfl | ha
    · exact ⟨tm, by simp, rfl⟩
    · exact ⟨a, ha, rfl⟩
  constructor
  · intro a ha
    rcases hold a ha with rfl | ha
    · exact hne
    · exact h.nonempty a ha
  · have hs := h.sorted
    simp only [List.pairwise_append, List.pairwise_cons, List.mem_cons, forall_eq_or_imp] at hs ⊢
    exact hs
  · intro a ha
    rcases hold a ha with rfl | ha
    · exact htimeout
    · exact h.timeout a ha
  · intro a ha
    rcases hold a ha with rfl | ha
    · exact hids
    · exact h.ids a ha
  · intro a ha
    rcases hold a ha with rfl | ha
    · exact hbound
    · exact h.bound a ha
  · intro a ha b hb
    obtain ⟨a', ha', hat⟩ := htime a ha
    obtain ⟨b', hb', hbt⟩ := htime b hb
    rw [← hat, ← hbt]
    exact h.fits a' ha' b' hb'

theorem addNode {A B : List TimerNode} {tm : TimerNode} (h : Timers coro (A ++ B))
    (hbefore : ∀ a ∈ A, a.timeout < tm.timeout) (hafter : ∀ b ∈ B, tm.timeout < b.timeout)
    (hfits : ∀ a ∈ A ++ B, Fits tm.timeout a.timeout) (hne : tm.root.toList ≠ [])
    (htimeout : ∀ c ∈ tm.root.toList, (coro c).timeout = tm.timeout)
    (hids : tm.root.toList.Pairwise (· < ·)) (hbound : ∀ c ∈ tm.root.toList, c < 2 ^ 31) :
    Timers coro (A ++ tm :: B) := by
  have hold : ∀ a ∈ A ++ tm :: B, a = tm ∨ a ∈ A ++ B := by
    intro a ha
    simp only [List.mem_append, List.mem_cons] at ha ⊢
    tauto
  constructor
  · intro a ha
    rcases hold a ha with rfl | ha
    · exact hne
    · exact h.nonempty a ha
  · obtain ⟨hA, hB, hAB⟩ := List.pairwise_append.mp h.sorted
    apply List.pairwise_append.mpr
    refine ⟨hA, List.pairwise_cons.mpr ⟨hafter, hB⟩, ?_⟩
    intro a ha b hb
    rcases List.mem_cons.mp hb with rfl | hb
    · exact hbefore a ha
    · exact hAB a ha b hb
  · intro a ha
    rcases hold a ha with rfl | ha
    · exact htimeout
    · exact h.timeout a ha
  · intro a ha
    rcases hold a ha with rfl | ha
    · exact hids
    · exact h.ids a ha
  · intro a ha
    rcases hold a ha with rfl | ha
    · exact hbound
    · exact h.bound a ha
  · intro a ha b hb
    rcases hold a ha with rfl | ha' <;> rcases hold b hb with rfl | hb'
    · simp [Fits]
    · exact hfits b hb'
    · exact (hfits a ha').symm
    · exact h.fits a ha' b hb'

theorem timeout_inj {ts : List TimerNode} (h : Timers coro ts) {a b : TimerNode} (ha : a ∈ ts)
    (hb : b ∈ ts) (heq : a.timeout = b.timeout) : a = b := by
  have hmap : (ts.map TimerNode.timeout).Pairwise (· < ·) := List.pairwise_map.mpr h.sorted
  exact List.inj_on_of_nodup_map (hmap.imp ne_of_lt) ha hb heq

/-- The lookup of a timeout by its 64-bit difference. -/
theorem findTimerNode_spec (h : Timers coro inactive.toList) {tm : TimerNode}
    (htm : tm ∈ inactive.toList) :
    ∃ c l r up, findTimerNode inactive tm.timeout = (.node c l tm r, up) ∧
      inactive.toList = (before up ++ l.toList) ++ tm :: (r.toList ++ after up) := by
  have hdiff : ∀ a ∈ inactive.toList,
      toInt64 (tm.timeout - a.timeout) = tm.timeout - a.timeout := fun a ha =>
    (h.fits tm htm a ha).toInt64
  have hguide : Guides (fun a : TimerNode => direction (toInt64 (tm.timeout - a.timeout)))
      inactive.toList := by
    apply guides_of_sorted (fun a : TimerNode => a.timeout) tm.timeout h.sorted
    · intro a ha
      rw [hdiff a ha, direction_lt]
      omega
    · intro a ha hlt
      rw [hdiff a ha, direction_gt]
      omega
  have hself : direction (toInt64 (tm.timeout - tm.timeout)) = .eq := by simp [direction, toInt64]
  obtain ⟨c, l, y, r, up, hdesc, hy, hlist⟩ := descend_of_mem hguide htm hself
  have hmem : y ∈ inactive.toList := by simp [hlist]
  have heq : y = tm := by
    rw [hdiff y hmem, direction_eq] at hy
    exact h.timeout_inj hmem htm (by omega)
  subst heq
  exact ⟨c, l, r, up, hdesc, hlist⟩

/-- `remove_from_inactive_tree` takes a member out, and its timer node with the last one. -/
theorem remove (h : Timers coro inactive.toList) (hid : id ∈ members inactive.toList) :
    Timers coro (removeFromInactiveTree inactive id (coro id).timeout).toList ∧
      (members inactive.toList).Perm
        (id :: members (removeFromInactiveTree inactive id (coro id).timeout).toList) := by
  obtain ⟨tm, htm, hmem⟩ := mem_members.mp hid
  rw [h.timeout tm htm id hmem]
  obtain ⟨c, l, r, up, hfind, hlist⟩ := h.findTimerNode_spec htm
  obtain ⟨xs, ys, hroot, hremoved⟩ :=
    removeFromTimerNode_spec (h.ids tm htm) (h.bound tm htm) hmem
  have hperm : ∀ ws, (members (before up ++ l.toList) ++ (tm.root.toList ++ ws)).Perm
      (id :: (members (before up ++ l.toList) ++ ((xs ++ ys) ++ ws))) := by
    intro ws
    have h₁ : ((members (before up ++ l.toList) ++ xs) ++ id :: (ys ++ ws)).Perm
        (id :: ((members (before up ++ l.toList) ++ xs) ++ (ys ++ ws))) := List.perm_middle
    rw [hroot]
    simpa using h₁
  cases hrm : removeFromTimerNode tm.root id with
  | nil =>
    have hnew : (removeFromInactiveTree inactive id tm.timeout).toList =
        (before up ++ l.toList) ++ (r.toList ++ after up) := by
      simp only [removeFromInactiveTree, hfind, hrm, toList_rbErase, List.append_assoc]
    have hempty : xs ++ ys = [] := by rw [← hremoved, hrm, toList_nil]
    rw [hnew, hlist]
    rw [hlist] at h
    constructor
    · apply h.sublist
      exact (List.Sublist.refl _).append (List.sublist_cons_self _ _)
    · have h₁ := hperm (members (r.toList ++ after up))
      rw [hempty] at h₁
      simpa using h₁
  | node c' l' x' r' =>
    have hnew : (removeFromInactiveTree inactive id tm.timeout).toList =
        (before up ++ l.toList) ++
          { tm with root := removeFromTimerNode tm.root id } :: (r.toList ++ after up) := by
      simp [removeFromInactiveTree, hfind, hrm]
    have hsub : (xs ++ ys).Sublist tm.root.toList := by
      rw [hroot]
      exact (List.Sublist.refl _).append (List.sublist_cons_self _ _)
    rw [hnew, hlist]
    constructor
    · rw [hlist] at h
      apply h.replace
      · simp [hrm]
      · intro d hd
        rw [hremoved] at hd
        exact h.timeout tm (by simp) d (hsub.subset hd)
      · rw [hremoved]
        exact (h.ids tm (by simp)).sublist hsub
      · intro d hd
        rw [hremoved] at hd
        exact h.bound tm (by simp) d (hsub.subset hd)
    · have h₁ := hperm (members (r.toList ++ after up))
      rw [← hremoved] at h₁
      simpa using h₁

/-- `move_to_inactive_tree` puts a coroutine into the timer node of its timeout, or into a new
one at its place, if its 32-bit search goes where the true differences lead. -/
theorem insert (h : Timers coro inactive.toList) (hid : id ∉ members inactive.toList)
    (hlt : id < 2 ^ 31) (hfits : ∀ a ∈ inactive.toList, Fits timeout a.timeout)
    (hfiles : Files inactive timeout) (htime : (coro id).timeout = timeout) :
    Timers coro (moveToInactiveTree inactive id timeout true).toList ∧
      (members (moveToInactiveTree inactive id timeout true).toList).Perm
        (id :: members inactive.toList) := by
  unfold Files at hfiles
  rcases descend_cases (guides_exact TimerNode.timeout timeout h.sorted) with
    ⟨up, hdesc, hup, hlist⟩ | ⟨c, l, tm, r, up, hdesc, htm, hlist⟩
  · have hnew : (moveToInactiveTree inactive id timeout true).toList =
        before up ++ ⟨timeout, addToTimerNode .nil id⟩ :: after up := by
      simp [moveToInactiveTree, hfiles, hdesc]
    have hsingle : (addToTimerNode .nil id).toList = [id] := by
      simp [addToTimerNode, descend, before, after]
    rw [hnew, hlist]
    rw [hlist] at h hfits
    constructor
    · apply h.addNode
      · intro a ha
        have hgt := hup.before a ha
        rw [direction_gt] at hgt
        dsimp only
        omega
      · intro b hb
        have hlt := hup.after b hb
        rw [direction_lt] at hlt
        dsimp only
        omega
      · exact hfits
      · simp [hsingle]
      · simp [hsingle, htime]
      · simp [hsingle]
      · simpa [hsingle] using hlt
    · simp only [members_append, members_cons, hsingle]
      exact List.perm_middle
  · have hmem : tm ∈ inactive.toList := by simp [hlist]
    have hkey : tm.timeout = timeout := by
      rw [direction_eq] at htm
      omega
    have hnew : (moveToInactiveTree inactive id timeout true).toList =
        (before up ++ l.toList) ++
          { tm with root := addToTimerNode tm.root id } :: (r.toList ++ after up) := by
      simp [moveToInactiveTree, hfiles, hdesc]
    have hnot : id ∉ tm.root.toList := fun hc => hid (mem_members.mpr ⟨tm, hmem, hc⟩)
    obtain ⟨hsorted, hperm⟩ := addToTimerNode_spec (h.ids tm hmem) (h.bound tm hmem) hlt hnot
    rw [hnew, hlist]
    constructor
    · rw [hlist] at h
      apply h.replace
      · intro hnil
        simp [hnil] at hperm
      · intro c hc
        rcases List.mem_cons.mp (hperm.subset hc) with rfl | hc
        · rw [htime, hkey]
        · exact h.timeout tm (by simp) c hc
      · exact hsorted
      · intro c hc
        rcases List.mem_cons.mp (hperm.subset hc) with rfl | hc
        · exact hlt
        · exact h.bound tm (by simp) c hc
    · have h₁ : (members (before up ++ l.toList) ++ (addToTimerNode tm.root id).toList ++
          members (r.toList ++ after up)).Perm
          (id :: (members (before up ++ l.toList) ++ tm.root.toList ++
            members (r.toList ++ after up))) := by
        refine ((hperm.append_left _).append_right _).trans ?_
        rw [List.append_assoc, List.append_assoc, List.cons_append]
        exact List.perm_middle
      simpa using h₁

end Timers

end Cserv.Coro
