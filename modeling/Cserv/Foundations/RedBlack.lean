import Cserv.Foundations.Zipper

/-!
# Red-black trees

The balance of a coloured tree: the root is black, no red node has a red child, and all
paths down to an empty child have the same number of black nodes. The conditions split at a
zipper into those on the subtree and those on the path above it.
-/
namespace Cserv.Foundations

/-- What a node adds to the number of black nodes on a path. -/
def Color.weight : Color → ℕ
  | red => 0
  | black => 1

namespace ColorTree

variable {α : Type*}

/-- The colour of the root; an empty tree counts as black. -/
def rootColor : ColorTree α → Color
  | nil => .black
  | node c _ _ _ => c

def NoRedRed : ColorTree α → Prop
  | nil => True
  | node c l _ r =>
    (c = .red → l.rootColor = .black ∧ r.rootColor = .black) ∧ l.NoRedRed ∧ r.NoRedRed

/-- Every path down to an empty child has `n` black nodes. -/
def Balanced (n : ℕ) : ColorTree α → Prop
  | nil => n = 0
  | node c l _ r => ∃ k, n = k + c.weight ∧ l.Balanced k ∧ r.Balanced k

structure RedBlack (t : ColorTree α) : Prop where
  root : t.rootColor = .black
  noRedRed : t.NoRedRed
  balanced : ∃ n, t.Balanced n

variable {s : Side} {c h : Color} {t u : ColorTree α} {x : α} {up : List (Crumb α)} {k n : ℕ}

theorem redBlack_nil : (nil : ColorTree α).RedBlack := ⟨rfl, trivial, 0, rfl⟩

@[simp] theorem rootColor_nil : (nil : ColorTree α).rootColor = .black := rfl

@[simp] theorem rootColor_branch : (branch s c t x u).rootColor = c := by
  cases s <;> rfl

@[simp] theorem noRedRed_nil : (nil : ColorTree α).NoRedRed := trivial

@[simp] theorem noRedRed_branch : (branch s c t x u).NoRedRed ↔
    (c = .red → t.rootColor = .black ∧ u.rootColor = .black) ∧ t.NoRedRed ∧ u.NoRedRed := by
  cases s with
  | left => exact Iff.rfl
  | right => simp only [branch, NoRedRed, and_comm]

@[simp] theorem balanced_nil : (nil : ColorTree α).Balanced n ↔ n = 0 := Iff.rfl

@[simp] theorem balanced_branch : (branch s c t x u).Balanced n ↔
    ∃ k, n = k + c.weight ∧ t.Balanced k ∧ u.Balanced k := by
  cases s with
  | left => exact Iff.rfl
  | right => simp only [branch, Balanced, and_comm]

theorem Balanced.black (ht : t.Balanced k) (hu : u.Balanced k) :
    (branch s .black t x u).Balanced (k + 1) := balanced_branch.mpr ⟨k, rfl, ht, hu⟩

theorem Balanced.red (ht : t.Balanced k) (hu : u.Balanced k) :
    (branch s .red t x u).Balanced k := balanced_branch.mpr ⟨k, rfl, ht, hu⟩

theorem Balanced.of_black (h : (branch s .black t x u).Balanced (k + 1)) :
    t.Balanced k ∧ u.Balanced k := by
  obtain ⟨j, hj, ht, hu⟩ := balanced_branch.mp h
  obtain rfl : k = j := Nat.succ.inj hj
  exact ⟨ht, hu⟩

theorem Balanced.of_red (h : (branch s .red t x u).Balanced k) : t.Balanced k ∧ u.Balanced k := by
  obtain ⟨j, rfl, ht, hu⟩ := balanced_branch.mp h
  exact ⟨ht, hu⟩

theorem Balanced.ne_nil (h : t.Balanced (k + 1)) : t ≠ nil := by
  rintro rfl
  exact Nat.succ_ne_zero k h

/-! ## Paths -/

/-- No red node has a red child on the path above a subtree whose root has colour `h`. -/
def RedPath : Color → List (Crumb α) → Prop
  | _, [] => True
  | h, .left c _ r :: up =>
    (c = .red → h = .black ∧ r.rootColor = .black) ∧ r.NoRedRed ∧ RedPath c up
  | h, .right c l _ :: up =>
    (c = .red → h = .black ∧ l.rootColor = .black) ∧ l.NoRedRed ∧ RedPath c up

/-- A subtree with `k` black nodes on its paths makes a tree with `n` of them. -/
def BalancedPath : ℕ → ℕ → List (Crumb α) → Prop
  | k, n, [] => k = n
  | k, n, .left c _ r :: up => r.Balanced k ∧ BalancedPath (k + c.weight) n up
  | k, n, .right c l _ :: up => l.Balanced k ∧ BalancedPath (k + c.weight) n up

/-- The colour of the root above a subtree whose own root has colour `h`. -/
def pathRoot : Color → List (Crumb α) → Color
  | h, [] => h
  | _, .left c _ _ :: up => pathRoot c up
  | _, .right c _ _ :: up => pathRoot c up

theorem redPath_on : RedPath h (Crumb.on s c x u :: up) ↔
    (c = .red → h = .black ∧ u.rootColor = .black) ∧ u.NoRedRed ∧ RedPath c up := by
  cases s <;> exact Iff.rfl

theorem balancedPath_on : BalancedPath k n (Crumb.on s c x u :: up) ↔
    u.Balanced k ∧ BalancedPath (k + c.weight) n up := by
  cases s <;> exact Iff.rfl

theorem pathRoot_on : pathRoot h (Crumb.on s c x u :: up) = pathRoot c up := by
  cases s <;> rfl

theorem RedPath.black (hup : RedPath h up) : RedPath .black up := by
  cases up with
  | nil => trivial
  | cons k up =>
    obtain ⟨s, c, x, u, rfl⟩ := k.exists_on
    rw [redPath_on] at hup ⊢
    exact ⟨fun hc => ⟨rfl, (hup.1 hc).2⟩, hup.2⟩

theorem noRedRed_plug (t : ColorTree α) (up : List (Crumb α)) :
    (plug t up).NoRedRed ↔ t.NoRedRed ∧ RedPath t.rootColor up := by
  induction up generalizing t with
  | nil => simp [plug, RedPath]
  | cons k up ih =>
    obtain ⟨s, c, x, u, rfl⟩ := k.exists_on
    rw [plug_on, ih, redPath_on, noRedRed_branch, rootColor_branch]
    tauto

theorem balanced_plug (t : ColorTree α) (up : List (Crumb α)) :
    (plug t up).Balanced n ↔ ∃ k, t.Balanced k ∧ BalancedPath k n up := by
  induction up generalizing t with
  | nil => simp [plug, BalancedPath]
  | cons k up ih =>
    obtain ⟨s, c, x, u, rfl⟩ := k.exists_on
    rw [plug_on, ih]
    constructor
    · rintro ⟨j, hj, hup⟩
      obtain ⟨i, rfl, ht, hu⟩ := balanced_branch.mp hj
      exact ⟨i, ht, balancedPath_on.mpr ⟨hu, hup⟩⟩
    · rintro ⟨i, ht, hup⟩
      obtain ⟨hu, hup⟩ := balancedPath_on.mp hup
      exact ⟨i + c.weight, balanced_branch.mpr ⟨i, rfl, ht, hu⟩, hup⟩

theorem rootColor_plug (t : ColorTree α) (up : List (Crumb α)) :
    (plug t up).rootColor = pathRoot t.rootColor up := by
  induction up generalizing t with
  | nil => rfl
  | cons k up ih =>
    obtain ⟨s, c, x, u, rfl⟩ := k.exists_on
    rw [plug_on, ih, pathRoot_on, rootColor_branch]

/-- The path above a subtree of a red-black tree with `k` black nodes on the paths of the
subtree, whose root has colour `h` or is black. -/
structure Above (h : Color) (k : ℕ) (up : List (Crumb α)) : Prop where
  root : pathRoot .black up = .black
  red : RedPath h up
  balanced : ∃ n, BalancedPath k n up

theorem RedBlack.above (hrb : (plug t up).RedBlack) :
    ∃ k, t.NoRedRed ∧ t.Balanced k ∧ Above t.rootColor k up := by
  obtain ⟨hroot, hred, n, hbal⟩ := hrb
  obtain ⟨ht, hup⟩ := (noRedRed_plug t up).mp hred
  obtain ⟨k, hk, hpath⟩ := (balanced_plug t up).mp hbal
  refine ⟨k, ht, hk, ?_, hup, n, hpath⟩
  rw [rootColor_plug] at hroot
  cases up with
  | nil => rfl
  | cons k up =>
    obtain ⟨s, c, x, u, rfl⟩ := k.exists_on
    rwa [pathRoot_on] at hroot ⊢

theorem Above.black (hup : Above h k up) : Above .black k up :=
  { hup with red := hup.red.black }

theorem above_on : Above h k (Crumb.on s c x u :: up) ↔
    pathRoot c up = .black ∧ (c = .red → h = .black ∧ u.rootColor = .black) ∧ u.NoRedRed ∧
      u.Balanced k ∧ Above c (k + c.weight) up := by
  constructor
  · rintro ⟨hroot, hred, n, hbal⟩
    rw [pathRoot_on] at hroot
    obtain ⟨h₁, h₂, h₃⟩ := redPath_on.mp hred
    obtain ⟨h₄, h₅⟩ := balancedPath_on.mp hbal
    refine ⟨hroot, h₁, h₂, h₄, ?_, h₃, n, h₅⟩
    cases up with
    | nil => rfl
    | cons k up =>
      obtain ⟨s, c, x, u, rfl⟩ := k.exists_on
      rwa [pathRoot_on] at hroot ⊢
  · rintro ⟨hroot, h₁, h₂, h₄, -, h₃, n, h₅⟩
    refine ⟨?_, redPath_on.mpr ⟨h₁, h₂, h₃⟩, n, balancedPath_on.mpr ⟨h₄, h₅⟩⟩
    rwa [pathRoot_on]

theorem Above.noRedRed_plug (hup : Above t.rootColor k up) (ht : t.NoRedRed) :
    (plug t up).NoRedRed := (ColorTree.noRedRed_plug t up).mpr ⟨ht, hup.red⟩

theorem Above.balanced_plug (hup : Above h k up) (ht : t.Balanced k) :
    ∃ n, (plug t up).Balanced n := by
  obtain ⟨n, hn⟩ := hup.balanced
  exact ⟨n, (ColorTree.balanced_plug t up).mpr ⟨k, ht, hn⟩⟩

theorem Above.redBlack_plug (hup : Above .black k up) (hroot : t.rootColor = .black)
    (ht : t.NoRedRed) (hk : t.Balanced k) : (plug t up).RedBlack where
  root := by rw [rootColor_plug, hroot, hup.root]
  noRedRed := by
    rw [← hroot] at hup
    exact hup.noRedRed_plug ht
  balanced := hup.balanced_plug hk

end ColorTree

end Cserv.Foundations
