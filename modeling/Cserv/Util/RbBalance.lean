import Cserv.Foundations.RedBlack
import Cserv.Util.RbTree

/-!
# The balance of red-black trees

`rb_insert_color` and `rb_erase` keep a tree red-black. The source has each case twice, once
for each side; here a case is one equation over a `Side`, and the loops climb with the
invariant that the tree is red-black but for the place they stand at.
-/
namespace Cserv.Util

open Foundations

variable {α : Type*}

namespace RbTree

open ColorTree

variable {s s' : Side} {c c' : Color} {t u v a b child : ColorTree α} {x y z g : α}
  {up : List (Crumb α)} {k n : ℕ}

theorem isRed_eq (t : ColorTree α) : isRed t = decide (t.rootColor = .red) := by
  cases t with
  | nil => rfl
  | node c l x r => cases c <;> rfl

theorem isRed_iff : isRed t = true ↔ t.rootColor = .red := by
  rw [isRed_eq, decide_eq_true_iff]

theorem isRed_false_iff : isRed t = false ↔ t.rootColor = .black := by
  rw [isRed_eq, decide_eq_false_iff_not]
  cases t.rootColor <;> simp

@[simp] theorem isRed_node (l r : ColorTree α) : isRed (node c l x r) = decide (c = .red) := by
  rw [isRed_eq]
  rfl

@[simp] theorem isRed_branch : isRed (branch s c t x u) = decide (c = .red) := by
  rw [isRed_eq, rootColor_branch]

@[simp] theorem setBlack_branch : setBlack (branch s c t x u) = branch s .black t x u := by
  cases s <;> rfl

@[simp] theorem rootColor_setBlack (t : ColorTree α) : (setBlack t).rootColor = .black := by
  cases t <;> rfl

theorem setBlack_eq (h : t.rootColor = .black) : setBlack t = t := by
  cases t with
  | nil => rfl
  | node c l x r =>
    obtain rfl : c = .black := h
    rfl

theorem NoRedRed.setBlack (h : t.NoRedRed) : (setBlack t).NoRedRed := by
  cases t with
  | nil => trivial
  | node c l x r => exact ⟨nofun, h.2⟩

theorem redBlack_setBlack (h : (setBlack t).NoRedRed) (hn : t.Balanced n) :
    (setBlack t).RedBlack where
  root := rootColor_setBlack t
  noRedRed := h
  balanced := by
    cases t with
    | nil => exact ⟨0, rfl⟩
    | node c l x r =>
      obtain ⟨k, -, hl, hr⟩ := hn
      exact ⟨k + 1, k, rfl, hl, hr⟩

/-! ## Insertion -/

theorem insertLoop_red (hv : isRed v = true) :
    insertLoop t (.on s' .red x u :: .on s c g v :: up) =
      insertLoop (branch s .red (branch s' .black t x u) g (setBlack v)) up := by
  cases s <;> cases s' <;> simp [Crumb.on, insertLoop, hv, branch]

theorem insertLoop_outer (hv : isRed v = false) :
    insertLoop t (.on s .red x u :: .on s c g v :: up) =
      plug (branch s .black t x (branch s .red u g v)) up := by
  cases s <;> simp [Crumb.on, insertLoop, hv, branch, rotateLeft, rotateRight]

theorem insertLoop_inner (hv : isRed v = false) :
    insertLoop (branch s c' a y b) (.on s.flip .red x u :: .on s c g v :: up) =
      plug (branch s .black (branch s .red u x a) y (branch s .red b g v)) up := by
  cases s <;> simp [Crumb.on, Side.flip, insertLoop, hv, branch, rotateLeft, rotateRight]

theorem insertLoop_black :
    insertLoop t (.on s .black x u :: up) = plug t (.on s .black x u :: up) := by
  cases s <;> simp [Crumb.on, insertLoop]

/-- The loop of `rb_insert_color`: a red subtree stands below the path, and it is the only one
that may have a red parent. -/
theorem insertLoop_balanced (hroot : t.rootColor = .red) (ht : t.NoRedRed) (hk : t.Balanced k)
    (hup : Above .black k up) :
    (insertLoop t up).NoRedRed ∧ ∃ n, (insertLoop t up).Balanced n := by
  induction hlen : up.length using Nat.strong_induction_on generalizing t k up with
  | _ len ih =>
  cases up with
  | nil => exact ⟨ht, k, hk⟩
  | cons p up =>
    obtain ⟨s', c', x, u, rfl⟩ := p.exists_on
    obtain ⟨hpath, hred, hu, hku, hup'⟩ := above_on.mp hup
    cases c' with
    | black =>
      have hup'' : Above t.rootColor k (.on s' .black x u :: up) :=
        above_on.mpr ⟨hpath, nofun, hu, hku, hup'⟩
      rw [insertLoop_black]
      exact ⟨hup''.noRedRed_plug ht, hup''.balanced_plug hk⟩
    | red =>
      cases up with
      | nil => cases hpath
      | cons q up =>
        -- the parent is red, so that there is a grandparent and it is black
        obtain ⟨s, c, g, v, rfl⟩ := q.exists_on
        obtain ⟨hpath', hred', hv, hkv, hrest⟩ := above_on.mp hup'
        obtain rfl : c = .black := by
          cases c with
          | black => rfl
          | red => cases (hred' rfl).1
        have huroot := (hred rfl).2
        cases hvred : isRed v with
        | true =>
          rw [insertLoop_red hvred]
          refine ih up.length (by rw [← hlen]; simp only [List.length_cons]; omega) ?_ ?_ ?_ hrest rfl
          · exact rootColor_branch
          · simp [ht, hu, NoRedRed.setBlack hv]
          · obtain ⟨cv, v₁, w, v₂, rfl⟩ := exists_branch s (t := v) (by rintro rfl; cases hvred)
            obtain rfl : cv = .red := by simpa using hvred
            obtain ⟨h₁, h₂⟩ := hkv.of_red
            rw [setBlack_branch]
            exact (hk.black hku).red (h₁.black h₂)
        | false =>
          have hvroot := isRed_false_iff.mp hvred
          by_cases hside : s' = s
          · subst hside
            rw [insertLoop_outer hvred]
            constructor
            · apply Above.noRedRed_plug (k := k + 1)
              · rw [rootColor_branch]
                exact hrest
              · simp [ht, hu, hv, huroot, hvroot]
            · exact hrest.balanced_plug (hk.black (hku.red hkv))
          · obtain rfl : s' = s.flip := by
              cases s <;> cases s' <;> first | rfl | exact absurd rfl hside
            obtain ⟨ct, a, y, b, rfl⟩ := exists_branch s (t := t) (by rintro rfl; cases hroot)
            obtain rfl : ct = .red := by simpa using hroot
            obtain ⟨hab, ha, hb⟩ := noRedRed_branch.mp ht
            obtain ⟨hka, hkb⟩ := hk.of_red
            rw [insertLoop_inner hvred]
            constructor
            · apply Above.noRedRed_plug (k := k + 1)
              · rw [rootColor_branch]
                exact hrest
              · simp [ha, hb, hu, hv, huroot, hvroot, hab rfl]
            · exact hrest.balanced_plug ((hku.red hka).black (hkb.red hkv))

/-- `rb_link_node` at an empty child link of a red-black tree and `rb_insert_color` make a
red-black tree. -/
theorem rbInsert_redBlack (x : α) (h : (plug nil up).RedBlack) : (rbInsert x up).RedBlack := by
  obtain ⟨k, -, hk, hup⟩ := h.above
  have hnode : node .red nil x nil = branch .left .red nil x nil := rfl
  have hloop : (insertLoop (node .red nil x nil) up).NoRedRed ∧
      ∃ n, (insertLoop (node .red nil x nil) up).Balanced n := by
    apply insertLoop_balanced (k := k) _ _ _ hup
    · rfl
    · simp [hnode]
    · rw [hnode]
      exact hk.red hk
  obtain ⟨hred, n, hn⟩ := hloop
  exact redBlack_setBlack (NoRedRed.setBlack hred) hn

/-! ## Removal -/

theorem rbEraseColor_red (h : isRed t = true) (up : List (Crumb α)) :
    rbEraseColor t up = plug (setBlack t) up := by
  cases up with
  | nil => simp [rbEraseColor, plug]
  | cons k up => cases k <;> simp [rbEraseColor, h]

theorem rbEraseColor_push (ht : isRed t = false) (ha : isRed a = false) (hb : isRed b = false) :
    rbEraseColor t (.on s c x (branch s .black a y b) :: up) =
      rbEraseColor (branch s c t x (branch s .red a y b)) up := by
  cases s <;> simp [Crumb.on, rbEraseColor, branch, ht, ha, hb]

theorem rbEraseColor_far (ht : isRed t = false) (hb : isRed b = true) :
    rbEraseColor t (.on s c x (branch s .black a y b) :: up) =
      setBlack (plug (branch s c (branch s .black t x a) y (setBlack b)) up) := by
  cases s <;>
    simp [Crumb.on, rbEraseColor, branch, borrowLeft, borrowRight, rotateLeft, rotateRight, ht, hb]

theorem rbEraseColor_near (ht : isRed t = false) (hb : isRed b = false) :
    rbEraseColor t (.on s c x (branch s .black (branch s .red a z u) y b) :: up) =
      setBlack (plug (branch s c (branch s .black t x a) z (branch s .black u y b)) up) := by
  cases s <;>
    simp [Crumb.on, rbEraseColor, branch, borrowLeft, borrowRight, rotateLeft, rotateRight, ht, hb]

theorem rbEraseColor_rotate (ht : isRed t = false) :
    rbEraseColor t (.on s c x (branch s .red (branch s .black a y b) z u) :: up) =
      rbEraseColor t (.on s .red x (branch s .black a y b) :: .on s .black z u :: up) := by
  cases s <;> cases hab : isRed a || isRed b <;>
    simp_all [Crumb.on, rbEraseColor, branch]

theorem rbEraseColor_redBlack_of_red (hroot : t.rootColor = .red) (ht : (setBlack t).NoRedRed)
    (hk : t.Balanced k) (hup : Above .black (k + 1) up) : (rbEraseColor t up).RedBlack := by
  rw [rbEraseColor_red (isRed_iff.mpr hroot)]
  obtain ⟨ct, a, y, b, rfl⟩ := exists_branch .left (t := t) (by rintro rfl; cases hroot)
  obtain rfl : ct = .red := by simpa using hroot
  obtain ⟨h₁, h₂⟩ := hk.of_red
  apply hup.redBlack_plug (rootColor_setBlack _) ht
  rw [setBlack_branch]
  exact h₁.black h₂

theorem rbEraseColor_redBlack_step (hroot : t.rootColor = .black) (ht : t.NoRedRed)
    (hk : t.Balanced k) (hup : Above .black (k + 1) (.on s c x (branch s .black a y b) :: up))
    (hnext : a.rootColor = .black → b.rootColor = .black →
      (rbEraseColor (branch s c t x (branch s .red a y b)) up).RedBlack) :
    (rbEraseColor t (.on s c x (branch s .black a y b) :: up)).RedBlack := by
  have hblack := isRed_false_iff.mpr hroot
  obtain ⟨-, -, hother, hbal, hrest⟩ := above_on.mp hup
  obtain ⟨-, ha, hb⟩ := noRedRed_branch.mp hother
  obtain ⟨hka, hkb⟩ := hbal.of_black
  cases hbred : isRed b with
  | true =>
    obtain ⟨cb, b₁, w, b₂, rfl⟩ := exists_branch s (t := b) (by rintro rfl; cases hbred)
    obtain rfl : cb = .red := by simpa using hbred
    obtain ⟨-, hb₁, hb₂⟩ := noRedRed_branch.mp hb
    obtain ⟨hk₁, hk₂⟩ := hkb.of_red
    have hnew : (branch s c (branch s .black t x a) y (setBlack (branch s .red b₁ w b₂))).Balanced
        (k + 1 + c.weight) := by
      rw [setBlack_branch]
      exact balanced_branch.mpr ⟨k + 1, rfl, hk.black hka, hk₁.black hk₂⟩
    rw [rbEraseColor_far hblack hbred]
    obtain ⟨n, hn⟩ := hrest.balanced_plug hnew
    apply redBlack_setBlack (NoRedRed.setBlack _) hn
    apply Above.noRedRed_plug (k := k + 1 + c.weight)
    · rw [rootColor_branch]
      exact hrest
    · simp [ht, ha, hb₁, hb₂]
  | false =>
    cases hared : isRed a with
    | false =>
      rw [rbEraseColor_push hblack hared hbred]
      exact hnext (isRed_false_iff.mp hared) (isRed_false_iff.mp hbred)
    | true =>
      obtain ⟨ca, a₁, w, a₂, rfl⟩ := exists_branch s (t := a) (by rintro rfl; cases hared)
      obtain rfl : ca = .red := by simpa using hared
      obtain ⟨-, ha₁, ha₂⟩ := noRedRed_branch.mp ha
      obtain ⟨hk₁, hk₂⟩ := hka.of_red
      have hnew : (branch s c (branch s .black t x a₁) w (branch s .black a₂ y b)).Balanced
          (k + 1 + c.weight) :=
        balanced_branch.mpr ⟨k + 1, rfl, hk.black hk₁, hk₂.black hkb⟩
      rw [rbEraseColor_near hblack hbred]
      obtain ⟨n, hn⟩ := hrest.balanced_plug hnew
      apply redBlack_setBlack (NoRedRed.setBlack _) hn
      apply Above.noRedRed_plug (k := k + 1 + c.weight)
      · rw [rootColor_branch]
        exact hrest
      · simp [ht, ha₁, ha₂, hb]

theorem exists_sibling (hup : Above .black (k + 1) (.on s c x u :: up)) :
    ∃ cu a y b, u = branch s cu a y b := by
  obtain ⟨-, -, -, hbal, -⟩ := above_on.mp hup
  exact exists_branch s hbal.ne_nil

theorem above_rotate (hup : Above .black (k + 1) (.on s c x (branch s .red a y b) :: up)) :
    ∃ a₁ z a₂, a = branch s .black a₁ z a₂ ∧ c = .black ∧
      Above .black (k + 1) (.on s .red x a :: .on s .black y b :: up) := by
  obtain ⟨hpath, hred, hother, hbal, hrest⟩ := above_on.mp hup
  obtain ⟨hroots, ha, hb⟩ := noRedRed_branch.mp hother
  obtain ⟨haroot, hbroot⟩ := hroots rfl
  obtain ⟨hka, hkb⟩ := hbal.of_red
  obtain ⟨ca, a₁, z, a₂, rfl⟩ := exists_branch s hka.ne_nil
  obtain rfl : ca = .black := by simpa using haroot
  have hc : c = .black := by
    cases c with
    | black => rfl
    | red => cases (hred rfl).2.symm.trans rootColor_branch
  subst hc
  refine ⟨a₁, z, a₂, rfl, rfl, above_on.mpr ⟨?_, ?_, ha, hka, above_on.mpr ⟨?_, nofun, hb, hkb, hrest⟩⟩⟩
  · rw [pathRoot_on]
    exact hpath
  · exact fun _ => ⟨rfl, haroot⟩
  · exact hpath

/-- `__rb_erase_color`: the paths through the subtree lack one black node. -/
theorem rbEraseColor_redBlack (ht : (setBlack t).NoRedRed) (hk : t.Balanced k)
    (hup : Above .black (k + 1) up) : (rbEraseColor t up).RedBlack := by
  induction up generalizing t k with
  | nil =>
    rw [rbEraseColor]
    exact redBlack_setBlack ht hk
  | cons q up ih =>
    cases hroot : t.rootColor with
    | red => exact rbEraseColor_redBlack_of_red hroot ht hk hup
    | black =>
      rw [setBlack_eq hroot] at ht
      obtain ⟨s, c, x, u, rfl⟩ := q.exists_on
      obtain ⟨cu, a, y, b, rfl⟩ := exists_sibling hup
      cases cu with
      | black =>
        apply rbEraseColor_redBlack_step hroot ht hk hup
        intro ha hb
        obtain ⟨-, -, hother, hbal, hrest⟩ := above_on.mp hup
        obtain ⟨-, ha', hb'⟩ := noRedRed_branch.mp hother
        obtain ⟨hka, hkb⟩ := hbal.of_black
        apply ih (k := k + c.weight)
        · simp [ht, ha', hb', ha, hb]
        · exact balanced_branch.mpr ⟨k, rfl, hk, hka.red hkb⟩
        · rw [show k + c.weight + 1 = k + 1 + c.weight by omega]
          exact hrest.black
      | red =>
        obtain ⟨a₁, z, a₂, rfl, rfl, hrot⟩ := above_rotate hup
        rw [rbEraseColor_rotate (isRed_false_iff.mpr hroot)]
        apply rbEraseColor_redBlack_step hroot ht hk hrot
        intro ha hb
        obtain ⟨-, -, hother, hbal, hrest⟩ := above_on.mp hrot
        obtain ⟨-, ha', hb'⟩ := noRedRed_branch.mp hother
        obtain ⟨hka, hkb⟩ := hbal.of_black
        apply rbEraseColor_redBlack_of_red (k := k) rootColor_branch
        · simp [ht, ha', hb', ha, hb]
        · exact hk.red (hka.red hkb)
        · exact hrest.black

theorem above_one (h : (plug (branch s c nil x child) up).RedBlack) :
    ∃ k, child.NoRedRed ∧ child.Balanced k ∧ (c = .red → child.rootColor = .black) ∧
      Above c (k + c.weight) up := by
  obtain ⟨k, ht, hk, hup⟩ := h.above
  obtain ⟨hred, -, hchild⟩ := noRedRed_branch.mp ht
  obtain ⟨j, rfl, -, hj⟩ := balanced_branch.mp hk
  rw [rootColor_branch] at hup
  exact ⟨j, hchild, hj, fun hc => (hred hc).2, hup⟩

theorem replace_redBlack (h : (plug (branch s c nil x child) up).RedBlack) :
    (replace c child up).RedBlack := by
  obtain ⟨k, ht, hk, hroot, hup⟩ := above_one h
  cases c with
  | red => exact hup.black.redBlack_plug (hroot rfl) ht hk
  | black => exact rbEraseColor_redBlack (NoRedRed.setBlack ht) hk hup

theorem redBlack_relabel {l r : ColorTree α} (h : (plug (node c l x r) up).RedBlack) (y : α) :
    (plug (node c l y r) up).RedBlack where
  root := by
    rw [rootColor_plug]
    exact (rootColor_plug (node c l x r) up).symm.trans h.root
  noRedRed := by
    rw [noRedRed_plug]
    exact (noRedRed_plug (node c l x r) up).mp h.noRedRed
  balanced := by
    obtain ⟨n, hn⟩ := h.balanced
    exact ⟨n, (balanced_plug _ _).mpr ((balanced_plug (node c l x r) up).mp hn)⟩

theorem plug_unlinkMin (c : Color) (l : ColorTree α) (x : α) (r : ColorTree α) :
    plug (node (unlinkMin c l x r).1 nil (unlinkMin c l x r).2.1 (unlinkMin c l x r).2.2.1)
      (unlinkMin c l x r).2.2.2 = node c l x r := by
  induction l generalizing c x r with
  | nil => rfl
  | node c' l' x' r' ihl ihr =>
    simp only [unlinkMin, plug_append, ihl]
    rfl

theorem unlinkMin_left (c : Color) (l : ColorTree α) (x : α) (r : ColorTree α) :
    ∀ q ∈ (unlinkMin c l x r).2.2.2, ∃ c' y u, q = Crumb.on .left c' y u := by
  induction l generalizing c x r with
  | nil => simp [unlinkMin]
  | node c' l' x' r' ihl ihr =>
    intro q hq
    simp only [unlinkMin, List.mem_append, List.mem_singleton] at hq
    rcases hq with hq | rfl
    · exact ihl c' x' r' q hq
    · exact ⟨c, x, r, rfl⟩

theorem redBlack_next {l : ColorTree α} {c' mc : Color} {l' r' : ColorTree α} {x' y : α}
    {path : List (Crumb α)} (h : (plug (node c l x (node c' l' x' r')) up).RedBlack)
    (hmin : unlinkMin c' l' x' r' = (mc, y, child, path)) :
    (plug (branch .left mc nil y child) (path ++ .right c l y :: up)).RedBlack := by
  have hplug := plug_unlinkMin c' l' x' r'
  rw [hmin] at hplug
  rw [plug_append]
  simp only [branch, hplug, plug]
  exact redBlack_relabel h y

/-- `rb_erase` keeps a tree red-black. -/
theorem rbErase_redBlack {l r : ColorTree α} (h : (plug (node c l x r) up).RedBlack) :
    (rbErase (node c l x r) up).RedBlack := by
  cases l with
  | nil => exact replace_redBlack (s := .left) h
  | node c₁ l₁ x₁ r₁ =>
    cases r with
    | nil => exact replace_redBlack (s := .right) h
    | node c' l' x' r' =>
      obtain ⟨⟨mc, y, child, path⟩, hmin⟩ : ∃ z, unlinkMin c' l' x' r' = z := ⟨_, rfl⟩
      simp only [rbErase, hmin]
      exact replace_redBlack (redBlack_next h hmin)

end RbTree

end Cserv.Util
