import Cserv.Foundations.Zipper

/-!
# Red-black trees

The functions of `rbtree.c` on trees as values. A pointer to a node is a zipper:
the subtree below the node with the path of its ancestors, which the `rb_parent`
pointers of the source give. Each loop climbs along the path. The source
dereferences `NULL` where a sibling or a grandparent is missing; a tree without
one is returned as it is there, which no red-black tree runs into.
-/
namespace Cserv.Util

open Foundations

variable {α : Type*}

namespace RbTree

open ColorTree

def setBlack : ColorTree α → ColorTree α
  | nil => nil
  | node _ l x r => node .black l x r

def isRed : ColorTree α → Bool
  | node .red _ _ _ => true
  | _ => false

/-- `__rb_rotate_left` at a node with colour `c`, element `x` and children `l`, `r`: the
right child takes its place, each node with its own colour. -/
def rotateLeft (c : Color) (l : ColorTree α) (x : α) : ColorTree α → ColorTree α
  | node c' a y b => node c' (node c l x a) y b
  | nil => node c l x nil

def rotateRight (c : Color) (x : α) (r : ColorTree α) : ColorTree α → ColorTree α
  | node c' a y b => node c' a y (node c b x r)
  | nil => node c nil x r

/-- The loop of `rb_insert_color` with `node` at the end of the path: the parent is the
first crumb and the grandparent the second. -/
def insertLoop : ColorTree α → List (Crumb α) → ColorTree α
  | t, .left .red x r :: .left _ g uncle :: up =>
    if isRed uncle then insertLoop (node .red (node .black t x r) g (setBlack uncle)) up
    else plug (rotateRight .red g uncle (node .black t x r)) up
  | t, .right .red l x :: .left _ g uncle :: up =>
    if isRed uncle then insertLoop (node .red (node .black l x t) g (setBlack uncle)) up
    else plug (rotateRight .red g uncle (setBlack (rotateLeft .red l x t))) up
  | t, .left .red x r :: .right _ uncle g :: up =>
    if isRed uncle then insertLoop (node .red (setBlack uncle) g (node .black t x r)) up
    else plug (rotateLeft .red uncle g (setBlack (rotateRight .red x r t))) up
  | t, .right .red l x :: .right _ uncle g :: up =>
    if isRed uncle then insertLoop (node .red (setBlack uncle) g (node .black l x t)) up
    else plug (rotateLeft .red uncle g (node .black l x t)) up
  | t, up => plug t up

def rbInsertColor (t : ColorTree α) (up : List (Crumb α)) : ColorTree α := setBlack (insertLoop t up)

/-- `rb_link_node` at the empty child link at the end of a path, then `rb_insert_color`. -/
def rbInsert (x : α) (up : List (Crumb α)) : ColorTree α := rbInsertColor (node .red nil x nil) up

/-- The last case of `__rb_erase_color` for a left child `t` of a node with colour `c` and
element `x` whose right child `other` has the children `a`, `b` and a red one among them:
`other` takes the colour and the place of the parent. -/
def borrowRight (c : Color) (t : ColorTree α) (x : α) (a : ColorTree α) (y : α)
    (b : ColorTree α) : ColorTree α :=
  if isRed b then rotateLeft .black t x (node c a y (setBlack b))
  else
    match rotateRight .red y b (setBlack a) with
    | node _ a' z b' => rotateLeft .black t x (node c a' z (setBlack b'))
    | nil => node c t x nil

def borrowLeft (c : Color) (a : ColorTree α) (y : α) (b : ColorTree α) (x : α)
    (t : ColorTree α) : ColorTree α :=
  if isRed a then rotateRight .black x t (node c (setBlack a) y b)
  else
    match rotateLeft .red a y (setBlack b) with
    | node _ a' z b' => rotateRight .black x t (node c (setBlack a') z b')
    | nil => node c nil x t

/-- `__rb_erase_color` with `node` at the end of the path; the parent is the first crumb. -/
def rbEraseColor : ColorTree α → List (Crumb α) → ColorTree α
  | t, [] => setBlack t
  | t, .left c x other :: up =>
    if isRed t then plug (setBlack t) (.left c x other :: up)
    else
      match other with
      | node .red (node _ a y b) z r =>
        if !isRed a && !isRed b then
          -- the parent is red now, so that the loop ends with it
          plug (node .black t x (node .red a y b)) (.left .black z r :: up)
        else setBlack (plug (borrowRight .red t x a y b) (.left .black z r :: up))
      | node .black a y b =>
        if !isRed a && !isRed b then rbEraseColor (node c t x (node .red a y b)) up
        else setBlack (plug (borrowRight c t x a y b) up)
      | _ => plug t (.left c x other :: up)
  | t, .right c other x :: up =>
    if isRed t then plug (setBlack t) (.right c other x :: up)
    else
      match other with
      | node .red l z (node _ a y b) =>
        if !isRed a && !isRed b then
          plug (node .black (node .red a y b) x t) (.right .black l z :: up)
        else setBlack (plug (borrowLeft .red a y b x t) (.right .black l z :: up))
      | node .black a y b =>
        if !isRed a && !isRed b then rbEraseColor (node c (node .red a y b) x t) up
        else setBlack (plug (borrowLeft c a y b x t) up)
      | _ => plug t (.right c other x :: up)

/-- The leftmost node of a subtree: its colour, element and right child, with the path
down to it. -/
def unlinkMin (c : Color) : ColorTree α → α → ColorTree α → Color × α × ColorTree α × List (Crumb α)
  | nil, x, r => (c, x, r, [])
  | node c' l' x' r', x, r =>
    let (mc, m, child, path) := unlinkMin c' l' x' r'
    (mc, m, child, path ++ [.left c x r])

/-- Putting `child` at the end of the path where a node of colour `c` was. -/
def replace (c : Color) (child : ColorTree α) (up : List (Crumb α)) : ColorTree α :=
  if c = .black then rbEraseColor child up else plug child up

/-- `rb_erase` of the node at the root of the subtree. -/
def rbErase : ColorTree α → List (Crumb α) → ColorTree α
  | nil, up => plug nil up
  | node c nil _ r, up => replace c r up
  | node c l _ nil, up => replace c l up
  | node c l _ (node c' l' x' r'), up =>
    -- the successor takes the place and the colour of the node
    let (mc, m, child, path) := unlinkMin c' l' x' r'
    replace mc child (path ++ .right c l m :: up)

def rbFirst : ColorTree α → List (Crumb α) → ColorTree α × List (Crumb α)
  | nil, up => (nil, up)
  | node c nil x r, up => (node c nil x r, up)
  | node c (node c' l' x' r') x r, up => rbFirst (node c' l' x' r') (.left c x r :: up)

/-! ## The order of the elements -/

@[simp] theorem setBlack_nil : setBlack (nil : ColorTree α) = nil := rfl

@[simp] theorem setBlack_node (c : Color) (l : ColorTree α) (x : α) (r : ColorTree α) :
    setBlack (node c l x r) = node .black l x r := rfl

@[simp] theorem toList_setBlack (t : ColorTree α) : (setBlack t).toList = t.toList := by
  cases t <;> rfl

@[simp] theorem toList_rotateLeft (c : Color) (l : ColorTree α) (x : α) (r : ColorTree α) :
    (rotateLeft c l x r).toList = l.toList ++ x :: r.toList := by
  cases r <;> simp [rotateLeft]

@[simp] theorem toList_rotateRight (c : Color) (x : α) (r l : ColorTree α) :
    (rotateRight c x r l).toList = l.toList ++ x :: r.toList := by
  cases l <;> simp [rotateRight]

theorem toList_insertLoop (t : ColorTree α) (up : List (Crumb α)) :
    (insertLoop t up).toList = before up ++ (t.toList ++ after up) := by
  fun_induction insertLoop t up <;> simp_all [before, after]

@[simp] theorem toList_rbInsert (x : α) (up : List (Crumb α)) :
    (rbInsert x up).toList = before up ++ x :: after up := by
  simp [rbInsert, rbInsertColor, toList_insertLoop]

theorem toList_rbInsert_nil (x : α) : (rbInsert x []).toList = [x] := by
  simp [before, after]

theorem rbInsert_perm (x : α) {t : ColorTree α} {up : List (Crumb α)} (h : plug nil up = t) :
    (rbInsert x up).toList.Perm (x :: t.toList) := by
  rw [← h]
  simp

@[simp] theorem toList_borrowRight (c : Color) (t : ColorTree α) (x : α) (a : ColorTree α) (y : α)
    (b : ColorTree α) :
    (borrowRight c t x a y b).toList = t.toList ++ x :: (a.toList ++ y :: b.toList) := by
  unfold borrowRight
  split
  · simp
  · cases a <;> simp [rotateRight]

@[simp] theorem toList_borrowLeft (c : Color) (a : ColorTree α) (y : α) (b : ColorTree α) (x : α)
    (t : ColorTree α) :
    (borrowLeft c a y b x t).toList = (a.toList ++ y :: b.toList) ++ x :: t.toList := by
  unfold borrowLeft
  split
  · simp
  · cases b <;> simp [rotateLeft]

theorem toList_rbEraseColor (t : ColorTree α) (up : List (Crumb α)) :
    (rbEraseColor t up).toList = before up ++ (t.toList ++ after up) := by
  fun_induction rbEraseColor t up <;> simp_all [before, after]

theorem toList_replace (c : Color) (t : ColorTree α) (up : List (Crumb α)) :
    (replace c t up).toList = before up ++ (t.toList ++ after up) := by
  unfold replace
  split
  · exact toList_rbEraseColor t up
  · exact toList_plug t up

theorem toList_unlinkMin (c : Color) (l : ColorTree α) (x : α) (r : ColorTree α) :
    before (unlinkMin c l x r).2.2.2 = [] ∧
      (node c l x r).toList = (unlinkMin c l x r).2.1 ::
        ((unlinkMin c l x r).2.2.1.toList ++ after (unlinkMin c l x r).2.2.2) := by
  induction l generalizing c x r with
  | nil => simp [unlinkMin, before, after]
  | node c' l' x' r' ihl ihr =>
    obtain ⟨hbefore, hlist⟩ := ihl c' x' r'
    simp only [unlinkMin, before_append, after_append]
    constructor
    · simp [before, hbefore]
    · rw [toList_node, hlist]
      simp [after]

/-- `rb_erase` removes the element of its node and keeps the order of the others. -/
theorem toList_rbErase (c : Color) (l : ColorTree α) (x : α) (r : ColorTree α) (up : List (Crumb α)) :
    (rbErase (node c l x r) up).toList = before up ++ (l.toList ++ (r.toList ++ after up)) := by
  cases l with
  | nil => simp [rbErase, toList_replace]
  | node c₁ l₁ x₁ r₁ =>
    cases r with
    | nil => simp [rbErase, toList_replace]
    | node c' l' x' r' =>
      obtain ⟨hbefore, hlist⟩ := toList_unlinkMin c' l' x' r'
      rw [hlist]
      simp [rbErase, toList_replace, before_append, after_append, before, after, hbefore]

theorem toList_plug_rbErase (c : Color) (l : ColorTree α) (x : α) (r : ColorTree α)
    (up : List (Crumb α)) :
    (plug (node c l x r) up).toList.Perm (x :: (rbErase (node c l x r) up).toList) := by
  have hlist : (plug (node c l x r) up).toList =
      (before up ++ l.toList) ++ x :: (r.toList ++ after up) := by simp
  rw [hlist, toList_rbErase, ← List.append_assoc]
  exact List.perm_middle

theorem plug_rbFirst (t : ColorTree α) (up : List (Crumb α)) :
    plug (rbFirst t up).1 (rbFirst t up).2 = plug t up := by
  fun_induction rbFirst t up with
  | case1 up => rfl
  | case2 c x r up => rfl
  | case3 c c' l' x' r' x r up ih => exact ih

/-- `rb_first` is the node of the first element, and `NULL` in an empty tree only. -/
theorem rbFirst_focus (t : ColorTree α) (up : List (Crumb α)) (hup : before up = []) :
    (rbFirst t up).1 = nil ∧ t = nil ∨
      ∃ c x r, (rbFirst t up).1 = node c nil x r ∧ before (rbFirst t up).2 = [] := by
  fun_induction rbFirst t up with
  | case1 up => exact Or.inl ⟨rfl, rfl⟩
  | case2 c x r up => exact Or.inr ⟨c, x, r, rfl, hup⟩
  | case3 c c' l' x' r' x r up ih =>
    rcases ih (by simpa [before] using hup) with ⟨-, h⟩ | h
    · cases h
    · exact Or.inr h

theorem rbFirst_node {t : ColorTree α} {c : Color} {l r : ColorTree α} {x : α}
    {up : List (Crumb α)} (h : rbFirst t [] = (node c l x r, up)) :
    t.toList = x :: (rbErase (node c l x r) up).toList := by
  have hplug := congrArg toList (plug_rbFirst t [])
  have hfocus := rbFirst_focus t [] rfl
  rw [h] at hplug hfocus
  rcases hfocus with ⟨h, -⟩ | ⟨c', x', r', heq, hbefore⟩
  · cases h
  · cases heq
    rw [toList_rbErase, hbefore]
    simpa [hbefore, before, after] using hplug.symm

theorem rbFirst_nil {t : ColorTree α} {up : List (Crumb α)} (h : rbFirst t [] = (nil, up)) :
    t = nil := by
  have hfocus := rbFirst_focus t [] rfl
  rw [h] at hfocus
  rcases hfocus with ⟨-, ht⟩ | ⟨c, x, r, heq, -⟩
  · exact ht
  · cases heq

/-! ## Emptying a tree -/

/-- The order in which a loop takes the root out until the tree is empty. -/
def rootOrder (t : ColorTree α) : List α :=
  match t with
  | nil => []
  | node c l x r => x :: rootOrder (rbErase (node c l x r) [])
termination_by t.toList.length
decreasing_by simp [toList_rbErase, before, after]

theorem rootOrder_perm (t : ColorTree α) : (rootOrder t).Perm t.toList := by
  fun_induction rootOrder t with
  | case1 => exact List.Perm.refl _
  | case2 c l x r ih =>
    rw [toList_rbErase] at ih
    simp only [before, after, List.nil_append, List.append_nil] at ih
    exact (ih.cons x).trans List.perm_middle.symm

/-- A loop takes the first element out as long as it is one of those that are `due`. -/
def dropDue (due : α → Prop) [DecidablePred due] (t : ColorTree α) : ColorTree α :=
  match hfirst : rbFirst t [] with
  | (nil, _) => t
  | (node c l x r, up) => if due x then dropDue due (rbErase (node c l x r) up) else t
termination_by t.toList.length
decreasing_by simp [rbFirst_node hfirst]

section DropDue

variable {due : α → Prop} [DecidablePred due] {t l r : ColorTree α} {c : Color} {x : α}
  {up : List (Crumb α)}

theorem dropDue_nil (h : rbFirst t [] = (nil, up)) : dropDue due t = t := by
  rw [dropDue]
  split
  · rfl
  · rename_i heq
    rw [h] at heq
    cases heq

theorem dropDue_node (h : rbFirst t [] = (node c l x r, up)) :
    dropDue due t = if due x then dropDue due (rbErase (node c l x r) up) else t := by
  rw [dropDue]
  split
  · rename_i heq
    rw [h] at heq
    cases heq
  · rename_i heq
    rw [h] at heq
    cases heq
    rfl

end DropDue

/-! ## Renamed elements -/

section Map

variable {β : Type*} (f : α → β)

@[simp] theorem isRed_map (t : ColorTree α) : isRed (t.map f) = isRed t := by
  cases t with
  | nil => rfl
  | node c l x r => cases c <;> rfl

@[simp] theorem map_setBlack (t : ColorTree α) : (setBlack t).map f = setBlack (t.map f) := by
  cases t <;> rfl

@[simp] theorem map_rotateLeft (c : Color) (l : ColorTree α) (x : α) (r : ColorTree α) :
    (rotateLeft c l x r).map f = rotateLeft c (l.map f) (f x) (r.map f) := by
  cases r <;> rfl

@[simp] theorem map_rotateRight (c : Color) (x : α) (r l : ColorTree α) :
    (rotateRight c x r l).map f = rotateRight c (f x) (r.map f) (l.map f) := by
  cases l <;> rfl

theorem map_insertLoop (t : ColorTree α) (up : List (Crumb α)) :
    (insertLoop t up).map f = insertLoop (t.map f) (up.map (Crumb.map f)) := by
  fun_induction insertLoop t up with
  | case9 t up h₁ h₂ h₃ h₄ =>
    -- the path is too short, or the parent is black, and so it is under the new names
    rcases up with _ | ⟨⟨_ | _, x, r⟩ | ⟨_ | _, l, x⟩, _ | ⟨⟨c', y, u⟩ | ⟨c', u, y⟩, up⟩⟩ <;> first
      | exact (h₁ _ _ _ _ _ _ rfl).elim
      | exact (h₂ _ _ _ _ _ _ rfl).elim
      | exact (h₃ _ _ _ _ _ _ rfl).elim
      | exact (h₄ _ _ _ _ _ _ rfl).elim
      | simp [insertLoop, Crumb.map]
  | _ => simp_all [insertLoop, Crumb.map]

@[simp] theorem map_rbInsert (x : α) (up : List (Crumb α)) :
    (rbInsert x up).map f = rbInsert (f x) (up.map (Crumb.map f)) := by
  simp [rbInsert, rbInsertColor, map_insertLoop]

@[simp] theorem map_borrowRight (c : Color) (t : ColorTree α) (x : α) (a : ColorTree α) (y : α)
    (b : ColorTree α) : (borrowRight c t x a y b).map f =
      borrowRight c (t.map f) (f x) (a.map f) (f y) (b.map f) := by
  unfold borrowRight
  rw [isRed_map]
  split
  · simp
  · cases a <;> simp [rotateRight]

@[simp] theorem map_borrowLeft (c : Color) (a : ColorTree α) (y : α) (b : ColorTree α) (x : α)
    (t : ColorTree α) : (borrowLeft c a y b x t).map f =
      borrowLeft c (a.map f) (f y) (b.map f) (f x) (t.map f) := by
  unfold borrowLeft
  rw [isRed_map]
  split
  · simp
  · cases b <;> simp [rotateLeft]

theorem map_rbEraseColor (t : ColorTree α) (up : List (Crumb α)) :
    (rbEraseColor t up).map f = rbEraseColor (t.map f) (up.map (Crumb.map f)) := by
  fun_induction rbEraseColor t up with
  | case7 t c x other up ht h₁ h₂ =>
    rcases other with _ | ⟨_ | _, _ | ⟨c', a, y, b⟩, z, r⟩ <;> first
      | exact (h₁ _ _ _ _ _ _ rfl).elim
      | exact (h₂ _ _ _ rfl).elim
      | simp_all [rbEraseColor, Crumb.map]
  | case13 t c other x up ht h₁ h₂ =>
    rcases other with _ | ⟨_ | _, l, z, _ | ⟨c', a, y, b⟩⟩ <;> first
      | exact (h₁ _ _ _ _ _ _ rfl).elim
      | exact (h₂ _ _ _ rfl).elim
      | simp_all [rbEraseColor, Crumb.map]
  | _ => simp_all [rbEraseColor, Crumb.map]

theorem map_replace (c : Color) (t : ColorTree α) (up : List (Crumb α)) :
    (replace c t up).map f = replace c (t.map f) (up.map (Crumb.map f)) := by
  unfold replace
  split
  · exact map_rbEraseColor f t up
  · exact map_plug f t up

theorem unlinkMin_map (c : Color) (l : ColorTree α) (x : α) (r : ColorTree α) :
    unlinkMin c (l.map f) (f x) (r.map f) =
      ((unlinkMin c l x r).1, f (unlinkMin c l x r).2.1, (unlinkMin c l x r).2.2.1.map f,
        (unlinkMin c l x r).2.2.2.map (Crumb.map f)) := by
  induction l generalizing c x r with
  | nil => rfl
  | node c' l' x' r' ihl ihr => simp [unlinkMin, ihl, Crumb.map]

@[simp] theorem map_rbErase (t : ColorTree α) (up : List (Crumb α)) :
    (rbErase t up).map f = rbErase (t.map f) (up.map (Crumb.map f)) := by
  rcases t with _ | ⟨c, _ | ⟨c₁, l₁, x₁, r₁⟩, x, _ | ⟨c', l', x', r'⟩⟩ <;>
    simp [rbErase, map_replace, unlinkMin_map, Crumb.map]

theorem rbFirst_map (t : ColorTree α) (up : List (Crumb α)) :
    rbFirst (t.map f) (up.map (Crumb.map f)) =
      ((rbFirst t up).1.map f, (rbFirst t up).2.map (Crumb.map f)) := by
  fun_induction rbFirst t up with
  | case1 up => rfl
  | case2 c x r up => rfl
  | case3 c c' l' x' r' x r up ih => exact ih

theorem dropDue_map (due : β → Prop) [DecidablePred due] (t : ColorTree α) :
    dropDue due (t.map f) = (dropDue (fun x => due (f x)) t).map f := by
  fun_induction dropDue (fun x => due (f x)) t with
  | case1 t up hfirst =>
    have hmap := rbFirst_map f t []
    rw [hfirst] at hmap
    exact dropDue_nil hmap
  | case2 t c l x r up hfirst hdue ih =>
    have hmap := rbFirst_map f t []
    rw [hfirst] at hmap
    rw [dropDue_node hmap, if_pos hdue, ← ih, map_rbErase]
    rfl
  | case3 t c l x r up hfirst hdue =>
    have hmap := rbFirst_map f t []
    rw [hfirst] at hmap
    rw [dropDue_node hmap, if_neg hdue]

theorem rootOrder_map (t : ColorTree α) : rootOrder (t.map f) = (rootOrder t).map f := by
  fun_induction rootOrder t with
  | case1 => simp [rootOrder]
  | case2 c l x r ih =>
    rw [map_rbErase] at ih
    rw [map_node, rootOrder, List.map_cons, ← ih]
    rfl

end Map

end RbTree

end Cserv.Util
