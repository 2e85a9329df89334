import Mathlib.Tactic

/-!
# Coloured binary trees and zippers

Binary trees with a colour at each node, read as the list of their elements in
order. A zipper is a subtree with the path back to the root; the list of a tree
splits at it. `descend` is a search that chooses a side at each node; when the
choices fit the order of the list it finds the element it looks for, or the place
where it is missing. What holds on both sides of a node is said once, for a `Side`.
-/
namespace Cserv.Foundations

inductive Color
  | red | black
  deriving DecidableEq, Repr

inductive ColorTree (α : Type*)
  | nil
  | node (c : Color) (l : ColorTree α) (x : α) (r : ColorTree α)
  deriving DecidableEq, Repr

/-- One step from a child to its parent: the rest of the parent. -/
inductive Crumb (α : Type*)
  | left (c : Color) (x : α) (r : ColorTree α)
  | right (c : Color) (l : ColorTree α) (x : α)
  deriving DecidableEq, Repr

namespace ColorTree

variable {α : Type*}

def toList : ColorTree α → List α
  | nil => []
  | node _ l x r => l.toList ++ x :: r.toList

@[simp] theorem toList_nil : (nil : ColorTree α).toList = [] := rfl

@[simp] theorem toList_node (c : Color) (l : ColorTree α) (x : α) (r : ColorTree α) :
    (node c l x r).toList = l.toList ++ x :: r.toList := rfl

/-- The tree whose subtree at the end of a path is `t`. -/
def plug (t : ColorTree α) : List (Crumb α) → ColorTree α
  | [] => t
  | .left c x r :: up => plug (node c t x r) up
  | .right c l x :: up => plug (node c l x t) up

def before : List (Crumb α) → List α
  | [] => []
  | .left _ _ _ :: up => before up
  | .right _ l x :: up => before up ++ (l.toList ++ [x])

def after : List (Crumb α) → List α
  | [] => []
  | .left _ x r :: up => x :: r.toList ++ after up
  | .right _ _ _ :: up => after up

@[simp] theorem toList_plug (t : ColorTree α) (up : List (Crumb α)) :
    (plug t up).toList = before up ++ (t.toList ++ after up) := by
  induction up generalizing t with
  | nil => simp [plug, before, after]
  | cons k up ih => cases k <;> simp [plug, before, after, ih]

theorem before_append (up up' : List (Crumb α)) :
    before (up ++ up') = before up' ++ before up := by
  induction up with
  | nil => simp [before]
  | cons k up ih => cases k <;> simp [before, ih]

theorem after_append (up up' : List (Crumb α)) :
    after (up ++ up') = after up ++ after up' := by
  induction up with
  | nil => simp [after]
  | cons k up ih => cases k <;> simp [after, ih]

/-- A search from the root: `dir x` is the way to go at a node with element `x`. -/
def descend (dir : α → Ordering) : ColorTree α → List (Crumb α) → ColorTree α × List (Crumb α)
  | nil, up => (nil, up)
  | node c l x r, up =>
    match dir x with
    | .lt => descend dir l (.left c x r :: up)
    | .gt => descend dir r (.right c l x :: up)
    | .eq => (node c l x r, up)

theorem plug_descend (dir : α → Ordering) (t : ColorTree α) (up : List (Crumb α)) :
    plug (descend dir t up).1 (descend dir t up).2 = plug t up := by
  induction t generalizing up with
  | nil => rfl
  | node c l x r ihl ihr =>
    rw [descend]
    cases dir x with
    | lt => exact ihl _
    | eq => rfl
    | gt => exact ihr _

theorem descend_congr {dir dir' : α → Ordering} {t : ColorTree α} {up : List (Crumb α)}
    (h : ∀ x ∈ t.toList, dir x = dir' x) : descend dir t up = descend dir' t up := by
  induction t generalizing up with
  | nil => rfl
  | node c l x r ihl ihr =>
    rw [descend, descend, h x (by simp)]
    cases dir' x with
    | lt => exact ihl fun y hy => h y (by simp [hy])
    | eq => rfl
    | gt => exact ihr fun y hy => h y (by simp [hy])

/-- The choices of a search fit the order of a list: it goes right at everything in
front of an element it does not pass on the left. -/
def Guides (dir : α → Ordering) (xs : List α) : Prop :=
  xs.Pairwise fun x y => dir x = .gt ∨ dir y = .lt

/-- The paths of a search that `dir` guides: everything in front was too small and
everything behind too large. -/
structure Between (dir : α → Ordering) (up : List (Crumb α)) : Prop where
  before : ∀ x ∈ ColorTree.before up, dir x = .gt
  after : ∀ x ∈ ColorTree.after up, dir x = .lt

theorem Between.nil {dir : α → Ordering} : Between dir ([] : List (Crumb α)) :=
  ⟨by simp [ColorTree.before], by simp [ColorTree.after]⟩

theorem descend_between {dir : α → Ordering} {t : ColorTree α} {up : List (Crumb α)}
    (hg : Guides dir t.toList) (hup : Between dir up) :
    Between dir (descend dir t up).2 := by
  induction t generalizing up with
  | nil => exact hup
  | node c l x r ihl ihr =>
    obtain ⟨hl, hxr, hlx⟩ := List.pairwise_append.mp hg
    obtain ⟨hx, hr⟩ := List.pairwise_cons.mp hxr
    rw [descend]
    cases hdir : dir x with
    | lt =>
      apply ihl hl
      constructor
      · exact hup.before
      · intro y hy
        simp only [ColorTree.after, List.cons_append, List.mem_cons, List.mem_append] at hy
        rcases hy with rfl | hy | hy
        · exact hdir
        · exact (hx y hy).resolve_left (by simp [hdir])
        · exact hup.after y hy
    | eq => exact hup
    | gt =>
      apply ihr hr
      constructor
      · intro y hy
        simp only [ColorTree.before, List.mem_append, List.mem_singleton] at hy
        rcases hy with hy | hy | rfl
        · exact hup.before y hy
        · exact (hlx y hy x (by simp)).resolve_right (by simp [hdir])
        · exact hdir
      · exact hup.after

/-- A search comes to every place that its choices are right for. -/
theorem descend_plug {dir : α → Ordering} {up : List (Crumb α)} (h : Between dir up)
    (t : ColorTree α) : descend dir (plug t up) [] = descend dir t up := by
  induction up generalizing t with
  | nil => rfl
  | cons k up ih =>
    cases k with
    | left c x r =>
      have hx : dir x = .lt := h.after x (by simp [ColorTree.after])
      have hup : Between dir up := by
        constructor
        · exact h.before
        · intro y hy
          exact h.after y (by simp [ColorTree.after, hy])
      rw [plug, ih hup, descend, hx]
    | right c l x =>
      have hx : dir x = .gt := h.before x (by simp [ColorTree.before])
      have hup : Between dir up := by
        constructor
        · intro y hy
          exact h.before y (by simp [ColorTree.before, hy])
        · exact h.after
      rw [plug, ih hup, descend, hx]

theorem descend_focus (dir : α → Ordering) (t : ColorTree α) (up : List (Crumb α)) :
    (descend dir t up).1 = nil ∨
      ∃ c l x r, (descend dir t up).1 = node c l x r ∧ dir x = .eq := by
  induction t generalizing up with
  | nil => exact Or.inl rfl
  | node c l x r ihl ihr =>
    rw [descend]
    cases hdir : dir x with
    | lt => exact ihl _
    | eq => exact Or.inr ⟨c, l, x, r, rfl, hdir⟩
    | gt => exact ihr _

theorem descend_node {dir : α → Ordering} {t l r : ColorTree α} {c : Color} {x : α}
    {up : List (Crumb α)} (h : descend dir t [] = (node c l x r, up)) :
    dir x = .eq ∧ plug (node c l x r) up = t := by
  have hfocus := descend_focus dir t []
  have hplug := plug_descend dir t []
  rw [h] at hfocus hplug
  rcases hfocus with hnil | ⟨_, _, y, _, hy, heq⟩
  · cases hnil
  · cases hy
    exact ⟨heq, hplug⟩

theorem descend_nil {dir : α → Ordering} {t : ColorTree α} {up : List (Crumb α)}
    (h : descend dir t [] = (nil, up)) : plug nil up = t := by
  have hplug := plug_descend dir t []
  rw [h] at hplug
  exact hplug

/-- What a guided search of a whole tree finds. -/
theorem descend_cases {dir : α → Ordering} {t : ColorTree α} (hg : Guides dir t.toList) :
    (∃ up, descend dir t [] = (nil, up) ∧ Between dir up ∧ t.toList = before up ++ after up) ∨
      ∃ c l x r up, descend dir t [] = (node c l x r, up) ∧ dir x = .eq ∧
        t.toList = (before up ++ l.toList) ++ x :: (r.toList ++ after up) := by
  obtain ⟨⟨f, up⟩, hd⟩ : ∃ z, descend dir t [] = z := ⟨_, rfl⟩
  have hbetween : Between dir (descend dir t []).2 := descend_between hg Between.nil
  have hplug := congrArg toList (plug_descend dir t [])
  have hfocus := descend_focus dir t []
  rw [hd] at hbetween hplug hfocus ⊢
  simp only [toList_plug, before, after, List.nil_append, List.append_nil] at hplug
  rcases hfocus with rfl | ⟨c, l, x, r, rfl, hx⟩
  · exact Or.inl ⟨up, rfl, hbetween, by simpa using hplug.symm⟩
  · exact Or.inr ⟨c, l, x, r, up, rfl, hx, by simpa using hplug.symm⟩

/-- A guided search finds an element when there is one. -/
theorem descend_of_mem {dir : α → Ordering} {t : ColorTree α} (hg : Guides dir t.toList) {x : α}
    (hx : x ∈ t.toList) (heq : dir x = .eq) :
    ∃ c l y r up, descend dir t [] = (node c l y r, up) ∧ dir y = .eq ∧
      t.toList = (before up ++ l.toList) ++ y :: (r.toList ++ after up) := by
  rcases descend_cases hg with ⟨up, -, hup, hlist⟩ | hfound
  · rw [hlist, List.mem_append] at hx
    rcases hx with hx | hx
    · have h := hup.before x hx
      simp [heq] at h
    · have h := hup.after x hx
      simp [heq] at h
  · exact hfound

end ColorTree

/-! ## Sides -/

inductive Side
  | left | right
  deriving DecidableEq, Repr

def Side.flip : Side → Side
  | left => right
  | right => left

/-- The step from the child on side `s`, whose sibling is `u`. -/
def Crumb.on {α : Type*} (s : Side) (c : Color) (x : α) (u : ColorTree α) : Crumb α :=
  match s with
  | .left => .left c x u
  | .right => .right c u x

theorem Crumb.exists_on {α : Type*} (k : Crumb α) : ∃ s c x u, k = Crumb.on s c x u := by
  cases k with
  | left c x r => exact ⟨.left, c, x, r, rfl⟩
  | right c l x => exact ⟨.right, c, x, l, rfl⟩

namespace ColorTree

variable {α : Type*} {s : Side} {c : Color} {t u : ColorTree α} {x : α} {up : List (Crumb α)}

/-- A node with the child `t` on side `s` and the child `u` on the other. -/
def branch (s : Side) (c : Color) (t : ColorTree α) (x : α) (u : ColorTree α) : ColorTree α :=
  match s with
  | .left => node c t x u
  | .right => node c u x t

theorem branch_flip (s : Side) (c : Color) (t : ColorTree α) (x : α) (u : ColorTree α) :
    branch s.flip c t x u = branch s c u x t := by
  cases s <;> rfl

theorem branch_ne_nil : branch s c t x u ≠ nil := by
  cases s <;> nofun

theorem exists_branch (s : Side) (h : t ≠ nil) : ∃ c a x b, t = branch s c a x b := by
  cases t with
  | nil => exact absurd rfl h
  | node c l x r =>
    cases s with
    | left => exact ⟨c, l, x, r, rfl⟩
    | right => exact ⟨c, r, x, l, rfl⟩

theorem plug_on : plug t (Crumb.on s c x u :: up) = plug (branch s c t x u) up := by
  cases s <;> rfl

theorem plug_append (t : ColorTree α) (up up' : List (Crumb α)) :
    plug t (up ++ up') = plug (plug t up) up' := by
  induction up generalizing t with
  | nil => rfl
  | cons k up ih => cases k <;> exact ih _

theorem toList_branch : (branch s c t x u).toList.Perm (x :: (t.toList ++ u.toList)) := by
  cases s with
  | left => exact List.perm_middle
  | right => exact List.perm_middle.trans (List.perm_append_comm.cons x)

def pathList : List (Crumb α) → List α
  | [] => []
  | .left _ x r :: up => x :: (r.toList ++ pathList up)
  | .right _ l x :: up => x :: (l.toList ++ pathList up)

theorem pathList_on : pathList (Crumb.on s c x u :: up) = x :: (u.toList ++ pathList up) := by
  cases s <;> rfl

theorem toList_plug_perm (t : ColorTree α) (up : List (Crumb α)) :
    (plug t up).toList.Perm (t.toList ++ pathList up) := by
  induction up generalizing t with
  | nil => simp [plug, pathList]
  | cons k up ih =>
    obtain ⟨s, c, x, u, rfl⟩ := k.exists_on
    rw [plug_on, pathList_on]
    refine (ih _).trans ((toList_branch.append_right _).trans ?_)
    rw [List.cons_append, List.append_assoc]
    exact List.perm_middle.symm

theorem mem_of_descend {dir : α → Ordering} {t l r : ColorTree α} {c : Color} {x : α}
    {up : List (Crumb α)} (h : descend dir t [] = (node c l x r, up)) : x ∈ t.toList := by
  rw [← (descend_node h).2, (toList_plug_perm _ up).mem_iff]
  simp

theorem length_le_plug (t : ColorTree α) (up : List (Crumb α)) :
    t.toList.length + up.length ≤ (plug t up).toList.length := by
  induction up generalizing t with
  | nil => simp [plug]
  | cons k up ih =>
    obtain ⟨s, c, x, u, rfl⟩ := k.exists_on
    have hbranch := (toList_branch (s := s) (c := c) (t := t) (x := x) (u := u)).length_eq
    have hle := ih (branch s c t x u)
    rw [plug_on]
    simp only [List.length_cons, List.length_append] at hbranch ⊢
    omega

theorem exists_plug {y : α} (h : y ∈ t.toList) :
    ∃ c l r up, t = plug (node c l y r) up := by
  induction t with
  | nil => simp at h
  | node c l x r ihl ihr =>
    simp only [toList_node, List.mem_append, List.mem_cons] at h
    rcases h with h | rfl | h
    · obtain ⟨c', l', r', up, rfl⟩ := ihl h
      exact ⟨c', l', r', up ++ [.left c x r], by rw [plug_append]; rfl⟩
    · exact ⟨c, l, r, [], rfl⟩
    · obtain ⟨c', l', r', up, rfl⟩ := ihr h
      exact ⟨c', l', r', up ++ [.right c l x], by rw [plug_append]; rfl⟩

end ColorTree

/-! ## Renaming the elements -/

section Map

variable {α β : Type*} (f : α → β)

def ColorTree.map : ColorTree α → ColorTree β
  | nil => nil
  | node c l x r => node c l.map (f x) r.map

def Crumb.map : Crumb α → Crumb β
  | left c x r => left c (f x) (r.map f)
  | right c l x => right c (l.map f) (f x)

namespace ColorTree

@[simp] theorem map_nil : (nil : ColorTree α).map f = nil := rfl

@[simp] theorem map_node (c : Color) (l : ColorTree α) (x : α) (r : ColorTree α) :
    (node c l x r).map f = node c (l.map f) (f x) (r.map f) := rfl

@[simp] theorem toList_map (t : ColorTree α) : (t.map f).toList = t.toList.map f := by
  induction t with
  | nil => rfl
  | node c l x r ihl ihr => simp [ihl, ihr]

theorem map_congr {g : α → β} {t : ColorTree α} (h : ∀ x ∈ t.toList, f x = g x) :
    t.map f = t.map g := by
  induction t with
  | nil => rfl
  | node c l x r ihl ihr =>
    rw [map_node, map_node, ihl fun y hy => h y (by simp [hy]), h x (by simp),
      ihr fun y hy => h y (by simp [hy])]

@[simp] theorem map_plug (t : ColorTree α) (up : List (Crumb α)) :
    (plug t up).map f = plug (t.map f) (up.map (Crumb.map f)) := by
  induction up generalizing t with
  | nil => rfl
  | cons k up ih => cases k <;> exact ih _

theorem crumbs_map_congr {g : α → β} {up : List (Crumb α)} (h : ∀ y ∈ pathList up, f y = g y) :
    up.map (Crumb.map f) = up.map (Crumb.map g) := by
  induction up with
  | nil => rfl
  | cons k up ih =>
    cases k with
    | left c x r =>
      rw [List.map_cons, List.map_cons, ih fun y hy => h y (by simp [pathList, hy]), Crumb.map,
        Crumb.map, h x (by simp [pathList]), map_congr f fun y hy => h y (by simp [pathList, hy])]
    | right c l x =>
      rw [List.map_cons, List.map_cons, ih fun y hy => h y (by simp [pathList, hy]), Crumb.map,
        Crumb.map, h x (by simp [pathList]), map_congr f fun y hy => h y (by simp [pathList, hy])]

theorem map_plug_node {g : α → β} {c : Color} {l r : ColorTree α} {x : α} {up : List (Crumb α)}
    (h : ∀ y ∈ l.toList ++ (r.toList ++ pathList up), f y = g y) :
    (plug (node c l x r) up).map f =
      plug (node c (l.map g) (f x) (r.map g)) (up.map (Crumb.map g)) := by
  simp only [List.mem_append] at h
  rw [map_plug, map_node, map_congr f fun y hy => h y (Or.inl hy),
    map_congr f fun y hy => h y (Or.inr (Or.inl hy)),
    crumbs_map_congr f fun y hy => h y (Or.inr (Or.inr hy))]

theorem descend_map (dir : β → Ordering) (t : ColorTree α) (up : List (Crumb α)) :
    descend dir (t.map f) (up.map (Crumb.map f)) =
      ((descend (fun x => dir (f x)) t up).1.map f,
        (descend (fun x => dir (f x)) t up).2.map (Crumb.map f)) := by
  induction t generalizing up with
  | nil => rfl
  | node c l x r ihl ihr =>
    rw [map_node, descend, descend]
    cases dir (f x) with
    | lt => exact ihl (.left c x r :: up)
    | eq => rfl
    | gt => exact ihr (.right c l x :: up)

theorem descend_renamed (dir : β → Ordering) {t t' : ColorTree α} {up : List (Crumb α)}
    (h : descend (fun x => dir (f x)) t [] = (t', up)) :
    descend dir (t.map f) [] = (t'.map f, up.map (Crumb.map f)) := by
  have hmap := descend_map f dir t []
  rwa [h] at hmap

end ColorTree

end Map

end Cserv.Foundations
