import Cserv.Foundations.Returns
import Cserv.Util.RbBalance
import Cserv.Util.RbHeap

/-!
# Trees of nodes in memory

A tree of addresses stands in memory when each node has the pointers and the colour the tree
says, its parent pointer included. The statements of `rbtree.c` are followed on such trees:
what a rotation, a recolouring or a changed link does to the tree, and that memory outside
of it stays as it is.
-/
namespace Cserv.Util

open Foundations ColorTree

/-! ## The accessors of a node -/

def colorWord : Color → Addr
  | .red => RB_RED
  | .black => RB_BLACK

/-- An address that leaves the bits of the colour free. -/
def Aligned (p : Addr) : Prop := p &&& 3 = 0

/-- The address of a node. -/
def IsNode (x : Addr) : Prop := x ≠ NULL ∧ Aligned x

instance decidableIsNode (x : Addr) : Decidable (IsNode x) :=
  inferInstanceAs (Decidable (x ≠ 0 ∧ x &&& 3 = 0))

section Masks

variable {w : ℕ} {p k j : BitVec w}

theorem insert_field (a : BitVec w) (h : p &&& k = 0) : ((a &&& k) ||| p) &&& ~~~k = p := by
  ext i hi
  have hbit := congrArg (fun v => v[i]) h
  simp only [BitVec.getElem_and, BitVec.getElem_or, BitVec.getElem_not] at hbit ⊢
  revert hbit
  cases a[i] <;> cases p[i] <;> cases k[i] <;> simp

theorem keep_field (a : BitVec w) (h : p &&& j = 0) (hj : j &&& k = j) :
    ((a &&& k) ||| p) &&& j = a &&& j := by
  ext i hi
  have hbit := congrArg (fun v => v[i]) h
  have hsub := congrArg (fun v => v[i]) hj
  simp only [BitVec.getElem_and, BitVec.getElem_or] at hbit hsub ⊢
  revert hbit hsub
  cases a[i] <;> cases p[i] <;> cases k[i] <;> cases j[i] <;> simp

theorem or_mask (a k : BitVec w) : a ||| k = (a &&& ~~~k) ||| k := by
  ext i hi
  simp only [BitVec.getElem_and, BitVec.getElem_or, BitVec.getElem_not]
  cases a[i] <;> cases k[i] <;> rfl

end Masks

theorem Aligned.low {p : Addr} (h : Aligned p) : p &&& 1 = 0 := by
  rw [show (1 : Addr) = 3 &&& 1 from rfl, ← BitVec.and_assoc, h]
  rfl

namespace RbNode

/-- What the accessors read from a node; `a` is its child on side `s`. -/
structure Is (n : RbNode) (parent : Addr) (c : Color) (s : Side) (a b : Addr) : Prop where
  parent : n.rbParent = parent
  color : n.rbColor = colorWord c
  near : n.child s = a
  far : n.child s.flip = b

variable {n : RbNode} {p q a b : Addr} {c : Color} {s : Side}

theorem Is.flip (h : n.Is p c s a b) : n.Is p c s.flip b a :=
  ⟨h.parent, h.color, h.far, by cases s <;> exact h.near⟩

theorem Is.isRed (h : n.Is p c s a b) : n.rbIsRed = decide (c = .red) := by
  rw [rbIsRed, h.color]
  cases c <;> rfl

theorem Is.setNear (h : n.Is p c s a b) (a' : Addr) : (n.setChild a' s).Is p c s a' b := by
  cases s <;> exact ⟨h.parent, h.color, rfl, h.far⟩

theorem Is.setFar (h : n.Is p c s a b) (b' : Addr) : (n.setChild b' s.flip).Is p c s a b' := by
  cases s <;> exact ⟨h.parent, h.color, h.near, rfl⟩

theorem Is.setParent (h : n.Is p c s a b) (hq : Aligned q) : (n.rbSetParent q).Is q c s a b where
  parent := insert_field _ hq
  color := (keep_field _ hq.low rfl).trans h.color
  near := by cases s <;> exact h.near
  far := by cases s <;> exact h.far

theorem Is.setColor (h : n.Is p c s a b) (c' : Color) :
    (n.rbSetColor (colorWord c')).Is p c' s a b where
  parent := by
    rw [← h.parent]
    exact keep_field _ (by cases c' <;> rfl) rfl
  color := by
    have hfield := insert_field n.rbParentColor (p := colorWord c') (k := ~~~1)
      (by cases c' <;> rfl)
    rwa [BitVec.not_not] at hfield
  near := by cases s <;> exact h.near
  far := by cases s <;> exact h.far

theorem Is.setBlack (h : n.Is p c s a b) : n.rbSetBlack.Is p .black s a b := by
  have heq : n.rbSetBlack = n.rbSetColor (colorWord .black) := by
    rw [rbSetBlack, or_mask]
    rfl
  rw [heq]
  exact h.setColor .black

theorem Is.setRed (h : n.Is p c s a b) : n.rbSetRed.Is p .red s a b := by
  have heq : n.rbSetRed = n.rbSetColor (colorWord .red) := by
    simp [rbSetRed, rbSetColor, colorWord, RB_RED]
  rw [heq]
  exact h.setColor .red

theorem is_linked (s : Side) (hp : Aligned p) : (RbNode.mk p NULL NULL).Is p .red s NULL NULL where
  parent := by
    have hfield : ((0 &&& 3) ||| p) &&& ~~~3 = p := insert_field 0 hp
    rwa [show (0 : Addr) &&& 3 = 0#64 from rfl, BitVec.zero_or] at hfield
  color := hp.low
  near := by cases s <;> rfl
  far := by cases s <;> rfl

end RbNode

/-! ## Trees in memory -/

def addr : ColorTree Addr → Addr
  | nil => NULL
  | node _ _ x _ => x

def top : List (Crumb Addr) → Addr
  | [] => NULL
  | .left _ x _ :: _ => x
  | .right _ _ x :: _ => x

/-- The nodes of a subtree below `parent` are in memory. -/
def Subtree (mem : Addr → Option RbNode) : Addr → ColorTree Addr → Prop
  | _, nil => True
  | p, node c l x r =>
    (∃ n, mem x = some n ∧ n.Is p c .left (addr l) (addr r)) ∧ Subtree mem x l ∧ Subtree mem x r

/-- The nodes of a path are in memory, and the link at its end is `a`. -/
def Path {ι : Type} (m : RbHeap ι) (i : ι) : List (Crumb Addr) → Addr → Prop
  | [], a => m.root i = a
  | .left c x r :: up, a =>
    (∃ n, m.node x = some n ∧ n.Is (top up) c .left a (addr r)) ∧ Subtree m.node x r ∧
      Path m i up x
  | .right c l x :: up, a =>
    (∃ n, m.node x = some n ∧ n.Is (top up) c .left (addr l) a) ∧ Subtree m.node x l ∧
      Path m i up x

def endLink {ι : Type} (i : ι) : List (Crumb Addr) → RbHeap.Link ι
  | [] => .root i
  | .left _ x _ :: _ => .child x .left
  | .right _ _ x :: _ => .child x .right

section Layout

variable {ι : Type} {m m' : RbHeap ι} {i : ι} {mem mem' : Addr → Option RbNode} {s : Side}
  {c : Color} {t u : ColorTree Addr} {x p a : Addr} {up : List (Crumb Addr)}

@[simp] theorem addr_branch : addr (branch s c t x u) = x := by
  cases s <;> rfl

@[simp] theorem top_on : top (Crumb.on s c x u :: up) = x := by
  cases s <;> rfl

@[simp] theorem endLink_on : endLink i (Crumb.on s c x u :: up) = .child x s := by
  cases s <;> rfl

theorem addr_eq_null_or (t : ColorTree Addr) : addr t = NULL ∨ addr t ∈ t.toList := by
  cases t <;> simp [addr]

theorem subtree_branch : Subtree mem p (branch s c t x u) ↔
    (∃ n, mem x = some n ∧ n.Is p c s (addr t) (addr u)) ∧ Subtree mem x t ∧ Subtree mem x u := by
  cases s with
  | left => exact Iff.rfl
  | right =>
    constructor
    · rintro ⟨⟨n, hn, his⟩, hu, ht⟩
      exact ⟨⟨n, hn, his.flip⟩, ht, hu⟩
    · rintro ⟨⟨n, hn, his⟩, ht, hu⟩
      exact ⟨⟨n, hn, his.flip⟩, hu, ht⟩

theorem path_on : Path m i (Crumb.on s c x u :: up) a ↔
    (∃ n, m.node x = some n ∧ n.Is (top up) c s a (addr u)) ∧ Subtree m.node x u ∧
      Path m i up x := by
  cases s with
  | left => exact Iff.rfl
  | right =>
    constructor
    · rintro ⟨⟨n, hn, his⟩, h⟩
      exact ⟨⟨n, hn, his.flip⟩, h⟩
    · rintro ⟨⟨n, hn, his⟩, h⟩
      exact ⟨⟨n, hn, his.flip⟩, h⟩

theorem Subtree.congr (h : Subtree mem p t) (heq : ∀ z ∈ t.toList, mem' z = mem z) :
    Subtree mem' p t := by
  induction t generalizing p with
  | nil => trivial
  | node c l y r ihl ihr =>
    obtain ⟨hy, hl, hr⟩ := h
    refine ⟨by rwa [heq y (by simp)], ihl hl fun z hz => ?_, ihr hr fun z hz => ?_⟩
    · exact heq z (by simp [hz])
    · exact heq z (by simp [hz])

theorem Path.congr (h : Path m i up a) (heq : ∀ z ∈ pathList up, m'.node z = m.node z)
    (hroot : m'.root i = m.root i) : Path m' i up a := by
  induction up generalizing a with
  | nil => exact hroot.trans h
  | cons k up ih =>
    obtain ⟨s, c, x, u, rfl⟩ := k.exists_on
    rw [path_on] at h ⊢
    obtain ⟨hx, hu, hup⟩ := h
    rw [pathList_on] at heq
    refine ⟨by rwa [heq x (by simp)], hu.congr fun z hz => ?_, ih hup fun z hz => ?_⟩
    · exact heq z (by simp [hz])
    · exact heq z (by simp [hz])

theorem addr_plug_congr (h : addr t = addr u) (up : List (Crumb Addr)) :
    addr (plug t up) = addr (plug u up) := by
  induction up generalizing t u with
  | nil => exact h
  | cons k up ih =>
    obtain ⟨s, c, x, v, rfl⟩ := k.exists_on
    rw [plug_on, plug_on]
    exact ih (by rw [addr_branch, addr_branch])

theorem Subtree.isSome (h : Subtree mem p t) (hx : x ∈ t.toList) : (mem x).isSome := by
  induction t generalizing p with
  | nil => simp at hx
  | node c l y r ihl ihr =>
    obtain ⟨⟨n, hn, -⟩, hl, hr⟩ := h
    simp only [toList_node, List.mem_append, List.mem_cons] at hx
    rcases hx with hx | rfl | hx
    · exact ihl hl hx
    · rw [hn]
      rfl
    · exact ihr hr hx

theorem Subtree.focus (h : Subtree mem p (plug t up)) : ∃ q, Subtree mem q t := by
  induction up generalizing t with
  | nil => exact ⟨p, h⟩
  | cons k up ih =>
    obtain ⟨s, c, x, u, rfl⟩ := k.exists_on
    rw [plug_on] at h
    obtain ⟨q, hq⟩ := ih h
    exact ⟨x, (subtree_branch.mp hq).2.1⟩

theorem Subtree.plug_congr (h : Subtree mem p (plug t up)) (haddr : addr u = addr t)
    (hsub : ∀ q, Subtree mem q t → Subtree mem' q u)
    (heq : ∀ z ∈ pathList up, mem' z = mem z) : Subtree mem' p (plug u up) := by
  induction up generalizing t u with
  | nil => exact hsub p h
  | cons k up ih =>
    obtain ⟨s, c, x, v, rfl⟩ := k.exists_on
    rw [plug_on] at h ⊢
    rw [pathList_on] at heq
    apply ih h
    · rw [addr_branch, addr_branch]
    · intro q hq
      obtain ⟨hx, ht, hv⟩ := subtree_branch.mp hq
      refine subtree_branch.mpr ⟨?_, hsub x ht, hv.congr fun z hz => heq z (by simp [hz])⟩
      rwa [heq x (by simp), haddr]
    · exact fun z hz => heq z (by simp [hz])

/-- A tree in memory is a subtree and the path above it. -/
theorem subtree_plug (t : ColorTree Addr) (up : List (Crumb Addr)) :
    m.root i = addr (plug t up) ∧ Subtree m.node NULL (plug t up) ↔
      Subtree m.node (top up) t ∧ Path m i up (addr t) := by
  induction up generalizing t with
  | nil => exact and_comm
  | cons k up ih =>
    obtain ⟨s, c, x, u, rfl⟩ := k.exists_on
    rw [plug_on, ih, subtree_branch, path_on, top_on, addr_branch]
    tauto

end Layout

/-- A tree of nodes stands at the root `i`. -/
structure Holds {ι : Type} (m : RbHeap ι) (i : ι) (t : ColorTree Addr) : Prop where
  root : m.root i = addr t
  nodes : Subtree m.node NULL t
  nodup : t.toList.Nodup
  isNode : ∀ x ∈ t.toList, IsNode x

/-- The same, after changes to the nodes in `S` and to the root `i` of the memory `m₀`. -/
structure HoldsFrom {ι : Type} (m₀ : RbHeap ι) (S : Set Addr) (i : ι) (t : ColorTree Addr)
    (m : RbHeap ι) : Prop extends Holds m i t where
  inside : ∀ x ∈ t.toList, x ∈ S
  inUse : ∀ x ∈ S, (m.node x).isSome
  outside : ∀ x ∉ S, m.node x = m₀.node x
  other : ∀ j ≠ i, m.root j = m₀.root j

section Frame

variable {ι : Type} {m m' : RbHeap ι} {i j : ι} {t u : ColorTree Addr}

theorem Holds.congr (h : Holds m i t) (heq : ∀ z ∈ t.toList, m'.node z = m.node z)
    (hroot : m'.root i = m.root i) : Holds m' i t :=
  ⟨hroot.trans h.root, h.nodes.congr heq, h.nodup, h.isNode⟩

theorem HoldsFrom.trans {m₀ : RbHeap ι} {S S' : Set Addr} (h : HoldsFrom m₀ S i t m)
    (h' : HoldsFrom m S' i u m') (hsub : ∀ z ∈ S', z ∈ S) : HoldsFrom m₀ S i u m' where
  toHolds := h'.toHolds
  inside z hz := hsub z (h'.inside z hz)
  inUse z hz := by
    by_cases hz' : z ∈ S'
    · exact h'.inUse z hz'
    · rw [h'.outside z hz']
      exact h.inUse z hz
  outside z hz := by
    rw [h'.outside z fun hz' => hz (hsub z hz'), h.outside z hz]
  other j hj := by rw [h'.other j hj, h.other j hj]

theorem HoldsFrom.frame {S : Set Addr} (h : HoldsFrom m S i t m') (hu : Holds m j u) (hj : j ≠ i)
    (hapart : ∀ z ∈ u.toList, z ∉ S) : Holds m' j u :=
  hu.congr (fun z hz => h.outside z (hapart z hz)) (h.other j hj)

theorem HoldsFrom.kept {S : Set Addr} (h : HoldsFrom m S i t m') {x : Addr}
    (hx : (m.node x).isSome) : (m'.node x).isSome := by
  by_cases hS : x ∈ S
  · exact h.inUse x hS
  · rwa [h.outside x hS]

end Frame

/-! ## A memory with a given tree -/

def nodeAt : Addr → ColorTree Addr → Addr → Option RbNode
  | _, nil, _ => none
  | p, node c l x r, a =>
    if a = x then some ((RbNode.mk (colorWord c) (addr l) (addr r)).rbSetParent p)
    else (nodeAt x l a).or (nodeAt x r a)

/-- The memory that holds a tree at every root, and nothing else. -/
def layout {ι : Type} (t : ColorTree Addr) : RbHeap ι := ⟨nodeAt NULL t, fun _ => addr t⟩

theorem nodeAt_isSome (p : Addr) (t : ColorTree Addr) (a : Addr) :
    (nodeAt p t a).isSome ↔ a ∈ t.toList := by
  induction t generalizing p with
  | nil => simp [nodeAt]
  | node c l x r ihl ihr =>
    rw [nodeAt]
    split
    · simp_all
    · simp_all

theorem RbNode.is_colored (c : Color) (a b : Addr) :
    (RbNode.mk (colorWord c) a b).Is NULL c .left a b where
  parent := by cases c <;> simp [rbParent, colorWord, RB_RED, RB_BLACK, NULL]
  color := by cases c <;> simp [rbColor, colorWord, RB_RED, RB_BLACK]
  near := rfl
  far := rfl

theorem subtree_nodeAt {p : Addr} {t : ColorTree Addr} (hnodup : t.toList.Nodup)
    (hnode : ∀ x ∈ t.toList, IsNode x) (hp : Aligned p) : Subtree (nodeAt p t) p t := by
  induction t generalizing p with
  | nil => trivial
  | node c l x r ihl ihr =>
    simp only [toList_node, List.nodup_append, List.nodup_cons, List.mem_cons] at hnodup
    obtain ⟨hl, ⟨hxr, hr⟩, hdisj⟩ := hnodup
    have hx : IsNode x := hnode x (by simp)
    refine ⟨⟨_, if_pos rfl, (RbNode.is_colored c _ _).setParent hp⟩, ?_, ?_⟩
    · refine (ihl hl (fun z hz => hnode z (by simp [hz])) hx.2).congr fun z hz => ?_
      have hsome := (nodeAt_isSome x l z).mpr hz
      rw [nodeAt, if_neg (hdisj z hz x (Or.inl rfl)), Option.or_of_isSome hsome]
    · refine (ihr hr (fun z hz => hnode z (by simp [hz])) hx.2).congr fun z hz => ?_
      have hnone : nodeAt x l z = none := by
        rw [← Option.not_isSome_iff_eq_none, nodeAt_isSome]
        exact fun hzl => hdisj z hzl z (Or.inr hz) rfl
      have hzx : z ≠ x := fun hzx => hxr (hzx ▸ hz)
      rw [nodeAt, if_neg hzx, hnone, Option.none_or]

theorem holds_layout {ι : Type} (i : ι) {t : ColorTree Addr} (hnodup : t.toList.Nodup)
    (hnode : ∀ x ∈ t.toList, IsNode x) : Holds (layout t) i t :=
  ⟨rfl, subtree_nodeAt hnodup hnode BitVec.zero_and, hnodup, hnode⟩

/-! ## Statements -/

namespace RbHeap

variable {ι : Type} {m : RbHeap ι} {x : Addr} {n : RbNode}

theorem load_eq (hx : x ≠ NULL) : m.load x = m.node x := if_neg hx

theorem modify_eq (hx : x ≠ NULL) (hn : m.node x = some n) (f : RbNode → RbNode) :
    m.modify x f = some (m.store x (f n)) := by
  rw [modify, load_eq hx, hn]
  rfl

@[simp] theorem store_self : (m.store x n).node x = some n := Function.update_self ..

theorem store_of_ne {z : Addr} (h : z ≠ x) : (m.store x n).node z = m.node z :=
  Function.update_of_ne h ..

@[simp] theorem store_root : (m.store x n).root = m.root := rfl

end RbHeap

section Statements

variable {ι : Type} {m m₀ : RbHeap ι} {S : Set Addr} {i : ι} {s : Side} {c c' : Color}
  {t u a b : ColorTree Addr} {x y p q old : Addr} {up : List (Crumb Addr)}

theorem Subtree.reparent (h : Subtree m.node p t) (hnodup : t.toList.Nodup)
    (hnode : ∀ z ∈ t.toList, IsNode z) (hq : Aligned q) :
    Returns (m.reparent (addr t) q) fun m' =>
      Subtree m'.node q t ∧ (∀ z ∉ t.toList, m'.node z = m.node z) ∧ m'.root = m.root := by
  cases t with
  | nil => exact Returns.some ⟨trivial, fun _ _ => rfl, rfl⟩
  | node c l y r =>
    obtain ⟨⟨n, hn, his⟩, hl, hr⟩ := h
    have hy : y ≠ NULL := (hnode y (by simp)).1
    have hne : ∀ z ∈ l.toList ++ r.toList, z ≠ y := by
      have hperm : (node c l y r).toList.Perm (y :: (l.toList ++ r.toList)) := List.perm_middle
      intro z hz hzy
      exact (List.nodup_cons.mp (hperm.nodup_iff.mp hnodup)).1 (hzy ▸ hz)
    have hstep : m.reparent (addr (node c l y r)) q = some (m.store y (n.rbSetParent q)) :=
      (if_neg hy).trans (RbHeap.modify_eq hy hn _)
    rw [hstep]
    refine Returns.some ⟨⟨⟨_, RbHeap.store_self, his.setParent hq⟩, hl.congr fun z hz => ?_,
      hr.congr fun z hz => ?_⟩, fun z hz => ?_, rfl⟩
    · exact RbHeap.store_of_ne (hne z (by simp [hz]))
    · exact RbHeap.store_of_ne (hne z (by simp [hz]))
    · exact RbHeap.store_of_ne (fun hzy => hz (by simp [hzy]))

theorem Path.setLink [DecidableEq ι] (h : Path m i up old) (hnodup : (pathList up).Nodup)
    (hnode : ∀ z ∈ pathList up, IsNode z) (new : Addr) :
    Returns (m.setLink new (endLink i up)) fun m' =>
      Path m' i up new ∧ (∀ z ∉ pathList up, m'.node z = m.node z) ∧
        ∀ j ≠ i, m'.root j = m.root j := by
  cases up with
  | nil =>
    refine Returns.some ⟨?_, fun _ _ => rfl, fun j hj => ?_⟩
    · exact Function.update_self ..
    · exact Function.update_of_ne hj ..
  | cons k up =>
    obtain ⟨s', c, x, u, rfl⟩ := k.exists_on
    rw [path_on] at h
    rw [pathList_on] at hnodup hnode ⊢
    obtain ⟨⟨n, hn, his⟩, hu, hup⟩ := h
    have hx : x ≠ NULL := (hnode x (by simp)).1
    have hne : ∀ z ∈ u.toList ++ pathList up, z ≠ x :=
      fun z hz hzx => (List.nodup_cons.mp hnodup).1 (hzx ▸ hz)
    rw [endLink_on, RbHeap.setLink, RbHeap.modify_eq hx hn]
    refine Returns.some ⟨path_on.mpr ⟨⟨_, RbHeap.store_self, his.setNear new⟩,
      hu.congr fun z hz => ?_, hup.congr (fun z hz => ?_) rfl⟩, fun z hz => ?_, fun j _ => rfl⟩
    · exact RbHeap.store_of_ne (hne z (by simp [hz]))
    · exact RbHeap.store_of_ne (hne z (by simp [hz]))
    · exact RbHeap.store_of_ne (fun hzx => hz (by simp [hzx]))

/-- Whichever child is looked at first, the link that is set is the one at the end of the
path. -/
theorem Path.relink_eq [DecidableEq ι] (h : Path m i up old) (hold : old ≠ NULL)
    (hnew : old ∉ pathList up) (hnode : ∀ z ∈ pathList up, IsNode z) (new : Addr) :
    m.relink s (top up) old new i = m.setLink new (endLink i up) := by
  cases up with
  | nil => rfl
  | cons k up =>
    obtain ⟨s', c, x, u, rfl⟩ := k.exists_on
    rw [path_on] at h
    rw [pathList_on] at hnew hnode
    obtain ⟨⟨n, hn, his⟩, -, -⟩ := h
    have hx : x ≠ NULL := (hnode x (by simp)).1
    rw [top_on, endLink_on, RbHeap.setLink, RbHeap.relink, if_neg hx, RbHeap.load_eq hx, hn]
    by_cases hs : s = s'
    · subst hs
      exact if_pos his.near.symm
    · have hflip : s = s'.flip := by
        cases s <;> cases s' <;> first | rfl | exact absurd rfl hs
      have hback : s.flip = s' := by rw [hflip]; cases s' <;> rfl
      have hsib : old ≠ n.child s := by
        rw [hflip, his.far]
        intro heq
        rcases addr_eq_null_or u with hnull | hmem
        · exact hold (heq.trans hnull)
        · exact hnew (by simp [heq, hmem])
      rw [← hback]
      exact if_neg hsib

/-! ### Statements at a node of a tree -/

/-- The subtree and the path of a zipper, and their distinct nodes. -/
structure Zipped (m : RbHeap ι) (i : ι) (t : ColorTree Addr) (up : List (Crumb Addr)) : Prop where
  sub : Subtree m.node (top up) t
  path : Path m i up (addr t)
  nodup : (t.toList ++ pathList up).Nodup
  isNode : ∀ z ∈ t.toList ++ pathList up, IsNode z

theorem Holds.zipped (h : Holds m i (plug t up)) : Zipped m i t up := by
  obtain ⟨hsub, hpath⟩ := (subtree_plug t up).mp ⟨h.root, h.nodes⟩
  have hperm := toList_plug_perm t up
  exact ⟨hsub, hpath, hperm.nodup_iff.mp h.nodup, fun z hz => h.isNode z (hperm.mem_iff.mpr hz)⟩

theorem Zipped.holds (h : Zipped m i t up) : Holds m i (plug t up) := by
  obtain ⟨hroot, hnodes⟩ := (subtree_plug t up).mpr ⟨h.sub, h.path⟩
  have hperm := toList_plug_perm t up
  exact ⟨hroot, hnodes, hperm.nodup_iff.mpr h.nodup, fun z hz => h.isNode z (hperm.mem_iff.mp hz)⟩

theorem Zipped.top_aligned (h : Zipped m i t up) : Aligned (top up) := by
  cases up with
  | nil => exact BitVec.zero_and
  | cons k up =>
    obtain ⟨s, c, x, u, rfl⟩ := k.exists_on
    rw [top_on]
    exact (h.isNode x (by simp [pathList_on])).2

theorem HoldsFrom.rebuild {m' : RbHeap ι} {t' : ColorTree Addr} {up' : List (Crumb Addr)}
    (h : HoldsFrom m₀ S i (plug t up) m)
    (hperm : (t'.toList ++ pathList up').Perm (t.toList ++ pathList up))
    (hsub : Subtree m'.node (top up') t') (hpath : Path m' i up' (addr t'))
    (houtside : ∀ z ∉ t.toList ++ pathList up, m'.node z = m.node z)
    (hother : ∀ j ≠ i, m'.root j = m.root j) : HoldsFrom m₀ S i (plug t' up') m' := by
  have hz := h.toHolds.zipped
  have hold := toList_plug_perm t up
  have hnew := (toList_plug_perm t' up').trans hperm
  have hzip : Zipped m' i t' up' :=
    ⟨hsub, hpath, hperm.nodup_iff.mpr hz.nodup, fun z hz' => hz.isNode z (hperm.mem_iff.mp hz')⟩
  refine ⟨hzip.holds, fun z hz' => ?_, fun z hz' => ?_, fun z hz' => ?_, fun j hj => ?_⟩
  · exact h.inside z (hold.mem_iff.mpr (hnew.mem_iff.mp hz'))
  · by_cases hmem : z ∈ t.toList ++ pathList up
    · exact hzip.holds.nodes.isSome (hnew.mem_iff.mpr hmem)
    · rw [houtside z hmem]
      exact h.inUse z hz'
  · rw [houtside z fun hmem => hz' (h.inside z (hold.mem_iff.mpr hmem)), h.outside z hz']
  · rw [hother j hj, h.other j hj]

theorem Holds.load (h : Holds m i (plug (branch s c t x u) up)) :
    ∃ n, m.load x = some n ∧ n.Is (top up) c s (addr t) (addr u) := by
  have hz := h.zipped
  obtain ⟨⟨n, hn, his⟩, -⟩ := subtree_branch.mp hz.sub
  have hx : IsNode x := hz.isNode x (by simp [toList_branch.mem_iff])
  exact ⟨n, (RbHeap.load_eq hx.1).trans hn, his⟩

theorem Holds.isRed (h : Holds m i (plug t up)) : m.isRed (addr t) = some (RbTree.isRed t) := by
  cases t with
  | nil => rfl
  | node c l x r =>
    obtain ⟨n, hn, his⟩ := h.load (s := .left)
    have hx : x ≠ NULL := by
      rintro rfl
      cases hn
    rw [RbTree.isRed_node, ← his.isRed]
    exact (if_neg hx).trans (by rw [addr, hn]; rfl)

theorem Holds.sibling_ne (h : Holds m i (plug (branch s c t x u) up)) (ht : t ≠ nil) :
    addr t ≠ addr u := by
  have hz := h.zipped
  have hperm := (toList_branch (s := s) (c := c) (t := t) (x := x) (u := u)).append_right
    (pathList up)
  obtain ⟨c', l, y, r, rfl⟩ := exists_branch .left ht
  have hy : y ∈ (branch .left c' l y r).toList := by simp [toList_branch.mem_iff]
  have hnodup := hperm.nodup_iff.mp hz.nodup
  simp only [List.cons_append, List.nodup_cons, List.nodup_append] at hnodup
  rw [addr_branch]
  intro heq
  rcases addr_eq_null_or u with hnull | hmem
  · exact (hz.isNode y (by simp [toList_branch.mem_iff])).1 (heq.trans hnull)
  · exact hnodup.2.1.2.2 y hy y (heq ▸ hmem) rfl

/-- A node is on the side of its parent where the parent's link leads to it. -/
theorem Holds.side_eq {n : RbNode} {q : Addr} (h : Holds m i (plug (branch s c t x u) up))
    (ht : t ≠ nil) (hn : n.Is q c s (addr t) (addr u)) :
    (if addr t = n.rbLeft then Side.left else Side.right) = s := by
  cases s with
  | left => exact if_pos hn.near.symm
  | right =>
    have hleft : n.rbLeft = addr u := hn.far
    rw [hleft]
    exact if_neg (h.sibling_ne ht)

theorem HoldsFrom.recolor (h : HoldsFrom m₀ S i (plug (branch s c t x u) up) m)
    {f : RbNode → RbNode} (hf : ∀ n p a b, RbNode.Is n p c s a b → (f n).Is p c' s a b) :
    Returns (m.modify x f) (HoldsFrom m₀ S i (plug (branch s c' t x u) up)) := by
  have hz := h.toHolds.zipped
  obtain ⟨⟨n, hn, his⟩, ht, hu⟩ := subtree_branch.mp hz.sub
  have hmem : ∀ c, (branch s c t x u).toList.Perm (x :: (t.toList ++ u.toList)) := fun _ => toList_branch
  have hx : IsNode x := hz.isNode x (by simp [(hmem c).mem_iff])
  have hnodup := ((hmem c).append_right (pathList up)).nodup_iff.mp hz.nodup
  have hne : ∀ z ∈ t.toList ++ u.toList ++ pathList up, z ≠ x :=
    fun z hz hzx => (List.nodup_cons.mp hnodup).1 (hzx ▸ hz)
  rw [RbHeap.modify_eq hx.1 hn]
  apply Returns.some
  apply h.rebuild
  · exact ((hmem c').trans (hmem c).symm).append_right _
  · refine subtree_branch.mpr ⟨⟨_, RbHeap.store_self, hf _ _ _ _ his⟩, ht.congr fun z hz => ?_,
      hu.congr fun z hz => ?_⟩
    · exact RbHeap.store_of_ne (hne z (by simp [hz]))
    · exact RbHeap.store_of_ne (hne z (by simp [hz]))
  · rw [addr_branch]
    refine Path.congr (m := m) ?_ (fun z hz => ?_) rfl
    · simpa using hz.path
    · exact RbHeap.store_of_ne (hne z (by simp [hz]))
  · intro z hz
    refine RbHeap.store_of_ne fun hzx => hz ?_
    simp [(hmem c).mem_iff, hzx]
  · intro j _
    rfl

theorem HoldsFrom.setBlack (h : HoldsFrom m₀ S i (plug (branch s c t x u) up) m) :
    Returns (m.modify x (·.rbSetBlack)) (HoldsFrom m₀ S i (plug (branch s .black t x u) up)) :=
  h.recolor fun _ _ _ _ his => his.setBlack

theorem HoldsFrom.setRed (h : HoldsFrom m₀ S i (plug (branch s c t x u) up) m) :
    Returns (m.modify x (·.rbSetRed)) (HoldsFrom m₀ S i (plug (branch s .red t x u) up)) :=
  h.recolor fun _ _ _ _ his => his.setRed

theorem HoldsFrom.setColor (h : HoldsFrom m₀ S i (plug (branch s c t x u) up) m) (c' : Color) :
    Returns (m.modify x (·.rbSetColor (colorWord c')))
      (HoldsFrom m₀ S i (plug (branch s c' t x u) up)) :=
  h.recolor fun _ _ _ _ his => his.setColor c'

theorem toList_branch_far : (branch s c t x (branch s c' a y b)).toList.Perm
    (x :: y :: (t.toList ++ (a.toList ++ b.toList))) :=
  toList_branch.trans (((toList_branch.append_left _).trans List.perm_middle).cons x)

theorem toList_branch_near : (branch s c (branch s c' t x a) y b).toList.Perm
    (x :: y :: (t.toList ++ (a.toList ++ b.toList))) := by
  refine toList_branch.trans (((toList_branch.append_right _).cons y).trans ?_)
  rw [List.cons_append, List.append_assoc]
  exact List.Perm.swap x y _

theorem HoldsFrom.rotate [DecidableEq ι]
    (h : HoldsFrom m₀ S i (plug (branch s c t x (branch s c' a y b)) up) m) :
    Returns (m.rbRotate s x i)
      (HoldsFrom m₀ S i (plug (branch s c' (branch s c t x a) y b) up)) := by
  have hz := h.toHolds.zipped
  obtain ⟨⟨n, hn, hnis⟩, ht, hsub⟩ := subtree_branch.mp hz.sub
  obtain ⟨⟨o, ho, hois⟩, ha, hb⟩ := subtree_branch.mp hsub
  have hpath : Path m i up x := by simpa using hz.path
  have hperm : ((branch s c t x (branch s c' a y b)).toList ++ pathList up).Perm
      (x :: y :: (t.toList ++ (a.toList ++ b.toList)) ++ pathList up) :=
    toList_branch_far.append_right (pathList up)
  have hnode : ∀ z ∈ x :: y :: (t.toList ++ (a.toList ++ b.toList)) ++ pathList up, IsNode z :=
    fun z hz' => hz.isNode z (hperm.mem_iff.mpr hz')
  have hnodup := hperm.nodup_iff.mp hz.nodup
  obtain ⟨hx, hy⟩ : IsNode x ∧ IsNode y := ⟨hnode x (by simp), hnode y (by simp)⟩
  simp only [List.cons_append, List.nodup_cons, List.mem_cons, List.mem_append, List.nodup_append,
    not_or] at hnodup
  obtain ⟨⟨hxy, ⟨hxt, hxa, hxb⟩, hxp⟩, ⟨⟨hyt, hya, hyb⟩, hyp⟩, ⟨-, ⟨hna, -, hab⟩, hta⟩, hnp, htp⟩ :=
    hnodup
  unfold RbHeap.rbRotate
  refine Returns.step ((RbHeap.load_eq hx.1).trans hn) ?_
  simp only [hnis.far, hnis.parent, addr_branch]
  refine Returns.step ((RbHeap.load_eq hy.1).trans ho) ?_
  simp only [hois.near]
  refine Returns.step (RbHeap.modify_eq hx.1 hn _) ?_
  have ha₁ : Subtree (m.store x (n.setChild (addr a) s.flip)).node y a :=
    ha.congr fun z hz' => RbHeap.store_of_ne fun hzx => hxa (hzx ▸ hz')
  refine Returns.bind (ha₁.reparent hna (fun z hz' => hnode z (by simp [hz'])) hx.2) ?_
  rintro m₁ ⟨ha₂, hout₁, hroot₁⟩
  have ho₁ : m₁.node y = some o := by
    rw [hout₁ y hya, RbHeap.store_of_ne (Ne.symm hxy), ho]
  refine Returns.step (RbHeap.modify_eq hy.1 ho₁ _) ?_
  refine Returns.step (RbHeap.modify_eq hy.1 RbHeap.store_self _) ?_
  -- the memory in front of the change of the link to `node`
  generalize hm₂ : (m₁.store y (o.setChild x s)).store y ((o.setChild x s).rbSetParent (top up)) = m₂
  have hy₂ : m₂.node y = some ((o.setChild x s).rbSetParent (top up)) := by
    rw [← hm₂, RbHeap.store_self]
  have hx₂ : m₂.node x = some (n.setChild (addr a) s.flip) := by
    rw [← hm₂, RbHeap.store_of_ne hxy, RbHeap.store_of_ne hxy, hout₁ x hxa, RbHeap.store_self]
  have hout₂ : ∀ z, z ≠ y → m₂.node z = m₁.node z := by
    intro z hzy
    rw [← hm₂, RbHeap.store_of_ne hzy, RbHeap.store_of_ne hzy]
  have hkeep : ∀ z, z ≠ x → z ≠ y → z ∉ a.toList → m₂.node z = m.node z := by
    intro z hzx hzy hza
    rw [hout₂ z hzy, hout₁ z hza, RbHeap.store_of_ne hzx]
  have hroot₂ : m₂.root = m.root := by rw [← hm₂]; exact hroot₁
  have hpath₂ : Path m₂ i up x := by
    refine hpath.congr (fun z hz' => hkeep z ?_ ?_ ?_) (by rw [hroot₂])
    · exact fun hzx => hxp (hzx ▸ hz')
    · exact fun hzy => hyp (hzy ▸ hz')
    · exact fun hza => htp z (Or.inr (Or.inl hza)) z hz' rfl
  have hnodep : ∀ z ∈ pathList up, IsNode z := fun z hz' => hnode z (by simp [hz'])
  rw [hpath₂.relink_eq hx.1 hxp hnodep]
  refine Returns.bind (hpath₂.setLink hnp hnodep y) ?_
  rintro m₃ ⟨hpath₃, hout₃, hother₃⟩
  have hx₃ : m₃.node x = some (n.setChild (addr a) s.flip) := by rw [hout₃ x hxp, hx₂]
  rw [RbHeap.modify_eq hx.1 hx₃]
  generalize hm₄ : m₃.store x ((n.setChild (addr a) s.flip).rbSetParent y) = m₄
  have hx₄ : m₄.node x = some ((n.setChild (addr a) s.flip).rbSetParent y) := by
    rw [← hm₄, RbHeap.store_self]
  have hy₄ : m₄.node y = some ((o.setChild x s).rbSetParent (top up)) := by
    rw [← hm₄, RbHeap.store_of_ne (Ne.symm hxy), hout₃ y hyp, hy₂]
  have hout₄ : ∀ z, z ≠ x → z ∉ pathList up → m₄.node z = m₂.node z := by
    intro z hzx hzp
    rw [← hm₄, RbHeap.store_of_ne hzx, hout₃ z hzp]
  have hkeep₄ : ∀ z, z ∈ t.toList ∨ z ∈ b.toList → m₄.node z = m.node z := by
    intro z hz'
    have hzx : z ≠ x := by rintro rfl; tauto
    have hzy : z ≠ y := by rintro rfl; tauto
    have hza : z ∉ a.toList := by
      intro hza
      rcases hz' with hzt | hzb
      · exact hta z hzt z (Or.inl hza) rfl
      · exact hab z hza z hzb rfl
    rw [hout₄ z hzx fun hzp => htp z (by tauto) z hzp rfl, hkeep z hzx hzy hza]
  apply Returns.some
  apply h.rebuild
  · exact (toList_branch_near.trans toList_branch_far.symm).append_right _
  · refine subtree_branch.mpr ⟨⟨_, hy₄, ?_⟩, subtree_branch.mpr ⟨⟨_, hx₄, ?_⟩, ?_, ?_⟩, ?_⟩
    · rw [addr_branch]
      exact (hois.setNear x).setParent hz.top_aligned
    · exact (hnis.setFar (addr a)).setParent hy.2
    · exact ht.congr fun z hz' => hkeep₄ z (Or.inl hz')
    · refine ha₂.congr fun z hz' => ?_
      rw [hout₄ z (fun hzx => hxa (hzx ▸ hz')) fun hzp => htp z (Or.inr (Or.inl hz')) z hzp rfl,
        hout₂ z fun hzy => hya (hzy ▸ hz')]
    · exact hb.congr fun z hz' => hkeep₄ z (Or.inr hz')
  · rw [addr_branch, ← hm₄]
    exact hpath₃.congr (fun z hz' => RbHeap.store_of_ne fun hzx => hxp (hzx ▸ hz')) rfl
  · intro z hz'
    simp only [hperm.mem_iff, List.cons_append, List.mem_cons, List.mem_append, not_or] at hz'
    obtain ⟨hzx, hzy, ⟨-, hza, -⟩, hzp⟩ := hz'
    rw [hout₄ z hzx hzp, hkeep z hzx hzy hza]
  · intro j hj
    rw [← hm₄, RbHeap.store_root, hother₃ j hj, hroot₂]

end Statements

end Cserv.Util
