import Cserv.Util.RbMemory

/-!
# Removal from a tree in memory

`rb_erase` on nodes in memory does to a red-black tree what it does to trees as values. The
loop of `__rb_erase_color` meets no `NULL` because the sibling of a subtree that lacks a black
node is a node.
-/
namespace Cserv.Util

open Foundations ColorTree

variable {ι : Type} {m m₀ : RbHeap ι} {S : Set Addr} {i : ι} {s : Side}
  {c c' : Color} {t u v a b child : ColorTree Addr} {x y z : Addr} {up : List (Crumb Addr)}
  {k : ℕ}

theorem addr_plug_mem (t : ColorTree Addr) (q : Crumb Addr) (up : List (Crumb Addr)) :
    addr (plug t (q :: up)) ∈ pathList (q :: up) := by
  induction up generalizing t q with
  | nil =>
    obtain ⟨s, c, x, u, rfl⟩ := q.exists_on
    simp [plug_on, plug, pathList_on]
  | cons r up ih =>
    obtain ⟨s, c, x, u, rfl⟩ := q.exists_on
    rw [plug_on, pathList_on]
    exact List.mem_cons_of_mem _ (List.mem_append_right _ (ih _ r))

theorem Holds.ne_root {q : Crumb Addr} (h : Holds m i (plug t (q :: up))) : addr t ≠ m.root i := by
  have hz := h.zipped
  have hroot := addr_plug_mem t q up
  rw [← h.root] at hroot
  intro heq
  rw [← heq] at hroot
  rcases addr_eq_null_or t with hnull | hmem
  · exact (hz.isNode _ (List.mem_append_right _ hroot)).1 hnull
  · exact (List.nodup_append.mp hz.nodup).2.2 _ hmem _ hroot rfl

variable [DecidableEq ι]

/-! ## The sibling -/

theorem Holds.siblingCase_black
    (h : Holds m i (plug t (.on s c x (branch s .black a y b) :: up))) :
    m.siblingCase s x i = some (y, m) := by
  rw [plug_on] at h
  obtain ⟨p, hp, hpis⟩ := h.load
  rw [← branch_flip, ← plug_on] at h
  obtain ⟨o, ho, hois⟩ := h.load
  simp [RbHeap.siblingCase, hp, hpis.far, ho, hois.isRed]

theorem HoldsFrom.siblingCase_red
    (h : HoldsFrom m₀ S i
      (plug t (.on s c x (branch s .red (branch s .black a y b) z u) :: up)) m) :
    Returns (m.siblingCase s x i) fun next => next.1 = y ∧ HoldsFrom m₀ S i
      (plug t (.on s .red x (branch s .black a y b) :: .on s .black z u :: up)) next.2 := by
  rw [plug_on] at h
  obtain ⟨p, hp, hpis⟩ := h.toHolds.load
  rw [← branch_flip, ← plug_on] at h
  obtain ⟨o, ho, hois⟩ := h.toHolds.load
  unfold RbHeap.siblingCase
  refine Returns.step hp ?_
  simp only [hpis.far, addr_branch]
  refine Returns.step ho ?_
  rw [hois.isRed, if_pos (by rfl)]
  refine Returns.bind h.setBlack fun m₁ h₁ => ?_
  rw [plug_on, branch_flip] at h₁
  refine Returns.bind h₁.setRed fun m₂ h₂ => ?_
  refine Returns.bind h₂.rotate fun m₃ h₃ => ?_
  rw [← plug_on] at h₃
  obtain ⟨p', hp', hpis'⟩ := h₃.toHolds.load
  refine Returns.step hp' (Returns.some ⟨?_, ?_⟩)
  · rw [hpis'.far, addr_branch]
  · rw [plug_on]
    exact h₃

/-! ## A red child of the sibling -/

theorem HoldsFrom.borrow_rotate
    (h : HoldsFrom m₀ S i (plug (branch s c t x (branch s c' a y b)) up) m) (hb : b ≠ nil) :
    Returns (do
      let p ← m.load x
      let m ← m.modify y (·.rbSetColor p.rbColor)
      let m ← m.modify x (·.rbSetBlack)
      let o ← m.load y
      let m ← m.modify (o.child s.flip) (·.rbSetBlack)
      m.rbRotate s x i)
      (HoldsFrom m₀ S i (plug (branch s c (branch s .black t x a) y (RbTree.setBlack b)) up)) := by
  obtain ⟨cb, b₁, w, b₂, rfl⟩ := exists_branch s hb
  obtain ⟨p, hp, hpis⟩ := h.toHolds.load
  refine Returns.step hp ?_
  rw [hpis.color]
  rw [← branch_flip, ← plug_on] at h
  refine Returns.bind (h.setColor c) fun m₁ h₁ => ?_
  rw [plug_on, branch_flip] at h₁
  refine Returns.bind h₁.setBlack fun m₂ h₂ => ?_
  -- the red child, seen from the sibling and then by itself
  rw [← branch_flip, ← plug_on] at h₂
  obtain ⟨o, ho, hois⟩ := h₂.toHolds.load
  refine Returns.step ho ?_
  rw [hois.far, addr_branch]
  rw [← branch_flip, ← plug_on] at h₂
  refine Returns.bind h₂.setBlack fun m₃ h₃ => ?_
  rw [plug_on, branch_flip, plug_on, branch_flip] at h₃
  rw [RbTree.setBlack_branch]
  exact h₃.rotate

theorem HoldsFrom.borrowCase_far
    (h : HoldsFrom m₀ S i (plug t (.on s c x (branch s .black a y b) :: up)) m)
    (hb : RbTree.isRed b = true) :
    Returns (m.borrowCase s x y i)
      (HoldsFrom m₀ S i (plug (branch s c (branch s .black t x a) y (RbTree.setBlack b)) up)) := by
  rw [plug_on] at h
  have hother := h
  rw [← branch_flip, ← plug_on] at hother
  obtain ⟨o, ho, hois⟩ := hother.toHolds.load
  have hfar := hother
  rw [← branch_flip, ← plug_on] at hfar
  unfold RbHeap.borrowCase
  refine Returns.step ho ?_
  rw [hois.far]
  refine Returns.step hfar.toHolds.isRed ?_
  simp only [hb, if_true]
  exact Returns.step rfl (h.borrow_rotate (by rintro rfl; cases hb))

theorem HoldsFrom.borrowCase_near
    (h : HoldsFrom m₀ S i
      (plug t (.on s c x (branch s .black (branch s .red a z u) y b) :: up)) m)
    (hb : RbTree.isRed b = false) :
    Returns (m.borrowCase s x y i) (HoldsFrom m₀ S i
      (plug (branch s c (branch s .black t x a) z (branch s .black u y b)) up)) := by
  rw [plug_on, ← branch_flip, ← plug_on] at h
  obtain ⟨o, ho, hois⟩ := h.toHolds.load
  have hfar := h
  rw [← branch_flip, ← plug_on] at hfar
  unfold RbHeap.borrowCase
  refine Returns.step ho ?_
  rw [hois.far, hois.near, addr_branch]
  refine Returns.step hfar.toHolds.isRed ?_
  simp only [hb, Bool.false_eq_true, if_false]
  rw [← plug_on] at h
  refine Returns.bind h.setBlack fun m₁ h₁ => ?_
  rw [plug_on] at h₁
  refine Returns.bind h₁.setRed fun m₂ h₂ => ?_
  rw [← branch_flip, ← branch_flip s .black u] at h₂
  refine Returns.bind h₂.rotate fun m₃ h₃ => ?_
  rw [branch_flip, branch_flip, plug_on, branch_flip] at h₃
  obtain ⟨p, hp, hpis⟩ := h₃.toHolds.load
  refine Returns.step hp ?_
  rw [hpis.far, addr_branch]
  refine Returns.step rfl ?_
  have hborrow := h₃.borrow_rotate branch_ne_nil
  rwa [RbTree.setBlack_branch] at hborrow

/-! ## The loop -/

/-- The outcome of the loop: blackening its last node is what is left of the whole. -/
def EraseEnd (m₀ : RbHeap ι) (S : Set Addr) (i : ι) (result : ColorTree Addr)
    (out : Addr × RbHeap ι) : Prop :=
  ∃ t up, out.1 = addr t ∧ HoldsFrom m₀ S i (plug t up) out.2 ∧
    plug (RbTree.setBlack t) up = result

theorem HoldsFrom.eraseRound {fuel : ℕ} {result : ColorTree Addr}
    (h : HoldsFrom m₀ S i (plug t (.on s c x (branch s .black a y b) :: up)) m)
    (ht : RbTree.isRed t = false)
    (hresult : RbTree.rbEraseColor t (.on s c x (branch s .black a y b) :: up) = result)
    (hnext : ∀ m', RbTree.isRed a = false → RbTree.isRed b = false →
      HoldsFrom m₀ S i (plug (branch s c t x (branch s .red a y b)) up) m' →
      Returns (RbHeap.eraseLoop i fuel x (top up) m') (EraseEnd m₀ S i result)) :
    Returns (do
      let o ← m.load y
      let left ← m.isRed o.rbLeft
      let right ← m.isRed o.rbRight
      if !left && !right then
        let m ← m.modify y (·.rbSetRed)
        let p ← m.load x
        RbHeap.eraseLoop i fuel x p.rbParent m
      else
        let m ← m.borrowCase s x y i
        some (m.root i, m)) (EraseEnd m₀ S i result) := by
  have hparent := h
  rw [plug_on] at hparent
  have hother := hparent
  rw [← branch_flip, ← plug_on] at hother
  obtain ⟨o, ho, hois⟩ := hother.toHolds.load
  have hnear := hother.toHolds
  rw [← plug_on] at hnear
  have hfar := hother.toHolds
  rw [← branch_flip, ← plug_on] at hfar
  obtain ⟨left, right, hleft, hright, hcolors⟩ : ∃ left right,
      m.isRed o.rbLeft = some left ∧ m.isRed o.rbRight = some right ∧
        (!left && !right) = (!RbTree.isRed a && !RbTree.isRed b) := by
    have hnear' := (congrArg m.isRed hois.near).trans hnear.isRed
    have hfar' := (congrArg m.isRed hois.far).trans hfar.isRed
    cases s with
    | left => exact ⟨_, _, hnear', hfar', rfl⟩
    | right => exact ⟨_, _, hfar', hnear', Bool.and_comm ..⟩
  -- a break leaves the loop with the root
  have hbreak : ∀ {T : ColorTree Addr}, Returns (m.borrowCase s x y i) (HoldsFrom m₀ S i T) →
      RbTree.setBlack T = result →
      Returns (do let m ← m.borrowCase s x y i; some (m.root i, m)) (EraseEnd m₀ S i result) :=
    fun hborrow hT => hborrow.bind fun m' h' =>
      Returns.some ⟨_, [], h'.root, h', hT⟩
  refine Returns.step ho (Returns.step hleft (Returns.step hright ?_))
  rw [hcolors]
  cases hbred : RbTree.isRed b with
  | true =>
    rw [if_neg (by simp)]
    apply hbreak (h.borrowCase_far hbred)
    rw [← hresult, RbTree.rbEraseColor_far ht hbred]
  | false =>
    cases hared : RbTree.isRed a with
    | true =>
      obtain ⟨ca, a₁, w, a₂, rfl⟩ := exists_branch s (t := a) (by rintro rfl; cases hared)
      obtain rfl : ca = .red := by simpa using hared
      rw [if_neg (by simp)]
      apply hbreak (h.borrowCase_near hbred)
      rw [← hresult, RbTree.rbEraseColor_near ht hbred]
    | false =>
      rw [if_pos (by rfl)]
      refine Returns.bind hother.setRed fun m₁ h₁ => ?_
      rw [plug_on, branch_flip] at h₁
      obtain ⟨p, hp, hpis⟩ := h₁.toHolds.load
      refine Returns.step hp ?_
      rw [hpis.parent]
      exact hnext m₁ hared hbred h₁

theorem HoldsFrom.eraseLoop_red (h : HoldsFrom m₀ S i (plug t up) m)
    (ht : RbTree.isRed t = true) (fuel : ℕ) (parent : Addr) :
    Returns (RbHeap.eraseLoop i (fuel + 1) (addr t) parent m)
      (EraseEnd m₀ S i (RbTree.rbEraseColor t up)) := by
  rw [RbHeap.eraseLoop, RbTree.rbEraseColor_red ht]
  refine Returns.step h.toHolds.isRed ?_
  rw [if_pos (Or.inl ht)]
  exact Returns.some ⟨t, up, rfl, h, rfl⟩

/-- The loop of `__rb_erase_color`, for a subtree that lacks a black node. -/
theorem HoldsFrom.eraseLoop (h : HoldsFrom m₀ S i (plug t up) m) (hup : Above .black (k + 1) up)
    {fuel : ℕ} (hfuel : up.length + 2 ≤ fuel) :
    Returns (RbHeap.eraseLoop i fuel (addr t) (top up) m)
      (EraseEnd m₀ S i (RbTree.rbEraseColor t up)) := by
  induction up generalizing t m k fuel with
  | nil =>
    obtain ⟨fuel, rfl⟩ := Nat.exists_eq_add_of_le' (show 1 ≤ fuel by omega)
    rw [RbHeap.eraseLoop, RbTree.rbEraseColor]
    refine Returns.step h.toHolds.isRed ?_
    have hroot : addr t = m.root i := h.root.symm
    rw [if_pos (Or.inr hroot)]
    exact Returns.some ⟨t, [], rfl, h, rfl⟩
  | cons q up ih =>
    obtain ⟨fuel, rfl⟩ := Nat.exists_eq_add_of_le' (show 2 ≤ fuel by omega)
    cases ht : RbTree.isRed t with
    | true => exact h.eraseLoop_red ht _ _
    | false =>
      have hroot := h.toHolds.ne_root
      obtain ⟨s, c, x, u, rfl⟩ := q.exists_on
      obtain ⟨cu, a, y, b, rfl⟩ := RbTree.exists_sibling hup
      have hparent := h.toHolds
      rw [plug_on] at hparent
      obtain ⟨p, hp, hpis⟩ := hparent.load
      have hside : (if p.rbLeft = addr t then Side.left else Side.right) = s := by
        cases s with
        | left => exact if_pos hpis.near
        | right =>
          rw [← branch_flip] at hparent
          have hne := hparent.sibling_ne branch_ne_nil
          have hleft : p.rbLeft = addr (branch .right cu a y b) := hpis.far
          rw [hleft]
          exact if_neg hne
      rw [RbHeap.eraseLoop, top_on]
      refine Returns.step h.toHolds.isRed ?_
      rw [if_neg (by simp [ht, hroot])]
      refine Returns.step hp ?_
      simp only [hside]
      cases cu with
      | black =>
        refine Returns.step h.toHolds.siblingCase_black (h.eraseRound ht rfl ?_)
        intro m' ha hb h'
        obtain ⟨-, -, -, -, hrest⟩ := above_on.mp hup
        rw [RbTree.rbEraseColor_push ht ha hb]
        have hloop := ih (k := k + c.weight) h'
          (by rw [show k + c.weight + 1 = k + 1 + c.weight by omega]; exact hrest.black)
          (show _ ≤ fuel + 1 by simp only [List.length_cons] at hfuel; omega)
        rwa [addr_branch] at hloop
      | red =>
        obtain ⟨a₁, z, a₂, rfl, rfl, -⟩ := RbTree.above_rotate hup
        refine Returns.bind h.siblingCase_red ?_
        rintro ⟨other, m'⟩ ⟨hother, h'⟩
        obtain rfl : other = z := hother
        refine h'.eraseRound ht (RbTree.rbEraseColor_rotate ht).symm ?_
        intro m'' ha hb h''
        -- the parent is red now, so that the next round is the last
        have hend := h''.eraseLoop_red (by simp) fuel (top (.on s .black y b :: up))
        rw [addr_branch] at hend
        rwa [RbTree.rbEraseColor_rotate ht, RbTree.rbEraseColor_push ht ha hb]

theorem HoldsFrom.rbEraseColor (h : HoldsFrom m₀ S i (plug t up) m)
    (hup : Above .black (k + 1) up) {fuel : ℕ} (hfuel : up.length + 2 ≤ fuel) :
    Returns (m.rbEraseColor fuel (addr t) (top up) i)
      (HoldsFrom m₀ S i (RbTree.rbEraseColor t up)) := by
  unfold RbHeap.rbEraseColor
  refine Returns.bind (h.eraseLoop hup hfuel) ?_
  rintro ⟨node, m'⟩ ⟨t', up', hnode, h', hresult⟩
  obtain rfl : node = addr t' := hnode
  rw [← hresult]
  cases t' with
  | nil => exact Returns.some h'
  | node c' l y r =>
    obtain ⟨n, hn, -⟩ := h'.toHolds.load (s := .left)
    have hy : y ≠ NULL := by
      rintro rfl
      cases hn
    exact (congrArg (Returns · _) (if_neg hy)).mpr (h'.setBlack (s := .left))

/-! ## A node with one child at most -/

theorem HoldsFrom.eraseOut (h : HoldsFrom m₀ S i (plug child up) m)
    (hup : Above c (k + c.weight) up) {fuel : ℕ} (hfuel : up.length + 2 ≤ fuel) :
    Returns (m.eraseOut fuel (colorWord c) (addr child) (top up) i)
      (HoldsFrom m₀ S i (RbTree.replace c child up)) := by
  cases c with
  | red => exact Returns.some h
  | black => exact h.rbEraseColor hup hfuel

theorem Holds.unlink (h : Holds m i (plug (branch s c nil x child) up)) :
    Returns (do
      let m ← m.reparent (addr child) (top up)
      m.relink .left (top up) x (addr child) i)
      (HoldsFrom m { z | z ∈ (plug (branch s c nil x child) up).toList } i (plug child up)) := by
  have hz := h.zipped
  obtain ⟨-, -, hchild⟩ := subtree_branch.mp hz.sub
  have hlist : (branch s c nil x child).toList.Perm (x :: child.toList) := toList_branch
  have hperm := (toList_plug_perm _ up).trans (hlist.append_right (pathList up))
  have hnodup := (hlist.append_right (pathList up)).nodup_iff.mp hz.nodup
  have hnode : ∀ z ∈ x :: (child.toList ++ pathList up), IsNode z :=
    fun z hz' => h.isNode z (hperm.mem_iff.mpr hz')
  obtain ⟨hx, hrest⟩ := List.nodup_cons.mp hnodup
  obtain ⟨hnc, hnp, hdisj⟩ := List.nodup_append.mp hrest
  have hpath : Path m i up x := by simpa using hz.path
  have hnodep : ∀ z ∈ pathList up, IsNode z := fun z hz' => hnode z (by simp [hz'])
  refine Returns.bind (hchild.reparent hnc (fun z hz' => hnode z (by simp [hz']))
    hz.top_aligned) ?_
  rintro m₁ ⟨hchild₁, hout₁, hroot₁⟩
  have hpath₁ : Path m₁ i up x := by
    refine hpath.congr (fun z hz' => hout₁ z fun hzc => hdisj z hzc z hz' rfl) ?_
    rw [hroot₁]
  rw [hpath₁.relink_eq (hnode x (by simp)).1 (fun hmem => hx (by simp [hmem])) hnodep]
  refine (hpath₁.setLink hnp hnodep (addr child)).mono ?_
  rintro m₂ ⟨hpath₂, hout₂, hother₂⟩
  have hchild₂ : Subtree m₂.node (top up) child :=
    hchild₁.congr fun z hz' => hout₂ z fun hzp => hdisj z hz' z hzp rfl
  have hzip : Zipped m₂ i child up :=
    ⟨hchild₂, hpath₂, hrest, fun z hz' => hnode z (List.mem_cons_of_mem x hz')⟩
  refine ⟨hzip.holds, fun z hz' => ?_, fun z hz' => ?_, fun z hz' => ?_, fun j hj => ?_⟩
  · exact hperm.mem_iff.mpr (List.mem_cons_of_mem x ((toList_plug_perm child up).mem_iff.mp hz'))
  · rcases List.mem_cons.mp (hperm.mem_iff.mp hz') with rfl | hmem
    · rw [hout₂ z fun hmem => hx (by simp [hmem]), hout₁ z fun hmem => hx (by simp [hmem])]
      exact h.nodes.isSome hz'
    · exact hzip.holds.nodes.isSome ((toList_plug_perm child up).mem_iff.mpr hmem)
  · have hzout : z ∉ x :: (child.toList ++ pathList up) := fun hmem => hz' (hperm.mem_iff.mpr hmem)
    simp only [List.mem_cons, List.mem_append, not_or] at hzout
    rw [hout₂ z hzout.2.2, hout₁ z hzout.2.1]
  · rw [hother₂ j hj, hroot₁]

theorem Holds.eraseOne (h : Holds m i (plug (branch s c nil x child) up))
    (hrb : (plug (branch s c nil x child) up).RedBlack) {fuel : ℕ}
    (hfuel : up.length + 2 ≤ fuel) :
    Returns (m.eraseOne fuel x (addr child) i)
      (HoldsFrom m { z | z ∈ (plug (branch s c nil x child) up).toList } i
        (RbTree.replace c child up)) := by
  obtain ⟨k, -, -, -, hup⟩ := RbTree.above_one hrb
  obtain ⟨n, hn, hnis⟩ := h.load
  unfold RbHeap.eraseOne
  refine Returns.step hn ?_
  simp only [hnis.parent, hnis.color]
  rw [← bind_assoc]
  exact Returns.bind h.unlink fun m' h' => h'.eraseOut hup hfuel

/-! ## A node with two children -/

omit [DecidableEq ι] in
theorem Subtree.leftmost {p : Addr} {l r : ColorTree Addr} (h : Subtree m.node p (node c l x r))
    (hnode : ∀ z ∈ (node c l x r).toList, IsNode z) {fuel : ℕ}
    (hfuel : (node c l x r).toList.length ≤ fuel) :
    m.leftmost fuel x = some (RbTree.unlinkMin c l x r).2.1 := by
  induction l generalizing c x r p fuel with
  | nil =>
    obtain ⟨fuel, rfl⟩ := Nat.exists_eq_add_of_le' (show 1 ≤ fuel by simp at hfuel; omega)
    obtain ⟨⟨n, hn, his⟩, -, -⟩ := h
    have hload : m.load x = some n := (RbHeap.load_eq (hnode x (by simp)).1).trans hn
    have hleft : n.rbLeft = NULL := his.near
    simp [RbHeap.leftmost, hload, hleft, RbTree.unlinkMin]
  | node c' l' x' r' ihl ihr =>
    obtain ⟨fuel, rfl⟩ := Nat.exists_eq_add_of_le' (show 1 ≤ fuel by simp at hfuel; omega)
    obtain ⟨⟨n, hn, his⟩, hl, -⟩ := h
    have hload : m.load x = some n := (RbHeap.load_eq (hnode x (by simp)).1).trans hn
    have hleft : n.rbLeft = x' := his.near
    have hx' : x' ≠ NULL := (hnode x' (by simp)).1
    have hrec := ihl hl (fun z hz => hnode z (by simp at hz ⊢; tauto))
      (show _ ≤ fuel by simp at hfuel ⊢; omega)
    have hstep : m.leftmost (fuel + 1) x = m.leftmost fuel x' := by
      rw [RbHeap.leftmost, hload, ← hleft]
      exact if_neg (hleft ▸ hx')
    rw [hstep, hrec]
    rfl

theorem rbFirst_eq_unlinkMin (c : Color) (l : ColorTree Addr) (x : Addr) (r : ColorTree Addr)
    (up : List (Crumb Addr)) : RbTree.rbFirst (node c l x r) up =
      (node (RbTree.unlinkMin c l x r).1 nil (RbTree.unlinkMin c l x r).2.1
        (RbTree.unlinkMin c l x r).2.2.1, (RbTree.unlinkMin c l x r).2.2.2 ++ up) := by
  induction l generalizing c x r up with
  | nil => rfl
  | node c' l' x' r' ihl ihr =>
    rw [RbTree.rbFirst, ihl]
    simp [RbTree.unlinkMin]

omit [DecidableEq ι] in
theorem Holds.rbFirst (h : Holds m i t) {fuel : ℕ} (hfuel : t.toList.length ≤ fuel) :
    m.rbFirst fuel i = some (addr (RbTree.rbFirst t []).1) := by
  rw [RbHeap.rbFirst, h.root]
  cases t with
  | nil => rfl
  | node c l x r =>
    have hx : x ≠ NULL := (h.isNode x (by simp)).1
    rw [addr, if_neg hx, h.nodes.leftmost h.isNode hfuel, rbFirst_eq_unlinkMin]
    rfl

/-- What is left below a node when the next node `y` has left its place: the tree `t`, with `y`
above it. -/
structure Unlinked (m : RbHeap ι) (y parent : Addr) (t : ColorTree Addr)
    (out : Addr × RbHeap ι) : Prop where
  parent : out.1 = parent
  rest : Subtree out.2.node y t
  right : ∃ n, out.2.node y = some n ∧ n.rbRight = addr t
  outside : ∀ z ∉ y :: t.toList, out.2.node z = m.node z
  root : out.2.root = m.root

omit [DecidableEq ι] in
theorem Subtree.unlinkChild {p : Addr} {path : List (Crumb Addr)}
    (h : Subtree m.node p (plug (branch .left c nil y child) (.on .left c' z u :: path)))
    (hnodup : (child.toList ++ z :: (u.toList ++ pathList path)).Nodup)
    (hnode : ∀ w ∈ z :: child.toList, IsNode w) :
    Returns (do
      let m ← m.reparent (addr child) z
      m.modify z (·.setChild (addr child) .left)) fun m' =>
        Subtree m'.node p (plug child (.on .left c' z u :: path)) ∧
          (∀ w, w ≠ z → w ∉ child.toList → m'.node w = m.node w) ∧ m'.root = m.root := by
  rw [plug_on] at h
  obtain ⟨hnc, hnz, hdisj⟩ := List.nodup_append.mp hnodup
  have hzout := (List.nodup_cons.mp hnz).1
  have hzc : z ∉ child.toList := fun hmem => hdisj z hmem z (by simp) rfl
  have hz : IsNode z := hnode z (by simp)
  obtain ⟨q, hfocus⟩ := h.focus
  obtain ⟨⟨n, hn, -⟩, hsub, -⟩ := subtree_branch.mp hfocus
  obtain ⟨-, -, hchild⟩ := subtree_branch.mp hsub
  refine Returns.bind (hchild.reparent hnc (fun w hw => hnode w (by simp [hw])) hz.2) ?_
  rintro m₁ ⟨hchild₁, hout₁, hroot₁⟩
  rw [RbHeap.modify_eq hz.1 ((hout₁ z hzc).trans hn)]
  generalize hm₂ : m₁.store z (n.setChild (addr child) .left) = m₂
  have hself : m₂.node z = some (n.setChild (addr child) .left) := by rw [← hm₂, RbHeap.store_self]
  have hother : ∀ w, w ≠ z → m₂.node w = m₁.node w := by
    intro w hw
    rw [← hm₂, RbHeap.store_of_ne hw]
  have hkeep : ∀ w ∈ u.toList ++ pathList path, m₂.node w = m.node w := by
    intro w hw
    rw [hother w fun hwz => hzout (hwz ▸ hw), hout₁ w fun hwc => hdisj w hwc w (by simp [hw]) rfl]
  refine Returns.some ⟨?_, fun w hwz hwc => (hother w hwz).trans (hout₁ w hwc), ?_⟩
  · rw [plug_on]
    refine h.plug_congr (by rw [addr_branch, addr_branch]) (fun r hr => ?_) fun w hw => ?_
    · obtain ⟨⟨n', hn', his⟩, -, hu⟩ := subtree_branch.mp hr
      obtain rfl : n = n' := Option.some.inj (hn.symm.trans hn')
      refine subtree_branch.mpr ⟨⟨_, hself, his.setNear _⟩, hchild₁.congr fun w hw => ?_,
        hu.congr fun w hw => ?_⟩
      · exact hother w fun hwz => hzc (hwz ▸ hw)
      · exact hkeep w (by simp [hw])
    · exact hkeep w (by simp [hw])
  · rw [← hm₂]
    exact hroot₁

omit [DecidableEq ι] in
theorem Subtree.unlinkNext {old : Addr} {path : List (Crumb Addr)} {o : RbNode}
    (h : Subtree m.node old (plug (branch .left c nil y child) path))
    (hleft : ∀ q ∈ path, ∃ c' z u, q = Crumb.on .left c' z u)
    (hold : m.node old = some o)
    (hright : o.rbRight = addr (plug (branch .left c nil y child) path))
    (hnodup : (old :: (plug (branch .left c nil y child) path).toList).Nodup)
    (hnode : ∀ z ∈ old :: (plug (branch .left c nil y child) path).toList, IsNode z) :
    Returns (m.unlinkNext old y)
      (Unlinked m y (top (path ++ .right c' t y :: up)) (plug child path)) := by
  have hperm := (toList_plug_perm (branch .left c nil y child) path).cons old
  have hlist : (branch .left c nil y child).toList = y :: child.toList := rfl
  rw [hlist] at hperm
  have hnodes : ∀ z ∈ old :: (y :: child.toList ++ pathList path), IsNode z :=
    fun z hz => hnode z (hperm.mem_iff.mpr hz)
  obtain ⟨hnotin, hinner⟩ := List.nodup_cons.mp (hperm.nodup_iff.mp hnodup)
  obtain ⟨hy, hinner⟩ := List.nodup_cons.mp hinner
  have hrest := toList_plug_perm child path
  have hy₀ : y ≠ NULL := (hnodes y (by simp)).1
  have hold₀ : old ≠ NULL := (hnode old (by simp)).1
  cases path with
  | nil =>
    obtain ⟨⟨n, hn, his⟩, -, hchild⟩ := subtree_branch.mp h
    have hstep : m.unlinkNext old y = some (y, m) := by
      simp [RbHeap.unlinkNext, RbHeap.load_eq hy₀, hn, his.parent]
    rw [hstep]
    exact Returns.some ⟨rfl, hchild, ⟨n, hn, his.far⟩, fun _ _ => rfl, rfl⟩
  | cons q path =>
    obtain ⟨c₁, z, u, rfl⟩ := hleft q (by simp)
    rw [pathList_on] at hinner hnotin hy hnodes hrest
    have hbelow := h
    rw [plug_on] at hbelow
    obtain ⟨p, hz⟩ := hbelow.focus
    obtain ⟨-, hsub, -⟩ := subtree_branch.mp hz
    obtain ⟨⟨n, hn, his⟩, -, -⟩ := subtree_branch.mp hsub
    have hfar : n.rbRight = addr child := his.far
    have hzold : z ≠ old := fun heq => hnotin (by simp [heq])
    unfold RbHeap.unlinkNext
    refine Returns.step ((RbHeap.load_eq hy₀).trans hn) ?_
    simp only [his.parent, hfar, if_neg hzold]
    rw [← bind_assoc]
    refine Returns.bind (h.unlinkChild hinner fun w hw => hnodes w (by simp at hw ⊢; tauto)) ?_
    rintro m₁ ⟨hrest₁, hout₁, hroot₁⟩
    have hold₁ : m₁.node old = some o := by
      rw [hout₁ old (Ne.symm hzold) fun hmem => hnotin (by simp [hmem]), hold]
    have hn₁ : m₁.node y = some n := by
      rw [hout₁ y (fun hyz => hy (by simp [hyz])) fun hmem => hy (by simp [hmem]), hn]
    refine Returns.step ((RbHeap.load_eq hold₀).trans hold₁) ?_
    refine Returns.step (RbHeap.modify_eq hy₀ hn₁ _) ?_
    -- the root of what is left, whose parent is the next node then
    have hroot : o.rbRight = addr (plug child (.on .left c₁ z u :: path)) := by
      rw [hright, plug_on, plug_on]
      exact addr_plug_congr (by rw [addr_branch, addr_branch]) path
    have hyrest : y ∉ (plug child (.on .left c₁ z u :: path)).toList :=
      fun hmem => hy (hrest.mem_iff.mp hmem)
    have hrest₂ : Subtree (m₁.store y (n.setChild o.rbRight .right)).node old
        (plug child (.on .left c₁ z u :: path)) :=
      hrest₁.congr fun w hw => RbHeap.store_of_ne fun hwy => hyrest (hwy ▸ hw)
    have hnodes' : ∀ w ∈ (plug child (.on .left c₁ z u :: path)).toList, IsNode w := by
      intro w hw
      exact hnodes w (List.mem_cons_of_mem _ (List.mem_cons_of_mem _ (hrest.mem_iff.mp hw)))
    have hne : o.rbRight ≠ NULL := by
      have hmem := addr_plug_mem child (.on .left c₁ z u) path
      rw [← hroot, pathList_on] at hmem
      exact (hnodes _ (List.mem_cons_of_mem _ (List.mem_append_right _ hmem))).1
    have hrep := hrest₂.reparent (hrest.nodup_iff.mpr hinner) hnodes' (hnodes y (by simp)).2
    rw [← hroot, RbHeap.reparent, if_neg hne] at hrep
    refine Returns.bind hrep ?_
    rintro m₃ ⟨hrest₃, hout₃, hroot₃⟩
    refine Returns.some ⟨?_, hrest₃, ⟨n.setChild o.rbRight .right, ?_, hroot⟩, fun w hw => ?_, ?_⟩
    · rw [List.cons_append, top_on]
    · rw [hout₃ y hyrest, RbHeap.store_self]
    · obtain ⟨hwy, hwrest⟩ := not_or.mp (fun hmem => hw (List.mem_cons.mpr hmem))
      rw [hout₃ w hwrest, RbHeap.store_of_ne hwy, hout₁ w]
      · exact fun hwz => hwrest (hrest.mem_iff.mpr (by simp [hwz]))
      · exact fun hwc => hwrest (hrest.mem_iff.mpr (by simp [hwc]))
    · rw [hroot₃]
      exact hroot₁

theorem toList_plug_next {path : List (Crumb Addr)} :
    (plug (branch .left c nil y child) path).toList.Perm (y :: (plug child path).toList) :=
  (toList_plug_perm _ path).trans ((toList_plug_perm child path).symm.cons y)

omit [DecidableEq ι] in
/-- The next node `y` of `x` takes the place, the colour and the children of `x`. -/
theorem Path.moveNext {l r : ColorTree Addr} {path : List (Crumb Addr)} {o : RbNode}
    (hpath : Path m i up y) (hx : m.node x = some o) (hois : o.Is (top up) c .left (addr l) (addr r))
    (hl : Subtree m.node x l) (hr : Subtree m.node x r) (hlne : l ≠ nil)
    (hmin : r = plug (branch .left c' nil y child) path)
    (hleft : ∀ q ∈ path, ∃ c z u, q = Crumb.on .left c z u)
    (hnodup : (x :: (l.toList ++ (r.toList ++ pathList up))).Nodup)
    (hnode : ∀ z ∈ x :: (l.toList ++ (r.toList ++ pathList up)), IsNode z) :
    Returns (m.moveNext x y) fun out => out.1 = top (path ++ .right c l y :: up) ∧
      Zipped out.2 i (branch .left c l y (plug child path)) up ∧
        (∀ z ∉ l.toList ++ r.toList, out.2.node z = m.node z) ∧ out.2.root = m.root := by
  have hrlist : r.toList.Perm (y :: (plug child path).toList) := by
    rw [hmin]
    exact toList_plug_next
  obtain ⟨hxout, hrest⟩ := List.nodup_cons.mp hnodup
  obtain ⟨hnl, hnrp, hdisj⟩ := List.nodup_append.mp hrest
  obtain ⟨hnr, hnp, hdisj'⟩ := List.nodup_append.mp hnrp
  have hxr : x ∉ r.toList := fun hmem => hxout (by simp [hmem])
  have hyr : y ∈ r.toList := hrlist.mem_iff.mpr (by simp)
  have hy : IsNode y := hnode y (by simp [hyr])
  have hyrest : y ∉ (plug child path).toList := (List.nodup_cons.mp (hrlist.nodup_iff.mp hnr)).1
  have hunlink : Returns (m.unlinkNext x y)
      (Unlinked m y (top (path ++ .right c l y :: up)) (plug child path)) := by
    have hnoder : ∀ z ∈ x :: r.toList, IsNode z := fun z hz => hnode z (by simp at hz ⊢; tauto)
    have hright : o.rbRight = addr r := hois.far
    have hnodupr := List.nodup_cons.mpr ⟨hxr, hnr⟩
    rw [hmin] at hr hnoder hright hnodupr
    exact hr.unlinkNext hleft hx hright hnodupr hnoder
  unfold RbHeap.moveNext
  refine Returns.bind hunlink ?_
  rintro ⟨parent, m₁⟩ ⟨hparent, hrest₁, ⟨n, hn, hnr₁⟩, hout₁, hroot₁⟩
  have hout₁' : ∀ z ∉ r.toList, m₁.node z = m.node z := fun z hz =>
    hout₁ z fun hmem => hz (hrlist.mem_iff.mpr hmem)
  have hnear : o.rbLeft = addr l := hois.near
  refine Returns.step ((RbHeap.load_eq (hnode x (by simp)).1).trans ((hout₁' x hxr).trans hx)) ?_
  refine Returns.step (RbHeap.modify_eq hy.1 hn _) ?_
  refine Returns.step (RbHeap.modify_eq hy.1 RbHeap.store_self _) ?_
  rw [hnear]
  generalize hm₂ : RbHeap.store (RbHeap.store m₁ y _) y _ = m₂
  have hy₂ : m₂.node y = some ⟨o.rbParentColor, addr l, addr (plug child path)⟩ := by
    rw [← hm₂, RbHeap.store_self, ← hnr₁]
    rfl
  have hout₂ : ∀ z, z ≠ y → m₂.node z = m₁.node z := by
    intro z hz
    rw [← hm₂, RbHeap.store_of_ne hz, RbHeap.store_of_ne hz]
  have hout₂' : ∀ z ∉ r.toList, m₂.node z = m.node z := by
    intro z hz
    rw [hout₂ z fun hzy => hz (hzy ▸ hyr), hout₁' z hz]
  have hroot₂ : m₂.root = m.root := by
    rw [← hm₂]
    exact hroot₁
  -- the left subtree goes below the next node
  have hl₂ : Subtree m₂.node x l :=
    hl.congr fun z hz => hout₂' z fun hzr => hdisj z hz z (by simp [hzr]) rfl
  have hrep := hl₂.reparent hnl (fun z hz => hnode z (by simp [hz])) hy.2
  have hlnull : addr l ≠ NULL := by
    obtain ⟨cl, l₁, w, l₂, rfl⟩ := exists_branch .left hlne
    exact (hnode w (by simp [toList_branch.mem_iff])).1
  rw [RbHeap.reparent, if_neg hlnull] at hrep
  refine Returns.bind hrep ?_
  rintro m₃ ⟨hl₃, hout₃, hroot₃⟩
  have hyl : y ∉ l.toList := fun hmem => hdisj y hmem y (by simp [hyr]) rfl
  have hrest₃ : Subtree m₃.node y (plug child path) := by
    refine hrest₁.congr fun z hz => ?_
    have hzr : z ∈ r.toList := hrlist.mem_iff.mpr (List.mem_cons_of_mem y hz)
    rw [hout₃ z fun hzl => hdisj z hzl z (by simp [hzr]) rfl, hout₂ z fun hzy => hyrest (hzy ▸ hz)]
  have hpath₃ : Path m₃ i up y := by
    refine hpath.congr (fun z hz => ?_) (by rw [hroot₃, hroot₂])
    rw [hout₃ z fun hzl => hdisj z hzl z (by simp [hz]) rfl,
      hout₂' z fun hzr => hdisj' z hzr z hz rfl]
  have hlist : (branch .left c l y (plug child path)).toList.Perm (l.toList ++ r.toList) :=
    List.Perm.append_left _ hrlist.symm
  have hzip : Zipped m₃ i (branch .left c l y (plug child path)) up :=
    { sub := subtree_branch.mpr ⟨⟨_, (hout₃ y hyl).trans hy₂, hois.parent, hois.color, rfl, rfl⟩,
        hl₃, hrest₃⟩
      path := by rwa [addr_branch]
      nodup := by
        rw [(hlist.append_right _).nodup_iff, List.append_assoc]
        exact hrest
      isNode := by
        intro z hz
        rw [(hlist.append_right _).mem_iff, List.append_assoc] at hz
        exact hnode z (List.mem_cons_of_mem x hz) }
  refine Returns.some ⟨hparent, hzip, fun z hz => ?_, by rw [hroot₃, hroot₂]⟩
  obtain ⟨hzl, hzr⟩ := not_or.mp (fun hmem => hz (List.mem_append.mpr hmem))
  rw [hout₃ z hzl, hout₂' z hzr]

theorem Holds.eraseTwo {l l' r' : ColorTree Addr} {mc : Color} {x' : Addr}
    {path : List (Crumb Addr)} (h : Holds m i (plug (node c l x (node c' l' x' r')) up))
    (hl : l ≠ nil) (hrb : (plug (node c l x (node c' l' x' r')) up).RedBlack)
    (hmin : RbTree.unlinkMin c' l' x' r' = (mc, y, child, path)) {fuel : ℕ}
    (hfuel : (plug (node c l x (node c' l' x' r')) up).toList.length + 2 ≤ fuel) :
    Returns (m.eraseTwo fuel x i)
      (HoldsFrom m { z | z ∈ (plug (node c l x (node c' l' x' r')) up).toList } i
        (RbTree.replace mc child (path ++ .right c l y :: up))) := by
  have hplug := RbTree.plug_unlinkMin c' l' x' r'
  have hleft := RbTree.unlinkMin_left c' l' x' r'
  rw [hmin] at hplug hleft
  obtain ⟨k, -, -, -, hup⟩ := RbTree.above_one (RbTree.redBlack_next hrb hmin)
  have hfuel₁ : (node c' l' x' r').toList.length ≤ fuel := by
    have hle := length_le_plug (node c l x (node c' l' x' r')) up
    simp only [toList_node, List.length_append, List.length_cons] at hle ⊢
    omega
  have hfuel₂ : (path ++ .right c l y :: up).length + 2 ≤ fuel := by
    have hle := length_le_plug (node mc nil y child) (path ++ .right c l x :: up)
    rw [plug_append, hplug] at hle
    simp only [plug, List.length_append, List.length_cons] at hle ⊢
    omega
  generalize hr : node c' l' x' r' = r at *
  have hz : Zipped m i (branch .left c l x r) up := h.zipped
  obtain ⟨⟨o, ho, hois⟩, hsubl, hsubr⟩ := subtree_branch.mp hz.sub
  have hpath : Path m i up x := by simpa using hz.path
  have hlist : ((branch .left c l x r).toList ++ pathList up).Perm
      (x :: (l.toList ++ (r.toList ++ pathList up))) := by
    rw [← List.append_assoc, ← List.cons_append]
    exact toList_branch.append_right _
  have hnodup := hlist.nodup_iff.mp hz.nodup
  have hnode : ∀ z ∈ x :: (l.toList ++ (r.toList ++ pathList up)), IsNode z :=
    fun z hz' => hz.isNode z (hlist.mem_iff.mpr hz')
  obtain ⟨hxout, hrest⟩ := List.nodup_cons.mp hnodup
  have hnodep : ∀ z ∈ pathList up, IsNode z := fun z hz' => hnode z (by simp [hz'])
  have hrlist : r.toList.Perm (y :: (plug child path).toList) := by
    rw [← hplug]
    exact toList_plug_next
  have hyr : y ∈ r.toList := hrlist.mem_iff.mpr (by simp)
  obtain ⟨q, hfocus⟩ := Subtree.focus (hplug.symm ▸ hsubr)
  obtain ⟨⟨n, hn, hnis⟩, -, -⟩ := hfocus
  have hnchild : n.rbRight = addr child := hnis.far
  -- `y` is the leftmost node on the right
  have hmost : m.leftmost fuel o.rbRight = some y := by
    have hright : o.rbRight = addr r := hois.far
    subst hr
    rw [hright, addr, hsubr.leftmost (fun z hz' => hnode z ?_) hfuel₁, hmin]
    exact List.mem_cons_of_mem _ (List.mem_append_right _ (List.mem_append_left _ hz'))
  have hx : IsNode x := hnode x (by simp)
  unfold RbHeap.eraseTwo
  refine Returns.step ((RbHeap.load_eq hx.1).trans ho) (Returns.step hmost ?_)
  rw [hois.parent, hpath.relink_eq hx.1 (fun hmem => hxout (by simp [hmem])) hnodep]
  refine Returns.bind (hpath.setLink (hrest.of_append_right.of_append_right) hnodep y) ?_
  rintro m₁ ⟨hpath₁, hout₁, hother₁⟩
  have hkeep : ∀ z ∈ x :: (l.toList ++ r.toList), m₁.node z = m.node z := by
    intro z hz'
    refine hout₁ z fun hzp => ?_
    rw [← List.append_assoc, ← List.cons_append] at hnodup
    exact (List.nodup_append.mp hnodup).2.2 z hz' z hzp rfl
  have hy : IsNode y := hnode y (by simp [hyr])
  have hn₁ : m₁.node y = some n := (hkeep y (by simp [hyr])).trans hn
  refine Returns.step ((RbHeap.load_eq hy.1).trans hn₁) ?_
  refine Returns.bind (hpath₁.moveNext ((hkeep x (by simp)).trans ho) hois
    (hsubl.congr fun z hz' => hkeep z (by simp [hz']))
    (hsubr.congr fun z hz' => hkeep z (by simp [hz'])) hl hplug.symm hleft hnodup hnode) ?_
  rintro ⟨parent, m₂⟩ ⟨hparent, hzip, hout₂, hroot₂⟩
  obtain rfl : parent = _ := hparent
  have hholds : HoldsFrom m { z | z ∈ (plug (node c l x r) up).toList } i
      (plug child (path ++ .right c l y :: up)) m₂ := by
    have hall := (toList_plug_perm (branch .left c l x r) up).trans hlist
    have hnew : plug child (path ++ .right c l y :: up) =
        plug (branch .left c l y (plug child path)) up := by
      rw [plug_append]
      rfl
    have hnewlist : ((branch .left c l y (plug child path)).toList ++ pathList up).Perm
        (l.toList ++ (r.toList ++ pathList up)) := by
      rw [← List.append_assoc]
      exact (hrlist.symm.append_left _).append_right _
    rw [hnew]
    refine ⟨hzip.holds, fun z hz' => hall.mem_iff.mpr ?_, fun z hz' => ?_, fun z hz' => ?_,
      fun j hj => ?_⟩
    · exact List.mem_cons_of_mem x
        (hnewlist.mem_iff.mp ((toList_plug_perm _ up).mem_iff.mp hz'))
    · rcases List.mem_cons.mp (hall.mem_iff.mp hz') with rfl | hmem
      · rw [hout₂ z fun hmem => hxout (by simp at hmem ⊢; tauto), hkeep z (by simp), ho]
        rfl
      · exact hzip.holds.nodes.isSome
          ((toList_plug_perm _ up).mem_iff.mpr (hnewlist.mem_iff.mpr hmem))
    · have hzout : z ∉ x :: (l.toList ++ (r.toList ++ pathList up)) :=
        fun hmem => hz' (hall.mem_iff.mpr hmem)
      simp only [List.mem_cons, List.mem_append, not_or] at hzout
      rw [hout₂ z (by simp [hzout]), hout₁ z hzout.2.2.2]
    · rw [hroot₂, hother₁ j hj]
  rw [hnis.color, hnchild]
  exact hholds.eraseOut hup hfuel₂

theorem Holds.rbErase {l r : ColorTree Addr} (h : Holds m i (plug (node c l x r) up))
    (hrb : (plug (node c l x r) up).RedBlack) {fuel : ℕ}
    (hfuel : (plug (node c l x r) up).toList.length + 2 ≤ fuel) :
    Returns (m.rbErase fuel x i)
      (HoldsFrom m { z | z ∈ (plug (node c l x r) up).toList } i
        (RbTree.rbErase (node c l x r) up)) := by
  obtain ⟨n, hn, his⟩ := h.load (s := .left)
  have hleft : n.rbLeft = addr l := his.near
  have hright : n.rbRight = addr r := his.far
  have hlength : up.length + 2 ≤ fuel := by
    have hle := length_le_plug (node c l x r) up
    omega
  unfold RbHeap.rbErase
  refine Returns.step hn ?_
  rw [hleft, hright]
  cases l with
  | nil => exact Holds.eraseOne (s := .left) h hrb hlength
  | node c₁ l₁ x₁ r₁ =>
    have hx₁ : x₁ ≠ NULL := (h.isNode x₁ (by simp)).1
    rw [addr, if_neg hx₁]
    cases r with
    | nil => exact Holds.eraseOne (s := .right) h hrb hlength
    | node c' l' x' r' =>
      have hx' : x' ≠ NULL := (h.isNode x' (by simp)).1
      obtain ⟨⟨mc, y, child, path⟩, hmin⟩ : ∃ z, RbTree.unlinkMin c' l' x' r' = z := ⟨_, rfl⟩
      rw [addr, if_neg hx']
      simp only [RbTree.rbErase, hmin]
      exact h.eraseTwo (by simp) hrb hmin hfuel

omit [DecidableEq ι] in
theorem erase_middle {before after : List Addr} (h : (before ++ x :: after).Nodup) :
    (before ++ x :: after).erase x = before ++ after := by
  have hx : x ∉ before := fun hmem => (List.nodup_append.mp h).2.2 x hmem x (by simp) rfl
  rw [List.erase_append_right _ hx, List.erase_cons_head]

/-- `rb_erase` of a node of a red-black tree in memory dereferences no `NULL` and ends. It leaves
a red-black tree of the other nodes in their order, and the rest of the memory as it was. -/
theorem rbErase_removes (h : Holds m i t) (hrb : t.RedBlack) (hx : x ∈ t.toList) {fuel : ℕ}
    (hfuel : t.toList.length + 2 ≤ fuel) :
    ∃ m' t', m.rbErase fuel x i = some m' ∧ Holds m' i t' ∧ t'.RedBlack ∧
      t'.toList = t.toList.erase x ∧ (∀ z ∉ t.toList, m'.node z = m.node z) ∧
        ∀ j ≠ i, m'.root j = m.root j := by
  obtain ⟨c, l, r, up, rfl⟩ := exists_plug hx
  obtain ⟨m', hm', h'⟩ := h.rbErase hrb hfuel
  refine ⟨m', _, hm', h'.toHolds, RbTree.rbErase_redBlack hrb, ?_, h'.outside, h'.other⟩
  have hlist : (plug (node c l x r) up).toList =
      (before up ++ l.toList) ++ x :: (r.toList ++ after up) := by simp
  have hnodup := h.nodup
  rw [hlist] at hnodup ⊢
  rw [erase_middle hnodup, RbTree.toList_rbErase, List.append_assoc]

/-- The root of a tree of three nodes is removed. -/
theorem rbErase_removes_root :
    ∃ m' t', (layout (node .black (node .red nil 8 nil) 16 (node .red nil 24 nil))).rbErase 5 16 () =
      some m' ∧ Holds m' () t' ∧ t'.RedBlack ∧ t'.toList = [8, 24] := by
  have h : Holds (layout (node .black (node .red nil 8 nil) 16 (node .red nil 24 nil))) ()
      (node .black (node .red nil 8 nil) 16 (node .red nil 24 nil)) :=
    holds_layout () (by decide) (List.forall_iff_forall_mem.mp (by decide +kernel))
  have hrb : (node .black (node .red nil (8 : Addr) nil) 16 (node .red nil 24 nil)).RedBlack :=
    ⟨rfl, by simp [NoRedRed, rootColor], 1, 0, rfl, ⟨0, rfl, rfl, rfl⟩, ⟨0, rfl, rfl, rfl⟩⟩
  obtain ⟨m', t', hm', h', hrb', hlist', -⟩ :=
    rbErase_removes (x := 16) h hrb (by decide) (show _ ≤ 5 by decide)
  exact ⟨m', t', hm', h', hrb', hlist'⟩

end Cserv.Util
