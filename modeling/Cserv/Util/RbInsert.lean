import Cserv.Util.RbMemory

/-!
# Insertion into a tree in memory

`rb_link_node` and `rb_insert_color` on nodes in memory do to a red-black tree what they do to
trees as values. The loop ends, and meets no `NULL`, because a red parent has a black
grandparent.
-/
namespace Cserv.Util

open Foundations ColorTree

variable {ι : Type} [DecidableEq ι] {m m₀ : RbHeap ι} {S : Set Addr} {i : ι} {s s' : Side}
  {c c' : Color} {t u v a b : ColorTree Addr} {x y g : Addr} {up : List (Crumb Addr)} {k : ℕ}

/-! ## The cases of the loop -/

theorem HoldsFrom.insertCase_red
    (h : HoldsFrom m₀ S i (plug t (.on s' .red x u :: .on s c g v :: up)) m)
    (hv : RbTree.isRed v = true) :
    Returns (m.insertCase s (addr t) x g i) fun next => next.1 = g ∧ HoldsFrom m₀ S i
      (plug (branch s .red (branch s' .black t x u) g (RbTree.setBlack v)) up) next.2 := by
  obtain ⟨cv, v₁, w, v₂, rfl⟩ := exists_branch s (t := v) (by rintro rfl; cases hv)
  rw [plug_on, plug_on] at h
  obtain ⟨n, hn, hnis⟩ := h.toHolds.load
  -- the same tree, seen from the uncle
  have huncle := h
  rw [← branch_flip, ← plug_on] at huncle
  unfold RbHeap.insertCase
  refine Returns.step hn ?_
  simp only [hnis.far]
  refine Returns.step huncle.toHolds.isRed ?_
  simp only [hv, if_true, addr_branch]
  refine Returns.bind huncle.setBlack fun m₁ h₁ => ?_
  rw [plug_on, branch_flip, ← plug_on] at h₁
  refine Returns.bind h₁.setBlack fun m₂ h₂ => ?_
  rw [plug_on] at h₂
  refine Returns.bind h₂.setRed fun m₃ h₃ => ?_
  rw [RbTree.setBlack_branch]
  exact Returns.some ⟨rfl, h₃⟩

theorem HoldsFrom.insert_rotate
    (h : HoldsFrom m₀ S i (plug t (.on s c' x u :: .on s c g v :: up)) m) (node : Addr) :
    Returns (do
      let m ← m.modify x (·.rbSetBlack)
      let m ← m.modify g (·.rbSetRed)
      let m ← m.rbRotate s.flip g i
      return (node, m)) fun next => next.1 = node ∧
        HoldsFrom m₀ S i (plug (branch s .black t x (branch s .red u g v)) up) next.2 := by
  rw [plug_on] at h
  refine Returns.bind h.setBlack fun m₁ h₁ => ?_
  rw [plug_on] at h₁
  refine Returns.bind h₁.setRed fun m₂ h₂ => ?_
  rw [← branch_flip, ← branch_flip s .black] at h₂
  refine Returns.bind h₂.rotate fun m₃ h₃ => ?_
  rw [branch_flip, branch_flip] at h₃
  exact Returns.some ⟨rfl, h₃⟩

theorem HoldsFrom.insertCase_outer
    (h : HoldsFrom m₀ S i (plug t (.on s .red x u :: .on s c g v :: up)) m)
    (ht : t ≠ nil) (hv : RbTree.isRed v = false) :
    Returns (m.insertCase s (addr t) x g i) fun next => next.1 = addr t ∧
      HoldsFrom m₀ S i (plug (branch s .black t x (branch s .red u g v)) up) next.2 := by
  have hgrand := h
  rw [plug_on, plug_on] at hgrand
  obtain ⟨n, hn, hnis⟩ := hgrand.toHolds.load
  have huncle := hgrand
  rw [← branch_flip, ← plug_on] at huncle
  have hparent := h
  rw [plug_on] at hparent
  obtain ⟨p, hp, hpis⟩ := hparent.toHolds.load
  unfold RbHeap.insertCase
  refine Returns.step hn ?_
  simp only [hnis.far]
  refine Returns.step huncle.toHolds.isRed ?_
  simp only [hv, Bool.false_eq_true, if_false]
  refine Returns.step hp ?_
  rw [hpis.far, if_neg (Ne.symm (hparent.toHolds.sibling_ne ht))]
  refine Returns.step rfl ?_
  exact h.insert_rotate (addr t)

theorem HoldsFrom.insertCase_inner
    (h : HoldsFrom m₀ S i
      (plug (branch s c' a y b) (.on s.flip .red x u :: .on s c g v :: up)) m)
    (hv : RbTree.isRed v = false) :
    Returns (m.insertCase s y x g i) fun next => next.1 = x ∧ HoldsFrom m₀ S i
      (plug (branch s .black (branch s .red u x a) y (branch s .red b g v)) up) next.2 := by
  have hgrand := h
  rw [plug_on, plug_on] at hgrand
  obtain ⟨n, hn, hnis⟩ := hgrand.toHolds.load
  have huncle := hgrand
  rw [← branch_flip, ← plug_on] at huncle
  rw [plug_on, branch_flip] at h
  obtain ⟨p, hp, hpis⟩ := h.toHolds.load
  unfold RbHeap.insertCase
  refine Returns.step hn ?_
  simp only [hnis.far]
  refine Returns.step huncle.toHolds.isRed ?_
  simp only [hv, Bool.false_eq_true, if_false]
  refine Returns.step hp ?_
  rw [hpis.far, addr_branch, if_pos rfl]
  refine Returns.bind h.rotate fun m₁ h₁ => ?_
  rw [← plug_on] at h₁
  refine Returns.step rfl ?_
  exact h₁.insert_rotate x

/-! ## The loop -/

theorem Holds.insertLoop_black (h : Holds m i (plug (branch s' c t x u) (.on s .black y v :: up)))
    (fuel : ℕ) : RbHeap.insertLoop i (fuel + 1) x m = some m := by
  obtain ⟨n, hn, hnis⟩ := h.load
  rw [plug_on] at h
  obtain ⟨p, hp, hpis⟩ := h.load
  rw [top_on] at hnis
  simp [RbHeap.insertLoop, hn, hnis.parent, hp, hpis.isRed]

/-- The loop of `rb_insert_color` on a red-black tree with a red node below the path. -/
theorem HoldsFrom.insertLoop (h : HoldsFrom m₀ S i (plug t up) m) (hroot : t.rootColor = .red)
    (hup : Above .black k up) {fuel : ℕ} (hfuel : up.length + 2 ≤ fuel) :
    Returns (RbHeap.insertLoop i fuel (addr t) m) (HoldsFrom m₀ S i (RbTree.insertLoop t up)) := by
  induction hlen : up.length using Nat.strong_induction_on generalizing t k up m fuel with
  | _ len ih =>
  obtain ⟨fuel, rfl⟩ := Nat.exists_eq_add_of_le' (show 2 ≤ fuel by omega)
  obtain ⟨ct, t₁, y, t₂, rfl⟩ := exists_branch .left (t := t) (by rintro rfl; cases hroot)
  obtain ⟨n, hn, hnis⟩ := h.toHolds.load
  rw [addr_branch]
  cases up with
  | nil =>
    have hexit : RbHeap.insertLoop i (fuel + 2) y m = some m := by
      simp [RbHeap.insertLoop, hn, hnis.parent, top]
    rw [hexit]
    exact Returns.some h
  | cons p up =>
    obtain ⟨s', c', x, u, rfl⟩ := p.exists_on
    obtain ⟨hpath, -, -, -, hup'⟩ := above_on.mp hup
    cases c' with
    | black =>
      rw [h.toHolds.insertLoop_black, RbTree.insertLoop_black]
      exact Returns.some h
    | red =>
      cases up with
      | nil => cases hpath
      | cons q up =>
        obtain ⟨s, c, g, v, rfl⟩ := q.exists_on
        obtain ⟨-, hred', -, -, hrest⟩ := above_on.mp hup'
        obtain rfl : c = .black := by
          cases c with
          | black => rfl
          | red => cases (hred' rfl).1
        have hparent := h
        rw [plug_on] at hparent
        obtain ⟨p, hp, hpis⟩ := hparent.toHolds.load
        have hgrand := hparent
        rw [plug_on] at hgrand
        obtain ⟨gn, hgn, hgis⟩ := hgrand.toHolds.load
        have hside := hgrand.toHolds.side_eq branch_ne_nil hgis
        rw [addr_branch] at hside
        rw [top_on] at hnis hpis
        have hx : x ≠ NULL := by
          rintro rfl
          cases hp
        rw [RbHeap.insertLoop]
        refine Returns.step hn ?_
        simp only [hnis.parent, hx, if_false]
        refine Returns.step hp ?_
        simp only [hpis.isRed, decide_true, if_true, hpis.parent]
        refine Returns.step hgn ?_
        simp only [hside]
        cases hvred : RbTree.isRed v with
        | true =>
          rw [RbTree.insertLoop_red hvred]
          refine Returns.bind (h.insertCase_red hvred) ?_
          rintro next ⟨hnext, h'⟩
          have hloop := ih up.length (by rw [← hlen]; simp) h' rootColor_branch hrest
            (show _ ≤ fuel + 1 by simp only [List.length_cons] at hfuel; omega) rfl
          rw [addr_branch] at hloop
          rwa [hnext]
        | false =>
          by_cases hss : s' = s
          · subst hss
            rw [RbTree.insertLoop_outer hvred]
            refine Returns.bind (h.insertCase_outer branch_ne_nil hvred) ?_
            rintro next ⟨hnext, h'⟩
            have hloop := h'
            rw [← plug_on] at hloop
            rw [hnext, addr_branch, hloop.toHolds.insertLoop_black]
            exact Returns.some h'
          · obtain rfl : s' = s.flip := by
              cases s <;> cases s' <;> first | rfl | exact absurd rfl hss
            obtain ⟨ct', a, z, b, hz⟩ := exists_branch s (t := branch .left ct t₁ y t₂) branch_ne_nil
            rw [hz] at h ⊢
            rw [RbTree.insertLoop_inner hvred]
            obtain rfl : y = z := by simpa using congrArg addr hz
            refine Returns.bind (h.insertCase_inner hvred) ?_
            rintro next ⟨hnext, h'⟩
            have hloop := h'
            rw [← plug_on] at hloop
            rw [hnext, hloop.toHolds.insertLoop_black]
            exact Returns.some h'

theorem HoldsFrom.rbInsertColor (h : HoldsFrom m₀ S i (plug t up) m) (hroot : t.rootColor = .red)
    (hup : Above .black k up) {fuel : ℕ} (hfuel : up.length + 2 ≤ fuel) :
    Returns (m.rbInsertColor fuel (addr t) i) (HoldsFrom m₀ S i (RbTree.rbInsertColor t up)) := by
  unfold RbHeap.rbInsertColor
  refine Returns.bind (h.insertLoop hroot hup hfuel) fun m' h' => ?_
  have hne : RbTree.insertLoop t up ≠ nil := by
    intro hnil
    have hlist := RbTree.toList_insertLoop t up
    cases t with
    | nil => cases hroot
    | node c l x r => simp [hnil] at hlist
  obtain ⟨c, l, x, r, heq⟩ := exists_branch .left hne
  have hroot' : m'.root i = x := by rw [h'.root, heq, addr_branch]
  have hplug : RbTree.insertLoop t up = plug (branch .left c l x r) [] := heq
  rw [hplug] at h'
  rw [RbTree.rbInsertColor, hplug, hroot']
  have hblack := h'.setBlack
  simpa [plug] using hblack

/-! ## Linking a node -/

theorem Holds.rbLinkNode (h : Holds m i (plug nil up)) {node : Addr} (hnode : IsNode node)
    (hmem : (m.node node).isSome) (hnew : node ∉ (plug nil up).toList) :
    Returns (m.rbLinkNode node (top up) (endLink i up))
      (HoldsFrom m { z | z = node ∨ z ∈ (plug nil up).toList } i
        (plug (branch .left .red nil node nil) up)) := by
  have hz := h.zipped
  have hperm := toList_plug_perm nil up
  rw [toList_nil, List.nil_append] at hperm
  have hnotin : node ∉ pathList up := fun hmem => hnew (hperm.mem_iff.mpr hmem)
  have hlist : (branch .left .red nil node nil).toList = [node] := rfl
  obtain ⟨n, hn⟩ := Option.isSome_iff_exists.mp hmem
  unfold RbHeap.rbLinkNode
  refine Returns.step (RbHeap.modify_eq hnode.1 hn _) ?_
  have hpath : Path (m.store node ⟨top up, NULL, NULL⟩) i up NULL :=
    hz.path.congr (fun z hz' => RbHeap.store_of_ne fun heq => hnotin (heq ▸ hz')) rfl
  refine (hpath.setLink (by simpa using hz.nodup) (by simpa using hz.isNode) node).mono ?_
  rintro m' ⟨hpath', hout, hother⟩
  have hnew' : m'.node node = some ⟨top up, NULL, NULL⟩ := by
    rw [hout node hnotin, RbHeap.store_self]
  have hzip : Zipped m' i (branch .left .red nil node nil) up :=
    { sub := subtree_branch.mpr
        ⟨⟨_, hnew', RbNode.is_linked .left hz.top_aligned⟩, trivial, trivial⟩
      path := by rwa [addr_branch]
      nodup := by
        rw [hlist]
        exact List.nodup_cons.mpr ⟨hnotin, by simpa using hz.nodup⟩
      isNode := by
        rw [hlist]
        intro z hz'
        rcases List.mem_cons.mp hz' with rfl | hz'
        · exact hnode
        · exact hz.isNode z (by simpa using hz') }
  have hall : ∀ z, z ∈ (plug (branch .left .red nil node nil) up).toList ↔
      z = node ∨ z ∈ (plug nil up).toList := by
    intro z
    rw [(toList_plug_perm _ up).mem_iff, hperm.mem_iff, hlist]
    exact List.mem_cons
  refine ⟨hzip.holds, fun z hz' => (hall z).mp hz', fun z hz' => ?_, fun z hz' => ?_, hother⟩
  · exact hzip.holds.nodes.isSome ((hall z).mpr hz')
  · obtain ⟨hzn, hzt⟩ := not_or.mp hz'
    rw [hout z fun hmem => hzt (hperm.mem_iff.mpr hmem), RbHeap.store_of_ne hzn]

/-- `rb_link_node` and `rb_insert_color` at an empty child link of a red-black tree. -/
theorem Holds.rbInsert (h : Holds m i (plug nil up)) (hrb : (plug nil up).RedBlack) {node : Addr}
    (hnode : IsNode node) (hmem : (m.node node).isSome) (hnew : node ∉ (plug nil up).toList)
    {fuel : ℕ} (hfuel : up.length + 2 ≤ fuel) :
    Returns (do
      let m ← m.rbLinkNode node (top up) (endLink i up)
      m.rbInsertColor fuel node i)
      (HoldsFrom m { z | z = node ∨ z ∈ (plug nil up).toList } i (RbTree.rbInsert node up)) := by
  refine Returns.bind (h.rbLinkNode hnode hmem hnew) fun m' h' => ?_
  obtain ⟨k, -, -, hup⟩ := hrb.above
  have hins := h'.rbInsertColor rootColor_branch hup hfuel
  rwa [addr_branch] at hins

end Cserv.Util
