import Cserv.Foundations.Returns
import Mathlib.Data.List.Forall2

/-!
# Circular doubly linked lists

`util/list.h` on list heads in memory. A function fails, with `none`, where the source dereferences
memory that holds no list head. The entries of a list are linked in a circle through its head.
-/
namespace Cserv.Util

open Foundations

universe u
variable {ν : Type u}

structure ListHead (ν : Type u) where
  next : ν
  prev : ν
  deriving DecidableEq, Repr

abbrev Links (ν : Type u) := ν → Option (ListHead ν)

variable [DecidableEq ν]

namespace Links

def modify (m : Links ν) (a : ν) (f : ListHead ν → ListHead ν) : Option (Links ν) :=
  (m a).map fun l => Function.update m a (some (f l))

def initListHead (m : Links ν) (list : ν) : Option (Links ν) := do
  let m ← m.modify list fun l => { l with next := list }
  m.modify list fun l => { l with prev := list }

/-- `__list_add`. -/
def listAddBetween (m : Links ν) (newer prev next : ν) : Option (Links ν) := do
  let m ← m.modify next fun l => { l with prev := newer }
  let m ← m.modify newer fun l => { l with next := next }
  let m ← m.modify newer fun l => { l with prev := prev }
  m.modify prev fun l => { l with next := newer }

def listAdd (m : Links ν) (newer head : ν) : Option (Links ν) := do
  let l ← m head
  m.listAddBetween newer head l.next

def listAddTail (m : Links ν) (newer head : ν) : Option (Links ν) := do
  let l ← m head
  m.listAddBetween newer l.prev head

/-- `__list_del`. -/
def listDelBetween (m : Links ν) (prev next : ν) : Option (Links ν) := do
  let m ← m.modify next fun l => { l with prev := prev }
  m.modify prev fun l => { l with next := next }

def listDel (m : Links ν) (entry : ν) : Option (Links ν) := do
  let l ← m entry
  m.listDelBetween l.prev l.next

def listDelInit (m : Links ν) (entry : ν) : Option (Links ν) := do
  let l ← m entry
  let m ← m.listDelBetween l.prev l.next
  m.initListHead entry

/-! ## What the functions do to each list head -/

/-- The list head `a` in memory is changed by `f`. -/
def on (m : Links ν) (a : ν) (f : ListHead ν → ListHead ν) : Links ν :=
  fun b => if b = a then (m b).map f else m b

omit [DecidableEq ν] in
theorem isSome_of_map {m : Links ν} {a b : ν} {f : ListHead ν → ν} (h : (m a).map f = some b) :
    (m a).isSome = true := by
  rw [← Option.isSome_map, h]
  rfl

@[simp] theorem isSome_on (m : Links ν) (a b : ν) (f : ListHead ν → ListHead ν) :
    (m.on a f b).isSome = (m b).isSome := by
  unfold on
  split_ifs <;> simp

theorem modify_eq {m : Links ν} {a : ν} (h : (m a).isSome = true) (f : ListHead ν → ListHead ν) :
    m.modify a f = some (m.on a f) := by
  obtain ⟨l, hl⟩ := Option.isSome_iff_exists.mp h
  rw [modify, hl, Option.map_some]
  congr 1
  funext b
  unfold on
  split_ifs with hb
  · rw [hb, hl, Function.update_self]
    rfl
  · rw [Function.update_of_ne hb]

theorem on_of_ne {m : Links ν} {a b : ν} (hb : b ≠ a) (f : ListHead ν → ListHead ν) :
    m.on a f b = m b :=
  if_neg hb

theorem next_on_setNext {m : Links ν} {a : ν} (h : (m a).isSome = true) (c : ν) :
    (m.on a (fun l => { l with next := c }) a).map ListHead.next = some c := by
  obtain ⟨l, hl⟩ := Option.isSome_iff_exists.mp h
  rw [on, if_pos rfl, hl]
  rfl

theorem prev_on_setPrev {m : Links ν} {a : ν} (h : (m a).isSome = true) (c : ν) :
    (m.on a (fun l => { l with prev := c }) a).map ListHead.prev = some c := by
  obtain ⟨l, hl⟩ := Option.isSome_iff_exists.mp h
  rw [on, if_pos rfl, hl]
  rfl

@[simp] theorem next_on_setPrev (m : Links ν) (a b c : ν) :
    (m.on a (fun l => { l with prev := c }) b).map ListHead.next = (m b).map ListHead.next := by
  unfold on
  split_ifs <;> cases m b <;> rfl

@[simp] theorem prev_on_setNext (m : Links ν) (a b c : ν) :
    (m.on a (fun l => { l with next := c }) b).map ListHead.prev = (m b).map ListHead.prev := by
  unfold on
  split_ifs <;> cases m b <;> rfl

end Links

def Joined (m : Links ν) (a b : ν) : Prop :=
  (m a).map ListHead.next = some b ∧ (m b).map ListHead.prev = some a

theorem Links.listAddBetween_returns {m : Links ν} {newer prev next : ν}
    (hmem : (m newer).isSome = true) (hmprev : (m prev).isSome = true)
    (hmnext : (m next).isSome = true) (hprev : newer ≠ prev) (hnext : newer ≠ next) :
    Returns (m.listAddBetween newer prev next) fun m' =>
      (∀ a, a ≠ prev → a ≠ newer → (m' a).map ListHead.next = (m a).map ListHead.next) ∧
      (∀ b, b ≠ next → b ≠ newer → (m' b).map ListHead.prev = (m b).map ListHead.prev) ∧
      Joined m' prev newer ∧ Joined m' newer next ∧ (∀ a, (m' a).isSome = (m a).isSome) ∧
      ∀ a, a ≠ newer → a ≠ prev → a ≠ next → m' a = m a := by
  refine Returns.step (modify_eq hmnext _) ?_
  refine Returns.step (modify_eq (by simpa using hmem) _) ?_
  refine Returns.step (modify_eq (by simpa using hmem) _) ?_
  rw [modify_eq (by simpa using hmprev)]
  refine Returns.some ⟨?_, ?_, ⟨?_, ?_⟩, ⟨?_, ?_⟩, by simp, ?_⟩
  · intro a hap han
    rw [on_of_ne hap, next_on_setPrev, on_of_ne han, next_on_setPrev]
  · intro b hbx hbn
    rw [prev_on_setNext, on_of_ne hbn, prev_on_setNext, on_of_ne hbx]
  · exact next_on_setNext (by simpa using hmprev) newer
  · rw [prev_on_setNext, prev_on_setPrev (by simpa using hmem)]
  · rw [on_of_ne hprev, next_on_setPrev, next_on_setNext (by simpa using hmem)]
  · rw [prev_on_setNext, on_of_ne hnext.symm, prev_on_setNext, prev_on_setPrev hmnext]
  · intro a hane hap hax
    rw [on_of_ne hap, on_of_ne hane, on_of_ne hane, on_of_ne hax]

theorem Links.initListHead_returns {m : Links ν} {list : ν} (hmem : (m list).isSome = true) :
    Returns (m.initListHead list) fun m' =>
      Joined m' list list ∧ (∀ a, (m' a).isSome = (m a).isSome) ∧ ∀ a, a ≠ list → m' a = m a := by
  refine Returns.step (modify_eq hmem _) ?_
  rw [modify_eq (by simpa using hmem)]
  refine Returns.some ⟨⟨?_, ?_⟩, by simp, ?_⟩
  · rw [next_on_setPrev, next_on_setNext hmem]
  · exact prev_on_setPrev (by simpa using hmem) list
  · intro a ha
    rw [on_of_ne ha, on_of_ne ha]

theorem Links.listDelBetween_returns {m : Links ν} {prev next : ν}
    (hmprev : (m prev).isSome = true) (hmnext : (m next).isSome = true) :
    Returns (m.listDelBetween prev next) fun m' =>
      (∀ a, a ≠ prev → (m' a).map ListHead.next = (m a).map ListHead.next) ∧
      (∀ b, b ≠ next → (m' b).map ListHead.prev = (m b).map ListHead.prev) ∧
      Joined m' prev next ∧ (∀ a, (m' a).isSome = (m a).isSome) ∧
      ∀ a, a ≠ prev → a ≠ next → m' a = m a := by
  refine Returns.step (modify_eq hmnext _) ?_
  rw [modify_eq (by simpa using hmprev)]
  refine Returns.some ⟨?_, ?_, ⟨?_, ?_⟩, ?_, ?_⟩
  · intro a ha
    rw [on_of_ne ha, next_on_setPrev]
  · intro b hb
    rw [prev_on_setNext, on_of_ne hb]
  · exact next_on_setNext (by simpa using hmprev) next
  · rw [prev_on_setNext, prev_on_setPrev hmnext]
  · simp
  · intro a hap hax
    rw [on_of_ne hap, on_of_ne hax]

/-- The entries `xs` are linked in a circle through `head`. -/
structure Circle (m : Links ν) (head : ν) (xs : List ν) : Prop where
  nodup : (head :: xs).Nodup
  joined : List.Forall₂ (Joined m) (head :: xs) (xs ++ [head])

omit [DecidableEq ν] in
/-- Neighbours stay neighbours as long as their links do not change. -/
theorem forall₂_joined_congr {m m' : Links ν} {as bs : List ν} (h : List.Forall₂ (Joined m) as bs)
    (hnext : ∀ a ∈ as, (m' a).map ListHead.next = (m a).map ListHead.next)
    (hprev : ∀ b ∈ bs, (m' b).map ListHead.prev = (m b).map ListHead.prev) :
    List.Forall₂ (Joined m') as bs := by
  induction h with
  | nil => exact .nil
  | cons hab _ ih =>
    rw [List.forall_mem_cons] at hnext hprev
    exact .cons ⟨hnext.1.trans hab.1, hprev.1.trans hab.2⟩ (ih hnext.2 hprev.2)

omit [DecidableEq ν] in
theorem forall₂_append_iff {R : ν → ν → Prop} {as as' bs bs' : List ν}
    (hlen : as.length = bs.length) :
    List.Forall₂ R (as ++ as') (bs ++ bs') ↔ List.Forall₂ R as bs ∧ List.Forall₂ R as' bs' := by
  constructor
  · intro h
    have htake := List.forall₂_take as.length h
    have hdrop := List.forall₂_drop as.length h
    rw [List.take_left, hlen, List.take_left] at htake
    rw [List.drop_left, hlen, List.drop_left] at hdrop
    exact ⟨htake, hdrop⟩
  · rintro ⟨h, h'⟩
    exact List.rel_append h h'

namespace Circle

variable {m m' : Links ν} {head x newer : ν} {xs pre post : List ν}

omit [DecidableEq ν] in
theorem congr (h : Circle m head xs) (hm : ∀ a ∈ head :: xs, m' a = m a) : Circle m' head xs where
  nodup := h.nodup
  joined := by
    refine forall₂_joined_congr h.joined (fun a ha => by rw [hm a ha]) fun b hb => ?_
    rw [hm b (by simpa [or_comm] using hb)]

/-- A circle that is cut between two neighbours; `before` are the list heads in front of the first
one, and `after` those behind the second one. -/
structure Cut (m : Links ν) (head : ν) (pre post before after : List ν) : Prop where
  sources : ∀ rest, head :: (pre ++ rest) = before ++ pre.getLastD head :: rest
  targets : post ++ [head] = post.headD head :: after
  length : before.length = pre.length
  joined_pre : List.Forall₂ (Joined m) before pre
  joined : Joined m (pre.getLastD head) (post.headD head)
  joined_post : List.Forall₂ (Joined m) post after

omit [DecidableEq ν] in
theorem exists_targets (head : ν) (post : List ν) :
    ∃ after, post ++ [head] = post.headD head :: after := by
  cases post with
  | nil => exact ⟨[], rfl⟩
  | cons y post => exact ⟨post ++ [head], rfl⟩

omit [DecidableEq ν] in
theorem exists_cut (h : Circle m head (pre ++ post)) :
    ∃ before after, Cut m head pre post before after := by
  obtain ⟨before, hbefore⟩ : ∃ before, head :: pre = before ++ [pre.getLastD head] := by
    rcases List.eq_nil_or_concat pre with hpre | ⟨before, p, hpre⟩
    · exact ⟨[], by simp [hpre]⟩
    · exact ⟨head :: before, by simp [hpre]⟩
  obtain ⟨after, hafter⟩ := exists_targets head post
  have hsources : ∀ rest, head :: (pre ++ rest) = before ++ pre.getLastD head :: rest := by
    intro rest
    rw [← List.cons_append, hbefore, List.append_assoc]
    rfl
  have hlen : before.length = pre.length := by
    have hlen := congrArg List.length hbefore
    simpa using hlen.symm
  have hjoined := h.joined
  rw [hsources, List.append_assoc, hafter, forall₂_append_iff hlen] at hjoined
  obtain ⟨hpre, hrest⟩ := hjoined
  obtain ⟨hpx, hpost⟩ := List.forall₂_cons.mp hrest
  exact ⟨before, after, hsources, hafter, hlen, hpre, hpx, hpost⟩

omit [DecidableEq ν] in
theorem isSome (h : Circle m head xs) {a : ν} (ha : a ∈ head :: xs) : (m a).isSome = true := by
  obtain ⟨hlen, hjoined⟩ := List.forall₂_iff_get.mp h.joined
  obtain ⟨i, hi, rfl⟩ := List.getElem_of_mem ha
  exact Links.isSome_of_map (hjoined i hi (hlen ▸ hi)).1

omit [DecidableEq ν] in
theorem first (h : Circle m head xs) : Joined m head (xs.headD head) := by
  rw [← List.nil_append xs] at h
  obtain ⟨before, after, hcut⟩ := h.exists_cut
  exact hcut.joined

omit [DecidableEq ν] in
theorem next (h : Circle m head (pre ++ x :: post)) : Joined m x (post.headD head) := by
  rw [List.append_cons] at h
  obtain ⟨before, after, hcut⟩ := h.exists_cut
  have hjoined := hcut.joined
  rwa [List.getLastD_concat] at hjoined

omit [DecidableEq ν] in
theorem insert (h : Circle m head (pre ++ post)) (hnew : newer ∉ head :: (pre ++ post))
    (hnext : ∀ a, a ≠ pre.getLastD head → a ≠ newer →
      (m' a).map ListHead.next = (m a).map ListHead.next)
    (hprev : ∀ b, b ≠ post.headD head → b ≠ newer →
      (m' b).map ListHead.prev = (m b).map ListHead.prev)
    (hleft : Joined m' (pre.getLastD head) newer) (hright : Joined m' newer (post.headD head)) :
    Circle m' head (pre ++ newer :: post) := by
  obtain ⟨before, after, hcut⟩ := h.exists_cut
  have hperm : (head :: (pre ++ newer :: post)).Perm (newer :: head :: (pre ++ post)) :=
    (List.perm_middle.cons head).trans (.swap newer head _)
  have hnodup := hperm.nodup_iff.mpr (List.nodup_cons.mpr ⟨hnew, h.nodup⟩)
  have hsources := hnodup
  have htargets : (pre ++ newer :: post ++ [head]).Nodup := List.nodup_append_comm.mp hnodup
  rw [hcut.sources] at hsources
  rw [List.append_assoc, List.cons_append, hcut.targets] at htargets
  refine ⟨hnodup, ?_⟩
  rw [hcut.sources, List.append_assoc, List.cons_append, hcut.targets,
    forall₂_append_iff hcut.length]
  refine ⟨forall₂_joined_congr hcut.joined_pre (fun a ha => hnext a ?_ ?_) fun b hb => hprev b ?_ ?_,
    .cons hleft (.cons hright (forall₂_joined_congr hcut.joined_post
      (fun a ha => hnext a ?_ ?_) fun b hb => hprev b ?_ ?_))⟩
  all_goals grind

omit [DecidableEq ν] in
theorem erase (h : Circle m head (pre ++ x :: post))
    (hnext : ∀ a, a ≠ pre.getLastD head → a ≠ x →
      (m' a).map ListHead.next = (m a).map ListHead.next)
    (hprev : ∀ b, b ≠ post.headD head → b ≠ x →
      (m' b).map ListHead.prev = (m b).map ListHead.prev)
    (hjoined : Joined m' (pre.getLastD head) (post.headD head)) :
    Circle m' head (pre ++ post) := by
  obtain ⟨before, after, hcut⟩ := h.exists_cut
  obtain ⟨after', hafter'⟩ := exists_targets head post
  have hafter : after = post.headD head :: after' := by
    have htargets := hcut.targets
    rw [List.cons_append, hafter'] at htargets
    exact (List.cons_inj_right x).mp htargets.symm
  have hpost := hcut.joined_post
  rw [hafter, List.forall₂_cons] at hpost
  have hsources := h.nodup
  have htargets : (pre ++ x :: post ++ [head]).Nodup := List.nodup_append_comm.mp h.nodup
  have hnodup : (head :: (pre ++ post)).Nodup :=
    h.nodup.sublist (((List.sublist_cons_self x post).append_left pre).cons_cons head)
  rw [hcut.sources] at hsources
  rw [List.append_assoc, List.cons_append, hafter'] at htargets
  refine ⟨hnodup, ?_⟩
  rw [hcut.sources, List.append_assoc, hafter', forall₂_append_iff hcut.length]
  refine ⟨forall₂_joined_congr hcut.joined_pre (fun a ha => hnext a ?_ ?_) fun b hb => hprev b ?_ ?_,
    .cons hjoined (forall₂_joined_congr hpost.2 (fun a ha => hnext a ?_ ?_)
      fun b hb => hprev b ?_ ?_)⟩
  all_goals grind

theorem listAddBetween (h : Circle m head (pre ++ post)) (hnew : newer ∉ head :: (pre ++ post))
    (hmem : (m newer).isSome = true) :
    Returns (m.listAddBetween newer (pre.getLastD head) (post.headD head)) fun m' =>
      Circle m' head (pre ++ newer :: post) ∧ (∀ a, (m' a).isSome = (m a).isSome) ∧
        ∀ a, a ≠ newer → a ∉ head :: (pre ++ post) → m' a = m a := by
  obtain ⟨before, after, hcut⟩ := h.exists_cut
  have hp : pre.getLastD head ∈ head :: (pre ++ post) := by
    rw [hcut.sources]
    simp
  have hx : post.headD head ∈ head :: (pre ++ post) := by
    cases post <;> simp
  obtain ⟨hnext, hprev⟩ := hcut.joined
  refine (Links.listAddBetween_returns hmem (Links.isSome_of_map hnext) (Links.isSome_of_map hprev)
    (fun heq => hnew (heq ▸ hp)) (fun heq => hnew (heq ▸ hx))).mono ?_
  rintro m' ⟨hnext', hprev', hleft, hright, hsome, hsame⟩
  refine ⟨h.insert hnew hnext' hprev' hleft hright, hsome, fun a hane ha => hsame a hane ?_ ?_⟩
  · rintro rfl
    exact ha hp
  · rintro rfl
    exact ha hx

theorem listAddTail (h : Circle m head (pre ++ post)) (hnew : newer ∉ head :: (pre ++ post))
    (hmem : (m newer).isSome = true) :
    Returns (m.listAddTail newer (post.headD head)) fun m' =>
      Circle m' head (pre ++ newer :: post) ∧ (∀ a, (m' a).isSome = (m a).isSome) ∧
        ∀ a, a ≠ newer → a ∉ head :: (pre ++ post) → m' a = m a := by
  obtain ⟨before, after, hcut⟩ := h.exists_cut
  obtain ⟨l, hl, hlp⟩ := Option.map_eq_some_iff.mp hcut.joined.2
  refine Returns.step hl ?_
  rw [hlp]
  exact h.listAddBetween hnew hmem

theorem listAdd (h : Circle m head xs) (hnew : newer ∉ head :: xs)
    (hmem : (m newer).isSome = true) :
    Returns (m.listAdd newer head) fun m' =>
      Circle m' head (newer :: xs) ∧ (∀ a, (m' a).isSome = (m a).isSome) ∧
        ∀ a, a ≠ newer → a ∉ head :: xs → m' a = m a := by
  obtain ⟨l, hl, hlx⟩ := Option.map_eq_some_iff.mp h.first.1
  refine Returns.step hl ?_
  rw [hlx]
  rw [← List.nil_append xs] at h
  exact h.listAddBetween hnew hmem

theorem listDel (h : Circle m head (pre ++ x :: post)) :
    Returns (m.listDel x) fun m' =>
      Circle m' head (pre ++ post) ∧ (∀ a, (m' a).isSome = (m a).isSome) ∧
        ∀ a, a ∉ head :: (pre ++ x :: post) → m' a = m a := by
  obtain ⟨before, after, hcut⟩ := h.exists_cut
  have hp : pre.getLastD head ∈ head :: (pre ++ post) := by
    rw [hcut.sources]
    simp
  have hy : post.headD head ∈ head :: (pre ++ post) := by
    cases post <;> simp
  obtain ⟨hnext, hprev⟩ := hcut.joined
  obtain ⟨hnext', hprev'⟩ := h.next
  obtain ⟨l, hl, hlprev⟩ := Option.map_eq_some_iff.mp hprev
  have hlnext : l.next = post.headD head := by
    rw [show m x = some l from hl] at hnext'
    exact Option.some.inj hnext'
  refine Returns.step hl ?_
  rw [hlprev, hlnext]
  refine (Links.listDelBetween_returns (Links.isSome_of_map hnext)
    (Links.isSome_of_map hprev')).mono ?_
  rintro m' ⟨hnext₁, hprev₁, hjoined₁, hsome₁, hsame₁⟩
  refine ⟨h.erase (fun a hap _ => hnext₁ a hap) (fun b hby _ => hprev₁ b hby) hjoined₁, hsome₁, ?_⟩
  intro a ha
  exact hsame₁ a (by grind) (by grind)

theorem listDelInit (h : Circle m head (pre ++ x :: post)) :
    Returns (m.listDelInit x) fun m' =>
      Circle m' head (pre ++ post) ∧ (∀ a, (m' a).isSome = (m a).isSome) ∧
        ∀ a, a ∉ head :: (pre ++ x :: post) → m' a = m a := by
  have hx : x ∉ head :: (pre ++ post) := by
    have hnodup := h.nodup
    grind
  have heq : m.listDelInit x = (m.listDel x).bind (·.initListHead x) := by
    unfold Links.listDelInit Links.listDel
    cases m x <;> rfl
  rw [heq]
  refine Returns.bind h.listDel fun m₁ ⟨hcircle, hsome₁, hsame₁⟩ => ?_
  have hmem : (m₁ x).isSome = true := (hsome₁ x).trans (Links.isSome_of_map h.next.1)
  refine (Links.initListHead_returns hmem).mono ?_
  rintro m' ⟨-, hsome, hsame⟩
  refine ⟨hcircle.congr fun a ha => hsame a fun heq => hx (heq ▸ ha),
    fun a => (hsome a).trans (hsome₁ a), fun a ha => ?_⟩
  rw [hsame a (by grind), hsame₁ a ha]

end Circle

end Cserv.Util
