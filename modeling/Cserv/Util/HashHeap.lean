import Cserv.Util.HashTable
import Cserv.Util.ListHead

/-!
# The hash table in memory

`util/hashtable.c` on buckets and elements that are linked through their list heads. A function
fails, with `none`, where the source reads memory that holds no element or no list head, and where
a loop has more rounds than `fuel` allows.
-/
namespace Cserv.Util

open Foundations

variable {α : Type}

/-- The address of a list head: a bucket of the table, or the `list` of an element. -/
inductive HashNode
  | bucket (i : ℕ)
  | elem (a : ℕ)
  deriving DecidableEq, Repr

/-- `struct hash_table`, the list heads in memory and the elements that are allocated. -/
structure HashHeap (α : Type) where
  bucketSize : ℕ
  list : Links HashNode
  elem : ℕ → Option (HashElement α)

namespace HashHeap

variable (h : HashHeap α)

/-- The element with a list head, as `list_entry` finds it. -/
def entry : HashNode → Option (HashElement α)
  | .bucket _ => none
  | .elem a => h.elem a

/-- The allocation of an element at `a`, whose list head has the value `junk`, and the assignments
to its `key` and `object`. -/
def newElement (a : ℕ) (junk : ListHead HashNode) (key : UInt32) (object : α) : HashHeap α :=
  { h with
    list := Function.update h.list (.elem a) (some junk)
    elem := Function.update h.elem a (some ⟨key, object⟩) }

def free (a : ℕ) : HashHeap α :=
  { h with
    list := Function.update h.list (.elem a) none
    elem := Function.update h.elem a none }

def bucketOf (key : UInt32) : HashNode := .bucket (key.toNat % h.bucketSize)

/-- The loop of `hash_table_find`. -/
def findLoop (bucket : HashNode) (key : UInt32) : ℕ → HashNode → Option (Option α)
  | 0, _ => none
  | fuel + 1, loop =>
    if loop = bucket then some none
    else do
      let e ← h.entry loop
      if e.key < key then
        let l ← h.list loop
        findLoop bucket key fuel l.next
      else if e.key = key then some (some e.object)
      else some none

def hashTableFind (fuel : ℕ) (key : UInt32) : Option (Option α) := do
  let l ← h.list (h.bucketOf key)
  h.findLoop (h.bucketOf key) key fuel l.next

/-- `list_del_init(&loop->list)` and `free(loop)`. -/
def unlink (a : ℕ) : Option (HashHeap α) := do
  let list ← h.list.listDelInit (.elem a)
  return free { h with list := list } a

def removeLoop (bucket : HashNode) (key : UInt32) : ℕ → HashNode → Option (Option α × HashHeap α)
  | 0, _ => none
  | fuel + 1, loop =>
    if loop = bucket then some (none, h)
    else
      match loop with
      | .bucket _ => none
      | .elem a => do
        let e ← h.elem a
        if key = e.key then
          let h ← h.unlink a
          return (some e.object, h)
        else
          let l ← h.list loop
          removeLoop bucket key fuel l.next

def hashTableRemove (fuel : ℕ) (key : UInt32) : Option (Option α × HashHeap α) := do
  let l ← h.list (h.bucketOf key)
  h.removeLoop (h.bucketOf key) key fuel l.next

/-- `list_add_tail(&elem->list, &loop->list)` and the return of 0. -/
def linkBefore (a : ℕ) (loop : HashNode) : Option (ℤ × HashHeap α) := do
  let list ← h.list.listAddTail (.elem a) loop
  return (0, { h with list := list })

/-- The loop of `hash_table_add` for the new element `a`. When it ends, `&loop->list` is the bucket. -/
def addLoop (bucket : HashNode) (a : ℕ) (key : UInt32) : ℕ → HashNode → Option (ℤ × HashHeap α)
  | 0, _ => none
  | fuel + 1, loop =>
    if loop = bucket then h.linkBefore a loop
    else do
      let e ← h.entry loop
      if e.key < key then
        let l ← h.list loop
        addLoop bucket a key fuel l.next
      else if e.key = key then some (-2, h.free a)
      else h.linkBefore a loop

/-- `hash_table_add`, where `malloc` gives the memory at `a` with the list head `junk`. -/
def hashTableAdd (fuel a : ℕ) (junk : ListHead HashNode) (key : UInt32) (object : α) :
    Option (ℤ × HashHeap α) := do
  let h := h.newElement a junk key object
  let l ← h.list (h.bucketOf key)
  h.addLoop (h.bucketOf key) a key fuel l.next

end HashHeap

def initBuckets : ℕ → Links HashNode → Option (Links HashNode)
  | 0, m => some m
  | n + 1, m => do
    let m ← m.initListHead (.bucket n)
    initBuckets n m

/-- The list heads of a table that was allocated and not initialised. -/
def rawBuckets (bucketSize : ℕ) (junk : ℕ → ListHead HashNode) : Links HashNode
  | .bucket i => if i < bucketSize then some (junk i) else none
  | .elem _ => none

/-- `hash_table_create`, for an allocation that succeeds; `some none` stands for `NULL`. -/
def HashHeap.hashTableCreate (α : Type) (bucketSize : ℕ) (junk : ℕ → ListHead HashNode) :
    Option (Option (HashHeap α)) :=
  if bucketSize = 0 ∨ bucketSize &&& (bucketSize - 1) ≠ 0 then some none
  else do
    let list ← initBuckets bucketSize (rawBuckets bucketSize junk)
    return some ⟨bucketSize, list, fun _ => none⟩

/-! ## The loops over a bucket -/

namespace HashHeap

variable {h h' : HashHeap α} {i a fuel : ℕ} {pre post as as' : List ℕ} {key : UInt32} {object : α}
  {es es₁ es₂ : List (HashElement α)} {bucket loop : HashNode}

theorem findLoop_succ {o : Option α} (hr : h.findLoop bucket key fuel loop = some o) :
    h.findLoop bucket key (fuel + 1) loop = some o := by
  induction fuel generalizing loop with
  | zero => cases hr
  | succ fuel ih =>
    rw [findLoop] at hr ⊢
    split_ifs at hr ⊢ with hbucket
    · exact hr
    · refine bind_mono (fun e hr => ?_) hr
      split_ifs at hr ⊢
      · exact bind_mono (fun l hr => ih hr) hr
      · exact hr
      · exact hr

theorem removeLoop_succ {r : Option α × HashHeap α}
    (hr : h.removeLoop bucket key fuel loop = some r) :
    h.removeLoop bucket key (fuel + 1) loop = some r := by
  induction fuel generalizing loop with
  | zero => cases hr
  | succ fuel ih =>
    cases loop with
    | bucket i =>
      rw [removeLoop] at hr ⊢
      exact hr
    | elem a =>
      rw [removeLoop] at hr ⊢
      split_ifs at hr ⊢ with hbucket
      · exact hr
      · refine bind_mono (fun e hr => ?_) hr
        split_ifs at hr ⊢
        · exact hr
        · exact bind_mono (fun l hr => ih hr) hr

theorem addLoop_succ {r : ℤ × HashHeap α} (hr : h.addLoop bucket a key fuel loop = some r) :
    h.addLoop bucket a key (fuel + 1) loop = some r := by
  induction fuel generalizing loop with
  | zero => cases hr
  | succ fuel ih =>
    rw [addLoop] at hr ⊢
    split_ifs at hr ⊢ with hbucket
    · exact hr
    · refine bind_mono (fun e hr => ?_) hr
      split_ifs at hr ⊢
      · exact bind_mono (fun l hr => ih hr) hr
      · exact hr
      · exact hr

theorem list_next (hc : Circle h.list (.bucket i) ((pre ++ a :: post).map .elem)) :
    ∃ l, h.list (.elem a) = some l ∧ l.next = (post.map .elem).headD (.bucket i) := by
  rw [List.map_append, List.map_cons] at hc
  exact Option.map_eq_some_iff.mp hc.next.1

theorem list_newElement_bucket (h : HashHeap α) (a j : ℕ) (junk : ListHead HashNode)
    (key : UInt32) (object : α) :
    (h.newElement a junk key object).list (.bucket j) = h.list (.bucket j) := by
  have hne : HashNode.bucket j ≠ .elem a := by simp
  exact Function.update_of_ne hne (some junk) h.list

theorem findLoop_eq (hc : Circle h.list (.bucket i) ((pre ++ post).map .elem))
    (hes : post.map h.elem = es.map some) (hfuel : post.length < fuel) :
    h.findLoop (.bucket i) key fuel ((post.map .elem).headD (.bucket i)) =
      some (bucketFind key es) := by
  induction post generalizing pre es fuel with
  | nil =>
    obtain ⟨fuel, rfl⟩ := Nat.exists_eq_succ_of_ne_zero (by omega : fuel ≠ 0)
    rw [List.map_nil, eq_comm, List.map_eq_nil_iff] at hes
    rw [hes]
    simp [findLoop, bucketFind]
  | cons a post ih =>
    rw [List.length_cons] at hfuel
    obtain ⟨fuel, rfl⟩ := Nat.exists_eq_succ_of_ne_zero (by omega : fuel ≠ 0)
    cases es with
    | nil => simp at hes
    | cons e es =>
      rw [List.map_cons, List.map_cons, List.cons.injEq] at hes
      obtain ⟨l, hl, hnext⟩ := list_next hc
      rw [List.append_cons] at hc
      have hrest := ih hc hes.2 (show post.length < fuel by omega)
      rw [← hnext] at hrest
      simp only [List.map_cons, List.headD_cons, findLoop, entry, hes.1, hl, bucketFind,
        reduceCtorEq, if_false, Option.bind_eq_bind, Option.bind_some]
      split_ifs
      · exact hrest
      · rfl
      · rfl

/-- The bucket `i` is changed from `as` to `as'`, and then has the elements `es`. -/
structure Replaced (h h' : HashHeap α) (i : ℕ) (as as' : List ℕ) (es : List (HashElement α)) :
    Prop where
  size : h'.bucketSize = h.bucketSize
  circle : Circle h'.list (.bucket i) (as'.map .elem)
  elems : as'.map h'.elem = es.map some
  fresh : ∀ b ∈ as', b ∈ as ∨ h.elem b = none
  freed : ∀ b ∈ as, b ∉ as' → h'.elem b = none ∧ h'.list (.elem b) = none
  bucket : ∀ j, j ≠ i → h'.list (.bucket j) = h.list (.bucket j)
  other : ∀ b, b ∉ as → b ∉ as' → h'.elem b = h.elem b ∧ h'.list (.elem b) = h.list (.elem b)

theorem nodup_of_circle (hc : Circle h.list (.bucket i) (as.map .elem)) : as.Nodup :=
  List.Nodup.of_map _ (List.nodup_cons.mp hc.nodup).2

theorem map_update_elem {b : Option (HashElement α)} (ha : a ∉ as) :
    as.map (Function.update h.elem a b) = as.map h.elem := by
  apply List.map_congr_left
  intro c hc
  have hne : c ≠ a := fun heq => ha (heq ▸ hc)
  exact Function.update_of_ne hne ..

theorem unlink_returns (hc : Circle h.list (.bucket i) ((pre ++ a :: post).map .elem))
    (hes₁ : pre.map h.elem = es₁.map some) (hes₂ : post.map h.elem = es₂.map some) :
    Returns (h.unlink a) fun h' => Replaced h h' i (pre ++ a :: post) (pre ++ post) (es₁ ++ es₂) := by
  have hnodup := nodup_of_circle hc
  have ha : a ∉ pre ++ post := by grind
  have hmap : (pre ++ a :: post).map HashNode.elem =
      pre.map .elem ++ .elem a :: post.map .elem := by
    rw [List.map_append, List.map_cons]
  rw [hmap] at hc
  refine Returns.bind hc.listDelInit fun m ⟨hcircle, _, hsame⟩ => ?_
  rw [← hmap] at hsame
  refine Returns.some ⟨rfl, ?_, ?_, ?_, ?_, ?_, ?_⟩
  · rw [List.map_append]
    refine hcircle.congr fun n hn => ?_
    exact Function.update_of_ne (by rintro rfl; simp at hn; grind) ..
  · change (pre ++ post).map (Function.update h.elem a none) = _
    rw [map_update_elem ha, List.map_append, hes₁, hes₂, List.map_append]
  · intro b hb
    left
    grind
  · intro b hb hb'
    have hba : b = a := by grind
    rw [hba]
    exact ⟨Function.update_self .., Function.update_self ..⟩
  · intro j hj
    change Function.update m (.elem a) none (.bucket j) = _
    rw [Function.update_of_ne (by simp)]
    exact hsame _ (by simp [hj])
  · intro b hb hb'
    have hba : b ≠ a := by grind
    refine ⟨Function.update_of_ne hba .., ?_⟩
    change Function.update m (.elem a) none (.elem b) = _
    rw [Function.update_of_ne (by simpa using hba)]
    exact hsame _ (by simpa using hb)

theorem removeLoop_returns (hc : Circle h.list (.bucket i) ((pre ++ post).map .elem))
    (hes₁ : pre.map h.elem = es₁.map some) (hes₂ : post.map h.elem = es₂.map some)
    (hfuel : post.length < fuel) :
    Returns (h.removeLoop (.bucket i) key fuel ((post.map .elem).headD (.bucket i))) fun r =>
      (bucketRemove key es₂ = none → r = (none, h)) ∧
        ∀ x es, bucketRemove key es₂ = some (x, es) →
          r.1 = some x ∧ ∃ as, Replaced h r.2 i (pre ++ post) as (es₁ ++ es) := by
  induction post generalizing pre es₁ es₂ fuel with
  | nil =>
    obtain ⟨fuel, rfl⟩ := Nat.exists_eq_succ_of_ne_zero (by omega : fuel ≠ 0)
    rw [List.map_nil, eq_comm, List.map_eq_nil_iff] at hes₂
    rw [hes₂]
    refine ⟨(none, h), by simp [removeLoop], fun _ => rfl, ?_⟩
    simp [bucketRemove]
  | cons a post ih =>
    rw [List.length_cons] at hfuel
    obtain ⟨fuel, rfl⟩ := Nat.exists_eq_succ_of_ne_zero (by omega : fuel ≠ 0)
    cases es₂ with
    | nil => simp at hes₂
    | cons e es₂ =>
      rw [List.map_cons, List.map_cons, List.cons.injEq] at hes₂
      obtain ⟨l, hl, hnext⟩ := list_next hc
      simp only [List.map_cons, List.headD_cons, removeLoop, hes₂.1, hl, reduceCtorEq, if_false,
        Option.bind_eq_bind, Option.bind_some, bucketRemove]
      split_ifs with hkey
      · refine Returns.bind (unlink_returns hc hes₁ hes₂.2) fun h' hreplaced => ?_
        refine Returns.some ⟨by simp, fun x es heq => ?_⟩
        obtain ⟨rfl, rfl⟩ := Prod.mk.inj (Option.some.inj heq)
        exact ⟨rfl, _, hreplaced⟩
      · rw [List.append_cons] at hc
        have hes₁' : (pre ++ [a]).map h.elem = (es₁ ++ [e]).map some := by
          rw [List.map_append, hes₁, List.map_append, List.map_singleton, hes₂.1,
            List.map_singleton]
        rw [hnext]
        refine (ih hc hes₁' hes₂.2 (show post.length < fuel by omega)).mono ?_
        intro r hr
        refine ⟨fun hnone => hr.1 (Option.map_eq_none_iff.mp hnone), fun x es heq => ?_⟩
        obtain ⟨⟨y, es'⟩, hrem, heq⟩ := Option.map_eq_some_iff.mp heq
        obtain ⟨rfl, rfl⟩ := Prod.mk.inj heq
        obtain ⟨hobject, as, hreplaced⟩ := hr.2 y es' hrem
        rw [← List.append_cons, ← List.append_cons] at hreplaced
        exact ⟨hobject, as, hreplaced⟩

/-- The element `a` is linked into the bucket `i`, which then has the elements `es`. -/
structure Linked (h h' : HashHeap α) (i a : ℕ) (as as' : List ℕ) (es : List (HashElement α)) :
    Prop where
  size : h'.bucketSize = h.bucketSize
  circle : Circle h'.list (.bucket i) (as'.map .elem)
  elem : h'.elem = h.elem
  elems : as'.map h.elem = es.map some
  mem : ∀ b, b ∈ as' ↔ b = a ∨ b ∈ as
  same : ∀ n, n ≠ .elem a → n ∉ HashNode.bucket i :: as.map .elem → h'.list n = h.list n

theorem linkBefore_returns (hc : Circle h.list (.bucket i) ((pre ++ post).map .elem))
    (hes₁ : pre.map h.elem = es₁.map some) (hes₂ : post.map h.elem = es₂.map some)
    (ha : a ∉ pre ++ post) (hlist : (h.list (.elem a)).isSome = true) {e : HashElement α}
    (helem : h.elem a = some e) :
    Returns (h.linkBefore a ((post.map .elem).headD (.bucket i))) fun r =>
      r.1 = 0 ∧ Linked h r.2 i a (pre ++ post) (pre ++ a :: post) (es₁ ++ e :: es₂) := by
  have hnew : HashNode.elem a ∉ HashNode.bucket i :: (pre.map .elem ++ post.map .elem) := by
    rw [← List.map_append]
    simpa using ha
  rw [List.map_append] at hc
  refine Returns.bind (hc.listAddTail hnew hlist) fun m ⟨hcircle, _, hsame⟩ => ?_
  refine Returns.some ⟨rfl, rfl, ?_, rfl, ?_, ?_, ?_⟩
  · rw [List.map_append, List.map_cons]
    exact hcircle
  · rw [List.map_append, List.map_cons, hes₁, hes₂, helem, List.map_append, List.map_cons]
  · grind
  · rw [List.map_append]
    exact hsame

theorem addLoop_returns (hc : Circle h.list (.bucket i) ((pre ++ post).map .elem))
    (hes₁ : pre.map h.elem = es₁.map some) (hes₂ : post.map h.elem = es₂.map some)
    (ha : a ∉ pre ++ post) (hlist : (h.list (.elem a)).isSome = true)
    (helem : h.elem a = some ⟨key, object⟩) (hfuel : post.length < fuel) :
    Returns (h.addLoop (.bucket i) a key fuel ((post.map .elem).headD (.bucket i))) fun r =>
      (bucketAdd key object es₂ = none → r = (-2, h.free a)) ∧
        ∀ es, bucketAdd key object es₂ = some es →
          r.1 = 0 ∧ ∃ as, Linked h r.2 i a (pre ++ post) as (es₁ ++ es) := by
  induction post generalizing pre es₁ es₂ fuel with
  | nil =>
    obtain ⟨fuel, rfl⟩ := Nat.exists_eq_succ_of_ne_zero (by omega : fuel ≠ 0)
    have hlink := linkBefore_returns hc hes₁ hes₂ ha hlist helem
    rw [List.map_nil, eq_comm, List.map_eq_nil_iff] at hes₂
    subst hes₂
    simp only [List.map_nil, List.headD_nil, addLoop, if_true]
    refine hlink.mono fun r hr => ⟨by simp [bucketAdd], fun es heq => ?_⟩
    obtain rfl := Option.some.inj heq
    exact ⟨hr.1, _, hr.2⟩
  | cons b post ih =>
    rw [List.length_cons] at hfuel
    obtain ⟨fuel, rfl⟩ := Nat.exists_eq_succ_of_ne_zero (by omega : fuel ≠ 0)
    cases es₂ with
    | nil => simp at hes₂
    | cons e es₂ =>
      have hlink := linkBefore_returns hc hes₁ hes₂ ha hlist helem
      rw [List.map_cons, List.map_cons, List.cons.injEq] at hes₂
      obtain ⟨l, hl, hnext⟩ := list_next hc
      simp only [List.map_cons, List.headD_cons, addLoop, entry, hes₂.1, hl, reduceCtorEq,
        if_false, Option.bind_eq_bind, Option.bind_some, bucketAdd] at hlink ⊢
      split_ifs with hlt hkey
      · rw [List.append_cons] at hc ha
        have hes₁' : (pre ++ [b]).map h.elem = (es₁ ++ [e]).map some := by
          rw [List.map_append, hes₁, List.map_append, List.map_singleton, hes₂.1,
            List.map_singleton]
        rw [hnext]
        refine (ih hc hes₁' hes₂.2 ha (show post.length < fuel by omega)).mono ?_
        intro r hr
        refine ⟨fun hnone => hr.1 (Option.map_eq_none_iff.mp hnone), fun es heq => ?_⟩
        obtain ⟨es', hadd, rfl⟩ := Option.map_eq_some_iff.mp heq
        obtain ⟨hzero, as, hlinked⟩ := hr.2 es' hadd
        rw [← List.append_cons, ← List.append_cons] at hlinked
        exact ⟨hzero, as, hlinked⟩
      · exact Returns.some ⟨fun _ => rfl, by simp⟩
      · refine hlink.mono fun r hr => ⟨by simp, fun es heq => ?_⟩
        obtain rfl := Option.some.inj heq
        exact ⟨hr.1, _, hr.2⟩

theorem Linked.replaced {junk : ListHead HashNode}
    (hlinked : Linked (h.newElement a junk key object) h' i a as as' es) (ha : h.elem a = none) :
    Replaced h h' i as as' es := by
  refine ⟨hlinked.size, hlinked.circle, ?_, ?_, ?_, ?_, ?_⟩
  · rw [hlinked.elem]
    exact hlinked.elems
  · intro b hb
    rcases (hlinked.mem b).mp hb with rfl | hb
    · exact Or.inr ha
    · exact Or.inl hb
  · intro b hb hb'
    exact absurd ((hlinked.mem b).mpr (Or.inr hb)) hb'
  · intro j hj
    rw [hlinked.same _ (by simp) (by simp [hj]), list_newElement_bucket]
  · intro b hb hb'
    have hba : b ≠ a := fun heq => hb' ((hlinked.mem b).mpr (Or.inl heq))
    have hnode : HashNode.elem b ≠ .elem a := by simpa using hba
    rw [hlinked.elem, hlinked.same _ hnode (by simpa using hb)]
    exact ⟨Function.update_of_ne hba .., Function.update_of_ne hnode ..⟩

end HashHeap

end Cserv.Util
