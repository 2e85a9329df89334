import Mathlib.Data.List.GetD
import Mathlib.Tactic

/-!
# The chained hash table

`util/hashtable.c`: an array of bucket lists, each kept in ascending key order.
`list_add_tail(&elem->list, &loop->list)` puts the element in front of `loop`,
or behind the last element when the loop has run to the list head.
-/
namespace Cserv.Util

universe u
variable {α : Type u}

structure HashElement (α : Type u) where
  key : UInt32
  object : α
  deriving DecidableEq, Repr

structure HashTable (α : Type u) where
  bucketSize : ℕ
  buckets : List (List (HashElement α))
  deriving DecidableEq, Repr

/-- `hash_table_create`, for an allocation that succeeds. -/
def hashTableCreate (bucketSize : ℕ) : Option (HashTable α) :=
  if bucketSize = 0 ∨ bucketSize &&& (bucketSize - 1) ≠ 0 then none
  else some ⟨bucketSize, List.replicate bucketSize []⟩

namespace HashTable

variable (ht : HashTable α)

def index (key : UInt32) : ℕ := key.toNat % ht.bucketSize

def bucket (key : UInt32) : List (HashElement α) := ht.buckets.getD (ht.index key) []

end HashTable

def bucketFind (key : UInt32) : List (HashElement α) → Option α
  | [] => none
  | e :: rest =>
    if e.key < key then bucketFind key rest
    else if e.key = key then some e.object
    else none

def hashTableFind (ht : HashTable α) (key : UInt32) : Option α := bucketFind key (ht.bucket key)

/-- The loop of `hash_table_add` over one bucket; `none` when the key is there. -/
def bucketAdd (key : UInt32) (object : α) : List (HashElement α) → Option (List (HashElement α))
  | [] => some [⟨key, object⟩]
  | e :: rest =>
    if e.key < key then (bucketAdd key object rest).map (e :: ·)
    else if e.key = key then none
    else some (⟨key, object⟩ :: e :: rest)

/-- `hash_table_add`; `malloc` tells whether the element could be allocated. -/
def hashTableAdd (malloc : Bool) (ht : HashTable α) (key : UInt32) (object : α) :
    ℤ × HashTable α :=
  if ¬malloc then (-1, ht)
  else
    match bucketAdd key object (ht.bucket key) with
    | none => (-2, ht)
    | some es => (0, { ht with buckets := ht.buckets.set (ht.index key) es })

/-- The loop of `hash_table_remove` over one bucket, with the object and the elements that stay. -/
def bucketRemove (key : UInt32) : List (HashElement α) → Option (α × List (HashElement α))
  | [] => none
  | e :: rest =>
    if key = e.key then some (e.object, rest)
    else (bucketRemove key rest).map fun r => (r.1, e :: r.2)

def hashTableRemove (ht : HashTable α) (key : UInt32) : Option α × HashTable α :=
  match bucketRemove key (ht.bucket key) with
  | none => (none, ht)
  | some (object, es) => (some object, { ht with buckets := ht.buckets.set (ht.index key) es })

/-! ## What a table holds -/

theorem getD_replicate_nil (n i : ℕ) :
    (List.replicate n ([] : List (HashElement α))).getD i [] = [] := by
  by_cases h : i < n <;> simp [h]

def Ascending (es : List (HashElement α)) : Prop := es.Pairwise (fun a b => a.key < b.key)

/-- Every bucket is ascending and holds only keys congruent to its index. -/
structure HashTable.WellFormed (ht : HashTable α) : Prop where
  pos : 0 < ht.bucketSize
  length : ht.buckets.length = ht.bucketSize
  ascending : ∀ es ∈ ht.buckets, Ascending es
  congruent : ∀ i, ∀ e ∈ ht.buckets.getD i [], e.key.toNat % ht.bucketSize = i

theorem bucketFind_eq_some {key : UInt32} {x : α} {es : List (HashElement α)}
    (hes : Ascending es) : bucketFind key es = some x ↔ ⟨key, x⟩ ∈ es := by
  induction es with
  | nil => simp [bucketFind]
  | cons e rest ih =>
    obtain ⟨hlt, hrest⟩ := List.pairwise_cons.mp hes
    have ih := ih hrest
    rw [bucketFind, List.mem_cons]
    split_ifs with h₁ h₂
    · rw [ih]
      constructor
      · exact Or.inr
      · rintro (h | h)
        · subst h; exact absurd h₁ (UInt32.lt_irrefl _)
        · exact h
    · subst h₂
      constructor
      · intro h
        left
        cases e
        simp_all
      · rintro (h | h)
        · rw [← h]
        · exact absurd (hlt _ h) (UInt32.lt_irrefl _)
    · constructor
      · intro h; cases h
      · rintro (h | h)
        · exact absurd (congrArg HashElement.key h).symm h₂
        · exact absurd (hlt _ h) h₁

theorem bucketAdd_spec {key : UInt32} {x : α} {es es' : List (HashElement α)}
    (hes : Ascending es) (h : bucketAdd key x es = some es') :
    Ascending es' ∧ (∀ e, e ∈ es' ↔ e = ⟨key, x⟩ ∨ e ∈ es) ∧ ∀ e ∈ es, e.key ≠ key := by
  induction es generalizing es' with
  | nil =>
    obtain rfl := Option.some.inj h
    simp [Ascending]
  | cons e rest ih =>
    obtain ⟨hlt, hrest⟩ := List.pairwise_cons.mp hes
    rw [bucketAdd] at h
    split_ifs at h with h₁ h₂
    · obtain ⟨t, ht, rfl⟩ := Option.map_eq_some_iff.mp h
      obtain ⟨hasc, hmem, hne⟩ := ih hrest ht
      refine ⟨?_, ?_, ?_⟩
      · refine List.pairwise_cons.mpr ⟨?_, hasc⟩
        intro f hf
        rcases (hmem f).mp hf with rfl | hf
        · exact h₁
        · exact hlt f hf
      · intro f
        rw [List.mem_cons, List.mem_cons, hmem]
        tauto
      · intro f hf
        rcases List.mem_cons.mp hf with rfl | hf
        · exact UInt32.ne_of_lt h₁
        · exact hne f hf
    · obtain rfl := Option.some.inj h
      have hkey : key < e.key :=
        UInt32.lt_of_le_of_ne (UInt32.not_lt.mp h₁) (fun hk => h₂ hk.symm)
      refine ⟨List.pairwise_cons.mpr ⟨?_, hes⟩, ?_, ?_⟩
      · intro f hf
        rcases List.mem_cons.mp hf with rfl | hf
        · exact hkey
        · exact UInt32.lt_trans hkey (hlt f hf)
      · intro f
        rw [List.mem_cons]
      · intro f hf
        rcases List.mem_cons.mp hf with rfl | hf
        · exact h₂
        · exact (UInt32.ne_of_lt (UInt32.lt_trans hkey (hlt f hf))).symm

/-- `hash_table_add` refuses the keys that `hash_table_find` finds. -/
theorem bucketAdd_eq_none {key : UInt32} {x : α} {es : List (HashElement α)} :
    bucketAdd key x es = none ↔ (bucketFind key es).isSome = true := by
  induction es with
  | nil => simp [bucketAdd, bucketFind]
  | cons e rest ih =>
    rw [bucketAdd, bucketFind]
    split_ifs
    · rw [Option.map_eq_none_iff]
      exact ih
    · simp
    · simp

theorem bucketRemove_eq_none {key : UInt32} {es : List (HashElement α)} :
    bucketRemove key es = none ↔ ∀ e ∈ es, e.key ≠ key := by
  induction es with
  | nil => simp [bucketRemove]
  | cons e rest ih =>
    rw [bucketRemove, List.forall_mem_cons]
    split_ifs with hkey
    · simp [hkey]
    · rw [Option.map_eq_none_iff, ih]
      exact ⟨fun h => ⟨Ne.symm hkey, h⟩, fun h => h.2⟩

theorem bucketRemove_spec {key : UInt32} {x : α} {es es' : List (HashElement α)}
    (hes : Ascending es) (h : bucketRemove key es = some (x, es')) :
    Ascending es' ∧ (∀ e, e ∈ es' ↔ e ∈ es ∧ e.key ≠ key) ∧ ⟨key, x⟩ ∈ es := by
  induction es generalizing es' with
  | nil => cases h
  | cons e rest ih =>
    obtain ⟨hlt, hrest⟩ := List.pairwise_cons.mp hes
    rw [bucketRemove] at h
    split_ifs at h with hkey
    · obtain ⟨rfl, rfl⟩ := Prod.mk.inj (Option.some.inj h)
      subst hkey
      have hne : ∀ f ∈ rest, f.key ≠ e.key := fun f hf => (UInt32.ne_of_lt (hlt f hf)).symm
      refine ⟨hrest, fun f => ?_, List.mem_cons_self ..⟩
      rw [List.mem_cons]
      constructor
      · intro hf
        exact ⟨Or.inr hf, hne f hf⟩
      · rintro ⟨rfl | hf, hk⟩
        · exact absurd rfl hk
        · exact hf
    · obtain ⟨⟨y, t⟩, ht, hr⟩ := Option.map_eq_some_iff.mp h
      obtain ⟨rfl, rfl⟩ := Prod.mk.inj hr
      obtain ⟨hasc, hmem, hin⟩ := ih hrest ht
      refine ⟨List.pairwise_cons.mpr ⟨fun f hf => hlt f ((hmem f).mp hf).1, hasc⟩, fun f => ?_,
        List.mem_cons_of_mem e hin⟩
      rw [List.mem_cons, List.mem_cons, hmem]
      constructor
      · rintro (rfl | hf)
        · exact ⟨Or.inl rfl, Ne.symm hkey⟩
        · exact ⟨Or.inr hf.1, hf.2⟩
      · rintro ⟨rfl | hf, hk⟩
        · exact Or.inl rfl
        · exact Or.inr ⟨hf, hk⟩

namespace HashTable

def Binds (ht : HashTable α) (key : UInt32) (x : α) : Prop := ⟨key, x⟩ ∈ ht.bucket key

variable {ht : HashTable α}

theorem create_wellFormed {n : ℕ} (h : hashTableCreate n = some ht) : ht.WellFormed := by
  unfold hashTableCreate at h
  split_ifs at h with hn
  obtain rfl := Option.some.inj h
  push Not at hn
  refine ⟨Nat.pos_of_ne_zero hn.1, by simp, ?_, ?_⟩
  · intro es hes
    rw [List.eq_of_mem_replicate hes]
    exact List.Pairwise.nil
  · intro i e he
    rw [getD_replicate_nil] at he
    cases he

theorem create_binds {n : ℕ} (h : hashTableCreate n = some ht) (key : UInt32) (x : α) :
    ¬ht.Binds key x := by
  unfold hashTableCreate at h
  split_ifs at h
  obtain rfl := Option.some.inj h
  rw [Binds, bucket, getD_replicate_nil]
  exact List.not_mem_nil

theorem WellFormed.index_lt (h : ht.WellFormed) (key : UInt32) :
    ht.index key < ht.buckets.length := by
  rw [h.length]
  exact Nat.mod_lt _ h.pos

theorem WellFormed.bucket_ascending (h : ht.WellFormed) (key : UInt32) :
    Ascending (ht.bucket key) := by
  rw [bucket, List.getD_eq_getElem _ _ (h.index_lt key)]
  exact h.ascending _ (List.getElem_mem (h.index_lt key))

theorem WellFormed.find_eq_some (h : ht.WellFormed) {key : UInt32} {x : α} :
    hashTableFind ht key = some x ↔ ht.Binds key x :=
  bucketFind_eq_some (h.bucket_ascending key)

theorem WellFormed.bucket_set (h : ht.WellFormed) (key k : UInt32) (es : List (HashElement α)) :
    HashTable.bucket { ht with buckets := ht.buckets.set (ht.index key) es } k =
      if ht.index key = ht.index k then es else ht.bucket k := by
  have hlt := h.index_lt k
  simp only [bucket, index, List.getD_eq_getElem?_getD] at *
  split_ifs with hk
  · rw [hk, List.getElem?_set_self hlt, Option.getD_some]
  · rw [List.getElem?_set_ne hk]

theorem WellFormed.set (h : ht.WellFormed) {key : UInt32} {es : List (HashElement α)}
    (hasc : Ascending es) (hes : ∀ e ∈ es, e.key.toNat % ht.bucketSize = ht.index key) :
    HashTable.WellFormed { ht with buckets := ht.buckets.set (ht.index key) es } := by
  refine ⟨h.pos, by simpa using h.length, ?_, ?_⟩
  · intro fs hfs
    rcases List.mem_or_eq_of_mem_set hfs with hfs | rfl
    · exact h.ascending fs hfs
    · exact hasc
  · intro i e he
    by_cases hi : ht.index key = i
    · subst hi
      simp only [List.getD_eq_getElem?_getD, List.getElem?_set_self (h.index_lt key),
        Option.getD_some] at he
      exact hes e he
    · simp only [List.getD_eq_getElem?_getD, List.getElem?_set_ne hi] at he
      exact h.congruent i e (by simpa [List.getD_eq_getElem?_getD] using he)

theorem add_eq_zero {malloc : Bool} {key : UInt32} {x : α} {ht' : HashTable α}
    (h : hashTableAdd malloc ht key x = (0, ht')) :
    ∃ es, bucketAdd key x (ht.bucket key) = some es ∧
      ht' = { ht with buckets := ht.buckets.set (ht.index key) es } := by
  unfold hashTableAdd at h
  split_ifs at h
  · split at h
    · simp at h
    · rename_i es hes
      exact ⟨es, hes, (Prod.mk.inj h).2.symm⟩
  · simp at h

theorem WellFormed.add (hwf : ht.WellFormed) {malloc : Bool} {key : UInt32} {x : α}
    {ht' : HashTable α} (h : hashTableAdd malloc ht key x = (0, ht')) : ht'.WellFormed := by
  obtain ⟨es, hes, rfl⟩ := add_eq_zero h
  obtain ⟨hasc, hmem, -⟩ := bucketAdd_spec (hwf.bucket_ascending key) hes
  refine hwf.set hasc fun e he => ?_
  rcases (hmem e).mp he with rfl | he
  · rfl
  · exact hwf.congruent _ e he

/-- After a successful `hash_table_add` the table binds the new key and what it
bound before, and the new key was not among that. -/
theorem WellFormed.add_binds (hwf : ht.WellFormed) {malloc : Bool} {key : UInt32} {x : α}
    {ht' : HashTable α} (h : hashTableAdd malloc ht key x = (0, ht')) :
    (∀ k y, ht'.Binds k y ↔ k = key ∧ y = x ∨ ht.Binds k y) ∧ ∀ y, ¬ht.Binds key y := by
  obtain ⟨es, hes, rfl⟩ := add_eq_zero h
  obtain ⟨-, hmem, hne⟩ := bucketAdd_spec (hwf.bucket_ascending key) hes
  refine ⟨?_, fun y hy => hne _ hy rfl⟩
  intro k y
  rw [Binds, Binds, hwf.bucket_set]
  split_ifs with hk
  · have hb : ht.bucket k = ht.bucket key := by rw [bucket, bucket, hk]
    rw [hb, hmem, HashElement.mk.injEq]
  · have hkk : k ≠ key := fun h => hk (by rw [h])
    simp [hkk]

/-! ## The table as a partial map -/

theorem add_eq_neg_two {key : UInt32} (x : α)
    (h : (hashTableFind ht key).isSome = true) : hashTableAdd true ht key x = (-2, ht) := by
  have hnone : bucketAdd key x (ht.bucket key) = none := bucketAdd_eq_none.mpr h
  simp [hashTableAdd, hnone]

theorem WellFormed.add_find (hwf : ht.WellFormed) {key : UInt32} (x : α)
    (h : hashTableFind ht key = none) :
    ∃ ht', hashTableAdd true ht key x = (0, ht') ∧ ht'.WellFormed ∧
      hashTableFind ht' = Function.update (hashTableFind ht) key (some x) := by
  have hnone : ¬ (bucketFind key (ht.bucket key)).isSome = true := by
    rw [show bucketFind key (ht.bucket key) = none from h]
    simp
  obtain ⟨es, hes⟩ := Option.ne_none_iff_exists'.mp (mt (bucketAdd_eq_none (x := x)).mp hnone)
  have hadd : hashTableAdd true ht key x =
      (0, { ht with buckets := ht.buckets.set (ht.index key) es }) := by
    simp [hashTableAdd, hes]
  obtain ⟨hbinds, hfresh⟩ := hwf.add_binds hadd
  refine ⟨_, hadd, hwf.add hadd, ?_⟩
  funext k
  apply Option.ext
  intro y
  rw [(hwf.add hadd).find_eq_some, hbinds, Function.update_apply]
  split_ifs with hk
  · subst hk
    simp [hfresh, eq_comm]
  · rw [hwf.find_eq_some]
    simp [hk]

/-- `hash_table_remove` returns the object that the key is bound to, and removes the binding. -/
theorem WellFormed.remove_find (hwf : ht.WellFormed) (key : UInt32) :
    (hashTableRemove ht key).2.WellFormed ∧ (hashTableRemove ht key).1 = hashTableFind ht key ∧
      hashTableFind (hashTableRemove ht key).2 = Function.update (hashTableFind ht) key none := by
  cases hrem : bucketRemove key (ht.bucket key) with
  | none =>
    have hnone : hashTableFind ht key = none := by
      rw [Option.eq_none_iff_forall_ne_some]
      intro x hx
      exact bucketRemove_eq_none.mp hrem _ (hwf.find_eq_some.mp hx) rfl
    have heq : hashTableRemove ht key = (none, ht) := by
      simp [hashTableRemove, hrem]
    rw [heq, hnone, ← hnone, Function.update_eq_self]
    exact ⟨hwf, rfl, rfl⟩
  | some r =>
    obtain ⟨x, es⟩ := r
    obtain ⟨hasc, hmem, hin⟩ := bucketRemove_spec (hwf.bucket_ascending key) hrem
    have heq : hashTableRemove ht key =
        (some x, { ht with buckets := ht.buckets.set (ht.index key) es }) := by
      simp [hashTableRemove, hrem]
    have hwf' := hwf.set hasc fun e he => hwf.congruent _ e ((hmem e).mp he).1
    rw [heq]
    refine ⟨hwf', (hwf.find_eq_some.mpr hin).symm, ?_⟩
    funext k
    apply Option.ext
    intro y
    rw [hwf'.find_eq_some, Binds, hwf.bucket_set, Function.update_apply]
    by_cases hk : k = key
    · simp [hk, hmem]
    · rw [if_neg hk, hwf.find_eq_some, Binds]
      split_ifs with hindex
      · rw [hmem, show ht.bucket k = ht.bucket key by rw [bucket, bucket, hindex]]
        simp [hk]
      · rfl

end HashTable

end Cserv.Util
