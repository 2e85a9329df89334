import Cserv.Util.HashHeap

/-!
# The hash table is a partial map

The table in memory stores the table of bucket lists, and that one is a partial map from keys to
objects. Runs of any operations then give the results of the map.
-/
namespace Cserv.Util

open Foundations

variable {α : Type}

/-- The elements of the bucket `i` are at the addresses `addrs i`. -/
structure Stores (h : HashHeap α) (ht : HashTable α) (addrs : ℕ → List ℕ) : Prop where
  size : h.bucketSize = ht.bucketSize
  circle : ∀ i < ht.bucketSize, Circle h.list (.bucket i) ((addrs i).map .elem)
  elems : ∀ i < ht.bucketSize, (addrs i).map h.elem = (ht.buckets.getD i []).map some
  disjoint : ∀ i < ht.bucketSize, ∀ j < ht.bucketSize, i ≠ j → ∀ a ∈ addrs i, a ∉ addrs j
  free : ∀ a, h.elem a = none → h.list (.elem a) = none

namespace Stores

variable {h h' : HashHeap α} {ht : HashTable α} {addrs : ℕ → List ℕ} {i : ℕ}

theorem elem_isSome (hs : Stores h ht addrs) (hi : i < ht.bucketSize) {a : ℕ} (ha : a ∈ addrs i) :
    h.elem a ≠ none := by
  intro hnone
  have hmem : none ∈ (addrs i).map h.elem := hnone ▸ List.mem_map_of_mem ha
  rw [hs.elems i hi] at hmem
  simp at hmem

theorem replace (hs : Stores h ht addrs) (hwf : ht.WellFormed) (hi : i < ht.bucketSize)
    {as : List ℕ} {es : List (HashElement α)} (hr : HashHeap.Replaced h h' i (addrs i) as es) :
    Stores h' { ht with buckets := ht.buckets.set i es } (Function.update addrs i as) := by
  -- the elements of the other buckets are left alone
  have hother : ∀ j < ht.bucketSize, j ≠ i → ∀ a ∈ addrs j, a ∉ addrs i ∧ a ∉ as := by
    intro j hj hne a ha
    have hai := hs.disjoint j hj i hi hne a ha
    refine ⟨hai, fun has => ?_⟩
    rcases hr.fresh a has with hold | hnone
    · exact hai hold
    · exact hs.elem_isSome hj ha hnone
  refine ⟨hr.size.trans hs.size, ?_, ?_, ?_, ?_⟩
  · intro j hj
    by_cases hne : j = i
    · subst hne
      rw [Function.update_self]
      exact hr.circle
    · rw [Function.update_of_ne hne]
      refine (hs.circle j hj).congr ?_
      rw [List.forall_mem_cons, List.forall_mem_map]
      refine ⟨hr.bucket j hne, fun a ha => ?_⟩
      obtain ⟨hai, has⟩ := hother j hj hne a ha
      exact (hr.other a hai has).2
  · intro j hj
    by_cases hne : j = i
    · subst hne
      have hlt : j < ht.buckets.length := hwf.length ▸ hj
      rw [Function.update_self, hr.elems, List.getD_eq_getElem?_getD, List.getElem?_set_self hlt,
        Option.getD_some]
    · rw [Function.update_of_ne hne, List.getD_eq_getElem?_getD,
        List.getElem?_set_ne (Ne.symm hne), ← List.getD_eq_getElem?_getD, ← hs.elems j hj]
      apply List.map_congr_left
      intro a ha
      obtain ⟨hai, has⟩ := hother j hj hne a ha
      exact (hr.other a hai has).1
  · intro j hj k hk hjk a ha
    by_cases hji : j = i
    · subst hji
      rw [Function.update_self] at ha
      rw [Function.update_of_ne (Ne.symm hjk)]
      intro hak
      exact (hother k hk (Ne.symm hjk) a hak).2 ha
    · rw [Function.update_of_ne hji] at ha
      by_cases hki : k = i
      · subst hki
        rw [Function.update_self]
        exact (hother j hj hji a ha).2
      · rw [Function.update_of_ne hki]
        exact hs.disjoint j hj k hk hjk a ha
  · intro a hnone
    by_cases has : a ∈ as
    · have hmem : none ∈ as.map h'.elem := hnone ▸ List.mem_map_of_mem has
      rw [hr.elems] at hmem
      simp at hmem
    · by_cases hai : a ∈ addrs i
      · exact (hr.freed a hai has).2
      · obtain ⟨helem, hlist⟩ := hr.other a hai has
        rw [hlist]
        exact hs.free a (helem.symm.trans hnone)

theorem bucket (hs : Stores h ht addrs) (hwf : ht.WellFormed) (key : UInt32) :
    h.bucketOf key = .bucket (ht.index key) ∧ ht.index key < ht.bucketSize ∧
      (addrs (ht.index key)).map h.elem = (ht.bucket key).map some ∧
      Circle h.list (.bucket (ht.index key)) (([] ++ addrs (ht.index key)).map .elem) ∧
      ∃ l, h.list (.bucket (ht.index key)) = some l ∧
        l.next = ((addrs (ht.index key)).map .elem).headD (.bucket (ht.index key)) := by
  have hi : ht.index key < ht.bucketSize := Nat.mod_lt _ hwf.pos
  refine ⟨?_, hi, hs.elems _ hi, hs.circle _ hi, Option.map_eq_some_iff.mp (hs.circle _ hi).first.1⟩
  rw [HashHeap.bucketOf, hs.size]
  rfl

theorem find (hs : Stores h ht addrs) (hwf : ht.WellFormed) (key : UInt32) {fuel : ℕ}
    (hfuel : (addrs (ht.index key)).length < fuel) :
    h.hashTableFind fuel key = some (hashTableFind ht key) := by
  obtain ⟨hbucket, hi, helems, hcircle, l, hl, hnext⟩ := hs.bucket hwf key
  rw [HashHeap.hashTableFind, hbucket, hl, Option.bind_eq_bind, Option.bind_some, hnext]
  exact HashHeap.findLoop_eq hcircle helems hfuel

theorem map_nil_elem (h : HashHeap α) :
    ([] : List ℕ).map h.elem = ([] : List (HashElement α)).map some := rfl

theorem remove (hs : Stores h ht addrs) (hwf : ht.WellFormed) (key : UInt32) {fuel : ℕ}
    (hfuel : (addrs (ht.index key)).length < fuel) :
    Returns (h.hashTableRemove fuel key) fun r =>
      r.1 = (hashTableRemove ht key).1 ∧ ∃ addrs', Stores r.2 (hashTableRemove ht key).2 addrs' := by
  obtain ⟨hbucket, hi, helems, hcircle, l, hl, hnext⟩ := hs.bucket hwf key
  rw [HashHeap.hashTableRemove, hbucket]
  refine Returns.step hl ?_
  rw [hnext]
  refine (HashHeap.removeLoop_returns hcircle (map_nil_elem h) helems hfuel).mono fun r hr => ?_
  unfold hashTableRemove
  cases hrem : bucketRemove key (ht.bucket key) with
  | none =>
    rw [hr.1 hrem]
    exact ⟨rfl, addrs, hs⟩
  | some result =>
    obtain ⟨x, es⟩ := result
    obtain ⟨hobject, as, hreplaced⟩ := hr.2 x es hrem
    exact ⟨hobject, _, hs.replace hwf hi hreplaced⟩

theorem newElement (hs : Stores h ht addrs) {a : ℕ} (ha : h.elem a = none)
    (junk : ListHead HashNode) (key : UInt32) (object : α) (hi : i < ht.bucketSize) :
    a ∉ addrs i ∧
      Circle (h.newElement a junk key object).list (.bucket i) ((addrs i).map .elem) ∧
      (addrs i).map (h.newElement a junk key object).elem = (ht.buckets.getD i []).map some := by
  have hmem : a ∉ addrs i := fun hmem => hs.elem_isSome hi hmem ha
  refine ⟨hmem, (hs.circle i hi).congr fun n hn => ?_, ?_⟩
  · refine Function.update_of_ne ?_ ..
    rintro rfl
    simp at hn
    exact hmem hn
  · rw [← hs.elems i hi]
    exact HashHeap.map_update_elem hmem

theorem free_newElement (hs : Stores h ht addrs) {a : ℕ} (ha : h.elem a = none)
    (junk : ListHead HashNode) (key : UInt32) (object : α) :
    (h.newElement a junk key object).free a = h := by
  have hlist : Function.update h.list (.elem a) none = h.list := by
    rw [← hs.free a ha, Function.update_eq_self]
  have helem : Function.update h.elem a none = h.elem := by
    rw [← ha, Function.update_eq_self]
  simp only [HashHeap.free, HashHeap.newElement, Function.update_idem, hlist, helem]

theorem add (hs : Stores h ht addrs) (hwf : ht.WellFormed) {a : ℕ} (ha : h.elem a = none)
    (junk : ListHead HashNode) (key : UInt32) (object : α) {fuel : ℕ}
    (hfuel : (addrs (ht.index key)).length < fuel) :
    Returns (h.hashTableAdd fuel a junk key object) fun r =>
      r.1 = (hashTableAdd true ht key object).1 ∧ (r.1 = -2 → r.2 = h) ∧
        ∃ addrs', Stores r.2 (hashTableAdd true ht key object).2 addrs' := by
  obtain ⟨hbucket, hi, -, -, l, hl, hnext⟩ := hs.bucket hwf key
  obtain ⟨hmem, hcircle, helems⟩ := hs.newElement ha junk key object hi
  have hhead : (h.newElement a junk key object).list (.bucket (ht.index key)) = some l := by
    rw [HashHeap.list_newElement_bucket]
    exact hl
  have hbucket' : (h.newElement a junk key object).bucketOf key = .bucket (ht.index key) := hbucket
  rw [HashHeap.hashTableAdd]
  simp only [hbucket']
  refine Returns.step hhead ?_
  rw [hnext]
  refine (HashHeap.addLoop_returns hcircle (map_nil_elem _) helems hmem
    (by simp [HashHeap.newElement]) (Function.update_self ..) hfuel).mono fun r hr => ?_
  unfold hashTableAdd
  cases hadd : bucketAdd key object (ht.bucket key) with
  | none =>
    rw [hr.1 hadd, hs.free_newElement ha]
    exact ⟨rfl, fun _ => rfl, addrs, hs⟩
  | some es =>
    obtain ⟨hzero, as, hlinked⟩ := hr.2 es hadd
    refine ⟨hzero, fun htwo => ?_, _, hs.replace hwf hi (hlinked.replaced ha)⟩
    rw [hzero] at htwo
    cases htwo

end Stores

/-! ## The empty table -/

theorem initBuckets_returns {n : ℕ} {m : Links HashNode}
    (hm : ∀ i < n, (m (.bucket i)).isSome = true) :
    Returns (initBuckets n m) fun m' =>
      (∀ i < n, Joined m' (.bucket i) (.bucket i)) ∧
        ∀ node, (∀ i < n, node ≠ .bucket i) → m' node = m node := by
  induction n generalizing m with
  | zero => exact Returns.some ⟨by simp, fun _ _ => rfl⟩
  | succ n ih =>
    refine Returns.bind (Links.initListHead_returns (hm n (Nat.lt_succ_self n)))
      fun m₁ ⟨hjoined, _, hsame⟩ => ?_
    have hm₁ : ∀ i < n, (m₁ (.bucket i)).isSome = true := by
      intro i hi
      rw [hsame _ (by simp; omega)]
      exact hm i (by omega)
    refine (ih hm₁).mono fun m' ⟨hjoined', hsame'⟩ => ⟨fun i hi => ?_, fun node hnode => ?_⟩
    · by_cases hin : i < n
      · exact hjoined' i hin
      · obtain rfl : i = n := by omega
        unfold Joined
        rw [hsame' _ (by simp; omega)]
        exact hjoined
    · rw [hsame' node fun i hi => hnode i (by omega), hsame node (hnode n (by omega))]

theorem create_stores (k : ℕ) (junk : ℕ → ListHead HashNode) :
    ∃ (h : HashHeap α) (ht : HashTable α),
      HashHeap.hashTableCreate α (2 ^ k) junk = some (some h) ∧ hashTableCreate (2 ^ k) = some ht ∧
        Stores h ht fun _ => [] := by
  have hcond : ¬ (2 ^ k = 0 ∨ 2 ^ k &&& (2 ^ k - 1) ≠ 0) := by simp
  obtain ⟨m, hm, hjoined, hsame⟩ :=
    initBuckets_returns (n := 2 ^ k) (m := rawBuckets (2 ^ k) junk) (by simp +contextual [rawBuckets])
  refine ⟨⟨2 ^ k, m, fun _ => none⟩, ⟨2 ^ k, List.replicate (2 ^ k) []⟩, ?_, if_neg hcond, rfl, ?_,
    ?_, ?_, ?_⟩
  · rw [HashHeap.hashTableCreate, if_neg hcond, hm]
    rfl
  · intro i hi
    exact ⟨List.nodup_singleton _, .cons (hjoined i hi) .nil⟩
  · intro i hi
    rw [getD_replicate_nil]
    rfl
  · simp
  · intro a _
    exact hsame (.elem a) (by simp)

/-! ## Runs -/

inductive HashOp (α : Type)
  | add (key : UInt32) (object : α)
  | remove (key : UInt32)
  | find (key : UInt32)

/-- What an operation returns: an `int`, or an object, where `none` is `NULL`. -/
inductive HashResult (α : Type)
  | code (r : ℤ)
  | object (o : Option α)

/-- An operation, where `malloc` gives the memory at `a` with the list head `junk`. -/
def HashHeap.exec (h : HashHeap α) (fuel a : ℕ) (junk : ListHead HashNode) :
    HashOp α → Option (HashResult α × HashHeap α)
  | .add key object => (h.hashTableAdd fuel a junk key object).map fun r => (.code r.1, r.2)
  | .remove key => (h.hashTableRemove fuel key).map fun r => (.object r.1, r.2)
  | .find key => (h.hashTableFind fuel key).map fun r => (.object r, h)

def HashHeap.Executes (h : HashHeap α) (a : ℕ) (junk : ListHead HashNode) (op : HashOp α)
    (r : HashResult α) (h' : HashHeap α) : Prop :=
  ∃ fuel, h.exec fuel a junk op = some (r, h')

/-- The operations of a run with their results. Every allocation gives memory that is free. -/
inductive HashRun : HashHeap α → List (HashOp α × HashResult α) → HashHeap α → Prop
  | nil (h : HashHeap α) : HashRun h [] h
  | cons {h h' h'' : HashHeap α} {op : HashOp α} {r : HashResult α}
      {trace : List (HashOp α × HashResult α)} (a : ℕ) (junk : ListHead HashNode)
      (hfree : h.elem a = none) (hexec : h.Executes a junk op r h') (hrun : HashRun h' trace h'') :
      HashRun h ((op, r) :: trace) h''

namespace HashHeap

variable {h h₁ h₂ : HashHeap α} {a : ℕ} {junk : ListHead HashNode} {op : HashOp α}
  {r₁ r₂ : HashResult α}

theorem exec_succ {fuel : ℕ} {r : HashResult α × HashHeap α} (hr : h.exec fuel a junk op = some r) :
    h.exec (fuel + 1) a junk op = some r := by
  cases op with
  | add key object =>
    obtain ⟨s, hs, rfl⟩ := Option.map_eq_some_iff.mp hr
    exact Option.map_eq_some_iff.mpr ⟨s, bind_mono (fun l hs => addLoop_succ hs) hs, rfl⟩
  | remove key =>
    obtain ⟨s, hs, rfl⟩ := Option.map_eq_some_iff.mp hr
    exact Option.map_eq_some_iff.mpr ⟨s, bind_mono (fun l hs => removeLoop_succ hs) hs, rfl⟩
  | find key =>
    obtain ⟨s, hs, rfl⟩ := Option.map_eq_some_iff.mp hr
    exact Option.map_eq_some_iff.mpr ⟨s, bind_mono (fun l hs => findLoop_succ hs) hs, rfl⟩

theorem exec_mono {fuel fuel' : ℕ} {r : HashResult α × HashHeap α}
    (hr : h.exec fuel a junk op = some r) (hle : fuel ≤ fuel') :
    h.exec fuel' a junk op = some r := by
  induction fuel', hle using Nat.le_induction with
  | base => exact hr
  | succ fuel' _ ih => exact exec_succ ih

theorem Executes.unique (hexec₁ : h.Executes a junk op r₁ h₁)
    (hexec₂ : h.Executes a junk op r₂ h₂) : r₁ = r₂ ∧ h₁ = h₂ := by
  obtain ⟨fuel₁, heq₁⟩ := hexec₁
  obtain ⟨fuel₂, heq₂⟩ := hexec₂
  have hmax := exec_mono heq₁ (le_max_left fuel₁ fuel₂)
  rw [exec_mono heq₂ (le_max_right fuel₁ fuel₂), Option.some.injEq, Prod.mk.injEq] at hmax
  exact ⟨hmax.1.symm, hmax.2.symm⟩

end HashHeap

/-- What the operation does to a partial map. -/
def HashOp.apply (m : UInt32 → Option α) : HashOp α → HashResult α × (UInt32 → Option α)
  | .add key object =>
    match m key with
    | some _ => (.code (-2), m)
    | none => (.code 0, Function.update m key (some object))
  | .remove key => (.object (m key), Function.update m key none)
  | .find key => (.object (m key), m)

def mapResults (m : UInt32 → Option α) : List (HashOp α) → List (HashResult α)
  | [] => []
  | op :: ops => (op.apply m).1 :: mapResults (op.apply m).2 ops

/-- Every bucket list is strictly ascending and holds only keys congruent to its index. -/
def HashHeap.Ordered (h : HashHeap α) : Prop :=
  ∀ i < h.bucketSize, ∃ (as : List ℕ) (es : List (HashElement α)),
    Circle h.list (.bucket i) (as.map .elem) ∧ as.map h.elem = es.map some ∧ Ascending es ∧
      ∀ e ∈ es, e.key.toNat % h.bucketSize = i

/-- The table in memory is the partial map `m`. -/
def Models (h : HashHeap α) (m : UInt32 → Option α) : Prop :=
  ∃ ht addrs, Stores h ht addrs ∧ ht.WellFormed ∧ hashTableFind ht = m

namespace Models

variable {h : HashHeap α} {m : UInt32 → Option α}

theorem ordered (hm : Models h m) : h.Ordered := by
  obtain ⟨ht, addrs, hs, hwf, -⟩ := hm
  intro i hi
  rw [hs.size] at hi ⊢
  have hlt : i < ht.buckets.length := hwf.length ▸ hi
  refine ⟨addrs i, ht.buckets.getD i [], hs.circle i hi, hs.elems i hi, ?_, hwf.congruent i⟩
  rw [List.getD_eq_getElem _ _ hlt]
  exact hwf.ascending _ (List.getElem_mem hlt)

/-- Every operation returns what it does on the map, and one that fails changes nothing. -/
theorem exec (hm : Models h m) {a : ℕ} (ha : h.elem a = none) (junk : ListHead HashNode)
    (op : HashOp α) : ∃ h', h.Executes a junk op (op.apply m).1 h' ∧ Models h' (op.apply m).2 ∧
      ((op.apply m).1 = .code (-2) → h' = h) := by
  obtain ⟨ht, addrs, hs, hwf, rfl⟩ := hm
  cases op with
  | add key object =>
    obtain ⟨⟨r, h'⟩, heq, hr, hfails, addrs', hs'⟩ :=
      hs.add hwf ha junk key object (Nat.lt_succ_self _)
    cases hfind : hashTableFind ht key with
    | none =>
      obtain ⟨ht', hadd, hwf', hmap⟩ := hwf.add_find object hfind
      rw [hadd] at hr hs'
      subst hr
      simp only [HashOp.apply, hfind]
      refine ⟨h', ⟨_, Option.map_eq_some_iff.mpr ⟨_, heq, rfl⟩⟩, ⟨ht', addrs', hs', hwf', hmap⟩, ?_⟩
      simp
    | some y =>
      have hadd := HashTable.add_eq_neg_two object (by rw [hfind]; rfl)
      rw [hadd] at hr
      subst hr
      obtain rfl := hfails rfl
      simp only [HashOp.apply, hfind]
      exact ⟨h', ⟨_, Option.map_eq_some_iff.mpr ⟨_, heq, rfl⟩⟩, ⟨ht, addrs, hs, hwf, rfl⟩,
        fun _ => rfl⟩
  | remove key =>
    obtain ⟨⟨o, h'⟩, heq, ho, addrs', hs'⟩ := hs.remove hwf key (Nat.lt_succ_self _)
    obtain ⟨hwf', hobject, hmap⟩ := hwf.remove_find key
    have ho' : o = hashTableFind ht key := ho.trans hobject
    subst ho'
    exact ⟨h', ⟨_, Option.map_eq_some_iff.mpr ⟨_, heq, rfl⟩⟩, ⟨_, addrs', hs', hwf', hmap⟩, nofun⟩
  | find key =>
    have heq := hs.find hwf key (Nat.lt_succ_self _)
    exact ⟨h, ⟨_, Option.map_eq_some_iff.mpr ⟨_, heq, rfl⟩⟩, ⟨ht, addrs, hs, hwf, rfl⟩, nofun⟩

theorem run {h' : HashHeap α} {trace : List (HashOp α × HashResult α)}
    (hrun : HashRun h trace h') (hm : Models h m) :
    trace.map Prod.snd = mapResults m (trace.map Prod.fst) ∧ ∃ m', Models h' m' := by
  induction hrun generalizing m with
  | nil h => exact ⟨rfl, m, hm⟩
  | cons a junk hfree hexec _ ih =>
    obtain ⟨h₁, hexec₁, hm₁, -⟩ := hm.exec hfree junk _
    obtain ⟨rfl, rfl⟩ := hexec.unique hexec₁
    obtain ⟨hresults, hlast⟩ := ih hm₁
    refine ⟨?_, hlast⟩
    rw [List.map_cons, List.map_cons, mapResults, hresults]

end Models

/-- Every run of operations on a created table gives the results of a partial map, and leaves all
bucket lists in order. Every operation ends, and one that finds its key bound changes nothing. -/
theorem hash_table_refines_map (α : Type) (k : ℕ) (junk : ℕ → ListHead HashNode) :
    ∃ h₀ : HashHeap α, HashHeap.hashTableCreate α (2 ^ k) junk = some (some h₀) ∧
      ∀ trace h, HashRun h₀ trace h →
        trace.map Prod.snd = mapResults (fun _ => none) (trace.map Prod.fst) ∧ h.Ordered ∧
          ∀ a, h.elem a = none → ∀ junk' op, ∃ r h', h.Executes a junk' op r h' ∧
            (r = .code (-2) → h' = h) := by
  obtain ⟨h₀, ht, hcreate, hcreate', hs⟩ := create_stores (α := α) k junk
  have hmap : hashTableFind ht = fun _ => none := by
    funext key
    rw [Option.eq_none_iff_forall_ne_some]
    intro x hx
    have hwf := HashTable.create_wellFormed hcreate'
    exact HashTable.create_binds hcreate' key x (hwf.find_eq_some.mp hx)
  have hm : Models h₀ fun _ => none :=
    ⟨ht, _, hs, HashTable.create_wellFormed hcreate', hmap⟩
  refine ⟨h₀, hcreate, fun trace h hrun => ?_⟩
  obtain ⟨hresults, m, hlast⟩ := Models.run hrun hm
  refine ⟨hresults, hlast.ordered, fun a ha junk' op => ?_⟩
  obtain ⟨h', hexec, -, hfails⟩ := hlast.exec ha junk' op
  exact ⟨_, h', hexec, hfails⟩

end Cserv.Util
