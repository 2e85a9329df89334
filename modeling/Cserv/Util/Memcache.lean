import Cserv.Foundations.Heap
import Cserv.Foundations.Returns
import Cserv.Foundations.Transition

/-!
# The object cache

`util/memcache.c` keeps objects that were given back in an array, up to a fixed number, and hands
them out again before it asks `malloc`. A pointer is its address, with 0 for `NULL`. The functions
fail where C leaves their effect undefined: at a cell outside the array, and at a `free` of what is
no live block.
-/
namespace Cserv.Util

open Foundations Relation

/-- `struct memcache` at `addr`; `elements` are the cells of the array behind it. -/
structure Memcache where
  addr : ℕ
  objSize : ℕ
  cacheSize : ℤ
  curr : ℤ
  elements : List ℕ

abbrev Allocator : Type := (n : ℕ) → (h : Heap) → (size : ℕ) → h.Answer size

namespace Memcache

variable (cache : Memcache) (heap : Heap)

def load (i : ℤ) : Option ℕ := if 0 ≤ i then cache.elements[i.toNat]? else none

def store (i : ℤ) (element : ℕ) : Option (List ℕ) :=
  if 0 ≤ i ∧ i < cache.elements.length then some (cache.elements.set i.toNat element) else none

def addElement (element : ℕ) : Option (Memcache × Heap) :=
  if cache.curr < cache.cacheSize then do
    let elements ← cache.store cache.curr element
    return ({ cache with elements := elements, curr := cache.curr + 1 }, heap)
  else do
    let heap ← heap.free element
    return (cache, heap)

def removeElement : Option (ℕ × Memcache) := do
  let element ← cache.load (cache.curr - 1)
  return (element, { cache with curr := cache.curr - 1 })

/-- The loop of `free_pool`, for at most `fuel` rounds. -/
def freeLoop : ℕ → Memcache → Heap → Option Heap
  | 0, cache, heap => if cache.curr = 0 then some heap else none
  | fuel + 1, cache, heap =>
    if cache.curr = 0 then
      some heap
    else do
      let (element, cache) ← cache.removeElement
      let heap ← heap.free element
      freeLoop fuel cache heap

def freePool : Option Heap := do
  let heap ← freeLoop cache.curr.toNat cache heap
  heap.free cache.addr

/-- The loop of `memcache_create` from the `n`-th call of `malloc` on, for at most `fuel` rounds. -/
def createLoop (malloc : Allocator) (maxCacheSize : ℤ) :
    ℕ → ℕ → Memcache → Heap → Option (Option Memcache × Heap)
  | 0, _, _, _ => none
  | fuel + 1, n, cache, heap =>
    if cache.curr < maxCacheSize then
      let element := malloc n heap cache.objSize
      let heap := heap.malloc cache.objSize element
      if element.addr = 0 then do
        let heap ← cache.freePool heap
        return (none, heap)
      else do
        let (cache, heap) ← cache.addElement heap element.addr
        createLoop malloc maxCacheSize fuel (n + 1) cache heap
    else
      some (some cache, heap)

end Memcache

open Memcache

/-- `sizeof(struct memcache) + max_cache_size * sizeof(void *)`. -/
def createSize (maxCacheSize : ℤ) : ℕ := ((24 + maxCacheSize * 8) % 2 ^ 64).toNat

/-- `memcache_create`, where a failed assertion is a failure. New memory holds `garbage`. -/
def memcacheCreate (malloc : Allocator) (garbage : ℕ → ℕ) (heap : Heap) (objSize : ℕ)
    (maxCacheSize : ℤ) : Option (Option Memcache × Heap) :=
  if maxCacheSize < 2 then
    none
  else
    let size := createSize maxCacheSize
    let cache := malloc 0 heap size
    let heap := heap.malloc size cache
    if cache.addr = 0 then
      some (none, heap)
    else
      createLoop malloc (maxCacheSize >>> (2 : ℕ)) ((maxCacheSize >>> (2 : ℕ)).toNat + 1) 1
        ⟨cache.addr, objSize, maxCacheSize, 0, (List.range ((size - 24) / 8)).map garbage⟩ heap

def memcacheDestroy (cache : Memcache) (heap : Heap) : Option Heap := cache.freePool heap

/-- `memcache_alloc`, with the answer of `malloc` if it is called. -/
def memcacheAlloc (cache : Memcache) (heap : Heap) (answer : heap.Answer cache.objSize) :
    Option (ℕ × Memcache × Heap) :=
  if cache.curr ≠ 0 then do
    let (element, cache) ← cache.removeElement
    return (element, cache, heap)
  else
    some (answer.addr, cache, heap.malloc cache.objSize answer)

def memcacheFree (cache : Memcache) (heap : Heap) (element : ℕ) : Option (Memcache × Heap) :=
  cache.addElement heap element

/-! ## Who owns which object -/

def Memcache.cached (cache : Memcache) : List ℕ := cache.elements.take cache.curr.toNat

/-- The cache and its clients own different live blocks, and the array has its size. -/
structure Owns (heap : Heap) (cache : Memcache) (held : List ℕ) : Prop where
  curr_nonneg : 0 ≤ cache.curr
  curr_le : cache.curr ≤ cache.cacheSize
  length : cache.elements.length = cache.cacheSize
  block : ∃ size, ⟨cache.addr, size⟩ ∈ heap.live
  nodup : (cache.addr :: (cache.cached ++ held)).Nodup
  live : ∀ p ∈ cache.cached ++ held, ⟨p, cache.objSize⟩ ∈ heap.live

/-- The fields that only `memcache_create` sets. -/
structure Memcache.Alike (cache cache' : Memcache) : Prop where
  addr : cache'.addr = cache.addr
  objSize : cache'.objSize = cache.objSize
  cacheSize : cache'.cacheSize = cache.cacheSize

namespace Owns

variable {heap heap' : Heap} {cache : Memcache} {held held' : List ℕ} {element : ℕ}

theorem perm (h : Owns heap cache held) (hperm : held.Perm held') : Owns heap cache held' where
  curr_nonneg := h.curr_nonneg
  curr_le := h.curr_le
  length := h.length
  block := h.block
  nodup := ((hperm.append_left _).cons _).nodup_iff.mp h.nodup
  live p hp := h.live p ((hperm.append_left _).mem_iff.mpr hp)

theorem frame (h : Owns heap cache held)
    (hlive : ∀ b ∈ heap.live, b.addr ∈ cache.addr :: (cache.cached ++ held) → b ∈ heap'.live) :
    Owns heap' cache held where
  curr_nonneg := h.curr_nonneg
  curr_le := h.curr_le
  length := h.length
  block := by
    obtain ⟨size, hsize⟩ := h.block
    exact ⟨size, hlive _ hsize List.mem_cons_self⟩
  nodup := h.nodup
  live p hp := hlive _ (h.live p hp) (List.mem_cons_of_mem _ hp)

theorem drop (h : Owns heap cache (element :: held)) : Owns heap cache held := by
  have hsub : (cache.addr :: (cache.cached ++ held)).Sublist
      (cache.addr :: (cache.cached ++ element :: held)) :=
    ((List.sublist_cons_self element held).append_left _).cons_cons _
  constructor
  · exact h.curr_nonneg
  · exact h.curr_le
  · exact h.length
  · exact h.block
  · exact h.nodup.sublist hsub
  · intro p hp
    exact h.live p (((List.sublist_cons_self element held).append_left _).subset hp)

theorem notMem_of_held (h : Owns heap cache (element :: held)) :
    element ∉ cache.addr :: (cache.cached ++ held) := by
  have hperm : (cache.addr :: (cache.cached ++ element :: held)).Perm
      (element :: cache.addr :: (cache.cached ++ held)) :=
    (List.perm_middle.cons _).trans (.swap ..)
  exact (List.nodup_cons.mp (hperm.nodup_iff.mp h.nodup)).1

theorem release (h : Owns heap cache (element :: held)) :
    heap.free element = some (heap.release element) ∧
      Owns (heap.release element) cache held := by
  have hlive : ⟨element, cache.objSize⟩ ∈ heap.live := h.live element (by simp)
  refine ⟨Heap.free_of_mem hlive, h.drop.frame fun b hb hmem => ?_⟩
  refine Heap.mem_release.mpr ⟨hb, ?_⟩
  rintro rfl
  exact h.notMem_of_held hmem

theorem malloc (h : Owns heap cache held) (a : heap.Answer cache.objSize) (ha : a.addr ≠ 0) :
    Owns (heap.malloc cache.objSize a) cache (a.addr :: held) := by
  have hnew : a.addr ∉ cache.addr :: (cache.cached ++ held) := by
    intro hmem
    rcases List.mem_cons.mp hmem with haddr | hmem
    · obtain ⟨size, hsize⟩ := h.block
      exact a.fresh hsize haddr.symm
    · exact a.fresh (h.live _ hmem) rfl
  have hperm : (a.addr :: cache.addr :: (cache.cached ++ held)).Perm
      (cache.addr :: (cache.cached ++ a.addr :: held)) :=
    (List.Perm.swap ..).trans (List.perm_middle.symm.cons _)
  have hframe : Owns (heap.malloc cache.objSize a) cache held :=
    h.frame fun b hb _ => Heap.mem_malloc.mpr (Or.inr hb)
  constructor
  · exact h.curr_nonneg
  · exact h.curr_le
  · exact h.length
  · exact hframe.block
  · exact hperm.nodup_iff.mp (List.nodup_cons.mpr ⟨hnew, h.nodup⟩)
  · intro p hp
    rcases List.mem_cons.mp (List.perm_middle.mem_iff.mp hp) with rfl | hp
    · exact Heap.mem_malloc.mpr (Or.inl ⟨ha, rfl⟩)
    · exact hframe.live p hp

theorem removeElement (h : Owns heap cache held) (hcurr : cache.curr ≠ 0) :
    Returns cache.removeElement fun r =>
      Owns heap r.2 (r.1 :: held) ∧ cache.Alike r.2 ∧ cache.cached = r.2.cached ++ [r.1] ∧
        r.2.curr = cache.curr - 1 := by
  have hpos := h.curr_nonneg
  have hle := h.curr_le
  have hlen := h.length
  obtain ⟨n, hn⟩ : ∃ n : ℕ, cache.curr = n + 1 := ⟨(cache.curr - 1).toNat, by omega⟩
  have hlt : n < cache.elements.length := by omega
  have hload : cache.load (cache.curr - 1) = some cache.elements[n] := by
    rw [load, if_pos (by omega), show (cache.curr - 1).toNat = n by omega,
      List.getElem?_eq_getElem hlt]
  refine Returns.step hload (Returns.some ?_)
  have hcached : cache.cached = { cache with curr := cache.curr - 1 }.cached ++
      [cache.elements[n]] := by
    simp only [cached, show (cache.curr - 1).toNat = n by omega,
      show cache.curr.toNat = n + 1 by omega, List.take_append_getElem]
  have hall : cache.cached ++ held = { cache with curr := cache.curr - 1 }.cached ++
      cache.elements[n] :: held := by
    rw [hcached, List.append_assoc, List.singleton_append]
  refine ⟨⟨?_, ?_, h.length, h.block, ?_, ?_⟩, ⟨rfl, rfl, rfl⟩, hcached, rfl⟩
  · dsimp only
    omega
  · dsimp only
    omega
  · rw [← hall]
    exact h.nodup
  · rw [← hall]
    exact h.live

theorem addElement_room (h : Owns heap cache (element :: held))
    (hroom : cache.curr < cache.cacheSize) :
    Returns (cache.addElement heap element) fun r =>
      Owns heap r.1 held ∧ cache.Alike r.1 ∧ r.1.cached = cache.cached ++ [element] ∧
        r.1.curr = cache.curr + 1 ∧ r.2 = heap := by
  have hpos := h.curr_nonneg
  have hlen := h.length
  obtain ⟨n, hn⟩ : ∃ n : ℕ, cache.curr = n := ⟨cache.curr.toNat, by omega⟩
  have hstore : cache.store cache.curr element = some (cache.elements.set n element) := by
    rw [store, if_pos (by omega), hn, Int.toNat_natCast]
  rw [addElement, if_pos hroom]
  refine Returns.step hstore (Returns.some ?_)
  have hcached : Memcache.cached { cache with
      elements := cache.elements.set n element, curr := cache.curr + 1 } =
        cache.cached ++ [element] := by
    have hlt : n < (cache.elements.set n element).length := by
      rw [List.length_set]
      omega
    simp only [cached, hn, Int.toNat_natCast_add_one, Int.toNat_natCast]
    rw [← List.take_append_getElem hlt, List.getElem_set_self, List.take_set_of_le le_rfl]
  have hall : cache.cached ++ [element] ++ held = cache.cached ++ element :: held :=
    List.append_cons .. |>.symm
  refine ⟨⟨?_, ?_, ?_, h.block, ?_, ?_⟩, ⟨rfl, rfl, rfl⟩, hcached, rfl, rfl⟩
  · dsimp only
    omega
  · dsimp only
    omega
  · dsimp only
    rw [List.length_set, hlen]
  · rw [hcached, hall]
    exact h.nodup
  · rw [hcached, hall]
    exact h.live

theorem addElement (h : Owns heap cache (element :: held)) :
    Returns (cache.addElement heap element) fun r => Owns r.2 r.1 held ∧ cache.Alike r.1 := by
  by_cases hroom : cache.curr < cache.cacheSize
  · refine (h.addElement_room hroom).mono ?_
    rintro ⟨cache', heap'⟩ ⟨hown, halike, -, -, rfl⟩
    exact ⟨hown, halike⟩
  · obtain ⟨hfree, hown⟩ := h.release
    rw [Memcache.addElement, if_neg hroom]
    exact Returns.step hfree (Returns.some ⟨hown, rfl, rfl, rfl⟩)

/-- The loop of `free_pool` frees the objects in the cache and no others. -/
theorem freeLoop (h : Owns heap cache held) {fuel : ℕ} (hfuel : cache.curr = fuel) :
    Returns (freeLoop fuel cache heap) fun heap' =>
      ∀ b, b ∈ heap'.live ↔ b ∈ heap.live ∧ b.addr ∉ cache.cached := by
  induction fuel generalizing cache heap with
  | zero =>
    have hzero : cache.curr = 0 := hfuel
    have hcached : cache.cached = [] := by rw [cached, hzero, Int.toNat_zero, List.take_zero]
    rw [Memcache.freeLoop, if_pos hzero]
    exact Returns.some fun b => by simp [hcached]
  | succ fuel ih =>
    have hcurr : cache.curr ≠ 0 := by omega
    rw [Memcache.freeLoop, if_neg hcurr]
    refine (h.removeElement hcurr).bind ?_
    rintro ⟨element, cache'⟩ ⟨hown, -, hcached, hcurr'⟩
    dsimp only at hown hcached hcurr' ⊢
    obtain ⟨hfree, hown⟩ := hown.release
    refine Returns.step hfree ((ih hown (by omega)).mono fun heap' hheap' b => ?_)
    rw [hheap', Heap.mem_release, hcached]
    simp only [List.mem_append, List.mem_singleton, not_or]
    tauto

/-- `free_pool` frees the cache and the objects in it. What the clients hold stays live. -/
theorem freePool (h : Owns heap cache held) :
    Returns (cache.freePool heap) fun heap' =>
      ∀ b, b ∈ heap'.live ↔ b ∈ heap.live ∧ b.addr ∉ cache.addr :: cache.cached := by
  have hcurr := h.curr_nonneg
  have hfuel : cache.curr = cache.curr.toNat := (Int.toNat_of_nonneg hcurr).symm
  refine (h.freeLoop hfuel).bind fun heap' hheap' => ?_
  obtain ⟨size, hsize⟩ := h.block
  have hcached : cache.addr ∉ cache.cached := fun hmem =>
    (List.nodup_cons.mp h.nodup).1 (List.mem_append_left _ hmem)
  have hblock : ⟨cache.addr, size⟩ ∈ heap'.live := (hheap' _).mpr ⟨hsize, hcached⟩
  refine ⟨_, Heap.free_of_mem hblock, fun b => ?_⟩
  rw [Heap.mem_release, hheap', List.mem_cons]
  tauto

end Owns

/-! ## Creation -/

/-- The heap has the blocks of `heap₀`, and besides those only what the cache owns. -/
def Memcache.Grown (heap₀ heap : Heap) (cache : Memcache) : Prop :=
  ∀ b, b ∈ heap₀.live ↔ b ∈ heap.live ∧ b.addr ∉ cache.addr :: cache.cached

/-- `memcache_create` gives a cache that owns a quarter of the objects it can hold, or gives back
all memory when `malloc` fails. -/
def Created (malloc : Allocator) (heap₀ : Heap) (objSize : ℕ) (maxCacheSize : ℤ)
    (r : Option Memcache × Heap) : Prop :=
  match r.1 with
  | none => (∃ n h size, (malloc n h size).addr = 0) ∧ ∀ b, b ∈ r.2.live ↔ b ∈ heap₀.live
  | some cache => Owns r.2 cache [] ∧ Grown heap₀ r.2 cache ∧ cache.objSize = objSize ∧
      cache.cacheSize = maxCacheSize ∧ cache.curr = maxCacheSize >>> (2 : ℕ)

theorem createLoop_returns (malloc : Allocator) {heap₀ heap : Heap} {cache : Memcache}
    (h : Owns heap cache []) (hgrown : Grown heap₀ heap cache) {limit : ℤ}
    (hlimit : limit = cache.cacheSize >>> (2 : ℕ)) (hcurr : cache.curr ≤ limit) {fuel n : ℕ}
    (hfuel : (limit - cache.curr).toNat < fuel) :
    Returns (createLoop malloc limit fuel n cache heap)
      (Created malloc heap₀ cache.objSize cache.cacheSize) := by
  induction fuel generalizing n cache heap with
  | zero => omega
  | succ fuel ih =>
    rw [createLoop]
    dsimp only
    split_ifs with hlt hzero
    · -- `malloc` has failed, and left the heap as it was
      rw [Heap.malloc_null hzero]
      refine h.freePool.bind fun heap' hheap' => Returns.some ⟨⟨_, _, _, hzero⟩, fun b => ?_⟩
      rw [hheap', hgrown]
    · have hroom : cache.curr < cache.cacheSize := by
        have hnonneg := h.curr_nonneg
        rw [Int.shiftRight_eq_div_pow] at hlimit
        omega
      refine ((h.malloc _ hzero).addElement_room hroom).bind ?_
      rintro ⟨cache', heap'⟩ ⟨hown, halike, hcached, hcurr', rfl⟩
      dsimp only at hown hcached hcurr' halike ⊢
      have hgrown' : Grown heap₀ (heap.malloc cache.objSize (malloc n heap cache.objSize)) cache' := by
        intro b
        rw [hgrown, Heap.mem_iff_malloc (malloc n heap cache.objSize), halike.addr, hcached]
        simp only [List.mem_cons, List.mem_append, List.not_mem_nil, or_false, not_or]
        tauto
      have hrest := ih hown hgrown' (by rw [hlimit, halike.cacheSize]) (by omega) (n := n + 1)
        (by omega)
      rw [halike.objSize, halike.cacheSize] at hrest
      exact hrest
    · exact Returns.some ⟨h, hgrown, rfl, rfl, (hcurr.antisymm (not_lt.mp hlt)).trans hlimit⟩

theorem createSize_eq {maxCacheSize : ℤ} (hmax : 2 ≤ maxCacheSize) (hint : maxCacheSize < 2 ^ 31) :
    (createSize maxCacheSize - 24) / 8 = maxCacheSize.toNat := by
  unfold createSize
  omega

theorem memcacheCreate_returns (malloc : Allocator) (garbage : ℕ → ℕ) (heap : Heap) (objSize : ℕ)
    {maxCacheSize : ℤ} (hmax : 2 ≤ maxCacheSize) (hint : maxCacheSize < 2 ^ 31) :
    Returns (memcacheCreate malloc garbage heap objSize maxCacheSize)
      (Created malloc heap objSize maxCacheSize) := by
  rw [memcacheCreate, if_neg (by omega)]
  dsimp only
  split_ifs with hzero
  · rw [Heap.malloc_null hzero]
    exact Returns.some ⟨⟨_, _, _, hzero⟩, fun b => Iff.rfl⟩
  · generalize malloc 0 heap (createSize maxCacheSize) = answer at hzero ⊢
    have hlimit : 0 ≤ maxCacheSize >>> (2 : ℕ) := by
      rw [Int.shiftRight_eq_div_pow]
      omega
    have hlength : (((List.range ((createSize maxCacheSize - 24) / 8)).map garbage).length : ℤ) =
        maxCacheSize := by
      rw [List.length_map, List.length_range, createSize_eq hmax hint]
      omega
    have hown : Owns (heap.malloc (createSize maxCacheSize) answer)
        ⟨answer.addr, objSize, maxCacheSize, 0,
          (List.range ((createSize maxCacheSize - 24) / 8)).map garbage⟩ [] := by
      refine ⟨le_rfl, ?_, hlength, ?_, by simp [cached], by simp [cached]⟩
      · dsimp only
        omega
      · exact ⟨_, Heap.mem_malloc.mpr (Or.inl ⟨hzero, rfl⟩)⟩
    refine createLoop_returns malloc hown (fun b => ?_) rfl hlimit (by simp)
    rw [Heap.mem_iff_malloc answer]
    simp [cached]

theorem memcacheDestroy_create (malloc : Allocator) (garbage : ℕ → ℕ) {heap heap' : Heap}
    (objSize : ℕ) {maxCacheSize : ℤ} (hmax : 2 ≤ maxCacheSize) (hint : maxCacheSize < 2 ^ 31)
    {cache : Memcache}
    (hcreate : memcacheCreate malloc garbage heap objSize maxCacheSize = some (some cache, heap')) :
    Returns (memcacheDestroy cache heap') fun heap'' =>
      ∀ b, b ∈ heap''.live ↔ b ∈ heap.live := by
  obtain ⟨r, hr, hcreated⟩ := memcacheCreate_returns malloc garbage heap objSize hmax hint
  obtain rfl := Option.some.inj (hr.symm.trans hcreate)
  obtain ⟨hown, hgrown, -⟩ := hcreated
  refine hown.freePool.mono fun heap'' hheap b => ?_
  rw [hheap, hgrown]

/-! ## Runs -/

structure CacheState where
  heap : Heap
  cache : Memcache
  held : List ℕ

/-- The calls for the cache, where clients free only what they hold, and what the rest of the program
does to the heap. -/
inductive CacheStep : CacheState → CacheState → Prop
  | alloc (s : CacheState) (answer : s.heap.Answer s.cache.objSize) {p : ℕ} {cache : Memcache}
      {heap : Heap} (hcall : memcacheAlloc s.cache s.heap answer = some (p, cache, heap)) :
      CacheStep s ⟨heap, cache, if p = 0 then s.held else p :: s.held⟩
  | free (s : CacheState) {element : ℕ} (hheld : element ∈ s.held) {cache : Memcache} {heap : Heap}
      (hcall : memcacheFree s.cache s.heap element = some (cache, heap)) :
      CacheStep s ⟨heap, cache, s.held.erase element⟩
  | mallocElsewhere (s : CacheState) (size : ℕ) (answer : s.heap.Answer size) :
      CacheStep s { s with heap := s.heap.malloc size answer }
  | freeElsewhere (s : CacheState) {p : ℕ}
      (hother : p ∉ s.cache.addr :: (s.cache.cached ++ s.held)) {heap : Heap}
      (hcall : s.heap.free p = some heap) : CacheStep s { s with heap := heap }

/-- `memcache_alloc` returns an object that no client holds, from the cache or from `malloc`. -/
theorem Owns.memcacheAlloc {heap : Heap} {cache : Memcache} {held : List ℕ}
    (h : Owns heap cache held) (answer : heap.Answer cache.objSize) :
    Returns (memcacheAlloc cache heap answer) fun r =>
      Owns r.2.2 r.2.1 (if r.1 = 0 then held else r.1 :: held) ∧ cache.Alike r.2.1 ∧
        r.1 ∉ held := by
  rw [Util.memcacheAlloc]
  split_ifs with hcurr
  · refine (h.removeElement hcurr).bind ?_
    rintro ⟨p, cache'⟩ ⟨hown, halike, -, -⟩
    dsimp only at hown halike ⊢
    have hne : p ≠ 0 := heap.nonnull _ (hown.live p (by simp))
    have hnot : p ∉ held := fun hp =>
      hown.notMem_of_held (List.mem_cons_of_mem _ (List.mem_append_right _ hp))
    refine Returns.some ⟨?_, halike, hnot⟩
    rw [if_neg hne]
    exact hown
  · have hnot : answer.addr ∉ held := fun hp =>
      answer.fresh (h.live _ (List.mem_append_right _ hp)) rfl
    refine Returns.some ⟨?_, ⟨rfl, rfl, rfl⟩, hnot⟩
    dsimp only
    split_ifs with hzero
    · rw [Heap.malloc_null hzero]
      exact h
    · exact h.malloc answer hzero

theorem Owns.memcacheFree {heap : Heap} {cache : Memcache} {held : List ℕ} {element : ℕ}
    (h : Owns heap cache held) (hheld : element ∈ held) :
    Returns (memcacheFree cache heap element) fun r =>
      Owns r.2 r.1 (held.erase element) ∧ cache.Alike r.1 :=
  (h.perm (List.perm_cons_erase hheld)).addElement

/-- What is in the cache after `memcache_alloc` was there before, and so was the object it returns
unless `malloc` was asked. -/
theorem memcacheAlloc_cached {heap heap' : Heap} {cache cache' : Memcache} {held : List ℕ}
    {p : ℕ} (h : Owns heap cache held) {answer : heap.Answer cache.objSize}
    (hcall : memcacheAlloc cache heap answer = some (p, cache', heap')) :
    (cache.curr ≠ 0 → p ∈ cache.cached) ∧ ∀ q ∈ cache'.cached, q ∈ cache.cached := by
  rw [memcacheAlloc] at hcall
  split_ifs at hcall with hcurr
  · obtain ⟨r, hr, -, -, hcached, -⟩ := h.removeElement hcurr
    rw [hr] at hcall
    cases hcall
    rw [hcached]
    exact ⟨fun _ => List.mem_append_right _ (List.mem_singleton_self _),
      fun q hq => List.mem_append_left _ hq⟩
  · cases hcall
    exact ⟨fun hne => absurd hne hcurr, fun q hq => hq⟩

theorem memcacheFree_cached {heap heap' : Heap} {cache cache' : Memcache} {held : List ℕ}
    {p : ℕ} (h : Owns heap cache held) (hheld : p ∈ held)
    (hcall : memcacheFree cache heap p = some (cache', heap')) :
    ∀ q ∈ cache'.cached, q = p ∨ q ∈ cache.cached := by
  have hown := h.perm (List.perm_cons_erase hheld)
  rw [memcacheFree] at hcall
  intro q hq
  by_cases hroom : cache.curr < cache.cacheSize
  · obtain ⟨r, hr, -, -, hcached, -⟩ := hown.addElement_room hroom
    cases hr.symm.trans hcall
    rw [hcached, List.mem_append, List.mem_singleton] at hq
    exact hq.symm
  · rw [addElement, if_neg hroom, hown.release.1] at hcall
    cases hcall
    exact Or.inr hq

structure CacheInv (objSize : ℕ) (maxCacheSize : ℤ) (s : CacheState) : Prop where
  owns : Owns s.heap s.cache s.held
  objSize : s.cache.objSize = objSize
  cacheSize : s.cache.cacheSize = maxCacheSize

theorem CacheInv.step {objSize : ℕ} {maxCacheSize : ℤ} (s t : CacheState)
    (h : CacheInv objSize maxCacheSize s) (hstep : CacheStep s t) :
    CacheInv objSize maxCacheSize t := by
  cases hstep with
  | alloc answer hcall =>
    obtain ⟨r, hr, hown, halike, -⟩ := h.owns.memcacheAlloc answer
    obtain rfl := Option.some.inj (hr.symm.trans hcall)
    exact ⟨hown, halike.objSize.trans h.objSize, halike.cacheSize.trans h.cacheSize⟩
  | free hheld hcall =>
    obtain ⟨r, hr, hown, halike⟩ := h.owns.memcacheFree hheld
    obtain rfl := Option.some.inj (hr.symm.trans hcall)
    exact ⟨hown, halike.objSize.trans h.objSize, halike.cacheSize.trans h.cacheSize⟩
  | mallocElsewhere size answer =>
    exact ⟨h.owns.frame fun b hb _ => Heap.mem_malloc.mpr (Or.inr hb), h.objSize, h.cacheSize⟩
  | freeElsewhere hother hcall =>
    refine ⟨h.owns.frame fun b hb hmem => ?_, h.objSize, h.cacheSize⟩
    refine Heap.mem_of_free hcall hb ?_
    rintro rfl
    exact hother hmem

/-- In every run from `memcache_create`, the number of cached objects is in bounds, the cached objects
are different live blocks of the object size that no client holds, and no call is undefined or hands
out an object that a client holds already. -/
theorem memcache_ownership (malloc : Allocator) (garbage : ℕ → ℕ) (heap : Heap) (objSize : ℕ)
    (maxCacheSize : ℤ) (hmax : 2 ≤ maxCacheSize) (hint : maxCacheSize < 2 ^ 31) :
    ∃ r, memcacheCreate malloc garbage heap objSize maxCacheSize = some r ∧
      ∀ cache, r.1 = some cache → ∀ s, ReflTransGen CacheStep ⟨r.2, cache, []⟩ s →
        (0 ≤ s.cache.curr ∧ s.cache.curr ≤ s.cache.cacheSize ∧ s.cache.cacheSize = maxCacheSize) ∧
        s.cache.cached.Nodup ∧ (∀ p ∈ s.cache.cached, ⟨p, objSize⟩ ∈ s.heap.live) ∧
        (∀ p ∈ s.cache.cached, p ∉ s.held) ∧
        (∀ answer, ∃ p cache' heap', memcacheAlloc s.cache s.heap answer = some (p, cache', heap') ∧
          p ∉ s.held) ∧
        ∀ element ∈ s.held, ∃ cache' heap',
          memcacheFree s.cache s.heap element = some (cache', heap') := by
  obtain ⟨⟨created, heap'⟩, hr, hcreated⟩ :=
    memcacheCreate_returns malloc garbage heap objSize hmax hint
  refine ⟨_, hr, fun cache hcache s hrun => ?_⟩
  obtain rfl : created = some cache := hcache
  obtain ⟨hown, -, hobj, hsize, -⟩ := hcreated
  have hinv : CacheInv objSize maxCacheSize s :=
    run_invariant _ CacheInv.step ⟨hown, hobj, hsize⟩ hrun
  obtain ⟨hown, rfl, rfl⟩ := hinv
  have hnodup := (List.nodup_cons.mp hown.nodup).2
  refine ⟨⟨hown.curr_nonneg, hown.curr_le, rfl⟩, hnodup.of_append_left, ?_, ?_, ?_, ?_⟩
  · intro p hp
    exact hown.live p (List.mem_append_left _ hp)
  · intro p hp hheld
    exact List.disjoint_of_nodup_append hnodup hp hheld
  · intro answer
    obtain ⟨⟨p, cache', heap'⟩, hcall, -, -, hnot⟩ := hown.memcacheAlloc answer
    exact ⟨p, cache', heap', hcall, hnot⟩
  · intro element hheld
    obtain ⟨⟨cache', heap'⟩, hcall, -⟩ := hown.memcacheFree hheld
    exact ⟨cache', heap', hcall⟩

/-- A cache for four objects has one at first, which the first client gets. -/
theorem memcache_ownership_four :
    ∃ cache heap, memcacheCreate (fun _ => Heap.bump) (fun _ => 0) .empty 16 4 =
        some (some cache, heap) ∧ cache.cached = [57] ∧
      ∃ s, CacheStep ⟨heap, cache, []⟩ s ∧ s.held = [57] ∧ ∀ answer, ∃ p cache' heap',
        memcacheAlloc s.cache s.heap answer = some (p, cache', heap') ∧ p ∉ [57] := by
  obtain ⟨heap, hcreate⟩ : ∃ heap, memcacheCreate (fun _ => Heap.bump) (fun _ => 0) .empty 16 4 =
      some (some ⟨1, 16, 4, 1, [57, 0, 0, 0]⟩, heap) := ⟨_, rfl⟩
  obtain ⟨r, hr, hall⟩ := memcache_ownership (fun _ => Heap.bump) (fun _ => 0) .empty 16 4
    (by decide) (by decide)
  obtain rfl := Option.some.inj (hr.symm.trans hcreate)
  have hstep : CacheStep ⟨heap, ⟨1, 16, 4, 1, [57, 0, 0, 0]⟩, []⟩
      ⟨heap, ⟨1, 16, 4, 0, [57, 0, 0, 0]⟩, [57]⟩ := .alloc _ ⟨0, by simp⟩ (p := 57) rfl
  exact ⟨_, heap, hcreate, rfl, _, hstep, rfl, (hall _ rfl _ (.single hstep)).2.2.2.2.1⟩

end Cserv.Util
