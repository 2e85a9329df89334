import Cserv.Conf.Env
import Cserv.Util.Memcache

/-!
# The start of a worker

`worker_process_cycle` up to its main loop. The number of connections that `set_worker_env` accepts
goes to `http_request_init`, `schedule_init` and `event_loop_init`, which assert or compute
different things about it.
-/
namespace Cserv.Startup

open Conf Foundations Http

/-- Why a worker does not come to its main loop: a call of `exit`, a failed `assert`, or a signed
overflow, to which C gives no meaning. -/
inductive Stop
  | exited
  | assertion
  | overflow
  deriving DecidableEq, Repr

/-- The allocations on the way: those of the two caches, of the table of header handlers with its
entries, and of the event loop. -/
inductive Allocation
  | requestCache
  | headerTable
  | timerCache
  | evloop
  deriving DecidableEq, Repr

/-- The fields of a `struct memcache`, without its array of `curr` pointers. -/
structure CacheFields where
  objSize : ℕ
  cacheSize : ℤ
  curr : ℤ
  deriving DecidableEq, Repr

/-- The fields that `memcache_create` sets; `mem` says whether its calls of `malloc` succeed. -/
def cacheFields (mem : Bool) (objSize : ℕ) (maxCacheSize : ℤ) : Except Stop (Option CacheFields) :=
  if maxCacheSize ≥ 2 then
    .ok (if mem then some ⟨objSize, maxCacheSize, maxCacheSize >>> (2 : ℕ)⟩ else none)
  else .error .assertion

theorem cacheFields_eq {malloc : Util.Allocator}
    (hmalloc : ∀ n h size, (malloc n h size).addr ≠ 0) (garbage : ℕ → ℕ) (heap : Heap)
    (objSize : ℕ) {maxCacheSize : ℤ} (hmax : 2 ≤ maxCacheSize) (hint : maxCacheSize < 2 ^ 31) :
    ∃ cache heap', Util.memcacheCreate malloc garbage heap objSize maxCacheSize =
        some (some cache, heap') ∧
      cacheFields true objSize maxCacheSize =
        .ok (some ⟨cache.objSize, cache.cacheSize, cache.curr⟩) := by
  obtain ⟨⟨created, heap'⟩, hr, hcreated⟩ :=
    Util.memcacheCreate_returns malloc garbage heap objSize hmax hint
  cases created with
  | none =>
    obtain ⟨⟨n, h, size, hzero⟩, -⟩ := hcreated
    exact absurd hzero (hmalloc n h size)
  | some cache =>
    obtain ⟨-, -, rfl, rfl, hcurr⟩ := hcreated
    exact ⟨cache, heap', hr, by rw [cacheFields, if_pos hmax, if_pos rfl, hcurr]⟩

/-- The cache that a caller needs, which exits without it. -/
def needCache : Option CacheFields → Except Stop CacheFields
  | none => .error .exited
  | some cache => .ok cache

/-- `worker_process_init` up to `http_request_init`: the size of the buffer as a `size_t`. It exits
without the entry, and `worker_process_cycle` exits when it returns -1. -/
def clientHeaderKbytes (config : List ConfEntry) : Option ℕ := do
  let c ← getConfEntry config (bytes "client_header_buffer_kbytes")
  if c = bytes "default" then some 2
  else
    let size := (atoi c % 2 ^ 64).toNat
    if size = 0 ∨ size > 4 then none else some size

/-- `http_request_init`, which exits without its cache, and if `hash_table_create` or the
`hash_table_add` of a header handler fails. The handlers themselves are left out. -/
def httpRequestInit (mem : Allocation → Bool) (kbytes : ℕ) (workerConnections : ℤ) :
    Except Stop CacheFields := do
  let cache ← needCache (← cacheFields (mem .requestCache) (kbytes <<< 10) workerConnections)
  if mem .headerTable then .ok cache else .error .exited

def sizeofTimerNode : ℕ := 40

/-- What `schedule_init` sets beside empty lists and trees. -/
structure SchedInit where
  maxCoroSize : ℕ
  stackBytes : ℕ
  cache : CacheFields
  deriving DecidableEq, Repr

/-- `schedule_init`; the argument of `memcache_create` is an `int`. -/
def scheduleInit (mem : Allocation → Bool) (stackKbytes maxCoroSize : ℕ) : Except Stop SchedInit :=
  if maxCoroSize ≥ 2 then do
    let cache ← needCache
      (← cacheFields (mem .timerCache) sizeofTimerNode (toInt32 (maxCoroSize / 2 : ℕ)))
    return ⟨maxCoroSize, stackKbytes * 1024, cache⟩
  else .error .assertion

/-- `event_loop_init`, with the size of its arrays. -/
def eventLoopInit (mem : Allocation → Bool) (maxConn : ℤ) : Except Stop ℤ :=
  if maxConn + 128 < 2 ^ 31 then
    if mem .evloop then .ok (maxConn + 128) else .error .exited
  else .error .overflow

structure Started where
  requestCache : CacheFields
  sched : SchedInit
  maxConn : ℤ
  deriving DecidableEq, Repr

/-- `worker_process_cycle` up to the first `dispatch_coro`. -/
def workerProcessCycle (mem : Allocation → Bool) (config : List ConfEntry) (env : WorkerEnv) :
    Except Stop Started :=
  match clientHeaderKbytes config with
  | none => .error .exited
  | some kbytes => do
    let requestCache ← httpRequestInit mem kbytes env.workerConnections
    let sched ← scheduleInit mem env.coroStackKbytes.toNat env.workerConnections.toNat
    let maxConn ← eventLoopInit mem env.workerConnections
    return ⟨requestCache, sched, maxConn⟩

/-- No assertion fails and no arithmetic overflows. -/
def Meets {α : Type} (r : Except Stop α) : Prop := r ≠ .error .assertion ∧ r ≠ .error .overflow

section Meets

variable {α β : Type} {x : Except Stop α} {f : α → Except Stop β}

theorem meets_ok (a : α) : Meets (Except.ok a : Except Stop α) := ⟨by simp, by simp⟩

theorem meets_exited : Meets (Except.error Stop.exited : Except Stop α) := ⟨by simp, by simp⟩

/-- Statements in sequence: the second one runs where the first one returns. -/
theorem meets_bind : Meets (x >>= f) ↔ Meets x ∧ ∀ a, x = .ok a → Meets (f a) := by
  cases x with
  | error e => simp [Meets, bind, Except.bind]
  | ok a => simp [meets_ok, bind, Except.bind]

end Meets

section Startup

variable {mem : Allocation → Bool} {n : ℤ}

theorem meets_needCache (cache : Option CacheFields) : Meets (needCache cache) := by
  cases cache with
  | none => exact meets_exited
  | some cache => exact meets_ok cache

theorem meets_cacheFields {b : Bool} {objSize : ℕ} : Meets (cacheFields b objSize n) ↔ 2 ≤ n := by
  unfold cacheFields
  by_cases hn : n ≥ 2
  · rw [if_pos hn]
    exact iff_of_true (meets_ok _) hn
  · rw [if_neg hn]
    exact iff_of_false (fun h => h.1 rfl) hn

theorem meets_httpRequestInit {kbytes : ℕ} : Meets (httpRequestInit mem kbytes n) ↔ 2 ≤ n := by
  rw [httpRequestInit, meets_bind, meets_cacheFields]
  refine and_iff_left fun cache _ => meets_bind.mpr ⟨meets_needCache cache, fun _ _ => ?_⟩
  split_ifs
  · exact meets_ok _
  · exact meets_exited

theorem meets_scheduleInit {stackKbytes m : ℕ} (hm : m < 2 ^ 31) :
    Meets (scheduleInit mem stackKbytes m) ↔ 4 ≤ m := by
  have hhalf : toInt32 (m / 2 : ℕ) = (m / 2 : ℕ) := toInt32_of_range (by omega) (by omega)
  unfold scheduleInit
  split_ifs with hlow
  · rw [meets_bind, hhalf, meets_cacheFields, and_iff_left]
    · omega
    · intro cache _
      rw [meets_bind]
      exact ⟨meets_needCache cache, fun _ _ => meets_ok _⟩
  · exact iff_of_false (fun h => h.1 rfl) (by omega)

theorem meets_eventLoopInit : Meets (eventLoopInit mem n) ↔ n + 128 < 2 ^ 31 := by
  unfold eventLoopInit
  split_ifs with hn hmem
  · exact iff_of_true (meets_ok _) hn
  · exact iff_of_true meets_exited hn
  · exact iff_of_false (fun h => h.2 rfl) hn

theorem httpRequestInit_ok (kbytes : ℕ) (hn : 2 ≤ n) :
    ∃ cache, httpRequestInit (fun _ => true) kbytes n = .ok cache := by
  rw [httpRequestInit, cacheFields, if_pos hn]
  exact ⟨_, rfl⟩

theorem scheduleInit_ok (stackKbytes : ℕ) {m : ℕ} (hlow : 4 ≤ m) (hm : m < 2 ^ 31) :
    ∃ sched, scheduleInit (fun _ => true) stackKbytes m = .ok sched := by
  have hhalf : toInt32 (m / 2 : ℕ) = (m / 2 : ℕ) := toInt32_of_range (by omega) (by omega)
  rw [scheduleInit, if_pos (by omega), hhalf, cacheFields, if_pos (by omega)]
  exact ⟨_, rfl⟩

end Startup

theorem atoi_lt (s : List UInt8) : atoi s < 2 ^ 31 := by
  have hrange : ∀ x : ℤ, toInt32 x < 2 ^ 31 := by
    intro x
    rw [toInt32, Int.bmod_def]
    split_ifs <;> omega
  unfold atoi
  split
  · norm_num
  · split_ifs <;> exact hrange _

/-- For a number of connections that `set_worker_env` accepts, a worker that comes to its caches
meets all assertions, whatever memory it gets, and does not overflow, if and only if the number is
at least 4 and leaves room for the 128 reserved descriptors. -/
theorem worker_starts_iff (config : List ConfEntry) (ncpu pageSize : ℤ) (env : WorkerEnv)
    (henv : setWorkerEnv config ncpu pageSize = some env) :
    (∀ mem, Meets (workerProcessCycle mem config env)) ↔
      clientHeaderKbytes config = none ∨
        4 ≤ env.workerConnections ∧ env.workerConnections ≤ 2 ^ 31 - 1 - 128 := by
  obtain ⟨⟨c, -, hc⟩, hpos, -⟩ := setWorkerEnv_some henv
  have hint : env.workerConnections < 2 ^ 31 := hc ▸ atoi_lt c
  cases hkbytes : clientHeaderKbytes config with
  | none => simp [workerProcessCycle, hkbytes, meets_exited]
  | some kbytes =>
    simp only [workerProcessCycle, hkbytes, reduceCtorEq, false_or, meets_bind,
      meets_httpRequestInit, meets_scheduleInit (show env.workerConnections.toNat < 2 ^ 31 by omega),
      meets_eventLoopInit]
    constructor
    · intro h
      obtain ⟨hlow, hrest⟩ := h fun _ => true
      obtain ⟨cache, hcache⟩ := httpRequestInit_ok kbytes hlow
      obtain ⟨hfour, hrest⟩ := hrest cache hcache
      obtain ⟨sched, hsched⟩ := scheduleInit_ok env.coroStackKbytes.toNat hfour (by omega)
      obtain ⟨hhigh, -⟩ := hrest sched hsched
      omega
    · rintro ⟨hlow, hhigh⟩ mem
      exact ⟨by omega, fun _ _ => ⟨by omega, fun _ _ => ⟨by omega, fun _ _ => meets_ok _⟩⟩⟩

def connectionsConf (s : String) : List ConfEntry :=
  [⟨bytes "worker_processes", bytes "1"⟩, ⟨bytes "worker_connections", bytes s⟩,
    ⟨bytes "coroutine_stack_kbytes", bytes "default"⟩,
    ⟨bytes "client_header_buffer_kbytes", bytes "default"⟩]

theorem worker_starts_1024 :
    setWorkerEnv (connectionsConf "1024") 1 4096 = some ⟨1, 1024, 4⟩ ∧
      ∀ mem, Meets (workerProcessCycle mem (connectionsConf "1024") ⟨1, 1024, 4⟩) := by
  have henv : setWorkerEnv (connectionsConf "1024") 1 4096 = some ⟨1, 1024, 4⟩ := by decide +kernel
  exact ⟨henv, (worker_starts_iff _ _ _ _ henv).mpr (Or.inr (by decide))⟩

/-- Three connections are accepted, and the cache of timer nodes is created for one. -/
theorem worker_asserts :
    setWorkerEnv (connectionsConf "3") 1 4096 = some ⟨1, 3, 4⟩ ∧
      workerProcessCycle (fun _ => true) (connectionsConf "3") ⟨1, 3, 4⟩ = .error .assertion ∧
      setWorkerEnv (connectionsConf "2147483647") 1 4096 = some ⟨1, 2147483647, 4⟩ ∧
      workerProcessCycle (fun _ => true) (connectionsConf "2147483647") ⟨1, 2147483647, 4⟩ =
        .error .overflow := by
  refine ⟨by decide +kernel, ?_, by decide +kernel, ?_⟩
  · rfl
  · rfl

end Cserv.Startup
