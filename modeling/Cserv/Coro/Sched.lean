import Cserv.Foundations.MachineInt
import Cserv.Util.RbTree

/-!
# The coroutine scheduler

The lists and trees of `struct coro_schedule` and the functions of `sched.c` that move
coroutines between them. A coroutine is named by its `coro_id`; `none` as the current
one is the main coroutine, or `NULL` before the first switch. An intrusive list is the
list of its members. Stacks, contexts and the functions coroutines run are left out: a
switch is an assignment of `current`.
-/
namespace Cserv.Coro

open Foundations Util Util.RbTree

structure Coroutine where
  timeout : ℤ
  activeByTimeout : Bool
  deriving DecidableEq, Repr

/-- `struct timer_node`: the coroutines with one timeout. -/
structure TimerNode where
  timeout : ℤ
  root : ColorTree ℕ
  deriving DecidableEq, Repr

/-- `struct coro_schedule`. `coro` is the memory of the coroutines. The only caller of
`schedule_init` passes an `int` for `max_coro_size`. -/
structure Sched where
  maxCoroSize : ℕ
  currCoroSize : ℕ
  nextCoroId : ℕ
  current : Option ℕ
  idle : List ℕ
  active : List ℕ
  inactive : ColorTree TimerNode
  coro : ℕ → Coroutine
  max_lt : maxCoroSize < 2 ^ 31

/-- The way a comparison of a signed difference with 0 goes on in a search tree. -/
def direction (result : ℤ) : Ordering :=
  if result < 0 then .lt else if result > 0 then .gt else .eq

/-- The way of the insertions, which never stop at a node. -/
def linkDirection (result : ℤ) : Ordering := if result < 0 then .lt else .gt

/-- `find_in_timer`, as the place of the coroutine in the tree. -/
def findInTimer (root : ColorTree ℕ) (id : ℕ) : ColorTree ℕ × List (Crumb ℕ) :=
  root.descend (fun each : ℕ => direction (toInt32 (id - each))) []

def removeFromTimerNode (root : ColorTree ℕ) (id : ℕ) : ColorTree ℕ :=
  match findInTimer root id with
  | (.nil, _) => root
  | (found, up) => rbErase found up

def addToTimerNode (root : ColorTree ℕ) (id : ℕ) : ColorTree ℕ :=
  rbInsert id (root.descend (fun each : ℕ => linkDirection (toInt32 (id - each))) []).2

/-- `find_timer_node`, as the place of the node: the difference is a `long long`. -/
def findTimerNode (inactive : ColorTree TimerNode) (timeout : ℤ) :
    ColorTree TimerNode × List (Crumb TimerNode) :=
  inactive.descend (fun tm => direction (toInt64 (timeout - tm.timeout))) []

/-- `remove_from_inactive_tree` for a coroutine with this timeout. -/
def removeFromInactiveTree (inactive : ColorTree TimerNode) (id : ℕ) (timeout : ℤ) :
    ColorTree TimerNode :=
  match findTimerNode inactive timeout with
  | (.nil, _) => inactive
  | (.node c l tm r, up) =>
    match removeFromTimerNode tm.root id with
    | .nil => rbErase (.node c l tm r) up
    | root => (ColorTree.node c l { tm with root := root } r).plug up

/-- `move_to_inactive_tree`: the difference is stored in an `int`. `alloc` says whether
`memcache_alloc` returns a timer node. -/
def moveToInactiveTree (inactive : ColorTree TimerNode) (id : ℕ) (timeout : ℤ) (alloc : Bool) :
    ColorTree TimerNode :=
  match inactive.descend (fun tm => direction (toInt32 (timeout - tm.timeout))) [] with
  | (.node c l tm r, up) =>
    (ColorTree.node c l { tm with root := addToTimerNode tm.root id } r).plug up
  | (.nil, up) => if alloc then rbInsert ⟨timeout, addToTimerNode .nil id⟩ up else inactive

namespace Sched

variable (s : Sched)

def coroutineInit (id : ℕ) : Sched :=
  { s with coro := Function.update s.coro id ⟨0, false⟩ }

/-- `create_coroutine`; `mem` says whether `malloc` and `coro_stack_alloc` succeed. -/
def createCoroutine (mem : Bool) : Option (ℕ × Sched) :=
  if s.currCoroSize = s.maxCoroSize then none
  else if !mem then none
  else some (s.nextCoroId + 1,
    { s with nextCoroId := s.nextCoroId + 1, currCoroSize := s.currCoroSize + 1 })

def getCoroutine (mem : Bool) : Option (ℕ × Sched) :=
  match s.idle with
  | id :: rest => some (id, coroutineInit { s with idle := rest } id)
  | [] => (s.createCoroutine mem).map fun (id, s') => (id, s'.coroutineInit id)

/-- `dispatch_coro`: the return value and the scheduler after the call. -/
def dispatchCoro (mem : Bool) : ℤ × Sched :=
  match s.getCoroutine mem with
  | none => (-1, s)
  | some (id, s') => (0, { s' with active := s'.active ++ [id] })

/-- `schedule_timeout` of the coroutine `id` at the time `now`, with the switch to the main
coroutine. -/
def scheduleTimeout (id : ℕ) (now milliseconds : ℤ) (alloc : Bool) : Sched :=
  let timeout := toInt64 (now + milliseconds)
  { s with
    coro := Function.update s.coro id { s.coro id with timeout := timeout }
    inactive := moveToInactiveTree s.inactive id timeout alloc
    current := none }

def setActiveByTimeout (id : ℕ) (b : Bool) : Sched :=
  { s with coro := Function.update s.coro id { s.coro id with activeByTimeout := b } }

def wakeupCoro (id : ℕ) : Sched :=
  { s.setActiveByTimeout id false with
    inactive := removeFromInactiveTree s.inactive id (s.coro id).timeout
    active := s.active ++ [id] }

def wakeupCoroPriority (id : ℕ) : Sched :=
  { s.setActiveByTimeout id false with
    inactive := removeFromInactiveTree s.inactive id (s.coro id).timeout
    active := id :: s.active }

/-- `is_wakeup_by_timeout` in the coroutine `id`. -/
def isWakeupByTimeout (id : ℕ) : Bool × Sched :=
  ((s.coro id).activeByTimeout, s.setActiveByTimeout id false)

/-- `timeout_coroutine_handler`: the loop takes the root out until the tree is empty. -/
def timeoutCoroutineHandler (s : Sched) (root : ColorTree ℕ) : Sched :=
  match root with
  | .nil => s
  | .node c l id r =>
    timeoutCoroutineHandler { s.setActiveByTimeout id true with active := s.active ++ [id] }
      (rbErase (.node c l id r) [])
termination_by root.toList.length
decreasing_by simp [toList_rbErase, ColorTree.before, ColorTree.after]

@[simp] theorem timeoutCoroutineHandler_inactive (s : Sched) (root : ColorTree ℕ) :
    (timeoutCoroutineHandler s root).inactive = s.inactive := by
  fun_induction timeoutCoroutineHandler s root with
  | case1 s => rfl
  | case2 s c l id r ih => exact ih

def checkTimeoutCoroutine (s : Sched) (now : ℤ) : Sched :=
  match hfirst : rbFirst s.inactive [] with
  | (.nil, _) => s
  | (.node c l tm r, up) =>
    if now < tm.timeout then s
    else
      checkTimeoutCoroutine
        (timeoutCoroutineHandler { s with inactive := rbErase (.node c l tm r) up } tm.root) now
termination_by s.inactive.toList.length
decreasing_by simp [rbFirst_node hfirst]

/-- `get_active_coroutine` and the switch to the coroutine it returns. -/
def runNextActive : Sched :=
  match s.active with
  | [] => s
  | id :: rest => { s with active := rest, current := some id }

/-- The end of `coro_routine_proxy`: the coroutine `id` is idle, and the main one runs. -/
def finishCoroutine (id : ℕ) : Sched :=
  { s with idle := s.idle ++ [id], current := none }

end Sched

end Cserv.Coro
