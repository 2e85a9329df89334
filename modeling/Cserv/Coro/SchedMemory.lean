import Cserv.Coro.SchedHeap
import Cserv.Util.ListHead

/-!
# The scheduler with its lists in memory

The functions of `sched.c` on the coroutines in memory, each with a `list` that is linked to
`sched.idle`, to `sched.active` or to neither. A function fails, with `none`, where the source
dereferences memory that holds no such struct. Stacks, contexts and the functions coroutines run
are left out: a switch is an assignment of `current`.
-/
namespace Cserv.Coro

open Foundations Util

/-- The cells `struct list_head`: `sched.idle`, `sched.active`, and the `list` of a coroutine. -/
inductive ListNode
  | idle
  | active
  | coro (c : Addr)
  deriving DecidableEq, Repr

instance : ActiveList (Links ListNode) where
  addTail lists coro := lists.listAddTail (.coro coro) .active
  addHead lists coro := lists.listAdd (.coro coro) .active

/-- `struct coro_schedule` and the memory of the coroutines and timer nodes, where `mem.active` are
all list heads. `none` as the current coroutine is the main one, or `NULL` before the first
switch. -/
structure SchedMemory where
  maxCoroSize : ℕ
  currCoroSize : ℕ
  nextCoroId : ℕ
  current : Option Addr
  mem : SchedHeap (Links ListNode)

/-- The memory that `malloc` returns for a coroutine, with whatever it held. -/
structure NewCoroutine where
  coro : Addr
  node : RbNode
  list : ListHead ListNode

namespace SchedMemory

variable (x : SchedMemory)

def lists : Links ListNode := x.mem.active

def setLists (lists : Links ListNode) : SchedMemory := { x with mem := { x.mem with active := lists } }

def scheduleInit (maxCoroSize : ℕ) (mem : SchedHeap (Links ListNode)) : Option SchedMemory := do
  let lists ← mem.active.initListHead .idle
  let lists ← lists.initListHead .active
  return {
    maxCoroSize := maxCoroSize
    currCoroSize := 0
    nextCoroId := 0
    current := none
    mem := { mem with heap := mem.heap.setRoot .inactive NULL, active := lists } }

def coroutineInit (coro : Addr) : Option SchedMemory := do
  let lists ← x.lists.initListHead (.coro coro)
  let heap ← x.mem.heap.modify coro (·.rbSetParent coro)
  return { x with
    mem := { x.mem with
      heap := heap
      timeout := Function.update x.mem.timeout coro 0
      activeByTimeout := Function.update x.mem.activeByTimeout coro false
      active := lists } }

/-- `create_coroutine`; `alloc` is `none` if `malloc` or `coro_stack_alloc` fails. -/
def createCoroutine (alloc : Option NewCoroutine) : Option (Addr × SchedMemory) :=
  if x.currCoroSize = x.maxCoroSize then none
  else alloc.map fun new => (new.coro,
    { x with
      nextCoroId := x.nextCoroId + 1
      currCoroSize := x.currCoroSize + 1
      mem := { x.mem with
        heap := x.mem.heap.store new.coro new.node
        coroId := Function.update x.mem.coroId new.coro (x.nextCoroId + 1)
        active := Function.update x.lists (.coro new.coro) (some new.list) } })

/-- `get_coroutine`: the coroutine, if there is one, and the memory. -/
def getCoroutine (alloc : Option NewCoroutine) : Option (Option Addr × SchedMemory) := do
  let idle ← x.lists .idle
  match idle.next with
  | .idle =>
    match x.createCoroutine alloc with
    | none => return (none, x)
    | some (coro, y) => return (some coro, ← y.coroutineInit coro)
  | .active => none
  | .coro coro =>
    let lists ← x.lists.listDel (.coro coro)
    return (some coro, ← (x.setLists lists).coroutineInit coro)

/-- `dispatch_coro`: the return value and the memory. -/
def dispatchCoro (alloc : Option NewCoroutine) : Option (ℤ × SchedMemory) := do
  let (coro, y) ← x.getCoroutine alloc
  match coro with
  | none => return (-1, y)
  | some coro =>
    let mem ← y.mem.moveToActiveListTailDirect coro
    return (0, { y with mem := mem })

/-- `schedule_timeout` at the time `now`, with the switch to the main coroutine. -/
def scheduleTimeout (fuel : ℕ) (now milliseconds : ℤ) (alloc : Option (Addr × RbNode)) :
    Option SchedMemory := do
  let coro ← x.current
  let mem ← x.mem.scheduleTimeout fuel coro now milliseconds alloc
  return { x with mem := mem, current := none }

def wakeupCoro (fuel : ℕ) (coro : Addr) : Option SchedMemory := do
  let mem ← x.mem.wakeupCoro fuel coro
  return { x with mem := mem }

def wakeupCoroPriority (fuel : ℕ) (coro : Addr) : Option SchedMemory := do
  let mem ← x.mem.wakeupCoroPriority fuel coro
  return { x with mem := mem }

def checkTimeoutCoroutine (fuel : ℕ) (now : ℤ) : Option SchedMemory := do
  let mem ← SchedHeap.checkTimeoutCoroutine fuel now fuel x.mem
  return { x with mem := mem }

def getActiveCoroutine : Option (Option Addr × SchedMemory) := do
  let active ← x.lists .active
  match active.next with
  | .active => return (none, x)
  | .idle => none
  | .coro coro =>
    let lists ← x.lists.listDelInit (.coro coro)
    return (some coro, x.setLists lists)

/-- One round of `run_active_coroutine`. -/
def runNextActive : Option SchedMemory := do
  let (coro, y) ← x.getActiveCoroutine
  match coro with
  | none => return y
  | some coro => return { y with current := some coro }

def isWakeupByTimeout : Option (Bool × SchedMemory) := do
  let coro ← x.current
  return (x.mem.activeByTimeout coro, { x with
    mem := { x.mem with activeByTimeout := Function.update x.mem.activeByTimeout coro false } })

/-- The end of `coro_routine_proxy`: `move_to_idle_list_direct` and the switch. -/
def finishCoroutine (coro : Addr) : Option SchedMemory := do
  let lists ← x.lists.listAddTail (.coro coro) .idle
  return { x.setLists lists with current := none }

end SchedMemory

/-- A call of the scheduler, with the clock and the memory that it gets. -/
inductive SchedCall
  | dispatchCoro (alloc : Option NewCoroutine)
  | scheduleTimeout (now milliseconds : ℤ) (alloc : Option (Addr × RbNode))
  | wakeupCoro (coro : Addr)
  | wakeupCoroPriority (coro : Addr)
  | checkTimeoutCoroutine (now : ℤ)
  | runNextActive
  | isWakeupByTimeout
  | finishCoroutine (coro : Addr)

inductive SchedReply
  | void
  | int (result : ℤ)
  | bool (result : Bool)
  deriving DecidableEq, Repr

/-- The call in memory; `fuel` bounds the searches and loops of the trees. -/
def SchedCall.exec (fuel : ℕ) (x : SchedMemory) : SchedCall → Option (SchedReply × SchedMemory)
  | dispatchCoro alloc => (x.dispatchCoro alloc).map fun (result, y) => (.int result, y)
  | scheduleTimeout now milliseconds alloc =>
    (x.scheduleTimeout fuel now milliseconds alloc).map (.void, ·)
  | wakeupCoro coro => (x.wakeupCoro fuel coro).map (.void, ·)
  | wakeupCoroPriority coro => (x.wakeupCoroPriority fuel coro).map (.void, ·)
  | checkTimeoutCoroutine now => (x.checkTimeoutCoroutine fuel now).map (.void, ·)
  | runNextActive => x.runNextActive.map (.void, ·)
  | isWakeupByTimeout => x.isWakeupByTimeout.map fun (result, y) => (.bool result, y)
  | finishCoroutine coro => (x.finishCoroutine coro).map (.void, ·)

end Cserv.Coro
