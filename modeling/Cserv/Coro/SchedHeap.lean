import Cserv.Coro.Sched
import Cserv.Util.RbHeap

/-!
# The scheduler in memory

The functions of `sched.c` that work on `sched.inactive`, on the nodes of `rbtree.c` in memory.
`container_of` is a shift by a constant, so that a coroutine and a timer node are named by the
address of their `struct rb_node`. Searches and loops have fuel, as those of `rbtree.c` do.
-/
namespace Cserv.Coro

open Foundations Util

/-- The cells `struct rb_root`: `sched.inactive`, and the `root` of a timer node. -/
inductive TreeRoot
  | inactive
  | timer (tm : Addr)
  deriving DecidableEq, Repr

/-- What the functions on `sched.inactive` need of the list `sched.active`, in `α`. -/
class ActiveList (α : Type) where
  /-- `list_add_tail(&coro->list, &sched.active)`. -/
  addTail : α → Addr → Option α
  /-- `list_add(&coro->list, &sched.active)`. -/
  addHead : α → Addr → Option α

/-- The list as its members. This is the list in memory as long as no coroutine that is added is in
a list already. -/
instance : ActiveList (List Addr) where
  addTail active coro := some (active ++ [coro])
  addHead active coro := some (coro :: active)

/-- The memory of the scheduler. `timerTimeout` is the `timeout` of timer nodes; `freed` are the
timer nodes given to `memcache_free`, in that order. -/
structure SchedHeap (α : Type) where
  heap : RbHeap TreeRoot
  timerTimeout : Addr → ℤ
  coroId : Addr → ℕ
  timeout : Addr → ℤ
  activeByTimeout : Addr → Bool
  active : α
  freed : List Addr

/-! ## Searches -/

section Searches

variable {ι : Type} (m : RbHeap ι)

def readLink : RbHeap.Link ι → Option Addr
  | .root i => some (m.root i)
  | .child x s => (m.load x).map (·.child s)

/-- The loop `while (*newer)` of an insertion, where `dir` is the way it goes on at a node; it
returns at a node with the way `eq`. The results are `*newer`, `parent` and `newer`. -/
def searchLink (dir : Addr → Ordering) :
    ℕ → Addr → RbHeap.Link ι → Option (Addr × Addr × RbHeap.Link ι)
  | 0, _, _ => none
  | fuel + 1, parent, newer => do
    let each ← readLink m newer
    if each = NULL then some (each, parent, newer)
    else
      match dir each with
      | .lt => searchLink dir fuel each (.child each .left)
      | .gt => searchLink dir fuel each (.child each .right)
      | .eq => some (each, parent, newer)

def searchNode (dir : Addr → Ordering) : ℕ → Addr → Option Addr
  | 0, _ => none
  | fuel + 1, each =>
    if each = NULL then some NULL
    else
      match dir each with
      | .lt => do searchNode dir fuel (← m.load each).rbLeft
      | .gt => do searchNode dir fuel (← m.load each).rbRight
      | .eq => some each

end Searches

namespace SchedHeap

variable {α : Type} (s : SchedHeap α) (fuel : ℕ)

def findInTimer (tm : Addr) (id : ℕ) : Option Addr :=
  searchNode s.heap (fun each => direction (toInt32 (id - s.coroId each))) fuel
    (s.heap.root (.timer tm))

def removeFromTimerNode (tm coro : Addr) : Option (SchedHeap α) := do
  let found ← s.findInTimer fuel tm (s.coroId coro)
  if found = NULL then some s
  else
    let m ← s.heap.rbErase fuel coro (.timer tm)
    return { s with heap := m }

def findTimerNode (timeout : ℤ) : Option Addr :=
  searchNode s.heap (fun tm => direction (toInt64 (timeout - s.timerTimeout tm))) fuel
    (s.heap.root .inactive)

/-- `memcache_free`: the memory of a timer node is not the caller's any more. It fails for memory
that is not in use. -/
def memcacheFree (tm : Addr) : Option (SchedHeap α) := do
  let _ ← s.heap.load tm
  return { s with
    heap := { s.heap with node := Function.update s.heap.node tm none }
    freed := s.freed ++ [tm] }

def removeFromInactiveTree (coro : Addr) : Option (SchedHeap α) := do
  let tm ← s.findTimerNode fuel (s.timeout coro)
  if tm = NULL then some s
  else
    let s ← s.removeFromTimerNode fuel tm coro
    if s.heap.root (.timer tm) = NULL then
      let m ← s.heap.rbErase fuel tm .inactive
      memcacheFree { s with heap := m } tm
    else some s

def addToTimerNode (tm coro : Addr) : Option (SchedHeap α) := do
  let (_, parent, newer) ← searchLink s.heap
    (fun each => linkDirection (toInt32 (s.coroId coro - s.coroId each))) fuel NULL
    (.root (.timer tm))
  let m ← s.heap.rbLinkNode coro parent newer
  let m ← m.rbInsertColor fuel coro (.timer tm)
  return { s with heap := m }

/-- The timer node `tmp` that `memcache_alloc` returned, with whatever its memory held, and the
assignments to its fields. -/
def initTimerNode (tmp : Addr) (old : RbNode) (timeout : ℤ) : SchedHeap α :=
  { s with
    heap := (s.heap.store tmp { old with rbLeft := NULL, rbRight := NULL }).setRoot (.timer tmp) NULL
    timerTimeout := Function.update s.timerTimeout tmp timeout }

/-- `move_to_inactive_tree`: the difference is stored in an `int`. `alloc` is the timer node that
`memcache_alloc` returns, with the contents of its memory. -/
def moveToInactiveTree (coro : Addr) (alloc : Option (Addr × RbNode)) : Option (SchedHeap α) := do
  let (each, parent, newer) ← searchLink s.heap
    (fun tm => direction (toInt32 (s.timeout coro - s.timerTimeout tm))) fuel NULL (.root .inactive)
  if each ≠ NULL then s.addToTimerNode fuel each coro
  else
    match alloc with
    | none => some s
    | some (tmp, old) =>
      let s ← (s.initTimerNode tmp old (s.timeout coro)).addToTimerNode fuel tmp coro
      let m ← s.heap.rbLinkNode tmp parent newer
      let m ← m.rbInsertColor fuel tmp .inactive
      return { s with heap := m }

/-- `schedule_timeout` of the coroutine `coro` at the time `now`, up to the switch. -/
def scheduleTimeout (coro : Addr) (now milliseconds : ℤ) (alloc : Option (Addr × RbNode)) :
    Option (SchedHeap α) :=
  moveToInactiveTree
    { s with timeout := Function.update s.timeout coro (toInt64 (now + milliseconds)) } fuel coro
    alloc

/-- What `wakeup_coro` and `wakeup_coro_priority` do before the active list gets the coroutine. -/
def leaveInactive (coro : Addr) : Option (SchedHeap α) :=
  removeFromInactiveTree
    { s with activeByTimeout := Function.update s.activeByTimeout coro false } fuel coro

section Lists

variable [ActiveList α]

def moveToActiveListTailDirect (coro : Addr) : Option (SchedHeap α) := do
  let active ← ActiveList.addTail s.active coro
  return { s with active := active }

/-- `timeout_coroutine_handler`; `rounds` bounds the rounds of its loop. -/
def timeoutCoroutineHandler (fuel : ℕ) (tm : Addr) : ℕ → SchedHeap α → Option (SchedHeap α)
  | 0, _ => none
  | rounds + 1, s =>
    let recent := s.heap.root (.timer tm)
    if recent = NULL then some s
    else do
      let m ← s.heap.rbErase fuel recent (.timer tm)
      let s ← moveToActiveListTailDirect
        { s with
          heap := m
          activeByTimeout := Function.update s.activeByTimeout recent true } recent
      timeoutCoroutineHandler fuel tm rounds s

def checkTimeoutCoroutine (fuel : ℕ) (now : ℤ) : ℕ → SchedHeap α → Option (SchedHeap α)
  | 0, _ => none
  | rounds + 1, s => do
    let tm ← s.heap.rbFirst fuel .inactive
    if tm = NULL then some s
    else if now < s.timerTimeout tm then some s
    else
      let m ← s.heap.rbErase fuel tm .inactive
      let s ← timeoutCoroutineHandler fuel tm fuel { s with heap := m }
      let s ← s.memcacheFree tm
      checkTimeoutCoroutine fuel now rounds s

def wakeupCoro (coro : Addr) : Option (SchedHeap α) := do
  let s ← s.leaveInactive fuel coro
  s.moveToActiveListTailDirect coro

def wakeupCoroPriority (coro : Addr) : Option (SchedHeap α) := do
  let s ← s.leaveInactive fuel coro
  let active ← ActiveList.addHead s.active coro
  return { s with active := active }

end Lists

end SchedHeap

end Cserv.Coro
