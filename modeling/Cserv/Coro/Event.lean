import Cserv.Coro.Sched

/-!
# The event loop and the hooked calls

`event.c` and `syscall_hook.c`: the table of the descriptors coroutines wait for, the
interest list the kernel keeps for `epoll_fd`, and the calls that suspend a coroutine
until its descriptor is ready.
-/
namespace Cserv.Coro

/-! ## The event loop -/

/-- The values of `event_t`, as the bits of an `int`. -/
def evnetNone : BitVec 32 := 0x0

def eventReadable : BitVec 32 := 0x1

def eventWritable : BitVec 32 := 0x2

inductive EventProc
  | eventRwCallback
  | eventConnCallback
  deriving DecidableEq, Repr

def EventProc.call : EventProc → Sched → ℕ → Sched
  | .eventRwCallback, s, args => s.wakeupCoro args
  | .eventConnCallback, s, args => s.wakeupCoroPriority args

/-- `struct fd_event`; `args` is a coroutine. -/
structure FdEvent where
  mask : BitVec 32
  proc : Option EventProc
  args : Option ℕ
  deriving DecidableEq, Repr

structure Interest where
  epollin : Bool
  epollout : Bool
  deriving DecidableEq, Repr

inductive EpollOp
  | add
  | mod
  | del
  deriving DecidableEq, Repr

/-- `struct event_loop`. The kernel's interest list stands for `epoll_fd`. -/
structure EventLoop where
  maxConn : ℕ
  array : ℕ → FdEvent
  epoll : ℕ → Option Interest

def interest (mask : BitVec 32) : Interest :=
  ⟨mask &&& eventReadable != 0, mask &&& eventWritable != 0⟩

/-- `epoll_ctl`, `none` when it returns -1. The kernel may refuse to add a descriptor; it
changes and deletes those that are registered. -/
def epollCtl (epoll : ℕ → Option Interest) (op : EpollOp) (fd : ℕ) (ev : Interest) (ok : Bool) :
    Option (ℕ → Option Interest) :=
  match op with
  | .add => if (epoll fd).isSome || !ok then none else some (Function.update epoll fd (some ev))
  | .mod => if (epoll fd).isSome then some (Function.update epoll fd (some ev)) else none
  | .del => if (epoll fd).isSome then some (Function.update epoll fd none) else none

/-- `event_loop_init`; 128 descriptors are reserved for the system. -/
def eventLoopInit (maxConn : ℕ) : EventLoop :=
  ⟨maxConn + 128, fun _ => ⟨evnetNone, none, none⟩, fun _ => none⟩

namespace EventLoop

variable (l : EventLoop)

/-- `add_fd_event`: the return value and the event loop after the call. -/
def addFdEvent (fd : ℕ) (what : BitVec 32) (proc : EventProc) (args : Option ℕ) (ok : Bool) :
    ℤ × EventLoop :=
  if fd ≥ l.maxConn then (-1, l)
  else
    let fe := l.array fd
    let op := if fe.mask = evnetNone then EpollOp.add else EpollOp.mod
    match epollCtl l.epoll op fd (interest (what ||| fe.mask)) ok with
    | none => (-2, l)
    | some epoll =>
      (0, { l with
        array := Function.update l.array fd ⟨fe.mask ||| what, some proc, args⟩
        epoll := epoll })

/-- `del_fd_event`; the result of `epoll_ctl` is not looked at. -/
def delFdEvent (fd : ℕ) (what : BitVec 32) : EventLoop :=
  if fd ≥ l.maxConn then l
  else
    let fe := l.array fd
    if fe.mask = evnetNone then l
    else
      let mask := fe.mask &&& ~~~what
      let op := if mask = evnetNone then EpollOp.del else EpollOp.mod
      { l with
        array := Function.update l.array fd { fe with mask := mask }
        epoll := (epollCtl l.epoll op fd (interest mask) true).getD l.epoll }

/-- `close`, as far as the event loop goes: the kernel drops the descriptor from the
interest list, and `array` does not change. -/
def close (fd : ℕ) : EventLoop := { l with epoll := Function.update l.epoll fd none }

/-- The body of the loop of `event_cycle`, `none` for a call through a null pointer or for
no coroutine. -/
def deliver (s : Sched) (fd : ℕ) : Option Sched := do
  let proc ← (l.array fd).proc
  let args ← (l.array fd).args
  return proc.call s args

/-- `event_cycle` when `epoll_wait` reports the descriptors `evs`, in this order. -/
def eventCycle (s : Sched) (evs : List ℕ) : Option Sched := evs.foldlM l.deliver s

end EventLoop

/-! ## The hooked calls -/

inductive Call
  | connect
  | accept
  | read
  | recv
  | write
  | send
  deriving DecidableEq, Repr

/-- The values of `errno` the hooks tell apart; `eagain` is also `EWOULDBLOCK`. -/
inductive Errno
  | eintr
  | eagain
  | einprogress
  | other
  deriving DecidableEq, Repr

/-- The result of the real system call. -/
inductive SysResult
  | ok (n : ℕ)
  | error (errno : Errno)
  deriving DecidableEq, Repr

structure SocketOptions where
  nonblock : Bool
  noDelay : Bool
  keepAlive : Bool
  deriving DecidableEq, Repr

/-- What a hook does after the real system call: return, close a descriptor and return, call
again, or register its descriptor and suspend the coroutine. -/
inductive Attempt
  | ret (value : ℤ)
  | close (fd : ℕ) (value : ℤ)
  | again
  | register
  deriving DecidableEq, Repr

def acceptTail (connfd : ℕ) (o : SocketOptions) : Attempt :=
  if !o.nonblock then .close connfd (-4)
  else if !o.noDelay then .close connfd (-5)
  else if !o.keepAlive then .close connfd (-6)
  else .ret connfd

/-- The loop condition and the first tests of the loop, as in `read`. -/
def loopAttempt (done : ℕ → Attempt) : SysResult → Attempt
  | .ok n => done n
  | .error .eintr => .again
  | .error .eagain => .register
  | .error _ => .ret (-1)

/-- The first tests of `connect`, which has no loop and gives up when it is interrupted. -/
def connectAttempt : SysResult → Attempt
  | .ok 0 => .ret 0
  | .ok _ => .register
  | .error .einprogress => .register
  | .error _ => .ret (-1)

namespace Call

def attempt (r : SysResult) (o : SocketOptions) : Call → Attempt
  | connect => connectAttempt r
  | accept => loopAttempt (fun connfd => acceptTail connfd o) r
  | read | recv | write | send => loopAttempt (fun n => .ret n) r

def what : Call → BitVec 32
  | connect | write | send => eventWritable
  | accept | read | recv => eventReadable

def callback : Call → EventProc
  | connect | accept => .eventConnCallback
  | read | recv | write | send => .eventRwCallback

/-- `CONN_TIMEOUT`, `ACCEPT_TIMEOUT`, `READ_TIMEOUT`, `RECV_TIMEOUT`, `WRITE_TIMEOUT` and
`SEND_TIMEOUT`, in milliseconds. -/
def timeout : Call → ℤ
  | accept => 3 * 1000
  | connect | read | recv | write | send => 10 * 1000

/-- What a call does once `del_fd_event` and `is_wakeup_by_timeout` have returned: give up after a
timeout, or go round the loop. `connect` ends here; `sockError` is the outcome of
`getsockopt`. -/
def woken (byTimeout sockError : Bool) : Call → Attempt
  | connect => if byTimeout then .ret (-3) else if sockError then .ret (-4) else .ret 0
  | accept | read | recv | write | send => if byTimeout then .ret (-3) else .again

theorem what_ne_none (call : Call) : call.what ≠ evnetNone := by
  cases call <;> decide

end Call

/-! ## Adding and removing one event -/

namespace EventLoop

/-- The kernel's interest list is the one `array` asks for, and lies within `array`. -/
structure Synced (l : EventLoop) : Prop where
  epoll : ∀ fd, l.epoll fd =
    if (l.array fd).mask = evnetNone then none else some (interest (l.array fd).mask)
  bound : ∀ fd, (l.array fd).mask ≠ evnetNone → fd < l.maxConn

variable {l : EventLoop}

theorem Synced.isSome_iff (h : l.Synced) (fd : ℕ) :
    (l.epoll fd).isSome ↔ (l.array fd).mask ≠ evnetNone := by
  rw [h.epoll]
  split_ifs with hmask <;> simp [hmask]

theorem synced_init (maxConn : ℕ) : (eventLoopInit maxConn).Synced where
  epoll _ := rfl
  bound _ hmask := absurd rfl hmask

/-- A refused `add_fd_event` changes nothing. -/
theorem addFdEvent_refused (fd : ℕ) (what : BitVec 32) (proc : EventProc) (args : Option ℕ)
    (ok : Bool) (hret : (l.addFdEvent fd what proc args ok).1 ≠ 0) :
    (l.addFdEvent fd what proc args ok).2 = l := by
  unfold addFdEvent at hret ⊢
  split_ifs with hfd
  · rfl
  · rw [if_neg hfd] at hret
    dsimp only at hret ⊢
    split at hret <;> simp_all

theorem Synced.addFdEvent (h : l.Synced) {fd : ℕ} {what : BitVec 32} {proc : EventProc}
    {args : Option ℕ} {ok : Bool} (hmask : (l.array fd).mask = evnetNone)
    (hret : (l.addFdEvent fd what proc args ok).1 = 0) (hwhat : what ≠ evnetNone) :
    (l.addFdEvent fd what proc args ok).2.array =
        Function.update l.array fd ⟨what, some proc, args⟩ ∧
      (l.addFdEvent fd what proc args ok).2.Synced := by
  have hepoll : l.epoll fd = none := by simp [h.epoll, hmask]
  have hor : evnetNone ||| what = what := BitVec.zero_or
  have hor' : what ||| evnetNone = what := BitVec.or_zero
  unfold EventLoop.addFdEvent at hret ⊢
  by_cases hfd : fd ≥ l.maxConn
  · simp [hfd] at hret
  cases ok with
  | false => simp [hfd, hmask, epollCtl] at hret
  | true =>
    simp only [hfd, hmask, epollCtl, hepoll, hor, hor', if_true, if_false, Option.isSome_none,
      Bool.not_true, Bool.or_self, Bool.false_eq_true, true_and]
    constructor
    · intro d
      by_cases hd : d = fd
      · subst hd
        simp [hwhat]
      · simp [Function.update_of_ne hd, h.epoll d]
    · intro d
      by_cases hd : d = fd
      · subst hd
        intro _
        exact Nat.lt_of_not_ge hfd
      · simpa [Function.update_of_ne hd] using h.bound d

theorem Synced.delFdEvent (h : l.Synced) {fd : ℕ} {what : BitVec 32}
    (hmask : (l.array fd).mask = what) (hwhat : what ≠ evnetNone) :
    (l.delFdEvent fd what).array =
        Function.update l.array fd { l.array fd with mask := evnetNone } ∧
      (l.delFdEvent fd what).Synced := by
  have hfd : ¬ fd ≥ l.maxConn := Nat.not_le.mpr (h.bound fd (hmask ▸ hwhat))
  have hepoll : (l.epoll fd).isSome := (h.isSome_iff fd).mpr (hmask ▸ hwhat)
  have hand : what &&& ~~~what = evnetNone := BitVec.and_not_self what
  unfold EventLoop.delFdEvent
  simp only [hfd, hmask, hwhat, hand, epollCtl, hepoll, if_true, if_false, Option.getD_some,
    true_and]
  constructor
  · intro d
    by_cases hd : d = fd
    · subst hd
      simp
    · simp [Function.update_of_ne hd, h.epoll d]
  · intro d
    by_cases hd : d = fd
    · subst hd
      simp
    · simpa [Function.update_of_ne hd] using h.bound d

theorem Synced.close (h : l.Synced) {fd : ℕ} (hmask : (l.array fd).mask = evnetNone) :
    l.close fd = l := by
  have hepoll : l.epoll fd = none := by simp [h.epoll, hmask]
  unfold EventLoop.close
  rw [← hepoll, Function.update_eq_self]

end EventLoop

end Cserv.Coro
