import Cserv.Coro.Pool

/-!
# The connections of a worker

`worker_accept_cycle` and `handle_connection` of `process.c`, statement by statement, in the
coroutines of a worker. A coroutine may be suspended inside `accept`, in the sleep of the
accept loop and inside the request handler; signals set the stop flags at any time. A
descriptor is named, from its `accept` to its `close`, by the number of the `accept`; it is
never 0, which the standard input or the log file holds.
-/
namespace Cserv.Process

open Coro Relation

inductive AcceptPc
  /-- The test of `g_shall_stop`, at the head of the loop. -/
  | testStop
  /-- The test of `g_shall_exit`. -/
  | testExit
  /-- The call of `worker_accept`. -/
  | workerAccept
  /-- Inside `accept`. -/
  | accept
  /-- `dispatch_coro` for a new connection. -/
  | dispatchCoro (conn : ℕ)
  /-- `increase_conn`. -/
  | increaseConn
  /-- `close`, when no coroutine could be dispatched. -/
  | close (conn : ℕ)
  /-- `schedule_timeout(200)`. -/
  | scheduleTimeout
  /-- `decrease_conn_and_check`. -/
  | decreaseConn
  /-- The end of the function, after the loop. -/
  | ended
  deriving DecidableEq, Repr

inductive HandlePc
  | requestHandler
  | close
  | decreaseConn
  | ended
  deriving DecidableEq, Repr

inductive Acceptor
  | unborn
  | failed
  | alive (coro : ℕ) (pc : AcceptPc)
  | gone
  deriving DecidableEq, Repr

structure Handler where
  coro : ℕ
  conn : ℕ
  pc : HandlePc
  deriving DecidableEq, Repr

/-- The calls of `exit` in a worker: in `decrease_conn_and_check` and for `g_shall_exit`. -/
inductive Exit
  | drained
  | forced
  deriving DecidableEq, Repr

/-- A worker. `accepted` counts the descriptors `accept` has made, and `closed` lists those that
were closed. -/
structure Service where
  sched : Sched
  connectionCount : ℤ
  acceptor : Acceptor
  handlers : List Handler
  accepted : ℕ
  closed : List ℕ
  shallStop : Bool
  shallExit : Bool
  exited : Option Exit

def serviceInit (workerConnections : ℕ) (mem : ℕ → Coroutine) (h : workerConnections < 2 ^ 31) :
    Service :=
  ⟨scheduleInit workerConnections mem h, 1, .unborn, [], 0, [], false, false, none⟩

namespace Service

variable (v : Service)

/-- `worker_can_accept`; `schedule_init` gets `g_worker_connections` too. -/
def workerCanAccept : Bool := v.connectionCount < v.sched.maxCoroSize

/-- The first part of `worker_accept`: whether it calls `accept`, or returns 0. `lock` is what
`spin_trylock` returns. -/
def workerAccept (workerProcesses : ℕ) (lock : Bool) : AcceptPc :=
  if workerProcesses > 1 then
    if v.workerCanAccept && lock then .accept else .scheduleTimeout
  else .accept

def increaseConn : Service := { v with connectionCount := v.connectionCount + 1 }

def decreaseConnAndCheck : Service :=
  { v with
    connectionCount := v.connectionCount - 1
    exited := if v.connectionCount - 1 = 0 then some .drained else v.exited }

def close (conn : ℕ) : Service := { v with closed := v.closed ++ [conn] }

def goto (coro : ℕ) (pc : AcceptPc) : Service := { v with acceptor := .alive coro pc }

def suspend (s : Sched) : Service := { v with sched := s }

end Service

/-- The steps of a worker that has not exited: signals, the scheduler, the start of the accept
loop, the accept loop, and the handlers. -/
inductive Move (workerProcesses : ℕ) : Service → Service → Prop
  | sigStop (v : Service) : Move workerProcesses v { v with shallStop := true }
  | sigExit (v : Service) : Move workerProcesses v { v with shallExit := true }
  | stay (v : Service) (s : Sched) (hpool : SamePool v.sched s)
      (hcurrent : s.current = v.sched.current) : Move workerProcesses v { v with sched := s }
  | resume (v : Service) (s : Sched) (c : ℕ) (hpool : SamePool v.sched s)
      (hnone : v.sched.current = none) (hbusy : v.sched.Busy c) (hcurrent : s.current = some c) :
      Move workerProcesses v { v with sched := s }
  | boot (v : Service) (mem : Bool) (id : ℕ) (s : Sched) (hacceptor : v.acceptor = .unborn)
      (hget : v.sched.getCoroutine mem = some (id, s)) :
      Move workerProcesses v
        { v.goto id .testStop with sched := (v.sched.dispatchCoro mem).2 }
  | bootFailed (v : Service) (mem : Bool) (hacceptor : v.acceptor = .unborn)
      (hget : v.sched.getCoroutine mem = none) :
      Move workerProcesses v { v with acceptor := .failed }
  | stop (v : Service) (c : ℕ) (hcurrent : v.sched.current = some c)
      (hpc : v.acceptor = .alive c .testStop) (hflag : v.shallStop = true) :
      Move workerProcesses v (v.goto c .decreaseConn)
  | noStop (v : Service) (c : ℕ) (hcurrent : v.sched.current = some c)
      (hpc : v.acceptor = .alive c .testStop) (hflag : v.shallStop = false) :
      Move workerProcesses v (v.goto c .testExit)
  | exit (v : Service) (c : ℕ) (hcurrent : v.sched.current = some c)
      (hpc : v.acceptor = .alive c .testExit) (hflag : v.shallExit = true) :
      Move workerProcesses v { v with exited := some .forced }
  | noExit (v : Service) (c : ℕ) (hcurrent : v.sched.current = some c)
      (hpc : v.acceptor = .alive c .testExit) (hflag : v.shallExit = false) :
      Move workerProcesses v (v.goto c .workerAccept)
  | workerAccept (v : Service) (c : ℕ) (lock : Bool) (hcurrent : v.sched.current = some c)
      (hpc : v.acceptor = .alive c .workerAccept) :
      Move workerProcesses v (v.goto c (v.workerAccept workerProcesses lock))
  | acceptSuspend (v : Service) (c : ℕ) (s : Sched) (hcurrent : v.sched.current = some c)
      (hpc : v.acceptor = .alive c .accept) (hpool : SamePool v.sched s)
      (hnone : s.current = none) : Move workerProcesses v (v.suspend s)
  | acceptFailed (v : Service) (c : ℕ) (hcurrent : v.sched.current = some c)
      (hpc : v.acceptor = .alive c .accept) : Move workerProcesses v (v.goto c .testStop)
  | acceptClosed (v : Service) (c : ℕ) (hcurrent : v.sched.current = some c)
      (hpc : v.acceptor = .alive c .accept) :
      Move workerProcesses v
        { (v.close v.accepted).goto c .testStop with accepted := v.accepted + 1 }
  | accepted (v : Service) (c : ℕ) (hcurrent : v.sched.current = some c)
      (hpc : v.acceptor = .alive c .accept) :
      Move workerProcesses v
        { v.goto c (.dispatchCoro v.accepted) with accepted := v.accepted + 1 }
  | dispatch (v : Service) (c conn : ℕ) (mem : Bool) (id : ℕ) (s : Sched)
      (hcurrent : v.sched.current = some c) (hpc : v.acceptor = .alive c (.dispatchCoro conn))
      (hget : v.sched.getCoroutine mem = some (id, s)) :
      Move workerProcesses v
        { v.goto c .increaseConn with
          sched := (v.sched.dispatchCoro mem).2
          handlers := v.handlers ++ [⟨id, conn, .requestHandler⟩] }
  | dispatchFailed (v : Service) (c conn : ℕ) (mem : Bool) (hcurrent : v.sched.current = some c)
      (hpc : v.acceptor = .alive c (.dispatchCoro conn))
      (hget : v.sched.getCoroutine mem = none) : Move workerProcesses v (v.goto c (.close conn))
  | increaseConn (v : Service) (c : ℕ) (hcurrent : v.sched.current = some c)
      (hpc : v.acceptor = .alive c .increaseConn) :
      Move workerProcesses v (v.increaseConn.goto c .testStop)
  | closeFailed (v : Service) (c conn : ℕ) (hcurrent : v.sched.current = some c)
      (hpc : v.acceptor = .alive c (.close conn)) :
      Move workerProcesses v ((v.close conn).goto c .testStop)
  | sleep (v : Service) (c : ℕ) (s : Sched) (hcurrent : v.sched.current = some c)
      (hpc : v.acceptor = .alive c .scheduleTimeout) (hpool : SamePool v.sched s)
      (hnone : s.current = none) : Move workerProcesses v ((v.suspend s).goto c .testStop)
  | leave (v : Service) (c : ℕ) (hcurrent : v.sched.current = some c)
      (hpc : v.acceptor = .alive c .decreaseConn) :
      Move workerProcesses v (v.decreaseConnAndCheck.goto c .ended)
  | acceptorEnds (v : Service) (c : ℕ) (hcurrent : v.sched.current = some c)
      (hpc : v.acceptor = .alive c .ended) :
      Move workerProcesses v { v with sched := v.sched.finishCoroutine c, acceptor := .gone }
  | handlerSuspend (v : Service) (c conn : ℕ) (s : Sched) (hcurrent : v.sched.current = some c)
      (hpc : (⟨c, conn, .requestHandler⟩ : Handler) ∈ v.handlers) (hpool : SamePool v.sched s)
      (hnone : s.current = none) :
      Move workerProcesses v (v.suspend s)
  | handled (v : Service) (c conn : ℕ) (hs hs' : List Handler)
      (hcurrent : v.sched.current = some c)
      (hpc : v.handlers = hs ++ ⟨c, conn, .requestHandler⟩ :: hs') :
      Move workerProcesses v { v with handlers := hs ++ ⟨c, conn, .close⟩ :: hs' }
  | closeHandled (v : Service) (c conn : ℕ) (hs hs' : List Handler)
      (hcurrent : v.sched.current = some c)
      (hpc : v.handlers = hs ++ ⟨c, conn, .close⟩ :: hs') :
      Move workerProcesses v
        { v.close conn with handlers := hs ++ ⟨c, conn, .decreaseConn⟩ :: hs' }
  | decreaseConn (v : Service) (c conn : ℕ) (hs hs' : List Handler)
      (hcurrent : v.sched.current = some c)
      (hpc : v.handlers = hs ++ ⟨c, conn, .decreaseConn⟩ :: hs') :
      Move workerProcesses v
        { v.decreaseConnAndCheck with handlers := hs ++ ⟨c, conn, .ended⟩ :: hs' }
  | handlerEnds (v : Service) (c conn : ℕ) (hs hs' : List Handler)
      (hcurrent : v.sched.current = some c)
      (hpc : v.handlers = hs ++ ⟨c, conn, .ended⟩ :: hs') :
      Move workerProcesses v
        { v with sched := v.sched.finishCoroutine c, handlers := hs ++ hs' }

/-- A step of a worker; after `exit` there is none. -/
def ServiceStep (workerProcesses : ℕ) (v v' : Service) : Prop :=
  v.exited = none ∧ Move workerProcesses v v'

end Cserv.Process
