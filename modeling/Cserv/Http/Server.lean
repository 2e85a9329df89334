import Cserv.Coro.Blocking
import Cserv.Http.Service

/-!
# From the sockets to the answers

The handlers of a worker run in its coroutines. Where a handler calls `recv` or `send`, its
coroutine goes into the hook of that call, which makes the system call and suspends the coroutine
when the kernel has nothing for it; meanwhile the main loop runs others. The worker, the sockets and
the handlers are put together here, and what the handlers are told is compared with what the clients
have sent.
-/
namespace Cserv.Http

open Foundations Util Coro Relation

/-! ## Sockets -/

/-- The receiving side of a socket: what the client has sent so far, the part of it that has not
been read, and whether the client has closed its side. -/
structure Inbox where
  arrived : List UInt8
  queue : List UInt8
  eof : Bool

/-- The system call `recv` with room for `len` bytes: the result, the bytes stored, and the socket
after it. It would block only if there is nothing to read. -/
inductive Inbox.Recv (len : ℕ) : Inbox → SysResult → List UInt8 → Inbox → Prop
  | data (x : Inbox) (n : ℕ) (hpos : 0 < n) (hlen : n ≤ len) (hqueue : n ≤ x.queue.length) :
      Recv len x (.ok n) (x.queue.take n) { x with queue := x.queue.drop n }
  | eof (x : Inbox) (hqueue : x.queue = []) (heof : x.eof = true) : Recv len x (.ok 0) [] x
  | error (x : Inbox) (errno : Errno) (hagain : errno = .eagain → x.queue = [] ∧ x.eof = false) :
      Recv len x (.error errno) [] x

/-- What `recv_http_request` makes of the result of `recv`, timeouts apart. -/
def recvOutcome : SysResult → List UInt8 → RecvOutcome
  | .ok 0, _ => .closed
  | .ok _, bs => .data bs
  | .error _, _ => .failed

def taken : SysResult → ℕ
  | .ok n => n
  | .error _ => 0

def RecvOutcome.bytes : RecvOutcome → List UInt8
  | .data bs => bs
  | .closed | .timedOut | .failed => []

/-- What a `recv` with room for `len` bytes can end with. -/
def RecvOutcome.Fits (len : ℕ) (o : RecvOutcome) : Prop :=
  ∀ bs, o = .data bs → bs ≠ [] ∧ bs.length ≤ len

theorem Inbox.Recv.fits {len : ℕ} {x y : Inbox} {r : SysResult} {bs : List UInt8}
    (h : x.Recv len r bs y) : (recvOutcome r bs).Fits len := by
  intro got hgot
  cases h with
  | data n hpos hlen hqueue =>
    obtain ⟨m, rfl⟩ := Nat.exists_eq_add_of_lt hpos
    obtain rfl : x.queue.take _ = got := RecvOutcome.data.inj hgot
    have hlength := List.length_take_of_le hqueue
    constructor
    · intro hnil
      rw [hnil] at hlength
      cases hlength
    · rw [hlength]
      exact hlen
  | eof => cases hgot
  | error => cases hgot

theorem Inbox.Recv.bytes_queue {len : ℕ} {x y : Inbox} {r : SysResult} {bs : List UInt8}
    (h : x.Recv len r bs y) :
    (recvOutcome r bs).bytes ++ y.queue = x.queue ∧ y.arrived = x.arrived := by
  cases h with
  | data n hpos hlen hqueue =>
    obtain ⟨m, rfl⟩ := Nat.exists_eq_add_of_lt hpos
    exact ⟨List.take_append_drop _ _, rfl⟩
  | eof => exact ⟨rfl, rfl⟩
  | error => exact ⟨rfl, rfl⟩

/-! ## Handlers at their calls -/

/-- The next call is one of `recv`: there is room in the buffer, and the body is not complete. -/
def Stage.receives (c : Conn) : Stage → Bool
  | .recvLine | .recvHeader => c.b.free ≠ []
  | .body => (c.b.data.length - c.b.pos : ℤ) ≠ c.r.contentLen ∧ c.b.free ≠ []
  | .parseLine | .parseHeader | .handleHeader | .finalized _ | .handled => false

section Handlers

variable {ι : Type*} [DecidableEq ι]

namespace Handlers

variable (x : Handlers ι) (i : ι)

/-- The hooked call that the handler makes next. -/
def call : Option Call :=
  match x.pc i with
  | .serve p stage => if stage.receives (x.conn i p) then some .recv else none
  | .send _ _ | .fastSend => some .send
  | .alloc | .free _ | .returned | .refused => none

def room : ℕ :=
  match x.object i with
  | some p => (x.mem p).b.free.length
  | none => 0

/-- `recv` has returned: the handler goes on up to its next call. -/
def received (o : RecvOutcome) : Handlers ι :=
  match x.pc i with
  | .serve p stage =>
    let next := serveStep builtinTable (stage, { x.conn i p with sock := [o] })
    (x.setConn i p next.2).goto i (.serve p next.1)
  | _ => x

def transmitted (n : ℕ) : Handlers ι :=
  match x.pc i with
  | .send p bs => (x.put i (bs.take n)).goto i (.free p)
  | .fastSend => (x.put i ((bytes httpInsufficientStoragePage).take n)).goto i .refused
  | _ => x

end Handlers

end Handlers

/-! ## The server -/

/-- A worker with its handlers: which coroutine serves which connection, the sockets, and what the
calls of `recv` for a connection have returned. -/
structure Server (ι : Type*) where
  worker : Worker
  handlers : Handlers ι
  task : ℕ → Option ι
  inbox : ι → Inbox
  heard : ι → Socket

section Steps

variable {ι : Type*} [DecidableEq ι]

namespace Server

variable (x : Server ι) (c : ℕ) (i : ι) (w : Worker)

/-- The coroutine `c` runs, and serves the connection `i`. -/
structure Runs : Prop where
  current : x.worker.run.sched.current = some c
  task : x.task c = some i

/-- A hook for `recv` has gone on; if it has returned, so has `recv`. -/
def afterRecv (o : RecvOutcome) : Server ι :=
  if w.hook c = none then
    { x with
      worker := w
      handlers := x.handlers.received i o
      heard := Function.update x.heard i (x.heard i ++ [o]) }
  else { x with worker := w }

def afterSend (n : ℕ) : Server ι :=
  if w.hook c = none then { x with worker := w, handlers := x.handlers.transmitted i n }
  else { x with worker := w }

/-- Coroutines that serve no connection do not use the descriptors of connections. -/
def Apart (fd : ι → ℕ) : Prop :=
  ∀ c k d i, x.task c = none → x.worker.hook c = some k → x.task d = some i → k.fd ≠ fd i

end Server

/-- The steps of a worker with its clients: a client sends bytes or closes its side, the main loop
and the other coroutines go on, other code uses memory, `worker_accept_cycle` dispatches
`handle_connection`, a handler goes on, enters a hook, makes the system call there or is woken in
it, and at last closes the descriptor and ends. The kernel gives no two open connections the same
descriptor. -/
inductive ServerStep (size : ℕ) (fd : ι → ℕ) : Server ι → Server ι → Prop
  | arrive (x : Server ι) (i : ι) (bs : List UInt8) (heof : (x.inbox i).eof = false) :
      ServerStep size fd x { x with
        inbox := Function.update x.inbox i
          { x.inbox i with arrived := (x.inbox i).arrived ++ bs, queue := (x.inbox i).queue ++ bs } }
  | hangup (x : Server ι) (i : ι) :
      ServerStep size fd x { x with
        inbox := Function.update x.inbox i { x.inbox i with eof := true } }
  | worker (x : Server ι) {w : Worker} (hstep : WorkerStep x.worker w)
      (hother : ∀ c, x.worker.run.sched.current = some c → x.task c = none)
      (hapart : { x with worker := w }.Apart fd) : ServerStep size fd x { x with worker := w }
  | memory (x : Server ι) {h : Handlers ι} (hstep : OtherStep x.handlers h) :
      ServerStep size fd x { x with handlers := h }
  | accept (x : Server ι) (c : ℕ) (mem : Bool) (i : ι) {d : ℕ} {s : Sched}
      (hcurrent : x.worker.run.sched.current = some c) (hhook : x.worker.hook c = none)
      (hother : x.task c = none) (hpc : x.handlers.pc i = .alloc)
      (hget : x.worker.run.sched.getCoroutine mem = some (d, s))
      (hfd : ∀ e j, x.task e = some j → fd j ≠ fd i) (huse : ∀ e, ¬ x.worker.Uses e (fd i)) :
      ServerStep size fd x { x with
        worker := x.worker.setSched (x.worker.run.sched.dispatchCoro mem).2
        task := Function.update x.task d (some i) }
  | handler (x : Server ι) {c : ℕ} {i : ι} {h : Handlers ι} (hruns : x.Runs c i)
      (hhook : x.worker.hook c = none) (hcall : x.handlers.call i = none)
      (hstep : HandlerStep size i x.handlers h) : ServerStep size fd x { x with handlers := h }
  | call (x : Server ι) {c : ℕ} {i : ι} (call : Call) (hruns : x.Runs c i)
      (hhook : x.worker.hook c = none) (hcall : x.handlers.call i = some call) :
      ServerStep size fd x { x with worker := x.worker.setHook c (some ⟨call, fd i, false⟩) }
  | recv (x : Server ι) {c : ℕ} {i : ι} {k : Hook} {r : SysResult} {bs : List UInt8} {inbox : Inbox}
      (o : SocketOptions) (now : ℤ) (ok : Bool) (hruns : x.Runs c i)
      (hhook : x.worker.hook c = some k) (hblocked : k.blocked = false) (hcall : k.call = .recv)
      (hrecv : (x.inbox i).Recv (x.handlers.room i) r bs inbox)
      (hnear : k.call.attempt r o = .register → x.worker.run.NearTimeouts now k.call.timeout) :
      ServerStep size fd x
        ({ x with inbox := Function.update x.inbox i inbox }.afterRecv c i
          (x.worker.proceed c k now ok (k.call.attempt r o)) (recvOutcome r bs))
  | recvWoken (x : Server ι) {c : ℕ} {i : ι} {k : Hook} (sockError : Bool) (now : ℤ) (ok : Bool)
      (hruns : x.Runs c i) (hhook : x.worker.hook c = some k) (hblocked : k.blocked = true)
      (hcall : k.call = .recv) :
      ServerStep size fd x
        (x.afterRecv c i ((x.worker.release c k).2.proceed c k now ok
          (k.call.woken (x.worker.release c k).1 sockError)) .timedOut)
  | send (x : Server ι) {c : ℕ} {i : ι} {k : Hook} (r : SysResult) (o : SocketOptions) (now : ℤ)
      (ok : Bool) (hruns : x.Runs c i) (hhook : x.worker.hook c = some k)
      (hblocked : k.blocked = false) (hcall : k.call = .send)
      (hnear : k.call.attempt r o = .register → x.worker.run.NearTimeouts now k.call.timeout) :
      ServerStep size fd x
        (x.afterSend c i (x.worker.proceed c k now ok (k.call.attempt r o)) (taken r))
  | sendWoken (x : Server ι) {c : ℕ} {i : ι} {k : Hook} (sockError : Bool) (now : ℤ) (ok : Bool)
      (hruns : x.Runs c i) (hhook : x.worker.hook c = some k) (hblocked : k.blocked = true)
      (hcall : k.call = .send) :
      ServerStep size fd x
        (x.afterSend c i ((x.worker.release c k).2.proceed c k now ok
          (k.call.woken (x.worker.release c k).1 sockError)) 0)
  | leave (x : Server ι) {c : ℕ} {i : ι} (hruns : x.Runs c i) (hhook : x.worker.hook c = none)
      (hpc : x.handlers.pc i = .returned ∨ x.handlers.pc i = .refused) :
      ServerStep size fd x { x with
        worker := { x.worker with loop := x.worker.loop.close (fd i) }.setSched
          (x.worker.run.sched.finishCoroutine c)
        task := Function.update x.task c none }

end Steps

/-! ## What the handlers are told -/

theorem recvHttpRequest_sock {c : Conn} {o : RecvOutcome} (hfits : o.Fits c.b.free.length)
    (hfree : c.b.free ≠ []) (sock : Socket) :
    recvHttpRequest { c with sock := o :: sock } =
      ((recvHttpRequest { c with sock := [o] }).1,
        { (recvHttpRequest { c with sock := [o] }).2 with sock := sock }) := by
  cases o with
  | data bs =>
    obtain ⟨hne, hle⟩ := hfits bs rfl
    have hdrop : bs.drop c.b.free.length = [] := List.drop_eq_nil_of_le hle
    simp [recvHttpRequest, hfree, hne, Conn.take, hdrop]
  | closed => simp [recvHttpRequest, hfree]
  | timedOut => simp [recvHttpRequest, hfree]
  | failed => simp [recvHttpRequest, hfree]

section Machine

variable {stage : Stage} {c : Conn}

theorem Stage.receives_free (h : stage.receives c = true) : c.b.free ≠ [] := by
  cases stage with
  | recvLine => exact of_decide_eq_true h
  | recvHeader => exact of_decide_eq_true h
  | body => exact (of_decide_eq_true h).2
  | _ => cases h

theorem Stage.receives_code (h : stage.receives c = true) : stage.code = none := by
  cases stage with
  | finalized => cases h
  | handled => cases h
  | _ => rfl

theorem Stage.receives_sock (sock : Socket) :
    stage.receives { c with sock := sock } = stage.receives c := by
  cases stage <;> rfl

/-- A call that receives nothing does not depend on the socket. -/
theorem serveStep_quiet (h : stage.receives c = false) (sock : Socket) :
    serveStep builtinTable (stage, { c with sock := sock }) =
      ((serveStep builtinTable (stage, c)).1,
        { (serveStep builtinTable (stage, c)).2 with sock := sock }) := by
  cases stage with
  | recvLine =>
    have hfree : c.b.free = [] := not_not.mp (of_decide_eq_false h)
    simp [serveStep, recvHttpRequest, hfree]
  | recvHeader =>
    have hfree : c.b.free = [] := not_not.mp (of_decide_eq_false h)
    simp [serveStep, recvHttpRequest, hfree]
  | body =>
    have hor := Decidable.not_and_iff_or_not.mp (of_decide_eq_false h)
    by_cases hlen : (c.b.data.length - c.b.pos : ℤ) = c.r.contentLen
    · simp [serveStep, hlen]
    · have hfree : c.b.free = [] := not_not.mp (hor.resolve_left (not_not.mpr hlen))
      simp [serveStep, recvHttpRequest, hlen, hfree]
  | _ => rfl

/-- A call that receives takes the first outcome of the socket. -/
theorem serveStep_receives (h : stage.receives c = true) {o : RecvOutcome}
    (hfits : o.Fits c.b.free.length) (sock : Socket) :
    serveStep builtinTable (stage, { c with sock := o :: sock }) =
      ((serveStep builtinTable (stage, { c with sock := [o] })).1,
        { (serveStep builtinTable (stage, { c with sock := [o] })).2 with sock := sock }) := by
  have hrecv := recvHttpRequest_sock hfits (Stage.receives_free h) sock
  cases stage with
  | recvLine => simp only [serveStep, hrecv]
  | recvHeader => simp only [serveStep, hrecv]
  | body =>
    have hlen : (c.b.data.length - c.b.pos : ℤ) ≠ c.r.contentLen := (of_decide_eq_true h).1
    simp only [serveStep, if_neg hlen, hrecv]
  | _ => cases h

end Machine

section Handlers

variable {ι : Type*} [DecidableEq ι] {size : ℕ} {x y : Handlers ι} {i : ι}

/-- The handlers with sockets that have still to deliver `sock`. -/
def Handlers.withSock (x : Handlers ι) (sock : ι → Socket) : Handlers ι := { x with sock := sock }

omit [DecidableEq ι] in
theorem Handlers.call_cases {call : Call} (h : x.call i = some call) :
    (call = .recv ∧ ∃ p stage, x.pc i = .serve p stage ∧ stage.receives (x.conn i p) = true) ∨
      (call = .send ∧ ((∃ p bs, x.pc i = .send p bs) ∨ x.pc i = .fastSend)) := by
  unfold Handlers.call at h
  cases hpc : x.pc i with
  | serve p stage =>
    simp only [hpc] at h
    split_ifs at h with hreceives
    exact Or.inl ⟨(Option.some.inj h).symm, p, stage, rfl, hreceives⟩
  | send p bs =>
    simp only [hpc] at h
    exact Or.inr ⟨(Option.some.inj h).symm, Or.inl ⟨p, bs, rfl⟩⟩
  | fastSend =>
    simp only [hpc] at h
    exact Or.inr ⟨(Option.some.inj h).symm, Or.inr rfl⟩
  | _ =>
    simp only [hpc] at h
    cases h

theorem HandlerStep.withSock (h : HandlerStep size i x y) (hcall : x.call i = none)
    (sock : ι → Socket) : HandlerStep size i (x.withSock sock) (y.withSock sock) := by
  cases h with
  | alloc answer o hpc hcall hp hold hnew =>
    exact .alloc (x.withSock sock) answer o hpc hcall hp hold hnew
  | allocFailed answer hpc hcall => exact .allocFailed (x.withSock sock) answer hpc hcall
  | serve p stage hpc hstage =>
    have hquiet : stage.receives (x.conn i p) = false := by
      simpa [Handlers.call, hpc] using hcall
    have hserve : HandlerStep size i (x.withSock sock) _ := .serve _ p stage hpc hstage
    have hconn : (x.withSock sock).conn i p = { x.conn i p with sock := sock i } := rfl
    rw [hconn, serveStep_quiet hquiet] at hserve
    simpa [Handlers.withSock, Handlers.setConn, Handlers.goto, Handlers.store] using hserve
  | finalize p stage code hpc hcode hcall =>
    exact .finalize (x.withSock sock) p stage code hpc hcode hcall
  | finalizeNone p stage code hpc hcode hcall =>
    exact .finalizeNone (x.withSock sock) p stage code hpc hcode hcall
  | send p bs taken hpc => simp [Handlers.call, hpc] at hcall
  | free p hpc hcall => exact .free (x.withSock sock) p hpc hcall
  | fastSend taken hpc => simp [Handlers.call, hpc] at hcall

theorem HandlerStep.received (hcall : x.call i = some .recv) {o : RecvOutcome}
    (hfits : o.Fits (x.room i)) (sock : ι → Socket) :
    HandlerStep size i (x.withSock (Function.update sock i (o :: sock i)))
      ((x.received i o).withSock sock) := by
  obtain ⟨-, p, stage, hpc, hreceives⟩ | ⟨hsend, -⟩ := Handlers.call_cases hcall
  swap
  · cases hsend
  have hroom : x.room i = (x.conn i p).b.free.length := by
    simp [Handlers.room, Handlers.object, hpc, HandlerPc.object, Handlers.conn]
  rw [hroom] at hfits
  have hserve : HandlerStep size i (x.withSock (Function.update sock i (o :: sock i))) _ :=
    .serve _ p stage hpc (Stage.receives_code hreceives)
  have hconn : (x.withSock (Function.update sock i (o :: sock i))).conn i p =
      { x.conn i p with sock := o :: sock i } := by
    simp [Handlers.conn, Handlers.withSock]
  rw [hconn, serveStep_receives hreceives hfits] at hserve
  simpa [Handlers.received, hpc, Handlers.withSock, Handlers.setConn, Handlers.goto,
    Handlers.store] using hserve

theorem HandlerStep.transmitted (hcall : x.call i = some .send) (n : ℕ) (sock : ι → Socket) :
    HandlerStep size i (x.withSock sock) ((x.transmitted i n).withSock sock) := by
  obtain ⟨hrecv, -⟩ | ⟨-, ⟨p, bs, hpc⟩ | hpc⟩ := Handlers.call_cases hcall
  · cases hrecv
  · simp only [Handlers.transmitted, hpc]
    exact .send (x.withSock sock) p bs n hpc
  · simp only [Handlers.transmitted, hpc]
    exact .fastSend (x.withSock sock) n hpc

omit [DecidableEq ι] in
theorem OtherStep.withSock (h : OtherStep x y) (sock : ι → Socket) :
    OtherStep (x.withSock sock) (y.withSock sock) := by
  cases h with
  | malloc n answer => exact .malloc (x.withSock sock) n answer
  | free hp hcall => exact .free (x.withSock sock) hp hcall
  | store o hp => exact .store (x.withSock sock) o hp

omit [DecidableEq ι] in
theorem Handlers.call_congr (hpc : y.pc i = x.pc i)
    (hmem : ∀ p, x.object i = some p → y.mem p = x.mem p) : y.call i = x.call i := by
  unfold Handlers.call
  rw [hpc]
  cases hcase : x.pc i with
  | serve p stage =>
    have hobject : y.mem p = x.mem p := hmem p (congrArg HandlerPc.object hcase)
    have hconn : y.conn i p = { x.conn i p with sock := y.sock i } := by
      rw [Handlers.conn, hobject, Handlers.conn]
    simp only [hconn, Stage.receives_sock]
  | _ => rfl

omit [DecidableEq ι] in
theorem Handlers.call_withSock (sock : ι → Socket) : (x.withSock sock).call i = x.call i :=
  Handlers.call_congr rfl fun _ _ => rfl

theorem HandlerStep.call_eq {sock₀ : ι → Socket} (hinv : HandlersInv size sock₀ x)
    (hstep : HandlerStep size i x y) {j : ι} (hj : j ≠ i) : y.call j = x.call j := by
  have hmoves := hstep.moves hinv
  exact Handlers.call_congr (hmoves.pc j hj) (hmoves.mem j hj)

omit [DecidableEq ι] in
theorem OtherStep.call_eq (hstep : OtherStep x y) (j : ι) : y.call j = x.call j := by
  cases hstep with
  | malloc n answer => exact Handlers.call_congr rfl fun _ _ => rfl
  | free hp hcall => exact Handlers.call_congr rfl fun _ _ => rfl
  | @store p o hp =>
    refine Handlers.call_congr rfl fun q hq => Function.update_of_ne ?_ _ _
    rintro rfl
    exact hp (Or.inr (Or.inr ⟨j, hq⟩))

end Handlers

/-! ## The invariant -/

section Invariant

variable {ι : Type*} [DecidableEq ι] {size : ℕ} {fd : ι → ℕ} {x y : Server ι} {c : ℕ} {i : ι}

/-- The coroutine `c` serves the connection `i`: a hook that it is in is for the descriptor of the
connection and for the call that the handler makes, and it is suspended nowhere else. -/
structure Serves (fd : ι → ℕ) (x : Server ι) (c : ℕ) (i : ι) : Prop where
  hook : ∀ k, x.worker.hook c = some k → k.fd = fd i ∧ x.handlers.call i = some k.call
  busy : x.worker.run.sched.Busy c
  suspended : c ∈ x.worker.run.suspended → x.worker.hook c ≠ none

structure Tasks (fd : ι → ℕ) (x : Server ι) : Prop where
  apart : x.Apart fd
  distinct : ∀ c d i j, x.task c = some i → x.task d = some j → fd i = fd j → c = d
  serves : ∀ c i, x.task c = some i → Serves fd x c i

omit [DecidableEq ι] in
theorem Serves.aside (h : Serves fd x c i) (haside : Aside x.worker y.worker c)
    (hcall : y.handlers.call i = x.handlers.call i) : Serves fd y c i where
  hook k hk := by
    rw [haside.hook] at hk
    rw [hcall]
    exact h.hook k hk
  busy := haside.busy h.busy
  suspended hin := by
    rw [haside.hook]
    exact h.suspended (haside.suspended hin)

omit [DecidableEq ι] in
theorem Tasks.frame (h : Tasks fd x) (hworker : y.worker = x.worker) (htask : y.task = x.task)
    (hcall : ∀ i, y.handlers.call i = x.handlers.call i) : Tasks fd y := by
  constructor
  · unfold Server.Apart
    rw [hworker, htask]
    exact h.apart
  · rw [htask]
    exact h.distinct
  · rw [htask]
    intro c i hc
    refine (h.serves c i hc).aside ?_ (hcall i)
    rw [hworker]
    exact ⟨rfl, id, id⟩

omit [DecidableEq ι] in
theorem Tasks.running (h : Tasks fd x) (hc : x.task c = some i) (htask : y.task = x.task)
    (haside : ∀ d, d ≠ c → Aside x.worker y.worker d)
    (hcall : ∀ j, j ≠ i → y.handlers.call j = x.handlers.call j) (hself : Serves fd y c i) :
    Tasks fd y := by
  constructor
  · intro e k d j he hk hd
    rw [htask] at he hd
    have hec : e ≠ c := by
      rintro rfl
      rw [hc] at he
      cases he
    rw [(haside e hec).hook] at hk
    exact h.apart e k d j he hk hd
  · rw [htask]
    exact h.distinct
  · rw [htask]
    intro d j hd
    by_cases hdc : d = c
    · subst hdc
      obtain rfl := Option.some.inj (hc.symm.trans hd)
      exact hself
    · refine (h.serves d j hd).aside (haside d hdc) (hcall j ?_)
      rintro rfl
      exact hdc (h.distinct d c j j hd hc rfl)

/-- The handlers run as if the sockets had been set out beforehand, with what the calls of `recv`
have returned first and anything after it. -/
structure ServerInv (size : ℕ) (fd : ι → ℕ) (init : (ι → Socket) → Handlers ι) (x : Server ι) :
    Prop where
  worker : WorkerInv x.worker
  runs : HookRuns x.worker
  handlers : ∀ sock, ReflTransGen (HandlersStep size) (init fun i => x.heard i ++ sock i)
    (x.handlers.withSock sock)
  bytes : ∀ i, (x.heard i).flatMap RecvOutcome.bytes ++ (x.inbox i).queue = (x.inbox i).arrived
  tasks : Tasks fd x

/-- The handler `i` makes a step that fits what has been heard. -/
def Advances (size : ℕ) (i : ι) (x y : Server ι) : Prop :=
  ∀ sock, ∃ sock', HandlerStep size i (x.handlers.withSock sock') (y.handlers.withSock sock) ∧
    (fun j => x.heard j ++ sock' j) = fun j => y.heard j ++ sock j

variable {init : (ι → Socket) → Handlers ι}

/-- Handlers that have served nothing yet, whatever their sockets are to deliver. -/
structure Fresh (size : ℕ) (init : (ι → Socket) → Handlers ι) : Prop where
  room : 720 ≤ size
  inv : ∀ sock, HandlersInv size sock (init sock)

theorem ServerInv.handlersInv (h : ServerInv size fd init x) (hinit : Fresh size init)
    (sock : ι → Socket) :
    HandlersInv size (fun i => x.heard i ++ sock i) (x.handlers.withSock sock) :=
  run_invariant _ (fun _ _ ha hab => ha.step hinit.room hab) (hinit.inv _) (h.handlers sock)

theorem Advances.call_eq (hadv : Advances size i x y) (h : ServerInv size fd init x)
    (hinit : Fresh size init) {j : ι} (hj : j ≠ i) : y.handlers.call j = x.handlers.call j := by
  obtain ⟨sock, hstep, -⟩ := hadv fun _ => []
  have hcall := hstep.call_eq (h.handlersInv hinit sock) hj
  rwa [Handlers.call_withSock, Handlers.call_withSock] at hcall

theorem ServerInv.running (h : ServerInv size fd init x) (hinit : Fresh size init)
    (hruns : x.Runs c i) (hworker : x.worker = y.worker ∨ WorkerStep x.worker y.worker)
    (htask : y.task = x.task)
    (hhandlers : Advances size i x y ∨ y.handlers = x.handlers ∧ y.heard = x.heard)
    (hbytes : ∀ j, (y.heard j).flatMap RecvOutcome.bytes ++ (y.inbox j).queue = (y.inbox j).arrived)
    (hself : Serves fd y c i) : ServerInv size fd init y := by
  have haside : ∀ d, d ≠ c → Aside x.worker y.worker d := by
    intro d hd
    rcases hworker with heq | hstep
    · rw [heq]
      exact ⟨rfl, id, id⟩
    · refine workerStep_aside h.worker hstep ?_
      rw [hruns.current]
      exact fun hcd => hd (Option.some.inj hcd).symm
  have hinv : WorkerInv y.worker ∧ HookRuns y.worker := by
    rcases hworker with heq | hstep
    · rw [← heq]
      exact ⟨h.worker, h.runs⟩
    · exact ⟨workerStep_inv h.worker hstep, workerStep_hookRuns h.worker h.runs hstep⟩
  rcases hhandlers with hadv | ⟨hsame, hheard⟩
  · refine ⟨hinv.1, hinv.2, fun sock => ?_, hbytes,
      h.tasks.running hruns.task htask haside (fun j hj => hadv.call_eq h hinit hj) hself⟩
    obtain ⟨sock', hstep, heq⟩ := hadv sock
    rw [← heq]
    exact (h.handlers sock').tail (.handler i hstep)
  · refine ⟨hinv.1, hinv.2, ?_, hbytes,
      h.tasks.running hruns.task htask haside (fun j _ => by rw [hsame]) hself⟩
    rw [hsame, hheard]
    exact h.handlers

/-! ## The steps -/

theorem ServerInv.not_suspended (h : ServerInv size fd init x) (hruns : x.Runs c i) :
    c ∉ x.worker.run.suspended := by
  rw [h.worker.run.suspended]
  exact h.worker.run.current_not_waiting hruns.current

/-- Where its hook is, the coroutine `c` serves `i` if the handler is still at the call. -/
theorem ServerInv.serves_continues (h : ServerInv size fd init x) (hruns : x.Runs c i) {k : Hook}
    (hk : x.worker.hook c = some k) (hcontinues : Continues x.worker y.worker c k)
    (hcall : y.worker.hook c ≠ none → y.handlers.call i = x.handlers.call i) : Serves fd y c i where
  hook m hm := by
    obtain ⟨blocked, hgoes⟩ | ⟨hnone, -⟩ := hcontinues.hook
    · obtain rfl := Option.some.inj (hgoes.symm.trans hm)
      rw [hcall (by rw [hm]; exact Option.some_ne_none _)]
      exact (h.tasks.serves c i hruns.task).hook k hk
    · rw [hnone] at hm
      cases hm
  busy := hcontinues.busy
  suspended hin := by
    obtain ⟨blocked, hgoes⟩ | ⟨-, hsame⟩ := hcontinues.hook
    · rw [hgoes]
      exact Option.some_ne_none _
    · rw [hsame] at hin
      exact absurd hin (h.not_suspended hruns)

theorem ServerInv.afterRecv (h : ServerInv size fd init x) (hinit : Fresh size init)
    (hruns : x.Runs c i) {k : Hook} (hk : x.worker.hook c = some k) (hcall : k.call = .recv)
    {w : Worker} (hcontinues : Continues x.worker w c k) {o : RecvOutcome}
    (hfits : o.Fits (x.handlers.room i)) (inbox : Inbox)
    (hbytes : o.bytes ++ inbox.queue = (x.inbox i).queue)
    (harrived : inbox.arrived = (x.inbox i).arrived) (hkept : w.hook c ≠ none → o.bytes = []) :
    ServerInv size fd init
      ({ x with inbox := Function.update x.inbox i inbox }.afterRecv c i w o) := by
  have hat : x.handlers.call i = some .recv := by
    rw [← hcall]
    exact ((h.tasks.serves c i hruns.task).hook k hk).2
  unfold Server.afterRecv
  split_ifs with hnone
  · refine h.running hinit hruns (Or.inr hcontinues.step) rfl (Or.inl fun sock => ?_) (fun j => ?_)
      (h.serves_continues hruns hk hcontinues fun hne => absurd hnone hne)
    · refine ⟨Function.update sock i (o :: sock i), HandlerStep.received hat hfits sock, ?_⟩
      funext j
      by_cases hj : j = i
      · subst hj
        simp
      · simp [hj]
    · by_cases hj : j = i
      · subst hj
        simp [← h.bytes j, ← hbytes, harrived]
      · simp [hj, h.bytes j]
  · refine h.running hinit hruns (Or.inr hcontinues.step) rfl (Or.inr ⟨rfl, rfl⟩) (fun j => ?_)
      (h.serves_continues hruns hk hcontinues fun _ => rfl)
    by_cases hj : j = i
    · subst hj
      have hqueue : inbox.queue = (x.inbox j).queue := by
        rw [← hbytes, hkept hnone, List.nil_append]
      simp [hqueue, harrived, h.bytes j]
    · simp [hj, h.bytes j]

theorem ServerInv.afterSend (h : ServerInv size fd init x) (hinit : Fresh size init)
    (hruns : x.Runs c i) {k : Hook} (hk : x.worker.hook c = some k) (hcall : k.call = .send)
    {w : Worker} (hcontinues : Continues x.worker w c k) (n : ℕ) :
    ServerInv size fd init (x.afterSend c i w n) := by
  have hat : x.handlers.call i = some .send := by
    rw [← hcall]
    exact ((h.tasks.serves c i hruns.task).hook k hk).2
  unfold Server.afterSend
  split_ifs with hnone
  · exact h.running hinit hruns (Or.inr hcontinues.step) rfl
      (Or.inl fun sock => ⟨sock, HandlerStep.transmitted hat n sock, rfl⟩) h.bytes
      (h.serves_continues hruns hk hcontinues fun hne => absurd hnone hne)
  · exact h.running hinit hruns (Or.inr hcontinues.step) rfl (Or.inr ⟨rfl, rfl⟩) h.bytes
      (h.serves_continues hruns hk hcontinues fun _ => rfl)

omit [DecidableEq ι] in
theorem Tasks.unused (h : Tasks fd x) (hc : x.task c = some i) (hhook : x.worker.hook c = none)
    (d : ℕ) : ¬ x.worker.Uses d (fd i) := by
  rintro ⟨k, hk, hfd⟩
  cases hd : x.task d with
  | none => exact h.apart d k c i hd hk hc hfd
  | some j =>
    have hsame : fd j = fd i := ((h.serves d j hd).hook k hk).1.symm.trans hfd
    obtain rfl := h.distinct d c j i hd hc hsame
    rw [hhook] at hk
    cases hk

theorem ServerInv.worker_step (h : ServerInv size fd init x) {w : Worker}
    (hstep : WorkerStep x.worker w)
    (hother : ∀ c, x.worker.run.sched.current = some c → x.task c = none)
    (hapart : { x with worker := w }.Apart fd) : ServerInv size fd init { x with worker := w } := by
  refine ⟨workerStep_inv h.worker hstep, workerStep_hookRuns h.worker h.runs hstep, h.handlers,
    h.bytes, hapart, h.tasks.distinct, fun c i hc => ?_⟩
  refine (h.tasks.serves c i hc).aside (workerStep_aside h.worker hstep fun hcurrent => ?_) rfl
  have hnone := hother c hcurrent
  rw [hc] at hnone
  cases hnone

theorem ServerInv.accept (h : ServerInv size fd init x) {mem : Bool} {d : ℕ} {s : Sched}
    (hcurrent : x.worker.run.sched.current = some c) (hhook : x.worker.hook c = none)
    (hother : x.task c = none) (hget : x.worker.run.sched.getCoroutine mem = some (d, s))
    (hfd : ∀ e j, x.task e = some j → fd j ≠ fd i) (huse : ∀ e, ¬ x.worker.Uses e (fd i)) :
    ServerInv size fd init { x with
      worker := x.worker.setSched (x.worker.run.sched.dispatchCoro mem).2
      task := Function.update x.task d (some i) } := by
  have hstep := WorkerStep.dispatch x.worker c mem hcurrent hhook
  have hinv := workerStep_inv h.worker hstep
  obtain ⟨hfresh, hactive⟩ := getCoroutine_fresh h.worker.run hget
  have hold : ∀ {e : ℕ} {j : ι}, Function.update x.task d (some i) e = some j →
      e = d ∧ i = j ∨ e ≠ d ∧ x.task e = some j := by
    intro e j he
    by_cases hed : e = d
    · rw [hed, Function.update_self] at he
      exact Or.inl ⟨hed, Option.some.inj he⟩
    · rw [Function.update_of_ne hed] at he
      exact Or.inr ⟨hed, he⟩
  refine ⟨hinv, workerStep_hookRuns h.worker h.runs hstep, h.handlers, h.bytes, ?_, ?_, ?_⟩
  · intro e k f j he hk hf
    have hed : e ≠ d := by
      rintro rfl
      cases (Function.update_self ..).symm.trans he
    have heold : x.task e = none := (Function.update_of_ne hed _ _).symm.trans he
    obtain ⟨-, rfl⟩ | ⟨-, hf⟩ := hold hf
    · exact fun hkfd => huse e ⟨k, hk, hkfd⟩
    · exact h.tasks.apart e k f j heold hk hf
  · intro e f j l he hf hsame
    obtain ⟨rfl, rfl⟩ | ⟨-, he⟩ := hold he
    · obtain ⟨rfl, -⟩ | ⟨-, hf⟩ := hold hf
      · rfl
      · exact absurd hsame.symm (hfd f l hf)
    · obtain ⟨-, rfl⟩ | ⟨-, hf⟩ := hold hf
      · exact absurd hsame (hfd e j he)
      · exact h.tasks.distinct e f j l he hf hsame
  · intro e j he
    obtain ⟨rfl, rfl⟩ | ⟨-, he⟩ := hold he
    · refine ⟨fun k hk => ?_, hinv.run.busy_active hactive, fun hin => ?_⟩
      · exact absurd (h.worker.busy e k hk) hfresh
      · have hwaiting := (hinv.run.suspended e).mp hin
        exact absurd hactive (hinv.run.waiting_only hwaiting).1
    · refine (h.tasks.serves e j he).aside (workerStep_aside h.worker hstep fun hce => ?_) rfl
      obtain rfl := Option.some.inj (hcurrent.symm.trans hce)
      rw [hother] at he
      cases he

theorem ServerInv.leave (h : ServerInv size fd init x) (hruns : x.Runs c i)
    (hhook : x.worker.hook c = none) :
    ServerInv size fd init { x with
      worker := { x.worker with loop := x.worker.loop.close (fd i) }.setSched
        (x.worker.run.sched.finishCoroutine c)
      task := Function.update x.task c none } := by
  have hclose := WorkerStep.close x.worker c (fd i) hruns.current hhook
    (h.tasks.unused hruns.task hhook)
  have hclosed := workerStep_inv h.worker hclose
  have hfinish := WorkerStep.finish { x.worker with loop := x.worker.loop.close (fd i) } c
    hruns.current hhook
  have hrunsClosed := workerStep_hookRuns h.worker h.runs hclose
  have haside : ∀ d, d ≠ c → Aside x.worker ({ x.worker with
      loop := x.worker.loop.close (fd i) }.setSched (x.worker.run.sched.finishCoroutine c)) d := by
    intro d hd
    have hne : x.worker.run.sched.current ≠ some d := by
      rw [hruns.current]
      exact fun hcd => hd (Option.some.inj hcd).symm
    exact (workerStep_aside h.worker hclose hne).trans (workerStep_aside hclosed hfinish hne)
  have hold : ∀ {e : ℕ} {j : ι}, Function.update x.task c none e = some j →
      e ≠ c ∧ x.task e = some j := by
    intro e j he
    by_cases hec : e = c
    · rw [hec, Function.update_self] at he
      cases he
    · rw [Function.update_of_ne hec] at he
      exact ⟨hec, he⟩
  refine ⟨workerStep_inv hclosed hfinish, workerStep_hookRuns hclosed hrunsClosed hfinish,
    h.handlers, h.bytes, ?_, ?_, ?_⟩
  · intro e k f j he hk hf
    have hkx : x.worker.hook e = some k := hk
    have hec : e ≠ c := by
      rintro rfl
      rw [hhook] at hkx
      cases hkx
    have heold : x.task e = none := (Function.update_of_ne hec _ _).symm.trans he
    exact h.tasks.apart e k f j heold hkx (hold hf).2
  · intro e f j l he hf
    exact h.tasks.distinct e f j l (hold he).2 (hold hf).2
  · intro e j he
    obtain ⟨hec, he⟩ := hold he
    exact (h.tasks.serves e j he).aside (haside e hec) rfl

theorem recv_stored {w : Worker} {k : Hook} {r : SysResult} {o : SocketOptions} {now : ℤ} {ok : Bool}
    {len : ℕ} {bs : List UInt8} {a b : Inbox} (hcall : k.call = .recv) (hrecv : a.Recv len r bs b)
    (hhook : (w.proceed c k now ok (k.call.attempt r o)).hook c ≠ none) :
    (recvOutcome r bs).bytes = [] := by
  rw [hcall] at hhook
  cases hrecv with
  | data n hpos hlen hqueue => exact absurd (Function.update_self ..) hhook
  | eof => rfl
  | error => rfl

theorem attempt_ne_close {call : Call} (hcall : call = .recv ∨ call = .send) {r : SysResult}
    {o : SocketOptions} {fd : ℕ} {value : ℤ} : call.attempt r o ≠ .close fd value := by
  intro hclose
  rcases hcall with rfl | rfl <;>
    cases r with
    | ok n => cases hclose
    | error errno => cases errno <;> cases hclose

theorem ServerInv.step (hinit : Fresh size init) (h : ServerInv size fd init x)
    (hstep : ServerStep size fd x y) : ServerInv size fd init y := by
  cases hstep with
  | arrive i bs heof =>
    refine ⟨h.worker, h.runs, h.handlers, fun j => ?_, h.tasks.frame rfl rfl fun _ => rfl⟩
    by_cases hj : j = i
    · subst hj
      simp [← h.bytes j]
    · simp [hj, h.bytes j]
  | hangup i =>
    refine ⟨h.worker, h.runs, h.handlers, fun j => ?_, h.tasks.frame rfl rfl fun _ => rfl⟩
    by_cases hj : j = i
    · subst hj
      simp [h.bytes j]
    · simp [hj, h.bytes j]
  | worker hstep hother hapart => exact h.worker_step hstep hother hapart
  | memory hstep =>
    exact ⟨h.worker, h.runs, fun sock => (h.handlers sock).tail (.other (hstep.withSock sock)),
      h.bytes, h.tasks.frame rfl rfl hstep.call_eq⟩
  | accept c mem i hcurrent hhook hother hpc hget hfd huse =>
    exact h.accept hcurrent hhook hother hget hfd huse
  | @handler c i _ hruns hhook hcall hstep =>
    refine h.running hinit hruns (Or.inl rfl) rfl
      (Or.inl fun sock => ⟨sock, hstep.withSock hcall sock, rfl⟩) h.bytes ⟨fun k hk => ?_, ?_, ?_⟩
    · rw [hhook] at hk
      cases hk
    · exact (h.tasks.serves c i hruns.task).busy
    · exact (h.tasks.serves c i hruns.task).suspended
  | @call c i call hruns hhook hcall =>
    have hstep := WorkerStep.call x.worker c call (fd i) hruns.current hhook
      (h.tasks.unused hruns.task hhook)
    refine h.running hinit hruns (Or.inr hstep) rfl (Or.inr ⟨rfl, rfl⟩) h.bytes
      ⟨fun k hk => ?_, (h.tasks.serves c i hruns.task).busy, fun _ => ?_⟩
    · simp only [Worker.setHook, Function.update_self] at hk
      obtain rfl := Option.some.inj hk
      exact ⟨rfl, hcall⟩
    · simp [Worker.setHook]
  | recv o now ok hruns hhook hblocked hcall hrecv hnear =>
    obtain ⟨hbytes, harrived⟩ := hrecv.bytes_queue
    exact h.afterRecv hinit hruns hhook hcall
      (.attempt h.worker hruns.current hhook hblocked
        (fun _ _ hclose => absurd hclose (attempt_ne_close (Or.inl hcall))) hnear)
      hrecv.fits _ hbytes harrived (recv_stored hcall hrecv)
  | @recvWoken c i k sockError now ok hruns hhook hblocked hcall =>
    have hcontinues : Continues x.worker ((x.worker.release c k).2.proceed c k now ok
        (k.call.woken (x.worker.release c k).1 sockError)) c k :=
      .wake h.worker hruns.current hhook hblocked
    have hfits : RecvOutcome.timedOut.Fits (x.handlers.room i) := fun bs hbs => by cases hbs
    have hafter := h.afterRecv hinit hruns hhook hcall hcontinues hfits (x.inbox i) rfl rfl
      fun _ => rfl
    rw [Function.update_eq_self] at hafter
    exact hafter
  | send r o now ok hruns hhook hblocked hcall hnear =>
    exact h.afterSend hinit hruns hhook hcall
      (.attempt h.worker hruns.current hhook hblocked
        (fun _ _ hclose => absurd hclose (attempt_ne_close (Or.inr hcall))) hnear) (taken r)
  | sendWoken sockError now ok hruns hhook hblocked hcall =>
    exact h.afterSend hinit hruns hhook hcall
      (.wake h.worker hruns.current hhook hblocked) 0
  | leave hruns hhook hpc => exact h.leave hruns hhook

/-! ## After an event -/

/-- The coroutine `c` of the connection `i` is in `recv`, with bytes waiting for it, and goes on
there after an event. -/
structure Ready (fd : ι → ℕ) (heard : Socket) (c : ℕ) (i : ι) (x : Server ι) : Prop where
  task : x.task c = some i
  heard : x.heard i = heard
  queue : (x.inbox i).queue ≠ []
  place : (x.worker.hook c = some ⟨.recv, fd i, true⟩ ∧ x.worker.phase = .runReady ∧
      (x.worker.run.sched.coro c).activeByTimeout = false ∧
      (c ∈ x.worker.run.sched.active ∨ x.worker.run.sched.current = some c)) ∨
    x.worker.hook c = some ⟨.recv, fd i, false⟩ ∧ x.worker.run.sched.current = some c

/-- A `recv` that found bytes has returned, with some of them or with an error of the system
call. -/
def Heard (heard : Socket) (i : ι) (x : Server ι) : Prop :=
  x.heard i = heard ++ [.failed] ∨ ∃ bs, bs ≠ [] ∧ x.heard i = heard ++ [.data bs]

namespace Ready

variable {heard : Socket} {c' : ℕ} {i' : ι}

omit [DecidableEq ι] in
theorem hook (h : Ready fd heard c i x) : ∃ blocked, x.worker.hook c = some ⟨.recv, fd i, blocked⟩ := by
  rcases h.place with ⟨hk, -⟩ | ⟨hk, -⟩
  · exact ⟨_, hk⟩
  · exact ⟨_, hk⟩

omit [DecidableEq ι] in
theorem frame (h : Ready fd heard c i x) (hworker : y.worker = x.worker)
    (htask : y.task c = x.task c) (hheard : y.heard i = x.heard i)
    (hqueue : (y.inbox i).queue ≠ []) : Ready fd heard c i y where
  task := htask.trans h.task
  heard := hheard.trans h.heard
  queue := hqueue
  place := by
    rw [hworker]
    exact h.place

theorem client (h : Ready fd heard c i x) (j : ι) {inbox : Inbox}
    (hinbox : (x.inbox j).queue ≠ [] → inbox.queue ≠ []) :
    Ready fd heard c i { x with inbox := Function.update x.inbox j inbox } := by
  have hqueue : (Function.update x.inbox j inbox i).queue ≠ [] := by
    by_cases hj : i = j
    · subst hj
      rw [Function.update_self]
      exact hinbox h.queue
    · rw [Function.update_of_ne hj]
      exact h.queue
  exact h.frame rfl rfl rfl hqueue

omit [DecidableEq ι] in
theorem aside (h : Ready fd heard c i x) (hcurrent : x.worker.run.sched.current ≠ some c)
    (hinv : WorkerInv x.worker) (hstep : WorkerStep x.worker y.worker)
    (htask : y.task c = x.task c) (hheard : y.heard i = x.heard i)
    (hqueue : (y.inbox i).queue = (x.inbox i).queue) : Ready fd heard c i y where
  task := htask.trans h.task
  heard := hheard.trans h.heard
  queue := hqueue ▸ h.queue
  place := by
    obtain ⟨hk, hphase, hflag, hplace⟩ | ⟨-, hrunning⟩ := h.place
    · have hwoken : Woken x.worker c := ⟨hphase, hflag, hplace.resolve_right hcurrent⟩
      refine Or.inl ⟨?_, hwoken.step hinv hstep⟩
      rw [(workerStep_aside hinv hstep hcurrent).hook]
      exact hk
    · exact absurd hrunning hcurrent

theorem afterRecv (h : Ready fd heard c i x) (hcurrent : x.worker.run.sched.current ≠ some c)
    (hinv : WorkerInv x.worker) {w : Worker} (hstep : WorkerStep x.worker w) (hi : i ≠ i')
    (inbox : Inbox) (o : RecvOutcome) :
    Ready fd heard c i
      ({ x with inbox := Function.update x.inbox i' inbox }.afterRecv c' i' w o) := by
  have hqueue : (Function.update x.inbox i' inbox i).queue = (x.inbox i).queue := by
    rw [Function.update_of_ne hi]
  unfold Server.afterRecv
  split_ifs
  · exact h.aside hcurrent hinv hstep rfl (Function.update_of_ne hi _ _) hqueue
  · exact h.aside hcurrent hinv hstep rfl rfl hqueue

theorem afterSend (h : Ready fd heard c i x) (hcurrent : x.worker.run.sched.current ≠ some c)
    (hinv : WorkerInv x.worker) {w : Worker} (hstep : WorkerStep x.worker w) (n : ℕ) :
    Ready fd heard c i (x.afterSend c' i' w n) := by
  unfold Server.afterSend
  split_ifs
  · exact h.aside hcurrent hinv hstep rfl rfl rfl
  · exact h.aside hcurrent hinv hstep rfl rfl rfl

theorem recv (h : Ready fd heard c i x) (hcurrent : x.worker.run.sched.current = some c) {k : Hook}
    (hhook : x.worker.hook c = some k) {r : SysResult} {bs : List UInt8} {inbox : Inbox}
    (o : SocketOptions) (now : ℤ) (ok : Bool)
    (hrecv : (x.inbox i).Recv (x.handlers.room i) r bs inbox) :
    Ready fd heard c i ({ x with inbox := Function.update x.inbox i inbox }.afterRecv c i
        (x.worker.proceed c k now ok (k.call.attempt r o)) (recvOutcome r bs)) ∨
      Heard heard i ({ x with inbox := Function.update x.inbox i inbox }.afterRecv c i
        (x.worker.proceed c k now ok (k.call.attempt r o)) (recvOutcome r bs)) := by
  obtain ⟨blocked, hk⟩ := h.hook
  obtain rfl := Option.some.inj (hk.symm.trans hhook)
  -- a hook that has returned has passed its result on
  have hreturned : ∀ {a : Attempt} {out : RecvOutcome} {inbox' : Inbox},
      (x.worker.proceed c ⟨.recv, fd i, blocked⟩ now ok a).hook c = none →
      ({ x with inbox := Function.update x.inbox i inbox' }.afterRecv c i
        (x.worker.proceed c ⟨.recv, fd i, blocked⟩ now ok a) out).heard i = heard ++ [out] := by
    intro a out inbox' hnone
    rw [Server.afterRecv, if_pos hnone, ← h.heard]
    exact Function.update_self ..
  have hfits := hrecv.fits
  cases hrecv with
  | data n hpos hlen hqueue =>
    obtain ⟨m, rfl⟩ := Nat.exists_eq_add_of_lt hpos
    exact Or.inr (Or.inr ⟨_, (hfits _ rfl).1, hreturned (Function.update_self ..)⟩)
  | eof hqueue => exact absurd hqueue h.queue
  | error errno hagain =>
    cases errno with
    | eagain => exact absurd (hagain rfl).1 h.queue
    | eintr =>
      have hnext : (x.worker.proceed c ⟨.recv, fd i, blocked⟩ now ok .again).hook c =
          some ⟨.recv, fd i, false⟩ := Function.update_self ..
      refine Or.inl ?_
      change Ready fd heard c i (Server.afterRecv _ c i
        (x.worker.proceed c ⟨.recv, fd i, blocked⟩ now ok .again) _)
      rw [Function.update_eq_self, Server.afterRecv, if_neg (by rw [hnext]; exact Option.some_ne_none _)]
      exact ⟨h.task, h.heard, h.queue, Or.inr ⟨hnext, hcurrent⟩⟩
    | einprogress => exact Or.inr (Or.inl (hreturned (Function.update_self ..)))
    | other => exact Or.inr (Or.inl (hreturned (Function.update_self ..)))

theorem recvWoken (h : Ready fd heard c i x) (hcurrent : x.worker.run.sched.current = some c)
    {k : Hook} (hhook : x.worker.hook c = some k) (hblocked : k.blocked = true) (sockError : Bool)
    (now : ℤ) (ok : Bool) :
    Ready fd heard c i (x.afterRecv c i ((x.worker.release c k).2.proceed c k now ok
      (k.call.woken (x.worker.release c k).1 sockError)) .timedOut) := by
  obtain ⟨hk, -, hflag, -⟩ | ⟨hk, -⟩ := h.place
  · obtain rfl := Option.some.inj (hk.symm.trans hhook)
    have hrelease : (x.worker.release c ⟨.recv, fd i, true⟩).1 = false := hflag
    have hnext : ((x.worker.release c ⟨.recv, fd i, true⟩).2.proceed c ⟨.recv, fd i, true⟩ now ok
        .again).hook c = some ⟨.recv, fd i, false⟩ := Function.update_self ..
    rw [hrelease]
    change Ready fd heard c i (Server.afterRecv _ c i
      ((x.worker.release c ⟨.recv, fd i, true⟩).2.proceed c ⟨.recv, fd i, true⟩ now ok .again) _)
    rw [Server.afterRecv, if_neg (by rw [hnext]; exact Option.some_ne_none _)]
    exact ⟨h.task, h.heard, h.queue, Or.inr ⟨hnext, hcurrent⟩⟩
  · obtain rfl := Option.some.inj (hk.symm.trans hhook)
    cases hblocked

omit [DecidableEq ι] in
theorem runs_iff (h : Ready fd heard c i x) (hcurrent : x.worker.run.sched.current = some c)
    (hruns : x.Runs c' i') : c' = c ∧ i' = i := by
  obtain rfl := Option.some.inj (hcurrent.symm.trans hruns.current)
  exact ⟨rfl, Option.some.inj (hruns.task.symm.trans h.task)⟩

theorem step_running (h : Ready fd heard c i x)
    (hcurrent : x.worker.run.sched.current = some c) (hstep : ServerStep size fd x y) :
    Ready fd heard c i y ∨ Heard heard i y := by
  obtain ⟨blocked, hk⟩ := h.hook
  have hhook : x.worker.hook c ≠ none := by
    rw [hk]
    exact Option.some_ne_none _
  cases hstep with
  | arrive j bs heof =>
    exact Or.inl (h.client j fun hqueue => List.append_ne_nil_of_left_ne_nil hqueue bs)
  | hangup j => exact Or.inl (h.client j id)
  | memory hstep => exact Or.inl (h.frame rfl rfl rfl h.queue)
  | worker hstep hother =>
    have hnone := hother c hcurrent
    rw [h.task] at hnone
    cases hnone
  | accept c' mem i' hrunning _ hother =>
    obtain rfl := Option.some.inj (hcurrent.symm.trans hrunning)
    rw [h.task] at hother
    cases hother
  | handler hruns hnone =>
    obtain ⟨rfl, rfl⟩ := h.runs_iff hcurrent hruns
    exact absurd hnone hhook
  | call call hruns hnone =>
    obtain ⟨rfl, rfl⟩ := h.runs_iff hcurrent hruns
    exact absurd hnone hhook
  | leave hruns hnone =>
    obtain ⟨rfl, rfl⟩ := h.runs_iff hcurrent hruns
    exact absurd hnone hhook
  | recv o now ok hruns hhook' hblocked hcall hrecv =>
    obtain ⟨rfl, rfl⟩ := h.runs_iff hcurrent hruns
    exact h.recv hcurrent hhook' o now ok hrecv
  | recvWoken sockError now ok hruns hhook' hblocked =>
    obtain ⟨rfl, rfl⟩ := h.runs_iff hcurrent hruns
    exact Or.inl (h.recvWoken hcurrent hhook' hblocked sockError now ok)
  | send r o now ok hruns hhook' hblocked hcall =>
    obtain ⟨rfl, rfl⟩ := h.runs_iff hcurrent hruns
    obtain rfl := Option.some.inj (hk.symm.trans hhook')
    cases hcall
  | sendWoken sockError now ok hruns hhook' hblocked hcall =>
    obtain ⟨rfl, rfl⟩ := h.runs_iff hcurrent hruns
    obtain rfl := Option.some.inj (hk.symm.trans hhook')
    cases hcall

theorem step_aside (h : Ready fd heard c i x) (hinv : ServerInv size fd init x)
    (hcurrent : x.worker.run.sched.current ≠ some c) (hstep : ServerStep size fd x y) :
    Ready fd heard c i y := by
  -- another coroutine serves another connection
  have hother : ∀ {c' : ℕ} {i' : ι}, x.Runs c' i' → i ≠ i' := by
    rintro c' i' hruns rfl
    obtain rfl := hinv.tasks.distinct c c' i i h.task hruns.task rfl
    exact hcurrent hruns.current
  cases hstep with
  | arrive j bs heof =>
    exact h.client j fun hqueue => List.append_ne_nil_of_left_ne_nil hqueue bs
  | hangup j => exact h.client j id
  | memory hstep => exact h.frame rfl rfl rfl h.queue
  | worker hstep => exact h.aside hcurrent hinv.worker hstep rfl rfl rfl
  | @accept c' mem i' d s hrunning hnone htask hpc hget =>
    have hcd : c ≠ d := by
      rintro rfl
      exact (getCoroutine_fresh hinv.worker.run hget).1 (hinv.tasks.serves c i h.task).busy
    exact h.aside hcurrent hinv.worker (.dispatch _ c' mem hrunning hnone)
      (Function.update_of_ne hcd _ _) rfl rfl
  | handler => exact h.frame rfl rfl rfl h.queue
  | @call c' i' call hruns hnone =>
    exact h.aside hcurrent hinv.worker (.call _ c' call (fd i') hruns.current hnone
      (hinv.tasks.unused hruns.task hnone)) rfl rfl rfl
  | @recv c' i' k r bs inbox o now ok hruns hhook hblocked hcall hrecv hnear =>
    exact h.afterRecv hcurrent hinv.worker (.attempt _ c' k r o now ok hruns.current hhook hblocked
      (fun _ _ hclose => absurd hclose (attempt_ne_close (Or.inl hcall))) hnear) (hother hruns) _ _
  | @recvWoken c' i' k sockError now ok hruns hhook hblocked hcall =>
    have hready : Ready fd heard c i (Server.afterRecv
        { x with inbox := Function.update x.inbox i' (x.inbox i') } c' i' _ .timedOut) :=
      h.afterRecv hcurrent hinv.worker (.wake _ c' k sockError now ok hruns.current hhook hblocked)
        (hother hruns) _ _
    rw [Function.update_eq_self] at hready
    exact hready
  | @send c' i' k r o now ok hruns hhook hblocked hcall hnear =>
    exact h.afterSend hcurrent hinv.worker (.attempt _ c' k r o now ok hruns.current hhook hblocked
      (fun _ _ hclose => absurd hclose (attempt_ne_close (Or.inr hcall))) hnear) _
  | @sendWoken c' i' k sockError now ok hruns hhook hblocked hcall =>
    exact h.afterSend hcurrent hinv.worker
      (.wake _ c' k sockError now ok hruns.current hhook hblocked) _
  | @leave c' i' hruns hnone =>
    have hclose := WorkerStep.close x.worker c' (fd i') hruns.current hnone
      (hinv.tasks.unused hruns.task hnone)
    have hclosed : Ready fd heard c i
        { x with worker := { x.worker with loop := x.worker.loop.close (fd i') } } :=
      h.aside hcurrent hinv.worker hclose rfl rfl rfl
    have hcc : c ≠ c' := by
      rintro rfl
      exact hcurrent hruns.current
    exact hclosed.aside hcurrent (workerStep_inv hinv.worker hclose)
      (.finish _ c' hruns.current hnone) (Function.update_of_ne hcc _ _) rfl rfl

theorem step (h : Ready fd heard c i x) (hinv : ServerInv size fd init x)
    (hstep : ServerStep size fd x y) : Ready fd heard c i y ∨ Heard heard i y := by
  by_cases hcurrent : x.worker.run.sched.current = some c
  · exact h.step_running hcurrent hstep
  · exact Or.inl (h.step_aside hinv hcurrent hstep)

omit [DecidableEq ι] in
theorem not_policy (h : Ready fd heard c i x) (hinv : WorkerInv x.worker) :
    x.worker.phase ≠ .policy := by
  intro hphase
  have hnone := (hinv.policy hphase).2
  obtain ⟨-, hready, -⟩ | ⟨-, hrunning⟩ := h.place
  · rw [hphase] at hready
    cases hready
  · rw [hnone] at hrunning
    cases hrunning

end Ready

/-! ## When the main loop waits -/

/-- Each connection that is being served waits in a hooked call. -/
theorem ServerInv.blocked (h : ServerInv size fd init x) (hphase : x.worker.phase = .policy)
    (hc : x.task c = some i) :
    ∃ call, x.handlers.call i = some call ∧ x.worker.hook c = some ⟨call, fd i, true⟩ ∧
      x.worker.loop.epoll (fd i) = some (interest call.what) := by
  have hserves := h.tasks.serves c i hc
  obtain ⟨hactive, hcurrent⟩ := h.worker.policy hphase
  have hplace := h.worker.run.of_busy h.worker.lost hserves.busy
  simp only [hactive, hcurrent, List.not_mem_nil, reduceCtorEq, false_or, or_false] at hplace
  have hne := hserves.suspended ((h.worker.run.suspended c).mpr hplace)
  obtain ⟨⟨call, fd', blocked⟩, hk⟩ := Option.ne_none_iff_exists'.mp hne
  obtain ⟨rfl, hcall⟩ := hserves.hook _ hk
  obtain rfl : blocked = true := by
    by_contra hb
    have hrunning := h.runs c _ hk (Bool.eq_false_of_not_eq_true hb)
    rw [hcurrent] at hrunning
    cases hrunning
  exact ⟨call, hcall, hk, ((h.worker.mayBlock h.runs hphase).armed c _ hk).2.1⟩

end Invariant

/-! ## Runs -/

end Cserv.Http
