import Cserv.Process.Accounting
import Cserv.Util.Critical

/-!
# The accept lock of the workers

`worker_accept` of several workers, with the accesses of `spin_trylock` and `spin_unlock` to the
shared lock one by one. The lock lies in zeroed shared memory and outlives the workers: a worker
that exits or is killed leaves it as it is, and the one that is forked in its place finds it so.
-/
namespace Cserv.Util.LockState

variable {n : ℕ}

def exchanged (x : LockState n) (p : Fin n) (start : UInt32) : LockState n :=
  { x.setProc p .outside true with
    lock.ticket := start + 1
    issued := x.issued ++ [(p, .trylock)]
    acquired := x.acquired ++ [(p, .trylock)] }

variable {x : LockState n} {p q : Fin n} {start : UInt32}

theorem holds_exchanged : (x.exchanged p start).holds q = if q = p then true else x.holds q :=
  holds_of_update (c := ⟨.outside, true⟩) rfl q

theorem pc_exchanged : (x.exchanged p start).pc q = if q = p then .outside else x.pc q :=
  pc_of_update (c := ⟨.outside, true⟩) rfl q

end Cserv.Util.LockState

namespace Cserv.Process

open Coro Util Foundations Relation

/-- The accept loop is in `worker_accept`, before `accept`. -/
def Acceptor.Entering (a : Acceptor) : Prop := ∃ c, a = .alive c .workerAccept

/-- The accept loop has the lock: it is in `accept` or in `spin_unlock`. -/
def Acceptor.Accepting (a : Acceptor) : Prop := ∃ c, a = .alive c .accept

/-- The workers and their lock. `killed` has the workers that have been killed and not been replaced
yet; `abandoned` says that one of those that were killed had the lock. -/
structure Fleet (n : ℕ) where
  lock : LockState n
  worker : Fin n → Service
  killed : Fin n → Bool
  abandoned : Bool

namespace Fleet

variable {n : ℕ}

def setWorker (f : Fleet n) (p : Fin n) (v : Service) : Fleet n :=
  { f with worker := Function.update f.worker p v }

def init (n workerConnections : ℕ) (mem : ℕ → Coroutine) (h : workerConnections < 2 ^ 31) : Fleet n :=
  ⟨LockState.init n, fun _ => serviceInit workerConnections mem h, fun _ => false, false⟩

def kill (f : Fleet n) (p : Fin n) : Fleet n :=
  { f with
    killed := Function.update f.killed p true
    abandoned := f.abandoned || f.lock.holds p }

def respawn (f : Fleet n) (p : Fin n) (v : Service) : Fleet n :=
  { f.setWorker p v with
    lock := f.lock.setProc p .outside false
    killed := Function.update f.killed p false }

/-- The worker has neither exited nor been killed. -/
structure Alive (f : Fleet n) (p : Fin n) : Prop where
  exited : (f.worker p).exited = none
  killed : f.killed p = false

/-- The coroutine `c` of the worker `p` runs and is in `worker_accept`. -/
structure Enters (f : Fleet n) (p : Fin n) (c : ℕ) : Prop where
  alive : f.Alive p
  current : (f.worker p).sched.current = some c
  pc : (f.worker p).acceptor = .alive c .workerAccept

end Fleet

/-- The steps of the workers. A worker that does not use the lock moves as one worker does; a worker
without room does not try the lock; a worker can be killed at any time; and the master forks a new
worker for one that has exited or has been killed. -/
inductive FleetStep {n : ℕ} (workerConnections : ℕ) (mem : ℕ → Coroutine)
    (h : workerConnections < 2 ^ 31) : Fleet n → Fleet n → Prop
  | elsewhere (f : Fleet n) (p : Fin n) (v : Service) (halive : f.Alive p)
      (hstep : ServiceStep n (f.worker p) v)
      (hacceptor : v.acceptor = (f.worker p).acceptor ∨
        ¬ (f.worker p).acceptor.Entering ∧ ¬ (f.worker p).acceptor.Accepting)
      (hlock : f.lock.pc p = .outside ∨ v.sched = (f.worker p).sched) :
      FleetStep workerConnections mem h f (f.setWorker p v)
  | full (f : Fleet n) (p : Fin n) (c : ℕ) (henters : f.Enters p c)
      (hpc : f.lock.pc p = .outside) (hfull : (f.worker p).workerCanAccept = false) :
      FleetStep workerConnections mem h f
        (f.setWorker p ((f.worker p).goto c ((f.worker p).workerAccept n false)))
  | loadStart (f : Fleet n) (p : Fin n) (c : ℕ) (henters : f.Enters p c)
      (hpc : f.lock.pc p = .outside) (hroom : (f.worker p).workerCanAccept = true) :
      FleetStep workerConnections mem h f
        { f with
          lock := f.lock.setProc p (.trying f.lock.lock.start f.lock.issued.length) (f.lock.holds p) }
  | exchange (f : Fleet n) (p : Fin n) (c : ℕ) (start : UInt32) (issued : ℕ) (henters : f.Enters p c)
      (hpc : f.lock.pc p = .trying start issued) (htest : f.lock.lock.ticket = start)
      (hfew : f.lock.issued.length - issued < 2 ^ 32 - n) :
      FleetStep workerConnections mem h f
        { f.setWorker p ((f.worker p).goto c ((f.worker p).workerAccept n true)) with
          lock := f.lock.exchanged p start }
  | exchangeFails (f : Fleet n) (p : Fin n) (c : ℕ) (start : UInt32) (issued : ℕ)
      (henters : f.Enters p c) (hpc : f.lock.pc p = .trying start issued)
      (htest : f.lock.lock.ticket ≠ start) :
      FleetStep workerConnections mem h f
        { f.setWorker p ((f.worker p).goto c ((f.worker p).workerAccept n false)) with
          lock := f.lock.setProc p .outside (f.lock.holds p) }
  | unlockLoad (f : Fleet n) (p : Fin n) (c : ℕ) (halive : f.Alive p)
      (hcurrent : (f.worker p).sched.current = some c)
      (haccept : (f.worker p).acceptor = .alive c .accept) (hpc : f.lock.pc p = .outside) :
      FleetStep workerConnections mem h f
        { f with lock := f.lock.setProc p (.unlocking f.lock.lock.start) true }
  | unlockStore (f : Fleet n) (p : Fin n) (start : UInt32) (v : Service) (halive : f.Alive p)
      (hstep : ServiceStep n (f.worker p) v) (hpc : f.lock.pc p = .unlocking start)
      (hleaves : ¬ v.acceptor.Accepting) :
      FleetStep workerConnections mem h f
        { f.setWorker p v with lock := f.lock.released p start }
  | kill (f : Fleet n) (p : Fin n) (halive : f.Alive p) :
      FleetStep workerConnections mem h f (f.kill p)
  | respawn (f : Fleet n) (p : Fin n) (hdead : ¬ f.Alive p) :
      FleetStep workerConnections mem h f (f.respawn p (serviceInit workerConnections mem h))

/-- A worker has the lock exactly while its accept loop is in `accept` or in `spin_unlock`; if it
is taken, a worker has it or one was killed that had it, and then no living worker has it; and a
worker that has exited is outside. -/
structure FleetInv {n : ℕ} (f : Fleet n) : Prop where
  lock : LockInv f.lock []
  service : ∀ p, ServiceInv n (f.worker p)
  holds : ∀ p, f.lock.holds p = true ↔ (f.worker p).acceptor.Accepting
  trying : ∀ p start issued, f.lock.pc p = .trying start issued →
    (f.worker p).acceptor.Entering ∧ (f.worker p).workerCanAccept = true
  taken : f.lock.acquired.length = f.lock.served + 1 →
    f.abandoned = true ∨ ∃ p, f.lock.holds p = true
  abandoned : f.abandoned = true → f.lock.acquired.length = f.lock.served + 1
  holder : ∀ p, f.lock.holds p = true → f.killed p = f.abandoned
  exited : ∀ p, (f.worker p).exited ≠ none →
    ¬ (f.worker p).acceptor.Entering ∧ ¬ (f.worker p).acceptor.Accepting

/-! ## One worker -/

section Worker

variable {n : ℕ} {v v' : Service}

theorem not_entering_of_left {a : Acceptor} (h : a.left = true) : ¬ a.Entering ∧ ¬ a.Accepting := by
  constructor <;> rintro ⟨c, rfl⟩ <;> cases h

/-- Only the test of `g_shall_exit` forces a worker to exit. -/
theorem move_forced (hmove : Move n v v') (halive : v.exited = none)
    (hforced : v'.exited = some .forced) : ∃ c, v'.acceptor = .alive c .testExit := by
  cases hmove with
  | exit c hcurrent hpc hflag => exact ⟨c, hpc⟩
  | leave c hcurrent hpc =>
    simp only [Service.goto, Service.decreaseConnAndCheck, halive] at hforced
    split_ifs at hforced
    cases hforced
  | decreaseConn c conn hs hs' hcurrent hpc =>
    simp only [Service.decreaseConnAndCheck, halive] at hforced
    split_ifs at hforced
    cases hforced
  | _ => simp_all [Service.goto, Service.suspend, Service.increaseConn, Service.close]

theorem serviceStep_exited (h : ServiceInv n v) (hstep : ServiceStep n v v')
    (hexited : v'.exited ≠ none) : ¬ v'.acceptor.Entering ∧ ¬ v'.acceptor.Accepting := by
  have h' := serviceStep_inv h hstep
  cases he : v'.exited with
  | none => exact absurd he hexited
  | some e =>
    cases e with
    | drained => exact not_entering_of_left (h'.drained he).1
    | forced =>
      obtain ⟨c, hc⟩ := move_forced hstep.2 hstep.1 he
      rw [hc]
      constructor <;> rintro ⟨d, hd⟩ <;> cases hd

theorem move_accepting (hmove : Move n v v') (hentering : ¬ v.acceptor.Entering)
    (haccepting : ¬ v.acceptor.Accepting) : ¬ v'.acceptor.Accepting := by
  cases hmove with
  | workerAccept c lock hcurrent hpc => exact absurd ⟨c, hpc⟩ hentering
  | acceptSuspend c s hcurrent hpc => exact absurd ⟨c, hpc⟩ haccepting
  | acceptFailed c hcurrent hpc => exact absurd ⟨c, hpc⟩ haccepting
  | acceptClosed c hcurrent hpc => exact absurd ⟨c, hpc⟩ haccepting
  | accepted c hcurrent hpc => exact absurd ⟨c, hpc⟩ haccepting
  | _ => simp_all [Service.goto, Service.suspend, Service.increaseConn, Service.close,
      Service.decreaseConnAndCheck, Acceptor.Accepting]

/-- Nothing changes `connection_count` while the accept loop is in `spin_trylock`. -/
theorem move_entering (h : ServiceInv n v) (hmove : Move n v v') {c : ℕ}
    (hpc : v.acceptor = .alive c .workerAccept) (hsched : v'.sched = v.sched)
    (hacceptor : v'.acceptor = v.acceptor) : v'.workerCanAccept = v.workerCanAccept := by
  have hcount : v'.connectionCount = v.connectionCount := by
    cases hmove with
    | decreaseConn d conn hs hs' hcurrent hsplit =>
      have hwaits := h.acceptor_waits (k := ⟨d, conn, .decreaseConn⟩) hcurrent (by simp [hsplit]) hpc
      cases hwaits
    | leave d hcurrent hpc' =>
      rw [hpc] at hpc'
      cases hpc'
    | increaseConn d hcurrent hpc' =>
      rw [hpc] at hpc'
      cases hpc'
    | _ => rfl
  rw [Service.workerCanAccept, Service.workerCanAccept, hcount, hsched]

end Worker

/-! ## All workers -/

section Steps

variable {n : ℕ} {f g : Fleet n} {p : Fin n} {v : Service} {c : ℕ}

/-- What the invariant says of one worker. -/
structure WorkerInv {n : ℕ} (lock : LockState n) (p : Fin n) (v : Service) : Prop where
  service : ServiceInv n v
  holds : lock.holds p = true ↔ v.acceptor.Accepting
  trying : ∀ start issued, lock.pc p = .trying start issued →
    v.acceptor.Entering ∧ v.workerCanAccept = true
  exited : v.exited ≠ none → ¬ v.acceptor.Entering ∧ ¬ v.acceptor.Accepting

theorem FleetInv.worker (h : FleetInv f) (p : Fin n) : WorkerInv f.lock p (f.worker p) :=
  ⟨h.service p, h.holds p, h.trying p, h.exited p⟩

theorem FleetInv.update (h : FleetInv f) {x : LockState n} (hlock : LockInv x [])
    (hpc : ∀ q, q ≠ p → x.pc q = f.lock.pc q) (hholds : ∀ q, q ≠ p → x.holds q = f.lock.holds q)
    (htaken : x.acquired.length = x.served + 1 → g.abandoned = true ∨ ∃ q, x.holds q = true)
    (habandoned : g.abandoned = true → x.acquired.length = x.served + 1)
    (hholder : ∀ q, x.holds q = true → g.killed q = g.abandoned)
    (hworker : WorkerInv x p v) (hg : g.lock = x) (hgw : g.worker = Function.update f.worker p v) :
    FleetInv g := by
  have hall : ∀ q, WorkerInv x q (Function.update f.worker p v q) := by
    intro q
    by_cases hq : q = p
    · subst hq
      rw [Function.update_self]
      exact hworker
    · rw [Function.update_of_ne hq]
      obtain ⟨hservice, hhold, htrying, hexited⟩ := h.worker q
      refine ⟨hservice, ?_, ?_, hexited⟩
      · rw [hholds q hq]
        exact hhold
      · intro start issued hq'
        exact htrying start issued ((hpc q hq).symm.trans hq')
  subst hg
  rw [← hgw] at hall
  exact
    { lock := hlock
      service := fun q => (hall q).service
      holds := fun q => (hall q).holds
      trying := fun q => (hall q).trying
      taken := htaken
      abandoned := habandoned
      holder := hholder
      exited := fun q => (hall q).exited }

theorem FleetInv.setWorker (h : FleetInv f) (hworker : WorkerInv f.lock p v) :
    FleetInv (f.setWorker p v) :=
  h.update h.lock (fun _ _ => rfl) (fun _ _ => rfl) h.taken h.abandoned h.holder hworker rfl rfl

theorem FleetInv.setProc (h : FleetInv f) {pc : LockPc} (hold : ∀ t, f.lock.pc p ≠ .waiting t)
    (hnew : ∀ t, pc ≠ .waiting t)
    (htrying : ∀ w k, pc = .trying w k →
      ∃ s, w = UInt32.ofNat s ∧ s ≤ f.lock.served ∧ k ≤ f.lock.issued.length ∧ k ≤ s + n)
    (hunlocking : ∀ w, pc = .unlocking w → f.lock.holds p = true ∧ w = f.lock.lock.start)
    (hservice : ServiceInv n v) (hholds : f.lock.holds p = true ↔ v.acceptor.Accepting)
    (hentering : ∀ w k, pc = .trying w k → v.acceptor.Entering ∧ v.workerCanAccept = true)
    (halive : v.exited = none) :
    FleetInv ({ f.setWorker p v with lock := f.lock.setProc p pc (f.lock.holds p) } : Fleet n) := by
  have hpcs := LockState.pc_of_update (x := f.lock) (y := f.lock.setProc p pc (f.lock.holds p)) rfl
  have hhold : ∀ q, (f.lock.setProc p pc (f.lock.holds p)).holds q = f.lock.holds q := by
    intro q
    rw [LockState.holds_of_update (x := f.lock) rfl]
    split_ifs with hq
    · rw [hq]
    · rfl
  refine h.update (h.lock.setProc hold hnew id htrying hunlocking) ?_ ?_ ?_ h.abandoned ?_ ?_ rfl rfl
  · intro q hq
    rw [hpcs, if_neg hq]
  · intro q _
    exact hhold q
  · intro hlen
    refine (h.taken hlen).imp_right ?_
    rintro ⟨q, hq⟩
    exact ⟨q, (hhold q).trans hq⟩
  · intro q hq
    exact h.holder q ((hhold q).symm.trans hq)
  · refine ⟨hservice, ?_, ?_, fun hexited => absurd halive hexited⟩
    · rw [hhold]
      exact hholds
    · intro start issued hpc
      rw [hpcs, if_pos rfl] at hpc
      exact hentering start issued hpc

namespace Fleet.Enters

variable (he : f.Enters p c)

include he

theorem not_accepting : ¬ (f.worker p).acceptor.Accepting := by
  rintro ⟨d, hd⟩
  rw [he.pc] at hd
  cases hd

theorem not_holds (h : FleetInv f) : f.lock.holds p ≠ true := fun hholds =>
  he.not_accepting ((h.holds p).mp hholds)

theorem service (h : FleetInv f) (lock : Bool) :
    ServiceInv n ((f.worker p).goto c ((f.worker p).workerAccept n lock)) :=
  workerAccept_inv (h.service p) he.alive.exited lock he.current he.pc

end Fleet.Enters

theorem elsewhere_inv (h : FleetInv f) (hstep : ServiceStep n (f.worker p) v)
    (hacceptor : v.acceptor = (f.worker p).acceptor ∨
      ¬ (f.worker p).acceptor.Entering ∧ ¬ (f.worker p).acceptor.Accepting)
    (hlock : f.lock.pc p = .outside ∨ v.sched = (f.worker p).sched) : FleetInv (f.setWorker p v) := by
  refine h.setWorker ⟨serviceStep_inv (h.service p) hstep, ?_, ?_,
    serviceStep_exited (h.service p) hstep⟩
  · rcases hacceptor with hsame | ⟨hentering, haccepting⟩
    · rw [hsame]
      exact h.holds p
    · have hafter := move_accepting hstep.2 hentering haccepting
      rw [h.holds p]
      exact iff_of_false haccepting hafter
  · intro start issued hpc
    obtain ⟨hentering, hcan⟩ := h.trying p start issued hpc
    have hsame := hacceptor.resolve_right fun hout => hout.1 hentering
    have hsched := hlock.resolve_left (by rw [hpc]; exact nofun)
    obtain ⟨d, hd⟩ := hentering
    rw [hsame, move_entering (h.service p) hstep.2 hd hsched hsame]
    exact ⟨⟨d, hd⟩, hcan⟩

theorem not_accepting_goto {lock : Bool} (hn : 1 < n) (hfail : (v.workerCanAccept && lock) = false) :
    ¬ (v.goto c (v.workerAccept n lock)).acceptor.Accepting := by
  rintro ⟨d, hd⟩
  simp [Service.goto, Service.workerAccept, hn, hfail] at hd

theorem full_inv (hn : 1 < n) (h : FleetInv f) (he : f.Enters p c) (hpc : f.lock.pc p = .outside) :
    FleetInv (f.setWorker p ((f.worker p).goto c ((f.worker p).workerAccept n false))) := by
  refine h.setWorker ⟨he.service h false, ?_, ?_, fun hexited => absurd he.alive.exited hexited⟩
  · exact iff_of_false (he.not_holds h) (not_accepting_goto hn (Bool.and_false _))
  · intro start issued hpc'
    rw [hpc] at hpc'
    cases hpc'

theorem loadStart_inv (h : FleetInv f) (he : f.Enters p c) (hpc : f.lock.pc p = .outside)
    (hroom : (f.worker p).workerCanAccept = true) :
    FleetInv ({ f with
      lock := f.lock.setProc p (.trying f.lock.lock.start f.lock.issued.length) (f.lock.holds p) } :
        Fleet n) := by
  have hself : f = f.setWorker p (f.worker p) := by
    rw [Fleet.setWorker, Function.update_eq_self]
  have hlen := h.lock.length_issued
  have hserved := h.lock.served
  rw [hself]
  refine h.setProc (by simp [hpc]) nofun ?_ nofun (h.service p) (h.holds p) ?_ he.alive.exited
  · intro w k hk
    cases hk
    have hpos := p.pos
    rw [List.length_nil] at hlen
    refine ⟨f.lock.served, h.lock.start, le_rfl, le_rfl, ?_⟩
    change f.lock.issued.length ≤ f.lock.served + n
    omega
  · intro w k _
    exact ⟨⟨c, he.pc⟩, hroom⟩

theorem exchange_inv (hn : 1 < n) (hn' : n < 2 ^ 32) (h : FleetInv f) (he : f.Enters p c)
    {start : UInt32} {issued : ℕ} (hpc : f.lock.pc p = .trying start issued)
    (htest : f.lock.lock.ticket = start) (hfew : f.lock.issued.length - issued < 2 ^ 32 - n) :
    FleetInv ({ f.setWorker p ((f.worker p).goto c ((f.worker p).workerAccept n true)) with
      lock := f.lock.exchanged p start } : Fleet n) := by
  obtain ⟨-, hcan⟩ := h.trying p start issued hpc
  subst htest
  have haccept : (f.worker p).workerAccept n true = .accept := by
    simp [Service.workerAccept, hn, hcan]
  have hlock : LockInv (f.lock.exchanged p f.lock.lock.ticket) [] := h.lock.exchange hpc hn' hfew
  -- the exchange shows that the lock was free, so no worker was killed that had it
  have habandoned : f.abandoned = false := by
    refine Bool.eq_false_iff.mpr fun habandoned => ?_
    have hfree := (h.lock.free hpc hn' hfew).2
    have hlen := h.abandoned habandoned
    omega
  refine h.update hlock ?_ ?_ ?_ ?_ ?_ ?_ rfl rfl
  · intro q hq
    rw [LockState.pc_exchanged, if_neg hq]
  · intro q hq
    rw [LockState.holds_exchanged, if_neg hq]
  · intro _
    exact Or.inr ⟨p, by rw [LockState.holds_exchanged, if_pos rfl]⟩
  · intro htrue
    exact absurd (habandoned.symm.trans htrue) Bool.false_ne_true
  · intro q hq
    by_cases hqp : q = p
    · rw [hqp]
      exact he.alive.killed.trans habandoned.symm
    · rw [LockState.holds_exchanged, if_neg hqp] at hq
      exact h.holder q hq
  · refine ⟨he.service h true, ?_, ?_, fun hexited => absurd he.alive.exited hexited⟩
    · rw [LockState.holds_exchanged, if_pos rfl, haccept]
      exact iff_of_true rfl ⟨c, rfl⟩
    · intro w k hk
      rw [LockState.pc_exchanged, if_pos rfl] at hk
      cases hk

theorem exchangeFails_inv (hn : 1 < n) (h : FleetInv f) (he : f.Enters p c) {start : UInt32}
    {issued : ℕ} (hpc : f.lock.pc p = .trying start issued) :
    FleetInv ({ f.setWorker p ((f.worker p).goto c ((f.worker p).workerAccept n false)) with
      lock := f.lock.setProc p .outside (f.lock.holds p) } : Fleet n) :=
  h.setProc (by simp [hpc]) nofun nofun nofun (he.service h false)
    (iff_of_false (he.not_holds h) (not_accepting_goto hn (Bool.and_false _))) nofun he.alive.exited

theorem unlockLoad_inv (h : FleetInv f) (halive : (f.worker p).exited = none)
    (haccept : (f.worker p).acceptor = .alive c .accept) (hpc : f.lock.pc p = .outside) :
    FleetInv ({ f with lock := f.lock.setProc p (.unlocking f.lock.lock.start) true } : Fleet n) := by
  have hself : f = f.setWorker p (f.worker p) := by
    rw [Fleet.setWorker, Function.update_eq_self]
  have hholds : f.lock.holds p = true := (h.holds p).mpr ⟨c, haccept⟩
  have hproc : FleetInv ({ f.setWorker p (f.worker p) with
      lock := f.lock.setProc p (.unlocking f.lock.lock.start) (f.lock.holds p) } : Fleet n) :=
    h.setProc (by simp [hpc]) nofun nofun (fun w hw => ⟨hholds, by cases hw; rfl⟩) (h.service p)
      (h.holds p) nofun halive
  rw [hholds, ← hself] at hproc
  exact hproc

theorem unlockStore_inv (h : FleetInv f) {start : UInt32} (halive : f.Alive p)
    (hstep : ServiceStep n (f.worker p) v) (hpc : f.lock.pc p = .unlocking start)
    (hleaves : ¬ v.acceptor.Accepting) :
    FleetInv ({ f.setWorker p v with lock := f.lock.released p start } : Fleet n) := by
  have hlock : LockInv (f.lock.released p start) [] := h.lock.unlockStore hpc
  have hholds := (h.lock.unlocking p start hpc).1
  have hlen := (h.lock.holder p hholds).1
  refine h.update hlock ?_ ?_ ?_ ?_ ?_ ?_ rfl rfl
  · intro q hq
    rw [LockState.pc_released, if_neg hq]
  · intro q hq
    rw [LockState.holds_released, if_neg hq]
  · intro hlen'
    have hlen'' : f.lock.acquired.length = f.lock.served + 1 + 1 := hlen'
    omega
  · intro habandoned
    have hkilled := h.holder p hholds
    rw [halive.killed, show f.abandoned = true from habandoned] at hkilled
    cases hkilled
  · intro q hq
    rw [LockState.holds_released] at hq
    split_ifs at hq with hqp
    exact h.holder q hq
  · refine ⟨serviceStep_inv (h.service p) hstep, ?_, ?_, serviceStep_exited (h.service p) hstep⟩
    · rw [LockState.holds_released, if_pos rfl]
      exact iff_of_false nofun hleaves
    · intro w k hk
      rw [LockState.pc_released, if_pos rfl] at hk
      cases hk

theorem kill_inv (h : FleetInv f) (p : Fin n) : FleetInv (f.kill p) where
  lock := h.lock
  service := h.service
  holds := h.holds
  trying := h.trying
  taken hlen := (h.taken hlen).imp_left fun habandoned => by simp [Fleet.kill, habandoned]
  abandoned habandoned := by
    rcases Bool.or_eq_true_iff.mp habandoned with habandoned | hholds
    · exact h.abandoned habandoned
    · exact (h.lock.holder p hholds).1
  holder q hq := by
    change Function.update f.killed p true q = (f.abandoned || f.lock.holds p)
    by_cases hqp : q = p
    · subst hqp
      rw [Function.update_self, show f.lock.holds q = true from hq, Bool.or_true]
    · have hp : f.lock.holds p = false :=
        Bool.eq_false_iff.mpr fun hholds => hqp (h.lock.holder_unique hq hholds)
      rw [Function.update_of_ne hqp, hp, Bool.or_false]
      exact h.holder q hq
  exited := h.exited

theorem FleetInv.dead (h : FleetInv f) (hdead : ¬ f.Alive p) (hholds : f.lock.holds p = true) :
    f.abandoned = true := by
  rw [← h.holder p hholds]
  by_contra hkilled
  refine hdead ⟨?_, Bool.eq_false_iff.mpr hkilled⟩
  by_contra hexited
  exact (h.exited p hexited).2 ((h.holds p).mp hholds)

theorem respawn_inv (h : FleetInv f) (hdead : ¬ f.Alive p) (workerConnections : ℕ)
    (mem : ℕ → Coroutine) (hmax : workerConnections < 2 ^ 31) :
    FleetInv (f.respawn p (serviceInit workerConnections mem hmax)) := by
  have hwaiting : ∀ t, f.lock.pc p ≠ .waiting t := by
    intro t ht
    obtain ⟨i, hi, -⟩ := h.lock.position p t ht
    cases hi
  have hpcs := LockState.pc_of_update (x := f.lock) (y := f.lock.setProc p .outside false) rfl
  have hhold := LockState.holds_of_update (x := f.lock) (y := f.lock.setProc p .outside false) rfl
  have hlock : LockInv (f.lock.setProc p .outside false) [] :=
    h.lock.setProc hwaiting nofun nofun nofun nofun
  refine h.update hlock ?_ ?_ ?_ h.abandoned ?_ ?_ rfl rfl
  · intro q hq
    rw [hpcs, if_neg hq]
  · intro q hq
    rw [hhold, if_neg hq]
  · intro hlen
    rcases h.taken hlen with habandoned | ⟨q, hq⟩
    · exact Or.inl habandoned
    · by_cases hqp : q = p
      · subst hqp
        exact Or.inl (h.dead hdead hq)
      · exact Or.inr ⟨q, by rw [hhold, if_neg hqp, hq]⟩
  · intro q hq
    rw [hhold] at hq
    split_ifs at hq with hqp
    exact (Function.update_of_ne hqp ..).trans (h.holder q hq)
  · refine ⟨serviceInit_inv n workerConnections mem hmax, ?_, ?_, fun hnone => absurd rfl hnone⟩
    · rw [hhold, if_pos rfl]
      refine iff_of_false nofun ?_
      rintro ⟨d, hd⟩
      cases hd
    · intro start issued hpc
      rw [hpcs, if_pos rfl] at hpc
      cases hpc

theorem fleetStep_inv {workerConnections : ℕ} {mem : ℕ → Coroutine}
    {hmax : workerConnections < 2 ^ 31} (hn : 1 < n) (hn' : n < 2 ^ 32) (h : FleetInv f)
    (hstep : FleetStep workerConnections mem hmax f g) : FleetInv g := by
  cases hstep with
  | elsewhere p v _ hstep hacceptor hlock => exact elsewhere_inv h hstep hacceptor hlock
  | full p c he hpc _ => exact full_inv hn h he hpc
  | loadStart p c he hpc hroom => exact loadStart_inv h he hpc hroom
  | exchange p c start issued he hpc htest hfew => exact exchange_inv hn hn' h he hpc htest hfew
  | exchangeFails p c start issued he hpc _ => exact exchangeFails_inv hn h he hpc
  | unlockLoad p c halive _ haccept hpc => exact unlockLoad_inv h halive.exited haccept hpc
  | unlockStore p start v halive hstep hpc hleaves => exact unlockStore_inv h halive hstep hpc hleaves
  | kill p _ => exact kill_inv h p
  | respawn p hdead => exact respawn_inv h hdead ..

theorem fleetInit_inv (n workerConnections : ℕ) (mem : ℕ → Coroutine)
    (hmax : workerConnections < 2 ^ 31) : FleetInv (Fleet.init n workerConnections mem hmax) where
  lock := LockInv.init n
  service _ := serviceInit_inv n workerConnections mem hmax
  holds p := by
    refine iff_of_false nofun ?_
    rintro ⟨d, hd⟩
    cases hd
  trying := nofun
  taken := nofun
  abandoned := nofun
  holder := nofun
  exited _ hexited := absurd rfl hexited

/-- The lock is free when no worker has it and none was killed that had it. -/
theorem FleetInv.ticket_eq_start (h : FleetInv f) (habandoned : f.abandoned = false)
    (hfree : ∀ q, ¬ (f.worker q).acceptor.Accepting) : f.lock.lock.ticket = f.lock.lock.start := by
  have hlen := h.lock.length_issued
  rw [List.length_nil, Nat.add_zero] at hlen
  have hserved : f.lock.acquired.length = f.lock.served := by
    refine h.lock.served.resolve_right fun htaken => ?_
    rcases h.taken htaken with htrue | ⟨q, hq⟩
    · rw [htrue] at habandoned
      cases habandoned
    · exact hfree q ((h.holds q).mp hq)
  rw [h.lock.ticket, h.lock.start, hlen, hserved]

/-- A worker that tries a free lock without interference gets it. -/
theorem FleetInv.gets_lock (hn : 1 < n) (hn' : n < 2 ^ 32) (h : FleetInv f)
    (habandoned : f.abandoned = false) (hfree : ∀ q, ¬ (f.worker q).acceptor.Accepting)
    (he : f.Enters p c)
    (hpc : f.lock.pc p = .outside) (hroom : (f.worker p).workerCanAccept = true)
    (workerConnections : ℕ) (mem : ℕ → Coroutine) (hmax : workerConnections < 2 ^ 31) :
    ∃ g g', FleetStep workerConnections mem hmax f g ∧ FleetStep workerConnections mem hmax g g' ∧
      (g'.worker p).acceptor.Accepting := by
  have hload : FleetStep workerConnections mem hmax f _ := FleetStep.loadStart f p c he hpc hroom
  have htrying : (f.lock.setProc p (.trying f.lock.lock.start f.lock.issued.length)
      (f.lock.holds p)).pc p = .trying f.lock.lock.start f.lock.issued.length := by
    rw [LockState.pc_of_update (x := f.lock) rfl, if_pos rfl]
  have hfew : f.lock.issued.length - f.lock.issued.length < 2 ^ 32 - n := by omega
  refine ⟨_, _, hload, FleetStep.exchange _ p c _ _
    ⟨⟨he.alive.exited, he.alive.killed⟩, he.current, he.pc⟩ htrying
    (h.ticket_eq_start habandoned hfree) hfew, c, ?_⟩
  simp [Fleet.setWorker, Service.goto, Service.workerAccept, hn, hroom]

end Steps

/-- No step takes back that a worker was killed that had the lock. -/
theorem fleetStep_abandoned {n workerConnections : ℕ} {mem : ℕ → Coroutine}
    {hmax : workerConnections < 2 ^ 31} {f g : Fleet n}
    (hstep : FleetStep workerConnections mem hmax f g)
    (h : f.abandoned = true) : g.abandoned = true := by
  cases hstep with
  | kill p halive => exact Bool.or_eq_true_iff.mpr (Or.inl h)
  | _ => exact h

/-- At most one worker is in `accept`, and a worker that has exited does not hold the accept lock.
Unless a worker was killed that had the lock, the next one that tries it while no worker is in
`accept` gets it; otherwise no living worker is ever in `accept` again. -/
theorem accept_lock_exclusive (n workerConnections : ℕ) (mem : ℕ → Coroutine)
    (hmax : workerConnections < 2 ^ 31) (hn : 1 < n) (hn' : n < 2 ^ 32) (f : Fleet n)
    (hrun : ReflTransGen (FleetStep workerConnections mem hmax)
      (Fleet.init n workerConnections mem hmax) f) :
    (∀ p q, (f.worker p).acceptor.Accepting → (f.worker q).acceptor.Accepting → p = q) ∧
      (∀ p, (f.worker p).exited ≠ none → f.lock.holds p = false) ∧
      (f.abandoned = false → (∀ q, ¬ (f.worker q).acceptor.Accepting) → ∀ p c, f.Enters p c →
        f.lock.pc p = .outside → (f.worker p).workerCanAccept = true →
        ∃ g g', FleetStep workerConnections mem hmax f g ∧ FleetStep workerConnections mem hmax g g' ∧
          (g'.worker p).acceptor.Accepting) ∧
      ∀ p, f.Alive p → (f.worker p).acceptor.Accepting → ∀ g,
        ReflTransGen (FleetStep workerConnections mem hmax) (f.kill p) g →
          ∀ q, g.Alive q → ¬ (g.worker q).acceptor.Accepting := by
  have hinv := run_invariant FleetInv (fun _ _ => fleetStep_inv hn hn')
    (fleetInit_inv n workerConnections mem hmax) hrun
  refine ⟨fun p q hp hq => ?_, fun p hexited => ?_, fun habandoned hfree p c he hpc hroom => ?_,
    fun p _ hp g hlater q halive hq => ?_⟩
  · exact hinv.lock.holder_unique ((hinv.holds p).mpr hp) ((hinv.holds q).mpr hq)
  · have haccepting := (hinv.exited p hexited).2
    rw [← hinv.holds p] at haccepting
    exact Bool.eq_false_iff.mpr haccepting
  · exact hinv.gets_lock hn hn' habandoned hfree he hpc hroom workerConnections mem hmax
  · have hkilled : (f.kill p).abandoned = true :=
      Bool.or_eq_true_iff.mpr (Or.inr ((hinv.holds p).mpr hp))
    obtain ⟨hg, habandoned⟩ := run_invariant (fun g : Fleet n => FleetInv g ∧ g.abandoned = true)
      (fun _ _ hf hstep => ⟨fleetStep_inv hn hn' hf.1 hstep, fleetStep_abandoned hstep hf.2⟩)
      ⟨kill_inv hinv p, hkilled⟩ hlater
    have hholder := hg.holder q ((hg.holds q).mpr hq)
    rw [halive.killed, habandoned] at hholder
    cases hholder

def twoWorkers : Fleet 2 := Fleet.init 2 2 (fun _ => ⟨0, false⟩) firstConnections_lt

theorem firstWorker_step {v w : Service} (hstep : ServiceStep 2 v w)
    (hacceptor : ¬ v.acceptor.Entering ∧ ¬ v.acceptor.Accepting) :
    FleetStep 2 (fun _ => ⟨0, false⟩) firstConnections_lt (twoWorkers.setWorker 0 v)
      (twoWorkers.setWorker 0 w) := by
  have hmove : FleetStep 2 (fun _ => ⟨0, false⟩) firstConnections_lt (twoWorkers.setWorker 0 v) _ :=
    FleetStep.elsewhere _ 0 w ⟨hstep.1, rfl⟩ hstep (Or.inr hacceptor) (Or.inl rfl)
  have hidem : (twoWorkers.setWorker 0 v).setWorker 0 w = twoWorkers.setWorker 0 w := by
    simp only [Fleet.setWorker, Function.update_idem]
  rw [hidem] at hmove
  exact hmove

theorem twoWorkers_run : ReflTransGen (FleetStep 2 (fun _ => ⟨0, false⟩) firstConnections_lt)
    twoWorkers (twoWorkers.setWorker 0 (firstLoop.goto 1 .workerAccept)) := by
  have h₁ : ServiceStep 2 firstWorker _ := ⟨rfl, Move.boot _ true 1 _ rfl rfl⟩
  have h₂ : ServiceStep 2 _ firstLoop :=
    ⟨rfl, Move.resume { firstWorker.goto 1 .testStop with
        sched := (firstWorker.sched.dispatchCoro true).2 } _ 1 ⟨rfl, rfl, rfl, rfl⟩ rfl
      ⟨by decide, by decide⟩ rfl⟩
  have h₃ : ServiceStep 2 firstLoop _ := ⟨rfl, Move.noStop _ 1 rfl rfl rfl⟩
  have h₄ : ServiceStep 2 (firstLoop.goto 1 .testExit) _ := ⟨rfl, Move.noExit _ 1 rfl rfl rfl⟩
  have hfirst : twoWorkers = twoWorkers.setWorker 0 firstWorker := by
    have hworker : Function.update twoWorkers.worker 0 firstWorker = twoWorkers.worker :=
      Function.update_eq_self 0 twoWorkers.worker
    rw [Fleet.setWorker, hworker]
  have r₁ := ReflTransGen.single (firstWorker_step h₁ ⟨nofun, nofun⟩)
  rw [← hfirst] at r₁
  have r₂ := r₁.tail (firstWorker_step h₂ ⟨nofun, nofun⟩)
  have r₃ := r₂.tail (firstWorker_step h₃ ⟨nofun, nofun⟩)
  exact r₃.tail (firstWorker_step h₄ ⟨nofun, nofun⟩)

/-- The first of two workers gets the lock. -/
theorem accept_lock_exclusive_two : ∃ f : Fleet 2, (f.worker 0).acceptor.Accepting ∧
    ∀ q, (f.worker q).acceptor.Accepting → 0 = q := by
  obtain ⟨-, -, hgets, -⟩ := accept_lock_exclusive 2 2 _ firstConnections_lt (by decide) (by decide) _
    twoWorkers_run
  obtain ⟨g, f, hg, hf, haccepting⟩ := hgets rfl (Fin.forall_fin_two.mpr ⟨nofun, nofun⟩)
    0 1 ⟨⟨rfl, rfl⟩, rfl, rfl⟩ rfl rfl
  obtain ⟨hunique, -, -, -⟩ := accept_lock_exclusive 2 2 _ firstConnections_lt (by decide) (by decide) f
    ((twoWorkers_run.tail hg).tail hf)
  exact ⟨f, haccepting, fun q => hunique 0 q haccepting⟩

end Cserv.Process
