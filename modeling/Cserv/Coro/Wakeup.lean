import Cserv.Coro.Event
import Cserv.Coro.Pool

/-!
# A wakeup hits a suspended coroutine

A worker process: the scheduler with its main loop `schedule_cycle`, the event loop, and for
each coroutine the hooked call it is in. Coroutines are not preempted, so that a step is what
one of them, or the main loop, does up to its next call of interest.
-/
namespace Cserv.Coro

open Foundations Relation

/-! ## Workers -/

/-- A hooked call a coroutine is in. It is blocked from `add_fd_event` to `del_fd_event`. -/
structure Hook where
  call : Call
  fd : ℕ
  blocked : Bool
  deriving DecidableEq, Repr

/-- Where the main coroutine is: before `schedule_cycle`, or before one of the four calls in
the body of its loop. -/
inductive Phase
  | start
  | checkTimeout
  | runExpired
  | policy
  | runReady
  deriving DecidableEq, Repr

structure Worker where
  run : Run
  loop : EventLoop
  phase : Phase
  hook : ℕ → Option Hook

/-- `schedule_init` and `event_loop_init` as `worker_process_cycle` calls them. -/
def workerInit (workerConnections : ℕ) (mem : ℕ → Coroutine) (h : workerConnections < 2 ^ 31) :
    Worker :=
  ⟨⟨scheduleInit workerConnections mem h, ∅, []⟩, eventLoopInit workerConnections, .start,
    fun _ => none⟩

namespace Worker

variable (w : Worker)

def Uses (c fd : ℕ) : Prop := ∃ k, w.hook c = some k ∧ k.fd = fd

def setHook (c : ℕ) (k : Option Hook) : Worker := { w with hook := Function.update w.hook c k }

def setSched (s : Sched) : Worker := { w with run.sched := s }

/-- `add_fd_event` and `schedule_timeout` in a hook of the coroutine `c`; the hook returns -2
if the event cannot be added. -/
def register (c : ℕ) (k : Hook) (now : ℤ) (ok : Bool) : Worker :=
  let result := w.loop.addFdEvent k.fd k.call.what k.call.callback w.run.sched.current ok
  if result.1 ≠ 0 then { w with loop := result.2 }.setHook c none
  else
    { w with
      loop := result.2
      run.sched := w.run.sched.scheduleTimeout c now k.call.timeout true
      run.suspended := insert c w.run.suspended
      hook := Function.update w.hook c (some { k with blocked := true }) }

/-- The hook of the coroutine `c` goes on as an attempt says. -/
def proceed (c : ℕ) (k : Hook) (now : ℤ) (ok : Bool) : Attempt → Worker
  | .ret _ => w.setHook c none
  | .close fd _ => { w with loop := w.loop.close fd }.setHook c none
  | .again => w.setHook c (some { k with blocked := false })
  | .register => w.register c k now ok

/-- `del_fd_event` and `is_wakeup_by_timeout`, after `schedule_timeout` has returned. -/
def release (c : ℕ) (k : Hook) : Bool × Worker :=
  let result := w.run.sched.isWakeupByTimeout c
  (result.1, { w.setSched result.2 with loop := w.loop.delFdEvent k.fd k.call.what })

end Worker

/-- The timeout of a coroutine that suspends itself now is near those of the suspended
coroutines. -/
def Run.NearTimeouts (x : Run) (now milliseconds : ℤ) : Prop :=
  ∀ d ∈ x.suspended, Near (toInt64 (now + milliseconds)) (x.sched.coro d).timeout

def EventLoop.targets (l : EventLoop) (evs : List ℕ) : Set ℕ :=
  { c | ∃ fd ∈ evs, (l.array fd).args = some c }

/-- The steps of a worker: those of the main coroutine, those of a coroutine outside hooked
calls, and those of a coroutine in one. A descriptor is used by one coroutine at a time,
and `epoll_wait` reports registered descriptors, each once. -/
inductive WorkerStep : Worker → Worker → Prop
  | boot (w : Worker) (mem : Bool) (hphase : w.phase = .start) :
      WorkerStep w (w.setSched (w.run.sched.dispatchCoro mem).2)
  | scheduleCycle (w : Worker) (hphase : w.phase = .start) :
      WorkerStep w { w with phase := .checkTimeout }
  | checkTimeout (w : Worker) (now : ℤ) (hphase : w.phase = .checkTimeout) :
      WorkerStep w { w with
        run.sched := w.run.sched.checkTimeoutCoroutine now
        run.suspended := { d ∈ w.run.suspended | now < (w.run.sched.coro d).timeout }
        phase := .runExpired }
  | resume (w : Worker) (hphase : w.phase = .runExpired ∨ w.phase = .runReady)
      (hcurrent : w.run.sched.current = none) : WorkerStep w (w.setSched w.run.sched.runNextActive)
  | expiredRan (w : Worker) (hphase : w.phase = .runExpired)
      (hcurrent : w.run.sched.current = none) (hactive : w.run.sched.active = []) :
      WorkerStep w { w with phase := .policy }
  | policy (w : Worker) (evs : List ℕ) (s : Sched) (hphase : w.phase = .policy) (hnodup : evs.Nodup)
      (hevs : ∀ fd ∈ evs, (w.loop.epoll fd).isSome)
      (hcycle : w.loop.eventCycle w.run.sched evs = some s) :
      WorkerStep w { w with
        run.sched := s
        run.suspended := w.run.suspended \ w.loop.targets evs
        phase := .runReady }
  | readyRan (w : Worker) (hphase : w.phase = .runReady)
      (hcurrent : w.run.sched.current = none) (hactive : w.run.sched.active = []) :
      WorkerStep w { w with phase := .checkTimeout }
  | dispatch (w : Worker) (c : ℕ) (mem : Bool) (hcurrent : w.run.sched.current = some c)
      (hhook : w.hook c = none) : WorkerStep w (w.setSched (w.run.sched.dispatchCoro mem).2)
  | timeout (w : Worker) (c : ℕ) (now milliseconds : ℤ) (hcurrent : w.run.sched.current = some c)
      (hhook : w.hook c = none) (hnear : w.run.NearTimeouts now milliseconds) :
      WorkerStep w { w with
        run.sched := w.run.sched.scheduleTimeout c now milliseconds true
        run.suspended := insert c w.run.suspended }
  | close (w : Worker) (c fd : ℕ) (hcurrent : w.run.sched.current = some c)
      (hhook : w.hook c = none) (hfd : ∀ d, ¬ w.Uses d fd) :
      WorkerStep w { w with loop := w.loop.close fd }
  | finish (w : Worker) (c : ℕ) (hcurrent : w.run.sched.current = some c)
      (hhook : w.hook c = none) : WorkerStep w (w.setSched (w.run.sched.finishCoroutine c))
  | call (w : Worker) (c : ℕ) (call : Call) (fd : ℕ) (hcurrent : w.run.sched.current = some c)
      (hhook : w.hook c = none) (hfd : ∀ d, ¬ w.Uses d fd) :
      WorkerStep w (w.setHook c (some ⟨call, fd, false⟩))
  | attempt (w : Worker) (c : ℕ) (k : Hook) (r : SysResult) (o : SocketOptions) (now : ℤ)
      (ok : Bool) (hcurrent : w.run.sched.current = some c) (hhook : w.hook c = some k)
      (hblocked : k.blocked = false)
      (hclose : ∀ fd value, k.call.attempt r o = .close fd value → ∀ d, ¬ w.Uses d fd)
      (hnear : k.call.attempt r o = .register → w.run.NearTimeouts now k.call.timeout) :
      WorkerStep w (w.proceed c k now ok (k.call.attempt r o))
  | wake (w : Worker) (c : ℕ) (k : Hook) (sockError : Bool) (now : ℤ) (ok : Bool)
      (hcurrent : w.run.sched.current = some c) (hhook : w.hook c = some k)
      (hblocked : k.blocked = true) :
      WorkerStep w ((w.release c k).2.proceed c k now ok
        (k.call.woken (w.release c k).1 sockError))

/-! ## Descriptors and hooks -/

/-- No two coroutines are in hooked calls for one descriptor. -/
def Exclusive (hook : ℕ → Option Hook) : Prop :=
  ∀ c d k m, hook c = some k → hook d = some m → k.fd = m.fd → c = d

theorem Exclusive.update {hook : ℕ → Option Hook} (h : Exclusive hook) {c : ℕ} {x : Option Hook}
    (hnew : ∀ k, x = some k → ∀ d m, hook d = some m → m.fd = k.fd → d = c) :
    Exclusive (Function.update hook c x) := by
  intro a b k m ha hb hfd
  by_cases hac : a = c
  · by_cases hbc : b = c
    · rw [hac, hbc]
    · rw [hac, Function.update_self] at ha
      rw [Function.update_of_ne hbc] at hb
      exact absurd (hnew k ha b m hb hfd.symm) hbc
  · rw [Function.update_of_ne hac] at ha
    by_cases hbc : b = c
    · rw [hbc, Function.update_self] at hb
      exact absurd (hnew m hb a k ha hfd) hac
    · rw [Function.update_of_ne hbc] at hb
      exact h a b k m ha hb hfd

/-- The event loop holds an event for each blocked hook and no others. -/
structure Wired (l : EventLoop) (hook : ℕ → Option Hook) : Prop where
  synced : l.Synced
  exclusive : Exclusive hook
  armed : ∀ c k, hook c = some k → k.blocked = true →
    l.array k.fd = ⟨k.call.what, some k.call.callback, some c⟩
  owner : ∀ fd, (l.array fd).mask ≠ evnetNone →
    ∃ c k, hook c = some k ∧ k.blocked = true ∧ k.fd = fd

namespace Wired

variable {l l' : EventLoop} {hook : ℕ → Option Hook}

theorem mask_none (h : Wired l hook) {fd : ℕ}
    (hfd : ∀ c k, hook c = some k → k.fd = fd → k.blocked = false) :
    (l.array fd).mask = evnetNone := by
  by_contra hmask
  obtain ⟨c, k, hk, hblocked, hfd'⟩ := h.owner fd hmask
  rw [hfd c k hk hfd'] at hblocked
  cases hblocked

theorem event (h : Wired l hook) {fd : ℕ} (hmask : (l.array fd).mask ≠ evnetNone) :
    ∃ c k, hook c = some k ∧ k.blocked = true ∧ k.fd = fd ∧
      (l.array fd).proc = some k.call.callback ∧ (l.array fd).args = some c := by
  obtain ⟨c, k, hk, hblocked, hfd⟩ := h.owner fd hmask
  have hevent := h.armed c k hk hblocked
  rw [hfd] at hevent
  exact ⟨c, k, hk, hblocked, hfd, by rw [hevent], by rw [hevent]⟩

theorem event_inj (h : Wired l hook) {fd fd' : ℕ} (hmask : (l.array fd).mask ≠ evnetNone)
    (hmask' : (l.array fd').mask ≠ evnetNone) (hargs : (l.array fd).args = (l.array fd').args) :
    fd = fd' := by
  obtain ⟨c, k, hk, _, hfd, _, hc⟩ := h.event hmask
  obtain ⟨d, m, hm, _, hfd', _, hd⟩ := h.event hmask'
  have hcd : c = d := Option.some.inj (hc.symm.trans (hargs.trans hd))
  subst hcd
  have hkm : k = m := Option.some.inj (hk.symm.trans hm)
  rw [← hfd, ← hfd', hkm]

theorem update (h : Wired l hook) {c : ℕ} {x : Option Hook}
    (hold : ∀ k, hook c = some k → k.blocked = false)
    (hnew : ∀ k, x = some k → k.blocked = false ∧ ∀ d m, hook d = some m → m.fd = k.fd → d = c) :
    Wired l (Function.update hook c x) where
  synced := h.synced
  exclusive := h.exclusive.update fun k hk => (hnew k hk).2
  armed a k ha hblocked := by
    by_cases hac : a = c
    · rw [hac, Function.update_self] at ha
      rw [(hnew k ha).1] at hblocked
      cases hblocked
    · rw [Function.update_of_ne hac] at ha
      exact h.armed a k ha hblocked
  owner fd hmask := by
    obtain ⟨a, k, ha, hblocked, hfd⟩ := h.owner fd hmask
    have hac : a ≠ c := by
      intro hac
      subst hac
      rw [hold k ha] at hblocked
      cases hblocked
    exact ⟨a, k, by rwa [Function.update_of_ne hac], hblocked, hfd⟩

theorem rewire (h : Wired l hook) {c : ℕ} {k : Hook} (hk : hook c = some k) {e : FdEvent}
    (hsynced : l'.Synced) (harray : l'.array = Function.update l.array k.fd e) (blocked : Bool)
    (hon : blocked = true → e = ⟨k.call.what, some k.call.callback, some c⟩)
    (hoff : blocked = false → e.mask = evnetNone) :
    Wired l' (Function.update hook c (some { k with blocked := blocked })) := by
  have honly : ∀ d m, hook d = some m → m.fd = k.fd → d = c := by
    intro d m hm hfd
    exact h.exclusive d c m k hm hk hfd
  constructor
  · exact hsynced
  · apply h.exclusive.update
    intro m hm d n hn hfd
    cases hm
    exact honly d n hn hfd
  · intro a m ha hm
    rw [harray]
    by_cases hac : a = c
    · subst hac
      rw [Function.update_self] at ha
      cases ha
      rw [Function.update_self]
      exact hon hm
    · rw [Function.update_of_ne hac] at ha
      have hfd : m.fd ≠ k.fd := by
        intro hfd
        exact hac (honly a m ha hfd)
      rw [Function.update_of_ne hfd]
      exact h.armed a m ha hm
  · intro fd hfd
    rw [harray] at hfd
    by_cases heq : fd = k.fd
    · rw [heq, Function.update_self] at hfd
      refine ⟨c, { k with blocked := blocked }, Function.update_self .., ?_, heq.symm⟩
      cases hb : blocked with
      | false => exact absurd (hoff hb) hfd
      | true => rfl
    · rw [Function.update_of_ne heq] at hfd
      obtain ⟨a, m, ha, hm, hfd'⟩ := h.owner fd hfd
      have hac : a ≠ c := by
        intro hac
        subst hac
        rw [← Option.some.inj (hk.symm.trans ha)] at hfd'
        exact heq hfd'.symm
      exact ⟨a, m, by rwa [Function.update_of_ne hac], hm, hfd'⟩

theorem block (h : Wired l hook) {c : ℕ} {k : Hook} {ok : Bool} (hk : hook c = some k)
    (hblocked : k.blocked = false)
    (hret : (l.addFdEvent k.fd k.call.what k.call.callback (some c) ok).1 = 0) :
    Wired (l.addFdEvent k.fd k.call.what k.call.callback (some c) ok).2
      (Function.update hook c (some { k with blocked := true })) := by
  have hmask : (l.array k.fd).mask = evnetNone := by
    apply h.mask_none
    intro d m hm hfd
    have hdc := h.exclusive d c m k hm hk hfd
    subst hdc
    rw [← Option.some.inj (hk.symm.trans hm)]
    exact hblocked
  obtain ⟨harray, hsynced⟩ := h.synced.addFdEvent hmask hret k.call.what_ne_none
  apply h.rewire hk hsynced harray true
  · intro _
    rfl
  · intro hb
    cases hb

theorem unblock (h : Wired l hook) {c : ℕ} {k : Hook} (hk : hook c = some k)
    (hblocked : k.blocked = true) :
    Wired (l.delFdEvent k.fd k.call.what)
      (Function.update hook c (some { k with blocked := false })) := by
  have hevent := h.armed c k hk hblocked
  have hmask : (l.array k.fd).mask = k.call.what := by rw [hevent]
  obtain ⟨harray, hsynced⟩ := h.synced.delFdEvent hmask k.call.what_ne_none
  apply h.rewire hk hsynced harray false
  · intro hb
    cases hb
  · intro _
    rfl

end Wired

/-! ## One call of `event_cycle` -/

theorem EventProc.call_idle (p : EventProc) (s : Sched) (c : ℕ) : (p.call s c).idle = s.idle := by
  cases p <;> rfl

theorem EventProc.call_size (p : EventProc) (s : Sched) (c : ℕ) :
    (p.call s c).currCoroSize = s.currCoroSize := by
  cases p <;> rfl

theorem EventProc.call_step (p : EventProc) {s : Sched} {S : Set ℕ} {L : List ℕ} {c : ℕ} (hc : c ∈ S) :
    Step ⟨s, S, L⟩ ⟨p.call s c, S \ {c}, L⟩ := by
  cases p with
  | eventRwCallback => exact Step.wakeup s S L c hc
  | eventConnCallback => exact Step.wakeupPriority s S L c hc

/-- The descriptors of `evs` have events for distinct suspended coroutines. -/
structure Deliverable (l : EventLoop) (S : Set ℕ) (evs : List ℕ) : Prop where
  ready : ∀ fd ∈ evs, ∃ p c, (l.array fd).proc = some p ∧ (l.array fd).args = some c ∧ c ∈ S
  distinct : (evs.map fun fd => (l.array fd).args).Nodup

theorem targets_cons {l : EventLoop} {fd c : ℕ} (evs : List ℕ) (hc : (l.array fd).args = some c) :
    l.targets (fd :: evs) = insert c (l.targets evs) := by
  ext d
  simp [EventLoop.targets, hc, eq_comm]

theorem Deliverable.tail {l : EventLoop} {S : Set ℕ} {fd c : ℕ} {evs : List ℕ}
    (h : Deliverable l S (fd :: evs)) (hc : (l.array fd).args = some c) :
    Deliverable l (S \ {c}) evs := by
  have hdistinct := h.distinct
  rw [List.map_cons, List.nodup_cons] at hdistinct
  constructor
  · intro fd' hfd'
    obtain ⟨p, d, hp, hd, hin⟩ := h.ready fd' (List.mem_cons_of_mem _ hfd')
    refine ⟨p, d, hp, hd, hin, ?_⟩
    intro hdc
    apply hdistinct.1
    rw [hc, ← Set.mem_singleton_iff.mp hdc, ← hd]
    exact List.mem_map_of_mem hfd'
  · exact hdistinct.2

theorem eventCycle_run {l : EventLoop} (L evs : List ℕ) : ∀ {s : Sched} {S : Set ℕ},
    Deliverable l S evs →
    ∃ s', l.eventCycle s evs = some s' ∧ s'.idle = s.idle ∧ s'.currCoroSize = s.currCoroSize ∧
      ReflTransGen Step ⟨s, S, L⟩ ⟨s', S \ l.targets evs, L⟩ := by
  induction evs with
  | nil =>
    intro s S _
    refine ⟨s, rfl, rfl, rfl, ?_⟩
    have hnone : S \ l.targets [] = S := by simp [EventLoop.targets]
    rw [hnone]
  | cons fd evs ih =>
    intro s S h
    obtain ⟨p, c, hp, hc, hin⟩ := h.ready fd List.mem_cons_self
    have hrest := h.tail hc
    obtain ⟨s', hs', hidle, hsize, hrun⟩ := @ih (p.call s c) _ hrest
    refine ⟨s', ?_, ?_, ?_, ?_⟩
    · rw [← hs']
      simp [EventLoop.eventCycle, EventLoop.deliver, hp, hc]
    · rw [hidle, p.call_idle]
    · rw [hsize, p.call_size]
    · have hset : S \ l.targets (fd :: evs) = (S \ {c}) \ l.targets evs := by
        rw [targets_cons evs hc, Set.insert_eq, Set.sdiff_sdiff]
      rw [hset]
      exact ReflTransGen.head (p.call_step hin) hrun

/-! ## The steps of a worker -/

/-- The invariant of workers: the scheduler has lost no coroutine, the events fit the hooks, a
coroutine in a hooked call has not ended, and nothing is active when the main loop polls. -/
structure WorkerInv (w : Worker) : Prop where
  run : RunInv w.run
  lost : w.run.lost = []
  wired : Wired w.loop w.hook
  busy : ∀ c k, w.hook c = some k → w.run.sched.Busy c
  policy : w.phase = .policy → w.run.sched.active = [] ∧ w.run.sched.current = none

variable {w w' : Worker}

/-- When the main loop polls, every event is for a coroutine in a timer node. -/
theorem WorkerInv.event (h : WorkerInv w) (hphase : w.phase = .policy) {fd : ℕ}
    (hmask : (w.loop.array fd).mask ≠ evnetNone) :
    ∃ c k, w.hook c = some k ∧ k.blocked = true ∧ k.fd = fd ∧
      (w.loop.array fd).proc = some k.call.callback ∧ (w.loop.array fd).args = some c ∧
      c ∈ w.run.sched.waiting := by
  obtain ⟨c, k, hk, hblocked, hfd, hproc, hargs⟩ := h.wired.event hmask
  obtain ⟨hactive, hcurrent⟩ := h.policy hphase
  have hplace := h.run.of_busy h.lost (h.busy c k hk)
  simp only [hactive, hcurrent, List.not_mem_nil, reduceCtorEq, false_or, or_false] at hplace
  exact ⟨c, k, hk, hblocked, hfd, hproc, hargs, hplace⟩

theorem WorkerInv.deliverable (h : WorkerInv w) (hphase : w.phase = .policy) {evs : List ℕ}
    (hnodup : evs.Nodup) (hevs : ∀ fd ∈ evs, (w.loop.epoll fd).isSome) :
    Deliverable w.loop w.run.suspended evs := by
  have hmask : ∀ fd ∈ evs, (w.loop.array fd).mask ≠ evnetNone := by
    intro fd hfd
    exact (h.wired.synced.isSome_iff fd).mp (hevs fd hfd)
  constructor
  · intro fd hfd
    obtain ⟨c, k, _, _, _, hproc, hargs, hwaiting⟩ := h.event hphase (hmask fd hfd)
    exact ⟨k.call.callback, c, hproc, hargs, (h.run.suspended c).mpr hwaiting⟩
  · apply List.Nodup.map_on _ hnodup
    intro fd hfd fd' hfd' hargs
    exact h.wired.event_inj (hmask fd hfd) (hmask fd' hfd') hargs

theorem register_run {c : ℕ} {k : Hook} {now : ℤ} {ok : Bool}
    (hcurrent : w.run.sched.current = some c) (hnear : w.run.NearTimeouts now k.call.timeout) :
    ReflTransGen Step w.run (w.register c k now ok).run := by
  unfold Worker.register
  dsimp only
  split_ifs
  · exact ReflTransGen.refl
  · exact ReflTransGen.single
      (Step.timeout _ _ _ c now k.call.timeout true hcurrent hnear (Or.inl rfl))

theorem proceed_run {c : ℕ} {k : Hook} {now : ℤ} {ok : Bool} {a : Attempt}
    (hcurrent : w.run.sched.current = some c)
    (hnear : a = .register → w.run.NearTimeouts now k.call.timeout) :
    ReflTransGen Step w.run (w.proceed c k now ok a).run := by
  cases a with
  | ret value => exact ReflTransGen.refl
  | close fd value => exact ReflTransGen.refl
  | again => exact ReflTransGen.refl
  | register => exact register_run hcurrent (hnear rfl)

theorem Call.woken_ne_register (call : Call) (byTimeout sockError : Bool) :
    call.woken byTimeout sockError ≠ .register := by
  cases call <;> cases byTimeout <;> cases sockError <;> decide

theorem Call.woken_ne_close (call : Call) (byTimeout sockError : Bool) (fd : ℕ) (value : ℤ) :
    call.woken byTimeout sockError ≠ .close fd value := by
  cases call <;> cases byTimeout <;> cases sockError <;> simp [Call.woken]

/-- A step of a worker is a run of its scheduler. -/
theorem workerStep_run (h : WorkerInv w) (hstep : WorkerStep w w') :
    ReflTransGen Step w.run w'.run := by
  cases hstep with
  | boot mem _ => exact ReflTransGen.single (Step.dispatch _ _ _ mem)
  | scheduleCycle => exact ReflTransGen.refl
  | checkTimeout now _ => exact ReflTransGen.single (Step.check _ _ _ now)
  | resume _ hcurrent => exact ReflTransGen.single (Step.resume _ _ _ hcurrent)
  | expiredRan => exact ReflTransGen.refl
  | policy evs s hphase hnodup hevs hcycle =>
    obtain ⟨s', hs', _, _, hrun⟩ :=
      eventCycle_run w.run.lost evs (h.deliverable hphase hnodup hevs)
    have heq : s' = s := Option.some.inj (hs'.symm.trans hcycle)
    subst heq
    exact hrun
  | readyRan => exact ReflTransGen.refl
  | dispatch c mem _ _ => exact ReflTransGen.single (Step.dispatch _ _ _ mem)
  | timeout c now milliseconds hcurrent _ hnear =>
    exact ReflTransGen.single
      (Step.timeout _ _ _ c now milliseconds true hcurrent hnear (Or.inl rfl))
  | close => exact ReflTransGen.refl
  | finish c hcurrent _ => exact ReflTransGen.single (Step.finish _ _ _ c hcurrent)
  | call => exact ReflTransGen.refl
  | attempt c k r o now ok hcurrent _ _ _ hnear => exact proceed_run hcurrent hnear
  | wake c k sockError now ok hcurrent _ _ =>
    have hfirst : ReflTransGen Step w.run (w.release c k).2.run :=
      ReflTransGen.single (Step.isWakeup _ _ _ c hcurrent)
    apply hfirst.trans
    apply proceed_run
    · exact hcurrent
    · intro hregister
      exact absurd hregister (k.call.woken_ne_register _ sockError)

/-! ## The invariant -/

section Proceed

variable {c : ℕ} {k : Hook} {now : ℤ} {ok : Bool} {a : Attempt}

theorem proceed_setHook (x : Option Hook) :
    (w.setHook c x).proceed c k now ok a = w.proceed c k now ok a := by
  cases a <;> simp [Worker.proceed, Worker.register, Worker.setHook, Function.update_idem]

theorem proceed_phase : (w.proceed c k now ok a).phase = w.phase := by
  cases a with
  | register =>
    simp only [Worker.proceed, Worker.register]
    split_ifs <;> rfl
  | _ => rfl

theorem proceed_lost : (w.proceed c k now ok a).run.lost = w.run.lost := by
  cases a with
  | register =>
    simp only [Worker.proceed, Worker.register]
    split_ifs <;> rfl
  | _ => rfl

theorem proceed_busy {d : ℕ} (h : w.run.sched.Busy d) :
    (w.proceed c k now ok a).run.sched.Busy d := by
  cases a with
  | register =>
    simp only [Worker.proceed, Worker.register]
    split_ifs <;> exact h
  | _ => exact h

theorem proceed_hook {d : ℕ} (hd : d ≠ c) : (w.proceed c k now ok a).hook d = w.hook d := by
  cases a with
  | register =>
    simp only [Worker.proceed, Worker.register]
    split_ifs <;> exact Function.update_of_ne hd _ _
  | _ => exact Function.update_of_ne hd _ _

theorem proceed_wired (h : Wired w.loop w.hook) (hcurrent : w.run.sched.current = some c)
    (hk : w.hook c = some k) (hblocked : k.blocked = false)
    (hclose : ∀ fd value, a = .close fd value → ∀ d, ¬ w.Uses d fd) :
    Wired (w.proceed c k now ok a).loop (w.proceed c k now ok a).hook := by
  have hold : ∀ m, w.hook c = some m → m.blocked = false := by
    intro m hm
    rw [← Option.some.inj (hk.symm.trans hm)]
    exact hblocked
  have hleave : Wired w.loop (Function.update w.hook c none) := by
    apply h.update hold
    intro m hm
    cases hm
  cases a with
  | ret value => exact hleave
  | close fd value =>
    have hmask : (w.loop.array fd).mask = evnetNone := by
      apply h.mask_none
      intro d m hm hfd
      exact absurd ⟨m, hm, hfd⟩ (hclose fd value rfl d)
    have hloop : (w.proceed c k now ok (.close fd value)).loop = w.loop :=
      h.synced.close hmask
    rw [hloop]
    exact hleave
  | again =>
    apply h.update hold
    intro m hm
    cases hm
    refine ⟨rfl, ?_⟩
    intro d n hn hfd
    exact h.exclusive d c n k hn hk hfd
  | register =>
    simp only [Worker.proceed, Worker.register, hcurrent]
    split_ifs with hret
    · have hloop := EventLoop.addFdEvent_refused k.fd k.call.what k.call.callback (some c) ok hret
      simp only [Worker.setHook, hloop]
      exact hleave
    · exact h.block hk hblocked (not_not.mp hret)

end Proceed

theorem WorkerInv.not_policy (h : WorkerInv w) {c : ℕ} (hcurrent : w.run.sched.current = some c) :
    w.phase ≠ .policy := by
  intro hphase
  have hnone := (h.policy hphase).2
  rw [hcurrent] at hnone
  cases hnone

theorem workerStep_lost (hstep : WorkerStep w w') : w'.run.lost = w.run.lost := by
  cases hstep with
  | attempt => exact proceed_lost
  | wake => exact proceed_lost
  | _ => rfl

theorem workerStep_wired (h : WorkerInv w) (hstep : WorkerStep w w') :
    Wired w'.loop w'.hook := by
  cases hstep with
  | close c fd hcurrent hhook hfd =>
    have hmask : (w.loop.array fd).mask = evnetNone := by
      apply h.wired.mask_none
      intro d m hm hfd'
      exact absurd ⟨m, hm, hfd'⟩ (hfd d)
    dsimp only
    rw [h.wired.synced.close hmask]
    exact h.wired
  | call c call fd hcurrent hhook hfd =>
    apply h.wired.update
    · intro m hm
      rw [hhook] at hm
      cases hm
    · intro m hm
      cases hm
      refine ⟨rfl, ?_⟩
      intro d n hn hfd'
      exact absurd ⟨n, hn, hfd'⟩ (hfd d)
  | attempt c k r o now ok hcurrent hhook hblocked hclose hnear =>
    exact proceed_wired h.wired hcurrent hhook hblocked hclose
  | wake c k sockError now ok hcurrent hhook hblocked =>
    -- `del_fd_event` has removed the event, as if the hook had never been blocked
    have hwired := h.wired.unblock hhook hblocked
    rw [← proceed_setHook (some { k with blocked := false })]
    have hafter := @proceed_wired ((w.release c k).2.setHook c (some { k with blocked := false })) c
      { k with blocked := false } now ok (k.call.woken (w.release c k).1 sockError) hwired hcurrent
      (Function.update_self ..) rfl
    apply hafter
    intro fd value hclose
    exact absurd hclose (k.call.woken_ne_close _ sockError fd value)
  | _ => exact h.wired

theorem WorkerInv.busy_of_running (h : WorkerInv w) {c : ℕ}
    (hcurrent : w.run.sched.current = some c) (hhook : ∀ d, d ≠ c → w'.hook d = w.hook d)
    (hbusy : ∀ d, w.run.sched.Busy d → w'.run.sched.Busy d) :
    ∀ d k, w'.hook d = some k → w'.run.sched.Busy d := by
  intro d k hk
  apply hbusy
  by_cases hd : d = c
  · rw [hd]
    exact h.run.busy_current hcurrent
  · rw [hhook d hd] at hk
    exact h.busy d k hk

theorem workerStep_busy (h : WorkerInv w) (hstep : WorkerStep w w') :
    ∀ c k, w'.hook c = some k → w'.run.sched.Busy c := by
  have hkept : ∀ {s : Sched}, (∀ c, w.run.sched.Busy c → s.Busy c) →
      ∀ c k, w.hook c = some k → s.Busy c := by
    intro s hs c k hk
    exact hs c (h.busy c k hk)
  cases hstep with
  | boot mem _ => exact hkept fun c hc => hc.dispatchCoro mem
  | checkTimeout now _ => exact hkept fun c hc => hc.checkTimeoutCoroutine now
  | resume => exact hkept fun c hc => hc.runNextActive
  | policy evs s hphase hnodup hevs hcycle =>
    obtain ⟨s', hs', hidle, hsize, _⟩ :=
      eventCycle_run w.run.lost evs (h.deliverable hphase hnodup hevs)
    have heq : s' = s := Option.some.inj (hs'.symm.trans hcycle)
    subst heq
    apply hkept
    intro c hc
    unfold Sched.Busy
    rw [hidle, hsize]
    exact hc
  | dispatch c mem _ _ => exact hkept fun d hd => hd.dispatchCoro mem
  | finish c hcurrent hhook =>
    intro d k hk
    obtain ⟨hrange, hidle⟩ := h.busy d k hk
    refine ⟨hrange, ?_⟩
    have hne : d ≠ c := by
      intro hdc
      rw [hdc] at hk
      exact absurd (hk.symm.trans hhook) (by simp)
    simpa [Worker.setSched, Sched.finishCoroutine, hne] using hidle
  | call c call fd hcurrent hhook hfd =>
    exact h.busy_of_running hcurrent (fun d hd => Function.update_of_ne hd _ _) fun _ hd => hd
  | attempt c k r o now ok hcurrent hhook hblocked hclose hnear =>
    exact h.busy_of_running hcurrent (fun _ hd => proceed_hook hd) fun _ hd => proceed_busy hd
  | wake c k sockError now ok hcurrent hhook hblocked =>
    apply h.busy_of_running hcurrent
    · intro d hd
      exact proceed_hook hd
    · intro d hd
      apply proceed_busy
      exact hd
  | _ => exact h.busy

theorem workerStep_policy (h : WorkerInv w) (hstep : WorkerStep w w') :
    w'.phase = .policy → w'.run.sched.active = [] ∧ w'.run.sched.current = none := by
  cases hstep with
  | boot mem hphase => exact fun hpolicy => absurd (hphase.symm.trans hpolicy) (by decide)
  | resume hphase _ =>
    intro hpolicy
    rcases hphase with hphase | hphase
    · exact absurd (hphase.symm.trans hpolicy) (by decide)
    · exact absurd (hphase.symm.trans hpolicy) (by decide)
  | expiredRan hphase hcurrent hactive => exact fun _ => ⟨hactive, hcurrent⟩
  | dispatch c mem hcurrent hhook => exact fun hpolicy => absurd hpolicy (h.not_policy hcurrent)
  | timeout c now milliseconds hcurrent =>
    exact fun hpolicy => absurd hpolicy (h.not_policy hcurrent)
  | finish c hcurrent hhook => exact fun hpolicy => absurd hpolicy (h.not_policy hcurrent)
  | call => exact h.policy
  | close => exact h.policy
  | attempt c k r o now ok hcurrent =>
    intro hpolicy
    rw [proceed_phase] at hpolicy
    exact absurd hpolicy (h.not_policy hcurrent)
  | wake c k sockError now ok hcurrent =>
    intro hpolicy
    rw [proceed_phase] at hpolicy
    exact absurd hpolicy (h.not_policy hcurrent)
  | scheduleCycle => exact fun hpolicy => nomatch hpolicy
  | checkTimeout => exact fun hpolicy => nomatch hpolicy
  | policy => exact fun hpolicy => nomatch hpolicy
  | readyRan => exact fun hpolicy => nomatch hpolicy

theorem workerStep_inv (h : WorkerInv w) (hstep : WorkerStep w w') : WorkerInv w' where
  run := run_inv h.run (workerStep_run h hstep)
  lost := (workerStep_lost hstep).trans h.lost
  wired := workerStep_wired h hstep
  busy := workerStep_busy h hstep
  policy := workerStep_policy h hstep

theorem workerInit_inv (workerConnections : ℕ) (mem : ℕ → Coroutine)
    (hmax : workerConnections < 2 ^ 31) :
    WorkerInv (workerInit workerConnections mem hmax) where
  run := init_inv workerConnections mem hmax
  lost := rfl
  wired :=
    { synced := EventLoop.synced_init workerConnections
      exclusive := fun _ _ _ _ hc => nomatch hc
      armed := fun _ _ hc => nomatch hc
      owner := fun _ hmask => absurd rfl hmask }
  busy := fun _ _ hc => nomatch hc
  policy := fun hphase => nomatch hphase

theorem worker_run_refines {workerConnections : ℕ} {mem : ℕ → Coroutine}
    {hmax : workerConnections < 2 ^ 31}
    (hrun : ReflTransGen WorkerStep (workerInit workerConnections mem hmax) w) :
    ReflTransGen Step (workerInit workerConnections mem hmax).run w.run :=
  run_simulation (f := Worker.run) WorkerInv (fun _ _ => workerStep_inv)
    (fun _ _ => workerStep_run) (workerInit_inv workerConnections mem hmax) hrun

/-! ## Wakeups -/

/-- What `event_cycle` finds when it is called. The event of a descriptor is for a coroutine that
is suspended in a hooked call for this descriptor and lies in a timer node only; no two
descriptors have events for one coroutine. Whatever `epoll_wait` reports, each callback finds
its coroutine still in a timer node, and no coroutine is woken twice. -/
structure PollSafe (w : Worker) : Prop where
  suspended : ∀ fd, (w.loop.array fd).mask ≠ evnetNone → ∃ c k,
    (w.loop.array fd).args = some c ∧ w.hook c = some k ∧ k.blocked = true ∧ k.fd = fd ∧
    c ∈ w.run.suspended ∧ c ∈ w.run.sched.waiting ∧ c ∉ w.run.sched.active ∧
    c ∉ w.run.sched.idle
  distinct : ∀ fd fd', (w.loop.array fd).mask ≠ evnetNone → (w.loop.array fd').mask ≠ evnetNone →
    (w.loop.array fd).args = (w.loop.array fd').args → fd = fd'
  delivered : ∀ evs : List ℕ, evs.Nodup → (∀ fd ∈ evs, (w.loop.epoll fd).isSome) →
    (w.loop.eventCycle w.run.sched evs).isSome ∧
    (evs.map fun fd => (w.loop.array fd).args).Nodup ∧
    ∀ done fd rest, evs = done ++ fd :: rest → ∃ s c,
      w.loop.eventCycle w.run.sched done = some s ∧ (w.loop.array fd).args = some c ∧
      c ∈ s.waiting ∧ c ∉ s.active ∧ c ∉ s.idle

/-- What a coroutine that runs outside hooked calls finds: no event is for it, and a descriptor
that no other coroutine uses has no event. -/
structure CloseSafe (w : Worker) (c : ℕ) : Prop where
  args : ∀ fd, (w.loop.array fd).mask ≠ evnetNone → (w.loop.array fd).args ≠ some c
  close : ∀ fd, (∀ d, d ≠ c → ¬ w.Uses d fd) → (w.loop.array fd).mask = evnetNone

theorem Deliverable.sublist {l : EventLoop} {S : Set ℕ} {evs evs' : List ℕ}
    (h : Deliverable l S evs) (hsub : evs'.Sublist evs) : Deliverable l S evs' where
  ready fd hfd := h.ready fd (hsub.subset hfd)
  distinct := h.distinct.sublist (hsub.map _)

/-- The callbacks made so far leave a coroutine alone whose event comes later. -/
theorem Deliverable.waiting {x : Run} {l : EventLoop} {done rest : List ℕ} {fd : ℕ}
    (hinv : RunInv x) (h : Deliverable l x.suspended (done ++ fd :: rest)) :
    ∃ s c, l.eventCycle x.sched done = some s ∧ (l.array fd).args = some c ∧
      c ∈ s.waiting ∧ c ∉ s.active ∧ c ∉ s.idle := by
  obtain ⟨p, c, _, hc, hin⟩ := h.ready fd (by simp)
  have hdistinct := h.distinct
  rw [List.map_append, List.map_cons] at hdistinct
  have hdone := h.sublist (List.sublist_append_left done (fd :: rest))
  obtain ⟨s, hs, _, _, hrun⟩ := @eventCycle_run l x.lost done x.sched x.suspended hdone
  have hafter := run_inv hinv hrun
  have hlater : c ∈ x.suspended \ l.targets done := by
    refine ⟨hin, ?_⟩
    intro htarget
    obtain ⟨fd', hfd', hc'⟩ := htarget
    have hmem := List.mem_map_of_mem (f := fun fd => (l.array fd).args) hfd'
    exact (List.nodup_append.mp hdistinct).2.2 _ hmem _ List.mem_cons_self (hc'.trans hc.symm)
  have hwaiting : c ∈ s.waiting := (hafter.suspended c).mp hlater
  obtain ⟨hactive, hidle⟩ := hafter.waiting_only hwaiting
  exact ⟨s, c, hs, hc, hwaiting, hactive, hidle⟩

theorem WorkerInv.pollSafe (h : WorkerInv w) (hphase : w.phase = .policy) : PollSafe w where
  suspended fd hmask := by
    obtain ⟨c, k, hk, hblocked, hfd, _, hargs, hwaiting⟩ := h.event hphase hmask
    obtain ⟨hactive, hidle⟩ := h.run.waiting_only hwaiting
    have hsuspended := (h.run.suspended c).mpr hwaiting
    exact ⟨c, k, hargs, hk, hblocked, hfd, hsuspended, hwaiting, hactive, hidle⟩
  distinct fd fd' hmask hmask' hargs := h.wired.event_inj hmask hmask' hargs
  delivered evs hnodup hevs := by
    have hdeliver := h.deliverable hphase hnodup hevs
    obtain ⟨s, hs, _⟩ := eventCycle_run w.run.lost evs hdeliver
    refine ⟨by rw [hs]; rfl, hdeliver.distinct, ?_⟩
    intro done fd rest hsplit
    rw [hsplit] at hdeliver
    exact hdeliver.waiting h.run

theorem WorkerInv.closeSafe (h : WorkerInv w) {c : ℕ} (hhook : w.hook c = none) :
    CloseSafe w c where
  args fd hmask hargs := by
    obtain ⟨d, k, hk, _, _, _, hd⟩ := h.wired.event hmask
    have hcd : c = d := Option.some.inj (hargs.symm.trans hd)
    rw [← hcd, hhook] at hk
    cases hk
  close fd hfd := by
    apply h.wired.mask_none
    intro d k hk hkfd
    by_cases hdc : d = c
    · rw [hdc, hhook] at hk
      cases hk
    · exact absurd ⟨k, hk, hkfd⟩ (hfd d hdc)

/-- In every run of a worker, `event_cycle` wakes suspended coroutines only, each once, and no
event is for a coroutine that runs outside hooked calls. -/
theorem worker_wakeups (workerConnections : ℕ) (mem : ℕ → Coroutine)
    (hmax : workerConnections < 2 ^ 31) (w : Worker)
    (hrun : ReflTransGen WorkerStep (workerInit workerConnections mem hmax) w) :
    (w.phase = .policy → PollSafe w) ∧
      ∀ c, w.run.sched.current = some c → w.hook c = none → CloseSafe w c := by
  have hinv := run_invariant WorkerInv (fun _ _ => workerStep_inv)
    (workerInit_inv workerConnections mem hmax) hrun
  constructor
  · exact hinv.pollSafe
  · intro c _ hhook
    exact hinv.closeSafe hhook

/-- A worker with one coroutine that has just blocked in `read`. -/
def blockedReader : Worker :=
  let w₀ := workerInit 2 (fun _ => ⟨0, false⟩) (Nat.le_of_ble_eq_true rfl)
  let s₁ := (w₀.run.sched.dispatchCoro true).2
  let w₁ := { w₀.setSched s₁.runNextActive with phase := .runExpired }
  (w₁.setHook 1 (some ⟨.read, 5, false⟩)).register 1 ⟨.read, 5, false⟩ 0 true

theorem blockedReader_run :
    ReflTransGen WorkerStep (workerInit 2 (fun _ => ⟨0, false⟩) (Nat.le_of_ble_eq_true rfl))
      blockedReader := by
  let w₀ := workerInit 2 (fun _ => ⟨0, false⟩) (Nat.le_of_ble_eq_true rfl)
  let s₁ := (w₀.run.sched.dispatchCoro true).2
  let w₂ := { w₀.setSched s₁ with phase := .checkTimeout }
  let w₃ := { w₂ with phase := .runExpired }
  let w₄ := (w₃.setSched s₁.runNextActive).setHook 1 (some ⟨.read, 5, false⟩)
  have hcheck : s₁.checkTimeoutCoroutine 0 = s₁ := by
    rw [Sched.checkTimeoutCoroutine]
    rfl
  have hnone : { d ∈ w₂.run.suspended | 0 < (w₂.run.sched.coro d).timeout } = ∅ := by
    simp [w₂, w₀, Worker.setSched, workerInit]
  have h₁ : ReflTransGen WorkerStep w₀ (w₀.setSched s₁) :=
    ReflTransGen.single (WorkerStep.boot w₀ true rfl)
  have h₂ : ReflTransGen WorkerStep w₀ w₂ := h₁.tail (WorkerStep.scheduleCycle _ rfl)
  have hstep : WorkerStep w₂ w₃ := by
    have h := WorkerStep.checkTimeout w₂ 0 rfl
    rw [hnone] at h
    change WorkerStep w₂ { w₂ with
      run.sched := s₁.checkTimeoutCoroutine 0, run.suspended := ∅, phase := .runExpired } at h
    rw [hcheck] at h
    exact h
  have h₃ := (h₂.tail hstep).tail (WorkerStep.resume w₃ (Or.inl rfl) rfl)
  have h₄ : ReflTransGen WorkerStep w₀ w₄ := by
    apply h₃.tail
    apply WorkerStep.call _ 1 .read 5 rfl rfl
    rintro d ⟨k, hk, _⟩
    cases hk
  apply h₄.tail
  apply WorkerStep.attempt w₄ 1 ⟨.read, 5, false⟩ (.error .eagain) ⟨true, true, true⟩ 0 true
  · rfl
  · rfl
  · rfl
  · intro fd value hclose
    cases hclose
  · intro _ d hd
    exact absurd hd (Set.notMem_empty d)

/-- A coroutine blocked in `read` when the main loop polls for the first time. -/
theorem worker_wakeups_read : ∃ w : Worker, w.phase = .policy ∧
    (w.loop.array 5).mask = eventReadable ∧ (w.loop.array 5).args = some 1 ∧ PollSafe w := by
  have hrun := blockedReader_run.tail (WorkerStep.expiredRan blockedReader rfl rfl rfl)
  have hmask : evnetNone ||| eventReadable = eventReadable := BitVec.zero_or
  exact ⟨_, rfl, hmask, rfl, (worker_wakeups 2 _ _ _ hrun).1 rfl⟩

end Cserv.Coro
