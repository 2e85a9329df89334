import Cserv.Coro.WakeupCause

/-!
# The main loop blocks only when it may

`schedule_cycle` gives the time up to the next timeout to `event_cycle`, which waits that long in
`epoll_wait`. While it waits no coroutine runs: a coroutine that could run, a timeout that passes
or a descriptor that is not registered would have to wait for an event of another coroutine. After
the wait, those that were woken run before the loop waits again.
-/
namespace Cserv.Coro

open Foundations Util Util.RbTree Relation

/-! ## The time to wait -/

/-- `get_recent_timespan` at the time `now`: the difference is stored in an `int`. -/
def Sched.getRecentTimespan (s : Sched) (now : ℤ) : ℤ :=
  match rbFirst s.inactive [] with
  | (.nil, _) => 10 * 1000
  | (.node _ _ tm _, _) =>
    let timespan := toInt32 (toInt64 (tm.timeout - now))
    if timespan < 0 then 0 else timespan

theorem getRecentTimespan_nil {s : Sched} {now : ℤ} (h : s.inactive.toList = []) :
    s.getRecentTimespan now = 10 * 1000 := by
  unfold Sched.getRecentTimespan
  split
  · rfl
  · next hfirst =>
    rw [rbFirst_node hfirst] at h
    cases h

theorem getRecentTimespan_cons {s : Sched} {now : ℤ} {tm : TimerNode} {ts : List TimerNode}
    (h : s.inactive.toList = tm :: ts) (hnear : Near tm.timeout now) :
    s.getRecentTimespan now = max 0 (tm.timeout - now) := by
  unfold Sched.getRecentTimespan
  split
  · next hfirst =>
    rw [rbFirst_nil hfirst] at h
    cases h
  · next hfirst =>
    rw [rbFirst_node hfirst] at h
    cases h
    have hfits : Fits tm.timeout now := hnear.trans (by norm_num)
    simp only [hfits.toInt64, hnear.toInt32]
    split_ifs <;> omega

/-- The wait ends with the first timeout, or at once if that has passed. -/
theorem RunInv.timespan {x : Run} (h : RunInv x) {now : ℤ}
    (hnear : ∀ d ∈ x.suspended, Near (x.sched.coro d).timeout now) :
    (x.suspended = ∅ → x.sched.getRecentTimespan now = 10 * 1000) ∧
      (∀ d ∈ x.suspended, 0 ≤ x.sched.getRecentTimespan now ∧
        x.sched.getRecentTimespan now ≤ max 0 ((x.sched.coro d).timeout - now)) ∧
      (x.suspended ≠ ∅ → ∃ d ∈ x.suspended,
        x.sched.getRecentTimespan now = max 0 ((x.sched.coro d).timeout - now)) := by
  cases hlist : x.sched.inactive.toList with
  | nil =>
    have hempty : x.suspended = ∅ := by
      ext d
      simp [h.suspended, Sched.waiting, hlist, members]
    refine ⟨fun _ => getRecentTimespan_nil hlist, ?_, fun hne => absurd hempty hne⟩
    intro d hd
    rw [hempty] at hd
    exact absurd hd (Set.notMem_empty d)
  | cons tm ts =>
    have hmem : tm ∈ x.sched.inactive.toList := by simp [hlist]
    obtain ⟨c, hc⟩ := List.exists_mem_of_ne_nil _ (h.timers.nonempty tm hmem)
    have hin : c ∈ x.suspended := by
      rw [h.suspended]
      exact List.mem_flatMap.mpr ⟨tm, hmem, hc⟩
    have htimeout := h.timers.timeout tm hmem c hc
    have hspan := getRecentTimespan_cons hlist (htimeout ▸ hnear c hin)
    refine ⟨fun hempty => ?_, fun d hd => ?_, fun _ => ⟨c, hin, by rw [hspan, htimeout]⟩⟩
    · rw [hempty] at hin
      exact absurd hin (Set.notMem_empty c)
    · obtain ⟨tm', hmem', hd'⟩ := List.mem_flatMap.mp ((h.suspended d).mp hd)
      have hle : tm.timeout ≤ tm'.timeout := by
        have hsorted := h.timers.sorted
        rw [hlist] at hsorted hmem'
        rcases List.mem_cons.mp hmem' with rfl | hmem'
        · exact le_rfl
        · exact (List.rel_of_pairwise_cons hsorted hmem').le
      rw [hspan, h.timers.timeout tm' hmem' d hd']
      omega

/-! ## Coroutines in hooked calls -/

/-- A coroutine that is in a hooked call and not blocked is the one that runs. -/
def HookRuns (w : Worker) : Prop :=
  ∀ c k, w.hook c = some k → k.blocked = false → w.run.sched.current = some c

variable {w w' : Worker}

theorem proceed_hookRuns {c : ℕ} {k : Hook} {now : ℤ} {ok : Bool} {a : Attempt}
    (hcurrent : w.run.sched.current = some c)
    (hothers : ∀ d m, d ≠ c → w.hook d = some m → m.blocked = true) :
    HookRuns (w.proceed c k now ok a) := by
  intro d m hm hfree
  by_cases hd : d = c
  · subst hd
    cases a with
    | register =>
      simp only [Worker.proceed, Worker.register] at hm ⊢
      split_ifs at hm ⊢
      · exact hcurrent
      · dsimp only at hm
        rw [Function.update_self] at hm
        cases hm
        cases hfree
    | _ => exact hcurrent
  · rw [proceed_hook hd] at hm
    rw [hothers d m hd hm] at hfree
    cases hfree

theorem workerStep_hookRuns (hinv : WorkerInv w) (h : HookRuns w) (hstep : WorkerStep w w') :
    HookRuns w' := by
  -- while a coroutine runs, the hooks of the others are blocked
  have hothers : ∀ c, w.run.sched.current = some c → ∀ d m, d ≠ c → w.hook d = some m →
      m.blocked = true := by
    intro c hcurrent d m hd hm
    cases hb : m.blocked with
    | true => rfl
    | false => exact absurd (Option.some.inj ((h d m hm hb).symm.trans hcurrent)) hd
  -- the running coroutine leaves when its hook is `none`, and a resumption finds none running
  have hleave : ∀ c, w.run.sched.current = some c → w.hook c = none → ∀ d m, w.hook d = some m →
      m.blocked ≠ false := by
    intro c hcurrent hhook d m hm hb
    rw [← Option.some.inj ((h d m hm hb).symm.trans hcurrent), hm] at hhook
    cases hhook
  have hnone : w.run.sched.current = none → ∀ d m, w.hook d = some m → m.blocked ≠ false := by
    intro hcurrent d m hm hb
    rw [h d m hm hb] at hcurrent
    cases hcurrent
  cases hstep with
  | boot mem hphase =>
    intro d m hm hb
    exact (dispatchCoro_current _ mem).trans (h d m hm hb)
  | checkTimeout now hphase =>
    intro d m hm hb
    exact (checkTimeoutCoroutine_samePool _ now).2.trans (h d m hm hb)
  | resume hphase hcurrent =>
    intro d m hm hb
    exact absurd hb (hnone hcurrent d m hm)
  | policy evs s hphase =>
    intro d m hm hb
    exact absurd hb (hnone (hinv.policy hphase).2 d m hm)
  | dispatch c mem hcurrent hhook =>
    intro d m hm hb
    exact (dispatchCoro_current _ mem).trans (h d m hm hb)
  | timeout c now milliseconds hcurrent hhook =>
    intro d m hm hb
    exact absurd hb (hleave c hcurrent hhook d m hm)
  | finish c hcurrent hhook =>
    intro d m hm hb
    exact absurd hb (hleave c hcurrent hhook d m hm)
  | call c call fd hcurrent hhook =>
    intro d m hm hb
    by_cases hd : d = c
    · rw [hd]
      exact hcurrent
    · exact h d m ((Function.update_of_ne hd _ _).symm.trans hm) hb
  | attempt c k r o now ok hcurrent => exact proceed_hookRuns hcurrent (hothers c hcurrent)
  | wake c k sockError now ok hcurrent => exact proceed_hookRuns hcurrent (hothers c hcurrent)
  | _ => exact h

/-! ## Active coroutines run -/

theorem dispatchCoro_active {s : Sched} {c : ℕ} (hc : c ∈ s.active) (mem : Bool) :
    c ∈ (s.dispatchCoro mem).2.active := by
  unfold Sched.dispatchCoro Sched.getCoroutine Sched.createCoroutine
  cases s.idle with
  | cons id rest => exact List.mem_append_left _ hc
  | nil =>
    dsimp only
    split_ifs
    · exact hc
    · exact hc
    · exact List.mem_append_left _ hc

theorem eventCycle_active {l : EventLoop} {evs : List ℕ} {s s' : Sched} {c : ℕ}
    (h : l.eventCycle s evs = some s') (hc : c ∈ s.active) : c ∈ s'.active := by
  induction evs generalizing s with
  | nil =>
    obtain rfl : s = s' := Option.some.inj h
    exact hc
  | cons fd evs ih =>
    obtain ⟨s₁, hfirst, hrest⟩ := Option.bind_eq_some_iff.mp h
    obtain ⟨p, -, hargs⟩ := Option.bind_eq_some_iff.mp hfirst
    obtain ⟨d, -, hcall⟩ := Option.bind_eq_some_iff.mp hargs
    obtain rfl : p.call s d = s₁ := Option.some.inj hcall
    apply ih hrest
    cases p with
    | eventRwCallback => exact List.mem_append_left _ hc
    | eventConnCallback => exact List.mem_cons_of_mem _ hc

theorem proceed_active {c : ℕ} {k : Hook} {now : ℤ} {ok : Bool} {a : Attempt} :
    (w.proceed c k now ok a).run.sched.active = w.run.sched.active := by
  cases a with
  | register =>
    simp only [Worker.proceed, Worker.register]
    split_ifs <;> rfl
  | _ => rfl

theorem workerStep_active {c : ℕ} (hc : c ∈ w.run.sched.active) (hstep : WorkerStep w w') :
    c ∈ w'.run.sched.active ∨ w'.run.sched.current = some c := by
  cases hstep with
  | boot mem hphase => exact Or.inl (dispatchCoro_active hc mem)
  | checkTimeout now hphase =>
    obtain ⟨expired, inactive, heq, -⟩ := w.run.sched.checkTimeoutCoroutine_spec now
    dsimp only
    rw [heq]
    exact Or.inl (List.mem_append_left _ hc)
  | resume hphase hcurrent =>
    unfold Worker.setSched Sched.runNextActive
    cases hlist : w.run.sched.active with
    | nil =>
      rw [hlist] at hc
      cases hc
    | cons d rest =>
      rw [hlist] at hc
      rcases List.mem_cons.mp hc with rfl | hc
      · exact Or.inr rfl
      · exact Or.inl hc
  | policy evs s hphase hnodup hevs hcycle => exact Or.inl (eventCycle_active hcycle hc)
  | dispatch d mem hcurrent hhook => exact Or.inl (dispatchCoro_active hc mem)
  | attempt d k r o now ok hcurrent =>
    rw [proceed_active]
    exact Or.inl hc
  | wake d k sockError now ok hcurrent =>
    rw [proceed_active]
    exact Or.inl hc
  | _ => exact Or.inl hc

/-- An event has woken the coroutine `c`, which has not run since. -/
structure Woken (w : Worker) (c : ℕ) : Prop where
  phase : w.phase = .runReady
  flag : (w.run.sched.coro c).activeByTimeout = false
  active : c ∈ w.run.sched.active

theorem Woken.step {c : ℕ} (h : Woken w c) (hinv : WorkerInv w) (hstep : WorkerStep w w') :
    w'.phase = .runReady ∧ (w'.run.sched.coro c).activeByTimeout = false ∧
      (c ∈ w'.run.sched.active ∨ w'.run.sched.current = some c) := by
  have hnext := workerStep_active h.active hstep
  have hne : ∀ d, w.run.sched.current = some d → c ≠ d := by
    rintro d hd rfl
    exact hinv.run.current_not_active hd h.active
  have hother : ∀ {phase : Phase}, w.phase = phase → phase = .runReady := fun hphase =>
    hphase.symm.trans h.phase
  cases hstep with
  | boot mem hphase => cases hother hphase
  | scheduleCycle hphase => cases hother hphase
  | checkTimeout now hphase => cases hother hphase
  | expiredRan hphase => cases hother hphase
  | policy evs s hphase => cases hother hphase
  | readyRan _ _ hactive =>
    have hin := h.active
    rw [hactive] at hin
    cases hin
  | resume =>
    refine ⟨h.phase, ?_, hnext⟩
    have hcoro : (w.run.sched.runNextActive).coro = w.run.sched.coro := by
      unfold Sched.runNextActive
      split <;> rfl
    exact (congrArg (fun coro => (coro c).activeByTimeout) hcoro).trans h.flag
  | dispatch d mem =>
    refine ⟨h.phase, ?_, hnext⟩
    have hcoro := dispatchCoro_coro hinv.run mem (hinv.run.busy_active h.active)
    exact (congrArg Coroutine.activeByTimeout hcoro).trans h.flag
  | timeout d now milliseconds hcurrent =>
    refine ⟨h.phase, ?_, hnext⟩
    have hcoro : (w.run.sched.scheduleTimeout d now milliseconds true).coro c = w.run.sched.coro c :=
      Function.update_of_ne (hne d hcurrent) _ _
    exact (congrArg Coroutine.activeByTimeout hcoro).trans h.flag
  | attempt d k r o now ok hcurrent =>
    rw [proceed_phase, proceed_coro (hne d hcurrent)]
    exact ⟨h.phase, h.flag, hnext⟩
  | wake d k sockError now ok hcurrent =>
    rw [proceed_phase, proceed_coro (hne d hcurrent)]
    refine ⟨h.phase, ?_, hnext⟩
    have hcoro : ((w.release d k).2.run.sched.coro c) = w.run.sched.coro c :=
      Function.update_of_ne (hne d hcurrent) _ _
    exact (congrArg Coroutine.activeByTimeout hcoro).trans h.flag
  | _ => exact ⟨h.phase, h.flag, hnext⟩

/-! ## Coroutines that do not run -/

theorem proceed_suspended_of_ne {c d : ℕ} {k : Hook} {now : ℤ} {ok : Bool} {a : Attempt} (hd : d ≠ c)
    (hin : d ∈ (w.proceed c k now ok a).run.suspended) : d ∈ w.run.suspended := by
  cases a with
  | register =>
    simp only [Worker.proceed, Worker.register] at hin
    split_ifs at hin
    · exact hin
    · exact (Set.mem_insert_iff.mp hin).resolve_left hd
  | _ => exact hin

theorem proceed_cases {c : ℕ} {k : Hook} {now : ℤ} {ok : Bool} {a : Attempt} :
    (∃ blocked, (w.proceed c k now ok a).hook c = some { k with blocked := blocked }) ∨
      (w.proceed c k now ok a).hook c = none ∧
        (w.proceed c k now ok a).run.suspended = w.run.suspended := by
  cases a with
  | register =>
    simp only [Worker.proceed, Worker.register]
    split_ifs
    · exact Or.inr ⟨Function.update_self .., rfl⟩
    · exact Or.inl ⟨true, Function.update_self ..⟩
  | again => exact Or.inl ⟨false, Function.update_self ..⟩
  | _ => exact Or.inr ⟨Function.update_self .., rfl⟩

/-- What a step does to a coroutine that does not run: it stays in its hook and is neither ended
nor suspended. -/
structure Aside (w w' : Worker) (d : ℕ) : Prop where
  hook : w'.hook d = w.hook d
  busy : w.run.sched.Busy d → w'.run.sched.Busy d
  suspended : d ∈ w'.run.suspended → d ∈ w.run.suspended

theorem Aside.trans {u : Worker} {d : ℕ} (h : Aside w w' d) (h' : Aside w' u d) : Aside w u d :=
  ⟨h'.hook.trans h.hook, fun hd => h'.busy (h.busy hd), fun hd => h.suspended (h'.suspended hd)⟩

theorem workerStep_aside (hinv : WorkerInv w) (hstep : WorkerStep w w') {d : ℕ}
    (hd : w.run.sched.current ≠ some d) : Aside w w' d := by
  have hne : ∀ c, w.run.sched.current = some c → d ≠ c := by
    rintro c hc rfl
    exact hd hc
  cases hstep with
  | boot mem hphase => exact ⟨rfl, fun h => h.dispatchCoro mem, id⟩
  | checkTimeout now hphase => exact ⟨rfl, fun h => h.checkTimeoutCoroutine now, fun h => h.1⟩
  | resume hphase hcurrent => exact ⟨rfl, fun h => h.runNextActive, id⟩
  | policy evs s hphase hnodup hevs hcycle =>
    obtain ⟨s', hs', hidle, hsize, -⟩ :=
      eventCycle_run w.run.lost evs (hinv.deliverable hphase hnodup hevs)
    obtain rfl : s' = s := Option.some.inj (hs'.symm.trans hcycle)
    refine ⟨rfl, fun h => ?_, fun h => h.1⟩
    unfold Sched.Busy
    rw [hidle, hsize]
    exact h
  | dispatch c mem hcurrent hhook => exact ⟨rfl, fun h => h.dispatchCoro mem, id⟩
  | timeout c now milliseconds hcurrent hhook =>
    exact ⟨rfl, id, fun h => (Set.mem_insert_iff.mp h).resolve_left (hne c hcurrent)⟩
  | finish c hcurrent hhook =>
    refine ⟨rfl, fun h => ⟨h.1, ?_⟩, id⟩
    simpa [Worker.setSched, Sched.finishCoroutine, hne c hcurrent] using h.2
  | call c call fd hcurrent hhook =>
    exact ⟨Function.update_of_ne (hne c hcurrent) _ _, id, id⟩
  | attempt c k r o now ok hcurrent =>
    exact ⟨proceed_hook (hne c hcurrent), proceed_busy, proceed_suspended_of_ne (hne c hcurrent)⟩
  | wake c k sockError now ok hcurrent =>
    refine ⟨proceed_hook (hne c hcurrent), fun h => proceed_busy ?_, fun h => ?_⟩
    · exact h
    · have hkept : d ∈ (w.release c k).2.run.suspended :=
        proceed_suspended_of_ne (hne c hcurrent) h
      exact hkept
  | _ => exact ⟨rfl, id, id⟩

/-- The hook of a running coroutine has gone on: it is still in its call, or has returned and
suspended nothing. -/
structure Continues (w w' : Worker) (c : ℕ) (k : Hook) : Prop where
  step : WorkerStep w w'
  hook : (∃ blocked, w'.hook c = some { k with blocked := blocked }) ∨
    w'.hook c = none ∧ w'.run.suspended = w.run.suspended
  busy : w'.run.sched.Busy c

section Continues

variable {c : ℕ} {k : Hook} {now : ℤ} {ok : Bool}

theorem Continues.attempt (hinv : WorkerInv w) {r : SysResult} {o : SocketOptions}
    (hcurrent : w.run.sched.current = some c) (hhook : w.hook c = some k)
    (hblocked : k.blocked = false)
    (hclose : ∀ fd value, k.call.attempt r o = .close fd value → ∀ d, ¬ w.Uses d fd)
    (hnear : k.call.attempt r o = .register → w.run.NearTimeouts now k.call.timeout) :
    Continues w (w.proceed c k now ok (k.call.attempt r o)) c k where
  step := .attempt w c k r o now ok hcurrent hhook hblocked hclose hnear
  hook := proceed_cases
  busy := proceed_busy (hinv.run.busy_current hcurrent)

theorem Continues.wake (hinv : WorkerInv w) {sockError : Bool}
    (hcurrent : w.run.sched.current = some c) (hhook : w.hook c = some k)
    (hblocked : k.blocked = true) :
    Continues w ((w.release c k).2.proceed c k now ok
      (k.call.woken (w.release c k).1 sockError)) c k where
  step := .wake w c k sockError now ok hcurrent hhook hblocked
  hook := proceed_cases
  busy := by
    apply proceed_busy
    exact hinv.run.busy_current hcurrent

end Continues

theorem getCoroutine_fresh {x : Run} (h : RunInv x) {mem : Bool} {d : ℕ} {s : Sched}
    (hget : x.sched.getCoroutine mem = some (d, s)) :
    ¬ x.sched.Busy d ∧ d ∈ (x.sched.dispatchCoro mem).2.active := by
  constructor
  · rintro ⟨hrange, hidle⟩
    unfold Sched.getCoroutine at hget
    cases hcases : x.sched.idle with
    | cons e rest =>
      rw [hcases] at hget hidle
      cases hget
      exact hidle List.mem_cons_self
    | nil =>
      rw [hcases] at hget
      unfold Sched.createCoroutine at hget
      split_ifs at hget
      · cases hget
      · cases hget
      · cases hget
        rw [List.mem_range'_1, h.next] at hrange
        omega
  · unfold Sched.dispatchCoro
    rw [hget]
    exact List.mem_append_right _ (List.mem_singleton_self d)

/-! ## The wait -/

/-- What `event_cycle` is called with: no coroutine can run, each coroutine in a hooked call is
suspended with its descriptor in the kernel's interest list, and the time to wait is that up to the
first timeout, as long as the timeouts are within the range of an `int` around the clock. -/
structure MayBlock (w : Worker) : Prop where
  active : w.run.sched.active = []
  current : w.run.sched.current = none
  armed : ∀ c k, w.hook c = some k → c ∈ w.run.suspended ∧
    w.loop.epoll k.fd = some (interest k.call.what) ∧ (w.loop.array k.fd).args = some c
  timespan : ∀ now, (∀ d ∈ w.run.suspended, Near (w.run.sched.coro d).timeout now) →
    (w.run.suspended = ∅ → w.run.sched.getRecentTimespan now = 10 * 1000) ∧
    (∀ d ∈ w.run.suspended, 0 ≤ w.run.sched.getRecentTimespan now ∧
      w.run.sched.getRecentTimespan now ≤ max 0 ((w.run.sched.coro d).timeout - now)) ∧
    (w.run.suspended ≠ ∅ → ∃ d ∈ w.run.suspended,
      w.run.sched.getRecentTimespan now = max 0 ((w.run.sched.coro d).timeout - now))

theorem WorkerInv.mayBlock (h : WorkerInv w) (hruns : HookRuns w) (hphase : w.phase = .policy) :
    MayBlock w := by
  obtain ⟨hactive, hcurrent⟩ := h.policy hphase
  refine ⟨hactive, hcurrent, fun c k hk => ?_, fun now hnear => h.run.timespan hnear⟩
  have hblocked : k.blocked = true := by
    by_contra hb
    have hc := hruns c k hk (Bool.eq_false_of_not_eq_true hb)
    rw [hcurrent] at hc
    cases hc
  have hevent := h.wired.armed c k hk hblocked
  have hplace := h.run.of_busy h.lost (h.busy c k hk)
  simp only [hactive, hcurrent, List.not_mem_nil, reduceCtorEq, false_or, or_false] at hplace
  refine ⟨(h.run.suspended c).mpr hplace, ?_, by rw [hevent]⟩
  rw [h.wired.synced.epoll, hevent, if_neg k.call.what_ne_none]

end Cserv.Coro
