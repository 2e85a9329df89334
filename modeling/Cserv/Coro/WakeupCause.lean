import Cserv.Coro.Wakeup

/-!
# A reported timeout is one

A hooked call asks `is_wakeup_by_timeout` why it runs again. The answer is a flag of the
coroutine that is set in one place and cleared in four, and not every wait reads it. Beside the
worker we note for each coroutine in which call of the main loop it last left the timer nodes,
and compare.
-/
namespace Cserv.Coro

open Foundations Util Relation

/-! ## What a wakeup does to the flag -/

theorem Sched.checkTimeoutCoroutine_flag (s : Sched) (now : ℤ) (c : ℕ) :
    (c ∈ s.waiting → c ∉ (s.checkTimeoutCoroutine now).waiting →
      ((s.checkTimeoutCoroutine now).coro c).activeByTimeout = true) ∧
    (c ∉ s.waiting → (s.checkTimeoutCoroutine now).coro c = s.coro c) := by
  obtain ⟨expired, inactive, heq, hlist, -, -⟩ := s.checkTimeoutCoroutine_spec now
  have horder : ∀ d, d ∈ (expired.flatMap fun tm => RbTree.rootOrder tm.root) ↔ d ∈ members expired :=
    fun d => (List.Perm.flatMap_left _ fun tm _ => RbTree.rootOrder_perm tm.root).mem_iff
  rw [heq]
  simp only [Sched.waiting, hlist, members_append, List.mem_append, expire, horder]
  constructor
  · rintro (hin | hin) hout
    · rw [if_pos hin]
    · exact absurd hin hout
  · intro hout
    rw [if_neg fun hin => hout (Or.inl hin)]

theorem eventCycle_flag {l : EventLoop} {evs : List ℕ} {s s' : Sched}
    (h : l.eventCycle s evs = some s') (c : ℕ) :
    (c ∈ l.targets evs → (s'.coro c).activeByTimeout = false) ∧
      (c ∉ l.targets evs → s'.coro c = s.coro c) := by
  induction evs generalizing s with
  | nil =>
    obtain rfl : s = s' := Option.some.inj h
    exact ⟨fun ⟨fd, hfd, _⟩ => absurd hfd List.not_mem_nil, fun _ => rfl⟩
  | cons fd evs ih =>
    obtain ⟨s₁, hfirst, hrest⟩ := Option.bind_eq_some_iff.mp h
    obtain ⟨p, -, hargs⟩ := Option.bind_eq_some_iff.mp hfirst
    obtain ⟨d, hd, hcall⟩ := Option.bind_eq_some_iff.mp hargs
    obtain rfl : p.call s d = s₁ := Option.some.inj hcall
    have hcoro : (p.call s d).coro =
        Function.update s.coro d { s.coro d with activeByTimeout := false } := by
      cases p <;> rfl
    obtain ⟨htarget, hother⟩ := ih hrest
    rw [targets_cons evs hd, Set.mem_insert_iff]
    by_cases hc : c ∈ l.targets evs
    · exact ⟨fun _ => htarget hc, fun hno => absurd (Or.inr hc) hno⟩
    · rw [hother hc, hcoro]
      constructor
      · rintro (rfl | hin)
        · rw [Function.update_self]
        · exact absurd hin hc
      · intro hno
        rw [Function.update_of_ne fun hcd => hno (Or.inl hcd)]

/-! ## Histories -/

/-- A worker, and for each coroutine the call of the main loop in which it last left the timer
nodes. -/
structure History where
  worker : Worker
  wokenIn : ℕ → Option Phase

def noteWakeups (w w' : Worker) (wokenIn : ℕ → Option Phase) (c : ℕ) : Option Phase :=
  if c ∈ w.run.sched.waiting ∧ c ∉ w'.run.sched.waiting then some w.phase else wokenIn c

inductive HistoryStep : History → History → Prop
  | step {w w' : Worker} (wokenIn : ℕ → Option Phase) (h : WorkerStep w w') :
      HistoryStep ⟨w, wokenIn⟩ ⟨w', noteWakeups w w' wokenIn⟩

/-- Every run of a worker has its history. -/
theorem exists_history {w w' : Worker} (hrun : ReflTransGen WorkerStep w w')
    (wokenIn : ℕ → Option Phase) :
    ∃ wokenIn', ReflTransGen HistoryStep ⟨w, wokenIn⟩ ⟨w', wokenIn'⟩ := by
  induction hrun with
  | refl => exact ⟨wokenIn, ReflTransGen.refl⟩
  | tail _ hstep ih =>
    obtain ⟨f, hf⟩ := ih
    exact ⟨_, hf.tail (.step f hstep)⟩

/-- The flag of a coroutine that has been woken in a hooked call tells by what. -/
structure Truthful (x : History) : Prop where
  inv : WorkerInv x.worker
  flag : ∀ c k, x.worker.hook c = some k → k.blocked = true → c ∉ x.worker.run.sched.waiting →
    (x.worker.run.sched.coro c).activeByTimeout = true ∧ x.wokenIn c = some .checkTimeout ∨
    (x.worker.run.sched.coro c).activeByTimeout = false ∧ x.wokenIn c = some .policy

/-- A step that leaves the coroutines alone that have been woken in a hooked call. -/
def Undisturbed (w w' : Worker) : Prop :=
  ∀ c k, w'.hook c = some k → k.blocked = true → c ∉ w'.run.sched.waiting →
    w.hook c = some k ∧ c ∉ w.run.sched.waiting ∧ w'.run.sched.coro c = w.run.sched.coro c

theorem Undisturbed.truthful {w w' : Worker} {wokenIn : ℕ → Option Phase} (h : Undisturbed w w')
    (hinv : WorkerInv w') (ht : Truthful ⟨w, wokenIn⟩) :
    Truthful ⟨w', noteWakeups w w' wokenIn⟩ := by
  refine ⟨hinv, ?_⟩
  intro c k hk hblocked hout
  obtain ⟨hk', hout', hcoro⟩ := h c k hk hblocked hout
  have hnote : noteWakeups w w' wokenIn c = wokenIn c := if_neg fun hin => hout' hin.1
  dsimp only
  rw [hnote, hcoro]
  exact ht.flag c k hk' hblocked hout'

/-! ## Steps -/

section Steps

variable {w w' : Worker}

/-- No coroutine leaves the timer nodes, and hooks and flags change only where nothing is said. -/
theorem undisturbed_of_kept (hinv : WorkerInv w) (hinv' : WorkerInv w')
    (hsuspended : w.run.suspended ⊆ w'.run.suspended)
    (hkept : ∀ c k, w'.hook c = some k → k.blocked = true → c ∉ w'.run.suspended →
      w.hook c = some k ∧ w'.run.sched.coro c = w.run.sched.coro c) : Undisturbed w w' := by
  intro c k hk hblocked hout
  rw [← hinv'.run.suspended c] at hout
  rw [← hinv.run.suspended c]
  obtain ⟨hk', hcoro⟩ := hkept c k hk hblocked hout
  exact ⟨hk', fun hin => hout (hsuspended hin), hcoro⟩

theorem undisturbed_of_same (hinv : WorkerInv w) (hinv' : WorkerInv w') (hhook : w'.hook = w.hook)
    (hsuspended : w'.run.suspended = w.run.suspended)
    (hcoro : ∀ c, w.run.sched.Busy c → w'.run.sched.coro c = w.run.sched.coro c) :
    Undisturbed w w' := by
  apply undisturbed_of_kept hinv hinv' hsuspended.symm.subset
  intro c k hk _ _
  rw [hhook] at hk
  exact ⟨hk, hcoro c (hinv.busy c k hk)⟩

theorem dispatchCoro_coro {x : Run} (h : RunInv x) (mem : Bool) {c : ℕ} (hc : x.sched.Busy c) :
    (x.sched.dispatchCoro mem).2.coro c = x.sched.coro c := by
  obtain ⟨hrange, hidle⟩ := hc
  unfold Sched.dispatchCoro Sched.getCoroutine
  cases hcases : x.sched.idle with
  | cons d rest =>
    rw [hcases] at hidle
    have hne : c ≠ d := by
      rintro rfl
      exact hidle List.mem_cons_self
    exact Function.update_of_ne hne _ _
  | nil =>
    have hnext := h.next
    rw [List.mem_range'_1] at hrange
    unfold Sched.createCoroutine
    split_ifs
    · rfl
    · rfl
    · exact Function.update_of_ne (by omega) _ _

section Proceed

variable {c : ℕ} {k : Hook} {now : ℤ} {ok : Bool} {a : Attempt}

theorem proceed_coro {d : ℕ} (hd : d ≠ c) :
    (w.proceed c k now ok a).run.sched.coro d = w.run.sched.coro d := by
  cases a with
  | register =>
    simp only [Worker.proceed, Worker.register]
    split_ifs
    · rfl
    · exact Function.update_of_ne hd _ _
  | _ => rfl

theorem proceed_suspended : w.run.suspended ⊆ (w.proceed c k now ok a).run.suspended := by
  cases a with
  | register =>
    simp only [Worker.proceed, Worker.register]
    split_ifs
    · exact subset_rfl
    · exact Set.subset_insert ..
  | _ => exact subset_rfl

/-- A hook that goes on is blocked only after its coroutine has suspended itself. -/
theorem proceed_self {m : Hook} (hm : (w.proceed c k now ok a).hook c = some m)
    (hblocked : m.blocked = true) : c ∈ (w.proceed c k now ok a).run.suspended := by
  cases a with
  | register =>
    simp only [Worker.proceed, Worker.register] at hm ⊢
    split_ifs at hm ⊢
    · simp [Worker.setHook] at hm
    · exact Set.mem_insert ..
  | again =>
    simp only [Worker.proceed, Worker.setHook, Function.update_self] at hm
    obtain rfl := Option.some.inj hm
    cases hblocked
  | _ => simp [Worker.proceed, Worker.setHook] at hm

theorem proceed_undisturbed {w₀ : Worker} (hinv : WorkerInv w₀)
    (hinv' : WorkerInv (w.proceed c k now ok a)) (hhook : w.hook = w₀.hook)
    (hsuspended : w.run.suspended = w₀.run.suspended)
    (hcoro : ∀ d, d ≠ c → w.run.sched.coro d = w₀.run.sched.coro d) :
    Undisturbed w₀ (w.proceed c k now ok a) := by
  apply undisturbed_of_kept hinv hinv'
  · rw [← hsuspended]
    exact proceed_suspended
  · intro d m hm hblocked hout
    have hd : d ≠ c := by
      rintro rfl
      exact hout (proceed_self hm hblocked)
    rw [proceed_hook hd, hhook] at hm
    rw [proceed_coro hd]
    exact ⟨hm, hcoro d hd⟩

end Proceed

theorem checkTimeout_truthful {wokenIn : ℕ → Option Phase} {now : ℤ}
    (hphase : w.phase = .checkTimeout) (hinv : WorkerInv w')
    (hhook : w'.hook = w.hook) (hsched : w'.run.sched = w.run.sched.checkTimeoutCoroutine now)
    (ht : Truthful ⟨w, wokenIn⟩) : Truthful ⟨w', noteWakeups w w' wokenIn⟩ := by
  refine ⟨hinv, ?_⟩
  intro c k hk hblocked hout
  dsimp only at hk hout ⊢
  rw [hhook] at hk
  rw [hsched] at hout
  obtain ⟨hset, hsame⟩ := w.run.sched.checkTimeoutCoroutine_flag now c
  unfold noteWakeups
  rw [hsched]
  by_cases hin : c ∈ w.run.sched.waiting
  · rw [if_pos ⟨hin, hout⟩, hphase]
    exact Or.inl ⟨hset hin hout, rfl⟩
  · rw [if_neg fun h => hin h.1, hsame hin]
    exact ht.flag c k hk hblocked hin

theorem policy_truthful {wokenIn : ℕ → Option Phase} {evs : List ℕ} {s : Sched}
    (hphase : w.phase = .policy) (hinv : WorkerInv w')
    (hcycle : w.loop.eventCycle w.run.sched evs = some s) (hhook : w'.hook = w.hook)
    (hsched : w'.run.sched = s) (hsuspended : w'.run.suspended = w.run.suspended \ w.loop.targets evs)
    (htargets : w.loop.targets evs ⊆ w.run.suspended)
    (ht : Truthful ⟨w, wokenIn⟩) : Truthful ⟨w', noteWakeups w w' wokenIn⟩ := by
  refine ⟨hinv, ?_⟩
  intro c k hk hblocked hout
  dsimp only at hk hout ⊢
  rw [hhook] at hk
  obtain ⟨hset, hsame⟩ := eventCycle_flag hcycle c
  have hwaiting := ht.inv.run.suspended c
  have hwaiting' := hinv.run.suspended c
  unfold noteWakeups
  by_cases hin : c ∈ w.run.sched.waiting
  · have htarget : c ∈ w.loop.targets evs := by
      by_contra hno
      apply hout
      rw [← hwaiting', hsuspended]
      exact ⟨hwaiting.mpr hin, hno⟩
    rw [if_pos ⟨hin, hout⟩, hphase, hsched]
    exact Or.inr ⟨hset htarget, rfl⟩
  · have hno : c ∉ w.loop.targets evs := fun htarget => hin (hwaiting.mp (htargets htarget))
    rw [if_neg fun h => hin h.1, hsched, hsame hno]
    exact ht.flag c k hk hblocked hin

end Steps

theorem historyStep_truthful {x y : History} (h : Truthful x) (hstep : HistoryStep x y) :
    Truthful y := by
  obtain ⟨wokenIn, hworker⟩ := hstep
  have hinv : WorkerInv _ := h.inv
  have hinv' := workerStep_inv hinv hworker
  cases hworker with
  | checkTimeout now hphase => exact checkTimeout_truthful hphase hinv' rfl rfl h
  | policy evs s hphase hnodup hevs hcycle =>
    refine policy_truthful hphase hinv' hcycle rfl rfl rfl ?_ h
    rintro c ⟨fd, hfd, hargs⟩
    obtain ⟨p, d, -, hd, hin⟩ := (hinv.deliverable hphase hnodup hevs).ready fd hfd
    rwa [Option.some.inj (hargs.symm.trans hd)]
  | boot mem hphase =>
    exact (undisturbed_of_same hinv hinv' rfl rfl
      fun c hc => dispatchCoro_coro hinv.run mem hc).truthful hinv' h
  | dispatch c mem hcurrent hhook =>
    exact (undisturbed_of_same hinv hinv' rfl rfl
      fun c hc => dispatchCoro_coro hinv.run mem hc).truthful hinv' h
  | resume hphase hcurrent =>
    refine (undisturbed_of_same hinv hinv' rfl rfl fun c _ => ?_).truthful hinv' h
    simp only [Worker.setSched, Sched.runNextActive]
    split <;> rfl
  | timeout c now milliseconds hcurrent hhook hnear =>
    refine Undisturbed.truthful (undisturbed_of_kept hinv hinv' (Set.subset_insert ..) ?_) hinv' h
    intro d k hk _ hout
    refine ⟨hk, Function.update_of_ne ?_ _ _⟩
    rintro rfl
    exact hout (Set.mem_insert ..)
  | call c call fd hcurrent hhook hfd =>
    refine Undisturbed.truthful (undisturbed_of_kept hinv hinv' subset_rfl ?_) hinv' h
    intro d k hk hblocked _
    have hd : d ≠ c := by
      rintro rfl
      simp only [Worker.setHook, Function.update_self] at hk
      obtain rfl := Option.some.inj hk
      cases hblocked
    simp only [Worker.setHook, Function.update_of_ne hd] at hk
    exact ⟨hk, rfl⟩
  | attempt c k r o now ok hcurrent hhook hblocked hclose hnear =>
    exact (proceed_undisturbed hinv hinv' rfl rfl fun _ _ => rfl).truthful hinv' h
  | wake c k sockError now ok hcurrent hhook hblocked =>
    exact (proceed_undisturbed hinv hinv' rfl rfl
      fun d hd => Function.update_of_ne hd _ _).truthful hinv' h
  | _ => exact (undisturbed_of_same hinv hinv' rfl rfl fun _ _ => rfl).truthful hinv' h

/-! ## Reports -/

/-- In every run of a worker, when a hooked call goes on behind `schedule_timeout`,
`is_wakeup_by_timeout` is true if `check_timeout_coroutine` took its coroutine out of the timer
nodes, and false if the polling for events did; nothing else does. -/
theorem timeout_reports_truthful (workerConnections : ℕ) (mem : ℕ → Coroutine)
    (hmax : workerConnections < 2 ^ 31) (x : History)
    (hrun : ReflTransGen HistoryStep ⟨workerInit workerConnections mem hmax, fun _ => none⟩ x)
    (c : ℕ) (k : Hook) (hcurrent : x.worker.run.sched.current = some c)
    (hhook : x.worker.hook c = some k) (hblocked : k.blocked = true) :
    ((x.worker.release c k).1 = true ↔ x.wokenIn c = some .checkTimeout) ∧
      ((x.worker.release c k).1 = false ↔ x.wokenIn c = some .policy) := by
  have hstart : Truthful ⟨workerInit workerConnections mem hmax, fun _ => none⟩ :=
    ⟨workerInit_inv workerConnections mem hmax, fun _ _ hc => nomatch hc⟩
  have htruth := run_invariant Truthful (fun _ _ => historyStep_truthful) hstart hrun
  have hout := htruth.inv.run.current_not_waiting hcurrent
  change ((x.worker.run.sched.coro c).activeByTimeout = true ↔ _) ∧
    ((x.worker.run.sched.coro c).activeByTimeout = false ↔ _)
  rcases htruth.flag c k hhook hblocked hout with ⟨hflag, hcause⟩ | ⟨hflag, hcause⟩ <;>
    simp [hflag, hcause]

/-- A `read` that an event of its descriptor wakes reports no timeout. -/
theorem timeout_reports_event : ∃ x : History, x.worker.run.sched.current = some 1 ∧
    x.wokenIn 1 = some .policy ∧ (x.worker.release 1 ⟨.read, 5, true⟩).1 = false := by
  let w₁ : Worker := { blockedReader with phase := .policy }
  have h₁ := blockedReader_run.tail (WorkerStep.expiredRan blockedReader rfl rfl rfl)
  have hevs : ∀ fd ∈ [5], (w₁.loop.epoll fd).isSome := by
    intro fd hfd
    rw [List.mem_singleton.mp hfd]
    rfl
  have h₂ := h₁.tail (WorkerStep.policy w₁ [5] _ rfl (List.nodup_singleton 5) hevs rfl)
  have h₃ := h₂.tail (WorkerStep.resume _ (Or.inr rfl) rfl)
  obtain ⟨wokenIn, hhistory⟩ := exists_history h₃ (fun _ => none)
  have hevent := (timeout_reports_truthful 2 _ _ _ hhistory 1 ⟨.read, 5, true⟩ rfl rfl rfl).2
  exact ⟨_, rfl, hevent.mp rfl, rfl⟩

end Cserv.Coro
