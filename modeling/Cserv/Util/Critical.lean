import Cserv.Util.SpinLock

/-!
# Sections between `spin_lock` and `spin_unlock`

Processes share data that they access only while they have the lock. A section of code is given by
what one access does to the local state of its process and to the data. The accesses of different
processes interleave with those to the lock, but the sections take effect one after the other, as if
each one had run alone.
-/
namespace Cserv.Util

open Foundations Relation

variable {n : ℕ}

/-! ## Moves of the lock -/

namespace LockState

def ticketed (x : LockState n) (p : Fin n) : LockState n :=
  { x.setProc p (.waiting x.lock.ticket) (x.holds p) with
    lock.ticket := x.lock.ticket + 1
    issued := x.issued ++ [(p, .lock)] }

def entered (x : LockState n) (p : Fin n) : LockState n :=
  { x.setProc p .outside true with acquired := x.acquired ++ [(p, .lock)] }

def released (x : LockState n) (p : Fin n) (start : UInt32) : LockState n :=
  { x.setProc p .outside false with
    lock.start := start + 1
    served := x.served + 1 }

variable {x : LockState n} {p q : Fin n} {start : UInt32}

theorem holds_released : (x.released p start).holds q = if q = p then false else x.holds q :=
  holds_of_update (c := ⟨.outside, false⟩) rfl q

theorem pc_released : (x.released p start).pc q = if q = p then .outside else x.pc q :=
  pc_of_update (c := ⟨.outside, false⟩) rfl q

end LockState

/-- A process that finds its ticket served is the only one with the lock. -/
theorem LockInv.no_holder {x : LockState n} {queue : List (Fin n)} {p : Fin n}
    (h : LockInv x queue) (hn : n < 2 ^ 32) (hpc : x.pc p = .waiting x.lock.start) (q : Fin n) :
    x.holds q = false := by
  obtain ⟨-, -, hserved⟩ := h.next hn hpc
  cases hq : x.holds q with
  | false => rfl
  | true =>
    have hlen := (h.holder q hq).1
    omega

/-! ## Sections -/

/-- A section of code: the local states in which it may be called, the accesses to the data, and the
local states in which it ends. -/
structure CriticalSection (δ σ : Type*) where
  call : σ → Prop
  access : σ × δ → σ × δ → Prop
  ends : σ → Prop

/-- Where a process is, with its local states at the call and now. -/
inductive SectionPc (σ : Type*)
  | outside
  | entering (start : σ)
  | inside (start now : σ)
  | leaving (start now : σ)

/-- The processes, the lock and the data. `history` has the sections that have ended, with their
local states at the call and at the end. -/
structure Guarded (n : ℕ) (δ σ : Type*) where
  lock : LockState n
  data : δ
  proc : Fin n → SectionPc σ
  history : List (Fin n × σ × σ)

variable {δ σ : Type*}

namespace Guarded

def init (n : ℕ) (σ : Type*) (data : δ) : Guarded n δ σ :=
  ⟨LockState.init n, data, fun _ => .outside, []⟩

def goto (x : Guarded n δ σ) (p : Fin n) (pc : SectionPc σ) : Guarded n δ σ :=
  { x with proc := Function.update x.proc p pc }

end Guarded

inductive GuardedStep (S : CriticalSection δ σ) : Guarded n δ σ → Guarded n δ σ → Prop
  | call (x : Guarded n δ σ) (p : Fin n) (start : σ) (hpc : x.proc p = .outside)
      (hcall : S.call start) : GuardedStep S x (x.goto p (.entering start))
  | fetchAdd (x : Guarded n δ σ) (p : Fin n) (start : σ) (hpc : x.proc p = .entering start)
      (hlock : x.lock.pc p = .outside) :
      GuardedStep S x { x with lock := x.lock.ticketed p }
  | spin (x : Guarded n δ σ) (p : Fin n) (start : σ) (ticket : UInt32)
      (hpc : x.proc p = .entering start) (hlock : x.lock.pc p = .waiting ticket)
      (htest : x.lock.lock.start ≠ ticket) : GuardedStep S x x
  | acquire (x : Guarded n δ σ) (p : Fin n) (start : σ) (ticket : UInt32)
      (hpc : x.proc p = .entering start) (hlock : x.lock.pc p = .waiting ticket)
      (htest : x.lock.lock.start = ticket) :
      GuardedStep S x { x.goto p (.inside start start) with lock := x.lock.entered p }
  | access (x : Guarded n δ σ) (p : Fin n) (start now next : σ) (data : δ)
      (hpc : x.proc p = .inside start now) (haccess : S.access (now, x.data) (next, data)) :
      GuardedStep S x { x.goto p (.inside start next) with data := data }
  | unlockLoad (x : Guarded n δ σ) (p : Fin n) (start now : σ) (hpc : x.proc p = .inside start now)
      (hends : S.ends now) :
      GuardedStep S x
        { x.goto p (.leaving start now) with
          lock := x.lock.setProc p (.unlocking x.lock.lock.start) true }
  | unlockStore (x : Guarded n δ σ) (p : Fin n) (start now : σ) (served : UInt32)
      (hpc : x.proc p = .leaving start now) (hlock : x.lock.pc p = .unlocking served) :
      GuardedStep S x
        { x.goto p .outside with
          lock := x.lock.released p served
          history := x.history ++ [(p, start, now)] }

/-- The sections of `history` ran alone, one after the other, and changed the data from `d₀` to
`d`. -/
inductive CriticalSection.Serial (S : CriticalSection δ σ) (d₀ : δ) :
    List (Fin n × σ × σ) → δ → Prop
  | nil : S.Serial d₀ [] d₀
  | snoc {history : List (Fin n × σ × σ)} {d d' : δ} {p : Fin n} {start now : σ}
      (hserial : S.Serial d₀ history d) (hcall : S.call start)
      (hruns : ReflTransGen S.access (start, d) (now, d')) (hends : S.ends now) :
      S.Serial d₀ (history ++ [(p, start, now)]) d'

namespace CriticalSection.Serial

variable {S : CriticalSection δ σ} {d₀ d : δ} {history before after : List (Fin n × σ × σ)}
  {e : Fin n × σ × σ}

theorem mem (h : S.Serial d₀ history d) (he : e ∈ history) : S.call e.2.1 ∧ S.ends e.2.2 := by
  induction h with
  | nil => cases he
  | snoc hserial hcall hruns hends ih =>
    rcases List.mem_append.mp he with he | he
    · exact ih he
    · rw [List.mem_singleton.mp he]
      exact ⟨hcall, hends⟩

theorem split (h : S.Serial d₀ (before ++ e :: after) d) :
    ∃ d₁ d₂, S.Serial d₀ before d₁ ∧ S.call e.2.1 ∧
      ReflTransGen S.access (e.2.1, d₁) (e.2.2, d₂) ∧ S.ends e.2.2 := by
  induction after using List.reverseRecOn generalizing d with
  | nil =>
    generalize hhistory : before ++ [e] = history at h
    cases h with
    | nil => simp at hhistory
    | snoc hserial hcall hruns hends =>
      obtain ⟨rfl, heq⟩ := List.append_inj' hhistory rfl
      rw [List.singleton_inj.mp heq]
      exact ⟨_, _, hserial, hcall, hruns, hends⟩
  | append_singleton after last ih =>
    generalize hhistory : before ++ e :: (after ++ [last]) = history at h
    cases h with
    | nil => simp at hhistory
    | snoc hserial hcall hruns hends =>
      rw [← List.cons_append, ← List.append_assoc] at hhistory
      obtain ⟨rfl, -⟩ := List.append_inj' hhistory rfl
      exact ih hserial

end CriticalSection.Serial

/-! ## The sections take effect one after the other -/

/-- What a process at `pc` does with the lock. -/
def SectionPc.Locks : SectionPc σ → LockProc → Prop
  | outside, l => l = ⟨.outside, false⟩
  | entering _, l => l.holds = false ∧ (l.pc = .outside ∨ ∃ t, l.pc = .waiting t)
  | inside _ _, l => l = ⟨.outside, true⟩
  | leaving _ _, l => l.holds = true

/-- A process in the section was called properly and has done its accesses alone, from the data `d`
on. -/
def SectionPc.Alone (S : CriticalSection δ σ) (d data : δ) : SectionPc σ → Prop
  | outside => True
  | entering start => S.call start
  | inside start now => S.call start ∧ ReflTransGen S.access (start, d) (now, data)
  | leaving start now =>
    S.call start ∧ ReflTransGen S.access (start, d) (now, data) ∧ S.ends now

/-- The data are as the sections in `history` left them, apart from the accesses of the process that
has the lock. -/
structure GuardedInv (S : CriticalSection δ σ) (d₀ : δ) (x : Guarded n δ σ) : Prop where
  lock : ∃ queue, LockInv x.lock queue
  locks : ∀ p, (x.proc p).Locks (x.lock.proc p)
  serial : ∃ d, S.Serial d₀ x.history d ∧ (∀ p, (x.proc p).Alone S d x.data) ∧
    ((∀ p, x.lock.holds p = false) → x.data = d)

variable {S : CriticalSection δ σ} {d₀ d data : δ} {x y : Guarded n δ σ} {p : Fin n}

theorem SectionPc.Locks.alone {pc : SectionPc σ} {l : LockProc} (h : pc.Locks l)
    (hholds : l.holds = false) (halone : pc.Alone S d data) (d' data' : δ) :
    pc.Alone S d' data' := by
  cases pc with
  | outside => trivial
  | entering start => exact halone
  | inside start now =>
    rw [show l = ⟨.outside, true⟩ from h] at hholds
    cases hholds
  | leaving start now =>
    rw [show l.holds = true from h] at hholds
    cases hholds

theorem guardedInit_inv (S : CriticalSection δ σ) (d₀ : δ) :
    GuardedInv S d₀ (Guarded.init n σ d₀) where
  lock := ⟨[], LockInv.init n⟩
  locks _ := rfl
  serial := ⟨d₀, .nil, fun _ => trivial, fun _ => rfl⟩

namespace GuardedInv

theorem move (h : GuardedInv S d₀ x) {lock : LockState n} {pc : SectionPc σ} {l : LockProc}
    {history : List (Fin n × σ × σ)} (hlock : ∃ queue, LockInv lock queue)
    (hproc : lock.proc = Function.update x.lock.proc p l) (hl : pc.Locks l)
    (hserial : S.Serial d₀ history d) (hself : pc.Alone S d data)
    (hothers : ∀ q, q ≠ p → (x.proc q).Alone S d data)
    (hdata : l.holds = false → (∀ q, q ≠ p → x.lock.holds q = false) → data = d) :
    GuardedInv S d₀
      { x.goto p pc with lock := lock, data := data, history := history } where
  lock := hlock
  locks q := by
    change (Function.update x.proc p pc q).Locks (lock.proc q)
    rw [hproc]
    by_cases hq : q = p
    · rw [hq, Function.update_self, Function.update_self]
      exact hl
    · rw [Function.update_of_ne hq, Function.update_of_ne hq]
      exact h.locks q
  serial := by
    refine ⟨d, hserial, fun q => ?_, fun hfree => hdata ?_ fun q hq => ?_⟩
    · change (Function.update x.proc p pc q).Alone S d data
      by_cases hq : q = p
      · rw [hq, Function.update_self]
        exact hself
      · rw [Function.update_of_ne hq]
        exact hothers q hq
    · have hp := hfree p
      rw [LockState.holds_of_update hproc, if_pos rfl] at hp
      exact hp
    · have hq' := hfree q
      rw [LockState.holds_of_update hproc, if_neg hq] at hq'
      exact hq'

theorem others (h : GuardedInv S d₀ x) (hp : x.lock.holds p = true)
    (halone : ∀ q, (x.proc q).Alone S d x.data) (d' data' : δ) (q : Fin n) (hq : q ≠ p) :
    (x.proc q).Alone S d' data' := by
  obtain ⟨queue, hlock⟩ := h.lock
  refine (h.locks q).alone ?_ (halone q) d' data'
  exact Bool.eq_false_iff.mpr fun hholds => hq (hlock.holder_unique hholds hp)

theorem call (h : GuardedInv S d₀ x) {start : σ} (hpc : x.proc p = .outside) (hcall : S.call start) :
    GuardedInv S d₀ (x.goto p (.entering start)) := by
  obtain ⟨d, hserial, halone, hdata⟩ := h.serial
  have hp : x.lock.proc p = ⟨.outside, false⟩ := by
    have hlocks := h.locks p
    rw [hpc] at hlocks
    exact hlocks
  refine h.move (l := x.lock.proc p) h.lock (Function.update_eq_self ..).symm ?_ hserial hcall
    (fun q _ => halone q) fun hl hothers => hdata fun q => ?_
  · rw [hp]
    exact ⟨rfl, Or.inl rfl⟩
  · by_cases hq : q = p
    · rw [hq]
      exact hl
    · exact hothers q hq

theorem fetchAdd (h : GuardedInv S d₀ x) {start : σ} (hpc : x.proc p = .entering start)
    (hlock : x.lock.pc p = .outside) : GuardedInv S d₀ { x with lock := x.lock.ticketed p } := by
  obtain ⟨d, hserial, halone, hdata⟩ := h.serial
  obtain ⟨queue, hqueue⟩ := h.lock
  have hholds : x.lock.holds p = false := by
    have hlocks := h.locks p
    rw [hpc] at hlocks
    exact hlocks.1
  have hself := halone p
  rw [hpc] at hself
  have hgoto : x = x.goto p (.entering start) := by
    rw [Guarded.goto, ← hpc, Function.update_eq_self]
  rw [hgoto]
  refine h.move (l := ⟨.waiting x.lock.lock.ticket, x.lock.holds p⟩) ⟨_, hqueue.fetchAdd hlock⟩ rfl
    ⟨hholds, Or.inr ⟨_, rfl⟩⟩ hserial hself (fun q _ => halone q) fun _ hothers => hdata fun q => ?_
  by_cases hq : q = p
  · rw [hq]
    exact hholds
  · exact hothers q hq

theorem acquire (h : GuardedInv S d₀ x) (hn : n < 2 ^ 32) {start : σ}
    (hpc : x.proc p = .entering start) (hlock : x.lock.pc p = .waiting x.lock.lock.start) :
    GuardedInv S d₀ { x.goto p (.inside start start) with lock := x.lock.entered p } := by
  obtain ⟨d, hserial, halone, hdata⟩ := h.serial
  obtain ⟨queue, hqueue⟩ := h.lock
  have hdata' := hdata (hqueue.no_holder hn hlock)
  have hcall := halone p
  rw [hpc] at hcall
  refine h.move (l := ⟨.outside, true⟩) ⟨_, hqueue.acquire hn hlock⟩ rfl rfl hserial ⟨hcall, ?_⟩
    (fun q _ => halone q) nofun
  change ReflTransGen S.access (start, d) (start, x.data)
  rw [hdata']

theorem inside_proc (h : GuardedInv S d₀ x) {start now : σ} (hpc : x.proc p = .inside start now) :
    x.lock.proc p = ⟨.outside, true⟩ := by
  have hlocks := h.locks p
  rw [hpc] at hlocks
  exact hlocks

theorem access (h : GuardedInv S d₀ x) {start now next : σ} (hpc : x.proc p = .inside start now)
    (haccess : S.access (now, x.data) (next, data)) :
    GuardedInv S d₀ { x.goto p (.inside start next) with data := data } := by
  obtain ⟨d, hserial, halone, -⟩ := h.serial
  have hp := h.inside_proc hpc
  have hholds : x.lock.holds p = true := by rw [LockState.holds, hp]
  have hself := halone p
  rw [hpc] at hself
  refine h.move (l := x.lock.proc p) h.lock (Function.update_eq_self ..).symm hp hserial
    ⟨hself.1, hself.2.tail haccess⟩ (h.others hholds halone d data) fun hl _ => ?_
  rw [hp] at hl
  cases hl

theorem unlockLoad (h : GuardedInv S d₀ x) {start now : σ} (hpc : x.proc p = .inside start now)
    (hends : S.ends now) :
    GuardedInv S d₀ { x.goto p (.leaving start now) with
      lock := x.lock.setProc p (.unlocking x.lock.lock.start) true } := by
  obtain ⟨d, hserial, halone, -⟩ := h.serial
  obtain ⟨queue, hqueue⟩ := h.lock
  have hp := h.inside_proc hpc
  have houtside : x.lock.pc p = .outside := by rw [LockState.pc, hp]
  have hholds : x.lock.holds p = true := by rw [LockState.holds, hp]
  have hself := halone p
  rw [hpc] at hself
  have hlock : LockInv (x.lock.setProc p (.unlocking x.lock.lock.start) true) queue := by
    refine hqueue.setProc (by simp [houtside]) nofun (fun _ => hholds) nofun ?_
    intro v hv
    cases hv
    exact ⟨rfl, rfl⟩
  exact h.move (l := ⟨.unlocking x.lock.lock.start, true⟩) ⟨queue, hlock⟩ rfl rfl hserial
    ⟨hself.1, hself.2, hends⟩ (fun q _ => halone q) nofun

theorem unlockStore (h : GuardedInv S d₀ x) {start now : σ} {served : UInt32}
    (hpc : x.proc p = .leaving start now) (hlock : x.lock.pc p = .unlocking served) :
    GuardedInv S d₀ { x.goto p .outside with
      lock := x.lock.released p served
      history := x.history ++ [(p, start, now)] } := by
  obtain ⟨d, hserial, halone, -⟩ := h.serial
  obtain ⟨queue, hqueue⟩ := h.lock
  have hself := halone p
  rw [hpc] at hself
  obtain ⟨hcall, hruns, hends⟩ := hself
  have hholds := (hqueue.unlocking p served hlock).1
  exact h.move (l := ⟨.outside, false⟩) ⟨queue, hqueue.unlockStore hlock⟩ rfl rfl
    (hserial.snoc hcall hruns hends) trivial (h.others hholds halone x.data x.data) fun _ _ => rfl

theorem step (hn : n < 2 ^ 32) (h : GuardedInv S d₀ x) (hstep : GuardedStep S x y) :
    GuardedInv S d₀ y := by
  cases hstep with
  | call p start hpc hcall => exact h.call hpc hcall
  | fetchAdd p start hpc hlock => exact h.fetchAdd hpc hlock
  | spin => exact h
  | acquire p start ticket hpc hlock htest => exact h.acquire hn hpc (htest ▸ hlock)
  | access p start now next data hpc haccess => exact h.access hpc haccess
  | unlockLoad p start now hpc hends => exact h.unlockLoad hpc hends
  | unlockStore p start now served hpc hlock => exact h.unlockStore hpc hlock

end GuardedInv

/-- The sections that have ended ran as if alone, in the order of `history`, and while no process has
the lock the data are as they left them. -/
theorem guarded_serial (hn : n < 2 ^ 32)
    (hrun : ReflTransGen (GuardedStep S) (Guarded.init n σ d₀) x) :
    ∃ d, S.Serial d₀ x.history d ∧ ((∀ p, x.lock.holds p = false) → x.data = d) := by
  have hinv := run_invariant (GuardedInv S d₀) (fun _ _ => GuardedInv.step hn)
    (guardedInit_inv S d₀) hrun
  obtain ⟨d, hserial, -, hdata⟩ := hinv.serial
  exact ⟨d, hserial, hdata⟩

end Cserv.Util
