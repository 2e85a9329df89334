import Cserv.Log.Record
import Cserv.Log.Slot

/-!
# `log_out` in a signal handler

`log_out` fills the static `logdesc`, formats the message there and passes it to `cirbuf_write`.
A signal handler that calls `log_out` may run between any two of its accesses to the descriptor
and to the ring, and uses the same descriptor and the same ring.
-/
namespace Cserv.Log

open Foundations Http

/-- A call of `log_out` with the text that its format gives. -/
structure LogCall where
  level : LogLevel
  file : List UInt8
  line : ℤ
  text : List UInt8
  deriving DecidableEq, Repr

/-- What the calls of a process share: its logger's `pid` and `queue`, `log_level` and `logdesc`.
A cell of the ring is given by the descriptor that it was formatted from. -/
structure LogProc where
  pid : ℤ
  logLevel : LogLevel
  logdesc : LogDesc
  queue : Cirbuf LogDesc

/-- The local variables of a call: `data` of `cirbuf_write` as an index, the value of `queue->end`
that is incremented, and whether it has returned because the ring was full. -/
structure LogLocals where
  data : ℕ
  stop : ℕ
  full : Bool

/-- The accesses of `log_out` and `cirbuf_write` to what is shared, in the order of the source. -/
inductive LogOp
  | setLog
  | setFile
  | setLine
  | setLevel
  | format
  | testFull
  | loadData
  | writeCb
  | loadEnd
  | storeEnd
  deriving DecidableEq, Repr

namespace LogOp

def exec (m : LogCall) (x : LogLocals × LogProc) : LogOp → LogLocals × LogProc
  | setLog => (x.1, { x.2 with logdesc.pid := x.2.pid })
  | setFile => (x.1, { x.2 with logdesc.file := m.file })
  | setLine => (x.1, { x.2 with logdesc.line := m.line })
  | setLevel => (x.1, { x.2 with logdesc.level := m.level })
  | format =>
    (x.1, { x.2 with
      logdesc := { x.2.logdesc with
        msg := stored msgSize m.text
        msg_lt := length_stored_msg m.text } })
  | testFull => ({ x.1 with full := x.2.queue.cirbufIsFull }, x.2)
  | loadData => if x.1.full then x else ({ x.1 with data := x.2.queue.stop }, x.2)
  | writeCb =>
    if x.1.full then x
    else
      (x.1, { x.2 with
        queue := { x.2.queue with
          elem := Function.update x.2.queue.elem x.1.data (some x.2.logdesc) } })
  | loadEnd => if x.1.full then x else ({ x.1 with stop := x.2.queue.stop }, x.2)
  | storeEnd =>
    if x.1.full then x
    else (x.1, { x.2 with queue.stop := (x.1.stop + 1) % x.2.queue.elemCount })

/-- The accesses of a call that is not below the level. -/
def all : List LogOp :=
  [setLog, setFile, setLine, setLevel, format, testFull, loadData, writeCb, loadEnd, storeEnd]

def run (m : LogCall) (ops : List LogOp) (x : LogLocals × LogProc) : LogLocals × LogProc :=
  ops.foldl (fun x op => op.exec m x) x

theorem run_cons (m : LogCall) (op : LogOp) (ops : List LogOp) (x : LogLocals × LogProc) :
    run m (op :: ops) x = run m ops (op.exec m x) := rfl

end LogOp

def LogProc.enabled (s : LogProc) (m : LogCall) : Bool := m.level.toNat ≤ s.logLevel.toNat

def logOps (s : LogProc) (m : LogCall) : List LogOp := if s.enabled m then LogOp.all else []

def LogLocals.init : LogLocals := ⟨0, 0, false⟩

def logOut (s : LogProc) (m : LogCall) : LogProc := (LogOp.run m (logOps s m) (.init, s)).2

/-- A call of `log_out` with a handler's call `m'` after its first `k` accesses. -/
def logOutInterrupted (s : LogProc) (k : ℕ) (m m' : LogCall) : LogProc :=
  let x := LogOp.run m ((logOps s m).take k) (.init, s)
  (LogOp.run m ((logOps s m).drop k) (x.1, logOut x.2 m')).2

def LogProc.desc (s : LogProc) (m : LogCall) : LogDesc :=
  logDesc s.pid m.file m.line m.level m.text

def LogProc.Holds (s : LogProc) (xs : List (Option LogDesc)) : Prop :=
  RingHolds s.queue.elemCount s.queue.elem s.queue.start s.queue.stop xs

theorem LogOp.exec_frame (m : LogCall) (x : LogLocals × LogProc) (op : LogOp) :
    (op.exec m x).2.queue.start = x.2.queue.start ∧
      (op.exec m x).2.queue.elemCount = x.2.queue.elemCount := by
  cases op with
  | loadData | writeCb | loadEnd | storeEnd =>
    simp only [exec]
    split_ifs <;> exact ⟨rfl, rfl⟩
  | _ => exact ⟨rfl, rfl⟩

theorem LogOp.run_frame (m : LogCall) (ops : List LogOp) (x : LogLocals × LogProc) :
    (run m ops x).2.queue.start = x.2.queue.start ∧
      (run m ops x).2.queue.elemCount = x.2.queue.elemCount := by
  induction ops generalizing x with
  | nil => exact ⟨rfl, rfl⟩
  | cons op ops ih =>
    obtain ⟨hstart, hcount⟩ := ih (op.exec m x)
    obtain ⟨hstart', hcount'⟩ := op.exec_frame m x
    exact ⟨hstart.trans hstart', hcount.trans hcount'⟩

namespace LogProc

variable {s : LogProc} {xs : List (Option LogDesc)} {m m' : LogCall}

theorem interrupted_frame (s : LogProc) (k : ℕ) (m m' : LogCall) :
    (logOutInterrupted s k m m').queue.start = s.queue.start ∧
      (logOutInterrupted s k m m').queue.elemCount = s.queue.elemCount := by
  let x := LogOp.run m ((logOps s m).take k) (.init, s)
  obtain ⟨hstart, hcount⟩ := LogOp.run_frame m ((logOps s m).take k) (.init, s)
  obtain ⟨hstart', hcount'⟩ := LogOp.run_frame m' (logOps x.2 m') (.init, x.2)
  obtain ⟨hstart'', hcount''⟩ := LogOp.run_frame m ((logOps s m).drop k) (x.1, logOut x.2 m')
  exact ⟨hstart''.trans (hstart'.trans hstart), hcount''.trans (hcount'.trans hcount)⟩

theorem Holds.isFull (h : s.Holds xs) (hroom : xs.length + 1 < s.queue.elemCount) :
    s.queue.cirbufIsFull = false := by
  rw [Cirbuf.cirbufIsFull, decide_eq_false_iff_not]
  exact h.room_iff.mpr hroom

theorem logOut_eq (hm : s.enabled m = true) (hfull : s.queue.cirbufIsFull = false) :
    logOut s m = { s with
      logdesc := s.desc m
      queue := (s.queue.writeCb (s.desc m)).advanceEnd } := by
  simp [logOut, logOps, hm, hfull, LogOp.all, LogOp.run, LogOp.exec, desc, logDesc,
    Cirbuf.writeCb, Cirbuf.advanceEnd]

theorem Holds.logOut (h : s.Holds xs) (hm : s.enabled m = true)
    (hroom : xs.length + 1 < s.queue.elemCount) : (logOut s m).Holds (xs ++ [some (s.desc m)]) := by
  rw [logOut_eq hm (h.isFull hroom)]
  exact (h.store (some (s.desc m))).push hroom (Function.update_self ..)

theorem Holds.logOut_logOut (h : s.Holds xs) (hm : s.enabled m = true) (hm' : s.enabled m' = true)
    (hroom : xs.length + 2 < s.queue.elemCount) :
    (Log.logOut (Log.logOut s m) m').Holds (xs ++ [some (s.desc m), some (s.desc m')]) := by
  have hfirst := h.logOut hm (by omega)
  rw [logOut_eq hm (h.isFull (by omega))] at hfirst ⊢
  have hroom' : (xs ++ [some (s.desc m)]).length + 1 < s.queue.elemCount := by
    simpa using hroom
  have hsecond := hfirst.logOut (m := m') hm' hroom'
  rw [List.append_assoc] at hsecond
  exact hsecond

/-- A handler that runs before the call, or after its first access, which stores what the handler
stores there, too. -/
theorem interrupted_before (hm : s.enabled m = true) (hm' : s.enabled m' = true)
    (hfull : s.queue.cirbufIsFull = false) {k : ℕ} (hk : k ≤ 1) :
    logOutInterrupted s k m m' = Log.logOut (Log.logOut s m') m := by
  have hops : logOps s m = LogOp.all := if_pos hm
  have hops' : logOps (Log.logOut s m') m = LogOp.all := by
    rw [logOut_eq hm' hfull]
    exact if_pos hm
  rw [logOutInterrupted, hops]
  conv_rhs => rw [Log.logOut, hops']
  interval_cases k
  · rfl
  · have hlog : Log.logOut { s with logdesc.pid := s.pid } m' = Log.logOut s m' :=
      (logOut_eq (s := { s with logdesc.pid := s.pid }) hm' hfull).trans (logOut_eq hm' hfull).symm
    have hset : LogOp.setLog.exec m (.init, Log.logOut s m') = (.init, Log.logOut s m') := by
      rw [logOut_eq hm' hfull]
      rfl
    have hfirst : LogOp.run m (LogOp.all.take 1) (.init, s) =
        (.init, { s with logdesc.pid := s.pid }) := rfl
    have hwhole := LogOp.run_cons m .setLog LogOp.all.tail (.init, Log.logOut s m')
    rw [hset] at hwhole
    rw [hfirst, hlog]
    exact congrArg Prod.snd hwhole.symm

theorem interrupted_after (hm : s.enabled m = true) {k : ℕ} (hk : 10 ≤ k) :
    logOutInterrupted s k m m' = Log.logOut (Log.logOut s m) m' := by
  have hlen : (logOps s m).length ≤ k := by
    simp [logOps, hm, LogOp.all, hk]
  rw [logOutInterrupted, List.take_of_length_le hlen, List.drop_of_length_le hlen]
  rfl

/-- A handler that runs after the store of the file and before the test for room leaves its own file
in the descriptor, so that both records have it. -/
theorem interrupted_filling (hm : s.enabled m = true) (hm' : s.enabled m' = true)
    (hfull : ¬ (s.queue.stop + 1) % s.queue.elemCount = s.queue.start)
    (hfull' : ¬ (s.queue.stop + 1 + 1) % s.queue.elemCount = s.queue.start) {k : ℕ} (hk : 2 ≤ k)
    (hk' : k ≤ 6) : ∃ d, d.file = m'.file ∧ (logOutInterrupted s k m m').queue.elem =
      Function.update (Function.update s.queue.elem s.queue.stop (some (s.desc m')))
        ((s.queue.stop + 1) % s.queue.elemCount) (some d) := by
  simp only [enabled, decide_eq_true_eq] at hm hm'
  interval_cases k <;>
    (simp [logOutInterrupted, logOps, Log.logOut, LogOp.all, LogOp.run, LogOp.exec, enabled, hm, hm',
      Cirbuf.cirbufIsFull, hfull, hfull', LogLocals.init, desc, logDesc]
     refine ⟨_, ?_, rfl⟩
     rfl)

/-- A handler that runs after the index of the cell was loaded and before the end is stored shares
the cell with the call, and its record or the descriptor is what stays there. -/
theorem interrupted_writing (hm : s.enabled m = true) (hm' : s.enabled m' = true)
    (hfull : ¬ (s.queue.stop + 1) % s.queue.elemCount = s.queue.start) {k : ℕ} (hk : 7 ≤ k)
    (hk' : k ≤ 9) : (logOutInterrupted s k m m').queue.elem =
      Function.update s.queue.elem s.queue.stop (some (s.desc m')) := by
  simp only [enabled, decide_eq_true_eq] at hm hm'
  interval_cases k <;>
    simp [logOutInterrupted, logOps, Log.logOut, LogOp.all, LogOp.run, LogOp.exec, enabled, hm, hm',
      Cirbuf.cirbufIsFull, hfull, LogLocals.init, desc, logDesc]

/-- A handler that runs between the store of the file and the store of the end leaves no record of
the call in the two cells behind the ring, if no other record there has its file. -/
theorem Holds.interrupted_cells (h : s.Holds xs) (hm : s.enabled m = true)
    (hm' : s.enabled m' = true) (hroom : xs.length + 2 < s.queue.elemCount) {k : ℕ} (hk : 2 ≤ k)
    (hk' : k ≤ 9) (hfile : m'.file ≠ m.file)
    (hstale : ∀ d, s.queue.elem ((s.queue.stop + 1) % s.queue.elemCount) = some d →
      d.file ≠ m.file) :
    (logOutInterrupted s k m m').queue.elem s.queue.stop ≠ some (s.desc m) ∧
      (logOutInterrupted s k m m').queue.elem ((s.queue.stop + 1) % s.queue.elemCount) ≠
        some (s.desc m) := by
  have hfull := h.stop_add_ne Nat.one_pos (show xs.length + 1 < s.queue.elemCount by omega)
  have hfull' := h.stop_add_ne Nat.two_pos hroom
  have hne : s.queue.stop ≠ (s.queue.stop + 1) % s.queue.elemCount := by
    intro heq
    rw [h.stop_add_mod] at heq
    have hlen := RingHolds.offset_inj s.queue.start h.length_lt (by omega)
      (h.stop_eq.symm.trans heq)
    omega
  have hrec : ∀ d : LogDesc, d.file ≠ m.file → some d ≠ some (s.desc m) := by
    intro d hd heq
    apply hd
    rw [Option.some.inj heq]
    rfl
  have hown := hrec (s.desc m') hfile
  by_cases hfill : k ≤ 6
  · obtain ⟨d, hd, helem⟩ := interrupted_filling hm hm' hfull hfull' hk hfill
    rw [helem, Function.update_self, Function.update_of_ne hne, Function.update_self]
    exact ⟨hown, hrec d (by rw [hd]; exact hfile)⟩
  · rw [interrupted_writing hm hm' hfull (by omega) hk', Function.update_self,
      Function.update_of_ne hne.symm]
    refine ⟨hown, fun heq => ?_⟩
    exact hstale _ heq rfl

/-- Both records are in the ring behind `xs`, once each and as their calls gave them. -/
def BothRecorded (s t : LogProc) (xs : List (Option LogDesc)) (m m' : LogCall) : Prop :=
  t.Holds (xs ++ [some (s.desc m), some (s.desc m')]) ∨
    t.Holds (xs ++ [some (s.desc m'), some (s.desc m)])

theorem BothRecorded.cells {k : ℕ} (hboth : BothRecorded s (logOutInterrupted s k m m') xs m m')
    (h : s.Holds xs) : xs.length + 2 < s.queue.elemCount ∧
      ((logOutInterrupted s k m m').queue.elem s.queue.stop = some (s.desc m) ∨
        (logOutInterrupted s k m m').queue.elem ((s.queue.stop + 1) % s.queue.elemCount) =
          some (s.desc m)) := by
  obtain ⟨hstart, hcount⟩ := interrupted_frame s k m m'
  have hfirst := h.stop_eq
  have hsecond := h.stop_add_mod 1
  rcases hboth with hboth | hboth
  · unfold Holds at hboth
    rw [hstart, hcount] at hboth
    refine ⟨by simpa using hboth.length_lt, Or.inl ?_⟩
    have hcell := hboth.cell xs.length (by simp)
    rw [← hfirst] at hcell
    simpa using hcell
  · unfold Holds at hboth
    rw [hstart, hcount] at hboth
    refine ⟨by simpa using hboth.length_lt, Or.inr ?_⟩
    have hcell := hboth.cell (xs.length + 1) (by simp)
    rw [← hsecond] at hcell
    simpa using hcell

/-- A call whose file is longer than that of `m'` and of a record in the cell behind the end. -/
def freshCall (s : LogProc) (m' : LogCall) : LogCall :=
  { m' with
    file := m'.file ++
      ((s.queue.elem ((s.queue.stop + 1) % s.queue.elemCount)).elim [] LogDesc.file ++ bytes "c") }

end LogProc

open LogProc in
/-- Whatever the handler logs, a call is recorded beside it from every point of interruption before
the store of the file or after the store of the end, and from no other point, if the ring has room
for both. -/
theorem log_out_reentrant_iff (s : LogProc) (xs : List (Option LogDesc)) (k : ℕ) (m' : LogCall)
    (h : s.Holds xs) (hm' : s.enabled m' = true) (hroom : xs.length + 1 < s.queue.elemCount) :
    (∀ m, s.enabled m = true → BothRecorded s (logOutInterrupted s k m m') xs m m') ↔
      (k ≤ 1 ∨ 10 ≤ k) ∧ xs.length + 2 < s.queue.elemCount := by
  constructor
  · intro hall
    have hfresh : s.enabled (freshCall s m') = true := hm'
    obtain ⟨hroom, hcell⟩ := (hall (freshCall s m') hfresh).cells h
    refine ⟨?_, hroom⟩
    by_contra hk
    push Not at hk
    have hnone := h.interrupted_cells hfresh hm' hroom (show 2 ≤ k by omega) (show k ≤ 9 by omega)
      ?_ ?_
    · rcases hcell with hcell | hcell
      · exact hnone.1 hcell
      · exact hnone.2 hcell
    · intro heq
      have hlen := congrArg List.length heq
      have hone : (bytes "c").length = 1 := rfl
      simp only [freshCall, List.length_append, hone] at hlen
      omega
    · intro d hd heq
      have hlen := congrArg List.length heq
      have hone : (bytes "c").length = 1 := rfl
      simp only [freshCall, hd, Option.elim_some, List.length_append, hone] at hlen
      omega
  · rintro ⟨hk, hroom⟩ m hm
    rcases hk with hk | hk
    · right
      rw [interrupted_before hm hm' (h.isFull (by omega)) hk]
      exact h.logOut_logOut hm' hm hroom
    · left
      rw [interrupted_after hm hk]
      exact h.logOut_logOut hm hm' hroom

def freshProc : LogProc where
  pid := 7
  logLevel := .info
  logdesc := logDesc 0 [] 0 .crit []
  queue := ⟨4, 0, 0, fun _ => none⟩

def handlerCall : LogCall := ⟨.info, bytes "signal.c", 48, bytes "In worker, received SIGQUIT"⟩

def workerCall : LogCall := ⟨.warn, bytes "process.c", 163, bytes "system busy to handle request."⟩

/-- A process with one record in the last cell of its ring. -/
def wrappedProc : LogProc :=
  { freshProc with
    queue := ⟨4, 3, 0, fun i => if i = 3 then some (freshProc.desc handlerCall) else none⟩ }

theorem wrappedProc_holds : wrappedProc.Holds [some (freshProc.desc handlerCall)] :=
  (RingHolds.empty (by decide)).push (by decide) rfl

/-- The handler runs after the first access, or after the fourth one. -/
theorem log_out_reentrant_wrapped :
    LogProc.BothRecorded wrappedProc (logOutInterrupted wrappedProc 1 workerCall handlerCall)
        [some (freshProc.desc handlerCall)] workerCall handlerCall ∧
      ¬ ∀ m, wrappedProc.enabled m = true →
        LogProc.BothRecorded wrappedProc (logOutInterrupted wrappedProc 4 m handlerCall)
          [some (freshProc.desc handlerCall)] m handlerCall := by
  constructor
  · have hall := (log_out_reentrant_iff wrappedProc _ 1 handlerCall wrappedProc_holds (by decide)
      (by decide)).mpr ⟨Or.inl (by decide), by decide⟩
    exact hall workerCall (by decide)
  · intro hall
    have hpoint := (log_out_reentrant_iff wrappedProc _ 4 handlerCall wrappedProc_holds (by decide)
      (by decide)).mp hall
    exact absurd hpoint.1 (by decide)

/-- A handler after the store of the level gives the call its file, line and level, one before the store
of the cell publishes a cell that was never written, and one before the store of the end loses the
call. -/
theorem log_out_corrupts :
    (logOutInterrupted freshProc 4 workerCall handlerCall).queue.elem 1 =
        some (logDesc 7 handlerCall.file handlerCall.line .info workerCall.text) ∧
      (logOutInterrupted freshProc 7 workerCall handlerCall).queue.stop = 2 ∧
      (logOutInterrupted freshProc 7 workerCall handlerCall).queue.elem 1 = none ∧
      (logOutInterrupted freshProc 9 workerCall handlerCall).queue.stop = 1 ∧
      (logOutInterrupted freshProc 9 workerCall handlerCall).queue.elem 0 =
        some (freshProc.desc handlerCall) := by
  decide +kernel

end Cserv.Log
