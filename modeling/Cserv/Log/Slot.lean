import Cserv.Foundations.Ring
import Cserv.Foundations.Transition

/-!
# A slot of the logger

One `struct logger` in shared memory: the worker that allocates it and writes records into
its ring, the master that scans it, and the master's handler of the worker's exit. Each
step is one access to the shared memory, in the order of the source, and the steps of the
processes interleave. The ring's element size and callbacks, which are the same for all
workers, are left out; storing them changes nothing.
-/
namespace Cserv.Log

open Foundations Relation

variable {ρ : Type*}

/-- `struct cirbuf`; `stop` is its `end`. A cell that the present worker has not written is
`none`. -/
structure Cirbuf (ρ : Type*) where
  elemCount : ℕ
  start : ℕ
  stop : ℕ
  elem : ℕ → Option ρ

namespace Cirbuf

variable (q : Cirbuf ρ)

def cirbufIsEmpty : Bool := q.start = q.stop

def cirbufIsFull : Bool := (q.stop + 1) % q.elemCount = q.start

/-- The call of `write_cb` in `cirbuf_write`. -/
def writeCb (r : ρ) : Cirbuf ρ := { q with elem := Function.update q.elem q.stop (some r) }

def advanceEnd : Cirbuf ρ := { q with stop := (q.stop + 1) % q.elemCount }

def advanceStart : Cirbuf ρ := { q with start := (q.start + 1) % q.elemCount }

end Cirbuf

structure Slot (ρ : Type*) where
  pid : ℕ
  needInit : Bool
  queue : Cirbuf ρ

/-- Where a worker is: in `log_worker_alloc` with `cirbuf_init`, outside `cirbuf_write` or inside,
or after its exit, which the master then notices. -/
inductive WriterPc (ρ : Type*)
  | allocPid
  | allocNeedInit
  | initElemCount
  | initStart
  | initEnd
  | running
  | writeCb (r : ρ)
  | advanceEnd (r : ρ)
  | exited
  | reaped

/-- Where the master is in `log_scan_write` and `copy_to_cache`. -/
inductive ReaderPc
  | outside
  | testPid
  | testEmpty
  | readCb
  | advanceStart
  | testNeedInit
  | setPid
  | clearNeedInit
  deriving DecidableEq, Repr

/-- `written` are the records for which `cirbuf_write` returned 0, and `reads` is what `cirbuf_read`
has passed to `read_cb`. -/
structure LogState (ρ : Type*) where
  slot : Slot ρ
  writer : WriterPc ρ
  reader : ReaderPc
  written : List ρ
  reads : List (Option ρ)

namespace LogState

variable (x : LogState ρ)

def setQueue (q : Cirbuf ρ) : LogState ρ := { x with slot.queue := q }

def writerTo (pc : WriterPc ρ) : LogState ρ := { x with writer := pc }

def readerTo (pc : ReaderPc) : LogState ρ := { x with reader := pc }

/-- `log_worker_flush_and_reset` for the process `pid`. -/
def logWorkerFlushAndReset (pid : ℕ) : LogState ρ :=
  if x.slot.pid = pid then { x with slot.needInit := true } else x

end LogState

/-- The steps of the worker `pid`, of the handler, which runs once the worker has exited and when
`P` allows it, and of the master. `elemCount` is the size of all rings. -/
inductive Step (elemCount pid : ℕ) (P : LogState ρ → Prop) : LogState ρ → LogState ρ → Prop
  | allocPid (x : LogState ρ) (hpc : x.writer = .allocPid) (hfree : x.slot.pid = 0) :
      Step elemCount pid P x ({ x with slot.pid := pid }.writerTo .allocNeedInit)
  | allocNeedInit (x : LogState ρ) (hpc : x.writer = .allocNeedInit) :
      Step elemCount pid P x ({ x with slot.needInit := false }.writerTo .initElemCount)
  | initElemCount (x : LogState ρ) (hpc : x.writer = .initElemCount) :
      Step elemCount pid P x
        ((x.setQueue { x.slot.queue with elemCount := elemCount }).writerTo .initStart)
  | initStart (x : LogState ρ) (hpc : x.writer = .initStart) :
      Step elemCount pid P x ((x.setQueue { x.slot.queue with start := 0 }).writerTo .initEnd)
  | initEnd (x : LogState ρ) (hpc : x.writer = .initEnd) :
      Step elemCount pid P x ((x.setQueue { x.slot.queue with stop := 0 }).writerTo .running)
  | full (x : LogState ρ) (hpc : x.writer = .running)
      (htest : x.slot.queue.cirbufIsFull = true) : Step elemCount pid P x x
  | write (x : LogState ρ) (r : ρ) (hpc : x.writer = .running)
      (htest : x.slot.queue.cirbufIsFull = false) :
      Step elemCount pid P x (x.writerTo (.writeCb r))
  | writeCb (x : LogState ρ) (r : ρ) (hpc : x.writer = .writeCb r) :
      Step elemCount pid P x ((x.setQueue (x.slot.queue.writeCb r)).writerTo (.advanceEnd r))
  | advanceEnd (x : LogState ρ) (r : ρ) (hpc : x.writer = .advanceEnd r) :
      Step elemCount pid P x
        { (x.setQueue x.slot.queue.advanceEnd).writerTo .running with
          written := x.written ++ [r] }
  | exit (x : LogState ρ)
      (hpc : x.writer = .running ∨ ∃ r, x.writer = .writeCb r ∨ x.writer = .advanceEnd r) :
      Step elemCount pid P x (x.writerTo .exited)
  | handler (x : LogState ρ) (hpc : x.writer = .exited) (hP : P x) :
      Step elemCount pid P x ((x.logWorkerFlushAndReset pid).writerTo .reaped)
  | scan (x : LogState ρ) (hpc : x.reader = .outside) :
      Step elemCount pid P x (x.readerTo .testPid)
  | pidZero (x : LogState ρ) (hpc : x.reader = .testPid) (htest : x.slot.pid = 0) :
      Step elemCount pid P x (x.readerTo .outside)
  | pidSet (x : LogState ρ) (hpc : x.reader = .testPid) (htest : x.slot.pid ≠ 0) :
      Step elemCount pid P x (x.readerTo .testEmpty)
  | empty (x : LogState ρ) (hpc : x.reader = .testEmpty)
      (htest : x.slot.queue.cirbufIsEmpty = true) :
      Step elemCount pid P x (x.readerTo .testNeedInit)
  | nonempty (x : LogState ρ) (hpc : x.reader = .testEmpty)
      (htest : x.slot.queue.cirbufIsEmpty = false) : Step elemCount pid P x (x.readerTo .readCb)
  | readCb (x : LogState ρ) (hpc : x.reader = .readCb) :
      Step elemCount pid P x
        { x.readerTo .advanceStart with reads := x.reads ++ [x.slot.queue.elem x.slot.queue.start] }
  | advanceStart (x : LogState ρ) (hpc : x.reader = .advanceStart) :
      Step elemCount pid P x ((x.setQueue x.slot.queue.advanceStart).readerTo .testEmpty)
  | keep (x : LogState ρ) (hpc : x.reader = .testNeedInit) (htest : x.slot.needInit = false) :
      Step elemCount pid P x (x.readerTo .outside)
  | release (x : LogState ρ) (hpc : x.reader = .testNeedInit) (htest : x.slot.needInit = true) :
      Step elemCount pid P x (x.readerTo .setPid)
  | setPid (x : LogState ρ) (hpc : x.reader = .setPid) :
      Step elemCount pid P x ({ x with slot.pid := 0 }.readerTo .clearNeedInit)
  | clearNeedInit (x : LogState ρ) (hpc : x.reader = .clearNeedInit) :
      Step elemCount pid P x ({ x with slot.needInit := false }.readerTo .outside)

/-! ## The flow of records -/

def WriterPc.allocating : WriterPc ρ → Bool
  | allocPid | allocNeedInit | initElemCount | initStart | initEnd => true
  | _ => false

/-- The ring holds `xs`, and what was written is what was read followed by what is left in the
ring. A worker in `log_worker_alloc` finds the ring empty, with its start at 0. -/
structure Flow (elemCount : ℕ) (x : LogState ρ) (xs : List (Option ρ)) : Prop where
  count : x.slot.queue.elemCount = elemCount
  ring : RingHolds elemCount x.slot.queue.elem x.slot.queue.start x.slot.queue.stop xs
  flow : x.written.map some = x.reads ++ if x.reader = .advanceStart then xs.tail else xs
  reading : x.reader = .readCb ∨ x.reader = .advanceStart → xs ≠ []
  room : ∀ r, x.writer = .writeCb r ∨ x.writer = .advanceEnd r → xs.length + 1 < elemCount
  stored : ∀ r, x.writer = .advanceEnd r → x.slot.queue.elem x.slot.queue.stop = some r
  alloc : x.writer.allocating = true → xs = [] ∧ x.slot.queue.start = 0

namespace Flow

variable {elemCount pid : ℕ} {P : LogState ρ → Prop} {x y : LogState ρ} {xs : List (Option ρ)}

theorem writer (h : Flow elemCount x xs) (hqueue : y.slot.queue = x.slot.queue)
    (hwritten : y.written = x.written) (hreads : y.reads = x.reads) (hreader : y.reader = x.reader)
    (hroom : ∀ r, y.writer = .writeCb r ∨ y.writer = .advanceEnd r → xs.length + 1 < elemCount)
    (hstored : ∀ r, y.writer ≠ .advanceEnd r)
    (halloc : y.writer.allocating = true → x.writer.allocating = true) :
    Flow elemCount y xs where
  count := by
    rw [hqueue]
    exact h.count
  ring := by
    rw [hqueue]
    exact h.ring
  flow := by
    rw [hwritten, hreads, hreader]
    exact h.flow
  reading := by
    rw [hreader]
    exact h.reading
  room := hroom
  stored r hr := absurd hr (hstored r)
  alloc hw := by
    rw [hqueue]
    exact h.alloc (halloc hw)

theorem reader (h : Flow elemCount x xs) (hqueue : y.slot.queue = x.slot.queue)
    (hwritten : y.written = x.written) (hreads : y.reads = x.reads) (hwriter : y.writer = x.writer)
    (hold : x.reader ≠ .advanceStart) (hnew : y.reader ≠ .advanceStart)
    (hreading : y.reader = .readCb → xs ≠ []) : Flow elemCount y xs where
  count := by
    rw [hqueue]
    exact h.count
  ring := by
    rw [hqueue]
    exact h.ring
  flow := by
    have hflow := h.flow
    rw [if_neg hold] at hflow
    rw [hwritten, hreads, if_neg hnew]
    exact hflow
  reading hpc := hreading (hpc.resolve_right hnew)
  room := by
    rw [hwriter]
    exact h.room
  stored := by
    rw [hwriter, hqueue]
    exact h.stored
  alloc := by
    rw [hwriter, hqueue]
    exact h.alloc

theorem isEmpty_iff (h : Flow elemCount x xs) :
    x.slot.queue.cirbufIsEmpty = true ↔ xs = [] := by
  rw [← h.ring.eq_iff, Cirbuf.cirbufIsEmpty, decide_eq_true_eq]

theorem isFull_iff (h : Flow elemCount x xs) :
    x.slot.queue.cirbufIsFull = false ↔ xs.length + 1 < elemCount := by
  rw [← h.ring.room_iff, Cirbuf.cirbufIsFull, decide_eq_false_iff_not, h.count]

theorem writeCb (h : Flow elemCount x xs) {r : ρ} (hpc : x.writer = .writeCb r) :
    Flow elemCount ((x.setQueue (x.slot.queue.writeCb r)).writerTo (.advanceEnd r)) xs where
  count := h.count
  ring := h.ring.store (some r)
  flow := h.flow
  reading := h.reading
  room _ _ := h.room r (Or.inl hpc)
  stored r' hr' := by
    cases hr'
    exact Function.update_self ..
  alloc := nofun

theorem advanceEnd (h : Flow elemCount x xs) {r : ρ} (hpc : x.writer = .advanceEnd r) :
    Flow elemCount { (x.setQueue x.slot.queue.advanceEnd).writerTo .running with
      written := x.written ++ [r] } (xs ++ [some r]) where
  count := h.count
  ring := by
    have hring := h.ring.push (h.room r (Or.inr hpc)) (h.stored r hpc)
    rw [← h.count] at hring ⊢
    exact hring
  flow := by
    rw [List.map_append, h.flow, List.append_assoc]
    change _ = x.reads ++ if x.reader = .advanceStart then (xs ++ [some r]).tail else xs ++ [some r]
    by_cases hreader : x.reader = .advanceStart
    · rw [if_pos hreader, if_pos hreader,
        List.tail_append_of_ne_nil (h.reading (Or.inr hreader))]
      rfl
    · rw [if_neg hreader, if_neg hreader]
      rfl
  reading _ := by simp
  room r hr := by
    rcases hr with hr | hr
    · cases hr
    · cases hr
  stored r hr := by cases hr
  alloc := nofun

theorem readCb (h : Flow elemCount x xs) (hpc : x.reader = .readCb) :
    Flow elemCount { x.readerTo .advanceStart with
      reads := x.reads ++ [x.slot.queue.elem x.slot.queue.start] } xs where
  count := h.count
  ring := h.ring
  flow := by
    have hflow := h.flow
    have hring := h.ring
    rw [if_neg (by simp [hpc])] at hflow
    obtain ⟨r, tl, hxs⟩ := List.exists_cons_of_ne_nil (h.reading (Or.inl hpc))
    rw [hxs] at hring hflow ⊢
    simp only [LogState.readerTo, if_true, List.tail_cons, List.append_assoc,
      List.singleton_append, hring.head]
    exact hflow
  reading _ := h.reading (Or.inl hpc)
  room := h.room
  stored := h.stored
  alloc := h.alloc

theorem advanceStart (h : Flow elemCount x xs) (hpc : x.reader = .advanceStart) :
    Flow elemCount ((x.setQueue x.slot.queue.advanceStart).readerTo .testEmpty) xs.tail := by
  obtain ⟨r, tl, hxs⟩ := List.exists_cons_of_ne_nil (h.reading (Or.inr hpc))
  have hring := h.ring
  have hflow := h.flow
  rw [hxs] at hring
  rw [if_pos hpc] at hflow
  constructor
  · exact h.count
  · have hpop := hring.pop
    rw [← h.count] at hpop ⊢
    rw [hxs]
    exact hpop
  · exact hflow
  · intro hreading
    rcases hreading with hreading | hreading
    · cases hreading
    · cases hreading
  · intro r' hr'
    have hroom := h.room r' hr'
    rw [List.length_tail]
    omega
  · exact h.stored
  · intro halloc
    have hnil := (h.alloc halloc).1
    rw [hxs] at hnil
    cases hnil

theorem step (h : Flow elemCount x xs) (hstep : Step elemCount pid P x y) :
    ∃ ys, Flow elemCount y ys := by
  cases hstep with
  | allocPid hpc hfree =>
    exact ⟨xs, h.writer rfl rfl rfl rfl (by simp [LogState.writerTo]) (by simp [LogState.writerTo])
      fun _ => by rw [hpc]; rfl⟩
  | allocNeedInit hpc =>
    exact ⟨xs, h.writer rfl rfl rfl rfl (by simp [LogState.writerTo]) (by simp [LogState.writerTo])
      fun _ => by rw [hpc]; rfl⟩
  | initElemCount hpc =>
    have hqueue : { x.slot.queue with elemCount := elemCount } = x.slot.queue := by
      rw [← h.count]
    exact ⟨xs, h.writer hqueue rfl rfl rfl (by simp [LogState.writerTo])
      (by simp [LogState.writerTo]) fun _ => by rw [hpc]; rfl⟩
  | initStart hpc =>
    have hqueue : { x.slot.queue with start := 0 } = x.slot.queue := by
      rw [← (h.alloc (by rw [hpc]; rfl)).2]
    exact ⟨xs, h.writer hqueue rfl rfl rfl (by simp [LogState.writerTo])
      (by simp [LogState.writerTo]) fun _ => by rw [hpc]; rfl⟩
  | initEnd hpc =>
    obtain ⟨hnil, hstart⟩ := h.alloc (by rw [hpc]; rfl)
    have hqueue : { x.slot.queue with stop := 0 } = x.slot.queue := by
      rw [← hstart, h.ring.eq_iff.mpr hnil]
    exact ⟨xs, h.writer hqueue rfl rfl rfl (by simp [LogState.setQueue, LogState.writerTo])
      (by simp [LogState.setQueue, LogState.writerTo]) nofun⟩
  | full => exact ⟨xs, h⟩
  | write r hpc htest =>
    exact ⟨xs, h.writer rfl rfl rfl rfl (fun _ _ => h.isFull_iff.mp htest) nofun nofun⟩
  | writeCb r hpc => exact ⟨xs, h.writeCb hpc⟩
  | advanceEnd r hpc => exact ⟨_, h.advanceEnd hpc⟩
  | exit hpc => exact ⟨xs, h.writer rfl rfl rfl rfl (by simp [LogState.writerTo]) nofun nofun⟩
  | handler hpc hP =>
    unfold LogState.logWorkerFlushAndReset
    split_ifs with hpid
    · exact ⟨xs, h.writer rfl rfl rfl rfl (by simp [LogState.writerTo]) nofun nofun⟩
    · exact ⟨xs, h.writer rfl rfl rfl rfl (by simp [LogState.writerTo]) nofun nofun⟩
  | scan hpc => exact ⟨xs, h.reader rfl rfl rfl rfl (by simp [hpc]) nofun nofun⟩
  | pidZero hpc htest => exact ⟨xs, h.reader rfl rfl rfl rfl (by simp [hpc]) nofun nofun⟩
  | pidSet hpc htest => exact ⟨xs, h.reader rfl rfl rfl rfl (by simp [hpc]) nofun nofun⟩
  | empty hpc htest => exact ⟨xs, h.reader rfl rfl rfl rfl (by simp [hpc]) nofun nofun⟩
  | nonempty hpc htest =>
    have hne : xs ≠ [] := by
      intro hnil
      rw [h.isEmpty_iff.mpr hnil] at htest
      cases htest
    exact ⟨xs, h.reader rfl rfl rfl rfl (by simp [hpc]) nofun fun _ => hne⟩
  | readCb hpc => exact ⟨xs, h.readCb hpc⟩
  | advanceStart hpc => exact ⟨xs.tail, h.advanceStart hpc⟩
  | keep hpc htest => exact ⟨xs, h.reader rfl rfl rfl rfl (by simp [hpc]) nofun nofun⟩
  | release hpc htest => exact ⟨xs, h.reader rfl rfl rfl rfl (by simp [hpc]) nofun nofun⟩
  | setPid hpc => exact ⟨xs, h.reader rfl rfl rfl rfl (by simp [hpc]) nofun nofun⟩
  | clearNeedInit hpc => exact ⟨xs, h.reader rfl rfl rfl rfl (by simp [hpc]) nofun nofun⟩

end Flow

end Cserv.Log
