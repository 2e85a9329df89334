import Cserv.Log.Slot

/-!
# The ring between a producer and a consumer

One process calls `cirbuf_write` and another one `cirbuf_read`, as often as they like. The steps
are those of a logger slot between its allocation and its release, so that the flow of records
is the one proved there.
-/
namespace Cserv.Log

open Foundations Relation

variable {ρ : Type*}

/-- `cirbuf_init`; no cell was written yet. -/
def cirbufInit (ρ : Type*) (elemCount : ℕ) : Cirbuf ρ := ⟨elemCount, 0, 0, fun _ => none⟩

def Cirbuf.count (q : Cirbuf ρ) : ℕ := (q.stop + q.elemCount - q.start) % q.elemCount

/-- The records in the ring, from the start up to the end. -/
def Cirbuf.contents (q : Cirbuf ρ) : List (Option ρ) :=
  (List.range q.count).map fun i => q.elem ((q.start + i) % q.elemCount)

inductive Producer (ρ : Type*)
  | outside
  | writeCb (r : ρ)
  | advanceEnd (r : ρ)

inductive Consumer
  | outside
  | readCb
  | advanceStart
  deriving DecidableEq, Repr

/-- `results` has the records of the finished calls of `cirbuf_write` with what they returned, and
`reads` is what `cirbuf_read` has passed to `read_cb`. -/
structure QueueState (ρ : Type*) where
  queue : Cirbuf ρ
  producer : Producer ρ
  consumer : Consumer
  results : List (ρ × ℤ)
  reads : List (Option ρ)

/-- The atomic steps of `cirbuf_write` and `cirbuf_read`. -/
inductive QueueStep : QueueState ρ → QueueState ρ → Prop
  | full (x : QueueState ρ) (r : ρ) (hpc : x.producer = .outside)
      (htest : x.queue.cirbufIsFull = true) :
      QueueStep x { x with results := x.results ++ [(r, -1)] }
  | room (x : QueueState ρ) (r : ρ) (hpc : x.producer = .outside)
      (htest : x.queue.cirbufIsFull = false) : QueueStep x { x with producer := .writeCb r }
  | writeCb (x : QueueState ρ) (r : ρ) (hpc : x.producer = .writeCb r) :
      QueueStep x { x with queue := x.queue.writeCb r, producer := .advanceEnd r }
  | advanceEnd (x : QueueState ρ) (r : ρ) (hpc : x.producer = .advanceEnd r) :
      QueueStep x { x with
        queue := x.queue.advanceEnd, producer := .outside, results := x.results ++ [(r, 0)] }
  | empty (x : QueueState ρ) (hpc : x.consumer = .outside)
      (htest : x.queue.cirbufIsEmpty = true) : QueueStep x x
  | nonempty (x : QueueState ρ) (hpc : x.consumer = .outside)
      (htest : x.queue.cirbufIsEmpty = false) : QueueStep x { x with consumer := .readCb }
  | readCb (x : QueueState ρ) (hpc : x.consumer = .readCb) :
      QueueStep x { x with
        consumer := .advanceStart, reads := x.reads ++ [x.queue.elem x.queue.start] }
  | advanceStart (x : QueueState ρ) (hpc : x.consumer = .advanceStart) :
      QueueStep x { x with queue := x.queue.advanceStart, consumer := .outside }

def Producer.toWriterPc : Producer ρ → WriterPc ρ
  | outside => .running
  | writeCb r => .writeCb r
  | advanceEnd r => .advanceEnd r

def Consumer.toReaderPc : Consumer → ReaderPc
  | outside => .testEmpty
  | readCb => .readCb
  | advanceStart => .advanceStart

namespace QueueState

def init (ρ : Type*) (elemCount : ℕ) : QueueState ρ :=
  ⟨cirbufInit ρ elemCount, .outside, .outside, [], []⟩

variable (x : QueueState ρ)

/-- The records for which `cirbuf_write` returned 0. -/
def written : List ρ := (x.results.filter fun w => w.2 = 0).map Prod.fst

/-- The records that were written and not read yet. -/
def pending : List (Option ρ) :=
  if x.consumer = .advanceStart then x.queue.contents.tail else x.queue.contents

/-- The logger slot of a running worker whose queue this is, under a scan of the master. -/
def toLogState : LogState ρ :=
  ⟨⟨1, false, x.queue⟩, x.producer.toWriterPc, x.consumer.toReaderPc, x.written, x.reads⟩

end QueueState

/-- The steps are steps of a logger slot, apart from the calls that fail. -/
theorem QueueStep.toStep (elemCount : ℕ) {x y : QueueState ρ} (h : QueueStep x y) :
    y.toLogState = x.toLogState ∨
      Step elemCount 1 (fun _ => True) x.toLogState y.toLogState := by
  have hwriter : x.toLogState.writer = x.producer.toWriterPc := rfl
  have hreader : x.toLogState.reader = x.consumer.toReaderPc := rfl
  cases h with
  | full r hpc htest =>
    left
    simp [QueueState.toLogState, QueueState.written]
  | room r hpc htest =>
    rw [hpc] at hwriter
    exact Or.inr (Step.write x.toLogState r hwriter htest)
  | writeCb r hpc =>
    rw [hpc] at hwriter
    exact Or.inr (Step.writeCb x.toLogState r hwriter)
  | advanceEnd r hpc =>
    rw [hpc] at hwriter
    right
    have hstep : Step elemCount 1 (fun _ => True) x.toLogState _ :=
      Step.advanceEnd x.toLogState r hwriter
    have hwritten : ((x.results ++ [(r, (0 : ℤ))]).filter fun w => w.2 = 0).map Prod.fst =
        x.written ++ [r] := by
      simp [QueueState.written]
    simp only [QueueState.toLogState, QueueState.written, hwritten]
    exact hstep
  | empty hpc htest => exact Or.inl rfl
  | nonempty hpc htest =>
    rw [hpc] at hreader
    exact Or.inr (Step.nonempty x.toLogState hreader htest)
  | readCb hpc =>
    rw [hpc] at hreader
    exact Or.inr (Step.readCb x.toLogState hreader)
  | advanceStart hpc =>
    rw [hpc] at hreader
    exact Or.inr (Step.advanceStart x.toLogState hreader)

/-- The flow of records in a queue. -/
def QueueFlow (elemCount : ℕ) (x : QueueState ρ) : Prop := ∃ xs, Flow elemCount x.toLogState xs

theorem QueueFlow.init {elemCount : ℕ} (hn : 0 < elemCount) :
    QueueFlow elemCount (QueueState.init ρ elemCount) := by
  refine ⟨[], rfl, RingHolds.empty hn, rfl, ?_, ?_, nofun, nofun⟩
  · intro hreading
    rcases hreading with hreading | hreading <;> cases hreading
  · intro r hwriting
    rcases hwriting with hwriting | hwriting <;> cases hwriting

theorem QueueFlow.step {elemCount : ℕ} {x y : QueueState ρ} (h : QueueFlow elemCount x)
    (hstep : QueueStep x y) : QueueFlow elemCount y := by
  obtain ⟨xs, hflow⟩ := h
  rcases hstep.toStep elemCount with heq | hslot
  · refine ⟨xs, ?_⟩
    rw [heq]
    exact hflow
  · exact hflow.step hslot

theorem QueueStep.eq_of_fails {x y : QueueState ρ} {r : ρ} (h : QueueStep x y)
    (hfails : y.results = x.results ++ [(r, -1)]) :
    y = { x with results := x.results ++ [(r, -1)] } := by
  cases h with
  | full r' hpc htest => rw [← hfails]
  | advanceEnd r' hpc => simp at hfails
  | room | writeCb | empty | nonempty | readCb | advanceStart => simp at hfails

/-- The ring is a queue: what was read and what is pending is what was written, in order; a cell
that is written is neither pending nor being read. -/
structure ExactFifo (elemCount : ℕ) (x : QueueState ρ) : Prop where
  fifo : x.written.map some = x.reads ++ x.pending
  pending_le : x.pending.length ≤ elemCount - 1
  unread : ∀ r, x.producer = .writeCb r →
    ∀ i < x.queue.count, x.queue.stop ≠ (x.queue.start + i) % x.queue.elemCount
  reading : ∀ r, x.producer = .writeCb r → x.consumer ≠ .outside → x.queue.stop ≠ x.queue.start
  fails : ∀ r y, QueueStep x y → y.results = x.results ++ [(r, -1)] →
    y = { x with results := x.results ++ [(r, -1)] }

/-- In every run of a producer and a consumer on an initialised ring, the ring is a queue. -/
theorem cirbuf_exact_fifo (ρ : Type*) (elemCount : ℕ) (hn : 2 ≤ elemCount) (x : QueueState ρ)
    (hrun : ReflTransGen QueueStep (QueueState.init ρ elemCount) x) : ExactFifo elemCount x := by
  have hinv := run_invariant (QueueFlow elemCount) (fun _ _ => QueueFlow.step)
    (QueueFlow.init (by omega)) hrun
  obtain ⟨xs, hflow⟩ := hinv
  have hcount : x.queue.elemCount = elemCount := hflow.count
  have hring : RingHolds elemCount x.queue.elem x.queue.start x.queue.stop xs := hflow.ring
  have hcontents : x.queue.contents = xs := by
    rw [hring.eq_map_range, Cirbuf.contents, Cirbuf.count, hcount]
  have hlen : x.queue.count = xs.length := by
    rw [← hcontents, Cirbuf.contents, List.length_map, List.length_range]
  have hlt := hring.length_lt
  have hadvance : x.consumer.toReaderPc = .advanceStart ↔ x.consumer = .advanceStart := by
    cases x.consumer <;> simp [Consumer.toReaderPc]
  constructor
  · have hfifo := hflow.flow
    simp only [QueueState.toLogState, hadvance] at hfifo
    rw [hfifo, QueueState.pending, hcontents]
  · have hle : x.pending.length ≤ xs.length := by
      unfold QueueState.pending
      rw [hcontents]
      split_ifs
      · simp
      · exact le_rfl
    omega
  · intro r _ i hi
    rw [hcount]
    exact hring.stop_ne_cell (hlen ▸ hi)
  · intro r _ hreading heq
    refine hflow.reading ?_ (hring.eq_iff.mp heq.symm)
    change x.consumer.toReaderPc = _ ∨ x.consumer.toReaderPc = _
    cases hpc : x.consumer with
    | outside => exact absurd hpc hreading
    | readCb => exact Or.inl rfl
    | advanceStart => exact Or.inr rfl
  · intro r y hstep hfails
    exact hstep.eq_of_fails hfails

/-- A ring of two cells: the record 7 is read while the write of 8 fails. -/
theorem cirbuf_exact_fifo_two : ∃ x : QueueState ℕ, x.results = [(7, 0), (8, -1)] ∧
    x.reads = [some 7] ∧ ExactFifo 2 x := by
  have h₀ : QueueStep (QueueState.init ℕ 2) _ := QueueStep.room _ 7 rfl rfl
  have h₁ := (ReflTransGen.single h₀).tail (QueueStep.writeCb _ 7 rfl)
  have h₂ := (h₁.tail (QueueStep.advanceEnd _ 7 rfl)).tail (QueueStep.nonempty _ rfl rfl)
  have h₃ := h₂.tail (QueueStep.full _ 8 rfl rfl)
  have h₄ := h₃.tail (QueueStep.readCb _ rfl)
  exact ⟨_, rfl, rfl, cirbuf_exact_fifo ℕ 2 le_rfl _ h₄⟩

end Cserv.Log
