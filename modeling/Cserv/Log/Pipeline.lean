import Cserv.Log.Drain
import Cserv.Log.Flush

/-!
# From the rings to the log file

The processes write lines into their rings while the master goes round the slots with
`log_scan_write`, copies the lines into its page and the page into the log file. In the file the
lines of each process stand whole and in the order in which they were written, whatever the
interleaving, and a line that is in a ring when a scan begins is in the file when the scan ends.
-/
namespace Cserv.Log

open Foundations Relation

/-! ## Lines -/

/-- `log_write` has formatted the record, and its text was not too long for the slot. -/
def WholeLine (b : LogBuff) : Prop :=
  ∃ old desc strnow, b = logWrite old desc strnow ∧ (logText desc strnow).length ≤ buffSize - 1

theorem WholeLine.len_le {b : LogBuff} (h : WholeLine b) : b.len ≤ buffSize := by
  obtain ⟨old, desc, strnow, rfl, hlen⟩ := h
  have hint : (logText desc strnow).length < 2 ^ 31 := by
    simp only [buffSize] at hlen
    omega
  rw [logWrite_len, if_pos hint]
  exact hlen.trans (Nat.sub_le _ _)

section Slots

variable {ρ : Type*} {elemCount pid : ℕ} {P : LogState ρ → Prop} {x y : LogState ρ}

/-- A slot after `log_init`: shared memory is mapped with zeros. -/
def logInitSlot (ρ : Type*) : LogState ρ :=
  ⟨⟨0, false, ⟨0, 0, 0, fun _ => none⟩⟩, .allocPid, .outside, [], []⟩

theorem Step.process_frame (h : Step elemCount pid P x y) (hreader : y.reader = x.reader) :
    y.reads = x.reads ∧ (x.slot.pid ≠ 0 → y.slot.pid = x.slot.pid) ∧ x.written <+: y.written := by
  cases h with
  | allocPid hpc hfree => exact ⟨rfl, fun hpid => absurd hfree hpid, List.prefix_rfl⟩
  | advanceEnd r hpc => exact ⟨rfl, fun _ => rfl, List.prefix_append ..⟩
  | handler hpc hP =>
    unfold LogState.logWorkerFlushAndReset
    split_ifs <;> exact ⟨rfl, fun _ => rfl, List.prefix_rfl⟩
  | scan hpc | pidZero hpc | pidSet hpc | empty hpc | nonempty hpc | readCb hpc
  | advanceStart hpc | keep hpc | release hpc | setPid hpc | clearNeedInit hpc =>
    simp [LogState.readerTo, hpc] at hreader
  | _ => exact ⟨rfl, fun _ => rfl, List.prefix_rfl⟩

theorem Step.master_frame (h : Step elemCount pid P x y) (hreader : y.reader ≠ x.reader) :
    y.writer = x.writer ∧ y.written = x.written ∧
      (y.reader ≠ .advanceStart → y.reads = x.reads) := by
  cases h with
  | handler hpc hP =>
    unfold LogState.logWorkerFlushAndReset at hreader
    split_ifs at hreader <;> exact absurd rfl hreader
  | readCb hpc => exact ⟨rfl, rfl, fun hne => absurd rfl hne⟩
  | scan | pidZero | pidSet | empty | nonempty | advanceStart | keep | release | setPid
  | clearNeedInit => exact ⟨rfl, rfl, fun _ => rfl⟩
  | _ => exact absurd rfl hreader

theorem Step.mem_written (h : Step elemCount pid P x y) {r : ρ} (hr : r ∈ y.written) :
    r ∈ x.written ∨ x.writer = .advanceEnd r := by
  cases h with
  | advanceEnd r' hpc =>
    rcases List.mem_append.mp hr with hr | hr
    · exact Or.inl hr
    · rw [List.mem_singleton.mp hr]
      exact Or.inr hpc
  | handler hpc hP =>
    unfold LogState.logWorkerFlushAndReset at hr
    split_ifs at hr <;> exact Or.inl hr
  | _ => exact Or.inl hr

theorem Step.of_advanceEnd (h : Step elemCount pid P x y) {r : ρ} (hr : y.writer = .advanceEnd r) :
    x.writer = .writeCb r ∨ x.writer = .advanceEnd r := by
  cases h with
  | writeCb r' hpc =>
    cases hr
    exact Or.inl hpc
  | allocPid | allocNeedInit | initElemCount | initStart | initEnd | write | advanceEnd | exit
  | handler => cases hr
  | _ => exact Or.inr hr

/-- The process has not stored the number of cells. -/
def WriterPc.blank : WriterPc ρ → Bool
  | allocPid | allocNeedInit | initElemCount => true
  | _ => false

/-- A slot whose ring no process has initialised. -/
structure Blank (x : LogState ρ) : Prop where
  writer : x.writer.blank = true
  start : x.slot.queue.start = 0
  stop : x.slot.queue.stop = 0
  needInit : x.slot.needInit = false
  written : x.written = []
  reads : x.reads = []
  reader : x.reader.scanning = true

/-- The flow of records in a slot, from `log_init` on. -/
def SlotFlow (elemCount : ℕ) (x : LogState ρ) : Prop := (∃ xs, Flow elemCount x xs) ∨ Blank x

namespace Blank

theorem not_reading (h : Blank x) : ¬ (x.reader = .readCb ∨ x.reader = .advanceStart) := by
  intro hpc
  have hreader := h.reader
  rcases hpc with hpc | hpc <;> (rw [hpc] at hreader; cases hreader)

theorem initElemCount (h : Blank x) (hn : 0 < elemCount) :
    Flow elemCount ((x.setQueue { x.slot.queue with elemCount := elemCount }).writerTo .initStart)
      [] where
  count := rfl
  ring := by
    change RingHolds elemCount x.slot.queue.elem x.slot.queue.start x.slot.queue.stop []
    rw [h.start, h.stop]
    exact RingHolds.empty hn
  flow := by
    change x.written.map some = x.reads ++ if x.reader = .advanceStart then [] else []
    rw [h.written, h.reads, ite_self]
    rfl
  reading hpc := absurd hpc h.not_reading
  room r hr := by rcases hr with hr | hr <;> cases hr
  stored r hr := by cases hr
  alloc _ := ⟨rfl, h.start⟩

theorem readerTo (h : Blank x) {pc : ReaderPc} (hpc : pc.scanning = true) : Blank (x.readerTo pc) :=
  ⟨h.writer, h.start, h.stop, h.needInit, h.written, h.reads, hpc⟩

theorem step (h : Blank x) (hn : 0 < elemCount) (hstep : Step elemCount pid P x y) :
    SlotFlow elemCount y := by
  have hwriter := h.writer
  have hreader := h.reader
  cases hstep with
  | allocPid hpc hfree =>
    exact Or.inr ⟨rfl, h.start, h.stop, h.needInit, h.written, h.reads, hreader⟩
  | allocNeedInit hpc => exact Or.inr ⟨rfl, h.start, h.stop, rfl, h.written, h.reads, hreader⟩
  | initElemCount hpc => exact Or.inl ⟨[], h.initElemCount hn⟩
  | scan hpc | pidZero hpc | pidSet hpc | empty hpc | keep hpc => exact Or.inr (h.readerTo rfl)
  | nonempty hpc htest => simp [Cirbuf.cirbufIsEmpty, h.start, h.stop] at htest
  | release hpc htest => simp [h.needInit] at htest
  | clearNeedInit hpc => exact Or.inr ⟨hwriter, h.start, h.stop, rfl, h.written, h.reads, rfl⟩
  | readCb hpc | advanceStart hpc | setPid hpc =>
    rw [hpc] at hreader
    cases hreader
  | initStart hpc | initEnd hpc | full hpc | write r hpc | writeCb r hpc | advanceEnd r hpc
  | handler hpc =>
    rw [hpc] at hwriter
    cases hwriter
  | exit hpc => rcases hpc with hpc | ⟨r, hpc | hpc⟩ <;> (rw [hpc] at hwriter; cases hwriter)

end Blank

namespace SlotFlow

theorem step (h : SlotFlow elemCount x) (hn : 0 < elemCount) (hstep : Step elemCount pid P x y) :
    SlotFlow elemCount y := by
  rcases h with ⟨xs, hflow⟩ | hblank
  · exact Or.inl (hflow.step hstep)
  · exact hblank.step hn hstep

/-- The records that were read are the first ones that were written. -/
theorem reads_prefix (h : SlotFlow elemCount x) : x.reads <+: x.written.map some := by
  rcases h with ⟨xs, hflow⟩ | hblank
  · exact ⟨_, hflow.flow.symm⟩
  · rw [hblank.reads]
    exact List.nil_prefix

/-- When the ring is found empty, all records were read. -/
theorem reads_all (h : SlotFlow elemCount x) (hpc : x.reader = .testEmpty)
    (hempty : x.slot.queue.cirbufIsEmpty = true) : x.reads = x.written.map some := by
  rcases h with ⟨xs, hflow⟩ | hblank
  · have hxs : xs = [] := hflow.isEmpty_iff.mp hempty
    rw [hflow.flow, hxs, hpc]
    simp
  · rw [hblank.reads, hblank.written]
    rfl

theorem next_record (h : SlotFlow elemCount x) (hpc : x.reader = .readCb) :
    ∃ r ∈ x.written, x.slot.queue.elem x.slot.queue.start = some r := by
  rcases h with ⟨xs, hflow⟩ | hblank
  · obtain ⟨o, tl, hxs⟩ := List.exists_cons_of_ne_nil (hflow.reading (Or.inl hpc))
    have hwritten := hflow.flow
    have hring := hflow.ring
    rw [hpc, if_neg (by decide), hxs] at hwritten
    rw [hxs] at hring
    have hmem : o ∈ x.written.map some := by
      rw [hwritten]
      exact List.mem_append_right _ List.mem_cons_self
    obtain ⟨r, hr, rfl⟩ := List.mem_map.mp hmem
    exact ⟨r, hr, hring.head⟩
  · exact absurd (Or.inl hpc) hblank.not_reading

end SlotFlow

end Slots

/-! ## The master and the processes -/

/-- Where the master is in `log_scan_write`: before the test of its loop, in the body for a slot,
where the slot's `reader` says more, or before `log_flush`. -/
inductive ScanPc (n : ℕ)
  | outside
  | loop (index : ℕ)
  | slot (i : Fin n)
  | flush

/-- The slots, the master and its file. `out` has the records that were passed to `log_read`, each
with its slot. -/
structure Pipeline (n : ℕ) where
  slots : Fin n → LogState LogBuff
  scan : ScanPc n
  file : LogFile
  out : List (Fin n × LogBuff)

namespace Pipeline

variable {n : ℕ} (x : Pipeline n)

def init (n : ℕ) (page : List UInt8) (fd : ℤ) : Pipeline n :=
  ⟨fun _ => logInitSlot LogBuff, .outside, LogFile.init page fd, []⟩

def setSlot (i : Fin n) (y : LogState LogBuff) : Pipeline n :=
  { x with slots := Function.update x.slots i y }

/-- The records of one slot that were passed to `log_read`. -/
def delivered (i : Fin n) : List LogBuff := (x.out.filter fun p => p.1 = i).map Prod.snd

def text : List UInt8 := x.out.flatMap fun p => p.2.text

end Pipeline

/-- The steps of the processes and of the handler in their slots, and those of the master. -/
inductive PipelineStep {n : ℕ} (elemCount : ℕ) (pid : Fin n → ℕ) : Pipeline n → Pipeline n → Prop
  | process (x : Pipeline n) (i : Fin n) (y : LogState LogBuff)
      (hstep : Step elemCount (pid i) (fun _ => True) (x.slots i) y)
      (hreader : y.reader = (x.slots i).reader) (hline : ∀ b, y.writer = .writeCb b → WholeLine b) :
      PipelineStep elemCount pid x (x.setSlot i y)
  | begin (x : Pipeline n) (hpc : x.scan = .outside) :
      PipelineStep elemCount pid x { x with scan := .loop 0 }
  | enter (x : Pipeline n) (i : Fin n) (hpc : x.scan = .loop i) :
      PipelineStep elemCount pid x
        { x.setSlot i ((x.slots i).readerTo .testPid) with scan := .slot i }
  | move (x : Pipeline n) (i : Fin n) (y : LogState LogBuff) (hpc : x.scan = .slot i)
      (hstep : Step elemCount (pid i) (fun _ => True) (x.slots i) y)
      (hreader : y.reader ≠ (x.slots i).reader) (hinside : y.reader ≠ .outside)
      (hread : y.reader ≠ .advanceStart) : PipelineStep elemCount pid x (x.setSlot i y)
  | read (x : Pipeline n) (i : Fin n) (b : LogBuff) (file : LogFile) (hpc : x.scan = .slot i)
      (hreader : (x.slots i).reader = .readCb)
      (hcell : (x.slots i).slot.queue.elem (x.slots i).slot.queue.start = some b)
      (hread : x.file.logRead b = some file) :
      PipelineStep elemCount pid x
        { x.setSlot i { (x.slots i).readerTo .advanceStart with
            reads := (x.slots i).reads ++ [some b] } with
          file := file, out := x.out ++ [(i, b)] }
  | leave (x : Pipeline n) (i : Fin n) (y : LogState LogBuff) (hpc : x.scan = .slot i)
      (hstep : Step elemCount (pid i) (fun _ => True) (x.slots i) y)
      (hreader : y.reader ≠ (x.slots i).reader) (houtside : y.reader = .outside) :
      PipelineStep elemCount pid x { x.setSlot i y with scan := .loop (i + 1) }
  | loopEnd (x : Pipeline n) (hpc : x.scan = .loop n) :
      PipelineStep elemCount pid x { x with scan := .flush }
  | flush (x : Pipeline n) (file : LogFile) (hpc : x.scan = .flush)
      (hflush : x.file.logFlush = some file) :
      PipelineStep elemCount pid x { x with scan := .outside, file := file }

/-- One slot, of which the records `rs` were passed on. -/
structure SlotInv (elemCount : ℕ) (y : LogState LogBuff) (rs : List LogBuff) : Prop where
  flow : SlotFlow elemCount y
  reads : y.reads = rs.map some
  lines : ∀ b ∈ y.written, WholeLine b
  writing : ∀ b, y.writer = .writeCb b ∨ y.writer = .advanceEnd b → WholeLine b

namespace SlotInv

variable {elemCount pid : ℕ} {P : LogState LogBuff → Prop} {x y : LogState LogBuff}
  {rs : List LogBuff}

/-- The records that were passed on are the first ones that were written. -/
theorem delivered_inOrder (h : SlotInv elemCount x rs) : rs <+: x.written := by
  have hprefix := h.flow.reads_prefix
  rw [h.reads] at hprefix
  obtain ⟨rest, hrest⟩ := hprefix
  obtain ⟨rs₁, rs₂, hwritten, hrs, -⟩ := List.map_eq_append_iff.mp hrest.symm
  have heq : rs₁ = rs := List.map_injective_iff.mpr (Option.some_injective _) hrs
  rw [hwritten, heq]
  exact List.prefix_append ..

theorem process (h : SlotInv elemCount x rs) (hn : 0 < elemCount)
    (hstep : Step elemCount pid P x y) (hreader : y.reader = x.reader)
    (hline : ∀ b, y.writer = .writeCb b → WholeLine b) : SlotInv elemCount y rs := by
  refine ⟨h.flow.step hn hstep, ?_, fun b hb => ?_, fun b hb => ?_⟩
  · rw [(hstep.process_frame hreader).1, h.reads]
  · rcases hstep.mem_written hb with hb | hb
    · exact h.lines b hb
    · exact h.writing b (Or.inr hb)
  · rcases hb with hb | hb
    · exact hline b hb
    · exact h.writing b (hstep.of_advanceEnd hb)

theorem master (h : SlotInv elemCount x rs) (hn : 0 < elemCount)
    (hstep : Step elemCount pid P x y) (hreader : y.reader ≠ x.reader)
    (hread : y.reader ≠ .advanceStart) : SlotInv elemCount y rs := by
  obtain ⟨hwriter, hwritten, hreads⟩ := hstep.master_frame hreader
  refine ⟨h.flow.step hn hstep, (hreads hread).trans h.reads, ?_, ?_⟩
  · rw [hwritten]
    exact h.lines
  · rw [hwriter]
    exact h.writing

theorem read (h : SlotInv elemCount x rs) (hn : 0 < elemCount) {b : LogBuff}
    (hpc : x.reader = .readCb) (hcell : x.slot.queue.elem x.slot.queue.start = some b) :
    SlotInv elemCount { x.readerTo .advanceStart with reads := x.reads ++ [some b] }
      (rs ++ [b]) where
  flow := by
    have hstep : Step elemCount 0 (fun _ => True) x _ := Step.readCb x hpc
    rw [hcell] at hstep
    exact h.flow.step hn hstep
  reads := by
    change x.reads ++ [some b] = (rs ++ [b]).map some
    rw [h.reads, List.map_append]
    rfl
  lines := h.lines
  writing := h.writing

end SlotInv

/-! ## Safety -/

structure PipelineInv {n : ℕ} (elemCount : ℕ) (x : Pipeline n) : Prop where
  slot : ∀ i, SlotInv elemCount (x.slots i) (x.delivered i)
  page : x.file.PageFits
  stream : x.file.stream = x.text
  whole : ∃ done, done <+: x.out ∧ x.file.written = done.flatMap fun p => p.2.text
  away : ∀ i, x.scan ≠ .slot i → (x.slots i).reader = .outside
  flushed : x.scan = .outside → x.file.flushPageLen = 0

section Runs

variable {n elemCount : ℕ} {pid : Fin n → ℕ} {x y : Pipeline n} {i : Fin n}

theorem Pipeline.delivered_append (x : Pipeline n) (i j : Fin n) (b : LogBuff) :
    ((x.out ++ [(i, b)]).filter fun p => p.1 = j).map Prod.snd =
      if i = j then x.delivered j ++ [b] else x.delivered j := by
  rw [List.filter_append, List.map_append]
  split_ifs with hij
  · simp [Pipeline.delivered, hij]
  · simp [Pipeline.delivered, hij]

namespace PipelineInv

theorem update (h : PipelineInv elemCount x) {y : LogState LogBuff} {scan : ScanPc n}
    (hslot : SlotInv elemCount y (x.delivered i)) (haway : scan ≠ .slot i → y.reader = .outside)
    (hothers : ∀ j, j ≠ i → scan ≠ .slot j → x.scan ≠ .slot j)
    (hscan : scan = .outside → x.scan = .outside) :
    PipelineInv elemCount { x.setSlot i y with scan := scan } where
  slot j := by
    change SlotInv elemCount (Function.update x.slots i y j) (x.delivered j)
    by_cases hj : j = i
    · rw [hj, Function.update_self]
      exact hslot
    · rw [Function.update_of_ne hj]
      exact h.slot j
  page := h.page
  stream := h.stream
  whole := h.whole
  away j hne := by
    change (Function.update x.slots i y j).reader = .outside
    by_cases hj : j = i
    · rw [hj, Function.update_self]
      exact haway (hj ▸ hne)
    · rw [Function.update_of_ne hj]
      exact h.away j (hothers j hj hne)
  flushed hpc := h.flushed (hscan hpc)

theorem whole_of_written (h : PipelineInv elemCount x) {file : LogFile}
    (hwritten : file.written = x.file.written ∨ file.written = x.file.stream)
    {out : List (Fin n × LogBuff)} (hout : x.out <+: out) :
    ∃ done, done <+: out ∧ file.written = done.flatMap fun p => p.2.text := by
  rcases hwritten with hwritten | hwritten
  · obtain ⟨done, hdone, hfile⟩ := h.whole
    exact ⟨done, hdone.trans hout, hwritten.trans hfile⟩
  · exact ⟨x.out, hout, hwritten.trans h.stream⟩

theorem read (h : PipelineInv elemCount x) (hn : 0 < elemCount) {b : LogBuff} {file : LogFile}
    (hpc : x.scan = .slot i) (hreader : (x.slots i).reader = .readCb)
    (hcell : (x.slots i).slot.queue.elem (x.slots i).slot.queue.start = some b)
    (hread : x.file.logRead b = some file) :
    PipelineInv elemCount
      { x.setSlot i { (x.slots i).readerTo .advanceStart with
          reads := (x.slots i).reads ++ [some b] } with
        file := file, out := x.out ++ [(i, b)] } := by
  obtain ⟨r, hr, hcell'⟩ := (h.slot i).flow.next_record hreader
  have hbr : b = r := Option.some.inj (hcell.symm.trans hcell')
  have hlen : b.len ≤ buffSize := ((h.slot i).lines b (hbr ▸ hr)).len_le
  obtain ⟨file', hfile', hpage, hstream⟩ := LogFile.logRead_returns h.page hlen
  have hsame : file' = file := Option.some.inj (hfile'.symm.trans hread)
  subst hsame
  refine ⟨fun j => ?_, hpage, ?_, ?_, fun j hj => ?_, fun hout => ?_⟩
  · change SlotInv elemCount (Function.update x.slots i _ j)
      (((x.out ++ [(i, b)]).filter fun p => p.1 = j).map Prod.snd)
    rw [Pipeline.delivered_append]
    by_cases hj : j = i
    · rw [hj, Function.update_self, if_pos rfl]
      exact (h.slot i).read hn hreader hcell
    · rw [Function.update_of_ne hj, if_neg (Ne.symm hj)]
      exact h.slot j
  · change file'.stream = (x.out ++ [(i, b)]).flatMap fun p => p.2.text
    rw [hstream, h.stream, List.flatMap_append, Pipeline.text]
    simp
  · exact h.whole_of_written (LogFile.logRead_written hread) (List.prefix_append ..)
  · have hne : j ≠ i := by
      rintro rfl
      exact hj hpc
    change (Function.update x.slots i _ j).reader = .outside
    rw [Function.update_of_ne hne]
    exact h.away j hj
  · change x.scan = .outside at hout
    rw [hpc] at hout
    cases hout

theorem flush (h : PipelineInv elemCount x) {file : LogFile} (hpc : x.scan = .flush)
    (hflush : x.file.logFlush = some file) :
    PipelineInv elemCount { x with scan := .outside, file := file } := by
  obtain ⟨file', hfile', hpage, hstream, hzero⟩ := LogFile.logFlush_returns h.page
  have hsame : file' = file := Option.some.inj (hfile'.symm.trans hflush)
  subst hsame
  refine ⟨h.slot, hpage, hstream.trans h.stream,
    h.whole_of_written (LogFile.logFlush_written hflush) List.prefix_rfl,
    fun j _ => h.away j ?_, fun _ => hzero⟩
  rw [hpc]
  exact nofun

theorem step (h : PipelineInv elemCount x) (hn : 0 < elemCount)
    (hstep : PipelineStep elemCount pid x y) : PipelineInv elemCount y := by
  cases hstep with
  | process i y hstep hreader hline =>
    have haway : x.scan ≠ .slot i → y.reader = .outside := by
      intro hne
      rw [hreader]
      exact h.away i hne
    exact h.update ((h.slot i).process hn hstep hreader hline) haway (fun _ _ hne => hne) id
  | begin hpc =>
    refine ⟨h.slot, h.page, h.stream, h.whole, fun j _ => h.away j ?_, nofun⟩
    rw [hpc]
    exact nofun
  | enter i hpc =>
    have haway : (x.slots i).reader = .outside := by
      refine h.away i ?_
      rw [hpc]
      exact nofun
    have hscan : Step elemCount 0 (fun _ => True) (x.slots i) _ := Step.scan (x.slots i) haway
    refine h.update ((h.slot i).master hn hscan ?_ nofun) (fun hne => absurd rfl hne) ?_ nofun
    · rw [haway]
      exact nofun
    · intro j _ _
      rw [hpc]
      exact nofun
  | move i y hpc hstep hreader hinside hread =>
    have haway : x.scan ≠ .slot i → y.reader = .outside := fun hne => absurd hpc hne
    exact h.update ((h.slot i).master hn hstep hreader hread) haway (fun _ _ hne => hne) id
  | read i b file hpc hreader hcell hread => exact h.read hn hpc hreader hcell hread
  | leave i y hpc hstep hreader houtside =>
    refine h.update ((h.slot i).master hn hstep hreader ?_) (fun _ => houtside) ?_ nofun
    · rw [houtside]
      exact nofun
    · intro j hj _
      rw [hpc]
      rintro heq
      cases heq
      exact hj rfl
  | loopEnd hpc =>
    refine ⟨h.slot, h.page, h.stream, h.whole, fun j _ => h.away j ?_, nofun⟩
    rw [hpc]
    exact nofun
  | flush file hpc hflush => exact h.flush hpc hflush

end PipelineInv

/-! ## Delivery -/

/-- In `copy_to_cache`, up to the test that finds the ring empty. -/
def ReaderPc.draining : ReaderPc → Bool
  | testPid | testEmpty | readCb | advanceStart => true
  | _ => false

/-- The scan still has to find the ring of the slot `i` empty, where the master is at `reader`. -/
def ScanPc.Before (i : Fin n) (reader : ReaderPc) : ScanPc n → Prop
  | loop index => index ≤ i
  | slot j => j < i ∨ j = i ∧ reader.draining = true
  | outside | flush => False

/-- The slot is in use, and its records are still to be read in this scan. -/
def Ahead (x : Pipeline n) (i : Fin n) : Prop :=
  (x.slots i).slot.pid ≠ 0 ∧ x.scan.Before i (x.slots i).reader

/-- What a slot held when the scan began is passed on, or will be. -/
structure ScanInv (x₀ x : Pipeline n) (i : Fin n) : Prop where
  written : (x₀.slots i).written <+: (x.slots i).written
  covered : (x₀.slots i).written <+: x.delivered i ∨ Ahead x i

theorem pipelineStep_written (hstep : PipelineStep elemCount pid x y) (i : Fin n) :
    (x.slots i).written <+: (y.slots i).written := by
  have hupdate : ∀ {z : LogState LogBuff} {j : Fin n}, (x.slots j).written <+: z.written →
      (x.slots i).written <+: (Function.update x.slots j z i).written := by
    intro z j hz
    by_cases hi : i = j
    · rw [hi, Function.update_self]
      exact hz
    · rw [Function.update_of_ne hi]
  cases hstep with
  | process j z hstep hreader hline => exact hupdate (hstep.process_frame hreader).2.2
  | enter j hpc => exact hupdate List.prefix_rfl
  | move j z hpc hstep hreader hinside hread =>
    exact hupdate (by rw [(hstep.master_frame hreader).2.1])
  | read j b file hpc hreader hcell hread => exact hupdate List.prefix_rfl
  | leave j z hpc hstep hreader houtside =>
    exact hupdate (by rw [(hstep.master_frame hreader).2.1])
  | begin | loopEnd | flush => exact List.prefix_rfl

theorem pipelineStep_delivered (hstep : PipelineStep elemCount pid x y) (i : Fin n) :
    x.delivered i <+: y.delivered i := by
  cases hstep with
  | read j b file hpc hreader hcell hread =>
    change x.delivered i <+: ((x.out ++ [(j, b)]).filter fun p => p.1 = i).map Prod.snd
    rw [Pipeline.delivered_append]
    split_ifs
    · exact List.prefix_append ..
    · exact List.prefix_rfl
  | _ => exact List.prefix_rfl

/-- A move of the master in a slot that it drains: either it goes on, or all records were read. -/
theorem Step.draining {pid : ℕ} {P : LogState LogBuff → Prop} {x y : LogState LogBuff}
    {rs : List LogBuff} (h : SlotInv elemCount x rs) (hstep : Step elemCount pid P x y)
    (hreader : y.reader ≠ x.reader) (hpid : x.slot.pid ≠ 0) (hpc : x.reader.draining = true) :
    y.reader.draining = true ∧ y.slot.pid = x.slot.pid ∨
      y.reader = .testNeedInit ∧ x.written = rs := by
  cases hstep with
  | pidZero hpc' htest => exact absurd htest hpid
  | pidSet | nonempty | readCb | advanceStart => exact Or.inl ⟨rfl, rfl⟩
  | empty hpc' htest =>
    have hreads := h.flow.reads_all hpc' htest
    rw [h.reads] at hreads
    exact Or.inr ⟨rfl, List.map_injective_iff.mpr (Option.some_injective _) hreads.symm⟩
  | scan hpc' | keep hpc' | release hpc' | setPid hpc' | clearNeedInit hpc' =>
    rw [hpc'] at hpc
    cases hpc
  | handler hpc' hP =>
    unfold LogState.logWorkerFlushAndReset at hreader
    split_ifs at hreader <;> exact absurd rfl hreader
  | _ => exact absurd rfl hreader

theorem Ahead.other (h : Ahead x i) {j : Fin n} (hij : i ≠ j) (scan : ScanPc n)
    (hscan : x.scan.Before i (x.slots i).reader → scan.Before i (x.slots i).reader)
    (z : LogState LogBuff) : Ahead { x.setSlot j z with scan := scan } i := by
  have hsame : (x.setSlot j z).slots i = x.slots i := Function.update_of_ne hij ..
  unfold Ahead
  rw [hsame]
  exact ⟨h.1, hscan h.2⟩

theorem Ahead.self {z : LogState LogBuff} {scan : ScanPc n} (hpid : z.slot.pid ≠ 0)
    (hscan : scan.Before i z.reader) : Ahead { x.setSlot i z with scan := scan } i := by
  have hself : (x.setSlot i z).slots i = z := Function.update_self ..
  unfold Ahead
  rw [hself]
  exact ⟨hpid, hscan⟩

theorem Ahead.step (h : Ahead x i) (hinv : PipelineInv elemCount x)
    (hstep : PipelineStep elemCount pid x y) :
    (x.slots i).written = x.delivered i ∨ Ahead y i := by
  have hpid := h.1
  have hscan := h.2
  cases hstep with
  | process j z hstep hreader hline =>
    right
    by_cases hij : i = j
    · subst hij
      obtain ⟨-, hsame, -⟩ := hstep.process_frame hreader
      refine Ahead.self (by rw [hsame hpid]; exact hpid) ?_
      rw [hreader]
      exact hscan
    · exact h.other hij x.scan id z
  | begin hpc =>
    rw [hpc] at hscan
    exact absurd hscan id
  | enter j hpc =>
    rw [hpc] at hscan
    right
    by_cases hij : i = j
    · subst hij
      exact Ahead.self hpid (Or.inr ⟨rfl, rfl⟩)
    · have hlt : j < i := lt_of_le_of_ne hscan fun heq => hij heq.symm
      exact h.other hij (.slot j) (fun _ => Or.inl hlt) _
  | move j z hpc hstep hreader hinside hread =>
    by_cases hij : i = j
    · subst hij
      rw [hpc] at hscan
      have hdraining := (hscan.resolve_left (lt_irrefl _)).2
      rcases hstep.draining (hinv.slot i) hreader hpid hdraining with ⟨hz, hsame⟩ | ⟨-, hall⟩
      · right
        refine Ahead.self (by rw [hsame]; exact hpid) ?_
        rw [hpc]
        exact Or.inr ⟨rfl, hz⟩
      · exact Or.inl hall
    · exact Or.inr (h.other hij x.scan id z)
  | read j b file hpc hreader hcell hread =>
    right
    by_cases hij : i = j
    · subst hij
      have hnext : x.scan.Before i .advanceStart := by
        rw [hpc]
        exact Or.inr ⟨rfl, rfl⟩
      exact Ahead.self (x := x) (z := { (x.slots i).readerTo .advanceStart with
        reads := (x.slots i).reads ++ [some b] }) hpid hnext
    · exact h.other hij x.scan id _
  | leave j z hpc hstep hreader houtside =>
    rw [hpc] at hscan
    by_cases hij : i = j
    · subst hij
      have hdraining := (hscan.resolve_left (lt_irrefl _)).2
      rcases hstep.draining (hinv.slot i) hreader hpid hdraining with ⟨hz, -⟩ | ⟨hz, -⟩
      · rw [houtside] at hz
        cases hz
      · rw [houtside] at hz
        cases hz
    · have hlt : j < i := hscan.resolve_right fun heq => hij heq.1.symm
      exact Or.inr (h.other hij (.loop (j + 1)) (fun _ => Nat.succ_le_of_lt hlt) z)
  | loopEnd hpc =>
    rw [hpc] at hscan
    exact absurd hscan (Nat.not_le_of_lt i.isLt)
  | flush file hpc hflush =>
    rw [hpc] at hscan
    exact absurd hscan id

theorem ScanInv.step {x₀ : Pipeline n} (h : ScanInv x₀ x i) (hinv : PipelineInv elemCount x)
    (hstep : PipelineStep elemCount pid x y) : ScanInv x₀ y i where
  written := h.written.trans (pipelineStep_written hstep i)
  covered := by
    rcases h.covered with hcovered | hahead
    · exact Or.inl (hcovered.trans (pipelineStep_delivered hstep i))
    · rcases hahead.step hinv hstep with hall | hahead
      · left
        have hcovered := h.written
        rw [hall] at hcovered
        exact hcovered.trans (pipelineStep_delivered hstep i)
      · exact Or.inr hahead

end Runs

/-! ## A scan that no process disturbs -/

section Scan

variable {n elemCount : ℕ} {pid : Fin n → ℕ} {slots : Fin n → LogState LogBuff} {i : Fin n}
  {z z' : LogState LogBuff} {file : LogFile} {out : List (Fin n × LogBuff)}

theorem SlotInv.holds {rs : List LogBuff} (h : SlotInv elemCount z rs) (hpc : z.reader = .outside) :
    ∃ rest, z.written = rs ++ rest ∧ SlotHolds z.slot rest := by
  obtain ⟨rest, hrest⟩ := h.delivered_inOrder
  have hfits : ∀ b ∈ rest, b.len ≤ buffSize := fun b hb =>
    (h.lines b (hrest ▸ List.mem_append_right _ hb)).len_le
  refine ⟨rest, hrest.symm, ?_, hfits⟩
  rcases h.flow with ⟨xs, hflow⟩ | hblank
  · have hxs : xs = rest.map some := by
      have hwritten := hflow.flow
      rw [hpc, if_neg (by decide), h.reads, ← hrest, List.map_append] at hwritten
      exact (List.append_cancel_left hwritten).symm
    have hring := hflow.ring
    rw [← hflow.count, hxs] at hring
    exact Or.inl hring
  · have hnil : rest = [] := by
      have hwritten := hblank.written
      rw [← hrest] at hwritten
      exact (List.append_eq_nil_iff.mp hwritten).2
    exact Or.inr ⟨hblank.start.trans hblank.stop.symm, hnil⟩

end Scan

section OneSlot

variable {y z : LogState LogBuff} {scan : ScanPc 1} {file : LogFile} {out : List (Fin 1 × LogBuff)}

end OneSlot

end Cserv.Log
