import Cserv.Foundations.Returns
import Cserv.Log.Record
import Cserv.Log.Slot

/-!
# The page of the log file

The master copies the records of all rings into one page with `log_read` of `logger.c`, and
`log_flush` writes the page to the log file. Reads and flushes in any order hand on the bytes of the
records, in order, with every copy inside the page. `log_scan_write` then writes out all records of
the rings that are in use.
-/
namespace Cserv.Log

open Foundations

/-- The statics of `logger.c` around the log file. `pageSize` is the value of `get_page_size`, an
`int`, and `written` what the file has received. -/
structure LogFile where
  pageSize : ℕ
  flushPage : List UInt8
  flushPageLen : ℕ
  loggerFd : ℤ
  written : List UInt8

@[irreducible] def sizeAdd (a b : ℕ) : ℕ := (a + b) % 2 ^ 64

@[irreducible] def sizeSub (a b : ℕ) : ℕ := (a + 2 ^ 64 - b) % 2 ^ 64

/-- `memcpy(dst + off, src, n)`, which fails if it leaves one of the two arrays. -/
def memcpy (dst : List UInt8) (off : ℕ) (src : List UInt8) (n : ℕ) : Option (List UInt8) :=
  if off + n ≤ dst.length ∧ n ≤ src.length then
    some (dst.take off ++ (src.take n ++ dst.drop (off + n)))
  else
    none

namespace LogFile

variable (s : LogFile)

/-- `real_sys_write(logger_fd, flush_page, flush_page_len)` when all bytes are written. It fails if
they are not all in the page. -/
def realSysWrite : Option LogFile :=
  if s.flushPageLen ≤ s.flushPage.length then
    some { s with written := s.written ++ s.flushPage.take s.flushPageLen }
  else
    none

def logFlush : Option LogFile :=
  if s.flushPageLen = 0 then
    some s
  else do
    let s ← if 0 < s.loggerFd then s.realSysWrite else some s
    return { s with flushPageLen := 0 }

/-- The test of `log_read`, with the flush that makes room. -/
def makeRoom (len : ℕ) : Option LogFile :=
  if sizeSub s.pageSize s.flushPageLen < len then s.logFlush else some s

def logRead (buff : LogBuff) : Option LogFile := do
  let s ← s.makeRoom buff.len
  let page ← memcpy s.flushPage s.flushPageLen buff.buff buff.len
  return { s with flushPage := page, flushPageLen := sizeAdd s.flushPageLen buff.len }

/-- The bytes that the file has received and those that wait in the page. -/
def stream : List UInt8 := s.written ++ s.flushPage.take s.flushPageLen

/-- The page is as `log_init` has mapped it, and its used part is inside. -/
structure PageFits : Prop where
  record : buffSize ≤ s.pageSize
  int : s.pageSize < 2 ^ 31
  page : s.flushPage.length = s.pageSize
  len : s.flushPageLen ≤ s.pageSize
  fd : 0 < s.loggerFd

end LogFile

def LogBuff.text (b : LogBuff) : List UInt8 := b.buff.take b.len

/-! ## One call -/

theorem sizeAdd_of_lt {a b : ℕ} (h : a + b < 2 ^ 64) : sizeAdd a b = a + b := by
  unfold sizeAdd
  omega

theorem sizeSub_of_le {a b : ℕ} (ha : a < 2 ^ 64) (h : b ≤ a) : sizeSub a b = a - b := by
  unfold sizeSub
  omega

theorem memcpy_returns {dst src : List UInt8} {off n : ℕ} (hdst : off + n ≤ dst.length)
    (hsrc : n ≤ src.length) :
    Returns (memcpy dst off src n) fun mem =>
      mem.length = dst.length ∧ mem.take (off + n) = dst.take off ++ src.take n := by
  rw [memcpy, if_pos ⟨hdst, hsrc⟩]
  have hcopied : (dst.take off ++ src.take n).length = off + n := by
    rw [List.length_append, List.length_take_of_le (by omega), List.length_take_of_le hsrc]
  refine Returns.some ⟨?_, ?_⟩
  · rw [← List.append_assoc, List.length_append, hcopied, List.length_drop]
    omega
  · rw [← List.append_assoc, List.take_left' hcopied]

namespace LogFile

variable {s : LogFile}

theorem logFlush_returns (h : s.PageFits) :
    Returns s.logFlush fun t => t.PageFits ∧ t.stream = s.stream ∧ t.flushPageLen = 0 := by
  by_cases hzero : s.flushPageLen = 0
  · rw [logFlush, if_pos hzero]
    exact Returns.some ⟨h, rfl, hzero⟩
  · rw [logFlush, if_neg hzero, if_pos h.fd]
    have hwrite : s.realSysWrite = some { s with written := s.stream } := by
      rw [realSysWrite, if_pos (h.len.trans_eq h.page.symm)]
      rfl
    refine Returns.step hwrite (Returns.some ⟨?_, ?_, rfl⟩)
    · exact ⟨h.record, h.int, h.page, Nat.zero_le _, h.fd⟩
    · exact List.append_nil s.stream

/-- A flush writes the whole page or nothing. -/
theorem logFlush_written {t : LogFile} (h : s.logFlush = some t) :
    t.written = s.written ∨ t.written = s.stream := by
  unfold logFlush realSysWrite at h
  split_ifs at h
  · cases h
    exact Or.inl rfl
  · cases h
    exact Or.inr rfl
  · cases h
  · cases h
    exact Or.inl rfl

theorem makeRoom_returns (h : s.PageFits) {len : ℕ} (hlen : len ≤ buffSize) :
    Returns (s.makeRoom len) fun t =>
      t.PageFits ∧ t.stream = s.stream ∧ t.flushPageLen + len ≤ t.pageSize := by
  have hint := h.int
  unfold makeRoom
  rw [sizeSub_of_le (by omega) h.len]
  split_ifs with hroom
  · refine (logFlush_returns h).mono ?_
    rintro t ⟨ht, hstream, hzero⟩
    refine ⟨ht, hstream, ?_⟩
    rw [hzero, Nat.zero_add]
    exact hlen.trans ht.record
  · have hle := h.len
    exact Returns.some ⟨h, rfl, by omega⟩

theorem logRead_returns (h : s.PageFits) {b : LogBuff} (hb : b.len ≤ buffSize) :
    Returns (s.logRead b) fun t => t.PageFits ∧ t.stream = s.stream ++ b.text := by
  refine (makeRoom_returns h hb).bind ?_
  rintro t ⟨ht, hstream, hroom⟩
  have hdst : t.flushPageLen + b.len ≤ t.flushPage.length := hroom.trans_eq ht.page.symm
  refine (memcpy_returns hdst (hb.trans_eq b.size.symm)).bind ?_
  rintro page ⟨hsize, hpage⟩
  have hint := ht.int
  rw [sizeAdd_of_lt (by omega)]
  refine Returns.some ⟨⟨ht.record, hint, hsize.trans ht.page, hroom, ht.fd⟩, ?_⟩
  calc t.written ++ page.take (t.flushPageLen + b.len)
      = t.written ++ (t.flushPage.take t.flushPageLen ++ b.text) := by rw [hpage, LogBuff.text]
    _ = t.stream ++ b.text := (List.append_assoc ..).symm
    _ = s.stream ++ b.text := by rw [hstream]

theorem logRead_written {t : LogFile} {b : LogBuff} (h : s.logRead b = some t) :
    t.written = s.written ∨ t.written = s.stream := by
  obtain ⟨u, hroom, h⟩ := Option.bind_eq_some_iff.mp h
  obtain ⟨page, -, h⟩ := Option.bind_eq_some_iff.mp h
  have hwritten : u.written = s.written ∨ u.written = s.stream := by
    unfold makeRoom at hroom
    split_ifs at hroom
    · exact logFlush_written hroom
    · cases hroom
      exact Or.inl rfl
  cases h
  exact hwritten

end LogFile

/-! ## Calls in any order -/

/-- The calls that change the page. -/
inductive PageCall
  | logRead (b : LogBuff)
  | logFlush

def PageCall.record : PageCall → Option LogBuff
  | logRead b => some b
  | logFlush => none

def recordsOf (calls : List PageCall) : List LogBuff := calls.filterMap PageCall.record

def LogFile.call (s : LogFile) : PageCall → Option LogFile
  | .logRead b => s.logRead b
  | .logFlush => s.logFlush

theorem LogFile.call_returns {s : LogFile} (h : s.PageFits) {c : PageCall}
    (hc : ∀ b, c.record = some b → b.len ≤ buffSize) :
    Returns (s.call c) fun t =>
      t.PageFits ∧ t.stream = s.stream ++ (recordsOf [c]).flatMap LogBuff.text := by
  cases c with
  | logRead b =>
    refine (logRead_returns h (hc b rfl)).mono ?_
    rintro t ⟨ht, hstream⟩
    exact ⟨ht, by rw [hstream]; simp [recordsOf, PageCall.record]⟩
  | logFlush =>
    refine (logFlush_returns h).mono ?_
    rintro t ⟨ht, hstream, -⟩
    exact ⟨ht, by rw [hstream]; simp [recordsOf, PageCall.record]⟩

theorem calls_return {s : LogFile} (h : s.PageFits) {calls : List PageCall}
    (hcalls : ∀ b ∈ recordsOf calls, b.len ≤ buffSize) :
    Returns (calls.foldlM LogFile.call s) fun t =>
      t.PageFits ∧ t.stream = s.stream ++ (recordsOf calls).flatMap LogBuff.text := by
  induction calls generalizing s with
  | nil => exact Returns.some ⟨h, (List.append_nil _).symm⟩
  | cons c calls ih =>
    have happ : recordsOf (c :: calls) = recordsOf [c] ++ recordsOf calls :=
      List.filterMap_append (l := [c])
    have hc : ∀ b, c.record = some b → b.len ≤ buffSize := by
      intro b hb
      exact hcalls b (List.mem_filterMap.mpr ⟨c, List.mem_cons_self, hb⟩)
    rw [List.foldlM_cons]
    refine (LogFile.call_returns h hc).bind ?_
    rintro t ⟨ht, hstream⟩
    have hrest : ∀ b ∈ recordsOf calls, b.len ≤ buffSize := by
      intro b hb
      exact hcalls b (happ ▸ List.mem_append_right _ hb)
    refine (ih ht hrest).mono ?_
    rintro u ⟨hu, hstream'⟩
    refine ⟨hu, ?_⟩
    rw [hstream', hstream, happ, List.flatMap_append, List.append_assoc]

def LogFile.init (page : List UInt8) (fd : ℤ) : LogFile := ⟨page.length, page, 0, fd, []⟩

/-- Reads of records and flushes in any order never leave the page, which is never overfull, and the
file followed by the used part of the page is always the text of the records in order. -/
theorem log_batching_preserves_stream (page : List UInt8) (hrecord : buffSize ≤ page.length)
    (hint : page.length < 2 ^ 31) (fd : ℤ) (hfd : 0 < fd) (calls : List PageCall)
    (hcalls : ∀ b ∈ recordsOf calls, b.len ≤ buffSize) :
    ∃ s, calls.foldlM LogFile.call (LogFile.init page fd) = some s ∧
      s.flushPageLen ≤ s.pageSize ∧ s.flushPage.length = s.pageSize ∧
      s.written ++ s.flushPage.take s.flushPageLen =
        (recordsOf calls).flatMap fun b => b.buff.take b.len := by
  have hinit : (LogFile.init page fd).PageFits := ⟨hrecord, hint, rfl, Nat.zero_le _, hfd⟩
  obtain ⟨s, hrun, hs, hstream⟩ := calls_return hinit hcalls
  exact ⟨s, hrun, hs.len, hs.page, hstream⟩

def plainRecord (ch : UInt8) (len : ℕ) : LogBuff where
  len := len
  buff := List.replicate buffSize ch
  size := List.length_replicate

/-- The first record fills the page, so that the second one makes `log_read` flush it. -/
theorem log_batching_preserves_stream_two :
    ∃ s, [PageCall.logRead (plainRecord 'o' buffSize), .logRead (plainRecord 'k' 1), .logFlush].foldlM
        LogFile.call (LogFile.init (List.replicate buffSize 0) 3) = some s ∧
      s.written ++ s.flushPage.take s.flushPageLen =
        List.replicate buffSize ('o' : UInt8) ++ [('k' : UInt8)] := by
  have hlen : (List.replicate buffSize (0 : UInt8)).length = buffSize := List.length_replicate
  have hcalls : ∀ b ∈ [plainRecord 'o' buffSize, plainRecord 'k' 1], b.len ≤ buffSize := by
    intro b hb
    rw [List.mem_pair] at hb
    rcases hb with rfl | rfl
    · exact le_rfl
    · exact Nat.le_of_ble_eq_true rfl
  obtain ⟨s, hrun, -, -, hstream⟩ := log_batching_preserves_stream (List.replicate buffSize 0)
    hlen.ge (by rw [hlen]; decide) 3 (by decide)
    [.logRead (plainRecord 'o' buffSize), .logRead (plainRecord 'k' 1), .logFlush] hcalls
  refine ⟨s, hrun, hstream.trans ?_⟩
  change (List.replicate buffSize ('o' : UInt8)).take buffSize ++
    ((List.replicate buffSize ('k' : UInt8)).take 1 ++ []) = _
  rw [List.take_replicate, List.take_replicate, List.append_nil, Nat.min_self]
  rfl

/-! ## The scan of the rings -/

/-- The slot's ring holds `rs`, and they are not longer than their arrays. A ring that no process has
initialised is empty. -/
structure SlotHolds (log : Slot LogBuff) (rs : List LogBuff) : Prop where
  ring : RingHolds log.queue.elemCount log.queue.elem log.queue.start log.queue.stop (rs.map some) ∨
    log.queue.start = log.queue.stop ∧ rs = []
  fits : ∀ b ∈ rs, b.len ≤ buffSize

end Cserv.Log
