import Cserv.Foundations.Transition
import Cserv.Http.Serving

/-!
# Reading a request, round by round

The loops of `http_process_request_line`, `http_process_request_header` and
`http_process_request_body` with the loops inside them: those of the two parsers, of
`http_process_host` and of `str_atoi`. A step is one round of the innermost loop, and every `recv`
may bring any number of bytes that fits, or fail. A read outside the received bytes is no step.

Each step lowers a measure of the free space, the unread bytes and the place in the program, so
that all loops end.
-/
namespace Cserv.Http

open Foundations Relation Util

inductive RecvLoop
  | line | header | body
  deriving DecidableEq, Repr

/-- The page that `__http_request_handler` answers with when a loop fails. -/
def RecvLoop.status : RecvLoop → ℕ
  | line | header => 400
  | body => 507

/-- The next round, with the locals of its loop, or how reading has ended. -/
inductive ReadPc
  | recv (loop : RecvLoop)
  | lineByte (p : ℕ) (st : LineState)
  | headerByte (p : ℕ) (st : HeaderState) (hash : UInt32) (i : ℕ)
  | handle
  | hostByte (i : ℕ) (l : HostLocals)
  | atoiByte (i : ℕ) (val : ℤ)
  | bodyTest
  | finalized (status : ℕ)
  | handled
  deriving DecidableEq, Repr

def ReadPc.ended : ReadPc → Bool
  | finalized _ | handled => true
  | _ => false

/-- A request that is being read; `recvs` counts the calls of `recv_http_request`. -/
structure Reading where
  pc : ReadPc
  r : HttpRequest
  b : Buffer
  recvs : ℕ
  deriving DecidableEq, Repr

def Str.byteAt (s : Str) (mem : List UInt8) (i : ℕ) : Option UInt8 :=
  match s.p with
  | some q => mem[q + i]?
  | none => none

def Str.setByte (s : Str) (mem : List UInt8) (i : ℕ) (ch : UInt8) : List UInt8 :=
  match s.p with
  | some q => mem.set (q + i) ch
  | none => mem

theorem Str.Within.len_le {s : Str} {n : ℕ} (h : s.Within n) : s.len ≤ n := by
  rcases h with rfl | ⟨q, -, -, hle⟩
  · exact Nat.zero_le n
  · omega

theorem Str.Within.byteAt {s : Str} {mem : List UInt8} (h : s.Within mem.length) {i : ℕ}
    (hi : i < s.len) : ∃ ch, s.byteAt mem i = some ch := by
  rcases h with rfl | ⟨q, hq, -, hle⟩
  · cases hi
  · refine ⟨mem[q + i], ?_⟩
    rw [Str.byteAt, hq]
    exact List.getElem?_eq_getElem _

theorem Str.length_setByte (s : Str) (mem : List UInt8) (i : ℕ) (ch : UInt8) :
    (s.setByte mem i ch).length = mem.length := by
  unfold setByte
  split
  · exact List.length_set
  · rfl

namespace Reading

variable (x : Reading)

def finalize (status : ℕ) : Reading := { x with pc := .finalized status }

def parseLine : Reading := { x with pc := .lineByte x.b.pos (.ofCode x.r.state) }

def parseHeader : Reading :=
  { x with pc := .headerByte x.b.pos (.ofCode x.r.state) x.r.headerHash x.r.lowcaseIndex }

def resume : RecvLoop → Reading
  | .line => x.parseLine
  | .header => x.parseHeader
  | .body => { x with pc := .bodyTest }

/-- The `recv` of a call of `recv_http_request` has brought `got`. -/
def receive (got : List UInt8) : Reading :=
  { x with b := x.b.append got, recvs := x.recvs + 1 }

/-- The end of the received bytes in `http_parse_request_line`. -/
def lineEnd (p : ℕ) (st : LineState) : Reading :=
  { x with pc := .recv .line, r := { x.r with state := st.code }, b := { x.b with pos := p } }

/-- `http_process_request_line` has got a complete line. -/
def lineReturn (out : ℤ × HttpRequest × Buffer) : Reading :=
  if out.1 ≠ 0 then { x with pc := .finalized 400, r := out.2.1, b := out.2.2 }
  else if out.2.1.httpVersion < 1000 then { x with pc := .handled, r := out.2.1, b := out.2.2 }
  else { x with r := out.2.1, b := out.2.2 }.parseHeader

def lineVerdict (p : ℕ) : LineVerdict → Reading
  | .next (st, r) => { x with pc := .lineByte (p + 1) st, r := r }
  | .again (st, r) => { x with pc := .lineByte p st, r := r }
  | .stop (.done r) => x.lineReturn (lineDone p r x.b)
  | .stop (.fail _ r) => { x with pc := .finalized 400, r := r }

def headerEnd (p : ℕ) (l : HeaderLocals) : Reading :=
  { x with pc := .recv .header, r := l.save l.state, b := { x.b with pos := p } }

def headerVerdict (p : ℕ) : HeaderVerdict → Reading
  | .next l => { x with pc := .headerByte (p + 1) l.state l.hash l.i, r := l.r }
  | .again l => { x with pc := .headerByte p l.state l.hash l.i, r := l.r }
  | .stop (.done l) =>
    { x with pc := .handle, r := l.save .start, b := { x.b with pos := p + 1 } }
  | .stop (.headerDone l) =>
    { x with
      pc := .bodyTest, r := { l.r with state := HeaderState.start.code }
      b := { x.b with pos := p + 1 } }
  | .stop (.fail _ l) => { x with pc := .finalized 400, r := l.r }

def hostStart : Reading :=
  { x with
    pc := .hostByte 0 ⟨.usual, x.r.headerValue.len, x.r.headerValue.len⟩
    r := { x.r with host.p := x.r.headerValue.p } }

/-- What the byte at `i` of the host leads to. -/
def hostVerdict (i : ℕ) : ℤ ⊕ HostLocals × UInt8 → Reading
  | .inl _ => x.finalize 400
  | .inr (l, ch) =>
    { x with
      pc := .hostByte (i + 1) l, b := { x.b with data := x.r.headerValue.setByte x.b.data i ch } }

def hostEnd (l : HostLocals) : Reading :=
  if hostCut l = 0 then x.finalize 400
  else { x with r := { x.r with host.len := hostCut l } }.parseHeader

/-- `http_process_content_length` behind the call of `str_atoi`. -/
def lengthReturn (val : ℤ) : Reading :=
  if val ≤ 0 then { x with pc := .finalized 400, r := { x.r with contentLen := val } }
  else { x with r := { x.r with contentLen := val } }.parseHeader

def atoiVerdict (i : ℕ) (val : ℤ) (ch : UInt8) : Reading :=
  if ch ≥ '0' ∧ ch ≤ '9' then
    { x with pc := .atoiByte (i + 1) (toInt32 (10 * val + (ch.toNat - '0'.toNat : ℕ))) }
  else
    x.lengthReturn val

/-- The test of the loop of `http_process_request_body`. -/
def bodyVerdict : Reading :=
  if (x.b.data.length - x.b.pos : ℤ) = x.r.contentLen then
    { x with
      pc := .handled, r := { x.r with content := ⟨some x.b.pos, x.r.contentLen.toNat⟩ } }
  else
    { x with pc := .recv .body }

end Reading

def headerHandler (ht : HeaderTable) (r : HttpRequest) : Option HeaderHandler :=
  (dispatched ht r).bind RequestHeaderHandler.handler

inductive ReadStep (ht : HeaderTable) : Reading → Reading → Prop
  | full (x : Reading) (loop : RecvLoop) (hpc : x.pc = .recv loop) (hfull : x.b.free = []) :
      ReadStep ht x ((x.receive []).finalize loop.status)
  | recv (x : Reading) (loop : RecvLoop) (hpc : x.pc = .recv loop) (got : List UInt8)
      (hne : got ≠ []) (hfits : got.length ≤ x.b.free.length) :
      ReadStep ht x ((x.receive got).resume loop)
  | recvFails (x : Reading) (loop : RecvLoop) (hpc : x.pc = .recv loop) (hroom : x.b.free ≠ []) :
      ReadStep ht x ((x.receive []).finalize loop.status)
  | lineEnd (x : Reading) (p : ℕ) (st : LineState) (hpc : x.pc = .lineByte p st)
      (hend : p = x.b.data.length) : ReadStep ht x (x.lineEnd p st)
  | lineByte (x : Reading) (p : ℕ) (st : LineState) (hpc : x.pc = .lineByte p st) (ch : UInt8)
      (hch : x.b.data[p]? = some ch) :
      ReadStep ht x (x.lineVerdict p (lineStep x.b.data p ch (st, x.r)))
  | headerEnd (x : Reading) (p : ℕ) (st : HeaderState) (hash : UInt32) (i : ℕ)
      (hpc : x.pc = .headerByte p st hash i) (hend : x.b.data.length ≤ p) :
      ReadStep ht x (x.headerEnd p ⟨st, hash, i, x.r⟩)
  | headerByte (x : Reading) (p : ℕ) (st : HeaderState) (hash : UInt32) (i : ℕ)
      (hpc : x.pc = .headerByte p st hash i) (ch : UInt8) (hch : x.b.data[p]? = some ch) :
      ReadStep ht x (x.headerVerdict p (headerStep p ch ⟨st, hash, i, x.r⟩))
  | noHandler (x : Reading) (hpc : x.pc = .handle) (hf : headerHandler ht x.r = none) :
      ReadStep ht x x.parseHeader
  | host (x : Reading) (hpc : x.pc = .handle)
      (hf : headerHandler ht x.r = some httpProcessHost) : ReadStep ht x x.hostStart
  | contentLength (x : Reading) (hpc : x.pc = .handle)
      (hf : headerHandler ht x.r = some httpProcessContentLength) :
      ReadStep ht x { x with pc := .atoiByte 0 0 }
  | hostByte (x : Reading) (i : ℕ) (l : HostLocals) (hpc : x.pc = .hostByte i l)
      (hi : i < x.r.headerValue.len) (ch : UInt8)
      (hch : x.r.headerValue.byteAt x.b.data i = some ch) :
      ReadStep ht x (x.hostVerdict i (hostByte i l ch))
  | hostEnd (x : Reading) (i : ℕ) (l : HostLocals) (hpc : x.pc = .hostByte i l)
      (hi : x.r.headerValue.len ≤ i) : ReadStep ht x (x.hostEnd l)
  | atoiByte (x : Reading) (i : ℕ) (val : ℤ) (hpc : x.pc = .atoiByte i val)
      (hi : i < x.r.headerValue.len) (ch : UInt8)
      (hch : x.r.headerValue.byteAt x.b.data i = some ch) :
      ReadStep ht x (x.atoiVerdict i val ch)
  | atoiEnd (x : Reading) (i : ℕ) (val : ℤ) (hpc : x.pc = .atoiByte i val)
      (hi : x.r.headerValue.len ≤ i) : ReadStep ht x (x.lengthReturn val)
  | body (x : Reading) (hpc : x.pc = .bodyTest) : ReadStep ht x x.bodyVerdict

theorem ReadStep.fail {ht : HeaderTable} {x : Reading} {loop : RecvLoop} (hpc : x.pc = .recv loop) :
    ReadStep ht x ((x.receive []).finalize loop.status) := by
  by_cases hfull : x.b.free = []
  · exact .full x loop hpc hfull
  · exact .recvFails x loop hpc hfull

/-- The request as `http_request_handler` sets it up, before the first `recv`. -/
def Reading.start (g : HttpRequest) (mem : List UInt8) : Reading :=
  ⟨.recv .line, g.init, Buffer.bind mem, 0⟩

/-! ## The measure -/

namespace Reading

/-- A byte to receive weighs more than one to read, and that more than a round without bytes. -/
def work (x : Reading) (p rank : ℕ) : ℕ :=
  (x.b.capacity + 8) * x.b.free.length + (x.b.capacity + 5) * (x.b.data.length - p) + rank

def measure (x : Reading) : ℕ :=
  match x.pc with
  | .recv _ => x.work x.b.pos 1
  | .lineByte p st => x.work p (2 + st.givesBack.toNat)
  | .headerByte p _ _ _ => x.work p 2
  | .handle => x.work x.b.pos (x.b.capacity + 4)
  | .hostByte i _ | .atoiByte i _ => x.work x.b.pos (3 + (x.r.headerValue.len - i))
  | .bodyTest => x.work x.b.pos 2
  | .finalized _ | .handled => 0

/-- The calls of `recv_http_request` made, and those still possible. -/
def budget (x : Reading) : ℕ := x.recvs + if x.pc.ended then 0 else x.b.free.length + 1

/-- What holds in the loop that the request is in. -/
def InLoop (x : Reading) : Prop :=
  match x.pc with
  | .recv .header => x.r.InHeader x.b.pos (.ofCode x.r.state)
  | .lineByte p _ => p ≤ x.b.data.length
  | .headerByte p st _ _ => p ≤ x.b.data.length ∧ x.r.InHeader p st
  | .handle | .hostByte _ _ | .atoiByte _ _ =>
    x.r.headerValue.Within x.b.data.length ∧ x.r.state = 0
  | _ => True

/-- The buffer has `size` bytes, and no place is behind the received ones. -/
structure Inv (size : ℕ) (x : Reading) : Prop where
  capacity : x.b.capacity = size
  pos_le : x.b.pos ≤ x.b.data.length
  inLoop : x.InLoop

end Reading

structure Goes (size : ℕ) (x y : Reading) : Prop where
  inv : y.Inv size
  measure : y.measure < x.measure
  budget : y.budget ≤ x.budget

section Goes

variable {size p k k' : ℕ} {x y : Reading}

namespace Reading

theorem work_congr (hlen : y.b.data.length = x.b.data.length) (hfree : y.b.free = x.b.free) :
    y.work p k = x.work p k := by
  rw [work, work, Buffer.capacity, Buffer.capacity, hlen, hfree]

theorem work_lt (hk : k < k') : x.work p k < x.work p k' := Nat.add_lt_add_left hk _

theorem work_pos (hk : 0 < k) : 0 < x.work p k := Nat.add_pos_right _ hk

theorem work_succ_lt (hp : p < x.b.data.length) (hk : k < x.b.capacity + 5 + k') :
    x.work (p + 1) k < x.work p k' := by
  have hrest : x.b.data.length - p = x.b.data.length - (p + 1) + 1 := by omega
  rw [work, work, hrest, Nat.mul_succ]
  omega

theorem work_receive_lt {got : List UInt8} (hne : got ≠ []) (hfits : got.length ≤ x.b.free.length)
    (hp : p ≤ x.b.data.length) (hk : k ≤ 3) : (x.receive got).work p k < x.work p 1 := by
  have hgot := List.length_pos_iff.mpr hne
  obtain ⟨free, hfree⟩ := Nat.exists_eq_add_of_le hfits
  have hcapacity : (x.receive got).b.capacity = x.b.capacity := by
    simp only [receive, Buffer.append, Buffer.capacity, List.length_append, List.length_drop]
    omega
  have hrest : (x.receive got).b.data.length - p = x.b.data.length - p + got.length := by
    simp only [receive, Buffer.append, List.length_append]
    omega
  have hfree' : (x.receive got).b.free.length = free := by
    simp only [receive, Buffer.append, List.length_drop]
    omega
  have hweight : (x.b.capacity + 8) * got.length =
      (x.b.capacity + 5) * got.length + 3 * got.length := by ring
  rw [work, work, hcapacity, hrest, hfree', hfree, Nat.mul_add, Nat.mul_add, hweight]
  omega

theorem measure_pos (hx : x.pc.ended = false) : 0 < x.measure := by
  obtain ⟨pc, r, b, recvs⟩ := x
  cases pc with
  | finalized => cases hx
  | handled => cases hx
  | _ => exact work_pos (by omega)

theorem measure_ended (hx : x.pc.ended = true) : x.measure = 0 := by
  obtain ⟨pc, r, b, recvs⟩ := x
  cases pc with
  | finalized => rfl
  | handled => rfl
  | _ => cases hx

theorem inLoop_ended (hx : x.pc.ended = true) : x.InLoop := by
  obtain ⟨pc, r, b, recvs⟩ := x
  cases pc with
  | finalized => trivial
  | handled => trivial
  | _ => cases hx

theorem budget_reading (hx : x.pc.ended = false) :
    x.budget = x.recvs + (x.b.free.length + 1) := by
  rw [budget, hx, if_neg Bool.false_ne_true]

theorem budget_ended (hx : x.pc.ended = true) : x.budget = x.recvs := by
  rw [budget, hx, if_pos rfl, Nat.add_zero]

theorem budget_le (x : Reading) : x.budget ≤ x.recvs + (x.b.free.length + 1) := by
  unfold budget
  split_ifs <;> omega

def InHandler (x : Reading) (i : ℕ) : Prop :=
  (∃ l, x.pc = .hostByte i l) ∨ ∃ val, x.pc = .atoiByte i val

namespace InHandler

variable {i : ℕ} (hx : x.InHandler i)

include hx

theorem ended : x.pc.ended = false := by
  rcases hx with ⟨l, hpc⟩ | ⟨val, hpc⟩ <;> rw [hpc] <;> rfl

theorem inLoop : x.InLoop ↔ x.r.headerValue.Within x.b.data.length ∧ x.r.state = 0 := by
  rcases hx with ⟨l, hpc⟩ | ⟨val, hpc⟩ <;> rw [InLoop, hpc]

theorem measure : x.measure = x.work x.b.pos (3 + (x.r.headerValue.len - i)) := by
  rcases hx with ⟨l, hpc⟩ | ⟨val, hpc⟩ <;> rw [Reading.measure, hpc]

end InHandler

end Reading

open Reading

theorem Goes.stop (h : x.Inv size) (hx : x.pc.ended = false) (hy : y.pc.ended = true)
    (hlen : y.b.data.length = x.b.data.length) (hfree : y.b.free = x.b.free)
    (hpos : y.b.pos ≤ x.b.data.length) (hrecvs : y.recvs ≤ x.recvs + 1) : Goes size x y := by
  refine ⟨⟨?_, hpos.trans hlen.ge, ?_⟩, ?_, ?_⟩
  · rw [Buffer.capacity, hlen, hfree]
    exact h.capacity
  · exact inLoop_ended hy
  · rw [measure_ended hy]
    exact measure_pos hx
  · rw [budget_ended hy, budget_reading hx]
    omega

theorem Goes.next (h : x.Inv size) (hx : x.pc.ended = false)
    (hlen : y.b.data.length = x.b.data.length) (hfree : y.b.free = x.b.free)
    (hpos : y.b.pos ≤ x.b.data.length) (hrecvs : y.recvs = x.recvs) (hin : y.InLoop)
    (hmeasure : y.measure < x.measure) : Goes size x y := by
  refine ⟨⟨?_, hpos.trans hlen.ge, hin⟩, hmeasure, ?_⟩
  · rw [Buffer.capacity, hlen, hfree]
    exact h.capacity
  · rw [budget_reading hx, ← hrecvs, ← hfree]
    exact y.budget_le

theorem goes_parseHeader (h : x.Inv size) (hx : x.pc.ended = false)
    (hlen : y.b.data.length = x.b.data.length) (hfree : y.b.free = x.b.free)
    (hpos : y.b.pos ≤ x.b.data.length) (hrecvs : y.recvs = x.recvs) (hstate : y.r.state = 0)
    (hmeasure : y.work y.b.pos 2 < x.measure) : Goes size x y.parseHeader := by
  refine Goes.next h hx hlen hfree hpos hrecvs ⟨hpos.trans hlen.ge, ?_⟩ hmeasure
  rw [hstate]
  trivial

theorem goes_receive (h : x.Inv size) {loop : RecvLoop} (hpc : x.pc = .recv loop)
    {got : List UInt8} (hne : got ≠ []) (hfits : got.length ≤ x.b.free.length) :
    Goes size x ((x.receive got).resume loop) := by
  have hin := h.inLoop
  have hpos := h.pos_le
  have hcapacity := h.capacity
  have hgot := List.length_pos_iff.mpr hne
  have hlast : x.b.pos ≤ (x.receive got).b.data.length := by
    simp only [receive, Buffer.append, List.length_append]
    omega
  have hsize : (x.receive got).b.capacity = size := by
    simp only [receive, Buffer.append, Buffer.capacity, List.length_append,
      List.length_drop] at hcapacity ⊢
    omega
  have hmeasure : ∀ k ≤ 3, (x.receive got).work x.b.pos k < x.measure := by
    intro k hk
    rw [Reading.measure, hpc]
    exact work_receive_lt hne hfits hpos hk
  have hbudget : ∀ pc, Reading.budget { x.receive got with pc := pc } ≤ x.budget := by
    intro pc
    refine (budget_le _).trans ?_
    rw [budget_reading (by rw [hpc]; rfl)]
    simp only [receive, Buffer.append, List.length_drop]
    omega
  cases loop with
  | line =>
    have hback := Bool.toNat_le (LineState.ofCode x.r.state).givesBack
    exact ⟨⟨hsize, hlast, hlast⟩, hmeasure _ (Nat.add_le_add_left hback 2), hbudget _⟩
  | header =>
    rw [InLoop, hpc] at hin
    exact ⟨⟨hsize, hlast, hlast, hin⟩, hmeasure _ (by decide), hbudget _⟩
  | body => exact ⟨⟨hsize, hlast, trivial⟩, hmeasure _ (by decide), hbudget _⟩

theorem goes_fail (h : x.Inv size) {loop : RecvLoop} (hpc : x.pc = .recv loop) :
    Goes size x ((x.receive []).finalize loop.status) := by
  have hlen : ((x.receive []).finalize loop.status).b.data.length = x.b.data.length := by
    simp [Reading.finalize, receive, Buffer.append]
  exact Goes.stop h (by rw [hpc]; rfl) rfl hlen rfl h.pos_le le_rfl

theorem goes_lineEnd (h : x.Inv size) {st : LineState} (hpc : x.pc = .lineByte p st)
    (hend : p = x.b.data.length) : Goes size x (x.lineEnd p st) := by
  have hmeasure : x.measure = x.work p (2 + st.givesBack.toNat) := by rw [Reading.measure, hpc]
  refine Goes.next h (by rw [hpc]; rfl) rfl rfl hend.le rfl trivial ?_
  rw [hmeasure]
  exact work_lt (by omega)

theorem goes_line (h : x.Inv size) {st : LineState} (hpc : x.pc = .lineByte p st) {ch : UInt8}
    (hch : x.b.data[p]? = some ch) :
    Goes size x (x.lineVerdict p (lineStep x.b.data p ch (st, x.r))) := by
  have hx : x.pc.ended = false := by rw [hpc]; rfl
  have hp : p < x.b.data.length := (List.getElem?_eq_some_iff.mp hch).1
  have hmeasure : x.measure = x.work p (2 + st.givesBack.toNat) := by rw [Reading.measure, hpc]
  have hback := Bool.toNat_le st.givesBack
  cases hv : lineStep x.b.data p ch (st, x.r) with
  | next s =>
    refine Goes.next h hx rfl rfl h.pos_le rfl hp ?_
    have hback' := Bool.toNat_le s.1.givesBack
    rw [hmeasure]
    exact work_succ_lt hp (by omega)
  | again s =>
    obtain ⟨hgives, hkeeps⟩ := (lineScanner x.b.data).again_spec p ch (st, x.r) s hv
    refine Goes.next h hx rfl rfl h.pos_le rfl hp.le ?_
    rw [hmeasure]
    refine work_lt ?_
    rw [show st.givesBack = true from hgives, show s.1.givesBack = false from hkeeps]
    decide
  | stop out =>
    cases out with
    | fail code r => exact Goes.stop h hx rfl rfl rfl h.pos_le (Nat.le_succ _)
    | done r =>
      dsimp only [Reading.lineVerdict, Reading.lineReturn]
      split_ifs
      · exact Goes.stop h hx rfl rfl rfl hp (Nat.le_succ _)
      · exact Goes.stop h hx rfl rfl rfl hp (Nat.le_succ _)
      · refine goes_parseHeader h hx rfl rfl hp rfl rfl ?_
        rw [hmeasure]
        exact work_succ_lt hp (by omega)

theorem goes_headerEnd (h : x.Inv size) {st : HeaderState} {hash : UInt32} {i : ℕ}
    (hpc : x.pc = .headerByte p st hash i) : Goes size x (x.headerEnd p ⟨st, hash, i, x.r⟩) := by
  have hmeasure : x.measure = x.work p 2 := by rw [Reading.measure, hpc]
  have hin := h.inLoop
  rw [InLoop, hpc] at hin
  refine Goes.next h (by rw [hpc]; rfl) rfl rfl hin.1 rfl ?_ ?_
  · change HttpRequest.InHeader _ p (.ofCode st.code)
    rw [HeaderState.ofCode_code]
    exact hin.2
  · rw [hmeasure]
    exact work_lt Nat.one_lt_two

theorem goes_header (h : x.Inv size) {st : HeaderState} {hash : UInt32} {i : ℕ}
    (hpc : x.pc = .headerByte p st hash i) {ch : UInt8} (hch : x.b.data[p]? = some ch) :
    Goes size x (x.headerVerdict p (headerStep p ch ⟨st, hash, i, x.r⟩)) := by
  have hx : x.pc.ended = false := by rw [hpc]; rfl
  have hp : p < x.b.data.length := (List.getElem?_eq_some_iff.mp hch).1
  have hmeasure : x.measure = x.work p 2 := by rw [Reading.measure, hpc]
  have hin := h.inLoop
  rw [InLoop, hpc] at hin
  have hok : HeaderOk p (headerStep p ch ⟨st, hash, i, x.r⟩) := headerStep_ok hin.2
  have hagain := headerStep_again p ch ⟨st, hash, i, x.r⟩
  cases hv : headerStep p ch ⟨st, hash, i, x.r⟩ with
  | next l =>
    rw [hv] at hok
    refine Goes.next h hx rfl rfl h.pos_le rfl ⟨hp, hok⟩ ?_
    rw [hmeasure]
    exact work_succ_lt hp (by omega)
  | again l =>
    rw [hv] at hagain
    exact hagain.elim
  | stop out =>
    rw [hv] at hok
    cases out with
    | fail code l => exact Goes.stop h hx rfl rfl rfl h.pos_le (Nat.le_succ _)
    | done l =>
      refine Goes.next h hx rfl rfl hp rfl ⟨Str.Within.mono hok.2 hp.le, rfl⟩ ?_
      rw [hmeasure]
      exact work_succ_lt hp (by omega)
    | headerDone l =>
      refine Goes.next h hx rfl rfl hp rfl trivial ?_
      rw [hmeasure]
      exact work_succ_lt hp (by omega)

theorem goes_noHandler (h : x.Inv size) (hpc : x.pc = .handle) : Goes size x x.parseHeader := by
  have hin := h.inLoop
  rw [InLoop, hpc] at hin
  refine goes_parseHeader h (by rw [hpc]; rfl) rfl rfl h.pos_le rfl hin.2 ?_
  rw [Reading.measure, hpc]
  exact work_lt (by omega)

theorem goes_handler (h : x.Inv size) (hpc : x.pc = .handle) (hy : y.InHandler 0) (hb : y.b = x.b)
    (hrecvs : y.recvs = x.recvs) (hvalue : y.r.headerValue = x.r.headerValue)
    (hstate : y.r.state = x.r.state) : Goes size x y := by
  have hin := h.inLoop
  rw [InLoop, hpc] at hin
  have hlen : x.r.headerValue.len ≤ x.b.capacity := hin.1.len_le.trans (Nat.le_add_right _ _)
  have hloop : y.InLoop := by
    rw [hy.inLoop, hvalue, hb, hstate]
    exact hin
  have hmeasure : y.measure = x.work x.b.pos (3 + x.r.headerValue.len) := by
    rw [hy.measure, hvalue, hb]
    exact work_congr (by rw [hb]) (by rw [hb])
  refine Goes.next h (by rw [hpc]; rfl) (by rw [hb]) (by rw [hb]) (hb ▸ h.pos_le) hrecvs hloop ?_
  rw [hmeasure, Reading.measure, hpc]
  exact work_lt (by omega)

theorem goes_handlerByte {i : ℕ} (h : x.Inv size) (hx : x.InHandler i)
    (hi : i < x.r.headerValue.len) (hy : y.InHandler (i + 1)) (hr : y.r = x.r)
    (hlen : y.b.data.length = x.b.data.length) (hfree : y.b.free = x.b.free)
    (hpos : y.b.pos = x.b.pos) (hrecvs : y.recvs = x.recvs) : Goes size x y := by
  have hloop : y.InLoop := by
    rw [hy.inLoop, hr, hlen]
    exact hx.inLoop.mp h.inLoop
  refine Goes.next h hx.ended hlen hfree (hpos ▸ h.pos_le) hrecvs hloop ?_
  rw [hy.measure, hx.measure, hr, hpos, work_congr hlen hfree]
  exact work_lt (by omega)

theorem goes_handlerReturn {i : ℕ} (h : x.Inv size) (hx : x.InHandler i) {r : HttpRequest}
    (hstate : r.state = x.r.state) : Goes size x (Reading.parseHeader { x with r := r }) := by
  have hin := hx.inLoop.mp h.inLoop
  refine goes_parseHeader h hx.ended rfl rfl h.pos_le rfl (hstate.trans hin.2) ?_
  rw [hx.measure]
  exact work_lt (by omega)

theorem goes_hostByte (h : x.Inv size) {i : ℕ} {l : HostLocals} (hpc : x.pc = .hostByte i l)
    (hi : i < x.r.headerValue.len) (out : ℤ ⊕ HostLocals × UInt8) :
    Goes size x (x.hostVerdict i out) := by
  have hx : x.InHandler i := Or.inl ⟨l, hpc⟩
  cases out with
  | inl code => exact Goes.stop h hx.ended rfl rfl rfl h.pos_le (Nat.le_succ _)
  | inr out =>
    have hlen := Str.length_setByte x.r.headerValue x.b.data i out.2
    exact goes_handlerByte h hx hi (Or.inl ⟨out.1, rfl⟩) rfl hlen rfl rfl rfl

theorem goes_hostEnd (h : x.Inv size) {i : ℕ} {l : HostLocals} (hpc : x.pc = .hostByte i l) :
    Goes size x (x.hostEnd l) := by
  have hx : x.InHandler i := Or.inl ⟨l, hpc⟩
  unfold Reading.hostEnd
  split_ifs
  · exact Goes.stop h hx.ended rfl rfl rfl h.pos_le (Nat.le_succ _)
  · exact goes_handlerReturn h hx rfl

theorem goes_lengthReturn (h : x.Inv size) {i : ℕ} {val : ℤ} (hpc : x.pc = .atoiByte i val)
    (val' : ℤ) : Goes size x (x.lengthReturn val') := by
  have hx : x.InHandler i := Or.inr ⟨val, hpc⟩
  unfold Reading.lengthReturn
  split_ifs
  · exact Goes.stop h hx.ended rfl rfl rfl h.pos_le (Nat.le_succ _)
  · exact goes_handlerReturn h hx rfl

theorem goes_atoiByte (h : x.Inv size) {i : ℕ} {val : ℤ} (hpc : x.pc = .atoiByte i val)
    (hi : i < x.r.headerValue.len) (ch : UInt8) : Goes size x (x.atoiVerdict i val ch) := by
  unfold Reading.atoiVerdict
  split_ifs
  · exact goes_handlerByte h (Or.inr ⟨val, hpc⟩) hi (Or.inr ⟨_, rfl⟩) rfl rfl rfl rfl rfl
  · exact goes_lengthReturn h hpc val

theorem goes_body (h : x.Inv size) (hpc : x.pc = .bodyTest) : Goes size x x.bodyVerdict := by
  have hx : x.pc.ended = false := by rw [hpc]; rfl
  have hmeasure : x.measure = x.work x.b.pos 2 := by rw [Reading.measure, hpc]
  unfold Reading.bodyVerdict
  split_ifs
  · exact Goes.stop h hx rfl rfl rfl h.pos_le (Nat.le_succ _)
  · refine Goes.next h hx rfl rfl h.pos_le rfl trivial ?_
    rw [hmeasure]
    exact work_lt Nat.one_lt_two

/-- Every round keeps the invariant, lowers the measure and stays in the budget of `recv`s. -/
theorem ReadStep.goes {ht : HeaderTable} (hstep : ReadStep ht x y) (h : x.Inv size) :
    Goes size x y := by
  cases hstep with
  | full loop hpc hfull => exact goes_fail h hpc
  | recv loop hpc got hne hfits => exact goes_receive h hpc hne hfits
  | recvFails loop hpc hroom => exact goes_fail h hpc
  | lineEnd p st hpc hend => exact goes_lineEnd h hpc hend
  | lineByte p st hpc ch hch => exact goes_line h hpc hch
  | headerEnd p st hash i hpc hend => exact goes_headerEnd h hpc
  | headerByte p st hash i hpc ch hch => exact goes_header h hpc hch
  | noHandler hpc hf => exact goes_noHandler h hpc
  | host hpc hf => exact goes_handler h hpc (Or.inl ⟨_, rfl⟩) rfl rfl rfl rfl
  | contentLength hpc hf => exact goes_handler h hpc (Or.inr ⟨_, rfl⟩) rfl rfl rfl rfl
  | hostByte i l hpc hi ch hch => exact goes_hostByte h hpc hi _
  | hostEnd i l hpc hi => exact goes_hostEnd h hpc
  | atoiByte i val hpc hi ch hch => exact goes_atoiByte h hpc hi ch
  | atoiEnd i val hpc hi => exact goes_lengthReturn h hpc val
  | body hpc => exact goes_body h hpc

/-- Reading goes on until it ends: no read is outside the received bytes. -/
theorem Reading.Inv.readStep {malloc malloc' : ℕ → Bool} {ht : HeaderTable}
    (hht : requestHeaderTable malloc malloc' [] = some ht) (h : x.Inv size)
    (hx : x.pc.ended = false) : ∃ y, ReadStep ht x y := by
  have hin := h.inLoop
  unfold InLoop at hin
  cases hpc : x.pc with
  | recv loop => exact ⟨_, .fail hpc⟩
  | lineByte p st =>
    rw [hpc] at hin
    rcases Nat.lt_or_eq_of_le hin with hlt | heq
    · exact ⟨_, .lineByte x p st hpc _ (List.getElem?_eq_getElem hlt)⟩
    · exact ⟨_, .lineEnd x p st hpc heq⟩
  | headerByte p st hash i =>
    rcases Nat.lt_or_ge p x.b.data.length with hlt | hge
    · exact ⟨_, .headerByte x p st hash i hpc _ (List.getElem?_eq_getElem hlt)⟩
    · exact ⟨_, .headerEnd x p st hash i hpc hge⟩
  | handle =>
    cases hf : headerHandler ht x.r with
    | none => exact ⟨_, .noHandler x hpc hf⟩
    | some f =>
      obtain ⟨hh, hd, hf'⟩ := Option.bind_eq_some_iff.mp hf
      rcases requestHeaderTable_builtin_only hht (dispatched_find hd) hf' with rfl | rfl
      · exact ⟨_, .host x hpc hf⟩
      · exact ⟨_, .contentLength x hpc hf⟩
  | hostByte i l =>
    rw [hpc] at hin
    rcases Nat.lt_or_ge i x.r.headerValue.len with hlt | hge
    · obtain ⟨ch, hch⟩ := hin.1.byteAt hlt
      exact ⟨_, .hostByte x i l hpc hlt ch hch⟩
    · exact ⟨_, .hostEnd x i l hpc hge⟩
  | atoiByte i val =>
    rw [hpc] at hin
    rcases Nat.lt_or_ge i x.r.headerValue.len with hlt | hge
    · obtain ⟨ch, hch⟩ := hin.1.byteAt hlt
      exact ⟨_, .atoiByte x i val hpc hlt ch hch⟩
    · exact ⟨_, .atoiEnd x i val hpc hge⟩
  | bodyTest => exact ⟨_, .body x hpc⟩
  | finalized status =>
    rw [hpc] at hx
    cases hx
  | handled =>
    rw [hpc] at hx
    cases hx

end Goes

theorem Reading.inv_start (g : HttpRequest) (mem : List UInt8) :
    (Reading.start g mem).Inv mem.length where
  capacity := by simp [start, Buffer.bind, Buffer.capacity]
  pos_le := le_rfl
  inLoop := trivial

/-- Whatever the calls of `recv` bring, reading a request into `mem` takes a bounded number of
rounds and, from each point on, at most one call of `recv_http_request` more than the buffer has
bytes. It only stops when the request is answered or handled. -/
theorem request_reading_terminates {malloc malloc' : ℕ → Bool} {ht : HeaderTable}
    (hht : requestHeaderTable malloc malloc' [] = some ht) (g : HttpRequest) (mem : List UInt8)
    (x : ℕ → Reading) (n : ℕ) (hstart : x 0 = Reading.start g mem)
    (hrun : ∀ i < n, ReadStep ht (x i) (x (i + 1))) :
    n ≤ (mem.length + 8) * mem.length + 1 ∧
      (∀ m ≤ n, (x n).recvs ≤ (x m).recvs + (mem.length + 1)) ∧
      ((x n).pc.ended = false → ∃ y, ReadStep ht (x n) y) := by
  have h₀ : (x 0).Inv mem.length := hstart ▸ Reading.inv_start g mem
  have hbound : (x 0).measure = (mem.length + 8) * mem.length + 1 := by
    rw [hstart]
    simp [Reading.start, Reading.measure, Reading.work, Buffer.bind, Buffer.capacity]
  have hlength : ∀ m ≤ n, (x m).Inv mem.length ∧ m + (x m).measure ≤ (x 0).measure := by
    intro m hm
    exact run_length_le (fun a b ha hstep => ⟨(hstep.goes ha).inv, (hstep.goes ha).measure⟩) h₀
      fun i hi => hrun i (hi.trans_le hm)
  obtain ⟨hinv, hn⟩ := hlength n le_rfl
  refine ⟨by omega, fun m hm => ?_, fun hx => hinv.readStep hht hx⟩
  obtain ⟨hinv, -⟩ := hlength m hm
  obtain ⟨-, hbudget⟩ := run_antitone
    (fun a b ha hstep => ⟨(hstep.goes ha).inv, (hstep.goes ha).budget⟩) hinv hm hrun
  have hfree : (x m).b.free.length ≤ mem.length := by
    rw [← hinv.capacity]
    exact Nat.le_add_left _ _
  have hle := (x m).budget_le
  have hcount : (x n).recvs ≤ (x n).budget := Nat.le_add_right _ _
  omega

/-- The rounds of a reading into one byte, which the first `recv` fills. -/
def oneByteRound : ℕ → Reading → Reading
  | 0, x => (x.receive ['G']).resume .line
  | 1, x => x.lineVerdict 0 (lineStep ['G'] 0 'G' (.start, x.r))
  | 2, x => x.lineEnd 1 .method
  | _, x => (x.receive []).finalize 400

def oneByteRun : ℕ → Reading
  | 0 => .start default [0]
  | n + 1 => oneByteRound n (oneByteRun n)

/-- The first call fills the buffer and the second one finds it full. -/
theorem request_reading_terminates_one :
    (oneByteRun 4).pc = .finalized 400 ∧ (oneByteRun 4).recvs = 2 ∧
      (oneByteRun 4).recvs ≤ (oneByteRun 0).recvs + (1 + 1) := by
  have hrun : ∀ i < 4, ReadStep builtinTable (oneByteRun i) (oneByteRun (i + 1)) := by
    intro i hi
    match i, hi with
    | 0, _ => exact .recv (oneByteRun 0) .line rfl ['G'] (by simp) le_rfl
    | 1, _ => exact .lineByte (oneByteRun 1) 0 .start rfl 'G' rfl
    | 2, _ => exact .lineEnd (oneByteRun 2) 1 .method rfl rfl
    | 3, _ => exact .full (oneByteRun 3) .line rfl rfl
  exact ⟨rfl, rfl, (request_reading_terminates requestHeaderTable_builtin default [0] oneByteRun 4
    rfl hrun).2.1 0 (Nat.zero_le 4)⟩

end Cserv.Http
