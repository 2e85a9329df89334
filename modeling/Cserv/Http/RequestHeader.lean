import Cserv.Foundations.Scanner
import Cserv.Http.Request

/-!
# The header parser

`http_parse_request_header` as a resumable scanner. The locals `state`, `hash`
and `i` are loaded from the request at every call and saved on the exits that
the source saves them on.
-/
namespace Cserv.Http

open Foundations

/-- The rows of the table `lowcase`: digits, letters and `-` in lower case, and
zero for every byte that no header name may hold. -/
def lowcaseTable : List UInt8 :=
  List.replicate 32 0 ++
  (List.replicate 13 0 ++ bytes "-" ++ List.replicate 2 0) ++
  (bytes "0123456789" ++ List.replicate 6 0) ++
  (0 :: bytes "abcdefghijklmnopqrstuvwxyz" ++ List.replicate 5 0) ++
  (0 :: bytes "abcdefghijklmnopqrstuvwxyz" ++ List.replicate 5 0) ++
  List.replicate 128 0

def lowcase (ch : UInt8) : UInt8 := lowcaseTable.getD ch.toNat 0

def HASH (key : UInt32) (c : UInt8) : UInt32 := key * 31 + c.toUInt32

inductive HeaderState
  | start | name | spaceBeforeValue | value | spaceAfterValue | almostDone | headerAlmostDone
  deriving DecidableEq, Repr

namespace HeaderState

def all : List HeaderState :=
  [start, name, spaceBeforeValue, value, spaceAfterValue, almostDone, headerAlmostDone]

def code (st : HeaderState) : ℕ := all.idxOf st

/-- Reading `r->state` back; only enumerators are ever stored there. -/
def ofCode (n : ℕ) : HeaderState := all.getD n start

@[simp] theorem ofCode_code (st : HeaderState) : ofCode st.code = st := by
  cases st <;> rfl

@[simp] theorem ofCode_zero : ofCode 0 = start := rfl

end HeaderState

/-- The locals of one call beside the request. -/
structure HeaderLocals where
  state : HeaderState
  hash : UInt32
  i : ℕ
  r : HttpRequest
  deriving DecidableEq, Repr

/-- How the loop is left: `goto done`, `goto header_done`, or `return code`. -/
inductive HeaderStop
  | done (l : HeaderLocals)
  | headerDone (l : HeaderLocals)
  | fail (code : ℤ) (l : HeaderLocals)
  deriving DecidableEq, Repr

abbrev HeaderVerdict := Verdict HeaderLocals HeaderStop

/-- `r->lowcase_header[i] = c`. -/
def storeLowcase (r : HttpRequest) (i : ℕ) (c : UInt8) : HttpRequest :=
  { r with
    lowcaseHeader := if i < HTTP_LC_HEADER_LEN then r.lowcaseHeader.set i c else r.lowcaseHeader
    lowcaseOverrun := r.lowcaseOverrun || decide (HTTP_LC_HEADER_LEN ≤ i) }

section Step

variable (p : ℕ) (ch : UInt8) (l : HeaderLocals)

def headerNext (st : HeaderState) (l : HeaderLocals) : HeaderVerdict := .next { l with state := st }
def headerFail (code : ℤ) (l : HeaderLocals) : HeaderVerdict := .stop (.fail code l)

def endName : HeaderLocals :=
  { l with r := { l.r with headerName.len := ptrSub p l.r.headerName.p } }

def noValue : HeaderLocals := { l with r := { l.r with headerValue := strInit } }

def endValue : HeaderLocals :=
  { l with r := { l.r with headerValue.len := ptrSub p l.r.headerValue.p } }

def stepHeaderStart : HeaderVerdict :=
  let l := { l with r := { l.r with headerName.p := some p, invalidHeader := false } }
  if ch = CR then headerNext .headerAlmostDone (endName p l)
  else if ch = LF then .stop (.headerDone (endName p l))
  else if lowcase ch ≠ 0 then
    headerNext .name
      { l with hash := HASH 0 (lowcase ch), r := storeLowcase l.r 0 (lowcase ch), i := 1 }
  else if ch = '\x00' then headerFail (-1) l
  else headerNext .name { l with r := { l.r with invalidHeader := true } }

def stepHeaderName : HeaderVerdict :=
  if lowcase ch ≠ 0 then
    headerNext .name { l with
      hash := HASH l.hash (lowcase ch)
      r := storeLowcase l.r l.i (lowcase ch)
      i := (l.i + 1) &&& (HTTP_LC_HEADER_LEN - 1) }
  else if ch = ':' then headerNext .spaceBeforeValue (endName p l)
  else if ch = CR then headerNext .almostDone (noValue (endName p l))
  else if ch = LF then .stop (.done (noValue (endName p l)))
  else if ch = '\x00' then headerFail (-2) l
  else headerNext .name { l with r := { l.r with invalidHeader := true } }

def stepSpaceBeforeValue : HeaderVerdict :=
  if ch = ' ' then headerNext .spaceBeforeValue l
  else if ch = CR then headerNext .almostDone (noValue l)
  else if ch = LF then .stop (.done (noValue l))
  else if ch = '\x00' then headerFail (-3) l
  else headerNext .value { l with r := { l.r with headerValue.p := some p } }

def stepValue : HeaderVerdict :=
  if ch = ' ' then headerNext .spaceAfterValue (endValue p l)
  else if ch = CR then headerNext .almostDone (endValue p l)
  else if ch = LF then .stop (.done (endValue p l))
  else if ch = '\x00' then headerFail (-4) l
  else headerNext .value l

def stepSpaceAfterValue : HeaderVerdict :=
  if ch = ' ' then headerNext .spaceAfterValue l
  else if ch = CR then headerNext .almostDone l
  else if ch = LF then .stop (.done l)
  else if ch = '\x00' then headerFail (-5) l
  else headerNext .value l

def stepHeaderLineAlmostDone : HeaderVerdict :=
  if ch = LF then .stop (.done l)
  else if ch = CR then headerNext .almostDone l
  else headerFail (-6) l

def stepHeaderAlmostDone : HeaderVerdict :=
  if ch = LF then .stop (.headerDone l) else headerFail (-7) l

end Step

/-- The body of the loop: `switch (state)` on the byte at `p`. -/
def headerStep (p : ℕ) (ch : UInt8) (l : HeaderLocals) : HeaderVerdict :=
  match l.state with
  | .start => stepHeaderStart p ch l
  | .name => stepHeaderName p ch l
  | .spaceBeforeValue => stepSpaceBeforeValue p ch l
  | .value => stepValue p ch l
  | .spaceAfterValue => stepSpaceAfterValue ch l
  | .almostDone => stepHeaderLineAlmostDone ch l
  | .headerAlmostDone => stepHeaderAlmostDone ch l

theorem headerStep_again (p : ℕ) (ch : UInt8) (l : HeaderLocals) :
    (headerStep p ch l).All (fun _ => True) (fun _ => False) (fun _ => True) := by
  unfold headerStep
  cases l.state <;> repeat' refine Verdict.All.ite (fun _ => ?_) (fun _ => ?_)
  all_goals trivial

/-- The loop of `http_parse_request_header`; it never gives a byte back. -/
def headerScanner : Scanner HeaderLocals HeaderStop where
  step := headerStep
  givesBack _ := false
  again_spec p ch l l' h := by
    have hall := headerStep_again p ch l
    rw [h] at hall
    exact hall.elim

def HeaderLocals.load (r : HttpRequest) : HeaderLocals :=
  ⟨HeaderState.ofCode r.state, r.headerHash, r.lowcaseIndex, r⟩

def HeaderLocals.save (l : HeaderLocals) (st : HeaderState) : HttpRequest :=
  { l.r with state := st.code, headerHash := l.hash, lowcaseIndex := l.i }

/-- `http_parse_request_header`: 0 for a complete line, 1 to continue, 100 at the
end of the header block, negative on errors. -/
def httpParseRequestHeader (r : HttpRequest) (b : Buffer) : ℤ × HttpRequest × Buffer :=
  match headerScanner.run b.pos (.load r) b.unread with
  | .more l => (1, l.save l.state, { b with pos := b.data.length })
  | .halt p (.done l) => (0, l.save .start, { b with pos := p + 1 })
  | .halt p (.headerDone l) => (100, { l.r with state := HeaderState.start.code },
      { b with pos := p + 1 })
  | .halt _ (.fail code l) => (code, l.r, b)

theorem headerStep_fail_neg (p : ℕ) (ch : UInt8) (l : HeaderLocals) :
    (headerStep p ch l).All (fun _ => True) (fun _ => True)
      (fun out => ∀ code l', out = .fail code l' → code < 0) := by
  unfold headerStep
  cases l.state <;> repeat' refine Verdict.All.ite (fun _ => ?_) (fun _ => ?_)
  all_goals
    first
    | trivial
    | intro code l' h
      cases h
      try decide

theorem headerRun_fail_neg {p q : ℕ} {l l' : HeaderLocals} {bs : List UInt8} {code : ℤ}
    (h : headerScanner.run p l bs = .halt q (.fail code l')) : code < 0 := by
  have hall := headerScanner.run_inv (fun _ _ => True)
    (fun _ out => ∀ code l', out = .fail code l' → code < 0) bs (p := p) (s := l)
    (fun q ch s _ _ _ => headerStep_fail_neg q ch s) trivial
  rw [h] at hall
  exact hall code l' rfl

theorem httpParseRequestHeader_cases (r : HttpRequest) (b : Buffer) :
    (∃ l, headerScanner.run b.pos (.load r) b.unread = .more l ∧
      httpParseRequestHeader r b = (1, l.save l.state, { b with pos := b.data.length })) ∨
    (∃ p l, headerScanner.run b.pos (.load r) b.unread = .halt p (.done l) ∧
      httpParseRequestHeader r b = (0, l.save .start, { b with pos := p + 1 })) ∨
    (∃ p l, headerScanner.run b.pos (.load r) b.unread = .halt p (.headerDone l) ∧
      httpParseRequestHeader r b =
        (100, { l.r with state := HeaderState.start.code }, { b with pos := p + 1 })) ∨
    ∃ p code l, headerScanner.run b.pos (.load r) b.unread = .halt p (.fail code l) ∧ code < 0 ∧
      httpParseRequestHeader r b = (code, l.r, b) := by
  unfold httpParseRequestHeader
  cases h : headerScanner.run b.pos (.load r) b.unread with
  | more l => exact Or.inl ⟨l, rfl, rfl⟩
  | halt p out =>
    cases out with
    | done l => exact Or.inr (Or.inl ⟨p, l, rfl, rfl⟩)
    | headerDone l => exact Or.inr (Or.inr (Or.inl ⟨p, l, rfl, rfl⟩))
    | fail code l => exact Or.inr (Or.inr (Or.inr ⟨p, code, l, rfl, headerRun_fail_neg h, rfl⟩))

theorem httpParseRequestHeader_code (r : HttpRequest) (b : Buffer) :
    (httpParseRequestHeader r b).1 = 1 ∨ (httpParseRequestHeader r b).1 = 0 ∨
      (httpParseRequestHeader r b).1 = 100 ∨ (httpParseRequestHeader r b).1 < 0 := by
  rcases httpParseRequestHeader_cases r b with ⟨l, -, he⟩ | ⟨p, l, -, he⟩ | ⟨p, l, -, he⟩ |
    ⟨p, code, l, -, hneg, he⟩ <;> rw [he]
  · exact Or.inl rfl
  · exact Or.inr (Or.inl rfl)
  · exact Or.inr (Or.inr (Or.inl rfl))
  · exact Or.inr (Or.inr (Or.inr hneg))

theorem httpParseRequestHeader_buffer (r : HttpRequest) (b : Buffer) :
    (httpParseRequestHeader r b).2.2.data = b.data ∧
      (httpParseRequestHeader r b).2.2.free = b.free := by
  rcases httpParseRequestHeader_cases r b with ⟨l, -, he⟩ | ⟨p, l, -, he⟩ | ⟨p, l, -, he⟩ |
    ⟨p, code, l, -, hneg, he⟩ <;> rw [he] <;> exact ⟨rfl, rfl⟩

theorem httpParseRequestHeader_zero {r r' : HttpRequest} {b b' : Buffer}
    (h : httpParseRequestHeader r b = (0, r', b')) : b.pos < b'.pos ∧ b'.pos ≤ b.data.length := by
  rcases httpParseRequestHeader_cases r b with ⟨l, hr, he⟩ | ⟨p, l, hr, he⟩ | ⟨p, l, hr, he⟩ |
    ⟨p, code, l, hr, hneg, he⟩ <;> rw [he] at h
  · simp at h
  · obtain ⟨-, -, rfl⟩ := by simpa using h
    have hp := headerScanner.run_halt_lt hr
    simp only [Buffer.unread, List.length_drop] at hp
    constructor <;> dsimp only <;> omega
  · simp at h
  · obtain ⟨rfl, -⟩ := Prod.mk.inj h
    omega

theorem httpParseRequestHeader_one {r r' : HttpRequest} {b b' : Buffer}
    (h : httpParseRequestHeader r b = (1, r', b')) :
    b' = { b with pos := b.data.length } := by
  rcases httpParseRequestHeader_cases r b with ⟨l, hr, he⟩ | ⟨p, l, hr, he⟩ | ⟨p, l, hr, he⟩ |
    ⟨p, code, l, hr, hneg, he⟩ <;> rw [he] at h
  · exact (Prod.mk.inj (Prod.mk.inj h).2).2.symm
  · simp at h
  · simp at h
  · obtain ⟨rfl, -⟩ := Prod.mk.inj h
    omega

end Cserv.Http
