import Cserv.Foundations.Scanner
import Cserv.Http.Request

/-!
# The request-line parser

`http_parse_request_line` as a resumable scanner. `lineStep` is the body of the
`switch`, with one branch for each state and each test of the source in its
order; the two `p--` are the verdict `again`, a fall-through is a call of the
next case's function. `goto done` and the error returns leave the loop.
-/
namespace Cserv.Http

open Foundations

/-- The words of the table `usual`, one bit for each byte. -/
def usual : List UInt32 :=
  [0xffffdbfe, 0x7fff37d6, 0xffffffff, 0xffffffff, 0xffffffff, 0xffffffff, 0xffffffff, 0xffffffff]

/-- `usual[ch >> 5] & (1 << (ch & 0x1f))`. -/
def isUsual (ch : UInt8) : Bool :=
  usual.getD (ch >>> 5).toNat 0 &&& (1 <<< (ch &&& 0x1f).toUInt32) != 0

inductive LineState
  | start | method | spacesBeforeUri | schema | schemaSlash | schemaSlashSlash | hostStart | host
  | hostEnd | hostIpLiteral | port | hostHttp09 | afterSlashInUri | checkUri | checkUriHttp09
  | uri | http09 | httpH | httpHT | httpHTT | httpHTTP | firstMajorDigit | majorDigit
  | firstMinorDigit | minorDigit | spacesAfterDigit | almostDone
  deriving DecidableEq, Repr

namespace LineState

/-- The enumerators in the order of the source, so that the index is the value. -/
def all : List LineState :=
  [start, method, spacesBeforeUri, schema, schemaSlash, schemaSlashSlash, hostStart, host,
    hostEnd, hostIpLiteral, port, hostHttp09, afterSlashInUri, checkUri, checkUriHttp09,
    uri, http09, httpH, httpHT, httpHTT, httpHTTP, firstMajorDigit, majorDigit,
    firstMinorDigit, minorDigit, spacesAfterDigit, almostDone]

def code (st : LineState) : ℕ := all.idxOf st

/-- Reading `r->state` back; only enumerators are ever stored there. -/
def ofCode (n : ℕ) : LineState := all.getD n start

@[simp] theorem ofCode_code (st : LineState) : ofCode st.code = st := by
  cases st <;> rfl

@[simp] theorem ofCode_zero : ofCode 0 = start := rfl

end LineState

/-- `get_request_method`; `cmp30` leaves out the second byte, tested before it. -/
def getRequestMethod (m : List UInt8) : HttpMethod :=
  let cmp30 (c0 c2 c3 : Char) : Bool :=
    m[0]? == some c0.toUInt8 && m[2]? == some c2.toUInt8 && m[3]? == some c3.toUInt8
  match m.length with
  | 3 =>
    if m = bytes "GET" then .get
    else if m = bytes "PUT" then .put
    else .unknown
  | 4 =>
    if m[1]? = some ('O' : UInt8) then
      if cmp30 'P' 'S' 'T' then .post
      else if cmp30 'C' 'P' 'Y' then .copy
      else if cmp30 'M' 'V' 'E' then .move
      else if cmp30 'L' 'C' 'K' then .lock
      else .unknown
    else if m = bytes "HEAD" then .head
    else .unknown
  | 5 =>
    if m = bytes "MKCOL" then .mkcol
    else if m = bytes "PATCH" then .patch
    else if m = bytes "TRACE" then .trace
    else .unknown
  | 6 =>
    if m = bytes "DELETE" then .delete
    else if m = bytes "UNLOCK" then .unlock
    else .unknown
  | 7 => if m = bytes "OPTIONS" then .options else .unknown
  | 8 => if m = bytes "PROPFIND" then .propfind else .unknown
  | 9 => if m = bytes "PROPPATCH" then .proppatch else .unknown
  | _ => .unknown

def isAlpha (ch : UInt8) : Bool :=
  let c := ch ||| 0x20
  decide (c ≥ 'a' ∧ c ≤ 'z')

def isDigit (ch : UInt8) : Bool := decide (ch ≥ '0' ∧ ch ≤ '9')

def isMethodByte (ch : UInt8) : Bool := ¬((ch < 'A' ∨ ch > 'Z') ∧ ch ≠ '_')

/-- The bytes `S_host_ip_literal` accepts without leaving the state. -/
def isLiteralByte (ch : UInt8) : Bool :=
  isDigit ch || isAlpha ch || (ch : UInt8) ∈ bytes ":-._~!$&'()*+,;="

/-- `ch - '0'` added to ten times a 16-bit bit-field. -/
def addDigit (n : ℕ) (ch : UInt8) : ℕ := (n * 10 + (ch.toNat - '0'.toNat)) % 2 ^ 16

/-- How the loop is left: `goto done`, or `return code`. -/
inductive LineStop
  | done (r : HttpRequest)
  | fail (code : ℤ) (r : HttpRequest)
  deriving DecidableEq, Repr

abbrev LineVerdict := Verdict (LineState × HttpRequest) LineStop

section Step

variable (p : ℕ) (ch : UInt8) (r : HttpRequest)

def lineNext (st : LineState) (r : HttpRequest) : LineVerdict := .next (st, r)
def lineFail (code : ℤ) (r : HttpRequest) : LineVerdict := .stop (.fail code r)

def lineLf : LineVerdict :=
  .stop (.done { r with requestLine.len := ptrSub p r.requestLine.p })

def stepStart : LineVerdict :=
  let r := { r with requestLine.p := some p }
  if ch = CR ∨ ch = LF then lineNext .start r
  else if isMethodByte ch then lineNext .method { r with methodName.p := some p }
  else lineFail (-1) r

def stepMethod (mem : List UInt8) : LineVerdict :=
  if ch = ' ' then
    let r := { r with methodName.len := ptrSub p r.methodName.p }
    let r := { r with method := getRequestMethod (r.methodName.get mem) }
    if r.method = .unknown then lineFail (-2) r else lineNext .spacesBeforeUri r
  else if isMethodByte ch then lineNext .method r
  else lineFail (-3) r

def stepSpacesBeforeUri : LineVerdict :=
  if ch = '/' then
    lineNext .afterSlashInUri
      { r with uri.p := some p, schema := strInit, host := strInit, port := strInit }
  else if isAlpha ch then lineNext .schema { r with schema.p := some p }
  else if ch = ' ' then lineNext .spacesBeforeUri r
  else lineFail (-4) r

def stepSchema : LineVerdict :=
  if isAlpha ch then lineNext .schema r
  else if ch = ':' then
    lineNext .schemaSlash { r with schema.len := ptrSub p r.schema.p }
  else lineFail (-5) r

/-- `r->uri.p = r->schema.p + r->schema.len + 1; r->uri.len = 1`: the first slash of
`://` stands for the missing path. -/
def lineNoPath : LineVerdict :=
  lineNext .hostHttp09 { r with uri := ⟨r.schema.p.map (· + r.schema.len + 1), 1⟩ }

def stepHostEnd : LineVerdict :=
  let r := { r with host.len := ptrSub p r.host.p }
  if ch = ':' then lineNext .port { r with port.p := some (p + 1) }
  else if ch = '/' then lineNext .afterSlashInUri { r with port := strInit, uri.p := some p }
  else if ch = ' ' then lineNoPath { r with port := strInit }
  else lineFail (-8) r

def stepHost : LineVerdict :=
  if isAlpha ch then lineNext .host r
  else if isDigit ch ∨ ch = '.' ∨ ch = '-' then lineNext .host r
  else stepHostEnd p ch r

def stepHostStart : LineVerdict :=
  let r := { r with host.p := some p }
  if ch = '[' then lineNext .hostIpLiteral r else stepHost p ch r

def stepHostIpLiteral : LineVerdict :=
  if isLiteralByte ch then lineNext .hostIpLiteral r
  else if ch = ']' then lineNext .hostEnd r
  else lineFail (-9) r

def stepPort : LineVerdict :=
  if isDigit ch then lineNext .port r
  else
    let r := { r with port.len := ptrSub p r.port.p }
    if ch = '/' then lineNext .afterSlashInUri { r with uri.p := some p }
    else if ch = ' ' then lineNoPath r
    else lineFail (-10) r

/-- The end of a line without a version, and the start of one with it: the cases
that `S_host_http_09`, `S_check_uri_http_09` and `S_http_09` share. -/
def stepSpaces (st : LineState) (other : LineVerdict) : LineVerdict :=
  if ch = ' ' then lineNext st r
  else if ch = CR then lineNext .almostDone { r with httpMinor := 9 }
  else if ch = LF then lineLf p { r with httpMinor := 9 }
  else if ch = 'H' then lineNext .httpH { r with httpProtocol.p := some p }
  else other

def stepHostHttp09 : LineVerdict := stepSpaces p ch r .hostHttp09 (lineFail (-11) r)

def stepCheckUriHttp09 : LineVerdict :=
  stepSpaces p ch r .checkUriHttp09 (.again (.checkUri, { r with spaceInUri := true }))

def stepHttp09 : LineVerdict :=
  stepSpaces p ch r .http09 (.again (.uri, { r with spaceInUri := true }))

def stepAfterSlashInUri : LineVerdict :=
  if isUsual ch then lineNext .checkUri r
  else if ch = ' ' then lineNext .checkUriHttp09 { r with uri.len := ptrSub p r.uri.p }
  else if ch = CR then
    lineNext .almostDone { r with uri.len := ptrSub p r.uri.p, httpMinor := 9 }
  else if ch = LF then lineLf p { r with uri.len := ptrSub p r.uri.p, httpMinor := 9 }
  else if ch = '.' then lineNext .uri { r with complexUri := true }
  else if ch = '%' then lineNext .uri { r with quotedUri := true }
  else if ch = '/' then lineNext .uri { r with complexUri := true }
  else if ch = '?' then lineNext .uri { r with args := some (p + 1) }
  else if ch = '#' then lineNext .uri { r with complexUri := true }
  else if ch = '+' then lineNext .afterSlashInUri { r with plusInUri := true }
  else if ch = '\x00' then lineFail (-12) r
  else lineNext .checkUri r

def stepCheckUri : LineVerdict :=
  if isUsual ch then lineNext .checkUri r
  else if ch = '/' then lineNext .afterSlashInUri { r with exten := strInit }
  else if ch = '.' then lineNext .checkUri { r with exten.p := some (p + 1) }
  else if ch = ' ' then lineNext .checkUriHttp09 { r with uri.len := ptrSub p r.uri.p }
  else if ch = CR then
    lineNext .almostDone { r with uri.len := ptrSub p r.uri.p, httpMinor := 9 }
  else if ch = LF then lineLf p { r with uri.len := ptrSub p r.uri.p, httpMinor := 9 }
  else if ch = '%' then lineNext .uri { r with quotedUri := true }
  else if ch = '?' then lineNext .uri { r with args := some (p + 1) }
  else if ch = '#' then lineNext .uri { r with complexUri := true }
  else if ch = '+' then lineNext .checkUri { r with plusInUri := true }
  else if ch = '\x00' then lineFail (-13) r
  else lineNext .checkUri r

def stepUri : LineVerdict :=
  if isUsual ch then lineNext .uri r
  else if ch = ' ' then lineNext .http09 { r with uri.len := ptrSub p r.uri.p }
  else if ch = CR then
    lineNext .almostDone { r with uri.len := ptrSub p r.uri.p, httpMinor := 9 }
  else if ch = LF then lineLf p { r with uri.len := ptrSub p r.uri.p, httpMinor := 9 }
  else if ch = '#' then lineNext .uri { r with complexUri := true }
  else if ch = '\x00' then lineFail (-14) r
  else lineNext .uri r

def stepExpect (c : UInt8) (st : LineState) (code : ℤ) : LineVerdict :=
  if ch = c then lineNext st r else lineFail code r

def stepFirstMajorDigit : LineVerdict :=
  if ch < '1' ∨ ch > '9' then lineFail (-19) r
  else lineNext .majorDigit { r with httpMajor := ch.toNat - '0'.toNat }

def stepMajorDigit : LineVerdict :=
  if ch = '.' then lineNext .firstMinorDigit r
  else if isDigit ch then lineNext .majorDigit { r with httpMajor := addDigit r.httpMajor ch }
  else lineFail (-20) r

def stepFirstMinorDigit : LineVerdict :=
  if isDigit ch then lineNext .minorDigit { r with httpMinor := ch.toNat - '0'.toNat }
  else lineFail (-21) r

def stepMinorDigit : LineVerdict :=
  let s := { r with httpProtocol.len := ptrSub p r.httpProtocol.p }
  if ch = CR then lineNext .almostDone s
  else if ch = LF then lineLf p s
  else if ch = ' ' then lineNext .spacesAfterDigit s
  else if isDigit ch then lineNext .minorDigit { r with httpMinor := addDigit r.httpMinor ch }
  else lineFail (-22) r

def stepSpacesAfterDigit : LineVerdict :=
  if ch = ' ' then lineNext .spacesAfterDigit r
  else if ch = CR then lineNext .almostDone r
  else if ch = LF then lineLf p r
  else lineFail (-23) r

/-- `r->request_line.len = p - r->request_line.p - 1` leaves the CR out. -/
def stepAlmostDone : LineVerdict :=
  let r := { r with requestLine.len := ptrSub p (r.requestLine.p.map (· + 1)) }
  if ch = LF then .stop (.done r) else lineFail (-24) r

end Step

/-- The body of the loop: `switch (state)` on the byte at `p`. -/
def lineStep (mem : List UInt8) (p : ℕ) (ch : UInt8) : LineState × HttpRequest → LineVerdict
  | (.start, r) => stepStart p ch r
  | (.method, r) => stepMethod p ch r mem
  | (.spacesBeforeUri, r) => stepSpacesBeforeUri p ch r
  | (.schema, r) => stepSchema p ch r
  | (.schemaSlash, r) => stepExpect ch r '/' .schemaSlashSlash (-6)
  | (.schemaSlashSlash, r) => stepExpect ch r '/' .hostStart (-7)
  | (.hostStart, r) => stepHostStart p ch r
  | (.host, r) => stepHost p ch r
  | (.hostEnd, r) => stepHostEnd p ch r
  | (.hostIpLiteral, r) => stepHostIpLiteral ch r
  | (.port, r) => stepPort p ch r
  | (.hostHttp09, r) => stepHostHttp09 p ch r
  | (.afterSlashInUri, r) => stepAfterSlashInUri p ch r
  | (.checkUri, r) => stepCheckUri p ch r
  | (.checkUriHttp09, r) => stepCheckUriHttp09 p ch r
  | (.uri, r) => stepUri p ch r
  | (.http09, r) => stepHttp09 p ch r
  | (.httpH, r) => stepExpect ch r 'T' .httpHT (-15)
  | (.httpHT, r) => stepExpect ch r 'T' .httpHTT (-16)
  | (.httpHTT, r) => stepExpect ch r 'P' .httpHTTP (-17)
  | (.httpHTTP, r) => stepExpect ch r '/' .firstMajorDigit (-18)
  | (.firstMajorDigit, r) => stepFirstMajorDigit ch r
  | (.majorDigit, r) => stepMajorDigit ch r
  | (.firstMinorDigit, r) => stepFirstMinorDigit ch r
  | (.minorDigit, r) => stepMinorDigit p ch r
  | (.spacesAfterDigit, r) => stepSpacesAfterDigit p ch r
  | (.almostDone, r) => stepAlmostDone p ch r

/-- The states behind a run of spaces, which may give a byte back. -/
def LineState.givesBack : LineState → Bool
  | .checkUriHttp09 | .http09 => true
  | _ => false

theorem lineStep_again (mem : List UInt8) (p : ℕ) (ch : UInt8) (st : LineState)
    (r : HttpRequest) :
    (lineStep mem p ch (st, r)).All (fun _ => True)
      (fun s' => st.givesBack = true ∧ s'.1.givesBack = false) (fun _ => True) := by
  cases st <;> repeat' refine Verdict.All.ite (fun _ => ?_) (fun _ => ?_)
  all_goals trivial

/-- The loop of `http_parse_request_line` over a buffer with the bytes `mem`. -/
def lineScanner (mem : List UInt8) : Scanner (LineState × HttpRequest) LineStop where
  step := lineStep mem
  givesBack s := s.1.givesBack
  again_spec p ch s s' h := by
    have hall := lineStep_again mem p ch s.1 s.2
    rwa [h] at hall

def lineFinish (r : HttpRequest) : HttpRequest :=
  let r := { r with
    exten.len := if r.exten.p.isSome then ptrSub (r.uri.p.getD 0 + r.uri.len) r.exten.p
      else r.exten.len }
  let r := { r with httpMajor := if r.httpMinor = 9 then 0 else r.httpMajor }
  { r with httpVersion := r.httpMajor * 1000 + r.httpMinor, state := LineState.start.code }

/-- The code at the label `done`, for a line whose last byte is at `p`. -/
def lineDone (p : ℕ) (r : HttpRequest) (b : Buffer) : ℤ × HttpRequest × Buffer :=
  (if (lineFinish r).httpVersion = 9 ∧ (lineFinish r).method ≠ .get then -25 else 0,
    lineFinish r, { b with pos := p + 1 })

/-- `http_parse_request_line`: 0 for a complete line, 1 to continue, negative on errors. -/
def httpParseRequestLine (r : HttpRequest) (b : Buffer) : ℤ × HttpRequest × Buffer :=
  match (lineScanner b.data).run b.pos (LineState.ofCode r.state, r) b.unread with
  | .more (st, r) => (1, { r with state := st.code }, { b with pos := b.data.length })
  | .halt p (.done r) => lineDone p r b
  | .halt _ (.fail code r) => (code, r, b)

theorem lineStep_fail_neg (mem : List UInt8) (p : ℕ) (ch : UInt8) (s : LineState × HttpRequest) :
    (lineStep mem p ch s).All (fun _ => True) (fun _ => True)
      (fun out => ∀ code r, out = .fail code r → code < 0) := by
  obtain ⟨st, r⟩ := s
  cases st <;> repeat' refine Verdict.All.ite (fun _ => ?_) (fun _ => ?_)
  all_goals
    first
    | trivial
    | intro code r h
      cases h
      try decide

theorem lineRun_fail_neg {mem : List UInt8} {p q : ℕ} {s : LineState × HttpRequest}
    {bs : List UInt8} {code : ℤ} {r : HttpRequest}
    (h : (lineScanner mem).run p s bs = .halt q (.fail code r)) : code < 0 := by
  have hall := (lineScanner mem).run_inv (fun _ _ => True)
    (fun _ out => ∀ code r, out = .fail code r → code < 0) bs (p := p) (s := s)
    (fun q ch s _ _ _ => lineStep_fail_neg mem q ch s) trivial
  rw [h] at hall
  exact hall code r rfl

theorem httpParseRequestLine_cases (r : HttpRequest) (b : Buffer) :
    (∃ st r', (lineScanner b.data).run b.pos (LineState.ofCode r.state, r) b.unread =
        .more (st, r') ∧
      httpParseRequestLine r b =
        (1, { r' with state := st.code }, { b with pos := b.data.length })) ∨
    (∃ p r', (lineScanner b.data).run b.pos (LineState.ofCode r.state, r) b.unread =
        .halt p (.done r') ∧ httpParseRequestLine r b = lineDone p r' b) ∨
    ∃ p code r', (lineScanner b.data).run b.pos (LineState.ofCode r.state, r) b.unread =
        .halt p (.fail code r') ∧ code < 0 ∧ httpParseRequestLine r b = (code, r', b) := by
  unfold httpParseRequestLine
  cases h : (lineScanner b.data).run b.pos (LineState.ofCode r.state, r) b.unread with
  | more s => exact Or.inl ⟨s.1, s.2, rfl, rfl⟩
  | halt p out =>
    cases out with
    | done r' => exact Or.inr (Or.inl ⟨p, r', rfl, rfl⟩)
    | fail code r' => exact Or.inr (Or.inr ⟨p, code, r', rfl, lineRun_fail_neg h, rfl⟩)

theorem lineDone_nonpos (p : ℕ) (r : HttpRequest) (b : Buffer) : (lineDone p r b).1 ≤ 0 := by
  unfold lineDone
  dsimp only
  split_ifs <;> decide

theorem httpParseRequestLine_nonpos {r : HttpRequest} {b : Buffer}
    (h : (httpParseRequestLine r b).1 ≠ 1) : (httpParseRequestLine r b).1 ≤ 0 := by
  rcases httpParseRequestLine_cases r b with ⟨st, r', -, he⟩ | ⟨p, r', -, he⟩ |
    ⟨p, code, r', -, hneg, he⟩
  · exact absurd (by rw [he]) h
  · rw [he]
    exact lineDone_nonpos p r' b
  · rw [he]
    exact hneg.le

theorem httpParseRequestLine_buffer (r : HttpRequest) (b : Buffer) :
    (httpParseRequestLine r b).2.2.data = b.data ∧ (httpParseRequestLine r b).2.2.free = b.free := by
  rcases httpParseRequestLine_cases r b with ⟨st, r', -, he⟩ | ⟨p, r', -, he⟩ |
    ⟨p, code, r', -, -, he⟩ <;> rw [he]
  · exact ⟨rfl, rfl⟩
  · exact ⟨rfl, rfl⟩
  · exact ⟨rfl, rfl⟩

theorem httpParseRequestLine_zero {r r' : HttpRequest} {b b' : Buffer}
    (h : httpParseRequestLine r b = (0, r', b')) : r'.state = 0 ∧ b'.pos ≤ b.data.length := by
  rcases httpParseRequestLine_cases r b with ⟨st, r₁, -, he⟩ | ⟨p, r₁, hr, he⟩ |
    ⟨p, code, r₁, -, hneg, he⟩ <;> rw [he] at h
  · simp at h
  · obtain ⟨rfl, rfl⟩ := Prod.mk.inj (Prod.mk.inj h).2
    have hp := (lineScanner b.data).run_halt_lt hr
    simp only [Buffer.unread, List.length_drop] at hp
    exact ⟨rfl, by dsimp only; omega⟩
  · obtain ⟨rfl, -⟩ := Prod.mk.inj h
    omega

end Cserv.Http
