import Cserv.Http.Process

/-!
# What a recycled request object leaks

`http_request_handler` gets its object from a cache and initialises only some of
its fields. Every run is compared with the run of a blank object on the same
connection: the two take the same steps, and at every state agree on the fields
that have been written by then. What is left at the call of
`request_body_handler` are the four URI flags, which are only ever set, `content`,
which an HTTP/0.9 request never writes, and the index `lowcase_index`, which may
point behind its array.
-/
namespace Cserv.Http

open Foundations Util

/-! ## The request line -/

namespace LineState

def methodSeen : LineState → Bool
  | .start => false
  | _ => true

def methodDone : LineState → Bool
  | .start | .method => false
  | _ => true

def schemaSeen : LineState → Bool
  | .start | .method | .spacesBeforeUri => false
  | _ => true

def schemaDone : LineState → Bool
  | .start | .method | .spacesBeforeUri | .schema => false
  | _ => true

def hostSeen : LineState → Bool
  | .start | .method | .spacesBeforeUri | .schema | .schemaSlash | .schemaSlashSlash
  | .hostStart => false
  | _ => true

def hostDone : LineState → Bool
  | .start | .method | .spacesBeforeUri | .schema | .schemaSlash | .schemaSlashSlash
  | .hostStart | .host | .hostEnd | .hostIpLiteral => false
  | _ => true

def portDone : LineState → Bool
  | .start | .method | .spacesBeforeUri | .schema | .schemaSlash | .schemaSlashSlash
  | .hostStart | .host | .hostEnd | .hostIpLiteral | .port => false
  | _ => true

def uriDone : LineState → Bool
  | .start | .method | .spacesBeforeUri | .schema | .schemaSlash | .schemaSlashSlash
  | .hostStart | .host | .hostEnd | .hostIpLiteral | .port | .afterSlashInUri | .checkUri
  | .uri => false
  | _ => true

def majorSeen : LineState → Bool
  | .majorDigit | .firstMinorDigit | .minorDigit | .spacesAfterDigit => true
  | _ => false

def minorSeen : LineState → Bool
  | .minorDigit | .spacesAfterDigit | .almostDone => true
  | _ => false

end LineState

/-- A field that has been written is that of `r`, another that of `v`. -/
def Str.merge (p len : Bool) (v r : Str) : Str := ⟨cond p r.p v.p, cond len r.len v.len⟩

/-- The request `r` of the blank run in state `st`, with what memory `g` held in the
flags and `v` in the fields that have not been written yet. -/
def lineMerge (g v : HttpRequest) (st : LineState) (r : HttpRequest) : HttpRequest :=
  { r with
    methodName := Str.merge st.methodSeen st.methodDone v.methodName r.methodName
    method := cond st.methodDone r.method v.method
    schema := Str.merge st.schemaSeen st.schemaDone v.schema r.schema
    host := Str.merge st.hostSeen st.hostDone v.host r.host
    port := Str.merge st.hostDone st.portDone v.port r.port
    uri := Str.merge st.portDone st.uriDone v.uri r.uri
    httpMajor := cond st.majorSeen r.httpMajor v.httpMajor
    httpMinor := cond st.minorSeen r.httpMinor v.httpMinor
    httpVersion := v.httpVersion
    complexUri := r.complexUri || g.complexUri
    quotedUri := r.quotedUri || g.quotedUri
    plusInUri := r.plusInUri || g.plusInUri
    spaceInUri := r.spaceInUri || g.spaceInUri
    content := v.content
    headerName := v.headerName
    headerValue := v.headerValue
    invalidHeader := v.invalidHeader
    headerHash := v.headerHash
    lowcaseIndex := v.lowcaseIndex
    lowcaseHeader := v.lowcaseHeader }

/-- The fields in which the line parser leaves what memory held: `g` in one run, the
blank object with an index just out of range in the other. -/
def LineLeft (g t r : HttpRequest) : Prop :=
  (t.content = g.content ∧ r.content = strInit) ∧ t.lowcaseIndex = g.lowcaseIndex ∧
    r.lowcaseIndex = HTTP_LC_HEADER_LEN ∧ r.lowcaseOverrun = false

/-- A run beside the blank one. At the end of the line `http_major` has been written
unless `http_minor` is 9. -/
def LineTwin (g : HttpRequest) (s t : LineState × HttpRequest) : Prop :=
  ∃ v, LineLeft g v s.2 ∧
    (s.1 = .almostDone → s.2.httpMinor ≠ 9 → v.httpMajor = s.2.httpMajor) ∧
    t = (s.1, lineMerge g v s.1 s.2)

theorem LineTwin.of_eq {g r t : HttpRequest} {st : LineState} (h : t = lineMerge g t st r)
    (hl : LineLeft g t r)
    (hm : st = .almostDone → r.httpMinor ≠ 9 → t.httpMajor = r.httpMajor) :
    LineTwin g (st, r) (st, t) :=
  ⟨t, hl, hm, congrArg (Prod.mk st) h⟩

theorem LineTwin.of_ne {g r t : HttpRequest} {st : LineState} (hst : (st == .almostDone) = false)
    (h : t = lineMerge g t st r) (hl : LineLeft g t r) : LineTwin g (st, r) (st, t) :=
  .of_eq h hl fun heq => by simp [heq] at hst

def LineStopTwin (g : HttpRequest) : LineStop → LineStop → Prop
  | .done r, .done r' => LineTwin g (.almostDone, r) (.almostDone, r')
  | .fail code _, .fail code' _ => code' = code
  | _, _ => False

theorem lineStep_twin (mem : List UInt8) (p : ℕ) (ch : UInt8) {g : HttpRequest}
    {s t : LineState × HttpRequest} (h : LineTwin g s t) :
    Verdict.Rel (LineTwin g) (LineTwin g) (LineStopTwin g) (lineStep mem p ch s)
      (lineStep mem p ch t) := by
  obtain ⟨st, r⟩ := s
  obtain ⟨v, hl, hm, rfl⟩ := h
  cases st <;> repeat' refine Verdict.Rel.ite (fun _ => ?_) (fun _ => ?_)
  -- both runs get a verdict of the same kind, and go on with requests that are twins
  all_goals
    first
    | refine .next ?_
    | refine .stop ?_
    | refine .again ?_
  all_goals
    first
    | exact rfl
    | exact LineTwin.of_ne rfl rfl hl
    | exact LineTwin.of_eq rfl hl (fun _ hne => absurd rfl hne)
    | exact LineTwin.of_eq rfl hl (fun _ _ => rfl)
    | exact LineTwin.of_eq rfl hl hm

theorem lineRun_twin (mem : List UInt8) (p : ℕ) (bs : List UInt8) {g : HttpRequest}
    {s t : LineState × HttpRequest} (h : LineTwin g s t) :
    Scan.Rel (LineTwin g) (fun _ => LineStopTwin g) ((lineScanner mem).run p s bs)
      ((lineScanner mem).run p t bs) := by
  apply Scanner.run_rel _ _ (fun _ => LineTwin g)
  · intro q ch s t _ _ hst
    exact lineStep_twin mem q ch hst
  · exact h

/-! ## The header lines -/

namespace HeaderState

def nameSeen : HeaderState → Bool
  | .start | .headerAlmostDone => false
  | _ => true

def nameDone : HeaderState → Bool
  | .start | .name | .headerAlmostDone => false
  | _ => true

def valueSeen : HeaderState → Bool
  | .value | .spaceAfterValue | .almostDone => true
  | _ => false

def valueDone : HeaderState → Bool
  | .spaceAfterValue | .almostDone => true
  | _ => false

end HeaderState

/-- The request `r` of the blank run in state `st` of the header parser, with what memory
`g` held in the flags and `v` in the fields that have not been written. -/
def headerMerge (g v : HttpRequest) (st : HeaderState) (r : HttpRequest) : HttpRequest :=
  { r with
    methodName := v.methodName
    complexUri := r.complexUri || g.complexUri
    quotedUri := r.quotedUri || g.quotedUri
    plusInUri := r.plusInUri || g.plusInUri
    spaceInUri := r.spaceInUri || g.spaceInUri
    content := v.content
    headerName := Str.merge st.nameSeen st.nameDone v.headerName r.headerName
    headerValue := Str.merge st.valueSeen st.valueDone v.headerValue r.headerValue
    invalidHeader := cond st.nameSeen r.invalidHeader v.invalidHeader
    headerHash := v.headerHash
    lowcaseIndex := v.lowcaseIndex
    lowcaseHeader := v.lowcaseHeader
    lowcaseOverrun := v.lowcaseOverrun }

/-- The index into `lowcase_header`: in range in both runs, or still what memory held,
which in the blank run is the first value out of range. -/
def IndexTwin (g : HttpRequest) (i j : ℕ) : Prop :=
  i < HTTP_LC_HEADER_LEN ∧ j < HTTP_LC_HEADER_LEN ∨ i = HTTP_LC_HEADER_LEN ∧ j = g.lowcaseIndex

/-- A run stores out of range where the blank one does, if memory held such an index. -/
def OverrunTwin (g : HttpRequest) (o o' : Bool) : Prop :=
  o' = (o && decide (HTTP_LC_HEADER_LEN ≤ g.lowcaseIndex))

/-- The requests of a run and of the blank one in state `st` of the header parser. -/
def RequestTwin (g : HttpRequest) (st : HeaderState) (r r' : HttpRequest) : Prop :=
  (r'.content = g.content ∧ r.content = strInit) ∧ IndexTwin g r.lowcaseIndex r'.lowcaseIndex ∧
    OverrunTwin g r.lowcaseOverrun r'.lowcaseOverrun ∧ r' = headerMerge g r' st r

/-- The locals of a run and of the blank one; the hash counts for valid names only. -/
structure HeaderTwin (g : HttpRequest) (l m : HeaderLocals) : Prop where
  state : m.state = l.state
  request : RequestTwin g l.state l.r m.r
  index : IndexTwin g l.i m.i
  hash : l.state.nameSeen → l.r.invalidHeader = false → m.hash = l.hash

def HeaderStopTwin (g : HttpRequest) : HeaderStop → HeaderStop → Prop
  | .done l, .done m => RequestTwin g .almostDone l.r m.r ∧ IndexTwin g l.i m.i ∧
      (l.r.invalidHeader = false → m.hash = l.hash)
  | .headerDone l, .headerDone m => RequestTwin g .start l.r m.r
  | .fail code _, .fail code' _ => code' = code
  | _, _ => False

theorem overrunTwin_store {g : HttpRequest} {o o' : Bool} {i j : ℕ} (h : OverrunTwin g o o')
    (hij : IndexTwin g i j) :
    OverrunTwin g (o || decide (HTTP_LC_HEADER_LEN ≤ i)) (o' || decide (HTTP_LC_HEADER_LEN ≤ j)) := by
  unfold OverrunTwin at *
  subst h
  rcases hij with ⟨hi, hj⟩ | ⟨rfl, rfl⟩
  · simp [Nat.not_le.mpr hi, Nat.not_le.mpr hj]
  · cases o <;> simp

theorem indexTwin_next (g : HttpRequest) (i j : ℕ) :
    IndexTwin g ((i + 1) &&& (HTTP_LC_HEADER_LEN - 1)) ((j + 1) &&& (HTTP_LC_HEADER_LEN - 1)) :=
  Or.inl ⟨Nat.lt_succ_of_le Nat.and_le_right, Nat.lt_succ_of_le Nat.and_le_right⟩

theorem indexTwin_of_lt {g : HttpRequest} {i : ℕ} (h : i < HTTP_LC_HEADER_LEN) : IndexTwin g i i :=
  Or.inl ⟨h, h⟩

theorem headerStep_twin (p : ℕ) (ch : UInt8) {g : HttpRequest} {l m : HeaderLocals}
    (h : HeaderTwin g l m) :
    Verdict.Rel (HeaderTwin g) (HeaderTwin g) (HeaderStopTwin g) (headerStep p ch l)
      (headerStep p ch m) := by
  obtain ⟨st, hash, i, r⟩ := l
  obtain ⟨st', hash', j, r'⟩ := m
  obtain ⟨hst, ⟨hc, hi, ho, hr⟩, hij, hh⟩ := h
  dsimp only at hst hc hi ho hr hij hh
  subst hst
  obtain ⟨v, rfl⟩ : ∃ v, r' = headerMerge g v st' r := ⟨r', hr⟩
  clear hr
  have hzero : IndexTwin g 0 0 := indexTwin_of_lt (by decide)
  have hone : IndexTwin g 1 1 := indexTwin_of_lt (by decide)
  cases st' <;> repeat' refine Verdict.Rel.ite (fun _ => ?_) (fun _ => ?_)
  case start.refine_1 => exact .next ⟨rfl, ⟨hc, hi, ho, rfl⟩, hij, nofun⟩
  case start.refine_2.refine_1 =>
    exact .stop (show RequestTwin g .start _ _ from ⟨hc, hi, ho, rfl⟩)
  case start.refine_2.refine_2.refine_1 =>
    exact .next ⟨rfl, ⟨hc, hi, overrunTwin_store ho hzero, rfl⟩, hone, fun _ _ => rfl⟩
  case start.refine_2.refine_2.refine_2.refine_2 =>
    exact .next ⟨rfl, ⟨hc, hi, ho, rfl⟩, hij, fun _ hinv => Bool.noConfusion hinv⟩
  case name.refine_1 =>
    refine .next ⟨rfl, ⟨hc, hi, overrunTwin_store ho hij, rfl⟩, indexTwin_next g i j, ?_⟩
    exact fun _ hinv => congrArg (HASH · (lowcase ch)) (hh rfl hinv)
  case name.refine_2.refine_2.refine_2.refine_2.refine_2 =>
    exact .next ⟨rfl, ⟨hc, hi, ho, rfl⟩, hij, fun _ hinv => Bool.noConfusion hinv⟩
  all_goals
    first
    | exact .stop rfl
    | exact .next ⟨rfl, ⟨hc, hi, ho, rfl⟩, hij, hh⟩
    | exact .stop ⟨⟨hc, hi, ho, rfl⟩, hij, hh rfl⟩
    | exact .stop (show RequestTwin g .start _ _ from ⟨hc, hi, ho, rfl⟩)

theorem headerRun_twin (p : ℕ) (bs : List UInt8) {g : HttpRequest} {l m : HeaderLocals}
    (h : HeaderTwin g l m) :
    Scan.Rel (HeaderTwin g) (fun _ => HeaderStopTwin g) (headerScanner.run p l bs)
      (headerScanner.run p m bs) := by
  apply Scanner.run_rel _ _ (fun _ => HeaderTwin g)
  · intro q ch l m _ _ hlm
    exact headerStep_twin q ch hlm
  · exact h

/-! ## Connections -/

/-- Two connections on the same bytes and with the same received ones. Their buffers
have the same size, or room for all that is to come. -/
def ConnTwin (c d : Conn) : Prop :=
  d.sock = c.sock ∧ d.b.data = c.b.data ∧ d.b.pos = c.b.pos ∧
    (d.b.free.length = c.b.free.length ∨
      (sockBytes c.sock).length ≤ c.b.free.length ∧ (sockBytes c.sock).length ≤ d.b.free.length)

theorem ConnTwin.set {c d : Conn} (h : ConnTwin c d) {r r' : HttpRequest} {b b' : Buffer}
    (hdata : b'.data = b.data) (hpos : b'.pos = b.pos) (hfree : b.free = c.b.free)
    (hfree' : b'.free = d.b.free) : ConnTwin (c.set (r, b)) (d.set (r', b')) := by
  obtain ⟨hsock, -, -, hroom⟩ := h
  refine ⟨hsock, hdata, hpos, ?_⟩
  simp only [Conn.set, hfree, hfree']
  exact hroom

/-- Both calls return 0 and leave connections related by `P`, or both fail. -/
def BothOk (P : Conn → Conn → Prop) (x y : ℤ × Conn) : Prop :=
  (∃ c d, x = (0, c) ∧ y = (0, d) ∧ P c d) ∨ x.1 ≠ 0 ∧ y.1 ≠ 0

theorem recvHttpRequest_twin {c d : Conn} (h : ConnTwin c d) :
    BothOk (fun c' d' => ConnTwin c' d' ∧ c'.r = c.r ∧ d'.r = d.r) (recvHttpRequest c)
      (recvHttpRequest d) := by
  obtain ⟨hsock, hdata, hpos, hroom⟩ := h
  by_cases hc : (recvHttpRequest c).1 = 0
  · left
    obtain ⟨bs, rest, hfree, hs, hbs, hc'⟩ :=
      recvHttpRequest_zero_iff.mp (Prod.ext hc rfl : recvHttpRequest c = (0, _))
    have hlen : (sockBytes c.sock).length = bs.length + (sockBytes rest).length := by
      simp [hs, sockBytes, hbs]
    have hbs' : 0 < bs.length := List.length_pos_iff.mpr hbs
    have hfree' : 0 < c.b.free.length := List.length_pos_iff.mpr hfree
    have hfreed : d.b.free ≠ [] := List.length_pos_iff.mp (by omega)
    refine ⟨c.take bs rest, d.take bs rest, ?_, ?_, ?_, rfl, rfl⟩
    · exact recvHttpRequest_zero_iff.mpr ⟨bs, rest, hfree, hs, hbs, rfl⟩
    · exact recvHttpRequest_zero_iff.mpr ⟨bs, rest, hfreed, hsock.trans hs, hbs, rfl⟩
    · rcases hroom with heq | ⟨hle, hle'⟩
      · refine ⟨?_, ?_, ?_, Or.inl ?_⟩
        · simp only [Conn.take, heq]
        · simp only [Conn.take, Buffer.append, heq, hdata]
        · exact hpos
        · simp [Conn.take, Buffer.append, heq]
      · have hall : bs.drop c.b.free.length = [] := List.drop_eq_nil_of_le (by omega)
        have halld : bs.drop d.b.free.length = [] := List.drop_eq_nil_of_le (by omega)
        refine ⟨?_, ?_, hpos, Or.inr ?_⟩
        · simp only [Conn.take, hall, halld, if_true]
        · simp only [Conn.take, Buffer.append, hdata]
          rw [List.take_of_length_le (by omega), List.take_of_length_le (by omega)]
        · simp only [Conn.take, Buffer.append, hall, if_true, List.length_drop, List.length_take]
          omega
  · right
    refine ⟨hc, ?_⟩
    intro hd
    obtain ⟨got, hne, hle, hbytes, -, -⟩ := recvHttpRequest_zero (Prod.ext hd rfl)
    have hpos : 0 < got.length := List.length_pos_iff.mpr hne
    have hlen := congrArg List.length hbytes
    rw [hsock, List.length_append] at hlen
    rcases recvHttpRequest_ne_zero hc with hfree | hnil
    · rw [hfree, List.length_nil] at hroom
      omega
    · rw [hnil, List.length_nil] at hlen
      omega

theorem lineFinish_twin {g r r' : HttpRequest} (h : LineTwin g (.almostDone, r) (.almostDone, r')) :
    RequestTwin g .start (lineFinish r) (lineFinish r') := by
  obtain ⟨v, ⟨hc, hi, hr, ho⟩, hm, h⟩ := h
  obtain rfl : r' = lineMerge g v .almostDone r := (Prod.mk.inj h).2
  dsimp only at hr ho hm
  refine ⟨hc, Or.inr ⟨hr, hi⟩, ?_, ?_⟩
  · simp [OverrunTwin, lineFinish, lineMerge, ho]
  · by_cases h9 : r.httpMinor = 9
    · simp only [lineFinish, lineMerge, LineState.minorSeen, cond_true, h9, if_true]
      rfl
    · simp only [lineFinish, lineMerge, LineState.majorSeen, cond_false, hm rfl h9]
      rfl

section Line

variable {g : HttpRequest}

theorem httpParseRequestLine_twin {r r' : HttpRequest} {b b' : Buffer} (hdata : b'.data = b.data)
    (hpos : b'.pos = b.pos)
    (h : LineTwin g (LineState.ofCode r.state, r) (LineState.ofCode r'.state, r')) :
    (httpParseRequestLine r' b').1 = (httpParseRequestLine r b).1 ∧
    (httpParseRequestLine r' b').2.2.pos = (httpParseRequestLine r b).2.2.pos ∧
    ((httpParseRequestLine r b).1 = 1 →
      LineTwin g (LineState.ofCode (httpParseRequestLine r b).2.1.state,
          (httpParseRequestLine r b).2.1)
        (LineState.ofCode (httpParseRequestLine r' b').2.1.state,
          (httpParseRequestLine r' b').2.1)) ∧
    ((httpParseRequestLine r b).1 = 0 →
      RequestTwin g .start (httpParseRequestLine r b).2.1 (httpParseRequestLine r' b').2.1) := by
  have hunread : b'.unread = b.unread := by simp only [Buffer.unread, hdata, hpos]
  have hrel := lineRun_twin b.data b.pos b.unread h
  unfold httpParseRequestLine
  rw [hdata, hpos, hunread]
  cases hx : (lineScanner b.data).run b.pos (LineState.ofCode r.state, r) b.unread <;>
    cases hy : (lineScanner b.data).run b.pos (LineState.ofCode r'.state, r') b.unread <;>
    rw [hx, hy] at hrel <;> cases hrel
  case more.more.more s t hst =>
    obtain ⟨st, r₁⟩ := s
    obtain ⟨v, hl, hm, rfl⟩ := hst
    refine ⟨rfl, rfl, fun _ => ?_, fun h0 => absurd h0 (by simp)⟩
    simp only [LineState.ofCode_code]
    exact ⟨v, hl, hm, rfl⟩
  case halt.halt.halt p x y hxy =>
    cases x with
    | done r₁ =>
      cases y with
      | done r₂ =>
        have hfin := lineFinish_twin hxy
        have hver : (lineFinish r₂).httpVersion = (lineFinish r₁).httpVersion :=
          (congrArg HttpRequest.httpVersion hfin.2.2.2).trans rfl
        have hmethod : (lineFinish r₂).method = (lineFinish r₁).method :=
          (congrArg HttpRequest.method hfin.2.2.2).trans rfl
        have hnonpos := lineDone_nonpos p r₁ b
        have hne : (lineDone p r₁ b).1 ≠ 1 := by omega
        refine ⟨?_, rfl, fun h1 => absurd h1 hne, fun _ => hfin⟩
        simp only [lineDone, hver, hmethod]
      | fail code r₂ => exact hxy.elim
    | fail code r₁ =>
      cases y with
      | done r₂ => exact hxy.elim
      | fail code' r₂ =>
        have hneg := lineRun_fail_neg hx
        exact ⟨hxy, hpos, fun h1 => by simp at h1; omega, fun h0 => by simp at h0; omega⟩

theorem httpProcessRequestLine_twin {c d : Conn} (hcd : ConnTwin c d)
    (h : LineTwin g (LineState.ofCode c.r.state, c.r) (LineState.ofCode d.r.state, d.r)) :
    BothOk (fun c' d' => ConnTwin c' d' ∧ RequestTwin g .start c'.r d'.r)
      (httpProcessRequestLine c) (httpProcessRequestLine d) := by
  induction hn : c.b.free.length using Nat.strong_induction_on generalizing c d with
  | _ n ih =>
  rcases recvHttpRequest_twin hcd with ⟨c₁, d₁, hc, hd, hcd₁, hcr, hdr⟩ | ⟨hc, hd⟩
  · rw [← hcr, ← hdr] at h
    obtain ⟨hcode, hpos, hmore, hdone⟩ := httpParseRequestLine_twin hcd₁.2.1 hcd₁.2.2.1 h
    obtain ⟨hdatac, hfreec⟩ := httpParseRequestLine_buffer c₁.r c₁.b
    obtain ⟨hdatad, hfreed⟩ := httpParseRequestLine_buffer d₁.r d₁.b
    have hset : ConnTwin (c₁.set (httpParseRequestLine c₁.r c₁.b).2)
        (d₁.set (httpParseRequestLine d₁.r d₁.b).2) :=
      hcd₁.set (hdatad.trans (hcd₁.2.1.trans hdatac.symm)) hpos hfreec hfreed
    rw [httpProcessRequestLine_recv hc, httpProcessRequestLine_recv hd, hcode]
    split_ifs with hzero hgt
    · exact Or.inl ⟨_, _, rfl, rfl, hset, hdone hzero⟩
    · have hone : (httpParseRequestLine c₁.r c₁.b).1 = 1 := by
        by_contra hne
        have hle := httpParseRequestLine_nonpos hne
        omega
      apply ih _ _ hset (hmore hone) rfl
      simp only [Conn.set, hfreec]
      exact hn ▸ recvHttpRequest_free_lt hc
    · exact Or.inr ⟨by simp, by simp⟩
  · right
    rw [httpProcessRequestLine_recv_ne hc, httpProcessRequestLine_recv_ne hd]
    decide

end Line

section Header

variable {g : HttpRequest}

theorem RequestTwin.save {l m : HeaderLocals} {st st' : HeaderState}
    (h : RequestTwin g st l.r m.r) (hij : IndexTwin g l.i m.i) :
    RequestTwin g st (l.save st') (m.save st') := by
  obtain ⟨hc, -, ho, hr⟩ := h
  refine ⟨hc, hij, ho, ?_⟩
  simp only [HeaderLocals.save]
  rw [hr]
  cases st <;> rfl

theorem HeaderTwin.load_save {l m : HeaderLocals} (h : HeaderTwin g l m) :
    HeaderTwin g (.load (l.save l.state)) (.load (m.save m.state)) := by
  have hreq : RequestTwin g l.state (l.save l.state) (m.save l.state) := h.request.save h.index
  rw [h.state]
  refine ⟨rfl, ?_, h.index, ?_⟩
  · simpa [HeaderLocals.load, HeaderLocals.save] using hreq
  · simpa [HeaderLocals.load, HeaderLocals.save] using h.hash

theorem RequestTwin.start {r r' : HttpRequest} {st : HeaderState} (h : RequestTwin g st r r') :
    RequestTwin g .start r r' := by
  obtain ⟨hc, hi, ho, hr⟩ := h
  obtain ⟨v, rfl⟩ : ∃ v, r' = headerMerge g v st r := ⟨r', hr⟩
  exact ⟨hc, hi, ho, rfl⟩

theorem RequestTwin.load {r r' : HttpRequest} (h : RequestTwin g .start r r') (hst : r.state = 0) :
    HeaderTwin g (.load r) (.load r') := by
  have hst' : r'.state = 0 := ((congrArg HttpRequest.state h.2.2.2).trans rfl).trans hst
  refine ⟨?_, ?_, h.2.1, ?_⟩
  · simp only [HeaderLocals.load, hst, hst']
  · simpa only [HeaderLocals.load, hst, HeaderState.ofCode_zero] using h
  · intro hseen
    simp [HeaderLocals.load, hst, HeaderState.nameSeen] at hseen

inductive ParsedTwin (g : HttpRequest) :
    ℤ × HttpRequest × Buffer → ℤ × HttpRequest × Buffer → Prop
  | more {r r' : HttpRequest} {b b' : Buffer} :
      HeaderTwin g (.load r) (.load r') → ParsedTwin g (1, r, b) (1, r', b')
  | line {r r' : HttpRequest} {b b' : Buffer} :
      r.state = 0 → RequestTwin g .almostDone r r' →
      (r.invalidHeader = false → r'.headerHash = r.headerHash) →
      ParsedTwin g (0, r, b) (0, r', b')
  | blockEnd {r r' : HttpRequest} {b b' : Buffer} :
      RequestTwin g .start r r' → ParsedTwin g (100, r, b) (100, r', b')
  | fail {code : ℤ} {r r' : HttpRequest} {b b' : Buffer} :
      code < 0 → ParsedTwin g (code, r, b) (code, r', b')

theorem httpParseRequestHeader_twin {r r' : HttpRequest} {b b' : Buffer}
    (hdata : b'.data = b.data) (hpos : b'.pos = b.pos) (h : HeaderTwin g (.load r) (.load r')) :
    ParsedTwin g (httpParseRequestHeader r b) (httpParseRequestHeader r' b') ∧
      (httpParseRequestHeader r' b').2.2.pos = (httpParseRequestHeader r b).2.2.pos := by
  have hunread : b'.unread = b.unread := by simp only [Buffer.unread, hdata, hpos]
  have hrel := headerRun_twin b.pos b.unread h
  unfold httpParseRequestHeader
  rw [hdata, hpos, hunread]
  cases hx : headerScanner.run b.pos (.load r) b.unread <;>
    cases hy : headerScanner.run b.pos (.load r') b.unread <;>
    rw [hx, hy] at hrel <;> cases hrel
  case more.more.more l m hlm => exact ⟨.more hlm.load_save, rfl⟩
  case halt.halt.halt p x y hxy =>
    cases x with
    | done l =>
      cases y with
      | done m => exact ⟨.line rfl (hxy.1.save hxy.2.1) hxy.2.2, rfl⟩
      | headerDone m => exact hxy.elim
      | fail code m => exact hxy.elim
    | headerDone l =>
      cases y with
      | done m => exact hxy.elim
      | headerDone m =>
        obtain ⟨hc, hi, ho, hr⟩ := hxy
        refine ⟨.blockEnd ⟨hc, hi, ho, ?_⟩, rfl⟩
        rw [hr]
        rfl
      | fail code m => exact hxy.elim
    | fail code l =>
      cases y with
      | done m => exact hxy.elim
      | headerDone m => exact hxy.elim
      | fail code' m =>
        obtain rfl : code' = code := hxy
        exact ⟨.fail (headerRun_fail_neg hx), hpos⟩

/-- A handler that neither reads nor writes what memory may have left. -/
def BlindHandler (f : HeaderHandler) : Prop :=
  ∀ (g r r' : HttpRequest) (mem : List UInt8), RequestTwin g .almostDone r r' →
    (f r' mem).1 = (f r mem).1 ∧ (f r' mem).2.2 = (f r mem).2.2 ∧
      RequestTwin g .almostDone (f r mem).2.1 (f r' mem).2.1 ∧ (f r mem).2.1.state = r.state

theorem httpProcessContentLength_blind : BlindHandler httpProcessContentLength := by
  intro g r r' mem ⟨hc, hi, ho, hr⟩
  obtain ⟨v, rfl⟩ : ∃ v, r' = headerMerge g v .almostDone r := ⟨r', hr⟩
  have hval : (headerMerge g v .almostDone r).headerValue = r.headerValue := rfl
  simp only [httpProcessContentLength, hval]
  split_ifs <;> exact ⟨rfl, rfl, ⟨hc, hi, ho, rfl⟩, rfl⟩

theorem httpProcessHost_blind : BlindHandler httpProcessHost := by
  intro g r r' mem ⟨hc, hi, ho, hr⟩
  obtain ⟨v, rfl⟩ : ∃ v, r' = headerMerge g v .almostDone r := ⟨r', hr⟩
  have hval : (headerMerge g v .almostDone r).headerValue = r.headerValue := rfl
  simp only [httpProcessHost, hval]
  split
  · exact ⟨rfl, rfl, ⟨hc, hi, ho, rfl⟩, rfl⟩
  · split_ifs <;> exact ⟨rfl, rfl, ⟨hc, hi, ho, rfl⟩, rfl⟩

theorem builtinTable_blind {key : UInt32} {hh : RequestHeaderHandler} {f : HeaderHandler}
    (hfind : hashTableFind builtinTable key = some hh) (hf : hh.handler = some f) :
    BlindHandler f := by
  rcases requestHeaderTable_builtin_only requestHeaderTable_builtin hfind hf with rfl | rfl
  · exact httpProcessHost_blind
  · exact httpProcessContentLength_blind

theorem handleHttpRequestHeader_twin {r r' : HttpRequest} {b b' : Buffer}
    (hdata : b'.data = b.data) (hr : RequestTwin g .almostDone r r')
    (hhash : r.invalidHeader = false → r'.headerHash = r.headerHash) :
    (handleHttpRequestHeader builtinTable r' b').1 = (handleHttpRequestHeader builtinTable r b).1 ∧
    (handleHttpRequestHeader builtinTable r' b').2.2.data =
      (handleHttpRequestHeader builtinTable r b).2.2.data ∧
    RequestTwin g .almostDone (handleHttpRequestHeader builtinTable r b).2.1
      (handleHttpRequestHeader builtinTable r' b').2.1 ∧
    (handleHttpRequestHeader builtinTable r b).2.1.state = r.state := by
  have hinv : r'.invalidHeader = r.invalidHeader :=
    (congrArg HttpRequest.invalidHeader hr.2.2.2).trans rfl
  have hdisp : dispatched builtinTable r' = dispatched builtinTable r := by
    unfold dispatched
    rw [hinv]
    split_ifs with h
    · rfl
    · rw [hhash (by simpa using h)]
  unfold handleHttpRequestHeader
  rw [hdisp]
  cases hd : dispatched builtinTable r with
  | none => exact ⟨rfl, hdata, hr, rfl⟩
  | some hh =>
    cases hf : hh.handler with
    | none =>
      simp only [Option.bind_some, hf]
      exact ⟨trivial, hdata, hr, trivial⟩
    | some f =>
      obtain ⟨hcode, hmem, hreq, hstate⟩ :=
        builtinTable_blind (dispatched_find hd) hf g r r' b.data hr
      simp only [Option.bind_some, hf, hdata]
      refine ⟨hcode, ?_, hreq, hstate⟩
      simp only [Buffer.store, hmem, hdata]

theorem httpProcessRequestHeader_twin {c d : Conn} (hcd : ConnTwin c d)
    (h : HeaderTwin g (.load c.r) (.load d.r)) :
    BothOk (fun c' d' => ConnTwin c' d' ∧ RequestTwin g .start c'.r d'.r)
      (httpProcessRequestHeader builtinTable c) (httpProcessRequestHeader builtinTable d) := by
  induction hn : c.headerTodo using Nat.strong_induction_on generalizing c d with
  | _ n ih =>
  obtain ⟨hparse, hpos⟩ := httpParseRequestHeader_twin hcd.2.1 hcd.2.2.1 h
  have hbufc := httpParseRequestHeader_buffer c.r c.b
  have hbufd := httpParseRequestHeader_buffer d.r d.b
  obtain ⟨x, hx⟩ : ∃ x, httpParseRequestHeader c.r c.b = x := ⟨_, rfl⟩
  obtain ⟨y, hy⟩ : ∃ y, httpParseRequestHeader d.r d.b = y := ⟨_, rfl⟩
  rw [hx] at hbufc
  rw [hy] at hbufd
  rw [hx, hy] at hparse hpos
  cases hparse <;> dsimp only at hbufc hbufd hpos
  case more r r' b b' hlm =>
    have hset : ConnTwin (c.set (r, b)) (d.set (r', b')) :=
      hcd.set (hbufd.1.trans (hcd.2.1.trans hbufc.1.symm)) hpos hbufc.2 hbufd.2
    rw [httpProcessRequestHeader_one hx, httpProcessRequestHeader_one hy]
    rcases recvHttpRequest_twin hset with ⟨c₁, d₁, hc, hd, hcd₁, hcr, hdr⟩ | ⟨hc, hd⟩
    · rw [hc, hd, if_pos rfl, if_pos rfl]
      apply ih _ (hn ▸ headerTodo_recv hx hc) hcd₁ _ rfl
      rw [hcr, hdr]
      exact hlm
    · rw [if_neg hc, if_neg hd]
      exact Or.inr ⟨by simp, by simp⟩
  case line r r' b b' hstate hreq hhash =>
    have hsame : b'.data = b.data := hbufd.1.trans (hcd.2.1.trans hbufc.1.symm)
    obtain ⟨hcode, hdata, hreq', hst⟩ := handleHttpRequestHeader_twin hsame hreq hhash
    obtain ⟨-, hfreec, hposc⟩ := handleHttpRequestHeader_buffer builtinTable r b
    obtain ⟨-, hfreed, hposd⟩ := handleHttpRequestHeader_buffer builtinTable r' b'
    rw [httpProcessRequestHeader_zero hx, httpProcessRequestHeader_zero hy, hcode]
    split_ifs with hne
    · exact Or.inr ⟨by simp, by simp⟩
    · have hset : ConnTwin (c.set (handleHttpRequestHeader builtinTable r b).2)
          (d.set (handleHttpRequestHeader builtinTable r' b').2) :=
        hcd.set hdata (by rw [hposc, hposd, hpos]) (hfreec.trans hbufc.2) (hfreed.trans hbufd.2)
      exact ih _ (hn ▸ headerTodo_handle builtinTable hx) hset
        (hreq'.start.load (hst.trans hstate)) rfl
  case blockEnd r r' b b' hreq =>
    rw [httpProcessRequestHeader_hundred hx, httpProcessRequestHeader_hundred hy]
    exact Or.inl ⟨_, _, rfl, rfl,
      hcd.set (hbufd.1.trans (hcd.2.1.trans hbufc.1.symm)) hpos hbufc.2 hbufd.2, hreq⟩
  case fail code r r' b b' hneg =>
    rw [httpProcessRequestHeader_neg hneg hx, httpProcessRequestHeader_neg hneg hy]
    exact Or.inr ⟨by simp, by simp⟩

end Header

/-! ## Whole requests -/

theorem recvBody_twin {c d : Conn} (hcd : ConnTwin c d)
    (hlen : d.r.contentLen = c.r.contentLen) :
    BothOk (fun c' d' => ConnTwin c' d' ∧ c'.r = c.r ∧ d'.r = d.r) (recvBody c) (recvBody d) := by
  induction hn : c.b.free.length using Nat.strong_induction_on generalizing c d with
  | _ n ih =>
  rw [recvBody_unfold c, recvBody_unfold d, hcd.2.1, hcd.2.2.1, hlen]
  by_cases heq : (c.b.data.length - c.b.pos : ℤ) = c.r.contentLen
  · rw [if_pos heq, if_pos heq]
    exact Or.inl ⟨c, d, rfl, rfl, hcd, rfl, rfl⟩
  · rw [if_neg heq, if_neg heq]
    rcases recvHttpRequest_twin hcd with ⟨c₁, d₁, hc, hd, hcd₁, hcr, hdr⟩ | ⟨hc, hd⟩
    · rw [hc, hd, if_pos rfl, if_pos rfl, ← hcr, ← hdr]
      exact ih _ (hn ▸ recvHttpRequest_free_lt hc) hcd₁ (by rw [hcr, hdr, hlen]) rfl
    · rw [if_neg hc, if_neg hd]
      exact Or.inr ⟨by simp, by simp⟩

/-- The fields of the request that `request_body_handler` can read. -/
structure RequestView where
  method : HttpMethod
  httpVersion : ℕ
  schema : Str
  host : Str
  port : Str
  uri : Str
  args : Ptr
  exten : Str
  httpProtocol : Str
  complexUri : Bool
  quotedUri : Bool
  plusInUri : Bool
  spaceInUri : Bool
  contentLen : ℤ
  content : Str
  deriving DecidableEq, Repr

def HttpRequest.view (r : HttpRequest) : RequestView :=
  ⟨r.method, r.httpVersion, r.schema, r.host, r.port, r.uri, r.args, r.exten, r.httpProtocol,
    r.complexUri, r.quotedUri, r.plusInUri, r.spaceInUri, r.contentLen, r.content⟩

/-- The view of a run whose memory held `g`, from the view of the blank run. -/
def RequestView.leak (g : HttpRequest) (v : RequestView) : RequestView :=
  { v with
    complexUri := v.complexUri || g.complexUri
    quotedUri := v.quotedUri || g.quotedUri
    plusInUri := v.plusInUri || g.plusInUri
    spaceInUri := v.spaceInUri || g.spaceInUri
    content := if v.content.p = none then g.content else v.content }

inductive ServedTwin (g : HttpRequest) : Served → Served → Prop
  | finalized (status : ℕ) : ServedTwin g (.finalized status) (.finalized status)
  | handled {c d : Conn} (hdata : d.b.data = c.b.data) (hview : d.r.view = c.r.view.leak g)
      (hover : OverrunTwin g c.r.lowcaseOverrun d.r.lowcaseOverrun) :
      ServedTwin g (.handled c) (.handled d)

theorem RequestTwin.view {g r r' : HttpRequest} (h : RequestTwin g .start r r') :
    r'.view = r.view.leak g := by
  obtain ⟨⟨hc, hc'⟩, -, -, hr⟩ := h
  have hcontent : (if r.view.content.p = none then g.content else r.view.content) = g.content := by
    simp [HttpRequest.view, hc', strInit]
  rw [RequestView.leak, hcontent, ← hc, hr]
  rfl

theorem httpProcessRequestBody_twin {g : HttpRequest} {c d : Conn} (hcd : ConnTwin c d)
    (h : RequestTwin g .start c.r d.r) :
    BothOk (fun c' d' => ServedTwin g (.handled c') (.handled d')) (httpProcessRequestBody c)
      (httpProcessRequestBody d) := by
  have hlen : d.r.contentLen = c.r.contentLen :=
    (congrArg HttpRequest.contentLen h.2.2.2).trans rfl
  unfold httpProcessRequestBody
  dsimp only
  rcases recvBody_twin hcd hlen with ⟨c₁, d₁, hc, hd, hcd₁, hcr, hdr⟩ | ⟨hc, hd⟩
  · rw [hc, hd, if_neg (not_not.mpr rfl), if_neg (not_not.mpr rfl)]
    refine Or.inl ⟨_, _, rfl, rfl, .handled hcd₁.2.1 ?_ ?_⟩
    · dsimp only
      rw [hcr, hdr, hlen, hcd₁.2.2.1, h.2.2.2]
      rfl
    · dsimp only
      rw [hcr, hdr]
      exact h.2.2.1
  · rw [if_pos hc, if_pos hd]
    exact Or.inr ⟨hc, hd⟩

/-- The two runs take the same turns, and the handler sees the same but for the leak. -/
theorem httpRequestHandlerBody_twin {g : HttpRequest} {c d : Conn} (hcd : ConnTwin c d)
    (h : LineTwin g (LineState.ofCode c.r.state, c.r) (LineState.ofCode d.r.state, d.r)) :
    ServedTwin g (httpRequestHandlerBody builtinTable c) (httpRequestHandlerBody builtinTable d) := by
  unfold httpRequestHandlerBody
  dsimp only
  rcases httpProcessRequestLine_twin hcd h with ⟨c₁, d₁, hc, hd, hcd₁, hr₁⟩ | ⟨hc, hd⟩
  · have hver : d₁.r.httpVersion = c₁.r.httpVersion :=
      (congrArg HttpRequest.httpVersion hr₁.2.2.2).trans rfl
    have hst := (httpProcessRequestLine_zero hc).1
    rw [hc, hd, if_neg (not_not.mpr rfl), if_neg (not_not.mpr rfl)]
    dsimp only
    rw [hver]
    by_cases hold : c₁.r.httpVersion < 1000
    · rw [if_pos hold, if_pos hold]
      exact .handled hcd₁.2.1 hr₁.view hr₁.2.2.1
    rw [if_neg hold, if_neg hold]
    rcases httpProcessRequestHeader_twin hcd₁ (hr₁.load hst) with
      ⟨c₂, d₂, hc₂, hd₂, hcd₂, hr₂⟩ | ⟨hc₂, hd₂⟩
    · rw [hc₂, hd₂, if_neg (not_not.mpr rfl), if_neg (not_not.mpr rfl)]
      rcases httpProcessRequestBody_twin hcd₂ hr₂ with ⟨c₃, d₃, hc₃, hd₃, hserved⟩ | ⟨hc₃, hd₃⟩
      · rw [hc₃, hd₃, if_neg (not_not.mpr rfl), if_neg (not_not.mpr rfl)]
        exact hserved
      · rw [if_pos hc₃, if_pos hd₃]
        exact .finalized 507
    · rw [if_pos hc₂, if_pos hd₂]
      exact .finalized 400
  · rw [if_pos hc, if_pos hd]
    exact .finalized 400

/-- The object of the blank run; its index is the first one out of range. -/
def blankRequest : HttpRequest :=
  { (default : HttpRequest) with lowcaseIndex := HTTP_LC_HEADER_LEN }

theorem lineTwin_init (g : HttpRequest) :
    LineTwin g (LineState.ofCode blankRequest.init.state, blankRequest.init)
      (LineState.ofCode g.init.state, g.init) :=
  .of_ne rfl rfl ⟨⟨rfl, rfl⟩, rfl, rfl, rfl⟩

/-- Every run is a twin of the blank one on the same connection. -/
theorem httpRequestHandler_twin (g : HttpRequest) {mem mem₀ : List UInt8} {sock : Socket}
    (hroom : mem.length = mem₀.length ∨
      (sockBytes sock).length ≤ mem₀.length ∧ (sockBytes sock).length ≤ mem.length) :
    ServedTwin g (httpRequestHandler builtinTable blankRequest mem₀ sock)
      (httpRequestHandler builtinTable g mem sock) :=
  httpRequestHandlerBody_twin ⟨rfl, rfl, rfl, hroom⟩ (lineTwin_init g)

/-- Two runs are served alike: the same error page, or the call of the handler with the
same fields and bytes to read, and no store out of range on the way. -/
def NoLeak : Served → Served → Prop
  | .finalized s, .finalized s' => s = s'
  | .handled c, .handled d => c.r.view = d.r.view ∧ c.b.data = d.b.data ∧
      c.r.lowcaseOverrun = false ∧ d.r.lowcaseOverrun = false
  | _, _ => False

/-- Two memories that hold the same in all that the code never initialises and reads. -/
structure SameLeft (g₁ g₂ : HttpRequest) : Prop where
  complexUri : g₁.complexUri = g₂.complexUri
  quotedUri : g₁.quotedUri = g₂.quotedUri
  plusInUri : g₁.plusInUri = g₂.plusInUri
  spaceInUri : g₁.spaceInUri = g₂.spaceInUri
  content : g₁.content = g₂.content
  index : g₁.lowcaseIndex < HTTP_LC_HEADER_LEN ∧ g₂.lowcaseIndex < HTTP_LC_HEADER_LEN

theorem noLeak_of_sameLeft {g₁ g₂ : HttpRequest} (h : SameLeft g₁ g₂) {s s₁ s₂ : Served}
    (h₁ : ServedTwin g₁ s s₁) (h₂ : ServedTwin g₂ s s₂) : NoLeak s₁ s₂ := by
  cases h₁ with
  | finalized status =>
    cases h₂
    rfl
  | handled hdata hview hover =>
    cases h₂ with
    | handled hdata' hview' hover' =>
      refine ⟨?_, hdata.trans hdata'.symm, ?_, ?_⟩
      · rw [hview, hview']
        simp only [RequestView.leak, h.complexUri, h.quotedUri, h.plusInUri, h.spaceInUri,
          h.content]
      · simpa [OverrunTwin, Nat.not_le.mpr h.index.1] using hover
      · simpa [OverrunTwin, Nat.not_le.mpr h.index.2] using hover'

def Served.conn : Served → Option Conn
  | .finalized _ => none
  | .handled c => some c

def flagProbe : Socket := [.data (bytes "GET / HTTP/1.1\r\n_a\r\n\r\n")]

def contentProbe : Socket := [.data (bytes "GET /\n")]

theorem blank_flagProbe :
    (httpRequestHandler builtinTable blankRequest (List.replicate 24 0) flagProbe).conn.map
      (fun c => (c.r.complexUri, c.r.quotedUri, c.r.plusInUri, c.r.spaceInUri, c.r.lowcaseOverrun)) =
      some (false, false, false, false, true) := by
  decide +kernel

theorem blank_contentProbe :
    (httpRequestHandler builtinTable blankRequest (List.replicate 24 0) contentProbe).conn.map
      (fun c => c.r.content) = some strInit := by
  decide +kernel

/-- What a run shows of its memory, read off the blank run in a small buffer. -/
theorem httpRequestHandler_probe (g : HttpRequest) {mem : List UInt8} {sock : Socket}
    (hmem : 24 ≤ mem.length) (hsock : (sockBytes sock).length ≤ 24) {c : Conn}
    (h : (httpRequestHandler builtinTable blankRequest (List.replicate 24 0) sock).conn = some c) :
    ∃ d, httpRequestHandler builtinTable g mem sock = .handled d ∧ d.r.view = c.r.view.leak g ∧
      OverrunTwin g c.r.lowcaseOverrun d.r.lowcaseOverrun := by
  have hroom : mem.length = (List.replicate 24 (0 : UInt8)).length ∨
      (sockBytes sock).length ≤ (List.replicate 24 (0 : UInt8)).length ∧
        (sockBytes sock).length ≤ mem.length :=
    Or.inr ⟨by rwa [List.length_replicate], hsock.trans hmem⟩
  have htwin := httpRequestHandler_twin g hroom
  generalize httpRequestHandler builtinTable blankRequest (List.replicate 24 0) sock = s at h htwin
  generalize httpRequestHandler builtinTable g mem sock = s' at htwin ⊢
  cases htwin with
  | finalized status => cases h
  | handled hdata hview hover =>
    obtain rfl := Option.some.inj h
    exact ⟨_, rfl, hview, hover⟩

theorem httpRequestHandler_flagProbe (g : HttpRequest) {mem : List UInt8} (hmem : 24 ≤ mem.length) :
    ∃ d, httpRequestHandler builtinTable g mem flagProbe = .handled d ∧
      d.r.complexUri = g.complexUri ∧ d.r.quotedUri = g.quotedUri ∧
      d.r.plusInUri = g.plusInUri ∧ d.r.spaceInUri = g.spaceInUri ∧
      d.r.lowcaseOverrun = decide (HTTP_LC_HEADER_LEN ≤ g.lowcaseIndex) := by
  obtain ⟨c, hc, hflags⟩ := Option.map_eq_some_iff.mp blank_flagProbe
  obtain ⟨d, hd, hview, hover⟩ := httpRequestHandler_probe g hmem (by decide) hc
  simp only [Prod.mk.injEq] at hflags
  obtain ⟨h₁, h₂, h₃, h₄, h₅⟩ := hflags
  refine ⟨d, hd, ?_, ?_, ?_, ?_, ?_⟩
  · have h := congrArg RequestView.complexUri hview
    simpa [RequestView.leak, HttpRequest.view, h₁] using h
  · have h := congrArg RequestView.quotedUri hview
    simpa [RequestView.leak, HttpRequest.view, h₂] using h
  · have h := congrArg RequestView.plusInUri hview
    simpa [RequestView.leak, HttpRequest.view, h₃] using h
  · have h := congrArg RequestView.spaceInUri hview
    simpa [RequestView.leak, HttpRequest.view, h₄] using h
  · simpa [OverrunTwin, h₅] using hover

theorem httpRequestHandler_contentProbe (g : HttpRequest) {mem : List UInt8}
    (hmem : 24 ≤ mem.length) :
    ∃ d, httpRequestHandler builtinTable g mem contentProbe = .handled d ∧
      d.r.content = g.content := by
  obtain ⟨c, hc, hcontent⟩ := Option.map_eq_some_iff.mp blank_contentProbe
  obtain ⟨d, hd, hview, -⟩ := httpRequestHandler_probe g hmem (by decide) hc
  refine ⟨d, hd, ?_⟩
  have h := congrArg RequestView.content hview
  simpa [RequestView.leak, HttpRequest.view, hcontent, strInit] using h

/-- Nothing of the memory a request is built in reaches `request_body_handler`, on any
connection, exactly when the two memories agree on the flags and on `content` and
hold an index in range. The buffer has room for the probes. -/
theorem httpRequestHandler_noLeak_iff (g₁ g₂ : HttpRequest) (mem₁ mem₂ : List UInt8)
    (hlen : mem₂.length = mem₁.length) (hroom : 24 ≤ mem₁.length) :
    (∀ sock, NoLeak (httpRequestHandler builtinTable g₁ mem₁ sock)
      (httpRequestHandler builtinTable g₂ mem₂ sock)) ↔ SameLeft g₁ g₂ := by
  constructor
  · intro h
    have hroom₂ : 24 ≤ mem₂.length := by omega
    obtain ⟨d₁, hd₁, hflags₁⟩ := httpRequestHandler_flagProbe g₁ hroom
    obtain ⟨d₂, hd₂, hflags₂⟩ := httpRequestHandler_flagProbe g₂ hroom₂
    obtain ⟨e₁, he₁, hcontent₁⟩ := httpRequestHandler_contentProbe g₁ hroom
    obtain ⟨e₂, he₂, hcontent₂⟩ := httpRequestHandler_contentProbe g₂ hroom₂
    have hprobe := h flagProbe
    rw [hd₁, hd₂] at hprobe
    obtain ⟨hview, -, hover₁, hover₂⟩ := hprobe
    have hcontent := h contentProbe
    rw [he₁, he₂] at hcontent
    obtain ⟨h₁, h₂, h₃, h₄, h₅⟩ := hflags₁
    obtain ⟨h₁', h₂', h₃', h₄', h₅'⟩ := hflags₂
    refine ⟨?_, ?_, ?_, ?_, ?_, ?_, ?_⟩
    · rw [← h₁, ← h₁']
      exact congrArg RequestView.complexUri hview
    · rw [← h₂, ← h₂']
      exact congrArg RequestView.quotedUri hview
    · rw [← h₃, ← h₃']
      exact congrArg RequestView.plusInUri hview
    · rw [← h₄, ← h₄']
      exact congrArg RequestView.spaceInUri hview
    · rw [← hcontent₁, ← hcontent₂]
      exact congrArg RequestView.content hcontent.1
    · simpa [h₅] using hover₁
    · simpa [h₅'] using hover₂
  · intro h sock
    exact noLeak_of_sameLeft h (httpRequestHandler_twin g₁ (Or.inl rfl))
      (httpRequestHandler_twin g₂ (Or.inl hlen))

theorem httpRequestHandler_noLeak_method :
    NoLeak (httpRequestHandler builtinTable default (List.replicate 24 0) flagProbe)
      (httpRequestHandler builtinTable
        { (default : HttpRequest) with method := .lock, httpMajor := 7, host := ⟨some 3, 5⟩ }
        (List.replicate 24 255) flagProbe) :=
  (httpRequestHandler_noLeak_iff default
    { (default : HttpRequest) with method := .lock, httpMajor := 7, host := ⟨some 3, 5⟩ }
    (List.replicate 24 0) (List.replicate 24 255) (by decide) (by decide)).mpr
    ⟨rfl, rfl, rfl, rfl, rfl, by decide⟩ flagProbe

/-- The flag `complex_uri` of an earlier request shows in a request for `/`, and the body
of an earlier request in one of HTTP/0.9. -/
theorem httpRequestHandler_leak :
    (httpRequestHandler builtinTable default (List.replicate 24 0)
      [.data (bytes "GET / HTTP/1.1\r\n\r\n")]).conn.map (fun c => c.r.complexUri) =
      some false ∧
    (httpRequestHandler builtinTable { (default : HttpRequest) with complexUri := true }
      (List.replicate 24 0) [.data (bytes "GET / HTTP/1.1\r\n\r\n")]).conn.map
      (fun c => c.r.complexUri) = some true ∧
    (httpRequestHandler builtinTable { (default : HttpRequest) with content := ⟨some 40, 9⟩ }
      (List.replicate 24 0) [.data (bytes "GET /\n")]).conn.map
      (fun c => c.r.content) = some ⟨some 40, 9⟩ := by
  decide +kernel

end Cserv.Http
