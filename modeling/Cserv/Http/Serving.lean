import Cserv.Http.Host
import Cserv.Http.Process
import Cserv.Http.Spans

/-!
# Serving a connection, call by call

`__http_request_handler` with its three loops as a machine whose steps are the
calls of `recv_http_request`, of the parsers and of the header handlers. What
holds at every point of every run is shown by one lemma for each kind of step.
-/
namespace Cserv.Http

open Foundations Util

/-- The call that `__http_request_handler` is about to make, or how it has ended. -/
inductive Stage
  | recvLine | parseLine | parseHeader | handleHeader | recvHeader | body
  | finalized (status : ℕ)
  | handled
  deriving DecidableEq, Repr

/-- One call, and where the loops go from its return code. -/
def serveStep (ht : HeaderTable) : Stage × Conn → Stage × Conn
  | (.recvLine, c) =>
    let got := recvHttpRequest c
    (if got.1 = 0 then .parseLine else .finalized 400, got.2)
  | (.parseLine, c) =>
    let out := httpParseRequestLine c.r c.b
    (if out.1 = 0 then if out.2.1.httpVersion < 1000 then .handled else .parseHeader
      else if out.1 > 0 then .recvLine
      else .finalized 400, c.set out.2)
  | (.parseHeader, c) =>
    let out := httpParseRequestHeader c.r c.b
    (if out.1 = 0 then .handleHeader
      else if out.1 = 1 then .recvHeader
      else if out.1 = 100 then .body
      else .finalized 400, c.set out.2)
  | (.handleHeader, c) =>
    let out := handleHttpRequestHeader ht c.r c.b
    (if out.1 ≠ 0 then .finalized 400 else .parseHeader, c.set out.2)
  | (.recvHeader, c) =>
    let got := recvHttpRequest c
    (if got.1 = 0 then .parseHeader else .finalized 400, got.2)
  | (.body, c) =>
    if (c.b.data.length - c.b.pos : ℤ) = c.r.contentLen then
      (.handled, { c with r := { c.r with content := ⟨some c.b.pos, c.r.contentLen.toNat⟩ } })
    else
      let got := recvHttpRequest c
      (if got.1 = 0 then .body else .finalized 507, got.2)
  | (.finalized status, c) => (.finalized status, c)
  | (.handled, c) => (.handled, c)

/-- How a connection was served, once it has been. -/
def Stage.served : Stage × Conn → Option Served
  | (.finalized status, _) => some (.finalized status)
  | (.handled, c) => some (.handled c)
  | _ => none

def Reaches (ht : HeaderTable) (x y : Stage × Conn) : Prop := ∃ n, (serveStep ht)^[n] x = y

section Reaches

variable {ht : HeaderTable} {x y z : Stage × Conn}

theorem Reaches.refl : Reaches ht x x := ⟨0, rfl⟩

theorem Reaches.trans (hxy : Reaches ht x y) (hyz : Reaches ht y z) : Reaches ht x z := by
  obtain ⟨m, hm⟩ := hxy
  obtain ⟨n, hn⟩ := hyz
  refine ⟨n + m, ?_⟩
  rw [Function.iterate_add_apply, hm, hn]

theorem Reaches.head (hx : serveStep ht x = y) (hyz : Reaches ht y z) : Reaches ht x z :=
  Reaches.trans ⟨1, hx⟩ hyz

end Reaches

/-! ## The machine computes the handler -/

section Computes

variable (ht : HeaderTable)

theorem reaches_line (c : Conn) :
    Reaches ht (.recvLine, c)
      (if (httpProcessRequestLine c).1 ≠ 0 then .finalized 400
        else if (httpProcessRequestLine c).2.r.httpVersion < 1000 then .handled else .parseHeader,
        (httpProcessRequestLine c).2) := by
  have hrecv_step : ∀ {c c' : Conn}, recvHttpRequest c = (0, c') →
      serveStep ht (.recvLine, c) = (.parseLine, c') := by
    intro c c' h
    simp [serveStep, h]
  fun_induction httpProcessRequestLine c with
  | case1 c c' hrecv out hzero =>
    refine Reaches.head (hrecv_step hrecv) (Reaches.head ?_ Reaches.refl)
    simp only [serveStep]
    rw [if_pos hzero]
    rfl
  | case2 c c' hrecv out hzero hpos ih =>
    refine Reaches.head (hrecv_step hrecv) (Reaches.head ?_ ih)
    simp [serveStep, out, hzero, hpos]
  | case3 c c' hrecv out hzero hpos =>
    refine Reaches.head (hrecv_step hrecv) (Reaches.head ?_ Reaches.refl)
    simp [serveStep, out, hzero, hpos]
  | case4 c code c' hne hrecv =>
    have hcode : code ≠ 0 := hne
    refine Reaches.head ?_ Reaches.refl
    simp [serveStep, hrecv, hcode]

theorem reaches_header (c : Conn) :
    Reaches ht (.parseHeader, c)
      (if (httpProcessRequestHeader ht c).1 ≠ 0 then .finalized 400 else .body,
        (httpProcessRequestHeader ht c).2) := by
  fun_induction httpProcessRequestHeader ht c with
  | case1 c r b hp out hcode =>
    refine Reaches.head (y := (.handleHeader, c.set (r, b))) ?_ (Reaches.head ?_ Reaches.refl)
    · simp [serveStep, hp]
    · simp [serveStep, out, hcode, Conn.set]
  | case2 c r b hp out hcode ih =>
    refine Reaches.head (y := (.handleHeader, c.set (r, b))) ?_ (Reaches.head ?_ ih)
    · simp [serveStep, hp]
    · simp [serveStep, out, hcode, Conn.set]
  | case3 c r b hp c' hrecv ih =>
    refine Reaches.head (y := (.recvHeader, c.set (r, b))) ?_ (Reaches.head ?_ ih)
    · simp [serveStep, hp]
    · simp [serveStep, hrecv]
  | case4 c r b hp code c' hne hrecv =>
    refine Reaches.head (y := (.recvHeader, c.set (r, b))) ?_ (Reaches.head ?_ Reaches.refl)
    · simp [serveStep, hp]
    · have hcode : code ≠ 0 := hne
      simp [serveStep, hrecv, hcode]
  | case5 c r b hp =>
    refine Reaches.head ?_ Reaches.refl
    simp [serveStep, hp]
  | case6 c code r b h₀ h₁ h₁₀₀ hp =>
    have hcode : code ≠ 0 ∧ code ≠ 1 ∧ code ≠ 100 := ⟨h₀, h₁, h₁₀₀⟩
    refine Reaches.head ?_ Reaches.refl
    simp [serveStep, hp, hcode]

theorem reaches_body (c : Conn) :
    Reaches ht (.body, c)
      (if (httpProcessRequestBody c).1 ≠ 0 then .finalized 507 else .handled,
        (httpProcessRequestBody c).2) := by
  unfold httpProcessRequestBody
  fun_induction recvBody c with
  | case1 c hlen =>
    refine Reaches.head ?_ Reaches.refl
    simp [serveStep, hlen]
  | case2 c hlen c' hrecv ih =>
    refine Reaches.head ?_ ih
    simp [serveStep, hlen, hrecv]
  | case3 c hlen code c' hne hrecv =>
    have hcode : code ≠ 0 := hne
    refine Reaches.head ?_ Reaches.refl
    simp [serveStep, hlen, hrecv, hcode]

/-- The machine ends as the handler does. -/
theorem reaches_served (g : HttpRequest) (mem : List UInt8) (sock : Socket) :
    ∃ y, Reaches ht (.recvLine, ⟨g.init, Buffer.bind mem, sock⟩) y ∧
      Stage.served y = some (httpRequestHandler ht g mem sock) := by
  have hline := reaches_line ht ⟨g.init, Buffer.bind mem, sock⟩
  unfold httpRequestHandler httpRequestHandlerBody
  dsimp only
  split_ifs with hfail hold hfail' hfail''
  · rw [if_pos hfail] at hline
    exact ⟨_, hline, rfl⟩
  · rw [if_neg hfail, if_pos hold] at hline
    exact ⟨_, hline, rfl⟩
  all_goals
    rw [if_neg hfail, if_neg hold] at hline
    have hheader := hline.trans (reaches_header ht _)
  · rw [if_pos hfail'] at hheader
    exact ⟨_, hheader, rfl⟩
  all_goals
    rw [if_neg hfail'] at hheader
    have hbody := hheader.trans (reaches_body ht _)
  · rw [if_pos hfail''] at hbody
    exact ⟨_, hbody, rfl⟩
  · rw [if_neg hfail''] at hbody
    exact ⟨_, hbody, rfl⟩

end Computes

/-! ## Header handlers keep the spans -/

theorem HostRead.hostCut_le {n : ℕ} {v : List UInt8} {l : HostLocals} (h : HostRead n v l)
    (hn : v.length ≤ n) : hostCut l ≤ n := by
  unfold hostCut
  split_ifs with hdot
  · rw [← hdot]
    exact h.dot.le hn
  · exact h.part.le hn

theorem httpProcessHost_spans {r : HttpRequest} {mem : List UInt8} {last : ℕ}
    (h : r.LineSpans last) (hvalue : r.headerValue.Within last)
    (hcode : (httpProcessHost r mem).1 = 0) : (httpProcessHost r mem).2.1.LineSpans last := by
  obtain ⟨l, w, hrun, hcut⟩ := httpProcessHost_zero hcode
  have hlen : (r.headerValue.get mem).length ≤ r.headerValue.len := by
    unfold Str.get
    split
    · exact List.length_take_le _ _
    · exact Nat.zero_le _
  have hle : hostCut l ≤ r.headerValue.len :=
    (hostLoop_read (hostRead_nil _) hlen hrun).1.hostCut_le hlen
  have hhost : (⟨r.headerValue.p, hostCut l⟩ : Str).Within last := by
    rcases hvalue with hnone | ⟨q, hq, hlo, hhi⟩
    · -- a host of no bytes was rejected
      rw [hnone] at hle
      exact absurd (Nat.le_zero.mp hle) hcut
    · exact Or.inr ⟨q, hq, hlo, by dsimp only; omega⟩
  rw [httpProcessHost_of_loop hrun hcut]
  exact { h with host_within := hhost }

/-- A handler that succeeds leaves every span of the line in the received bytes, and
the parser at the start of a header line. -/
theorem handleHttpRequestHeader_spans {malloc malloc' : ℕ → Bool} {ht : HeaderTable}
    (hht : requestHeaderTable malloc malloc' [] = some ht) {r : HttpRequest} {b : Buffer}
    {last : ℕ} (h : r.LineSpans last) (hvalue : r.headerValue.Within last)
    (hcode : (handleHttpRequestHeader ht r b).1 = 0) :
    (handleHttpRequestHeader ht r b).2.1.LineSpans last ∧
      (handleHttpRequestHeader ht r b).2.1.state = r.state := by
  unfold handleHttpRequestHeader at hcode ⊢
  split at hcode
  · rename_i f hbind
    obtain ⟨hh, hd, hf⟩ := Option.bind_eq_some_iff.mp hbind
    rcases requestHeaderTable_builtin_only hht (dispatched_find hd) hf with rfl | rfl
    · refine ⟨httpProcessHost_spans h hvalue hcode, ?_⟩
      obtain ⟨l, w, hrun, hcut⟩ := httpProcessHost_zero hcode
      rw [httpProcessHost_of_loop hrun hcut]
    · unfold httpProcessContentLength
      dsimp only
      split_ifs <;> exact ⟨h, rfl⟩
  · exact ⟨h, rfl⟩

/-! ## Every point of a run -/

/-- `start <= pos <= last <= end`, for a buffer of `size` bytes. -/
structure Buffer.Ordered (b : Buffer) (size : ℕ) : Prop where
  pos_le_last : b.pos ≤ b.data.length
  last_le_end : b.data.length ≤ size
  end_eq : b.capacity = size

/-- The spans that the successful calls before this point have set. -/
def Stage.SpansIn : Stage × Conn → Prop
  | (.recvLine, _) | (.parseLine, _) | (.finalized _, _) => True
  | (.parseHeader, c) | (.recvHeader, c) => c.r.LineSpans c.b.data.length
  | (.handleHeader, c) =>
    c.r.LineSpans c.b.data.length ∧ c.r.headerName.Within c.b.data.length ∧
      c.r.headerValue.Within c.b.data.length
  | (.body, c) => c.r.LineSpans c.b.data.length ∧ c.r.headerName.Within c.b.data.length
  | (.handled, c) =>
    c.r.LineSpans c.b.data.length ∧
      (1000 ≤ c.r.httpVersion → c.r.content.Within c.b.data.length)

/-- What the parsers have stored at a point, complete or not. -/
def Stage.Stored : Stage × Conn → Prop
  | (.recvLine, c) | (.parseLine, c) => c.r.InLine c.b.pos (.ofCode c.r.state)
  | (.parseHeader, c) | (.recvHeader, c) => c.r.InHeader c.b.pos (.ofCode c.r.state)
  | (.handleHeader, c) => c.r.state = 0
  | (.body, _) | (.finalized _, _) | (.handled, _) => True

structure Stage.Inv (size : ℕ) (x : Stage × Conn) : Prop where
  ordered : x.2.b.Ordered size
  spans : Stage.SpansIn x
  stored : Stage.Stored x

theorem LineFields.mono {rl mn sc ho po ur ex hp : Str} {args : Ptr} {n n' : ℕ}
    (h : LineFields rl mn sc ho po ur args ex hp n) (hle : n ≤ n') :
    LineFields rl mn sc ho po ur args ex hp n' where
  requestLine_within := h.requestLine_within.mono hle
  methodName_within := h.methodName_within.mono hle
  schema_within := h.schema_within.mono hle
  host_within := h.host_within.mono hle
  port_within := h.port_within.mono hle
  uri_within := h.uri_within.mono hle
  exten_within := h.exten_within.mono hle
  httpProtocol_within := h.httpProtocol_within.mono hle
  uri_partOf := h.uri_partOf
  exten_partOf := h.exten_partOf
  args_in_uri := h.args_in_uri

section Inv

variable {size : ℕ} {c : Conn}

theorem Buffer.Ordered.moved {b b' : Buffer} (h : b.Ordered size)
    (hdata : b'.data.length = b.data.length) (hfree : b'.free = b.free)
    (hpos : b'.pos ≤ b.data.length) : b'.Ordered size where
  pos_le_last := hpos.trans hdata.ge
  last_le_end := hdata.le.trans h.last_le_end
  end_eq := by
    rw [Buffer.capacity, hdata, hfree]
    exact h.end_eq

theorem recvHttpRequest_ordered (h : c.b.Ordered size) :
    (recvHttpRequest c).2.b.Ordered size ∧ (recvHttpRequest c).2.r = c.r ∧
      (recvHttpRequest c).2.b.pos = c.b.pos ∧
      c.b.data.length ≤ (recvHttpRequest c).2.b.data.length := by
  obtain ⟨got, hgot, hb⟩ := recvHttpRequest_buffer c
  have hend := h.end_eq
  have hpos := h.pos_le_last
  unfold Buffer.capacity at hend
  rw [hb]
  refine ⟨⟨?_, ?_, ?_⟩, recvHttpRequest_request (Prod.mk.eta).symm, rfl, ?_⟩
  · simp only [Buffer.append, List.length_append]
    omega
  · simp only [Buffer.append, List.length_append]
    omega
  · simp only [Buffer.capacity, Buffer.append, List.length_append, List.length_drop]
    omega
  · simp only [Buffer.append, List.length_append]
    omega

theorem inv_recvLine (ht : HeaderTable) (h : Stage.Inv size (.recvLine, c)) :
    Stage.Inv size (serveStep ht (.recvLine, c)) := by
  obtain ⟨hord, hr, hpos, -⟩ := recvHttpRequest_ordered h.ordered
  simp only [serveStep]
  split_ifs
  · refine ⟨hord, trivial, ?_⟩
    change (recvHttpRequest c).2.r.InLine (recvHttpRequest c).2.b.pos _
    rw [hr, hpos]
    exact h.stored
  · exact ⟨hord, trivial, trivial⟩

theorem inv_parseLine (ht : HeaderTable) (h : Stage.Inv size (.parseLine, c)) :
    Stage.Inv size (serveStep ht (.parseLine, c)) := by
  obtain ⟨hdata, hfree⟩ := httpParseRequestLine_buffer c.r c.b
  have hle := h.ordered.pos_le_last
  have hord := h.ordered.moved (congrArg List.length hdata) hfree (httpParseRequestLine_pos_le hle)
  generalize hout : httpParseRequestLine c.r c.b = out at hdata hfree hord
  obtain ⟨code, r, b⟩ := out
  simp only [serveStep, hout]
  dsimp only at hdata hfree hord
  split_ifs with hzero hold hmore
  · subst hzero
    have hspans := httpParseRequestLine_spans hle h.stored hout
    rw [← hdata] at hspans
    exact ⟨hord, ⟨hspans, fun hnew => absurd hold hnew.not_gt⟩, trivial⟩
  · subst hzero
    have hspans := httpParseRequestLine_spans hle h.stored hout
    have hstate := (httpParseRequestLine_zero hout).1
    rw [← hdata] at hspans
    refine ⟨hord, hspans, ?_⟩
    change r.InHeader b.pos (.ofCode r.state)
    rw [hstate]
    trivial
  · obtain rfl : code = 1 := by
      by_contra hne
      have hneg := httpParseRequestLine_nonpos (r := c.r) (b := c.b) (by rwa [hout])
      rw [hout] at hneg
      exact absurd hmore hneg.not_gt
    exact ⟨hord, trivial, (httpParseRequestLine_inLine hle h.stored hout).2⟩
  · exact ⟨hord, trivial, trivial⟩

theorem inv_parseHeader (ht : HeaderTable) (h : Stage.Inv size (.parseHeader, c)) :
    Stage.Inv size (serveStep ht (.parseHeader, c)) := by
  obtain ⟨hdata, hfree⟩ := httpParseRequestHeader_buffer c.r c.b
  have hle := h.ordered.pos_le_last
  have hord :=
    h.ordered.moved (congrArg List.length hdata) hfree (httpParseRequestHeader_pos_le hle)
  have hline := httpParseRequestHeader_lineSpans (b := c.b) h.spans
  generalize hout : httpParseRequestHeader c.r c.b = out at hdata hfree hord hline
  obtain ⟨code, r, b⟩ := out
  simp only [serveStep, hout]
  dsimp only at hdata hfree hord hline
  rw [← hdata] at hline
  split_ifs with hzero hone hempty
  · subst hzero
    obtain ⟨hname, hvalue, hstate⟩ := httpParseRequestHeader_spans hle h.stored hout
    rw [← hdata] at hname hvalue
    exact ⟨hord, ⟨hline, hname, hvalue⟩, hstate⟩
  · subst hone
    have hin := httpParseRequestHeader_inHeader hle h.stored hout
    refine ⟨hord, hline, ?_⟩
    change r.InHeader b.pos _
    rwa [httpParseRequestHeader_one hout]
  · subst hempty
    have hname := httpParseRequestHeader_empty hle h.stored hout
    rw [← hdata] at hname
    exact ⟨hord, ⟨hline, hname⟩, trivial⟩
  · exact ⟨hord, trivial, trivial⟩

theorem inv_handleHeader {malloc malloc' : ℕ → Bool} {ht : HeaderTable}
    (hht : requestHeaderTable malloc malloc' [] = some ht)
    (h : Stage.Inv size (.handleHeader, c)) : Stage.Inv size (serveStep ht (.handleHeader, c)) := by
  obtain ⟨hlen, hfree, hpos⟩ := handleHttpRequestHeader_buffer ht c.r c.b
  have hord := h.ordered.moved hlen hfree (hpos.trans_le h.ordered.pos_le_last)
  simp only [serveStep]
  split_ifs with hcode
  · exact ⟨hord, trivial, trivial⟩
  · obtain ⟨hline, -, hvalue⟩ := h.spans
    obtain ⟨hspans, hstate⟩ :=
      handleHttpRequestHeader_spans hht (b := c.b) hline hvalue (not_not.mp hcode)
    have hzero : c.r.state = 0 := h.stored
    refine ⟨hord, ?_, ?_⟩
    · rwa [← hlen] at hspans
    · change HttpRequest.InHeader _ _ (.ofCode (handleHttpRequestHeader ht c.r c.b).2.1.state)
      rw [hstate, hzero]
      trivial

theorem inv_recvHeader (ht : HeaderTable) (h : Stage.Inv size (.recvHeader, c)) :
    Stage.Inv size (serveStep ht (.recvHeader, c)) := by
  obtain ⟨hord, hr, hpos, hlen⟩ := recvHttpRequest_ordered h.ordered
  have hspans : c.r.LineSpans _ := LineFields.mono h.spans hlen
  have hstored : c.r.InHeader c.b.pos (.ofCode c.r.state) := h.stored
  rw [← hr] at hspans hstored
  rw [← hpos] at hstored
  simp only [serveStep]
  split_ifs
  · exact ⟨hord, hspans, hstored⟩
  · exact ⟨hord, trivial, trivial⟩

theorem inv_body (ht : HeaderTable) (h : Stage.Inv size (.body, c)) :
    Stage.Inv size (serveStep ht (.body, c)) := by
  obtain ⟨hline, hname⟩ := h.spans
  have hle : c.b.pos ≤ c.b.data.length := h.ordered.pos_le_last
  simp only [serveStep]
  split_ifs with hlen hrecv
  · have hcontent : (⟨some c.b.pos, c.r.contentLen.toNat⟩ : Str).Within c.b.data.length :=
      Or.inr ⟨c.b.pos, rfl, Nat.zero_le _, by dsimp only; omega⟩
    exact ⟨h.ordered, ⟨hline, fun _ => hcontent⟩, trivial⟩
  all_goals obtain ⟨hord, hr, -, hmore⟩ := recvHttpRequest_ordered h.ordered
  · have hline' : c.r.LineSpans _ := LineFields.mono hline hmore
    have hname' := hname.mono hmore
    rw [← hr] at hline' hname'
    exact ⟨hord, ⟨hline', hname'⟩, trivial⟩
  · exact ⟨hord, trivial, trivial⟩

end Inv

/-- Every call keeps the invariant. -/
theorem Stage.Inv.step {malloc malloc' : ℕ → Bool} {ht : HeaderTable}
    (hht : requestHeaderTable malloc malloc' [] = some ht) {size : ℕ} {x : Stage × Conn}
    (h : Stage.Inv size x) : Stage.Inv size (serveStep ht x) := by
  obtain ⟨s, c⟩ := x
  cases s with
  | recvLine => exact inv_recvLine ht h
  | parseLine => exact inv_parseLine ht h
  | parseHeader => exact inv_parseHeader ht h
  | handleHeader => exact inv_handleHeader hht h
  | recvHeader => exact inv_recvHeader ht h
  | body => exact inv_body ht h
  | finalized status => exact h
  | handled => exact h

theorem Stage.inv_init (g : HttpRequest) (mem : List UInt8) (sock : Socket) :
    Stage.Inv mem.length (.recvLine, ⟨g.init, Buffer.bind mem, sock⟩) where
  ordered := ⟨le_rfl, Nat.zero_le _, by simp [Buffer.capacity, Buffer.bind]⟩
  spans := trivial
  stored := ⟨rfl, rfl, rfl⟩

/-- The points of a run end where the handler does, and at each of them the buffer is in order
and every span that a successful call has set lies in the received bytes. -/
theorem spans_in_received {malloc malloc' : ℕ → Bool} {ht : HeaderTable}
    (hht : requestHeaderTable malloc malloc' [] = some ht) (g : HttpRequest) (mem : List UInt8)
    (sock : Socket) :
    (∃ n, Stage.served ((serveStep ht)^[n] (.recvLine, ⟨g.init, Buffer.bind mem, sock⟩)) =
        some (httpRequestHandler ht g mem sock)) ∧
      ∀ n s c, (serveStep ht)^[n] (.recvLine, ⟨g.init, Buffer.bind mem, sock⟩) = (s, c) →
        c.b.Ordered mem.length ∧ Stage.SpansIn (s, c) := by
  constructor
  · obtain ⟨y, ⟨n, hn⟩, hy⟩ := reaches_served ht g mem sock
    exact ⟨n, by rw [hn, hy]⟩
  · intro n s c hrun
    have hinv : ∀ n, Stage.Inv mem.length
        ((serveStep ht)^[n] (.recvLine, ⟨g.init, Buffer.bind mem, sock⟩)) := by
      intro n
      induction n with
      | zero => exact Stage.inv_init g mem sock
      | succ n ih =>
        rw [Function.iterate_succ_apply']
        exact ih.step hht
    have hn := hinv n
    rw [hrun] at hn
    exact ⟨hn.ordered, hn.spans⟩

/-- The connection of a request with a host, an extension and arguments. -/
def sampleConn : Conn :=
  ⟨(default : HttpRequest).init, Buffer.bind (List.replicate 64 0),
    [.data (bytes "GET http://h:1/a.b?c HTTP/1.1"), .data (bytes "\r\nHost: H\r\n\r\n")]⟩

/-- Eight calls serve it. -/
theorem spans_in_received_eight :
    ((serveStep builtinTable)^[8] (.recvLine, sampleConn)).1 = .handled ∧
      Stage.SpansIn (.handled, ((serveStep builtinTable)^[8] (.recvLine, sampleConn)).2) := by
  have hhandled : ((serveStep builtinTable)^[8] (.recvLine, sampleConn)).1 = .handled := by
    decide +kernel
  exact ⟨hhandled, ((spans_in_received requestHeaderTable_builtin default (List.replicate 64 0)
    sampleConn.sock).2 8 .handled _ (Prod.ext hhandled rfl)).2⟩

end Cserv.Http
