import Cserv.Http.RequestLine
import Cserv.Http.HeaderHandlers

/-!
# Reading a request from a connection

`recv_http_request` and the loops around the two parsers. A socket is the list
of what its next `recv` calls find; a segment that does not fit in the free
space stays in the socket with the bytes that were not taken, as in the kernel.
A socket with nothing left makes the hooked `recv` time out.
-/
namespace Cserv.Http

open Foundations Util

/-- What one `recv` finds: bytes, the peer's close, a time-out, or another error. -/
inductive RecvOutcome
  | data (bs : List UInt8)
  | closed
  | timedOut
  | failed
  deriving DecidableEq, Repr

abbrev Socket := List RecvOutcome

/-- The bytes a socket delivers before the first `recv` that brings none. -/
def sockBytes : Socket → List UInt8
  | .data bs :: rest => if bs = [] then [] else bs ++ sockBytes rest
  | _ => []

/-- A request object with its buffer, and the connection it reads from. -/
structure Conn where
  r : HttpRequest
  b : Buffer
  sock : Socket
  deriving DecidableEq, Repr

/-- The request and buffer of a connection after a call of a parser. -/
def Conn.set (c : Conn) (out : HttpRequest × Buffer) : Conn := { c with r := out.1, b := out.2 }

def Conn.take (c : Conn) (bs : List UInt8) (rest : Socket) : Conn :=
  { c with
    b := c.b.append (bs.take c.b.free.length)
    sock := if bs.drop c.b.free.length = [] then rest
      else .data (bs.drop c.b.free.length) :: rest }

def recvHttpRequest (c : Conn) : ℤ × Conn :=
  if c.b.free = [] then (-1, c)
  else
    match c.sock with
    | .data bs :: rest => if bs = [] then (-4, { c with sock := rest }) else (0, c.take bs rest)
    | .closed :: rest => (-4, { c with sock := rest })
    | .timedOut :: rest => (-2, { c with sock := rest })
    | .failed :: rest => (-3, { c with sock := rest })
    | [] => (-2, c)

theorem recvHttpRequest_zero_iff {c c' : Conn} :
    recvHttpRequest c = (0, c') ↔
      ∃ bs rest, c.b.free ≠ [] ∧ c.sock = .data bs :: rest ∧ bs ≠ [] ∧ c' = c.take bs rest := by
  unfold recvHttpRequest
  split_ifs with hfree
  · simp [hfree]
  · split
    · rename_i bs rest hsock
      split_ifs with hnil
      · simp [hsock, hnil]
      · constructor
        · intro h
          exact ⟨bs, rest, hfree, hsock, hnil, (Prod.mk.inj h).2.symm⟩
        · rintro ⟨bs', rest', -, hsock', -, rfl⟩
          obtain ⟨hbs, rfl⟩ := List.cons.inj (hsock.symm.trans hsock')
          obtain rfl := RecvOutcome.data.inj hbs
          rfl
    all_goals
      rename_i hsock
      simp [hsock]

/-- A successful `recv_http_request` appends the next bytes of the stream, at least
one and no more than fit. -/
theorem recvHttpRequest_zero {c c' : Conn} (h : recvHttpRequest c = (0, c')) :
    ∃ got, got ≠ [] ∧ got.length ≤ c.b.free.length ∧ sockBytes c.sock = got ++ sockBytes c'.sock ∧
      c'.b = c.b.append got ∧ c'.r = c.r := by
  obtain ⟨bs, rest, hfree, hsock, hbs, rfl⟩ := recvHttpRequest_zero_iff.mp h
  refine ⟨bs.take c.b.free.length, by simp [hbs, hfree], by simp, ?_, rfl, rfl⟩
  simp only [hsock, sockBytes, if_neg hbs, Conn.take]
  split_ifs with hleft
  · rw [List.take_of_length_le (List.drop_eq_nil_iff.mp hleft)]
  · simp only [sockBytes, if_neg hleft]
    rw [← List.append_assoc, List.take_append_drop]

theorem recvHttpRequest_ne_zero {c : Conn} (h : (recvHttpRequest c).1 ≠ 0) :
    c.b.free = [] ∨ sockBytes c.sock = [] := by
  by_contra hn
  push Not at hn
  obtain ⟨hfree, hsock⟩ := hn
  apply h
  unfold recvHttpRequest
  rw [if_neg hfree]
  cases hs : c.sock with
  | nil => simp [hs, sockBytes] at hsock
  | cons o rest =>
    cases o with
    | data bs =>
      have hbs : bs ≠ [] := fun hnil => hsock (by simp [hs, hnil, sockBytes])
      simp [hbs]
    | closed => simp [hs, sockBytes] at hsock
    | timedOut => simp [hs, sockBytes] at hsock
    | failed => simp [hs, sockBytes] at hsock

theorem recvHttpRequest_request {c c' : Conn} {code : ℤ} (h : recvHttpRequest c = (code, c')) :
    c'.r = c.r := by
  have hsame : (recvHttpRequest c).2.r = c.r := by
    unfold recvHttpRequest
    repeat' split
    all_goals rfl
  rw [h] at hsame
  exact hsame

/-- However it ends, `recv_http_request` writes at `last` only, and no more than fits. -/
theorem recvHttpRequest_buffer (c : Conn) :
    ∃ got, got.length ≤ c.b.free.length ∧ (recvHttpRequest c).2.b = c.b.append got := by
  have hsame : ∃ got : List UInt8, got.length ≤ c.b.free.length ∧ c.b = c.b.append got :=
    ⟨[], Nat.zero_le _, by simp [Buffer.append]⟩
  unfold recvHttpRequest
  split_ifs
  · exact hsame
  · split
    · rename_i bs rest _
      split_ifs
      · exact hsame
      · exact ⟨bs.take c.b.free.length, List.length_take_le _ _, rfl⟩
    all_goals exact hsame

theorem recvHttpRequest_free_lt {c c' : Conn} (h : recvHttpRequest c = (0, c')) :
    c'.b.free.length < c.b.free.length := by
  obtain ⟨got, hne, hle, -, hb, -⟩ := recvHttpRequest_zero h
  have hpos : 0 < got.length := List.length_pos_iff.mpr hne
  simp only [hb, Buffer.append, List.length_drop]
  omega

def httpProcessRequestLine (c : Conn) : ℤ × Conn :=
  match h : recvHttpRequest c with
  | (0, c') =>
    let out := httpParseRequestLine c'.r c'.b
    if out.1 = 0 then (0, c'.set out.2)
    else if out.1 > 0 then httpProcessRequestLine (c'.set out.2)
    else (-2, c'.set out.2)
  | (_, c') => (-1, c')
termination_by c.b.free.length
decreasing_by
  simp only [Conn.set, (httpParseRequestLine_buffer c'.r c'.b).2]
  exact recvHttpRequest_free_lt h

theorem httpProcessRequestLine_recv_ne {c : Conn} (h : (recvHttpRequest c).1 ≠ 0) :
    (httpProcessRequestLine c).1 = -1 := by
  rw [httpProcessRequestLine]
  split <;> simp_all

theorem httpProcessRequestLine_recv {c c' : Conn} (h : recvHttpRequest c = (0, c')) :
    httpProcessRequestLine c =
      if (httpParseRequestLine c'.r c'.b).1 = 0 then (0, c'.set (httpParseRequestLine c'.r c'.b).2)
      else if (httpParseRequestLine c'.r c'.b).1 > 0 then
        httpProcessRequestLine (c'.set (httpParseRequestLine c'.r c'.b).2)
      else (-2, c'.set (httpParseRequestLine c'.r c'.b).2) := by
  rw [httpProcessRequestLine]
  split <;> simp_all

theorem httpProcessRequestLine_zero {c c' : Conn} (h : httpProcessRequestLine c = (0, c')) :
    c'.r.state = 0 ∧ c'.b.pos ≤ c'.b.data.length := by
  induction hn : c.b.free.length using Nat.strong_induction_on generalizing c with
  | _ n ih =>
  by_cases h0 : (recvHttpRequest c).1 = 0
  · obtain ⟨c₁, hc₁⟩ : ∃ c₁, recvHttpRequest c = (0, c₁) := ⟨_, Prod.ext h0 rfl⟩
    obtain ⟨hdata, hfree⟩ := httpParseRequestLine_buffer c₁.r c₁.b
    rw [httpProcessRequestLine_recv hc₁] at h
    split_ifs at h with hz hpos
    · obtain rfl := (Prod.mk.inj h).2
      have hzero := httpParseRequestLine_zero (r := c₁.r) (b := c₁.b) (Prod.ext hz rfl)
      rwa [← hdata] at hzero
    · apply ih _ _ h rfl
      simp only [Conn.set, hfree]
      exact hn ▸ recvHttpRequest_free_lt hc₁
    · simp at h
  · have hrecv := httpProcessRequestLine_recv_ne h0
    simp [h] at hrecv

/-- What the header loop has still to read, received bytes counting less than free space. -/
def Conn.headerTodo (c : Conn) : ℕ := 2 * c.b.free.length + c.b.unread.length

theorem headerTodo_handle (ht : HeaderTable) {c : Conn} {r : HttpRequest} {b : Buffer}
    (h : httpParseRequestHeader c.r c.b = (0, r, b)) :
    (c.set (handleHttpRequestHeader ht r b).2).headerTodo < c.headerTodo := by
  obtain ⟨hpos, hle⟩ := httpParseRequestHeader_zero h
  have hbuf := httpParseRequestHeader_buffer c.r c.b
  rw [h] at hbuf
  dsimp only at hbuf
  obtain ⟨hlen, hfree, hpos'⟩ := handleHttpRequestHeader_buffer ht r b
  simp only [Conn.headerTodo, Conn.set, Buffer.unread, List.length_drop, hlen, hfree, hpos',
    hbuf.1, hbuf.2]
  omega

theorem headerTodo_recv {c c' : Conn} {r : HttpRequest} {b : Buffer}
    (hp : httpParseRequestHeader c.r c.b = (1, r, b))
    (h : recvHttpRequest (c.set (r, b)) = (0, c')) : c'.headerTodo < c.headerTodo := by
  obtain rfl := httpParseRequestHeader_one hp
  obtain ⟨got, hne, hle, -, hb, -⟩ := recvHttpRequest_zero h
  have hgot : 0 < got.length := List.length_pos_iff.mpr hne
  simp only [Conn.headerTodo, hb, Conn.set, Buffer.append, Buffer.unread, List.length_drop,
    List.length_append] at hle ⊢
  omega

def httpProcessRequestHeader (ht : HeaderTable) (c : Conn) : ℤ × Conn :=
  match hp : httpParseRequestHeader c.r c.b with
  | (0, r, b) =>
    let out := handleHttpRequestHeader ht r b
    if out.1 ≠ 0 then (-1, c.set out.2) else httpProcessRequestHeader ht (c.set out.2)
  | (1, r, b) =>
    match h : recvHttpRequest (c.set (r, b)) with
    | (0, c') => httpProcessRequestHeader ht c'
    | (_, c') => (-2, c')
  | (100, r, b) => (0, c.set (r, b))
  | (_, r, b) => (-3, c.set (r, b))
termination_by c.headerTodo
decreasing_by
  · exact headerTodo_handle ht hp
  · exact headerTodo_recv hp h

section Header

variable {ht : HeaderTable} {c : Conn} {r : HttpRequest} {b : Buffer}

theorem httpProcessRequestHeader_zero (h : httpParseRequestHeader c.r c.b = (0, r, b)) :
    httpProcessRequestHeader ht c =
      if (handleHttpRequestHeader ht r b).1 ≠ 0 then (-1, c.set (handleHttpRequestHeader ht r b).2)
      else httpProcessRequestHeader ht (c.set (handleHttpRequestHeader ht r b).2) := by
  rw [httpProcessRequestHeader]
  split <;> simp_all

theorem httpProcessRequestHeader_one (h : httpParseRequestHeader c.r c.b = (1, r, b)) :
    httpProcessRequestHeader ht c =
      if (recvHttpRequest (c.set (r, b))).1 = 0 then
        httpProcessRequestHeader ht (recvHttpRequest (c.set (r, b))).2
      else (-2, (recvHttpRequest (c.set (r, b))).2) := by
  rw [httpProcessRequestHeader]
  split <;> simp_all
  obtain ⟨rfl, rfl⟩ := h
  split <;> simp_all

theorem httpProcessRequestHeader_hundred (h : httpParseRequestHeader c.r c.b = (100, r, b)) :
    httpProcessRequestHeader ht c = (0, c.set (r, b)) := by
  rw [httpProcessRequestHeader]
  split <;> simp_all

theorem httpProcessRequestHeader_neg {code : ℤ} (hneg : code < 0)
    (h : httpParseRequestHeader c.r c.b = (code, r, b)) :
    httpProcessRequestHeader ht c = (-3, c.set (r, b)) := by
  rw [httpProcessRequestHeader]
  split <;> simp_all
  all_goals omega

end Header

def recvBody (c : Conn) : ℤ × Conn :=
  if (c.b.data.length - c.b.pos : ℤ) = c.r.contentLen then (0, c)
  else
    match h : recvHttpRequest c with
    | (0, c') => recvBody c'
    | (_, c') => (-1, c')
termination_by c.b.free.length
decreasing_by exact recvHttpRequest_free_lt h

theorem recvBody_unfold (c : Conn) :
    recvBody c =
      if (c.b.data.length - c.b.pos : ℤ) = c.r.contentLen then (0, c)
      else if (recvHttpRequest c).1 = 0 then recvBody (recvHttpRequest c).2
      else (-1, (recvHttpRequest c).2) := by
  rw [recvBody]
  split_ifs
  · rfl
  · split <;> simp_all
  · split <;> simp_all

def httpProcessRequestBody (c : Conn) : ℤ × Conn :=
  let body := recvBody c
  if body.1 ≠ 0 then body
  else
    (0, { body.2 with
      r := { body.2.r with content := ⟨some body.2.b.pos, body.2.r.contentLen.toNat⟩ } })

/-- How a connection is served: an error page, or the call of `request_body_handler`
with the request in the given state. -/
inductive Served
  | finalized (status : ℕ)
  | handled (c : Conn)
  deriving DecidableEq, Repr

/-- `__http_request_handler`; `http.c` registers no request-line handlers. -/
def httpRequestHandlerBody (ht : HeaderTable) (c : Conn) : Served :=
  let line := httpProcessRequestLine c
  if line.1 ≠ 0 then .finalized 400
  else if line.2.r.httpVersion < 1000 then .handled line.2
  else
    let header := httpProcessRequestHeader ht line.2
    if header.1 ≠ 0 then .finalized 400
    else
      let body := httpProcessRequestBody header.2
      if body.1 ≠ 0 then .finalized 507 else .handled body.2

/-- The fields `http_request_handler` initialises in the recycled object; no store
beyond an array has been recorded yet. -/
def HttpRequest.init (g : HttpRequest) : HttpRequest :=
  { g with
    state := 0, requestLine := strInit, args := none, exten := strInit, httpProtocol := strInit,
    contentLen := 0, lowcaseOverrun := false }

/-- `http_request_handler` on an object whose memory holds `g` and, behind it, `mem`. -/
def httpRequestHandler (ht : HeaderTable) (g : HttpRequest) (mem : List UInt8) (sock : Socket) :
    Served :=
  httpRequestHandlerBody ht ⟨g.init, Buffer.bind mem, sock⟩

end Cserv.Http
