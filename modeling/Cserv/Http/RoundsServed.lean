import Cserv.Http.Chunking
import Cserv.Http.Rounds

/-!
# The rounds of the calls

The machine of single rounds does what the machine of whole calls does: each call of a parser, of a
header handler or of `recv_http_request` is a run of rounds from the same request and buffer to the
same result. The rounds thus end as `http_request_handler` does.
-/
namespace Cserv.Http

open Foundations Relation Util

def Stage.pc : Stage × Conn → ReadPc
  | (.recvLine, _) => .recv .line
  | (.parseLine, c) => .lineByte c.b.pos (.ofCode c.r.state)
  | (.parseHeader, c) =>
    .headerByte c.b.pos (.ofCode c.r.state) c.r.headerHash c.r.lowcaseIndex
  | (.handleHeader, _) => .handle
  | (.recvHeader, _) => .recv .header
  | (.body, _) => .bodyTest
  | (.finalized status, _) => .finalized status
  | (.handled, _) => .handled

/-- The point of a run of rounds at which a call begins, after `k` calls of `recv_http_request`. -/
def Stage.reading (y : Stage × Conn) (k : ℕ) : Reading := ⟨Stage.pc y, y.2.r, y.2.b, k⟩

/-- The call that follows the bytes a loop waits for. -/
def RecvLoop.stage : RecvLoop → Stage
  | .line => .parseLine
  | .header => .parseHeader
  | .body => .body

abbrev Rounds (ht : HeaderTable) : Reading → Reading → Prop := ReflTransGen (ReadStep ht)

variable {ht : HeaderTable}

/-! ## Receiving -/

theorem recvHttpRequest_fail {c : Conn} (h : (recvHttpRequest c).1 ≠ 0) :
    (recvHttpRequest c).2.b = c.b := by
  unfold recvHttpRequest at h ⊢
  repeat' split
  all_goals simp_all

theorem rounds_recv (c : Conn) (loop : RecvLoop) (k : ℕ) :
    Rounds ht ⟨.recv loop, c.r, c.b, k⟩
      (Stage.reading (if (recvHttpRequest c).1 = 0 then loop.stage else .finalized loop.status,
        (recvHttpRequest c).2) (k + 1)) := by
  have hr : (recvHttpRequest c).2.r = c.r := recvHttpRequest_request (Prod.mk.eta).symm
  split_ifs with hcode
  · have hzero : recvHttpRequest c = (0, (recvHttpRequest c).2) := Prod.ext hcode rfl
    obtain ⟨got, hne, hfits, -, hb, -⟩ := recvHttpRequest_zero hzero
    have hstep : ReadStep ht ⟨.recv loop, c.r, c.b, k⟩ _ := .recv _ loop rfl got hne hfits
    have hnext : Stage.reading (loop.stage, (recvHttpRequest c).2) (k + 1) =
        Reading.resume (Reading.receive ⟨.recv loop, c.r, c.b, k⟩ got) loop := by
      cases loop <;> simp [Stage.reading, Stage.pc, RecvLoop.stage, Reading.resume,
        Reading.parseLine, Reading.parseHeader, Reading.receive, hr, hb]
    exact .single (hnext ▸ hstep)
  · have hb := recvHttpRequest_fail hcode
    have hstep : ReadStep ht ⟨.recv loop, c.r, c.b, k⟩ _ := .fail rfl
    have hlast : Stage.reading (.finalized loop.status, (recvHttpRequest c).2) (k + 1) =
        (Reading.receive ⟨.recv loop, c.r, c.b, k⟩ []).finalize loop.status := by
      simp [Stage.reading, Stage.pc, Reading.receive, Reading.finalize, Buffer.append, hr, hb]
    exact .single (hlast ▸ hstep)

/-! ## The parsers -/

namespace Reading

variable (x : Reading)

def linePoint (p : ℕ) (s : LineState × HttpRequest) : Reading :=
  { x with pc := .lineByte p s.1, r := s.2 }

def lineScan : Scan (LineState × HttpRequest) LineStop → Reading
  | .more s => { x with r := s.2 }.lineEnd x.b.data.length s.1
  | .halt p out => x.lineVerdict p (.stop out)

def headerPoint (p : ℕ) (l : HeaderLocals) : Reading :=
  { x with pc := .headerByte p l.state l.hash l.i, r := l.r }

def headerScan : Scan HeaderLocals HeaderStop → Reading
  | .more l => x.headerEnd x.b.data.length l
  | .halt p out => x.headerVerdict p (.stop out)

theorem lineVerdict_linePoint (p q : ℕ) (s : LineState × HttpRequest) (v : LineVerdict) :
    (x.linePoint q s).lineVerdict p v = v.point x.linePoint x.lineScan p := by
  cases v with
  | next s => rfl
  | again s => rfl
  | stop out => cases out <;> rfl

theorem headerVerdict_headerPoint (p q : ℕ) (l : HeaderLocals) (v : HeaderVerdict) :
    (x.headerPoint q l).headerVerdict p v = v.point x.headerPoint x.headerScan p := by
  cases v with
  | next l => rfl
  | again l => rfl
  | stop out => cases out <;> rfl

end Reading

theorem rounds_line (x : Reading) {p : ℕ} (hp : p ≤ x.b.data.length)
    (s : LineState × HttpRequest) :
    Rounds ht (x.linePoint p s)
      (x.lineScan ((lineScanner x.b.data).run p s (x.b.data.drop p))) := by
  refine (lineScanner x.b.data).run_rounds (fun s => .lineEnd _ _ s.1 rfl rfl) ?_ hp s
  intro p ch s hch
  rw [← x.lineVerdict_linePoint p p s]
  exact .lineByte (x.linePoint p s) p s.1 rfl ch hch

theorem rounds_header (x : Reading) {p : ℕ} (hp : p ≤ x.b.data.length) (l : HeaderLocals) :
    Rounds ht (x.headerPoint p l)
      (x.headerScan (headerScanner.run p l (x.b.data.drop p))) := by
  refine headerScanner.run_rounds (fun l => .headerEnd _ _ l.state l.hash l.i rfl le_rfl) ?_ hp l
  intro p ch l hch
  rw [← x.headerVerdict_headerPoint p p l]
  exact .headerByte (x.headerPoint p l) p l.state l.hash l.i rfl ch hch

theorem rounds_parseLine {c : Conn} (hpos : c.b.pos ≤ c.b.data.length) (k : ℕ) :
    Rounds ht (Stage.reading (.parseLine, c) k)
      (Stage.reading (serveStep ht (.parseLine, c)) k) := by
  have hrun : Rounds ht (Stage.reading (.parseLine, c) k)
      (Reading.lineScan (Stage.reading (.parseLine, c) k) ((lineScanner c.b.data).run c.b.pos
        (LineState.ofCode c.r.state, c.r) c.b.unread)) :=
    rounds_line (Stage.reading (.parseLine, c) k) hpos (LineState.ofCode c.r.state, c.r)
  rcases httpParseRequestLine_cases c.r c.b with ⟨st, r, hscan, he⟩ | ⟨p, r, hscan, he⟩ |
    ⟨p, code, r, hscan, hneg, he⟩
  · rw [hscan] at hrun
    simp only [serveStep, he]
    exact hrun
  · rw [hscan] at hrun
    have hcode := lineDone_nonpos p r c.b
    change Rounds ht _ (Reading.lineReturn _ (lineDone p r c.b)) at hrun
    simp only [serveStep, he]
    generalize lineDone p r c.b = out at hrun hcode ⊢
    unfold Reading.lineReturn at hrun
    by_cases hzero : out.1 = 0
    · rw [if_neg (not_not.mpr hzero)] at hrun
      rw [if_pos hzero]
      split_ifs at hrun ⊢ with hold
      · exact hrun
      · exact hrun
    · rw [if_pos hzero] at hrun
      rw [if_neg hzero, if_neg hcode.not_gt]
      exact hrun
  · rw [hscan] at hrun
    simp only [serveStep, he, if_neg hneg.ne, if_neg hneg.not_gt]
    exact hrun

theorem rounds_parseHeader {c : Conn} (hpos : c.b.pos ≤ c.b.data.length) (k : ℕ) :
    Rounds ht (Stage.reading (.parseHeader, c) k)
      (Stage.reading (serveStep ht (.parseHeader, c)) k) := by
  have hrun : Rounds ht (Stage.reading (.parseHeader, c) k)
      (Reading.headerScan (Stage.reading (.parseHeader, c) k)
        (headerScanner.run c.b.pos (.load c.r) c.b.unread)) :=
    rounds_header (Stage.reading (.parseHeader, c) k) hpos (.load c.r)
  rcases httpParseRequestHeader_cases c.r c.b with ⟨l, hscan, he⟩ | ⟨p, l, hscan, he⟩ |
    ⟨p, l, hscan, he⟩ | ⟨p, code, l, hscan, hneg, he⟩
  · rw [hscan] at hrun
    simp only [serveStep, he]
    exact hrun
  · rw [hscan] at hrun
    simp only [serveStep, he]
    exact hrun
  · rw [hscan] at hrun
    simp only [serveStep, he]
    exact hrun
  · have hone : code ≠ 1 := by omega
    have hhundred : code ≠ 100 := by omega
    rw [hscan] at hrun
    simp only [serveStep, he, if_neg hneg.ne, if_neg hone, if_neg hhundred]
    exact hrun

/-! ## The header handlers -/

namespace Reading

variable (x : Reading) (mem : List UInt8)

/-- A point in the loop of `http_process_host`, with the received bytes as they are there. -/
def hostPoint (i : ℕ) (l : HostLocals) : Reading :=
  { x with pc := .hostByte i l, b := { x.b with data := mem } }

def hostScan : ℤ ⊕ HostLocals → Reading
  | .inl _ => { x with pc := .finalized 400, b := { x.b with data := mem } }
  | .inr l => { x with b := { x.b with data := mem } }.hostEnd l

end Reading

theorem rounds_host (x : Reading) {q : ℕ} (hq : x.r.headerValue.p = some q) {a : List UInt8}
    (ha : a.length = q) (z : List UInt8) {done todo : List UInt8}
    (hlen : done.length + todo.length = x.r.headerValue.len) (l : HostLocals) :
    Rounds ht (x.hostPoint (a ++ (done ++ (todo ++ z))) done.length l)
      (x.hostScan (a ++ (done ++ ((hostLoop done.length l todo).2 ++ z)))
        (hostLoop done.length l todo).1) := by
  induction todo generalizing done l with
  | nil =>
    have hend : x.r.headerValue.len ≤ done.length := by
      rw [← hlen]
      simp
    exact .single (.hostEnd (x.hostPoint _ done.length l) _ l rfl hend)
  | cons ch rest ih =>
    have hi : done.length < x.r.headerValue.len := by
      rw [← hlen]
      simp
    have hbyte : x.r.headerValue.byteAt (a ++ (done ++ (ch :: rest ++ z))) done.length = some ch := by
      simp [Str.byteAt, hq, ← ha]
    have hround : ReadStep ht (x.hostPoint (a ++ (done ++ (ch :: rest ++ z))) done.length l) _ :=
      .hostByte (x.hostPoint _ done.length l) done.length l rfl hi ch hbyte
    rw [hostLoop]
    cases hv : hostByte done.length l ch with
    | inl code =>
      rw [hv] at hround
      exact .single hround
    | inr out =>
      obtain ⟨l', ch'⟩ := out
      have hset : x.r.headerValue.setByte (a ++ (done ++ (ch :: rest ++ z))) done.length ch' =
          a ++ (done ++ [ch'] ++ (rest ++ z)) := by
        simp [Str.setByte, hq, ← ha]
      have hnext : (x.hostPoint (a ++ (done ++ (ch :: rest ++ z))) done.length l).hostVerdict
          done.length (.inr (l', ch')) =
            x.hostPoint (a ++ (done ++ [ch'] ++ (rest ++ z))) (done ++ [ch']).length l' := by
        rw [← hset, List.length_append, List.length_singleton]
        rfl
      have hlen' : (done ++ [ch']).length + rest.length = x.r.headerValue.len := by
        rw [← hlen]
        simp [Nat.add_assoc, Nat.add_comm 1]
      have hrest : Rounds ht (x.hostPoint (a ++ (done ++ [ch'] ++ (rest ++ z)))
            (done ++ [ch']).length l')
          (x.hostScan (a ++ (done ++ (ch' :: (hostLoop (done.length + 1) l' rest).2 ++ z)))
            (hostLoop (done.length + 1) l' rest).1) := by
        simpa using ih hlen' l'
      rw [hv, hnext] at hround
      exact .head hround hrest

theorem Str.Closed.split {s : Str} {mem : List UInt8} (h : s.Closed 0 mem.length) :
    ∃ q a z, s.p = some q ∧ a.length = q ∧ (s.get mem).length = s.len ∧
      mem = a ++ (s.get mem ++ z) ∧
      ∀ w, w.length = s.len → s.put w mem = a ++ (w ++ z) := by
  obtain ⟨q, hq, -, hle⟩ := h
  have hget : s.get mem = (mem.drop q).take s.len := by rw [Str.get, hq]
  refine ⟨q, mem.take q, mem.drop (q + s.len), hq, List.length_take_of_le (by omega), ?_, ?_, ?_⟩
  · rw [hget, List.length_take_of_le]
    rw [List.length_drop]
    omega
  · rw [hget, ← List.drop_drop, List.take_append_drop, List.take_append_drop]
  · intro w hw
    rw [Str.put, hq]
    dsimp only
    rw [hw, List.append_assoc]

theorem rounds_hostLoop {r : HttpRequest} {b : Buffer} (hvalue : r.headerValue.Within b.data.length)
    (k : ℕ) (l : HostLocals) :
    Rounds ht ⟨.hostByte 0 l, r, b, k⟩
      (Reading.hostScan ⟨.handle, r, b, k⟩
        (r.headerValue.put (hostLoop 0 l (r.headerValue.get b.data)).2 b.data)
        (hostLoop 0 l (r.headerValue.get b.data)).1) := by
  rcases hvalue with hnull | hclosed
  · rw [hnull]
    refine .single (.hostEnd ⟨.hostByte 0 l, r, b, k⟩ 0 l rfl ?_)
    rw [hnull]
    exact le_rfl
  · obtain ⟨q, a, z, hq, ha, hlen, hmem, hput⟩ := hclosed.split
    have hnil : ([] : List UInt8).length + (r.headerValue.get b.data).length =
        r.headerValue.len := by rw [List.length_nil, Nat.zero_add, hlen]
    have hloop : Rounds ht (Reading.hostPoint ⟨.handle, r, b, k⟩ _ 0 l) _ :=
      rounds_host ⟨.handle, r, b, k⟩ hq ha z hnil l
    rw [List.nil_append, List.nil_append, ← hmem, ← hput _ ((hostLoop_length ..).trans hlen)] at hloop
    exact hloop

theorem rounds_httpProcessHost {c : Conn} (hvalue : c.r.headerValue.Within c.b.data.length)
    (k : ℕ) :
    Rounds ht (Reading.hostStart ⟨.handle, c.r, c.b, k⟩)
      (Stage.reading (if (httpProcessHost c.r c.b.data).1 ≠ 0 then .finalized 400 else .parseHeader,
        c.set ((httpProcessHost c.r c.b.data).2.1,
          c.b.store (httpProcessHost c.r c.b.data).2.2)) k) := by
  have hrun : Rounds ht (Reading.hostStart ⟨.handle, c.r, c.b, k⟩) _ :=
    rounds_hostLoop (r := { c.r with host.p := c.r.headerValue.p }) hvalue k
      ⟨.usual, c.r.headerValue.len, c.r.headerValue.len⟩
  generalize hout : hostLoop 0 ⟨.usual, c.r.headerValue.len, c.r.headerValue.len⟩
    (c.r.headerValue.get c.b.data) = out at hrun
  have hstore : c.b.store (c.r.headerValue.put out.2 c.b.data) =
      { c.b with data := c.r.headerValue.put out.2 c.b.data } := by
    refine Buffer.store_of_length (Str.put_append ?_ ?_ []).2
    · intro q hq
      rcases hvalue with hnull | ⟨q', hq', -, hle⟩
      · rw [hnull] at hq
        cases hq
      · obtain rfl := Option.some.inj (hq.symm.trans hq')
        exact hle
    · rw [← hout, hostLoop_length]
  obtain ⟨code | l, w⟩ := out
  · have hresult : httpProcessHost c.r c.b.data =
        (code, { c.r with host.p := c.r.headerValue.p }, c.r.headerValue.put w c.b.data) := by
      simp only [httpProcessHost, hout]
    rw [hresult, if_pos (hostLoop_code hout).ne, hstore]
    exact hrun
  · have hrun' : Rounds ht (Reading.hostStart ⟨.handle, c.r, c.b, k⟩) (Reading.hostEnd ⟨.handle,
        { c.r with host.p := c.r.headerValue.p },
        { c.b with data := c.r.headerValue.put w c.b.data }, k⟩ l) := hrun
    unfold Reading.hostEnd at hrun'
    split_ifs at hrun' with hcut
    · have hresult : httpProcessHost c.r c.b.data = (-3,
          { c.r with host.p := c.r.headerValue.p }, c.r.headerValue.put w c.b.data) := by
        simp only [httpProcessHost, hout]
        exact if_pos hcut
      rw [hresult, if_pos (show (-3 : ℤ) ≠ 0 by decide), hstore]
      exact hrun'
    · rw [httpProcessHost_of_loop hout hcut, if_neg (by simp), hstore]
      exact hrun'

theorem rounds_atoi (x : Reading) {i : ℕ} {todo : List UInt8}
    (hlen : i + todo.length = x.r.headerValue.len)
    (hbytes : ∀ j ch, todo[j]? = some ch → x.r.headerValue.byteAt x.b.data (i + j) = some ch)
    (val : ℤ) :
    Rounds ht { x with pc := .atoiByte i val } (x.lengthReturn (strAtoiFrom val todo)) := by
  induction todo generalizing i val with
  | nil => exact .single (.atoiEnd { x with pc := .atoiByte i val } i val rfl hlen.ge)
  | cons ch rest ih =>
    rw [List.length_cons] at hlen
    have hround : ReadStep ht { x with pc := .atoiByte i val } _ :=
      .atoiByte { x with pc := .atoiByte i val } i val rfl (show i < x.r.headerValue.len by omega)
        ch (hbytes 0 ch rfl)
    unfold Reading.atoiVerdict at hround
    rw [strAtoiFrom]
    split_ifs at hround ⊢
    · refine .head hround (ih (i := i + 1) (by omega) (fun j ch' hj => ?_) _)
      rw [Nat.add_assoc, Nat.add_comm 1]
      exact hbytes (j + 1) ch' hj
    · exact .single hround

theorem rounds_httpProcessContentLength {c : Conn}
    (hvalue : c.r.headerValue.Within c.b.data.length) (k : ℕ) :
    Rounds ht ⟨.atoiByte 0 0, c.r, c.b, k⟩
      (Stage.reading (if (httpProcessContentLength c.r c.b.data).1 ≠ 0 then .finalized 400
        else .parseHeader, c.set ((httpProcessContentLength c.r c.b.data).2.1,
          c.b.store (httpProcessContentLength c.r c.b.data).2.2)) k) := by
  have hrun : Rounds ht ⟨.atoiByte 0 0, c.r, c.b, k⟩ (Reading.lengthReturn ⟨.handle, c.r, c.b, k⟩
      (strAtoi (c.r.headerValue.get c.b.data))) := by
    rcases hvalue with hnull | hclosed
    · refine rounds_atoi ⟨.handle, c.r, c.b, k⟩ ?_ ?_ 0
      · rw [hnull]
        rfl
      · rw [hnull]
        simp [Str.get, strInit]
    · obtain ⟨q, a, z, hq, ha, hlen, hmem, -⟩ := hclosed.split
      refine rounds_atoi ⟨.handle, c.r, c.b, k⟩ (by rw [Nat.zero_add, hlen]) (fun j ch hj => ?_) 0
      have hj' := (List.getElem?_eq_some_iff.mp hj).1
      rw [Str.byteAt, hq]
      dsimp only
      rw [hmem, Nat.zero_add, ← ha, List.getElem?_append_right (Nat.le_add_right _ _),
        Nat.add_sub_cancel_left, List.getElem?_append_left hj', hj]
  have hstore : c.b.store c.b.data = c.b := Buffer.store_of_length rfl
  by_cases hle : strAtoi (c.r.headerValue.get c.b.data) ≤ 0
  · have hresult : httpProcessContentLength c.r c.b.data =
        (-1, { c.r with contentLen := strAtoi (c.r.headerValue.get c.b.data) }, c.b.data) :=
      if_pos hle
    rw [Reading.lengthReturn, if_pos hle] at hrun
    rw [hresult, if_pos (show (-1 : ℤ) ≠ 0 by decide), hstore]
    exact hrun
  · have hresult : httpProcessContentLength c.r c.b.data =
        (0, { c.r with contentLen := strAtoi (c.r.headerValue.get c.b.data) }, c.b.data) :=
      if_neg hle
    rw [Reading.lengthReturn, if_neg hle] at hrun
    rw [hresult, if_neg (by simp), hstore]
    exact hrun

theorem rounds_handleHeader {malloc malloc' : ℕ → Bool}
    (hht : requestHeaderTable malloc malloc' [] = some ht) {c : Conn}
    (hvalue : c.r.headerValue.Within c.b.data.length) (k : ℕ) :
    Rounds ht (Stage.reading (.handleHeader, c) k)
      (Stage.reading (serveStep ht (.handleHeader, c)) k) := by
  cases hf : headerHandler ht c.r with
  | none =>
    have hresult : handleHttpRequestHeader ht c.r c.b = (0, c.r, c.b) := by
      unfold headerHandler at hf
      rw [handleHttpRequestHeader, hf]
    simp only [serveStep, hresult]
    exact .single (.noHandler (Stage.reading (.handleHeader, c) k) rfl hf)
  | some f =>
    have hresult : handleHttpRequestHeader ht c.r c.b =
        ((f c.r c.b.data).1, (f c.r c.b.data).2.1, c.b.store (f c.r c.b.data).2.2) := by
      unfold headerHandler at hf
      rw [handleHttpRequestHeader, hf]
    obtain ⟨hh, hd, hf'⟩ := Option.bind_eq_some_iff.mp hf
    simp only [serveStep, hresult]
    rcases requestHeaderTable_builtin_only hht (dispatched_find hd) hf' with rfl | rfl
    · exact .head (.host (Stage.reading (.handleHeader, c) k) rfl hf)
        (rounds_httpProcessHost hvalue k)
    · exact .head (.contentLength (Stage.reading (.handleHeader, c) k) rfl hf)
        (rounds_httpProcessContentLength hvalue k)

/-! ## The machine of calls -/

/-- Every call is a run of rounds. -/
theorem rounds_serveStep {malloc malloc' : ℕ → Bool}
    (hht : requestHeaderTable malloc malloc' [] = some ht) {size : ℕ} {y : Stage × Conn}
    (h : Stage.Inv size y) (k : ℕ) :
    ∃ k', Rounds ht (Stage.reading y k) (Stage.reading (serveStep ht y) k') := by
  obtain ⟨s, c⟩ := y
  have hpos : c.b.pos ≤ c.b.data.length := h.ordered.pos_le_last
  cases s with
  | recvLine => exact ⟨k + 1, rounds_recv c .line k⟩
  | parseLine => exact ⟨k, rounds_parseLine hpos k⟩
  | parseHeader => exact ⟨k, rounds_parseHeader hpos k⟩
  | handleHeader => exact ⟨k, rounds_handleHeader hht h.spans.2.2 k⟩
  | recvHeader => exact ⟨k + 1, rounds_recv c .header k⟩
  | body =>
    have htest : ReadStep ht ⟨.bodyTest, c.r, c.b, k⟩ _ := .body _ rfl
    by_cases hlen : (c.b.data.length - c.b.pos : ℤ) = c.r.contentLen
    · rw [Reading.bodyVerdict, if_pos hlen] at htest
      refine ⟨k, ?_⟩
      simp only [serveStep, if_pos hlen]
      exact .single htest
    · rw [Reading.bodyVerdict, if_neg hlen] at htest
      refine ⟨k + 1, ?_⟩
      simp only [serveStep, if_neg hlen]
      exact .head htest (rounds_recv c .body k)
  | finalized status => exact ⟨k, .refl⟩
  | handled => exact ⟨k, .refl⟩

/-- Whatever the socket delivers, there are rounds that end as `http_request_handler` does. -/
theorem rounds_served {malloc malloc' : ℕ → Bool}
    (hht : requestHeaderTable malloc malloc' [] = some ht) (g : HttpRequest) (mem : List UInt8)
    (sock : Socket) :
    ∃ y k, Rounds ht (Reading.start g mem) (Stage.reading y k) ∧
      Stage.served y = some (httpRequestHandler ht g mem sock) := by
  obtain ⟨y, ⟨n, rfl⟩, hserved⟩ := reaches_served ht g mem sock
  have hrun : ∀ n, ∃ k, Rounds ht (Reading.start g mem)
      (Stage.reading ((serveStep ht)^[n] (.recvLine, ⟨g.init, Buffer.bind mem, sock⟩)) k) ∧
        Stage.Inv mem.length ((serveStep ht)^[n] (.recvLine, ⟨g.init, Buffer.bind mem, sock⟩)) := by
    intro n
    induction n with
    | zero => exact ⟨0, .refl, Stage.inv_init g mem sock⟩
    | succ n ih =>
      obtain ⟨k, hrun, hinv⟩ := ih
      obtain ⟨k', hstep⟩ := rounds_serveStep hht hinv k
      rw [Function.iterate_succ_apply']
      exact ⟨k', hrun.trans hstep, hinv.step hht⟩
  obtain ⟨k, hrun, -⟩ := hrun n
  exact ⟨_, k, hrun, hserved⟩

end Cserv.Http
