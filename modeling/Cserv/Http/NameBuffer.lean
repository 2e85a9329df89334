import Cserv.Http.Recycle

/-!
# The buffer of header names

`http_parse_request_header` stores the lower-cased bytes of a name in `lowcase_header`, at an
index it loads from the request. The index is masked after each store, and it is set only by
a name that starts with a valid byte; what memory held there is used as it is by a first name
that starts with another byte.
-/
namespace Cserv.Http

open Foundations Util

/-- The saved index is in range, and so was every index of a store. -/
def HttpRequest.InBounds (r : HttpRequest) : Prop :=
  r.lowcaseIndex < HTTP_LC_HEADER_LEN ∧ r.lowcaseOverrun = false

/-! ## The parsers -/

def HeaderLocals.InBounds (l : HeaderLocals) : Prop := l.i < HTTP_LC_HEADER_LEN ∧ l.r.InBounds

def HeaderStop.InBounds : HeaderStop → Prop
  | .done l | .headerDone l | .fail _ l => l.InBounds

theorem storeLowcase_inBounds {r : HttpRequest} {i : ℕ} (c : UInt8) (h : r.InBounds)
    (hi : i < HTTP_LC_HEADER_LEN) : (storeLowcase r i c).InBounds := by
  refine ⟨h.1, ?_⟩
  simp [storeLowcase, h.2, Nat.not_le.mpr hi]

theorem headerStep_inBounds (p : ℕ) (ch : UInt8) {l : HeaderLocals} (h : l.InBounds) :
    (headerStep p ch l).All HeaderLocals.InBounds HeaderLocals.InBounds HeaderStop.InBounds := by
  obtain ⟨st, hash, i, r⟩ := l
  obtain ⟨hi, hr⟩ := h
  have hnext : (i + 1) &&& (HTTP_LC_HEADER_LEN - 1) < HTTP_LC_HEADER_LEN :=
    Nat.lt_succ_of_le Nat.and_le_right
  have hone : 1 < HTTP_LC_HEADER_LEN := by decide
  cases st <;> repeat' refine Verdict.All.ite (fun _ => ?_) (fun _ => ?_)
  case start.refine_2.refine_2.refine_1 =>
    exact ⟨hone, storeLowcase_inBounds (lowcase ch) hr (by decide)⟩
  case name.refine_1 => exact ⟨hnext, storeLowcase_inBounds (lowcase ch) hr hi⟩
  all_goals exact ⟨hi, hr⟩

theorem httpParseRequestHeader_inBounds {r : HttpRequest} (b : Buffer) (h : r.InBounds) :
    (httpParseRequestHeader r b).2.1.InBounds := by
  have hrun := headerScanner.run_inv (fun _ => HeaderLocals.InBounds)
    (fun _ => HeaderStop.InBounds) b.unread (p := b.pos) (s := .load r)
    (fun q ch l _ _ hl => headerStep_inBounds q ch hl) ⟨h.1, h⟩
  rcases httpParseRequestHeader_cases r b with ⟨l, hl, he⟩ | ⟨p, l, hl, he⟩ | ⟨p, l, hl, he⟩ |
    ⟨p, code, l, hl, -, he⟩ <;> rw [hl] at hrun <;> rw [he]
  · exact ⟨hrun.1, hrun.2.2⟩
  · exact ⟨hrun.1, hrun.2.2⟩
  · exact hrun.2
  · exact hrun.2

def LineStop.InBounds : LineStop → Prop
  | .done r | .fail _ r => r.InBounds

theorem lineStep_inBounds (mem : List UInt8) (p : ℕ) (ch : UInt8) {s : LineState × HttpRequest}
    (h : s.2.InBounds) :
    (lineStep mem p ch s).All (fun s' => s'.2.InBounds) (fun s' => s'.2.InBounds)
      LineStop.InBounds := by
  obtain ⟨st, r⟩ := s
  cases st <;> repeat' refine Verdict.All.ite (fun _ => ?_) (fun _ => ?_)
  all_goals exact h

theorem httpParseRequestLine_inBounds {r : HttpRequest} (b : Buffer) (h : r.InBounds) :
    (httpParseRequestLine r b).2.1.InBounds := by
  have hrun := (lineScanner b.data).run_inv (fun _ s => s.2.InBounds)
    (fun _ => LineStop.InBounds) b.unread (p := b.pos) (s := (LineState.ofCode r.state, r))
    (fun q ch s _ _ hs => lineStep_inBounds b.data q ch hs) h
  rcases httpParseRequestLine_cases r b with ⟨st, r', hr, he⟩ | ⟨p, r', hr, he⟩ |
    ⟨p, code, r', hr, -, he⟩ <;> rw [hr] at hrun <;> rw [he] <;> exact hrun

/-! ## Connections -/

theorem httpProcessRequestLine_inBounds {c : Conn} (h : c.r.InBounds) :
    (httpProcessRequestLine c).2.r.InBounds := by
  have hparse : ∀ {c c' : Conn}, recvHttpRequest c = (0, c') → c.r.InBounds →
      (httpParseRequestLine c'.r c'.b).2.1.InBounds := by
    intro c c' hrecv hc
    apply httpParseRequestLine_inBounds
    rw [recvHttpRequest_request hrecv]
    exact hc
  fun_induction httpProcessRequestLine c with
  | case1 c c' hrecv out hzero => exact hparse hrecv h
  | case2 c c' hrecv out hzero hpos ih => exact ih (hparse hrecv h)
  | case3 c c' hrecv out hzero hpos => exact hparse hrecv h
  | case4 c code c' hne hrecv =>
    change c'.r.InBounds
    rw [recvHttpRequest_request hrecv]
    exact h

/-- The handlers of a table leave the index and the buffer alone. -/
def HandlersInBounds (ht : HeaderTable) : Prop :=
  ∀ (r : HttpRequest) (b : Buffer), r.InBounds → (handleHttpRequestHeader ht r b).2.1.InBounds

theorem builtinTable_inBounds : HandlersInBounds builtinTable := by
  intro r b h
  unfold handleHttpRequestHeader
  split
  · rename_i f hbind
    obtain ⟨hh, hd, hf⟩ := Option.bind_eq_some_iff.mp hbind
    rcases requestHeaderTable_builtin_only requestHeaderTable_builtin (dispatched_find hd) hf with
      rfl | rfl
    · unfold httpProcessHost
      dsimp only
      split
      · exact h
      · split_ifs <;> exact h
    · unfold httpProcessContentLength
      dsimp only
      split_ifs <;> exact h
  · exact h

theorem httpProcessRequestHeader_inBounds {ht : HeaderTable} (hht : HandlersInBounds ht) {c : Conn}
    (h : c.r.InBounds) : (httpProcessRequestHeader ht c).2.r.InBounds := by
  have hparse : ∀ {c : Conn} {code : ℤ} {r : HttpRequest} {b : Buffer}, c.r.InBounds →
      httpParseRequestHeader c.r c.b = (code, r, b) → r.InBounds := by
    intro c code r b hc hp
    have hr := httpParseRequestHeader_inBounds c.b hc
    rw [hp] at hr
    exact hr
  fun_induction httpProcessRequestHeader ht c with
  | case1 c r b hp out hcode => exact hht r b (hparse h hp)
  | case2 c r b hp out hcode ih => exact ih (hht r b (hparse h hp))
  | case3 c r b hp c' hrecv ih =>
    apply ih
    rw [recvHttpRequest_request hrecv]
    exact hparse h hp
  | case4 c r b hp code c' hne hrecv =>
    change c'.r.InBounds
    rw [recvHttpRequest_request hrecv]
    exact hparse h hp
  | case5 c r b hp => exact hparse h hp
  | case6 c code r b h₀ h₁ h₁₀₀ hp => exact hparse h hp

/-! ## The whole request -/

/-- The request as `http_request_handler` has it when it has called `http_parse_request_header` for
the last time. -/
def requestAfterHeader (ht : HeaderTable) (g : HttpRequest) (mem : List UInt8) (sock : Socket) :
    HttpRequest :=
  let line := httpProcessRequestLine ⟨g.init, Buffer.bind mem, sock⟩
  if line.1 ≠ 0 ∨ line.2.r.httpVersion < 1000 then line.2.r
  else (httpProcessRequestHeader ht line.2).2.r

theorem recvBody_request (c : Conn) : (recvBody c).2.r = c.r := by
  fun_induction recvBody c with
  | case1 c hlen => rfl
  | case2 c hlen c' hrecv ih => rw [ih, recvHttpRequest_request hrecv]
  | case3 c hlen code c' hne hrecv => exact recvHttpRequest_request hrecv

theorem httpProcessRequestBody_lowcaseOverrun (c : Conn) :
    (httpProcessRequestBody c).2.r.lowcaseOverrun = c.r.lowcaseOverrun := by
  have hsame := congrArg HttpRequest.lowcaseOverrun (recvBody_request c)
  unfold httpProcessRequestBody
  dsimp only
  split_ifs <;> exact hsame

theorem requestAfterHeader_handled {ht : HeaderTable} {g : HttpRequest} {mem : List UInt8}
    {sock : Socket} {d : Conn} (h : httpRequestHandler ht g mem sock = .handled d) :
    (requestAfterHeader ht g mem sock).lowcaseOverrun = d.r.lowcaseOverrun := by
  unfold httpRequestHandler httpRequestHandlerBody at h
  unfold requestAfterHeader
  dsimp only at h ⊢
  split_ifs at h with hline hversion hheader hbody
  · cases h
    rw [if_pos (Or.inr hversion)]
  · rw [if_neg (by tauto)]
    cases h
    exact (httpProcessRequestBody_lowcaseOverrun _).symm

/-- On all connections every store into `lowcase_header` is in range, if and only if the index that
memory holds at the first header is. -/
theorem lowcase_inBounds_iff (g : HttpRequest) :
    (∀ mem sock, (requestAfterHeader builtinTable g mem sock).lowcaseOverrun = false) ↔
      g.lowcaseIndex < HTTP_LC_HEADER_LEN := by
  constructor
  · intro h
    have hroom : 24 ≤ (List.replicate 24 (0 : UInt8)).length := by decide
    obtain ⟨d, hd, -, -, -, -, hover⟩ := httpRequestHandler_flagProbe g hroom
    have hfalse := h (List.replicate 24 0) flagProbe
    rw [requestAfterHeader_handled hd, hover] at hfalse
    simpa using hfalse
  · intro hindex mem sock
    have hinit : g.init.InBounds := ⟨hindex, rfl⟩
    have hline : (httpProcessRequestLine ⟨g.init, Buffer.bind mem, sock⟩).2.r.InBounds :=
      httpProcessRequestLine_inBounds hinit
    unfold requestAfterHeader
    dsimp only
    split_ifs
    · exact hline.2
    · exact (httpProcessRequestHeader_inBounds builtinTable_inBounds hline).2

/-- Memory holds the index 32, and the first name starts with an underscore. -/
theorem lowcase_overrun :
    (requestAfterHeader builtinTable { (default : HttpRequest) with lowcaseIndex := 32 }
      (List.replicate 24 0)
      [.data (bytes "GET / HTTP/1.1\r\n_a\r\n\r\n")]).lowcaseOverrun = true := by
  decide +kernel

end Cserv.Http
