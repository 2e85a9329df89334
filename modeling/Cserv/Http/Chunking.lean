import Cserv.Http.Process

/-!
# Parsing does not depend on how the bytes arrive

Every run is compared with one that finds all the bytes its socket can deliver
in the buffer from the start. The parsers resume where they stopped, so both
runs read the same bytes in the same states; a byte is never looked at before
it has arrived, and what a header handler rewrites is never read again.
-/
namespace Cserv.Http

open Foundations Util

/-! ## The request line -/

/-- A method name that is being read starts at or before the current byte. -/
def MethodSeen (p : ℕ) (s : LineState × HttpRequest) : Prop :=
  s.1 = .method → ∃ q, s.2.methodName.p = some q ∧ q ≤ p

theorem lineStep_methodSeen {mem : List UInt8} {p : ℕ} {ch : UInt8} {s : LineState × HttpRequest}
    (h : MethodSeen p s) :
    (lineStep mem p ch s).All (MethodSeen (p + 1)) (MethodSeen p) (fun _ => True) := by
  obtain ⟨st, r⟩ := s
  cases st <;> repeat' refine Verdict.All.ite (fun _ => ?_) (fun _ => ?_)
  case start.refine_2.refine_1 => exact fun _ => ⟨p, rfl, Nat.le_succ p⟩
  case method.refine_2.refine_1 =>
    intro _
    obtain ⟨q, hq, hle⟩ := h rfl
    exact ⟨q, hq, hle.trans (Nat.le_succ p)⟩
  all_goals first | exact True.intro | (intro hst; cases hst)

theorem lineStep_append_mem {mem : List UInt8} {p : ℕ} (late : List UInt8) (ch : UInt8)
    {s : LineState × HttpRequest} (h : MethodSeen p s) (hp : p ≤ mem.length) :
    lineStep mem p ch s = lineStep (mem ++ late) p ch s := by
  obtain ⟨st, r⟩ := s
  cases st
  case method =>
    obtain ⟨q, hq, hle⟩ := h rfl
    dsimp only at hq
    have hget : ({ p := some q, len := p - q } : Str).get mem =
        ({ p := some q, len := p - q } : Str).get (mem ++ late) := by
      simp only [Str.get]
      rw [List.drop_append_of_le_length (by omega), List.take_append_of_le_length]
      simp only [List.length_drop]
      omega
    simp only [lineStep, stepMethod, hq, ptrSub_some_of_le hle, hget]
  all_goals rfl

theorem lineRun_append_mem {mem : List UInt8} {p : ℕ} (late bs : List UInt8)
    {s : LineState × HttpRequest} (h : MethodSeen p s) (hp : p + bs.length ≤ mem.length) :
    (lineScanner mem).run p s bs = (lineScanner (mem ++ late)).run p s bs := by
  apply Scanner.run_congr _ _ MethodSeen bs _ h
  intro q ch s hq hch hs
  have hlt : q - p < bs.length := by
    by_contra hge
    simp [List.getElem?_eq_none (by omega : bs.length ≤ q - p)] at hch
  exact ⟨lineStep_append_mem late ch hs (by omega), lineStep_methodSeen hs⟩

/-- The result of the loop with another value in `r->state`, which it never reads. -/
def LineStop.setState (n : ℕ) : LineStop → LineStop
  | .done r => .done { r with state := n }
  | .fail code r => .fail code { r with state := n }

def setLineState (n : ℕ) (s : LineState × HttpRequest) : LineState × HttpRequest :=
  (s.1, { s.2 with state := n })

theorem lineStep_setState (mem : List UInt8) (p : ℕ) (ch : UInt8) (n : ℕ)
    (s : LineState × HttpRequest) :
    Verdict.Rel (fun s t => t = setLineState n s) (fun s t => t = setLineState n s)
      (fun x y => y = x.setState n)
      (lineStep mem p ch s) (lineStep mem p ch (setLineState n s)) := by
  obtain ⟨st, r⟩ := s
  cases st <;> repeat' refine Verdict.Rel.ite (fun _ => ?_) (fun _ => ?_)
  all_goals first | exact .next rfl | exact .again rfl | exact .stop rfl

theorem lineRun_setState (mem : List UInt8) (p : ℕ) (n : ℕ) (s : LineState × HttpRequest)
    (bs : List UInt8) :
    Scan.Rel (fun s t => t = setLineState n s) (fun _ x y => y = x.setState n)
      ((lineScanner mem).run p s bs) ((lineScanner mem).run p (setLineState n s) bs) := by
  apply Scanner.run_rel _ _ (fun _ s t => t = setLineState n s)
  · intro q ch s t _ _ hst
    subst hst
    exact lineStep_setState mem q ch n s
  · rfl

/-- The buffer once the bytes `late` have arrived too, with no room left. -/
def Buffer.full (b : Buffer) (late : List UInt8) : Buffer := ⟨b.data ++ late, [], b.pos⟩

theorem Buffer.full_unread {b : Buffer} (h : b.pos ≤ b.data.length) (late : List UInt8) :
    (b.full late).unread = b.unread ++ late := by
  simp only [Buffer.unread, Buffer.full]
  rw [List.drop_append_of_le_length h]

section Line

variable {r : HttpRequest} {b : Buffer} (late : List UInt8) (hpos : b.pos ≤ b.data.length)
  (hm : MethodSeen b.pos (LineState.ofCode r.state, r))

include hpos hm

theorem lineRun_full :
    (lineScanner (b.full late).data).run (b.full late).pos (LineState.ofCode r.state, r)
        (b.full late).unread =
      ((lineScanner b.data).run b.pos (LineState.ofCode r.state, r) b.unread).resume
        (fun s => (lineScanner (b.data ++ late)).run b.data.length s late) := by
  have hlen := b.pos_add_unread hpos
  rw [Buffer.full_unread hpos, lineRun_append_mem late b.unread hm hlen.le, ← hlen]
  exact Scanner.run_append _ _ _ _ _

/-- A line that is complete or wrong is so whatever arrives behind it. -/
theorem httpParseRequestLine_full (h : (httpParseRequestLine r b).1 ≠ 1) :
    httpParseRequestLine r (b.full late) =
      ((httpParseRequestLine r b).1, (httpParseRequestLine r b).2.1,
        (httpParseRequestLine r b).2.2.full late) := by
  have hrun := lineRun_full late hpos hm
  rcases httpParseRequestLine_cases r b with ⟨st, r', hr, he⟩ | ⟨p, r', hr, he⟩ |
    ⟨p, code, r', hr, hneg, he⟩
  · simp [he] at h
  · rw [hr] at hrun
    rw [he]
    simp only [httpParseRequestLine, hrun, Scan.resume]
    rfl
  · rw [hr] at hrun
    simp only [httpParseRequestLine, hrun, hr, Scan.resume]

theorem httpParseRequestLine_resume {r' : HttpRequest} {b' : Buffer}
    (h : httpParseRequestLine r b = (1, r', b')) :
    b' = { b with pos := b.data.length } ∧
      MethodSeen b'.pos (LineState.ofCode r'.state, r') ∧
      ∀ out, httpParseRequestLine r' (b'.full late) = (0, out) ↔
        httpParseRequestLine r (b.full late) = (0, out) := by
  have hrun := lineRun_full late hpos hm
  have hseen := (lineScanner b.data).run_inv MethodSeen (fun _ _ => True) b.unread
    (fun q ch s _ _ hs => lineStep_methodSeen hs) hm
  rcases httpParseRequestLine_cases r b with ⟨st, r₁, hr, he⟩ | ⟨p, r', hr, he⟩ |
    ⟨p, code, r', hr, hneg, he⟩
  · rw [he] at h
    obtain ⟨rfl, rfl⟩ := Prod.mk.inj (Prod.mk.inj h).2
    rw [hr] at hrun hseen
    have hlen := b.pos_add_unread hpos
    refine ⟨rfl, ?_, ?_⟩
    · intro hst
      dsimp only
      rw [← hlen]
      exact hseen (by simpa using hst)
    · intro out
      have hrel := lineRun_setState (b.data ++ late) b.data.length st.code (st, r₁) late
      have hrun' : (lineScanner (Buffer.full { b with pos := b.data.length } late).data).run
          (Buffer.full { b with pos := b.data.length } late).pos
          (LineState.ofCode st.code, { r₁ with state := st.code })
          (Buffer.full { b with pos := b.data.length } late).unread =
          (lineScanner (b.data ++ late)).run b.data.length (setLineState st.code (st, r₁)) late := by
        simp [Buffer.full, Buffer.unread, setLineState]
      simp only [httpParseRequestLine, hrun, hrun', Scan.resume]
      cases hx : (lineScanner (b.data ++ late)).run b.data.length (st, r₁) late <;>
        cases hy : (lineScanner (b.data ++ late)).run b.data.length
          (setLineState st.code (st, r₁)) late <;>
        rw [hx, hy] at hrel <;> cases hrel
      case more.more.more hs => simp
      case halt.halt.halt p x _ hq =>
        subst hq
        cases x with
        | done r₂ => exact Iff.rfl
        | fail code r₂ =>
          have hneg := lineRun_fail_neg hx
          constructor <;> intro h' <;> obtain ⟨rfl, -⟩ := Prod.mk.inj h' <;> omega
  · rw [he] at h
    have hle := lineDone_nonpos p r' b
    simp [h] at hle
  · rw [he] at h
    obtain ⟨rfl, -⟩ := Prod.mk.inj h
    omega

end Line

def Conn.available (c : Conn) : List UInt8 := (sockBytes c.sock).take c.b.free.length

def Conn.full (c : Conn) : Conn := ⟨c.r, c.b.full c.available, []⟩

theorem Conn.full_full (c : Conn) : c.full.full = c.full := by
  simp [Conn.full, Buffer.full, Conn.available, sockBytes]

theorem Conn.set_full {c : Conn} {r : HttpRequest} {b : Buffer} (h : b.free = c.b.free) :
    (c.set (r, b)).full = c.full.set (r, b.full c.available) := by
  simp only [Conn.full, Conn.available, Conn.set, h]

theorem recvHttpRequest_full {c c' : Conn} (h : recvHttpRequest c = (0, c')) :
    c'.full = c.full ∧ c'.r = c.r ∧ c'.b.pos = c.b.pos ∧ c.b.data.length ≤ c'.b.data.length := by
  obtain ⟨got, -, hle, hbytes, hb, hr⟩ := recvHttpRequest_zero h
  have hav : c.available = got ++ c'.available := by
    simp only [Conn.available, hbytes, hb, Buffer.append, List.length_drop]
    rw [List.take_append, List.take_of_length_le hle]
  refine ⟨?_, hr, by rw [hb]; rfl, by simp [hb, Buffer.append]⟩
  simp only [Conn.full, Buffer.full, hr, hav, hb, Buffer.append, List.append_assoc]

theorem recvHttpRequest_available {c : Conn} (h : (recvHttpRequest c).1 ≠ 0) :
    c.available = [] := by
  rcases recvHttpRequest_ne_zero h with h' | h' <;> simp [Conn.available, h']

/-- What a successful call leaves, with the bytes still to come. -/
def lineOutcome (x : ℤ × Conn) : Option Conn := if x.1 = 0 then some x.2.full else none

theorem httpParseRequestLine_nil {r : HttpRequest} {b : Buffer} (h : b.unread = []) :
    (httpParseRequestLine r b).1 = 1 := by
  simp [httpParseRequestLine, h]

/-- Success of the loop is success of one call over all that arrives, with the same result. -/
theorem httpProcessRequestLine_full {c : Conn} (hpos : c.b.pos = c.b.data.length)
    (hm : MethodSeen c.b.pos (LineState.ofCode c.r.state, c.r)) (F : Conn) :
    lineOutcome (httpProcessRequestLine c) = some F ↔
      ∃ out, httpParseRequestLine c.full.r c.full.b = (0, out) ∧ F = c.full.set out := by
  induction hn : c.b.free.length using Nat.strong_induction_on generalizing c with
  | _ n ih =>
  by_cases h0 : (recvHttpRequest c).1 = 0
  · obtain ⟨c', hc'⟩ : ∃ c', recvHttpRequest c = (0, c') := ⟨_, Prod.ext h0 rfl⟩
    obtain ⟨hfull, hr, hp, hlen⟩ := recvHttpRequest_full hc'
    have hpos' : c'.b.pos ≤ c'.b.data.length := by omega
    rw [← hp, ← hr] at hm
    rw [httpProcessRequestLine_recv hc', ← hfull]
    have hfree := (httpParseRequestLine_buffer c'.r c'.b).2
    have hend := httpParseRequestLine_full c'.available hpos' hm
    obtain ⟨⟨code, r', b'⟩, hP⟩ : ∃ x, httpParseRequestLine c'.r c'.b = x := ⟨_, rfl⟩
    have hle := httpParseRequestLine_nonpos (r := c'.r) (b := c'.b)
    rw [hP] at hfree hend hle ⊢
    dsimp only at hfree hend hle ⊢
    have hset := Conn.set_full (r := r') hfree
    by_cases h1 : code = 1
    · obtain ⟨hb, hm', hres⟩ := httpParseRequestLine_resume c'.available hpos' hm (h1 ▸ hP)
      have hlt := recvHttpRequest_free_lt hc'
      rw [if_neg (by omega), if_pos (by omega),
        ih _ (by simp only [Conn.set, hfree]; omega) (by simp [Conn.set, hb]) hm' rfl, hset]
      exact exists_congr fun out => and_congr_left fun _ => hres out
    · have hcode : httpParseRequestLine c'.full.r c'.full.b = (code, r', b'.full c'.available) :=
        hend h1
      have hneg := hle h1
      rw [hcode, if_neg (by omega : ¬code > 0)]
      by_cases hz : code = 0
      · subst hz
        simp [lineOutcome, hset, eq_comm]
      · simp [lineOutcome, hz]
  · have hav := recvHttpRequest_available h0
    have hnil : (httpParseRequestLine c.full.r c.full.b).1 = 1 :=
      httpParseRequestLine_nil (by simp [Conn.full, Buffer.full, Buffer.unread, hav, hpos])
    have hrecv := httpProcessRequestLine_recv_ne h0
    constructor
    · intro h
      simp [lineOutcome, hrecv] at h
    · rintro ⟨out, h, -⟩
      simp [h] at hnil

/-! ## The header lines -/

def Str.Inside (s : Str) (n : ℕ) : Prop := ∀ q, s.p = some q → q + s.len ≤ n

theorem Str.Inside.mono {s : Str} {m n : ℕ} (h : s.Inside m) (hmn : m ≤ n) : s.Inside n :=
  fun q hq => (h q hq).trans hmn

theorem Str.inside_strInit (n : ℕ) : strInit.Inside n := by
  intro q hq
  cases hq

/-- The header value has been read up to the current byte, as far as the state says. -/
def ValueSeen (p : ℕ) (l : HeaderLocals) : Prop :=
  match l.state with
  | .value => ∃ q, l.r.headerValue.p = some q ∧ q ≤ p
  | .spaceAfterValue => (∃ q, l.r.headerValue.p = some q ∧ q ≤ p) ∧ l.r.headerValue.Inside p
  | .almostDone => l.r.headerValue.Inside p
  | _ => True

theorem endValue_inside {p q : ℕ} {l : HeaderLocals} (hq : l.r.headerValue.p = some q)
    (hle : q ≤ p) : (endValue p l).r.headerValue.Inside p := by
  intro q' hq'
  have heq : q = q' := by
    have h' : l.r.headerValue.p = some q' := hq'
    rw [hq] at h'
    exact Option.some.inj h'
  subst heq
  simp only [endValue, hq, ptrSub_some_of_le hle]
  omega

theorem headerStep_valueSeen {p : ℕ} {ch : UInt8} {l : HeaderLocals} (h : ValueSeen p l) :
    (headerStep p ch l).All (ValueSeen (p + 1)) (ValueSeen p)
      (fun out => ∀ l', out = .done l' → l'.r.headerValue.Inside p) := by
  obtain ⟨st, hash, i, r⟩ := l
  cases st
  case start | headerAlmostDone =>
    repeat' refine Verdict.All.ite (fun _ => ?_) (fun _ => ?_)
    all_goals first | trivial | (intro l' hl'; cases hl')
  case name | spaceBeforeValue =>
    repeat' refine Verdict.All.ite (fun _ => ?_) (fun _ => ?_)
    all_goals
      first
      | trivial
      | exact Str.inside_strInit _
      | exact ⟨p, rfl, Nat.le_succ p⟩
      | (intro l' hl'; cases hl'; exact Str.inside_strInit _)
      | (intro l' hl'; cases hl')
  case value =>
    obtain ⟨q, hq, hle⟩ := h
    have hin := endValue_inside (l := ⟨.value, hash, i, r⟩) hq hle
    repeat' refine Verdict.All.ite (fun _ => ?_) (fun _ => ?_)
    · exact ⟨⟨q, hq, hle.trans (Nat.le_succ p)⟩, hin.mono (Nat.le_succ p)⟩
    · exact hin.mono (Nat.le_succ p)
    · rintro l' ⟨⟩
      exact hin
    · rintro l' ⟨⟩
    · exact ⟨q, hq, hle.trans (Nat.le_succ p)⟩
  case spaceAfterValue =>
    obtain ⟨⟨q, hq, hle⟩, hin⟩ := h
    repeat' refine Verdict.All.ite (fun _ => ?_) (fun _ => ?_)
    · exact ⟨⟨q, hq, hle.trans (Nat.le_succ p)⟩, hin.mono (Nat.le_succ p)⟩
    · exact hin.mono (Nat.le_succ p)
    · rintro l' ⟨⟩
      exact hin
    · rintro l' ⟨⟩
    · exact ⟨q, hq, hle.trans (Nat.le_succ p)⟩
  case almostDone =>
    repeat' refine Verdict.All.ite (fun _ => ?_) (fun _ => ?_)
    · rintro l' ⟨⟩
      exact h
    · exact Str.Inside.mono h (Nat.le_succ p)
    · rintro l' ⟨⟩

/-- The locals when `r->state`, `r->header_hash` and `r->lowcase_index`, which the
loop never reads, hold other values. -/
def HeaderLocals.resave (n : ℕ) (hash : UInt32) (i : ℕ) (l : HeaderLocals) : HeaderLocals :=
  { l with r := { l.r with state := n, headerHash := hash, lowcaseIndex := i } }

def HeaderStop.resave (n : ℕ) (hash : UInt32) (i : ℕ) : HeaderStop → HeaderStop
  | .done l => .done (l.resave n hash i)
  | .headerDone l => .headerDone (l.resave n hash i)
  | .fail code l => .fail code (l.resave n hash i)

theorem headerStep_resave (p : ℕ) (ch : UInt8) (n : ℕ) (hash : UInt32) (i : ℕ)
    (l : HeaderLocals) :
    Verdict.Rel (fun l m => m = l.resave n hash i) (fun l m => m = l.resave n hash i)
      (fun x y => y = x.resave n hash i)
      (headerStep p ch l) (headerStep p ch (l.resave n hash i)) := by
  obtain ⟨st, h, j, r⟩ := l
  cases st <;> repeat' refine Verdict.Rel.ite (fun _ => ?_) (fun _ => ?_)
  all_goals first | exact .next rfl | exact .stop rfl

theorem headerRun_resave (p : ℕ) (n : ℕ) (hash : UInt32) (i : ℕ) (l : HeaderLocals)
    (bs : List UInt8) :
    Scan.Rel (fun l m => m = l.resave n hash i) (fun _ x y => y = x.resave n hash i)
      (headerScanner.run p l bs) (headerScanner.run p (l.resave n hash i) bs) := by
  apply Scanner.run_rel _ _ (fun _ (l m : HeaderLocals) => m = l.resave n hash i)
  · intro q ch l m _ _ hlm
    subst hlm
    exact headerStep_resave q ch n hash i l
  · rfl

/-- The request without the two fields in which the header parser keeps its locals. -/
def HttpRequest.forgetHash (r : HttpRequest) : HttpRequest :=
  { r with headerHash := 0, lowcaseIndex := 0 }

/-- Two results of the header parser that its caller cannot tell apart. -/
inductive SameHeader : ℤ × HttpRequest × Buffer → ℤ × HttpRequest × Buffer → Prop
  | refl (x) : SameHeader x x
  | ended {r r' : HttpRequest} {b : Buffer} (h : r.forgetHash = r'.forgetHash) :
      SameHeader (100, r, b) (100, r', b)
  | failed {x y} (hx : x.1 < 0) (hy : y.1 < 0) : SameHeader x y

section HeaderLine

variable {r : HttpRequest} {b : Buffer} (late : List UInt8) (hpos : b.pos ≤ b.data.length)

include hpos

theorem headerRun_full :
    headerScanner.run (b.full late).pos (.load r) (b.full late).unread =
      (headerScanner.run b.pos (.load r) b.unread).resume
        (fun l => headerScanner.run b.data.length l late) := by
  have hlen := b.pos_add_unread hpos
  rw [Buffer.full_unread hpos, ← hlen]
  exact Scanner.run_append _ _ _ _ _

theorem httpParseRequestHeader_full (h : (httpParseRequestHeader r b).1 ≠ 1) :
    httpParseRequestHeader r (b.full late) =
      ((httpParseRequestHeader r b).1, (httpParseRequestHeader r b).2.1,
        (httpParseRequestHeader r b).2.2.full late) := by
  have hrun := headerRun_full (r := r) late hpos
  rcases httpParseRequestHeader_cases r b with ⟨l, hr, he⟩ | ⟨p, l, hr, he⟩ | ⟨p, l, hr, he⟩ |
    ⟨p, code, l, hr, -, he⟩ <;> rw [hr] at hrun
  · simp [he] at h
  · rw [he]
    simp only [httpParseRequestHeader, hrun, Scan.resume]
    rfl
  · rw [he]
    simp only [httpParseRequestHeader, hrun, Scan.resume]
    rfl
  · rw [he]
    simp only [httpParseRequestHeader, hrun, Scan.resume]

theorem httpParseRequestHeader_resume {r' : HttpRequest} {b' : Buffer}
    (hv : ValueSeen b.pos (.load r)) (h : httpParseRequestHeader r b = (1, r', b')) :
    b' = { b with pos := b.data.length } ∧ ValueSeen b'.pos (.load r') ∧
      SameHeader (httpParseRequestHeader r' (b'.full late))
        (httpParseRequestHeader r (b.full late)) := by
  have hrun := headerRun_full (r := r) late hpos
  have hlen := b.pos_add_unread hpos
  have hseen := headerScanner.run_inv ValueSeen
    (fun p out => ∀ l', out = .done l' → l'.r.headerValue.Inside p) b.unread
    (fun q ch s _ _ hs => headerStep_valueSeen hs) hv
  rcases httpParseRequestHeader_cases r b with ⟨l, hr, he⟩ | ⟨p, l, hr, he⟩ | ⟨p, l, hr, he⟩ |
    ⟨p, code, l, hr, hneg, he⟩ <;> rw [he] at h
  · obtain ⟨rfl, rfl⟩ := Prod.mk.inj (Prod.mk.inj h).2
    rw [hr] at hrun hseen
    have hload : HeaderLocals.load (l.save l.state) = l.resave l.state.code l.hash l.i := by
      simp [HeaderLocals.load, HeaderLocals.save, HeaderLocals.resave]
    refine ⟨rfl, ?_, ?_⟩
    · rw [hload]
      dsimp only
      rw [← hlen]
      exact hseen
    · have hrel := headerRun_resave b.data.length l.state.code l.hash l.i l late
      have hrun' : headerScanner.run (Buffer.full { b with pos := b.data.length } late).pos
          (.load (l.save l.state)) (Buffer.full { b with pos := b.data.length } late).unread =
          headerScanner.run b.data.length (l.resave l.state.code l.hash l.i) late := by
        simp [Buffer.full, Buffer.unread, hload]
      simp only [httpParseRequestHeader, hrun, hrun', Scan.resume]
      cases hx : headerScanner.run b.data.length l late <;>
        cases hy : headerScanner.run b.data.length (l.resave l.state.code l.hash l.i) late <;>
        rw [hx, hy] at hrel <;> cases hrel
      case more.more.more hs =>
        subst hs
        exact .refl _
      case halt.halt.halt p x _ hq =>
        subst hq
        cases x with
        | done m => exact .refl _
        | headerDone m => exact .ended rfl
        | fail code m => exact .failed (headerRun_fail_neg hx) (headerRun_fail_neg hx)
  · simp at h
  · simp at h
  · obtain ⟨rfl, -⟩ := Prod.mk.inj h
    omega

end HeaderLine

theorem httpParseRequestHeader_inside {r r' : HttpRequest} {b b' : Buffer}
    (hv : ValueSeen b.pos (.load r)) (h : httpParseRequestHeader r b = (0, r', b')) :
    r'.state = HeaderState.start.code ∧ r'.headerValue.Inside b'.data.length := by
  have hseen := headerScanner.run_inv ValueSeen
    (fun p out => ∀ l', out = .done l' → l'.r.headerValue.Inside p) b.unread
    (fun q ch s _ _ hs => headerStep_valueSeen hs) hv
  have hle := (httpParseRequestHeader_zero h).2
  rcases httpParseRequestHeader_cases r b with ⟨l, hr, he⟩ | ⟨p, l, hr, he⟩ | ⟨p, l, hr, he⟩ |
    ⟨p, code, l, hr, hneg, he⟩ <;> rw [he] at h
  · simp at h
  · obtain ⟨rfl, rfl⟩ := Prod.mk.inj (Prod.mk.inj h).2
    rw [hr] at hseen
    dsimp only at hle ⊢
    exact ⟨rfl, (hseen l rfl).mono (by omega)⟩
  · simp at h
  · obtain ⟨rfl, -⟩ := Prod.mk.inj h
    omega

/-! ## The handlers -/

/-- A handler that reads and writes nothing but the header value. -/
def LocalHandler (f : HeaderHandler) : Prop :=
  ∀ (r : HttpRequest) (mem late : List UInt8), r.headerValue.Inside mem.length →
    f r (mem ++ late) = ((f r mem).1, (f r mem).2.1, (f r mem).2.2 ++ late) ∧
      (f r mem).2.2.length = mem.length ∧ (f r mem).2.1.state = r.state

theorem Str.get_append {s : Str} {mem : List UInt8} (h : s.Inside mem.length)
    (late : List UInt8) : s.get (mem ++ late) = s.get mem := by
  unfold Str.get
  cases hp : s.p with
  | none => rfl
  | some q =>
    have hq := h q hp
    dsimp only
    rw [List.drop_append_of_le_length (by omega), List.take_append_of_le_length]
    rw [List.length_drop]
    omega

theorem httpProcessContentLength_local : LocalHandler httpProcessContentLength := by
  intro r mem late hin
  simp only [httpProcessContentLength, Str.get_append hin]
  split_ifs <;> exact ⟨rfl, rfl, rfl⟩

theorem hostLoop_length (i : ℕ) (l : HostLocals) (bs : List UInt8) :
    (hostLoop i l bs).2.length = bs.length := by
  induction bs generalizing i l with
  | nil => rfl
  | cons ch rest ih =>
    simp only [hostLoop]
    split
    · rfl
    · simp [ih]

theorem Str.put_append {s : Str} {bs mem : List UInt8} (h : s.Inside mem.length)
    (hlen : bs.length = (s.get mem).length) (late : List UInt8) :
    s.put bs (mem ++ late) = s.put bs mem ++ late ∧ (s.put bs mem).length = mem.length := by
  unfold Str.put Str.get at *
  cases hp : s.p with
  | none => exact ⟨rfl, rfl⟩
  | some q =>
    have hq := h q hp
    simp only [hp, List.length_take, List.length_drop] at hlen
    dsimp only
    constructor
    · rw [List.take_append_of_le_length (by omega), List.drop_append_of_le_length (by omega)]
      simp
    · simp
      omega

theorem httpProcessHost_local : LocalHandler httpProcessHost := by
  intro r mem late hin
  simp only [httpProcessHost, Str.get_append hin]
  have hput := Str.put_append hin (hostLoop_length 0
    ⟨.usual, r.headerValue.len, r.headerValue.len⟩ (r.headerValue.get mem)) late
  rw [hput.1]
  split
  · exact ⟨rfl, hput.2, rfl⟩
  · split_ifs <;> exact ⟨rfl, hput.2, rfl⟩

def LocalTable (ht : HeaderTable) : Prop :=
  ∀ key hh f, hashTableFind ht key = some hh → hh.handler = some f → LocalHandler f

theorem requestHeaderTable_local {malloc malloc' : ℕ → Bool} {ht : HeaderTable}
    (h : requestHeaderTable malloc malloc' [] = some ht) : LocalTable ht := by
  intro key hh f hfind hf
  rcases requestHeaderTable_builtin_only h hfind hf with rfl | rfl
  · exact httpProcessHost_local
  · exact httpProcessContentLength_local

/-- Dispatching a header does the same whatever arrives behind its line. -/
theorem handleHttpRequestHeader_full {ht : HeaderTable} (hht : LocalTable ht) {r : HttpRequest}
    {b : Buffer} (hin : r.headerValue.Inside b.data.length) (late : List UInt8) :
    handleHttpRequestHeader ht r (b.full late) =
        ((handleHttpRequestHeader ht r b).1, (handleHttpRequestHeader ht r b).2.1,
          (handleHttpRequestHeader ht r b).2.2.full late) ∧
      (handleHttpRequestHeader ht r b).2.1.state = r.state := by
  unfold handleHttpRequestHeader
  cases hd : dispatched ht r with
  | none => exact ⟨rfl, rfl⟩
  | some hh =>
    cases hf : hh.handler with
    | none => simp [hf]
    | some f =>
      obtain ⟨heq, hlen, hstate⟩ := hht _ _ _ (dispatched_find hd) hf r b.data late hin
      simp only [Option.bind_some, hf]
      refine ⟨?_, hstate⟩
      have hlen' : ((f r b.data).2.2 ++ late).length = (b.full late).data.length := by
        simp [Buffer.full, hlen]
      simp only [heq, Buffer.store_of_length hlen, show (b.full late).data = b.data ++ late from rfl,
        Buffer.store_of_length hlen']
      rfl

/-- What a successful read of the header block leaves, with the bytes still to come. -/
def headerOutcome (x : ℤ × Conn) : Option Conn :=
  if x.1 = 0 then some { x.2.full with r := x.2.r.forgetHash } else none

theorem httpProcessRequestHeader_parse (ht : HeaderTable) {c d : Conn} (hsock : c.sock = d.sock)
    (h : httpParseRequestHeader c.r c.b = httpParseRequestHeader d.r d.b) :
    httpProcessRequestHeader ht c = httpProcessRequestHeader ht d := by
  have hset : ∀ out, c.set out = d.set out := fun out => by simp only [Conn.set, hsock]
  rcases httpParseRequestHeader_cases d.r d.b with ⟨l, -, he⟩ | ⟨p, l, -, he⟩ | ⟨p, l, -, he⟩ |
    ⟨p, code, l, -, hneg, he⟩
  · rw [httpProcessRequestHeader_one he, httpProcessRequestHeader_one (h.trans he), hset]
  · rw [httpProcessRequestHeader_zero he, httpProcessRequestHeader_zero (h.trans he), hset]
  · rw [httpProcessRequestHeader_hundred he, httpProcessRequestHeader_hundred (h.trans he), hset]
  · rw [httpProcessRequestHeader_neg hneg he, httpProcessRequestHeader_neg hneg (h.trans he), hset]

theorem headerOutcome_congr (ht : HeaderTable) {c d : Conn} (hsock : c.sock = d.sock)
    (h : SameHeader (httpParseRequestHeader c.r c.b) (httpParseRequestHeader d.r d.b)) :
    headerOutcome (httpProcessRequestHeader ht c) =
      headerOutcome (httpProcessRequestHeader ht d) := by
  obtain ⟨x, hx⟩ : ∃ x, httpParseRequestHeader c.r c.b = x := ⟨_, rfl⟩
  obtain ⟨y, hy⟩ : ∃ y, httpParseRequestHeader d.r d.b = y := ⟨_, rfl⟩
  rw [hx, hy] at h
  cases h with
  | refl => rw [httpProcessRequestHeader_parse ht hsock (hx.trans hy.symm)]
  | ended hr =>
    rw [httpProcessRequestHeader_hundred hx, httpProcessRequestHeader_hundred hy]
    simp only [headerOutcome, Conn.set, Conn.full, Conn.available, hsock, hr]
  | failed hc hd =>
    rw [httpProcessRequestHeader_neg hc hx, httpProcessRequestHeader_neg hd hy]
    rfl

/-- A header line that never ends is never accepted. -/
theorem headerOutcome_of_nil (ht : HeaderTable) {c : Conn} (hb : c.b.unread = [])
    (hfree : c.b.free = []) : headerOutcome (httpProcessRequestHeader ht c) = none := by
  have hone : httpParseRequestHeader c.r c.b =
      (1, (HeaderLocals.load c.r).save (HeaderLocals.load c.r).state,
        { c.b with pos := c.b.data.length }) := by
    simp [httpParseRequestHeader, hb]
  rw [httpProcessRequestHeader_one hone, if_neg]
  · rfl
  · simp [recvHttpRequest, Conn.set, hfree]

/-- Reading the header block succeeds as it would if everything had arrived at once. -/
theorem httpProcessRequestHeader_full {ht : HeaderTable} (hht : LocalTable ht) {c : Conn}
    (hpos : c.b.pos ≤ c.b.data.length) (hv : ValueSeen c.b.pos (.load c.r)) :
    headerOutcome (httpProcessRequestHeader ht c) =
      headerOutcome (httpProcessRequestHeader ht c.full) := by
  induction hn : c.headerTodo using Nat.strong_induction_on generalizing c with
  | _ n ih =>
  have hend := httpParseRequestHeader_full (r := c.r) c.available hpos
  have hcode := httpParseRequestHeader_code c.r c.b
  have hfree := (httpParseRequestHeader_buffer c.r c.b).2
  obtain ⟨⟨code, r, b⟩, hP⟩ : ∃ x, httpParseRequestHeader c.r c.b = x := ⟨_, rfl⟩
  rw [hP] at hend hcode hfree
  dsimp only at hend hcode hfree
  have hset := Conn.set_full (r := r) hfree
  rcases hcode with rfl | rfl | rfl | hneg
  · obtain ⟨hb, hv', hsame⟩ := httpParseRequestHeader_resume c.available hpos hv hP
    have hfull : headerOutcome (httpProcessRequestHeader ht (c.set (r, b)).full) =
        headerOutcome (httpProcessRequestHeader ht c.full) := by
      apply headerOutcome_congr
      · rfl
      · rw [hset]
        exact hsame
    rw [← hfull, httpProcessRequestHeader_one hP]
    by_cases h0 : (recvHttpRequest (c.set (r, b))).1 = 0
    · obtain ⟨c', hc'⟩ : ∃ c', recvHttpRequest (c.set (r, b)) = (0, c') := ⟨_, Prod.ext h0 rfl⟩
      obtain ⟨hfull', hr', hp', hlen⟩ := recvHttpRequest_full hc'
      rw [hc', if_pos rfl, ← hfull']
      apply ih _ (hn ▸ headerTodo_recv hP hc') _ _ rfl
      · rw [hp']
        simp only [Conn.set, hb] at hlen ⊢
        exact hlen
      · rw [hp', hr']
        exact hv'
    · rw [if_neg h0]
      have hav := recvHttpRequest_available h0
      symm
      apply headerOutcome_of_nil
      · simp only [Conn.full, hav]
        simp [Buffer.full, Buffer.unread, Conn.set, hb]
      · rfl
  · obtain ⟨hstate, hin⟩ := httpParseRequestHeader_inside hv hP
    obtain ⟨hh, hst⟩ := handleHttpRequestHeader_full hht hin c.available
    have hbuf := handleHttpRequestHeader_buffer ht r b
    have hpos' := httpParseRequestHeader_zero hP
    have hdata := (httpParseRequestHeader_buffer c.r c.b).1
    rw [hP] at hdata
    dsimp only at hdata
    have hset' : (c.set (handleHttpRequestHeader ht r b).2).full =
        c.full.set (handleHttpRequestHeader ht r (b.full c.available)).2 := by
      rw [hh]
      exact Conn.set_full (hbuf.2.1.trans hfree)
    have hfull : httpParseRequestHeader c.full.r c.full.b = (0, r, b.full c.available) :=
      hend (by decide)
    rw [httpProcessRequestHeader_zero hP, httpProcessRequestHeader_zero hfull, ← hset', hh]
    split_ifs
    · rfl
    · apply ih _ (hn ▸ headerTodo_handle ht hP) _ _ rfl
      · simp only [Conn.set, hbuf.1, hbuf.2.2, hdata]
        exact hpos'.2
      · simp [ValueSeen, HeaderLocals.load, Conn.set, hst, hstate]
  · have hfull : httpParseRequestHeader c.full.r c.full.b = (100, r, b.full c.available) :=
      hend (by decide)
    rw [httpProcessRequestHeader_hundred hP, httpProcessRequestHeader_hundred hfull, ← hset]
    simp only [headerOutcome, if_true, Conn.full_full]
    rfl
  · have hfull : httpParseRequestHeader c.full.r c.full.b = (code, r, b.full c.available) :=
      hend (by omega)
    rw [httpProcessRequestHeader_neg hneg hP, httpProcessRequestHeader_neg hneg hfull]
    rfl

/-! ## Whole requests -/

/-- The reading part of `__http_request_handler` in front of the body. -/
def httpReadRequest (ht : HeaderTable) (c : Conn) : ℤ × Conn :=
  match httpProcessRequestLine c with
  | (0, c) => if c.r.httpVersion < 1000 then (0, c) else httpProcessRequestHeader ht c
  | (code, c) => (code, c)

/-- The outcome of reading a request is a function of what arrives in the end. -/
theorem httpReadRequest_full {ht : HeaderTable} (hht : LocalTable ht) (c : Conn) :
    headerOutcome (httpReadRequest ht c) =
      (lineOutcome (httpProcessRequestLine c)).bind fun F =>
        if F.r.httpVersion < 1000 then some { F with r := F.r.forgetHash }
        else headerOutcome (httpProcessRequestHeader ht F) := by
  unfold httpReadRequest
  split
  · rename_i c' hc'
    obtain ⟨hstate, hpos⟩ := httpProcessRequestLine_zero hc'
    have hfull := httpProcessRequestHeader_full hht hpos
      (by simp [ValueSeen, HeaderLocals.load, hstate])
    simp only [lineOutcome, hc', if_true, Option.bind_some]
    by_cases hver : c'.r.httpVersion < 1000
    · have hver' : c'.full.r.httpVersion < 1000 := hver
      rw [if_pos hver, if_pos hver']
      rfl
    · have hver' : ¬c'.full.r.httpVersion < 1000 := hver
      rw [if_neg hver, if_neg hver']
      exact hfull
  · rename_i code c' hcode hc'
    have hne : code ≠ 0 := fun h => hcode h
    simp [headerOutcome, lineOutcome, hc', hne]

/-- Two connections that deliver the same bytes, in whatever pieces, have their
requests read with the same verdict, and on success with the same request up to
the header parser's scratch fields and at the same position. -/
theorem httpReadRequest_chunking {malloc malloc' : ℕ → Bool} {ht : HeaderTable}
    (hht : requestHeaderTable malloc malloc' [] = some ht) (r : HttpRequest) (b : Buffer)
    (sock₁ sock₂ : Socket) (hstate : r.state = 0) (hpos : b.pos = b.data.length)
    (hsock : sockBytes sock₁ = sockBytes sock₂) :
    ((httpReadRequest ht ⟨r, b, sock₁⟩).1 = 0 ↔ (httpReadRequest ht ⟨r, b, sock₂⟩).1 = 0) ∧
      ((httpReadRequest ht ⟨r, b, sock₁⟩).1 = 0 →
        (httpReadRequest ht ⟨r, b, sock₁⟩).2.b.pos = (httpReadRequest ht ⟨r, b, sock₂⟩).2.b.pos ∧
        (httpReadRequest ht ⟨r, b, sock₁⟩).2.r.forgetHash =
          (httpReadRequest ht ⟨r, b, sock₂⟩).2.r.forgetHash) := by
  have hm : MethodSeen b.pos (LineState.ofCode r.state, r) := by
    intro hst
    simp [hstate] at hst
  have hfull : Conn.full ⟨r, b, sock₁⟩ = Conn.full ⟨r, b, sock₂⟩ := by
    simp only [Conn.full, Conn.available, hsock]
  have hline : lineOutcome (httpProcessRequestLine ⟨r, b, sock₁⟩) =
      lineOutcome (httpProcessRequestLine ⟨r, b, sock₂⟩) := by
    apply Option.ext
    intro F
    have h₁ := httpProcessRequestLine_full (c := ⟨r, b, sock₁⟩) hpos hm F
    have h₂ := httpProcessRequestLine_full (c := ⟨r, b, sock₂⟩) hpos hm F
    rw [h₁, h₂, hfull]
  have hlocal := requestHeaderTable_local hht
  have heq : headerOutcome (httpReadRequest ht ⟨r, b, sock₁⟩) =
      headerOutcome (httpReadRequest ht ⟨r, b, sock₂⟩) := by
    rw [httpReadRequest_full hlocal, httpReadRequest_full hlocal, hline]
  unfold headerOutcome at heq
  split_ifs at heq with h₁ h₂ h₂
  · simp only [Option.some.injEq] at heq
    refine ⟨iff_of_true h₁ h₂, fun _ => ⟨?_, ?_⟩⟩
    · exact congrArg (fun c => c.b.pos) heq
    · exact congrArg (fun c => c.r) heq
  · exact ⟨iff_of_false h₁ h₂, fun h => absurd h h₁⟩

theorem httpReadRequest_chunking_get :
    (httpReadRequest builtinTable ⟨default, .bind (List.replicate 64 0),
      [.data (bytes "GET / HTTP/1.1\r\nHost: a\r\n\r\n")]⟩).1 = 0 ∧
    (httpReadRequest builtinTable ⟨default, .bind (List.replicate 64 0),
      [.data (bytes "GET / HT"), .data (bytes "TP/1.1\r\nHo"), .data (bytes "st: a\r\n\r\n")]⟩).1 = 0 :=
  have hone : (httpReadRequest builtinTable ⟨default, .bind (List.replicate 64 0),
      [.data (bytes "GET / HTTP/1.1\r\nHost: a\r\n\r\n")]⟩).1 = 0 := by decide +kernel
  ⟨hone, (httpReadRequest_chunking requestHeaderTable_builtin default
    (.bind (List.replicate 64 0)) _ _ rfl rfl (by decide +kernel)).1.mp hone⟩

end Cserv.Http
