import Cserv.Http.RequestHeader
import Cserv.Http.RequestLine

/-!
# The spans the parsers set

Both parsers store the start of a `str_t` in one state and its length, a pointer
difference, in a later one, possibly in another call. For each state the
invariant says which starts lie behind the parser and which spans are complete;
the positions count from `b->start`.
-/
namespace Cserv.Http

open Foundations

/-! ## Spans -/

/-- The start of `s` has been stored, and lies in `[lo, hi]`. -/
def Str.Open (s : Str) (lo hi : ℕ) : Prop := ∃ q, s.p = some q ∧ lo ≤ q ∧ q ≤ hi

/-- The bytes of `s` lie in `[lo, hi)`. -/
def Str.Closed (s : Str) (lo hi : ℕ) : Prop := ∃ q, s.p = some q ∧ lo ≤ q ∧ q + s.len ≤ hi

/-- `NULL` with length 0, or bytes of `[0, n)`. -/
def Str.Within (s : Str) (n : ℕ) : Prop := s = strInit ∨ s.Closed 0 n

/-- `s` is `NULL` with length 0, or its bytes are bytes of `t`. -/
def Str.PartOf (s t : Str) : Prop :=
  s = strInit ∨ ∃ a, t.p = some a ∧ s.Closed a (a + t.len)

section Mono

variable {s : Str} {lo hi hi' : ℕ}

theorem Str.Open.mono (h : s.Open lo hi) (hle : hi ≤ hi') : s.Open lo hi' := by
  obtain ⟨q, hq, hlo, hhi⟩ := h
  exact ⟨q, hq, hlo, hhi.trans hle⟩

theorem Str.Closed.mono (h : s.Closed lo hi) (hle : hi ≤ hi') : s.Closed lo hi' := by
  obtain ⟨q, hq, hlo, hhi⟩ := h
  exact ⟨q, hq, hlo, hhi.trans hle⟩

theorem Str.Within.mono (h : s.Within hi) (hle : hi ≤ hi') : s.Within hi' :=
  h.imp_right (·.mono hle)

theorem Str.Closed.within (h : s.Closed lo hi) : s.Within hi := by
  obtain ⟨q, hq, -, hhi⟩ := h
  exact Or.inr ⟨q, hq, Nat.zero_le q, hhi⟩

theorem Str.Closed.toOpen (h : s.Closed lo hi) : s.Open lo hi := by
  obtain ⟨q, hq, hlo, hhi⟩ := h
  exact ⟨q, hq, hlo, by omega⟩

theorem Str.Open.close {p : ℕ} (h : s.Open lo p) : (⟨s.p, ptrSub p s.p⟩ : Str).Closed lo p := by
  obtain ⟨q, hq, hlo, hhi⟩ := h
  refine ⟨q, hq, hlo, ?_⟩
  dsimp only
  rw [hq, ptrSub_some_of_le hhi]
  omega

end Mono

/-! ## The request line -/

/-- The fields that `http_request_handler` initialises for the parser of the line. -/
def HttpRequest.NoTarget (r : HttpRequest) : Prop :=
  r.args = none ∧ r.exten = strInit ∧ r.httpProtocol = strInit

/-- The schema ends `k` bytes before `p` or earlier. -/
def HttpRequest.SchemaEnds (r : HttpRequest) (k a p : ℕ) : Prop :=
  ∃ s, r.schema.p = some s ∧ a ≤ s ∧ s + r.schema.len + k ≤ p

/-- `exten` and `args` start in `[lo, hi]`, if they are set. -/
def HttpRequest.UriParts (r : HttpRequest) (lo hi : ℕ) : Prop :=
  (r.exten = strInit ∨ r.exten.Open lo hi) ∧ (r.args = none ∨ ∃ x, r.args = some x ∧ lo ≤ x ∧ x ≤ hi)

/-- The URI has started, in the line that starts at `a`. -/
def HttpRequest.UriOpen (r : HttpRequest) (a p : ℕ) : Prop :=
  ∃ u, r.uri.p = some u ∧ a ≤ u ∧ u ≤ p ∧ r.UriParts u p

/-- The URI is complete, and its parts start in it. -/
def HttpRequest.UriClosed (r : HttpRequest) (a p : ℕ) : Prop :=
  ∃ u, r.uri.p = some u ∧ a ≤ u ∧ u + r.uri.len ≤ p ∧ r.UriParts u (u + r.uri.len)

/-- The spans in front of the URI are complete. -/
def HttpRequest.Addressed (r : HttpRequest) (a p : ℕ) : Prop :=
  r.methodName.Closed a p ∧ r.schema.Within p ∧ r.host.Within p ∧ r.port.Within p

/-- Every span of the line that starts at `a` is complete, that of the line apart. -/
def HttpRequest.Parsed (r : HttpRequest) (a p : ℕ) : Prop :=
  r.Addressed a p ∧ r.UriClosed a p ∧ r.httpProtocol.Within p

/-- What the parser has stored of the line that starts at `a` when it stands at `p`. -/
def HttpRequest.Stored (r : HttpRequest) (a p : ℕ) : LineState → Prop
  | .start => r.NoTarget
  | .method => r.NoTarget ∧ r.methodName.Open a p
  | .spacesBeforeUri => r.NoTarget ∧ r.methodName.Closed a p
  | .schema => r.NoTarget ∧ r.methodName.Closed a p ∧ r.schema.Open a p
  | .schemaSlash => r.NoTarget ∧ r.methodName.Closed a p ∧ r.SchemaEnds 1 a p
  | .schemaSlashSlash | .hostStart => r.NoTarget ∧ r.methodName.Closed a p ∧ r.SchemaEnds 2 a p
  | .host | .hostEnd | .hostIpLiteral =>
    r.NoTarget ∧ r.methodName.Closed a p ∧ r.SchemaEnds 2 a p ∧ r.host.Open a p
  | .port =>
    r.NoTarget ∧ r.methodName.Closed a p ∧ r.SchemaEnds 2 a p ∧ r.host.Closed a p ∧ r.port.Open a p
  | .afterSlashInUri | .checkUri | .uri =>
    r.Addressed a p ∧ r.UriOpen a p ∧ r.httpProtocol = strInit
  | .hostHttp09 | .checkUriHttp09 | .http09 =>
    r.Addressed a p ∧ r.UriClosed a p ∧ r.httpProtocol = strInit
  | .httpH | .httpHT | .httpHTT | .httpHTTP | .firstMajorDigit | .majorDigit | .firstMinorDigit
  | .minorDigit => r.Addressed a p ∧ r.UriClosed a p ∧ r.httpProtocol.Open a p
  | .spacesAfterDigit => r.Parsed a p
  -- the CR is no part of the line
  | .almostDone => r.Parsed a (p - 1)

/-- The invariant of the loop: in `S_start` the line has not started yet. -/
def HttpRequest.InLine (r : HttpRequest) (p : ℕ) : LineState → Prop
  | .start => r.NoTarget
  | st => ∃ a, r.requestLine.p = some a ∧ a < p ∧ r.Stored a p st

/-- A complete line, with every span in it; `exten` gets its length at `done`. -/
def HttpRequest.LineEnds (r : HttpRequest) (p : ℕ) : Prop :=
  ∃ a, r.requestLine.p = some a ∧ a + r.requestLine.len ≤ p ∧
    r.Parsed a (a + r.requestLine.len)

section Line

variable {r : HttpRequest} {a p p' : ℕ}

theorem HttpRequest.SchemaEnds.mono {k k' : ℕ} (h : r.SchemaEnds k a p) (hle : k' + p ≤ k + p') :
    r.SchemaEnds k' a p' := by
  obtain ⟨s, hs, ha, hend⟩ := h
  exact ⟨s, hs, ha, by omega⟩

theorem HttpRequest.SchemaEnds.within {k : ℕ} (h : r.SchemaEnds k a p) : r.schema.Within p := by
  obtain ⟨s, hs, ha, hend⟩ := h
  exact Or.inr ⟨s, hs, Nat.zero_le s, by omega⟩

theorem HttpRequest.UriParts.mono {lo : ℕ} (h : r.UriParts lo p) (hle : p ≤ p') :
    r.UriParts lo p' := by
  refine ⟨h.1.imp_right (·.mono hle), h.2.imp_right ?_⟩
  rintro ⟨x, hx, hlo, hhi⟩
  exact ⟨x, hx, hlo, hhi.trans hle⟩

theorem HttpRequest.UriOpen.mono (h : r.UriOpen a p) (hle : p ≤ p') : r.UriOpen a p' := by
  obtain ⟨u, hu, ha, hp, hparts⟩ := h
  exact ⟨u, hu, ha, hp.trans hle, hparts.mono hle⟩

theorem HttpRequest.UriClosed.mono (h : r.UriClosed a p) (hle : p ≤ p') : r.UriClosed a p' := by
  obtain ⟨u, hu, ha, hp, hparts⟩ := h
  exact ⟨u, hu, ha, hp.trans hle, hparts⟩

theorem HttpRequest.Addressed.mono (h : r.Addressed a p) (hle : p ≤ p') : r.Addressed a p' :=
  ⟨h.1.mono hle, h.2.1.mono hle, h.2.2.1.mono hle, h.2.2.2.mono hle⟩

theorem HttpRequest.Parsed.mono (h : r.Parsed a p) (hle : p ≤ p') : r.Parsed a p' :=
  ⟨h.1.mono hle, h.2.1.mono hle, h.2.2.mono hle⟩

theorem HttpRequest.UriOpen.close (h : r.UriOpen a p) :
    ({ r with uri.len := ptrSub p r.uri.p } : HttpRequest).UriClosed a p := by
  obtain ⟨u, hu, ha, hp, hparts⟩ := h
  have hlen : ptrSub p r.uri.p = p - u := by rw [hu, ptrSub_some_of_le hp]
  have hend : u + (p - u) = p := by omega
  refine ⟨u, hu, ha, ?_, ?_⟩
  · dsimp only
    rw [hlen, hend]
  · dsimp only
    rw [hlen, hend]
    exact hparts

theorem HttpRequest.UriClosed.toOpen (h : r.UriClosed a p) : r.UriOpen a p := by
  obtain ⟨u, hu, ha, hp, hparts⟩ := h
  exact ⟨u, hu, ha, by omega, hparts.mono hp⟩

theorem HttpRequest.NoTarget.uriOpen (h : r.NoTarget) (ha : a ≤ p) (hu : r.uri.p = some p) :
    r.UriOpen a (p + 1) :=
  ⟨p, hu, ha, Nat.le_succ p, Or.inl h.2.1, Or.inl h.1⟩

theorem HttpRequest.SchemaEnds.uriClosed (h : r.SchemaEnds 2 a p) (hr : r.NoTarget) :
    ({ r with uri := ⟨r.schema.p.map (· + r.schema.len + 1), 1⟩ } : HttpRequest).UriClosed
      a p := by
  obtain ⟨s, hs, ha, hend⟩ := h
  refine ⟨s + r.schema.len + 1, ?_, ?_, ?_, Or.inl hr.2.1, Or.inl hr.1⟩
  · simp [hs]
  · omega
  · dsimp only
    omega

theorem HttpRequest.UriOpen.query (h : r.UriOpen a p) :
    ({ r with args := some (p + 1) } : HttpRequest).UriOpen a (p + 1) := by
  obtain ⟨u, hu, ha, hp, hparts⟩ := h
  exact ⟨u, hu, ha, by omega, (hparts.mono (Nat.le_succ p)).1, Or.inr ⟨p + 1, rfl, by omega, le_rfl⟩⟩

theorem HttpRequest.UriOpen.dot (h : r.UriOpen a p) :
    ({ r with exten.p := some (p + 1) } : HttpRequest).UriOpen a (p + 1) := by
  obtain ⟨u, hu, ha, hp, hparts⟩ := h
  exact ⟨u, hu, ha, by omega, Or.inr ⟨p + 1, rfl, by omega, le_rfl⟩, (hparts.mono (Nat.le_succ p)).2⟩

theorem HttpRequest.UriOpen.slash (h : r.UriOpen a p) :
    ({ r with exten := strInit } : HttpRequest).UriOpen a p := by
  obtain ⟨u, hu, ha, hp, hparts⟩ := h
  exact ⟨u, hu, ha, hp, Or.inl rfl, hparts.2⟩

end Line

/-- What a step from `p` owes the invariant: a complete line is owed only where the
loop is left for `done`. -/
def LineOk (p : ℕ) (v : LineVerdict) : Prop :=
  v.All (fun s => s.2.InLine (p + 1) s.1) (fun s => s.2.InLine p s.1)
    (fun out => ∀ r, out = .done r → r.LineEnds p)

section Step

variable {a p : ℕ} {ch : UInt8} {r : HttpRequest} {st : LineState}

theorem lineOk_fail (code : ℤ) : LineOk p (lineFail code r) := by
  intro r' h
  cases h

theorem lineOk_next (hr : r.requestLine.p = some a) (ha : a ≤ p) (hst : st ≠ .start)
    (h : r.Stored a (p + 1) st) : LineOk p (lineNext st r) := by
  have hin : ∃ a, r.requestLine.p = some a ∧ a < p + 1 ∧ r.Stored a (p + 1) st :=
    ⟨a, hr, by omega, h⟩
  cases st
  · exact absurd rfl hst
  all_goals exact hin

theorem lineOk_cr (hr : r.requestLine.p = some a) (ha : a ≤ p) (h : r.Parsed a p) :
    LineOk p (lineNext .almostDone r) :=
  lineOk_next hr ha (by simp) h

theorem lineOk_lf (hr : r.requestLine.p = some a) (ha : a ≤ p) (h : r.Parsed a p) :
    LineOk p (lineLf p r) := by
  rintro r' ⟨⟩
  have hlen : ptrSub p r.requestLine.p = p - a := by rw [hr, ptrSub_some_of_le ha]
  have hend : a + (p - a) = p := by omega
  refine ⟨a, hr, ?_, ?_⟩
  · dsimp only
    rw [hlen, hend]
  · dsimp only
    rw [hlen, hend]
    exact h

/-! ### One lemma for each case of the `switch` -/

theorem stepStart_ok (h : r.NoTarget) : LineOk p (stepStart p ch r) := by
  refine Verdict.All.ite (fun _ => h) (fun _ => ?_)
  refine Verdict.All.ite (fun _ => ?_) (fun _ => lineOk_fail _)
  exact lineOk_next (a := p) rfl le_rfl (by simp) ⟨h, p, rfl, le_rfl, Nat.le_succ p⟩

/-- The version is read digit by digit; only its end touches a span. -/
theorem stored_version (h : r.Stored a p .httpH) : r.Stored a (p + 1) .httpH :=
  ⟨h.1.mono (Nat.le_succ p), h.2.1.mono (Nat.le_succ p), h.2.2.mono (Nat.le_succ p)⟩

section InLine

variable (hr : r.requestLine.p = some a) (ha : a < p)
include hr ha

theorem stepMethod_ok (mem : List UInt8) (h : r.Stored a p .method) :
    LineOk p (stepMethod p ch r mem) := by
  obtain ⟨hnone, hname⟩ := h
  refine Verdict.All.ite (fun _ => ?_) (fun _ => ?_)
  · refine Verdict.All.ite (fun _ => lineOk_fail _) (fun _ => ?_)
    exact lineOk_next (a := a) hr ha.le (by simp) ⟨hnone, hname.close.mono (Nat.le_succ p)⟩
  · refine Verdict.All.ite (fun _ => ?_) (fun _ => lineOk_fail _)
    exact lineOk_next hr ha.le (by simp) ⟨hnone, hname.mono (Nat.le_succ p)⟩

theorem stepSpacesBeforeUri_ok (h : r.Stored a p .spacesBeforeUri) :
    LineOk p (stepSpacesBeforeUri p ch r) := by
  obtain ⟨hnone, hname⟩ := h
  have hname' := hname.mono (Nat.le_succ p)
  refine Verdict.All.ite (fun _ => ?_) (fun _ => ?_)
  · refine lineOk_next (a := a) hr ha.le (by simp) ⟨?_, ?_, hnone.2.2⟩
    · exact ⟨hname', Or.inl rfl, Or.inl rfl, Or.inl rfl⟩
    · exact HttpRequest.NoTarget.uriOpen hnone ha.le rfl
  · refine Verdict.All.ite (fun _ => ?_) (fun _ => ?_)
    · exact lineOk_next (a := a) hr ha.le (by simp) ⟨hnone, hname', p, rfl, ha.le, Nat.le_succ p⟩
    · refine Verdict.All.ite (fun _ => ?_) (fun _ => lineOk_fail _)
      exact lineOk_next hr ha.le (by simp) ⟨hnone, hname'⟩

theorem stepSchema_ok (h : r.Stored a p .schema) : LineOk p (stepSchema p ch r) := by
  obtain ⟨hnone, hname, hschema⟩ := h
  have hname' := hname.mono (Nat.le_succ p)
  refine Verdict.All.ite (fun _ => ?_) (fun _ => ?_)
  · exact lineOk_next hr ha.le (by simp) ⟨hnone, hname', hschema.mono (Nat.le_succ p)⟩
  · refine Verdict.All.ite (fun _ => ?_) (fun _ => lineOk_fail _)
    obtain ⟨s, hs, hlo, hend⟩ := hschema.close
    exact lineOk_next (a := a) hr ha.le (by simp)
      ⟨hnone, hname', s, hs, hlo, Nat.succ_le_succ hend⟩

theorem stepExpect_ok {c : UInt8} {st : LineState} {code : ℤ} (hst : st ≠ .start)
    (h : r.Stored a (p + 1) st) : LineOk p (stepExpect ch r c st code) :=
  Verdict.All.ite (fun _ => lineOk_next hr ha.le hst h) (fun _ => lineOk_fail _)

theorem lineNoPath_ok (hnone : r.NoTarget) (hname : r.methodName.Closed a p)
    (hschema : r.SchemaEnds 2 a p) (hhost : r.host.Within p) (hport : r.port.Within p) :
    LineOk p (lineNoPath r) := by
  have haddr : r.Addressed a p := ⟨hname, hschema.within, hhost, hport⟩
  exact lineOk_next (a := a) hr ha.le (by simp)
    ⟨haddr.mono (Nat.le_succ p), (hschema.uriClosed hnone).mono (Nat.le_succ p), hnone.2.2⟩

theorem stepHostEnd_ok (h : r.Stored a p .hostEnd) : LineOk p (stepHostEnd p ch r) := by
  obtain ⟨hnone, hname, hschema, hhost⟩ := h
  have hname' := hname.mono (Nat.le_succ p)
  have hschema' : r.SchemaEnds 2 a (p + 1) := hschema.mono (by omega)
  have hhost' := hhost.close.mono (Nat.le_succ p)
  refine Verdict.All.ite (fun _ => ?_) (fun _ => ?_)
  · exact lineOk_next (a := a) hr ha.le (by simp)
      ⟨hnone, hname', hschema', hhost', p + 1, rfl, by omega, le_rfl⟩
  · refine Verdict.All.ite (fun _ => ?_) (fun _ => ?_)
    · refine lineOk_next (a := a) hr ha.le (by simp) ⟨?_, ?_, hnone.2.2⟩
      · exact ⟨hname', hschema'.within, hhost'.within, Or.inl rfl⟩
      · exact HttpRequest.NoTarget.uriOpen hnone ha.le rfl
    · refine Verdict.All.ite (fun _ => ?_) (fun _ => lineOk_fail _)
      exact lineNoPath_ok hr ha hnone hname hschema hhost.close.within (Or.inl rfl)

theorem stepHost_ok (h : r.Stored a p .host) : LineOk p (stepHost p ch r) := by
  have hstay : LineOk p (lineNext .host r) := by
    obtain ⟨hnone, hname, hschema, hhost⟩ := h
    exact lineOk_next hr ha.le (by simp)
      ⟨hnone, hname.mono (Nat.le_succ p), hschema.mono (by omega), hhost.mono (Nat.le_succ p)⟩
  refine Verdict.All.ite (fun _ => hstay) (fun _ => ?_)
  exact Verdict.All.ite (fun _ => hstay) (fun _ => stepHostEnd_ok hr ha h)

theorem stepHostStart_ok (h : r.Stored a p .hostStart) : LineOk p (stepHostStart p ch r) := by
  obtain ⟨hnone, hname, hschema⟩ := h
  refine Verdict.All.ite (fun _ => ?_) (fun _ => ?_)
  · exact lineOk_next (a := a) hr ha.le (by simp)
      ⟨hnone, hname.mono (Nat.le_succ p), hschema.mono (by omega), p, rfl, ha.le, Nat.le_succ p⟩
  · exact stepHost_ok (r := { r with host.p := some p }) hr ha
      ⟨hnone, hname, hschema, p, rfl, ha.le, le_rfl⟩

theorem stepHostIpLiteral_ok (h : r.Stored a p .hostIpLiteral) :
    LineOk p (stepHostIpLiteral ch r) := by
  obtain ⟨hnone, hname, hschema, hhost⟩ := h
  have h' : r.Stored a (p + 1) .hostIpLiteral :=
    ⟨hnone, hname.mono (Nat.le_succ p), hschema.mono (by omega), hhost.mono (Nat.le_succ p)⟩
  refine Verdict.All.ite (fun _ => lineOk_next hr ha.le (by simp) h') (fun _ => ?_)
  exact Verdict.All.ite (fun _ => lineOk_next hr ha.le (by simp) h') (fun _ => lineOk_fail _)

theorem stepPort_ok (h : r.Stored a p .port) : LineOk p (stepPort p ch r) := by
  obtain ⟨hnone, hname, hschema, hhost, hport⟩ := h
  have hname' := hname.mono (Nat.le_succ p)
  have hschema' : r.SchemaEnds 2 a (p + 1) := hschema.mono (by omega)
  have hhost' := hhost.mono (Nat.le_succ p)
  refine Verdict.All.ite (fun _ => ?_) (fun _ => ?_)
  · exact lineOk_next hr ha.le (by simp)
      ⟨hnone, hname', hschema', hhost', hport.mono (Nat.le_succ p)⟩
  · refine Verdict.All.ite (fun _ => ?_) (fun _ => ?_)
    · refine lineOk_next (a := a) hr ha.le (by simp) ⟨?_, ?_, hnone.2.2⟩
      · exact ⟨hname', hschema'.within, hhost'.within, (hport.close.mono (Nat.le_succ p)).within⟩
      · exact HttpRequest.NoTarget.uriOpen hnone ha.le rfl
    · refine Verdict.All.ite (fun _ => ?_) (fun _ => lineOk_fail _)
      exact lineNoPath_ok hr ha hnone hname hschema hhost.within hport.close.within

theorem stepSpaces_ok {other : LineVerdict} (h : r.Stored a p .http09) (hst : st ≠ .start)
    (hstay : r.Stored a (p + 1) .http09 → r.Stored a (p + 1) st) (hother : LineOk p other) :
    LineOk p (stepSpaces p ch r st other) := by
  obtain ⟨haddr, huri, hproto⟩ := h
  have haddr' := haddr.mono (Nat.le_succ p)
  have huri' := huri.mono (Nat.le_succ p)
  have hparsed : r.Parsed a p := ⟨haddr, huri, Or.inl hproto⟩
  refine Verdict.All.ite (fun _ => ?_) (fun _ => ?_)
  · exact lineOk_next hr ha.le hst (hstay ⟨haddr', huri', hproto⟩)
  refine Verdict.All.ite (fun _ => lineOk_cr (a := a) hr ha.le hparsed) (fun _ => ?_)
  refine Verdict.All.ite (fun _ => lineOk_lf (a := a) hr ha.le hparsed) (fun _ => ?_)
  refine Verdict.All.ite (fun _ => ?_) (fun _ => hother)
  exact lineOk_next (a := a) hr ha.le (by simp) ⟨haddr', huri', p, rfl, ha.le, Nat.le_succ p⟩

theorem stepHostHttp09_ok (h : r.Stored a p .hostHttp09) : LineOk p (stepHostHttp09 p ch r) :=
  stepSpaces_ok hr ha h (by simp) id (lineOk_fail _)

theorem stepCheckUriHttp09_ok (h : r.Stored a p .checkUriHttp09) :
    LineOk p (stepCheckUriHttp09 p ch r) :=
  stepSpaces_ok hr ha h (by simp) id ⟨a, hr, ha, h.1, h.2.1.toOpen, h.2.2⟩

theorem stepHttp09_ok (h : r.Stored a p .http09) : LineOk p (stepHttp09 p ch r) :=
  stepSpaces_ok hr ha h (by simp) id ⟨a, hr, ha, h.1, h.2.1.toOpen, h.2.2⟩

theorem uriEnd_ok {other : LineVerdict} (h : r.Stored a p .uri) (hst : st ≠ .start)
    (hspace : ({ r with uri.len := ptrSub p r.uri.p } : HttpRequest).Stored a (p + 1) .http09 →
      ({ r with uri.len := ptrSub p r.uri.p } : HttpRequest).Stored a (p + 1) st)
    (hother : LineOk p other) :
    LineOk p
      (if ch = ' ' then lineNext st { r with uri.len := ptrSub p r.uri.p }
        else if ch = CR then
          lineNext .almostDone { r with uri.len := ptrSub p r.uri.p, httpMinor := 9 }
        else if ch = LF then lineLf p { r with uri.len := ptrSub p r.uri.p, httpMinor := 9 }
        else other) := by
  obtain ⟨haddr, huri, hproto⟩ := h
  have hparsed : ({ r with uri.len := ptrSub p r.uri.p, httpMinor := 9 } : HttpRequest).Parsed a p :=
    ⟨haddr, huri.close, Or.inl hproto⟩
  refine Verdict.All.ite (fun _ => ?_) (fun _ => ?_)
  · exact lineOk_next (a := a) hr ha.le hst
      (hspace ⟨haddr.mono (Nat.le_succ p), huri.close.mono (Nat.le_succ p), hproto⟩)
  refine Verdict.All.ite (fun _ => lineOk_cr (a := a) hr ha.le hparsed) (fun _ => ?_)
  exact Verdict.All.ite (fun _ => lineOk_lf (a := a) hr ha.le hparsed) (fun _ => hother)

theorem stepAfterSlashInUri_ok (h : r.Stored a p .afterSlashInUri) :
    LineOk p (stepAfterSlashInUri p ch r) := by
  have ⟨haddr, huri, hproto⟩ := h
  have haddr' := haddr.mono (Nat.le_succ p)
  have hstay : r.Stored a (p + 1) .uri := ⟨haddr', huri.mono (Nat.le_succ p), hproto⟩
  refine Verdict.All.ite (fun _ => lineOk_next hr ha.le (by simp) hstay) (fun _ => ?_)
  refine uriEnd_ok hr ha h (by simp) id ?_
  refine Verdict.All.ite (fun _ => lineOk_next (a := a) hr ha.le (by simp) hstay) (fun _ => ?_)
  refine Verdict.All.ite (fun _ => lineOk_next (a := a) hr ha.le (by simp) hstay) (fun _ => ?_)
  refine Verdict.All.ite (fun _ => lineOk_next (a := a) hr ha.le (by simp) hstay) (fun _ => ?_)
  refine Verdict.All.ite (fun _ => ?_) (fun _ => ?_)
  · exact lineOk_next (a := a) hr ha.le (by simp) ⟨haddr', huri.query, hproto⟩
  refine Verdict.All.ite (fun _ => lineOk_next (a := a) hr ha.le (by simp) hstay) (fun _ => ?_)
  refine Verdict.All.ite (fun _ => lineOk_next (a := a) hr ha.le (by simp) hstay) (fun _ => ?_)
  refine Verdict.All.ite (fun _ => lineOk_fail _) (fun _ => ?_)
  exact lineOk_next hr ha.le (by simp) hstay

theorem stepCheckUri_ok (h : r.Stored a p .checkUri) : LineOk p (stepCheckUri p ch r) := by
  have ⟨haddr, huri, hproto⟩ := h
  have haddr' := haddr.mono (Nat.le_succ p)
  have hstay : r.Stored a (p + 1) .uri := ⟨haddr', huri.mono (Nat.le_succ p), hproto⟩
  refine Verdict.All.ite (fun _ => lineOk_next hr ha.le (by simp) hstay) (fun _ => ?_)
  refine Verdict.All.ite (fun _ => ?_) (fun _ => ?_)
  · exact lineOk_next (a := a) hr ha.le (by simp)
      ⟨haddr', huri.slash.mono (Nat.le_succ p), hproto⟩
  refine Verdict.All.ite (fun _ => ?_) (fun _ => ?_)
  · exact lineOk_next (a := a) hr ha.le (by simp) ⟨haddr', huri.dot, hproto⟩
  refine uriEnd_ok hr ha h (by simp) id ?_
  refine Verdict.All.ite (fun _ => lineOk_next (a := a) hr ha.le (by simp) hstay) (fun _ => ?_)
  refine Verdict.All.ite (fun _ => ?_) (fun _ => ?_)
  · exact lineOk_next (a := a) hr ha.le (by simp) ⟨haddr', huri.query, hproto⟩
  refine Verdict.All.ite (fun _ => lineOk_next (a := a) hr ha.le (by simp) hstay) (fun _ => ?_)
  refine Verdict.All.ite (fun _ => lineOk_next (a := a) hr ha.le (by simp) hstay) (fun _ => ?_)
  refine Verdict.All.ite (fun _ => lineOk_fail _) (fun _ => ?_)
  exact lineOk_next hr ha.le (by simp) hstay

theorem stepUri_ok (h : r.Stored a p .uri) : LineOk p (stepUri p ch r) := by
  have hstay : r.Stored a (p + 1) .uri :=
    ⟨h.1.mono (Nat.le_succ p), h.2.1.mono (Nat.le_succ p), h.2.2⟩
  refine Verdict.All.ite (fun _ => lineOk_next hr ha.le (by simp) hstay) (fun _ => ?_)
  refine uriEnd_ok hr ha h (by simp) id ?_
  refine Verdict.All.ite (fun _ => lineOk_next (a := a) hr ha.le (by simp) hstay) (fun _ => ?_)
  refine Verdict.All.ite (fun _ => lineOk_fail _) (fun _ => ?_)
  exact lineOk_next hr ha.le (by simp) hstay

theorem stepFirstMajorDigit_ok (h : r.Stored a p .firstMajorDigit) :
    LineOk p (stepFirstMajorDigit ch r) :=
  Verdict.All.ite (fun _ => lineOk_fail _)
    (fun _ => lineOk_next (a := a) hr ha.le (by simp) (stored_version h))

theorem stepMajorDigit_ok (h : r.Stored a p .majorDigit) : LineOk p (stepMajorDigit ch r) := by
  have hstay := stored_version h
  refine Verdict.All.ite (fun _ => lineOk_next hr ha.le (by simp) hstay) (fun _ => ?_)
  exact Verdict.All.ite (fun _ => lineOk_next (a := a) hr ha.le (by simp) hstay)
    (fun _ => lineOk_fail _)

theorem stepFirstMinorDigit_ok (h : r.Stored a p .firstMinorDigit) :
    LineOk p (stepFirstMinorDigit ch r) :=
  Verdict.All.ite (fun _ => lineOk_next (a := a) hr ha.le (by simp) (stored_version h))
    (fun _ => lineOk_fail _)

theorem stepMinorDigit_ok (h : r.Stored a p .minorDigit) : LineOk p (stepMinorDigit p ch r) := by
  have hparsed : ({ r with httpProtocol.len := ptrSub p r.httpProtocol.p } : HttpRequest).Parsed
      a p := ⟨h.1, h.2.1, h.2.2.close.within⟩
  refine Verdict.All.ite (fun _ => lineOk_cr (a := a) hr ha.le hparsed) (fun _ => ?_)
  refine Verdict.All.ite (fun _ => lineOk_lf (a := a) hr ha.le hparsed) (fun _ => ?_)
  refine Verdict.All.ite (fun _ => ?_) (fun _ => ?_)
  · exact lineOk_next (a := a) hr ha.le (by simp) (hparsed.mono (Nat.le_succ p))
  · exact Verdict.All.ite
      (fun _ => lineOk_next (a := a) hr ha.le (by simp) (stored_version h))
      (fun _ => lineOk_fail _)

theorem stepSpacesAfterDigit_ok (h : r.Parsed a p) : LineOk p (stepSpacesAfterDigit p ch r) := by
  refine Verdict.All.ite (fun _ => ?_) (fun _ => ?_)
  · exact lineOk_next hr ha.le (by simp) (h.mono (Nat.le_succ p))
  refine Verdict.All.ite (fun _ => lineOk_cr hr ha.le h) (fun _ => ?_)
  exact Verdict.All.ite (fun _ => lineOk_lf hr ha.le h) (fun _ => lineOk_fail _)

theorem stepAlmostDone_ok (h : r.Parsed a (p - 1)) : LineOk p (stepAlmostDone p ch r) := by
  refine Verdict.All.ite (fun _ => ?_) (fun _ => lineOk_fail _)
  rintro r' ⟨⟩
  have hlen : ptrSub p (r.requestLine.p.map (· + 1)) = p - (a + 1) := by
    rw [hr, Option.map_some, ptrSub_some_of_le (by omega)]
  have hend : a + (p - (a + 1)) = p - 1 := by omega
  refine ⟨a, hr, ?_, ?_⟩
  · dsimp only
    rw [hlen, hend]
    exact Nat.sub_le p 1
  · dsimp only
    rw [hlen, hend]
    exact h

end InLine

/-- One byte keeps the invariant. -/
theorem lineStep_ok (mem : List UInt8) (h : r.InLine p st) :
    LineOk p (lineStep mem p ch (st, r)) := by
  cases st
  case start => exact stepStart_ok h
  all_goals obtain ⟨a, hr, ha, h⟩ := h
  case method => exact stepMethod_ok hr ha mem h
  case spacesBeforeUri => exact stepSpacesBeforeUri_ok hr ha h
  case schema => exact stepSchema_ok hr ha h
  case schemaSlash =>
    exact stepExpect_ok hr ha (by simp) ⟨h.1, h.2.1.mono (Nat.le_succ p), h.2.2.mono (by omega)⟩
  case schemaSlashSlash =>
    exact stepExpect_ok hr ha (by simp) ⟨h.1, h.2.1.mono (Nat.le_succ p), h.2.2.mono (by omega)⟩
  case hostStart => exact stepHostStart_ok hr ha h
  case host => exact stepHost_ok hr ha h
  case hostEnd => exact stepHostEnd_ok hr ha h
  case hostIpLiteral => exact stepHostIpLiteral_ok hr ha h
  case port => exact stepPort_ok hr ha h
  case hostHttp09 => exact stepHostHttp09_ok hr ha h
  case afterSlashInUri => exact stepAfterSlashInUri_ok hr ha h
  case checkUri => exact stepCheckUri_ok hr ha h
  case checkUriHttp09 => exact stepCheckUriHttp09_ok hr ha h
  case uri => exact stepUri_ok hr ha h
  case http09 => exact stepHttp09_ok hr ha h
  case httpH => exact stepExpect_ok hr ha (by simp) (stored_version h)
  case httpHT => exact stepExpect_ok hr ha (by simp) (stored_version h)
  case httpHTT => exact stepExpect_ok hr ha (by simp) (stored_version h)
  case httpHTTP => exact stepExpect_ok hr ha (by simp) (stored_version h)
  case firstMajorDigit => exact stepFirstMajorDigit_ok hr ha h
  case majorDigit => exact stepMajorDigit_ok hr ha h
  case firstMinorDigit => exact stepFirstMinorDigit_ok hr ha h
  case minorDigit => exact stepMinorDigit_ok hr ha h
  case spacesAfterDigit => exact stepSpacesAfterDigit_ok hr ha h
  case almostDone => exact stepAlmostDone_ok hr ha h

end Step

/-- The spans of a complete line of the first `last` bytes: each is `NULL` or lies
in these bytes, `exten` and `args` lie in the URI, and the URI in the line. -/
structure LineFields (requestLine methodName schema host port uri : Str) (args : Ptr)
    (exten httpProtocol : Str) (last : ℕ) : Prop where
  requestLine_within : requestLine.Within last
  methodName_within : methodName.Within last
  schema_within : schema.Within last
  host_within : host.Within last
  port_within : port.Within last
  uri_within : uri.Within last
  exten_within : exten.Within last
  httpProtocol_within : httpProtocol.Within last
  uri_partOf : uri.PartOf requestLine
  exten_partOf : exten.PartOf uri
  args_in_uri : ∀ x, args = some x → ∃ u, uri.p = some u ∧ u ≤ x ∧ x ≤ u + uri.len

def HttpRequest.LineSpans (r : HttpRequest) (last : ℕ) : Prop :=
  LineFields r.requestLine r.methodName r.schema r.host r.port r.uri r.args r.exten r.httpProtocol
    last

theorem Str.Closed.partOf {s t : Str} {a : ℕ} (ht : t.p = some a) (h : s.Closed a (a + t.len)) :
    s.PartOf t := Or.inr ⟨a, ht, h⟩

theorem HttpRequest.UriParts.lineFinish {r : HttpRequest} {u : ℕ} (hu : r.uri.p = some u)
    (h : r.UriParts u (u + r.uri.len)) : (lineFinish r).exten.PartOf r.uri := by
  rcases h.1 with hnone | hopen
  · left
    simp [Http.lineFinish, hnone, strInit]
  · obtain ⟨e, he, hlo, hhi⟩ := hopen
    refine Or.inr ⟨u, hu, e, he, hlo, ?_⟩
    simp only [Http.lineFinish, he, hu, Option.isSome_some, if_true, Option.getD_some,
      ptrSub_some_of_le hhi]
    omega

theorem HttpRequest.LineEnds.spans {r : HttpRequest} {p last : ℕ} (h : r.LineEnds p)
    (hle : p ≤ last) : (lineFinish r).LineSpans last := by
  obtain ⟨a, hr, hend, ⟨hname, hschema, hhost, hport⟩, ⟨u, hu, hua, huend, hparts⟩, hproto⟩ := h
  have hlast : a + r.requestLine.len ≤ last := hend.trans hle
  have huri : r.uri.Closed a (a + r.requestLine.len) := ⟨u, hu, hua, huend⟩
  have hexten : (lineFinish r).exten.PartOf r.uri := hparts.lineFinish hu
  have hexten' : (lineFinish r).exten.Within last := by
    rcases hexten with hnone | ⟨v, hv, hclosed⟩
    · exact Or.inl hnone
    · obtain rfl := Option.some.inj (hu.symm.trans hv)
      exact (hclosed.mono (huend.trans hlast)).within
  refine ⟨?_, (hname.mono hlast).within, hschema.mono hlast, hhost.mono hlast, hport.mono hlast,
    (huri.mono hlast).within, hexten', hproto.mono hlast, huri.partOf hr, hexten, ?_⟩
  · exact Or.inr ⟨a, hr, Nat.zero_le a, hlast⟩
  · intro x hx
    rcases hparts.2 with hnone | ⟨y, hy, hlo, hhi⟩
    · exact absurd (hnone.symm.trans hx) (by simp)
    · obtain rfl := Option.some.inj (hy.symm.trans hx)
      exact ⟨u, hu, hlo, hhi⟩

section Calls

variable {r r' : HttpRequest} {b b' : Buffer}

theorem lineRun_ok (hpos : b.pos ≤ b.data.length) (h : r.InLine b.pos (.ofCode r.state)) :
    ((lineScanner b.data).run b.pos (.ofCode r.state, r) b.unread).All
      (fun s => s.2.InLine b.data.length s.1) (fun p out => ∀ r, out = .done r → r.LineEnds p) := by
  have hrun := (lineScanner b.data).run_inv (fun p s => s.2.InLine p s.1)
    (fun p out => ∀ r, out = .done r → r.LineEnds p) b.unread
    (p := b.pos) (s := (.ofCode r.state, r)) (fun q ch s _ _ hs => lineStep_ok b.data hs) h
  rwa [b.pos_add_unread hpos] at hrun

theorem httpParseRequestLine_inLine (hpos : b.pos ≤ b.data.length)
    (h : r.InLine b.pos (.ofCode r.state)) (hp : httpParseRequestLine r b = (1, r', b')) :
    b' = { b with pos := b.data.length } ∧ r'.InLine b'.pos (.ofCode r'.state) := by
  have hrun := lineRun_ok hpos h
  rcases httpParseRequestLine_cases r b with ⟨st, r₁, hr, he⟩ | ⟨p, r₁, hr, he⟩ |
    ⟨p, code, r₁, hr, hneg, he⟩ <;> rw [he] at hp
  · obtain ⟨rfl, rfl⟩ := Prod.mk.inj (Prod.mk.inj hp).2
    rw [hr] at hrun
    refine ⟨rfl, ?_⟩
    rw [LineState.ofCode_code]
    cases st <;> exact hrun
  · have hle := lineDone_nonpos p r₁ b
    rw [hp] at hle
    omega
  · obtain ⟨rfl, -⟩ := Prod.mk.inj hp
    omega

/-- A complete line has its spans in the received bytes. -/
theorem httpParseRequestLine_spans (hpos : b.pos ≤ b.data.length)
    (h : r.InLine b.pos (.ofCode r.state)) (hp : httpParseRequestLine r b = (0, r', b')) :
    r'.LineSpans b.data.length := by
  have hrun := lineRun_ok hpos h
  rcases httpParseRequestLine_cases r b with ⟨st, r₁, hr, he⟩ | ⟨p, r₁, hr, he⟩ |
    ⟨p, code, r₁, hr, hneg, he⟩ <;> rw [he] at hp
  · simp at hp
  · obtain ⟨rfl, rfl⟩ := Prod.mk.inj (Prod.mk.inj hp).2
    have hlt := (lineScanner b.data).run_halt_lt hr
    rw [hr] at hrun
    rw [b.pos_add_unread hpos] at hlt
    exact (hrun r₁ rfl).spans hlt.2.le
  · obtain ⟨rfl, -⟩ := Prod.mk.inj hp
    omega

theorem httpParseRequestLine_pos_le (hpos : b.pos ≤ b.data.length) :
    (httpParseRequestLine r b).2.2.pos ≤ b.data.length := by
  rcases httpParseRequestLine_cases r b with ⟨st, r₁, hr, he⟩ | ⟨p, r₁, hr, he⟩ |
    ⟨p, code, r₁, hr, hneg, he⟩ <;> rw [he]
  · have hlt := (lineScanner b.data).run_halt_lt hr
    rw [b.pos_add_unread hpos] at hlt
    exact hlt.2
  · exact hpos

end Calls

/-! ## The header lines -/

/-- What the parser of a header line has stored when it stands at `p`. -/
def HttpRequest.InHeader (r : HttpRequest) (p : ℕ) : HeaderState → Prop
  | .start => True
  | .name => r.headerName.Open 0 p
  | .spaceBeforeValue | .headerAlmostDone => r.headerName.Within p
  | .value => r.headerName.Within p ∧ r.headerValue.Open 0 p
  -- a value that goes on behind spaces keeps its start
  | .spaceAfterValue => r.headerName.Within p ∧ r.headerValue.Closed 0 p
  | .almostDone => r.headerName.Within p ∧ r.headerValue.Within p

/-- A complete header line, or the empty line behind the last one. -/
def HeaderStop.Spans (p : ℕ) : HeaderStop → Prop
  | .done l => l.r.headerName.Within p ∧ l.r.headerValue.Within p
  | .headerDone l => l.r.headerName.Within p
  | .fail _ _ => True

/-- What a step from `p` owes the invariant of a header line. -/
def HeaderOk (p : ℕ) (v : HeaderVerdict) : Prop :=
  v.All (fun l => l.r.InHeader (p + 1) l.state) (fun l => l.r.InHeader p l.state)
    (HeaderStop.Spans p)

section HeaderStep

variable {p : ℕ} {ch : UInt8} {l : HeaderLocals}

theorem stepHeaderStart_ok : HeaderOk p (stepHeaderStart p ch l) := by
  have hopen : (⟨some p, l.r.headerName.len⟩ : Str).Open 0 p := ⟨p, rfl, Nat.zero_le p, le_rfl⟩
  have hopen' := hopen.mono (Nat.le_succ p)
  refine Verdict.All.ite (fun _ => ?_) (fun _ => ?_)
  · exact (hopen.close.mono (Nat.le_succ p)).within
  refine Verdict.All.ite (fun _ => hopen.close.within) (fun _ => ?_)
  refine Verdict.All.ite (fun _ => hopen') (fun _ => ?_)
  exact Verdict.All.ite (fun _ => trivial) (fun _ => hopen')

theorem stepHeaderName_ok (h : l.r.InHeader p .name) : HeaderOk p (stepHeaderName p ch l) := by
  have hopen := Str.Open.mono h (Nat.le_succ p)
  have hname := (Str.Open.close h).within
  have hname' := hname.mono (Nat.le_succ p)
  refine Verdict.All.ite (fun _ => hopen) (fun _ => ?_)
  refine Verdict.All.ite (fun _ => hname') (fun _ => ?_)
  refine Verdict.All.ite (fun _ => ⟨hname', Or.inl rfl⟩) (fun _ => ?_)
  refine Verdict.All.ite (fun _ => ⟨hname, Or.inl rfl⟩) (fun _ => ?_)
  exact Verdict.All.ite (fun _ => trivial) (fun _ => hopen)

theorem stepSpaceBeforeValue_ok (h : l.r.InHeader p .spaceBeforeValue) :
    HeaderOk p (stepSpaceBeforeValue p ch l) := by
  have hname := Str.Within.mono h (Nat.le_succ p)
  refine Verdict.All.ite (fun _ => hname) (fun _ => ?_)
  refine Verdict.All.ite (fun _ => ⟨hname, Or.inl rfl⟩) (fun _ => ?_)
  refine Verdict.All.ite (fun _ => ⟨h, Or.inl rfl⟩) (fun _ => ?_)
  refine Verdict.All.ite (fun _ => trivial) (fun _ => ?_)
  exact ⟨hname, p, rfl, Nat.zero_le p, Nat.le_succ p⟩

theorem stepValue_ok (h : l.r.InHeader p .value) : HeaderOk p (stepValue p ch l) := by
  obtain ⟨hname, hvalue⟩ := h
  have hname' := hname.mono (Nat.le_succ p)
  have hclose := hvalue.close.mono (Nat.le_succ p)
  refine Verdict.All.ite (fun _ => ⟨hname', hclose⟩) (fun _ => ?_)
  refine Verdict.All.ite (fun _ => ⟨hname', hclose.within⟩) (fun _ => ?_)
  refine Verdict.All.ite (fun _ => ⟨hname, hvalue.close.within⟩) (fun _ => ?_)
  exact Verdict.All.ite (fun _ => trivial) (fun _ => ⟨hname', hvalue.mono (Nat.le_succ p)⟩)

theorem stepSpaceAfterValue_ok (h : l.r.InHeader p .spaceAfterValue) :
    HeaderOk p (stepSpaceAfterValue ch l) := by
  obtain ⟨hname, hvalue⟩ := h
  have hname' := hname.mono (Nat.le_succ p)
  have hvalue' := hvalue.mono (Nat.le_succ p)
  refine Verdict.All.ite (fun _ => ⟨hname', hvalue'⟩) (fun _ => ?_)
  refine Verdict.All.ite (fun _ => ⟨hname', hvalue'.within⟩) (fun _ => ?_)
  refine Verdict.All.ite (fun _ => ⟨hname, hvalue.within⟩) (fun _ => ?_)
  exact Verdict.All.ite (fun _ => trivial) (fun _ => ⟨hname', hvalue'.toOpen⟩)

theorem stepHeaderLineAlmostDone_ok (h : l.r.InHeader p .almostDone) :
    HeaderOk p (stepHeaderLineAlmostDone ch l) := by
  refine Verdict.All.ite (fun _ => h) (fun _ => ?_)
  exact Verdict.All.ite (fun _ => ⟨h.1.mono (Nat.le_succ p), h.2.mono (Nat.le_succ p)⟩)
    (fun _ => trivial)

theorem stepHeaderAlmostDone_ok (h : l.r.InHeader p .headerAlmostDone) :
    HeaderOk p (stepHeaderAlmostDone ch l) :=
  Verdict.All.ite (fun _ => h) (fun _ => trivial)

theorem headerStep_ok (h : l.r.InHeader p l.state) : HeaderOk p (headerStep p ch l) := by
  unfold headerStep
  cases hst : l.state <;> rw [hst] at h
  case start => exact stepHeaderStart_ok
  case name => exact stepHeaderName_ok h
  case spaceBeforeValue => exact stepSpaceBeforeValue_ok h
  case value => exact stepValue_ok h
  case spaceAfterValue => exact stepSpaceAfterValue_ok h
  case almostDone => exact stepHeaderLineAlmostDone_ok h
  case headerAlmostDone => exact stepHeaderAlmostDone_ok h

end HeaderStep

def HeaderStop.r : HeaderStop → HttpRequest
  | .done l | .headerDone l | .fail _ l => l.r

/-- No byte of a header line touches a span of the request line. -/
theorem headerStep_lineSpans {last : ℕ} (p : ℕ) (ch : UInt8) {l : HeaderLocals}
    (h : l.r.LineSpans last) :
    (headerStep p ch l).All (fun l' => l'.r.LineSpans last) (fun l' => l'.r.LineSpans last)
      (fun out => out.r.LineSpans last) := by
  unfold headerStep
  cases l.state <;> repeat' refine Verdict.All.ite (fun _ => ?_) (fun _ => ?_)
  all_goals exact h

section HeaderCalls

variable {r r' : HttpRequest} {b b' : Buffer}

theorem headerRun_ok (hpos : b.pos ≤ b.data.length) (h : r.InHeader b.pos (.ofCode r.state)) :
    (headerScanner.run b.pos (.load r) b.unread).All
      (fun l => l.r.InHeader b.data.length l.state) HeaderStop.Spans := by
  have hrun := headerScanner.run_inv (fun p l => l.r.InHeader p l.state) HeaderStop.Spans b.unread
    (p := b.pos) (s := .load r) (fun q ch l _ _ hl => headerStep_ok hl) h
  rwa [b.pos_add_unread hpos] at hrun

theorem httpParseRequestHeader_inHeader (hpos : b.pos ≤ b.data.length)
    (h : r.InHeader b.pos (.ofCode r.state)) (hp : httpParseRequestHeader r b = (1, r', b')) :
    r'.InHeader b.data.length (.ofCode r'.state) := by
  have hrun := headerRun_ok hpos h
  rcases httpParseRequestHeader_cases r b with ⟨l, hr, he⟩ | ⟨p, l, hr, he⟩ | ⟨p, l, hr, he⟩ |
    ⟨p, code, l, hr, hneg, he⟩ <;> rw [he] at hp
  · obtain rfl := (Prod.mk.inj (Prod.mk.inj hp).2).1
    rw [hr] at hrun
    change l.r.InHeader b.data.length (.ofCode l.state.code)
    rwa [HeaderState.ofCode_code]
  · simp at hp
  · simp at hp
  · obtain ⟨rfl, -⟩ := Prod.mk.inj hp
    omega

theorem httpParseRequestHeader_spans (hpos : b.pos ≤ b.data.length)
    (h : r.InHeader b.pos (.ofCode r.state)) (hp : httpParseRequestHeader r b = (0, r', b')) :
    r'.headerName.Within b.data.length ∧ r'.headerValue.Within b.data.length ∧ r'.state = 0 := by
  have hrun := headerRun_ok hpos h
  rcases httpParseRequestHeader_cases r b with ⟨l, hr, he⟩ | ⟨p, l, hr, he⟩ | ⟨p, l, hr, he⟩ |
    ⟨p, code, l, hr, hneg, he⟩ <;> rw [he] at hp
  · simp at hp
  · obtain rfl := (Prod.mk.inj (Prod.mk.inj hp).2).1
    have hlt := headerScanner.run_halt_lt hr
    rw [hr] at hrun
    rw [b.pos_add_unread hpos] at hlt
    exact ⟨hrun.1.mono hlt.2.le, hrun.2.mono hlt.2.le, rfl⟩
  · simp at hp
  · obtain ⟨rfl, -⟩ := Prod.mk.inj hp
    omega

theorem httpParseRequestHeader_empty (hpos : b.pos ≤ b.data.length)
    (h : r.InHeader b.pos (.ofCode r.state)) (hp : httpParseRequestHeader r b = (100, r', b')) :
    r'.headerName.Within b.data.length := by
  have hrun := headerRun_ok hpos h
  rcases httpParseRequestHeader_cases r b with ⟨l, hr, he⟩ | ⟨p, l, hr, he⟩ | ⟨p, l, hr, he⟩ |
    ⟨p, code, l, hr, hneg, he⟩ <;> rw [he] at hp
  · simp at hp
  · simp at hp
  · obtain rfl := (Prod.mk.inj (Prod.mk.inj hp).2).1
    have hlt := headerScanner.run_halt_lt hr
    rw [hr] at hrun
    rw [b.pos_add_unread hpos] at hlt
    exact Str.Within.mono hrun hlt.2.le
  · obtain ⟨rfl, -⟩ := Prod.mk.inj hp
    omega

/-- The spans of the line survive the header lines, however a call ends. -/
theorem httpParseRequestHeader_lineSpans {last : ℕ} (h : r.LineSpans last) :
    (httpParseRequestHeader r b).2.1.LineSpans last := by
  have hrun := headerScanner.run_inv (fun _ l => l.r.LineSpans last)
    (fun _ out => out.r.LineSpans last) b.unread (p := b.pos) (s := .load r)
    (fun q ch l _ _ hl => headerStep_lineSpans q ch hl) h
  rcases httpParseRequestHeader_cases r b with ⟨l, hr, he⟩ | ⟨p, l, hr, he⟩ | ⟨p, l, hr, he⟩ |
    ⟨p, code, l, hr, hneg, he⟩ <;> rw [he] <;> rw [hr] at hrun <;> exact hrun

theorem httpParseRequestHeader_pos_le (hpos : b.pos ≤ b.data.length) :
    (httpParseRequestHeader r b).2.2.pos ≤ b.data.length := by
  rcases httpParseRequestHeader_cases r b with ⟨l, hr, he⟩ | ⟨p, l, hr, he⟩ | ⟨p, l, hr, he⟩ |
    ⟨p, code, l, hr, hneg, he⟩ <;> rw [he]
  · have hlt := headerScanner.run_halt_lt hr
    rw [b.pos_add_unread hpos] at hlt
    exact hlt.2
  · have hlt := headerScanner.run_halt_lt hr
    rw [b.pos_add_unread hpos] at hlt
    exact hlt.2
  · exact hpos

end HeaderCalls

end Cserv.Http
