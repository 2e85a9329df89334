import Cserv.Http.LineGrammar
import Cserv.Http.UriScan

/-!
# The two forms of a target

A target in absolute form leads to the same state as one in origin form, at the slash of its
path. From there on two runs over the same bytes go in lockstep, wherever these bytes lie: what
the runs keep agrees once pointers are read as offsets from the slash.
-/
namespace Cserv.Http

open Foundations

/-! ## Offsets -/

def SameOffset (s t : ℕ) (p q : Ptr) : Prop :=
  p.map (fun a : ℕ => (a : ℤ) - s) = q.map (fun a : ℕ => (a : ℤ) - t)

/-- Equal as spans relative to `s` and to `t`. -/
structure SameSpan (s t : ℕ) (x y : Str) : Prop where
  p : SameOffset s t x.p y.p
  len : x.len = y.len

section Offset

variable {s t : ℕ} {p q : Ptr}

theorem sameOffset_some (k : ℕ) : SameOffset s t (some (s + k)) (some (t + k)) := by
  simp [SameOffset]

theorem sameOffset_none : SameOffset s t none none := rfl

theorem SameOffset.isSome_eq (h : SameOffset s t p q) : p.isSome = q.isSome := by
  have hmap := congrArg Option.isSome h
  rwa [Option.isSome_map, Option.isSome_map] at hmap

theorem SameOffset.ptrSub_eq (h : SameOffset s t p q) (k : ℕ) :
    ptrSub (s + k) p = ptrSub (t + k) q := by
  cases p with
  | none =>
    obtain rfl : q = none := by simpa [SameOffset] using h.symm
    rfl
  | some a =>
    cases q with
    | none => cases h
    | some c =>
      have hdiff : (a : ℤ) - s = c - t := Option.some.inj h
      simp only [ptrSub]
      split_ifs <;> omega

end Offset

/-- What is kept about a URI agrees up to its place. -/
structure UriFields.Alike (s t : ℕ) (f g : UriFields) : Prop where
  complexUri : f.complexUri = g.complexUri
  quotedUri : f.quotedUri = g.quotedUri
  plusInUri : f.plusInUri = g.plusInUri
  spaceInUri : f.spaceInUri = g.spaceInUri
  args : SameOffset s t f.args g.args
  exten : SameSpan s t f.exten g.exten

/-! ## Lockstep -/

/-- Two requests in the middle of their lines, with their paths at `s` and `t`. -/
def Alike (s t : ℕ) (r r' : HttpRequest) : Prop :=
  r.method = r'.method ∧ (r.uri.p = some s ∧ r'.uri.p = some t) ∧
    r.uriFields.Alike s t r'.uriFields

def SameVersion (r r' : HttpRequest) : Prop :=
  r.httpMinor = r'.httpMinor ∧ (r.httpMinor = 9 ∨ r.httpMajor = r'.httpMajor)

def TailAlike (r r' : HttpRequest) : LineState → Prop
  | .afterSlashInUri | .checkUri | .uri => True
  | .checkUriHttp09 | .http09 | .httpH | .httpHT | .httpHTT | .httpHTTP | .firstMajorDigit =>
    r.uri.len = r'.uri.len
  | .majorDigit | .firstMinorDigit => r.uri.len = r'.uri.len ∧ r.httpMajor = r'.httpMajor
  | .minorDigit | .spacesAfterDigit =>
    r.uri.len = r'.uri.len ∧ r.httpMajor = r'.httpMajor ∧ r.httpMinor = r'.httpMinor
  | .almostDone => r.uri.len = r'.uri.len ∧ SameVersion r r'
  | _ => False

/-- Two states of the parser behind the first slash. -/
def InStep (s t : ℕ) (x y : LineState × HttpRequest) : Prop :=
  x.1 = y.1 ∧ Alike s t x.2 y.2 ∧ TailAlike x.2 y.2 x.1

inductive SameStop (s t : ℕ) : LineStop → LineStop → Prop
  | done {r r' : HttpRequest} : Alike s t r r' → r.uri.len = r'.uri.len → SameVersion r r' →
      SameStop s t (.done r) (.done r')
  | fail (code : ℤ) (r r' : HttpRequest) : SameStop s t (.fail code r) (.fail code r')

section Step

variable {s t k : ℕ} {mem mem' : List UInt8} {ch : UInt8} {r r' : HttpRequest}

abbrev InStepVerdict (s t : ℕ) : LineVerdict → LineVerdict → Prop :=
  Verdict.Rel (InStep s t) (InStep s t) (SameStop s t)

theorem sameVersion_nine (r r' : HttpRequest) :
    SameVersion { r with httpMinor := 9 } { r' with httpMinor := 9 } := ⟨rfl, Or.inl rfl⟩

theorem inStep_spaces {st : LineState} {other other' : LineVerdict} (h : Alike s t r r')
    (hlen : r.uri.len = r'.uri.len) (hst : TailAlike r r' st = (r.uri.len = r'.uri.len))
    (hother : InStepVerdict s t other other') :
    InStepVerdict s t (stepSpaces (s + k) ch r st other) (stepSpaces (t + k) ch r' st other') := by
  refine .ite (fun _ => .next ⟨rfl, h, hst ▸ hlen⟩) fun _ => ?_
  refine .ite (fun _ => .next ⟨rfl, h, hlen, sameVersion_nine r r'⟩) fun _ => ?_
  refine .ite (fun _ => .stop (.done h hlen (sameVersion_nine r r'))) fun _ => ?_
  exact .ite (fun _ => .next ⟨rfl, h, hlen⟩) fun _ => hother

theorem uriByte_alike (k : ℕ) (ch : UInt8) (σ : UriState) {f g : UriFields} (h : f.Alike s t g) :
    (uriByte (s + k) ch (σ, f)).1 = (uriByte (t + k) ch (σ, g)).1 ∧
      (uriByte (s + k) ch (σ, f)).2.Alike s t (uriByte (t + k) ch (σ, g)).2 := by
  cases σ <;> simp only [uriByte] <;> split_ifs
  all_goals first
    | exact ⟨rfl, h⟩
    | exact ⟨rfl, { h with spaceInUri := rfl }⟩
    | exact ⟨rfl, { h with complexUri := rfl }⟩
    | exact ⟨rfl, { h with quotedUri := rfl }⟩
    | exact ⟨rfl, { h with plusInUri := rfl }⟩
    | exact ⟨rfl, { h with args := sameOffset_some (k + 1) }⟩
    | exact ⟨rfl, { h with exten := ⟨sameOffset_none, rfl⟩ }⟩
    | exact ⟨rfl, { h with exten := ⟨sameOffset_some (k + 1), h.exten.len⟩ }⟩

theorem lineStep_uri_inStep (σ : UriState) (h : Alike s t r r') :
    InStepVerdict s t (lineStep mem (s + k) ch (σ.line, r))
      (lineStep mem' (t + k) ch (σ.line, r')) := by
  have hlen : ptrSub (s + k) r.uri.p = ptrSub (t + k) r'.uri.p := by
    rw [h.2.1.1, h.2.1.2]
    exact (sameOffset_some 0).ptrSub_eq k
  by_cases hsp : ch = ' '
  · subst hsp
    rw [UriState.lineStep_space, UriState.lineStep_space]
    refine .next ⟨rfl, h, ?_⟩
    cases σ <;> exact hlen
  by_cases hcr : ch = CR
  · subst hcr
    rw [lineStep_uri_cr σ.line_inUri, lineStep_uri_cr σ.line_inUri]
    exact .next ⟨rfl, h, hlen, sameVersion_nine ..⟩
  by_cases hlf : ch = LF
  · subst hlf
    rw [lineStep_uri_lf σ.line_inUri, lineStep_uri_lf σ.line_inUri]
    exact .stop (.done h hlen (sameVersion_nine ..))
  by_cases hnul : ch = '\x00'
  · subst hnul
    cases σ <;> exact .stop (.fail ..)
  · obtain ⟨r₁, hstep, hfields, huri, hmethod⟩ :=
      lineStep_uriByte mem (s + k) σ r hsp hcr hlf hnul
    obtain ⟨r₁', hstep', hfields', huri', hmethod'⟩ :=
      lineStep_uriByte mem' (t + k) σ r' hsp hcr hlf hnul
    obtain ⟨hσ, halike⟩ := uriByte_alike k ch σ h.2.2
    rw [hstep, hstep', hσ]
    refine .next ⟨rfl, ⟨?_, ?_, ?_⟩, ?_⟩
    · rw [hmethod, hmethod', h.1]
    · rw [huri, huri']
      exact h.2.1
    · rw [hfields, hfields']
      exact halike
    · generalize (uriByte (t + k) ch (σ, r'.uriFields)).1 = τ
      cases τ <;> trivial

theorem lineStep_inStep {x y : LineState × HttpRequest} (h : InStep s t x y) :
    InStepVerdict s t (lineStep mem (s + k) ch x) (lineStep mem' (t + k) ch y) := by
  obtain ⟨st, r⟩ := x
  obtain ⟨st', r'⟩ := y
  obtain ⟨rfl, halike, htail⟩ := h
  have hspace : Alike s t { r with spaceInUri := true } { r' with spaceInUri := true } :=
    ⟨halike.1, halike.2.1, { halike.2.2 with spaceInUri := rfl }⟩
  cases st with
  | afterSlashInUri => exact lineStep_uri_inStep .afterSlash halike
  | checkUri => exact lineStep_uri_inStep .check halike
  | uri => exact lineStep_uri_inStep .rest halike
  | checkUriHttp09 | http09 => exact inStep_spaces halike htail rfl (.again ⟨rfl, hspace, trivial⟩)
  | httpH | httpHT | httpHTT | httpHTTP =>
    exact Verdict.Rel.ite (fun _ => .next ⟨rfl, halike, htail⟩) fun _ => .stop (.fail ..)
  | firstMajorDigit =>
    exact Verdict.Rel.ite (fun _ => .stop (.fail ..)) fun _ => .next ⟨rfl, halike, htail, rfl⟩
  | majorDigit =>
    refine Verdict.Rel.ite (fun _ => .next ⟨rfl, halike, htail⟩) fun _ => ?_
    refine Verdict.Rel.ite (fun _ => .next ⟨rfl, halike, htail.1, ?_⟩) fun _ => .stop (.fail ..)
    exact congrArg (addDigit · ch) htail.2
  | firstMinorDigit =>
    exact Verdict.Rel.ite (fun _ => .next ⟨rfl, halike, htail.1, htail.2, rfl⟩)
      fun _ => .stop (.fail ..)
  | minorDigit =>
    refine Verdict.Rel.ite (fun _ => .next ⟨rfl, halike, htail.1, htail.2.2, .inr htail.2.1⟩)
      fun _ => ?_
    refine Verdict.Rel.ite (fun _ => .stop (.done halike htail.1 ⟨htail.2.2, .inr htail.2.1⟩))
      fun _ => ?_
    refine Verdict.Rel.ite (fun _ => .next ⟨rfl, halike, htail⟩) fun _ => ?_
    refine Verdict.Rel.ite (fun _ => .next ⟨rfl, halike, htail.1, htail.2.1, ?_⟩)
      fun _ => .stop (.fail ..)
    exact congrArg (addDigit · ch) htail.2.2
  | spacesAfterDigit =>
    refine Verdict.Rel.ite (fun _ => .next ⟨rfl, halike, htail⟩) fun _ => ?_
    refine Verdict.Rel.ite (fun _ => .next ⟨rfl, halike, htail.1, htail.2.2, .inr htail.2.1⟩)
      fun _ => ?_
    exact Verdict.Rel.ite (fun _ => .stop (.done halike htail.1 ⟨htail.2.2, .inr htail.2.1⟩))
      fun _ => .stop (.fail ..)
  | almostDone =>
    exact Verdict.Rel.ite (fun _ => .stop (.done halike htail.1 htail.2)) fun _ => .stop (.fail ..)
  | _ => exact htail.elim

end Step

theorem lineRun_inStep {s t : ℕ} (mem mem' bs : List UInt8) {x y : LineState × HttpRequest}
    (h : InStep s t x y) :
    Scan.Rel (InStep s t) (fun _ => SameStop s t) (((lineScanner mem).shift s).run 1 x bs)
      (((lineScanner mem').shift t).run 1 y bs) :=
  Scanner.run_rel _ _ (fun _ => InStep s t) (fun _ => SameStop s t) bs
    (fun _ _ _ _ _ _ hxy => lineStep_inStep hxy) h

/-! ## The way to the first slash -/

section Forms

variable {mem rest : List UInt8} {p : ℕ} {r : HttpRequest} {ch : UInt8}

theorem lineRun_method (m : KnownMethod) (hmem : mem.drop p = methodWord m.1 ++ (' ' : UInt8) :: rest) :
    (lineScanner mem).run p (.start, r) (methodWord m.1 ++ (' ' : UInt8) :: rest) =
      (lineScanner mem).run (p + (methodWord m.1).length + 1)
        (.spacesBeforeUri, { r with
          requestLine.p := some p
          methodName := ⟨some p, (methodWord m.1).length⟩
          method := m.1 }) rest := by
  obtain ⟨c, w, hw⟩ := List.exists_cons_of_ne_nil (methodWord_ne_nil m)
  have hbytes := methodWord_bytes m.1
  rw [hw, List.forall_mem_cons] at hbytes
  have hne : ¬(c = CR ∨ c = LF) := by
    simpa [isEolByte] using isEolByte_of_isMethodByte hbytes.1
  have hstart : lineStep mem p c (.start, r) =
      .next (.method, { r with requestLine.p := some p, methodName.p := some p }) :=
    (if_neg hne).trans (if_pos hbytes.1)
  have hloop : ∀ (p : ℕ) (ch : UInt8) (r : HttpRequest), isMethodByte ch = true →
      lineStep mem p ch (.method, r) = .next (.method, r) := by
    intro p ch r hch
    have hsp : ch ≠ ' ' := by
      rintro rfl
      exact absurd hch (by decide)
    exact (if_neg hsp).trans (if_pos hch)
  have hspace := lineStep_method_space
    (r := { r with requestLine.p := some p, methodName.p := some p }) rfl hmem
  rw [getRequestMethod_methodWord, if_neg m.2] at hspace
  have hlen : p + (methodWord m.1).length = p + 1 + w.length := by
    rw [hw, List.length_cons]
    omega
  rw [hlen] at hspace ⊢
  rw [hw, List.cons_append, Scanner.run_next _ hstart,
    Scanner.run_loop _ (fun p ch hch => hloop p ch _ hch) hbytes.2, Scanner.run_next _ hspace, hw]

theorem lineRun_host {h : List UInt8} (hh : HostText h) (hch : ch = ':' ∨ ch = '/') :
    (lineScanner mem).run p (.hostStart, r) (h ++ ch :: rest) =
      (lineScanner mem).run (p + h.length) (.hostEnd, { r with host.p := some p }) (ch :: rest) := by
  have hbracket : ch ≠ '[' := by rcases hch with rfl | rfl <;> decide
  have hend : ∀ (p : ℕ) (r : HttpRequest), lineStep mem p ch (.host, r) =
      lineStep mem p ch (.hostEnd, r) := by
    intro p r
    rcases hch with rfl | rfl <;> rfl
  have hname : ∀ (p : ℕ) (c : UInt8) (r : HttpRequest), isHostByte c = true →
      lineStep mem p c (.host, r) = .next (.host, r) := by
    intro p c r hc
    simp only [isHostByte, Bool.or_eq_true, beq_iff_eq] at hc
    simp only [lineStep, stepHost, lineNext]
    split_ifs <;> first | rfl | tauto
  -- the first byte decides between a name and a literal
  have hfirst : ∀ c : UInt8, c ≠ '[' → lineStep mem p c (.hostStart, r) =
      lineStep mem p c (.host, { r with host.p := some p }) := fun c hc => if_neg hc
  rcases hh with hh | ⟨l, rfl, hl⟩
  · cases h with
    | nil => exact Scanner.run_step_congr _ ((hfirst ch hbracket).trans (hend ..)) rest
    | cons c h =>
      have hc : c ≠ '[' := by
        rintro rfl
        exact absurd (hh _ List.mem_cons_self) (by decide)
      rw [List.cons_append,
        Scanner.run_step_congr (t := (.host, { r with host.p := some p })) _ (hfirst c hc),
        ← List.cons_append,
        Scanner.run_loop _ (fun p c hc => hname p c _ hc) hh]
      exact Scanner.run_step_congr _ (hend ..) rest
  · have hopen : lineStep mem p '[' (.hostStart, r) =
        .next (.hostIpLiteral, { r with host.p := some p }) := rfl
    have hclose : lineStep mem (p + 1 + l.length) ']'
        (.hostIpLiteral, { r with host.p := some p }) =
        .next (.hostEnd, { r with host.p := some p }) := rfl
    rw [List.cons_append, Scanner.run_next _ hopen, List.append_assoc,
      Scanner.run_loop _ (fun p c hc => if_pos hc) hl, List.singleton_append,
      Scanner.run_next _ hclose]
    congr 1
    simp only [List.length_cons, List.length_append, List.length_nil]
    omega

theorem lineRun_hostEnd (mem rest : List UInt8) (p : ℕ) (r : HttpRequest)
    {port : Option (List UInt8)}
    (hport : ∀ ds ∈ port, ∀ c ∈ ds, isDigit c = true) :
    ∃ hostSpan portSpan,
      (lineScanner mem).run p (.hostEnd, r) (portBytes port ++ ('/' : UInt8) :: rest) =
        (lineScanner mem).run (p + (portBytes port).length + 1)
          (.afterSlashInUri, { r with
            host := hostSpan
            port := portSpan
            uri.p := some (p + (portBytes port).length) }) rest := by
  cases port with
  | none =>
    exact ⟨⟨r.host.p, ptrSub p r.host.p⟩, strInit, Scanner.run_next (lineScanner mem) rfl rest⟩
  | some ds =>
    have hlen : p + (portBytes (some ds)).length = p + 1 + ds.length := by
      rw [portBytes, List.length_cons]
      omega
    refine ⟨⟨r.host.p, ptrSub p r.host.p⟩,
      ⟨some (p + 1), ptrSub (p + 1 + ds.length) (some (p + 1))⟩, ?_⟩
    rw [hlen, portBytes, List.cons_append]
    refine (Scanner.run_next (lineScanner mem) rfl _).trans ?_
    rw [Scanner.run_loop _ (fun p c hc => if_pos hc) (hport ds rfl)]
    exact Scanner.run_next (lineScanner mem) rfl rest

theorem lineRun_authority (mem rest : List UInt8) (p : ℕ) (r : HttpRequest) (a : Authority) :
    ∃ schemaSpan hostSpan portSpan,
      (lineScanner mem).run p (.spacesBeforeUri, r) (a.bytes ++ ('/' : UInt8) :: rest) =
        (lineScanner mem).run (p + a.bytes.length + 1)
          (.afterSlashInUri, { r with
            schema := schemaSpan
            host := hostSpan
            port := portSpan
            uri.p := some (p + a.bytes.length) }) rest := by
  obtain ⟨c, s, hs⟩ := List.exists_cons_of_ne_nil a.schema_ne_nil
  have halpha := a.schema_alpha
  rw [hs, List.forall_mem_cons] at halpha
  have hslash : c ≠ '/' := by
    rintro rfl
    exact absurd halpha.1 (by decide)
  have hfirst : lineStep mem p c (.spacesBeforeUri, r) =
      .next (.schema, { r with schema.p := some p }) := (if_neg hslash).trans (if_pos halpha.1)
  obtain ⟨ch, word, hhead, hch⟩ : ∃ ch word,
      portBytes a.port ++ ('/' : UInt8) :: rest = ch :: word ∧ (ch = ':' ∨ ch = '/') := by
    cases a.port with
    | none => exact ⟨_, _, rfl, Or.inr rfl⟩
    | some ds => exact ⟨_, _, rfl, Or.inl rfl⟩
  have hbytes : a.bytes ++ ('/' : UInt8) :: rest =
      c :: (s ++ (':' : UInt8) :: ('/' : UInt8) :: ('/' : UInt8) :: (a.host ++ ch :: word)) := by
    rw [← hhead]
    simp [Authority.bytes, hs, Http.bytes]
  have hlen : p + a.bytes.length =
      p + 1 + s.length + 1 + 1 + 1 + a.host.length + (portBytes a.port).length := by
    simp only [Authority.bytes, hs, List.length_append, List.length_cons,
      show (Http.bytes "://").length = 3 from rfl]
    omega
  obtain ⟨hostSpan, portSpan, hend⟩ := lineRun_hostEnd mem rest
    (p + 1 + s.length + 1 + 1 + 1 + a.host.length)
    { r with
      schema := ⟨some p, ptrSub (p + 1 + s.length) (some p)⟩
      host.p := some (p + 1 + s.length + 1 + 1 + 1) } a.port_digits
  refine ⟨⟨some p, ptrSub (p + 1 + s.length) (some p)⟩, hostSpan, portSpan, ?_⟩
  rw [hbytes, Scanner.run_next _ hfirst,
    Scanner.run_loop _ (fun p c hc => if_pos hc) halpha.2]
  refine (Scanner.run_next (lineScanner mem) rfl _).trans ?_
  refine (Scanner.run_next (lineScanner mem) rfl _).trans ?_
  refine (Scanner.run_next (lineScanner mem) rfl _).trans ?_
  rw [lineRun_host a.host_text hch, ← hhead, hlen]
  exact hend

/-- The request at the slash of the path at `s`, on a line with the method `m`. -/
structure AtPath (m : HttpMethod) (s : ℕ) (r q : HttpRequest) : Prop where
  method : q.method = m
  uri : q.uri.p = some s
  uriFields : q.uriFields = r.uriFields

theorem lineRun_absolute (m : KnownMethod) (a : Authority)
    (hmem : mem.drop p = methodWord m.1 ++ (' ' : UInt8) :: (a.bytes ++ ('/' : UInt8) :: rest)) :
    ∃ q, (lineScanner mem).run p (.start, r) (mem.drop p) =
        (lineScanner mem).run (p + (methodWord m.1).length + 1 + a.bytes.length + 1)
          (.afterSlashInUri, q) rest ∧
      AtPath m.1 (p + (methodWord m.1).length + 1 + a.bytes.length) r q := by
  obtain ⟨schemaSpan, hostSpan, portSpan, hauthority⟩ := lineRun_authority mem rest
    (p + (methodWord m.1).length + 1)
    { r with
      requestLine.p := some p
      methodName := ⟨some p, (methodWord m.1).length⟩
      method := m.1 } a
  have hrun := (lineRun_method (r := r) m hmem).trans hauthority
  rw [← hmem] at hrun
  exact ⟨_, hrun, rfl, rfl, rfl⟩

theorem lineRun_origin (m : KnownMethod)
    (hmem : mem.drop p = methodWord m.1 ++ (' ' : UInt8) :: ('/' : UInt8) :: rest) :
    ∃ q, (lineScanner mem).run p (.start, r) (mem.drop p) =
        (lineScanner mem).run (p + (methodWord m.1).length + 1 + 1) (.afterSlashInUri, q) rest ∧
      AtPath m.1 (p + (methodWord m.1).length + 1) r q := by
  have hrun := (lineRun_method (r := r) m hmem).trans (Scanner.run_next (lineScanner mem) rfl rest)
  rw [← hmem] at hrun
  exact ⟨_, hrun, rfl, rfl, rfl⟩

end Forms

/-! ## Whole calls -/

/-- Two complete lines agree about their method, version and URI. -/
structure SameRequest (s t : ℕ) (r r' : HttpRequest) : Prop where
  method : r.method = r'.method
  httpMajor : r.httpMajor = r'.httpMajor
  httpMinor : r.httpMinor = r'.httpMinor
  httpVersion : r.httpVersion = r'.httpVersion
  uri : SameSpan s t r.uri r'.uri
  uriFields : r.uriFields.Alike s t r'.uriFields

section Calls

variable {s t : ℕ} {r r' r₁ r₂ q₁ q₂ : HttpRequest} {b₁ b₂ : Buffer} {rest : List UInt8}

theorem Alike.finish (h : Alike s t r r') (hlen : r.uri.len = r'.uri.len)
    (hversion : SameVersion r r') : SameRequest s t (lineFinish r) (lineFinish r') := by
  obtain ⟨hmethod, ⟨hs, ht⟩, hfields⟩ := h
  obtain ⟨hminor, hmajor⟩ := hversion
  have hmajor' : (lineFinish r).httpMajor = (lineFinish r').httpMajor := by
    simp only [lineFinish, ← hminor]
    rcases hmajor with hnine | heq
    · rw [if_pos hnine, if_pos hnine]
    · rw [heq]
  have hexten : (lineFinish r).exten.len = (lineFinish r').exten.len := by
    simp only [lineFinish, hs, ht, Option.getD_some, hlen]
    have hp : SameOffset s t r.exten.p r'.exten.p := hfields.exten.p
    have hextenlen : r.exten.len = r'.exten.len := hfields.exten.len
    rw [hp.isSome_eq, hp.ptrSub_eq, hextenlen]
  refine ⟨hmethod, hmajor', hminor, ?_, ⟨?_, hlen⟩, { hfields with exten := ⟨hfields.exten.p, hexten⟩ }⟩
  · change (lineFinish r).httpMajor * 1000 + r.httpMinor =
      (lineFinish r').httpMajor * 1000 + r'.httpMinor
    rw [hmajor', hminor]
  · change SameOffset s t r.uri.p r'.uri.p
    rw [hs, ht]
    exact sameOffset_some 0

/-- Two calls that come to their first slashes with the same bytes before them. -/
theorem httpParseRequestLine_inStep (hq : Alike s t q₁ q₂)
    (h₁ : (lineScanner b₁.data).run b₁.pos (LineState.ofCode r₁.state, r₁) b₁.unread =
      (lineScanner b₁.data).run (s + 1) (.afterSlashInUri, q₁) rest)
    (h₂ : (lineScanner b₂.data).run b₂.pos (LineState.ofCode r₂.state, r₂) b₂.unread =
      (lineScanner b₂.data).run (t + 1) (.afterSlashInUri, q₂) rest) :
    (httpParseRequestLine r₁ b₁).1 = (httpParseRequestLine r₂ b₂).1 ∧
      ((httpParseRequestLine r₁ b₁).1 = 0 →
        SameRequest s t (httpParseRequestLine r₁ b₁).2.1 (httpParseRequestLine r₂ b₂).2.1) := by
  have hrel := lineRun_inStep b₁.data b₂.data rest
    (x := (.afterSlashInUri, q₁)) (y := (.afterSlashInUri, q₂)) ⟨rfl, hq, trivial⟩
  rw [Scanner.run_shift] at h₁ h₂
  unfold httpParseRequestLine
  generalize ((lineScanner b₁.data).shift s).run 1 (.afterSlashInUri, q₁) rest = x at hrel h₁
  generalize ((lineScanner b₂.data).shift t).run 1 (.afterSlashInUri, q₂) rest = y at hrel h₂
  cases hrel with
  | more h =>
    rw [h₁, h₂]
    exact ⟨rfl, fun h => absurd h one_ne_zero⟩
  | halt h =>
    cases h with
    | fail code r r' =>
      have hneg := lineRun_fail_neg h₁
      rw [h₁, h₂]
      exact ⟨rfl, fun h => absurd h hneg.ne⟩
    | done halike hlen hversion =>
      have hsame := halike.finish hlen hversion
      rw [h₁, h₂]
      simp only [Scan.shift, lineDone, hsame.httpVersion, hsame.method]
      exact ⟨trivial, fun _ => hsame⟩

/-- A line with a target in absolute form and the line with its path alone get the same code from
`http_parse_request_line`. Complete lines agree about the method, the version and, with pointers as
offsets from the slash of the path, about the URI, its query string, extension and flags. -/
theorem absolute_origin_agree (m : KnownMethod) (a : Authority) (u : List UInt8)
    (hstate₁ : r₁.state = 0) (hstate₂ : r₂.state = 0)
    (habsolute : b₁.unread =
      methodWord m.1 ++ (' ' : UInt8) :: (a.bytes ++ ('/' : UInt8) :: u))
    (horigin : b₂.unread = methodWord m.1 ++ (' ' : UInt8) :: ('/' : UInt8) :: u)
    (hs : s = b₁.pos + (methodWord m.1).length + 1 + a.bytes.length)
    (ht : t = b₂.pos + (methodWord m.1).length + 1)
    (hfields : r₁.uriFields.Alike s t r₂.uriFields) :
    (httpParseRequestLine r₁ b₁).1 = (httpParseRequestLine r₂ b₂).1 ∧
      ((httpParseRequestLine r₁ b₁).1 = 0 →
        SameRequest s t (httpParseRequestLine r₁ b₁).2.1 (httpParseRequestLine r₂ b₂).2.1) := by
  obtain ⟨q₁, hrun₁, hq₁⟩ := lineRun_absolute (r := r₁) m a habsolute
  obtain ⟨q₂, hrun₂, hq₂⟩ := lineRun_origin (r := r₂) m horigin
  rw [← hs] at hq₁ hrun₁
  rw [← ht] at hq₂ hrun₂
  have halike : Alike s t q₁ q₂ := by
    refine ⟨hq₁.method.trans hq₂.method.symm, ⟨hq₁.uri, hq₂.uri⟩, ?_⟩
    rw [hq₁.uriFields, hq₂.uriFields]
    exact hfields
  exact httpParseRequestLine_inStep halike (by rw [hstate₁]; exact hrun₁)
    (by rw [hstate₂]; exact hrun₂)

def exampleAuthority : Authority where
  schema := bytes "http"
  host := bytes "a"
  port := some (bytes "8")
  schema_alpha := by decide +kernel
  schema_ne_nil := by decide
  host_text := Or.inl (by decide +kernel)
  port_digits := by decide +kernel

/-- `http://a:8/b.c?d` and `/b.c?d`, on fresh requests. -/
theorem absolute_origin_agree_get :
    (httpParseRequestLine default ⟨bytes "GET http://a:8/b.c?d HTTP/1.1\r\n", [], 0⟩).1 = 0 ∧
      SameRequest 14 4
        (httpParseRequestLine default ⟨bytes "GET http://a:8/b.c?d HTTP/1.1\r\n", [], 0⟩).2.1
        (httpParseRequestLine default ⟨bytes "GET /b.c?d HTTP/1.1\r\n", [], 0⟩).2.1 := by
  have hzero : (httpParseRequestLine default
      ⟨bytes "GET http://a:8/b.c?d HTTP/1.1\r\n", [], 0⟩).1 = 0 := by decide +kernel
  have habsolute : Buffer.unread ⟨bytes "GET http://a:8/b.c?d HTTP/1.1\r\n", [], 0⟩ =
      methodWord .get ++ (' ' : UInt8) ::
        (exampleAuthority.bytes ++ ('/' : UInt8) :: bytes "b.c?d HTTP/1.1\r\n") := by decide +kernel
  have horigin : Buffer.unread ⟨bytes "GET /b.c?d HTTP/1.1\r\n", [], 0⟩ =
      methodWord .get ++ (' ' : UInt8) :: ('/' : UInt8) :: bytes "b.c?d HTTP/1.1\r\n" := by
    decide +kernel
  have hagree := absolute_origin_agree (s := 14) (t := 4) ⟨.get, by decide⟩ exampleAuthority
    (bytes "b.c?d HTTP/1.1\r\n") (rfl : (default : HttpRequest).state = 0)
    (rfl : (default : HttpRequest).state = 0) habsolute horigin (by decide +kernel)
    (by decide +kernel) ⟨rfl, rfl, rfl, rfl, rfl, rfl, rfl⟩
  exact ⟨hzero, hagree.2 hzero⟩

end Calls

end Cserv.Http
