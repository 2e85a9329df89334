import Cserv.Http.LineStates
import Cserv.Http.Process

/-!
# The grammar of request lines

The states from the URI back to the start of a line, and with them the language that
`http_parse_request_line` recognises on a fresh request.
-/
namespace Cserv.Http

open Foundations

section Recognise

variable {mem bs rest : List UInt8} {sp : LineSpans} {p q : ℕ} {st st' : LineState}
  {r r' : HttpRequest} {ch : UInt8} {τ : Type*} {B : τ → List UInt8}

/-! ### The target -/

/-- The spans of a line whose URI stands at `p`. -/
def Tail.spansFrom (t : Tail) (p : ℕ) (a : LineSpans) : LineSpans :=
  LineSpans.endAt
    { a with uri := match t.uri with
        | [] => ⟨a.schema.p.map (· + a.schema.len + 1), 1⟩
        | u => ⟨some p, u.length⟩ }
    (p + t.uri.length + t.gap) t.version

theorem Tail.bytes_eq (t : Tail) : t.bytes = uriBytes (t.uri, t.gap, t.version, t.eol) := rfl

theorem Tail.bytes_head (t : Tail) :
    ∃ ch word, t.bytes = ch :: word ∧ (t.uri = [] ∧ ch = ' ' ∨ t.uri ≠ [] ∧ ch = '/') := by
  rcases t.uri_slash with hu | ⟨u, hu⟩
  · obtain ⟨n, hn⟩ := Nat.exists_eq_add_of_le' (t.bare_gap hu)
    exact ⟨' ', spaces n ++ endBytes t.version t.eol, by rw [Tail.bytes, hu, hn]; rfl,
      Or.inl ⟨hu, rfl⟩⟩
  · exact ⟨'/', u ++ (spaces t.gap ++ endBytes t.version t.eol), by rw [Tail.bytes, hu]; rfl,
      Or.inr ⟨by simp [hu], rfl⟩⟩

theorem Tail.not_prefix {t : Tail} (hslash : ch ≠ '/') (hsp : ch ≠ ' ') :
    ¬t.bytes <+: ch :: rest := by
  intro hpre
  obtain ⟨c, word, hc, hcases⟩ := t.bytes_head
  rw [hc, List.cons_prefix_cons] at hpre
  rw [hpre.1] at hcases
  tauto

theorem accepts_path :
    Accepts mem sp (p + 1) .afterSlashInUri { r with uri.p := some p } rest q ↔
      Reads Tail.bytes (fun t => t.spansFrom p r.spans = sp) p (('/' : UInt8) :: rest) q := by
  rw [(accepts_uri rest).1 _ _ _ rfl]
  have hspans : ∀ u n v, ((HttpRequest.spans { r with uri.p := some p }).uriEnd
      (p + 1 + u)).endAt (p + 1 + u + n) v =
      LineSpans.endAt { r.spans with uri := ⟨some p, u + 1⟩ } (p + (u + 1) + n) v := by
    intro u n v
    have hlen : ptrSub (p + (u + 1)) (some p) = u + 1 := by
      rw [ptrSub_some_of_le (by omega)]
      omega
    rw [show p + 1 + u = p + (u + 1) by omega]
    simp only [LineSpans.uriEnd, HttpRequest.spans, hlen]
  constructor
  · rintro ⟨⟨u, n, v, e⟩, hpre, hq, hu, hgap, hsp⟩
    have htext : UriText (('/' : UInt8) :: u) := (uriText_cons (by decide)).mpr ⟨by decide, hu⟩
    refine ⟨⟨('/' : UInt8) :: u, n, v, e, Or.inr ⟨u, rfl⟩, htext, by simp, hgap⟩,
      List.cons_prefix_cons.mpr ⟨rfl, hpre⟩, ?_, ?_⟩
    · simp only [Tail.bytes_eq, uriBytes, List.length_append, List.length_cons] at hq ⊢
      omega
    · rw [← hsp, hspans]
      rfl
  · rintro ⟨⟨uri, n, v, e, hslash, htext, hbare, hgap⟩, hpre, hq, hsp⟩
    rcases hslash with rfl | ⟨u, rfl⟩
    · obtain ⟨k, rfl⟩ := Nat.exists_eq_add_of_le' (hbare rfl)
      exact absurd (List.cons_prefix_cons.mp hpre).1 (by decide)
    · refine ⟨(u, n, v, e), (List.cons_prefix_cons.mp hpre).2, ?_,
        ((uriText_cons (by decide)).mp htext).2, hgap, ?_⟩
      · simp only [Tail.bytes_eq, uriBytes, List.length_append, List.length_cons] at hq ⊢
        omega
      · rw [← hsp, hspans]
        rfl

theorem accepts_noPath :
    Accepts mem sp (p + 1) .hostHttp09
        { r with uri := ⟨r.schema.p.map (· + r.schema.len + 1), 1⟩ } rest q ↔
      Reads Tail.bytes (fun t => t.spansFrom p r.spans = sp) p ((' ' : UInt8) :: rest) q := by
  rw [accepts_hostHttp09, ← reads_closing_space]
  constructor
  · rintro ⟨⟨n, v, e⟩, hpre, hq, hn, hsp⟩
    exact ⟨⟨[], n, v, e, Or.inl rfl, trivial, fun _ => hn, fun _ => hn⟩, hpre, hq, hsp⟩
  · rintro ⟨⟨uri, n, v, e, hslash, htext, hbare, hgap⟩, hpre, hq, hsp⟩
    rcases hslash with rfl | ⟨u, rfl⟩
    · exact ⟨(n, v, e), hpre, hq, hbare rfl, hsp⟩
    · exact absurd (List.cons_prefix_cons.mp hpre).1 (by decide)

theorem accepts_tail (r' : HttpRequest) (hslash : lineStep mem p '/' (st, r) =
      lineNext .afterSlashInUri { r' with uri.p := some p })
    (hspace : lineStep mem p ' ' (st, r) = lineNoPath r')
    (hfail : ch ≠ '/' → ch ≠ ' ' → ∃ code s, lineStep mem p ch (st, r) = lineFail code s) :
    Accepts mem sp p st r (ch :: rest) q ↔
      Reads Tail.bytes (fun t => t.spansFrom p r'.spans = sp) p (ch :: rest) q := by
  by_cases h₁ : ch = '/'
  · subst h₁
    rw [accepts_next hslash, accepts_path]
  by_cases h₂ : ch = ' '
  · subst h₂
    rw [accepts_next hspace, accepts_noPath]
  · obtain ⟨code, s, hstop⟩ := hfail h₁ h₂
    exact iff_of_false (not_accepts_fail hstop) fun ⟨t, hpre, _⟩ => t.not_prefix h₁ h₂ hpre

def portTail (t : Block isDigit × Tail) : List UInt8 := t.1.1 ++ t.2.bytes

theorem accepts_port :
    Accepts mem sp p .port r bs q ↔
      Reads portTail (fun t => t.2.spansFrom (p + t.1.1.length)
        { r.spans with port.len := ptrSub (p + t.1.1.length) r.port.p } = sp) p bs q := by
  have hloop := Scanner.yields_loop_reads (S := lineScanner mem) (Q := IsLine sp) (q := q)
    (P := isDigit) (fun r => (LineState.port, r)) (fun r _ => r) (B := Tail.bytes)
    (R := fun p r t => t.spansFrom p { r.spans with port.len := ptrSub p r.port.p } = sp)
    (fun p c r hc => by simp [lineScanner, lineStep, stepPort, hc, lineNext])
    (fun t => by
      obtain ⟨c, word, hc, hcases⟩ := t.bytes_head
      refine ⟨c, word, hc, ?_⟩
      rcases hcases with ⟨-, rfl⟩ | ⟨-, rfl⟩ <;> decide)
    (fun p r c rest hc => accepts_tail { r with port.len := ptrSub p r.port.p } rfl rfl
      (fun h₁ h₂ => ⟨-10, _, by simp [lineStep, stepPort, hc, h₁, h₂]; rfl⟩)) p r bs
  simp only [List.foldl_fixed] at hloop
  exact hloop

def hostTail (t : Option (Block isDigit) × Tail) : List UInt8 :=
  portBytes (t.1.map Subtype.val) ++ t.2.bytes

def portSpan (p : ℕ) : Option (List UInt8) → Str
  | none => strInit
  | some ds => ⟨some (p + 1), ds.length⟩

def hostTailSpans (p : ℕ) (a : LineSpans) (t : Option (Block isDigit) × Tail) : LineSpans :=
  t.2.spansFrom (p + (portBytes (t.1.map Subtype.val)).length)
    { a with host.len := ptrSub p a.host.p, port := portSpan p (t.1.map Subtype.val) }

theorem hostTail_head (t : Option (Block isDigit) × Tail) :
    ∃ ch word, hostTail t = ch :: word ∧ (ch = ':' ∨ ch = '/' ∨ ch = ' ') := by
  obtain ⟨port, t⟩ := t
  cases port with
  | some ds => exact ⟨_, _, rfl, Or.inl rfl⟩
  | none =>
    obtain ⟨c, word, hc, hcases⟩ := t.bytes_head
    exact ⟨c, word, hc, Or.inr (by tauto)⟩

theorem reads_hostTail_ne {R : Option (Block isDigit) × Tail → Prop} (hch : ch ≠ ':') :
    Reads hostTail R p (ch :: rest) q ↔ Reads Tail.bytes (fun t => R (none, t)) p (ch :: rest) q := by
  constructor
  · rintro ⟨⟨port, t⟩, hpre, hq, hR⟩
    cases port with
    | some ds => exact absurd (List.cons_prefix_cons.mp hpre).1.symm hch
    | none => exact ⟨t, hpre, hq, hR⟩
  · rintro ⟨t, hpre, hq, hR⟩
    exact ⟨(none, t), hpre, hq, hR⟩

theorem accepts_hostEnd_cons :
    Accepts mem sp p .hostEnd r (ch :: rest) q ↔
      Reads hostTail (fun t => hostTailSpans p r.spans t = sp) p (ch :: rest) q := by
  by_cases hcolon : ch = ':'
  · subst hcolon
    rw [accepts_next rfl, accepts_port]
    have hspans : ∀ (ds : Block isDigit) (t : Tail), hostTailSpans p r.spans (some ds, t) =
        t.spansFrom (p + 1 + ds.1.length) { r.spans with
          host.len := ptrSub p r.host.p
          port := ⟨some (p + 1), ptrSub (p + 1 + ds.1.length) (some (p + 1))⟩ } := by
      intro ds t
      rw [ptrSub_some_of_le (by omega), Nat.add_sub_cancel_left, Nat.add_assoc, Nat.add_comm 1]
      rfl
    constructor
    · rintro ⟨⟨ds, t⟩, hpre, hq, hR⟩
      refine ⟨(some ds, t), List.cons_prefix_cons.mpr ⟨rfl, hpre⟩, ?_, ?_⟩
      · simp only [hostTail, portTail, portBytes, Option.map_some, List.length_append,
          List.length_cons] at hq ⊢
        omega
      · exact (hspans ds t).trans hR
    · rintro ⟨⟨port, t⟩, hpre, hq, hR⟩
      cases port with
      | none =>
        exact absurd hpre (t.not_prefix (by decide) (by decide))
      | some ds =>
        refine ⟨(ds, t), (List.cons_prefix_cons.mp hpre).2, ?_, ?_⟩
        · simp only [hostTail, portTail, portBytes, Option.map_some, List.length_append,
            List.length_cons] at hq ⊢
          omega
        · exact (hspans ds t).symm.trans hR
  · rw [reads_hostTail_ne hcolon]
    exact accepts_tail { r with host.len := ptrSub p r.host.p, port := strInit } rfl rfl
      (fun h₁ h₂ => ⟨-8, _, by simp [lineStep, stepHostEnd, hcolon, h₁, h₂]; rfl⟩)

theorem accepts_hostEnd :
    Accepts mem sp p .hostEnd r bs q ↔
      Reads hostTail (fun t => hostTailSpans p r.spans t = sp) p bs q := by
  cases bs with
  | nil =>
    refine iff_of_false Scanner.not_yields_nil ?_
    rintro ⟨t, hpre, -⟩
    obtain ⟨c, word, hc, -⟩ := hostTail_head t
    simp [hc] at hpre
  | cons ch rest => exact accepts_hostEnd_cons

theorem accepts_host :
    Accepts mem sp p .host r bs q ↔
      Reads (fun t : Block isHostByte × (Option (Block isDigit) × Tail) => t.1.1 ++ hostTail t.2)
        (fun t => hostTailSpans (p + t.1.1.length) r.spans t.2 = sp) p bs q := by
  have hloop := Scanner.yields_loop_reads (S := lineScanner mem) (Q := IsLine sp) (q := q)
    (P := isHostByte) (fun r => (LineState.host, r)) (fun r _ => r) (B := hostTail)
    (R := fun p r t => hostTailSpans p r.spans t = sp)
    (fun p c r hc => by
      simp only [isHostByte, Bool.or_eq_true, beq_iff_eq] at hc
      simp only [lineScanner, lineStep, stepHost, lineNext]
      split_ifs <;> first | rfl | tauto)
    (fun t => by
      obtain ⟨c, word, hc, hcases⟩ := hostTail_head t
      refine ⟨c, word, hc, ?_⟩
      rcases hcases with rfl | rfl | rfl <;> decide)
    (fun p r c rest hc => by
      have hstep : lineStep mem p c (.host, r) = lineStep mem p c (.hostEnd, r) := by
        simp only [isHostByte, Bool.or_eq_false_iff, beq_eq_false_iff_ne] at hc
        simp [lineStep, stepHost, hc]
      exact (accepts_step_congr hstep).trans accepts_hostEnd_cons) p r bs
  simp only [List.foldl_fixed] at hloop
  exact hloop

theorem accepts_hostIpLiteral :
    Accepts mem sp p .hostIpLiteral r bs q ↔
      Reads (fun t : Block isLiteralByte × (Option (Block isDigit) × Tail) =>
          t.1.1 ++ (']' : UInt8) :: hostTail t.2)
        (fun t => hostTailSpans (p + t.1.1.length + 1) r.spans t.2 = sp) p bs q := by
  have hloop := Scanner.yields_loop_reads (S := lineScanner mem) (Q := IsLine sp) (q := q)
    (P := isLiteralByte) (fun r => (LineState.hostIpLiteral, r)) (fun r _ => r)
    (B := fun t => (']' : UInt8) :: hostTail t)
    (R := fun p r t => hostTailSpans (p + 1) r.spans t = sp)
    (fun p c r hc => if_pos hc)
    (fun t => ⟨_, _, rfl, by decide⟩)
    (fun p r c rest hc => by
      by_cases hclose : c = ']'
      · subst hclose
        rw [← Accepts, accepts_next rfl, accepts_hostEnd, reads_cons]
      · have hfail : lineStep mem p c (.hostIpLiteral, r) = lineFail (-9) r := by
          simp [lineStep, stepHostIpLiteral, hc, hclose]
        exact iff_of_false (not_accepts_fail hfail) (not_reads_cons (Ne.symm hclose))) p r bs
  simp only [List.foldl_fixed] at hloop
  exact hloop

abbrev HostWord := { h : List UInt8 // HostText h }

def hostBytes (t : HostWord × (Option (Block isDigit) × Tail)) : List UInt8 := t.1.1 ++ hostTail t.2

theorem accepts_hostStart :
    Accepts mem sp p .hostStart r bs q ↔
      Reads hostBytes (fun t => hostTailSpans (p + t.1.1.length) { r.spans with host.p := some p }
        t.2 = sp) p bs q := by
  cases bs with
  | nil =>
    refine iff_of_false Scanner.not_yields_nil ?_
    rintro ⟨⟨h, t⟩, hpre, -⟩
    obtain ⟨c, word, hc, -⟩ := hostTail_head t
    simp [hostBytes, hc] at hpre
  | cons ch rest =>
    by_cases hopen : ch = '['
    · subst hopen
      rw [accepts_next rfl, accepts_hostIpLiteral]
      constructor
      · rintro ⟨⟨⟨l, hl⟩, t⟩, hpre, hq, hR⟩
        refine ⟨(⟨('[' : UInt8) :: (l ++ [(']' : UInt8)]), Or.inr ⟨l, rfl, hl⟩⟩, t), ?_, ?_, ?_⟩
        · simpa [hostBytes] using hpre
        · simp only [hostBytes, List.length_append, List.length_cons, List.length_nil] at hq ⊢
          omega
        · rw [← hR]
          simp only [List.length_append, List.length_cons, List.length_nil, Nat.add_assoc,
            Nat.add_comm 1]
          rfl
      · rintro ⟨⟨⟨h, hh | ⟨l, rfl, hl⟩⟩, t⟩, hpre, hq, hR⟩
        · -- no byte of a name, nor what follows a host, is a bracket
          cases h with
          | nil =>
            obtain ⟨c, word, hc, hcases⟩ := hostTail_head t
            have heq := (List.cons_prefix_cons.mp
              (hc ▸ hpre : c :: word <+: ('[' : UInt8) :: rest)).1
            rw [heq] at hcases
            exact absurd hcases (by decide)
          | cons c h =>
            have hc := hh c (by simp)
            rw [(List.cons_prefix_cons.mp hpre).1] at hc
            exact absurd hc (by decide)
        · refine ⟨(⟨l, hl⟩, t), ?_, ?_, ?_⟩
          · simpa [hostBytes] using hpre
          · simp only [hostBytes, List.length_append, List.length_cons, List.length_nil] at hq ⊢
            omega
          · rw [← hR]
            simp only [List.length_append, List.length_cons, List.length_nil, Nat.add_assoc,
              Nat.add_comm 1]
            rfl
    · have hstep : lineStep mem p ch (.hostStart, r) =
          lineStep mem p ch (.host, { r with host.p := some p }) := if_neg hopen
      rw [accepts_step_congr hstep, accepts_host]
      constructor
      · rintro ⟨⟨⟨h, hh⟩, t⟩, hpre, hq, hR⟩
        exact ⟨(⟨h, Or.inl hh⟩, t), hpre, hq, hR⟩
      · rintro ⟨⟨⟨h, hh | ⟨l, rfl, hl⟩⟩, t⟩, hpre, hq, hR⟩
        · exact ⟨(⟨h, hh⟩, t), hpre, hq, hR⟩
        · exact absurd (List.cons_prefix_cons.mp hpre).1.symm hopen

theorem accepts_schema :
    Accepts mem sp p .schema r bs q ↔
      Reads (fun t : Block isAlpha × (HostWord × (Option (Block isDigit) × Tail)) =>
          t.1.1 ++ (':' : UInt8) :: ('/' : UInt8) :: ('/' : UInt8) :: hostBytes t.2)
        (fun t => hostTailSpans (p + t.1.1.length + 3 + t.2.1.1.length)
          { r.spans with
            schema.len := ptrSub (p + t.1.1.length) r.schema.p
            host.p := some (p + t.1.1.length + 3) } t.2.2 = sp) p bs q := by
  have hloop := Scanner.yields_loop_reads (S := lineScanner mem) (Q := IsLine sp) (q := q)
    (P := isAlpha) (fun r => (LineState.schema, r)) (fun r _ => r)
    (B := fun t => (':' : UInt8) :: ('/' : UInt8) :: ('/' : UInt8) :: hostBytes t)
    (R := fun p r t => hostTailSpans (p + 3 + t.1.1.length)
      { r.spans with schema.len := ptrSub p r.schema.p, host.p := some (p + 3) } t.2 = sp)
    (fun p c r hc => if_pos hc)
    (fun t => ⟨_, _, rfl, by decide⟩)
    (fun p r c rest hc => by
      by_cases hcolon : c = ':'
      · subst hcolon
        have hslash : ∀ r, Accepts mem sp (p + 1) .schemaSlash r rest q ↔
            Reads (fun t => ('/' : UInt8) :: ('/' : UInt8) :: hostBytes t)
              (fun t => hostTailSpans (p + 3 + t.1.1.length)
                { r.spans with host.p := some (p + 3) } t.2 = sp) (p + 1) rest q :=
          fun r => accepts_expect (fun _ _ => rfl) fun _ => accepts_expect (fun _ _ => rfl)
            fun _ => accepts_hostStart
        rw [← Accepts, accepts_next rfl, hslash, reads_cons]
        rfl
      · have hfail : lineStep mem p c (.schema, r) = lineFail (-5) r := by
          simp [lineStep, stepSchema, hc, hcolon]
        exact iff_of_false (not_accepts_fail hfail) (not_reads_cons (Ne.symm hcolon))) p r bs
  simp only [List.foldl_fixed] at hloop
  exact hloop

def authoritySpans (p : ℕ) (a : LineSpans) : Option Authority → LineSpans
  | none => { a with schema := strInit, host := strInit, port := strInit }
  | some x => { a with
      schema := ⟨some p, x.schema.length⟩
      host := ⟨some (p + x.schema.length + 3), x.host.length⟩
      port := portSpan (p + x.schema.length + 3 + x.host.length) x.port }

/-- The spans of a line whose target stands at `p`. -/
def Target.spansFrom (t : Target) (p : ℕ) (a : LineSpans) : LineSpans :=
  t.tail.spansFrom (p + (authorityBytes t.authority).length) (authoritySpans p a t.authority)

theorem Target.bytes_head (t : Target) :
    ∃ ch word, t.bytes = ch :: word ∧
      (t.authority = none ∧ ch = '/' ∨ t.authority.isSome ∧ isAlpha ch = true) := by
  obtain ⟨authority, tail, horigin⟩ := t
  cases authority with
  | none =>
    obtain ⟨c, word, hc, hcases⟩ := tail.bytes_head
    refine ⟨c, word, hc, Or.inl ⟨rfl, ?_⟩⟩
    rcases hcases with ⟨hu, -⟩ | ⟨-, h⟩
    · exact absurd hu (horigin rfl)
    · exact h
  | some a =>
    obtain ⟨c, s, hs⟩ := List.exists_cons_of_ne_nil a.schema_ne_nil
    have hc : isAlpha c = true := a.schema_alpha c (by simp [hs])
    exact ⟨c, s ++ (Http.bytes "://" ++ (a.host ++ portBytes a.port)) ++ tail.bytes,
      by simp [Target.bytes, authorityBytes, Authority.bytes, hs], Or.inr ⟨rfl, hc⟩⟩

theorem isAlpha_ne_space {c : UInt8} (hc : isAlpha c = true) : c ≠ ' ' := by
  revert c
  decide +kernel

theorem Target.spansFrom_authority (a : Authority) (tail : Tail) (p : ℕ) (sp : LineSpans)
    (port : Option (Block isDigit)) (h : a.port = port.map Subtype.val) (s : List UInt8) (c : UInt8)
    (hs : a.schema = c :: s) :
    Target.spansFrom ⟨some a, tail, by simp⟩ p sp =
      hostTailSpans (p + 1 + s.length + 3 + a.host.length)
        { sp with
          schema := ⟨some p, ptrSub (p + 1 + s.length) (some p)⟩
          host.p := some (p + 1 + s.length + 3) } (port, tail) := by
  have hschema : ptrSub (p + 1 + s.length) (some p) = s.length + 1 := by
    rw [ptrSub_some_of_le (by omega)]
    omega
  have hhost : ptrSub (p + 1 + s.length + 3 + a.host.length) (some (p + 1 + s.length + 3)) =
      a.host.length := by simp
  have hpos : p + (authorityBytes (some a)).length =
      p + 1 + s.length + 3 + a.host.length + (portBytes (port.map Subtype.val)).length := by
    have h3 : (Http.bytes "://").length = 3 := rfl
    simp only [authorityBytes, Authority.bytes, List.length_append, hs, h, List.length_cons, h3]
    omega
  simp only [Target.spansFrom, authoritySpans, hostTailSpans, hpos, hschema, hhost, hs, h,
    List.length_cons, show p + (s.length + 1) = p + 1 + s.length by omega]

theorem Target.bytes_authority (a : Authority) (tail : Tail) (port : Option (Block isDigit))
    (h : a.port = port.map Subtype.val) (s : List UInt8) (c : UInt8) (hs : a.schema = c :: s) :
    Target.bytes ⟨some a, tail, by simp⟩ =
      c :: (s ++ (':' : UInt8) :: ('/' : UInt8) :: ('/' : UInt8) ::
        hostBytes (⟨a.host, a.host_text⟩, port, tail)) := by
  have h3 : Http.bytes "://" = [(':' : UInt8), ('/' : UInt8), ('/' : UInt8)] := rfl
  simp [Target.bytes, authorityBytes, Authority.bytes, hs, h, h3, hostBytes, hostTail]

theorem accepts_target (hsp : ch ≠ ' ') :
    Accepts mem sp p .spacesBeforeUri r (ch :: rest) q ↔
      Reads Target.bytes (fun t => t.spansFrom p r.spans = sp) p (ch :: rest) q := by
  by_cases hslash : ch = '/'
  · subst hslash
    have hpath : Accepts mem sp p .spacesBeforeUri r (('/' : UInt8) :: rest) q ↔
        Reads Tail.bytes (fun t => t.spansFrom p (authoritySpans p r.spans none) = sp) p
          (('/' : UInt8) :: rest) q := 
      (accepts_next rfl).trans
        (accepts_path (r := { r with schema := strInit, host := strInit, port := strInit }))
    rw [hpath]
    constructor
    · rintro ⟨t, hpre, hq, hR⟩
      refine ⟨⟨none, t, fun _ hu => ?_⟩, hpre, hq, hR⟩
      obtain ⟨c, word, hc, hcases⟩ := t.bytes_head
      rw [hc, List.cons_prefix_cons] at hpre
      rw [hpre.1] at hcases
      rcases hcases with ⟨-, h⟩ | ⟨h, -⟩
      · exact absurd h (by decide)
      · exact h hu
    · rintro ⟨⟨authority, t, horigin⟩, hpre, hq, hR⟩
      obtain ⟨c, word, hc, hcases⟩ := Target.bytes_head ⟨authority, t, horigin⟩
      have heq : c = '/' := (List.cons_prefix_cons.mp (hc ▸ hpre)).1
      rw [heq] at hcases
      rcases hcases with ⟨rfl, -⟩ | ⟨-, h⟩
      · exact ⟨t, hpre, hq, hR⟩
      · exact absurd h (by decide)
  cases halpha : isAlpha ch with
  | false =>
    have hfail : lineStep mem p ch (.spacesBeforeUri, r) = lineFail (-4) r := by
      simp [lineStep, stepSpacesBeforeUri, hslash, halpha, hsp]
    refine iff_of_false (not_accepts_fail hfail) ?_
    rintro ⟨t, hpre, -⟩
    obtain ⟨c, word, hc, hcases⟩ := t.bytes_head
    rw [hc, List.cons_prefix_cons] at hpre
    rw [hpre.1, halpha] at hcases
    tauto
  | true =>
    have hstep : lineStep mem p ch (.spacesBeforeUri, r) =
        .next (.schema, { r with schema.p := some p }) := by
      simp [lineStep, stepSpacesBeforeUri, hslash, halpha, lineNext]
    rw [accepts_next hstep, accepts_schema]
    constructor
    · rintro ⟨⟨⟨s, hs⟩, ⟨h, hh⟩, port, t⟩, hpre, hq, hR⟩
      have hport : ∀ ds ∈ port.map Subtype.val, ∀ c ∈ ds, isDigit c = true := by
        rintro ds hds
        obtain ⟨d, -, rfl⟩ := Option.mem_map.mp hds
        exact d.2
      have hschema : ∀ c ∈ ch :: s, isAlpha c = true := by simpa [halpha] using hs
      obtain ⟨a, hsa, rfl, hpa⟩ : ∃ a : Authority, a.schema = ch :: s ∧ a.host = h ∧
          a.port = port.map Subtype.val :=
        ⟨⟨ch :: s, h, port.map Subtype.val, hschema, by simp, hh, hport⟩, rfl, rfl, rfl⟩
      have hbytes := Target.bytes_authority a t port hpa s ch hsa
      refine ⟨⟨some a, t, by simp⟩, ?_, ?_, ?_⟩
      · rw [hbytes]
        exact List.cons_prefix_cons.mpr ⟨rfl, hpre⟩
      · rw [hbytes, List.length_cons]
        dsimp only at hq
        omega
      · exact (Target.spansFrom_authority a t p r.spans port hpa s ch hsa).trans hR
    · rintro ⟨⟨authority, t, horigin⟩, hpre, hq, hR⟩
      cases authority with
      | none =>
        obtain ⟨c, word, hc, hcases⟩ := Target.bytes_head ⟨none, t, horigin⟩
        rw [hc, List.cons_prefix_cons] at hpre
        rw [hpre.1] at hcases
        exact absurd (hcases.resolve_right (by simp)).2 hslash
      | some a =>
        obtain ⟨c, s, hs⟩ := List.exists_cons_of_ne_nil a.schema_ne_nil
        have hport : ∃ port : Option (Block isDigit), a.port = port.map Subtype.val := by
          have hdigits := a.port_digits
          cases hp : a.port with
          | none => exact ⟨none, rfl⟩
          | some ds => exact ⟨some ⟨ds, hdigits ds hp⟩, rfl⟩
        obtain ⟨port, hport⟩ := hport
        rw [Target.bytes_authority a t port hport s c hs] at hpre hq
        obtain ⟨rfl, hrest⟩ := List.cons_prefix_cons.mp hpre
        have hsa : ∀ d ∈ s, isAlpha d = true := fun d hd => a.schema_alpha d (by simp [hs, hd])
        refine ⟨(⟨s, hsa⟩, ⟨a.host, a.host_text⟩, port, t), hrest, ?_, ?_⟩
        · rw [List.length_cons] at hq
          dsimp only
          omega
        · exact (Target.spansFrom_authority a t p r.spans port hport s c hs).symm.trans hR

theorem accepts_spacesBeforeUri :
    Accepts mem sp p .spacesBeforeUri r bs q ↔
      Reads (fun t : ℕ × Target => spaces t.1 ++ t.2.bytes)
        (fun t => t.2.spansFrom (p + t.1) r.spans = sp) p bs q := by
  refine accepts_spaces (R := fun p (t : Target) => t.spansFrom p r.spans = sp) (fun p => rfl)
    (fun t => ?_) (fun p ch rest hsp => accepts_target hsp)
  obtain ⟨c, word, hc, hcases⟩ := t.bytes_head
  refine ⟨c, word, hc, ?_⟩
  rcases hcases with ⟨-, rfl⟩ | ⟨-, h⟩
  · decide
  · exact isAlpha_ne_space h

/-! ### The method and the start of the line -/

theorem getRequestMethod_methodWord (m : HttpMethod) : getRequestMethod (methodWord m) = m := by
  cases m <;> decide

theorem eq_methodWord {w : List UInt8} (h : getRequestMethod w ≠ .unknown) :
    w = methodWord (getRequestMethod w) := by
  unfold getRequestMethod at h ⊢
  split at h
  case h_2 hlen =>
    -- the four-letter words are compared byte by byte
    obtain ⟨a, b, c, d, rfl⟩ := List.length_eq_four.mp hlen
    simp only [List.getElem?_cons_zero, List.getElem?_cons_succ, Option.some.injEq,
      Bool.and_eq_true, beq_iff_eq] at h ⊢
    split_ifs at h ⊢ <;> simp_all [methodWord, bytes]
  case h_8 => exact absurd rfl h
  all_goals
    simp only [*] at h ⊢
    split_ifs at h ⊢ <;> simp_all [methodWord]

theorem methodWord_bytes (m : HttpMethod) : ∀ c ∈ methodWord m, isMethodByte c = true := by
  rw [← List.all_eq_true]
  cases m <;> decide +kernel

abbrev KnownMethod := { m : HttpMethod // m ≠ .unknown }

theorem methodWord_ne_nil (m : KnownMethod) : methodWord m.1 ≠ [] := by
  intro h
  apply m.2
  rw [← getRequestMethod_methodWord m.1, h]
  rfl

/-- A line from its method on; the first space behind the method is written apart. -/
def methodBytes (t : KnownMethod × (ℕ × Target)) : List UInt8 :=
  methodWord t.1.1 ++ (' ' : UInt8) :: (spaces t.2.1 ++ t.2.2.bytes)

def methodSpans (p : ℕ) (a : LineSpans) (t : KnownMethod × (ℕ × Target)) : LineSpans :=
  t.2.2.spansFrom (p + (methodWord t.1.1).length + 1 + t.2.1)
    { a with methodName := ⟨some p, (methodWord t.1.1).length⟩, method := t.1.1 }

theorem lineStep_method_space {w : List UInt8} (hp : r.methodName.p = some p)
    (hmem : mem.drop p = w ++ rest) :
    lineStep mem (p + w.length) ' ' (.method, r) =
      if getRequestMethod w = .unknown then
        lineFail (-2) { r with methodName.len := w.length, method := getRequestMethod w }
      else
        lineNext .spacesBeforeUri
          { r with methodName.len := w.length, method := getRequestMethod w } := by
  have hlen : ptrSub (p + w.length) r.methodName.p = w.length := by simp [hp]
  have hget : Str.get ⟨r.methodName.p, w.length⟩ mem = w := by simp [Str.get, hp, hmem]
  simp only [lineStep, stepMethod, if_true, hlen, hget]

theorem accepts_method_space {w : List UInt8} (m : KnownMethod) (hw : methodWord m.1 = w)
    (hp : r.methodName.p = some p) (hmem : mem.drop p = w ++ (' ' : UInt8) :: rest) :
    Accepts mem sp (p + w.length) .method r (' ' :: rest) q ↔
      Reads (fun t : ℕ × Target => spaces t.1 ++ t.2.bytes)
        (fun t => methodSpans p r.spans (m, t) = sp) (p + w.length + 1) rest q := by
  have hm : getRequestMethod w = m.1 := by rw [← hw, getRequestMethod_methodWord]
  have hstep := lineStep_method_space hp hmem
  rw [hm, if_neg m.2] at hstep
  have hspans : HttpRequest.spans { r with methodName.len := w.length, method := m.1 } =
      { r.spans with methodName := ⟨some p, w.length⟩, method := m.1 } := by
    simp [HttpRequest.spans, hp]
  rw [accepts_next hstep, accepts_spacesBeforeUri, hspans]
  simp only [methodSpans, hw]

theorem accepts_method {c : UInt8} (hp : r.methodName.p = some p) (hmem : mem.drop p = c :: bs) :
    Accepts mem sp (p + 1) .method r bs q ↔
      Reads methodBytes (fun t => methodSpans p r.spans t = sp) p (c :: bs) q := by
  have hloop := Scanner.yields_loop (S := lineScanner mem) (Q := IsLine sp) (q := q)
    (P := isMethodByte) (fun _ : Unit => (LineState.method, r)) (fun a _ => a)
    (fun p ch _ hch => by
      have hsp : ch ≠ ' ' := by
        rintro rfl
        exact absurd hch (by decide)
      simp [lineScanner, lineStep, stepMethod, hsp, hch, lineNext]) (p + 1) () bs
  rw [Accepts, hloop]
  have hpos : ∀ xs : List UInt8, p + 1 + xs.length = p + (c :: xs).length := by
    intro xs
    rw [List.length_cons]
    omega
  constructor
  · rintro ⟨xs, ch, rest, rfl, hxs, hch, hY⟩
    rw [hpos] at hY
    by_cases hsp : ch = ' '
    · subst hsp
      by_cases hun : getRequestMethod (c :: xs) = .unknown
      · have hword : mem.drop p = (c :: xs) ++ (' ' : UInt8) :: rest := hmem
        have hstep := lineStep_method_space hp hword
        rw [if_pos hun] at hstep
        exact absurd hY (not_accepts_fail hstep)
      · have hw := (eq_methodWord hun).symm
        obtain ⟨⟨n, t⟩, hpre, hq, hR⟩ := (accepts_method_space ⟨_, hun⟩ hw hp hmem).mp hY
        refine ⟨(⟨_, hun⟩, n, t), ?_, ?_, hR⟩
        · simpa [methodBytes, hw] using hpre
        · simp only [methodBytes, hw, List.length_append, List.length_cons] at hq ⊢
          omega
    · have hfail : lineStep mem (p + (c :: xs).length) ch (.method, r) = lineFail (-3) r := by
        simp [lineStep, stepMethod, hsp, hch]
      exact absurd hY (not_accepts_fail hfail)
  · rintro ⟨⟨m, n, t⟩, ⟨tail, htail⟩, hq, hR⟩
    obtain ⟨d, xs, hw⟩ := List.exists_cons_of_ne_nil (methodWord_ne_nil m)
    simp only [methodBytes, hw, List.cons_append, List.append_assoc, List.cons.injEq] at htail
    obtain ⟨rfl, rfl⟩ := htail
    refine ⟨xs, ' ', spaces n ++ (t.bytes ++ tail), rfl, ?_, by decide, ?_⟩
    · intro x hx
      exact methodWord_bytes m.1 x (by rw [hw]; exact List.mem_cons_of_mem _ hx)
    · rw [hpos]
      refine (accepts_method_space m hw hp hmem).mpr ⟨(n, t), ⟨tail, by simp⟩, ?_, hR⟩
      simp only [methodBytes, hw, List.length_append, List.length_cons] at hq ⊢
      omega

def isEolByte (c : UInt8) : Bool := c == CR || c == LF

theorem methodBytes_head (t : KnownMethod × (ℕ × Target)) :
    ∃ ch word, methodBytes t = ch :: word ∧ isMethodByte ch = true := by
  obtain ⟨d, xs, hw⟩ := List.exists_cons_of_ne_nil (methodWord_ne_nil t.1)
  refine ⟨d, xs ++ (' ' : UInt8) :: (spaces t.2.1 ++ t.2.2.bytes), by rw [methodBytes, hw]; rfl, ?_⟩
  exact methodWord_bytes t.1.1 d (by simp [hw])

theorem isEolByte_of_isMethodByte {c : UInt8} (hc : isMethodByte c = true) :
    isEolByte c = false := by
  revert c
  decide +kernel

def lineSpans (p : ℕ) (a : LineSpans) (t : KnownMethod × (ℕ × Target)) : LineSpans :=
  methodSpans p { a with requestLine.p := some p } t

/-- The whole line: the loop over leading ends of line sets `request_line.p` anew at each
byte. -/
theorem accepts_start (hmem : mem.drop p = bs) :
    Accepts mem sp p .start r bs q ↔
      Reads (fun t : Block isEolByte × (KnownMethod × (ℕ × Target)) => t.1.1 ++ methodBytes t.2)
        (fun t => lineSpans (p + t.1.1.length) r.spans t.2 = sp) p bs q := by
  induction bs generalizing p r with
  | nil =>
    refine iff_of_false Scanner.not_yields_nil ?_
    rintro ⟨⟨lead, t⟩, hpre, -⟩
    simp [methodBytes] at hpre
  | cons ch rest ih =>
    cases heol : isEolByte ch with
    | true =>
      have hstep : lineStep mem p ch (.start, r) =
          .next (.start, { r with requestLine.p := some p }) := by
        simp only [isEolByte, Bool.or_eq_true, beq_iff_eq] at heol
        exact if_pos heol
      have hnext : mem.drop (p + 1) = rest := by
        rw [← List.drop_drop, hmem]
        rfl
      have hpos : ∀ lead : List UInt8, p + 1 + lead.length = p + (ch :: lead).length := by
        intro lead
        rw [List.length_cons]
        omega
      rw [accepts_next hstep, ih hnext]
      constructor
      · rintro ⟨⟨⟨lead, hlead⟩, t⟩, hpre, hq, hR⟩
        refine ⟨(⟨ch :: lead, by simpa [heol] using hlead⟩, t), by simpa using hpre, ?_, ?_⟩
        · simp only [List.length_append, List.length_cons] at hq ⊢
          omega
        · exact (congrArg (lineSpans · r.spans t) (hpos lead)).symm.trans hR
      · rintro ⟨⟨⟨lead, hlead⟩, t⟩, hpre, hq, hR⟩
        cases lead with
        | nil =>
          obtain ⟨c, word, hc, hm⟩ := methodBytes_head t
          have heq : c = ch := (List.cons_prefix_cons.mp (hc ▸ hpre : c :: word <+: ch :: rest)).1
          rw [← heq, isEolByte_of_isMethodByte hm] at heol
          cases heol
        | cons c lead =>
          obtain ⟨rfl, hrest⟩ := List.cons_prefix_cons.mp hpre
          refine ⟨(⟨lead, fun d hd => hlead d (List.mem_cons_of_mem _ hd)⟩, t), hrest, ?_, ?_⟩
          · simp only [List.length_append, List.length_cons] at hq ⊢
            omega
          · exact (congrArg (lineSpans · r.spans t) (hpos lead)).trans hR
    | false =>
      -- a line without leading ends of line
      have hzero : Reads (fun t : Block isEolByte × (KnownMethod × (ℕ × Target)) =>
            t.1.1 ++ methodBytes t.2) (fun t => lineSpans (p + t.1.1.length) r.spans t.2 = sp) p
            (ch :: rest) q ↔
          Reads methodBytes (fun t => lineSpans p r.spans t = sp) p (ch :: rest) q := by
        constructor
        · rintro ⟨⟨⟨lead, hlead⟩, t⟩, hpre, hq, hR⟩
          cases lead with
          | nil => exact ⟨t, hpre, hq, hR⟩
          | cons c lead =>
            have hc := hlead c (by simp)
            rw [(List.cons_prefix_cons.mp hpre).1, heol] at hc
            cases hc
        · rintro ⟨t, hpre, hq, hR⟩
          exact ⟨(⟨[], by simp⟩, t), hpre, hq, hR⟩
      have hne : ¬(ch = CR ∨ ch = LF) := by
        simpa [isEolByte] using heol
      rw [hzero]
      cases hmethod : isMethodByte ch with
      | true =>
        have hstep : lineStep mem p ch (.start, r) =
            .next (.method, { r with requestLine.p := some p, methodName.p := some p }) :=
          (if_neg hne).trans (if_pos hmethod)
        rw [accepts_next hstep, accepts_method rfl hmem]
        rfl
      | false =>
        have hfail : lineStep mem p ch (.start, r) =
            lineFail (-1) { r with requestLine.p := some p } :=
          (if_neg hne).trans (if_neg (by simp [hmethod]))
        refine iff_of_false (not_accepts_fail hfail) ?_
        rintro ⟨t, hpre, -⟩
        obtain ⟨c, word, hc, hm⟩ := methodBytes_head t
        rw [hc, List.cons_prefix_cons] at hpre
        rw [hpre.1, hmethod] at hm
        cases hm

/-- The spans the loop leaves for a line that starts at `p`. -/
def RequestLine.loopSpans (l : RequestLine) (p : ℕ) (a : LineSpans) : LineSpans :=
  l.target.spansFrom (p + l.lead.length + (methodWord l.method).length + l.gap)
    { a with
      requestLine.p := some (p + l.lead.length)
      methodName := ⟨some (p + l.lead.length), (methodWord l.method).length⟩
      method := l.method }

/-- The loop stops at the end of a request line, and nowhere else. -/
theorem accepts_line (hmem : mem.drop p = bs) :
    Accepts mem sp p .start r bs q ↔
      Reads RequestLine.bytes (fun l => l.loopSpans p r.spans = sp) p bs q := by
  rw [accepts_start hmem]
  constructor
  · rintro ⟨⟨⟨lead, hlead⟩, m, n, t⟩, hpre, hq, hR⟩
    have hlead' : ∀ c ∈ lead, c = CR ∨ c = LF := by simpa [isEolByte] using hlead
    have hbytes : RequestLine.bytes ⟨lead, m.1, n + 1, t, hlead', m.2, by omega⟩ =
        lead ++ methodBytes (m, n, t) := rfl
    refine ⟨⟨lead, m.1, n + 1, t, hlead', m.2, by omega⟩, ?_, ?_, ?_⟩
    · rw [hbytes]
      exact hpre
    · rw [hbytes]
      exact hq
    · rw [← hR]
      simp only [RequestLine.loopSpans, lineSpans, methodSpans,
        show ∀ k, k + (n + 1) = k + 1 + n by omega]
  · rintro ⟨⟨lead, m, gap, t, hlead, hm, hgap⟩, hpre, hq, hR⟩
    obtain ⟨n, rfl⟩ := Nat.exists_eq_add_of_le' hgap
    have hlead' : ∀ c ∈ lead, isEolByte c = true := by simpa [isEolByte] using hlead
    refine ⟨(⟨lead, hlead'⟩, ⟨m, hm⟩, n, t), hpre, hq, ?_⟩
    rw [← hR]
    simp only [RequestLine.loopSpans, lineSpans, methodSpans,
      show ∀ k, k + (n + 1) = k + 1 + n by omega]

/-- The major number after `done`. -/
def LineSpans.finish (a : LineSpans) : LineSpans :=
  { a with httpMajor := if a.httpMinor = 9 then 0 else a.httpMajor }

theorem lineFinish_spans (r : HttpRequest) : (lineFinish r).spans = r.spans.finish := rfl

theorem spaces_length (n : ℕ) : (spaces n).length = n := List.length_replicate

theorem LineSpans.endAt_finish (a : LineSpans) (e : ℕ) (v : Option Version)
    (ha : a.httpProtocol = strInit) :
    (a.endAt e v).finish =
      { a with
        requestLine.len := ptrSub (e + (v.elim 0 fun v => v.protocol.length + v.gap)) a.requestLine.p
        httpProtocol := v.elim strInit fun v => ⟨some e, v.protocol.length⟩
        httpMajor := majorOf v
        httpMinor := minorOf v } := by
  cases v with
  | none => simp [endAt, close, finish, majorOf, minorOf, ha]
  | some v => simp [endAt, versionEnd, close, finish, majorOf, minorOf, Nat.add_assoc]

theorem endBytes_length (v : Option Version) (e : Eol) :
    (endBytes v e).length = (v.elim 0 fun v => v.protocol.length + v.gap) + e.bytes.length := by
  cases v with
  | none => simp [endBytes]
  | some v => simp [endBytes, spaces_length, Nat.add_assoc]

theorem RequestLine.bytes_length (l : RequestLine) :
    l.bytes.length = l.lead.length + (methodWord l.method).length + l.gap +
      (authorityBytes l.target.authority).length + l.target.tail.uri.length + l.target.tail.gap +
      (l.target.tail.version.elim 0 fun v => v.protocol.length + v.gap) +
      l.target.tail.eol.bytes.length := by
  simp only [RequestLine.bytes, Target.bytes, Tail.bytes, List.length_append, endBytes_length,
    spaces_length]
  omega

theorem RequestLine.loopSpans_finish (l : RequestLine) (p : ℕ) (a : LineSpans)
    (ha : a.httpProtocol = strInit) : (l.loopSpans p a).finish = l.spans p := by
  have hlen : ptrSub (p + l.lead.length + (methodWord l.method).length + l.gap +
        (authorityBytes l.target.authority).length + l.target.tail.uri.length + l.target.tail.gap +
        (l.target.tail.version.elim 0 fun v => v.protocol.length + v.gap))
      (some (p + l.lead.length)) =
      l.bytes.length - l.lead.length - l.target.tail.eol.bytes.length := by
    rw [ptrSub_some_of_le (by omega), l.bytes_length]
    omega
  have hauth : ∀ x : LineSpans, x.httpProtocol = strInit →
      (authoritySpans (p + l.lead.length + (methodWord l.method).length + l.gap) x
        l.target.authority).httpProtocol = strInit := by
    intro x hx
    cases l.target.authority <;> exact hx
  rw [RequestLine.loopSpans, Target.spansFrom, Tail.spansFrom, LineSpans.endAt_finish]
  swap
  · exact hauth _ ha
  unfold RequestLine.spans
  rw [← hlen]
  cases hx : l.target.authority with
  | none =>
    obtain ⟨c, u, hu⟩ := List.exists_cons_of_ne_nil (l.target.origin_path hx)
    rw [hu]
    rfl
  | some x =>
    cases hport : x.port <;> cases l.target.tail.uri <;> simp [authoritySpans, portSpan, hport]

end Recognise

/-! ## The parser -/

section Parser

variable {g : HttpRequest} {b : Buffer}

/-- The loop on a fresh request stops behind a request line, with its spans. -/
theorem lineRun_done_iff {q : ℕ} {sp : LineSpans} :
    (∃ r', (lineScanner b.data).run b.pos (LineState.ofCode g.init.state, g.init) b.unread =
        .halt q (.done r') ∧ r'.spans = sp) ↔
      ∃ l : RequestLine, l.bytes <+: b.unread ∧ q + 1 = b.pos + l.bytes.length ∧
        l.loopSpans b.pos g.init.spans = sp := by
  have hline : Accepts b.data sp b.pos .start g.init b.unread q ↔ _ := accepts_line rfl
  refine Iff.trans ?_ hline
  constructor
  · rintro ⟨r', hrun, hsp⟩
    exact ⟨.done r', hrun, hsp⟩
  · rintro ⟨out, hrun, hsp⟩
    cases out with
    | done r' => exact ⟨r', hrun, hsp⟩
    | fail code r' => exact hsp.elim

theorem lineDone_of_spans {l : RequestLine} {r : HttpRequest} {q : ℕ}
    (h : (lineFinish r).spans = l.spans b.pos) :
    (lineDone q r b).1 = if l.httpVersion = 9 ∧ l.method ≠ .get then -25 else 0 := by
  have hmajor : (lineFinish r).httpMajor = majorOf l.target.tail.version :=
    congrArg LineSpans.httpMajor h
  have hminor : (lineFinish r).httpMinor = minorOf l.target.tail.version :=
    congrArg LineSpans.httpMinor h
  have hmethod : (lineFinish r).method = l.method := congrArg LineSpans.method h
  have hversion : (lineFinish r).httpVersion = l.httpVersion := by
    rw [RequestLine.httpVersion, ← hmajor, ← hminor]
    rfl
  simp only [lineDone, hversion, hmethod]

/-- A line in front of the unread bytes is read to its end. -/
theorem httpParseRequestLine_of_line {l : RequestLine} (hl : l.bytes <+: b.unread) :
    (httpParseRequestLine g.init b).1 =
        (if l.httpVersion = 9 ∧ l.method ≠ .get then -25 else 0) ∧
      (httpParseRequestLine g.init b).2.1.spans = l.spans b.pos ∧
      (httpParseRequestLine g.init b).2.2 = { b with pos := b.pos + l.bytes.length } := by
  have hpos : 1 ≤ b.pos + l.bytes.length := by
    have hgap := l.gap_pos
    rw [l.bytes_length]
    omega
  obtain ⟨q, hq⟩ := Nat.exists_eq_add_of_le' hpos
  obtain ⟨r', hrun, hsp⟩ := (lineRun_done_iff (g := g)).mpr ⟨l, hl, hq.symm, rfl⟩
  have hspans : (lineFinish r').spans = l.spans b.pos := by
    rw [lineFinish_spans, hsp, l.loopSpans_finish b.pos g.init.spans rfl]
  have hparse : httpParseRequestLine g.init b = lineDone q r' b := by
    rw [httpParseRequestLine, hrun]
  rw [hparse, lineDone_of_spans hspans, hq]
  exact ⟨rfl, hspans, rfl⟩

/-- `http_parse_request_line` on a fresh request accepts the texts with a request line in
front, but for lines of version 0.9 with another method than GET. It reads the line to
its end, and finds its method and the spans of its parts. -/
theorem httpParseRequestLine_grammar (g : HttpRequest) (b : Buffer) :
    ((httpParseRequestLine g.init b).1 = 0 ↔
      ∃ l : RequestLine, l.bytes <+: b.unread ∧ ¬(l.httpVersion = 9 ∧ l.method ≠ .get)) ∧
    ∀ l : RequestLine, l.bytes <+: b.unread → ¬(l.httpVersion = 9 ∧ l.method ≠ .get) →
      (httpParseRequestLine g.init b).2.1.spans = l.spans b.pos ∧
        (httpParseRequestLine g.init b).2.2 = { b with pos := b.pos + l.bytes.length } := by
  refine ⟨⟨fun h => ?_, ?_⟩, ?_⟩
  · rcases httpParseRequestLine_cases g.init b with ⟨st, r', -, he⟩ | ⟨q, r', hrun, he⟩ |
      ⟨q, code, r', -, hneg, he⟩
    · rw [he] at h
      exact absurd h one_ne_zero
    · obtain ⟨l, hl, -⟩ := lineRun_done_iff.mp ⟨r', hrun, rfl⟩
      refine ⟨l, hl, fun hget => ?_⟩
      rw [(httpParseRequestLine_of_line hl).1, if_pos hget] at h
      exact absurd h (by decide)
    · rw [he] at h
      exact absurd h hneg.ne
  · rintro ⟨l, hl, hget⟩
    rw [(httpParseRequestLine_of_line hl).1, if_neg hget]
  · intro l hl hget
    exact (httpParseRequestLine_of_line hl).2

def getLine : RequestLine where
  lead := []
  method := .get
  gap := 1
  target :=
    { authority := none
      tail :=
        { uri := ['/']
          gap := 1
          version := some ⟨['1'], ['1'], 0, by decide +kernel, ⟨'1', [], rfl, by decide⟩,
            by decide +kernel, by simp⟩
          eol := .crlf
          uri_slash := Or.inr ⟨[], rfl⟩
          uri_text := by simp [UriText]; decide
          bare_gap := by decide
          version_gap := by decide }
      origin_path := by decide }
  lead_eol := by simp
  method_known := by decide
  gap_pos := by decide

theorem httpParseRequestLine_grammar_get :
    (httpParseRequestLine (default : HttpRequest).init
      ⟨bytes "GET / HTTP/1.1\r\nHost: a\r\n", [], 0⟩).2.2.pos = 16 := by
  have h := (httpParseRequestLine_grammar default
    ⟨bytes "GET / HTTP/1.1\r\nHost: a\r\n", [], 0⟩).2 getLine (by decide +kernel)
    (by decide +kernel)
  rw [h.2]
  decide +kernel

end Parser

end Cserv.Http
