import Cserv.Foundations.Language
import Cserv.Http.LineSyntax
import Mathlib.Data.FinEnum

/-!
# What follows in the states of the request-line parser

Each state of the parser recognises what may still follow in it. The states are
taken from the end of a line back: the end of the line, the version, the spaces in
front of it, and the URI.
-/
namespace Cserv.Http

open Foundations

/-! ## What may follow in each state -/

/-- `request_line.len` at the end of a line whose `EOL` is at `p`. -/
def LineSpans.close (sp : LineSpans) (p : ℕ) : LineSpans :=
  { sp with requestLine.len := ptrSub p sp.requestLine.p }

/-- The parser leaves its loop at `done` with the spans `sp`. -/
def IsLine (sp : LineSpans) : LineStop → Prop
  | .done r => r.spans = sp
  | .fail _ _ => False

abbrev Accepts (mem : List UInt8) (sp : LineSpans) (p : ℕ) (st : LineState) (r : HttpRequest) :
    List UInt8 → ℕ → Prop :=
  (lineScanner mem).Yields (IsLine sp) p (st, r)

@[simp] theorem LF_ne_CR : ¬LF = CR := by decide

@[simp] theorem CR_ne_LF : ¬CR = LF := by decide

section Recognise

variable {mem bs rest : List UInt8} {sp : LineSpans} {p q : ℕ} {st st' : LineState}
  {r r' : HttpRequest} {ch : UInt8} {τ : Type*} {B : τ → List UInt8}

theorem accepts_next (h : lineStep mem p ch (st, r) = .next (st', r')) :
    Accepts mem sp p st r (ch :: rest) q ↔ Accepts mem sp (p + 1) st' r' rest q :=
  Scanner.yields_next h

theorem accepts_step_congr (h : lineStep mem p ch (st, r) = lineStep mem p ch (st', r')) :
    Accepts mem sp p st r (ch :: rest) q ↔ Accepts mem sp p st' r' (ch :: rest) q :=
  Scanner.yields_step_congr h

theorem not_accepts_fail {code : ℤ} (h : lineStep mem p ch (st, r) = lineFail code r') :
    ¬Accepts mem sp p st r (ch :: rest) q :=
  Scanner.not_yields_stop h id

theorem ptrSub_succ (a : ℕ) (q : Ptr) : ptrSub (a + 1) (q.map (· + 1)) = ptrSub a q := by
  cases q <;> simp [ptrSub]

theorem accepts_almostDone :
    Accepts mem sp (p + 1) .almostDone r bs q ↔
      Reads Eol.bytes (fun _ => r.spans.close p = sp) p (CR :: bs) q := by
  cases bs with
  | nil =>
    refine iff_of_false Scanner.not_yields_nil ?_
    rintro ⟨e, hpre, -⟩
    cases e <;> simp [Eol.bytes] at hpre
  | cons ch rest =>
    by_cases hch : ch = LF
    · subst hch
      have hstop : lineStep mem (p + 1) LF (.almostDone, r) = lineLf p r := by
        simp [lineStep, stepAlmostDone, lineLf, ptrSub_succ]
      rw [Accepts, Scanner.yields_stop hstop]
      constructor
      · rintro ⟨rfl, h⟩
        exact ⟨.crlf, by simp [Eol.bytes], rfl, h⟩
      · rintro ⟨e, hpre, hq, h⟩
        cases e with
        | lf => simp [Eol.bytes] at hpre
        | crlf => exact ⟨by simpa [Eol.bytes] using hq, h⟩
    · refine iff_of_false (not_accepts_fail (if_neg hch)) ?_
      rintro ⟨e, hpre, -⟩
      cases e with
      | lf => simp [Eol.bytes] at hpre
      | crlf => simp [Eol.bytes, Ne.symm hch] at hpre

theorem accepts_cr (h : lineStep mem p CR (st, r) = .next (.almostDone, r')) :
    Accepts mem sp p st r (CR :: rest) q ↔
      Reads Eol.bytes (fun _ => r'.spans.close p = sp) p (CR :: rest) q := by
  rw [accepts_next h, accepts_almostDone]

theorem accepts_lf (h : lineStep mem p LF (st, r) = lineLf p r') :
    Accepts mem sp p st r (LF :: rest) q ↔
      Reads Eol.bytes (fun _ => r'.spans.close p = sp) p (LF :: rest) q := by
  rw [Accepts, Scanner.yields_stop h]
  constructor
  · rintro ⟨rfl, h⟩
    exact ⟨.lf, by simp [Eol.bytes], rfl, h⟩
  · rintro ⟨e, hpre, hq, h⟩
    cases e with
    | lf => exact ⟨by simpa [Eol.bytes] using hq, h⟩
    | crlf => simp [Eol.bytes] at hpre

theorem accepts_spaces {R : ℕ → τ → Prop}
    (hstep : ∀ p, lineStep mem p ' ' (st, r) = .next (st, r))
    (hhead : ∀ t, ∃ ch word, B t = ch :: word ∧ ch ≠ ' ')
    (hexit : ∀ p (ch : UInt8) rest, ch ≠ ' ' →
      (Accepts mem sp p st r (ch :: rest) q ↔ Reads B (R p) p (ch :: rest) q)) :
    Accepts mem sp p st r bs q ↔
      Reads (fun t : ℕ × τ => spaces t.1 ++ B t.2) (fun t => R (p + t.1) t.2) p bs q := by
  have hloop := Scanner.yields_loop_reads (S := lineScanner mem) (Q := IsLine sp) (q := q)
    (P := fun c => c == (' ' : UInt8)) (fun _ : Unit => (st, r)) (fun a _ => a) (B := B)
    (R := fun p _ => R p)
    (fun p c _ hc => by rw [eq_of_beq hc]; exact hstep p)
    (fun t => by
      obtain ⟨c, word, hB, hc⟩ := hhead t
      exact ⟨c, word, hB, by simpa using hc⟩)
    (fun p _ c rest hc => hexit p c rest (by simpa using hc)) p () bs
  rw [Accepts, hloop]
  constructor
  · rintro ⟨⟨⟨xs, hxs⟩, t⟩, hpre, hq, hR⟩
    have hsp : xs = spaces xs.length :=
      List.eq_replicate_iff.mpr ⟨rfl, fun c hc => by simpa using hxs c hc⟩
    refine ⟨⟨xs.length, t⟩, ?_, ?_, hR⟩
    · simpa only [← hsp] using hpre
    · simpa only [← hsp] using hq
  · rintro ⟨⟨n, t⟩, hpre, hq, hR⟩
    have hxs : ∀ c ∈ spaces n, (c == (' ' : UInt8)) = true := by simp [spaces]
    exact ⟨⟨⟨spaces n, hxs⟩, t⟩, hpre, hq, by simpa [spaces] using hR⟩

theorem Eol.bytes_head (e : Eol) : ∃ ch word, e.bytes = ch :: word ∧ (ch = CR ∨ ch = LF) := by
  cases e with
  | lf => exact ⟨LF, [], rfl, Or.inr rfl⟩
  | crlf => exact ⟨CR, [LF], rfl, Or.inl rfl⟩

theorem Eol.not_prefix {e : Eol} (hcr : ch ≠ CR) (hlf : ch ≠ LF) : ¬e.bytes <+: ch :: rest := by
  obtain ⟨c, word, he, hc⟩ := e.bytes_head
  rw [he, List.cons_prefix_cons]
  rintro ⟨rfl, -⟩
  exact hc.elim hcr hlf

theorem accepts_spacesAfterDigit :
    Accepts mem sp p .spacesAfterDigit r bs q ↔
      Reads (fun t : ℕ × Eol => spaces t.1 ++ t.2.bytes)
        (fun t => r.spans.close (p + t.1) = sp) p bs q := by
  refine accepts_spaces (R := fun p _ => r.spans.close p = sp) (fun p => rfl) (fun e => ?_) ?_
  · obtain ⟨c, word, he, hc⟩ := e.bytes_head
    exact ⟨c, word, he, by rcases hc with rfl | rfl <;> decide⟩
  · intro p ch rest hsp
    by_cases hcr : ch = CR
    · subst hcr
      exact accepts_cr rfl
    by_cases hlf : ch = LF
    · subst hlf
      exact accepts_lf rfl
    · have hfail : lineStep mem p ch (.spacesAfterDigit, r) = lineFail (-23) r := by
        simp [lineStep, stepSpacesAfterDigit, hsp, hcr, hlf]
      refine iff_of_false (not_accepts_fail hfail) ?_
      rintro ⟨e, hpre, -⟩
      exact e.not_prefix hcr hlf hpre

theorem reads_spaces_ne {R : ℕ → τ → Prop} (hch : ch ≠ ' ') :
    Reads (fun t : ℕ × τ => spaces t.1 ++ B t.2) (fun t => R t.1 t.2) p (ch :: rest) q ↔
      Reads B (R 0) p (ch :: rest) q := by
  constructor
  · rintro ⟨⟨n, t⟩, hpre, hq, hR⟩
    cases n with
    | zero => exact ⟨t, hpre, hq, hR⟩
    | succ n => exact absurd (List.cons_prefix_cons.mp hpre).1.symm hch
  · rintro ⟨t, hpre, hq, hR⟩
    exact ⟨(0, t), hpre, hq, hR⟩

theorem reads_spaces_cons {R : ℕ → τ → Prop} (hhead : ∀ t, ∃ ch word, B t = ch :: word ∧ ch ≠ ' ') :
    Reads (fun t : ℕ × τ => spaces t.1 ++ B t.2) (fun t => R t.1 t.2) p (' ' :: rest) q ↔
      Reads (fun t : ℕ × τ => spaces t.1 ++ B t.2) (fun t => R (t.1 + 1) t.2) (p + 1) rest q := by
  constructor
  · rintro ⟨⟨n, t⟩, hpre, hq, hR⟩
    cases n with
    | zero =>
      obtain ⟨c, word, hB, hc⟩ := hhead t
      simp only [spaces, List.replicate_zero, List.nil_append, hB] at hpre
      exact absurd (List.cons_prefix_cons.mp hpre).1 hc
    | succ n =>
      refine ⟨(n, t), (List.cons_prefix_cons.mp hpre).2, ?_, hR⟩
      simp only [spaces, List.length_append, List.length_replicate] at hq ⊢
      omega
  · rintro ⟨⟨n, t⟩, hpre, hq, hR⟩
    refine ⟨(n + 1, t), List.cons_prefix_cons.mpr ⟨rfl, hpre⟩, ?_, hR⟩
    simp only [spaces, List.length_append, List.length_replicate] at hq ⊢
    omega

/-! ### The version -/

/-- The spans of a line whose version has these numbers, ends in front of `p` and is
followed by `gap` spaces. -/
def LineSpans.versionEnd (a : LineSpans) (p major minor gap : ℕ) : LineSpans :=
  { a with
    httpProtocol.len := ptrSub p a.httpProtocol.p
    httpMajor := major
    httpMinor := minor }.close (p + gap)

def gapBytes (t : ℕ × Eol) : List UInt8 := spaces t.1 ++ t.2.bytes

def minorBytes (t : Word isDigit × (ℕ × Eol)) : List UInt8 := t.1.1 ++ gapBytes t.2

theorem Eol.bytes_head_ne_space (e : Eol) : ∃ ch word, e.bytes = ch :: word ∧ ch ≠ ' ' := by
  obtain ⟨c, word, he, hc⟩ := e.bytes_head
  exact ⟨c, word, he, by rcases hc with rfl | rfl <;> decide⟩

theorem accepts_minorDigit_exit (hd : isDigit ch = false) :
    Accepts mem sp p .minorDigit r (ch :: rest) q ↔
      Reads gapBytes
        (fun t => r.spans.versionEnd p r.httpMajor r.httpMinor t.1 = sp) p (ch :: rest) q := by
  unfold gapBytes
  by_cases hsp : ch = ' '
  · subst hsp
    rw [reads_spaces_cons (R := fun n _ => r.spans.versionEnd p r.httpMajor r.httpMinor n = sp)
      Eol.bytes_head_ne_space, accepts_next rfl, accepts_spacesAfterDigit]
    simp only [Nat.add_assoc, Nat.add_comm 1]
    rfl
  rw [reads_spaces_ne (R := fun n _ => r.spans.versionEnd p r.httpMajor r.httpMinor n = sp) hsp]
  by_cases hcr : ch = CR
  · subst hcr
    rw [accepts_cr rfl]
    rfl
  by_cases hlf : ch = LF
  · subst hlf
    rw [accepts_lf rfl]
    rfl
  · have hfail : lineStep mem p ch (.minorDigit, r) = lineFail (-22) r := by
      simp [lineStep, stepMinorDigit, hsp, hcr, hlf, hd]
    refine iff_of_false (not_accepts_fail hfail) ?_
    rintro ⟨e, hpre, -⟩
    exact e.not_prefix hcr hlf hpre

theorem isDigit_ne {c : UInt8} (hc : isDigit c = true) : c ≠ CR ∧ c ≠ LF ∧ c ≠ ' ' ∧ c ≠ '.' := by
  revert c
  decide +kernel

theorem foldl_minor (ds : List UInt8) (r : HttpRequest) :
    ds.foldl (fun r c => { r with httpMinor := addDigit r.httpMinor c }) r =
      { r with httpMinor := ds.foldl addDigit r.httpMinor } := by
  induction ds generalizing r with
  | nil => rfl
  | cons d ds ih => rw [List.foldl_cons, ih, List.foldl_cons]

theorem foldl_major (ds : List UInt8) (r : HttpRequest) :
    ds.foldl (fun r c => { r with httpMajor := addDigit r.httpMajor c }) r =
      { r with httpMajor := ds.foldl addDigit r.httpMajor } := by
  induction ds generalizing r with
  | nil => rfl
  | cons d ds ih => rw [List.foldl_cons, ih, List.foldl_cons]

theorem accepts_minorDigit :
    Accepts mem sp p .minorDigit r bs q ↔
      Reads (fun t : Block isDigit × (ℕ × Eol) => t.1.1 ++ gapBytes t.2)
        (fun t => r.spans.versionEnd (p + t.1.1.length) r.httpMajor
          (t.1.1.foldl addDigit r.httpMinor) t.2.1 = sp) p bs q := by
  have hloop := Scanner.yields_loop_reads (S := lineScanner mem) (Q := IsLine sp) (q := q)
    (P := isDigit) (fun r => (LineState.minorDigit, r))
    (fun r c => { r with httpMinor := addDigit r.httpMinor c })
    (B := gapBytes)
    (R := fun p r t => r.spans.versionEnd p r.httpMajor r.httpMinor t.1 = sp)
    (fun p c r hc => by
      obtain ⟨h₁, h₂, h₃, -⟩ := isDigit_ne hc
      simp [lineScanner, lineStep, stepMinorDigit, h₁, h₂, h₃, hc, lineNext])
    (fun t => by
      obtain ⟨n, e⟩ := t
      cases n with
      | zero => cases e <;> exact ⟨_, _, rfl, by decide⟩
      | succ n => exact ⟨_, _, rfl, by decide⟩)
    (fun p r c rest hc => accepts_minorDigit_exit hc) p r bs
  simp only [foldl_minor] at hloop
  exact hloop

theorem addDigit_zero (c : UInt8) : addDigit 0 c = c.toNat - '0'.toNat := by
  have hc : c.toNat < 2 ^ 8 := c.toNat_lt
  simp only [addDigit, Nat.zero_mul, Nat.zero_add]
  exact Nat.mod_eq_of_lt (by omega)

theorem accepts_firstMinorDigit :
    Accepts mem sp p .firstMinorDigit r bs q ↔
      Reads minorBytes
        (fun t => r.spans.versionEnd (p + t.1.1.length) r.httpMajor (numOf t.1.1) t.2.1 = sp)
        p bs q := by
  unfold minorBytes
  cases bs with
  | nil => exact iff_of_false Scanner.not_yields_nil not_reads_word_nil
  | cons ch rest =>
    cases hd : isDigit ch with
    | true =>
      have hstep : lineStep mem p ch (.firstMinorDigit, r) =
          .next (.minorDigit, { r with httpMinor := addDigit 0 ch }) := by
        simp [lineStep, stepFirstMinorDigit, hd, lineNext, addDigit_zero]
      rw [accepts_next hstep, accepts_minorDigit, reads_word_cons (R := fun ds (t : ℕ × Eol) =>
        r.spans.versionEnd (p + ds.length) r.httpMajor (numOf ds) t.1 = sp) hd]
      simp only [List.length_cons, Nat.add_assoc, Nat.add_comm 1]
      rfl
    | false =>
      have hfail : lineStep mem p ch (.firstMinorDigit, r) = lineFail (-21) r := by
        simp [lineStep, stepFirstMinorDigit, hd]
      exact iff_of_false (not_accepts_fail hfail) (not_reads_word_cons hd)

theorem accepts_majorDigit :
    Accepts mem sp p .majorDigit r bs q ↔
      Reads (fun t : Block isDigit × (Word isDigit × (ℕ × Eol)) =>
          t.1.1 ++ ('.' : UInt8) :: minorBytes t.2)
        (fun t => r.spans.versionEnd (p + t.1.1.length + 1 + t.2.1.1.length)
          (t.1.1.foldl addDigit r.httpMajor) (numOf t.2.1.1) t.2.2.1 = sp) p bs q := by
  have hloop := Scanner.yields_loop_reads (S := lineScanner mem) (Q := IsLine sp) (q := q)
    (P := isDigit) (fun r => (LineState.majorDigit, r))
    (fun r c => { r with httpMajor := addDigit r.httpMajor c })
    (B := fun t => ('.' : UInt8) :: minorBytes t)
    (R := fun p r t =>
      r.spans.versionEnd (p + 1 + t.1.1.length) r.httpMajor (numOf t.1.1) t.2.1 = sp)
    (fun p c r hc => by
      simp [lineScanner, lineStep, stepMajorDigit, (isDigit_ne hc).2.2.2, hc, lineNext])
    (fun t => ⟨_, _, rfl, by decide⟩)
    (fun p r c rest hc => by
      by_cases hdot : c = '.'
      · subst hdot
        rw [← Accepts, accepts_next rfl, accepts_firstMinorDigit, reads_cons]
      · have hfail : lineStep mem p c (.majorDigit, r) = lineFail (-20) r := by
          simp [lineStep, stepMajorDigit, hdot, hc]
        exact iff_of_false (not_accepts_fail hfail) (not_reads_cons (Ne.symm hdot))) p r bs
  simp only [foldl_major] at hloop
  exact hloop

theorem isDigit_nonzero (c : UInt8) :
    isDigit c = true ∧ c ≠ '0' ↔ ¬(c < '1' ∨ c > '9') := by
  revert c
  decide +kernel

def numberBytes (t : Version × Eol) : List UInt8 :=
  t.1.major ++ ('.' : UInt8) :: (t.1.minor ++ gapBytes (t.1.gap, t.2))

theorem accepts_firstMajorDigit :
    Accepts mem sp p .firstMajorDigit r bs q ↔
      Reads numberBytes (fun t => r.spans.versionEnd (p + t.1.major.length + 1 + t.1.minor.length)
        (numOf t.1.major) (numOf t.1.minor) t.1.gap = sp) p bs q := by
  cases bs with
  | nil =>
    refine iff_of_false Scanner.not_yields_nil ?_
    rintro ⟨⟨v, e⟩, hpre, -⟩
    simp [numberBytes] at hpre
  | cons ch rest =>
    by_cases hch : ch < '1' ∨ ch > '9'
    · have hfail : lineStep mem p ch (.firstMajorDigit, r) = lineFail (-19) r := if_pos hch
      refine iff_of_false (not_accepts_fail hfail) ?_
      rintro ⟨⟨v, e⟩, hpre, -⟩
      obtain ⟨d, ds, hmajor, hd⟩ := v.major_first
      have hdigit := v.major_digits d (by simp [hmajor])
      simp only [numberBytes, hmajor, List.cons_append, List.cons_prefix_cons] at hpre
      rw [← hpre.1] at hch
      exact (isDigit_nonzero d).mp ⟨hdigit, hd⟩ hch
    · have hstep : lineStep mem p ch (.firstMajorDigit, r) =
          .next (.majorDigit, { r with httpMajor := addDigit 0 ch }) := by
        rw [addDigit_zero]
        exact if_neg hch
      obtain ⟨hdigit, hne⟩ := (isDigit_nonzero ch).mpr hch
      rw [accepts_next hstep, accepts_majorDigit]
      constructor
      · rintro ⟨⟨⟨ds, hds⟩, ⟨minor, hmne, hminor⟩, n, e⟩, hpre, hq, hR⟩
        refine ⟨(⟨ch :: ds, minor, n, by simpa [hdigit] using hds, ⟨ch, ds, rfl, hne⟩, hminor,
          hmne⟩, e), ?_, ?_, ?_⟩
        · simpa [numberBytes, minorBytes] using hpre
        · simp only [numberBytes, minorBytes, List.length_append, List.length_cons] at hq ⊢
          omega
        · rw [← hR]
          simp only [List.length_cons, Nat.add_assoc, Nat.add_comm 1]
          rfl
      · rintro ⟨⟨⟨major, minor, n, hmajor, ⟨d, ds, rfl, hd⟩, hminor, hmne⟩, e⟩, hpre, hq, hR⟩
        obtain ⟨rfl, hrest⟩ := List.cons_prefix_cons.mp hpre
        refine ⟨⟨⟨ds, fun c hc => hmajor c (List.mem_cons_of_mem _ hc)⟩, ⟨minor, hmne, hminor⟩,
          n, e⟩, hrest, ?_, ?_⟩
        · simp only [numberBytes, minorBytes, List.length_append, List.length_cons] at hq ⊢
          omega
        · rw [← hR]
          simp only [List.length_cons, Nat.add_assoc, Nat.add_comm 1]
          rfl

theorem accepts_expect {c : UInt8} {code : ℤ} {R : τ → Prop}
    (hstep : ∀ p ch, lineStep mem p ch (st, r) = stepExpect ch r c st' code)
    (hnext : ∀ bs, Accepts mem sp (p + 1) st' r bs q ↔ Reads B R (p + 1) bs q) :
    Accepts mem sp p st r bs q ↔ Reads (fun t => c :: B t) R p bs q := by
  cases bs with
  | nil => exact iff_of_false Scanner.not_yields_nil not_reads_cons_nil
  | cons ch rest =>
    by_cases hch : ch = c
    · subst hch
      have hok : lineStep mem p ch (st, r) = .next (st', r) := (hstep p ch).trans (if_pos rfl)
      rw [accepts_next hok, hnext, reads_cons]
    · have hfail : lineStep mem p ch (st, r) = lineFail code r := (hstep p ch).trans (if_neg hch)
      exact iff_of_false (not_accepts_fail hfail) (not_reads_cons (Ne.symm hch))

theorem accepts_httpH :
    Accepts mem sp p .httpH r bs q ↔
      Reads (fun t => ('T' : UInt8) :: ('T' : UInt8) :: ('P' : UInt8) :: ('/' : UInt8) ::
          numberBytes t)
        (fun t => r.spans.versionEnd (p + 4 + t.1.major.length + 1 + t.1.minor.length)
          (numOf t.1.major) (numOf t.1.minor) t.1.gap = sp) p bs q :=
  accepts_expect (fun _ _ => rfl) fun _ => accepts_expect (fun _ _ => rfl) fun _ =>
    accepts_expect (fun _ _ => rfl) fun _ => accepts_expect (fun _ _ => rfl) fun _ =>
    accepts_firstMajorDigit

/-! ### The end of a line -/

/-- The spans of a line with its `END` at `p`. -/
def LineSpans.endAt (a : LineSpans) (p : ℕ) : Option Version → LineSpans
  | none => { a with httpMinor := 9 }.close p
  | some v => { a with httpProtocol.p := some p }.versionEnd (p + v.protocol.length)
      (numOf v.major) (numOf v.minor) v.gap

def endWord (t : Option Version × Eol) : List UInt8 := endBytes t.1 t.2

theorem Version.protocol_eq (v : Version) :
    v.protocol = ('H' : UInt8) :: ('T' : UInt8) :: ('T' : UInt8) :: ('P' : UInt8) ::
      ('/' : UInt8) :: (v.major ++ ('.' : UInt8) :: v.minor) := rfl

theorem endBytes_some (v : Version) (e : Eol) :
    endBytes (some v) e = ('H' : UInt8) :: ('T' : UInt8) :: ('T' : UInt8) :: ('P' : UInt8) ::
      ('/' : UInt8) :: numberBytes (v, e) := by
  simp [endBytes, v.protocol_eq, numberBytes, gapBytes]

theorem endBytes_head (v : Option Version) (e : Eol) :
    ∃ ch word, endBytes v e = ch :: word ∧ (ch = CR ∨ ch = LF ∨ ch = 'H') := by
  cases v with
  | none =>
    obtain ⟨c, word, he, hc⟩ := e.bytes_head
    exact ⟨c, word, he, hc.imp_right Or.inl⟩
  | some v => exact ⟨_, _, endBytes_some v e, Or.inr (Or.inr rfl)⟩

theorem reads_endWord_eol {a : LineSpans} (hch : ch = CR ∨ ch = LF) :
    Reads endWord (fun t => a.endAt p t.1 = sp) p (ch :: rest) q ↔
      Reads Eol.bytes (fun _ => { a with httpMinor := 9 }.close p = sp) p (ch :: rest) q := by
  constructor
  · rintro ⟨⟨v, e⟩, hpre, hq, hR⟩
    cases v with
    | none => exact ⟨e, hpre, hq, hR⟩
    | some v =>
      rw [endWord, endBytes_some, List.cons_prefix_cons] at hpre
      rcases hch with rfl | rfl <;> exact absurd hpre.1 (by decide)
  · rintro ⟨e, hpre, hq, hR⟩
    exact ⟨(none, e), hpre, hq, hR⟩

theorem accepts_end {other : LineVerdict}
    (hstep : lineStep mem p ch (st, r) = stepSpaces p ch r st other)
    (hch : ch = CR ∨ ch = LF ∨ ch = 'H') :
    Accepts mem sp p st r (ch :: rest) q ↔
      Reads endWord (fun t => r.spans.endAt p t.1 = sp) p (ch :: rest) q := by
  rcases hch with rfl | rfl | rfl
  · rw [accepts_cr hstep, reads_endWord_eol (Or.inl rfl)]
    rfl
  · rw [accepts_lf hstep, reads_endWord_eol (Or.inr rfl)]
    rfl
  · rw [accepts_next hstep, accepts_httpH]
    constructor
    · rintro ⟨⟨v, e⟩, hpre, hq, hR⟩
      refine ⟨(some v, e), ?_, ?_, ?_⟩
      · rw [endWord, endBytes_some]
        exact List.cons_prefix_cons.mpr ⟨rfl, hpre⟩
      · rw [endWord, endBytes_some]
        simp only [List.length_cons] at hq ⊢
        omega
      · rw [← hR]
        simp only [LineSpans.endAt, v.protocol_eq, List.length_cons, List.length_append]
        congr 1
        omega
    · rintro ⟨⟨v, e⟩, hpre, hq, hR⟩
      cases v with
      | none =>
        exact absurd hpre (e.not_prefix (by decide) (by decide))
      | some v =>
        rw [endWord, endBytes_some] at hpre hq
        refine ⟨(v, e), (List.cons_prefix_cons.mp hpre).2, ?_, ?_⟩
        · simp only [List.length_cons] at hq ⊢
          omega
        · rw [← hR]
          simp only [LineSpans.endAt, v.protocol_eq, List.length_cons, List.length_append]
          congr 1
          omega

def closing (t : ℕ × (Option Version × Eol)) : List UInt8 := spaces t.1 ++ endWord t.2

theorem endWord_head_ne_space (t : Option Version × Eol) :
    ∃ ch word, endWord t = ch :: word ∧ ch ≠ ' ' := by
  obtain ⟨c, word, h, hc⟩ := endBytes_head t.1 t.2
  exact ⟨c, word, h, by rcases hc with rfl | rfl | rfl <;> decide⟩

theorem endWord_not_prefix {t : Option Version × Eol} (hch : ¬(ch = CR ∨ ch = LF ∨ ch = 'H')) :
    ¬endWord t <+: ch :: rest := by
  obtain ⟨c, word, h, hc⟩ := endBytes_head t.1 t.2
  rw [endWord, h, List.cons_prefix_cons]
  rintro ⟨rfl, -⟩
  exact hch hc

theorem accepts_hostHttp09 :
    Accepts mem sp p .hostHttp09 r bs q ↔
      Reads closing (fun t => r.spans.endAt (p + t.1) t.2.1 = sp) p bs q := by
  refine accepts_spaces (B := endWord) (R := fun p t => r.spans.endAt p t.1 = sp) (fun p => rfl)
    endWord_head_ne_space ?_
  intro p ch rest hsp
  by_cases hch : ch = CR ∨ ch = LF ∨ ch = 'H'
  · exact accepts_end rfl hch
  · have hfail : lineStep mem p ch (.hostHttp09, r) = lineFail (-11) r := by
      simp only [not_or] at hch
      simp [lineStep, stepHostHttp09, stepSpaces, hsp, hch]
    refine iff_of_false (not_accepts_fail hfail) ?_
    rintro ⟨t, hpre, -⟩
    exact endWord_not_prefix hch hpre

/-! ### The URI -/

/-- `uri.len` when the URI ends in front of `p`. -/
def LineSpans.uriEnd (a : LineSpans) (p : ℕ) : LineSpans :=
  { a with uri.len := ptrSub p a.uri.p }

def uriBytes (t : List UInt8 × (ℕ × (Option Version × Eol))) : List UInt8 := t.1 ++ closing t.2

/-- The condition on the rest of a URI behind the bytes `before`, and its spans. -/
def UriRest (sp : LineSpans) (before : List UInt8) (p : ℕ) (a : LineSpans)
    (t : List UInt8 × (ℕ × (Option Version × Eol))) : Prop :=
  UriText (before ++ t.1) ∧ (t.2.2.1.isSome → 1 ≤ t.2.1) ∧
    (a.uriEnd (p + t.1.length)).endAt (p + t.1.length + t.2.1) t.2.2.1 = sp

def InUri (sp : LineSpans) (p : ℕ) (a : LineSpans) (bs : List UInt8) (q : ℕ) : Prop :=
  Reads uriBytes (UriRest sp [] p a) p bs q

/-- What may follow behind a space: the end of the line when the URI ended in front of
the spaces, or more of the URI. -/
def InUriSpaces (sp : LineSpans) (p : ℕ) (a : LineSpans) (bs : List UInt8) (q : ℕ) : Prop :=
  Reads closing (fun t => a.endAt (p + t.1) t.2.1 = sp) p bs q ∨
    Reads uriBytes (UriRest sp [(' ' : UInt8)] p a) p bs q

theorem closing_head (t : ℕ × (Option Version × Eol)) :
    ∃ ch word, closing t = ch :: word ∧
      (1 ≤ t.1 ∧ ch = ' ' ∨ t.1 = 0 ∧ (ch = CR ∨ ch = LF ∨ ch = 'H' ∧ t.2.1.isSome)) := by
  obtain ⟨n, v, e⟩ := t
  cases n with
  | succ n => exact ⟨' ', spaces n ++ endWord (v, e), rfl, Or.inl ⟨by omega, rfl⟩⟩
  | zero =>
    cases v with
    | none =>
      obtain ⟨c, word, he, hc⟩ := e.bytes_head
      exact ⟨c, word, he, Or.inr ⟨rfl, hc.imp_right Or.inl⟩⟩
    | some v => exact ⟨_, _, endBytes_some v e, Or.inr ⟨rfl, Or.inr (Or.inr ⟨rfl, rfl⟩)⟩⟩

theorem not_inUri_nil {a : LineSpans} : ¬InUri sp p a [] q := by
  rintro ⟨⟨u, t⟩, hpre, -⟩
  obtain ⟨c, word, hc, -⟩ := closing_head t
  simp [uriBytes, hc] at hpre

theorem not_inUriSpaces_nil {a : LineSpans} : ¬InUriSpaces sp p a [] q := by
  rintro (⟨t, hpre, -⟩ | ⟨⟨u, t⟩, hpre, -⟩) <;> obtain ⟨c, word, hc, -⟩ := closing_head t
  · simp [hc] at hpre
  · simp [uriBytes, hc] at hpre

theorem reads_uriRest_cons {a : LineSpans} {before : List UInt8} :
    Reads uriBytes (fun t => t.1 ≠ [] ∧ UriRest sp before p a t) p (ch :: rest) q ↔
      Reads uriBytes (UriRest sp (before ++ [ch]) (p + 1) a) (p + 1) rest q := by
  constructor
  · rintro ⟨⟨u, t⟩, hpre, hq, hne, hu, hgap, hsp⟩
    cases u with
    | nil => exact absurd rfl hne
    | cons c u =>
      obtain ⟨rfl, hrest⟩ := List.cons_prefix_cons.mp hpre
      refine ⟨(u, t), hrest, ?_, by simpa using hu, hgap, ?_⟩
      · simp only [uriBytes, List.length_append, List.length_cons] at hq ⊢
        omega
      · simpa [Nat.add_assoc, Nat.add_comm 1] using hsp
  · rintro ⟨⟨u, t⟩, hpre, hq, hu, hgap, hsp⟩
    refine ⟨(ch :: u, t), List.cons_prefix_cons.mpr ⟨rfl, hpre⟩, ?_, by simp, by simpa using hu,
      hgap, ?_⟩
    · simp only [uriBytes, List.length_append, List.length_cons] at hq ⊢
      omega
    · simpa [Nat.add_assoc, Nat.add_comm 1] using hsp

theorem uriText_cons {c : UInt8} {u : List UInt8} (hsp : c ≠ ' ') :
    UriText (c :: u) ↔ (c ≠ '\x00' ∧ c ≠ CR ∧ c ≠ LF) ∧ UriText u := by
  simp only [UriText, hsp, false_implies, true_and]
  tauto

theorem inUri_plain {a : LineSpans} (hsp : ch ≠ ' ') (hcr : ch ≠ CR) (hlf : ch ≠ LF)
    (hnul : ch ≠ '\x00') : InUri sp p a (ch :: rest) q ↔ InUri sp (p + 1) a rest q := by
  have hrest : Reads uriBytes (UriRest sp [] (p + 1) a) (p + 1) rest q ↔
      Reads uriBytes (UriRest sp ([] ++ [ch]) (p + 1) a) (p + 1) rest q := by
    refine reads_congr fun t => ?_
    simp [UriRest, uriText_cons hsp, hcr, hlf, hnul]
  rw [InUri, InUri, hrest, ← reads_uriRest_cons]
  constructor
  · rintro ⟨⟨u, t⟩, hpre, hq, hR⟩
    refine ⟨(u, t), hpre, hq, ?_, hR⟩
    -- neither the spaces nor the end of the line begin with this byte
    rintro rfl
    obtain ⟨c, word, hc, hcases⟩ := closing_head t
    have heq : c = ch := (List.cons_prefix_cons.mp (hc ▸ hpre : c :: word <+: ch :: rest)).1
    rw [heq] at hcases
    rcases hcases with ⟨-, h⟩ | ⟨h0, h | h | ⟨-, h⟩⟩
    · exact hsp h
    · exact hcr h
    · exact hlf h
    · have hgap : 1 ≤ t.1 := hR.2.1 h
      omega
  · rintro ⟨t, hpre, hq, -, hR⟩
    exact ⟨t, hpre, hq, hR⟩

theorem not_uriRest_cons {a : LineSpans} {before : List UInt8} {u : List UInt8}
    {t : ℕ × (Option Version × Eol)} (hch : ch = '\x00' ∨ ch = CR ∨ ch = LF) :
    ¬UriRest sp before p a (ch :: u, t) := by
  rintro ⟨hu, -⟩
  induction before with
  | nil =>
    obtain ⟨h₀, h₁, h₂, -⟩ := hu
    rcases hch with h | h | h
    · exact h₀ h
    · exact h₁ h
    · exact h₂ h
  | cons c before ih => exact ih hu.2.2.2.2

theorem inUri_eol {a : LineSpans} (hch : ch = CR ∨ ch = LF) :
    InUri sp p a (ch :: rest) q ↔
      Reads Eol.bytes (fun _ => { a.uriEnd p with httpMinor := 9 }.close p = sp) p (ch :: rest) q := by
  rw [← reads_endWord_eol hch]
  constructor
  · rintro ⟨⟨u, n, t⟩, hpre, hq, hR⟩
    cases u with
    | cons c u =>
      obtain ⟨rfl, -⟩ := List.cons_prefix_cons.mp hpre
      exact absurd hR (not_uriRest_cons (Or.inr hch))
    | nil =>
      cases n with
      | zero => exact ⟨t, hpre, hq, hR.2.2⟩
      | succ n =>
        have h := (List.cons_prefix_cons.mp hpre).1
        rcases hch with rfl | rfl <;> exact absurd h (by decide)
  · rintro ⟨⟨v, e⟩, hpre, hq, hR⟩
    refine ⟨([], 0, v, e), hpre, hq, trivial, ?_, hR⟩
    intro hv
    obtain ⟨v, rfl⟩ := Option.isSome_iff_exists.mp hv
    rw [endWord, endBytes_some, List.cons_prefix_cons] at hpre
    rcases hch with rfl | rfl <;> exact absurd hpre.1 (by decide)

theorem not_inUri_nul {a : LineSpans} : ¬InUri sp p a (('\x00' : UInt8) :: rest) q := by
  rintro ⟨⟨u, t⟩, hpre, -, hR⟩
  cases u with
  | cons c u =>
    obtain ⟨rfl, -⟩ := List.cons_prefix_cons.mp hpre
    exact not_uriRest_cons (Or.inl rfl) hR
  | nil =>
    obtain ⟨c, word, hc, hcases⟩ := closing_head t
    have heq : c = '\x00' :=
      (List.cons_prefix_cons.mp (hc ▸ hpre : c :: word <+: ('\x00' : UInt8) :: rest)).1
    rw [heq] at hcases
    revert hcases
    simp [show ¬('\x00' : UInt8) = ' ' by decide, show ¬('\x00' : UInt8) = CR by decide,
      show ¬('\x00' : UInt8) = LF by decide, show ¬('\x00' : UInt8) = 'H' by decide]

theorem reads_closing_space {a : LineSpans} :
    Reads closing (fun t => 1 ≤ t.1 ∧ a.endAt (p + t.1) t.2.1 = sp) p ((' ' : UInt8) :: rest) q ↔
      Reads closing (fun t => a.endAt (p + 1 + t.1) t.2.1 = sp) (p + 1) rest q := by
  unfold closing
  rw [reads_spaces_cons (R := fun n t => 1 ≤ n ∧ a.endAt (p + n) t.1 = sp) endWord_head_ne_space]
  refine reads_congr fun t => ?_
  simp [Nat.add_assoc, Nat.add_comm 1]

theorem inUri_space {a : LineSpans} :
    InUri sp p a ((' ' : UInt8) :: rest) q ↔ InUriSpaces sp (p + 1) (a.uriEnd p) rest q := by
  have hmore : Reads uriBytes (UriRest sp [(' ' : UInt8)] (p + 1) (a.uriEnd p)) (p + 1) rest q ↔
      Reads uriBytes (fun t => t.1 ≠ [] ∧ UriRest sp [] p (a.uriEnd p) t) p
        ((' ' : UInt8) :: rest) q := by
    rw [reads_uriRest_cons, List.nil_append]
  rw [InUriSpaces, hmore, ← reads_closing_space]
  constructor
  · rintro ⟨⟨u, t⟩, hpre, hq, hR⟩
    cases u with
    | nil =>
      have hgap : 1 ≤ t.1 := by
        obtain ⟨c, word, hc, hcases⟩ := closing_head t
        have heq : c = ' ' := (List.cons_prefix_cons.mp
          (hc ▸ hpre : c :: word <+: (' ' : UInt8) :: rest)).1
        rw [heq] at hcases
        rcases hcases with ⟨h, -⟩ | ⟨-, h | h | ⟨h, -⟩⟩
        · exact h
        all_goals exact absurd h (by decide)
      exact Or.inl ⟨t, hpre, hq, hgap, hR.2.2⟩
    | cons c u => exact Or.inr ⟨(c :: u, t), hpre, hq, by simp, hR⟩
  · rintro (⟨t, hpre, hq, hgap, hR⟩ | ⟨t, hpre, hq, -, hR⟩)
    · exact ⟨([], t), hpre, hq, trivial, fun _ => hgap, hR⟩
    · exact ⟨t, hpre, hq, hR⟩

theorem uriText_space {u : List UInt8} :
    UriText ((' ' : UInt8) :: u) ↔ (∃ d ∈ u.head?, d ≠ ('H' : UInt8)) ∧ UriText u := by
  simp [UriText, show ¬(' ' : UInt8) = '\x00' by decide, show ¬(' ' : UInt8) = CR by decide,
    show ¬(' ' : UInt8) = LF by decide]

theorem inUriSpaces_space {a : LineSpans} :
    InUriSpaces sp p a ((' ' : UInt8) :: rest) q ↔ InUriSpaces sp (p + 1) a rest q := by
  have hmore : Reads uriBytes (UriRest sp [(' ' : UInt8)] (p + 1) a) (p + 1) rest q ↔
      Reads uriBytes (UriRest sp ([(' ' : UInt8)] ++ [(' ' : UInt8)]) (p + 1) a) (p + 1) rest q := by
    refine reads_congr fun t => ?_
    simp [UriRest, uriText_space, show ¬(' ' : UInt8) = 'H' by decide]
  rw [InUriSpaces, InUriSpaces, hmore, ← reads_uriRest_cons, ← reads_closing_space]
  refine or_congr ?_ ?_
  · unfold closing
    constructor
    · rintro ⟨⟨n, t⟩, hpre, hq, hR⟩
      refine ⟨(n, t), hpre, hq, ?_, hR⟩
      cases n with
      | succ n => simp
      | zero =>
        obtain ⟨c, word, hc, hne⟩ := endWord_head_ne_space t
        exact absurd (List.cons_prefix_cons.mp
          (hc ▸ hpre : c :: word <+: (' ' : UInt8) :: rest)).1 hne
    · rintro ⟨t, hpre, hq, -, hR⟩
      exact ⟨t, hpre, hq, hR⟩
  · constructor
    · rintro ⟨⟨u, t⟩, hpre, hq, hR⟩
      refine ⟨(u, t), hpre, hq, ?_, hR⟩
      rintro rfl
      simpa [UriText] using uriText_space.mp hR.1
    · rintro ⟨t, hpre, hq, -, hR⟩
      exact ⟨t, hpre, hq, hR⟩

/-- A byte that begins `END`: the URI ended in front of the spaces. -/
theorem inUriSpaces_end {a : LineSpans} (hch : ch = CR ∨ ch = LF ∨ ch = 'H') :
    InUriSpaces sp p a (ch :: rest) q ↔
      Reads endWord (fun t => a.endAt p t.1 = sp) p (ch :: rest) q := by
  have hsp : ch ≠ ' ' := by rcases hch with rfl | rfl | rfl <;> decide
  have hnot : ¬Reads uriBytes (UriRest sp [(' ' : UInt8)] p a) p (ch :: rest) q := by
    rintro ⟨⟨u, t⟩, hpre, -, hR⟩
    obtain ⟨⟨d, hd, hH⟩, -⟩ := uriText_space.mp hR.1
    cases u with
    | nil => simp at hd
    | cons c u =>
      obtain rfl : c = d := by simpa using hd
      obtain ⟨rfl, -⟩ := List.cons_prefix_cons.mp hpre
      rcases hch with h | h | h
      · exact not_uriRest_cons (Or.inr (Or.inl h)) hR
      · exact not_uriRest_cons (Or.inr (Or.inr h)) hR
      · exact hH h
  rw [InUriSpaces, or_iff_left hnot]
  unfold closing
  exact reads_spaces_ne (R := fun n (t : Option Version × Eol) => a.endAt (p + n) t.1 = sp) hsp

/-- Another byte behind the spaces: they belong to the URI. -/
theorem inUriSpaces_other {a : LineSpans} (hsp : ch ≠ ' ')
    (hch : ¬(ch = CR ∨ ch = LF ∨ ch = 'H')) :
    InUriSpaces sp p a (ch :: rest) q ↔ InUri sp p a (ch :: rest) q := by
  have hnot : ∀ t : ℕ × (Option Version × Eol), ¬closing t <+: ch :: rest := by
    intro t hpre
    obtain ⟨c, word, hc, hcases⟩ := closing_head t
    have heq : c = ch := (List.cons_prefix_cons.mp (hc ▸ hpre : c :: word <+: ch :: rest)).1
    rw [heq] at hcases
    tauto
  have hleft : ¬Reads closing (fun t => a.endAt (p + t.1) t.2.1 = sp) p (ch :: rest) q :=
    fun ⟨t, hpre, _⟩ => hnot t hpre
  rw [InUriSpaces, or_iff_right hleft, InUri]
  constructor
  · rintro ⟨⟨u, t⟩, hpre, hq, hu, hR⟩
    exact ⟨(u, t), hpre, hq, (uriText_space.mp hu).2, hR⟩
  · rintro ⟨⟨u, t⟩, hpre, hq, hu, hR⟩
    refine ⟨(u, t), hpre, hq, uriText_space.mpr ⟨?_, hu⟩, hR⟩
    cases u with
    | nil => exact absurd hpre (hnot t)
    | cons c u =>
      obtain ⟨rfl, -⟩ := List.cons_prefix_cons.mp hpre
      exact ⟨c, rfl, fun h => hch (Or.inr (Or.inr h))⟩

def LineState.inUri : LineState → Bool
  | .afterSlashInUri | .checkUri | .uri => true
  | _ => false

/-- The states inside a URI differ in flags and in the spans of its parts only. -/
theorem lineStep_uri_plain (mem : List UInt8) (p : ℕ) (r : HttpRequest) (hst : st.inUri = true)
    (hsp : ch ≠ ' ') (hcr : ch ≠ CR) (hlf : ch ≠ LF) (hnul : ch ≠ '\x00') :
    ∃ st' r', st'.inUri = true ∧ r'.spans = r.spans ∧
      lineStep mem p ch (st, r) = .next (st', r') := by
  have hall : (lineStep mem p ch (st, r)).All
      (fun s => s.1.inUri = true ∧ s.2.spans = r.spans) (fun _ => False) (fun _ => False) := by
    cases st <;> first
      | exact absurd hst (by decide)
      | repeat' refine Verdict.All.ite (fun h => ?_) (fun _ => ?_)
    all_goals first
      | exact ⟨rfl, rfl⟩
      | exact absurd h (by assumption)
  cases hv : lineStep mem p ch (st, r) <;> rw [hv] at hall
  case next s => exact ⟨s.1, s.2, hall.1, hall.2, rfl⟩
  case again s => exact hall.elim
  case stop s => exact hall.elim

theorem lineStep_uri_space (mem : List UInt8) (p : ℕ) (r : HttpRequest) (hst : st.inUri = true) :
    ∃ st', st'.givesBack = true ∧
      lineStep mem p ' ' (st, r) = .next (st', { r with uri.len := ptrSub p r.uri.p }) := by
  cases st <;> first
    | exact absurd hst (by decide)
    | exact ⟨_, rfl, rfl⟩

theorem lineStep_uri_cr (hst : st.inUri = true) :
    lineStep mem p CR (st, r) =
      .next (.almostDone, { r with uri.len := ptrSub p r.uri.p, httpMinor := 9 }) := by
  cases st <;> first
    | exact absurd hst (by decide)
    | rfl

theorem lineStep_uri_lf (hst : st.inUri = true) :
    lineStep mem p LF (st, r) =
      lineLf p { r with uri.len := ptrSub p r.uri.p, httpMinor := 9 } := by
  cases st <;> first
    | exact absurd hst (by decide)
    | rfl

theorem lineStep_uri_nul (mem : List UInt8) (p : ℕ) (r : HttpRequest) (hst : st.inUri = true) :
    ∃ code, lineStep mem p '\x00' (st, r) = lineFail code r := by
  cases st <;> first
    | exact absurd hst (by decide)
    | exact ⟨_, rfl⟩

theorem lineStep_uriSpaces (mem : List UInt8) (r : HttpRequest) (hst : st.givesBack = true) :
    ∃ st', st'.inUri = true ∧ ∀ p ch, lineStep mem p ch (st, r) =
      stepSpaces p ch r st (.again (st', { r with spaceInUri := true })) := by
  cases st <;> first
    | exact absurd hst (by decide)
    | exact ⟨_, rfl, fun _ _ => rfl⟩

/-- The states of a URI recognise its rest; by induction on the bytes, for the states
inside the URI and behind its spaces at once. -/
theorem accepts_uri (bs : List UInt8) :
    (∀ p st r, st.inUri = true → (Accepts mem sp p st r bs q ↔ InUri sp p r.spans bs q)) ∧
      ∀ p st r, st.givesBack = true →
        (Accepts mem sp p st r bs q ↔ InUriSpaces sp p r.spans bs q) := by
  induction bs with
  | nil => exact ⟨fun _ _ _ _ => iff_of_false Scanner.not_yields_nil not_inUri_nil,
      fun _ _ _ _ => iff_of_false Scanner.not_yields_nil not_inUriSpaces_nil⟩
  | cons ch rest ih =>
    obtain ⟨ihUri, ihSpaces⟩ := ih
    have huri : ∀ p st r, st.inUri = true →
        (Accepts mem sp p st r (ch :: rest) q ↔ InUri sp p r.spans (ch :: rest) q) := by
      intro p st r hst
      by_cases hsp : ch = ' '
      · subst hsp
        obtain ⟨st', hst', hstep⟩ := lineStep_uri_space mem p r hst
        rw [accepts_next hstep, ihSpaces _ _ _ hst', inUri_space]
        rfl
      by_cases hcr : ch = CR
      · subst hcr
        rw [accepts_cr (lineStep_uri_cr hst), inUri_eol (Or.inl rfl)]
        rfl
      by_cases hlf : ch = LF
      · subst hlf
        rw [accepts_lf (lineStep_uri_lf hst), inUri_eol (Or.inr rfl)]
        rfl
      by_cases hnul : ch = '\x00'
      · subst hnul
        obtain ⟨code, hstep⟩ := lineStep_uri_nul mem p r hst
        exact iff_of_false (not_accepts_fail hstep) not_inUri_nul
      · obtain ⟨st', r', hst', hspans, hstep⟩ :=
          lineStep_uri_plain mem p r hst hsp hcr hlf hnul
        rw [accepts_next hstep, ihUri _ _ _ hst', hspans, inUri_plain hsp hcr hlf hnul]
    refine ⟨huri, fun p st r hst => ?_⟩
    obtain ⟨st', hst', hstep⟩ := lineStep_uriSpaces mem r hst
    by_cases hsp : ch = ' '
    · subst hsp
      rw [accepts_next (hstep p ' '), ihSpaces _ _ _ hst, inUriSpaces_space]
    by_cases hch : ch = CR ∨ ch = LF ∨ ch = 'H'
    · rw [accepts_end (hstep p ch) hch, inUriSpaces_end hch]
    · have hagain : lineStep mem p ch (st, r) =
          .again (st', { r with spaceInUri := true }) := by
        simp only [not_or] at hch
        simp [hstep, stepSpaces, hsp, hch]
      rw [Accepts, Scanner.yields_again hagain, ← Accepts, huri _ _ _ hst',
        inUriSpaces_other hsp hch]
      rfl

end Recognise

end Cserv.Http
