import Mathlib.Data.List.DropRight
import Mathlib.Data.List.TakeWhile
import Cserv.Http.UriScan

/-!
# What the parser says about a URI, and what is so

The flags of a URI are sound: without them its path has no escape, no dot segment and no empty
one. The query string and the file extension are found for plain paths only. An escape or a
segment that starts with a dot ends the search for the question mark, and the extension runs to
the end of the URI, query string included.
-/
namespace Cserv.Http

open Foundations

/-! ## Flags never fall -/

/-- The flags of `f` are set in `g`. -/
structure UriFields.Le (f g : UriFields) : Prop where
  complexUri : f.complexUri = true → g.complexUri = true
  quotedUri : f.quotedUri = true → g.quotedUri = true
  spaceInUri : f.spaceInUri = true → g.spaceInUri = true

theorem UriFields.Le.trans {f g h : UriFields} (hfg : f.Le g) (hgh : g.Le h) : f.Le h :=
  ⟨fun hf => hgh.complexUri (hfg.complexUri hf), fun hf => hgh.quotedUri (hfg.quotedUri hf),
    fun hf => hgh.spaceInUri (hfg.spaceInUri hf)⟩

theorem uriByte_le (p : ℕ) (ch : UInt8) (x : UriState × UriFields) : x.2.Le (uriByte p ch x).2 := by
  obtain ⟨σ, f⟩ := x
  cases σ <;> simp only [uriByte] <;> split_ifs <;>
    exact ⟨fun h => by first | rfl | exact h, fun h => by first | rfl | exact h,
      fun h => by first | rfl | exact h⟩

theorem uriScan_le (p : ℕ) (x : UriState × UriFields) (u : List UInt8) : x.2.Le (uriScan p x u).2 := by
  induction u generalizing p x with
  | nil => exact ⟨id, id, id⟩
  | cons ch u ih => exact (uriByte_le p ch x).trans (ih ..)

theorem uriScan_space {p : ℕ} {x : UriState × UriFields} {u : List UInt8} (h : (' ' : UInt8) ∈ u) :
    (uriScan p x u).2.spaceInUri = true := by
  obtain ⟨a, b, rfl⟩ := List.append_of_mem h
  rw [uriScan_append, uriScan]
  generalize uriScan p x a = y
  apply (uriScan_le ..).spaceInUri
  obtain ⟨σ, f⟩ := y
  cases σ <;> rfl

theorem uriScan_hash {p : ℕ} {x : UriState × UriFields} {u : List UInt8} (h : ('#' : UInt8) ∈ u) :
    (uriScan p x u).2.complexUri = true := by
  obtain ⟨a, b, rfl⟩ := List.append_of_mem h
  rw [uriScan_append, uriScan]
  generalize uriScan p x a = y
  apply (uriScan_le ..).complexUri
  obtain ⟨σ, f⟩ := y
  cases σ <;> rfl

/-! ## The end of the checks -/

theorem uriByte_rest (p : ℕ) (ch : UInt8) (f : UriFields) : (uriByte p ch (.rest, f)).1 = .rest ∧
    (uriByte p ch (.rest, f)).2.args = f.args ∧ (uriByte p ch (.rest, f)).2.exten = f.exten := by
  simp only [uriByte]
  split_ifs <;> exact ⟨rfl, rfl, rfl⟩

theorem uriScan_rest (p : ℕ) (f : UriFields) (u : List UInt8) :
    (uriScan p (.rest, f) u).1 = .rest ∧ (uriScan p (.rest, f) u).2.args = f.args ∧
      (uriScan p (.rest, f) u).2.exten = f.exten := by
  induction u generalizing p f with
  | nil => exact ⟨rfl, rfl, rfl⟩
  | cons ch u ih =>
    obtain ⟨hst, hargs, hexten⟩ := uriByte_rest p ch f
    have hbyte : uriByte p ch (.rest, f) = (.rest, (uriByte p ch (.rest, f)).2) := Prod.ext hst rfl
    obtain ⟨hst', hargs', hexten'⟩ := ih (p + 1) (uriByte p ch (.rest, f)).2
    rw [← hbyte] at hst' hargs' hexten'
    exact ⟨hst', hargs'.trans hargs, hexten'.trans hexten⟩

/-- Behind a slash and any number of `+` stands a dot or another slash. -/
def DotNext (v : List UInt8) : Prop :=
  (v.dropWhile (· = ('+' : UInt8))).head? = some ('.' : UInt8) ∨
    (v.dropWhile (· = ('+' : UInt8))).head? = some ('/' : UInt8)

/-- Some slash of the path has a dot or another slash behind it. -/
def DotSegment (path : List UInt8) : Prop :=
  ∃ t ∈ path.tails, t.head? = some ('/' : UInt8) ∧ DotNext t.tail

instance decidableDotNext (v : List UInt8) : Decidable (DotNext v) :=
  inferInstanceAs (Decidable (_ ∨ _))

instance decidableDotSegment (path : List UInt8) : Decidable (DotSegment path) :=
  inferInstanceAs (Decidable (∃ t ∈ path.tails, _))

theorem dotSegment_nil : ¬DotSegment [] := by
  simp [DotSegment]

theorem dotSegment_cons (c : UInt8) (v : List UInt8) :
    DotSegment (c :: v) ↔ c = '/' ∧ DotNext v ∨ DotSegment v := by
  simp [DotSegment]

theorem dotNext_plus (v : List UInt8) : DotNext (('+' : UInt8) :: v) ↔ DotNext v := by
  simp [DotNext]

theorem dotNext_cons {c : UInt8} (hc : c ≠ '+') (v : List UInt8) :
    DotNext (c :: v) ↔ c = '.' ∨ c = '/' := by
  simp [DotNext, hc]

/-- What the state remembers of the bytes already read: a segment starts at a slash. -/
def UriState.lead : UriState → List UInt8
  | .afterSlash => ['/']
  | _ => []

/-- Without a question mark, the checks end at an escape, a fragment, or a segment that is empty
or starts with a dot. -/
theorem uriScan_rest_iff {p : ℕ} {σ : UriState} (hσ : σ ≠ .rest) {f : UriFields} {w : List UInt8}
    (hw : ('?' : UInt8) ∉ w) : (uriScan p (σ, f) w).1 = .rest ↔
      ('#' : UInt8) ∈ w ∨ ('%' : UInt8) ∈ w ∨ DotSegment (σ.lead ++ w) := by
  induction w generalizing p σ f with
  | nil =>
    cases σ with
    | rest => exact absurd rfl hσ
    | afterSlash => simp [uriScan, UriState.lead, dotSegment_cons, dotSegment_nil, DotNext]
    | check => simp [uriScan, UriState.lead, dotSegment_nil]
  | cons c w ih =>
    rw [List.mem_cons, not_or] at hw
    have hquery : c ≠ '?' := fun hc => hw.1 hc.symm
    rw [uriScan]
    by_cases hhash : c = '#'
    · have hrest : uriByte p c (σ, f) = (.rest, { f with complexUri := true }) := by
        rw [hhash]
        cases σ <;> rfl
      rw [hrest]
      exact iff_of_true (uriScan_rest ..).1 (Or.inl (by simp [hhash]))
    by_cases hescape : c = '%'
    · have hrest : uriByte p c (σ, f) = (.rest, { f with quotedUri := true }) := by
        rw [hescape]
        cases σ with
        | rest => exact absurd rfl hσ
        | _ => rfl
      rw [hrest]
      exact iff_of_true (uriScan_rest ..).1 (Or.inr (Or.inl (by simp [hescape])))
    simp only [List.mem_cons, Ne.symm hhash, Ne.symm hescape, false_or]
    cases σ with
    | rest => exact absurd rfl hσ
    | afterSlash =>
      simp only [UriState.lead, List.singleton_append, dotSegment_cons, true_and]
      by_cases hdot : c = '.' ∨ c = '/'
      · have hplus : c ≠ '+' := by
          rcases hdot with rfl | rfl <;> decide
        have hrest : uriByte p c (.afterSlash, f) = (.rest, { f with complexUri := true }) := by
          rcases hdot with rfl | rfl <;> rfl
        rw [hrest, dotNext_cons hplus]
        exact iff_of_true (uriScan_rest ..).1 (Or.inr (Or.inr (Or.inl hdot)))
      rw [not_or] at hdot
      by_cases hplus : c = '+'
      · rw [hplus, dotNext_plus]
        have hstay : uriByte p '+' (.afterSlash, f) = (.afterSlash, { f with plusInUri := true }) := rfl
        rw [hstay, ih (by decide) hw.2]
        simp [UriState.lead, dotSegment_cons, show ('+' : UInt8) ≠ '/' by decide]
      · obtain ⟨g, hcheck⟩ : ∃ g, uriByte p c (.afterSlash, f) = (.check, g) := by
          simp only [uriByte, hhash, hescape, hdot, hquery, hplus, or_self, if_false]
          split_ifs <;> exact ⟨_, rfl⟩
        rw [hcheck, ih (by decide) hw.2, dotNext_cons hplus]
        simp [UriState.lead, hdot]
    | check =>
      simp only [UriState.lead, List.nil_append, dotSegment_cons]
      by_cases hslash : c = '/'
      · have hafter : uriByte p c (.check, f) = (.afterSlash, { f with exten := strInit }) := by
          rw [hslash]
          rfl
        rw [hafter, ih (by decide) hw.2]
        simp [UriState.lead, dotSegment_cons, hslash]
      · obtain ⟨g, hcheck⟩ : ∃ g, uriByte p c (.check, f) = (.check, g) := by
          simp only [uriByte, hhash, hescape, hslash, hquery, if_false]
          split_ifs <;> exact ⟨_, rfl⟩
        rw [hcheck, ih (by decide) hw.2]
        simp [UriState.lead, hslash]

theorem uriByte_rest_flag {p : ℕ} {σ : UriState} {f : UriFields} {c : UInt8} (hσ : σ ≠ .rest)
    (hc : c ≠ '?') (h : (uriByte p c (σ, f)).1 = .rest) :
    (uriByte p c (σ, f)).2.complexUri = true ∨ (uriByte p c (σ, f)).2.quotedUri = true := by
  cases σ with
  | rest => exact absurd rfl hσ
  | afterSlash | check =>
    simp only [uriByte] at h ⊢
    split_ifs at h ⊢ <;> simp_all

theorem uriScan_rest_flag {p : ℕ} {σ : UriState} {f : UriFields} {w : List UInt8} (hσ : σ ≠ .rest)
    (hw : ('?' : UInt8) ∉ w) (h : (uriScan p (σ, f) w).1 = .rest) :
    (uriScan p (σ, f) w).2.complexUri = true ∨ (uriScan p (σ, f) w).2.quotedUri = true := by
  induction w generalizing p σ f with
  | nil => exact absurd h hσ
  | cons c w ih =>
    rw [List.mem_cons, not_or] at hw
    rw [uriScan] at h ⊢
    by_cases hrest : (uriByte p c (σ, f)).1 = .rest
    · have hle := uriScan_le (p + 1) (uriByte p c (σ, f)) w
      exact (uriByte_rest_flag hσ (Ne.symm hw.1) hrest).imp hle.complexUri hle.quotedUri
    · exact ih hrest hw.2 h

/-! ## Flags -/

def pathPart (uri : List UInt8) : List UInt8 := uri.takeWhile (· ≠ ('?' : UInt8))

theorem not_mem_pathPart (uri : List UInt8) : ('?' : UInt8) ∉ pathPart uri := by
  intro h
  simpa using List.mem_takeWhile_imp h

theorem pathPart_slash (u : List UInt8) :
    pathPart (('/' : UInt8) :: u) = ('/' : UInt8) :: pathPart u := rfl

theorem dotSegment_of_pair {c : UInt8} (hc : c = '.' ∨ c = '/') {path : List UInt8}
    (h : [('/' : UInt8), c] <:+: path) : DotSegment path := by
  obtain ⟨a, b, rfl⟩ := h
  refine ⟨('/' : UInt8) :: c :: b, by simp, rfl, ?_⟩
  have hplus : c ≠ '+' := by
    rcases hc with rfl | rfl <;> decide
  exact (dotNext_cons hplus b).mpr hc

theorem uriScan_pathPart (p : ℕ) (x : UriState × UriFields) (u : List UInt8) :
    uriScan p x u = uriScan (p + (pathPart u).length) (uriScan p x (pathPart u))
      (u.dropWhile (· ≠ ('?' : UInt8))) := by
  rw [← uriScan_append, pathPart, List.takeWhile_append_dropWhile]

theorem uriScan_pathPart_ne_rest {p : ℕ} {f : UriFields} {u : List UInt8}
    (hcomplex : (uriScan p (.afterSlash, f) u).2.complexUri = false)
    (hquoted : (uriScan p (.afterSlash, f) u).2.quotedUri = false) :
    (uriScan p (.afterSlash, f) (pathPart u)).1 ≠ .rest := by
  intro hrest
  rw [uriScan_pathPart] at hcomplex hquoted
  have hle := uriScan_le (p + (pathPart u).length) (uriScan p (.afterSlash, f) (pathPart u))
    (u.dropWhile (· ≠ ('?' : UInt8)))
  rcases uriScan_rest_flag (by decide) (not_mem_pathPart u) hrest with hset | hset
  · exact Bool.false_ne_true (hcomplex.symm.trans (hle.complexUri hset))
  · exact Bool.false_ne_true (hquoted.symm.trans (hle.quotedUri hset))

variable {r₀ r r' : HttpRequest} {b b' : Buffer}

/-- The flags of a complete request line are sound: with neither `complex_uri` nor `quoted_uri`
the path has no escape, no fragment, no empty segment and none that starts with a dot, and without
`space_in_uri` the URI has no space. -/
theorem uri_flags_sound (h : LineCalls r₀ r b) (hp : httpParseRequestLine r b = (0, r', b')) :
    (r'.complexUri = false → r'.quotedUri = false →
      ('%' : UInt8) ∉ pathPart (r'.uri.get b'.data) ∧ ('#' : UInt8) ∉ r'.uri.get b'.data ∧
      ¬bytes "//" <:+: pathPart (r'.uri.get b'.data) ∧
      ¬bytes "/." <:+: pathPart (r'.uri.get b'.data)) ∧
    (r'.spaceInUri = false → (' ' : UInt8) ∉ r'.uri.get b'.data) := by
  obtain ⟨q, u, -, hget, hfields⟩ := h.uri hp
  rw [hget, pathPart_slash]
  constructor
  · intro hcomplex hquoted
    have hcomplex' := (congrArg UriFields.complexUri hfields).symm.trans hcomplex
    have hquoted' := (congrArg UriFields.quotedUri hfields).symm.trans hquoted
    have hchecked := uriScan_pathPart_ne_rest hcomplex' hquoted'
    rw [Ne, uriScan_rest_iff (by decide) (not_mem_pathPart u), not_or, not_or] at hchecked
    obtain ⟨-, hescape, hdots⟩ := hchecked
    refine ⟨?_, ?_, fun hin => hdots (dotSegment_of_pair (Or.inr rfl) hin),
      fun hin => hdots (dotSegment_of_pair (Or.inl rfl) hin)⟩
    · rw [List.mem_cons, not_or]
      exact ⟨by decide, hescape⟩
    · rw [List.mem_cons, not_or]
      refine ⟨by decide, fun hhash => ?_⟩
      exact Bool.false_ne_true (hcomplex'.symm.trans (uriScan_hash hhash))
  · intro hspace
    have hspace' := (congrArg UriFields.spaceInUri hfields).symm.trans hspace
    rw [List.mem_cons, not_or]
    refine ⟨by decide, fun hin => ?_⟩
    exact Bool.false_ne_true (hspace'.symm.trans (uriScan_space hin))

def parsedRequest (line : String) : ℤ × HttpRequest × Buffer :=
  httpParseRequestLine default ⟨bytes line, [], 0⟩

theorem lineCalls_start (line : String) : LineCalls default default ⟨bytes line, [], 0⟩ :=
  LineCalls.start rfl (Nat.zero_le _)

theorem uri_flags_sound_plain :
    (parsedRequest "GET /a.b?c%d HTTP/1.1\r\n").1 = 0 ∧
      ('%' : UInt8) ∉ pathPart ((parsedRequest "GET /a.b?c%d HTTP/1.1\r\n").2.1.uri.get
        (parsedRequest "GET /a.b?c%d HTTP/1.1\r\n").2.2.data) :=
  have hzero : (parsedRequest "GET /a.b?c%d HTTP/1.1\r\n").1 = 0 := by decide +kernel
  ⟨hzero, ((uri_flags_sound (lineCalls_start "GET /a.b?c%d HTTP/1.1\r\n")
    (Prod.ext hzero rfl : parsedRequest "GET /a.b?c%d HTTP/1.1\r\n" = (0, _, _))).1
    (by decide +kernel) (by decide +kernel)).1⟩

/-! ## The query string -/

theorem uriByte_args {p : ℕ} {c : UInt8} (hc : c ≠ '?') (x : UriState × UriFields) :
    (uriByte p c x).2.args = x.2.args := by
  obtain ⟨σ, f⟩ := x
  cases σ <;> simp only [uriByte, hc, if_false] <;> split_ifs <;> rfl

theorem uriScan_args_of_not_mem {p : ℕ} {w : List UInt8} (hw : ('?' : UInt8) ∉ w)
    (x : UriState × UriFields) : (uriScan p x w).2.args = x.2.args := by
  induction w generalizing p x with
  | nil => rfl
  | cons c w ih =>
    rw [List.mem_cons, not_or] at hw
    rw [uriScan, ih hw.2, uriByte_args (Ne.symm hw.1)]

theorem uriByte_query {p : ℕ} {σ : UriState} (hσ : σ ≠ .rest) (f : UriFields) :
    uriByte p '?' (σ, f) = (.rest, { f with args := some (p + 1) }) := by
  cases σ with
  | rest => exact absurd rfl hσ
  | _ => rfl

theorem dropWhile_query {u : List UInt8} (h : ('?' : UInt8) ∈ u) :
    ∃ t, u.dropWhile (· ≠ ('?' : UInt8)) = ('?' : UInt8) :: t := by
  induction u with
  | nil => simp at h
  | cons c u ih =>
    by_cases hc : c = '?'
    · exact ⟨u, by simp [hc]⟩
    · obtain ⟨t, ht⟩ := ih ((List.mem_cons.mp h).resolve_left (Ne.symm hc))
      exact ⟨t, by simpa [hc] using ht⟩

theorem dropWhile_query_nil {u : List UInt8} (h : ('?' : UInt8) ∉ u) :
    u.dropWhile (· ≠ ('?' : UInt8)) = [] := by
  rw [List.dropWhile_eq_nil_iff]
  intro c hc
  simpa using fun hcq : c = '?' => h (hcq ▸ hc)

theorem length_pathPart_lt {u : List UInt8} (h : ('?' : UInt8) ∈ u) :
    (pathPart u).length < u.length := by
  obtain ⟨t, ht⟩ := dropWhile_query h
  have hlen := congrArg List.length
    (List.takeWhile_append_dropWhile (p := (· ≠ ('?' : UInt8))) (l := u))
  rw [ht, List.length_append, List.length_cons] at hlen
  rw [pathPart]
  omega

theorem pathPart_of_not_mem {u : List UInt8} (h : ('?' : UInt8) ∉ u) : pathPart u = u := by
  have happend := List.takeWhile_append_dropWhile (p := (· ≠ ('?' : UInt8))) (l := u)
  rwa [dropWhile_query_nil h, List.append_nil] at happend

/-- Behind a path that passed the checks, a question mark sets `args` and nothing sets `exten`. -/
theorem uriScan_checked {p : ℕ} {x : UriState × UriFields} {u : List UInt8}
    (hcheck : (uriScan p x (pathPart u)).1 ≠ .rest) :
    (uriScan p x u).2.exten = (uriScan p x (pathPart u)).2.exten ∧
      (uriScan p x u).2.args = if ('?' : UInt8) ∈ u then some (p + (pathPart u).length + 1)
        else (uriScan p x (pathPart u)).2.args := by
  rw [uriScan_pathPart]
  generalize uriScan p x (pathPart u) = y at hcheck ⊢
  obtain ⟨σ, g⟩ := y
  by_cases hquery : ('?' : UInt8) ∈ u
  · obtain ⟨t, ht⟩ := dropWhile_query hquery
    rw [ht, uriScan, uriByte_query hcheck, if_pos hquery]
    exact ⟨(uriScan_rest ..).2.2, (uriScan_rest ..).2.1⟩
  · rw [dropWhile_query_nil hquery, if_neg hquery]
    exact ⟨rfl, rfl⟩

theorem uriScan_args (p : ℕ) (f : UriFields) (u : List UInt8) :
    (uriScan p (.afterSlash, f) u).2.args =
      if ('?' : UInt8) ∈ u ∧ (uriScan p (.afterSlash, f) (pathPart u)).1 ≠ .rest then
        some (p + (pathPart u).length + 1)
      else f.args := by
  have hpath := uriScan_args_of_not_mem (p := p) (not_mem_pathPart u) (.afterSlash, f)
  by_cases hcheck : (uriScan p (.afterSlash, f) (pathPart u)).1 = .rest
  · rw [if_neg fun h => h.2 hcheck, ← hpath, uriScan_pathPart]
    generalize uriScan p (.afterSlash, f) (pathPart u) = y at hcheck ⊢
    obtain ⟨σ, g⟩ := y
    obtain rfl : σ = .rest := hcheck
    exact (uriScan_rest ..).2.1
  · rw [(uriScan_checked hcheck).2, hpath]
    simp only [ne_eq, hcheck, not_false_eq_true, and_true]

/-- Where the query string of a URI at `uri` with these bytes starts. -/
def queryStart (uri : Str) (text : List UInt8) : Ptr :=
  if ('?' : UInt8) ∈ text ∧ ('#' : UInt8) ∉ pathPart text then
    uri.p.map (· + (pathPart text).length + 1)
  else none

/-- A question mark, with no fragment before it, behind a path that ended the checks. -/
def HiddenQuery (text : List UInt8) : Prop :=
  ('?' : UInt8) ∈ text ∧ ('#' : UInt8) ∉ pathPart text ∧
    (('%' : UInt8) ∈ pathPart text ∨ DotSegment (pathPart text))

instance decidableHiddenQuery (text : List UInt8) : Decidable (HiddenQuery text) :=
  inferInstanceAs (Decidable (_ ∧ _ ∧ _))

/-- The query string of a complete request line is found exactly if no escape, empty segment or
leading dot in the path hides it. -/
theorem query_located_iff (h : LineCalls r₀ r b) (hp : httpParseRequestLine r b = (0, r', b'))
    (hargs : r₀.args = none) :
    r'.args = queryStart r'.uri (r'.uri.get b'.data) ↔ ¬HiddenQuery (r'.uri.get b'.data) := by
  obtain ⟨q, u, huri, hget, hfields⟩ := h.uri hp
  have hscan := uriScan_args (q + 1) r₀.uriFields u
  simp only [ne_eq, uriScan_rest_iff (show UriState.afterSlash ≠ .rest by decide)
    (not_mem_pathPart u)] at hscan
  have hfound : r'.args = _ := (congrArg UriFields.args hfields).trans hscan
  have hposition : q + 1 + (pathPart u).length + 1 = q + ((pathPart u).length + 1) + 1 := by omega
  have hargs' : r₀.uriFields.args = none := hargs
  rw [hget, hfound, queryStart, HiddenQuery, pathPart_slash, huri]
  simp only [List.mem_cons, show ('?' : UInt8) ≠ '/' by decide, show ('#' : UInt8) ≠ '/' by decide,
    show ('%' : UInt8) ≠ '/' by decide, false_or, List.length_cons, Option.map_some, hposition,
    hargs']
  by_cases hquery : ('?' : UInt8) ∈ u <;> by_cases hhash : ('#' : UInt8) ∈ pathPart u <;>
    simp [hquery, hhash, UriState.lead]

theorem query_located_plain :
    (parsedRequest "GET /a?x=1 HTTP/1.1\r\n").1 = 0 ∧
      (parsedRequest "GET /a?x=1 HTTP/1.1\r\n").2.1.args =
        queryStart (parsedRequest "GET /a?x=1 HTTP/1.1\r\n").2.1.uri (bytes "/a?x=1") := by
  have hzero : (parsedRequest "GET /a?x=1 HTTP/1.1\r\n").1 = 0 := by decide +kernel
  have hfound := (query_located_iff (lineCalls_start "GET /a?x=1 HTTP/1.1\r\n")
    (Prod.ext hzero rfl : parsedRequest "GET /a?x=1 HTTP/1.1\r\n" = (0, _, _)) rfl).mpr
    (by decide +kernel)
  exact ⟨hzero, hfound.trans (by decide +kernel)⟩

/-- The escape in `/%41?x=1` hides its query string. -/
theorem query_hidden_by_escape :
    (parsedRequest "GET /%41?x=1 HTTP/1.1\r\n").1 = 0 ∧
    (parsedRequest "GET /%41?x=1 HTTP/1.1\r\n").2.1.uri.get
      (parsedRequest "GET /%41?x=1 HTTP/1.1\r\n").2.2.data = bytes "/%41?x=1" ∧
    queryStart (parsedRequest "GET /%41?x=1 HTTP/1.1\r\n").2.1.uri (bytes "/%41?x=1") = some 9 ∧
    (parsedRequest "GET /%41?x=1 HTTP/1.1\r\n").2.1.args = none := by
  decide +kernel

/-! ## The extension -/

def lastSegment (path : List UInt8) : List UInt8 := path.rtakeWhile (· ≠ ('/' : UInt8))

/-- The part of a path behind its last dot, if this is in its last segment. -/
def extension (path : List UInt8) : List UInt8 :=
  if ('.' : UInt8) ∈ lastSegment path then path.rtakeWhile (· ≠ ('.' : UInt8)) else []

/-- Where the extension of a path at `q` starts. -/
def extenStart (q : ℕ) (path : List UInt8) : Ptr :=
  if ('.' : UInt8) ∈ lastSegment path then some (q + (path.length - (extension path).length)) else none

theorem extension_suffix (path : List UInt8) : extension path <:+ path := by
  unfold extension
  split_ifs
  · exact List.rtakeWhile_suffix _ _
  · exact List.nil_suffix

theorem extenStart_of_append (q : ℕ) {a path : List UInt8} (hdot : ('.' : UInt8) ∈ lastSegment path)
    (h : a ++ extension path = path) : extenStart q path = some (q + a.length) := by
  have hlen := congrArg List.length h
  rw [List.length_append] at hlen
  rw [extenStart, if_pos hdot, ← hlen, Nat.add_sub_cancel]

section Concat

variable (q : ℕ) (path : List UInt8)

theorem extenStart_slash : extenStart q (path ++ [('/' : UInt8)]) = none := by
  simp [extenStart, lastSegment]

theorem extenStart_dot : extenStart q (path ++ [('.' : UInt8)]) = some (q + (path.length + 1)) := by
  have hslash : ('.' : UInt8) ≠ '/' := by decide
  simp [extenStart, extension, lastSegment, hslash]

theorem extenStart_concat {c : UInt8} (hslash : c ≠ '/') (hdot : c ≠ '.') :
    extenStart q (path ++ [c]) = extenStart q path := by
  have hmem : ('.' : UInt8) ∈ lastSegment (path ++ [c]) ↔ ('.' : UInt8) ∈ lastSegment path := by
    simp [lastSegment, hslash, Ne.symm hdot]
  simp only [extenStart, extension, hmem]
  split_ifs
  · simp [hdot]
  · rfl

end Concat

theorem uriByte_exten {p : ℕ} {c : UInt8} (hslash : c ≠ '/') (hdot : c ≠ '.')
    (x : UriState × UriFields) : (uriByte p c x).2.exten = x.2.exten := by
  obtain ⟨σ, f⟩ := x
  cases σ <;> simp only [uriByte, hslash, hdot, if_false] <;> split_ifs <;> rfl

/-- As long as the checks go on, `exten` points behind the last dot of the last segment. -/
theorem uriScan_exten {q : ℕ} {f : UriFields} {w : List UInt8} (hexten : f.exten = strInit)
    (hcheck : (uriScan (q + 1) (.afterSlash, f) w).1 ≠ .rest) :
    (uriScan (q + 1) (.afterSlash, f) w).2.exten = ⟨extenStart q (('/' : UInt8) :: w), 0⟩ := by
  induction w using List.reverseRecOn with
  | nil => exact hexten
  | append_singleton w c ih =>
    rw [uriScan_concat] at hcheck ⊢
    generalize uriScan (q + 1) (.afterSlash, f) w = x at hcheck ih ⊢
    obtain ⟨σ, g⟩ := x
    have hσ : σ ≠ .rest := by
      rintro rfl
      exact hcheck (uriByte_rest ..).1
    rw [← List.cons_append]
    by_cases hslash : c = '/'
    · subst hslash
      rw [extenStart_slash]
      cases σ with
      | rest => exact absurd rfl hσ
      | afterSlash => exact absurd rfl hcheck
      | check => rfl
    by_cases hdot : c = '.'
    · subst hdot
      rw [extenStart_dot, List.length_cons]
      cases σ with
      | rest => exact absurd rfl hσ
      | afterSlash => exact absurd rfl hcheck
      | check =>
        have hlen : g.exten.len = 0 := congrArg Str.len (ih hσ)
        change (⟨some (q + 1 + w.length + 1), g.exten.len⟩ : Str) = _
        rw [hlen, show q + 1 + w.length + 1 = q + (w.length + 1 + 1) by omega]
    · rw [uriByte_exten hslash hdot, extenStart_concat q _ hslash hdot]
      exact ih hσ

/-- Where the extension of a URI at `uri` with this path lies. -/
def extenSpan (uri : Str) (path : List UInt8) : Str :=
  ⟨uri.p.bind (extenStart · path), (extension path).length⟩

/-- A question mark behind a path with an extension. -/
def QueryBehindExtension (text : List UInt8) : Prop :=
  ('?' : UInt8) ∈ text ∧ ('.' : UInt8) ∈ lastSegment (pathPart text)

instance decidableQueryBehindExtension (text : List UInt8) :
    Decidable (QueryBehindExtension text) := inferInstanceAs (Decidable (_ ∧ _))

/-- In a complete request line whose path passed the checks, `exten` is the extension of the path
exactly if no query string stands behind it. -/
theorem exten_exact_iff (h : LineCalls r₀ r b) (hp : httpParseRequestLine r b = (0, r', b'))
    (hexten : r₀.exten = strInit) (hcomplex : r'.complexUri = false)
    (hquoted : r'.quotedUri = false) :
    (r'.exten = extenSpan r'.uri (pathPart (r'.uri.get b'.data)) ∧
      r'.exten.get b'.data = extension (pathPart (r'.uri.get b'.data))) ↔
      ¬QueryBehindExtension (r'.uri.get b'.data) := by
  obtain ⟨q, u, huri, hget, hfields⟩ := h.uri hp
  have hcheck := uriScan_pathPart_ne_rest
    ((congrArg UriFields.complexUri hfields).symm.trans hcomplex)
    ((congrArg UriFields.quotedUri hfields).symm.trans hquoted)
  have hscan : (uriScan (q + 1) (.afterSlash, r₀.uriFields) u).2.exten =
      ⟨extenStart q (('/' : UInt8) :: pathPart u), 0⟩ :=
    (uriScan_checked hcheck).1.trans (uriScan_exten hexten hcheck)
  have hfound : r'.exten = _ := congrArg UriFields.exten hfields
  simp only [UriFields.close, hscan] at hfound
  rw [hget, hfound, huri, pathPart_slash, extenSpan, QueryBehindExtension, pathPart_slash,
    Option.bind_some]
  generalize hpath : ('/' : UInt8) :: pathPart u = path at *
  by_cases hdot : ('.' : UInt8) ∈ lastSegment path
  · obtain ⟨a, ha⟩ := extension_suffix path
    have hstart := extenStart_of_append q hdot ha
    have hlen : a.length + (extension path).length = (pathPart u).length + 1 := by
      rw [← List.length_append, ha, ← hpath, List.length_cons]
    have hquerylen : (pathPart u).length ≤ u.length := (List.takeWhile_prefix _).length_le
    simp only [hstart, Option.isSome_some, if_true]
    rw [ptrSub_some_of_le (by omega)]
    by_cases hquery : ('?' : UInt8) ∈ u
    · -- the span runs over the question mark
      refine iff_of_false (fun hspan => ?_) (fun hno => hno ⟨List.mem_cons_of_mem _ hquery, hdot⟩)
      have hspanlen := congrArg Str.len hspan.1
      have hlt := length_pathPart_lt hquery
      simp only at hspanlen
      omega
    · rw [pathPart_of_not_mem hquery] at hlen hpath
      have hspanlen : q + (u.length + 1) - (q + a.length) = (extension path).length := by omega
      refine iff_of_true ⟨by rw [hspanlen], ?_⟩ (fun hno => ?_)
      · rw [hspanlen]
        rw [huri, hpath] at hget
        have hdata := (List.take_append_drop (u.length + 1) (b'.data.drop q)).symm
        rw [show (b'.data.drop q).take (u.length + 1) = path from hget, ← ha,
          List.append_assoc] at hdata
        exact Str.get_of_drop hdata
      · rcases List.mem_cons.mp hno.1 with hslash | hmem
        · exact absurd hslash (by decide)
        · exact hquery hmem
  · have hnone : extenStart q path = none := if_neg hdot
    have hnil : extension path = [] := if_neg hdot
    simp [hnone, hnil, hdot, Str.get]

theorem exten_exact_plain :
    (parsedRequest "GET /a.b/c.d.html HTTP/1.1\r\n").1 = 0 ∧
      (parsedRequest "GET /a.b/c.d.html HTTP/1.1\r\n").2.1.exten.get
        (parsedRequest "GET /a.b/c.d.html HTTP/1.1\r\n").2.2.data = bytes "html" := by
  have hzero : (parsedRequest "GET /a.b/c.d.html HTTP/1.1\r\n").1 = 0 := by decide +kernel
  have hexact := ((exten_exact_iff (lineCalls_start "GET /a.b/c.d.html HTTP/1.1\r\n")
    (Prod.ext hzero rfl : parsedRequest "GET /a.b/c.d.html HTTP/1.1\r\n" = (0, _, _)) rfl
    (by decide +kernel) (by decide +kernel)).mpr (by decide +kernel)).2
  exact ⟨hzero, hexact.trans (by decide +kernel)⟩

/-- The extension of `/a.html?x=1` takes its query string along. -/
theorem exten_with_query :
    (parsedRequest "GET /a.html?x=1 HTTP/1.1\r\n").1 = 0 ∧
    (parsedRequest "GET /a.html?x=1 HTTP/1.1\r\n").2.1.uri.get
      (parsedRequest "GET /a.html?x=1 HTTP/1.1\r\n").2.2.data = bytes "/a.html?x=1" ∧
    (parsedRequest "GET /a.html?x=1 HTTP/1.1\r\n").2.1.complexUri = false ∧
    (parsedRequest "GET /a.html?x=1 HTTP/1.1\r\n").2.1.quotedUri = false ∧
    (parsedRequest "GET /a.html?x=1 HTTP/1.1\r\n").2.1.spaceInUri = false ∧
    extension (pathPart (bytes "/a.html?x=1")) = bytes "html" ∧
    (parsedRequest "GET /a.html?x=1 HTTP/1.1\r\n").2.1.exten.get
      (parsedRequest "GET /a.html?x=1 HTTP/1.1\r\n").2.2.data = bytes "html?x=1" := by
  decide +kernel

end Cserv.Http
