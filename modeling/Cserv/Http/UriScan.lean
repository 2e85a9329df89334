import Cserv.Http.LineStates
import Cserv.Http.Process

/-!
# What the request-line parser notes about a URI

Beside its place, the parser keeps four flags of the URI, the start of its query string and
the file extension of its path. They are a function of the bytes of the URI: a scan with three
states, to which the states of the parser, and the bytes it gives back behind spaces, are
reduced. The description holds at every byte of a line, so that it does not matter how many
calls the line takes.
-/
namespace Cserv.Http

open Foundations

/-! ## The scan -/

structure UriFields where
  complexUri : Bool
  quotedUri : Bool
  plusInUri : Bool
  spaceInUri : Bool
  args : Ptr
  exten : Str
  deriving DecidableEq, Repr

def HttpRequest.uriFields (r : HttpRequest) : UriFields :=
  ⟨r.complexUri, r.quotedUri, r.plusInUri, r.spaceInUri, r.args, r.exten⟩

/-- Behind a slash, in a segment of the path, or behind a byte that ends the checks. -/
inductive UriState
  | afterSlash | check | rest
  deriving DecidableEq, Repr

/-- A byte of the URI at `p`. A space takes part like any other byte. -/
def uriByte (p : ℕ) (ch : UInt8) : UriState × UriFields → UriState × UriFields
  | (.afterSlash, f) =>
    if ch = ' ' then (.check, { f with spaceInUri := true })
    else if ch = '.' ∨ ch = '/' ∨ ch = '#' then (.rest, { f with complexUri := true })
    else if ch = '%' then (.rest, { f with quotedUri := true })
    else if ch = '?' then (.rest, { f with args := some (p + 1) })
    else if ch = '+' then (.afterSlash, { f with plusInUri := true })
    else (.check, f)
  | (.check, f) =>
    if ch = ' ' then (.check, { f with spaceInUri := true })
    else if ch = '/' then (.afterSlash, { f with exten := strInit })
    else if ch = '.' then (.check, { f with exten.p := some (p + 1) })
    else if ch = '%' then (.rest, { f with quotedUri := true })
    else if ch = '?' then (.rest, { f with args := some (p + 1) })
    else if ch = '#' then (.rest, { f with complexUri := true })
    else if ch = '+' then (.check, { f with plusInUri := true })
    else (.check, f)
  | (.rest, f) =>
    if ch = ' ' then (.rest, { f with spaceInUri := true })
    else if ch = '#' then (.rest, { f with complexUri := true })
    else (.rest, f)

def uriScan (p : ℕ) (x : UriState × UriFields) : List UInt8 → UriState × UriFields
  | [] => x
  | ch :: u => uriScan (p + 1) (uriByte p ch x) u

theorem uriScan_append (p : ℕ) (x : UriState × UriFields) (u v : List UInt8) :
    uriScan p x (u ++ v) = uriScan (p + u.length) (uriScan p x u) v := by
  induction u generalizing p x with
  | nil => rfl
  | cons ch u ih =>
    rw [List.cons_append, uriScan, uriScan, ih, List.length_cons, Nat.add_assoc, Nat.add_comm 1]

theorem uriScan_concat (p : ℕ) (x : UriState × UriFields) (u : List UInt8) (ch : UInt8) :
    uriScan p x (u ++ [ch]) = uriByte (p + u.length) ch (uriScan p x u) :=
  uriScan_append p x u [ch]

/-- The assignment to `exten.len` at the label `done`, for a URI that ends at `e`. -/
def UriFields.close (f : UriFields) (e : ℕ) : UriFields :=
  { f with exten.len := if f.exten.p.isSome then ptrSub e f.exten.p else f.exten.len }

/-! ## The states of the parser -/

/-- The state of the parser inside the URI. -/
def UriState.line : UriState → LineState
  | .afterSlash => .afterSlashInUri
  | .check => .checkUri
  | .rest => .uri

/-- The state of the parser behind spaces, and the one it gives the next byte back to. -/
def UriState.lineSpaces : UriState → LineState
  | .afterSlash | .check => .checkUriHttp09
  | .rest => .http09

def UriState.behindSpaces : UriState → UriState
  | .afterSlash | .check => .check
  | .rest => .rest

theorem uriScan_spaces (p : ℕ) (σ : UriState) (f : UriFields) (n : ℕ) :
    uriScan p (σ, f) (spaces (n + 1)) = (σ.behindSpaces, { f with spaceInUri := true }) := by
  induction n generalizing p σ f with
  | zero => cases σ <;> rfl
  | succ n ih =>
    have hcons : spaces (n + 1 + 1) = (' ' : UInt8) :: spaces (n + 1) := rfl
    rw [hcons, uriScan]
    cases σ <;> exact ih _ _ _

/-- The bytes of a URI that change more than the state. -/
def uriSpecials : List UInt8 := ['.', '/', '%', '?', '#', '+']

theorem UriState.lineStep_space (mem : List UInt8) (p : ℕ) (σ : UriState) (r : HttpRequest) :
    lineStep mem p ' ' (σ.line, r) =
      .next (σ.lineSpaces, { r with uri.len := ptrSub p r.uri.p }) := by
  cases σ <;> rfl

theorem lineStep_uriByte (mem : List UInt8) (p : ℕ) {ch : UInt8} (σ : UriState) (r : HttpRequest)
    (hsp : ch ≠ ' ') (hcr : ch ≠ CR) (hlf : ch ≠ LF) (hnul : ch ≠ '\x00') :
    ∃ r', lineStep mem p ch (σ.line, r) = .next ((uriByte p ch (σ, r.uriFields)).1.line, r') ∧
      r'.uriFields = (uriByte p ch (σ, r.uriFields)).2 ∧ r'.uri = r.uri ∧ r'.method = r.method := by
  by_cases hspecial : ch ∈ uriSpecials
  · simp only [uriSpecials, List.mem_cons, List.not_mem_nil, or_false] at hspecial
    rcases hspecial with rfl | rfl | rfl | rfl | rfl | rfl <;> cases σ <;>
      exact ⟨_, rfl, rfl, rfl, rfl⟩
  · simp only [uriSpecials, List.mem_cons, List.not_mem_nil, or_false, not_or] at hspecial
    obtain ⟨h₁, h₂, h₃, h₄, h₅, h₆⟩ := hspecial
    cases husual : isUsual ch <;> cases σ <;>
      simp [lineStep, UriState.line, stepAfterSlashInUri, stepCheckUri, stepUri, lineNext,
        uriByte, husual, hsp, hcr, hlf, hnul, h₁, h₂, h₃, h₄, h₅, h₆]

/-! ## A line at every byte -/

/-- The path has been read: `f₀` is what was kept before the line. -/
def PathRead (f₀ : UriFields) (seen : List UInt8) (r : HttpRequest) : Prop :=
  ∃ q u, r.uri = ⟨some q, u.length + 1⟩ ∧ ('/' : UInt8) :: u <+: seen.drop q ∧
    r.uriFields = (uriScan (q + 1) (.afterSlash, f₀) u).2

/-- The bytes from the first slash on are all read as part of the path. -/
def InPath (f₀ : UriFields) (seen : List UInt8) (st : LineState) (r : HttpRequest) : Prop :=
  ∃ q u σ, r.uri.p = some q ∧ seen.drop q = ('/' : UInt8) :: u ∧ σ.line = st ∧
    uriScan (q + 1) (.afterSlash, f₀) u = (σ, r.uriFields)

/-- The same with spaces behind the path, which may turn out to be part of it. -/
def BehindPath (f₀ : UriFields) (seen : List UInt8) (st : LineState) (r : HttpRequest) : Prop :=
  ∃ q u n σ, r.uri = ⟨some q, u.length + 1⟩ ∧
    seen.drop q = ('/' : UInt8) :: (u ++ spaces (n + 1)) ∧ σ.lineSpaces = st ∧
    uriScan (q + 1) (.afterSlash, f₀) u = (σ, r.uriFields)

def schemaSlashPos (r : HttpRequest) : Ptr := r.schema.p.map (· + r.schema.len + 1)

/-- What the parser has kept after the bytes `seen` of the buffer. -/
def LineRead (f₀ : UriFields) (seen : List UInt8) (s : LineState × HttpRequest) : Prop :=
  match s.1 with
  | .start | .method | .spacesBeforeUri => s.2.uriFields = f₀
  | .schema => s.2.uriFields = f₀ ∧ ∃ q ≤ seen.length, s.2.schema.p = some q
  | .schemaSlash => s.2.uriFields = f₀ ∧ schemaSlashPos s.2 = some seen.length
  | .schemaSlashSlash | .hostStart | .host | .hostEnd | .hostIpLiteral | .port =>
    s.2.uriFields = f₀ ∧ ∃ q, schemaSlashPos s.2 = some q ∧ seen[q]? = some ('/' : UInt8)
  | .afterSlashInUri | .checkUri | .uri => InPath f₀ seen s.1 s.2
  | .checkUriHttp09 | .http09 => BehindPath f₀ seen s.1 s.2
  | _ => PathRead f₀ seen s.2

def LineEnd (f₀ : UriFields) (seen : List UInt8) : LineStop → Prop
  | .done r => PathRead f₀ seen r
  | .fail _ _ => True

section Step

variable {f₀ : UriFields} {seen mem : List UInt8} {ch : UInt8} {st : LineState} {r r' : HttpRequest}

theorem PathRead.concat (h : PathRead f₀ seen r) (huri : r'.uri = r.uri)
    (hfields : r'.uriFields = r.uriFields) : PathRead f₀ (seen ++ [ch]) r' := by
  obtain ⟨q, u, hq, hpre, hscan⟩ := h
  refine ⟨q, u, huri.trans hq, ?_, hfields.trans hscan⟩
  exact hpre.trans ((List.prefix_append ..).drop q)

theorem inPath_slash (hp : r.uri.p = some seen.length) (hfields : r.uriFields = f₀) :
    InPath f₀ (seen ++ [('/' : UInt8)]) .afterSlashInUri r := by
  refine ⟨seen.length, [], .afterSlash, hp, List.drop_left, rfl, ?_⟩
  rw [hfields]
  rfl

theorem pathRead_noPath {q : ℕ} (huri : r.uri = ⟨schemaSlashPos r', 1⟩)
    (hq : schemaSlashPos r' = some q) (hslash : seen[q]? = some ('/' : UInt8))
    (hfields : r.uriFields = f₀) : PathRead f₀ (seen ++ [ch]) r := by
  refine ⟨q, [], by rw [huri, hq]; rfl, ?_, hfields⟩
  obtain ⟨hlt, hget⟩ := List.getElem?_eq_some_iff.mp hslash
  rw [List.drop_append_of_le_length hlt.le, List.drop_eq_getElem_cons hlt, hget]
  exact List.prefix_append_of_prefix (List.cons_prefix_cons.mpr ⟨rfl, List.nil_prefix⟩)

theorem InPath.ends (h : InPath f₀ seen st r) (r' : HttpRequest)
    (huri : r'.uri = ⟨r.uri.p, ptrSub seen.length r.uri.p⟩)
    (hfields : r'.uriFields = r.uriFields) : ∃ q u σ, r'.uri = ⟨some q, u.length + 1⟩ ∧
      seen.drop q = ('/' : UInt8) :: u ∧ σ.line = st ∧
      uriScan (q + 1) (.afterSlash, f₀) u = (σ, r'.uriFields) := by
  obtain ⟨q, u, σ, hq, hdrop, hσ, hscan⟩ := h
  have hlen := congrArg List.length hdrop
  rw [List.length_drop, List.length_cons] at hlen
  refine ⟨q, u, σ, ?_, hdrop, hσ, hfields ▸ hscan⟩
  rw [huri, hq, ptrSub_some_of_le (by omega), hlen]

theorem InPath.read (h : InPath f₀ seen st r) (huri : r'.uri = ⟨r.uri.p, ptrSub seen.length r.uri.p⟩)
    (hfields : r'.uriFields = r.uriFields) : PathRead f₀ (seen ++ [ch]) r' := by
  obtain ⟨q, u, σ, hq, hdrop, -, hscan⟩ := h.ends r' huri hfields
  refine ⟨q, u, hq, ?_, by rw [hscan]⟩
  rw [← hdrop]
  exact (List.prefix_append ..).drop q

theorem UriState.line_injective : Function.Injective UriState.line := by
  intro σ τ h
  cases σ <;> cases τ <;> first | rfl | cases h

theorem UriState.line_inUri (σ : UriState) : σ.line.inUri = true := by
  cases σ <;> rfl

theorem UriState.lineRead (σ : UriState) : LineRead f₀ seen (σ.line, r) = InPath f₀ seen σ.line r := by
  cases σ <;> rfl

theorem UriState.lineRead_spaces (σ : UriState) :
    LineRead f₀ seen (σ.lineSpaces, r) = BehindPath f₀ seen σ.lineSpaces r := by
  cases σ <;> rfl

theorem InPath.step {σ : UriState} (h : InPath f₀ seen σ.line r) :
    (lineStep mem seen.length ch (σ.line, r)).All (LineRead f₀ (seen ++ [ch])) (LineRead f₀ seen)
      (LineEnd f₀ (seen ++ [ch])) := by
  by_cases hsp : ch = ' '
  · subst hsp
    obtain ⟨q, u, τ, hq, hdrop, hτ, hscan⟩ :=
      h.ends { r with uri.len := ptrSub seen.length r.uri.p } rfl rfl
    obtain rfl := UriState.line_injective hτ
    rw [UriState.lineStep_space]
    change LineRead _ _ _
    rw [UriState.lineRead_spaces]
    have hle : q ≤ seen.length := by
      by_contra hgt
      rw [List.drop_of_length_le (by omega)] at hdrop
      cases hdrop
    refine ⟨q, u, 0, τ, hq, ?_, rfl, hscan⟩
    rw [List.drop_append_of_le_length hle, hdrop]
    rfl
  by_cases hcr : ch = CR
  · subst hcr
    rw [lineStep_uri_cr σ.line_inUri]
    exact h.read rfl rfl
  by_cases hlf : ch = LF
  · subst hlf
    rw [lineStep_uri_lf σ.line_inUri]
    exact h.read rfl rfl
  by_cases hnul : ch = '\x00'
  · subst hnul
    obtain ⟨code, hstep⟩ := lineStep_uri_nul mem seen.length r σ.line_inUri
    rw [hstep]
    trivial
  · obtain ⟨q, u, τ, hq, hdrop, hτ, hscan⟩ := h
    obtain rfl := UriState.line_injective hτ
    obtain ⟨r', hstep, hfields, huri, -⟩ := lineStep_uriByte mem seen.length τ r hsp hcr hlf hnul
    have hlen := congrArg List.length hdrop
    rw [List.length_drop, List.length_cons] at hlen
    rw [hstep]
    change LineRead _ _ _
    rw [UriState.lineRead]
    refine ⟨q, u ++ [ch], _, huri ▸ hq, ?_, rfl, ?_⟩
    · rw [List.drop_append_of_le_length (by omega), hdrop]
      rfl
    · rw [uriScan_concat, hscan, hfields, show q + 1 + u.length = seen.length by omega]

theorem BehindPath.step {σ : UriState} (h : BehindPath f₀ seen σ.lineSpaces r) :
    (lineStep mem seen.length ch (σ.lineSpaces, r)).All (LineRead f₀ (seen ++ [ch]))
      (LineRead f₀ seen) (LineEnd f₀ (seen ++ [ch])) := by
  obtain ⟨q, u, n, τ, hq, hdrop, hτ, hscan⟩ := h
  have hread : PathRead f₀ seen r := by
    refine ⟨q, u, hq, ?_, by rw [hscan]⟩
    rw [hdrop]
    exact List.cons_prefix_cons.mpr ⟨rfl, List.prefix_append ..⟩
  have hle : q ≤ seen.length := by
    by_contra hgt
    rw [List.drop_of_length_le (by omega)] at hdrop
    cases hdrop
  have hstep : lineStep mem seen.length ch (σ.lineSpaces, r) =
      stepSpaces seen.length ch r σ.lineSpaces
        (.again (σ.behindSpaces.line, { r with spaceInUri := true })) := by
    cases σ <;> rfl
  rw [hstep]
  refine Verdict.All.ite (fun hsp => ?_) (fun _ => ?_)
  · change LineRead _ _ _
    rw [UriState.lineRead_spaces]
    refine ⟨q, u, n + 1, τ, hq, ?_, hτ, hscan⟩
    have hspaces : spaces (n + 1 + 1) = spaces (n + 1) ++ [(' ' : UInt8)] := List.replicate_succ'
    rw [List.drop_append_of_le_length hle, hdrop, hsp, hspaces, List.cons_append, List.append_assoc]
  repeat' refine Verdict.All.ite (fun _ => ?_) (fun _ => ?_)
  · exact hread.concat rfl rfl
  · exact hread.concat rfl rfl
  · exact hread.concat rfl rfl
  · change LineRead _ _ _
    rw [UriState.lineRead]
    have hback : σ.behindSpaces = τ.behindSpaces := by
      cases σ <;> cases τ <;> first | rfl | cases hτ
    refine ⟨q, u ++ spaces (n + 1), σ.behindSpaces, by rw [hq], hdrop, rfl, ?_⟩
    rw [uriScan_append, hscan, uriScan_spaces, hback]
    rfl

theorem lineStep_read (h : LineRead f₀ seen (st, r)) :
    (lineStep mem seen.length ch (st, r)).All (LineRead f₀ (seen ++ [ch])) (LineRead f₀ seen)
      (LineEnd f₀ (seen ++ [ch])) := by
  cases st with
  | start | method =>
    repeat' refine Verdict.All.ite (fun _ => ?_) (fun _ => ?_)
    all_goals first | exact h | trivial
  | spacesBeforeUri =>
    refine Verdict.All.ite (fun hch => ?_) (fun _ => ?_)
    · rw [hch]
      exact inPath_slash rfl h
    repeat' refine Verdict.All.ite (fun _ => ?_) (fun _ => ?_)
    · exact ⟨h, seen.length, by simp, rfl⟩
    all_goals first | exact h | trivial
  | schema =>
    obtain ⟨hfields, q, hle, hq⟩ := h
    refine Verdict.All.ite (fun _ => ?_) (fun _ => Verdict.All.ite (fun _ => ?_) (fun _ => trivial))
    · exact ⟨hfields, q, by simp; omega, hq⟩
    · refine ⟨hfields, ?_⟩
      dsimp only at hq
      simp only [schemaSlashPos, hq, ptrSub_some_of_le hle, Option.map_some, List.length_append,
        List.length_singleton]
      congr 1
      omega
  | schemaSlash =>
    refine Verdict.All.ite (fun hch => ?_) (fun _ => trivial)
    exact ⟨h.1, seen.length, h.2, by simp [hch]⟩
  | schemaSlashSlash | hostStart | host | hostEnd | hostIpLiteral | port =>
    obtain ⟨hfields, q, hq, hslash⟩ := h
    have hlt := (List.getElem?_eq_some_iff.mp hslash).1
    have hslash' : (seen ++ [ch])[q]? = some ('/' : UInt8) := by
      rw [List.getElem?_append_left hlt, hslash]
    repeat' refine Verdict.All.ite (fun hch => ?_) (fun _ => ?_)
    all_goals first
      | exact ⟨hfields, q, hq, hslash'⟩
      | exact pathRead_noPath rfl hq hslash hfields
      | trivial
      | (rw [hch]; exact inPath_slash rfl hfields)
  | afterSlashInUri => exact InPath.step (σ := .afterSlash) h
  | checkUri => exact InPath.step (σ := .check) h
  | uri => exact InPath.step (σ := .rest) h
  | checkUriHttp09 => exact BehindPath.step (σ := .check) h
  | http09 => exact BehindPath.step (σ := .rest) h
  | _ =>
    repeat' refine Verdict.All.ite (fun _ => ?_) (fun _ => ?_)
    all_goals first | exact PathRead.concat h rfl rfl | trivial

end Step

theorem lineRun_read {f₀ : UriFields} {mem : List UInt8} {p : ℕ} {s : LineState × HttpRequest}
    (hp : p ≤ mem.length) (h : LineRead f₀ (mem.take p) s) :
    ((lineScanner mem).run p s (mem.drop p)).All (LineRead f₀ mem)
      (fun q out => LineEnd f₀ (mem.take (q + 1)) out) := by
  have hrun := (lineScanner mem).run_inv (fun q s => LineRead f₀ (mem.take q) s)
    (fun q out => LineEnd f₀ (mem.take (q + 1)) out) (mem.drop p) (p := p) (s := s) ?_ h
  · rwa [List.length_drop, Nat.add_sub_cancel' hp, List.take_length] at hrun
  · intro q ch s hq hch hs
    rw [List.getElem?_drop, Nat.add_sub_cancel' hq] at hch
    have hlt := (List.getElem?_eq_some_iff.mp hch).1
    have htake : mem.take (q + 1) = mem.take q ++ [ch] := by
      rw [List.take_add_one, hch]
      rfl
    have hstep : (lineStep mem _ ch s).All _ _ _ := lineStep_read hs
    rwa [List.length_take_of_le hlt.le, ← htake] at hstep

/-! ## Calls -/

/-- The parser is about to be called for a line that it began with the request `r₀`: for the
first time, or after calls that asked for more bytes. -/
inductive LineCalls (r₀ : HttpRequest) : HttpRequest → Buffer → Prop
  | start {b : Buffer} : r₀.state = 0 → b.pos ≤ b.data.length → LineCalls r₀ r₀ b
  | more {r r' : HttpRequest} {b b' : Buffer} (got : List UInt8) :
      LineCalls r₀ r b → httpParseRequestLine r b = (1, r', b') → LineCalls r₀ r' (b'.append got)

theorem LineRead.setState {f₀ : UriFields} {seen : List UInt8} {st : LineState} {r : HttpRequest}
    (h : LineRead f₀ seen (st, r)) (n : ℕ) : LineRead f₀ seen (st, { r with state := n }) := by
  cases st <;> exact h

variable {r₀ r r' : HttpRequest} {b b' : Buffer}

theorem LineCalls.read (h : LineCalls r₀ r b) : b.pos ≤ b.data.length ∧
    LineRead r₀.uriFields (b.data.take b.pos) (LineState.ofCode r.state, r) := by
  induction h with
  | start hr hpos =>
    refine ⟨hpos, ?_⟩
    rw [hr]
    rfl
  | @more r r' b b' got _ hp ih =>
    have hrun := lineRun_read ih.1 ih.2
    rcases httpParseRequestLine_cases r b with ⟨st, r₁, hr, he⟩ | ⟨p, r₁, -, he⟩ |
      ⟨p, code, r₁, -, hneg, he⟩ <;> rw [he] at hp
    · obtain ⟨rfl, rfl⟩ := Prod.mk.inj (Prod.mk.inj hp).2
      rw [Buffer.unread] at hr
      rw [hr] at hrun
      refine ⟨by simp [Buffer.append], ?_⟩
      simp only [Buffer.append, List.take_left, LineState.ofCode_code]
      exact hrun.setState _
    · have hle := lineDone_nonpos p r₁ b
      rw [hp] at hle
      exact absurd hle (not_le.mpr Int.one_pos)
    · obtain ⟨rfl, -⟩ := Prod.mk.inj hp
      omega

/-- The URI of a complete line starts with a slash, and what is kept about it is the scan of the
bytes behind it. -/
theorem LineCalls.uri (h : LineCalls r₀ r b) (hp : httpParseRequestLine r b = (0, r', b')) :
    ∃ q u, r'.uri = ⟨some q, u.length + 1⟩ ∧ r'.uri.get b'.data = ('/' : UInt8) :: u ∧
      r'.uriFields =
        (uriScan (q + 1) (.afterSlash, r₀.uriFields) u).2.close (q + (u.length + 1)) := by
  obtain ⟨hpos, hread⟩ := h.read
  have hrun := lineRun_read hpos hread
  rcases httpParseRequestLine_cases r b with ⟨st, r₁, -, he⟩ | ⟨p, r₁, hr, he⟩ |
    ⟨p, code, r₁, -, hneg, he⟩ <;> rw [he] at hp
  · simp at hp
  · obtain ⟨rfl, rfl⟩ := Prod.mk.inj (Prod.mk.inj hp).2
    rw [Buffer.unread] at hr
    rw [hr] at hrun
    obtain ⟨q, u, huri, hpre, hfields⟩ := hrun
    refine ⟨q, u, huri, ?_, ?_⟩
    · obtain ⟨rest, hrest⟩ := hpre.trans ((List.take_prefix ..).drop q)
      have hget : (lineFinish r₁).uri.get b.data = (b.data.drop q).take (u.length + 1) := by
        change r₁.uri.get b.data = _
        rw [huri]
        rfl
      rw [hget, ← hrest]
      simp
    · rw [← hfields]
      simp only [UriFields.close, HttpRequest.uriFields, lineFinish, huri, Option.getD_some]
      rfl
  · obtain ⟨rfl, -⟩ := Prod.mk.inj hp
    omega

end Cserv.Http
