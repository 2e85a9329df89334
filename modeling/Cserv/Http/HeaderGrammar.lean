import Mathlib.Data.FinEnum
import Mathlib.Data.List.DropRight
import Cserv.Http.RequestHeader

/-!
# The grammar of the header block

A reference splitter says which byte strings are header lines and what their
names and values are, with no states. The parser is shown to agree with it: the
state after some bytes of a line is described by the shape of these bytes, each
byte keeps the description, and the end of the line reads the field off it.
-/
namespace Cserv.Http

open Foundations

/-! ## The reference splitter -/

structure HeaderField where
  name : List UInt8
  value : List UInt8
  invalid : Bool
  deriving DecidableEq, Repr

def isContent (c : UInt8) : Bool := c != CR && c != LF && c != 0

def isNameByte (c : UInt8) : Bool :=
  decide ('A' ≤ c ∧ c ≤ 'Z' ∨ 'a' ≤ c ∧ c ≤ 'z' ∨ '0' ≤ c ∧ c ≤ '9' ∨ c = '-')

def isColon (c : UInt8) : Bool := c == ':'
def isSpace (c : UInt8) : Bool := c == ' '
def isCr (c : UInt8) : Bool := c == CR

/-- The bytes before the first colon found after the first byte. -/
def fieldName (content : List UInt8) : List UInt8 :=
  content.take 1 ++ content.tail.takeWhile (!isColon ·)

/-- The bytes behind that colon and the spaces that follow it. -/
def fieldRest (content : List UInt8) : List UInt8 :=
  (content.tail.dropWhile (!isColon ·)).tail.dropWhile isSpace

def fieldValue (content : List UInt8) : List UInt8 := (fieldRest content).rdropWhile isSpace

def fieldOf (content : List UInt8) : HeaderField :=
  ⟨fieldName content, fieldValue content, !(fieldName content).all isNameByte⟩

/-- What stands at the start of some bytes: a header line or the empty line, with
its length, an error, or the beginning of a line. -/
inductive Split
  | line (f : HeaderField) (len : ℕ)
  | blockEnd (len : ℕ)
  | error
  | incomplete
  deriving DecidableEq, Repr

/-- The line with the given content and number of carriage returns, before `tail`. -/
def splitEnd (content : List UInt8) (crs : ℕ) : List UInt8 → Split
  | [] => .incomplete
  | d :: _ => if d = LF then .line (fieldOf content) (content.length + crs + 1) else .error

def splitLine (bs : List UInt8) : Split :=
  match bs with
  | [] => .incomplete
  | c :: rest =>
    if c = LF then .blockEnd 1
    else if c = CR then
      match rest with
      | [] => .incomplete
      | d :: _ => if d = LF then .blockEnd 2 else .error
    else
      let content := bs.takeWhile isContent
      let tail := bs.dropWhile isContent
      splitEnd content (tail.takeWhile isCr).length (tail.dropWhile isCr)

example : splitLine (bytes "Host:  a b \r\r\nx") = .line ⟨bytes "Host", bytes "a b", false⟩ 14 := by
  decide

/-! ## What the splitter makes of the shapes of a line -/

theorem fieldName_of_no_colon {xs : List UInt8} (h : ∀ c ∈ xs.tail, isColon c = false) :
    fieldName xs = xs := by
  rw [fieldName, List.takeWhile_eq_self_iff.mpr (by simpa using h)]
  cases xs <;> rfl

theorem fieldRest_of_no_colon {xs : List UInt8} (h : ∀ c ∈ xs.tail, isColon c = false) :
    fieldRest xs = [] := by
  have hnil : xs.tail.dropWhile (!isColon ·) = [] :=
    List.dropWhile_eq_nil_iff.mpr (by simpa using h)
  rw [fieldRest, hnil]
  rfl

section Colon

variable {name : List UInt8} (hne : name ≠ []) (h : ∀ c ∈ name.tail, isColon c = false)

include hne h

theorem fieldName_colon (w : List UInt8) : fieldName (name ++ (':' : UInt8) :: w) = name := by
  cases name with
  | nil => exact absurd rfl hne
  | cons c rest =>
    have hrest : ∀ d ∈ rest, (!isColon d) = true := by simpa using h
    simp only [fieldName, List.cons_append, List.tail_cons]
    rw [List.takeWhile_append_of_pos hrest]
    simp [isColon]

theorem fieldRest_colon (w : List UInt8) :
    fieldRest (name ++ (':' : UInt8) :: w) = w.dropWhile isSpace := by
  cases name with
  | nil => exact absurd rfl hne
  | cons c rest =>
    have hrest : ∀ d ∈ rest, (!isColon d) = true := by simpa using h
    simp only [fieldRest, List.cons_append, List.tail_cons]
    rw [List.dropWhile_append_of_pos hrest]
    simp [isColon]

end Colon

theorem trim_spaces {sp v sp' : List UInt8} (hsp : ∀ c ∈ sp, isSpace c)
    (hsp' : ∀ c ∈ sp', isSpace c) (hhead : ∀ c, v.head? = some c → isSpace c = false)
    (hlast : ∀ c, v.getLast? = some c → isSpace c = false) (hv : v ≠ []) :
    (sp ++ v ++ sp').dropWhile isSpace = v ++ sp' ∧ (v ++ sp').rdropWhile isSpace = v := by
  constructor
  · rw [List.append_assoc, List.dropWhile_append_of_pos hsp]
    cases v with
    | nil => exact absurd rfl hv
    | cons c rest => simp [hhead c rfl]
  · induction sp' using List.reverseRecOn with
    | nil =>
      rw [List.append_nil, List.rdropWhile_eq_self_iff]
      intro hne
      rw [hlast _ (List.getLast?_eq_some_getLast hne)]
      decide
    | append_singleton rest c ih =>
      rw [← List.append_assoc, List.rdropWhile_concat_pos _ _ _ (hsp' c (by simp))]
      exact ih fun d hd => hsp' d (by simp [hd])

/-- The splitter at a line whose content is followed by carriage returns and then
by a byte that is none, or by nothing. -/
theorem splitLine_content {content crs tail : List UInt8} (hne : content ≠ [])
    (hcontent : ∀ c ∈ content, isContent c) (hcrs : ∀ c ∈ crs, isCr c)
    (htail : ∀ d, tail.head? = some d → isCr d = false ∧ (crs = [] → isContent d = false)) :
    splitLine (content ++ crs ++ tail) = splitEnd content crs.length tail := by
  have hstop : (crs ++ tail).takeWhile isContent = [] ∧
      (crs ++ tail).dropWhile isContent = crs ++ tail := by
    cases crs with
    | nil =>
      cases tail with
      | nil => exact ⟨rfl, rfl⟩
      | cons d rest => simp [(htail d rfl).2 rfl]
    | cons c rest =>
      have hc : isContent c = false := by
        have hcr := hcrs c (by simp)
        simp only [isCr, beq_iff_eq] at hcr
        subst hcr
        decide
      simp [hc]
  have htake : (content ++ crs ++ tail).takeWhile isContent = content := by
    rw [List.append_assoc, List.takeWhile_append_of_pos hcontent, hstop.1, List.append_nil]
  have hdrop : (content ++ crs ++ tail).dropWhile isContent = crs ++ tail := by
    rw [List.append_assoc, List.dropWhile_append_of_pos hcontent, hstop.2]
  have htake' : (crs ++ tail).takeWhile isCr = crs := by
    rw [List.takeWhile_append_of_pos hcrs]
    cases tail with
    | nil => simp
    | cons d rest => simp [(htail d rfl).1]
  have hdrop' : (crs ++ tail).dropWhile isCr = tail := by
    rw [List.dropWhile_append_of_pos hcrs]
    cases tail with
    | nil => rfl
    | cons d rest => simp [(htail d rfl).1]
  cases content with
  | nil => exact absurd rfl hne
  | cons c rest =>
    have hc := hcontent c (by simp)
    simp only [isContent, Bool.and_eq_true, bne_iff_ne] at hc
    simp only [List.cons_append, splitLine] at htake hdrop ⊢
    rw [if_neg hc.1.2, if_neg hc.1.1, htake, hdrop, htake', hdrop']

/-! ## The parser's states -/

/-- The entry of the table for a byte: its lower case if it may stand in a header name. -/
def lowerName (c : UInt8) : UInt8 :=
  if isNameByte c then if 'A' ≤ c ∧ c ≤ 'Z' then c + 32 else c else 0

theorem lowcaseTable_eq : lowcaseTable = (List.range 256).map fun n => lowerName (.ofNat n) := by
  decide +kernel

theorem lowcase_eq (c : UInt8) : lowcase c = lowerName c := by
  rw [lowcase, lowcaseTable_eq, List.getD_eq_getElem?_getD, List.getElem?_map,
    List.getElem?_range c.toNat_lt, Option.map_some, Option.getD_some, UInt8.ofNat_toNat]

theorem lowcase_ne_zero (c : UInt8) : lowcase c ≠ 0 ↔ isNameByte c = true := by
  rw [lowcase_eq]
  revert c
  decide +kernel

theorem isContent_of_lowcase {c : UInt8} (h : lowcase c ≠ 0) : isContent c ∧ c ≠ ':' := by
  have hne : ∀ d : UInt8, isNameByte d = false → c ≠ d := by
    rintro d hd rfl
    exact Bool.false_ne_true (hd.symm.trans ((lowcase_ne_zero c).mp h))
  simp only [isContent, Bool.and_eq_true, bne_iff_ne]
  exact ⟨⟨⟨hne CR rfl, hne LF rfl⟩, hne 0 rfl⟩, hne ':' rfl⟩

def hashLc (name : List UInt8) : UInt32 := name.foldl (fun key c => HASH key (lowcase c)) 0

/-- The flag and the hash tell what they should about the bytes of a name. -/
def Hashed (l : HeaderLocals) (name : List UInt8) : Prop :=
  l.r.invalidHeader = !name.all isNameByte ∧ (name.all isNameByte → l.hash = hashLc name)

/-- A text without line ends that no colon divides. -/
structure NameText (name : List UInt8) : Prop where
  ne_nil : name ≠ []
  plain : ∀ c ∈ name, isContent c
  no_colon : ∀ c ∈ name.tail, isColon c = false

/-- The name of the line that starts at `s` has been read. -/
structure NameDone (s : ℕ) (name : List UInt8) (l : HeaderLocals) : Prop extends NameText name where
  span : l.r.headerName = ⟨some s, name.length⟩
  hashed : Hashed l name

/-- A text without line ends that neither starts nor ends with a space. -/
structure ValueText (v : List UInt8) : Prop where
  ne_nil : v ≠ []
  plain : ∀ c ∈ v, isContent c
  head : ∀ c, v.head? = some c → isSpace c = false
  last : ∀ c, v.getLast? = some c → isSpace c = false

def valueSpan (s : ℕ) (content : List UInt8) : Str :=
  if fieldValue content = [] then strInit
  else ⟨some (s + (content.length - (fieldRest content).length)), (fieldValue content).length⟩

/-- The content of the line that starts at `s` has been read. -/
structure LineDone (s : ℕ) (content : List UInt8) (l : HeaderLocals) : Prop where
  ne_nil : content ≠ []
  plain : ∀ c ∈ content, isContent c
  name : l.r.headerName = ⟨some s, (fieldName content).length⟩
  hashed : Hashed l (fieldName content)
  value : l.r.headerValue = valueSpan s content

theorem LineDone.withState {s : ℕ} {content : List UInt8} {l : HeaderLocals}
    (h : LineDone s content l) (st : HeaderState) : LineDone s content { l with state := st } :=
  ⟨h.ne_nil, h.plain, h.name, h.hashed, h.value⟩

/-- The state of the parser after the bytes `xs` of a line that starts at `s`. -/
def HeaderShape (s : ℕ) (xs : List UInt8) (l : HeaderLocals) : Prop :=
  match l.state with
  | .start => xs = []
  | .name => NameText xs ∧ l.r.headerName.p = some s ∧ Hashed l xs
  | .spaceBeforeValue => ∃ name sp, xs = name ++ (':' : UInt8) :: sp ∧ NameDone s name l ∧
      ∀ c ∈ sp, isSpace c
  | .value => ∃ name sp v, xs = name ++ (':' : UInt8) :: (sp ++ v) ∧ NameDone s name l ∧
      (∀ c ∈ sp, isSpace c) ∧ ValueText v ∧
      l.r.headerValue.p = some (s + (name.length + 1 + sp.length))
  | .spaceAfterValue => ∃ name sp v sp', xs = name ++ (':' : UInt8) :: (sp ++ v ++ sp') ∧
      NameDone s name l ∧ (∀ c ∈ sp, isSpace c) ∧ ValueText v ∧ (∀ c ∈ sp', isSpace c) ∧
      l.r.headerValue = ⟨some (s + (name.length + 1 + sp.length)), v.length⟩
  | .almostDone => ∃ content crs, xs = content ++ crs ∧ crs ≠ [] ∧ (∀ c ∈ crs, isCr c) ∧
      LineDone s content l
  | .headerAlmostDone => xs = [CR]

/-- What the parser has found when it leaves the loop at `ch`, behind the bytes `xs`. -/
def HeaderFound (s : ℕ) (xs : List UInt8) (ch : UInt8) : HeaderStop → Prop
  | .done l => ch = LF ∧ ∃ content crs, xs = content ++ crs ∧ (∀ c ∈ crs, isCr c) ∧
      LineDone s content l
  | .headerDone _ => ch = LF ∧ (xs = [] ∨ xs = [CR])
  | .fail _ _ => ∀ rest, splitLine (xs ++ ch :: rest) = .error

theorem isContent_of_isSpace {c : UInt8} (h : isSpace c) : isContent c := by
  simp only [isSpace, beq_iff_eq] at h
  subst h
  decide

theorem isContent_of_ne {c : UInt8} (h₁ : c ≠ CR) (h₂ : c ≠ LF) (h₃ : c ≠ 0) :
    isContent c = true := by
  simp [isContent, h₁, h₂, h₃]

section Done

variable {s : ℕ} {l : HeaderLocals} {name sp v sp' : List UInt8}

theorem lineDone_of_name (hname : NameText name) (hp : l.r.headerName.p = some s)
    (hl : Hashed l name) : LineDone s name (noValue (endName (s + name.length) l)) where
  ne_nil := hname.ne_nil
  plain := hname.plain
  name := by
    rw [fieldName_of_no_colon hname.no_colon]
    simp [noValue, endName, hp]
  hashed := by
    rw [fieldName_of_no_colon hname.no_colon]
    exact hl
  value := by
    simp [noValue, valueSpan, fieldValue, fieldRest_of_no_colon hname.no_colon]

theorem plain_of_colon (hname : NameText name) {w : List UInt8} (hw : ∀ c ∈ w, isContent c) :
    ∀ c ∈ name ++ (':' : UInt8) :: w, isContent c := by
  intro c hc
  rcases List.mem_append.mp hc with hc | hc
  · exact hname.plain c hc
  · rcases List.mem_cons.mp hc with rfl | hc
    · decide
    · exact hw c hc

theorem lineDone_of_spaces (hname : NameDone s name l) (hsp : ∀ c ∈ sp, isSpace c) :
    LineDone s (name ++ (':' : UInt8) :: sp) (noValue l) where
  ne_nil := by simp
  plain := plain_of_colon hname.toNameText fun c hc => isContent_of_isSpace (hsp c hc)
  name := by
    rw [fieldName_colon hname.ne_nil hname.no_colon]
    exact hname.span
  hashed := by
    rw [fieldName_colon hname.ne_nil hname.no_colon]
    exact hname.hashed
  value := by
    have hnil : sp.dropWhile isSpace = [] := List.dropWhile_eq_nil_iff.mpr hsp
    simp [noValue, valueSpan, fieldValue, fieldRest_colon hname.ne_nil hname.no_colon, hnil]

theorem lineDone_of_value (hname : NameDone s name l) (hsp : ∀ c ∈ sp, isSpace c)
    (hv : ValueText v) (hsp' : ∀ c ∈ sp', isSpace c)
    (hspan : l.r.headerValue = ⟨some (s + (name.length + 1 + sp.length)), v.length⟩) :
    LineDone s (name ++ (':' : UInt8) :: (sp ++ v ++ sp')) l where
  ne_nil := by simp
  plain := by
    apply plain_of_colon hname.toNameText
    intro c hc
    simp only [List.mem_append] at hc
    rcases hc with (hc | hc) | hc
    · exact isContent_of_isSpace (hsp c hc)
    · exact hv.plain c hc
    · exact isContent_of_isSpace (hsp' c hc)
  name := by
    rw [fieldName_colon hname.ne_nil hname.no_colon]
    exact hname.span
  hashed := by
    rw [fieldName_colon hname.ne_nil hname.no_colon]
    exact hname.hashed
  value := by
    obtain ⟨hdrop, htrim⟩ := trim_spaces hsp hsp' hv.head hv.last hv.ne_nil
    rw [hspan, valueSpan, fieldValue, fieldRest_colon hname.ne_nil hname.no_colon, hdrop, htrim,
      if_neg hv.ne_nil]
    congr 3
    simp only [List.length_append, List.length_cons]
    omega

end Done

theorem splitLine_error {content crs : List UInt8} (hne : content ≠ [])
    (hplain : ∀ c ∈ content, isContent c) (hcrs : ∀ c ∈ crs, isCr c) {ch : UInt8} (hlf : ch ≠ LF)
    (hcr : ch ≠ CR) (hch : crs = [] → isContent ch = false) (rest : List UInt8) :
    splitLine (content ++ crs ++ ch :: rest) = .error := by
  rw [splitLine_content hne hplain hcrs]
  · simp [splitEnd, hlf]
  · intro d hd
    obtain rfl := Option.some.inj hd
    exact ⟨by simpa [isCr] using hcr, hch⟩

theorem splitLine_nul {content : List UInt8} (hne : content ≠ [])
    (hplain : ∀ c ∈ content, isContent c) {ch : UInt8} (hch : ch = '\x00') (rest : List UInt8) :
    splitLine (content ++ ch :: rest) = .error := by
  subst hch
  have herr : splitLine (content ++ [] ++ (('\x00' : UInt8) :: rest)) = .error :=
    splitLine_error hne hplain (by simp) (by decide) (by decide) (fun _ => by decide) rest
  rwa [List.append_nil] at herr

section Step

variable {s : ℕ} {xs : List UInt8} {l : HeaderLocals} (ch : UInt8)

theorem hashed_concat {name : List UInt8} {hash : UInt32} {i : ℕ} {r : HttpRequest}
    (h : Hashed l name) (hch : lowcase ch ≠ 0) (hinv : r.invalidHeader = l.r.invalidHeader)
    (hhash : hash = HASH l.hash (lowcase ch)) :
    Hashed ⟨.name, hash, i, r⟩ (name ++ [ch]) := by
  have hbyte := (lowcase_ne_zero ch).mp hch
  constructor
  · simp [hinv, h.1, hbyte]
  · intro hall
    simp only [List.all_append, Bool.and_eq_true] at hall
    simp [hhash, h.2 hall.1, hashLc]

theorem hashed_invalid {name : List UInt8} {hash : UInt32} {i : ℕ} {r : HttpRequest}
    (hch : ¬lowcase ch ≠ 0) (hinv : r.invalidHeader = true) :
    Hashed ⟨.name, hash, i, r⟩ (name ++ [ch]) := by
  have hbyte : isNameByte ch = false := by
    have hb := (lowcase_ne_zero ch).not.mp hch
    simpa using hb
  constructor
  · simp [hinv, hbyte]
  · intro hall
    simp [hbyte] at hall

theorem nameText_concat (h : NameText xs) (hplain : isContent ch) (hcolon : ch ≠ ':') :
    NameText (xs ++ [ch]) where
  ne_nil := by simp
  plain := by
    intro c hc
    rcases List.mem_append.mp hc with hc | hc
    · exact h.plain c hc
    · rwa [List.mem_singleton.mp hc]
  no_colon := by
    intro c hc
    rw [List.tail_append_of_ne_nil h.ne_nil] at hc
    rcases List.mem_append.mp hc with hc | hc
    · exact h.no_colon c hc
    · rw [List.mem_singleton.mp hc]
      simpa [isColon] using hcolon

theorem nameText_singleton (h : isContent ch) : NameText [ch] where
  ne_nil := by simp
  plain := by simpa using h
  no_colon := by simp

theorem stepHeaderStart_shape :
    (stepHeaderStart s ch l).All (HeaderShape s [ch]) (fun _ => False) (HeaderFound s [] ch) := by
  refine Verdict.All.ite (fun hcr => ?_) (fun hcr => ?_)
  · exact congrArg (fun c => [c]) hcr
  refine Verdict.All.ite (fun hlf => ⟨hlf, Or.inl rfl⟩) (fun hlf => ?_)
  refine Verdict.All.ite (fun hch => ?_) (fun hch => ?_)
  · refine ⟨nameText_singleton ch (isContent_of_lowcase hch).1, rfl, ?_⟩
    have hbyte := (lowcase_ne_zero ch).mp hch
    exact ⟨by simp [hbyte, storeLowcase], fun _ => rfl⟩
  refine Verdict.All.ite (fun hnul => ?_) (fun hnul => ?_)
  · intro rest
    subst hnul
    rfl
  · exact ⟨nameText_singleton ch (isContent_of_ne hcr hlf hnul), rfl,
      (hashed_invalid ch hch rfl : Hashed _ ([] ++ [ch]))⟩

theorem lineEnd_shape {done failed : HeaderLocals} {code : ℤ} {other : HeaderVerdict}
    (hdone : LineDone s xs done)
    (hother : ch ≠ CR → ch ≠ LF → ch ≠ '\x00' →
      other.All (HeaderShape s (xs ++ [ch])) (fun _ => False) (HeaderFound s xs ch)) :
    Verdict.All (HeaderShape s (xs ++ [ch])) (fun _ => False) (HeaderFound s xs ch)
      (if ch = CR then headerNext .almostDone done
        else if ch = LF then .stop (.done done)
        else if ch = '\x00' then headerFail code failed
        else other) := by
  refine Verdict.All.ite (fun hcr => ?_) (fun hcr => ?_)
  · exact ⟨xs, [ch], rfl, by simp, by simp [hcr, isCr], hdone.withState .almostDone⟩
  refine Verdict.All.ite (fun hlf => ?_) (fun hlf => ?_)
  · exact ⟨hlf, xs, [], by simp, by simp, hdone⟩
  refine Verdict.All.ite (fun hnul => ?_) (fun hnul => ?_)
  · exact splitLine_nul hdone.ne_nil hdone.plain hnul
  · exact hother hcr hlf hnul

theorem stepHeaderName_shape (h : HeaderShape s xs l) (hst : l.state = .name) :
    (stepHeaderName (s + xs.length) ch l).All (HeaderShape s (xs ++ [ch])) (fun _ => False)
      (HeaderFound s xs ch) := by
  simp only [HeaderShape, hst] at h
  obtain ⟨htext, hp, hhash⟩ := h
  refine Verdict.All.ite (fun hch => ?_) (fun hch => ?_)
  · have hc := isContent_of_lowcase hch
    exact ⟨nameText_concat ch htext hc.1 hc.2, hp, hashed_concat ch hhash hch rfl rfl⟩
  refine Verdict.All.ite (fun hcolon => ?_) (fun hcolon => ?_)
  · refine ⟨xs, [], by rw [hcolon], ⟨htext, ?_, hhash⟩, by simp⟩
    simp [endName, hp]
  refine lineEnd_shape ch (lineDone_of_name htext hp hhash) (fun hcr hlf hnul => ?_)
  exact ⟨nameText_concat ch htext (isContent_of_ne hcr hlf hnul) hcolon, hp,
    hashed_invalid ch hch rfl⟩

theorem stepSpaceBeforeValue_shape (h : HeaderShape s xs l) (hst : l.state = .spaceBeforeValue) :
    (stepSpaceBeforeValue (s + xs.length) ch l).All (HeaderShape s (xs ++ [ch])) (fun _ => False)
      (HeaderFound s xs ch) := by
  simp only [HeaderShape, hst] at h
  obtain ⟨name, sp, rfl, hname, hsp⟩ := h
  have hdone := lineDone_of_spaces hname hsp
  refine Verdict.All.ite (fun hspace => ?_) (fun hspace => ?_)
  · refine ⟨name, sp ++ [ch], by simp, ⟨hname.toNameText, hname.span, hname.hashed⟩, ?_⟩
    simpa [or_imp, forall_and, isSpace, hspace] using hsp
  refine lineEnd_shape ch hdone (fun hcr hlf hnul => ?_)
  refine ⟨name, sp, [ch], by simp, ⟨hname.toNameText, hname.span, hname.hashed⟩, hsp, ?_, ?_⟩
  · have hspace' : isSpace ch = false := by simpa [isSpace] using hspace
    exact ⟨by simp, by simpa using isContent_of_ne hcr hlf hnul, by simpa using hspace',
      by simpa using hspace'⟩
  · simp only [List.length_append, List.length_cons]
    congr 1
    omega

theorem valueText_concat {v : List UInt8} (h : ValueText v) {sp : List UInt8}
    (hsp : ∀ c ∈ sp, isSpace c) (hplain : isContent ch) (hspace : ch ≠ ' ') :
    ValueText (v ++ sp ++ [ch]) where
  ne_nil := by simp
  plain := by
    intro c hc
    simp only [List.mem_append, List.mem_singleton] at hc
    rcases hc with (hc | hc) | rfl
    · exact h.plain c hc
    · exact isContent_of_isSpace (hsp c hc)
    · exact hplain
  head := by
    intro c hc
    apply h.head c
    cases v with
    | nil => exact absurd rfl h.ne_nil
    | cons d rest => simpa using hc
  last := by
    intro c hc
    rw [List.getLast?_concat] at hc
    obtain rfl := Option.some.inj hc
    simpa [isSpace] using hspace

theorem stepValue_shape (h : HeaderShape s xs l) (hst : l.state = .value) :
    (stepValue (s + xs.length) ch l).All (HeaderShape s (xs ++ [ch])) (fun _ => False)
      (HeaderFound s xs ch) := by
  simp only [HeaderShape, hst] at h
  obtain ⟨name, sp, v, rfl, hname, hsp, hv, hp⟩ := h
  have hname' : NameDone s name (endValue (s + (name ++ (':' : UInt8) :: (sp ++ v)).length) l) :=
    ⟨hname.toNameText, hname.span, hname.hashed⟩
  have hspan : (endValue (s + (name ++ (':' : UInt8) :: (sp ++ v)).length) l).r.headerValue =
      ⟨some (s + (name.length + 1 + sp.length)), v.length⟩ := by
    simp only [endValue, hp, List.length_append, List.length_cons]
    rw [ptrSub_some_of_le (by omega)]
    congr 1
    omega
  have hdone : LineDone s (name ++ (':' : UInt8) :: (sp ++ v ++ [])) _ :=
    lineDone_of_value hname' hsp hv (by simp) hspan
  rw [List.append_nil] at hdone
  refine Verdict.All.ite (fun hspace => ?_) (fun hspace => ?_)
  · exact ⟨name, sp, v, [ch], by simp, ⟨hname.toNameText, hname.span, hname.hashed⟩, hsp, hv,
      by simp [hspace, isSpace], hspan⟩
  refine lineEnd_shape ch hdone (fun hcr hlf hnul => ?_)
  exact ⟨name, sp, v ++ [] ++ [ch], by simp, ⟨hname.toNameText, hname.span, hname.hashed⟩, hsp,
    valueText_concat ch hv (by simp) (isContent_of_ne hcr hlf hnul) hspace, hp⟩

theorem stepSpaceAfterValue_shape (h : HeaderShape s xs l) (hst : l.state = .spaceAfterValue) :
    (stepSpaceAfterValue ch l).All (HeaderShape s (xs ++ [ch])) (fun _ => False)
      (HeaderFound s xs ch) := by
  simp only [HeaderShape, hst] at h
  obtain ⟨name, sp, v, sp', rfl, hname, hsp, hv, hsp', hspan⟩ := h
  have hdone := lineDone_of_value hname hsp hv hsp' hspan
  refine Verdict.All.ite (fun hspace => ?_) (fun hspace => ?_)
  · refine ⟨name, sp, v, sp' ++ [ch], by simp, ⟨hname.toNameText, hname.span, hname.hashed⟩, hsp,
      hv, ?_, hspan⟩
    simpa [or_imp, forall_and, isSpace, hspace] using hsp'
  refine lineEnd_shape ch hdone (fun hcr hlf hnul => ?_)
  exact ⟨name, sp, v ++ sp' ++ [ch], by simp, ⟨hname.toNameText, hname.span, hname.hashed⟩, hsp,
    valueText_concat ch hv hsp' (isContent_of_ne hcr hlf hnul) hspace, by rw [hspan]⟩

theorem stepHeaderLineAlmostDone_shape (h : HeaderShape s xs l) (hst : l.state = .almostDone) :
    (stepHeaderLineAlmostDone ch l).All (HeaderShape s (xs ++ [ch])) (fun _ => False)
      (HeaderFound s xs ch) := by
  simp only [HeaderShape, hst] at h
  obtain ⟨content, crs, rfl, hne, hcrs, hdone⟩ := h
  refine Verdict.All.ite (fun hlf => ?_) (fun hlf => ?_)
  · exact ⟨hlf, content, crs, rfl, hcrs, hdone⟩
  refine Verdict.All.ite (fun hcr => ?_) (fun hcr => ?_)
  · refine ⟨content, crs ++ [ch], by simp, by simp, ?_, hdone.withState .almostDone⟩
    simpa [or_imp, forall_and, isCr, hcr] using hcrs
  · exact splitLine_error hdone.ne_nil hdone.plain hcrs hlf hcr (fun hnil => absurd hnil hne)

theorem stepHeaderAlmostDone_shape (h : HeaderShape s xs l) (hst : l.state = .headerAlmostDone) :
    (stepHeaderAlmostDone ch l).All (HeaderShape s (xs ++ [ch])) (fun _ => False)
      (HeaderFound s xs ch) := by
  simp only [HeaderShape, hst] at h
  subst h
  refine Verdict.All.ite (fun hlf => ⟨hlf, Or.inr rfl⟩) (fun hlf => ?_)
  intro rest
  simp [splitLine, hlf, show CR ≠ LF by decide]

/-- One byte of a line takes the state after the bytes before it to the state after it. -/
theorem headerStep_shape (h : HeaderShape s xs l) :
    (headerStep (s + xs.length) ch l).All (HeaderShape s (xs ++ [ch])) (fun _ => False)
      (HeaderFound s xs ch) := by
  unfold headerStep
  split
  · rename_i hst
    obtain rfl : xs = [] := by simpa [HeaderShape, hst] using h
    exact stepHeaderStart_shape ch
  · exact stepHeaderName_shape ch h ‹_›
  · exact stepSpaceBeforeValue_shape ch h ‹_›
  · exact stepValue_shape ch h ‹_›
  · exact stepSpaceAfterValue_shape ch h ‹_›
  · exact stepHeaderLineAlmostDone_shape ch h ‹_›
  · exact stepHeaderAlmostDone_shape ch h ‹_›

end Step

theorem drop_eq_take_append {mem : List UInt8} {s q : ℕ} {ch : UInt8} (hsq : s ≤ q)
    (hch : mem[q]? = some ch) :
    mem.drop s = (mem.drop s).take (q - s) ++ ch :: mem.drop (q + 1) ∧
      s + ((mem.drop s).take (q - s)).length = q := by
  have hlt : q < mem.length := (List.getElem?_eq_some_iff.mp hch).1
  constructor
  · have hdrop : mem.drop q = ch :: mem.drop (q + 1) := by
      rw [List.drop_eq_getElem_cons hlt, (List.getElem?_eq_some_iff.mp hch).2]
    rw [← hdrop, show mem.drop q = (mem.drop s).drop (q - s) by
      rw [List.drop_drop, show s + (q - s) = q by omega], List.take_append_drop]
  · simp only [List.length_take, List.length_drop]
    omega

/-- The same over a whole call: `mem` are the bytes of the buffer, the line starts at
`s`, and its bytes up to `p` have been read by earlier calls. -/
theorem headerRun_shape {mem : List UInt8} {s p : ℕ} {l : HeaderLocals} (hsp : s ≤ p)
    (hp : p ≤ mem.length) (h : HeaderShape s ((mem.drop s).take (p - s)) l) :
    (headerScanner.run p l (mem.drop p)).All (HeaderShape s (mem.drop s))
      (fun q out => ∃ xs ch rest, mem.drop s = xs ++ ch :: rest ∧ s + xs.length = q ∧
        HeaderFound s xs ch out) := by
  have hrun := headerScanner.run_inv
    (fun q l => s ≤ q ∧ HeaderShape s ((mem.drop s).take (q - s)) l)
    (fun q out => ∃ xs ch rest, mem.drop s = xs ++ ch :: rest ∧ s + xs.length = q ∧
      HeaderFound s xs ch out) (mem.drop p) (p := p) (s := l)
    (fun q ch l hq hch hl => by
      obtain ⟨hsq, hshape⟩ := hl
      have hmem : mem[q]? = some ch := by
        rw [List.getElem?_drop] at hch
        rwa [show p + (q - p) = q by omega] at hch
      obtain ⟨hdrop, hlen⟩ := drop_eq_take_append hsq hmem
      have hnext : (mem.drop s).take (q + 1 - s) = (mem.drop s).take (q - s) ++ [ch] := by
        rw [show q + 1 - s = q - s + 1 by omega, List.take_add_one, List.getElem?_drop,
          show s + (q - s) = q by omega, hmem]
        rfl
      have hstep := headerStep_shape ch hshape
      rw [hlen] at hstep
      cases hv : headerStep q ch l with
      | next l' =>
        simp only [headerScanner, hv, Verdict.All] at hstep ⊢
        exact ⟨by omega, hnext ▸ hstep⟩
      | again l' =>
        simp only [hv, Verdict.All] at hstep
      | stop out =>
        simp only [headerScanner, hv, Verdict.All] at hstep ⊢
        exact ⟨_, ch, _, hdrop, hlen, hstep⟩)
    ⟨hsp, h⟩
  have hend : (mem.drop s).take (p + (mem.drop p).length - s) = mem.drop s := by
    apply List.take_of_length_le
    simp only [List.length_drop]
    omega
  cases hr : headerScanner.run p l (mem.drop p) with
  | more l' =>
    rw [hr] at hrun
    simp only [Scan.All] at hrun ⊢
    exact hend ▸ hrun.2
  | halt q out =>
    rw [hr] at hrun
    exact hrun

/-! ## Agreement -/

def headerField (r : HttpRequest) (mem : List UInt8) : HeaderField :=
  ⟨r.headerName.get mem, r.headerValue.get mem, r.invalidHeader⟩

theorem fieldName_prefix (content : List UInt8) : fieldName content <+: content := by
  cases content with
  | nil => exact List.prefix_rfl
  | cons c rest =>
    simp only [fieldName, List.take_succ_cons, List.take_zero, List.tail_cons, List.cons_append,
      List.nil_append, List.cons_prefix_cons, true_and]
    exact List.takeWhile_prefix _

theorem fieldRest_suffix (content : List UInt8) : fieldRest content <:+ content :=
  (List.dropWhile_suffix _).trans ((List.tail_suffix _).trans
    ((List.dropWhile_suffix _).trans (List.tail_suffix _)))

theorem LineDone.field {s : ℕ} {content rest mem : List UInt8} {l : HeaderLocals}
    (h : LineDone s content l) (hmem : mem.drop s = content ++ rest) :
    headerField l.r mem = fieldOf content := by
  have hname : l.r.headerName.get mem = fieldName content := by
    obtain ⟨t, ht⟩ := fieldName_prefix content
    have hdrop : mem.drop s = [] ++ (fieldName content ++ (t ++ rest)) := by
      rw [hmem, List.nil_append, ← List.append_assoc, ht]
    rw [h.name]
    exact Str.get_of_drop hdrop
  have hvalue : l.r.headerValue.get mem = fieldValue content := by
    rw [h.value, valueSpan]
    split_ifs with hnil
    · rw [hnil]
      rfl
    · obtain ⟨a, ha⟩ := fieldRest_suffix content
      obtain ⟨t, ht⟩ := List.rdropWhile_prefix isSpace (fieldRest content)
      have hlen := congrArg List.length ha
      rw [List.length_append] at hlen
      have hdrop : mem.drop s = a ++ (fieldValue content ++ (t ++ rest)) := by
        rw [hmem, fieldValue, ← List.append_assoc _ t, ht, ← List.append_assoc, ha]
      rw [show content.length - (fieldRest content).length = a.length by omega]
      exact Str.get_of_drop hdrop
  rw [headerField, hname, hvalue, h.hashed.1]
  rfl

theorem splitLine_incomplete {content crs : List UInt8} (hne : content ≠ [])
    (hplain : ∀ c ∈ content, isContent c) (hcrs : ∀ c ∈ crs, isCr c) :
    splitLine (content ++ crs) = .incomplete := by
  have hsplit : splitLine (content ++ crs ++ []) = splitEnd content crs.length [] :=
    splitLine_content hne hplain hcrs (by simp)
  rwa [List.append_nil] at hsplit

theorem splitLine_plain {content : List UInt8} (hne : content ≠ [])
    (hplain : ∀ c ∈ content, isContent c) : splitLine content = .incomplete := by
  have hsplit : splitLine (content ++ []) = .incomplete :=
    splitLine_incomplete hne hplain (by simp)
  rwa [List.append_nil] at hsplit

theorem HeaderShape.incomplete {s : ℕ} {xs : List UInt8} {l : HeaderLocals}
    (h : HeaderShape s xs l) : splitLine xs = .incomplete := by
  unfold HeaderShape at h
  split at h
  · rw [h]
    rfl
  · exact splitLine_plain h.1.ne_nil h.1.plain
  · obtain ⟨name, sp, rfl, hname, hsp⟩ := h
    have hdone := lineDone_of_spaces hname hsp
    exact splitLine_plain hdone.ne_nil hdone.plain
  · obtain ⟨name, sp, v, rfl, hname, hsp, hv, -⟩ := h
    apply splitLine_plain (by simp)
    apply plain_of_colon hname.toNameText
    intro c hc
    rcases List.mem_append.mp hc with hc | hc
    · exact isContent_of_isSpace (hsp c hc)
    · exact hv.plain c hc
  · obtain ⟨name, sp, v, sp', rfl, hname, hsp, hv, hsp', hspan⟩ := h
    have hdone := lineDone_of_value hname hsp hv hsp' hspan
    exact splitLine_plain hdone.ne_nil hdone.plain
  · obtain ⟨content, crs, rfl, -, hcrs, hdone⟩ := h
    exact splitLine_incomplete hdone.ne_nil hdone.plain hcrs
  · rw [h]
    rfl

/-- What one call makes of what the splitter finds at the start of the unread bytes. -/
def Agrees (r : HttpRequest) (b : Buffer) : Split → Prop
  | .line f len => ∃ r', httpParseRequestHeader r b = (0, r', { b with pos := b.pos + len }) ∧
      r'.state = 0 ∧ headerField r' b.data = f
  | .blockEnd len => ∃ r', httpParseRequestHeader r b = (100, r', { b with pos := b.pos + len })
  | .error => (httpParseRequestHeader r b).1 < 0
  | .incomplete => (httpParseRequestHeader r b).1 = 1

/-- A call from the start state agrees with the splitter. -/
theorem httpParseRequestHeader_split {r : HttpRequest} {b : Buffer} (hr : r.state = 0)
    (hpos : b.pos ≤ b.data.length) : Agrees r b (splitLine b.unread) := by
  have hshape : HeaderShape b.pos ((b.data.drop b.pos).take (b.pos - b.pos)) (.load r) := by
    simp [HeaderShape, HeaderLocals.load, hr]
  have hrun := headerRun_shape le_rfl hpos hshape
  rcases httpParseRequestHeader_cases r b with ⟨l, hl, he⟩ | ⟨p, l, hl, he⟩ | ⟨p, l, hl, he⟩ |
    ⟨p, code, l, hl, hneg, he⟩ <;> rw [Buffer.unread] at hl ⊢ <;> rw [hl] at hrun
  · rw [HeaderShape.incomplete hrun]
    simp only [Agrees, he]
  · obtain ⟨xs, ch, rest, hdrop, rfl, rfl, content, crs, rfl, hcrs, hdone⟩ := hrun
    have hlf : ∀ d, (LF :: rest).head? = some d →
        isCr d = false ∧ (crs = [] → isContent d = false) := by
      intro d hd
      obtain rfl := Option.some.inj hd
      exact ⟨by decide, fun _ => by decide⟩
    rw [hdrop, splitLine_content hdone.ne_nil hdone.plain hcrs hlf]
    refine ⟨l.save .start, ?_, rfl, ?_⟩
    · rw [he, List.length_append]
      rfl
    · rw [List.append_assoc] at hdrop
      exact hdone.field hdrop
  · obtain ⟨xs, ch, rest, hdrop, rfl, rfl, rfl | rfl⟩ := hrun <;> rw [hdrop]
    · exact ⟨_, he⟩
    · exact ⟨_, he⟩
  · obtain ⟨xs, ch, rest, hdrop, rfl, herr⟩ := hrun
    rw [hdrop, herr]
    simp only [Agrees, he, hneg]

theorem splitLine_line {bs : List UInt8} {f : HeaderField} {len : ℕ}
    (h : splitLine bs = .line f len) : 0 < len ∧ bs ≠ [] := by
  unfold splitLine at h
  split at h
  · cases h
  · refine ⟨?_, by simp⟩
    split_ifs at h
    · split at h
      · cases h
      · split_ifs at h
    · dsimp only [splitEnd] at h
      split at h
      · cases h
      · split_ifs at h
        obtain ⟨-, rfl⟩ := Split.line.inj h
        exact Nat.succ_pos _

/-- How the header block ends: behind its empty line, with an error, or not yet. -/
inductive BlockEnd
  | ended (pos : ℕ)
  | error
  | incomplete
  deriving DecidableEq, Repr

/-- The fields of the block that starts at `pos`, split line by line. -/
def splitBlock (pos : ℕ) (bs : List UInt8) : List HeaderField × BlockEnd :=
  match h : splitLine bs with
  | .line f len =>
    let out := splitBlock (pos + len) (bs.drop len)
    (f :: out.1, out.2)
  | .blockEnd len => ([], .ended (pos + len))
  | .error => ([], .error)
  | .incomplete => ([], .incomplete)
termination_by bs.length
decreasing_by
  obtain ⟨hlen, hne⟩ := splitLine_line h
  have hpos : 0 < bs.length := List.length_pos_iff.mpr hne
  rw [List.length_drop]
  omega

def parseBlock (r : HttpRequest) (b : Buffer) : List HeaderField × BlockEnd :=
  match h : httpParseRequestHeader r b with
  | (0, r', b') =>
    let out := parseBlock r' b'
    (headerField r' b'.data :: out.1, out.2)
  | (100, _, b') => ([], .ended b'.pos)
  | (1, _, _) => ([], .incomplete)
  | (_, _, _) => ([], .error)
termination_by b.unread.length
decreasing_by
  have hdata := (httpParseRequestHeader_buffer r b).1
  have hpos := httpParseRequestHeader_zero h
  rw [h] at hdata
  simp only [Buffer.unread, List.length_drop] at hdata ⊢
  rw [hdata]
  omega

theorem splitBlock_line {pos len : ℕ} {bs : List UInt8} {f : HeaderField}
    (h : splitLine bs = .line f len) :
    splitBlock pos bs = (f :: (splitBlock (pos + len) (bs.drop len)).1,
      (splitBlock (pos + len) (bs.drop len)).2) := by
  rw [splitBlock]
  split <;> simp_all

theorem parseBlock_zero {r r' : HttpRequest} {b b' : Buffer}
    (h : httpParseRequestHeader r b = (0, r', b')) :
    parseBlock r b = (headerField r' b'.data :: (parseBlock r' b').1, (parseBlock r' b').2) := by
  rw [parseBlock]
  split <;> simp_all

theorem parseBlock_end (r : HttpRequest) (b : Buffer) (h : (httpParseRequestHeader r b).1 ≠ 0) :
    parseBlock r b =
      ([], if (httpParseRequestHeader r b).1 = 100 then .ended (httpParseRequestHeader r b).2.2.pos
        else if (httpParseRequestHeader r b).1 = 1 then .incomplete else .error) := by
  rw [parseBlock]
  split <;> simp_all

/-- Calling the parser again and again from the start state yields the fields of
the splitter, and ends as the splitter does. -/
theorem parseBlock_eq_splitBlock (r : HttpRequest) (b : Buffer) (hr : r.state = 0)
    (hpos : b.pos ≤ b.data.length) : parseBlock r b = splitBlock b.pos b.unread := by
  induction hn : b.unread.length using Nat.strong_induction_on generalizing r b with
  | _ n ih =>
  have hagree := httpParseRequestHeader_split hr hpos
  cases hs : splitLine b.unread with
  | line f len =>
    rw [hs] at hagree
    obtain ⟨r', he, hr', hf⟩ := hagree
    have hle := httpParseRequestHeader_zero he
    have hunread : Buffer.unread { b with pos := b.pos + len } = b.unread.drop len := by
      simp [Buffer.unread, List.drop_drop]
    have hlt : (b.unread.drop len).length < n := by
      simp only [Buffer.unread, List.length_drop] at hn hle ⊢
      omega
    rw [parseBlock_zero he, splitBlock_line hs, ih _ (hunread ▸ hlt) r' _ hr' hle.2 rfl, hf,
      hunread]
  | blockEnd len =>
    rw [hs] at hagree
    obtain ⟨r', he⟩ := hagree
    have hend : splitBlock b.pos b.unread = ([], .ended (b.pos + len)) := by
      rw [splitBlock]
      split <;> simp_all
    rw [parseBlock_end r b (by simp [he]), he, hend]
    rfl
  | error =>
    rw [hs] at hagree
    have hneg : (httpParseRequestHeader r b).1 < 0 := hagree
    rw [parseBlock_end r b (by omega), if_neg (by omega), if_neg (by omega), splitBlock]
    split <;> simp_all
  | incomplete =>
    rw [hs] at hagree
    have hone : (httpParseRequestHeader r b).1 = 1 := hagree
    rw [parseBlock_end r b (by omega), if_neg (by omega), if_pos hone, splitBlock]
    split <;> simp_all

theorem parseBlock_eq_splitBlock_host :
    parseBlock default ⟨bytes "Host: a\r\n\r\n", [], 0⟩ =
        splitBlock 0 (bytes "Host: a\r\n\r\n") ∧
      splitBlock 0 (bytes "Host: a\r\n\r\n") =
        ([⟨bytes "Host", bytes "a", false⟩], .ended 11) :=
  ⟨parseBlock_eq_splitBlock default ⟨bytes "Host: a\r\n\r\n", [], 0⟩ rfl (by decide),
    by decide +kernel⟩

end Cserv.Http
