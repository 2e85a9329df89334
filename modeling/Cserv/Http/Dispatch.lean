import Cserv.Http.HeaderGrammar
import Cserv.Http.HeaderHandlers

/-!
# Which handler a header reaches

A header is dispatched by the 32-bit hash of its lower-cased name; the name itself
is never compared. A line whose name collides with a registered one therefore
reaches the wrong handler, and these lines are the only ones that do.
-/
namespace Cserv.Http

open Foundations Util

/-- The parser is about to be called inside the header line that starts at `s`: at its
start, or after calls that asked for more bytes. -/
inductive InLine : ℕ → HttpRequest → Buffer → Prop
  | start {r : HttpRequest} {b : Buffer} :
      r.state = 0 → b.pos ≤ b.data.length → InLine b.pos r b
  | more {s : ℕ} {r r' : HttpRequest} {b b' : Buffer} (got : List UInt8) :
      InLine s r b → httpParseRequestHeader r b = (1, r', b') → InLine s r' (b'.append got)

theorem HeaderShape.load_save {s : ℕ} {xs : List UInt8} {l : HeaderLocals}
    (h : HeaderShape s xs l) : HeaderShape s xs (.load (l.save l.state)) := by
  obtain ⟨st, hash, i, r⟩ := l
  cases st with
  | start | headerAlmostDone | name => exact h
  | spaceBeforeValue =>
    obtain ⟨name, sp, hxs, hname, hsp⟩ := h
    exact ⟨name, sp, hxs, ⟨hname.toNameText, hname.span, hname.hashed⟩, hsp⟩
  | value =>
    obtain ⟨name, sp, v, hxs, hname, hrest⟩ := h
    exact ⟨name, sp, v, hxs, ⟨hname.toNameText, hname.span, hname.hashed⟩, hrest⟩
  | spaceAfterValue =>
    obtain ⟨name, sp, v, sp', hxs, hname, hrest⟩ := h
    exact ⟨name, sp, v, sp', hxs, ⟨hname.toNameText, hname.span, hname.hashed⟩, hrest⟩
  | almostDone =>
    obtain ⟨content, crs, hxs, hne, hcrs, hdone⟩ := h
    exact ⟨content, crs, hxs, hne, hcrs,
      ⟨hdone.ne_nil, hdone.plain, hdone.name, hdone.hashed, hdone.value⟩⟩

/-- Inside a line the parser's state is the one its bytes so far call for. -/
theorem InLine.shape {s : ℕ} {r : HttpRequest} {b : Buffer} (h : InLine s r b) :
    s ≤ b.pos ∧ b.pos ≤ b.data.length ∧
      HeaderShape s ((b.data.drop s).take (b.pos - s)) (.load r) := by
  induction h with
  | start hr hpos => exact ⟨le_rfl, hpos, by simp [HeaderShape, HeaderLocals.load, hr]⟩
  | @more s r r' b b' got h hp ih =>
    obtain ⟨hsp, hpos, hshape⟩ := ih
    have hrun := headerRun_shape hsp hpos hshape
    rcases httpParseRequestHeader_cases r b with ⟨l, hl, he⟩ | ⟨p, l, hl, he⟩ | ⟨p, l, hl, he⟩ |
      ⟨p, code, l, hl, hneg, he⟩ <;> rw [he] at hp
    · obtain ⟨rfl, rfl⟩ := Prod.mk.inj (Prod.mk.inj hp).2
      rw [Buffer.unread] at hl
      rw [hl] at hrun
      refine ⟨by simp only [Buffer.append]; omega, by simp [Buffer.append], ?_⟩
      have htake : ((b.data ++ got).drop s).take (b.data.length - s) = b.data.drop s := by
        rw [List.drop_append_of_le_length (by omega), ← List.length_drop, List.take_left]
      simp only [Buffer.append, htake]
      exact HeaderShape.load_save hrun
    · simp at hp
    · simp at hp
    · obtain ⟨rfl, -⟩ := Prod.mk.inj hp
      omega

theorem InLine.lineDone {s : ℕ} {r r' : HttpRequest} {b b' : Buffer} (h : InLine s r b)
    (hp : httpParseRequestHeader r b = (0, r', b')) :
    ∃ content crs rest l, b'.data.drop s = content ++ (crs ++ LF :: rest) ∧ (∀ c ∈ crs, isCr c) ∧
      LineDone s content l ∧ r'.headerName = l.r.headerName ∧
      r'.invalidHeader = l.r.invalidHeader ∧ r'.headerHash = l.hash := by
  obtain ⟨hsp, hpos, hshape⟩ := h.shape
  have hrun := headerRun_shape hsp hpos hshape
  rcases httpParseRequestHeader_cases r b with ⟨l, hl, he⟩ | ⟨p, l, hl, he⟩ | ⟨p, l, hl, he⟩ |
    ⟨p, code, l, hl, hneg, he⟩ <;> rw [he] at hp
  · simp at hp
  · obtain ⟨rfl, rfl⟩ := Prod.mk.inj (Prod.mk.inj hp).2
    rw [Buffer.unread] at hl
    rw [hl] at hrun
    obtain ⟨xs, ch, rest, hdrop, -, rfl, content, crs, rfl, hcrs, hdone⟩ := hrun
    rw [List.append_assoc] at hdrop
    exact ⟨content, crs, rest, l, hdrop, hcrs, hdone, rfl, rfl, rfl⟩
  · simp at hp
  · obtain ⟨rfl, -⟩ := Prod.mk.inj hp
    omega

theorem InLine.name_hashed {s : ℕ} {r r' : HttpRequest} {b b' : Buffer} (h : InLine s r b)
    (hp : httpParseRequestHeader r b = (0, r', b')) :
    r'.invalidHeader = !(r'.headerName.get b'.data).all isNameByte ∧
      ((r'.headerName.get b'.data).all isNameByte →
        r'.headerHash = hashLc (r'.headerName.get b'.data)) := by
  obtain ⟨content, crs, rest, l, hdrop, -, hdone, hname, hinvalid, hhash⟩ := h.lineDone hp
  have hget : l.r.headerName.get b'.data = fieldName content :=
    congrArg HeaderField.name (hdone.field hdrop)
  rw [hname, hinvalid, hhash, hget]
  exact hdone.hashed

/-! ## Dispatch -/

/-- Equal up to ASCII case. -/
def SameName (x y : List UInt8) : Prop := x.map tolower = y.map tolower

instance (x y : List UInt8) : Decidable (SameName x y) := inferInstanceAs (Decidable (_ = _))

/-- The received name shares its hash only with registered names that it equals. -/
def NoCollision (reg : List RequestHeaderHandler) (name : List UInt8) : Prop :=
  name.all isNameByte → ∀ hh ∈ reg, hashKeyLc hh.name = hashKeyLc name → SameName name hh.name

instance (reg : List RequestHeaderHandler) (name : List UInt8) : Decidable (NoCollision reg name) :=
  inferInstanceAs (Decidable (_ → _))

theorem lowcase_eq_tolower {c : UInt8} (h : isNameByte c) : lowcase c = tolower c := by
  rw [lowcase_eq, lowerName, if_pos h, tolower]

/-- Parser and registration hash a valid name alike. -/
theorem hashLc_eq_hashKeyLc {name : List UInt8} (h : name.all isNameByte) :
    hashLc name = hashKeyLc name := by
  unfold hashLc hashKeyLc
  apply List.foldl_ext
  intro key c hc
  rw [lowcase_eq_tolower (List.all_eq_true.mp h c hc)]

section Line

variable {ht : HeaderTable} {reg : List RequestHeaderHandler} {s : ℕ} {r r' : HttpRequest}
  {b b' : Buffer}

/-- A handler runs exactly for the valid names that hash like its own. -/
theorem dispatched_eq_some (hht : HandlerTable ht reg) (hline : InLine s r b)
    (hp : httpParseRequestHeader r b = (0, r', b')) (hh : RequestHeaderHandler) :
    dispatched ht r' = some hh ↔ (r'.headerName.get b'.data).all isNameByte ∧ hh ∈ reg ∧
      hashKeyLc hh.name = hashKeyLc (r'.headerName.get b'.data) := by
  obtain ⟨hinv, hhash⟩ := hline.name_hashed hp
  unfold dispatched
  by_cases hall : (r'.headerName.get b'.data).all isNameByte
  · rw [hall] at hinv
    rw [if_neg (by simp [hinv]), Option.filter_eq_some_iff, hht.find, hhash hall,
      hashLc_eq_hashKeyLc hall]
    constructor
    · rintro ⟨⟨hmem, hkey⟩, -⟩
      exact ⟨hall, hmem, hkey.symm⟩
    · rintro ⟨-, hmem, hkey⟩
      exact ⟨⟨hmem, hkey.symm⟩, hht.isSome hh hmem⟩
  · rw [if_pos (by simp [hinv, hall])]
    simp [hall]

theorem handleHttpRequestHeader_other (h : dispatched ht r' = none) :
    handleHttpRequestHeader ht r' b' = (0, r', b') := by
  simp [handleHttpRequestHeader, h]

/-- Dispatch of a header line reaches only the handler registered for its name, and
leaves `host` and `content_len` alone for other names, exactly when the name
collides with no registered one. -/
theorem handleHttpRequestHeader_sound_iff (hht : HandlerTable ht reg) (hline : InLine s r b)
    (hp : httpParseRequestHeader r b = (0, r', b')) :
    ((∀ hh, dispatched ht r' = some hh → SameName (r'.headerName.get b'.data) hh.name) ∧
      ((∀ hh ∈ reg, ¬SameName (r'.headerName.get b'.data) hh.name) →
        (handleHttpRequestHeader ht r' b').2.1.host = r'.host ∧
        (handleHttpRequestHeader ht r' b').2.1.contentLen = r'.contentLen)) ↔
      NoCollision reg (r'.headerName.get b'.data) := by
  constructor
  · rintro ⟨hsound, -⟩ hall hh hmem hkey
    exact hsound hh ((dispatched_eq_some hht hline hp hh).mpr ⟨hall, hmem, hkey⟩)
  · intro hno
    have hsound : ∀ hh, dispatched ht r' = some hh →
        SameName (r'.headerName.get b'.data) hh.name := by
      intro hh hd
      obtain ⟨hall, hmem, hkey⟩ := (dispatched_eq_some hht hline hp hh).mp hd
      exact hno hall hh hmem hkey
    refine ⟨hsound, ?_⟩
    intro hother
    have hnone : dispatched ht r' = none := by
      cases hd : dispatched ht r' with
      | none => rfl
      | some hh =>
        have hmem := ((dispatched_eq_some hht hline hp hh).mp hd).2.1
        exact absurd (hsound hh hd) (hother hh hmem)
    rw [handleHttpRequestHeader_other hnone]
    exact ⟨rfl, rfl⟩

end Line

/-! ## Completeness -/

/-- The parser is about to be called inside the header line that starts at `s`, after any number
of complete lines; what handlers did to the request and to the received bytes after each of them
is left open. -/
inductive AfterLines : ℕ → HttpRequest → Buffer → Prop
  | start {r : HttpRequest} {b : Buffer} :
      r.state = 0 → b.pos ≤ b.data.length → AfterLines b.pos r b
  | more {s : ℕ} {r r' : HttpRequest} {b b' : Buffer} (got : List UInt8) :
      AfterLines s r b → httpParseRequestHeader r b = (1, r', b') →
      AfterLines s r' (b'.append got)
  | next {s : ℕ} {r r' handled : HttpRequest} {b b' b'' : Buffer} :
      AfterLines s r b → httpParseRequestHeader r b = (0, r', b') → handled.state = r'.state →
      b''.pos = b'.pos → b''.data.length = b'.data.length → AfterLines b''.pos handled b''

theorem httpParseRequestHeader_state {r r' : HttpRequest} {b b' : Buffer}
    (h : httpParseRequestHeader r b = (0, r', b')) : r'.state = 0 := by
  rcases httpParseRequestHeader_cases r b with ⟨l, hr, he⟩ | ⟨p, l, hr, he⟩ | ⟨p, l, hr, he⟩ |
    ⟨p, code, l, hr, hneg, he⟩ <;> rw [he] at h
  · simp at h
  · rw [← (Prod.mk.inj (Prod.mk.inj h).2).1]
    rfl
  · simp at h
  · obtain ⟨rfl, -⟩ := Prod.mk.inj h
    omega

/-- Nothing of the lines before is left in the parser. -/
theorem AfterLines.inLine {s : ℕ} {r : HttpRequest} {b : Buffer} (h : AfterLines s r b) :
    InLine s r b := by
  induction h with
  | start hr hpos => exact .start hr hpos
  | more got _ hp ih => exact .more got ih hp
  | @next s r r' handled b b' b'' _ hp hstate hpos hlength _ =>
    apply InLine.start
    · rw [hstate, httpParseRequestHeader_state hp]
    · have hle := (httpParseRequestHeader_zero hp).2
      have hdata := (httpParseRequestHeader_buffer r b).1
      rw [hp] at hdata
      dsimp only at hdata
      rwa [hpos, hlength, hdata]

theorem isNameByte_tolower (c : UInt8) : isNameByte (tolower c) = isNameByte c := by
  revert c
  decide +kernel

theorem SameName.isNameByte {x y : List UInt8} (h : SameName x y) (hy : y.all isNameByte) :
    x.all isNameByte := by
  have hall : ∀ z : List UInt8, (z.map tolower).all Http.isNameByte = z.all Http.isNameByte := by
    intro z
    simp [List.all_map, Function.comp_def, isNameByte_tolower]
  rwa [← hall, h, hall]

theorem SameName.hashKeyLc {x y : List UInt8} (h : SameName x y) : hashKeyLc x = hashKeyLc y := by
  have hmap : ∀ z : List UInt8, Http.hashKeyLc z = (z.map tolower).foldl HASH 0 := by
    intro z
    rw [List.foldl_map]
    rfl
  rw [hmap, hmap, h]

theorem fieldName_of_line {name content crs rest tail : List UInt8} {ch : UInt8} (hne : name ≠ [])
    (hall : name.all isNameByte) (hend : ch = ':' ∨ ch = CR ∨ ch = LF)
    (hplain : ∀ c ∈ content, isContent c) (hcrs : ∀ c ∈ crs, isCr c)
    (h : content ++ (crs ++ LF :: rest) = name ++ ch :: tail) : fieldName content = name := by
  have hbyte : ∀ c ∈ name, isContent c ∧ c ≠ ':' := fun c hc =>
    isContent_of_lowcase ((lowcase_ne_zero c).mpr (List.all_eq_true.mp hall c hc))
  have hcolon : ∀ c ∈ name.tail, isColon c = false := by
    intro c hc
    simpa [isColon] using (hbyte c (List.mem_of_mem_tail hc)).2
  -- the name cannot reach into the line end, whose bytes are no content
  obtain ⟨w, rfl⟩ : name <+: content := by
    have hpre : name <+: content ++ (crs ++ LF :: rest) := h ▸ List.prefix_append ..
    rcases List.prefix_or_prefix_of_prefix hpre (List.prefix_append ..) with hle | ⟨w, rfl⟩
    · exact hle
    · rw [List.append_assoc, List.append_cancel_left_eq] at h
      cases w with
      | nil => simp
      | cons c w =>
        have hc := (hbyte c (by simp)).1
        cases crs with
        | nil =>
          obtain ⟨rfl, -⟩ := List.cons.inj h
          exact absurd hc (by decide)
        | cons d crs =>
          obtain ⟨rfl, -⟩ := List.cons.inj h
          obtain rfl : d = CR := by simpa [isCr] using hcrs d (List.mem_cons_self ..)
          exact absurd hc (by decide)
  rw [List.append_assoc, List.append_cancel_left_eq] at h
  cases w with
  | nil => rw [List.append_nil, fieldName_of_no_colon hcolon]
  | cons c w =>
    obtain ⟨rfl, -⟩ := List.cons.inj h
    rcases hend with rfl | rfl | rfl
    · exact fieldName_colon hne hcolon w
    · exact absurd (hplain CR (by simp)) (by decide)
    · exact absurd (hplain LF (by simp)) (by decide)

/-- A complete header line with a registered name, in any spelling and after any lines, is valid,
has the hash under which the name was registered, and finds its entry. -/
theorem dispatch_complete {ht : HeaderTable} {reg : List RequestHeaderHandler} {s : ℕ}
    {r r' : HttpRequest} {b b' : Buffer} (hht : HandlerTable ht reg)
    (hnames : ∀ hh ∈ reg, hh.name ≠ [] ∧ hh.name.all isNameByte) (hline : AfterLines s r b)
    (hp : httpParseRequestHeader r b = (0, r', b')) {hh : RequestHeaderHandler} (hmem : hh ∈ reg)
    {name tail : List UInt8} {ch : UInt8} (hname : SameName name hh.name)
    (hend : ch = ':' ∨ ch = CR ∨ ch = LF) (htext : b'.data.drop s = name ++ ch :: tail) :
    r'.invalidHeader = false ∧ r'.headerHash = hashKeyLc hh.name ∧
      hashTableFind ht r'.headerHash = some hh := by
  obtain ⟨content, crs, rest, l, hdrop, hcrs, hdone, -, hinvalid, hhash⟩ :=
    hline.inLine.lineDone hp
  have hall := hname.isNameByte (hnames hh hmem).2
  have hne : name ≠ [] := by
    rintro rfl
    exact (hnames hh hmem).1 (List.map_eq_nil_iff.mp hname.symm)
  obtain ⟨hflag, hkey⟩ := hdone.hashed
  rw [fieldName_of_line hne hall hend hdone.plain hcrs (hdrop ▸ htext)] at hflag hkey
  have hregistered : r'.headerHash = hashKeyLc hh.name := by
    rw [hhash, hkey hall, hashLc_eq_hashKeyLc hall, hname.hashKeyLc]
  refine ⟨by rw [hinvalid, hflag, hall]; rfl, hregistered, ?_⟩
  rw [hht.find]
  exact ⟨hmem, hregistered⟩

def namedLine (name : String) : Buffer := ⟨bytes name ++ bytes ": a\r\n", [], 0⟩

theorem inLine_namedLine (name : String) : InLine 0 default (namedLine name) :=
  InLine.start (b := namedLine name) rfl (Nat.zero_le _)

def parsedLine (name : String) : ℤ × HttpRequest × Buffer :=
  httpParseRequestHeader default (namedLine name)

theorem handleHttpRequestHeader_sound_host :
    (parsedLine "Host").1 = 0 ∧ ∀ hh, dispatched builtinTable (parsedLine "Host").2.1 = some hh →
      SameName ((parsedLine "Host").2.1.headerName.get (parsedLine "Host").2.2.data) hh.name :=
  have hzero : (parsedLine "Host").1 = 0 := by decide +kernel
  ⟨hzero, ((handleHttpRequestHeader_sound_iff
    (requestHeaderTable_handlers requestHeaderTable_builtin) (inLine_namedLine "Host")
    (Prod.ext hzero rfl : parsedLine "Host" = (0, _, _))).mpr (by decide +kernel)).1⟩

theorem dispatch_complete_host :
    (parsedLine "hOST").1 = 0 ∧ (parsedLine "hOST").2.1.invalidHeader = false ∧
      hashTableFind builtinTable (parsedLine "hOST").2.1.headerHash =
        some ⟨bytes "Host", some httpProcessHost⟩ := by
  have hzero : (parsedLine "hOST").1 = 0 := by decide +kernel
  have hstart : AfterLines 0 default (namedLine "hOST") :=
    AfterLines.start (b := namedLine "hOST") rfl (Nat.zero_le _)
  have hht := requestHeaderTable_handlers requestHeaderTable_builtin
  rw [builtin_registered] at hht
  obtain ⟨hinvalid, -, hfind⟩ := dispatch_complete hht (by decide +kernel) hstart
    (Prod.ext hzero rfl : parsedLine "hOST" = (0, _, _)) (List.mem_cons_self ..)
    (by decide +kernel : SameName (bytes "hOST") _) (Or.inl rfl)
    (by decide +kernel : _ = bytes "hOST" ++ (':' : UInt8) :: bytes " a\r\n")
  exact ⟨hzero, hinvalid, hfind⟩

/-- The name `Hou6` has the hash of `Host`: its line runs `http_process_host`, which
makes its value the host of the request. -/
theorem handleHttpRequestHeader_collision :
    InLine 0 default (namedLine "Hou6") ∧
    httpParseRequestHeader default (namedLine "Hou6") = parsedLine "Hou6" ∧
    (parsedLine "Hou6").1 = 0 ∧ (parsedLine "Hou6").2.1.host = strInit ∧
    (dispatched builtinTable (parsedLine "Hou6").2.1).map RequestHeaderHandler.name =
      some (bytes "Host") ∧
    ¬SameName ((parsedLine "Hou6").2.1.headerName.get (parsedLine "Hou6").2.2.data)
      (bytes "Host") ∧
    (handleHttpRequestHeader builtinTable (parsedLine "Hou6").2.1
      (parsedLine "Hou6").2.2).2.1.host = ⟨some 6, 1⟩ :=
  ⟨inLine_namedLine "Hou6", rfl, by decide +kernel⟩

end Cserv.Http
