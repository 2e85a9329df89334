import Cserv.Foundations.Returns
import Cserv.Http.Request

/-!
# The responses

`http/response.c`: the tables of status lines and error pages, and `http_finalize_request`, which
builds a response in the buffer of the request and sends it. A response says that the connection
closes behind it, so that a client takes all that follows the header for the body.
-/
namespace Cserv.Http

open Foundations

/-! ## The tables -/

/-- `http_status_lines`; `none` is `NULL_STRING`. -/
def httpStatusLines : List (Option String) :=
  [some "200 OK", some "201 Created", some "202 Accepted", none, some "204 No Content", none,
    some "206 Partial Content",
    some "301 Moved Permanently", some "302 Moved Temporarily", some "303 See Other",
    some "304 Not Modified", none, none, some "307 Temporary Redirect",
    some "400 Bad Request", some "401 Unauthorized", some "402 Payment Required",
    some "403 Forbidden", some "404 Not Found", some "405 Not Allowed", some "406 Not Acceptable",
    none, some "408 Request Time-out", some "409 Conflict", some "410 Gone",
    some "411 Length Required", some "412 Precondition Failed",
    some "413 Request Entity Too Large", some "414 Request-URI Too Large",
    some "415 Unsupported Media Type", some "416 Requested Range Not Satisfiable",
    some "500 Internal Server Error", some "501 Not Implemented", some "502 Bad Gateway",
    some "503 Service Temporarily Unavailable", some "504 Gateway Time-out", none, none,
    some "507 Insufficient Storage"]

def crlf : String := "\r\n"

def httpStatusLast2xx : ℤ := 207

def httpStatusOffset3xx : ℤ := httpStatusLast2xx - 200

def httpStatusLast3xx : ℤ := 308

def httpStatusOffset4xx : ℤ := httpStatusLast3xx - 301 + httpStatusOffset3xx

def httpStatusLast4xx : ℤ := 417

def httpStatusOffset5xx : ℤ := httpStatusLast4xx - 400 + httpStatusOffset4xx

def httpStatusOffsetLast : ℤ := 508

/-- The text of a page with a title and a heading. -/
def page (title heading : String) : String :=
  "<html>" ++ crlf ++ "<head><title>" ++ title ++ "</title></head>" ++ crlf ++
    "<body bgcolor=\"white\">" ++ crlf ++ "<center><h1>" ++ heading ++ "</h1></center>" ++ crlf

/-- A page with a second line below the heading. -/
def pageWith (title heading line : String) : String :=
  page title heading ++ "<center>" ++ line ++ "</center>" ++ crlf

def httpError200Page : String := page "cserv" "welcome to cserv"

/-- `http_error_404_page`, which stands in the table twice. -/
def httpError404Page : String := page "404 Not Found" "404 Not Found"

/-- `http_error_pages`; `NULL_STRING` has no bytes. -/
def httpErrorPages : List String :=
  [page "301 Moved Permanently" "301 Moved Permanently", page "302 Found" "302 Found",
    page "303 See Other" "303 See Other", "", "", "",
    page "307 Temporary Redirect" "307 Temporary Redirect",
    page "400 Bad Request" "400 Bad Request",
    page "401 Authorization Required" "401 Authorization Required",
    page "402 Payment Required" "402 Payment Required", page "403 Forbidden" "403 Forbidden",
    httpError404Page, page "405 Not Allowed" "405 Not Allowed",
    page "406 Not Acceptable" "406 Not Acceptable", "",
    page "408 Request Time-out" "408 Request Time-out", page "409 Conflict" "409 Conflict",
    page "410 Gone" "410 Gone", page "411 Length Required" "411 Length Required",
    page "412 Precondition Failed" "412 Precondition Failed",
    page "413 Request Entity Too Large" "413 Request Entity Too Large",
    page "414 Request-URI Too Large" "414 Request-URI Too Large",
    page "415 Unsupported Media Type" "415 Unsupported Media Type",
    page "416 Requested Range Not Satisfiable" "416 Requested Range Not Satisfiable",
    pageWith "400 Request Header Or Cookie Too Large" "400 Bad Request"
      "Request Header Or Cookie Too Large",
    pageWith "400 The SSL certificate error" "400 Bad Request" "The SSL certificate error",
    pageWith "400 No required SSL certificate was sent" "400 Bad Request"
      "No required SSL certificate was sent",
    pageWith "400 The plain HTTP request was sent to HTTPS port" "400 Bad Request"
      "The plain HTTP request was sent to HTTPS port",
    httpError404Page, "",
    page "500 Internal Server Error" "500 Internal Server Error",
    page "501 Not Implemented" "501 Not Implemented", page "502 Bad Gateway" "502 Bad Gateway",
    page "503 Service Temporarily Unavailable" "503 Service Temporarily Unavailable",
    page "504 Gateway Time-out" "504 Gateway Time-out", "", "",
    page "507 Insufficient Storage" "507 Insufficient Storage"]

def httpErrorLast3xx : ℤ := 308

def httpErrorOffset4xx : ℤ := httpErrorLast3xx - 301

def httpErrorLast4xx : ℤ := 417

def httpErrorOffset494 : ℤ := httpErrorLast4xx - 400 + httpErrorOffset4xx

def httpErrorOffsetLast : ℤ := 508

def httpErrorHeader : String :=
  "Server: cserv/dev" ++ (crlf ++ ("Content-Type: text/html" ++ (crlf ++
    ("Connection: Close" ++ crlf))))

/-- `get_http_status_line`, with `none` in the result for `NULL`. A read outside the table fails. -/
def getHttpStatusLine (retCode : ℤ) : Option (Option String) :=
  if retCode ≥ 200 ∧ retCode < httpStatusLast2xx then
    httpStatusLines[(retCode - 200).toNat]?
  else if retCode ≥ 301 ∧ retCode < httpStatusLast3xx then
    httpStatusLines[(retCode - 301 + httpStatusOffset3xx).toNat]?
  else if retCode ≥ 400 ∧ retCode < httpStatusLast4xx then
    httpStatusLines[(retCode - 400 + httpStatusOffset4xx).toNat]?
  else if retCode ≥ 500 ∧ retCode < httpStatusOffsetLast then
    httpStatusLines[(retCode - 500 + httpStatusOffset5xx).toNat]?
  else
    some none

/-- `get_http_error_page`, which returns `NULL` for a code without an entry in the table. -/
def getHttpErrorPage (retCode : ℤ) : Option (Option String) :=
  if retCode ≥ 301 ∧ retCode < httpErrorLast3xx then
    httpErrorPages[(retCode - 301).toNat]?.map some
  else if retCode ≥ 400 ∧ retCode < httpErrorLast4xx then
    httpErrorPages[(retCode - 400 + httpErrorOffset4xx).toNat]?.map some
  else if retCode ≥ 494 ∧ retCode < httpErrorOffsetLast then
    httpErrorPages[(retCode - 494 + httpErrorOffset494).toNat]?.map some
  else
    some none

/-! ## Building a response -/

namespace Buffer

def restart (b : Buffer) : Buffer := ⟨[], b.data ++ b.free, 0⟩

/-- `memcpy(b->pos, text, len)` and `b->pos += len`, where `last` is `start`. A store behind `end`
fails. -/
def put (b : Buffer) (text : String) : Option Buffer :=
  if b.pos + (bytes text).length ≤ b.free.length then
    some { b with
      free := b.free.take b.pos ++ (bytes text ++ b.free.drop (b.pos + (bytes text).length))
      pos := b.pos + (bytes text).length }
  else none

end Buffer

/-- The empty line and the page, at the end of `http_finalize_request`. -/
def putPage (b : Buffer) (retCode : ℤ) : Option Buffer :=
  if retCode = 200 then do
    let b ← b.put crlf
    b.put httpError200Page
  else do
    match ← getHttpErrorPage retCode with
    | none => some b
    | some errorPage =>
      let b ← b.put crlf
      b.put errorPage

/-- `http_finalize_request`: the buffer after the call, and the bytes given to `send`. -/
def httpFinalizeRequest (b : Buffer) (retCode : ℤ) : Option (Buffer × Option (List UInt8)) := do
  match ← getHttpStatusLine retCode with
  | none => return (b, none)
  | some statusLine =>
    let b ← b.restart.put "HTTP/1.1 "
    let b ← b.put statusLine
    let b ← b.put (crlf ++ httpErrorHeader)
    let b ← putPage b retCode
    return (b, some (b.free.take b.pos))

/-! ## What is written -/

theorem bytes_append (s t : String) : bytes (s ++ t) = bytes s ++ bytes t := by
  simp [bytes]

theorem length_bytes (s : String) : (bytes s).length = s.length := by
  simp [bytes, String.length_toList]

/-- A buffer with the response written so far at its start. -/
def Buffer.holding (done : String) (mem : List UInt8) : Buffer :=
  ⟨[], bytes done ++ mem.drop done.length, done.length⟩

theorem Buffer.holding_put {done text : String} {mem : List UInt8}
    (hroom : (done ++ text).length ≤ mem.length) :
    (Buffer.holding done mem).put text = some (Buffer.holding (done ++ text) mem) := by
  rw [String.length_append] at hroom
  unfold Buffer.put Buffer.holding
  rw [if_pos]
  · have htake : (bytes done ++ mem.drop done.length).take done.length = bytes done := by
      rw [← length_bytes, List.take_left]
    have hdrop : (bytes done ++ mem.drop done.length).drop (done.length + text.length) =
        mem.drop (done.length + text.length) := by
      rw [← length_bytes, ← List.drop_drop, List.drop_left, List.drop_drop]
    simp only [length_bytes, htake, hdrop, bytes_append, String.length_append, List.append_assoc]
  · simp only [length_bytes, List.length_append, List.length_drop]
    omega

theorem Buffer.restart_put {b : Buffer} {text : String} (hroom : text.length ≤ b.capacity) :
    b.restart.put text = some (Buffer.holding text (b.data ++ b.free)) := by
  have hlen : 0 + (bytes text).length ≤ (b.data ++ b.free).length := by
    rw [Nat.zero_add, length_bytes, List.length_append]
    exact hroom
  unfold Buffer.put Buffer.restart Buffer.holding
  rw [if_pos hlen]
  simp [length_bytes]

theorem Buffer.capacity_holding {b : Buffer} {text : String} (hroom : text.length ≤ b.capacity) :
    (Buffer.holding text (b.data ++ b.free)).capacity = b.capacity := by
  unfold Buffer.holding Buffer.capacity at *
  simp only [List.length_append, List.length_drop, length_bytes, List.length_nil]
  omega

/-- The text behind the header: for the codes from 201 to 206 not even the empty line. -/
def responseTail (retCode : ℤ) (errorPage : Option String) : String :=
  if retCode = 200 then crlf ++ httpError200Page else (errorPage.map (crlf ++ ·)).getD ""

def responseText (retCode : ℤ) (statusLine : String) (errorPage : Option String) : String :=
  "HTTP/1.1 " ++ statusLine ++ (crlf ++ httpErrorHeader) ++ responseTail retCode errorPage

theorem putPage_eq {retCode : ℤ} {done : String} {errorPage : Option String} {mem : List UInt8}
    (hpage : getHttpErrorPage retCode = some errorPage)
    (hroom : (done ++ responseTail retCode errorPage).length ≤ mem.length) :
    putPage (Buffer.holding done mem) retCode =
      some (Buffer.holding (done ++ responseTail retCode errorPage) mem) := by
  have htwo : ∀ text : String, (done ++ (crlf ++ text)).length ≤ mem.length →
      (do
        let b ← (Buffer.holding done mem).put crlf
        b.put text) = some (Buffer.holding (done ++ (crlf ++ text)) mem) := by
    intro text hle
    rw [← String.append_assoc] at hle ⊢
    have hle' : (done ++ crlf).length ≤ mem.length := by
      rw [String.length_append] at hle
      omega
    rw [Buffer.holding_put hle', Option.bind_eq_bind, Option.bind_some, Buffer.holding_put hle]
  unfold responseTail at hroom ⊢
  unfold putPage
  split_ifs at hroom ⊢ with hok
  · exact htwo _ hroom
  · rw [hpage]
    cases errorPage with
    | none => simp
    | some text => exact htwo text hroom

theorem httpFinalizeRequest_eq {retCode : ℤ} {statusLine : String} {errorPage : Option String}
    {b : Buffer} (hline : getHttpStatusLine retCode = some (some statusLine))
    (hpage : getHttpErrorPage retCode = some errorPage)
    (hroom : (responseText retCode statusLine errorPage).length ≤ b.capacity) :
    httpFinalizeRequest b retCode =
      some (Buffer.holding (responseText retCode statusLine errorPage) (b.data ++ b.free),
        some (bytes (responseText retCode statusLine errorPage))) := by
  have hmem : (responseText retCode statusLine errorPage).length ≤ (b.data ++ b.free).length := by
    rwa [List.length_append]
  have h₃ := hmem
  unfold responseText at h₃
  have h₂ : ("HTTP/1.1 " ++ statusLine ++ (crlf ++ httpErrorHeader)).length ≤
      (b.data ++ b.free).length := by
    rw [String.length_append] at h₃
    omega
  have h₁ : ("HTTP/1.1 " ++ statusLine).length ≤ (b.data ++ b.free).length := by
    rw [String.length_append] at h₂
    omega
  have h₀ : "HTTP/1.1 ".length ≤ b.capacity := by
    rw [String.length_append, List.length_append] at h₁
    exact (Nat.le_add_right _ _).trans h₁
  unfold httpFinalizeRequest
  rw [hline]
  simp only [Option.bind_eq_bind, Option.bind_some]
  rw [Buffer.restart_put h₀, Option.bind_some, Buffer.holding_put h₁,
    Option.bind_some, Buffer.holding_put h₂, Option.bind_some, putPage_eq hpage h₃, Option.bind_some]
  simp only [Buffer.holding, ← length_bytes, List.take_left]
  rfl

/-! ## What a client reads -/

structure Response where
  status : ℕ
  header : List (List UInt8)
  body : List UInt8
  deriving DecidableEq, Repr

/-- The lines up to the empty one, and the bytes behind it; `line` is the part of the first line that
has been read. -/
def readHeader (line : List UInt8) : List UInt8 → Option (List (List UInt8) × List UInt8)
  | 13 :: 10 :: rest =>
    if line = [] then some ([], rest)
    else (readHeader [] rest).map fun (lines, body) => (line :: lines, body)
  | c :: rest => readHeader (line ++ [c]) rest
  | [] => none

def readStatus (line : List UInt8) : Option ℕ :=
  if bytes "HTTP/1.1 " <+: line then
    match (line.drop 9).map UInt8.toNat with
    | a :: b :: c :: 32 :: _ => some ((a - 48) * 100 + (b - 48) * 10 + (c - 48))
    | _ => none
  else none

def readResponse (bs : List UInt8) : Option Response := do
  match ← readHeader [] bs with
  | ([], _) => none
  | (line :: header, body) =>
    let status ← readStatus line
    return ⟨status, header, body⟩

theorem readHeader_append {text : List UInt8} (htext : 13 ∉ text) (line rest : List UInt8) :
    readHeader line (text ++ rest) = readHeader (line ++ text) rest := by
  induction text generalizing line with
  | nil => rw [List.append_nil, List.nil_append]
  | cons c text ih =>
    have hc : c ≠ 13 := fun hc => htext (by simp [hc])
    rw [List.cons_append, readHeader]
    · rw [ih (fun hin => htext (List.mem_cons_of_mem _ hin)), List.append_assoc]
      rfl
    · intro rest' hcr
      exact absurd hcr hc

theorem bytes_crlf : bytes crlf = [13, 10] := by
  rw [crlf, bytes, String.toList_ofList]
  rfl

structure TextLine (text : List UInt8) : Prop where
  oneLine : 13 ∉ text
  nonempty : text ≠ []

theorem textLine_ofList {text : List Char} (h : 13 ∉ text.map Char.toUInt8 ∧ text ≠ []) :
    TextLine (bytes (String.ofList text)) := by
  obtain ⟨hline, hne⟩ := h
  constructor
  · rwa [bytes, String.toList_ofList]
  · rw [bytes, String.toList_ofList]
    exact fun hnil => hne (List.map_eq_nil_iff.mp hnil)

theorem readHeader_line {text : List UInt8} (h : TextLine text) (rest : List UInt8) :
    readHeader [] (text ++ (bytes crlf ++ rest)) =
      (readHeader [] rest).map fun (lines, body) => (text :: lines, body) := by
  rw [readHeader_append h.oneLine, bytes_crlf, List.nil_append, List.cons_append, List.cons_append,
    List.nil_append, readHeader, if_neg h.nonempty]

/-! ## The codes -/

def digits (code : ℕ) : List UInt8 :=
  [.ofNat (48 + code / 100), .ofNat (48 + code / 10 % 10), .ofNat (48 + code % 10)]

/-- A text of one line that starts with a code. -/
structure Names (code : ℕ) (text : String) : Prop where
  code : digits code ++ [32] <+: bytes text
  oneLine : 13 ∉ bytes text
  short : text.length ≤ 40

theorem names_ofList {code : ℕ} {text : List Char}
    (h : digits code ++ [32] <+: text.map Char.toUInt8 ∧ 13 ∉ text.map Char.toUInt8 ∧
      text.length ≤ 40) : Names code (String.ofList text) := by
  obtain ⟨hcode, hline, hshort⟩ := h
  constructor
  · rwa [bytes, String.toList_ofList]
  · rwa [bytes, String.toList_ofList]
  · rwa [← String.length_toList, String.toList_ofList]

/-- What the table of pages has for a code with a status line. -/
inductive PageEntry (code : ℕ) : Option String → Prop
  | none (h : 200 ≤ code ∧ code ≤ 206) : PageEntry code none
  | empty (h : code = 304) : PageEntry code (some "")
  | text {text : String} (h : 300 ≤ code ∧ code ≠ 304) (htext : Names code text) :
      PageEntry code (some (page text text))

theorem getHttpStatusLine_code {retCode : ℤ} {statusLine : String}
    (h : getHttpStatusLine retCode = some (some statusLine)) :
    (200 ≤ retCode ∧ retCode ≤ 206) ∨ (301 ≤ retCode ∧ retCode ≤ 307) ∨
      (400 ≤ retCode ∧ retCode ≤ 416) ∨ (500 ≤ retCode ∧ retCode ≤ 507) := by
  unfold getHttpStatusLine httpStatusLast2xx httpStatusLast3xx httpStatusLast4xx
    httpStatusOffsetLast at h
  split_ifs at h
  · omega
  · omega
  · omega
  · omega
  · cases h

/-- The two tables are in step: a code finds its own status line and its own page. -/
theorem code_entries {retCode : ℤ} {statusLine : String}
    (h : getHttpStatusLine retCode = some (some statusLine)) :
    Names retCode.toNat statusLine ∧
      ∃ errorPage, getHttpErrorPage retCode = some errorPage ∧
        PageEntry retCode.toNat errorPage := by
  rcases getHttpStatusLine_code h with ⟨h₁, h₂⟩ | ⟨h₁, h₂⟩ | ⟨h₁, h₂⟩ | ⟨h₁, h₂⟩
  · interval_cases retCode
    all_goals cases h
    all_goals exact ⟨names_ofList (by decide +kernel), _, rfl, .none (by decide)⟩
  · interval_cases retCode
    all_goals cases h
    all_goals
      first
      | exact ⟨names_ofList (by decide +kernel), _, rfl, .empty rfl⟩
      | exact ⟨names_ofList (by decide +kernel), _, rfl,
          .text (by decide) (names_ofList (by decide +kernel))⟩
  · interval_cases retCode
    all_goals cases h
    all_goals
      exact ⟨names_ofList (by decide +kernel), _, rfl,
        .text (by decide) (names_ofList (by decide +kernel))⟩
  · interval_cases retCode
    all_goals cases h
    all_goals
      exact ⟨names_ofList (by decide +kernel), _, rfl,
        .text (by decide) (names_ofList (by decide +kernel))⟩

/-! ## Every response -/

def responseHeader : List (List UInt8) :=
  [bytes "Server: cserv/dev", bytes "Content-Type: text/html", bytes "Connection: Close"]

def sizeofHttpRequest : ℕ := 304

theorem length_crlf : crlf.length = 2 := String.length_ofList

theorem length_page (title heading : String) :
    (page title heading).length = 90 + title.length + heading.length := by
  have h₁ : "<html>".length = 6 := String.length_ofList
  have h₂ : "<head><title>".length = 13 := String.length_ofList
  have h₃ : "</title></head>".length = 15 := String.length_ofList
  have h₄ : "<body bgcolor=\"white\">".length = 22 := String.length_ofList
  have h₅ : "<center><h1>".length = 12 := String.length_ofList
  have h₆ : "</h1></center>".length = 14 := String.length_ofList
  unfold page
  simp only [String.length_append, h₁, h₂, h₃, h₄, h₅, h₆, length_crlf]
  omega

theorem length_httpErrorHeader : httpErrorHeader.length = 63 := by
  have h₁ : "Server: cserv/dev".length = 17 := String.length_ofList
  have h₂ : "Content-Type: text/html".length = 23 := String.length_ofList
  have h₃ : "Connection: Close".length = 17 := String.length_ofList
  unfold httpErrorHeader
  simp only [String.length_append, h₁, h₂, h₃, length_crlf]

/-- The longest response fits the smallest buffer. -/
theorem responseText_length {retCode : ℤ} {statusLine : String} {errorPage : Option String}
    (hline : Names retCode.toNat statusLine) (hpage : PageEntry retCode.toNat errorPage) :
    (responseText retCode statusLine errorPage).length ≤ 720 := by
  have h₁ : "HTTP/1.1 ".length = 9 := String.length_ofList
  have htail : (responseTail retCode errorPage).length ≤ 200 := by
    unfold responseTail
    split_ifs
    · have h₂ : "cserv".length = 5 := String.length_ofList
      have h₃ : "welcome to cserv".length = 16 := String.length_ofList
      rw [String.length_append, httpError200Page, length_page, length_crlf, h₂, h₃]
      omega
    · cases hpage with
      | none => exact Nat.zero_le _
      | empty =>
        simp only [Option.map_some, Option.getD_some, String.length_append, length_crlf,
          String.length_empty]
        omega
      | text _ htext =>
        have hshort := htext.short
        simp only [Option.map_some, Option.getD_some, String.length_append, length_page, length_crlf]
        omega
  have hshort := hline.short
  simp only [responseText, String.length_append, h₁, length_crlf, length_httpErrorHeader]
  omega

theorem readStatus_names {code : ℕ} (hcode : code < 1000) {statusLine : String}
    (h : Names code statusLine) : readStatus (bytes ("HTTP/1.1 " ++ statusLine)) = some code := by
  obtain ⟨rest, hrest⟩ := h.code
  have hlen : (bytes "HTTP/1.1 ").length = 9 := (length_bytes _).trans String.length_ofList
  have hdrop : (bytes "HTTP/1.1 " ++ bytes statusLine).drop 9 = digits code ++ [32] ++ rest := by
    rw [hrest, ← hlen, List.drop_left]
  have hmap : (digits code ++ [32] ++ rest).map UInt8.toNat =
      (48 + code / 100) :: (48 + code / 10 % 10) :: (48 + code % 10) :: 32 :: rest.map UInt8.toNat := by
    have h₁ : (48 + code / 100) % 2 ^ 8 = 48 + code / 100 := by omega
    have h₂ : (48 + code / 10 % 10) % 2 ^ 8 = 48 + code / 10 % 10 := by omega
    have h₃ : (48 + code % 10) % 2 ^ 8 = 48 + code % 10 := by omega
    simp only [digits, List.cons_append, List.nil_append, List.map_cons, UInt8.toNat_ofNat', h₁, h₂,
      h₃]
    rfl
  rw [bytes_append, readStatus, if_pos (List.prefix_append _ _), hdrop, hmap]
  simp only [Option.some.injEq]
  omega

theorem readHeader_lines {line a b c : String} (hline : TextLine (bytes line)) (ha : TextLine (bytes a))
    (hb : TextLine (bytes b)) (hc : TextLine (bytes c)) (rest : List UInt8) :
    readHeader [] (bytes (line ++ (crlf ++ (a ++ (crlf ++ (b ++ (crlf ++ (c ++ crlf))))))) ++ rest) =
      (readHeader [] rest).map fun (lines, body) =>
        (bytes line :: bytes a :: bytes b :: bytes c :: lines, body) := by
  simp only [bytes_append, List.append_assoc]
  rw [readHeader_line hline, readHeader_line ha, readHeader_line hb, readHeader_line hc]
  simp only [Option.map_map]
  rfl

theorem readHeader_text {code : ℕ} {statusLine : String} (hline : Names code statusLine)
    (rest : List UInt8) :
    readHeader [] (bytes ("HTTP/1.1 " ++ statusLine ++ (crlf ++ httpErrorHeader)) ++ rest) =
      (readHeader [] rest).map fun (lines, body) =>
        (bytes ("HTTP/1.1 " ++ statusLine) :: (responseHeader ++ lines), body) := by
  have h₀ : TextLine (bytes "HTTP/1.1 ") := textLine_ofList (by decide)
  have h₁ : TextLine (bytes "Server: cserv/dev") := textLine_ofList (by decide)
  have h₂ : TextLine (bytes "Content-Type: text/html") := textLine_ofList (by decide)
  have h₃ : TextLine (bytes "Connection: Close") := textLine_ofList (by decide)
  have hfirst : TextLine (bytes ("HTTP/1.1 " ++ statusLine)) := by
    rw [bytes_append]
    exact ⟨fun hin => (List.mem_append.mp hin).elim h₀.oneLine hline.oneLine,
      List.append_ne_nil_of_left_ne_nil h₀.nonempty _⟩
  exact readHeader_lines hfirst h₁ h₂ h₃ rest

theorem getHttpStatusLine_returns (retCode : ℤ) : ∃ line, getHttpStatusLine retCode = some line := by
  have hin : ∀ i : ℤ, i < 39 → ∃ line, httpStatusLines[i.toNat]? = some line := by
    intro i hi
    have hlt : i.toNat < httpStatusLines.length := by
      change i.toNat < 39
      omega
    exact ⟨_, List.getElem?_eq_getElem hlt⟩
  unfold getHttpStatusLine httpStatusLast2xx httpStatusOffset5xx httpStatusOffset4xx
    httpStatusOffset3xx httpStatusLast3xx httpStatusLast4xx httpStatusLast2xx httpStatusOffsetLast
  split_ifs
  · exact hin _ (by omega)
  · exact hin _ (by omega)
  · exact hin _ (by omega)
  · exact hin _ (by omega)
  · exact ⟨none, rfl⟩

/-- The body of a readable response: the bytes of the page that the table has for the code, whose
title starts with the code. -/
structure BodyOf (retCode : ℤ) (body : List UInt8) : Prop where
  ok : retCode = 200 → body = bytes httpError200Page
  entry : retCode ≠ 200 →
    ∃ errorPage, getHttpErrorPage retCode = some (some errorPage) ∧ body = bytes errorPage
  notModified : retCode = 304 → body = []
  titled : 300 ≤ retCode → retCode ≠ 304 →
    bytes ("<html>" ++ crlf ++ "<head><title>") ++ digits retCode.toNat <+: body

theorem page_titled {code : ℕ} {text : String} (h : Names code text) :
    bytes ("<html>" ++ crlf ++ "<head><title>") ++ digits code <+: bytes (page text text) := by
  obtain ⟨rest, hrest⟩ := h.code
  unfold page
  generalize "<html>" ++ crlf ++ "<head><title>" = front
  simp only [String.append_assoc]
  rw [bytes_append front, bytes_append text, ← hrest]
  simp only [List.append_assoc]
  rw [List.prefix_append_right_inj]
  exact List.prefix_append _ _

theorem readResponse_text {retCode : ℤ} {statusLine : String} {errorPage : Option String}
    (hcode : retCode.toNat < 1000) (hline : Names retCode.toNat statusLine) :
    readResponse (bytes (responseText retCode statusLine errorPage)) =
      (readHeader [] (bytes (responseTail retCode errorPage))).map fun (lines, body) =>
        ⟨retCode.toNat, responseHeader ++ lines, body⟩ := by
  unfold readResponse responseText
  rw [bytes_append _ (responseTail retCode errorPage), readHeader_text hline]
  cases readHeader [] (bytes (responseTail retCode errorPage)) with
  | none => rfl
  | some found => simp [readStatus_names hcode hline]

theorem readHeader_crlf (text : String) :
    readHeader [] (bytes (crlf ++ text)) = some ([], bytes text) := by
  rw [bytes_append, bytes_crlf]
  rfl

theorem readHeader_tail {retCode : ℤ} {errorPage : Option String}
    (hget : getHttpErrorPage retCode = some errorPage) (hpage : PageEntry retCode.toNat errorPage)
    (hcode : ¬ (201 ≤ retCode ∧ retCode ≤ 206)) :
    ∃ body, readHeader [] (bytes (responseTail retCode errorPage)) = some ([], body) ∧
      BodyOf retCode body := by
  unfold responseTail
  split_ifs with hok
  · refine ⟨_, readHeader_crlf _, fun _ => rfl, fun hne => absurd hok hne, ?_, ?_⟩
    · omega
    · omega
  · cases hpage with
    | none h => omega
    | empty h =>
      refine ⟨_, readHeader_crlf "", ?_, fun _ => ⟨_, hget, rfl⟩, fun _ => rfl, ?_⟩
      · omega
      · omega
    | text h htext =>
      refine ⟨_, readHeader_crlf _, ?_, fun _ => ⟨_, hget, rfl⟩, ?_, fun _ _ => page_titled htext⟩
      · omega
      · omega

/-- The codes from 201 to 206 have no page, and the header is not ended. -/
theorem readHeader_tail_none {retCode : ℤ} {errorPage : Option String}
    (hpage : PageEntry retCode.toNat errorPage) (hcode : 201 ≤ retCode ∧ retCode ≤ 206) :
    readHeader [] (bytes (responseTail retCode errorPage)) = none := by
  unfold responseTail
  rw [if_neg (by omega)]
  cases hpage with
  | none h => rfl
  | empty h => omega
  | text h htext => omega

/-- For every code and every size of the buffer, `http_finalize_request` stays in the buffer and
sends one response if the code has a status line. A client reads the code, the three header lines
and the page of this code, except that the header of the codes from 201 to 206 does not end. -/
theorem http_finalize_request_readable (kbytes : ℕ) (hk : 0 < kbytes) (b : Buffer)
    (hb : b.capacity = kbytes <<< 10 - sizeofHttpRequest) (retCode : ℤ) :
    ∃ b' out, httpFinalizeRequest b retCode = some (b', out) ∧ b'.capacity = b.capacity ∧
      (out = none ↔ getHttpStatusLine retCode = some none) ∧
      ∀ bs, out = some bs →
        if 201 ≤ retCode ∧ retCode ≤ 206 then readResponse bs = none
        else ∃ body, readResponse bs = some ⟨retCode.toNat, responseHeader, body⟩ ∧
          BodyOf retCode body := by
  obtain ⟨line, hline⟩ := getHttpStatusLine_returns retCode
  cases line with
  | none =>
    refine ⟨b, none, ?_, rfl, iff_of_true rfl hline, fun bs hbs => nomatch hbs⟩
    rw [httpFinalizeRequest, hline]
    rfl
  | some statusLine =>
    obtain ⟨hnames, errorPage, hpage, hentry⟩ := code_entries hline
    have hshort := responseText_length hnames hentry
    have hroom : (responseText retCode statusLine errorPage).length ≤ b.capacity := by
      rw [hb, Nat.shiftLeft_eq, sizeofHttpRequest]
      omega
    have hcode : retCode.toNat < 1000 := by
      have := getHttpStatusLine_code hline
      omega
    refine ⟨_, _, httpFinalizeRequest_eq hline hpage hroom, Buffer.capacity_holding hroom, ?_, ?_⟩
    · rw [hline]
      simp
    · intro bs hbs
      obtain rfl := Option.some.inj hbs
      rw [readResponse_text hcode hnames]
      split_ifs with hempty
      · rw [readHeader_tail_none hentry hempty]
        rfl
      · obtain ⟨body, hbody, hof⟩ := readHeader_tail hpage hentry hempty
        refine ⟨body, ?_, hof⟩
        rw [hbody]
        rfl

/-- The page for a path that is not there, in the smallest buffer. -/
theorem http_finalize_request_readable_404 : ∃ b' bs,
    httpFinalizeRequest ⟨[], List.replicate 720 0, 0⟩ 404 = some (b', some bs) ∧
      readResponse bs = some ⟨404, responseHeader, bytes httpError404Page⟩ := by
  obtain ⟨b', out, hcall, -, hnone, hread⟩ := http_finalize_request_readable 1 (by decide)
    ⟨[], List.replicate 720 0, 0⟩ (by rw [Buffer.capacity, List.length_replicate]; decide) 404
  cases out with
  | none => cases hnone.mp rfl
  | some bs =>
    have hbs := hread bs rfl
    rw [if_neg (by decide)] at hbs
    obtain ⟨body, hbody, hof⟩ := hbs
    obtain ⟨errorPage, hpage, rfl⟩ := hof.entry (by decide)
    have heq : errorPage = httpError404Page := (Option.some.inj (Option.some.inj hpage)).symm
    rw [heq] at hbody
    exact ⟨b', bs, hcall, hbody⟩

end Cserv.Http
