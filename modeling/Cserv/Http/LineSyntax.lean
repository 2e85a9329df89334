import Cserv.Http.RequestLine

/-!
# The syntax of request lines

The language of request lines, as syntax trees whose fields carry the side
conditions of the grammar. A tree has its bytes and the spans of its parts.
-/
namespace Cserv.Http

/-! ## Syntax trees -/

inductive Eol
  | lf | crlf
  deriving DecidableEq, Repr

def Eol.bytes : Eol → List UInt8
  | .lf => [LF]
  | .crlf => [CR, LF]

def spaces (n : ℕ) : List UInt8 := List.replicate n (' ' : UInt8)

/-- The number a `http_major` or `http_minor` bit-field holds after its digits. -/
def numOf (ds : List UInt8) : ℕ := ds.foldl addDigit 0

/-- `HTTP/` major `.` minor, with the spaces behind it. -/
structure Version where
  major : List UInt8
  minor : List UInt8
  gap : ℕ
  major_digits : ∀ c ∈ major, isDigit c = true
  major_first : ∃ d ds, major = d :: ds ∧ d ≠ ('0' : UInt8)
  minor_digits : ∀ c ∈ minor, isDigit c = true
  minor_ne_nil : minor ≠ []

def Version.protocol (v : Version) : List UInt8 :=
  bytes "HTTP/" ++ (v.major ++ ('.' : UInt8) :: v.minor)

def endBytes (v : Option Version) (e : Eol) : List UInt8 :=
  match v with
  | none => e.bytes
  | some v => v.protocol ++ (spaces v.gap ++ e.bytes)

/-- The bytes of a URI: a space belongs to it when another byte of the URI follows
that is not `H`. -/
def UriText : List UInt8 → Prop
  | [] => True
  | c :: u => c ≠ '\x00' ∧ c ≠ CR ∧ c ≠ LF ∧
      (c = ' ' → ∃ d ∈ u.head?, d ≠ ('H' : UInt8)) ∧ UriText u

/-- A line from its URI on. An empty `uri` is the absolute form without a path. -/
structure Tail where
  uri : List UInt8
  gap : ℕ
  version : Option Version
  eol : Eol
  uri_slash : uri = [] ∨ ∃ u, uri = ('/' : UInt8) :: u
  uri_text : UriText uri
  bare_gap : uri = [] → 1 ≤ gap
  version_gap : version.isSome → 1 ≤ gap

def Tail.bytes (t : Tail) : List UInt8 := t.uri ++ (spaces t.gap ++ endBytes t.version t.eol)

def isHostByte (c : UInt8) : Bool := isAlpha c || isDigit c || c == '.' || c == '-'

/-- A host name, or an address literal in brackets. -/
def HostText (h : List UInt8) : Prop :=
  (∀ c ∈ h, isHostByte c = true) ∨
    ∃ l, h = ('[' : UInt8) :: (l ++ [(']' : UInt8)]) ∧ ∀ c ∈ l, isLiteralByte c = true

/-- `ALPHA+ "://" HOST [":" DIGIT*]`. -/
structure Authority where
  schema : List UInt8
  host : List UInt8
  port : Option (List UInt8)
  schema_alpha : ∀ c ∈ schema, isAlpha c = true
  schema_ne_nil : schema ≠ []
  host_text : HostText host
  port_digits : ∀ ds ∈ port, ∀ c ∈ ds, isDigit c = true

def portBytes : Option (List UInt8) → List UInt8
  | none => []
  | some ds => (':' : UInt8) :: ds

def Authority.bytes (a : Authority) : List UInt8 :=
  a.schema ++ (Http.bytes "://" ++ (a.host ++ portBytes a.port))

def authorityBytes : Option Authority → List UInt8
  | none => []
  | some a => a.bytes

/-- The target of a request with the rest of the line; without an authority it has a path. -/
structure Target where
  authority : Option Authority
  tail : Tail
  origin_path : authority = none → tail.uri ≠ []

def Target.bytes (t : Target) : List UInt8 := authorityBytes t.authority ++ t.tail.bytes

def methodWord : HttpMethod → List UInt8
  | .unknown => []
  | .get => bytes "GET"
  | .head => bytes "HEAD"
  | .post => bytes "POST"
  | .put => bytes "PUT"
  | .delete => bytes "DELETE"
  | .mkcol => bytes "MKCOL"
  | .copy => bytes "COPY"
  | .move => bytes "MOVE"
  | .options => bytes "OPTIONS"
  | .propfind => bytes "PROPFIND"
  | .proppatch => bytes "PROPPATCH"
  | .lock => bytes "LOCK"
  | .unlock => bytes "UNLOCK"
  | .patch => bytes "PATCH"
  | .trace => bytes "TRACE"

/-- The numbers of the version; a line without one is version 0.9, and so is every
line with the minor number 9. -/
def minorOf : Option Version → ℕ
  | none => 9
  | some v => numOf v.minor

def majorOf : Option Version → ℕ
  | none => 0
  | some v => if numOf v.minor = 9 then 0 else numOf v.major

structure RequestLine where
  lead : List UInt8
  method : HttpMethod
  gap : ℕ
  target : Target
  lead_eol : ∀ c ∈ lead, c = CR ∨ c = LF
  method_known : method ≠ .unknown
  gap_pos : 1 ≤ gap

def RequestLine.bytes (l : RequestLine) : List UInt8 :=
  l.lead ++ (methodWord l.method ++ (spaces l.gap ++ l.target.bytes))

def RequestLine.httpVersion (l : RequestLine) : ℕ :=
  majorOf l.target.tail.version * 1000 + minorOf l.target.tail.version

/-! ## Spans -/

/-- What the parser says about a line: the spans of its parts, the method and the version. -/
structure LineSpans where
  requestLine : Str
  methodName : Str
  method : HttpMethod
  schema : Str
  host : Str
  port : Str
  uri : Str
  httpProtocol : Str
  httpMajor : ℕ
  httpMinor : ℕ
  deriving DecidableEq, Repr

def HttpRequest.spans (r : HttpRequest) : LineSpans :=
  ⟨r.requestLine, r.methodName, r.method, r.schema, r.host, r.port, r.uri, r.httpProtocol,
    r.httpMajor, r.httpMinor⟩

/-- The spans of a line that starts at `pos` in the buffer: `request_line` runs from the
method to the end of the line, and the first slash of `://` stands for a missing path. -/
def RequestLine.spans (l : RequestLine) (pos : ℕ) : LineSpans :=
  let start := pos + l.lead.length
  let target := start + (methodWord l.method).length + l.gap
  let path := target + (authorityBytes l.target.authority).length
  let fin := path + l.target.tail.uri.length + l.target.tail.gap
  { requestLine := ⟨some start, l.bytes.length - l.lead.length - l.target.tail.eol.bytes.length⟩
    methodName := ⟨some start, (methodWord l.method).length⟩
    method := l.method
    schema := l.target.authority.elim strInit fun a => ⟨some target, a.schema.length⟩
    host := l.target.authority.elim strInit fun a =>
      ⟨some (target + a.schema.length + 3), a.host.length⟩
    port := l.target.authority.elim strInit fun a => a.port.elim strInit fun ds =>
      ⟨some (target + a.schema.length + 3 + a.host.length + 1), ds.length⟩
    uri := match l.target.authority, l.target.tail.uri with
      | some a, [] => ⟨some (target + a.schema.length + 1), 1⟩
      | _, u => ⟨some path, u.length⟩
    httpProtocol := l.target.tail.version.elim strInit fun v => ⟨some fin, v.protocol.length⟩
    httpMajor := majorOf l.target.tail.version
    httpMinor := minorOf l.target.tail.version }

end Cserv.Http
