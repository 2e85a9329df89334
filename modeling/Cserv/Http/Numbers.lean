import Cserv.Http.HeaderHandlers
import Cserv.Http.LineGrammar

/-!
# Numbers in a request

The version of a request line and the value of `Content-Length` are decimal numerals of any
length, read into machine integers without a check. The version is read modulo `2 ^ 16`, and
a minor number 9 stands for HTTP/0.9; the length of the body is read in an `int`.
-/
namespace Cserv.Http

open Foundations

def decimalFrom (n : ℕ) (ds : List UInt8) : ℕ :=
  ds.foldl (fun n d => 10 * n + (d.toNat - '0'.toNat)) n

def decimal (ds : List UInt8) : ℕ := decimalFrom 0 ds

theorem le_decimalFrom (n : ℕ) (ds : List UInt8) : n ≤ decimalFrom n ds := by
  induction ds generalizing n with
  | nil => exact le_rfl
  | cons d ds ih =>
    have hnext := ih (10 * n + (d.toNat - '0'.toNat))
    change n ≤ decimalFrom (10 * n + (d.toNat - '0'.toNat)) ds
    omega

/-! ## The version -/

/-- The bit-fields hold the numbers of the version modulo `2 ^ 16`. -/
theorem numOf_eq_decimal (ds : List UInt8) : numOf ds = decimal ds % 2 ^ 16 := by
  change ds.foldl addDigit (0 % 2 ^ 16) = decimalFrom 0 ds % 2 ^ 16
  apply List.foldl_hom (· % 2 ^ 16)
  intro n d
  simp only [addDigit]
  omega

theorem Version.major_pos (v : Version) : 0 < decimal v.major := by
  obtain ⟨d, ds, hmajor, hzero⟩ := v.major_first
  have hdigit : isDigit d = true := v.major_digits d (by rw [hmajor]; exact List.mem_cons_self)
  have hpos : ∀ d : UInt8, isDigit d = true → d ≠ ('0' : UInt8) → 0 < d.toNat - '0'.toNat := by
    decide +kernel
  calc
    0 < 10 * 0 + (d.toNat - '0'.toNat) := by
      rw [Nat.mul_zero, Nat.zero_add]
      exact hpos d hdigit hzero
    _ ≤ decimalFrom (10 * 0 + (d.toNat - '0'.toNat)) ds := le_decimalFrom _ ds
    _ = decimal v.major := by rw [hmajor]; rfl

section Line

variable {g : HttpRequest} {b : Buffer} {l : RequestLine} {v : Version}

theorem RequestLine.httpVersion_some (hv : l.target.tail.version = some v) :
    l.httpVersion =
      (if decimal v.minor % 2 ^ 16 = 9 then 0 else decimal v.major % 2 ^ 16) * 1000 +
        decimal v.minor % 2 ^ 16 := by
  simp only [RequestLine.httpVersion, hv, majorOf, minorOf, numOf_eq_decimal]

theorem httpParseRequestLine_httpVersion (hl : l.bytes <+: b.unread)
    (hok : (httpParseRequestLine g.init b).1 = 0) :
    (httpParseRequestLine g.init b).2.1.httpVersion = l.httpVersion := by
  have hspans := (httpParseRequestLine_of_line (g := g) hl).2.1
  have hmajor : (httpParseRequestLine g.init b).2.1.httpMajor = majorOf l.target.tail.version :=
    congrArg LineSpans.httpMajor hspans
  have hminor : (httpParseRequestLine g.init b).2.1.httpMinor = minorOf l.target.tail.version :=
    congrArg LineSpans.httpMinor hspans
  rw [RequestLine.httpVersion, ← hmajor, ← hminor]
  rcases httpParseRequestLine_cases g.init b with ⟨st, r, -, he⟩ | ⟨p, r, -, he⟩ |
    ⟨p, code, r, -, hneg, he⟩ <;> rw [he] at hok ⊢
  · cases hok
  · rfl
  · exact absurd hok hneg.ne

/-- The version of an accepted line is read exactly if and only if both numbers fit into 16 bits and
the minor number is not 9. The line is taken for HTTP/0.9 if and only if the minor number is 9
in 16 bits. -/
theorem httpVersion_exact_iff (g : HttpRequest) (b : Buffer) (l : RequestLine) (v : Version)
    (hl : l.bytes <+: b.unread) (hv : l.target.tail.version = some v)
    (hok : (httpParseRequestLine g.init b).1 = 0) :
    ((httpParseRequestLine g.init b).2.1.httpVersion =
        1000 * decimal v.major + decimal v.minor ↔
      decimal v.major < 2 ^ 16 ∧ decimal v.minor < 2 ^ 16 ∧ decimal v.minor ≠ 9) ∧
    ((httpParseRequestLine g.init b).2.1.httpVersion = 9 ↔ decimal v.minor % 2 ^ 16 = 9) := by
  have hmajor := v.major_pos
  rw [httpParseRequestLine_httpVersion hl hok, RequestLine.httpVersion_some hv]
  split_ifs with hnine
  · constructor
    · omega
    · omega
  · constructor
    · omega
    · omega

end Line

theorem httpVersion_exact_get :
    (httpParseRequestLine (default : HttpRequest).init
      ⟨bytes "GET / HTTP/1.1\r\n", [], 0⟩).2.1.httpVersion = 1001 :=
  (httpVersion_exact_iff default ⟨bytes "GET / HTTP/1.1\r\n", [], 0⟩ getLine
    ⟨['1'], ['1'], 0, by decide +kernel, ⟨'1', [], rfl, by decide⟩, by decide +kernel, by simp⟩
    (by decide +kernel) rfl (by decide +kernel)).1.mpr (by decide +kernel)

/-- HTTP/1.9 is taken for HTTP/0.9, and HTTP/65537.1 for HTTP/1.1. -/
theorem httpVersion_wraps :
    (httpParseRequestLine (default : HttpRequest).init
      ⟨bytes "GET / HTTP/1.9\r\n", [], 0⟩).1 = 0 ∧
    (httpParseRequestLine (default : HttpRequest).init
      ⟨bytes "GET / HTTP/1.9\r\n", [], 0⟩).2.1.httpVersion = 9 ∧
    (httpParseRequestLine (default : HttpRequest).init
      ⟨bytes "GET / HTTP/65537.1\r\n", [], 0⟩).1 = 0 ∧
    (httpParseRequestLine (default : HttpRequest).init
      ⟨bytes "GET / HTTP/65537.1\r\n", [], 0⟩).2.1.httpVersion = 1001 := by
  decide +kernel

/-! ## The length of the body -/

theorem strAtoiFrom_eq (n : ℕ) (s : List UInt8) :
    strAtoiFrom (toInt32 n) s = toInt32 (decimalFrom n (s.takeWhile isDigit)) := by
  induction s generalizing n with
  | nil => rfl
  | cons ch rest ih =>
    rw [strAtoiFrom]
    by_cases hch : ch ≥ '0' ∧ ch ≤ '9'
    · have hdigit : isDigit ch = true := decide_eq_true hch
      have hnext := ih (10 * n + (ch.toNat - '0'.toNat))
      rw [if_pos hch, List.takeWhile_cons_of_pos hdigit, toInt32_mul_add]
      rw [Nat.cast_add, Nat.cast_mul] at hnext
      exact hnext
    · have hdigit : ¬isDigit ch = true := by simpa [isDigit] using hch
      rw [if_neg hch, List.takeWhile_cons_of_neg hdigit]
      rfl

/-- `str_atoi` reads the longest numeral at the front, modulo `2 ^ 32`. -/
theorem strAtoi_eq (s : List UInt8) : strAtoi s = toInt32 (decimal (s.takeWhile isDigit)) :=
  strAtoiFrom_eq 0 s

def contentNumber (r : HttpRequest) (mem : List UInt8) : ℕ :=
  decimal ((r.headerValue.get mem).takeWhile isDigit)

theorem httpProcessContentLength_contentLen (r : HttpRequest) (mem : List UInt8) :
    (httpProcessContentLength r mem).2.1.contentLen = toInt32 (contentNumber r mem) := by
  rw [contentNumber, ← strAtoi_eq, httpProcessContentLength]
  split_ifs <;> rfl

theorem httpProcessContentLength_zero_iff (r : HttpRequest) (mem : List UInt8) :
    (httpProcessContentLength r mem).1 = 0 ↔ 0 < toInt32 (contentNumber r mem) := by
  rw [contentNumber, ← strAtoi_eq, httpProcessContentLength]
  split_ifs with hlen
  · simpa using hlen
  · simpa using hlen

/-- The length is read exactly, and refused when it is no `int`, if and only if it is an `int` or
wraps to an `int` that is not positive. -/
theorem contentLength_exact_iff (r : HttpRequest) (mem : List UInt8) :
    (((httpProcessContentLength r mem).1 = 0 →
        (httpProcessContentLength r mem).2.1.contentLen = contentNumber r mem) ∧
      (2 ^ 31 ≤ contentNumber r mem → (httpProcessContentLength r mem).1 ≠ 0)) ↔
    contentNumber r mem < 2 ^ 31 ∨ contentNumber r mem % 2 ^ 32 = 0 ∨
      2 ^ 31 ≤ contentNumber r mem % 2 ^ 32 := by
  rw [httpProcessContentLength_contentLen, ne_eq, httpProcessContentLength_zero_iff,
    toInt32_natCast]
  split_ifs with hlow
  · constructor
    · intro ⟨hexact, hrefused⟩
      omega
    · intro hsmall
      constructor <;> omega
  · constructor
    · intro _
      omega
    · intro _
      constructor <;> omega

/-- A body of `2 ^ 32 + 1` bytes is announced, and one of a single byte is read. -/
theorem contentLength_wraps :
    contentNumber { (default : HttpRequest) with headerValue := ⟨some 0, 10⟩ }
      (bytes "4294967297\r\n") = 4294967297 ∧
    (httpProcessContentLength { (default : HttpRequest) with headerValue := ⟨some 0, 10⟩ }
      (bytes "4294967297\r\n")).1 = 0 ∧
    (httpProcessContentLength { (default : HttpRequest) with headerValue := ⟨some 0, 10⟩ }
      (bytes "4294967297\r\n")).2.1.contentLen = 1 := by
  decide +kernel

end Cserv.Http
