import Mathlib.Tactic

/-!
# Requests and their buffer

The data of `struct http_request`, `struct buffer` and `str_t`. A pointer into
the request buffer is kept as its offset from `b->start`, so that two requests
at different addresses compare equal when their pointers do up to relocation;
`none` is `NULL`. Fields that no modelled function reads (`fd`, the `http_headers_in`
table) are left out.
-/
namespace Cserv.Http

/-- Character constants of the source stand for their byte. -/
instance charToByte : Coe Char UInt8 := ⟨Char.toUInt8⟩

abbrev CR : UInt8 := 13
abbrev LF : UInt8 := 10

/-- The bytes of a C string literal without its terminator. -/
def bytes (s : String) : List UInt8 := s.toList.map Char.toUInt8

abbrev Ptr := Option ℕ

/-- `p - q` for a pointer `p` at offset `a`, stored in a `size_t`. No `q` of the
parsers is `NULL` when it is subtracted. -/
def ptrSub (a : ℕ) : Ptr → ℕ
  | some q => if q ≤ a then a - q else 2 ^ 64 - (q - a)
  | none => 0

@[simp] theorem ptrSub_some_of_le {a q : ℕ} (h : q ≤ a) : ptrSub a (some q) = a - q := by
  simp [ptrSub, h]

structure Str where
  p : Ptr
  len : ℕ
  deriving DecidableEq, Repr

def strInit : Str := ⟨none, 0⟩

/-- The bytes a `str_t` denotes in the memory it points into. -/
def Str.get (s : Str) (mem : List UInt8) : List UInt8 :=
  match s.p with
  | some q => (mem.drop q).take s.len
  | none => []

theorem Str.get_of_drop {s : ℕ} {mem a v rest : List UInt8} (h : mem.drop s = a ++ (v ++ rest)) :
    (⟨some (s + a.length), v.length⟩ : Str).get mem = v := by
  simp only [Str.get]
  rw [← List.drop_drop, h, List.drop_left, List.take_left]

inductive HttpMethod
  | unknown | get | head | post | put | delete | mkcol | copy | move | options | propfind
  | proppatch | lock | unlock | patch | trace
  deriving DecidableEq, Repr

def HTTP_LC_HEADER_LEN : ℕ := 32

/-- `struct http_request`. The bit-fields `http_major` and `http_minor` hold
numbers below `2 ^ 16`; `contentLen` is an `int`. C gives no meaning to a store
beyond `lowcase_header`: such a store is recorded in `lowcaseOverrun`. -/
structure HttpRequest where
  state : ℕ
  requestLine : Str
  methodName : Str
  method : HttpMethod
  schema : Str
  host : Str
  port : Str
  uri : Str
  args : Ptr
  exten : Str
  httpProtocol : Str
  httpMajor : ℕ
  httpMinor : ℕ
  httpVersion : ℕ
  complexUri : Bool
  quotedUri : Bool
  plusInUri : Bool
  spaceInUri : Bool
  contentLen : ℤ
  content : Str
  headerName : Str
  headerValue : Str
  invalidHeader : Bool
  headerHash : UInt32
  lowcaseIndex : ℕ
  lowcaseHeader : List UInt8
  lowcaseOverrun : Bool
  deriving DecidableEq, Repr

/-- Memory of zero bytes, read as a request. -/
instance : Inhabited HttpRequest where
  default :=
    ⟨0, strInit, strInit, .unknown, strInit, strInit, strInit, strInit, none, strInit, strInit,
      0, 0, 0, false, false, false, false, 0, strInit, strInit, strInit, false, 0, 0,
      List.replicate HTTP_LC_HEADER_LEN 0, false⟩

/-- `struct buffer`: `data` are the bytes of `[start, last)`, `free` those of
`[last, end)` that earlier uses of the memory left there. -/
structure Buffer where
  data : List UInt8
  free : List UInt8
  pos : ℕ
  deriving DecidableEq, Repr

namespace Buffer

def bind (mem : List UInt8) : Buffer := ⟨[], mem, 0⟩

def unread (b : Buffer) : List UInt8 := b.data.drop b.pos

def capacity (b : Buffer) : ℕ := b.data.length + b.free.length

def append (b : Buffer) (bs : List UInt8) : Buffer :=
  { b with data := b.data ++ bs, free := b.free.drop bs.length }

/-- Writing `bs` over the bytes from `start` on, never beyond `last`. -/
def store (b : Buffer) (bs : List UInt8) : Buffer :=
  { b with data := bs.take b.data.length ++ b.data.drop bs.length }

theorem pos_add_unread (b : Buffer) (h : b.pos ≤ b.data.length) :
    b.pos + b.unread.length = b.data.length := by
  simp only [unread, List.length_drop]
  omega

@[simp] theorem store_length (b : Buffer) (bs : List UInt8) :
    (b.store bs).data.length = b.data.length := by
  simp [store]
  omega

theorem store_of_length {b : Buffer} {bs : List UInt8} (h : bs.length = b.data.length) :
    b.store bs = { b with data := bs } := by
  simp [store, ← h]

end Buffer

end Cserv.Http
