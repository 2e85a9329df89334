import Cserv.Foundations.MachineInt
import Cserv.Util.HashTable
import Cserv.Http.RequestHeader

/-!
# Header handlers and their dispatch

The two built-in handlers `http_process_host` and `http_process_content_length`,
the registration of handlers by the hash of their lower-cased name, and the
dispatch of a parsed header by the hash its parser computed.
-/
namespace Cserv.Http

open Foundations Util

/-! ## The handlers -/

/-- The loop of `str_atoi`, in `int` arithmetic that wraps around. -/
def strAtoiFrom (val : ℤ) : List UInt8 → ℤ
  | [] => val
  | ch :: rest =>
    if ch ≥ '0' ∧ ch ≤ '9' then
      strAtoiFrom (toInt32 (10 * val + (ch.toNat - '0'.toNat : ℕ))) rest
    else val

def strAtoi (s : List UInt8) : ℤ := strAtoiFrom 0 s

/-- A header handler reads the request and the buffer's bytes and returns its
code, the request, and the bytes as it leaves them. -/
abbrev HeaderHandler := HttpRequest → List UInt8 → ℤ × HttpRequest × List UInt8

def httpProcessContentLength : HeaderHandler := fun r mem =>
  let r := { r with contentLen := strAtoi (r.headerValue.get mem) }
  if r.contentLen ≤ 0 then (-1, r, mem) else (0, r, mem)

/-- The local `state` of `http_process_host`. -/
inductive HostState
  | usual | literal | rest
  deriving DecidableEq, Repr

structure HostLocals where
  state : HostState
  dotPos : ℕ
  hostLen : ℕ
  deriving DecidableEq, Repr

/-- `n - 1` in `size_t` arithmetic. -/
def sizePred (n : ℕ) : ℕ := if n = 0 then 2 ^ 64 - 1 else n - 1

def tolower (ch : UInt8) : UInt8 := if ch ≥ 'A' ∧ ch ≤ 'Z' then ch + 32 else ch

/-- One turn of the loop of `http_process_host`: a return code, or the locals and
the byte left at `i`. -/
def hostByte (i : ℕ) (l : HostLocals) (ch : UInt8) : ℤ ⊕ HostLocals × UInt8 :=
  if ch = '.' then
    if l.dotPos = sizePred i then .inl (-1) else .inr ({ l with dotPos := i }, ch)
  else if ch = ':' then
    if l.state = .usual then .inr ({ l with hostLen := i, state := .rest }, ch) else .inr (l, ch)
  else if ch = '[' then
    if i = 0 then .inr ({ l with state := .literal }, ch) else .inr (l, ch)
  else if ch = ']' then
    if l.state = .literal then .inr ({ l with hostLen := i + 1, state := .rest }, ch)
    else .inr (l, ch)
  else if ch = '\x00' then .inl (-1)
  else if ch = '/' then .inl (-2)
  else .inr (l, tolower ch)

/-- The loop of `http_process_host` from index `i` on, with the bytes it leaves. -/
def hostLoop (i : ℕ) (l : HostLocals) : List UInt8 → (ℤ ⊕ HostLocals) × List UInt8
  | [] => (.inr l, [])
  | ch :: rest =>
    match hostByte i l ch with
    | .inl code => (.inl code, ch :: rest)
    | .inr (l', ch') =>
      let out := hostLoop (i + 1) l' rest
      (out.1, ch' :: out.2)

def Str.put (s : Str) (bs mem : List UInt8) : List UInt8 :=
  match s.p with
  | some q => mem.take q ++ bs ++ mem.drop (q + bs.length)
  | none => mem

def httpProcessHost : HeaderHandler := fun r mem =>
  let r := { r with host.p := r.headerValue.p }
  let out := hostLoop 0 ⟨.usual, r.headerValue.len, r.headerValue.len⟩ (r.headerValue.get mem)
  let mem := r.headerValue.put out.2 mem
  match out.1 with
  | .inl code => (code, r, mem)
  | .inr l =>
    let hostLen := if l.dotPos = sizePred l.hostLen then sizePred l.hostLen else l.hostLen
    if hostLen = 0 then (-3, r, mem) else (0, { r with host.len := hostLen }, mem)

/-! ## Registration and dispatch -/

structure RequestHeaderHandler where
  name : List UInt8
  handler : Option HeaderHandler

/-- The array `http_headers_handler`, up to its terminator. -/
def httpHeadersHandler : List RequestHeaderHandler :=
  [⟨bytes "Host", some httpProcessHost⟩, ⟨bytes "Connection", none⟩,
    ⟨bytes "If-Modified-Since", none⟩, ⟨bytes "If-Unmodified-Since", none⟩,
    ⟨bytes "If-Match", none⟩, ⟨bytes "If-None-Match", none⟩, ⟨bytes "User-Agent", none⟩,
    ⟨bytes "Referer", none⟩, ⟨bytes "Content-Length", some httpProcessContentLength⟩,
    ⟨bytes "Content-Type", none⟩, ⟨bytes "Range", none⟩, ⟨bytes "If-Range", none⟩,
    ⟨bytes "Transfer-Encoding", none⟩, ⟨bytes "Expect", none⟩, ⟨bytes "Upgrade", none⟩,
    ⟨bytes "Authorization", none⟩, ⟨bytes "Keep-Alive", none⟩, ⟨bytes "Cookie", none⟩]

def hashKeyLc (data : List UInt8) : UInt32 := data.foldl (fun key ch => HASH key (tolower ch)) 0

abbrev HeaderTable := HashTable RequestHeaderHandler

/-- `add_client_header_handler`; `malloc` gives the outcome of each allocation, and
`none` stands for the `exit(-1)` on a conflict. -/
def addClientHeaderHandler (malloc : ℕ → Bool) (ht : HeaderTable) :
    List RequestHeaderHandler → Option HeaderTable
  | [] => some ht
  | h :: rest =>
    if h.name = [] then some ht
    else if h.handler.isNone then addClientHeaderHandler malloc ht rest
    else
      match hashTableAdd (malloc 0) ht (hashKeyLc h.name) h with
      | (0, ht') => addClientHeaderHandler (fun n => malloc (n + 1)) ht' rest
      | (_, _) => none

/-- The table `http_request_init` builds: the built-in handlers, then the caller's. -/
def requestHeaderTable (malloc malloc' : ℕ → Bool) (headerHandler : List RequestHeaderHandler) :
    Option HeaderTable := do
  let ht ← hashTableCreate 128
  let ht ← addClientHeaderHandler malloc ht httpHeadersHandler
  addClientHeaderHandler malloc' ht headerHandler

def registered (hs : List RequestHeaderHandler) : List RequestHeaderHandler :=
  (hs.takeWhile (fun h => h.name ≠ [])).filter (fun h => h.handler.isSome)

theorem addClientHeaderHandler_spec {malloc : ℕ → Bool} {ht ht' : HeaderTable}
    {hs : List RequestHeaderHandler} (hwf : ht.WellFormed)
    (h : addClientHeaderHandler malloc ht hs = some ht') :
    ht'.WellFormed ∧ ∀ key hh, ht'.Binds key hh ↔
      ht.Binds key hh ∨ hh ∈ registered hs ∧ key = hashKeyLc hh.name := by
  induction hs generalizing malloc ht with
  | nil =>
    obtain rfl := Option.some.inj h
    simp [hwf, registered]
  | cons e rest ih =>
    rw [addClientHeaderHandler] at h
    split_ifs at h with hname hnone
    · obtain rfl := Option.some.inj h
      simp [hwf, registered, hname]
    · have hreg : registered (e :: rest) = registered rest := by
        simp [registered, hname, Option.isNone_iff_eq_none.mp hnone]
      rw [hreg]
      exact ih hwf h
    · have hreg : registered (e :: rest) = e :: registered rest := by
        simp [registered, hname, Option.isSome_iff_ne_none, Option.isNone_iff_eq_none.not.mp hnone]
      split at h
      · rename_i ht₁ hadd
        obtain ⟨hwf', hbinds⟩ := ih (hwf.add hadd) h
        refine ⟨hwf', ?_⟩
        intro key hh
        rw [hbinds, (hwf.add_binds hadd).1, hreg, List.mem_cons]
        constructor
        · rintro ((⟨rfl, rfl⟩ | hb) | ⟨hmem, hkey⟩)
          · exact Or.inr ⟨Or.inl rfl, rfl⟩
          · exact Or.inl hb
          · exact Or.inr ⟨Or.inr hmem, hkey⟩
        · rintro (hb | ⟨rfl | hmem, hkey⟩)
          · exact Or.inl (Or.inr hb)
          · exact Or.inl (Or.inl ⟨hkey, rfl⟩)
          · exact Or.inr ⟨hmem, hkey⟩
      · cases h

/-- A table built by calls of `add_client_header_handler` that met no conflict, with
the entries these calls registered. -/
inductive HandlerTable : HeaderTable → List RequestHeaderHandler → Prop
  | create {n : ℕ} {ht : HeaderTable} : hashTableCreate n = some ht → HandlerTable ht []
  | add {malloc : ℕ → Bool} {ht ht' : HeaderTable} {reg hs : List RequestHeaderHandler} :
      HandlerTable ht reg → addClientHeaderHandler malloc ht hs = some ht' →
      HandlerTable ht' (reg ++ registered hs)

theorem HandlerTable.binds {ht : HeaderTable} {reg : List RequestHeaderHandler}
    (h : HandlerTable ht reg) :
    ht.WellFormed ∧ ∀ key hh, ht.Binds key hh ↔ hh ∈ reg ∧ key = hashKeyLc hh.name := by
  induction h with
  | create h =>
    refine ⟨HashTable.create_wellFormed h, ?_⟩
    intro key hh
    simp [HashTable.create_binds h key hh]
  | add _ hadd ih =>
    obtain ⟨hwf, hbinds⟩ := addClientHeaderHandler_spec ih.1 hadd
    refine ⟨hwf, ?_⟩
    intro key hh
    rw [hbinds, ih.2, List.mem_append]
    tauto

theorem HandlerTable.find {ht : HeaderTable} {reg : List RequestHeaderHandler}
    (h : HandlerTable ht reg) (key : UInt32) (hh : RequestHeaderHandler) :
    hashTableFind ht key = some hh ↔ hh ∈ reg ∧ key = hashKeyLc hh.name := by
  rw [h.binds.1.find_eq_some, h.binds.2]

theorem HandlerTable.isSome {ht : HeaderTable} {reg : List RequestHeaderHandler}
    (h : HandlerTable ht reg) : ∀ hh ∈ reg, hh.handler.isSome := by
  induction h with
  | create _ => simp
  | add _ _ ih =>
    intro hh hmem
    rcases List.mem_append.mp hmem with hmem | hmem
    · exact ih hh hmem
    · exact (List.mem_filter.mp hmem).2

theorem requestHeaderTable_handlers {malloc malloc' : ℕ → Bool} {hs : List RequestHeaderHandler}
    {ht : HeaderTable} (h : requestHeaderTable malloc malloc' hs = some ht) :
    HandlerTable ht (registered httpHeadersHandler ++ registered hs) := by
  simp only [requestHeaderTable, Option.bind_eq_bind, Option.bind_eq_some_iff] at h
  obtain ⟨ht₀, h₀, ht₁, h₁, h₂⟩ := h
  exact ((HandlerTable.create h₀).add h₁).add h₂

def builtinTable : HeaderTable :=
  (requestHeaderTable (fun _ => true) (fun _ => true) []).get (by decide +kernel)

theorem builtin_registered : registered httpHeadersHandler ++ registered [] =
    [⟨bytes "Host", some httpProcessHost⟩,
      ⟨bytes "Content-Length", some httpProcessContentLength⟩] := rfl

theorem requestHeaderTable_builtin :
    requestHeaderTable (fun _ => true) (fun _ => true) [] = some builtinTable :=
  (Option.some_get _).symm

/-- Without handlers of the caller, the table leads to the two built-in ones only. -/
theorem requestHeaderTable_builtin_only {malloc malloc' : ℕ → Bool} {ht : HeaderTable}
    (h : requestHeaderTable malloc malloc' [] = some ht) {key : UInt32} {hh : RequestHeaderHandler}
    {f : HeaderHandler} (hfind : hashTableFind ht key = some hh) (hf : hh.handler = some f) :
    f = httpProcessHost ∨ f = httpProcessContentLength := by
  have hmem := (((requestHeaderTable_handlers h).find key hh).mp hfind).1
  rw [builtin_registered, List.mem_pair] at hmem
  rcases hmem with rfl | rfl
  · exact Or.inl (Option.some.inj hf).symm
  · exact Or.inr (Option.some.inj hf).symm

def dispatched (ht : HeaderTable) (r : HttpRequest) : Option RequestHeaderHandler :=
  if r.invalidHeader then none
  else (hashTableFind ht r.headerHash).filter (fun hh => hh.handler.isSome)

theorem dispatched_find {ht : HeaderTable} {r : HttpRequest} {hh : RequestHeaderHandler}
    (h : dispatched ht r = some hh) : hashTableFind ht r.headerHash = some hh := by
  unfold dispatched at h
  split_ifs at h
  exact (Option.filter_eq_some_iff.mp h).1

def handleHttpRequestHeader (ht : HeaderTable) (r : HttpRequest) (b : Buffer) :
    ℤ × HttpRequest × Buffer :=
  match (dispatched ht r).bind RequestHeaderHandler.handler with
  | some f =>
    let out := f r b.data
    (out.1, out.2.1, b.store out.2.2)
  | none => (0, r, b)

/-- A handler may rewrite received bytes, but moves no pointer of the buffer. -/
theorem handleHttpRequestHeader_buffer (ht : HeaderTable) (r : HttpRequest) (b : Buffer) :
    (handleHttpRequestHeader ht r b).2.2.data.length = b.data.length ∧
      (handleHttpRequestHeader ht r b).2.2.free = b.free ∧
      (handleHttpRequestHeader ht r b).2.2.pos = b.pos := by
  unfold handleHttpRequestHeader
  split
  · exact ⟨Buffer.store_length _ _, rfl, rfl⟩
  · exact ⟨rfl, rfl, rfl⟩

end Cserv.Http
