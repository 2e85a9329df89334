import Cserv.Http.NameBuffer
import Cserv.Http.Response
import Cserv.Http.Serving
import Cserv.Util.Memcache

/-!
# Connections do not see each other

A worker serves its connections at the same time. Their coroutines take turns at the calls of
`recv`, and their request objects come from one cache, which hands out again what earlier requests
have left. Still every client gets the answer to its own bytes: the one that the handler gives on a
new object of its own.
-/
namespace Cserv.Http

open Foundations Util Relation

/-! ## Handlers at work -/

/-- What is stored in an object of `http_request_cache`. -/
structure Object where
  r : HttpRequest
  b : Buffer

/-- The fields that `http_request_handler` sets, and `bind_buffer`. -/
def Object.init (o : Object) : Object := ⟨o.r.init, Buffer.bind (o.b.data ++ o.b.free)⟩

/-- Where a call of `http_request_handler` is. -/
inductive HandlerPc
  | alloc
  | serve (p : ℕ) (stage : Stage)
  | send (p : ℕ) (response : List UInt8)
  | free (p : ℕ)
  | returned
  | fastSend
  | refused

def HandlerPc.object : HandlerPc → Option ℕ
  | .serve p _ | .send p _ | .free p => some p
  | .alloc | .returned | .fastSend | .refused => none

/-- The code given to `http_finalize_request`, at the end or by `request_body_default_handler`. -/
def Stage.code : Stage → Option ℤ
  | .finalized status => some status
  | .handled => some 200
  | .recvLine | .parseLine | .parseHeader | .handleHeader | .recvHeader | .body => none

def httpInsufficientStoragePage : String :=
  "HTTP/1.1 507 Insufficient Storage" ++ crlf ++ httpErrorHeader ++ crlf ++
    page "507 Insufficient Storage" "507 Insufficient Storage"

/-- The handlers of the connections `ι`: the heap with the cache, the contents of its objects, what
the sockets have still to deliver, and the bytes the kernel has taken. -/
structure Handlers (ι : Type*) where
  heap : Heap
  cache : Memcache
  mem : ℕ → Object
  sock : ι → Socket
  pc : ι → HandlerPc
  sent : ι → List UInt8

/-- An object of a buffer of `size` bytes, with an index into `lowcase_header` in range. -/
structure Sound (size : ℕ) (o : Object) : Prop where
  index : o.r.lowcaseIndex < HTTP_LC_HEADER_LEN
  capacity : o.b.capacity = size

section Steps

variable {ι : Type*} [DecidableEq ι]

namespace Handlers

variable (x : Handlers ι)

def goto (i : ι) (pc : HandlerPc) : Handlers ι := { x with pc := Function.update x.pc i pc }

def store (p : ℕ) (o : Object) : Handlers ι := { x with mem := Function.update x.mem p o }

def put (i : ι) (bs : List UInt8) : Handlers ι :=
  { x with sent := Function.update x.sent i (x.sent i ++ bs) }

def conn (i : ι) (p : ℕ) : Conn := ⟨(x.mem p).r, (x.mem p).b, x.sock i⟩

def setConn (i : ι) (p : ℕ) (c : Conn) : Handlers ι :=
  { x.store p ⟨c.r, c.b⟩ with sock := Function.update x.sock i c.sock }

/-- The block is the cache, one of its objects or one of a handler. -/
def InUse (p : ℕ) : Prop :=
  p = x.cache.addr ∨ p ∈ x.cache.cached ∨ ∃ i, (x.pc i).object = some p

end Handlers

/-- The steps of the handler `i`. New memory holds anything, but an index in range; the kernel takes
a part of what it is sent. -/
inductive HandlerStep (size : ℕ) (i : ι) : Handlers ι → Handlers ι → Prop
  | alloc (x : Handlers ι) (answer : x.heap.Answer x.cache.objSize) (o : Object) {p : ℕ}
      {cache : Memcache} {heap : Heap} (hpc : x.pc i = .alloc)
      (hcall : memcacheAlloc x.cache x.heap answer = some (p, cache, heap)) (hp : p ≠ 0)
      (hold : x.cache.curr ≠ 0 → o = x.mem p) (hnew : x.cache.curr = 0 → Sound size o) :
      HandlerStep size i x
        (({ x with heap := heap, cache := cache }.store p o.init).goto i (.serve p .recvLine))
  | allocFailed (x : Handlers ι) (answer : x.heap.Answer x.cache.objSize) {cache : Memcache}
      {heap : Heap} (hpc : x.pc i = .alloc)
      (hcall : memcacheAlloc x.cache x.heap answer = some (0, cache, heap)) :
      HandlerStep size i x ({ x with heap := heap, cache := cache }.goto i .fastSend)
  | serve (x : Handlers ι) (p : ℕ) (stage : Stage) (hpc : x.pc i = .serve p stage)
      (hstage : stage.code = none) :
      HandlerStep size i x
        ((x.setConn i p (serveStep builtinTable (stage, x.conn i p)).2).goto i
          (.serve p (serveStep builtinTable (stage, x.conn i p)).1))
  | finalize (x : Handlers ι) (p : ℕ) (stage : Stage) (code : ℤ) {b : Buffer} {bs : List UInt8}
      (hpc : x.pc i = .serve p stage) (hcode : stage.code = some code)
      (hcall : httpFinalizeRequest (x.mem p).b code = some (b, some bs)) :
      HandlerStep size i x ((x.store p { x.mem p with b := b }).goto i (.send p bs))
  | finalizeNone (x : Handlers ι) (p : ℕ) (stage : Stage) (code : ℤ) {b : Buffer}
      (hpc : x.pc i = .serve p stage) (hcode : stage.code = some code)
      (hcall : httpFinalizeRequest (x.mem p).b code = some (b, none)) :
      HandlerStep size i x ((x.store p { x.mem p with b := b }).goto i (.free p))
  | send (x : Handlers ι) (p : ℕ) (bs : List UInt8) (taken : ℕ) (hpc : x.pc i = .send p bs) :
      HandlerStep size i x ((x.put i (bs.take taken)).goto i (.free p))
  | free (x : Handlers ι) (p : ℕ) {cache : Memcache} {heap : Heap} (hpc : x.pc i = .free p)
      (hcall : memcacheFree x.cache x.heap p = some (cache, heap)) :
      HandlerStep size i x ({ x with heap := heap, cache := cache }.goto i .returned)
  | fastSend (x : Handlers ι) (taken : ℕ) (hpc : x.pc i = .fastSend) :
      HandlerStep size i x
        ((x.put i ((bytes httpInsufficientStoragePage).take taken)).goto i .refused)

/-- What other code does with memory of its own. -/
inductive OtherStep : Handlers ι → Handlers ι → Prop
  | malloc (x : Handlers ι) (n : ℕ) (answer : x.heap.Answer n) :
      OtherStep x { x with heap := x.heap.malloc n answer }
  | free (x : Handlers ι) {p : ℕ} {heap : Heap} (hp : ¬ x.InUse p)
      (hcall : x.heap.free p = some heap) : OtherStep x { x with heap := heap }
  | store (x : Handlers ι) {p : ℕ} (o : Object) (hp : ¬ x.InUse p) : OtherStep x (x.store p o)

/-- The steps of the handlers and of other code, in any order. -/
inductive HandlersStep (size : ℕ) : Handlers ι → Handlers ι → Prop
  | handler {x y : Handlers ι} (i : ι) (h : HandlerStep size i x y) : HandlersStep size x y
  | other {x y : Handlers ι} (h : OtherStep x y) : HandlersStep size x y

end Steps

/-! ## One handler -/

/-- The code of the response to a connection. -/
def Served.code : Served → ℤ
  | .finalized status => status
  | .handled _ => 200

def responseFor (code : ℤ) : List UInt8 :=
  match getHttpStatusLine code, getHttpErrorPage code with
  | some (some statusLine), some errorPage => bytes (responseText code statusLine errorPage)
  | _, _ => []

/-- The answer to what a client sends, as a function of that alone: the response of the handler on
a new object with a buffer of `size` bytes. -/
def answer (size : ℕ) (sock : Socket) : List UInt8 :=
  responseFor (httpRequestHandler builtinTable default (List.replicate size 0) sock).code

theorem served_code {y : Stage × Conn} {code : ℤ} (h : y.1.code = some code) :
    ∃ s, Stage.served y = some s ∧ s.code = code := by
  obtain ⟨stage, c⟩ := y
  cases stage with
  | finalized status => exact ⟨_, rfl, Option.some.inj h⟩
  | handled => exact ⟨_, rfl, Option.some.inj h⟩
  | _ => cases h

theorem serveStep_served {ht : HeaderTable} {y : Stage × Conn} {s : Served}
    (h : Stage.served y = some s) : serveStep ht y = y := by
  obtain ⟨stage, c⟩ := y
  cases stage with
  | finalized status => rfl
  | handled => rfl
  | _ => cases h

/-- A run of the machine that has ended, has ended as the handler does. -/
theorem Reaches.served_eq {ht : HeaderTable} {g : HttpRequest} {mem : List UInt8} {sock : Socket}
    {y : Stage × Conn} (h : Reaches ht (.recvLine, ⟨g.init, Buffer.bind mem, sock⟩) y) {s : Served}
    (hs : Stage.served y = some s) : s = httpRequestHandler ht g mem sock := by
  have hstay : ∀ {z : Stage × Conn} {s : Served}, Stage.served z = some s →
      ∀ n, (serveStep ht)^[n] z = z := by
    intro z s hz n
    exact Function.iterate_fixed (serveStep_served hz) n
  obtain ⟨z, ⟨m, hm⟩, hz⟩ := reaches_served ht g mem sock
  obtain ⟨n, hn⟩ := h
  have hyz : y = z := by
    rw [← hstay hs m, ← hstay hz n, ← hn, ← hm, ← Function.iterate_add_apply,
      ← Function.iterate_add_apply, Nat.add_comm]
  rw [hyz, hz] at hs
  exact (Option.some.inj hs).symm

theorem httpRequestHandler_code (ht : HeaderTable) (g : HttpRequest) (mem : List UInt8)
    (sock : Socket) :
    (httpRequestHandler ht g mem sock).code = 200 ∨ (httpRequestHandler ht g mem sock).code = 400 ∨
      (httpRequestHandler ht g mem sock).code = 507 := by
  unfold httpRequestHandler httpRequestHandlerBody
  dsimp only
  split_ifs
  · exact Or.inr (Or.inl rfl)
  · exact Or.inl rfl
  · exact Or.inr (Or.inl rfl)
  · exact Or.inr (Or.inr rfl)
  · exact Or.inl rfl

theorem ServedTwin.code {g : HttpRequest} {s t : Served} (h : ServedTwin g s t) : t.code = s.code := by
  cases h <;> rfl

/-- What an object held before does not change the code. -/
theorem httpRequestHandler_code_eq (g : HttpRequest) {mem : List UInt8} {size : ℕ}
    (hmem : mem.length = size) (sock : Socket) :
    (httpRequestHandler builtinTable g mem sock).code =
      (httpRequestHandler builtinTable default (List.replicate size 0) sock).code := by
  have hlen : mem.length = (List.replicate size (0 : UInt8)).length := by
    rw [List.length_replicate, hmem]
  have hnew : ServedTwin default
      (httpRequestHandler builtinTable blankRequest (List.replicate size 0) sock)
      (httpRequestHandler builtinTable default (List.replicate size 0) sock) :=
    httpRequestHandler_twin default (Or.inl rfl)
  rw [(httpRequestHandler_twin g (Or.inl hlen)).code, hnew.code]

theorem httpFinalizeRequest_responseFor {b : Buffer} {code : ℤ} (hroom : 720 ≤ b.capacity)
    (hcode : code = 200 ∨ code = 400 ∨ code = 507) :
    ∃ b', httpFinalizeRequest b code = some (b', some (responseFor code)) ∧
      b'.capacity = b.capacity := by
  obtain ⟨statusLine, hline⟩ : ∃ statusLine, getHttpStatusLine code = some (some statusLine) := by
    rcases hcode with rfl | rfl | rfl
    · exact ⟨_, rfl⟩
    · exact ⟨_, rfl⟩
    · exact ⟨_, rfl⟩
  obtain ⟨hnames, errorPage, hpage, hentry⟩ := code_entries hline
  have hfits := (responseText_length hnames hentry).trans hroom
  have hresponse : responseFor code = bytes (responseText code statusLine errorPage) := by
    rw [responseFor, hline, hpage]
  rw [hresponse]
  exact ⟨_, httpFinalizeRequest_eq hline hpage hfits, Buffer.capacity_holding hfits⟩

theorem serveStep_inBounds {y : Stage × Conn} (h : y.2.r.InBounds) :
    (serveStep builtinTable y).2.r.InBounds := by
  obtain ⟨stage, c⟩ := y
  have hrecv : (recvHttpRequest c).2.r.InBounds := by
    rw [recvHttpRequest_request (Prod.mk.eta).symm]
    exact h
  cases stage with
  | recvLine => exact hrecv
  | parseLine => exact httpParseRequestLine_inBounds c.b h
  | parseHeader => exact httpParseRequestHeader_inBounds c.b h
  | handleHeader => exact builtinTable_inBounds c.r c.b h
  | recvHeader => exact hrecv
  | body =>
    simp only [serveStep]
    split_ifs
    · exact h
    · exact hrecv
    · exact hrecv
  | finalized status => exact h
  | handled => exact h

theorem Reaches.inv {g : HttpRequest} {mem : List UInt8} {sock : Socket} {y : Stage × Conn}
    (h : Reaches builtinTable (.recvLine, ⟨g.init, Buffer.bind mem, sock⟩) y)
    (hindex : g.lowcaseIndex < HTTP_LC_HEADER_LEN) :
    Stage.Inv mem.length y ∧ y.2.r.InBounds := by
  obtain ⟨n, rfl⟩ := h
  induction n with
  | zero => exact ⟨Stage.inv_init g mem sock, hindex, rfl⟩
  | succ n ih =>
    rw [Function.iterate_succ_apply']
    exact ⟨ih.1.step requestHeaderTable_builtin, serveStep_inBounds ih.2⟩

/-! ## All handlers -/

section Invariant

variable {ι : Type*} [DecidableEq ι] {size : ℕ}

/-- What a handler has done for a connection that was to deliver `sock₀`. -/
inductive Progress (size : ℕ) (sock₀ : Socket) (mem : ℕ → Object) (sock : Socket)
    (sent : List UInt8) : HandlerPc → Prop
  | alloc (hsock : sock = sock₀) (hsent : sent = []) : Progress size sock₀ mem sock sent .alloc
  | serve {p : ℕ} {stage : Stage} {g : HttpRequest} {old : List UInt8} (hlen : old.length = size)
      (hindex : g.lowcaseIndex < HTTP_LC_HEADER_LEN)
      (hreach : Reaches builtinTable (.recvLine, ⟨g.init, Buffer.bind old, sock₀⟩)
        (stage, ⟨(mem p).r, (mem p).b, sock⟩))
      (hsent : sent = []) : Progress size sock₀ mem sock sent (.serve p stage)
  | send {p : ℕ} (hsent : sent = []) :
      Progress size sock₀ mem sock sent (.send p (answer size sock₀))
  | free {p : ℕ} (hsent : sent <+: answer size sock₀) : Progress size sock₀ mem sock sent (.free p)
  | returned (hsent : sent <+: answer size sock₀) : Progress size sock₀ mem sock sent .returned
  | fastSend (hsent : sent = []) : Progress size sock₀ mem sock sent .fastSend
  | refused (hsent : sent <+: bytes httpInsufficientStoragePage) :
      Progress size sock₀ mem sock sent .refused

/-- A handler does not notice what happens outside its object. -/
theorem Progress.frame {sock₀ sock : Socket} {mem mem' : ℕ → Object} {sent : List UInt8}
    {pc : HandlerPc} (h : Progress size sock₀ mem sock sent pc)
    (hmem : ∀ p, pc.object = some p → mem' p = mem p) : Progress size sock₀ mem' sock sent pc := by
  cases h with
  | alloc hsock hsent => exact .alloc hsock hsent
  | serve hlen hindex hreach hsent =>
    rw [← hmem _ rfl] at hreach
    exact .serve hlen hindex hreach hsent
  | send hsent => exact .send hsent
  | free hsent => exact .free hsent
  | returned hsent => exact .returned hsent
  | fastSend hsent => exact .fastSend hsent
  | refused hsent => exact .refused hsent

/-- The objects in `held` are those of the handlers, and no two handlers have the same. -/
structure Held (object : ι → Option ℕ) (held : List ℕ) : Prop where
  mem_iff : ∀ p, p ∈ held ↔ ∃ i, object i = some p
  apart : ∀ i j p, object i = some p → object j = some p → i = j

namespace Held

variable {object : ι → Option ℕ} {held : List ℕ} {i : ι} {p : ℕ}

theorem alloc (h : Held object held) (hi : object i = none) (hp : p ∉ held) :
    Held (Function.update object i (some p)) (p :: held) where
  mem_iff q := by
    rw [List.mem_cons, h.mem_iff]
    constructor
    · rintro (rfl | ⟨j, hj⟩)
      · exact ⟨i, Function.update_self ..⟩
      · have hji : j ≠ i := fun hji => by rw [hji, hi] at hj; cases hj
        exact ⟨j, by rwa [Function.update_of_ne hji]⟩
    · rintro ⟨j, hj⟩
      by_cases hji : j = i
      · rw [hji, Function.update_self] at hj
        exact Or.inl (Option.some.inj hj).symm
      · rw [Function.update_of_ne hji] at hj
        exact Or.inr ⟨j, hj⟩
  apart j k q hj hk := by
    have hnew : ∀ l, l ≠ i → Function.update object i (some p) l = some q → q ≠ p := by
      intro l hl hq heq
      rw [Function.update_of_ne hl, heq] at hq
      exact hp ((h.mem_iff p).mpr ⟨l, hq⟩)
    by_cases hji : j = i
    · by_cases hki : k = i
      · rw [hji, hki]
      · rw [hji, Function.update_self] at hj
        exact absurd (Option.some.inj hj).symm (hnew k hki hk)
    · by_cases hki : k = i
      · rw [hki, Function.update_self] at hk
        exact absurd (Option.some.inj hk).symm (hnew j hji hj)
      · rw [Function.update_of_ne hji] at hj
        rw [Function.update_of_ne hki] at hk
        exact h.apart j k q hj hk

theorem free (h : Held object held) (hi : object i = some p) (hnodup : held.Nodup) :
    Held (Function.update object i none) (held.erase p) where
  mem_iff q := by
    rw [hnodup.mem_erase_iff, h.mem_iff]
    constructor
    · rintro ⟨hne, j, hj⟩
      have hji : j ≠ i := by
        rintro rfl
        exact hne (Option.some.inj (hj.symm.trans hi))
      exact ⟨j, by rwa [Function.update_of_ne hji]⟩
    · rintro ⟨j, hj⟩
      by_cases hji : j = i
      · rw [hji, Function.update_self] at hj
        cases hj
      · rw [Function.update_of_ne hji] at hj
        refine ⟨?_, j, hj⟩
        rintro rfl
        exact hji (h.apart j i q hj hi)
  apart j k q hj hk := by
    have hold : ∀ l, Function.update object i none l = some q → object l = some q := by
      intro l hl
      by_cases hli : l = i
      · rw [hli, Function.update_self] at hl
        cases hl
      · rwa [Function.update_of_ne hli] at hl
    exact h.apart j k q (hold j hj) (hold k hk)

end Held

def Handlers.object (x : Handlers ι) (i : ι) : Option ℕ := (x.pc i).object

/-- The cache and the handlers own different objects, and all of them are sound. -/
structure Owned (size : ℕ) (x : Handlers ι) (held : List ℕ) : Prop where
  owns : Owns x.heap x.cache held
  objects : Held x.object held
  sound : ∀ p ∈ x.cache.cached ++ held, Sound size (x.mem p)

structure HandlersInv (size : ℕ) (sock₀ : ι → Socket) (x : Handlers ι) : Prop where
  owned : ∃ held, Owned size x held
  progress : ∀ i, Progress size (sock₀ i) x.mem (x.sock i) (x.sent i) (x.pc i)

theorem object_goto (x : Handlers ι) (i : ι) (pc : HandlerPc) :
    (x.goto i pc).object = Function.update x.object i pc.object := by
  funext j
  by_cases hj : j = i
  · subst hj
    simp [Handlers.object, Handlers.goto]
  · simp [Handlers.object, Handlers.goto, hj]

theorem Sound.init {o : Object} (h : Sound size o) : Sound size o.init where
  index := h.index
  capacity := by
    rw [← h.capacity]
    simp [Object.init, Buffer.capacity, Buffer.bind]

section Step

variable {sock₀ : ι → Socket} {x y : Handlers ι} {i : ι} {p : ℕ}

/-- A step of the handler `i` leaves the others and their objects alone. -/
structure Moves (i : ι) (x y : Handlers ι) : Prop where
  pc : ∀ j, j ≠ i → y.pc j = x.pc j
  sock : ∀ j, j ≠ i → y.sock j = x.sock j
  sent : ∀ j, j ≠ i → y.sent j = x.sent j
  mem : ∀ j, j ≠ i → ∀ q, x.object j = some q → y.mem q = x.mem q

theorem Moves.progress (hmoves : Moves i x y)
    (h : ∀ j, Progress size (sock₀ j) x.mem (x.sock j) (x.sent j) (x.pc j))
    (hi : Progress size (sock₀ i) y.mem (y.sock i) (y.sent i) (y.pc i)) (j : ι) :
    Progress size (sock₀ j) y.mem (y.sock j) (y.sent j) (y.pc j) := by
  by_cases hji : j = i
  · rw [hji]
    exact hi
  · rw [hmoves.sock j hji, hmoves.sent j hji, hmoves.pc j hji]
    exact (h j).frame (hmoves.mem j hji)

theorem HandlersInv.work (h : HandlersInv size sock₀ x) (hpc : x.object i = some p)
    (hpc' : y.object i = some p) (hothers : ∀ j, j ≠ i →
      y.pc j = x.pc j ∧ y.sock j = x.sock j ∧ y.sent j = x.sent j)
    (hheap : y.heap = x.heap) (hcache : y.cache = x.cache)
    (hmem : ∀ q, q ≠ p → y.mem q = x.mem q) (hsound : Sound size (x.mem p) → Sound size (y.mem p))
    (hi : Progress size (sock₀ i) y.mem (y.sock i) (y.sent i) (y.pc i)) :
    HandlersInv size sock₀ y := by
  obtain ⟨held, howned⟩ := h.owned
  have hobject : y.object = x.object := by
    funext j
    by_cases hji : j = i
    · rw [hji, hpc, hpc']
    · exact congrArg HandlerPc.object (hothers j hji).1
  have hmoves : Moves i x y := by
    refine ⟨fun j hj => (hothers j hj).1, fun j hj => (hothers j hj).2.1,
      fun j hj => (hothers j hj).2.2, fun j hj q hq => hmem q ?_⟩
    rintro rfl
    exact hj (howned.objects.apart j i q hq hpc)
  refine ⟨⟨held, ?_, ?_, ?_⟩, hmoves.progress h.progress hi⟩
  · rw [hheap, hcache]
    exact howned.owns
  · rw [hobject]
    exact howned.objects
  · rw [hcache]
    intro q hq
    by_cases hqp : q = p
    · subst hqp
      exact hsound (howned.sound q hq)
    · rw [hmem q hqp]
      exact howned.sound q hq

theorem inv_alloc (h : HandlersInv size sock₀ x) {answer : x.heap.Answer x.cache.objSize}
    {o : Object} {cache : Memcache} {heap : Heap} (hpc : x.pc i = .alloc)
    (hcall : memcacheAlloc x.cache x.heap answer = some (p, cache, heap)) (hp : p ≠ 0)
    (hold : x.cache.curr ≠ 0 → o = x.mem p) (hnew : x.cache.curr = 0 → Sound size o) :
    HandlersInv size sock₀
      (({ x with heap := heap, cache := cache }.store p o.init).goto i (.serve p .recvLine)) := by
  obtain ⟨held, howned⟩ := h.owned
  obtain ⟨r, hr, howns, -, hfree⟩ := howned.owns.memcacheAlloc answer
  obtain rfl := Option.some.inj (hr.symm.trans hcall)
  dsimp only at howns hfree
  rw [if_neg hp] at howns
  obtain ⟨hcached, hsub⟩ := memcacheAlloc_cached howned.owns hcall
  have hsound : Sound size o := by
    by_cases hcurr : x.cache.curr = 0
    · exact hnew hcurr
    · rw [hold hcurr]
      exact howned.sound p (List.mem_append_left _ (hcached hcurr))
  have hprogress := h.progress i
  rw [hpc] at hprogress
  cases hprogress with
  | alloc hsock hsent =>
    refine ⟨⟨p :: held, howns, ?_, fun q hq => ?_⟩, Moves.progress (i := i) ?_ h.progress ?_⟩
    · rw [object_goto]
      exact howned.objects.alloc (congrArg HandlerPc.object hpc) hfree
    · change Sound size (Function.update x.mem p o.init q)
      by_cases hqp : q = p
      · rw [hqp, Function.update_self]
        exact hsound.init
      · rw [Function.update_of_ne hqp]
        refine howned.sound q ?_
        rcases List.mem_append.mp hq with hq | hq
        · exact List.mem_append_left _ (hsub q hq)
        · exact List.mem_append_right _ ((List.mem_cons.mp hq).resolve_left hqp)
    · refine ⟨fun j hj => Function.update_of_ne hj _ _, fun _ _ => rfl, fun _ _ => rfl,
        fun j _ q hq => Function.update_of_ne ?_ _ _⟩
      rintro rfl
      exact hfree ((howned.objects.mem_iff q).mpr ⟨j, hq⟩)
    · have hlen : (o.b.data ++ o.b.free).length = size := by
        rw [List.length_append]
        exact hsound.capacity
      change Progress size (sock₀ i) (Function.update x.mem p o.init) (x.sock i) (x.sent i)
        (Function.update x.pc i (.serve p .recvLine) i)
      rw [Function.update_self]
      refine .serve hlen hsound.index ?_ hsent
      rw [Function.update_self, hsock]
      exact Reaches.refl

theorem HandlersInv.without (h : HandlersInv size sock₀ x) (hpc : x.object i = none)
    (hpc' : y.object i = none) (hothers : ∀ j, j ≠ i →
      y.pc j = x.pc j ∧ y.sock j = x.sock j ∧ y.sent j = x.sent j) (hmem : y.mem = x.mem)
    (hcached : ∀ q ∈ y.cache.cached, q ∈ x.cache.cached)
    (howns : ∀ held, Owns x.heap x.cache held → Owns y.heap y.cache held)
    (hi : Progress size (sock₀ i) y.mem (y.sock i) (y.sent i) (y.pc i)) :
    HandlersInv size sock₀ y := by
  obtain ⟨held, howned⟩ := h.owned
  have hobject : y.object = x.object := by
    funext j
    by_cases hji : j = i
    · rw [hji, hpc, hpc']
    · exact congrArg HandlerPc.object (hothers j hji).1
  have hmoves : Moves i x y :=
    ⟨fun j hj => (hothers j hj).1, fun j hj => (hothers j hj).2.1, fun j hj => (hothers j hj).2.2,
      fun _ _ q _ => congrFun hmem q⟩
  refine ⟨⟨held, howns held howned.owns, ?_, ?_⟩, hmoves.progress h.progress hi⟩
  · rw [hobject]
    exact howned.objects
  · rw [hmem]
    intro q hq
    refine howned.sound q ?_
    rcases List.mem_append.mp hq with hq | hq
    · exact List.mem_append_left _ (hcached q hq)
    · exact List.mem_append_right _ hq

theorem inv_allocFailed (h : HandlersInv size sock₀ x) {answer : x.heap.Answer x.cache.objSize}
    {cache : Memcache} {heap : Heap} (hpc : x.pc i = .alloc)
    (hcall : memcacheAlloc x.cache x.heap answer = some (0, cache, heap)) :
    HandlersInv size sock₀ ({ x with heap := heap, cache := cache }.goto i .fastSend) := by
  obtain ⟨held, howned⟩ := h.owned
  have hprogress := h.progress i
  rw [hpc] at hprogress
  cases hprogress with
  | alloc hsock hsent =>
    refine h.without (i := i) (congrArg HandlerPc.object hpc) ?_ ?_ rfl ?_ ?_ ?_
    · rw [object_goto, Function.update_self]
      rfl
    · intro j hj
      exact ⟨Function.update_of_ne hj _ _, rfl, rfl⟩
    · exact (memcacheAlloc_cached howned.owns hcall).2
    · intro held' howns
      obtain ⟨r, hr, howns', -, -⟩ := howns.memcacheAlloc answer
      obtain rfl := Option.some.inj (hr.symm.trans hcall)
      exact howns'
    · change Progress size (sock₀ i) x.mem (x.sock i) (x.sent i)
        (Function.update x.pc i .fastSend i)
      rw [Function.update_self]
      exact .fastSend hsent

theorem inv_serve (h : HandlersInv size sock₀ x) {stage : Stage} (hpc : x.pc i = .serve p stage) :
    HandlersInv size sock₀
      ((x.setConn i p (serveStep builtinTable (stage, x.conn i p)).2).goto i
        (.serve p (serveStep builtinTable (stage, x.conn i p)).1)) := by
  have hprogress := h.progress i
  rw [hpc] at hprogress
  cases hprogress with
  | @serve _ _ g old hlen hindex hreach hsent =>
    have hnext := hreach.trans ⟨1, rfl⟩
    obtain ⟨hinv, hbounds⟩ := hnext.inv hindex
    refine h.work (i := i) (p := p) (congrArg HandlerPc.object hpc) ?_ ?_ rfl rfl ?_ ?_ ?_
    · rw [object_goto, Function.update_self]
      rfl
    · intro j hj
      exact ⟨Function.update_of_ne hj _ _, Function.update_of_ne hj _ _, rfl⟩
    · intro q hq
      exact Function.update_of_ne hq _ _
    · intro _
      change Sound size (Function.update x.mem p _ p)
      rw [Function.update_self]
      exact ⟨hbounds.1, hinv.ordered.end_eq.trans hlen⟩
    · change Progress size (sock₀ i) (Function.update x.mem p _) (Function.update x.sock i _ i)
        (x.sent i) (Function.update x.pc i _ i)
      rw [Function.update_self, Function.update_self]
      refine .serve hlen hindex ?_ hsent
      rw [Function.update_self]
      exact hnext

theorem Progress.finalize (hsize : 720 ≤ size) {sock₁ sock : Socket} {mem : ℕ → Object}
    {sent : List UInt8} {stage : Stage} (h : Progress size sock₁ mem sock sent (.serve p stage))
    {code : ℤ} (hcode : stage.code = some code) :
    ∃ b, httpFinalizeRequest (mem p).b code = some (b, some (answer size sock₁)) ∧
      b.capacity = (mem p).b.capacity := by
  cases h with
  | @serve _ _ g old hlen hindex hreach hsent =>
    obtain ⟨s, hs, hscode⟩ :=
      @served_code (stage, ⟨(mem p).r, (mem p).b, sock⟩) code hcode
    have hserved := hreach.served_eq hs
    have hanswer : (httpRequestHandler builtinTable default (List.replicate size 0) sock₁).code =
        code := by
      rw [← httpRequestHandler_code_eq g hlen, ← hserved, hscode]
    have hcodes := httpRequestHandler_code builtinTable default (List.replicate size 0) sock₁
    rw [hanswer] at hcodes
    rw [answer, hanswer]
    refine httpFinalizeRequest_responseFor ?_ hcodes
    rw [(hreach.inv hindex).1.ordered.end_eq, hlen]
    exact hsize

theorem inv_finalize (hsize : 720 ≤ size) (h : HandlersInv size sock₀ x) {stage : Stage} {code : ℤ}
    {b : Buffer} {bs : List UInt8} (hpc : x.pc i = .serve p stage) (hcode : stage.code = some code)
    (hcall : httpFinalizeRequest (x.mem p).b code = some (b, some bs)) :
    HandlersInv size sock₀ ((x.store p { x.mem p with b := b }).goto i (.send p bs)) := by
  have hprogress := h.progress i
  rw [hpc] at hprogress
  obtain ⟨b', hcall', hcapacity⟩ := hprogress.finalize hsize hcode
  obtain ⟨rfl, hbs⟩ := Prod.mk.inj (Option.some.inj (hcall'.symm.trans hcall))
  obtain rfl := Option.some.inj hbs
  cases hprogress with
  | serve hlen hindex hreach hsent =>
    refine h.work (i := i) (p := p) (congrArg HandlerPc.object hpc) ?_ ?_ rfl rfl ?_ ?_ ?_
    · rw [object_goto, Function.update_self]
      rfl
    · intro j hj
      exact ⟨Function.update_of_ne hj _ _, rfl, rfl⟩
    · intro q hq
      exact Function.update_of_ne hq _ _
    · intro hsound
      change Sound size (Function.update x.mem p _ p)
      rw [Function.update_self]
      exact ⟨hsound.index, hcapacity.trans hsound.capacity⟩
    · change Progress size (sock₀ i) _ (x.sock i) (x.sent i) (Function.update x.pc i _ i)
      rw [Function.update_self]
      exact .send hsent

theorem inv_send (h : HandlersInv size sock₀ x) {bs : List UInt8} (taken : ℕ)
    (hpc : x.pc i = .send p bs) :
    HandlersInv size sock₀ ((x.put i (bs.take taken)).goto i (.free p)) := by
  have hprogress := h.progress i
  rw [hpc] at hprogress
  cases hprogress with
  | send hsent =>
    refine h.work (i := i) (p := p) (congrArg HandlerPc.object hpc) ?_ ?_ rfl rfl ?_ ?_ ?_
    · rw [object_goto, Function.update_self]
      rfl
    · intro j hj
      exact ⟨Function.update_of_ne hj _ _, rfl, Function.update_of_ne hj _ _⟩
    · exact fun _ _ => rfl
    · exact id
    · change Progress size (sock₀ i) x.mem (x.sock i) (Function.update x.sent i _ i)
        (Function.update x.pc i _ i)
      rw [Function.update_self, Function.update_self, hsent, List.nil_append]
      exact .free (List.take_prefix _ _)

theorem inv_free (h : HandlersInv size sock₀ x) {cache : Memcache} {heap : Heap}
    (hpc : x.pc i = .free p) (hcall : memcacheFree x.cache x.heap p = some (cache, heap)) :
    HandlersInv size sock₀ ({ x with heap := heap, cache := cache }.goto i .returned) := by
  obtain ⟨held, howned⟩ := h.owned
  have hobject : x.object i = some p := congrArg HandlerPc.object hpc
  have hheld : p ∈ held := (howned.objects.mem_iff p).mpr ⟨i, hobject⟩
  obtain ⟨r, hr, howns, -⟩ := howned.owns.memcacheFree hheld
  obtain rfl := Option.some.inj (hr.symm.trans hcall)
  have hnodup : held.Nodup := (List.nodup_cons.mp howned.owns.nodup).2.of_append_right
  have hprogress := h.progress i
  rw [hpc] at hprogress
  cases hprogress with
  | free hsent =>
    refine ⟨⟨held.erase p, howns, ?_, fun q hq => ?_⟩, Moves.progress (i := i) ?_ h.progress ?_⟩
    · rw [object_goto]
      exact howned.objects.free hobject hnodup
    · refine howned.sound q ?_
      rcases List.mem_append.mp hq with hq | hq
      · rcases memcacheFree_cached howned.owns hheld hcall q hq with rfl | hq
        · exact List.mem_append_right _ hheld
        · exact List.mem_append_left _ hq
      · exact List.mem_append_right _ (List.mem_of_mem_erase hq)
    · exact ⟨fun j hj => Function.update_of_ne hj _ _, fun _ _ => rfl, fun _ _ => rfl,
        fun _ _ _ _ => rfl⟩
    · change Progress size (sock₀ i) x.mem (x.sock i) (x.sent i) (Function.update x.pc i _ i)
      rw [Function.update_self]
      exact .returned hsent

theorem inv_fastSend (h : HandlersInv size sock₀ x) (taken : ℕ) (hpc : x.pc i = .fastSend) :
    HandlersInv size sock₀
      ((x.put i ((bytes httpInsufficientStoragePage).take taken)).goto i .refused) := by
  have hprogress := h.progress i
  rw [hpc] at hprogress
  cases hprogress with
  | fastSend hsent =>
    refine h.without (i := i) (congrArg HandlerPc.object hpc) ?_ ?_ rfl ?_ ?_ ?_
    · rw [object_goto, Function.update_self]
      rfl
    · intro j hj
      exact ⟨Function.update_of_ne hj _ _, rfl, Function.update_of_ne hj _ _⟩
    · exact fun _ hq => hq
    · exact fun _ howns => howns
    · change Progress size (sock₀ i) x.mem (x.sock i) (Function.update x.sent i _ i)
        (Function.update x.pc i _ i)
      rw [Function.update_self, Function.update_self, hsent, List.nil_append]
      exact .refused (List.take_prefix _ _)

omit [DecidableEq ι] in
theorem Owned.notMem {held : List ℕ} (h : Owned size x held) (hp : ¬ x.InUse p) :
    p ∉ x.cache.addr :: (x.cache.cached ++ held) := by
  intro hmem
  apply hp
  rcases List.mem_cons.mp hmem with haddr | hmem
  · exact Or.inl haddr
  · rcases List.mem_append.mp hmem with hcached | hheld
    · exact Or.inr (Or.inl hcached)
    · exact Or.inr (Or.inr ((h.objects.mem_iff p).mp hheld))

omit [DecidableEq ι] in
theorem inv_heap (h : HandlersInv size sock₀ x) {heap : Heap}
    (hheap : ∀ held, Owned size x held → Owns heap x.cache held) :
    HandlersInv size sock₀ { x with heap := heap } := by
  obtain ⟨held, howned⟩ := h.owned
  exact ⟨⟨held, hheap held howned, howned.objects, howned.sound⟩, h.progress⟩

omit [DecidableEq ι] in
theorem inv_storeElsewhere (h : HandlersInv size sock₀ x) (o : Object) (hp : ¬ x.InUse p) :
    HandlersInv size sock₀ (x.store p o) := by
  obtain ⟨held, howned⟩ := h.owned
  have hmem : ∀ q ∈ x.cache.cached ++ held, (x.store p o).mem q = x.mem q := by
    intro q hq
    refine Function.update_of_ne ?_ _ _
    rintro rfl
    exact howned.notMem hp (List.mem_cons_of_mem _ hq)
  refine ⟨⟨held, howned.owns, howned.objects, fun q hq => ?_⟩, fun j => ?_⟩
  · rw [hmem q hq]
    exact howned.sound q hq
  · refine (h.progress j).frame fun q hq => hmem q ?_
    exact List.mem_append_right _ ((howned.objects.mem_iff q).mpr ⟨j, hq⟩)

/-- A handler leaves the others alone. -/
theorem HandlerStep.moves (h : HandlersInv size sock₀ x) (hstep : HandlerStep size i x y) :
    Moves i x y := by
  obtain ⟨held, howned⟩ := h.owned
  have hstore : ∀ {p : ℕ} {o : Object}, x.object i = some p → ∀ j, j ≠ i → ∀ q,
      x.object j = some q → Function.update x.mem p o q = x.mem q := by
    intro p o hp j hj q hq
    refine Function.update_of_ne ?_ _ _
    rintro rfl
    exact hj (howned.objects.apart j i q hq hp)
  have hpcs : ∀ {pc : HandlerPc} (j : ι), j ≠ i → Function.update x.pc i pc j = x.pc j :=
    fun j hj => Function.update_of_ne hj _ _
  cases hstep with
  | @alloc answer o p cache heap hpc hcall hp hold hnew =>
    obtain ⟨r, hr, -, -, hfree⟩ := howned.owns.memcacheAlloc answer
    obtain rfl := Option.some.inj (hr.symm.trans hcall)
    refine ⟨hpcs, fun _ _ => rfl, fun _ _ => rfl, fun j _ q hq => Function.update_of_ne ?_ _ _⟩
    rintro rfl
    exact hfree ((howned.objects.mem_iff q).mpr ⟨j, hq⟩)
  | allocFailed answer hpc hcall => exact ⟨hpcs, fun _ _ => rfl, fun _ _ => rfl, fun _ _ _ _ => rfl⟩
  | serve p stage hpc hstage =>
    exact ⟨hpcs, fun j hj => Function.update_of_ne hj _ _, fun _ _ => rfl,
      hstore (congrArg HandlerPc.object hpc)⟩
  | finalize p stage code hpc hcode hcall =>
    exact ⟨hpcs, fun _ _ => rfl, fun _ _ => rfl, hstore (congrArg HandlerPc.object hpc)⟩
  | finalizeNone p stage code hpc hcode hcall =>
    exact ⟨hpcs, fun _ _ => rfl, fun _ _ => rfl, hstore (congrArg HandlerPc.object hpc)⟩
  | send p bs taken hpc =>
    exact ⟨hpcs, fun _ _ => rfl, fun j hj => Function.update_of_ne hj _ _, fun _ _ _ _ => rfl⟩
  | free p hpc hcall => exact ⟨hpcs, fun _ _ => rfl, fun _ _ => rfl, fun _ _ _ _ => rfl⟩
  | fastSend taken hpc =>
    exact ⟨hpcs, fun _ _ => rfl, fun j hj => Function.update_of_ne hj _ _, fun _ _ _ _ => rfl⟩

theorem HandlersInv.handlerStep (hsize : 720 ≤ size) (h : HandlersInv size sock₀ x)
    (hstep : HandlerStep size i x y) : HandlersInv size sock₀ y := by
  cases hstep with
  | alloc answer o hpc hcall hp hold hnew => exact inv_alloc h hpc hcall hp hold hnew
  | allocFailed answer hpc hcall => exact inv_allocFailed h hpc hcall
  | serve p stage hpc hstage => exact inv_serve h hpc
  | finalize p stage code hpc hcode hcall => exact inv_finalize hsize h hpc hcode hcall
  | finalizeNone p stage code hpc hcode hcall =>
    -- the three codes of the handler have status lines
    have hprogress := h.progress i
    rw [hpc] at hprogress
    obtain ⟨b', hcall', -⟩ := hprogress.finalize hsize hcode
    cases hcall'.symm.trans hcall
  | send p bs taken hpc => exact inv_send h taken hpc
  | free p hpc hcall => exact inv_free h hpc hcall
  | fastSend taken hpc => exact inv_fastSend h taken hpc

omit [DecidableEq ι] in
theorem HandlersInv.otherStep (h : HandlersInv size sock₀ x) (hstep : OtherStep x y) :
    HandlersInv size sock₀ y := by
  cases hstep with
  | malloc n answer =>
    exact inv_heap h fun held howned =>
      howned.owns.frame fun b hb _ => Heap.mem_malloc.mpr (Or.inr hb)
  | free hp hcall =>
    refine inv_heap h fun held howned => howned.owns.frame fun b hb hmem => ?_
    refine Heap.mem_of_free hcall hb ?_
    rintro rfl
    exact howned.notMem hp hmem
  | store o hp => exact inv_storeElsewhere h o hp

theorem HandlersInv.step (hsize : 720 ≤ size) (h : HandlersInv size sock₀ x)
    (hstep : HandlersStep size x y) : HandlersInv size sock₀ y := by
  cases hstep with
  | handler i hstep => exact h.handlerStep hsize hstep
  | other hstep => exact h.otherStep hstep

end Step

end Invariant

/-! ## Isolation -/

end Cserv.Http
