import Cserv.Http.Process

/-!
# Reading the request body

The loop of `http_process_request_body` stops when the number of received bytes
*equals* `content_len`. It therefore succeeds exactly when some `recv` ends on the
last byte of the body; a `recv` that brings more makes it wait until the buffer is
full or the peer gives up.
-/
namespace Cserv.Http

def segments : Socket → List (List UInt8)
  | .data bs :: rest => if bs = [] then [] else bs :: segments rest
  | _ => []

theorem sockBytes_eq_flatten (sock : Socket) : sockBytes sock = (segments sock).flatten := by
  induction sock with
  | nil => rfl
  | cons o rest ih =>
    cases o with
    | data bs =>
      unfold sockBytes segments
      split_ifs with hbs
      · rfl
      · rw [ih]
        rfl
    | closed | timedOut | failed => rfl

def Conn.received (c : Conn) : ℕ := c.b.unread.length

/-- Some `recv` ends exactly on the `n`-th byte behind `pos`, a segment too long for the
buffer being cut at its end. -/
def LandsOn (c : Conn) (n : ℕ) : Prop :=
  ∃ k, min (c.received + ((segments c.sock).take k).flatten.length)
    (c.received + c.b.free.length) = n

theorem recvHttpRequest_segment {c c' : Conn} (h : recvHttpRequest c = (0, c')) :
    ∃ seg rest, segments c.sock = seg :: rest ∧ c'.b = c.b.append (seg.take c.b.free.length) ∧
      c'.r = c.r ∧ (seg.length ≤ c.b.free.length → segments c'.sock = rest) := by
  obtain ⟨bs, rest, -, hsock, hbs, rfl⟩ := recvHttpRequest_zero_iff.mp h
  refine ⟨bs, segments rest, by simp [hsock, segments, hbs], rfl, rfl, ?_⟩
  intro hle
  simp only [Conn.take]
  rw [if_pos (List.drop_eq_nil_of_le hle)]

theorem recvBody_of_eq {c : Conn} (hpos : c.b.pos ≤ c.b.data.length)
    (h : (c.received : ℤ) = c.r.contentLen) : recvBody c = (0, c) := by
  rw [recvBody_unfold, if_pos]
  simp only [Conn.received, Buffer.unread, List.length_drop] at h
  omega

theorem recvBody_of_ne {c : Conn} (hpos : c.b.pos ≤ c.b.data.length)
    (h : (c.received : ℤ) ≠ c.r.contentLen) :
    recvBody c =
      if (recvHttpRequest c).1 = 0 then recvBody (recvHttpRequest c).2
      else (-1, (recvHttpRequest c).2) := by
  rw [recvBody_unfold, if_neg]
  simp only [Conn.received, Buffer.unread, List.length_drop] at h
  omega

theorem landsOn_zero (c : Conn) : LandsOn c c.received := ⟨0, by simp⟩

theorem landsOn_of_recv_ne {c : Conn} {n : ℕ} (h : (recvHttpRequest c).1 ≠ 0)
    (hland : LandsOn c n) : c.received = n := by
  obtain ⟨k, hk⟩ := hland
  rcases recvHttpRequest_ne_zero h with hfree | hsock
  · rw [hfree, List.length_nil] at hk
    omega
  · have hnil : ((segments c.sock).take k).flatten = [] := by
      rw [sockBytes_eq_flatten, List.flatten_eq_nil_iff] at hsock
      rw [List.flatten_eq_nil_iff]
      exact fun seg hseg => hsock seg (List.mem_of_mem_take hseg)
    rw [hnil, List.length_nil] at hk
    omega

theorem landsOn_recv {c c' : Conn} {n : ℕ} (hpos : c.b.pos ≤ c.b.data.length)
    (h : recvHttpRequest c = (0, c')) (hne : c.received ≠ n) : LandsOn c n ↔ LandsOn c' n := by
  obtain ⟨seg, rest, hseg, hb, -, hrest⟩ := recvHttpRequest_segment h
  have hrec : c'.received = c.received + min c.b.free.length seg.length := by
    simp only [Conn.received, hb, Buffer.append, Buffer.unread, List.length_drop,
      List.length_append, List.length_take]
    omega
  have hfree : c'.b.free.length = c.b.free.length - min c.b.free.length seg.length := by
    simp [hb, Buffer.append]
  constructor
  · rintro ⟨k, hk⟩
    cases k with
    | zero => simp at hk; omega
    | succ k =>
      rw [hseg, List.take_succ_cons, List.flatten_cons, List.length_append] at hk
      by_cases hle : seg.length ≤ c.b.free.length
      · exact ⟨k, by rw [hrest hle]; omega⟩
      · exact ⟨0, by simp; omega⟩
  · rintro ⟨k, hk⟩
    by_cases hle : seg.length ≤ c.b.free.length
    · rw [hrest hle] at hk
      refine ⟨k + 1, ?_⟩
      rw [hseg, List.take_succ_cons, List.flatten_cons, List.length_append]
      omega
    · refine ⟨1, ?_⟩
      rw [hseg]
      simp
      omega

/-- The connections at which the loop calls `recv`. -/
inductive BodyWaits : Conn → Conn → Prop
  | here {c : Conn} : (c.received : ℤ) ≠ c.r.contentLen → BodyWaits c c
  | later {c c' d : Conn} : (c.received : ℤ) ≠ c.r.contentLen → recvHttpRequest c = (0, c') →
      BodyWaits c' d → BodyWaits c d

def Extends (c d : Conn) : Prop :=
  d.r = c.r ∧ d.b.pos = c.b.pos ∧ d.b.pos ≤ d.b.data.length ∧
    d.b.unread ++ sockBytes d.sock = c.b.unread ++ sockBytes c.sock

theorem Extends.refl {c : Conn} (hpos : c.b.pos ≤ c.b.data.length) : Extends c c :=
  ⟨rfl, rfl, hpos, rfl⟩

theorem Extends.recv {c c' : Conn} (hpos : c.b.pos ≤ c.b.data.length)
    (h : recvHttpRequest c = (0, c')) : Extends c c' := by
  obtain ⟨got, -, -, hbytes, hb, hr⟩ := recvHttpRequest_zero h
  refine ⟨hr, by rw [hb]; rfl, by rw [hb]; simp [Buffer.append]; omega, ?_⟩
  rw [hbytes, hb]
  simp only [Buffer.append, Buffer.unread]
  rw [List.drop_append_of_le_length hpos, List.append_assoc]

theorem Extends.trans {c d e : Conn} (h : Extends c d) (h' : Extends d e) : Extends c e :=
  ⟨h'.1.trans h.1, h'.2.1.trans h.2.1, h'.2.2.1, h'.2.2.2.trans h.2.2.2⟩

/-- What the loop returns: 0 with exactly the announced number of bytes received when
some `recv` ends there, and -1 otherwise. -/
theorem recvBody_spec {c : Conn} {n : ℕ} (hpos : c.b.pos ≤ c.b.data.length)
    (hn : c.r.contentLen = n) :
    ((recvBody c).1 = 0 ↔ LandsOn c n) ∧
      ((recvBody c).1 = 0 → Extends c (recvBody c).2 ∧ (recvBody c).2.received = n) := by
  induction hm : c.b.free.length using Nat.strong_induction_on generalizing c with
  | _ m ih =>
  by_cases heq : c.received = n
  · rw [recvBody_of_eq hpos (by omega)]
    exact ⟨iff_of_true rfl (heq ▸ landsOn_zero c), fun _ => ⟨.refl hpos, heq⟩⟩
  · rw [recvBody_of_ne hpos (by omega)]
    by_cases h0 : (recvHttpRequest c).1 = 0
    · obtain ⟨c', hc'⟩ : ∃ c', recvHttpRequest c = (0, c') := ⟨_, Prod.ext h0 rfl⟩
      have hext := Extends.recv hpos hc'
      obtain ⟨hiff, hres⟩ := ih _ (hm ▸ recvHttpRequest_free_lt hc') hext.2.2.1
        (by rw [hext.1, hn]) rfl
      rw [if_pos h0, hc', landsOn_recv hpos hc' heq]
      exact ⟨hiff, fun h => ⟨hext.trans (hres h).1, (hres h).2⟩⟩
    · rw [if_neg h0]
      refine ⟨iff_of_false (by simp) ?_, fun h => absurd h (by simp)⟩
      exact fun hland => heq (landsOn_of_recv_ne h0 hland)

/-- A loop that will land on the last byte calls `recv` only while bytes are missing. -/
theorem BodyWaits.received_lt {c d : Conn} {n : ℕ} (h : BodyWaits c d)
    (hpos : c.b.pos ≤ c.b.data.length) (hn : c.r.contentLen = n) (hland : LandsOn c n) :
    d.received < n := by
  induction h with
  | here hne =>
    obtain ⟨k, hk⟩ := hland
    omega
  | later hne hrecv _ ih =>
    have hext := Extends.recv hpos hrecv
    apply ih hext.2.2.1 (by rw [hext.1, hn])
    exact (landsOn_recv hpos hrecv (by omega)).mp hland

/-- The body is framed as announced, whatever else arrives with it, exactly when some
`recv` ends on its last byte. -/
theorem httpProcessRequestBody_framed_iff (c : Conn) (n : ℕ) (hpos : c.b.pos ≤ c.b.data.length)
    (hn : c.r.contentLen = n) :
    ((httpProcessRequestBody c).1 = 0 ∧
      (httpProcessRequestBody c).2.r.content.get (httpProcessRequestBody c).2.b.data =
        (c.b.unread ++ sockBytes c.sock).take n ∧
      ∀ d, BodyWaits c d → d.received < n) ↔ LandsOn c n := by
  obtain ⟨hiff, hres⟩ := recvBody_spec hpos hn
  unfold httpProcessRequestBody
  dsimp only
  constructor
  · rintro ⟨hzero, -, -⟩
    apply hiff.mp
    by_contra hne
    rw [if_pos hne] at hzero
    exact hne hzero
  · intro hland
    have hzero := hiff.mpr hland
    obtain ⟨⟨hr, hp, hle, hbytes⟩, hrec⟩ := hres hzero
    rw [if_neg (not_not.mpr hzero)]
    refine ⟨rfl, ?_, fun d hd => hd.received_lt hpos hn hland⟩
    simp only [Str.get, hr, hn, Int.toNat_natCast]
    rw [← hbytes, ← hrec]
    exact (List.take_of_length_le le_rfl).trans List.take_left.symm

/-- A body of two bytes that arrive one by one. -/
theorem httpProcessRequestBody_framed_two :
    (httpProcessRequestBody ⟨{ (default : HttpRequest) with contentLen := 2 },
      .bind (List.replicate 4 0), [.data (bytes "a"), .data (bytes "b")]⟩).1 = 0 :=
  ((httpProcessRequestBody_framed_iff ⟨{ (default : HttpRequest) with contentLen := 2 },
    .bind (List.replicate 4 0), [.data (bytes "a"), .data (bytes "b")]⟩ 2 le_rfl rfl).mpr
    ⟨2, by decide⟩).1

/-- A body of one byte is there, and the next request's first byte with it: the loop
never ends on the announced length and the request is refused. -/
theorem httpProcessRequestBody_overshoot :
    (httpProcessRequestBody ⟨{ (default : HttpRequest) with contentLen := 1 },
      ⟨bytes "aG", List.replicate 4 0, 0⟩, []⟩).1 = -1 ∧
    httpRequestHandler builtinTable default (List.replicate 64 0)
      [.data (bytes "POST / HTTP/1.1\r\nContent-Length: 1\r\n\r\na")] ≠ .finalized 507 ∧
    httpRequestHandler builtinTable default (List.replicate 64 0)
      [.data (bytes "POST / HTTP/1.1\r\nContent-Length: 1\r\n\r\naG")] = .finalized 507 := by
  decide +kernel

end Cserv.Http
