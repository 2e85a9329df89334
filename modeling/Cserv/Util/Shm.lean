import Cserv.Util.Critical

/-!
# Shared memory

`shm_init` maps one page that all processes share, and `shm_alloc` hands out the rest of it behind
its header, under a lock and for good. Whatever the processes do at the same time, the blocks lie
one behind the other in the page, and a call fails only if its block does not fit.
-/
namespace Cserv.Util

open Foundations Relation

abbrev Size := UInt64

def roundUp (x y : Size) : Size := (x + (y - 1)) / y * y

def memAlign : Size := 8

/-- `struct shm`, apart from its lock. -/
structure Shm where
  addr : Size
  size : Size
  offset : Size
  deriving DecidableEq, Repr

def sizeofShm : Size := 96

/-- `shm_init`, for the page at `addr`. -/
def shmInit (addr pageSize : Size) : Shm := ⟨addr, pageSize, roundUp sizeofShm memAlign⟩

/-- Where a process is in `shm_alloc` while it has the lock; `size` is rounded up, and a result of 0
stands for `NULL`. -/
inductive AllocPc
  | test (size : Size)
  | addr (size : Size)
  | loadOffset (addr size : Size)
  | storeOffset (addr size offset : Size)
  | done (ret : Size)
  deriving DecidableEq, Repr

inductive AllocAccess : AllocPc × Shm → AllocPc × Shm → Prop
  | full (s : Shm) (size : Size) (htest : s.size < s.offset + size) :
      AllocAccess (.test size, s) (.done 0, s)
  | room (s : Shm) (size : Size) (htest : ¬ s.size < s.offset + size) :
      AllocAccess (.test size, s) (.addr size, s)
  | addr (s : Shm) (size : Size) :
      AllocAccess (.addr size, s) (.loadOffset (s.addr + s.offset) size, s)
  | loadOffset (s : Shm) (addr size : Size) :
      AllocAccess (.loadOffset addr size, s) (.storeOffset addr size s.offset, s)
  | storeOffset (s : Shm) (addr size offset : Size) :
      AllocAccess (.storeOffset addr size offset, s)
        (.done addr, { s with offset := offset + size })

/-- A process in `shm_alloc`, with the argument of the call. -/
structure AllocCall where
  sizeBytes : Size
  pc : AllocPc
  deriving DecidableEq, Repr

/-- `shm_alloc` between `spin_lock` and `spin_unlock`, called for less than half of the address
space. -/
def shmSection : CriticalSection Shm AllocCall where
  call l := l.sizeBytes.toNat < 2 ^ 63 ∧ l.pc = .test (roundUp l.sizeBytes memAlign)
  access a b := b.1.sizeBytes = a.1.sizeBytes ∧ AllocAccess (a.1.pc, a.2) (b.1.pc, b.2)
  ends l := ∃ ret, l.pc = .done ret

/-! ## One call -/

/-- `shm_alloc` of a process that is alone. -/
def shmAlloc (sizeBytes : Size) (s : Shm) : Size × Shm :=
  let size := roundUp sizeBytes memAlign
  if s.size < s.offset + size then (0, s)
  else (s.addr + s.offset, { s with offset := s.offset + size })

/-- Where a process is that is alone, after its call in the state `s`. -/
def AllocAt (sizeBytes : Size) (s : Shm) : AllocPc × Shm → Prop
  | (.test z, t) => z = roundUp sizeBytes memAlign ∧ t = s
  | (.addr z, t) => z = roundUp sizeBytes memAlign ∧ t = s ∧ ¬ s.size < s.offset + z
  | (.loadOffset a z, t) =>
    z = roundUp sizeBytes memAlign ∧ t = s ∧ a = s.addr + s.offset ∧ ¬ s.size < s.offset + z
  | (.storeOffset a z offset, t) =>
    z = roundUp sizeBytes memAlign ∧ t = s ∧ a = s.addr + s.offset ∧ offset = s.offset ∧
      ¬ s.size < s.offset + z
  | (.done ret, t) => (ret, t) = shmAlloc sizeBytes s

variable {n : ℕ} {sizeBytes : Size} {s t : Shm}

theorem allocAt_step {a b : AllocPc × Shm} (h : AllocAt sizeBytes s a) (hstep : AllocAccess a b) :
    AllocAt sizeBytes s b := by
  cases hstep with
  | full t z htest =>
    obtain ⟨rfl, rfl⟩ := h
    exact (if_pos htest).symm
  | room t z htest =>
    obtain ⟨rfl, rfl⟩ := h
    exact ⟨rfl, rfl, htest⟩
  | addr t z =>
    obtain ⟨rfl, rfl, htest⟩ := h
    exact ⟨rfl, rfl, rfl, htest⟩
  | loadOffset t a z =>
    obtain ⟨rfl, rfl, ha, htest⟩ := h
    exact ⟨rfl, rfl, ha, rfl, htest⟩
  | storeOffset t a z offset =>
    obtain ⟨rfl, rfl, rfl, rfl, htest⟩ := h
    exact (if_neg htest).symm

/-- The accesses of one call, without others in between, are the call. -/
theorem runs_eq {l l' : AllocCall} {ret : Size} (hcall : shmSection.call l)
    (hruns : ReflTransGen shmSection.access (l, s) (l', t)) (hret : l'.pc = .done ret) :
    l'.sizeBytes = l.sizeBytes ∧ (ret, t) = shmAlloc l.sizeBytes s := by
  have hstart : AllocAt l.sizeBytes s (l.pc, s) := by
    rw [hcall.2]
    exact ⟨rfl, rfl⟩
  obtain ⟨hsize, hend⟩ := run_invariant
    (fun a : AllocCall × Shm => a.1.sizeBytes = l.sizeBytes ∧ AllocAt l.sizeBytes s (a.1.pc, a.2))
    (fun _ _ ha hstep => ⟨hstep.1.trans ha.1, allocAt_step ha.2 hstep.2⟩) ⟨rfl, hstart⟩ hruns
  rw [hret] at hend
  exact ⟨hsize, hend⟩

theorem roundUp_toNat {x : Size} (h : x.toNat < 2 ^ 63) :
    (roundUp x memAlign).toNat = (x.toNat + 7) / 8 * 8 := by
  have hmask : memAlign - 1 = 7 := rfl
  rw [roundUp, hmask, UInt64.toNat_mul, UInt64.toNat_div, UInt64.toNat_add]
  change (x.toNat + 7) % 2 ^ 64 / 8 * 8 % 2 ^ 64 = _
  omega

/-- A size of the last seven is rounded up to 0. -/
theorem roundUp_wraps {x : Size} (h : 2 ^ 64 - 7 ≤ x.toNat) : roundUp x memAlign = 0 := by
  have hmask : memAlign - 1 = 7 := rfl
  have hlt := x.toNat_lt
  rw [← UInt64.toNat_inj, roundUp, hmask, UInt64.toNat_mul, UInt64.toNat_div, UInt64.toNat_add]
  change (x.toNat + 7) % 2 ^ 64 / 8 * 8 % 2 ^ 64 = 0
  omega

theorem shmAlloc_wraps (h : 2 ^ 64 - 7 ≤ sizeBytes.toNat) (hoffset : s.offset ≤ s.size) :
    shmAlloc sizeBytes s = (s.addr + s.offset, s) := by
  have htest : ¬ s.size < s.offset := UInt64.not_lt.mpr hoffset
  simp only [shmAlloc, roundUp_wraps h, UInt64.add_zero, if_neg htest]

/-! ## The blocks of the page -/

abbrev Calls (n : ℕ) := List (Fin n × AllocCall × AllocCall)

/-- The block that a call returned, with the size it asked for. -/
def granted : Fin n × AllocCall × AllocCall → Option (Size × Size)
  | (_, start, ⟨_, .done ret⟩) => if ret = 0 then none else some (ret, start.sizeBytes)
  | _ => none

def blocks (history : Calls n) : List (Size × Size) := history.filterMap granted

def blockBytes (sizeBytes : Size) : ℕ := (roundUp sizeBytes memAlign).toNat

def used (history : Calls n) : ℕ := ((blocks history).map fun b => blockBytes b.2).sum

/-- The page at `addr` has room for the header and does not wrap around the address space. -/
structure PageAt (addr pageSize : Size) : Prop where
  aligned : addr.toNat % 8 = 0
  header : 96 ≤ pageSize.toNat
  int : pageSize.toNat < 2 ^ 31
  inside : addr.toNat + pageSize.toNat < 2 ^ 64

/-- The blocks lie behind the header one after the other, up to the offset. -/
structure ArenaInv (addr pageSize : Size) (history : Calls n) (s : Shm) : Prop where
  addr_eq : s.addr = addr
  size_eq : s.size = pageSize
  offset : s.offset.toNat = 96 + used history
  le : s.offset.toNat ≤ pageSize.toNat
  aligned : s.offset.toNat % 8 = 0
  inside : ∀ b ∈ blocks history, addr.toNat + 96 ≤ b.1.toNat ∧
    b.1.toNat + blockBytes b.2 ≤ addr.toNat + s.offset.toNat ∧ b.1.toNat % 8 = 0
  apart : (blocks history).Pairwise fun b c => b.1.toNat + blockBytes b.2 ≤ c.1.toNat

section Arena

variable {addr pageSize : Size} {history : Calls n} {e : Fin n × AllocCall × AllocCall}

theorem blockBytes_spec (h : sizeBytes.toNat < 2 ^ 63) : sizeBytes.toNat ≤ blockBytes sizeBytes ∧
    blockBytes sizeBytes ≤ 2 ^ 63 ∧ blockBytes sizeBytes % 8 = 0 := by
  rw [blockBytes, roundUp_toNat h]
  omega

theorem blocks_append (history : Calls n) (e : Fin n × AllocCall × AllocCall) :
    blocks (history ++ [e]) = blocks history ++ (granted e).toList := by
  rw [blocks, List.filterMap_append]
  cases h : granted e <;> simp [blocks, h]

theorem granted_done {ret : Size} (h : e.2.2.pc = .done ret) :
    granted e = if ret = 0 then none else some (ret, e.2.1.sizeBytes) := by
  obtain ⟨p, start, sizeBytes, pc⟩ := e
  cases h
  rfl

theorem shmInit_arena (h : PageAt addr pageSize) :
    ArenaInv (n := n) addr pageSize [] (shmInit addr pageSize) where
  addr_eq := rfl
  size_eq := rfl
  offset := rfl
  le := h.header
  aligned := by
    have hoffset : (shmInit addr pageSize).offset.toNat = 96 := rfl
    rw [hoffset]
  inside := nofun
  apart := List.Pairwise.nil

namespace ArenaInv

/-- The test of `shm_alloc` does not overflow. -/
theorem test_iff (h : ArenaInv addr pageSize history s) (hpage : PageAt addr pageSize)
    (hsize : sizeBytes.toNat < 2 ^ 63) : s.size < s.offset + roundUp sizeBytes memAlign ↔
      pageSize.toNat < 96 + used history + blockBytes sizeBytes := by
  have hle := h.le
  have hint := hpage.int
  have hbytes := (blockBytes_spec hsize).2.1
  rw [UInt64.lt_iff_toNat_lt, UInt64.toNat_add, h.size_eq, ← h.offset]
  change _ < (_ + blockBytes sizeBytes) % _ ↔ _
  rw [Nat.mod_eq_of_lt (by omega)]

theorem ret_toNat (h : ArenaInv addr pageSize history s) (hpage : PageAt addr pageSize) :
    (s.addr + s.offset).toNat = addr.toNat + s.offset.toNat := by
  have hle := h.le
  have hinside := hpage.inside
  rw [UInt64.toNat_add, h.addr_eq, Nat.mod_eq_of_lt (by omega)]

theorem ret_ne_zero (h : ArenaInv addr pageSize history s) (hpage : PageAt addr pageSize) :
    s.addr + s.offset ≠ 0 := by
  intro hzero
  have hret := h.ret_toNat hpage
  have hoffset := h.offset
  rw [hzero] at hret
  change 0 = _ at hret
  omega

theorem full (h : ArenaInv addr pageSize history s) (he : granted e = none) :
    ArenaInv addr pageSize (history ++ [e]) s := by
  have hblocks : blocks (history ++ [e]) = blocks history := by
    rw [blocks_append, he]
    exact List.append_nil _
  obtain ⟨haddr, hsize, hoffset, hle, haligned, hinside, hapart⟩ := h
  constructor <;> simp only [used, hblocks] at * <;> assumption

theorem room (h : ArenaInv addr pageSize history s) (hpage : PageAt addr pageSize)
    (hsize : sizeBytes.toNat < 2 ^ 63) (he : granted e = some (s.addr + s.offset, sizeBytes))
    (htest : ¬ s.size < s.offset + roundUp sizeBytes memAlign) :
    ArenaInv addr pageSize (history ++ [e])
      { s with offset := s.offset + roundUp sizeBytes memAlign } := by
  rw [h.test_iff hpage hsize, not_lt] at htest
  obtain ⟨-, hbytes, haligned⟩ := blockBytes_spec hsize
  have hoffset := h.offset
  have hint := hpage.int
  have hpageInside := hpage.inside
  have hpageAligned := hpage.aligned
  have hlast := h.aligned
  have hret := h.ret_toNat hpage
  have hnext : (s.offset + roundUp sizeBytes memAlign).toNat =
      s.offset.toNat + blockBytes sizeBytes := by
    rw [UInt64.toNat_add]
    change (_ + blockBytes sizeBytes) % _ = _
    exact Nat.mod_eq_of_lt (by omega)
  have hblocks : blocks (history ++ [e]) = blocks history ++ [(s.addr + s.offset, sizeBytes)] := by
    rw [blocks_append, he]
    rfl
  constructor
  · exact h.addr_eq
  · exact h.size_eq
  · change (s.offset + roundUp sizeBytes memAlign).toNat = 96 + used _
    rw [used, hblocks, List.map_append, List.sum_append, hnext, hoffset, used]
    simp
    omega
  · change (s.offset + roundUp sizeBytes memAlign).toNat ≤ _
    omega
  · change (s.offset + roundUp sizeBytes memAlign).toNat % 8 = 0
    omega
  · intro b hb
    change _ ∧ _ ≤ addr.toNat + (s.offset + roundUp sizeBytes memAlign).toNat ∧ _
    rw [hblocks, List.mem_append, List.mem_singleton] at hb
    rcases hb with hb | rfl
    · obtain ⟨hlow, hhigh, hb⟩ := h.inside b hb
      exact ⟨hlow, by omega, hb⟩
    · dsimp only
      rw [hret]
      exact ⟨by omega, by omega, by omega⟩
  · rw [hblocks, List.pairwise_append]
    refine ⟨h.apart, List.pairwise_singleton _ _, fun b hb c hc => ?_⟩
    rw [List.mem_singleton.mp hc, hret]
    exact (h.inside b hb).2.1

end ArenaInv

theorem serial_arena (hpage : PageAt addr pageSize)
    (h : shmSection.Serial (shmInit addr pageSize) history s) : ArenaInv addr pageSize history s := by
  induction h with
  | nil => exact shmInit_arena hpage
  | @snoc history s t p start now hserial hcall hruns hends ih =>
    obtain ⟨ret, hret⟩ := hends
    obtain ⟨-, heq⟩ := runs_eq hcall hruns hret
    have hgranted : granted (p, start, now) = _ := granted_done hret
    unfold shmAlloc at heq
    dsimp only at heq
    split_ifs at heq with htest
    · obtain ⟨rfl, rfl⟩ := Prod.mk.inj heq
      exact ih.full hgranted
    · obtain ⟨rfl, rfl⟩ := Prod.mk.inj heq
      rw [if_neg (ih.ret_ne_zero hpage)] at hgranted
      exact ih.room hpage hcall.1 hgranted htest

end Arena

/-- Every block that `shm_alloc` has returned, to any process, is aligned, has the bytes that its call
asked for and lies in the page behind the header, and no two of them overlap; a call returned `NULL`
only when its block did not fit behind those that were given out before. All calls are for less than
half of the address space: the last seven sizes would be granted in any case. -/
theorem shm_alloc_exact (n : ℕ) (hn : n < 2 ^ 32) (addr pageSize : Size)
    (hpage : PageAt addr pageSize) (x : Guarded n Shm AllocCall)
    (hrun : ReflTransGen (GuardedStep shmSection)
      (Guarded.init n AllocCall (shmInit addr pageSize)) x) :
    (∀ b ∈ blocks x.history, b.1.toNat % 8 = 0 ∧ addr.toNat + 96 ≤ b.1.toNat ∧
      b.1.toNat + b.2.toNat ≤ addr.toNat + pageSize.toNat) ∧
      ((blocks x.history).Pairwise fun b c => b.1.toNat + b.2.toNat ≤ c.1.toNat) ∧
      (∀ before e after, x.history = before ++ e :: after → e.2.2.sizeBytes = e.2.1.sizeBytes ∧
        (e.2.2.pc = .done 0 → pageSize.toNat < 96 + used before + blockBytes e.2.1.sizeBytes)) ∧
      ∀ sizeBytes s, 2 ^ 64 - 7 ≤ sizeBytes.toNat → s.offset ≤ s.size →
        shmAlloc sizeBytes s = (s.addr + s.offset, s) := by
  obtain ⟨s, hserial, -⟩ := guarded_serial hn hrun
  have harena := serial_arena hpage hserial
  have hle := harena.le
  have hbytes : ∀ b ∈ blocks x.history, b.2.toNat ≤ blockBytes b.2 := by
    intro b hb
    obtain ⟨e, he, hgranted⟩ := List.mem_filterMap.mp hb
    obtain ⟨hcall, ret, hret⟩ := hserial.mem he
    rw [granted_done hret] at hgranted
    split_ifs at hgranted
    cases hgranted
    exact (blockBytes_spec hcall.1).1
  refine ⟨fun b hb => ?_, ?_, fun before e after hsplit => ?_, fun _ _ => shmAlloc_wraps⟩
  · obtain ⟨hlow, hhigh, haligned⟩ := harena.inside b hb
    have hb' := hbytes b hb
    exact ⟨haligned, hlow, by omega⟩
  · refine harena.apart.imp_of_mem fun hb _ hbc => ?_
    exact (Nat.add_le_add_left (hbytes _ hb) _).trans hbc
  · rw [hsplit] at hserial
    obtain ⟨t, u, hbefore, hcall, hruns, ret, hret⟩ := hserial.split
    have harena' := serial_arena hpage hbefore
    obtain ⟨hsize, heq⟩ := runs_eq hcall hruns hret
    refine ⟨hsize, fun hnull => ?_⟩
    rw [hret] at hnull
    cases hnull
    unfold shmAlloc at heq
    dsimp only at heq
    split_ifs at heq with htest
    · exact (harena'.test_iff hpage hcall.1).mp htest
    · exact absurd (Prod.mk.inj heq).1.symm (harena'.ret_ne_zero hpage)

def twoCalls : Calls 2 :=
  [(0, ⟨70, .test 72⟩, ⟨70, .done 65632⟩), (1, ⟨5000, .test 5000⟩, ⟨5000, .done 0⟩)]

theorem twoCalls_run : ∃ x : Guarded 2 Shm AllocCall,
    ReflTransGen (GuardedStep shmSection) (Guarded.init 2 AllocCall (shmInit 65536 4096)) x ∧
      x.history = twoCalls := by
  have h₁ : GuardedStep shmSection (Guarded.init 2 AllocCall (shmInit 65536 4096)) _ :=
    .call _ 0 ⟨70, .test 72⟩ rfl ⟨by decide, rfl⟩
  have h₂ := (ReflTransGen.single h₁).tail (.call _ 1 ⟨5000, .test 5000⟩ rfl ⟨by decide, rfl⟩)
  have h₃ := (h₂.tail (.fetchAdd _ 0 _ rfl rfl)).tail (.fetchAdd _ 1 _ rfl rfl)
  have hroom : ¬ (4096 : Size) < 96 + 72 := by decide
  have hfull : (4096 : Size) < 168 + 5000 := by decide
  have h₄ := (h₃.tail (.acquire _ 0 _ 0 rfl rfl rfl)).tail
    (.access _ 0 _ _ ⟨70, .addr 72⟩ _ rfl ⟨rfl, .room _ _ hroom⟩)
  have h₅ := (h₄.tail (.access _ 0 _ _ ⟨70, .loadOffset 65632 72⟩ _ rfl ⟨rfl, .addr _ _⟩)).tail
    (.access _ 0 _ _ ⟨70, .storeOffset 65632 72 96⟩ _ rfl ⟨rfl, .loadOffset _ _ _⟩)
  have h₆ := (h₅.tail (.access _ 0 _ _ ⟨70, .done 65632⟩ _ rfl ⟨rfl, .storeOffset _ _ _ _⟩)).tail
    (.unlockLoad _ 0 _ _ rfl ⟨_, rfl⟩)
  have h₇ := (h₆.tail (.unlockStore _ 0 _ _ 0 rfl rfl)).tail (.acquire _ 1 _ 1 rfl rfl rfl)
  have h₈ := (h₇.tail (.access _ 1 _ _ ⟨5000, .done 0⟩ _ rfl ⟨rfl, .full _ _ hfull⟩)).tail
    (.unlockLoad _ 1 _ _ rfl ⟨_, rfl⟩)
  exact ⟨_, h₈.tail (.unlockStore _ 1 _ _ 1 rfl rfl), rfl⟩

/-- There is no room for the block of the second process. -/
theorem shm_alloc_exact_two : ∃ x : Guarded 2 Shm AllocCall, x.history = twoCalls ∧
    4096 < 96 + used (twoCalls.take 1) + blockBytes 5000 := by
  obtain ⟨x, hrun, hhistory⟩ := twoCalls_run
  have hpage : PageAt 65536 4096 := ⟨by decide, by decide, by decide, by decide⟩
  obtain ⟨-, -, hcalls, -⟩ := shm_alloc_exact 2 (by decide) 65536 4096 hpage x hrun
  have hlast : x.history = twoCalls.take 1 ++ (1, ⟨5000, .test 5000⟩, ⟨5000, .done 0⟩) :: [] := hhistory
  exact ⟨x, hhistory, (hcalls _ _ _ hlast).2 rfl⟩

end Cserv.Util
