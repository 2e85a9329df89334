import Mathlib.Tactic

/-!
# Heaps of blocks

A heap is the list of the blocks that an allocator has handed out and not taken back. No two of them
overlap. An allocator answers with a null pointer or with a block that is apart from all live ones;
to free a pointer that is not the address of a live block is undefined.
-/
namespace Cserv.Foundations

structure MemBlock where
  addr : ℕ
  size : ℕ
  deriving DecidableEq, Repr

namespace MemBlock

def stop (b : MemBlock) : ℕ := b.addr + max b.size 1

def Apart (b c : MemBlock) : Prop := b.stop ≤ c.addr ∨ c.stop ≤ b.addr

theorem Apart.addr_ne {b c : MemBlock} (h : b.Apart c) : b.addr ≠ c.addr := by
  unfold Apart stop at h
  omega

end MemBlock

structure Heap where
  live : List MemBlock
  apart : live.Pairwise MemBlock.Apart
  nonnull : ∀ b ∈ live, b.addr ≠ 0

namespace Heap

variable {h h' : Heap} {size p : ℕ} {b : MemBlock}

/-- What an allocator may answer to a request. -/
structure Answer (h : Heap) (size : ℕ) where
  addr : ℕ
  apart : addr ≠ 0 → ∀ b ∈ h.live, MemBlock.Apart ⟨addr, size⟩ b

def empty : Heap := ⟨[], .nil, by simp⟩

def malloc (h : Heap) (size : ℕ) (a : h.Answer size) : Heap :=
  if ha : a.addr = 0 then h
  else
    { live := ⟨a.addr, size⟩ :: h.live
      apart := List.pairwise_cons.mpr ⟨a.apart ha, h.apart⟩
      nonnull := List.forall_mem_cons.mpr ⟨ha, h.nonnull⟩ }

def release (h : Heap) (p : ℕ) : Heap where
  live := h.live.filter (·.addr ≠ p)
  apart := h.apart.filter _
  nonnull b hb := h.nonnull b (List.mem_of_mem_filter hb)

def free (h : Heap) (p : ℕ) : Option Heap :=
  if p = 0 then some h
  else if p ∈ h.live.map MemBlock.addr then some (h.release p)
  else none

/-- The first address behind all blocks. -/
def top : List MemBlock → ℕ
  | [] => 1
  | b :: live => max b.stop (top live)

theorem stop_le_top {live : List MemBlock} (hb : b ∈ live) : b.stop ≤ top live := by
  induction live with
  | nil => cases hb
  | cons c live ih =>
    rcases List.mem_cons.mp hb with rfl | hb
    · exact le_max_left ..
    · exact (ih hb).trans (le_max_right ..)

def bump (h : Heap) (size : ℕ) : h.Answer size :=
  ⟨top h.live, fun _ _ hb => Or.inr (stop_le_top hb)⟩

theorem malloc_null {a : h.Answer size} (ha : a.addr = 0) : h.malloc size a = h := dif_pos ha

theorem mem_malloc {a : h.Answer size} :
    b ∈ (h.malloc size a).live ↔ (a.addr ≠ 0 ∧ b = ⟨a.addr, size⟩) ∨ b ∈ h.live := by
  unfold malloc
  split_ifs with ha
  · simp [ha]
  · simp [ha]

theorem mem_release : b ∈ (h.release p).live ↔ b ∈ h.live ∧ b.addr ≠ p := by
  simp [release]

theorem Answer.fresh (a : h.Answer size) (hb : b ∈ h.live) : b.addr ≠ a.addr := by
  intro heq
  have hne : a.addr ≠ 0 := heq ▸ h.nonnull b hb
  exact (a.apart hne b hb).addr_ne heq.symm

theorem mem_iff_malloc (a : h.Answer size) :
    b ∈ h.live ↔ b ∈ (h.malloc size a).live ∧ b.addr ≠ a.addr := by
  rw [mem_malloc]
  constructor
  · intro hb
    exact ⟨Or.inr hb, a.fresh hb⟩
  · rintro ⟨⟨-, rfl⟩ | hb, hne⟩
    · exact absurd rfl hne
    · exact hb

theorem free_of_mem (hb : b ∈ h.live) : h.free b.addr = some (h.release b.addr) := by
  rw [free, if_neg (h.nonnull b hb), if_pos (List.mem_map_of_mem hb)]

theorem mem_of_free (hfree : h.free p = some h') (hb : b ∈ h.live) (hne : b.addr ≠ p) :
    b ∈ h'.live := by
  unfold free at hfree
  split_ifs at hfree
  · cases hfree
    exact hb
  · cases hfree
    exact mem_release.mpr ⟨hb, hne⟩

end Heap

end Cserv.Foundations
