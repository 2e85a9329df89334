import Mathlib.Tactic

/-!
# Rings

A ring of `n` cells with a start and a stop index holds the elements from the start up to
the stop, around the end of the cells. One cell stays free, so that the indices are equal
only if the ring is empty.
-/
namespace Cserv.Foundations

variable {α : Type*}

structure RingHolds (n : ℕ) (elem : ℕ → α) (start stop : ℕ) (xs : List α) : Prop where
  start_lt : start < n
  stop_eq : stop = (start + xs.length) % n
  length_lt : xs.length < n
  cell : ∀ (i : ℕ) (hi : i < xs.length), elem ((start + i) % n) = xs[i]

namespace RingHolds

variable {n start stop : ℕ} {elem : ℕ → α} {x : α} {xs : List α}

theorem empty (h : start < n) : RingHolds n elem start start [] where
  start_lt := h
  stop_eq := by simp [Nat.mod_eq_of_lt h]
  length_lt := by simpa using Nat.zero_lt_of_lt h
  cell i hi := by simp at hi

/-- Two offsets less than a turn apart name one cell only if they are equal. -/
theorem offset_inj (start : ℕ) {i j : ℕ} (hi : i < n) (hj : j < n)
    (heq : (start + i) % n = (start + j) % n) : i = j := by
  have hmod : i ≡ j [MOD n] := Nat.ModEq.add_left_cancel' start heq
  exact Nat.ModEq.eq_of_lt_of_lt hmod hi hj

theorem eq_iff (h : RingHolds n elem start stop xs) : start = stop ↔ xs = [] := by
  constructor
  · intro heq
    have hzero : 0 = xs.length := by
      apply offset_inj start (Nat.zero_lt_of_lt h.start_lt) h.length_lt
      rw [← h.stop_eq, Nat.add_zero, Nat.mod_eq_of_lt h.start_lt]
      exact heq
    exact List.length_eq_zero_iff.mp hzero.symm
  · intro hnil
    have hstop := h.stop_eq
    rw [hnil, List.length_nil, Nat.add_zero, Nat.mod_eq_of_lt h.start_lt] at hstop
    exact hstop.symm

theorem stop_add_mod (h : RingHolds n elem start stop xs) (i : ℕ) :
    (stop + i) % n = (start + (xs.length + i)) % n := by
  rw [h.stop_eq, Nat.mod_add_mod, Nat.add_assoc]

theorem stop_add_ne (h : RingHolds n elem start stop xs) {i : ℕ} (hi : 0 < i)
    (hroom : xs.length + i < n) : (stop + i) % n ≠ start := by
  intro heq
  have hzero : xs.length + i = 0 := by
    apply offset_inj start hroom (Nat.zero_lt_of_lt h.start_lt)
    rw [← h.stop_add_mod, heq, Nat.add_zero, Nat.mod_eq_of_lt h.start_lt]
  omega

/-- There is room for another element unless the stop is right behind the start. -/
theorem room_iff (h : RingHolds n elem start stop xs) :
    (stop + 1) % n ≠ start ↔ xs.length + 1 < n := by
  have hlt := h.length_lt
  rw [h.stop_add_mod]
  constructor
  · intro hne
    by_contra hfull
    have hn : xs.length + 1 = n := by omega
    apply hne
    rw [hn, Nat.add_mod_right, Nat.mod_eq_of_lt h.start_lt]
  · intro hroom
    rw [← h.stop_add_mod]
    exact h.stop_add_ne Nat.one_pos hroom

theorem stop_ne_cell (h : RingHolds n elem start stop xs) {i : ℕ} (hi : i < xs.length) :
    stop ≠ (start + i) % n := by
  intro heq
  rw [h.stop_eq] at heq
  have hi' := offset_inj start h.length_lt (hi.trans h.length_lt) heq
  omega

theorem store (h : RingHolds n elem start stop xs) (x : α) :
    RingHolds n (Function.update elem stop x) start stop xs where
  start_lt := h.start_lt
  stop_eq := h.stop_eq
  length_lt := h.length_lt
  cell i hi := by
    rw [Function.update_of_ne (h.stop_ne_cell hi).symm]
    exact h.cell i hi

theorem push (h : RingHolds n elem start stop xs) (hroom : xs.length + 1 < n)
    (hx : elem stop = x) : RingHolds n elem start ((stop + 1) % n) (xs ++ [x]) where
  start_lt := h.start_lt
  stop_eq := by rw [h.stop_add_mod, List.length_append, List.length_singleton]
  length_lt := by simpa using hroom
  cell i hi := by
    rw [List.length_append, List.length_singleton] at hi
    by_cases hlast : i < xs.length
    · rw [List.getElem_append_left hlast]
      exact h.cell i hlast
    · have heq : i = xs.length := by omega
      subst heq
      rw [← h.stop_eq, hx]
      simp

theorem head (h : RingHolds n elem start stop (x :: xs)) : elem start = x := by
  have hcell := h.cell 0 (by simp)
  rwa [Nat.add_zero, Nat.mod_eq_of_lt h.start_lt] at hcell

theorem pop (h : RingHolds n elem start stop (x :: xs)) :
    RingHolds n elem ((start + 1) % n) stop xs where
  start_lt := Nat.mod_lt _ (Nat.zero_lt_of_lt h.start_lt)
  stop_eq := by
    rw [h.stop_eq, Nat.mod_add_mod, List.length_cons, Nat.add_assoc, Nat.add_comm 1]
  length_lt := by
    have hlt := h.length_lt
    rw [List.length_cons] at hlt
    omega
  cell i hi := by
    have hcell := h.cell (i + 1) (by simpa using hi)
    rw [Nat.mod_add_mod, Nat.add_assoc, Nat.add_comm 1, hcell]
    rfl

theorem eq_map_range (h : RingHolds n elem start stop xs) :
    xs = (List.range ((stop + n - start) % n)).map fun i => elem ((start + i) % n) := by
  have hcount : (stop + n - start) % n = xs.length := by
    have hlt := h.start_lt
    have hlen := h.length_lt
    rw [h.stop_eq]
    by_cases hwrap : start + xs.length < n
    · rw [Nat.mod_eq_of_lt hwrap, show start + xs.length + n - start = xs.length + n by omega,
        Nat.add_mod_right, Nat.mod_eq_of_lt hlen]
    · have hstop : (start + xs.length) % n = start + xs.length - n := by
        rw [Nat.mod_eq_sub_mod (by omega), Nat.mod_eq_of_lt (by omega)]
      rw [hstop, show start + xs.length - n + n - start = xs.length by omega,
        Nat.mod_eq_of_lt hlen]
  rw [hcount]
  apply List.ext_getElem
  · simp
  · intro i hi _
    simpa using (h.cell i hi).symm

end RingHolds

end Cserv.Foundations
