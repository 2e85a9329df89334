import Mathlib.Data.Int.Bitwise
import Mathlib.Tactic

/-!
# Fixed-width signed integers

Conversion to a two's-complement type of a given width, and the range on which
it changes nothing.
-/
namespace Cserv.Foundations

def toInt32 (x : ℤ) : ℤ := x.bmod (2 ^ 32)

def toInt64 (x : ℤ) : ℤ := x.bmod (2 ^ 64)

theorem toInt32_of_range {x : ℤ} (h₁ : -2 ^ 31 ≤ x) (h₂ : x < 2 ^ 31) : toInt32 x = x := by
  unfold toInt32
  rw [Int.bmod_def]
  norm_num at *
  omega

theorem toInt64_of_range {x : ℤ} (h₁ : -2 ^ 63 ≤ x) (h₂ : x < 2 ^ 63) : toInt64 x = x := by
  unfold toInt64
  rw [Int.bmod_def]
  norm_num at *
  omega

theorem toInt32_natCast (n : ℕ) :
    toInt32 n =
      if n % 2 ^ 32 < 2 ^ 31 then ((n % 2 ^ 32 : ℕ) : ℤ) else ((n % 2 ^ 32 : ℕ) : ℤ) - 2 ^ 32 := by
  unfold toInt32
  rw [Int.bmod_def]
  push_cast
  split_ifs <;> omega

theorem toInt32_mul_add (a b d : ℤ) : toInt32 (b * toInt32 a + d) = toInt32 (b * a + d) := by
  unfold toInt32
  rw [← Int.bmod_add_bmod, Int.mul_bmod_bmod, Int.bmod_add_bmod]

/-- Two values of a counter less than a turn apart are the same only if they are equal. -/
theorem uint32_ofNat_inj {a b : ℕ} (h : UInt32.ofNat a = UInt32.ofNat b) (hle : a ≤ b)
    (hlt : b < a + 2 ^ 32) : a = b := by
  have hmod := congrArg UInt32.toNat h
  rw [UInt32.toNat_ofNat', UInt32.toNat_ofNat'] at hmod
  omega

/-! ## Clearing low bits -/

theorem ldiff_mask (n k : ℕ) : n.ldiff (2 ^ k - 1) = 2 ^ k * (n / 2 ^ k) := by
  apply Nat.eq_of_testBit_eq
  intro i
  rw [Nat.testBit_ldiff, Nat.testBit_two_pow_sub_one, Nat.testBit_two_pow_mul,
    Nat.testBit_div_two_pow]
  by_cases hi : i < k
  · simp [hi]
  · simp [hi, Nat.sub_add_cancel (not_lt.mp hi), not_lt.mp hi]

theorem or_mask (n k : ℕ) : n ||| (2 ^ k - 1) = 2 ^ k * (n / 2 ^ k) + (2 ^ k - 1) := by
  apply Nat.eq_of_testBit_eq
  intro i
  have hlt : 2 ^ k - 1 < 2 ^ k := Nat.sub_lt (Nat.two_pow_pos k) one_pos
  rw [Nat.testBit_or, Nat.testBit_two_pow_mul_add _ hlt, Nat.testBit_two_pow_sub_one,
    Nat.testBit_div_two_pow]
  by_cases hi : i < k
  · simp [hi]
  · simp [hi, Nat.sub_add_cancel (not_lt.mp hi)]

/-- A signed integer without its `k` low bits is rounded down. -/
theorem land_lnot_mask (z : ℤ) (k : ℕ) :
    z.land (Int.lnot (2 ^ k - 1)) = 2 ^ k * (z / 2 ^ k) := by
  have hmask : ((2 : ℤ) ^ k - 1) = ((2 ^ k - 1 : ℕ) : ℤ) := by
    rw [Nat.cast_sub Nat.one_le_two_pow]
    norm_num
  rw [hmask]
  cases z with
  | ofNat n =>
    change ((n.ldiff (2 ^ k - 1) : ℕ) : ℤ) = _
    rw [ldiff_mask]
    norm_num
  | negSucc n =>
    change Int.negSucc (n ||| (2 ^ k - 1)) = _
    have hpos : (0 : ℤ) < 2 ^ k := by positivity
    rw [or_mask, Int.negSucc_ediv _ hpos, Int.negSucc_eq]
    change _ = 2 ^ k * -((n : ℤ) / 2 ^ k + 1)
    push_cast [Nat.one_le_two_pow]
    ring

end Cserv.Foundations
