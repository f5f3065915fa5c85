import Mathlib

/-!
# Rounding to significant bits

A natural number is rounded to its nearest one with `k + 1` significant bits, ties to even.
-/

namespace CoroDB.Framework

variable {k m n : Nat}

/-- The quotient by a power of two, rounded to the nearest, ties to even. -/
def roundQuotient (n d : Nat) : Nat :=
  if 2 ^ (d - 1) < n % 2 ^ d ∨ 2 ^ (d - 1) = n % 2 ^ d ∧ n / 2 ^ d % 2 = 1 then n / 2 ^ d + 1
  else n / 2 ^ d

def roundBits (k n : Nat) : Nat :=
  if n.log2 ≤ k then n else roundQuotient n (n.log2 - k) * 2 ^ (n.log2 - k)

theorem roundQuotient_bounds (n d : Nat) :
    n / 2 ^ d ≤ roundQuotient n d ∧ roundQuotient n d ≤ n / 2 ^ d + 1 := by
  rw [roundQuotient]
  split_ifs <;> omega

theorem roundQuotient_mono (d : Nat) (h : m ≤ n) : roundQuotient m d ≤ roundQuotient n d := by
  rcases Nat.lt_or_ge (m / 2 ^ d) (n / 2 ^ d) with hlt | hge
  · have hm := (roundQuotient_bounds m d).2
    have hn := (roundQuotient_bounds n d).1
    omega
  · have hq : m / 2 ^ d = n / 2 ^ d := le_antisymm (Nat.div_le_div_right h) hge
    have hr : m % 2 ^ d ≤ n % 2 ^ d := by
      have hm := Nat.div_add_mod m (2 ^ d)
      have hn := Nat.div_add_mod n (2 ^ d)
      rw [hq] at hm
      omega
    rw [roundQuotient, roundQuotient, hq]
    split_ifs with hup hup' <;> omega

theorem quotient_bounds (hn : n ≠ 0) (hk : k ≤ n.log2) :
    2 ^ k ≤ n / 2 ^ (n.log2 - k) ∧ n / 2 ^ (n.log2 - k) < 2 ^ (k + 1) := by
  constructor
  · rw [Nat.le_div_iff_mul_le (Nat.two_pow_pos _), ← Nat.pow_add, Nat.add_sub_cancel' hk]
    exact Nat.log2_self_le hn
  · rw [Nat.div_lt_iff_lt_mul (Nat.two_pow_pos _), ← Nat.pow_add]
    have hexp : k + 1 + (n.log2 - k) = n.log2 + 1 := by omega
    rw [hexp]
    exact Nat.lt_log2_self

theorem roundBits_bounds (hn : n ≠ 0) : 2 ^ n.log2 ≤ roundBits k n ∧ roundBits k n ≤ 2 ^ (n.log2 + 1) := by
  rw [roundBits]
  split_ifs with hk
  · exact ⟨Nat.log2_self_le hn, Nat.lt_log2_self.le⟩
  · have hk : k ≤ n.log2 := by omega
    have hq := quotient_bounds hn hk
    have hround := roundQuotient_bounds n (n.log2 - k)
    have hlow : 2 ^ n.log2 = 2 ^ k * 2 ^ (n.log2 - k) := by rw [← Nat.pow_add, Nat.add_sub_cancel' hk]
    have hhigh : 2 ^ (n.log2 + 1) = 2 ^ (k + 1) * 2 ^ (n.log2 - k) := by
      rw [← Nat.pow_add]
      congr 1
      omega
    rw [hlow, hhigh]
    exact ⟨Nat.mul_le_mul_right _ (hq.1.trans hround.1), Nat.mul_le_mul_right _ (by omega)⟩

theorem roundBits_mono (h : m ≤ n) : roundBits k m ≤ roundBits k n := by
  by_cases hm : m = 0
  · subst hm
    simp [roundBits]
  · have hn : n ≠ 0 := by omega
    rcases Nat.lt_or_ge m.log2 n.log2 with hlt | hge
    · calc roundBits k m ≤ 2 ^ (m.log2 + 1) := (roundBits_bounds hm).2
        _ ≤ 2 ^ n.log2 := Nat.pow_le_pow_right (by decide) hlt
        _ ≤ roundBits k n := (roundBits_bounds hn).1
    · have hlog : m.log2 = n.log2 := by
        apply le_antisymm _ hge
        exact (Nat.le_log2 hn).mpr ((Nat.log2_self_le hm).trans h)
      rw [roundBits, roundBits, hlog]
      split_ifs
      · exact h
      · exact Nat.mul_le_mul_right _ (roundQuotient_mono _ h)

end CoroDB.Framework
