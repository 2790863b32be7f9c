-- Quadratic probing by triangular numbers: in a table whose size is a power of
-- two the displacements from a bucket reach different buckets.
import Mathlib.Algebra.Group.Nat.Even
import Mathlib.Algebra.Order.Ring.Nat
import Mathlib.Data.Nat.ModEq
import Mathlib.Data.Nat.Prime.Basic
import Mathlib.Tactic.GCongr
import Mathlib.Tactic.Ring

namespace probing

/-- The `d`-th triangular number. -/
def triangle (d : Nat) : Nat := (d * d + d) / 2

@[simp] theorem triangle_zero : triangle 0 = 0 := rfl

theorem two_mul_triangle (d : Nat) : 2 * triangle d = d * d + d := by
  have h : 2 ∣ d * d + d := (Nat.mul_succ d d ▸ Nat.even_mul_succ_self d).two_dvd
  exact Nat.mul_div_cancel' h

theorem triangle_succ (d : Nat) : triangle (d + 1) = triangle d + (d + 1) := by
  have h := two_mul_triangle d
  have h' := two_mul_triangle (d + 1)
  have hring : (d + 1) * (d + 1) + (d + 1) = d * d + d + 2 * (d + 1) := by ring
  omega

theorem triangle_mono {i j : Nat} (h : i ≤ j) : triangle i ≤ triangle j := by
  unfold triangle
  gcongr

/-- The difference of two triangular numbers, as a product of two factors of which
one is odd. -/
theorem two_mul_sub_triangle {i j : Nat} (h : i ≤ j) :
    2 * (triangle j - triangle i) = (j - i) * (j + i + 1) := by
  obtain ⟨c, rfl⟩ := Nat.exists_eq_add_of_le h
  rw [Nat.mul_sub, two_mul_triangle, two_mul_triangle, Nat.add_sub_cancel_left]
  have hring : (i + c) * (i + c) + (i + c) = c * (i + c + i + 1) + (i * i + i) := by ring
  omega

theorem eq_of_triangle_mod {k i j : Nat} (hij : i ≤ j) (hj : j < 2 ^ k)
    (h : triangle i % 2 ^ k = triangle j % 2 ^ k) : i = j := by
  have hdvd : 2 ^ k ∣ triangle j - triangle i := (Nat.modEq_iff_dvd' (triangle_mono hij)).mp h
  have hprod : 2 ^ (k + 1) ∣ (j - i) * (j + i + 1) := by
    rw [← two_mul_sub_triangle hij, pow_succ, mul_comm]
    exact Nat.mul_dvd_mul_left 2 hdvd
  rcases Nat.even_or_odd (j - i) with heven | hodd
  · -- then the other factor is odd
    have hodd : Odd (j + i + 1) := by
      have hsum : j + i + 1 = j - i + (2 * i + 1) := by omega
      rw [hsum]
      exact heven.add_odd (odd_two_mul_add_one i)
    have hcop : Nat.Coprime (2 ^ (k + 1)) (j + i + 1) := hodd.coprime_two_left.pow_left _
    have hzero := Nat.eq_zero_of_dvd_of_lt (hcop.dvd_of_dvd_mul_right hprod) (by rw [pow_succ]; omega)
    omega
  · have hcop : Nat.Coprime (2 ^ (k + 1)) (j - i) := hodd.coprime_two_left.pow_left _
    have hzero := Nat.eq_zero_of_dvd_of_lt (hcop.dvd_of_dvd_mul_left hprod) (by rw [pow_succ]; omega)
    omega

/-- The bucket at a displacement from its home. -/
def probe (size home d : Nat) : Nat := (home + triangle d) % size

theorem probe_zero {size home : Nat} (h : home < size) : probe size home 0 = home := by
  rw [probe, triangle_zero, Nat.add_zero, Nat.mod_eq_of_lt h]

theorem probe_injOn (home : Nat) {k i j : Nat} (hi : i < 2 ^ k) (hj : j < 2 ^ k)
    (h : probe (2 ^ k) home i = probe (2 ^ k) home j) : i = j := by
  have hmod : triangle i % 2 ^ k = triangle j % 2 ^ k := Nat.ModEq.add_left_cancel' home h
  rcases Nat.le_total i j with hij | hij
  · exact eq_of_triangle_mod hij hj hmod
  · exact (eq_of_triangle_mod hij hi hmod.symm).symm

end probing
