-- Machine integers as plain ones: what is left of a number after a C
-- conversion, and the bytes that a little-endian host keeps for it.
import Mathlib.Algebra.Group.Int.Defs
import Mathlib.Algebra.Group.Nat.Defs
import Mathlib.Tactic.Common

namespace machine_int

/-! ## Conversions -/

/-- A conversion to an unsigned type of `w` bits. -/
def toU (w : Nat) (z : Int) : Nat := (z % 2 ^ w).toNat

/-- A conversion to a signed type of `w` bits, in two's complement. -/
def toS (w : Nat) (z : Int) : Int := z.bmod (2 ^ w)

theorem toU_lt (w : Nat) (z : Int) : toU w z < 2 ^ w := by
  have hp : (0 : Int) < 2 ^ w := Int.pow_pos (by decide)
  have h1 := Int.emod_lt_of_pos z hp
  have h0 := Int.emod_nonneg z (Int.ne_of_gt hp)
  have hc : ((toU w z : Nat) : Int) < ((2 ^ w : Nat) : Int) := by
    rw [toU, Int.toNat_of_nonneg h0]
    simpa using h1
  exact Int.ofNat_lt.mp hc

theorem toU_of_lt {w n : Nat} (h : n < 2 ^ w) : toU w n = n := by
  have hc : (n : Int) < 2 ^ w := by
    have := Int.ofNat_lt.mpr h
    simpa using this
  rw [toU, Int.emod_eq_of_lt (Int.natCast_nonneg n) hc, Int.toNat_natCast]

/-- A number that a signed type can hold is left as it is. -/
theorem toS_of_fits {w : Nat} {z : Int} (h1 : -(2 ^ w : Int) ≤ z) (h2 : z < 2 ^ w) :
    toS (w + 1) z = z := by
  apply Int.bmod_eq_of_le
  · rw [Nat.pow_succ]; push_cast; omega
  · rw [Nat.pow_succ]; push_cast; omega

theorem toS64_of_lt {n : Nat} (h : n < 2 ^ 63) : toS 64 n = n :=
  toS_of_fits (w := 63) (by omega) (by omega)

/-- A signed type of `w + 1` bits holds the numbers below 2^w. -/
theorem toS_eq_self_iff {w n : Nat} : toS (w + 1) n = n ↔ n < 2 ^ w := by
  have hp : (0 : Int) < 2 ^ w := Int.pow_pos (by decide)
  constructor
  · intro h
    have hlt : toS (w + 1) n < ((2 ^ (w + 1) : Nat) + 1) / 2 :=
      Int.bmod_lt (Nat.pow_pos (by decide))
    rw [h, Nat.pow_succ] at hlt
    push_cast at hlt
    have hc : (n : Int) < ((2 ^ w : Nat) : Int) := by
      push_cast
      omega
    exact Int.ofNat_lt.mp hc
  · intro h
    have hc : (n : Int) < 2 ^ w := by exact_mod_cast Int.ofNat_lt.mpr h
    exact toS_of_fits (by omega) hc

theorem toS_of_nonneg {w n : Nat} (hn : n < 2 ^ w) (h : 0 ≤ toS w n) : toS w n = n := by
  have hmod : (n : Int) % ((2 ^ w : Nat) : Int) = n := by exact_mod_cast Nat.mod_eq_of_lt hn
  unfold toS at h ⊢
  rw [Int.bmod_def, hmod] at h ⊢
  split
  · rfl
  · rename_i hbig
    rw [if_neg hbig] at h
    omega

theorem toS_le (w n : Nat) : toS w n ≤ n := by
  have hmod : ((n : Int) % ((2 ^ w : Nat) : Int)) ≤ n := by exact_mod_cast Nat.mod_le n (2 ^ w)
  unfold toS
  rw [Int.bmod_def]
  split
  · exact hmod
  · omega

/-- What a conversion to a signed type makes of a number that the type cannot hold. -/
theorem toS_cases (w n : Nat) : toS w n ≤ 0 ∨ toS w n = n ∨ toS w n + 2 ^ w ≤ n := by
  have hp : (0 : Int) < ((2 ^ w : Nat) : Int) := Int.natCast_pos.mpr (Nat.pow_pos (by decide))
  have hlt := Int.emod_lt_of_pos (n : Int) hp
  have hsplit := Int.emod_add_mul_ediv (n : Int) ((2 ^ w : Nat) : Int)
  have hq : 0 ≤ (n : Int) / ((2 ^ w : Nat) : Int) :=
    Int.ediv_nonneg (Int.natCast_nonneg n) (Int.le_of_lt hp)
  have hpow : ((2 : Int) ^ w) = ((2 ^ w : Nat) : Int) := by push_cast; rfl
  unfold toS
  rw [Int.bmod_def, hpow]
  split
  · right
    by_cases hone : 0 < (n : Int) / ((2 ^ w : Nat) : Int)
    · right
      have := Int.mul_le_mul_of_nonneg_left (Int.add_one_le_of_lt hone) (Int.le_of_lt hp)
      rw [Int.zero_add, Int.mul_one] at this
      omega
    · left
      have hzero : (n : Int) / ((2 ^ w : Nat) : Int) = 0 := by omega
      rw [hzero, Int.mul_zero, Int.add_zero] at hsplit
      exact hsplit
  · left
    omega

/-- Nor does one to as many bits see it on either side of a difference. -/
theorem toS_toS_sub (w : Nat) (x y : Int) : toS w (toS w x - y) = toS w (x - y) :=
  Int.bmod_sub_bmod

theorem toS_sub_toS (w : Nat) (x y : Int) : toS w (x - toS w y) = toS w (x - y) :=
  Int.sub_bmod_bmod

/-- A conversion to an unsigned type does not see a signed one in a sum. -/
theorem toU_add_toS (w : Nat) (x y : Int) : toU w (x + toS w y) = toU w (x + y) := by
  have hpow : ((2 : Int) ^ w) = ((2 ^ w : Nat) : Int) := by push_cast; rfl
  unfold toU toS
  rw [hpow, Int.add_emod, Int.bmod_emod, ← Int.add_emod]

/-- A conversion to fewer bits does not see a conversion before it. -/
theorem ofInt_toS_of_le {v w : Nat} (h : v ≤ w) (z : Int) :
    BitVec.ofInt v (toS w z) = BitVec.ofInt v z := by
  apply BitVec.eq_of_toInt_eq
  rw [BitVec.toInt_ofInt, BitVec.toInt_ofInt, toS]
  exact Int.bmod_bmod_of_dvd (Nat.pow_dvd_pow 2 h)

theorem ofInt_toS_sub_of_le {v w : Nat} (h : v ≤ w) (x y : Int) :
    BitVec.ofInt v (toS w x - y) = BitVec.ofInt v (x - y) := by
  rw [Int.sub_eq_add_neg, Int.sub_eq_add_neg, BitVec.ofInt_add, BitVec.ofInt_add,
    ofInt_toS_of_le h]

/-- Fewer bits of a number are the number in fewer bits. -/
theorem setWidth_ofInt {v w : Nat} (h : v ≤ w) (z : Int) :
    (BitVec.ofInt w z).setWidth v = BitVec.ofInt v z := by
  apply BitVec.eq_of_toInt_eq
  rw [BitVec.toInt_setWidth, ← Int.bmod_bmod_of_dvd (Nat.pow_dvd_pow 2 h),
    ← BitVec.toInt_eq_toNat_bmod, BitVec.toInt_ofInt, BitVec.toInt_ofInt,
    Int.bmod_bmod_of_dvd (Nat.pow_dvd_pow 2 h)]

-- From here on the conversions are used through the lemmas above: unfolding
-- them would bring the powers of two into every unification.
attribute [irreducible] toU toS

/-! ## Bytes, the lowest first -/

/-- The lowest `k` bytes of `v`. -/
def leBytes : Nat → Nat → List UInt8
  | 0, _ => []
  | k + 1, v => UInt8.ofNat v :: leBytes k (v / 256)

/-- The number that some bytes spell. -/
def leNat : List UInt8 → Nat
  | [] => 0
  | b :: bs => b.toNat + 256 * leNat bs

@[simp] theorem length_leBytes (k v : Nat) : (leBytes k v).length = k := by
  induction k generalizing v with
  | zero => rfl
  | succ k ih => simp [leBytes, ih]

theorem leNat_lt (bs : List UInt8) : leNat bs < 256 ^ bs.length := by
  induction bs with
  | nil => exact Nat.one_pos
  | cons b bs ih =>
    have hb : b.toNat < 256 := b.toNat_lt
    rw [leNat, List.length_cons, Nat.pow_succ]
    omega

theorem leNat_leBytes (k v : Nat) : leNat (leBytes k v) = v % 256 ^ k := by
  induction k generalizing v with
  | zero => simp [leBytes, leNat, Nat.mod_one]
  | succ k ih =>
    simp only [leBytes, leNat, ih]
    rw [Nat.pow_succ, Nat.mul_comm (256 ^ k), Nat.mod_mul]
    simp

end machine_int
