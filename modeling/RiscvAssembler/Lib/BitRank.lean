-- Ranks in a bit set: how many set bits lie below a position. A word that is
-- shifted up until only the bits below the position are left has as many set
-- bits as the rank.
import Mathlib.Data.Nat.Count

namespace bit_rank

variable {w : Nat}

/-- A count depends only on the positions that it looks at. -/
theorem count_congr {p q : Nat → Prop} [DecidablePred p] [DecidablePred q] {n : Nat}
    (h : ∀ i < n, p i ↔ q i) : Nat.count p n = Nat.count q n :=
  Nat.le_antisymm (Nat.count_mono_left fun i hi => (h i hi).mp)
    (Nat.count_mono_left fun i hi => (h i hi).mpr)

/-- One more member below the end counts one more. -/
theorem count_insert {p q : Nat → Prop} [DecidablePred p] [DecidablePred q] {n k : Nat}
    (hk : k < n) (hnot : ¬ p k) (h : ∀ i, q i ↔ p i ∨ i = k) :
    Nat.count q n = Nat.count p n + 1 := by
  induction n with
  | zero => omega
  | succ n ih =>
    rw [Nat.count_succ, Nat.count_succ]
    by_cases hkn : k = n
    · subst hkn
      have hq : q k := (h k).mpr (Or.inr rfl)
      have hsame : Nat.count q k = Nat.count p k :=
        count_congr fun i hi => (h i).trans (or_iff_left (by omega))
      rw [if_pos hq, if_neg hnot, hsame]
    · rw [ih (by omega), if_congr (h n) rfl rfl]
      have hor : (p n ∨ n = k) ↔ p n := or_iff_left (by omega)
      rw [if_congr hor rfl rfl]
      omega

/-- The number of set bits. -/
def popcount (x : BitVec w) : Nat := Nat.count (fun i => x.getLsbD i = true) w

theorem popcount_le (x : BitVec w) : popcount x ≤ w := Nat.count_le _

/-- The number of set bits below position `k`. -/
def below (x : BitVec w) (k : Nat) : Nat := Nat.count (fun i => x.getLsbD i = true) k

theorem below_le_popcount (x : BitVec w) {k : Nat} (h : k ≤ w) : below x k ≤ popcount x :=
  Nat.count_monotone _ h

/-- The shift drops the bits from `k` up, and the zeros that it brings in count
nothing. -/
theorem popcount_shiftLeft (x : BitVec w) {k : Nat} (h : k ≤ w) :
    popcount (x <<< (w - k)) = below x k := by
  have hlow : Nat.count (fun i => (x <<< (w - k)).getLsbD i = true) (w - k) = 0 := by
    rw [Nat.count_iff_forall_not]
    intro i hi
    simp [BitVec.getLsbD_shiftLeft, hi]
  have hw : popcount (x <<< (w - k)) =
      Nat.count (fun i => (x <<< (w - k)).getLsbD i = true) ((w - k) + k) := by
    rw [popcount, Nat.sub_add_cancel h]
  rw [hw, Nat.count_add, hlow, Nat.zero_add, below]
  apply count_congr
  intro i hi
  have hin : w - k + i < w := by omega
  have hup : ¬ w - k + i < w - k := by omega
  have hback : w - k + i - (w - k) = i := by omega
  simp only [BitVec.getLsbD_shiftLeft, hin, hup, hback, decide_true, decide_false, Bool.not_false,
    Bool.true_and]

/-! ## A set over two words -/

/-- Whether position `i` is in the set that two words hold, the first for the
positions below `w`. -/
def mem (x : BitVec w × BitVec w) (i : Nat) : Bool :=
  if i < w then x.1.getLsbD i else x.2.getLsbD (i - w)

/-- The number of members below `i`. -/
def rank (x : BitVec w × BitVec w) (i : Nat) : Nat := Nat.count (fun j => mem x j = true) i

theorem rank_of_le (x : BitVec w × BitVec w) {i : Nat} (h : i ≤ w) : rank x i = below x.1 i := by
  apply count_congr
  intro j hj
  rw [mem, if_pos (by omega)]

theorem rank_add (x : BitVec w × BitVec w) (i : Nat) :
    rank x (w + i) = popcount x.1 + below x.2 i := by
  have hlow : Nat.count (fun j => mem x j = true) w = popcount x.1 :=
    rank_of_le x (Nat.le_refl w)
  rw [rank, Nat.count_add, hlow]
  congr 1
  apply count_congr
  intro j _
  rw [mem, if_neg (by omega), Nat.add_sub_cancel_left]

theorem rank_lt_rank {x : BitVec w × BitVec w} {i j : Nat} (hi : mem x i = true) (h : i < j) :
    rank x i < rank x j := Nat.count_strict_mono hi h

/-- Two members of one rank are the same. -/
theorem rank_injective {x : BitVec w × BitVec w} {i j : Nat} (hi : mem x i = true)
    (hj : mem x j = true) (h : rank x i = rank x j) : i = j := Nat.count_injective hi hj h

/-- Every rank below the number of members is the rank of a member. -/
theorem exists_rank_eq (x : BitVec w × BitVec w) {n k : Nat} (h : k < rank x n) :
    ∃ i < n, mem x i = true ∧ rank x i = k := by
  induction n with
  | zero => simp [rank] at h
  | succ n ih =>
    by_cases hk : k < rank x n
    · obtain ⟨i, hi, hmem, hrank⟩ := ih hk
      exact ⟨i, by omega, hmem, hrank⟩
    · unfold rank at h hk
      rw [Nat.count_succ] at h
      split at h
      · rename_i hmem
        exact ⟨n, by omega, hmem, by unfold rank; omega⟩
      · omega

end bit_rank
