-- The bits of bytes in memory, the lowest byte first, and what a word that is put
-- over some of the bytes by OR does to them.
import RiscvAssembler.Lib.MachineInt

open machine_int

namespace byte_bits

/-- Bit `n` of the bytes. Behind their end there are only zeros. -/
def bitAt (l : List UInt8) (n : Nat) : Bool := (l[n / 8]?.getD 0).toNat.testBit (n % 8)

theorem testBit_leNat (l : List UInt8) (n : Nat) : (leNat l).testBit n = bitAt l n := by
  induction l generalizing n with
  | nil => simp [leNat, bitAt]
  | cons b l ih =>
    have hb : b.toNat < 2 ^ 8 := b.toNat_lt
    have hsum : leNat (b :: l) = 2 ^ 8 * leNat l + b.toNat := by
      rw [leNat]
      omega
    rw [hsum, Nat.testBit_two_pow_mul_add _ hb]
    by_cases hn : n < 8
    · rw [if_pos hn, bitAt, Nat.div_eq_of_lt hn, Nat.mod_eq_of_lt hn]
      rfl
    · have hdiv : n / 8 = (n - 8) / 8 + 1 := by omega
      have hmod : n % 8 = (n - 8) % 8 := by omega
      rw [if_neg hn, ih, bitAt, bitAt, hdiv, hmod, List.getElem?_cons_succ]

theorem bitAt_leBytes (k v n : Nat) :
    bitAt (leBytes k v) n = (decide (n < 8 * k) && v.testBit n) := by
  have hpow : 256 ^ k = 2 ^ (8 * k) := by rw [Nat.pow_mul]
  rw [← testBit_leNat, leNat_leBytes, hpow, Nat.testBit_mod_two_pow]

theorem bitAt_slice (l : List UInt8) (o k n : Nat) :
    bitAt ((l.drop o).take k) n = (decide (n < 8 * k) && bitAt l (8 * o + n)) := by
  have hdiv : (8 * o + n) / 8 = o + n / 8 := by omega
  have hmod : (8 * o + n) % 8 = n % 8 := by omega
  unfold bitAt
  rw [hdiv, hmod, List.getElem?_take, List.getElem?_drop]
  by_cases hn : n < 8 * k
  · rw [if_pos (by omega), decide_eq_true hn, Bool.true_and]
  · rw [if_neg (by omega), decide_eq_false hn]
    simp

theorem bitAt_append_left {l : List UInt8} (more : List UInt8) {n : Nat} (hn : n < 8 * l.length) :
    bitAt (l ++ more) n = bitAt l n := by
  unfold bitAt
  rw [List.getElem?_append_left (by omega)]

/-- The word of `k` bytes at `o` with the bits of `m` beside its own: no bit goes
away, and those of `m` come in at their places. -/
theorem bitAt_or {l l' : List UInt8} {o k m : Nat} (hm : m < 2 ^ (8 * k))
    (h : ∀ i, l'[i]? = if o ≤ i ∧ i < o + k then
      (leBytes k (leNat ((l.drop o).take k) ||| m))[i - o]? else l[i]?) (n : Nat) :
    bitAt l' n = (bitAt l n || (decide (8 * o ≤ n) && m.testBit (n - 8 * o))) := by
  by_cases hin : o ≤ n / 8 ∧ n / 8 < o + k
  · have hword : bitAt l' n = bitAt (leBytes k (leNat ((l.drop o).take k) ||| m)) (n - 8 * o) := by
      have hdiv : (n - 8 * o) / 8 = n / 8 - o := by omega
      have hmod : (n - 8 * o) % 8 = n % 8 := by omega
      rw [bitAt, bitAt, h, if_pos hin, hdiv, hmod]
    have hback : 8 * o + (n - 8 * o) = n := by omega
    have hlt : n - 8 * o < 8 * k := by omega
    rw [hword, bitAt_leBytes, Nat.testBit_or, testBit_leNat, bitAt_slice, hback, decide_eq_true hlt,
      decide_eq_true (show 8 * o ≤ n by omega), Bool.true_and, Bool.true_and, Bool.true_and]
  · have hsame : bitAt l' n = bitAt l n := by rw [bitAt, bitAt, h, if_neg hin]
    have hout : (decide (8 * o ≤ n) && m.testBit (n - 8 * o)) = false := by
      by_cases hle : 8 * o ≤ n
      · have hbig : m < 2 ^ (n - 8 * o) :=
          Nat.lt_of_lt_of_le hm (Nat.pow_le_pow_right (by decide) (by omega))
        rw [Nat.testBit_lt_two_pow hbig, Bool.and_false]
      · rw [decide_eq_false hle, Bool.false_and]
    rw [hsame, hout, Bool.or_false]

end byte_bits
