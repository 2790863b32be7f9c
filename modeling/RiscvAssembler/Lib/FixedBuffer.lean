-- A buffer of a fixed number of bytes. Every copy into it is checked against
-- its bounds, so a copy that C would do outside the buffer is a fault here.
import RiscvAssembler.Lib.Checked

open checked

structure FixedBuffer (n : Nat) where
  bytes : List UInt8
  size : bytes.length = n

namespace FixedBuffer

variable {n : Nat}

/-- A buffer of zeros. -/
def zeroed (n : Nat) : FixedBuffer n := ⟨List.replicate n 0, List.length_replicate⟩

/-- The bytes `d` in place of those at `off`. -/
def put (b : FixedBuffer n) (off : Nat) (d : List UInt8) (h : off + d.length ≤ n) :
    FixedBuffer n where
  bytes := b.bytes.take off ++ d ++ b.bytes.drop (off + d.length)
  size := by
    have := b.size
    simp only [List.length_append, List.length_take, List.length_drop]
    omega

/-- `memcpy` of `d` to the buffer at `off`. -/
def copyIn (b : FixedBuffer n) (off : Nat) (d : List UInt8) : Result (FixedBuffer n) :=
  if h : off + d.length ≤ n then .ok (b.put off d h) else .error .outOfBounds

/-- The `k` bytes at `off`. -/
def slice (b : FixedBuffer n) (off k : Nat) : List UInt8 := (b.bytes.drop off).take k

/-- `memcpy` of `k` bytes from the buffer at `off`. -/
def copyOut (b : FixedBuffer n) (off k : Nat) : Result (List UInt8) :=
  if off + k ≤ n then .ok (b.slice off k) else .error .outOfBounds

theorem copyIn_of_le {b : FixedBuffer n} {off : Nat} {d : List UInt8} (h : off + d.length ≤ n) :
    b.copyIn off d = .ok (b.put off d h) := dif_pos h

theorem copyOut_of_le {b : FixedBuffer n} {off k : Nat} (h : off + k ≤ n) :
    b.copyOut off k = .ok (b.slice off k) := if_pos h

/-- The bytes up to the end of a copy: those before it, then its own. -/
theorem take_put (b : FixedBuffer n) {off : Nat} {d : List UInt8} (h : off + d.length ≤ n) :
    (b.put off d h).bytes.take (off + d.length) = b.bytes.take off ++ d := by
  have hl : (b.bytes.take off ++ d).length = off + d.length := by
    have := b.size
    simp only [List.length_append, List.length_take]
    omega
  exact List.take_left' hl

/-- The bytes before a copy stay. -/
theorem take_put_before (b : FixedBuffer n) {off : Nat} {d : List UInt8} (h : off + d.length ≤ n) :
    (b.put off d h).bytes.take off = b.bytes.take off := by
  have htake := congrArg (List.take off) (b.take_put h)
  rwa [List.take_take, Nat.min_eq_left (Nat.le_add_right off _), List.take_left'] at htake
  rw [List.length_take, b.size]
  omega

/-- One byte of a buffer after a copy. -/
theorem getElem?_put (b : FixedBuffer n) {off : Nat} {d : List UInt8} (h : off + d.length ≤ n)
    (i : Nat) : (b.put off d h).bytes[i]? =
      if off ≤ i ∧ i < off + d.length then d[i - off]? else b.bytes[i]? := by
  have hs := b.size
  have hl : (b.bytes.take off).length = off := by
    simp only [List.length_take]
    omega
  simp only [put]
  by_cases h1 : i < off
  · rw [List.append_assoc, List.getElem?_append_left (by omega), List.getElem?_take_of_lt h1,
      if_neg (by omega)]
  · by_cases h2 : i < off + d.length
    · rw [List.append_assoc, List.getElem?_append_right (by omega),
        List.getElem?_append_left (by omega), hl, if_pos (by omega)]
    · rw [List.getElem?_append_right (by simp only [List.length_append]; omega),
        List.getElem?_drop, if_neg (by omega)]
      congr 1
      simp only [List.length_append, hl]
      omega

theorem getElem?_slice (b : FixedBuffer n) (off k i : Nat) :
    (b.slice off k)[i]? = if i < k then b.bytes[off + i]? else none := by
  simp [slice, List.getElem?_take]

/-- What a copy put into the buffer is what a slice reads there. -/
theorem slice_put_same (b : FixedBuffer n) {off : Nat} {d : List UInt8}
    (h : off + d.length ≤ n) : (b.put off d h).slice off d.length = d := by
  apply List.ext_getElem?
  intro i
  rw [getElem?_slice, getElem?_put]
  by_cases hi : i < d.length
  · rw [if_pos hi, if_pos (by omega)]
    congr 1
    omega
  · rw [if_neg hi, List.getElem?_eq_none (by omega)]

/-- A slice beside a copy does not change. -/
theorem slice_put_disjoint (b : FixedBuffer n) {off j k : Nat} {d : List UInt8}
    (h : off + d.length ≤ n) (hd : j + k ≤ off ∨ off + d.length ≤ j) :
    (b.put off d h).slice j k = b.slice j k := by
  apply List.ext_getElem?
  intro i
  rw [getElem?_slice, getElem?_slice]
  by_cases hi : i < k
  · rw [if_pos hi, if_pos hi, getElem?_put, if_neg (by omega)]
  · rw [if_neg hi, if_neg hi]

end FixedBuffer
