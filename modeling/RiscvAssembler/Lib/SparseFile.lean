-- A file behind a descriptor: its bytes and its offset. A seek past the end
-- leaves a hole, which reads as zero and takes no room until a write comes
-- after it.
import Mathlib.Algebra.Group.Nat.Defs
import Mathlib.Tactic.Common

structure SparseFile where
  /-- The bytes from the start to the end of the file. -/
  data : List UInt8
  offset : Nat

namespace SparseFile

/-- The largest offset that an `off_t` of 64 bits can hold. -/
def OFF_MAX : Nat := 2 ^ 63 - 1

/-- A file with no bytes, at its start. -/
def empty : SparseFile := ⟨[], 0⟩

/-- The first `n` bytes of a file with the bytes `l`, where all that lies past
the end reads as zero. -/
def upTo (l : List UInt8) (n : Nat) : List UInt8 := l.take n ++ List.replicate (n - l.length) 0

/-- What lies before the offset. -/
def before (f : SparseFile) : List UInt8 := upTo f.data f.offset

/-- The bytes `d` at the offset, over what was there. No bytes change nothing,
so a hole at the end stays a hole. -/
def put (f : SparseFile) (d : List UInt8) : SparseFile :=
  if d = [] then f else
    ⟨f.before ++ d ++ f.data.drop (f.offset + d.length), f.offset + d.length⟩

/-- `write`: the whole of `d` at the offset, or `none` (the call gives -1)
when the file would pass the largest offset. -/
def write (f : SparseFile) (d : List UInt8) : Option SparseFile :=
  if f.offset + d.length ≤ OFF_MAX then some (f.put d) else none

/-- `lseek` to an absolute offset, or `none` (the call gives -1). -/
def seekSet (f : SparseFile) (target : Int) : Option SparseFile :=
  if 0 ≤ target ∧ target ≤ OFF_MAX then some { f with offset := target.toNat } else none

/-- `lseek` with `SEEK_CUR`. -/
def seekCur (f : SparseFile) (n : Int) : Option SparseFile := f.seekSet (f.offset + n)

/-- `copy_file_range` from the start of `src` to the offset: the count it gives
back, and the destination after it. It copies no more than `src` has. It gives -1 when
64 bits do not hold the offset and the length together, or when the copy would pass the
largest offset. -/
def copyFrom (f src : SparseFile) (len : Nat) : Int × SparseFile :=
  if f.offset + len < 2 ^ 64 ∧ f.offset + (src.data.take len).length ≤ OFF_MAX then
    ((src.data.take len).length, f.put (src.data.take len))
  else (-1, f)

/-! ## The bytes up to a position -/

@[simp] theorem length_upTo (l : List UInt8) (n : Nat) : (upTo l n).length = n := by
  simp only [upTo, List.length_append, List.length_take, List.length_replicate]
  omega

theorem upTo_of_length_le {l : List UInt8} {n : Nat} (h : l.length ≤ n) :
    upTo l n = l ++ List.replicate (n - l.length) 0 := by
  rw [upTo, List.take_of_length_le h]

theorem upTo_of_le_length {l : List UInt8} {n : Nat} (h : n ≤ l.length) :
    upTo l n = l.take n := by
  simp [upTo, h]

@[simp] theorem upTo_length (l : List UInt8) : upTo l l.length = l := by
  simp [upTo]

theorem upTo_add {l : List UInt8} {n k : Nat} (h : l.length ≤ n) :
    upTo l (n + k) = upTo l n ++ List.replicate k 0 := by
  rw [upTo_of_length_le h, upTo_of_length_le (by omega), List.append_assoc,
    List.replicate_append_replicate, Nat.sub_add_comm h]

theorem upTo_append (a b : List UInt8) (n : Nat) : upTo (a ++ b) (a.length + n) = a ++ upTo b n := by
  unfold upTo
  rw [List.take_length_add_append, List.length_append, Nat.add_sub_add_left, List.append_assoc]

theorem take_upTo {l : List UInt8} {k n : Nat} (h : k ≤ n) : (upTo l n).take k = upTo l k := by
  unfold upTo
  rw [List.take_append, List.take_take, Nat.min_eq_left h, List.take_replicate, List.length_take]
  congr 2
  omega

/-- The bytes from `start` on. -/
def range (f : SparseFile) (start len : Nat) : List UInt8 := (f.data.drop start).take len

@[simp] theorem length_before (f : SparseFile) : f.before.length = f.offset := by
  simp [before]

@[simp] theorem before_empty : empty.before = [] := rfl

/-! ## The calls that change a file -/

@[simp] theorem put_nil (f : SparseFile) : f.put [] = f := rfl

@[simp] theorem put_offset (f : SparseFile) (d : List UInt8) :
    (f.put d).offset = f.offset + d.length := by
  unfold put
  split <;> simp_all

/-- A write puts its bytes after all that lay before the offset. -/
@[simp] theorem before_put (f : SparseFile) (d : List UInt8) :
    (f.put d).before = f.before ++ d := by
  by_cases hd : d = []
  · simp [hd]
  · have hl : (f.before ++ d).length = f.offset + d.length := by simp
    have hput : f.put d = ⟨f.before ++ d ++ f.data.drop (f.offset + d.length),
        f.offset + d.length⟩ := if_neg hd
    rw [hput, before, upTo_of_le_length (by simp), List.take_left' hl]

/-- Two writes are one. -/
theorem put_put (f : SparseFile) (a b : List UInt8) : (f.put a).put b = f.put (a ++ b) := by
  by_cases ha : a = []
  · simp [ha]
  · by_cases hb : b = []
    · simp [hb]
    · have hl : (f.before ++ a).length = f.offset + a.length := by simp
      have hab : a ++ b ≠ [] := by simp [ha]
      have hbefore := before_put f a
      have hdrop : (f.before ++ a ++ f.data.drop (f.offset + a.length)).drop
          (f.offset + a.length + b.length) = f.data.drop (f.offset + (a ++ b).length) := by
        rw [List.drop_append, List.drop_eq_nil_of_le (by rw [hl]; omega), List.nil_append,
          List.drop_drop, hl, List.length_append]
        congr 1
        omega
      have hput : f.put a = ⟨f.before ++ a ++ f.data.drop (f.offset + a.length),
          f.offset + a.length⟩ := if_neg ha
      rw [put, if_neg hb, hbefore, put_offset, hput]
      simp only
      rw [hdrop, put, if_neg hab]
      simp [Nat.add_assoc]

/-- Bytes that lead to the same file are as many. -/
theorem put_length_inj {f : SparseFile} {a b : List UInt8} (h : f.put a = f.put b) :
    a.length = b.length := by
  have hoff := congrArg SparseFile.offset h
  rw [put_offset, put_offset] at hoff
  omega

/-- A copy of bytes that the source has. -/
theorem copyFrom_of_le {f src : SparseFile} {n : Nat} (hroom : f.offset + n ≤ OFF_MAX)
    (hn : n ≤ src.data.length) : f.copyFrom src n = ((n : Int), f.put (src.data.take n)) := by
  have hlen : (src.data.take n).length = n := List.length_take_of_le hn
  have hfit : f.offset + n < 2 ^ 64 := Nat.lt_of_le_of_lt hroom (by decide)
  unfold copyFrom
  rw [hlen, if_pos ⟨hfit, hroom⟩]

/-- The end of the file is not past the offset. A file that was only written
and moved forward stays so. -/
def AtEnd (f : SparseFile) : Prop := f.data.length ≤ f.offset

theorem atEnd_empty : empty.AtEnd := Nat.le_refl 0

theorem AtEnd.put {f : SparseFile} (h : f.AtEnd) (d : List UInt8) : (f.put d).AtEnd := by
  unfold AtEnd at *
  unfold SparseFile.put
  split
  · exact h
  · simp only [List.length_append, length_before, List.length_drop]
    omega

/-- At the end of the file, a write appends to what lies before the offset. -/
theorem put_data_of_atEnd {f : SparseFile} (h : f.AtEnd) {d : List UInt8} (hd : d ≠ []) :
    (f.put d).data = f.before ++ d := by
  have hdrop : f.data.drop (f.offset + d.length) = [] :=
    List.drop_eq_nil_of_le (by unfold AtEnd at h; omega)
  simp [put, hd, hdrop]

theorem write_eq_some {f g : SparseFile} {d : List UInt8} :
    f.write d = some g ↔ f.offset + d.length ≤ OFF_MAX ∧ g = f.put d := by
  unfold write
  by_cases h : f.offset + d.length ≤ OFF_MAX <;> simp [h, eq_comm]

theorem seekCur_eq_some {f g : SparseFile} {n : Int} :
    f.seekCur n = some g ↔
      0 ≤ (f.offset + n : Int) ∧ (f.offset + n : Int) ≤ OFF_MAX ∧
        g = { f with offset := ((f.offset + n : Int)).toNat } := by
  unfold seekCur seekSet
  by_cases h : 0 ≤ (f.offset + n : Int) ∧ (f.offset + n : Int) ≤ OFF_MAX
  · simp [h, eq_comm]
  · simp only [h, if_false, reduceCtorEq, false_iff]
    exact fun hc => h ⟨hc.1, hc.2.1⟩

theorem AtEnd.skip {f : SparseFile} (h : f.AtEnd) (n : Nat) :
    ({ f with offset := f.offset + n } : SparseFile).AtEnd := by
  unfold AtEnd at *
  simp only
  omega

/-- A move forward from the end of the file adds zeros. -/
theorem before_skip {f : SparseFile} (h : f.AtEnd) (n : Nat) :
    ({ f with offset := f.offset + n } : SparseFile).before = f.before ++ List.replicate n 0 :=
  upTo_add h

end SparseFile
