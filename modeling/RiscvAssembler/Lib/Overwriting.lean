-- Writes over a file that held other bytes. Two files get the same calls, one of
-- them empty at first: where nothing is written the other keeps what it had.
import Mathlib.Order.Lattice
import Mathlib.Order.MinMax
import RiscvAssembler.Lib.SparseFile

namespace SparseFile

/-! ## Single bytes -/

/-- The byte at a position, where all that lies past the end reads as zero. -/
def byteAt (f : SparseFile) (i : Nat) : UInt8 := f.data.getD i 0

theorem getD_upTo {l : List UInt8} {n i : Nat} (h : i < n) : (upTo l n).getD i 0 = l.getD i 0 := by
  unfold upTo
  by_cases hl : i < l.length
  · simp [List.getElem?_append, h, hl]
  · have hnone : l[i]? = none := List.getElem?_eq_none (Nat.le_of_not_lt hl)
    have htake : ¬ i < min n l.length := by omega
    simp only [List.getD_eq_getElem?_getD, List.getElem?_append, List.length_take,
      List.getElem?_replicate, hnone, if_neg htake]
    split <;> rfl

theorem length_put (f : SparseFile) {d : List UInt8} (hd : d ≠ []) :
    (f.put d).data.length = max f.data.length (f.offset + d.length) := by
  unfold put
  rw [if_neg hd]
  simp only [List.length_append, length_before, List.length_drop]
  omega

theorem byteAt_put (f : SparseFile) (d : List UInt8) (i : Nat) :
    (f.put d).byteAt i =
      if f.offset ≤ i ∧ i < f.offset + d.length then d.getD (i - f.offset) 0 else f.byteAt i := by
  by_cases hd : d = []
  · rw [hd, put_nil, if_neg (by simp)]
  · unfold byteAt put
    simp only [if_neg hd, List.append_assoc]
    simp only [List.getD_eq_getElem?_getD, List.getElem?_append, length_before, List.getElem?_drop]
    by_cases hlow : i < f.offset
    · have hbefore := getD_upTo (l := f.data) hlow
      rw [if_pos hlow, if_neg (by omega)]
      rwa [List.getD_eq_getElem?_getD, List.getD_eq_getElem?_getD] at hbefore
    · by_cases hin : i < f.offset + d.length
      · rw [if_neg hlow, if_pos (by omega), if_pos (by omega)]
      · have hidx : f.offset + d.length + (i - f.offset - d.length) = i := by omega
        rw [if_neg hlow, if_neg (by omega), if_neg (by omega), hidx]

/-! ## Two files -/

/-- The file `g` got the calls of `f`, and held `old` at first where `f` was
empty. `written` are the positions that got a byte. -/
structure Over (old : List UInt8) (written : Nat → Prop) (f g : SparseFile) : Prop where
  offset_eq : g.offset = f.offset
  length_eq : g.data.length = max old.length f.data.length
  same : ∀ i, written i → g.byteAt i = f.byteAt i
  kept : ∀ i, ¬ written i → f.byteAt i = 0 ∧ g.byteAt i = old.getD i 0

variable {old : List UInt8} {written : Nat → Prop} {f g : SparseFile}

theorem Over.start (old : List UInt8) : Over old (fun _ => False) .empty ⟨old, 0⟩ := by
  apply Over.mk
  · rfl
  · simp [empty]
  · simp
  · simp [empty, byteAt]

theorem Over.congr (h : Over old written f g) {written' : Nat → Prop}
    (hw : ∀ i, written i ↔ written' i) : Over old written' f g :=
  ⟨h.offset_eq, h.length_eq, fun i hi => h.same i ((hw i).mpr hi),
    fun i hi => h.kept i fun hc => hi ((hw i).mp hc)⟩

/-- A seek leaves the bytes alone. -/
theorem Over.move (h : Over old written f g) (n : Nat) :
    Over old written { f with offset := n } { g with offset := n } :=
  ⟨rfl, h.length_eq, h.same, h.kept⟩

theorem Over.put (h : Over old written f g) (d : List UInt8) :
    Over old (fun i => written i ∨ f.offset ≤ i ∧ i < f.offset + d.length) (f.put d) (g.put d) := by
  have hlen := h.length_eq
  apply Over.mk
  · rw [put_offset, put_offset, h.offset_eq]
  · by_cases hd : d = []
    · rw [hd, put_nil, put_nil, hlen]
    · rw [length_put g hd, length_put f hd, hlen, h.offset_eq, Nat.max_assoc]
  · intro i hi
    rw [byteAt_put, byteAt_put, h.offset_eq]
    split
    · rfl
    · rename_i hout
      exact h.same i (hi.resolve_right hout)
  · intro i hi
    rw [not_or] at hi
    rw [byteAt_put, byteAt_put, h.offset_eq, if_neg hi.2, if_neg hi.2]
    exact h.kept i hi.1

theorem data_eq_iff {f g : SparseFile} :
    g.data = f.data ↔ g.data.length = f.data.length ∧ ∀ i, g.byteAt i = f.byteAt i := by
  constructor
  · intro h
    unfold byteAt
    simp [h]
  · rintro ⟨hlen, hbytes⟩
    apply List.ext_getElem hlen
    intro i hg hf
    have hi := hbytes i
    unfold byteAt at hi
    simpa [hg, hf] using hi

/-- What the file held first is gone if it is not longer and zero wherever
nothing was written. -/
theorem Over.data_eq_iff (h : Over old written f g) :
    g.data = f.data ↔ old.length ≤ f.data.length ∧ ∀ i, ¬ written i → old.getD i 0 = 0 := by
  rw [SparseFile.data_eq_iff, h.length_eq, max_eq_right_iff]
  constructor
  · rintro ⟨hlen, hbytes⟩
    refine ⟨hlen, fun i hi => ?_⟩
    obtain ⟨hzero, hold⟩ := h.kept i hi
    rw [← hold, hbytes i, hzero]
  · rintro ⟨hlen, hzeros⟩
    refine ⟨hlen, fun i => ?_⟩
    by_cases hi : written i
    · exact h.same i hi
    · obtain ⟨hzero, hold⟩ := h.kept i hi
      rw [hold, hzero, hzeros i hi]

/-- Two files as long as each other with the same bytes from `n` on. -/
structure AgreeFrom (n : Nat) (f g : SparseFile) : Prop where
  offset_eq : g.offset = f.offset
  length_eq : g.data.length = f.data.length
  same : ∀ i, n ≤ i → g.byteAt i = f.byteAt i

theorem length_put_congr {d d' : List UInt8} (hlen : d'.length = d.length)
    (hoff : g.offset = f.offset) (hdata : g.data.length = f.data.length) :
    (g.put d').data.length = (f.put d).data.length := by
  by_cases hd : d = []
  · have hd' : d' = [] := List.length_eq_zero_iff.mp (by rw [hlen, hd]; rfl)
    rw [hd, hd', put_nil, put_nil, hdata]
  · have hd' : d' ≠ [] := fun hc => hd (List.length_eq_zero_iff.mp (by rw [← hlen, hc]; rfl))
    rw [length_put g hd', length_put f hd, hlen, hoff, hdata]

/-- What was put first can differ. -/
theorem AgreeFrom.start (f : SparseFile) {d d' : List UInt8} (hlen : d'.length = d.length) :
    AgreeFrom (f.offset + d.length) (f.put d) (f.put d') := by
  apply AgreeFrom.mk
  · rw [put_offset, put_offset, hlen]
  · exact length_put_congr hlen rfl rfl
  · intro i hi
    rw [byteAt_put, byteAt_put, hlen, if_neg (by omega), if_neg (by omega)]

theorem AgreeFrom.put {n : Nat} (h : AgreeFrom n f g) (d : List UInt8) :
    AgreeFrom n (f.put d) (g.put d) := by
  apply AgreeFrom.mk
  · rw [put_offset, put_offset, h.offset_eq]
  · exact length_put_congr rfl h.offset_eq h.length_eq
  · intro i hi
    rw [byteAt_put, byteAt_put, h.offset_eq, h.same i hi]

theorem AgreeFrom.move {n : Nat} (h : AgreeFrom n f g) (off : Nat) :
    AgreeFrom n { f with offset := off } { g with offset := off } :=
  ⟨rfl, h.length_eq, h.same⟩

end SparseFile
