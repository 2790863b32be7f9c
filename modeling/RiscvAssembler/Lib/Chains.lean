-- Chains of numbers in increasing order, each of which knows the one after it: what
-- comes next when a number is put into the chain or taken out of it.
import Mathlib.Data.Finset.Max
import Mathlib.Tactic.Common

namespace chains

/-- After `d` comes `x`: the next number of the chain, or the limit at its end. -/
structure IsNext (limit : Nat) (s : Finset Nat) (d x : Nat) : Prop where
  lt : d < x
  mem : x ∈ s ∨ x = limit
  le : ∀ y ∈ s, d < y → x ≤ y

variable {limit d x p n e : Nat} {s : Finset Nat}

theorem IsNext.mem_of_lt (h : IsNext limit s d x) (hx : x < limit) : x ∈ s :=
  h.mem.resolve_right (Nat.ne_of_lt hx)

/-- Two numbers with the same one after them are one number. -/
theorem IsNext.inj {d' : Nat} (hd : d ∈ s) (hd' : d' ∈ s) (h : IsNext limit s d x)
    (h' : IsNext limit s d' x) : d = d' := by
  rcases Nat.lt_trichotomy d d' with hlt | heq | hgt
  · exact absurd (h.le d' hd' hlt) (Nat.not_le.mpr h'.lt)
  · exact heq
  · exact absurd (h'.le d hd hgt) (Nat.not_le.mpr h.lt)

/-! ## A number is put in -/

theorem IsNext.insert_before (h : IsNext limit s p n) (hp : p < e) (hn : e < n) :
    IsNext limit (insert e s) p e := by
  refine ⟨hp, Or.inl (Finset.mem_insert_self e s), fun y hy hlt => ?_⟩
  rcases Finset.mem_insert.mp hy with rfl | hy
  · exact Nat.le_refl _
  · exact Nat.le_trans (Nat.le_of_lt hn) (h.le y hy hlt)

theorem IsNext.insert_after (h : IsNext limit s p n) (hp : p < e) (hn : e < n) :
    IsNext limit (insert e s) e n := by
  refine ⟨hn, h.mem.imp_left (Finset.mem_insert_of_mem ·), fun y hy hlt => ?_⟩
  rcases Finset.mem_insert.mp hy with rfl | hy
  · exact absurd hlt (Nat.lt_irrefl _)
  · exact h.le y hy (Nat.lt_trans hp hlt)

theorem IsNext.insert_other (h : IsNext limit s p n) (hn : e < n) (hd : d ∈ s)
    (hne : d ≠ p) (hps : p ∈ s) (hp : p < e) (hx : IsNext limit s d x) :
    IsNext limit (insert e s) d x := by
  refine ⟨hx.lt, hx.mem.imp_left (Finset.mem_insert_of_mem ·), fun y hy hlt => ?_⟩
  rcases Finset.mem_insert.mp hy with rfl | hy
  · -- between `p` and the new number there is none, so `d` is before `p`
    have hdp : d < p := by
      by_contra hno
      exact absurd (h.le d hd (by omega)) (by omega)
    exact Nat.le_trans (hx.le p hps hdp) (Nat.le_of_lt hp)
  · exact hx.le y hy hlt

/-! ## A number is taken out -/

theorem IsNext.erase_before (hp : IsNext limit s p e) (he : IsNext limit s e n) :
    IsNext limit (s.erase e) p n := by
  refine ⟨Nat.lt_trans hp.lt he.lt, ?_, fun y hy hlt => ?_⟩
  · exact he.mem.imp_left fun hn => Finset.mem_erase.mpr ⟨Nat.ne_of_gt he.lt, hn⟩
  · obtain ⟨hne, hy⟩ := Finset.mem_erase.mp hy
    exact he.le y hy (Nat.lt_of_le_of_ne (hp.le y hy hlt) (Ne.symm hne))

theorem IsNext.erase_other (hps : p ∈ s) (hd : d ∈ s) (hp : IsNext limit s p e) (hne : d ≠ p)
    (hx : IsNext limit s d x) : IsNext limit (s.erase e) d x := by
  have hxe : x ≠ e := by
    rintro rfl
    exact hne (hx.inj hd hps hp)
  refine ⟨hx.lt, hx.mem.imp_left fun h => Finset.mem_erase.mpr ⟨hxe, h⟩, fun y hy hlt => ?_⟩
  exact hx.le y (Finset.mem_of_mem_erase hy) hlt

end chains
