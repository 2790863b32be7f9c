-- Machines that stand side by side, with one of them chosen at a time. What one
-- machine does depends on its own steps alone, so runs with the same steps for
-- each machine end alike, however they are interleaved.
import Mathlib.Logic.Function.Basic
import RiscvAssembler.Lib.Checked

open checked

/-- A step of the chosen machine, or the choice of another one. -/
inductive Turn (ι α : Type)
  | choose (i : ι)
  | act (a : α)

structure Machines (ι σ : Type) where
  parts : ι → σ
  chosen : ι

namespace Machines

variable {ι α σ : Type} [DecidableEq ι] {f : σ → α → Result σ}

def setChosen (S : Machines ι σ) (x : σ) : Machines ι σ :=
  { S with parts := Function.update S.parts S.chosen x }

@[simp] theorem setChosen_chosen (S : Machines ι σ) (x : σ) : (S.setChosen x).chosen = S.chosen :=
  rfl

@[simp] theorem setChosen_same (S : Machines ι σ) (x : σ) : (S.setChosen x).parts S.chosen = x :=
  Function.update_self ..

theorem setChosen_other (S : Machines ι σ) (x : σ) {i : ι} (h : i ≠ S.chosen) :
    (S.setChosen x).parts i = S.parts i := Function.update_of_ne h ..

def turn (f : σ → α → Result σ) (S : Machines ι σ) : Turn ι α → Result (Machines ι σ)
  | .choose i => .ok { S with chosen := i }
  | .act a => do
    let x ← f (S.parts S.chosen) a
    .ok (S.setChosen x)

/-- The steps of machine `i`, when `chosen` is the one chosen at first. -/
def own (i : ι) : ι → List (Turn ι α) → List α
  | _, [] => []
  | _, .choose j :: ts => own i j ts
  | chosen, .act a :: ts => if chosen = i then a :: own i chosen ts else own i chosen ts

theorem own_act_same (i : ι) (a : α) (ts : List (Turn ι α)) :
    own i i (.act a :: ts) = a :: own i i ts := if_pos rfl

theorem own_act_other {i j : ι} (h : j ≠ i) (a : α) (ts : List (Turn ι α)) :
    own i j (.act a :: ts) = own i j ts := if_neg h

/-- Each machine goes where its own steps lead. -/
theorem run_own {S S' : Machines ι σ} {ts : List (Turn ι α)}
    (h : runAll (turn f) S ts = .ok S') (i : ι) :
    runAll f (S.parts i) (own i S.chosen ts) = .ok (S'.parts i) := by
  induction ts generalizing S with
  | nil =>
    cases h
    rfl
  | cons t ts ih =>
    obtain ⟨S1, h1, h2⟩ := bind_eq_ok.mp h
    have hrest := ih h2
    cases t with
    | choose j =>
      cases h1
      exact hrest
    | act a =>
      obtain ⟨x, hx, h1⟩ := bind_eq_ok.mp h1
      cases h1
      rw [setChosen_chosen] at hrest
      by_cases hi : S.chosen = i
      · subst hi
        rw [setChosen_same] at hrest
        rw [own_act_same, runAll_cons, hx, ok_bind, hrest]
      · rw [setChosen_other S x (Ne.symm hi)] at hrest
        rw [own_act_other hi, hrest]

/-- If the steps of each machine can be made, then so can the turns. -/
theorem run_of_own {S : Machines ι σ} {T : ι → σ} {ts : List (Turn ι α)}
    (h : ∀ i, runAll f (S.parts i) (own i S.chosen ts) = .ok (T i)) :
    ∃ j, runAll (turn f) S ts = .ok ⟨T, j⟩ := by
  induction ts generalizing S with
  | nil =>
    have hT : S.parts = T := funext fun i => Except.ok.inj (h i)
    exact ⟨S.chosen, by rw [← hT]; rfl⟩
  | cons t ts ih =>
    cases t with
    | choose j => exact ih (S := { S with chosen := j }) h
    | act a =>
      have hfirst := h S.chosen
      rw [own_act_same, runAll_cons] at hfirst
      obtain ⟨x, hx, hrest⟩ := bind_eq_ok.mp hfirst
      have hparts : ∀ i, runAll f ((S.setChosen x).parts i) (own i S.chosen ts) = .ok (T i) := by
        intro i
        by_cases hi : S.chosen = i
        · subst hi
          rw [setChosen_same]
          exact hrest
        · rw [setChosen_other S x (Ne.symm hi), ← own_act_other hi a]
          exact h i
      obtain ⟨j, hj⟩ := ih hparts
      refine ⟨j, ?_⟩
      rw [runAll_cons, turn, hx]
      exact hj

/-- Turns with the same steps for each machine lead each machine to the same
state. -/
theorem run_congr {S S' : Machines ι σ} {ts ts' : List (Turn ι α)}
    (hown : ∀ i, own i S.chosen ts = own i S.chosen ts') (h : runAll (turn f) S ts = .ok S') :
    ∃ j, runAll (turn f) S ts' = .ok ⟨S'.parts, j⟩ :=
  run_of_own fun i => by rw [← hown i, run_own h i]

end Machines
