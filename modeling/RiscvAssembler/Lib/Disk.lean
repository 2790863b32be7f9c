-- Named files. A name leads to the number of a file, so that two names can lead
-- to one file, and a number above all others is left for the next new file.
import Mathlib.Logic.Function.Basic
import Mathlib.Tactic.Common

structure Disk (N : Type) where
  node : N → Option Nat
  data : Nat → List UInt8
  next : Nat
  node_lt : ∀ {name n}, node name = some n → n < next

namespace Disk

variable {N : Type}

/-- A disk without files. -/
def empty : Disk N := ⟨fun _ => none, fun _ => [], 0, by simp⟩

/-- The bytes of the file that a name leads to. -/
def read (d : Disk N) (name : N) : Option (List UInt8) := (d.node name).map d.data

/-- The file gets new bytes. -/
def store (d : Disk N) (n : Nat) (bytes : List UInt8) : Disk N :=
  { d with data := Function.update d.data n bytes }

section

variable [DecidableEq N]

/-- `open` with `O_CREAT`: the file of the name, made empty if there is none. -/
def create (d : Disk N) (name : N) : Nat × Disk N :=
  match h : d.node name with
  | some n => (n, d)
  | none => (d.next, {
      node := Function.update d.node name (some d.next)
      data := Function.update d.data d.next []
      next := d.next + 1
      node_lt := by
        intro name' n hn
        by_cases heq : name' = name
        · subst heq
          rw [Function.update_self] at hn
          cases hn
          exact Nat.lt_succ_self _
        · rw [Function.update_of_ne heq] at hn
          exact Nat.lt_succ_of_lt (d.node_lt hn) })

/-- A disk with one more file. -/
def add (d : Disk N) (name : N) (bytes : List UInt8) : Disk N :=
  (d.create name).2.store (d.create name).1 bytes

end

/-! ## Laws -/

@[simp] theorem store_node (d : Disk N) (n : Nat) (bytes : List UInt8) :
    (d.store n bytes).node = d.node := rfl

theorem read_of_node {d : Disk N} {name : N} {n : Nat} (h : d.node name = some n) :
    d.read name = some (d.data n) := by
  simp [read, h]

theorem read_store (d : Disk N) (n : Nat) (bytes : List UInt8) (name : N) :
    (d.store n bytes).read name = if d.node name = some n then some bytes else d.read name := by
  unfold read store
  rcases hn : d.node name with _ | m
  · simp
  · by_cases hm : m = n
    · simp [hm]
    · simp [hm]

variable [DecidableEq N]

theorem create_of_node {d : Disk N} {name : N} {n : Nat} (h : d.node name = some n) :
    d.create name = (n, d) := by
  unfold create
  split <;> simp_all

theorem create_missing {d : Disk N} {name : N} (h : d.node name = none) :
    (d.create name).1 = d.next ∧ (d.create name).2.node = Function.update d.node name (some d.next) ∧
      (d.create name).2.data = Function.update d.data d.next [] := by
  unfold create
  split <;> simp_all

/-- The name leads to the file that was opened. -/
theorem create_node (d : Disk N) (name : N) :
    (d.create name).2.node name = some (d.create name).1 := by
  rcases hn : d.node name with _ | n
  · obtain ⟨hfst, hnode, _⟩ := create_missing hn
    rw [hfst, hnode, Function.update_self]
  · rw [create_of_node hn]
    exact hn

/-- Other names lead where they led. -/
theorem create_node_of_ne (d : Disk N) {name other : N} (h : other ≠ name) :
    (d.create name).2.node other = d.node other := by
  rcases hn : d.node name with _ | n
  · obtain ⟨_, hnode, _⟩ := create_missing hn
    rw [hnode, Function.update_of_ne h]
  · rw [create_of_node hn]

/-- What a name led to stays as it is. -/
theorem create_read {d : Disk N} {other : N} {bytes : List UInt8} (h : d.read other = some bytes)
    (name : N) : (d.create name).2.read other = some bytes := by
  rcases hn : d.node name with _ | n
  · obtain ⟨_, hnode, hdata⟩ := create_missing hn
    obtain ⟨m, hm, hbytes⟩ := Option.map_eq_some_iff.mp h
    have hne : other ≠ name := by
      rintro rfl
      rw [hn] at hm
      cases hm
    have hold : m ≠ d.next := Nat.ne_of_lt (d.node_lt hm)
    unfold read
    rw [hnode, Function.update_of_ne hne, hm, hdata]
    simp [hold, hbytes]
  · rwa [create_of_node hn]

theorem create_read_of_ne (d : Disk N) {name other : N} (h : other ≠ name) :
    (d.create name).2.read other = d.read other := by
  rcases hr : d.read other with _ | bytes
  · have hnone : d.node other = none := Option.map_eq_none_iff.mp hr
    unfold read
    rw [create_node_of_ne d h, hnone]
    rfl
  · exact create_read hr name

/-- The bytes of the file that was opened: those it had, or none. -/
theorem create_data (d : Disk N) (name : N) :
    (d.create name).2.data (d.create name).1 = (d.read name).getD [] := by
  rcases hn : d.node name with _ | n
  · obtain ⟨hfst, _, hdata⟩ := create_missing hn
    rw [hfst, hdata, Function.update_self]
    simp [read, hn]
  · rw [create_of_node hn, read_of_node hn]
    rfl

end Disk
