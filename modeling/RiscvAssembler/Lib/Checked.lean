-- Runs of C code that either end in a value or stop at a fault, with the
-- rules for what holds of the values and which faults can stop a run.
import Mathlib.Algebra.Ring.Nat
import Mathlib.Tactic.Common

namespace checked

/-- What can stop a C run before it returns. The last four are undefined
behaviour: the model stops where the C standard says nothing more. -/
inductive Fault
  /-- A call that prints the message and exits. -/
  | panic (msg : String)
  /-- An `assert` that does not hold. -/
  | assertion
  /-- A read or a write outside its object. -/
  | outOfBounds
  /-- A read of a value that was never set. -/
  | indeterminate
  /-- A shift by the width of its operand or more. -/
  | shiftAmount
  /-- A sum of two `int`s that no `int` holds. -/
  | overflow
  deriving DecidableEq, Repr

abbrev Result (α : Type) := Except Fault α

variable {α β σ : Type}

/-- The value of a call that can fail, or a panic when it failed. -/
def orPanic (msg : String) : Option α → Result α
  | none => .error (.panic msg)
  | some a => .ok a

@[simp] theorem orPanic_some (msg : String) (a : α) : orPanic msg (some a) = .ok a := rfl

@[simp] theorem orPanic_none (msg : String) :
    orPanic msg (none : Option α) = .error (.panic msg) := rfl

/-! ## Binds -/

@[simp] theorem ok_bind (a : α) (f : α → Result β) : ((.ok a : Result α) >>= f) = f a := rfl

@[simp] theorem error_bind (e : Fault) (f : α → Result β) :
    ((.error e : Result α) >>= f) = .error e := rfl

@[simp] theorem pure_eq_ok (a : α) : (pure a : Result α) = .ok a := rfl

@[simp] theorem throw_eq_error (e : Fault) : (throw e : Result α) = .error e := rfl

theorem bind_eq_ok {x : Result α} {f : α → Result β} {b : β} :
    (x >>= f) = .ok b ↔ ∃ a, x = .ok a ∧ f a = .ok b := by
  cases x <;> simp

theorem bind_eq_error {x : Result α} {f : α → Result β} {e : Fault} :
    (x >>= f) = .error e ↔ x = .error e ∨ ∃ a, x = .ok a ∧ f a = .error e := by
  cases x <;> simp

/-- A run that returns, known by what `f` reads of its value. -/
theorem ok_of_map {x : Result α} {f : α → β} {b : β} (h : (x.map f).toOption = some b) :
    ∃ a, x = .ok a ∧ f a = b := by
  cases x with
  | error e => cases h
  | ok a => exact ⟨a, rfl, Option.some.inj h⟩

theorem ok_of_toBool {x : Result α} (h : x.toBool = true) : ∃ a, x = .ok a := by
  cases x with
  | error e => cases h
  | ok a => exact ⟨a, rfl⟩

/-! ## Integers -/

/-- The smallest and the largest `int` of 32 bits. -/
def INT_MIN : Int := -2147483648

def INT_MAX : Int := 2147483647

/-- The sum of two `int`s. -/
def addInt (a b : Int) : Result Int :=
  if INT_MIN ≤ a + b ∧ a + b ≤ INT_MAX then .ok (a + b) else .error .overflow

theorem addInt_eq_ok {a b c : Int} :
    addInt a b = .ok c ↔ c = a + b ∧ INT_MIN ≤ c ∧ c ≤ INT_MAX := by
  unfold addInt
  by_cases h : INT_MIN ≤ a + b ∧ a + b ≤ INT_MAX
  · rw [if_pos h]
    constructor
    · rintro ⟨⟩
      exact ⟨rfl, h⟩
    · rintro ⟨rfl, _⟩
      rfl
  · rw [if_neg h]
    constructor
    · rintro ⟨⟩
    · rintro ⟨rfl, hc⟩
      exact absurd hc h

/-! ## Arrays -/

/-- `l[i]` for an index that can be any number. -/
def load (l : List α) (i : Int) : Result α :=
  if 0 ≤ i then
    match l[i.toNat]? with
    | some a => .ok a
    | none => .error .outOfBounds
  else .error .outOfBounds

/-- `l[i] = a`. -/
def store (l : List α) (i : Int) (a : α) : Result (List α) :=
  if 0 ≤ i ∧ i.toNat < l.length then .ok (l.set i.toNat a) else .error .outOfBounds

theorem load_eq_ok {l : List α} {k : Nat} {a : α} (h : l[k]? = some a) : load l k = .ok a := by
  simp [load, h]

theorem mem_of_load {l : List α} {i : Int} {a : α} (h : load l i = .ok a) : a ∈ l := by
  unfold load at h
  split at h
  · split at h
    · rename_i hat
      cases h
      exact List.mem_of_getElem? hat
    · cases h
  · cases h

theorem store_eq_ok {l : List α} {k : Nat} (h : k < l.length) (a : α) :
    store l k a = .ok (l.set k a) := by
  simp [store, h]

/-- What holds of all bytes of a list is decided along the list, and not over all
256 bytes. -/
instance (priority := high) decidableForallBytes (l : List UInt8) (p : UInt8 → Prop)
    [DecidablePred p] : Decidable (∀ c ∈ l, p c) := l.decidableBAll p

/-! ## What a run meets -/

/-- Every value of the run is in `Q`, and every fault that can stop it is in
`E`. -/
def Meets (x : Result α) (Q : α → Prop) (E : Fault → Prop) : Prop :=
  match x with
  | .ok a => Q a
  | .error e => E e

@[simp] theorem meets_ok (a : α) (Q : α → Prop) (E : Fault → Prop) :
    Meets (.ok a) Q E ↔ Q a := Iff.rfl

@[simp] theorem meets_error (e : Fault) (Q : α → Prop) (E : Fault → Prop) :
    Meets (.error e) Q E ↔ E e := Iff.rfl

theorem Meets.mono {x : Result α} {Q Q' : α → Prop} {E E' : Fault → Prop} (h : Meets x Q E)
    (hq : ∀ a, Q a → Q' a) (he : ∀ e, E e → E' e) : Meets x Q' E' := by
  cases x with
  | ok a => exact hq a h
  | error e => exact he e h

theorem Meets.bind {x : Result α} {f : α → Result β} {Q : α → Prop} {R : β → Prop}
    {E : Fault → Prop} (hx : Meets x Q E) (hf : ∀ a, Q a → Meets (f a) R E) :
    Meets (x >>= f) R E := by
  cases x with
  | ok a => exact hf a hx
  | error e => exact hx

theorem Meets.of_ok {x : Result α} {Q : α → Prop} {E : Fault → Prop} {a : α}
    (h : Meets x Q E) (hx : x = .ok a) : Q a := by
  subst hx; exact h

/-! ## Two runs side by side -/

/-- The two results are both faults, or values in the relation. -/
def Agree (R : α → β → Prop) (x : Result α) (y : Result β) : Prop :=
  (∀ a, x = .ok a → ∃ b, y = .ok b ∧ R a b) ∧ ∀ b, y = .ok b → ∃ a, x = .ok a ∧ R a b

theorem Agree.bind {γ δ : Type} {R : α → β → Prop} {Q : γ → δ → Prop} {x : Result α}
    {y : Result β} {f : α → Result γ} {g : β → Result δ} (h : Agree R x y)
    (hf : ∀ a b, x = .ok a → R a b → Agree Q (f a) (g b)) : Agree Q (x >>= f) (y >>= g) := by
  constructor
  · intro c hc
    obtain ⟨a, ha, hc⟩ := bind_eq_ok.mp hc
    obtain ⟨b, hb, hr⟩ := h.1 a ha
    obtain ⟨d, hd, hq⟩ := (hf a b ha hr).1 c hc
    exact ⟨d, bind_eq_ok.mpr ⟨b, hb, hd⟩, hq⟩
  · intro d hd
    obtain ⟨b, hb, hd⟩ := bind_eq_ok.mp hd
    obtain ⟨a, ha, hr⟩ := h.2 b hb
    obtain ⟨c, hc, hq⟩ := (hf a b ha hr).2 d hd
    exact ⟨c, bind_eq_ok.mpr ⟨a, ha, hc⟩, hq⟩

theorem Agree.ok {R : α → β → Prop} {a : α} {b : β} (h : R a b) :
    Agree R (.ok a) (.ok b) :=
  ⟨fun _ ha => ⟨b, rfl, Except.ok.inj ha ▸ h⟩, fun _ hb => ⟨a, rfl, Except.ok.inj hb ▸ h⟩⟩

theorem Agree.same (x : Result α) : Agree Eq x x :=
  ⟨fun a ha => ⟨a, ha, rfl⟩, fun a ha => ⟨a, ha, rfl⟩⟩

theorem Agree.map_right {γ : Type} {R : α → γ → Prop} {x : Result α} {y : Result β} {g : β → γ}
    (h : Agree (fun a b => R a (g b)) x y) : Agree R x (y >>= fun b => .ok (g b)) := by
  constructor
  · intro a ha
    obtain ⟨b, hb, hr⟩ := h.1 a ha
    exact ⟨g b, bind_eq_ok.mpr ⟨b, hb, rfl⟩, hr⟩
  · intro c hc
    obtain ⟨b, hb, hc⟩ := bind_eq_ok.mp hc
    cases hc
    exact h.2 b hb

/-! ## Runs over a list of steps -/

/-- The states that a list of steps leads to, one step after the other. -/
def runAll (step : σ → α → Result σ) (s : σ) : List α → Result σ
  | [] => .ok s
  | a :: as => do
    let s ← step s a
    runAll step s as

@[simp] theorem runAll_nil (step : σ → α → Result σ) (s : σ) : runAll step s [] = .ok s := rfl

@[simp] theorem runAll_cons (step : σ → α → Result σ) (s : σ) (a : α) (as : List α) :
    runAll step s (a :: as) = step s a >>= fun s => runAll step s as := rfl

/-- The first of the steps that a list stands for, and what follows the run. -/
theorem runAll_map_cons_bind {γ : Type} (step : σ → α → Result σ) (s : σ) (g : β → α) (b : β)
    (bs : List β) (f : σ → Result γ) :
    (runAll step s ((b :: bs).map g) >>= f) = (do
      let s ← step s (g b)
      runAll step s (bs.map g) >>= f) := by
  rw [List.map_cons, runAll_cons, bind_assoc]

theorem runAll_append (step : σ → α → Result σ) (s : σ) (as bs : List α) :
    runAll step s (as ++ bs) = runAll step s as >>= fun s => runAll step s bs := by
  induction as generalizing s with
  | nil => rfl
  | cons a as ih =>
    simp only [List.cons_append, runAll_cons]
    cases step s a with
    | error e => rfl
    | ok s' => simpa using ih s'

/-- The run rule: an invariant that may spend a budget. Each step needs its
price left in the budget and keeps the invariant for the rest of it. -/
theorem runAll_meets {step : σ → α → Result σ} {p : α → Nat} {I : Nat → σ → Prop}
    {E : Fault → Prop} (as : List α)
    (hstep : ∀ a ∈ as, ∀ n s, I (p a + n) s → Meets (step s a) (I n) E)
    (n : Nat) (s : σ) (h : I ((as.map p).sum + n) s) :
    Meets (runAll step s as) (I n) E := by
  induction as generalizing s with
  | nil => simpa using h
  | cons a as ih =>
    simp only [List.map_cons, List.sum_cons, Nat.add_assoc] at h
    refine (hstep a List.mem_cons_self _ s h).bind fun s' hs' => ?_
    exact ih (fun b hb => hstep b (List.mem_cons_of_mem a hb)) s' hs'

/-- The run rule without a budget. -/
theorem runAll_keeps {step : σ → α → Result σ} {Inv : σ → Prop} {E : Fault → Prop} (as : List α)
    (hstep : ∀ a ∈ as, ∀ s, Inv s → Meets (step s a) Inv E) (s : σ) (h : Inv s) :
    Meets (runAll step s as) Inv E :=
  runAll_meets (p := fun _ => 0) (I := fun _ => Inv) as
    (fun a ha _ s hs => hstep a ha s hs) 0 s h

/-- The run rule for an invariant of the values alone. -/
theorem runAll_inv {step : σ → α → Result σ} {I : σ → Prop}
    (hstep : ∀ s a s', I s → step s a = .ok s' → I s')
    (as : List α) (s s' : σ) (h : I s) (hrun : runAll step s as = .ok s') : I s' := by
  induction as generalizing s with
  | nil => cases hrun; exact h
  | cons a as ih =>
    obtain ⟨s1, h1, h2⟩ := bind_eq_ok.mp hrun
    exact ih s1 (hstep s a s1 h h1) h2

end checked
