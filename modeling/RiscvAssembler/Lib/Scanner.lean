-- Scanners: C functions that read a text through a cursor. A scanner that fails
-- leaves the cursor of its caller where it was, but what it did to the state
-- stays. To read past the end of the text is a fault.
import Mathlib.Data.List.TakeWhile
import RiscvAssembler.Lib.Checked

open checked

namespace scanner

/-- The result is a value with the text after it, or an error. -/
def Scan (σ ε α : Type) : Type := List UInt8 → σ → Result (Except ε (α × List UInt8) × σ)

variable {σ ε ε' α β : Type}

namespace Scan

protected def pure (a : α) : Scan σ ε α := fun text s => .ok (.ok (a, text), s)

/-- What comes after the result of a scanner. -/
def andThen (f : α → Scan σ ε β) (r : Except ε (α × List UInt8) × σ) :
    Result (Except ε (β × List UInt8) × σ) :=
  match r with
  | (.error e, s) => .ok (.error e, s)
  | (.ok (a, text), s) => f a text s

protected def bind (m : Scan σ ε α) (f : α → Scan σ ε β) : Scan σ ε β := fun text s =>
  m text s >>= andThen f

instance : Monad (Scan σ ε) where
  pure := Scan.pure
  bind := Scan.bind

end Scan

/-! ## The primitives -/

def fail (e : ε) : Scan σ ε α := fun _ s => .ok (.error e, s)

def halt (f : Fault) : Scan σ ε α := fun _ _ => .error f

/-- `s`, the cursor itself. -/
def cursor : Scan σ ε (List UInt8) := fun text s => .ok (.ok (text, text), s)

/-- `s = there`. -/
def seek (there : List UInt8) : Scan σ ε Unit := fun _ s => .ok (.ok ((), there), s)

/-- `*s`. -/
def peek : Scan σ ε UInt8
  | [], _ => .error .outOfBounds
  | c :: text, s => .ok (.ok (c, c :: text), s)

/-- `*s++`. -/
def next : Scan σ ε UInt8
  | [], _ => .error .outOfBounds
  | c :: text, s => .ok (.ok (c, text), s)

/-- Reads one byte, and moves past it only if it is `c`. -/
def accept (c : UInt8) : Scan σ ε Bool
  | [], _ => .error .outOfBounds
  | d :: text, s => .ok (.ok (if d = c then (true, text) else (false, d :: text)), s)

/-- The bytes that `p` holds of, up to the first one that it does not hold of. -/
def takeWhile (p : UInt8 → Bool) : Scan σ ε (List UInt8)
  | [], _ => .error .outOfBounds
  | c :: text, s =>
    if p c then
      (takeWhile p : Scan σ ε (List UInt8)) text s >>=
        Scan.andThen fun cs => (pure (c :: cs) : Scan σ ε (List UInt8))
    else .ok (.ok ([], c :: text), s)

/-- Moves past the bytes that `p` holds of. -/
def skipWhile (p : UInt8 → Bool) : Scan σ ε Unit
  | [], _ => .error .outOfBounds
  | c :: text, s => if p c then (skipWhile p : Scan σ ε Unit) text s else .ok (.ok ((), c :: text), s)

/-- Fails with `e` when `m` gives false. -/
def require (m : Scan σ ε Bool) (e : ε) : Scan σ ε Unit := do
  let b ← m
  if b then pure () else fail e

/-- Fails with `e` when `m` fails. -/
def orFail (m : Scan σ ε' α) (e : ε) : Scan σ ε α := fun text s =>
  m text s >>= fun
    | (.error _, s) => .ok (.error e, s)
    | (.ok a, s) => .ok (.ok a, s)

/-- A scanner with the number of bytes that it moved past. -/
def measured (m : Scan σ ε α) : Scan σ ε (α × Nat) := fun text s =>
  m text s >>= fun
    | (.error e, s) => .ok (.error e, s)
    | (.ok (a, rest), s) => .ok (.ok ((a, text.length - rest.length), rest), s)

/-- A call that changes the state and reads no text. -/
def call (f : σ → Result (α × σ)) : Scan σ ε α := fun text s => do
  let (a, s) ← f s
  .ok (.ok (a, text), s)

/-! ## Runs of the primitives -/

section Runs

variable {text : List UInt8} {s : σ}

theorem bind_run (m : Scan σ ε α) (f : α → Scan σ ε β) :
    (m >>= f) text s = m text s >>= Scan.andThen f := rfl

@[simp] theorem andThen_ok (f : α → Scan σ ε β) (a : α) (rest : List UInt8) (s' : σ) :
    Scan.andThen f (.ok (a, rest), s') = f a rest s' := rfl

@[simp] theorem andThen_error (f : α → Scan σ ε β) (e : ε) (s' : σ) :
    Scan.andThen f (.error e, s') = .ok (.error e, s') := rfl

/-- A scanner that gives a value, and then the rest. -/
theorem bind_run_ok {m : Scan σ ε α} {f : α → Scan σ ε β} {a : α} {rest : List UInt8} {s' : σ}
    (h : m text s = .ok (.ok (a, rest), s')) : (m >>= f) text s = f a rest s' := by
  rw [bind_run, h]
  rfl

theorem bind_run_error {m : Scan σ ε α} {f : α → Scan σ ε β} {e : ε} {s' : σ}
    (h : m text s = .ok (.error e, s')) : (m >>= f) text s = .ok (.error e, s') := by
  rw [bind_run, h]
  rfl

theorem bind_eq_ok_ok {m : Scan σ ε α} {f : α → Scan σ ε β} {b : β} {rest : List UInt8} {s' : σ} :
    (m >>= f) text s = .ok (.ok (b, rest), s') ↔
      ∃ a mid s1, m text s = .ok (.ok (a, mid), s1) ∧ f a mid s1 = .ok (.ok (b, rest), s') := by
  rw [bind_run]
  rcases m text s with e | ⟨_ | ⟨a, mid⟩, s1⟩ <;> simp [Scan.andThen]

@[simp] theorem fail_run (e : ε) : (fail e : Scan σ ε α) text s = .ok (.error e, s) := rfl

@[simp] theorem cursor_run : (cursor : Scan σ ε _) text s = .ok (.ok (text, text), s) := rfl

@[simp] theorem seek_run (there : List UInt8) :
    (seek there : Scan σ ε _) text s = .ok (.ok ((), there), s) := rfl

@[simp] theorem peek_cons (c : UInt8) :
    (peek : Scan σ ε _) (c :: text) s = .ok (.ok (c, c :: text), s) := rfl

@[simp] theorem next_cons (c : UInt8) :
    (next : Scan σ ε _) (c :: text) s = .ok (.ok (c, text), s) := rfl

/-- A bind that returns: its first part fails, or its second part returns. -/
theorem bind_eq_ok_cases {m : Scan σ ε α} {f : α → Scan σ ε β} {r : Except ε (β × List UInt8)}
    {s' : σ} (h : (m >>= f) text s = .ok (r, s')) :
    (∃ e, m text s = .ok (.error e, s') ∧ r = .error e) ∨
      ∃ a mid s1, m text s = .ok (.ok (a, mid), s1) ∧ f a mid s1 = .ok (r, s') := by
  rw [bind_run] at h
  rcases hr : m text s with e | ⟨_ | ⟨a, mid⟩, s1⟩ <;> rw [hr] at h
  · cases h
  · cases h
    exact Or.inl ⟨_, rfl, rfl⟩
  · exact Or.inr ⟨a, mid, s1, rfl, h⟩

theorem accept_same (c : UInt8) :
    (accept c : Scan σ ε _) (c :: text) s = .ok (.ok (true, text), s) := by
  simp [accept]

theorem accept_other {c d : UInt8} (h : d ≠ c) :
    (accept c : Scan σ ε _) (d :: text) s = .ok (.ok (false, d :: text), s) := by
  simp [accept, h]

theorem skipWhile_append {p : UInt8 → Bool} {cs : List UInt8} {c : UInt8}
    (hcs : ∀ x ∈ cs, p x = true) (hc : p c = false) :
    (skipWhile p : Scan σ ε _) (cs ++ c :: text) s = .ok (.ok ((), c :: text), s) := by
  induction cs with
  | nil => simp [skipWhile, hc]
  | cons x cs ih =>
    rw [List.cons_append, skipWhile, if_pos (hcs x List.mem_cons_self)]
    exact ih fun y hy => hcs y (List.mem_cons_of_mem x hy)

theorem takeWhile_append {p : UInt8 → Bool} {cs : List UInt8} {c : UInt8}
    (hcs : ∀ x ∈ cs, p x = true) (hc : p c = false) :
    (takeWhile p : Scan σ ε _) (cs ++ c :: text) s = .ok (.ok (cs, c :: text), s) := by
  induction cs with
  | nil => simp [takeWhile, hc]
  | cons x cs ih =>
    rw [List.cons_append, takeWhile, if_pos (hcs x List.mem_cons_self)]
    rw [ih fun y hy => hcs y (List.mem_cons_of_mem x hy)]
    rfl

/-- A text with a byte that `p` does not hold of, split at the first one. -/
theorem split_while {p : UInt8 → Bool} {text : List UInt8} (hend : ∃ c ∈ text, p c = false) :
    ∃ c rest, text.dropWhile p = c :: rest ∧ p c = false ∧
      text = text.takeWhile p ++ c :: rest := by
  have hsplit := List.takeWhile_append_dropWhile (p := p) (l := text)
  have hhead := List.head?_dropWhile_not p text
  cases hdrop : text.dropWhile p with
  | nil =>
    obtain ⟨c, hmem, hc⟩ := hend
    have hall := List.dropWhile_eq_nil_iff.mp hdrop c hmem
    rw [hc] at hall
    cases hall
  | cons c rest =>
    rw [hdrop] at hsplit hhead
    exact ⟨c, rest, rfl, by simpa using hhead, hsplit.symm⟩

theorem require_run_true {m : Scan σ ε Bool} {e : ε} {rest : List UInt8} {s' : σ}
    (h : m text s = .ok (.ok (true, rest), s')) :
    require m e text s = .ok (.ok ((), rest), s') := by
  rw [require, bind_run_ok h]
  rfl

theorem orFail_run_ok {m : Scan σ ε' α} {e : ε} {a : α} {rest : List UInt8} {s' : σ}
    (h : m text s = .ok (.ok (a, rest), s')) : orFail m e text s = .ok (.ok (a, rest), s') := by
  rw [orFail, h]
  rfl

theorem orFail_run_error {m : Scan σ ε' α} {e : ε} {e' : ε'} {s' : σ}
    (h : m text s = .ok (.error e', s')) : orFail m e text s = .ok (.error e, s') := by
  rw [orFail, h]
  rfl

theorem measured_run_ok {m : Scan σ ε α} {a : α} {rest : List UInt8} {s' : σ}
    (h : m text s = .ok (.ok (a, rest), s')) :
    measured m text s = .ok (.ok ((a, text.length - rest.length), rest), s') := by
  rw [measured, h]
  rfl

theorem measured_run_error {m : Scan σ ε α} {e : ε} {s' : σ}
    (h : m text s = .ok (.error e, s')) : measured m text s = .ok (.error e, s') := by
  rw [measured, h]
  rfl

theorem measured_run_fault {m : Scan σ ε α} {f : Fault} (h : m text s = .error f) :
    measured m text s = .error f := by
  rw [measured, h]
  rfl

end Runs

/-! ## Properties that go through the combinators -/

/-- A property that a scanner has when its parts have it. -/
structure Closed (P : ∀ {ε α : Type}, Scan σ ε α → Prop) : Prop where
  pure : ∀ {ε α : Type} (a : α), P (pure a : Scan σ ε α)
  fail : ∀ {ε α : Type} (e : ε), P (fail e : Scan σ ε α)
  bind : ∀ {ε α β : Type} {m : Scan σ ε α} {f : α → Scan σ ε β}, P m → (∀ a, P (f a)) →
    P (m >>= f)
  orFail : ∀ {ε ε' α : Type} {m : Scan σ ε' α}, P m → ∀ e : ε, P (orFail m e)

/-- The same for scanners that read up to the byte `nl` and not past it. -/
structure LineClosed (nl : UInt8) (P : ∀ {ε α : Type}, Scan σ ε α → Prop) : Prop
    extends Closed P where
  peek : ∀ {ε : Type}, P (peek : Scan σ ε UInt8)
  next_bind : ∀ {ε α : Type} {f : UInt8 → Scan σ ε α} {e : ε}, (∀ c, c ≠ nl → P (f c)) →
    f nl = scanner.fail e → P (next >>= f)
  peek_next : ∀ {ε α : Type} {p : UInt8 → Bool} {f g : UInt8 → Scan σ ε α}, p nl = false →
    (∀ c, P (f c)) → (∀ c, P (g c)) → P (do
      let c ← scanner.peek
      if p c then do
        let c ← next
        f c
      else g c)
  accept : ∀ {ε : Type} {c : UInt8}, nl ≠ c → P (accept c : Scan σ ε Bool)
  skipWhile : ∀ {ε : Type} {p : UInt8 → Bool}, p nl = false → P (skipWhile p : Scan σ ε Unit)
  takeWhile : ∀ {ε : Type} {p : UInt8 → Bool}, p nl = false → P (takeWhile p : Scan σ ε _)

section Closed

variable {P : ∀ {ε α : Type}, Scan σ ε α → Prop} {nl : UInt8}

theorem Closed.require (h : Closed P) {m : Scan σ ε Bool} (hm : P m) (e : ε) : P (require m e) := by
  refine h.bind hm fun b => ?_
  cases b
  · exact h.fail e
  · exact h.pure ()

theorem Closed.ite (_ : Closed P) {q : Prop} [Decidable q] {m n : Scan σ ε α} (hm : P m)
    (hn : P n) : P (if q then m else n) := by
  split
  · exact hm
  · exact hn

theorem Closed.check (h : Closed P) {q : Prop} [Decidable q] (e : ε) {m : Scan σ ε α}
    (hm : ¬ q → P m) : P (if q then scanner.fail e else m) := by
  split
  · exact h.fail e
  · exact hm ‹_›

/-- A property of scanners that may read any byte. -/
theorem Closed.anywhere (h : Closed P) (hpeek : ∀ {ε : Type}, P (peek : Scan σ ε UInt8))
    (hnext : ∀ {ε : Type}, P (next : Scan σ ε UInt8))
    (haccept : ∀ {ε : Type} (c : UInt8), P (accept c : Scan σ ε Bool))
    (hskip : ∀ {ε : Type} (p : UInt8 → Bool), P (skipWhile p : Scan σ ε Unit))
    (htake : ∀ {ε : Type} (p : UInt8 → Bool), P (takeWhile p : Scan σ ε _)) :
    LineClosed nl P where
  toClosed := h
  peek := hpeek
  next_bind {_ _ _ e} hf hnl := by
    refine h.bind hnext fun c => ?_
    by_cases hc : c = nl
    · rw [hc, hnl]
      exact h.fail e
    · exact hf c hc
  peek_next _ hf hg := by
    refine h.bind hpeek fun c => ?_
    split
    · exact h.bind hnext hf
    · exact hg c
  accept _ := haccept _
  skipWhile _ := hskip _
  takeWhile _ := htake _

end Closed

/-! ## Scanners only move forward -/

/-- What is left of the text is an end of it. -/
def Forward (m : Scan σ ε α) : Prop :=
  ∀ text s a rest s', m text s = .ok (.ok (a, rest), s') → rest <:+ text

theorem Forward.pure (a : α) : Forward (pure a : Scan σ ε α) := by
  intro text s b rest s' h
  cases h
  exact List.suffix_rfl

theorem Forward.fail (e : ε) : Forward (fail e : Scan σ ε α) := by
  intro text s b rest s' h
  cases h

theorem Forward.halt (f : Fault) : Forward (halt f : Scan σ ε α) := by
  intro text s b rest s' h
  cases h

theorem Forward.bind {m : Scan σ ε α} {f : α → Scan σ ε β} (hm : Forward m)
    (hf : ∀ a, Forward (f a)) : Forward (m >>= f) := by
  intro text s b rest s' h
  obtain ⟨a, mid, s1, h1, h2⟩ := bind_eq_ok_ok.mp h
  exact (hf a mid s1 b rest s' h2).trans (hm text s a mid s1 h1)

theorem Forward.ite {p : Prop} [Decidable p] {m n : Scan σ ε α} (hm : Forward m)
    (hn : Forward n) : Forward (if p then m else n) := by
  split
  · exact hm
  · exact hn

theorem Forward.peek : Forward (peek : Scan σ ε UInt8) := by
  rintro (_ | ⟨c, text⟩) s b rest s' h
  · cases h
  · cases h
    exact List.suffix_rfl

theorem Forward.next : Forward (next : Scan σ ε UInt8) := by
  rintro (_ | ⟨c, text⟩) s b rest s' h
  · cases h
  · cases h
    exact List.suffix_cons c text

theorem Forward.accept (c : UInt8) : Forward (accept c : Scan σ ε Bool) := by
  rintro (_ | ⟨d, text⟩) s b rest s' h
  · cases h
  · by_cases hd : d = c
    · rw [scanner.accept, if_pos hd] at h
      cases h
      exact List.suffix_cons d text
    · rw [scanner.accept, if_neg hd] at h
      cases h
      exact List.suffix_rfl

theorem Forward.skipWhile (p : UInt8 → Bool) : Forward (skipWhile p : Scan σ ε Unit) := by
  intro text
  induction text with
  | nil =>
    intro s b rest s' h
    cases h
  | cons c text ih =>
    intro s b rest s' h
    unfold scanner.skipWhile at h
    split at h
    · exact (ih s b rest s' h).trans (List.suffix_cons c text)
    · cases h
      exact List.suffix_rfl

theorem Forward.takeWhile (p : UInt8 → Bool) : Forward (takeWhile p : Scan σ ε _) := by
  intro text
  induction text with
  | nil =>
    intro s b rest s' h
    cases h
  | cons c text ih =>
    intro s b rest s' h
    unfold scanner.takeWhile at h
    split at h
    · obtain ⟨cs, mid, s1, h1, h2⟩ := bind_eq_ok_ok.mp h
      cases h2
      exact (ih s cs _ _ h1).trans (List.suffix_cons c text)
    · cases h
      exact List.suffix_rfl

theorem Forward.orFail {m : Scan σ ε' α} (hm : Forward m) (e : ε) : Forward (orFail m e) := by
  intro text s b rest s' h
  unfold scanner.orFail at h
  rcases hr : m text s with f | ⟨_ | ⟨a, mid⟩, s1⟩
  · rw [hr] at h
    cases h
  · rw [hr] at h
    cases h
  · rw [hr] at h
    cases h
    exact hm text s _ _ _ hr

theorem Forward.measured {m : Scan σ ε α} (hm : Forward m) : Forward (measured m) := by
  intro text s b rest s' h
  unfold scanner.measured at h
  rcases hr : m text s with f | ⟨_ | ⟨a, mid⟩, s1⟩
  · rw [hr] at h
    cases h
  · rw [hr] at h
    cases h
  · rw [hr] at h
    cases h
    exact hm text s _ _ _ hr

theorem Forward.call (f : σ → Result (α × σ)) : Forward (call f : Scan σ ε α) := by
  intro text s b rest s' h
  unfold scanner.call at h
  obtain ⟨⟨a, s1⟩, _, h2⟩ := bind_eq_ok.mp h
  cases h2
  exact List.suffix_rfl

theorem Forward.line_closed (nl : UInt8) : LineClosed nl (@Forward σ) :=
  Closed.anywhere ⟨.pure, .fail, .bind, .orFail⟩ .peek .next .accept .skipWhile .takeWhile

/-! ## Scanners that only read -/

/-- The scanner leaves the state as it is, and gives the same in any state. -/
def Inert (m : Scan σ ε α) : Prop :=
  ∀ text s r s', m text s = .ok (r, s') → s' = s ∧ ∀ t, m text t = .ok (r, t)

theorem Inert.pure (a : α) : Inert (pure a : Scan σ ε α) := by
  intro text s r s' h
  cases h
  exact ⟨rfl, fun _ => rfl⟩

theorem Inert.fail (e : ε) : Inert (fail e : Scan σ ε α) := by
  intro text s r s' h
  cases h
  exact ⟨rfl, fun _ => rfl⟩

theorem Inert.cursor : Inert (cursor : Scan σ ε _) := by
  intro text s r s' h
  cases h
  exact ⟨rfl, fun _ => rfl⟩

theorem Inert.seek (there : List UInt8) : Inert (seek there : Scan σ ε Unit) := by
  intro text s r s' h
  cases h
  exact ⟨rfl, fun _ => rfl⟩

theorem Inert.bind {m : Scan σ ε α} {f : α → Scan σ ε β} (hm : Inert m) (hf : ∀ a, Inert (f a)) :
    Inert (m >>= f) := by
  intro text s r s' h
  rw [bind_run] at h
  rcases hr : m text s with e | ⟨_ | ⟨a, mid⟩, s1⟩
  · rw [hr] at h
    cases h
  · rw [hr] at h
    cases h
    obtain ⟨rfl, hall⟩ := hm _ _ _ _ hr
    exact ⟨rfl, fun t => bind_run_error (hall t)⟩
  · rw [hr] at h
    obtain ⟨rfl, hall⟩ := hm _ _ _ _ hr
    obtain ⟨rfl, hrest⟩ := hf a mid s1 r s' h
    exact ⟨rfl, fun t => by rw [bind_run_ok (hall t), hrest t]⟩

theorem Inert.ite {p : Prop} [Decidable p] {m n : Scan σ ε α} (hm : Inert m) (hn : Inert n) :
    Inert (if p then m else n) := by
  split
  · exact hm
  · exact hn

theorem Inert.peek : Inert (peek : Scan σ ε UInt8) := by
  rintro (_ | ⟨c, text⟩) s r s' h
  · cases h
  · cases h
    exact ⟨rfl, fun _ => rfl⟩

theorem Inert.next : Inert (next : Scan σ ε UInt8) := by
  rintro (_ | ⟨c, text⟩) s r s' h
  · cases h
  · cases h
    exact ⟨rfl, fun _ => rfl⟩

theorem Inert.accept (c : UInt8) : Inert (accept c : Scan σ ε Bool) := by
  rintro (_ | ⟨d, text⟩) s r s' h
  · cases h
  · cases h
    exact ⟨rfl, fun _ => rfl⟩

theorem Inert.skipWhile (p : UInt8 → Bool) : Inert (skipWhile p : Scan σ ε Unit) := by
  intro text
  induction text with
  | nil => nofun
  | cons c text ih =>
    intro s r s' h
    by_cases hc : p c = true
    · rw [scanner.skipWhile, if_pos hc] at h
      obtain ⟨rfl, hall⟩ := ih s r s' h
      exact ⟨rfl, fun t => by rw [scanner.skipWhile, if_pos hc, hall t]⟩
    · rw [scanner.skipWhile, if_neg hc] at h
      cases h
      exact ⟨rfl, fun t => by rw [scanner.skipWhile, if_neg hc]⟩

theorem Inert.takeWhile (p : UInt8 → Bool) : Inert (takeWhile p : Scan σ ε _) := by
  intro text
  induction text with
  | nil => nofun
  | cons c text ih =>
    intro s r s' h
    by_cases hc : p c = true
    · rw [scanner.takeWhile, if_pos hc] at h
      rcases hr : (scanner.takeWhile p : Scan σ ε _) text s with e | ⟨_ | ⟨cs, mid⟩, s1⟩
      · rw [hr] at h
        cases h
      · rw [hr] at h
        cases h
        obtain ⟨rfl, hall⟩ := ih _ _ _ hr
        exact ⟨rfl, fun t => by rw [scanner.takeWhile, if_pos hc, hall t]; rfl⟩
      · rw [hr] at h
        cases h
        obtain ⟨rfl, hall⟩ := ih _ _ _ hr
        exact ⟨rfl, fun t => by rw [scanner.takeWhile, if_pos hc, hall t]; rfl⟩
    · rw [scanner.takeWhile, if_neg hc] at h
      cases h
      exact ⟨rfl, fun t => by rw [scanner.takeWhile, if_neg hc]⟩

theorem Inert.orFail {m : Scan σ ε' α} (hm : Inert m) (e : ε) : Inert (orFail m e) := by
  intro text s r s' h
  unfold scanner.orFail at h
  rcases hr : m text s with f | ⟨_ | ⟨a, mid⟩, s1⟩
  · rw [hr] at h
    cases h
  · rw [hr] at h
    cases h
    obtain ⟨rfl, hall⟩ := hm _ _ _ _ hr
    exact ⟨rfl, fun t => orFail_run_error (hall t)⟩
  · rw [hr] at h
    cases h
    obtain ⟨rfl, hall⟩ := hm _ _ _ _ hr
    exact ⟨rfl, fun t => orFail_run_ok (hall t)⟩

theorem Inert.line_closed (nl : UInt8) : LineClosed nl (@Inert σ) :=
  Closed.anywhere ⟨.pure, .fail, .bind, .orFail⟩ .peek .next .accept .skipWhile .takeWhile

/-! ## A part of the state that stays -/

/-- The scanner leaves `g` of the state as it is, also when it fails. -/
def Keeps {γ : Type} (g : σ → γ) (m : Scan σ ε α) : Prop :=
  ∀ text s r s', m text s = .ok (r, s') → g s' = g s

section Keeps

variable {γ : Type} {g : σ → γ}

theorem Keeps.of_inert {m : Scan σ ε α} (hm : Inert m) : Keeps g m := fun _ _ _ _ h => by
  rw [(hm _ _ _ _ h).1]

theorem Keeps.pure (a : α) : Keeps g (pure a : Scan σ ε α) := .of_inert (.pure a)

theorem Keeps.fail (e : ε) : Keeps g (fail e : Scan σ ε α) := .of_inert (.fail e)

theorem Keeps.call {f : σ → Result (α × σ)} (hf : ∀ s a s', f s = .ok (a, s') → g s' = g s) :
    Keeps g (call f : Scan σ ε α) := by
  intro text s r s' h
  obtain ⟨⟨a, s1⟩, h1, h2⟩ := bind_eq_ok.mp h
  cases h2
  exact hf _ _ _ h1

end Keeps

/-! ## What a scanner can give -/

/-- Every value that the scanner gives has the property. -/
def Yields (P : α → Prop) (m : Scan σ ε α) : Prop :=
  ∀ text s a rest s', m text s = .ok (.ok (a, rest), s') → P a

variable {P : α → Prop}

theorem Yields.pure {a : α} (h : P a) : Yields P (pure a : Scan σ ε α) := by
  intro text s b rest s' hrun
  cases hrun
  exact h

theorem Yields.fail (e : ε) : Yields P (fail e : Scan σ ε α) := by
  intro text s b rest s' hrun
  cases hrun

theorem Yields.bind {Q : β → Prop} {m : Scan σ ε α} {f : α → Scan σ ε β} (hm : Yields P m)
    (hf : ∀ a, P a → Yields Q (f a)) : Yields Q (m >>= f) := by
  intro text s b rest s' hrun
  obtain ⟨a, mid, s1, h1, h2⟩ := bind_eq_ok_ok.mp hrun
  exact hf a (hm _ _ _ _ _ h1) _ _ _ _ _ h2

/-- After a scanner of which nothing is known. -/
theorem Yields.after {Q : β → Prop} {m : Scan σ ε α} {f : α → Scan σ ε β}
    (hf : ∀ a, Yields Q (f a)) : Yields Q (m >>= f) :=
  Yields.bind (P := fun _ => True) (fun _ _ _ _ _ _ => trivial) fun a _ => hf a

theorem Yields.ite {p : Prop} [Decidable p] {m n : Scan σ ε α} (hm : p → Yields P m)
    (hn : ¬ p → Yields P n) : Yields P (if p then m else n) := by
  split
  · exact hm ‹_›
  · exact hn ‹_›

theorem Yields.orFail {ε' : Type} {m : Scan σ ε' α} (hm : Yields P m) (e : ε) :
    Yields P (orFail m e) := by
  intro text s a rest s' h
  unfold scanner.orFail at h
  rcases hr : m text s with f | ⟨_ | ⟨b, mid⟩, s1⟩ <;> rw [hr] at h <;> cases h
  exact hm _ _ _ _ _ hr

end scanner
