-- Scanners that stay on their line: what one gives for a line that stands alone
-- in a buffer it gives for the line in any text, and it never passes the byte
-- that ends the line.
import RiscvAssembler.Lib.Scanner

open checked

namespace scanner

variable {σ ε ε' α β : Type}

/-- The bytes of a line are in `line`, and `nl` ends it. In its own buffer the
line has `own` after that byte. The statement is about successes alone: a
failure may come from what lies after the line. -/
def OnLine (line : UInt8 → Prop) (nl : UInt8) (own : List UInt8) (m : Scan σ ε α) : Prop :=
  ∀ l s a rest s', (∀ x ∈ l, line x) → m (l ++ nl :: own) s = .ok (.ok (a, rest), s') →
    ∃ l', l' <:+ l ∧ rest = l' ++ nl :: own ∧
      ∀ tail, m (l ++ nl :: tail) s = .ok (.ok (a, l' ++ nl :: tail), s')

/-- The scanner gives no value, whatever the text. -/
def NeverOk (m : Scan σ ε α) : Prop := ∀ text s x s', m text s ≠ .ok (.ok x, s')

theorem NeverOk.fail (e : ε) : NeverOk (fail e : Scan σ ε α) := nofun

theorem NeverOk.halt (f : Fault) : NeverOk (halt f : Scan σ ε α) := nofun

section Line

variable {line : UInt8 → Prop} {nl : UInt8} {own : List UInt8}

theorem OnLine.of_neverOk {m : Scan σ ε α} (hm : NeverOk m) : OnLine line nl own m := by
  intro l s a rest s' _ h
  exact absurd h (hm _ _ _ _)

theorem OnLine.pure (a : α) : OnLine line nl own (pure a : Scan σ ε α) := by
  intro l s b rest s' _ h
  cases h
  exact ⟨l, List.suffix_rfl, rfl, fun _ => rfl⟩

theorem OnLine.fail (e : ε) : OnLine line nl own (fail e : Scan σ ε α) :=
  .of_neverOk (.fail e)

theorem OnLine.halt (f : Fault) : OnLine line nl own (halt f : Scan σ ε α) :=
  .of_neverOk (.halt f)

theorem OnLine.bind {m : Scan σ ε α} {f : α → Scan σ ε β} (hm : OnLine line nl own m)
    (hf : ∀ a, OnLine line nl own (f a)) : OnLine line nl own (m >>= f) := by
  intro l s b rest s' hl h
  obtain ⟨a, mid, s1, h1, h2⟩ := bind_eq_ok_ok.mp h
  obtain ⟨l1, hl1, rfl, hm1⟩ := hm l s a mid s1 hl h1
  obtain ⟨l2, hl2, hrest, hf2⟩ := hf a l1 s1 b rest s' (fun x hx => hl x (hl1.subset hx)) h2
  refine ⟨l2, hl2.trans hl1, hrest, fun tail => ?_⟩
  rw [bind_run_ok (hm1 tail), hf2 tail]

theorem OnLine.peek : OnLine line nl own (peek : Scan σ ε UInt8) := by
  rintro (_ | ⟨c, l⟩) s b rest s' _ h
  · cases h
    exact ⟨[], List.suffix_rfl, rfl, fun _ => rfl⟩
  · cases h
    exact ⟨c :: l, List.suffix_rfl, rfl, fun _ => rfl⟩

/-- A read is on the line when the byte that ends the line leads to a failure. -/
theorem OnLine.next_bind {f : UInt8 → Scan σ ε α} (hf : ∀ c, line c → OnLine line nl own (f c))
    (hnl : NeverOk (f nl)) : OnLine line nl own (next >>= f) := by
  rintro (_ | ⟨c, l⟩) s b rest s' hl h
  · rw [List.nil_append, bind_run_ok (next_cons nl)] at h
    exact absurd h (hnl _ _ _ _)
  · rw [List.cons_append, bind_run_ok (next_cons c)] at h
    obtain ⟨l', hl', hrest, hall⟩ := hf c (hl c List.mem_cons_self) l s b rest s'
      (fun x hx => hl x (List.mem_cons_of_mem c hx)) h
    refine ⟨l', hl'.trans (List.suffix_cons c l), hrest, fun tail => ?_⟩
    rw [List.cons_append, bind_run_ok (next_cons c), hall tail]

/-- The same for a read that only happens after a look. -/
theorem OnLine.peek_next {p : UInt8 → Bool} {f g : UInt8 → Scan σ ε α} (hp : p nl = false)
    (hf : ∀ c, OnLine line nl own (f c)) (hg : ∀ c, OnLine line nl own (g c)) :
    OnLine line nl own (do
      let c ← scanner.peek
      if p c then do
        let c ← next
        f c
      else g c) := by
  rintro (_ | ⟨c, l⟩) s b rest s' hl h
  · rw [List.nil_append, bind_run_ok (peek_cons nl), hp, if_neg (by decide)] at h
    obtain ⟨l', hl', hrest, hall⟩ := hg nl [] s b rest s' hl h
    refine ⟨l', hl', hrest, fun tail => ?_⟩
    rw [List.nil_append, bind_run_ok (peek_cons nl), hp, if_neg (by decide)]
    exact hall tail
  · rw [List.cons_append, bind_run_ok (peek_cons c)] at h
    by_cases hc : p c = true
    · rw [if_pos hc, bind_run_ok (next_cons c)] at h
      obtain ⟨l', hl', hrest, hall⟩ := hf c l s b rest s'
        (fun x hx => hl x (List.mem_cons_of_mem c hx)) h
      refine ⟨l', hl'.trans (List.suffix_cons c l), hrest, fun tail => ?_⟩
      rw [List.cons_append, bind_run_ok (peek_cons c), if_pos hc, bind_run_ok (next_cons c),
        hall tail]
    · rw [if_neg hc] at h
      obtain ⟨l', hl', hrest, hall⟩ := hg c (c :: l) s b rest s' hl h
      refine ⟨l', hl', hrest, fun tail => ?_⟩
      rw [List.cons_append, bind_run_ok (peek_cons c), if_neg hc]
      exact hall tail

theorem OnLine.accept {c : UInt8} (hc : nl ≠ c) :
    OnLine line nl own (accept c : Scan σ ε Bool) := by
  rintro (_ | ⟨d, l⟩) s b rest s' _ h
  · rw [List.nil_append, accept_other hc] at h
    cases h
    exact ⟨[], List.suffix_rfl, rfl, fun tail => accept_other hc⟩
  · by_cases hd : d = c
    · subst hd
      rw [List.cons_append, accept_same] at h
      cases h
      exact ⟨l, List.suffix_cons d l, rfl, fun tail => accept_same d⟩
    · rw [List.cons_append, accept_other hd] at h
      cases h
      exact ⟨d :: l, List.suffix_rfl, rfl, fun tail => accept_other hd⟩

theorem OnLine.skipWhile {p : UInt8 → Bool} (hp : p nl = false) :
    OnLine line nl own (skipWhile p : Scan σ ε Unit) := by
  intro l
  induction l with
  | nil =>
    intro s b rest s' _ h
    have hstop : ∀ tail, (scanner.skipWhile p : Scan σ ε Unit) (nl :: tail) s =
        .ok (.ok ((), nl :: tail), s) := fun tail => by
      rw [scanner.skipWhile, hp, if_neg (by decide)]
    rw [List.nil_append, hstop] at h
    cases h
    exact ⟨[], List.suffix_rfl, rfl, hstop⟩
  | cons c l ih =>
    intro s b rest s' hl h
    by_cases hc : p c = true
    · rw [List.cons_append, scanner.skipWhile, if_pos hc] at h
      obtain ⟨l', hl', hrest, hall⟩ := ih s b rest s' (fun x hx => hl x (List.mem_cons_of_mem c hx)) h
      refine ⟨l', hl'.trans (List.suffix_cons c l), hrest, fun tail => ?_⟩
      rw [List.cons_append, scanner.skipWhile, if_pos hc, hall tail]
    · rw [List.cons_append, scanner.skipWhile, if_neg hc] at h
      cases h
      refine ⟨c :: l, List.suffix_rfl, rfl, fun tail => ?_⟩
      rw [List.cons_append, scanner.skipWhile, if_neg hc]

theorem OnLine.takeWhile {p : UInt8 → Bool} (hp : p nl = false) :
    OnLine line nl own (takeWhile p : Scan σ ε _) := by
  intro l
  induction l with
  | nil =>
    intro s b rest s' _ h
    have hstop : ∀ tail, (scanner.takeWhile p : Scan σ ε _) (nl :: tail) s =
        .ok (.ok ([], nl :: tail), s) := fun tail => by
      rw [scanner.takeWhile, hp, if_neg (by decide)]
    rw [List.nil_append, hstop] at h
    cases h
    exact ⟨[], List.suffix_rfl, rfl, hstop⟩
  | cons c l ih =>
    intro s b rest s' hl h
    by_cases hc : p c = true
    · rw [List.cons_append, scanner.takeWhile, if_pos hc] at h
      obtain ⟨cs, mid, s1, h1, h2⟩ := bind_eq_ok_ok.mp h
      cases h2
      obtain ⟨l', hl', hrest, hall⟩ := ih s cs _ _ (fun x hx => hl x (List.mem_cons_of_mem c hx)) h1
      refine ⟨l', hl'.trans (List.suffix_cons c l), hrest, fun tail => ?_⟩
      rw [List.cons_append, scanner.takeWhile, if_pos hc, hall tail]
      rfl
    · rw [List.cons_append, scanner.takeWhile, if_neg hc] at h
      cases h
      refine ⟨c :: l, List.suffix_rfl, rfl, fun tail => ?_⟩
      rw [List.cons_append, scanner.takeWhile, if_neg hc]

theorem OnLine.orFail {m : Scan σ ε' α} (hm : OnLine line nl own m) (e : ε) :
    OnLine line nl own (orFail m e) := by
  intro l s b rest s' hl h
  unfold scanner.orFail at h
  rcases hr : m (l ++ nl :: own) s with f | ⟨_ | ⟨a, mid⟩, s1⟩
  · rw [hr] at h
    cases h
  · rw [hr] at h
    cases h
  · rw [hr] at h
    cases h
    obtain ⟨l', hl', hrest, hall⟩ := hm l s _ _ _ hl hr
    exact ⟨l', hl', hrest, fun tail => orFail_run_ok (hall tail)⟩

/-- The number of bytes moved past is the same with any text after the line. -/
theorem OnLine.measured {m : Scan σ ε α} (hm : OnLine line nl own m) :
    OnLine line nl own (measured m) := by
  intro l s b rest s' hl h
  unfold scanner.measured at h
  rcases hr : m (l ++ nl :: own) s with f | ⟨_ | ⟨a, mid⟩, s1⟩
  · rw [hr] at h
    cases h
  · rw [hr] at h
    cases h
  · rw [hr] at h
    cases h
    obtain ⟨l', hl', rfl, hall⟩ := hm l s _ _ _ hl hr
    refine ⟨l', hl', rfl, fun tail => ?_⟩
    have hlen : ∀ tail : List UInt8, (l ++ nl :: tail).length - (l' ++ nl :: tail).length =
        l.length - l'.length := fun tail => by
      simp only [List.length_append]
      omega
    rw [scanner.measured, hall tail, hlen own, ← hlen tail]
    rfl

theorem OnLine.call (f : σ → Result (α × σ)) : OnLine line nl own (call f : Scan σ ε α) := by
  intro l s b rest s' _ h
  obtain ⟨⟨a, s1⟩, h1, h2⟩ := bind_eq_ok.mp h
  cases h2
  refine ⟨l, List.suffix_rfl, rfl, fun tail => ?_⟩
  rw [scanner.call, h1]
  rfl

theorem OnLine.line_closed (h : ∀ c, line c → c ≠ nl) :
    LineClosed nl fun {ε α} (m : Scan σ ε α) => OnLine line nl own m where
  pure := .pure
  fail := .fail
  bind := .bind
  orFail := .orFail
  peek := .peek
  next_bind hf hnl := .next_bind (fun c hc => hf c (h c hc)) (hnl ▸ .fail _)
  peek_next := .peek_next
  accept := .accept
  skipWhile := .skipWhile
  takeWhile := .takeWhile

end Line

end scanner
