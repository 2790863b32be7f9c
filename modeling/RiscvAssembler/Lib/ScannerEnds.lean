-- Scanners at the ends of lines and of the text: the places where a scanner can
-- be led past the byte that ends a line, and what it needs there to stop before
-- the text does.
import Mathlib.Data.List.Basic
import RiscvAssembler.Lib.Scanner

open checked

namespace scanner

variable {σ ε ε' α β π : Type} {nl : UInt8}

/-! ## Texts with a last byte -/

/-- The last byte of the text is `nl`. -/
def EndsWith (nl : UInt8) (text : List UInt8) : Prop := ∃ l, text = l ++ [nl]

theorem EndsWith.ne_nil {text : List UInt8} (h : EndsWith nl text) : text ≠ [] := by
  obtain ⟨l, rfl⟩ := h
  simp

theorem EndsWith.mem {text : List UInt8} (h : EndsWith nl text) : nl ∈ text := by
  obtain ⟨l, rfl⟩ := h
  simp

theorem EndsWith.of_append {used rest : List UInt8} (h : EndsWith nl (used ++ rest))
    (hrest : rest ≠ []) : EndsWith nl rest := by
  obtain ⟨l, hl⟩ := h
  have hlast := congrArg List.getLast? hl
  rw [List.getLast?_append_of_ne_nil _ hrest, List.getLast?_concat] at hlast
  exact List.getLast?_eq_some_iff.mp hlast

/-- What is left is not empty when the last byte was not moved past. -/
theorem EndsWith.rest {used rest : List UInt8} (h : EndsWith nl (used ++ rest)) (hused : nl ∉ used) :
    EndsWith nl rest := by
  apply h.of_append
  rintro rfl
  rw [List.append_nil] at h
  exact hused h.mem

theorem EndsWith.tail {c : UInt8} {text : List UInt8} (h : EndsWith nl (c :: text)) (hc : c ≠ nl) :
    EndsWith nl text := by
  have hused : nl ∉ [c] := by simpa using hc.symm
  exact EndsWith.rest (by simpa using h) hused

/-! ## Places -/

/-- The byte that ends a line, and the places that a scanner may come to: where
it moves past such a byte, and where it would read past the text. The calls of
the scanner are made in the states of the invariant. -/
structure Lines (σ π : Type) where
  nl : UInt8
  Crosses : π → Prop
  Cut : π → Prop
  Inv : σ → Prop

/-- The places that a scanner comes to. -/
abbrev Places (σ π : Type) := List UInt8 → σ → List π

def nowhere : Places σ π := fun _ _ => []

/-- The places behind what `m` reads. -/
def behind (m : Scan σ ε α) (places : α → Places σ π) : Places σ π := fun text s =>
  match m text s with
  | .ok (.ok (a, rest), _) => places a rest s
  | _ => []

theorem behind_run {m : Scan σ ε α} {places : α → Places σ π} {text rest : List UInt8} {s s' : σ}
    {a : α} (h : m text s = .ok (.ok (a, rest), s')) :
    behind m places text s = places a rest s := by
  unfold behind
  rw [h]

/-- The outcome leaves something of the text to read. -/
inductive Lines.Within (L : Lines σ π) : Result (Except ε (α × List UInt8) × σ) → Prop
  | fault {f : Fault} : f ≠ .outOfBounds → Within L (.error f)
  | failed {e : ε} {s : σ} : Within L (.ok (.error e, s))
  | value {a : α} {rest : List UInt8} {s : σ} : L.Inv s → EndsWith L.nl rest →
      Within L (.ok (.ok (a, rest), s))

/-- The scanner moves past the end of a line exactly where it crosses one, and it
stays in the text when no place is cut. -/
structure Lines.Reads (L : Lines σ π) (places : Places σ π) (m : Scan σ ε α) : Prop where
  moves : ∀ text s a rest s', m text s = .ok (.ok (a, rest), s') →
    ∃ used, text = used ++ rest ∧ (L.nl ∈ used ↔ ∃ x ∈ places text s, L.Crosses x)
  inside : ∀ text s, L.Inv s → EndsWith L.nl text → (∀ x ∈ places text s, ¬ L.Cut x) →
    L.Within (m text s)

/-- The scanner stays on its line. -/
abbrev Lines.Tame (L : Lines σ π) (m : Scan σ ε α) : Prop := L.Reads nowhere m

section Reads

variable {L : Lines σ π} {places : Places σ π}

theorem Lines.Reads.used {m : Scan σ ε α} (hm : L.Tame m) {text rest : List UInt8} {s s' : σ} {a : α}
    (h : m text s = .ok (.ok (a, rest), s')) : ∃ used, text = used ++ rest ∧ L.nl ∉ used := by
  obtain ⟨used, htext, hiff⟩ := hm.moves text s a rest s' h
  exact ⟨used, htext, fun hc => nomatch hiff.mp hc⟩

/-- A scanner whose run is within the text when it reads no end of a line. -/
theorem Lines.Reads.of_moves {m : Scan σ ε α}
    (hmoves : ∀ text s a rest s', m text s = .ok (.ok (a, rest), s') →
      (L.Inv s → L.Inv s') ∧ ∃ used, text = used ++ rest ∧ L.nl ∉ used)
    (hfault : ∀ text s, L.Inv s → EndsWith L.nl text → m text s ≠ .error .outOfBounds) :
    L.Tame m where
  moves text s a rest s' h := by
    obtain ⟨_, used, htext, hused⟩ := hmoves text s a rest s' h
    exact ⟨used, htext, iff_of_false hused (by simp [nowhere])⟩
  inside text s hinv hend _ := by
    have hno := hfault text s hinv hend
    rcases hr : m text s with f | ⟨_ | ⟨a, rest⟩, s'⟩
    · rw [hr] at hno
      exact .fault fun hf => hno (congrArg Except.error hf)
    · exact .failed
    · obtain ⟨hkeeps, used, rfl, hused⟩ := hmoves text s a rest s' hr
      exact .value (hkeeps hinv) (hend.rest hused)

theorem Lines.Within.bind {m : Scan σ ε α} {f : α → Scan σ ε β} {text : List UInt8} {s : σ}
    (hm : L.Within (m text s))
    (hf : ∀ a rest s', m text s = .ok (.ok (a, rest), s') → L.Inv s' → EndsWith L.nl rest →
      L.Within (f a rest s')) : L.Within ((m >>= f) text s) := by
  rw [bind_run]
  generalize hr : m text s = r at hm
  cases hm with
  | fault hno => exact .fault hno
  | failed => exact .failed
  | value hinv hend => exact hf _ _ _ hr hinv hend

/-- A scanner and then one that stays on its line. -/
theorem Lines.Reads.bind {m : Scan σ ε α} {f : α → Scan σ ε β} (hm : L.Reads places m)
    (hf : ∀ a, L.Tame (f a)) : L.Reads places (m >>= f) where
  moves text s b rest s' h := by
    obtain ⟨a, mid, s1, h1, h2⟩ := bind_eq_ok_ok.mp h
    obtain ⟨u1, rfl, hiff⟩ := hm.moves text s a mid s1 h1
    obtain ⟨u2, rfl, hu2⟩ := (hf a).used h2
    refine ⟨u1 ++ u2, (List.append_assoc _ _ _).symm, ?_⟩
    rw [← hiff, List.mem_append, or_iff_left hu2]
  inside text s hinv hend hcut :=
    (hm.inside text s hinv hend hcut).bind fun a rest s' _ hinv' hend' =>
      (hf a).inside rest s' hinv' hend' (by simp [nowhere])

/-- A scanner that stays on its line and only reads, and then any. -/
theorem Lines.Reads.behind {m : Scan σ ε α} {f : α → Scan σ ε β} {P : α → Places σ π}
    (hm : L.Tame m) (hi : Inert m) (hf : ∀ a, L.Reads (P a) (f a)) :
    L.Reads (behind m P) (m >>= f) where
  moves text s b rest s' h := by
    obtain ⟨a, mid, s1, h1, h2⟩ := bind_eq_ok_ok.mp h
    obtain ⟨rfl, _⟩ := hi _ _ _ _ h1
    obtain ⟨u1, rfl, hu1⟩ := hm.used h1
    obtain ⟨u2, rfl, hiff⟩ := (hf a).moves _ _ _ _ _ h2
    refine ⟨u1 ++ u2, (List.append_assoc _ _ _).symm, ?_⟩
    rw [behind_run h1, ← hiff, List.mem_append, or_iff_right hu1]
  inside text s hinv hend hcut := by
    refine (hm.inside text s hinv hend (by simp [nowhere])).bind fun a rest s' h1 hinv' hend' => ?_
    obtain ⟨rfl, _⟩ := hi _ _ _ _ h1
    rw [behind_run h1] at hcut
    exact (hf a).inside rest s' hinv' hend' hcut

theorem Lines.Reads.ite {p : Prop} [Decidable p] {m n : Scan σ ε α} (hm : L.Reads places m)
    (hn : L.Reads places n) : L.Reads places (if p then m else n) := by
  split
  · exact hm
  · exact hn

theorem Lines.Reads.pure (a : α) : L.Tame (pure a : Scan σ ε α) := by
  refine .of_moves (fun text s b rest s' h => ?_) fun _ _ _ _ h => nomatch h
  cases h
  exact ⟨id, [], rfl, List.not_mem_nil⟩

theorem Lines.Reads.fail (e : ε) : L.Tame (fail e : Scan σ ε α) :=
  .of_moves (fun _ _ _ _ _ h => nomatch h) fun _ _ _ _ h => nomatch h

theorem Lines.Reads.halt {f : Fault} (hf : f ≠ .outOfBounds) : L.Tame (halt f : Scan σ ε α) :=
  .of_moves (fun _ _ _ _ _ h => nomatch h) fun _ _ _ _ h => hf (Except.error.inj h)

theorem Lines.Reads.peek : L.Tame (peek : Scan σ ε UInt8) := by
  refine .of_moves (fun text s b rest s' h => ?_) fun text s _ hend h => ?_
  · rcases text with _ | ⟨c, text⟩
    · cases h
    · cases h
      exact ⟨id, [], rfl, List.not_mem_nil⟩
  · rcases text with _ | ⟨c, text⟩
    · exact hend.ne_nil rfl
    · cases h

/-- A read whose continuation fails at the end of a line. -/
theorem Lines.Reads.next_bind {f : UInt8 → Scan σ ε α} (hf : ∀ c, c ≠ L.nl → L.Tame (f c))
    (hnl : ∀ text s, ∃ e, f L.nl text s = .ok (.error e, s)) : L.Tame (next >>= f) where
  moves text s a rest s' h := by
    rcases text with _ | ⟨c, text⟩
    · cases h
    · rw [bind_run_ok (next_cons c)] at h
      by_cases hc : c = L.nl
      · obtain ⟨e, he⟩ := hnl text s
        rw [hc, he] at h
        cases h
      · obtain ⟨used, rfl, hused⟩ := (hf c hc).used h
        refine ⟨c :: used, rfl, iff_of_false ?_ (by simp [nowhere])⟩
        rw [List.mem_cons, not_or]
        exact ⟨Ne.symm hc, hused⟩
  inside text s hinv hend _ := by
    rcases text with _ | ⟨c, text⟩
    · exact absurd rfl hend.ne_nil
    · rw [bind_run_ok (next_cons c)]
      by_cases hc : c = L.nl
      · obtain ⟨e, he⟩ := hnl text s
        rw [hc, he]
        exact .failed
      · exact (hf c hc).inside text s hinv (hend.tail hc) (by simp [nowhere])

/-- A read that only happens after a look. -/
theorem Lines.Reads.peek_next {p : UInt8 → Bool} {f g : UInt8 → Scan σ ε α} (hp : p L.nl = false)
    (hf : ∀ c, L.Tame (f c)) (hg : ∀ c, L.Tame (g c)) :
    L.Tame (do
      let c ← scanner.peek
      if p c then do
        let c ← next
        f c
      else g c) where
  moves text s a rest s' h := by
    rcases text with _ | ⟨c, text⟩
    · cases h
    · rw [bind_run_ok (peek_cons c)] at h
      by_cases hc : p c = true
      · rw [if_pos hc, bind_run_ok (next_cons c)] at h
        obtain ⟨used, rfl, hused⟩ := (hf c).used h
        have hne : c ≠ L.nl := fun hn => by rw [hn, hp] at hc; cases hc
        refine ⟨c :: used, rfl, iff_of_false ?_ (by simp [nowhere])⟩
        rw [List.mem_cons, not_or]
        exact ⟨hne.symm, hused⟩
      · rw [if_neg hc] at h
        exact (hg c).moves _ _ _ _ _ h
  inside text s hinv hend _ := by
    rcases text with _ | ⟨c, text⟩
    · exact absurd rfl hend.ne_nil
    · rw [bind_run_ok (peek_cons c)]
      by_cases hc : p c = true
      · rw [if_pos hc, bind_run_ok (next_cons c)]
        have hne : c ≠ L.nl := fun hn => by rw [hn, hp] at hc; cases hc
        exact (hf c).inside text s hinv (hend.tail hne) (by simp [nowhere])
      · rw [if_neg hc]
        exact (hg c).inside _ s hinv hend (by simp [nowhere])

theorem Lines.Reads.accept {c : UInt8} (hc : L.nl ≠ c) : L.Tame (accept c : Scan σ ε Bool) := by
  refine .of_moves (fun text s b rest s' h => ?_) fun text s _ hend h => ?_
  · rcases text with _ | ⟨d, text⟩
    · cases h
    · by_cases hd : d = c
      · rw [scanner.accept, if_pos hd] at h
        cases h
        exact ⟨id, [d], rfl, by rw [hd]; simpa using hc⟩
      · rw [scanner.accept, if_neg hd] at h
        cases h
        exact ⟨id, [], rfl, List.not_mem_nil⟩
  · rcases text with _ | ⟨d, text⟩
    · exact hend.ne_nil rfl
    · cases h

theorem skipWhile_used {p : UInt8 → Bool} {text rest : List UInt8} {s s' : σ}
    (h : (skipWhile p : Scan σ ε Unit) text s = .ok (.ok ((), rest), s')) :
    s' = s ∧ ∃ used, text = used ++ rest ∧ ∀ x ∈ used, p x = true := by
  induction text with
  | nil => cases h
  | cons c text ih =>
    unfold scanner.skipWhile at h
    split at h
    · rename_i hc
      obtain ⟨rfl, used, rfl, hused⟩ := ih h
      exact ⟨rfl, c :: used, rfl, List.forall_mem_cons.mpr ⟨hc, hused⟩⟩
    · cases h
      exact ⟨rfl, [], rfl, List.forall_mem_nil _⟩

theorem skipWhile_rest {p : UInt8 → Bool} {text rest : List UInt8} {s s' : σ}
    (h : (skipWhile p : Scan σ ε Unit) text s = .ok (.ok ((), rest), s')) :
    rest = text.dropWhile p := by
  induction text with
  | nil => cases h
  | cons c text ih =>
    unfold scanner.skipWhile at h
    split at h
    · rename_i hc
      rw [List.dropWhile_cons_of_pos hc]
      exact ih h
    · rename_i hc
      rw [List.dropWhile_cons_of_neg hc]
      cases h
      rfl

theorem Lines.Reads.skipWhile {p : UInt8 → Bool} (hp : p L.nl = false) :
    L.Tame (skipWhile p : Scan σ ε Unit) := by
  refine .of_moves (fun text s b rest s' h => ?_) fun text s _ hend h => ?_
  · obtain ⟨rfl, used, htext, hused⟩ := skipWhile_used h
    refine ⟨id, used, htext, fun hc => ?_⟩
    have := hused _ hc
    rw [hp] at this
    cases this
  · induction text with
    | nil => exact hend.ne_nil rfl
    | cons c text ih =>
      unfold scanner.skipWhile at h
      split at h
      · rename_i hc
        exact ih (hend.tail fun hn => by rw [hn, hp] at hc; cases hc) h
      · cases h

theorem takeWhile_used {p : UInt8 → Bool} {text rest cs : List UInt8} {s s' : σ}
    (h : (takeWhile p : Scan σ ε _) text s = .ok (.ok (cs, rest), s')) :
    s' = s ∧ text = cs ++ rest ∧ ∀ x ∈ cs, p x = true := by
  induction text generalizing cs with
  | nil => cases h
  | cons c text ih =>
    unfold scanner.takeWhile at h
    split at h
    · rename_i hc
      obtain ⟨ds, mid, s1, h1, h2⟩ := bind_eq_ok_ok.mp h
      cases h2
      obtain ⟨rfl, rfl, hall⟩ := ih h1
      exact ⟨rfl, rfl, List.forall_mem_cons.mpr ⟨hc, hall⟩⟩
    · cases h
      exact ⟨rfl, rfl, List.forall_mem_nil _⟩

theorem Lines.Reads.takeWhile {p : UInt8 → Bool} (hp : p L.nl = false) :
    L.Tame (takeWhile p : Scan σ ε _) := by
  refine .of_moves (fun text s b rest s' h => ?_) fun text s _ hend h => ?_
  · obtain ⟨rfl, htext, hused⟩ := takeWhile_used h
    refine ⟨id, b, htext, fun hc => ?_⟩
    have := hused _ hc
    rw [hp] at this
    cases this
  · induction text with
    | nil => exact hend.ne_nil rfl
    | cons c text ih =>
      unfold scanner.takeWhile at h
      split at h
      · rename_i hc
        have hne : c ≠ L.nl := fun hn => by rw [hn, hp] at hc; cases hc
        rcases hr : (scanner.takeWhile p : Scan σ ε _) text s with f | ⟨_ | ⟨cs, mid⟩, s1⟩
        · rw [hr] at h
          exact ih (hend.tail hne) (hr.trans h)
        · rw [hr] at h
          cases h
        · rw [hr] at h
          cases h
      · cases h

theorem Lines.Reads.orFail {m : Scan σ ε' α} (hm : L.Reads places m) (e : ε) :
    L.Reads places (orFail m e) where
  moves text s a rest s' h := by
    unfold scanner.orFail at h
    rcases hr : m text s with f | ⟨_ | ⟨b, mid⟩, s1⟩ <;> rw [hr] at h <;> cases h
    exact hm.moves _ _ _ _ _ hr
  inside text s hinv hend hcut := by
    have hwithin := hm.inside text s hinv hend hcut
    unfold scanner.orFail
    generalize m text s = r at hwithin
    cases hwithin with
    | fault hno => exact .fault hno
    | failed => exact .failed
    | value hinv hend => exact .value hinv hend

theorem Lines.Reads.measured {m : Scan σ ε α} (hm : L.Reads places m) :
    L.Reads places (measured m) where
  moves text s a rest s' h := by
    unfold scanner.measured at h
    rcases hr : m text s with f | ⟨_ | ⟨b, mid⟩, s1⟩ <;> rw [hr] at h <;> cases h
    exact hm.moves _ _ _ _ _ hr
  inside text s hinv hend hcut := by
    have hwithin := hm.inside text s hinv hend hcut
    unfold scanner.measured
    generalize m text s = r at hwithin
    cases hwithin with
    | fault hno => exact .fault hno
    | failed => exact .failed
    | value hinv hend => exact .value hinv hend

/-- A call that keeps the invariant and does not fault for a bound of the text. -/
theorem Lines.Reads.call {f : σ → Result (α × σ)} (hkeeps : ∀ s a s', f s = .ok (a, s') →
    L.Inv s → L.Inv s') (hfault : ∀ s, L.Inv s → f s ≠ .error .outOfBounds) :
    L.Tame (call f : Scan σ ε α) := by
  refine .of_moves (fun text s b rest s' h => ?_) fun text s hinv _ h => ?_
  · obtain ⟨⟨a, s1⟩, h1, h2⟩ := bind_eq_ok.mp h
    cases h2
    exact ⟨hkeeps _ _ _ h1, [], rfl, List.not_mem_nil⟩
  · rcases hr : f s with e | ⟨a, s1⟩
    · rw [scanner.call, hr] at h
      exact hfault s hinv (hr.trans (by rw [Except.error.inj h]))
    · rw [scanner.call, hr] at h
      cases h

theorem Lines.Reads.line_closed (L : Lines σ π) :
    LineClosed L.nl fun {ε α} (m : Scan σ ε α) => L.Tame m where
  pure := .pure
  fail := .fail
  bind := .bind
  orFail := .orFail
  peek := .peek
  next_bind hf hnl := .next_bind hf fun _ _ => ⟨_, by rw [hnl]; rfl⟩
  peek_next := .peek_next
  accept := .accept
  skipWhile := .skipWhile
  takeWhile := .takeWhile

end Reads

/-! ## Places that go through the combinators -/

/-- A property of scanners with their places that a scanner has when its parts
have it. -/
structure PlaceClosed (P : ∀ {ε α : Type}, Places σ π → Scan σ ε α → Prop) : Prop where
  bind : ∀ {ε α β : Type} {places : Places σ π} {m : Scan σ ε α} {f : α → Scan σ ε β}, P places m →
    (∀ a, P nowhere (f a)) → P places (m >>= f)
  behind : ∀ {ε α β : Type} {places : α → Places σ π} {m : Scan σ ε α} {f : α → Scan σ ε β},
    P nowhere m → Inert m → (∀ a, P (places a) (f a)) → P (behind m places) (m >>= f)
  orFail : ∀ {ε ε' α : Type} {places : Places σ π} {m : Scan σ ε' α}, P places m →
    ∀ e : ε, P places (orFail m e)
  measured : ∀ {ε α : Type} {places : Places σ π} {m : Scan σ ε α}, P places m →
    P places (measured m)

theorem Lines.Reads.place_closed (L : Lines σ π) :
    PlaceClosed fun {ε α} (places : Places σ π) (m : Scan σ ε α) => L.Reads places m :=
  ⟨.bind, .behind, .orFail, .measured⟩

/-! ## What the places leave in the state -/

/-- `g` holds after the scanner exactly if it did before and no place that the
scanner came to is a hit. It is the same when the scanner fails. -/
def Records (g : σ → Prop) (Hit : π → Prop) (places : Places σ π) (m : Scan σ ε α) : Prop :=
  ∀ text s r s', m text s = .ok (r, s') → (g s' ↔ g s ∧ ∀ x ∈ places text s, ¬ Hit x)

section Records

variable {g : σ → Prop} {Hit : π → Prop} {places : Places σ π}

/-- A scanner that comes to no hit. -/
theorem Records.of_keeps {m : Scan σ ε α} (hm : Keeps g m)
    (hno : ∀ text s, ∀ x ∈ places text s, ¬ Hit x) : Records g Hit places m := by
  intro text s r s' h
  rw [hm _ _ _ _ h, and_iff_left (hno text s)]

theorem Records.nowhere {m : Scan σ ε α} (hm : Keeps g m) : Records g Hit nowhere m :=
  .of_keeps hm fun _ _ _ hx => nomatch hx

theorem Records.keeps {m : Scan σ ε α} (hm : Records g Hit scanner.nowhere m) : Keeps g m := by
  intro text s r s' h
  rw [hm _ _ _ _ h]
  simp [scanner.nowhere]

theorem Records.bind {m : Scan σ ε α} {f : α → Scan σ ε β} (hm : Records g Hit places m)
    (hf : ∀ a, Records g Hit scanner.nowhere (f a)) : Records g Hit places (m >>= f) := by
  intro text s r s' h
  rcases bind_eq_ok_cases h with ⟨e, h1, _⟩ | ⟨a, mid, s1, h1, h2⟩
  · exact hm _ _ _ _ h1
  · rw [(hf a).keeps _ _ _ _ h2]
    exact hm _ _ _ _ h1

theorem Records.behind {P : α → Places σ π} {m : Scan σ ε α} {f : α → Scan σ ε β} (hm : Inert m)
    (hf : ∀ a, Records g Hit (P a) (f a)) : Records g Hit (behind m P) (m >>= f) := by
  intro text s r s' h
  rcases bind_eq_ok_cases h with ⟨e, h1, _⟩ | ⟨a, mid, s1, h1, h2⟩
  · rw [(hm _ _ _ _ h1).1, scanner.behind, h1]
    simp
  · rw [behind_run h1]
    rw [(hm _ _ _ _ h1).1] at h2
    exact hf a _ _ _ _ h2

theorem Records.orFail {m : Scan σ ε' α} (hm : Records g Hit places m) (e : ε) :
    Records g Hit places (orFail m e) := by
  intro text s r s' h
  unfold scanner.orFail at h
  rcases hr : m text s with f | ⟨_ | ⟨a, mid⟩, s1⟩ <;> rw [hr] at h <;> cases h <;>
    exact hm _ _ _ _ hr

theorem Records.measured {m : Scan σ ε α} (hm : Records g Hit places m) :
    Records g Hit places (measured m) := by
  intro text s r s' h
  unfold scanner.measured at h
  rcases hr : m text s with f | ⟨_ | ⟨a, mid⟩, s1⟩ <;> rw [hr] at h <;> cases h <;>
    exact hm _ _ _ _ hr

theorem Records.place_closed (g : σ → Prop) (Hit : π → Prop) :
    PlaceClosed fun {ε α} (places : Places σ π) (m : Scan σ ε α) => Records g Hit places m :=
  ⟨.bind, fun _ => .behind, .orFail, .measured⟩

end Records

end scanner
