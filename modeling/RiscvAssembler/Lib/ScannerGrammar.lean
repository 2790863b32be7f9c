-- What a scanner reads of a text that ends with a NUL, as a grammar: the bytes
-- that it moves past and the value that it gives for them.
import RiscvAssembler.Lib.Scanner

open checked

namespace scanner

variable {σ ε ε' α β : Type} {s : σ}

theorem bind_bind {γ : Type} (m : Scan σ ε α) (f : α → Scan σ ε β) (g : β → Scan σ ε γ) :
    ((m >>= f) >>= g) = m >>= fun a => f a >>= g := by
  funext text s
  rcases h : m text s with e | ⟨_ | ⟨a, mid⟩, s'⟩
  · simp only [bind_run, h]
    rfl
  · simp only [bind_run, h]
    rfl
  · simp only [bind_run, h, ok_bind, andThen_ok]

/-- In a text with a NUL the scanner leaves the state as it is, and either fails
or reads bytes before the last NUL that `G` allows with the value. -/
def Recognises (G : List UInt8 → α → Prop) (m : Scan σ ε α) : Prop :=
  ∀ text s, 0 ∈ text →
    (∃ used a rest, text = used ++ rest ∧ 0 ∈ rest ∧ G used a ∧
      m text s = .ok (.ok (a, rest), s)) ∨
    ∃ e, m text s = .ok (.error e, s)

variable {G : List UInt8 → α → Prop}

theorem Recognises.mono {G' : List UInt8 → α → Prop} {m : Scan σ ε α} (hm : Recognises G m)
    (h : ∀ used a, G used a → G' used a) : Recognises G' m := by
  intro text s h0
  rcases hm text s h0 with ⟨used, a, rest, heq, hrest, hg, hrun⟩ | herror
  · exact Or.inl ⟨used, a, rest, heq, hrest, h used a hg, hrun⟩
  · exact Or.inr herror

theorem Recognises.pure {a : α} (h : G [] a) : Recognises G (pure a : Scan σ ε α) :=
  fun text _ h0 => Or.inl ⟨[], a, text, rfl, h0, h, rfl⟩

theorem Recognises.fail (e : ε) : Recognises G (fail e : Scan σ ε α) :=
  fun _ _ _ => Or.inr ⟨e, rfl⟩

/-- Two scanners one after the other read the bytes of one and then of the
other. -/
theorem Recognises.bind {H : List UInt8 → β → Prop} {m : Scan σ ε α} {f : α → Scan σ ε β}
    (hm : Recognises G m)
    (hf : ∀ u a, G u a → Recognises (fun v b => H (u ++ v) b) (f a)) : Recognises H (m >>= f) := by
  intro text s h0
  rcases hm text s h0 with ⟨u, a, mid, rfl, hmid, hg, hrun⟩ | ⟨e, hrun⟩
  · rw [bind_run_ok hrun]
    rcases hf u a hg mid s hmid with ⟨v, b, rest, rfl, hrest, hh, hrun'⟩ | herror
    · exact Or.inl ⟨u ++ v, b, rest, (List.append_assoc u v rest).symm, hrest, hh, hrun'⟩
    · exact Or.inr herror
  · exact Or.inr ⟨e, bind_run_error hrun⟩

theorem Recognises.require {m : Scan σ ε Bool} {H : List UInt8 → Unit → Prop}
    (hm : Recognises (fun used b => b = true → H used ()) m) (e : ε) :
    Recognises H (require m e) := by
  refine hm.bind fun u b hb => ?_
  cases b with
  | false => exact .fail e
  | true => exact .pure (by simpa using hb rfl)

/-- A byte is read and chooses what comes next. A NUL chooses a failure. -/
theorem Recognises.next_bind {f : UInt8 → Scan σ ε α} {e : ε} (h0 : f 0 = scanner.fail e)
    (hf : ∀ c, c ≠ 0 → Recognises (fun v a => G (c :: v) a) (f c)) :
    Recognises G (next >>= f) := by
  rintro (_ | ⟨c, text⟩) s hmem
  · cases hmem
  rw [bind_run_ok (next_cons c)]
  by_cases hc : c = 0
  · subst hc
    exact Or.inr ⟨e, by rw [h0]; rfl⟩
  · have hrest : 0 ∈ text := (List.mem_cons.mp hmem).resolve_left (Ne.symm hc)
    rcases hf c hc text s hrest with ⟨v, a, rest, rfl, hrest, hg, hrun⟩ | herror
    · exact Or.inl ⟨c :: v, a, rest, rfl, hrest, hg, hrun⟩
    · exact Or.inr herror

/-- A byte is looked at, and read when `p` holds of it. -/
theorem Recognises.peek_next {p : UInt8 → Bool} {f g : UInt8 → Scan σ ε α} (hp : p 0 = false)
    (hf : ∀ c, p c = true → Recognises (fun v a => G (c :: v) a) (f c))
    (hg : ∀ c, Recognises G (g c)) : Recognises G (do
      let c ← peek
      if p c then do
        let c ← next
        f c
      else g c) := by
  rintro (_ | ⟨c, text⟩) s hmem
  · cases hmem
  rw [bind_run_ok (peek_cons c)]
  by_cases hc : p c = true
  · rw [if_pos hc, bind_run_ok (next_cons c)]
    have hrest : 0 ∈ text := by
      refine (List.mem_cons.mp hmem).resolve_left fun h0 => ?_
      rw [← h0, hp] at hc
      cases hc
    rcases hf c hc text s hrest with ⟨v, a, rest, rfl, hrest, hg, hrun⟩ | herror
    · exact Or.inl ⟨c :: v, a, rest, rfl, hrest, hg, hrun⟩
    · exact Or.inr herror
  · rw [if_neg hc]
    exact hg c (c :: text) s hmem

theorem Recognises.skipWhile {p : UInt8 → Bool} (hp : p 0 = false) :
    Recognises (fun used _ => ∀ c ∈ used, p c = true) (skipWhile p : Scan σ ε Unit) := by
  intro text s h0
  have hsplit : text = text.takeWhile p ++ text.dropWhile p := List.takeWhile_append_dropWhile.symm
  have hused : ∀ c ∈ text.takeWhile p, p c = true :=
    fun c hc => List.all_eq_true.mp List.all_takeWhile c hc
  have hrest : 0 ∈ text.dropWhile p := by
    rw [hsplit] at h0
    refine (List.mem_append.mp h0).resolve_left fun hmem => ?_
    rw [hused 0 hmem] at hp
    cases hp
  refine Or.inl ⟨_, (), _, hsplit, hrest, hused, ?_⟩
  have hhead := List.head?_dropWhile_not p text
  rcases hdrop : text.dropWhile p with _ | ⟨c, rest⟩
  · rw [hdrop] at hrest
    cases hrest
  · rw [hdrop] at hhead hsplit
    conv_lhs => rw [hsplit]
    exact skipWhile_append hused (by simpa using hhead)

end scanner
