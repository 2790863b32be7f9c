-- Register operands: `parse_reg` reads the register names, each up to the first
-- byte that is no part of an identifier, and nothing else.
import RiscvAssembler.Lib.ScannerGrammar
import RiscvAssembler.Operands
import RiscvAssembler.Progress

open checked scanner c_text

namespace riscv_assembler

variable {σ ε : Type}

theorem matchLiteral_total {es text : List UInt8} (hes : 0 ∉ es) (h0 : 0 ∈ text) :
    ∃ r, matchLiteral es text = .ok r ∧ ∀ rest, r = some rest → 0 ∈ rest := by
  induction es generalizing text with
  | nil => exact ⟨some text, rfl, fun rest h => Option.some.inj h ▸ h0⟩
  | cons e es ih =>
    rcases text with _ | ⟨c, text⟩
    · cases h0
    · rw [List.mem_cons, not_or] at hes
      unfold matchLiteral
      split
      · rename_i hc
        exact ih hes.2 ((List.mem_cons.mp h0).resolve_left fun h => hes.1 (h.trans hc))
      · exact ⟨none, rfl, fun rest h => by cases h⟩

theorem expect_literal.recognises {expect : String} (h : 0 ∉ chars expect) :
    Recognises (fun used found => used = if found then chars expect else [])
      (expect_literal expect : Scan σ ε Bool) := by
  intro text s h0
  obtain ⟨r, hr, hrest⟩ := matchLiteral_total h h0
  refine Or.inl ?_
  unfold expect_literal
  rw [hr, ok_bind]
  cases r with
  | none => exact ⟨[], false, text, rfl, h0, rfl, rfl⟩
  | some rest => exact ⟨_, true, rest, matchLiteral_used hr, hrest rest rfl, rfl, rfl⟩

theorem parse_reg_long_number.recognises :
    Recognises ShortNumber (parse_reg_long_number : Scan σ Unit Nat) := by
  unfold parse_reg_long_number
  refine .next_bind rfl fun tens _ => ?_
  split
  · exact .fail ()
  · rename_i ht
    rw [not_not] at ht
    exact .peek_next rfl (fun ones ho => .pure (.two ht ho)) fun ones => .pure (.one ht)

/-- A number up to `top` becomes a register. -/
theorem numbered_recognises (c : UInt8) (top : Nat) (f : Nat → Nat)
    (h : ∀ used n, ShortNumber used n → n ≤ top → RegName (c :: used) (f n)) :
    Recognises (fun used r => RegName (c :: used) r) (do
      let res ← (parse_reg_long_number : Scan σ Unit Nat)
      if res > top then fail () else pure (f res)) := by
  refine parse_reg_long_number.recognises.bind fun used n hn => ?_
  split
  · exact .fail ()
  · refine .pure ?_
    simpa using h used n hn (by omega)

/-- A name that is spelled out. -/
theorem spelled_recognises (c : UInt8) (expect : String) (r : Nat) (h0 : 0 ∉ chars expect)
    (h : RegName (c :: chars expect) r) :
    Recognises (fun used n => RegName (c :: used) n) (do
      require (expect_literal expect : Scan σ Unit Bool) ()
      pure r) := by
  refine Recognises.bind (G := fun used _ => used = chars expect) ?_ fun used _ hused => ?_
  · refine .require ((expect_literal.recognises h0).mono fun used found hused hfound => ?_) ()
    rw [hused, hfound]
    rfl
  · refine .pure ?_
    simpa [hused] using h

/-- A name that is spelled out, or else a number. -/
theorem spelled_or_numbered_recognises (c : UInt8) (expect : String) (r top : Nat) (f : Nat → Nat)
    (h0 : 0 ∉ chars expect) (hname : RegName (c :: chars expect) r)
    (hnumber : ∀ used n, ShortNumber used n → n ≤ top → RegName (c :: used) (f n)) :
    Recognises (fun used n => RegName (c :: used) n) (do
      let found ← (expect_literal expect : Scan σ Unit Bool)
      if found then pure r
      else do
        let res ← parse_reg_long_number
        if res > top then fail () else pure (f res)) := by
  refine (expect_literal.recognises h0).bind fun used found hused => ?_
  cases found with
  | false =>
    simp only [Bool.false_eq_true, if_false] at hused ⊢
    subst hused
    exact numbered_recognises c top f hnumber
  | true =>
    refine .pure ?_
    simpa [hused] using hname

/-- The switch over the first character reads the rest of a register name. -/
theorem parse_reg_name.recognises (c : UInt8) :
    Recognises (fun used r => RegName (c :: used) r) (parse_reg_name c : Scan σ Unit Nat) := by
  unfold parse_reg_name
  split
  · subst c
    exact numbered_recognises _ 31 id fun _ _ => .x
  split
  · subst c
    exact spelled_recognises _ "ero" 0 (by decide) .zero
  split
  · subst c
    exact spelled_recognises _ "a" 1 (by decide) .ra
  split
  · subst c
    exact spelled_or_numbered_recognises _ "p" 2 11 (fun n => if n < 2 then n + 8 else n + 16)
      (by decide) .sp fun _ _ => .s
  split
  · subst c
    exact spelled_recognises _ "p" 3 (by decide) .gp
  split
  · subst c
    exact spelled_or_numbered_recognises _ "p" 4 6 (fun n => if n < 3 then n + 5 else n + 25)
      (by decide) .tp fun _ _ => .t
  split
  · subst c
    exact numbered_recognises _ 7 (· + 10) fun _ _ => .a
  split
  · subst c
    exact spelled_recognises _ "p" 8 (by decide) .fp
  · exact .fail ()

/-- After blanks the text has the name of register `r`, and behind it `rest`,
which starts with a byte that ends an identifier. -/
def RegAt (text : List UInt8) (r : Nat) (rest : List UInt8) : Prop :=
  ∃ blanks name c tail, Blanks blanks ∧ RegName name r ∧ identifier c = false ∧
    rest = c :: tail ∧ text = blanks ++ (name ++ rest)

theorem RegAt.parse_reg {text rest : List UInt8} {r : Nat} (h : RegAt text r rest) (s : σ) :
    parse_reg text s = .ok (.ok (r, rest), s) := by
  obtain ⟨blanks, name, c, tail, hb, hname, hc, rfl, rfl⟩ := h
  exact parse_reg.spec hb hname hc tail s

/-- `parse_reg` reads a register name or fails. -/
theorem parse_reg.total {text : List UInt8} (h0 : 0 ∈ text) (s : σ) :
    (∃ r rest, RegAt text r rest ∧ parse_reg text s = .ok (.ok (r, rest), s)) ∨
      parse_reg text s = .ok (.error (), s) := by
  have hname : Recognises (fun used r => ∃ blanks name, used = blanks ++ name ∧
      Blanks blanks ∧ RegName name r) (do
        (skip_whitespace : Scan σ Unit Unit)
        let c ← next
        parse_reg_name c) := by
    refine (Recognises.skipWhile rfl).bind fun blanks _ hb => ?_
    refine .next_bind (e := ()) rfl fun c _ => ?_
    exact (parse_reg_name.recognises c).mono fun used r hr => ⟨blanks, c :: used, rfl, hb, hr⟩
  have hsplit : (riscv_assembler.parse_reg : Scan σ Unit Nat) text s = ((do
      (skip_whitespace : Scan σ Unit Unit)
      let c ← next
      parse_reg_name c) >>= fun r => do
        let after ← peek
        if identifier after then fail () else pure r) text s := by
    unfold riscv_assembler.parse_reg
    simp only [scanner.bind_bind]
  rw [hsplit]
  rcases hname text s h0 with ⟨used, r, rest, rfl, hrest, ⟨blanks, name, rfl, hb, hr⟩, hrun⟩ |
    ⟨e, hrun⟩
  · rw [bind_run_ok hrun]
    rcases rest with _ | ⟨c, tail⟩
    · cases hrest
    rw [bind_run_ok (peek_cons c)]
    by_cases hc : identifier c = true
    · rw [if_pos hc]
      exact Or.inr rfl
    · rw [if_neg hc]
      refine Or.inl ⟨r, c :: tail, ⟨blanks, name, c, tail, hb, hr, by simpa using hc, rfl, ?_⟩, rfl⟩
      rw [List.append_assoc]
  · exact Or.inr (bind_run_error hrun)

/-- `parse_reg` reads a text exactly as a register name that is followed by no
more of an identifier, and gives the number of that register. If the text has no
such name it fails, and the cursor of the caller stays where it was. -/
theorem parse_reg_reads_exactly_the_register_names (text : List UInt8) (h0 : 0 ∈ text) (s : σ) :
    (∀ r rest, parse_reg text s = .ok (.ok (r, rest), s) ↔ RegAt text r rest) ∧
    (∀ r rest, RegAt text r rest → r < 32) ∧
    ((¬ ∃ r rest, RegAt text r rest) → parse_reg text s = .ok (.error (), s)) := by
  refine ⟨fun r rest => ⟨fun h => ?_, fun h => h.parse_reg s⟩, ?_, fun hno => ?_⟩
  · rcases parse_reg.total h0 s with ⟨r', rest', hat, hrun⟩ | hrun
    · rw [hrun] at h
      cases h
      exact hat
    · rw [hrun] at h
      cases h
  · rintro r rest ⟨_, name, _, _, _, hname, _⟩
    exact hname.lt
  · rcases parse_reg.total h0 s with ⟨r, rest, hat, _⟩ | hrun
    · exact absurd ⟨r, rest, hat⟩ hno
    · exact hrun

/-- `t02` after a blank, with a comma behind it. -/
theorem t02_is_read_as_register_7 :
    (parse_reg : Scan Unit Unit Nat) ([ch ' ', ch 't', ch '0', ch '2', ch ',', 0]) () =
      .ok (.ok (7, [ch ',', 0]), ()) := by
  have hname : RegName [ch 't', ch '0', ch '2'] 7 := .t (.two rfl rfl) (by decide)
  refine ((parse_reg_reads_exactly_the_register_names _ (by decide) ()).1 7 [ch ',', 0]).mpr ?_
  exact ⟨[ch ' '], _, ch ',', [0], by unfold Blanks; decide, hname, by decide, rfl, rfl⟩

end riscv_assembler
