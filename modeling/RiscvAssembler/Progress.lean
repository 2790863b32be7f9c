-- The parser only moves forward: what is left after any of its functions is an
-- end of the text that it got. The loop of `main` ends for this reason.
import RiscvAssembler.Compounds
import RiscvAssembler.Turns

open checked scanner c_text

namespace riscv_assembler

variable {σ ε α : Type}

/-! ## Operands -/

theorem matchLiteral_used {es text rest : List UInt8} (h : matchLiteral es text = .ok (some rest)) :
    text = es ++ rest := by
  induction es generalizing text with
  | nil =>
    cases h
    rfl
  | cons e es ih =>
    rcases text with _ | ⟨c, text⟩
    · cases h
    · unfold matchLiteral at h
      split at h
      · rename_i hc
        rw [hc, ih h, List.cons_append]
      · cases h

theorem expect_literal.forward (expect : String) :
    Forward (expect_literal expect : Scan σ ε Bool) := by
  intro text s b rest s' h
  obtain ⟨r, hr, h⟩ := bind_eq_ok.mp h
  rcases r with _ | l
  · cases h
    exact List.suffix_rfl
  · cases h
    exact ⟨_, (matchLiteral_used hr).symm⟩

theorem skip_whitespace.forward : Forward (skip_whitespace : Scan σ ε Unit) := .skipWhile _

theorem OnRegisters.forward : OnRegisters (@Forward σ) :=
  .of_line (Forward.line_closed _) fun _ => expect_literal.forward _

theorem OnOperands.forward : OnOperands (@Forward Process) where
  toOnRegisters := .forward
  imm _ _ _ _ _ h := (parse_imm_shortens h).1

/-! ## Directives -/

theorem parse_string_loop.forward : Forward parse_string_loop := by
  intro text p a rest p' h
  refine parse_string_loop_induct (motive := fun text _ => rest <:+ text) (fun rest' heq => ?_)
    (fun _ _ heq => ?_) (fun used text _ _ _ _ ih => ?_) text p h
  · cases heq
    exact List.suffix_cons _ _
  · cases heq
  · exact ih.trans (List.suffix_append used text)

theorem OnDirectives.forward : OnDirectives (@Forward Process) where
  toOnOperands := .forward
  measured := .measured
  emit _ := .call _
  advance _ := .call _
  switch _ := .call _

theorem parse_data_loop.forward {bytes : Nat} (hb : bytes < BUF_SIZE) (k : Nat) :
    Forward (parse_data_loop bytes k : Parse String Nat) := by
  intro text p a rest p' h
  have helement := OnDirectives.forward.data_element hb
  refine parse_data_loop_induct (motive := fun text _ => rest <:+ text) (fun _ _ _ _ heq => ?_)
    (fun text p n mid h1 heq => ?_) (fun text p mid p1 h1 ih => ?_) k text p h
  · cases heq
  · cases heq
    exact helement _ _ _ _ _ h1
  · exact ih.trans (helement _ _ _ _ _ h1)

/-! ## Operations and labels -/

theorem parse_op.forward (o : op) : Forward (parse_op o) := by
  refine (OnOperands.forward.operands o).bind fun x => ?_
  cases x with
  | whole instr => exact .call _
  | label assign instr key => exact (Forward.call _).bind fun _ => .call _

theorem parse_known.forward (operation : Int) : Forward (parse_known operation) := by
  unfold parse_known
  rcases vocable.ofNumber operation with _ | o | d
  · exact .halt _
  · exact parse_op.forward o
  · exact OnDirectives.forward.directive parse_string_loop.forward
      (fun hb => parse_data_loop.forward hb 0) d

theorem parse_label.forward : Forward parse_label :=
  OnRegisters.forward.label_name.bind fun _ => (Forward.call _).bind fun _ => .ite (.fail _) (.pure _)

/-! ## Lines -/

/-- Going back goes to a place that the word was read from. -/
theorem parse_word.forward : Forward (parse_word : Scan σ ε (Option Int)) := by
  intro text s a rest s' h
  rw [parse_word, bind_run_ok cursor_run] at h
  obtain ⟨pos, mid, s1, h1, h⟩ := bind_eq_ok_ok.mp h
  obtain ⟨pos', _, h1⟩ := bind_eq_ok.mp h1
  cases h1
  obtain ⟨here, mid, s1, h1, h⟩ := bind_eq_ok_ok.mp h
  obtain ⟨known, mid', s2, h2, h⟩ := bind_eq_ok_ok.mp h
  cases known with
  | some operation =>
    cases h
    obtain ⟨⟨used, hused, _⟩, _⟩ := trie_walk.moves h2
    have hrest : rest <:+ mid := ⟨used, hused.symm⟩
    exact hrest.trans (Forward.next _ _ _ _ _ h1)
  | none =>
    cases h
    exact List.suffix_rfl

theorem parse_statement.forward : Forward parse_statement := by
  refine parse_word.forward.bind fun known => ?_
  cases known with
  | some operation => exact parse_known.forward operation
  | none => exact parse_label.forward

theorem parse_line.forward : Forward parse_line := by
  intro text p a rest p' h
  rw [parse_line, bind_run_ok cursor_run] at h
  obtain ⟨_, mid, p1, h1, h⟩ := bind_eq_ok_ok.mp h
  obtain ⟨c, mid', p2, h2, h⟩ := bind_eq_ok_ok.mp h
  have hmid := (Forward.peek _ _ _ _ _ h2).trans (skip_whitespace.forward _ _ _ _ _ h1)
  split at h
  · cases h
    exact List.suffix_rfl
  · have hrest : Forward (parse_statement >>= fun _ => out_check_line) :=
      parse_statement.forward.bind fun _ => out_check_line_of (Forward.line_closed _)
    exact (hrest _ _ _ _ _ h).trans hmid

end riscv_assembler
