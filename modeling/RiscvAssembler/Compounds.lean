-- The parsers that are made of other parsers: a property that goes through the
-- combinators holds of the operands, the directives and the operations when it
-- holds of the registers, the marks, the names, the numbers and the calls of the
-- emitter in them.
import RiscvAssembler.Parser

open checked scanner c_text

namespace riscv_assembler

/-! ## Registers, marks and names -/

/-- A property of the parsers of registers, marks and names. -/
structure OnRegisters {σ : Type} (P : ∀ {ε α : Type}, Scan σ ε α → Prop) : Prop
    extends Closed P where
  reg : P (parse_reg : Scan σ Unit Nat)
  mark : ∀ {ε : Type} {c : Char}, ch '\n' ≠ ch c → P (expect_char_literal c : Scan σ ε Bool)
  identifier : ∀ {ε : Type}, P (str_parse_identifier : Scan σ ε string)

section Registers

variable {σ ε : Type} {P : ∀ {ε α : Type}, Scan σ ε α → Prop}

theorem skip_whitespace_of (h : LineClosed (ch '\n') P) :
    P (skip_whitespace : Scan σ ε Unit) := h.skipWhile rfl

theorem parse_reg_long_number_of (h : LineClosed (ch '\n') P) :
    P (parse_reg_long_number : Scan σ Unit Nat) := by
  refine h.next_bind (e := ()) (fun tens _ => h.check () fun _ => ?_) rfl
  exact h.peek_next rfl (fun _ => h.pure _) fun _ => h.pure _

theorem parse_reg_name_of (h : LineClosed (ch '\n') P) (hliteral : ∀ {expect : String},
    ch '\n' ∉ chars expect → P (expect_literal expect : Scan σ Unit Bool)) (c : UInt8) :
    P (parse_reg_name c : Scan σ Unit Nat) := by
  have hnum : ∀ {p : Nat → Prop} [DecidablePred p] (g : Nat → Nat),
      P (parse_reg_long_number >>= fun res =>
        if p res then fail () else pure (g res) : Scan σ Unit Nat) := fun g =>
    h.bind (parse_reg_long_number_of h) fun _ => h.check () fun _ => h.pure _
  have hname : ∀ (expect : String) (r : Nat), ch '\n' ∉ chars expect →
      P (require (expect_literal expect) () >>= fun _ => pure r : Scan σ Unit Nat) :=
    fun expect r hexpect => h.bind (h.require (hliteral hexpect) ()) fun _ => h.pure r
  -- `sp` and `tp` begin as other registers do
  have hpointer : ∀ {p : Nat → Prop} [DecidablePred p] (r : Nat) (g : Nat → Nat),
      P (expect_literal "p" >>= fun found => if found then pure r else
        parse_reg_long_number >>= fun res =>
          if p res then fail () else pure (g res) : Scan σ Unit Nat) := fun r g =>
    h.bind (hliteral (by decide)) fun _ => h.ite (h.pure r) (hnum g)
  refine h.ite (hnum id) ?_
  refine h.ite (hname "ero" 0 (by decide)) ?_
  refine h.ite (hname "a" 1 (by decide)) ?_
  refine h.ite (hpointer 2 _) ?_
  refine h.ite (hname "p" 3 (by decide)) ?_
  refine h.ite (hpointer 4 _) ?_
  refine h.ite (hnum (· + 10)) ?_
  exact h.ite (hname "p" 8 (by decide)) (h.fail ())

/-- No name of a register goes past a newline. -/
theorem OnRegisters.of_line (h : LineClosed (ch '\n') P) (hliteral : ∀ {expect : String},
    ch '\n' ∉ chars expect → P (expect_literal expect : Scan σ Unit Bool)) : OnRegisters P where
  toClosed := h.toClosed
  reg := by
    refine h.bind (skip_whitespace_of h) fun _ => h.next_bind (e := ()) (fun c _ => ?_) rfl
    refine h.bind (parse_reg_name_of h hliteral c) fun r => h.bind h.peek fun _ => ?_
    exact h.check () fun _ => h.pure r
  mark hc := h.bind (skip_whitespace_of h) fun _ => h.accept hc
  identifier := h.bind (skip_whitespace_of h) fun _ => h.takeWhile rfl

theorem out_check_line_of (h : LineClosed (ch '\n') P) : P (out_check_line : Scan σ String Unit) :=
  h.bind (skip_whitespace_of h) fun _ => h.bind h.peek fun _ => h.check _ fun _ => h.pure ()

namespace OnRegisters

variable (h : OnRegisters P)
include h

theorem reg_comma : P (parse_reg_comma : Scan σ Unit Nat) :=
  h.bind h.reg fun r => h.bind (h.require (h.mark (by decide)) ()) fun _ => h.pure r

theorem reg_reg_reg : P (parse_reg_reg_reg : Scan σ Unit (Nat × Nat × Nat)) :=
  h.bind h.reg_comma fun _ => h.bind h.reg_comma fun _ => h.bind h.reg fun _ => h.pure _

theorem branch_regs : P (parse_branch_regs : Scan σ Unit (Nat × Nat)) :=
  h.bind h.reg_comma fun _ => h.bind h.reg_comma fun _ => h.pure _

theorem label_name : P (parse_label_name : Scan σ String string) :=
  h.bind h.identifier fun _ => h.check _ fun _ =>
    h.bind (h.require (h.mark (by decide)) _) fun _ => h.pure _

end OnRegisters

end Registers

/-! ## Operands -/

section Operands

variable {P : ∀ {ε α : Type}, Parse ε α → Prop}

theorem OnRegisters.label_operand (h : OnRegisters P) : P parse_label_operand :=
  h.bind h.identifier fun _ => h.check _ fun _ => h.pure _

/-- A branch or a jump has no number. -/
theorem OnRegisters.label_operands (h : OnRegisters P) {o : op}
    (ho : formats o = .B_TYPE ∨ formats o = .J_TYPE) : P (parse_operands o) := by
  unfold parse_operands
  rcases ho with ho | ho <;> rw [ho]
  · exact h.bind (h.orFail h.branch_regs _) fun _ => h.bind h.label_operand fun _ => h.pure _
  · exact h.bind (h.orFail h.reg_comma _) fun _ => h.bind h.label_operand fun _ => h.pure _

/-- A property of the parsers of numbers too. -/
structure OnOperands (P : ∀ {ε α : Type}, Parse ε α → Prop) : Prop extends OnRegisters P where
  imm : P parse_imm

namespace OnOperands

variable (h : OnOperands P)
include h

theorem imm12 : P parse_imm12 := h.bind h.imm fun _ => h.check () fun _ => h.pure _

theorem reg_reg_imm : P parse_reg_reg_imm :=
  h.bind h.reg_comma fun _ => h.bind h.reg_comma fun _ => h.bind h.imm12 fun _ => h.pure _

theorem ls_reg_imm_reg : P parse_ls_reg_imm_reg :=
  h.bind h.reg_comma fun _ => h.bind h.imm12 fun _ =>
    h.bind (h.require (h.mark (by decide)) ()) fun _ => h.bind h.reg fun _ =>
      h.bind (h.require (h.mark (by decide)) ()) fun _ => h.pure _

theorem reg_imm20 : P parse_reg_imm20 :=
  h.bind h.reg_comma fun _ => h.bind h.imm fun _ => h.check () fun _ => h.pure _

theorem itype (o : op) : P (parse_itype o) := by
  rcases parse_itype_eq o with heq | heq | ⟨x, heq⟩ <;> rw [heq]
  · exact h.bind (h.orFail h.ls_reg_imm_reg _) fun _ => h.pure _
  · exact h.orFail h.reg_reg_imm _
  · exact h.pure x

theorem operands (o : op) : P (parse_operands o) := by
  by_cases ho : formats o = .B_TYPE ∨ formats o = .J_TYPE
  · exact h.label_operands ho
  · unfold parse_operands
    cases hf : formats o with
    | R_TYPE => exact h.bind (h.orFail h.reg_reg_reg _) fun _ => h.pure _
    | I_TYPE => exact h.bind (h.itype o) fun _ => h.check _ fun _ => h.pure _
    | S_TYPE => exact h.bind (h.orFail h.ls_reg_imm_reg _) fun _ => h.pure _
    | U_TYPE => exact h.bind (h.orFail h.reg_imm20 _) fun _ => h.pure _
    | B_TYPE => exact absurd (Or.inl hf) ho
    | J_TYPE => exact absurd (Or.inr hf) ho

end OnOperands

end Operands

/-! ## Directives -/

/-- A property of the parsers that put bytes into a section too. -/
structure OnDirectives (P : ∀ {ε α : Type}, Parse ε α → Prop) : Prop extends OnOperands P where
  measured : ∀ {ε α : Type} {m : Parse ε α}, P m → P (measured m)
  emit : ∀ {data : List UInt8}, data.length < BUF_SIZE → P (emit data : Parse String Unit)
  advance : ∀ {n : Nat}, n < 2 ^ 32 → P (advance n : Parse String Unit)
  switch : ∀ s : Sect, P (switch_section s : Parse String Unit)

namespace OnDirectives

variable {P : ∀ {ε α : Type}, Parse ε α → Prop} (h : OnDirectives P)
include h

theorem advance_mod (n : Nat) : P (riscv_assembler.advance (n % 4) : Parse String Unit) :=
  h.advance (by omega)

theorem data_element {bytes : Nat} (hb : bytes < BUF_SIZE) : P (parse_data_element bytes) :=
  h.bind (h.orFail h.imm _) fun _ => h.check _ fun _ =>
    h.bind (h.emit (by rwa [machine_int.length_leBytes])) fun _ => h.mark (by decide)

theorem space : P parse_space :=
  h.bind (h.orFail h.imm _) fun _ => h.check _ fun _ => h.advance (by omega)

/-- The loops of the directives are up to the property. -/
theorem directive (hstring : P parse_string_loop) (hdata : ∀ {bytes : Nat}, bytes < BUF_SIZE →
    P (parse_data_loop bytes 0 : Parse String Nat)) (d : directive) : P (parse_directive d) := by
  have harray : ∀ {bytes}, bytes < BUF_SIZE → P (parse_data_array bytes) := fun hb =>
    h.bind (hdata hb) fun _ => h.advance_mod _
  cases d with
  | K_BYTE => exact harray (by decide)
  | K_HALF => exact harray (by decide)
  | K_WORD => exact harray (by decide)
  | K_DWORD => exact harray (by decide)
  | K_TEXT => exact h.switch _
  | K_DATA => exact h.switch _
  | K_ASCII =>
    exact h.bind (h.measured (h.bind (h.require (h.mark (by decide)) _) fun _ => hstring)) fun _ =>
      h.advance_mod _
  | K_SPACE => exact h.space

end OnDirectives

end riscv_assembler
