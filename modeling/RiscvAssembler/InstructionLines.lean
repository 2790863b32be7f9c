-- The lines of the instructions without labels, in any spelling, and what
-- `parse_line` does with one: it emits the word that decodes to the instruction,
-- or it rejects the line for its immediate.
import RiscvAssembler.Encoding
import RiscvAssembler.Operands
import RiscvAssembler.Turns

open checked scanner c_text

namespace riscv_assembler

/-! ## The spelling of a line -/

/-- Tokens one after the other, each after blanks of its own, with blanks after
the last one. -/
inductive Padded : List (List UInt8) → List UInt8 → Prop
  | done {p : List UInt8} : Blanks p → Padded [] p
  | token {p t text : List UInt8} {ts : List (List UInt8)} :
      Blanks p → Padded ts text → Padded (t :: ts) (p ++ (t ++ text))

/-- The mnemonic and the operands of an instruction. Only the operands are any
text that the grammar of registers and literals allows. -/
inductive Tokens : String → List (List UInt8) → Instr → Prop
  | reg {m : String} {o : op} {t0 t1 t2 : List UInt8} {rd rs1 rs2 : Nat} :
      (m, vocable.op o) ∈ vocabulary → formats o = .R_TYPE →
      RegName t0 rd → RegName t1 rs1 → RegName t2 rs2 →
      Tokens m [t0, [ch ','], t1, [ch ','], t2] (.reg o rd rs1 rs2)
  | imm {m : String} {o : op} {t0 t1 t2 : List UInt8} {rd rs1 : Nat} {v : Int} :
      (m, vocable.op o) ∈ vocabulary → formats o = .I_TYPE →
      o ∉ [op.ECALL, op.EBREAK, op.LB, op.LH, op.LW, op.LBU, op.LHU] →
      RegName t0 rd → RegName t1 rs1 → Literal t2 v →
      Tokens m [t0, [ch ','], t1, [ch ','], t2] (.imm o rd rs1 v)
  | load {m : String} {o : op} {t0 t1 t2 : List UInt8} {rd rs1 : Nat} {v : Int} :
      (m, vocable.op o) ∈ vocabulary → o ∈ [op.LB, op.LH, op.LW, op.LBU, op.LHU] →
      RegName t0 rd → Literal t1 v → RegName t2 rs1 →
      Tokens m [t0, [ch ','], t1, [ch '('], t2, [ch ')']] (.imm o rd rs1 v)
  | store {m : String} {o : op} {t0 t1 t2 : List UInt8} {rs2 rs1 : Nat} {v : Int} :
      (m, vocable.op o) ∈ vocabulary → formats o = .S_TYPE →
      RegName t0 rs2 → Literal t1 v → RegName t2 rs1 →
      Tokens m [t0, [ch ','], t1, [ch '('], t2, [ch ')']] (.store o rs2 v rs1)
  | upper {m : String} {o : op} {t0 t1 : List UInt8} {rd : Nat} {v : Int} :
      (m, vocable.op o) ∈ vocabulary → formats o = .U_TYPE →
      RegName t0 rd → Literal t1 v → Tokens m [t0, [ch ','], t1] (.upper o rd v)
  | system {m : String} {o : op} :
      (m, vocable.op o) ∈ vocabulary → o ∈ [op.ECALL, op.EBREAK] → Tokens m [] (.system o)

/-- A line up to its newline. At least one blank parts the mnemonic from the
first operand. -/
inductive Line : List UInt8 → Instr → Prop
  | mk {p text : List UInt8} {m : String} {ts : List (List UInt8)} {i : Instr} :
      Blanks p → Tokens m ts i → Padded ts text →
      (ts ≠ [] → ∃ b rest, text = b :: rest ∧ whitespace b = true) →
      Line (p ++ (chars m ++ text)) i

/-- The immediate is one that the operation has room for. -/
def Instr.InRange : Instr → Prop
  | .imm o _ _ v => if is_shift o then 0 ≤ v ∧ v ≤ 31 else -2048 ≤ v ∧ v ≤ 2047
  | .store _ _ v _ => -2048 ≤ v ∧ v ≤ 2047
  | .upper _ _ v => 0 ≤ v ∧ v ≤ 1048575
  | _ => True

/-! ## Reading padded tokens -/

/-- The text after a register or a literal starts with a mark, a blank or the
newline. -/
def MarkFirst (ts : List (List UInt8)) : Prop :=
  ts = [] ∨ ∃ m rest, ts = [m] :: rest ∧ identifier m = false

theorem Padded.head {ts : List (List UInt8)} {text : List UInt8} (h : Padded ts text)
    (hts : MarkFirst ts) (rest : List UInt8) :
    ∃ c after, text ++ ch '\n' :: rest = c :: after ∧ identifier c = false := by
  have hblank : ∀ c, whitespace c = true → identifier c = false := forall_byte (by decide +kernel)
  have hstart : ∀ (p : List UInt8) (c : UInt8) (l : List UInt8), Blanks p → identifier c = false →
      ∃ d after, p ++ c :: l = d :: after ∧ identifier d = false := by
    intro p c l hp hc
    rcases p with _ | ⟨d, p⟩
    · exact ⟨c, l, rfl, hc⟩
    · exact ⟨d, _, rfl, hblank d (hp d List.mem_cons_self)⟩
  rcases h with hp | ⟨hp, h⟩
  · exact hstart _ _ _ hp (by decide)
  · rcases hts with hts | ⟨m, ts', hts, hm⟩
    · cases hts
    · cases hts
      rw [List.append_assoc, List.append_assoc]
      exact hstart _ _ _ hp hm

theorem not_identifier_not_digit : ∀ c, identifier c = false → digitValue c = none :=
  forall_byte (by decide +kernel)

variable {σ ε : Type}

theorem Padded.reg {ts : List (List UInt8)} {t text : List UInt8} {r : Nat}
    (h : Padded (t :: ts) text) (hts : MarkFirst ts) (ht : RegName t r) (rest : List UInt8) (s : σ) :
    ∃ after, Padded ts after ∧ parse_reg (text ++ ch '\n' :: rest) s =
      .ok (.ok (r, after ++ ch '\n' :: rest), s) := by
  rcases h with _ | ⟨hp, h⟩
  obtain ⟨c, l, heq, hc⟩ := h.head hts rest
  refine ⟨_, h, ?_⟩
  rw [List.append_assoc, List.append_assoc, heq]
  exact parse_reg.spec hp ht hc l s

theorem Padded.mark {ts : List (List UInt8)} {text : List UInt8} {c : Char}
    (h : Padded ([ch c] :: ts) text) (hc : whitespace (ch c) = false) (rest : List UInt8) (s : σ) :
    ∃ after, Padded ts after ∧
      (expect_char_literal c : Scan σ ε Bool) (text ++ ch '\n' :: rest) s =
        .ok (.ok (true, after ++ ch '\n' :: rest), s) := by
  rcases h with _ | ⟨hp, h⟩
  refine ⟨_, h, ?_⟩
  rw [List.append_assoc]
  exact expect_char_literal.spec hp hc _ s

theorem Padded.reg_comma {ts : List (List UInt8)} {t text : List UInt8} {r : Nat}
    (h : Padded (t :: [ch ','] :: ts) text) (ht : RegName t r) (rest : List UInt8) (s : σ) :
    ∃ after, Padded ts after ∧ parse_reg_comma (text ++ ch '\n' :: rest) s =
      .ok (.ok (r, after ++ ch '\n' :: rest), s) := by
  obtain ⟨mid, hmid, hreg⟩ := h.reg (Or.inr ⟨_, _, rfl, by decide⟩) ht rest s
  obtain ⟨after, hafter, hmark⟩ := hmid.mark (ε := Unit) (by decide) rest s
  refine ⟨after, hafter, ?_⟩
  rw [parse_reg_comma, bind_run_ok hreg, bind_run_ok (require_run_true hmark)]
  rfl

/-- A literal that is read in place, with what reading it gives. -/
theorem Padded.literal {ts : List (List UInt8)} {t text : List UInt8}
    (h : Padded (t :: ts) text) (hts : MarkFirst ts) (rest : List UInt8) :
    ∃ p c l after, Padded ts after ∧ Blanks p ∧ digitValue c = none ∧
      after ++ ch '\n' :: rest = c :: l ∧ text ++ ch '\n' :: rest = p ++ (t ++ c :: l) := by
  rcases h with _ | ⟨hp, h⟩
  obtain ⟨c, l, heq, hc⟩ := h.head hts rest
  exact ⟨_, c, l, _, h, hp, not_identifier_not_digit c hc, heq, by
    rw [List.append_assoc, List.append_assoc, heq]⟩

/-- An immediate of 12 bits: read if it fits, else a failure that leaves the
emitter. -/
theorem Padded.imm12 {ts : List (List UInt8)} {t text : List UInt8} {v : Int}
    (h : Padded (t :: ts) text) (hts : MarkFirst ts) (ht : Literal t v) (rest : List UInt8)
    (em : emitter) :
    (-2048 ≤ v ∧ v ≤ 2047 → ∃ after, Padded ts after ∧
      parse_imm12 (text ++ ch '\n' :: rest) ⟨0, em⟩ =
        .ok (.ok (BitVec.ofInt 32 v, after ++ ch '\n' :: rest), ⟨0, em⟩)) ∧
      (¬ (-2048 ≤ v ∧ v ≤ 2047) → ∃ errno,
        parse_imm12 (text ++ ch '\n' :: rest) ⟨0, em⟩ = .ok (.error (), ⟨errno, em⟩)) := by
  obtain ⟨p, c, l, after, hafter, hp, hc, heq, htext⟩ := h.literal hts rest
  obtain ⟨hin, hout⟩ := parse_imm12.spec hp ht hc l em
  rw [htext]
  exact ⟨fun hv => ⟨after, hafter, by rw [hin hv, heq]⟩, hout⟩

theorem Padded.end_of_line {text : List UInt8} (h : Padded [] text) (rest : List UInt8) (s : σ) :
    out_check_line (text ++ ch '\n' :: rest) s = .ok (.ok ((), ch '\n' :: rest), s) := by
  cases h with
  | done hp =>
    rw [out_check_line, bind_run_ok (skip_whitespace_run hp (by decide) rest s),
      bind_run_ok (peek_cons _), if_neg (by decide)]
    rfl

theorem Padded.reg_reg_reg {t0 t1 t2 text : List UInt8} {r0 r1 r2 : Nat}
    (h : Padded [t0, [ch ','], t1, [ch ','], t2] text) (h0 : RegName t0 r0) (h1 : RegName t1 r1)
    (h2 : RegName t2 r2) (rest : List UInt8) (s : σ) :
    ∃ after, Padded [] after ∧ parse_reg_reg_reg (text ++ ch '\n' :: rest) s =
      .ok (.ok ((r0, r1, r2), after ++ ch '\n' :: rest), s) := by
  obtain ⟨u1, hu1, hrun0⟩ := h.reg_comma h0 rest s
  obtain ⟨u2, hu2, hrun1⟩ := hu1.reg_comma h1 rest s
  obtain ⟨u3, hu3, hrun2⟩ := hu2.reg (Or.inl rfl) h2 rest s
  refine ⟨u3, hu3, ?_⟩
  rw [parse_reg_reg_reg, bind_run_ok hrun0, bind_run_ok hrun1, bind_run_ok hrun2]
  rfl

theorem Padded.reg_reg_imm {t0 t1 t2 text : List UInt8} {r0 r1 : Nat} {v : Int}
    (h : Padded [t0, [ch ','], t1, [ch ','], t2] text) (h0 : RegName t0 r0) (h1 : RegName t1 r1)
    (h2 : Literal t2 v) (rest : List UInt8) (em : emitter) :
    (-2048 ≤ v ∧ v ≤ 2047 → ∃ after, Padded [] after ∧
      parse_reg_reg_imm (text ++ ch '\n' :: rest) ⟨0, em⟩ =
        .ok (.ok ((r0, r1, BitVec.ofInt 32 v), after ++ ch '\n' :: rest), ⟨0, em⟩)) ∧
      (¬ (-2048 ≤ v ∧ v ≤ 2047) → ∃ errno,
        parse_reg_reg_imm (text ++ ch '\n' :: rest) ⟨0, em⟩ = .ok (.error (), ⟨errno, em⟩)) := by
  obtain ⟨u1, hu1, hrun0⟩ := h.reg_comma h0 rest (⟨0, em⟩ : Process)
  obtain ⟨u2, hu2, hrun1⟩ := hu1.reg_comma h1 rest (⟨0, em⟩ : Process)
  obtain ⟨hin, hout⟩ := hu2.imm12 (Or.inl rfl) h2 rest em
  rw [parse_reg_reg_imm, bind_run_ok hrun0, bind_run_ok hrun1]
  refine ⟨fun hv => ?_, fun hv => ?_⟩
  · obtain ⟨u3, hu3, hrun2⟩ := hin hv
    exact ⟨u3, hu3, by rw [bind_run_ok hrun2]; rfl⟩
  · obtain ⟨errno, hrun2⟩ := hout hv
    exact ⟨errno, bind_run_error hrun2⟩

theorem Padded.ls_reg_imm_reg {t0 t1 t2 text : List UInt8} {r0 r1 : Nat} {v : Int}
    (h : Padded [t0, [ch ','], t1, [ch '('], t2, [ch ')']] text) (h0 : RegName t0 r0)
    (h1 : Literal t1 v) (h2 : RegName t2 r1) (rest : List UInt8) (em : emitter) :
    (-2048 ≤ v ∧ v ≤ 2047 → ∃ after, Padded [] after ∧
      parse_ls_reg_imm_reg (text ++ ch '\n' :: rest) ⟨0, em⟩ =
        .ok (.ok ((r0, BitVec.ofInt 32 v, r1), after ++ ch '\n' :: rest), ⟨0, em⟩)) ∧
      (¬ (-2048 ≤ v ∧ v ≤ 2047) → ∃ errno,
        parse_ls_reg_imm_reg (text ++ ch '\n' :: rest) ⟨0, em⟩ = .ok (.error (), ⟨errno, em⟩)) := by
  obtain ⟨u1, hu1, hrun0⟩ := h.reg_comma h0 rest (⟨0, em⟩ : Process)
  obtain ⟨hin, hout⟩ := hu1.imm12 (Or.inr ⟨_, _, rfl, by decide⟩) h1 rest em
  rw [parse_ls_reg_imm_reg, bind_run_ok hrun0]
  refine ⟨fun hv => ?_, fun hv => ?_⟩
  · obtain ⟨u2, hu2, hrun1⟩ := hin hv
    obtain ⟨u3, hu3, hopen⟩ := hu2.mark (ε := Unit) (by decide) rest (⟨0, em⟩ : Process)
    obtain ⟨u4, hu4, hrun2⟩ := hu3.reg (Or.inr ⟨_, _, rfl, by decide⟩) h2 rest (⟨0, em⟩ : Process)
    obtain ⟨u5, hu5, hclose⟩ := hu4.mark (ε := Unit) (by decide) rest (⟨0, em⟩ : Process)
    refine ⟨u5, hu5, ?_⟩
    rw [bind_run_ok hrun1, bind_run_ok (require_run_true hopen), bind_run_ok hrun2,
      bind_run_ok (require_run_true hclose)]
    rfl
  · obtain ⟨errno, hrun1⟩ := hout hv
    exact ⟨errno, bind_run_error hrun1⟩

theorem Padded.reg_imm20 {t0 t1 text : List UInt8} {r0 : Nat} {v : Int}
    (h : Padded [t0, [ch ','], t1] text) (h0 : RegName t0 r0) (h1 : Literal t1 v)
    (rest : List UInt8) (em : emitter) :
    (0 ≤ v ∧ v ≤ 1048575 → ∃ after, Padded [] after ∧
      parse_reg_imm20 (text ++ ch '\n' :: rest) ⟨0, em⟩ =
        .ok (.ok ((r0, v), after ++ ch '\n' :: rest), ⟨0, em⟩)) ∧
      (¬ (0 ≤ v ∧ v ≤ 1048575) → ∃ errno,
        parse_reg_imm20 (text ++ ch '\n' :: rest) ⟨0, em⟩ = .ok (.error (), ⟨errno, em⟩)) := by
  obtain ⟨u, hu, hreg⟩ := h.reg_comma h0 rest (⟨0, em⟩ : Process)
  obtain ⟨p, c, l, after, hafter, hp, hc, heq, htext⟩ := hu.literal (Or.inl rfl) rest
  have himm := parse_imm.spec hp h1 hc l em
  rw [← htext] at himm
  have hmin : LLONG_MIN = -9223372036854775808 := rfl
  have hmax : LLONG_MAX = 9223372036854775807 := rfl
  rw [parse_reg_imm20, bind_run_ok hreg]
  refine ⟨fun hv => ?_, fun hv => ?_⟩
  · rw [if_pos (by omega)] at himm
    exact ⟨after, hafter, by rw [bind_run_ok himm, if_neg (by omega), heq]; rfl⟩
  · by_cases hfit : LLONG_MIN ≤ v ∧ v ≤ LLONG_MAX
    · rw [if_pos hfit] at himm
      exact ⟨0, by rw [bind_run_ok himm, if_pos (by omega)]; rfl⟩
    · rw [if_neg hfit] at himm
      exact ⟨ERANGE, bind_run_error himm⟩

/-! ## Reading the operands of an instruction -/

/-- What `parse_operands` gives for an instruction in range: a word that decodes
to it. -/
def ReadsWord (o : op) (i : Instr) (text rest : List UInt8) (em : emitter) : Prop :=
  ∃ w after, decode w = some i ∧ Padded [] after ∧
    parse_operands o (text ++ ch '\n' :: rest) ⟨0, em⟩ =
      .ok (.ok (.whole w, after ++ ch '\n' :: rest), ⟨0, em⟩)

/-- What it gives for one out of range. -/
def Rejects (o : op) (text rest : List UInt8) (em : emitter) : Prop :=
  ∃ err errno, parse_operands o (text ++ ch '\n' :: rest) ⟨0, em⟩ =
    .ok (.error err, ⟨errno, em⟩)

theorem reads_rtype {o : op} (ho : formats o = .R_TYPE) {t0 t1 t2 text : List UInt8}
    {r0 r1 r2 : Nat} (h : Padded [t0, [ch ','], t1, [ch ','], t2] text) (h0 : RegName t0 r0)
    (h1 : RegName t1 r1) (h2 : RegName t2 r2) (rest : List UInt8) (em : emitter) :
    ReadsWord o (.reg o r0 r1 r2) text rest em := by
  obtain ⟨u, hu, hrun⟩ := h.reg_reg_reg h0 h1 h2 rest (⟨0, em⟩ : Process)
  refine ⟨_, u, decode_rtype ho h0.lt h1.lt h2.lt, hu, ?_⟩
  simp only [parse_operands, ho]
  rw [bind_run_ok (orFail_run_ok hrun)]
  rfl

theorem parse_itype_imm {o : op} (ho : formats o = .I_TYPE)
    (hnot : o ∉ [op.ECALL, op.EBREAK, op.LB, op.LH, op.LW, op.LBU, op.LHU]) :
    parse_itype o = orFail parse_reg_reg_imm
      "could not parse register, register, immediate required for this operation" := by
  cases o <;> first | exact absurd (by decide) hnot | rfl

theorem parse_itype_load {o : op} (ho : o ∈ [op.LB, op.LH, op.LW, op.LBU, op.LHU]) :
    parse_itype o = (do
      let (t0, t2, t1) ← orFail parse_ls_reg_imm_reg
        "could not parse register, immediate(register) required for this operation"
      pure (t0, t1, t2)) := by
  cases o <;> first | rfl | exact absurd ho (by decide)

/-- The unsigned test of a shift amount. -/
theorem shift_amount_test {v : Int} (h : -2048 ≤ v ∧ v ≤ 2047) :
    (BitVec.ofInt 32 v).toNat > 31 ↔ ¬ (0 ≤ v ∧ v ≤ 31) := by
  rw [BitVec.toNat_ofInt]
  omega

theorem instr_imm_inRange_of_not_shift {o : op} {rd rs1 : Nat} {v : Int} (ho : is_shift o = false) :
    (Instr.imm o rd rs1 v).InRange ↔ -2048 ≤ v ∧ v ≤ 2047 := by
  simp [Instr.InRange, ho]

/-- The end of the I-type branch, once the operands are read. -/
theorem reads_itype_of {o : op} (ho : formats o = .I_TYPE) (hno : o ≠ .ECALL ∧ o ≠ .EBREAK)
    {text rest after : List UInt8} {r0 r1 : Nat} {v : Int} {em : emitter} (hafter : Padded [] after)
    (h0 : r0 < 32) (h1 : r1 < 32) (hv : -2048 ≤ v ∧ v ≤ 2047)
    (hrun : parse_itype o (text ++ ch '\n' :: rest) ⟨0, em⟩ =
      .ok (.ok ((r0, r1, BitVec.ofInt 32 v), after ++ ch '\n' :: rest), ⟨0, em⟩)) :
    ((Instr.imm o r0 r1 v).InRange → ReadsWord o (.imm o r0 r1 v) text rest em) ∧
      (¬ (Instr.imm o r0 r1 v).InRange → Rejects o text rest em) := by
  unfold ReadsWord Rejects
  simp only [parse_operands, ho]
  rw [bind_run_ok hrun]
  simp only
  by_cases hs : is_shift o = true
  · simp only [Instr.InRange, hs, if_true, true_and, shift_amount_test hv]
    refine ⟨fun hin => ⟨_, after, decode_shift hs h0 h1 hin.1 hin.2, hafter, ?_⟩, fun hout => ?_⟩
    · rw [if_neg (not_not.mpr hin)]
      rfl
    · rw [if_pos hout]
      exact ⟨_, 0, rfl⟩
  · rw [Bool.not_eq_true] at hs
    rw [instr_imm_inRange_of_not_shift hs]
    refine ⟨fun _ => ⟨_, after, decode_itype ?_ h0 h1 hv.1 (by omega), hafter, ?_⟩,
      fun hout => absurd hv hout⟩
    · simp [takes_imm12, ho, hs, hno]
    · rw [if_neg (by simp [hs])]
      rfl

/-- A failure to read the operands rejects the line, and its immediate is out of
range for a shift too. -/
theorem rejects_itype_of {o : op} (ho : formats o = .I_TYPE) {text rest : List UInt8}
    {r0 r1 : Nat} {v : Int} {em : emitter} {errno : Int} {err : String}
    (hv : ¬ (-2048 ≤ v ∧ v ≤ 2047))
    (hrun : parse_itype o (text ++ ch '\n' :: rest) ⟨0, em⟩ = .ok (.error err, ⟨errno, em⟩)) :
    ((Instr.imm o r0 r1 v).InRange → ReadsWord o (.imm o r0 r1 v) text rest em) ∧
      (¬ (Instr.imm o r0 r1 v).InRange → Rejects o text rest em) := by
  refine ⟨fun hin => absurd ?_ hv, fun _ => ⟨err, errno, ?_⟩⟩
  · simp only [Instr.InRange] at hin
    by_cases hs : is_shift o = true
    · rw [if_pos hs] at hin
      omega
    · rwa [if_neg hs] at hin
  · simp only [parse_operands, ho]
    exact bind_run_error hrun

theorem reads_imm {o : op} (ho : formats o = .I_TYPE)
    (hnot : o ∉ [op.ECALL, op.EBREAK, op.LB, op.LH, op.LW, op.LBU, op.LHU])
    {t0 t1 t2 text : List UInt8} {r0 r1 : Nat} {v : Int}
    (h : Padded [t0, [ch ','], t1, [ch ','], t2] text) (h0 : RegName t0 r0)
    (h1 : RegName t1 r1) (h2 : Literal t2 v) (rest : List UInt8) (em : emitter) :
    ((Instr.imm o r0 r1 v).InRange → ReadsWord o (.imm o r0 r1 v) text rest em) ∧
      (¬ (Instr.imm o r0 r1 v).InRange → Rejects o text rest em) := by
  obtain ⟨hin, hout⟩ := h.reg_reg_imm h0 h1 h2 rest em
  have hno : o ≠ .ECALL ∧ o ≠ .EBREAK := by
    constructor <;> rintro rfl <;> exact hnot (by decide)
  by_cases hv : -2048 ≤ v ∧ v ≤ 2047
  · obtain ⟨after, hafter, hrun⟩ := hin hv
    refine reads_itype_of ho hno hafter h0.lt h1.lt hv ?_
    rw [parse_itype_imm ho hnot]
    exact orFail_run_ok hrun
  · obtain ⟨errno, hrun⟩ := hout hv
    exact rejects_itype_of ho hv (by rw [parse_itype_imm ho hnot]; exact orFail_run_error hrun)

theorem reads_load {o : op} (ho : o ∈ [op.LB, op.LH, op.LW, op.LBU, op.LHU])
    {t0 t1 t2 text : List UInt8} {r0 r1 : Nat} {v : Int}
    (h : Padded [t0, [ch ','], t1, [ch '('], t2, [ch ')']] text) (h0 : RegName t0 r0)
    (h1 : Literal t1 v) (h2 : RegName t2 r1) (rest : List UInt8) (em : emitter) :
    ((Instr.imm o r0 r1 v).InRange → ReadsWord o (.imm o r0 r1 v) text rest em) ∧
      (¬ (Instr.imm o r0 r1 v).InRange → Rejects o text rest em) := by
  obtain ⟨hin, hout⟩ := h.ls_reg_imm_reg h0 h1 h2 rest em
  have hfmt : formats o = .I_TYPE := by
    cases o <;> first | rfl | exact absurd ho (by decide)
  have hno : o ≠ .ECALL ∧ o ≠ .EBREAK := by
    constructor <;> rintro rfl <;> exact absurd ho (by decide)
  by_cases hv : -2048 ≤ v ∧ v ≤ 2047
  · obtain ⟨after, hafter, hrun⟩ := hin hv
    refine reads_itype_of hfmt hno hafter h0.lt h2.lt hv ?_
    rw [parse_itype_load ho, bind_run_ok (orFail_run_ok hrun)]
    rfl
  · obtain ⟨errno, hrun⟩ := hout hv
    exact rejects_itype_of hfmt hv
      (by rw [parse_itype_load ho]; exact bind_run_error (orFail_run_error hrun))

theorem reads_stype {o : op} (ho : formats o = .S_TYPE) {t0 t1 t2 text : List UInt8}
    {r0 r1 : Nat} {v : Int} (h : Padded [t0, [ch ','], t1, [ch '('], t2, [ch ')']] text)
    (h0 : RegName t0 r0) (h1 : Literal t1 v) (h2 : RegName t2 r1) (rest : List UInt8)
    (em : emitter) :
    ((Instr.store o r0 v r1).InRange → ReadsWord o (.store o r0 v r1) text rest em) ∧
      (¬ (Instr.store o r0 v r1).InRange → Rejects o text rest em) := by
  obtain ⟨hin, hout⟩ := h.ls_reg_imm_reg h0 h1 h2 rest em
  unfold ReadsWord Rejects
  simp only [parse_operands, ho]
  refine ⟨fun hv => ?_, fun hv => ?_⟩
  · obtain ⟨after, hafter, hrun⟩ := hin hv
    refine ⟨_, after, decode_stype ho h0.lt h2.lt hv.1 (Int.lt_add_one_of_le hv.2), hafter, ?_⟩
    rw [bind_run_ok (orFail_run_ok hrun)]
    rfl
  · obtain ⟨errno, hrun⟩ := hout hv
    exact ⟨_, errno, bind_run_error (orFail_run_error hrun)⟩

theorem reads_utype {o : op} (ho : formats o = .U_TYPE) {t0 t1 text : List UInt8}
    {r0 : Nat} {v : Int} (h : Padded [t0, [ch ','], t1] text) (h0 : RegName t0 r0)
    (h1 : Literal t1 v) (rest : List UInt8) (em : emitter) :
    ((Instr.upper o r0 v).InRange → ReadsWord o (.upper o r0 v) text rest em) ∧
      (¬ (Instr.upper o r0 v).InRange → Rejects o text rest em) := by
  obtain ⟨hin, hout⟩ := h.reg_imm20 h0 h1 rest em
  unfold ReadsWord Rejects
  simp only [parse_operands, ho]
  refine ⟨fun hv => ?_, fun hv => ?_⟩
  · obtain ⟨after, hafter, hrun⟩ := hin hv
    refine ⟨_, after, decode_utype ho h0.lt hv.1 (Int.lt_add_one_of_le hv.2), hafter, ?_⟩
    rw [bind_run_ok (orFail_run_ok hrun)]
    rfl
  · obtain ⟨errno, hrun⟩ := hout hv
    exact ⟨_, errno, bind_run_error (orFail_run_error hrun)⟩

theorem reads_system {o : op} (ho : o ∈ [op.ECALL, op.EBREAK]) {text : List UInt8}
    (h : Padded [] text) (rest : List UInt8) (em : emitter) :
    ReadsWord o (.system o) text rest em := by
  cases o <;> first
    | exact absurd ho (by decide)
    | exact ⟨_, text, decode_ecall, h, rfl⟩
    | exact ⟨_, text, decode_ebreak, h, rfl⟩

/-- The operands of every instruction are read or rejected by its range. -/
theorem Tokens.read {m : String} {ts : List (List UInt8)} {i : Instr} (h : Tokens m ts i) :
    ∃ o, (m, vocable.op o) ∈ vocabulary ∧ ∀ text, Padded ts text → ∀ rest em,
      (i.InRange → ReadsWord o i text rest em) ∧ (¬ i.InRange → Rejects o text rest em) := by
  cases h with
  | reg hm ho h0 h1 h2 =>
    exact ⟨_, hm, fun text h rest em =>
      ⟨fun _ => reads_rtype ho h h0 h1 h2 rest em, fun hout => absurd trivial hout⟩⟩
  | imm hm ho hnot h0 h1 h2 => exact ⟨_, hm, fun text h => reads_imm ho hnot h h0 h1 h2⟩
  | load hm ho h0 h1 h2 => exact ⟨_, hm, fun text h => reads_load ho h h0 h1 h2⟩
  | store hm ho h0 h1 h2 => exact ⟨_, hm, fun text h => reads_stype ho h h0 h1 h2⟩
  | upper hm ho h0 h1 => exact ⟨_, hm, fun text h => reads_utype ho h h0 h1⟩
  | system hm ho =>
    exact ⟨_, hm, fun text h rest em =>
      ⟨fun _ => reads_system ho h rest em, fun hout => absurd trivial hout⟩⟩

/-! ## Lines -/

/-- A word of the vocabulary starts with no blank and no newline, and goes on
with characters of identifiers. -/
theorem vocabulary_spelling : ∀ w ∈ vocabulary, ∃ c cs, chars w.1 = c :: cs ∧
    whitespace c = false ∧ c ≠ ch '\n' ∧ ∀ x ∈ cs, identifier x = true := by
  have hspell : ∀ w ∈ vocabulary, chars w.1 ≠ [] ∧ whitespace ((chars w.1).headD 0) = false ∧
      (chars w.1).headD 0 ≠ ch '\n' ∧ ∀ x ∈ (chars w.1).tail, identifier x = true := by
    decide +kernel
  intro w hw
  obtain ⟨hne, hblank, hnl, hcs⟩ := hspell w hw
  obtain ⟨c, cs, heq⟩ := List.exists_cons_of_ne_nil hne
  rw [heq] at hblank hnl hcs
  exact ⟨c, cs, heq, hblank, hnl, hcs⟩

/-- A line with a word of the vocabulary is what the word stands for. -/
theorem parse_line_known {m : String} {v : vocable} (hm : (m, v) ∈ vocabulary) {p : List UInt8}
    (hp : Blanks p) {c : UInt8} (hc : identifier c = false) (rest : List UInt8) (s : Process) :
    parse_line (p ++ (chars m ++ c :: rest)) s =
      (parse_known v.number >>= fun _ => out_check_line) (c :: rest) s := by
  obtain ⟨d, ds, heq, hblank, hnl, hds⟩ := vocabulary_spelling _ hm
  simp only at heq
  have hcode : ∀ x ∈ d :: ds, KeyCode x := by
    rw [← heq]
    exact vocabulary_words_codes _ (List.mem_map_of_mem hm)
  obtain ⟨root, hroot, hans⟩ := instruction_trie_recognises
  obtain ⟨r, hlookup, hdata⟩ := hans d ds (hcode d List.mem_cons_self)
    fun x hx => hcode x (List.mem_cons_of_mem d hx)
  have hr : r = some (v.number : Int) := by
    rw [hdata, ← heq]
    exact List.mem_map_of_mem hm
  rw [hr] at hlookup
  have htbase : (tbase_root : Parse String trie) (d :: (ds ++ c :: rest)) s =
      .ok (.ok (root, d :: (ds ++ c :: rest)), s) := by
    rw [tbase_root, hroot]
    rfl
  have hword : (parse_word : Parse String _) (d :: (ds ++ c :: rest)) s =
      .ok (.ok (some (v.number : Int), c :: rest), s) := by
    obtain ⟨text, hwalk, htext⟩ := trie_walk_word (ε := String) hds hc (mem_of_load hroot) hlookup rest
      s
    rw [htext rfl] at hwalk
    rw [parse_word, bind_run_ok cursor_run, bind_run_ok htbase, bind_run_ok (next_cons d),
      bind_run_ok hwalk]
    rfl
  have hstatement : parse_statement (d :: (ds ++ c :: rest)) s =
      parse_known v.number (c :: rest) s := by
    rw [parse_statement, bind_run_ok hword]
  rw [heq, List.cons_append, parse_line, bind_run_ok cursor_run,
    bind_run_ok (skip_whitespace_run hp hblank _ s), bind_run_ok (peek_cons d), if_neg hnl,
    bind_run, bind_run, hstatement]

theorem parse_known_op (o : op) : parse_known (vocable.op o).number = parse_op o := by
  rw [parse_known, vocable.ofNumber_number]

/-- A line without labels is accepted if and only if its immediate is in the
range of the operation. An accepted one hands the bytes of one word to
`emitter_buffer`, and they decode to the instruction. A rejected one leaves the
emitter. -/
theorem a_line_assembles_to_the_word_of_its_instruction {text : List UInt8} {i : Instr}
    (h : Line text i) (rest : List UInt8) (em : emitter) :
    (i.InRange → ∃ w, decode (instr_of (instr_bytes w)) = some i ∧
        parse_line (text ++ ch '\n' :: rest) ⟨0, em⟩ = (do
          let em ← emitter_buffer em (instr_bytes w)
          .ok (.ok ((), ch '\n' :: rest), ⟨0, em⟩))) ∧
      (¬ i.InRange → ∃ err errno, parse_line (text ++ ch '\n' :: rest) ⟨0, em⟩ =
        .ok (.error err, ⟨errno, em⟩)) := by
  obtain @⟨p, text, m, ts, i, hp, htokens, hpadded, hblank⟩ := h
  obtain ⟨o, hm, hread⟩ := htokens.read
  obtain ⟨hin, hout⟩ := hread text hpadded rest em
  obtain ⟨c, after, heq, hc⟩ : ∃ c after, text ++ ch '\n' :: rest = c :: after ∧
      identifier c = false := by
    by_cases hts : ts = []
    · subst hts
      exact hpadded.head (Or.inl rfl) rest
    · obtain ⟨b, text', rfl, hb⟩ := hblank hts
      exact ⟨b, _, rfl, (forall_byte (by decide +kernel) :
        ∀ c, whitespace c = true → identifier c = false) b hb⟩
  rw [List.append_assoc, List.append_assoc, heq, parse_line_known hm hp hc, ← heq, parse_known_op]
  refine ⟨fun hi => ?_, fun hi => ?_⟩
  · obtain ⟨w, after', hdecode, hend, hrun⟩ := hin hi
    refine ⟨w, (instr_of_instr_bytes w).symm ▸ hdecode, ?_⟩
    rw [parse_op, bind_run, bind_run_ok hrun, emit_operands, emit, call]
    rcases emitter_buffer em (instr_bytes w) with f | em'
    · rfl
    · exact hend.end_of_line rest _
  · obtain ⟨err, errno, hrun⟩ := hout hi
    exact ⟨err, errno, bind_run_error (bind_run_error hrun)⟩

theorem addi_line_spelled : Line (chars "\taddi x1, sp ,-0x5") (.imm .ADDI 1 2 (-5)) := by
  have hx1 : RegName (chars "x1") 1 := .x (.one (by decide)) (by decide)
  have hfive : Literal (chars "-0x5") (-5) :=
    .minus (.hex (Or.inl rfl) (.cons (d := 5) (by decide) (.nil 5)))
  have htokens : Tokens "addi" [chars "x1", [ch ','], chars "sp", [ch ','], chars "-0x5"]
      (.imm .ADDI 1 2 (-5)) := .imm (by decide) rfl (by decide) hx1 .sp hfive
  have hblank : Blanks [ch ' '] := by unfold Blanks; decide
  have hnone : Blanks [] := fun x hx => absurd hx List.not_mem_nil
  exact .mk (p := [ch '\t']) (by unfold Blanks; decide) htokens
    (.token hblank (.token hnone (.token hblank (.token hblank (.token hnone (.done hnone))))))
    fun _ => ⟨_, _, rfl, by decide⟩

theorem an_addi_line_assembles_to_its_word :
    ∃ w, decode (instr_of (instr_bytes w)) = some (.imm .ADDI 1 2 (-5)) ∧
      parse_line (chars "\taddi x1, sp ,-0x5" ++ [ch '\n', 0]) ⟨0, emitter.fresh 0 4096⟩ = (do
        let em ← emitter_buffer (emitter.fresh 0 4096) (instr_bytes w)
        .ok (.ok ((), [ch '\n', 0]), ⟨0, em⟩)) :=
  (a_line_assembles_to_the_word_of_its_instruction addi_line_spelled [0]
    (emitter.fresh 0 4096)).1 (by unfold Instr.InRange; decide)

end riscv_assembler
