-- The words that the parser puts together decode to the instructions that it
-- read: each format is a word of six fields, and the tables fill them as RV32I
-- wants.
import Mathlib.Tactic.IntervalCases
import RiscvAssembler.Isa
import RiscvAssembler.Parser

open machine_int

namespace riscv_assembler

/-! ## Words of fields -/

/-- A word from its fields, the highest first. -/
def ofFields (funct7 : BitVec 7) (rs2 rs1 : BitVec 5) (funct3 : BitVec 3) (rd : BitVec 5)
    (oc : BitVec 7) : BitVec 32 := funct7 ++ rs2 ++ rs1 ++ funct3 ++ rd ++ oc

section Fields

variable (f7 : BitVec 7) (rs2 rs1 : BitVec 5) (f3 : BitVec 3) (rd : BitVec 5) (oc : BitVec 7)

theorem opcodeOf_ofFields : opcodeOf (ofFields f7 rs2 rs1 f3 rd oc) = oc := by
  apply BitVec.eq_of_getLsbD_eq
  intro j hj
  simp only [opcodeOf, ofFields, BitVec.getLsbD_extractLsb', BitVec.getLsbD_append]
  interval_cases j <;> simp

theorem rdOf_ofFields : rdOf (ofFields f7 rs2 rs1 f3 rd oc) = rd := by
  apply BitVec.eq_of_getLsbD_eq
  intro j hj
  simp only [rdOf, ofFields, BitVec.getLsbD_extractLsb', BitVec.getLsbD_append]
  interval_cases j <;> simp

theorem funct3Of_ofFields : funct3Of (ofFields f7 rs2 rs1 f3 rd oc) = f3 := by
  apply BitVec.eq_of_getLsbD_eq
  intro j hj
  simp only [funct3Of, ofFields, BitVec.getLsbD_extractLsb', BitVec.getLsbD_append]
  interval_cases j <;> simp

theorem rs1Of_ofFields : rs1Of (ofFields f7 rs2 rs1 f3 rd oc) = rs1 := by
  apply BitVec.eq_of_getLsbD_eq
  intro j hj
  simp only [rs1Of, ofFields, BitVec.getLsbD_extractLsb', BitVec.getLsbD_append]
  interval_cases j <;> simp

theorem rs2Of_ofFields : rs2Of (ofFields f7 rs2 rs1 f3 rd oc) = rs2 := by
  apply BitVec.eq_of_getLsbD_eq
  intro j hj
  simp only [rs2Of, ofFields, BitVec.getLsbD_extractLsb', BitVec.getLsbD_append]
  interval_cases j <;> simp

theorem funct7Of_ofFields : funct7Of (ofFields f7 rs2 rs1 f3 rd oc) = f7 := by
  apply BitVec.eq_of_getLsbD_eq
  intro j hj
  simp only [funct7Of, ofFields, BitVec.getLsbD_extractLsb', BitVec.getLsbD_append]
  interval_cases j <;> simp

theorem immIOf_ofFields : immIOf (ofFields f7 rs2 rs1 f3 rd oc) = f7 ++ rs2 := by
  apply BitVec.eq_of_getLsbD_eq
  intro j hj
  simp only [immIOf, ofFields, BitVec.getLsbD_extractLsb', BitVec.getLsbD_append]
  interval_cases j <;> simp

theorem immSOf_ofFields : immSOf (ofFields f7 rs2 rs1 f3 rd oc) = f7 ++ rd := by
  have h7 := funct7Of_ofFields f7 rs2 rs1 f3 rd oc
  have hrd := rdOf_ofFields f7 rs2 rs1 f3 rd oc
  unfold funct7Of at h7
  unfold rdOf at hrd
  rw [immSOf, h7, hrd]

theorem immUOf_ofFields :
    immUOf (ofFields f7 rs2 rs1 f3 rd oc) = f7 ++ rs2 ++ rs1 ++ f3 := by
  apply BitVec.eq_of_getLsbD_eq
  intro j hj
  simp only [immUOf, ofFields, BitVec.getLsbD_extractLsb', BitVec.getLsbD_append]
  interval_cases j <;> simp

end Fields

/-! ## The words of the parser -/

theorem opcodes_high (o : op) : (opcodes o)[7] = false := by
  cases o <;> rfl

theorem func3s_high (o : op) : (func3s o)[3] = false ∧ (func3s o)[4] = false ∧
    (func3s o)[5] = false ∧ (func3s o)[6] = false ∧ (func3s o)[7] = false := by
  cases o <;> decide

section Words

variable (o : op) (t0 t1 t2 : BitVec 5) (imm : BitVec 32)

theorem rtype_instr_fields : rtype_instr o (t0.setWidth 32) (t1.setWidth 32) (t2.setWidth 32) =
    ofFields ((func7s o).setWidth 7) t2 t1 ((func3s o).setWidth 3) t0 ((opcodes o).setWidth 7) := by
  apply BitVec.eq_of_getLsbD_eq
  intro j hj
  simp only [rtype_instr, ofFields, opcode, func3, func7, BitVec.getLsbD_append,
    BitVec.getLsbD_or, BitVec.getLsbD_shiftLeft, BitVec.getLsbD_setWidth]
  interval_cases j <;> simp [opcodes_high o, func3s_high o]

theorem itype_instr_fields (ho : o ≠ .SRAI) :
    itype_instr o (t0.setWidth 32) (t1.setWidth 32) imm =
      ofFields (imm.extractLsb' 5 7) (imm.extractLsb' 0 5) t1 ((func3s o).setWidth 3) t0
        ((opcodes o).setWidth 7) := by
  apply BitVec.eq_of_getLsbD_eq
  intro j hj
  simp only [itype_instr, if_neg ho, ofFields, opcode, func3, BitVec.getLsbD_append,
    BitVec.getLsbD_extractLsb', BitVec.getLsbD_or, BitVec.getLsbD_shiftLeft,
    BitVec.getLsbD_setWidth]
  interval_cases j <;> simp [opcodes_high o, func3s_high o]

theorem srai_instr_fields :
    itype_instr .SRAI (t0.setWidth 32) (t1.setWidth 32) (t2.setWidth 32) =
      ofFields 0b0100000 t2 t1 0b101 t0 0b0010011 := by
  apply BitVec.eq_of_getLsbD_eq
  intro j hj
  simp only [itype_instr, if_true, ofFields, opcode, func3, opcodes, func3s, BitVec.getLsbD_append,
    BitVec.getLsbD_or, BitVec.getLsbD_shiftLeft, BitVec.getLsbD_setWidth]
  interval_cases j <;> simp

theorem stype_instr_fields :
    stype_instr o (t0.setWidth 32) imm (t2.setWidth 32) =
      ofFields (imm.extractLsb' 5 7) t0 t2 ((func3s o).setWidth 3) (imm.extractLsb' 0 5)
        ((opcodes o).setWidth 7) := by
  apply BitVec.eq_of_getLsbD_eq
  intro j hj
  simp only [stype_instr, ofFields, opcode, func3, BitVec.getLsbD_append,
    BitVec.getLsbD_extractLsb', BitVec.getLsbD_or, BitVec.getLsbD_and, BitVec.getLsbD_shiftLeft,
    BitVec.getLsbD_setWidth]
  interval_cases j <;> simp [opcodes_high o, func3s_high o]

theorem utype_instr_fields :
    utype_instr o (t0.setWidth 32) imm =
      ofFields (imm.extractLsb' 13 7) (imm.extractLsb' 8 5) (imm.extractLsb' 3 5)
        (imm.extractLsb' 0 3) t0 ((opcodes o).setWidth 7) := by
  apply BitVec.eq_of_getLsbD_eq
  intro j hj
  simp only [utype_instr, ofFields, opcode, BitVec.getLsbD_append, BitVec.getLsbD_extractLsb',
    BitVec.getLsbD_or, BitVec.getLsbD_shiftLeft, BitVec.getLsbD_setWidth]
  interval_cases j <;> simp [opcodes_high o]

end Words

/-! ## Registers and immediates -/

/-- A register number in its field. -/
theorem reg_eq_setWidth (r : Nat) (h : r < 32) : reg r = (BitVec.ofNat 5 r).setWidth 32 := by
  apply BitVec.eq_of_toNat_eq
  simp only [reg, BitVec.toNat_ofNat, BitVec.toNat_setWidth]
  omega

theorem toNat_ofNat5 {r : Nat} (h : r < 32) : (BitVec.ofNat 5 r).toNat = r := by
  rw [BitVec.toNat_ofNat]
  exact Nat.mod_eq_of_lt h

theorem extract_ofInt12 (v : Int) :
    (BitVec.ofInt 32 v).extractLsb' 5 7 ++ (BitVec.ofInt 32 v).extractLsb' 0 5 =
      BitVec.ofInt 12 v := by
  rw [← setWidth_ofInt (show 12 ≤ 32 by decide) v]
  apply BitVec.eq_of_getLsbD_eq
  intro j hj
  simp only [BitVec.getLsbD_append, BitVec.getLsbD_extractLsb', BitVec.getLsbD_setWidth]
  interval_cases j <;> simp

theorem toInt_ofInt12 {v : Int} (h1 : -2048 ≤ v) (h2 : v < 2048) : (BitVec.ofInt 12 v).toInt = v := by
  rw [BitVec.toInt_ofInt]
  exact Int.bmod_eq_of_le (by omega) (by omega)

/-- A shift amount leaves the upper bits of the immediate zero. -/
theorem extract_shift {v : Int} (h1 : 0 ≤ v) (h2 : v ≤ 31) :
    (BitVec.ofInt 32 v).extractLsb' 5 7 = 0 ∧
      ((BitVec.ofInt 32 v).extractLsb' 0 5).toNat = v.toNat ∧
      BitVec.ofInt 32 v = (BitVec.ofNat 5 v.toNat).setWidth 32 := by
  obtain ⟨n, rfl⟩ := Int.eq_ofNat_of_zero_le h1
  have hn : n ≤ 31 := by omega
  interval_cases n <;> decide

theorem extract_upper {v : Int} (h1 : 0 ≤ v) (h2 : v < 1048576) :
    (((BitVec.ofInt 32 v).extractLsb' 13 7 ++ (BitVec.ofInt 32 v).extractLsb' 8 5 ++
      (BitVec.ofInt 32 v).extractLsb' 3 5 ++ (BitVec.ofInt 32 v).extractLsb' 0 3).toNat : Int) =
      v := by
  have hset : (BitVec.ofInt 32 v).extractLsb' 13 7 ++ (BitVec.ofInt 32 v).extractLsb' 8 5 ++
      (BitVec.ofInt 32 v).extractLsb' 3 5 ++ (BitVec.ofInt 32 v).extractLsb' 0 3 =
        BitVec.ofInt 20 v := by
    rw [← setWidth_ofInt (show 20 ≤ 32 by decide) v]
    apply BitVec.eq_of_getLsbD_eq
    intro j hj
    simp only [BitVec.getLsbD_append, BitVec.getLsbD_extractLsb', BitVec.getLsbD_setWidth]
    interval_cases j <;> simp
  rw [hset, BitVec.toNat_ofInt]
  omega

/-! ## What the words decode to -/

theorem decode_rtype {o : op} (ho : formats o = .R_TYPE) {rd rs1 rs2 : Nat} (h0 : rd < 32)
    (h1 : rs1 < 32) (h2 : rs2 < 32) :
    decode (rtype_instr o (reg rd) (reg rs1) (reg rs2)) = some (.reg o rd rs1 rs2) := by
  rw [reg_eq_setWidth rd h0, reg_eq_setWidth rs1 h1, reg_eq_setWidth rs2 h2, rtype_instr_fields]
  simp only [decode, opcodeOf_ofFields, rdOf_ofFields, rs1Of_ofFields, rs2Of_ofFields,
    funct3Of_ofFields, funct7Of_ofFields, toNat_ofNat5 h0, toNat_ofNat5 h1, toNat_ofNat5 h2]
  cases o <;> first | rfl | cases ho

/-- The I-type operations with an immediate of 12 bits. -/
def takes_imm12 (o : op) : Bool := formats o = .I_TYPE ∧ ¬ is_shift o ∧ o ≠ .ECALL ∧ o ≠ .EBREAK

theorem decode_itype {o : op} (ho : takes_imm12 o = true) {rd rs1 : Nat} {v : Int} (h0 : rd < 32)
    (h1 : rs1 < 32) (hlo : -2048 ≤ v) (hhi : v < 2048) :
    decode (itype_instr o (reg rd) (reg rs1) (BitVec.ofInt 32 v)) = some (.imm o rd rs1 v) := by
  have hsrai : o ≠ .SRAI := by
    rintro rfl
    cases ho
  rw [reg_eq_setWidth rd h0, reg_eq_setWidth rs1 h1, itype_instr_fields _ _ _ _ hsrai]
  simp only [decode, opcodeOf_ofFields, rdOf_ofFields, rs1Of_ofFields, rs2Of_ofFields,
    funct3Of_ofFields, funct7Of_ofFields, immIOf_ofFields, extract_ofInt12,
    toInt_ofInt12 hlo hhi, toNat_ofNat5 h0, toNat_ofNat5 h1]
  cases o <;> first | rfl | cases ho

theorem decode_shift {o : op} (ho : is_shift o = true) {rd rs1 : Nat} {v : Int} (h0 : rd < 32)
    (h1 : rs1 < 32) (hlo : 0 ≤ v) (hhi : v ≤ 31) :
    decode (itype_instr o (reg rd) (reg rs1) (BitVec.ofInt 32 v)) = some (.imm o rd rs1 v) := by
  obtain ⟨hhigh, hlow, hset⟩ := extract_shift hlo hhi
  have hv : ((v.toNat : Nat) : Int) = v := Int.toNat_of_nonneg hlo
  rw [reg_eq_setWidth rd h0, reg_eq_setWidth rs1 h1]
  by_cases hsrai : o = .SRAI
  · subst hsrai
    rw [hset, srai_instr_fields]
    simp only [decode, opcodeOf_ofFields, rdOf_ofFields, rs1Of_ofFields, rs2Of_ofFields,
      funct3Of_ofFields, funct7Of_ofFields, toNat_ofNat5 h0, toNat_ofNat5 h1,
      toNat_ofNat5 (show v.toNat < 32 by omega), hv]
    rfl
  · rw [itype_instr_fields _ _ _ _ hsrai]
    simp only [decode, opcodeOf_ofFields, rdOf_ofFields, rs1Of_ofFields, rs2Of_ofFields,
      funct3Of_ofFields, funct7Of_ofFields, hhigh, hlow, toNat_ofNat5 h0, toNat_ofNat5 h1, hv]
    cases o <;> first | exact absurd rfl hsrai | rfl | cases ho

theorem decode_stype {o : op} (ho : formats o = .S_TYPE) {rs2 rs1 : Nat} {v : Int} (h0 : rs2 < 32)
    (h1 : rs1 < 32) (hlo : -2048 ≤ v) (hhi : v < 2048) :
    decode (stype_instr o (reg rs2) (BitVec.ofInt 32 v) (reg rs1)) = some (.store o rs2 v rs1) := by
  rw [reg_eq_setWidth rs2 h0, reg_eq_setWidth rs1 h1, stype_instr_fields]
  simp only [decode, opcodeOf_ofFields, rs1Of_ofFields, rs2Of_ofFields, funct3Of_ofFields,
    immSOf_ofFields, extract_ofInt12, toInt_ofInt12 hlo hhi, toNat_ofNat5 h0, toNat_ofNat5 h1]
  cases o <;> first | rfl | cases ho

theorem decode_utype {o : op} (ho : formats o = .U_TYPE) {rd : Nat} {v : Int} (h0 : rd < 32)
    (hlo : 0 ≤ v) (hhi : v < 1048576) :
    decode (utype_instr o (reg rd) (BitVec.ofInt 32 v)) = some (.upper o rd v) := by
  rw [reg_eq_setWidth rd h0, utype_instr_fields]
  simp only [decode, opcodeOf_ofFields, rdOf_ofFields, immUOf_ofFields, extract_upper hlo hhi,
    toNat_ofNat5 h0]
  cases o <;> first | rfl | cases ho

theorem decode_ecall : decode (itype_instr .ECALL (reg 0) (reg 0) 0) = some (.system .ECALL) := by
  decide

theorem decode_ebreak : decode (itype_instr .EBREAK (reg 0) (reg 0) 1) = some (.system .EBREAK) := by
  decide

end riscv_assembler
