-- The instructions of RV32I and their words, one to one: each word that decodes is the
-- one that the functions of the assembler put together from its instruction.
import RiscvAssembler.Displacements

open machine_int

namespace riscv_assembler

/-! ## The word of an instruction -/

/-- The word that the assembler makes of an instruction. A displacement is put in as
for a label. -/
def encode : Instr → BitVec 32
  | .reg o rd rs1 rs2 => rtype_instr o (reg rd) (reg rs1) (reg rs2)
  | .imm o rd rs1 v => itype_instr o (reg rd) (reg rs1) (BitVec.ofInt 32 v)
  | .store o rs2 v rs1 => stype_instr o (reg rs2) (BitVec.ofInt 32 v) (reg rs1)
  | .branch o rs1 rs2 v =>
    assign_type.ASSIGN_BTYPE.set_imm (btype_instr o (reg rs1) (reg rs2)) (BitVec.ofInt 32 v)
  | .upper o rd v => utype_instr o (reg rd) (BitVec.ofInt 32 v)
  | .jump o rd v => assign_type.ASSIGN_JTYPE.set_imm (jtype_instr o (reg rd)) (BitVec.ofInt 32 v)
  | .system o => itype_instr o (reg 0) (reg 0) (if o = .EBREAK then 1 else 0)

/-- The operation has the operands of its format, the registers exist and the
immediate fits. -/
def Instr.Encodable : Instr → Prop
  | .reg o rd rs1 rs2 => formats o = .R_TYPE ∧ rd < 32 ∧ rs1 < 32 ∧ rs2 < 32
  | .imm o rd rs1 v =>
    (formats o = .I_TYPE ∧ o ≠ .ECALL ∧ o ≠ .EBREAK) ∧ rd < 32 ∧ rs1 < 32 ∧
      if is_shift o then 0 ≤ v ∧ v ≤ 31 else -2048 ≤ v ∧ v ≤ 2047
  | .store o rs2 v rs1 => formats o = .S_TYPE ∧ rs2 < 32 ∧ rs1 < 32 ∧ -2048 ≤ v ∧ v ≤ 2047
  | .branch o rs1 rs2 v =>
    formats o = .B_TYPE ∧ rs1 < 32 ∧ rs2 < 32 ∧ assign_type.ASSIGN_BTYPE.Takes v
  | .upper o rd v => formats o = .U_TYPE ∧ rd < 32 ∧ 0 ≤ v ∧ v ≤ 1048575
  | .jump o rd v => formats o = .J_TYPE ∧ rd < 32 ∧ assign_type.ASSIGN_JTYPE.Takes v
  | .system o => o = .ECALL ∨ o = .EBREAK

/-! ## Words of branches and jumps -/

section Words

variable (o : op) (t0 t1 : BitVec 5) (i : BitVec 32)

theorem btype_instr_fields :
    assign_type.ASSIGN_BTYPE.set_imm (btype_instr o (t0.setWidth 32) (t1.setWidth 32)) i =
      ofFields (i.extractLsb' 12 1 ++ i.extractLsb' 5 6) t1 t0 ((func3s o).setWidth 3)
        (i.extractLsb' 1 4 ++ i.extractLsb' 11 1) ((opcodes o).setWidth 7) := by
  apply BitVec.eq_of_getLsbD_eq
  intro j hj
  simp only [assign_type.set_imm, set_btype_imm, btype_instr, ofFields, opcode, func3,
    BitVec.getLsbD_append, BitVec.getLsbD_extractLsb', BitVec.getLsbD_or, BitVec.getLsbD_and,
    BitVec.getLsbD_shiftLeft, BitVec.getLsbD_ushiftRight, BitVec.getLsbD_setWidth]
  interval_cases j <;> simp [opcodes_high o, func3s_high o]

theorem jtype_instr_fields :
    assign_type.ASSIGN_JTYPE.set_imm (jtype_instr o (t0.setWidth 32)) i =
      ofFields (i.extractLsb' 20 1 ++ i.extractLsb' 5 6) (i.extractLsb' 1 4 ++ i.extractLsb' 11 1)
        (i.extractLsb' 15 5) (i.extractLsb' 12 3) t0 ((opcodes o).setWidth 7) := by
  apply BitVec.eq_of_getLsbD_eq
  intro j hj
  simp only [assign_type.set_imm, set_jtype_imm, jtype_instr, ofFields, opcode,
    BitVec.getLsbD_append, BitVec.getLsbD_extractLsb', BitVec.getLsbD_or, BitVec.getLsbD_and,
    BitVec.getLsbD_shiftLeft, BitVec.getLsbD_setWidth]
  interval_cases j <;> simp [opcodes_high o]

end Words

/-! ## What the words decode to -/

section Fields

variable {rd rs1 rs2 : Nat} (o : op) (v : Int)

/-- The fields of each format, with the immediate in its pieces. -/
theorem encode_reg (h0 : rd < 32) (h1 : rs1 < 32) (h2 : rs2 < 32) :
    encode (.reg o rd rs1 rs2) = ofFields ((func7s o).setWidth 7) (.ofNat 5 rs2) (.ofNat 5 rs1)
      ((func3s o).setWidth 3) (.ofNat 5 rd) ((opcodes o).setWidth 7) := by
  rw [encode, reg_eq_setWidth rd h0, reg_eq_setWidth rs1 h1, reg_eq_setWidth rs2 h2,
    rtype_instr_fields]

theorem encode_branch (h0 : rs1 < 32) (h1 : rs2 < 32) :
    encode (.branch o rs1 rs2 v) = ofFields
      ((BitVec.ofInt 32 v).extractLsb' 12 1 ++ (BitVec.ofInt 32 v).extractLsb' 5 6)
      (.ofNat 5 rs2) (.ofNat 5 rs1) ((func3s o).setWidth 3)
      ((BitVec.ofInt 32 v).extractLsb' 1 4 ++ (BitVec.ofInt 32 v).extractLsb' 11 1)
      ((opcodes o).setWidth 7) := by
  rw [encode, reg_eq_setWidth rs1 h0, reg_eq_setWidth rs2 h1, btype_instr_fields]

theorem encode_jump (h0 : rd < 32) :
    encode (.jump o rd v) = ofFields
      ((BitVec.ofInt 32 v).extractLsb' 20 1 ++ (BitVec.ofInt 32 v).extractLsb' 5 6)
      ((BitVec.ofInt 32 v).extractLsb' 1 4 ++ (BitVec.ofInt 32 v).extractLsb' 11 1)
      ((BitVec.ofInt 32 v).extractLsb' 15 5) ((BitVec.ofInt 32 v).extractLsb' 12 3)
      (.ofNat 5 rd) ((opcodes o).setWidth 7) := by
  rw [encode, reg_eq_setWidth rd h0, jtype_instr_fields]

end Fields

theorem decode_branch {o : op} (ho : formats o = .B_TYPE) {rs1 rs2 : Nat} {v : Int} (h0 : rs1 < 32)
    (h1 : rs2 < 32) (hv : assign_type.ASSIGN_BTYPE.Takes v) :
    decode (encode (.branch o rs1 rs2 v)) = some (.branch o rs1 rs2 v) := by
  have himm : (immBOf (encode (.branch o rs1 rs2 v))).toInt = v := by
    refine @immOf_set_imm .ASSIGN_BTYPE _ _ ?_ hv
    rw [assign_type.immOf, reg_eq_setWidth rs1 h0, reg_eq_setWidth rs2 h1, btype_instr_zero]
    rfl
  rw [encode_branch o v h0 h1] at himm ⊢
  simp only [decode, himm, opcodeOf_ofFields, rs1Of_ofFields, rs2Of_ofFields, funct3Of_ofFields,
    toNat_ofNat5 h0, toNat_ofNat5 h1]
  cases o <;> first | rfl | cases ho

theorem decode_jump {o : op} (ho : formats o = .J_TYPE) {rd : Nat} {v : Int} (h0 : rd < 32)
    (hv : assign_type.ASSIGN_JTYPE.Takes v) :
    decode (encode (.jump o rd v)) = some (.jump o rd v) := by
  have himm : (immJOf (encode (.jump o rd v))).toInt = v := by
    refine @immOf_set_imm .ASSIGN_JTYPE _ _ ?_ hv
    rw [assign_type.immOf, reg_eq_setWidth rd h0, jtype_instr_zero]
    rfl
  rw [encode_jump o v h0] at himm ⊢
  simp only [decode, himm, opcodeOf_ofFields, rdOf_ofFields, toNat_ofNat5 h0]
  cases o <;> first | rfl | cases ho

/-- The word of an instruction decodes to it. -/
theorem decode_encode {i : Instr} (h : i.Encodable) : decode (encode i) = some i := by
  cases i with
  | reg o rd rs1 rs2 => exact decode_rtype h.1 h.2.1 h.2.2.1 h.2.2.2
  | imm o rd rs1 v =>
    obtain ⟨⟨hformat, hno, hno'⟩, h0, h1, hv⟩ := h
    by_cases hs : is_shift o = true
    · rw [if_pos hs] at hv
      exact decode_shift hs h0 h1 hv.1 hv.2
    · rw [if_neg hs] at hv
      exact decode_itype (by simp [takes_imm12, hformat, hs, hno, hno']) h0 h1 hv.1 (by omega)
  | store o rs2 v rs1 => exact decode_stype h.1 h.2.1 h.2.2.1 h.2.2.2.1 (by have := h.2.2.2.2; omega)
  | branch o rs1 rs2 v => exact decode_branch h.1 h.2.1 h.2.2.1 h.2.2.2
  | upper o rd v => exact decode_utype h.1 h.2.1 h.2.2.1 (by have := h.2.2.2; omega)
  | jump o rd v => exact decode_jump h.1 h.2.1 h.2.2
  | system o =>
    rcases h with rfl | rfl
    · exact decode_ecall
    · exact decode_ebreak

/-! ## What the words come from -/

/-- A word from its fields. -/
theorem ofFields_self (w : BitVec 32) :
    ofFields (funct7Of w) (rs2Of w) (rs1Of w) (funct3Of w) (rdOf w) (opcodeOf w) = w := by
  apply BitVec.eq_of_getLsbD_eq
  intro j hj
  simp only [ofFields, opcodeOf, rdOf, funct3Of, rs1Of, rs2Of, funct7Of, BitVec.getLsbD_append,
    BitVec.getLsbD_extractLsb']
  interval_cases j <;> simp

section Tables

variable {f7 : BitVec 7} {f3 : BitVec 3} {o : op}

theorem regOp_eq_some (h : regOp f7 f3 = some o) :
    formats o = .R_TYPE ∧ f7 = (func7s o).setWidth 7 ∧ f3 = (func3s o).setWidth 3 ∧
      (opcodes o).setWidth 7 = 0b0110011#7 := by
  unfold regOp at h
  split at h <;> cases h <;> rename_i h7 h3 <;>
    exact ⟨rfl, BitVec.eq_of_toNat_eq h7, BitVec.eq_of_toNat_eq h3, rfl⟩

theorem immOp_eq_some (h : immOp f3 = some o) :
    takes_imm12 o = true ∧ f3 = (func3s o).setWidth 3 ∧ (opcodes o).setWidth 7 = 0b0010011#7 := by
  unfold immOp at h
  split at h <;> cases h <;> rename_i h3 <;> exact ⟨rfl, BitVec.eq_of_toNat_eq h3, rfl⟩

theorem shiftOp_eq_some (h : shiftOp f7 f3 = some o) :
    is_shift o = true ∧ f7 = (if o = .SRAI then 0b0100000 else 0) ∧
      f3 = (func3s o).setWidth 3 ∧ (opcodes o).setWidth 7 = 0b0010011#7 := by
  unfold shiftOp at h
  split at h <;> cases h <;> rename_i h7 h3 <;>
    exact ⟨rfl, BitVec.eq_of_toNat_eq h7, BitVec.eq_of_toNat_eq h3, rfl⟩

theorem loadOp_eq_some (h : loadOp f3 = some o) :
    takes_imm12 o = true ∧ f3 = (func3s o).setWidth 3 ∧ (opcodes o).setWidth 7 = 0b0000011#7 := by
  unfold loadOp at h
  split at h <;> cases h <;> rename_i h3 <;> exact ⟨rfl, BitVec.eq_of_toNat_eq h3, rfl⟩

theorem storeOp_eq_some (h : storeOp f3 = some o) :
    formats o = .S_TYPE ∧ f3 = (func3s o).setWidth 3 ∧ (opcodes o).setWidth 7 = 0b0100011#7 := by
  unfold storeOp at h
  split at h <;> cases h <;> rename_i h3 <;> exact ⟨rfl, BitVec.eq_of_toNat_eq h3, rfl⟩

theorem branchOp_eq_some (h : branchOp f3 = some o) :
    formats o = .B_TYPE ∧ f3 = (func3s o).setWidth 3 ∧ (opcodes o).setWidth 7 = 0b1100011#7 := by
  unfold branchOp at h
  split at h <;> cases h <;> rename_i h3 <;> exact ⟨rfl, BitVec.eq_of_toNat_eq h3, rfl⟩

end Tables

theorem ofNat5_toNat (x : BitVec 5) : BitVec.ofNat 5 x.toNat = x := BitVec.ofNat_toNat 5 x

/-- The pieces of an immediate are the fields that it was read from. -/
theorem pieces_of_immI (w : BitVec 32) :
    (BitVec.ofInt 32 (immIOf w).toInt).extractLsb' 5 7 = funct7Of w ∧
      (BitVec.ofInt 32 (immIOf w).toInt).extractLsb' 0 5 = rs2Of w := by
  constructor <;> apply BitVec.eq_of_getLsbD_eq <;> intro j hj <;>
    rw [show BitVec.ofInt 32 (immIOf w).toInt = (immIOf w).signExtend 32 from rfl] <;>
    simp only [immIOf, funct7Of, rs2Of, BitVec.getLsbD_extractLsb', BitVec.getLsbD_signExtend] <;>
    interval_cases j <;> simp

theorem pieces_of_immS (w : BitVec 32) :
    (BitVec.ofInt 32 (immSOf w).toInt).extractLsb' 5 7 = funct7Of w ∧
      (BitVec.ofInt 32 (immSOf w).toInt).extractLsb' 0 5 = rdOf w := by
  constructor <;> apply BitVec.eq_of_getLsbD_eq <;> intro j hj <;>
    rw [show BitVec.ofInt 32 (immSOf w).toInt = (immSOf w).signExtend 32 from rfl] <;>
    simp only [immSOf, funct7Of, rdOf, BitVec.getLsbD_extractLsb', BitVec.getLsbD_signExtend,
      BitVec.getLsbD_append] <;>
    interval_cases j <;> simp

theorem pieces_of_immB (w : BitVec 32) :
    (BitVec.ofInt 32 (immBOf w).toInt).extractLsb' 12 1 ++
        (BitVec.ofInt 32 (immBOf w).toInt).extractLsb' 5 6 = funct7Of w ∧
      (BitVec.ofInt 32 (immBOf w).toInt).extractLsb' 1 4 ++
        (BitVec.ofInt 32 (immBOf w).toInt).extractLsb' 11 1 = rdOf w := by
  constructor <;> apply BitVec.eq_of_getLsbD_eq <;> intro j hj <;>
    rw [show BitVec.ofInt 32 (immBOf w).toInt = (immBOf w).signExtend 32 from rfl] <;>
    simp only [immBOf, funct7Of, rdOf, BitVec.getLsbD_extractLsb', BitVec.getLsbD_signExtend,
      BitVec.getLsbD_append] <;>
    interval_cases j <;> simp

theorem pieces_of_immJ (w : BitVec 32) :
    (BitVec.ofInt 32 (immJOf w).toInt).extractLsb' 20 1 ++
        (BitVec.ofInt 32 (immJOf w).toInt).extractLsb' 5 6 = funct7Of w ∧
      (BitVec.ofInt 32 (immJOf w).toInt).extractLsb' 1 4 ++
        (BitVec.ofInt 32 (immJOf w).toInt).extractLsb' 11 1 = rs2Of w ∧
      (BitVec.ofInt 32 (immJOf w).toInt).extractLsb' 15 5 = rs1Of w ∧
      (BitVec.ofInt 32 (immJOf w).toInt).extractLsb' 12 3 = funct3Of w := by
  refine ⟨?_, ?_, ?_, ?_⟩ <;> apply BitVec.eq_of_getLsbD_eq <;> intro j hj <;>
    rw [show BitVec.ofInt 32 (immJOf w).toInt = (immJOf w).signExtend 32 from rfl] <;>
    simp only [immJOf, funct7Of, rs2Of, rs1Of, funct3Of, BitVec.getLsbD_extractLsb',
      BitVec.getLsbD_signExtend, BitVec.getLsbD_append] <;>
    interval_cases j <;> simp

theorem pieces_of_immU (w : BitVec 32) :
    (BitVec.ofInt 32 (immUOf w).toNat).extractLsb' 13 7 = funct7Of w ∧
      (BitVec.ofInt 32 (immUOf w).toNat).extractLsb' 8 5 = rs2Of w ∧
      (BitVec.ofInt 32 (immUOf w).toNat).extractLsb' 3 5 = rs1Of w ∧
      (BitVec.ofInt 32 (immUOf w).toNat).extractLsb' 0 3 = funct3Of w := by
  have hset : BitVec.ofInt 32 (immUOf w).toNat = (immUOf w).setWidth 32 := by
    apply BitVec.eq_of_toNat_eq
    have := (immUOf w).isLt
    rw [BitVec.toNat_ofInt, BitVec.toNat_setWidth]
    omega
  refine ⟨?_, ?_, ?_, ?_⟩ <;> apply BitVec.eq_of_getLsbD_eq <;> intro j hj <;> rw [hset] <;>
    simp only [immUOf, funct7Of, rs2Of, rs1Of, funct3Of, BitVec.getLsbD_extractLsb',
      BitVec.getLsbD_setWidth] <;>
    interval_cases j <;> simp

theorem even_of_low_bit {k : Nat} {x : BitVec (k + 1)} (h : x.getLsbD 0 = false) :
    x.toInt % 2 = 0 := by
  have hbit : x.toNat % 2 = 0 := by
    have hlow : x.toNat.testBit 0 = false := h
    rwa [Nat.testBit_zero, decide_eq_false_iff_not, Nat.mod_two_not_eq_one] at hlow
  rw [BitVec.toInt_eq_toNat_cond, Nat.pow_succ]
  split <;> omega

theorem takes_immB (w : BitVec 32) : assign_type.ASSIGN_BTYPE.Takes (immBOf w).toInt := by
  refine ⟨even_of_low_bit ?_, BitVec.le_toInt (immBOf w), BitVec.toInt_lt⟩
  rw [immBOf, BitVec.getLsbD_append]
  rfl

theorem takes_immJ (w : BitVec 32) : assign_type.ASSIGN_JTYPE.Takes (immJOf w).toInt := by
  refine ⟨even_of_low_bit ?_, BitVec.le_toInt (immJOf w), BitVec.toInt_lt⟩
  rw [immJOf, BitVec.getLsbD_append]
  rfl

section Inversion

variable {w : BitVec 32} {o : op}

theorem range_imm12 (x : BitVec 12) : -2048 ≤ x.toInt ∧ x.toInt ≤ 2047 := by
  have hlo := BitVec.le_toInt x
  have hhi := BitVec.toInt_lt (x := x)
  exact ⟨by simpa using hlo, by omega⟩

theorem itype_encodable (ho : takes_imm12 o = true) (rd rs1 : BitVec 5) (x : BitVec 12) :
    (Instr.imm o rd.toNat rs1.toNat x.toInt).Encodable := by
  simp only [takes_imm12, decide_eq_true_eq] at ho
  obtain ⟨hformat, hs, hno, hno'⟩ := ho
  refine ⟨⟨hformat, hno, hno'⟩, rd.isLt, rs1.isLt, ?_⟩
  rw [if_neg hs]
  exact range_imm12 x

theorem itype_of_fields (ho : takes_imm12 o = true) (h3 : funct3Of w = (func3s o).setWidth 3)
    (hcode : opcodeOf w = (opcodes o).setWidth 7) :
    encode (.imm o (rdOf w).toNat (rs1Of w).toNat (immIOf w).toInt) = w := by
  have hsrai : o ≠ .SRAI := by
    rintro rfl
    cases ho
  obtain ⟨hhigh, hlow⟩ := pieces_of_immI w
  rw [encode, reg_eq_setWidth _ (rdOf w).isLt, reg_eq_setWidth _ (rs1Of w).isLt,
    itype_instr_fields _ _ _ _ hsrai, hhigh, hlow, ofNat5_toNat, ofNat5_toNat, ← h3, ← hcode,
    ofFields_self]

theorem shift_encodable (ho : is_shift o = true) (rd rs1 x : BitVec 5) :
    (Instr.imm o rd.toNat rs1.toNat x.toNat).Encodable := by
  have hformat : formats o = .I_TYPE ∧ o ≠ .ECALL ∧ o ≠ .EBREAK := by
    cases o <;> first | decide | cases ho
  refine ⟨hformat, rd.isLt, rs1.isLt, ?_⟩
  rw [if_pos ho]
  have := x.isLt
  omega

theorem upper_of_fields (ho : formats o = .U_TYPE) {code : Nat}
    (hop : ((opcodes o).setWidth 7).toNat = code) (hcode : (opcodeOf w).toNat = code) :
    (Instr.upper o (rdOf w).toNat (immUOf w).toNat).Encodable ∧
      encode (.upper o (rdOf w).toNat (immUOf w).toNat) = w := by
  have hopcode : opcodeOf w = (opcodes o).setWidth 7 := BitVec.eq_of_toNat_eq (hcode.trans hop.symm)
  obtain ⟨hhigh, hmid, hlow, h3⟩ := pieces_of_immU w
  have hlt := (immUOf w).isLt
  refine ⟨⟨ho, (rdOf w).isLt, by omega, by omega⟩, ?_⟩
  rw [encode, reg_eq_setWidth _ (rdOf w).isLt, utype_instr_fields, hhigh, hmid, hlow, h3,
    ofNat5_toNat, ← hopcode, ofFields_self]

theorem shift_of_fields (ho : is_shift o = true)
    (h7 : funct7Of w = if o = .SRAI then 0b0100000 else 0)
    (h3 : funct3Of w = (func3s o).setWidth 3) (hcode : opcodeOf w = (opcodes o).setWidth 7) :
    encode (.imm o (rdOf w).toNat (rs1Of w).toNat (rs2Of w).toNat) = w := by
  have hlt : ((rs2Of w).toNat : Int) ≤ 31 := by
    have := (rs2Of w).isLt
    omega
  obtain ⟨hhigh, _, hset⟩ := extract_shift (Int.natCast_nonneg _) hlt
  rw [Int.toNat_natCast, ofNat5_toNat] at hset
  rw [encode, reg_eq_setWidth _ (rdOf w).isLt, reg_eq_setWidth _ (rs1Of w).isLt, ofNat5_toNat,
    ofNat5_toNat]
  by_cases hsrai : o = .SRAI
  · subst hsrai
    have h5 : funct3Of w = 0b101 := h3
    have hop : opcodeOf w = 0b0010011 := hcode
    rw [if_pos rfl] at h7
    rw [hset, srai_instr_fields, ← h7, ← h5, ← hop, ofFields_self]
  · have hlow : (BitVec.ofInt 32 (rs2Of w).toNat).extractLsb' 0 5 = rs2Of w := by
      rw [hset]
      apply BitVec.eq_of_getLsbD_eq
      intro j hj
      simp [hj]
      omega
    rw [if_neg hsrai] at h7
    rw [itype_instr_fields _ _ _ _ hsrai, hhigh, hlow, ← h7, ← h3, ← hcode, ofFields_self]

end Inversion

/-- A word that decodes is the one of its instruction. -/
theorem encode_decode {w : BitVec 32} {i : Instr} (h : decode w = some i) :
    i.Encodable ∧ encode i = w := by
  unfold decode at h
  simp only at h
  split at h <;> rename_i hcode
  · obtain ⟨o, ho, rfl⟩ := Option.map_eq_some_iff.mp h
    obtain ⟨hformat, h7, h3, hop⟩ := regOp_eq_some ho
    have hopcode : opcodeOf w = (opcodes o).setWidth 7 := (BitVec.eq_of_toNat_eq hcode).trans hop.symm
    refine ⟨⟨hformat, (rdOf w).isLt, (rs1Of w).isLt, (rs2Of w).isLt⟩, ?_⟩
    rw [encode_reg o (rdOf w).isLt (rs1Of w).isLt (rs2Of w).isLt, ← h7, ← h3, ← hopcode,
      ofNat5_toNat, ofNat5_toNat, ofNat5_toNat, ofFields_self]
  · split at h
    · rename_i o ho
      cases h
      obtain ⟨htakes, h3, hop⟩ := immOp_eq_some ho
      have hopcode : opcodeOf w = (opcodes o).setWidth 7 :=
        (BitVec.eq_of_toNat_eq hcode).trans hop.symm
      exact ⟨itype_encodable htakes _ _ _, itype_of_fields htakes h3 hopcode⟩
    · obtain ⟨o, ho, rfl⟩ := Option.map_eq_some_iff.mp h
      obtain ⟨hs, h7, h3, hop⟩ := shiftOp_eq_some ho
      have hopcode : opcodeOf w = (opcodes o).setWidth 7 :=
        (BitVec.eq_of_toNat_eq hcode).trans hop.symm
      exact ⟨shift_encodable hs _ _ _, shift_of_fields hs h7 h3 hopcode⟩
  · obtain ⟨o, ho, rfl⟩ := Option.map_eq_some_iff.mp h
    obtain ⟨htakes, h3, hop⟩ := loadOp_eq_some ho
    have hopcode : opcodeOf w = (opcodes o).setWidth 7 := (BitVec.eq_of_toNat_eq hcode).trans hop.symm
    exact ⟨itype_encodable htakes _ _ _, itype_of_fields htakes h3 hopcode⟩
  · split at h <;> cases h
    rename_i h3
    exact ⟨itype_encodable rfl _ _ _, itype_of_fields rfl h3 (BitVec.eq_of_toNat_eq hcode)⟩
  · obtain ⟨o, ho, rfl⟩ := Option.map_eq_some_iff.mp h
    obtain ⟨hformat, h3, hop⟩ := storeOp_eq_some ho
    have hopcode : opcodeOf w = (opcodes o).setWidth 7 := (BitVec.eq_of_toNat_eq hcode).trans hop.symm
    obtain ⟨hhigh, hlow⟩ := pieces_of_immS w
    refine ⟨⟨hformat, (rs2Of w).isLt, (rs1Of w).isLt, range_imm12 _⟩, ?_⟩
    rw [encode, reg_eq_setWidth _ (rs2Of w).isLt, reg_eq_setWidth _ (rs1Of w).isLt,
      stype_instr_fields, hhigh, hlow, ofNat5_toNat, ofNat5_toNat, ← h3, ← hopcode, ofFields_self]
  · obtain ⟨o, ho, rfl⟩ := Option.map_eq_some_iff.mp h
    obtain ⟨hformat, h3, hop⟩ := branchOp_eq_some ho
    have hopcode : opcodeOf w = (opcodes o).setWidth 7 := (BitVec.eq_of_toNat_eq hcode).trans hop.symm
    obtain ⟨hhigh, hlow⟩ := pieces_of_immB w
    refine ⟨⟨hformat, (rs1Of w).isLt, (rs2Of w).isLt, takes_immB w⟩, ?_⟩
    rw [encode_branch o _ (rs1Of w).isLt (rs2Of w).isLt, hhigh, hlow, ofNat5_toNat, ofNat5_toNat,
      ← h3, ← hopcode, ofFields_self]
  · cases h
    exact upper_of_fields rfl rfl hcode
  · cases h
    exact upper_of_fields rfl rfl hcode
  · cases h
    obtain ⟨hhigh, hmid, hlow, h3⟩ := pieces_of_immJ w
    have hopcode : opcodeOf w = (opcodes .JAL).setWidth 7 := BitVec.eq_of_toNat_eq hcode
    refine ⟨⟨rfl, (rdOf w).isLt, takes_immJ w⟩, ?_⟩
    rw [encode_jump .JAL _ (rdOf w).isLt, hhigh, hmid, hlow, h3, ofNat5_toNat, ← hopcode,
      ofFields_self]
  · split at h
    · rename_i hw
      cases h
      exact ⟨Or.inl rfl, hw.symm⟩
    · split at h <;> cases h
      rename_i hw
      exact ⟨Or.inr rfl, hw.symm⟩
  · cases h

/-- The instructions and the words that decode are the same, one for one. -/
theorem decode_eq_some_iff {w : BitVec 32} {i : Instr} :
    decode w = some i ↔ i.Encodable ∧ encode i = w := by
  refine ⟨encode_decode, ?_⟩
  rintro ⟨h, rfl⟩
  exact decode_encode h

end riscv_assembler
