-- RV32I as the processor reads it: the fields of an instruction word, its
-- immediates and the instruction that it decodes to. Nothing here comes from the
-- tables of the assembler.
import RiscvAssembler.Ops

namespace riscv_assembler

/-! ## Fields -/

def opcodeOf (w : BitVec 32) : BitVec 7 := w.extractLsb' 0 7

def rdOf (w : BitVec 32) : BitVec 5 := w.extractLsb' 7 5

def funct3Of (w : BitVec 32) : BitVec 3 := w.extractLsb' 12 3

def rs1Of (w : BitVec 32) : BitVec 5 := w.extractLsb' 15 5

def rs2Of (w : BitVec 32) : BitVec 5 := w.extractLsb' 20 5

def funct7Of (w : BitVec 32) : BitVec 7 := w.extractLsb' 25 7

/-! ## Immediates -/

/-- The 12 bits of an I-type immediate. -/
def immIOf (w : BitVec 32) : BitVec 12 := w.extractLsb' 20 12

/-- The 12 bits of an S-type immediate: 11 to 5, then 4 to 0. -/
def immSOf (w : BitVec 32) : BitVec 12 := w.extractLsb' 25 7 ++ w.extractLsb' 7 5

/-- The 13 bits of a B-type immediate: 12, 11, 10 to 5, 4 to 1, and a zero. -/
def immBOf (w : BitVec 32) : BitVec 13 :=
  w.extractLsb' 31 1 ++ w.extractLsb' 7 1 ++ w.extractLsb' 25 6 ++ w.extractLsb' 8 4 ++ 0#1

/-- The upper 20 bits. -/
def immUOf (w : BitVec 32) : BitVec 20 := w.extractLsb' 12 20

/-- The 21 bits of a J-type immediate: 20, 19 to 12, 11, 10 to 1, and a zero. -/
def immJOf (w : BitVec 32) : BitVec 21 :=
  w.extractLsb' 31 1 ++ w.extractLsb' 12 8 ++ w.extractLsb' 20 1 ++ w.extractLsb' 21 10 ++ 0#1

/-! ## Instructions -/

/-- An instruction with its registers and its immediate, whatever the size of
the immediate. -/
inductive Instr
  | reg (o : op) (rd rs1 rs2 : Nat)
  | imm (o : op) (rd rs1 : Nat) (v : Int)
  | store (o : op) (rs2 : Nat) (v : Int) (rs1 : Nat)
  | branch (o : op) (rs1 rs2 : Nat) (v : Int)
  | upper (o : op) (rd : Nat) (v : Int)
  | jump (o : op) (rd : Nat) (v : Int)
  | system (o : op)
  deriving DecidableEq, Repr

/-- The operations on two registers. -/
def regOp (funct7 : BitVec 7) (funct3 : BitVec 3) : Option op :=
  match funct7.toNat, funct3.toNat with
  | 0b0000000, 0b000 => some .ADD
  | 0b0100000, 0b000 => some .SUB
  | 0b0000000, 0b001 => some .SLL
  | 0b0000000, 0b010 => some .SLT
  | 0b0000000, 0b011 => some .SLTU
  | 0b0000000, 0b100 => some .XOR
  | 0b0000000, 0b101 => some .SRL
  | 0b0100000, 0b101 => some .SRA
  | 0b0000000, 0b110 => some .OR
  | 0b0000000, 0b111 => some .AND
  | _, _ => none

/-- The operations on a register and an immediate of 12 bits. -/
def immOp (funct3 : BitVec 3) : Option op :=
  match funct3.toNat with
  | 0b000 => some .ADDI
  | 0b010 => some .SLTI
  | 0b011 => some .SLTIU
  | 0b100 => some .XORI
  | 0b110 => some .ORI
  | 0b111 => some .ANDI
  | _ => none

/-- The shifts by an immediate of 5 bits. -/
def shiftOp (funct7 : BitVec 7) (funct3 : BitVec 3) : Option op :=
  match funct7.toNat, funct3.toNat with
  | 0b0000000, 0b001 => some .SLLI
  | 0b0000000, 0b101 => some .SRLI
  | 0b0100000, 0b101 => some .SRAI
  | _, _ => none

def loadOp (funct3 : BitVec 3) : Option op :=
  match funct3.toNat with
  | 0b000 => some .LB
  | 0b001 => some .LH
  | 0b010 => some .LW
  | 0b100 => some .LBU
  | 0b101 => some .LHU
  | _ => none

def storeOp (funct3 : BitVec 3) : Option op :=
  match funct3.toNat with
  | 0b000 => some .SB
  | 0b001 => some .SH
  | 0b010 => some .SW
  | _ => none

def branchOp (funct3 : BitVec 3) : Option op :=
  match funct3.toNat with
  | 0b000 => some .BEQ
  | 0b001 => some .BNE
  | 0b100 => some .BLT
  | 0b101 => some .BGE
  | 0b110 => some .BLTU
  | 0b111 => some .BGEU
  | _ => none

/-- The instruction that a word is, if it is one. -/
def decode (w : BitVec 32) : Option Instr :=
  let rd := (rdOf w).toNat
  let rs1 := (rs1Of w).toNat
  let rs2 := (rs2Of w).toNat
  match (opcodeOf w).toNat with
  | 0b0110011 => (regOp (funct7Of w) (funct3Of w)).map fun o => .reg o rd rs1 rs2
  | 0b0010011 =>
    match immOp (funct3Of w) with
    | some o => some (.imm o rd rs1 (immIOf w).toInt)
    | none => (shiftOp (funct7Of w) (funct3Of w)).map fun o => .imm o rd rs1 rs2
  | 0b0000011 => (loadOp (funct3Of w)).map fun o => .imm o rd rs1 (immIOf w).toInt
  | 0b1100111 => if funct3Of w = 0 then some (.imm .JALR rd rs1 (immIOf w).toInt) else none
  | 0b0100011 => (storeOp (funct3Of w)).map fun o => .store o rs2 (immSOf w).toInt rs1
  | 0b1100011 => (branchOp (funct3Of w)).map fun o => .branch o rs1 rs2 (immBOf w).toInt
  | 0b0110111 => some (.upper .LUI rd (immUOf w).toNat)
  | 0b0010111 => some (.upper .AUIPC rd (immUOf w).toNat)
  | 0b1101111 => some (.jump .JAL rd (immJOf w).toInt)
  | 0b1110011 =>
    if w = 0x00000073 then some (.system .ECALL)
    else if w = 0x00100073 then some (.system .EBREAK)
    else none
  | _ => none

example : decode 0xffb10093 = some (.imm .ADDI 1 2 (-5)) := by decide

end riscv_assembler
