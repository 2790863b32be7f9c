-- The tables of `ops.h`, `ops.c` and `directives.h`: the operations and
-- directives with their numbers, and what the encoder reads for each
-- operation. The words of the vocabulary stand in `Vocabulary.lean`.
import Mathlib.Tactic.Common

namespace riscv_assembler

inductive format
  | R_TYPE | I_TYPE | S_TYPE | B_TYPE | U_TYPE | J_TYPE
  deriving DecidableEq, Repr

inductive op
  | ADD | SUB | XOR | OR | AND | SLL | SRL | SRA | SLT | SLTU
  | ADDI | XORI | ORI | ANDI | SLLI | SRLI | SRAI | SLTI | SLTIU
  | LB | LH | LW | LBU | LHU
  | SB | SH | SW
  | BEQ | BNE | BLT | BGE | BLTU | BGEU
  | JALR | ECALL | EBREAK | JAL | LUI | AUIPC
  deriving DecidableEq, Repr

/-- The operations in the order of the enum, so that each stands at its own
number. -/
def op.all : List op :=
  [.ADD, .SUB, .XOR, .OR, .AND, .SLL, .SRL, .SRA, .SLT, .SLTU,
   .ADDI, .XORI, .ORI, .ANDI, .SLLI, .SRLI, .SRAI, .SLTI, .SLTIU,
   .LB, .LH, .LW, .LBU, .LHU,
   .SB, .SH, .SW,
   .BEQ, .BNE, .BLT, .BGE, .BLTU, .BGEU,
   .JALR, .ECALL, .EBREAK, .JAL, .LUI, .AUIPC]

def N_OPS : Nat := op.all.length

/-- The number of an operation in the enum. -/
def op.number (o : op) : Nat := op.all.idxOf o

inductive directive
  | K_BYTE | K_HALF | K_WORD | K_DWORD | K_ASCII | K_SPACE | K_TEXT | K_DATA
  deriving DecidableEq, Repr

def directive.all : List directive :=
  [.K_BYTE, .K_HALF, .K_WORD, .K_DWORD, .K_ASCII, .K_SPACE, .K_TEXT, .K_DATA]

/-- The directives start after the operations, so that both fit in one trie. -/
def directive.number (d : directive) : Nat := N_OPS + directive.all.idxOf d

/-- What the data of a trie entry can mean to `parse_line`: a case of its
switch over directives, or an operation that passes the assert. -/
inductive vocable
  | op (o : op)
  | directive (d : directive)
  deriving DecidableEq, Repr

def vocable.number : vocable → Nat
  | .op o => o.number
  | .directive d => d.number

/-- The vocable with a number, if there is one. -/
def vocable.ofNumber (n : Int) : Option vocable :=
  if n < 0 then none
  else if n < N_OPS then (op.all[n.toNat]?).map .op
  else (directive.all[n.toNat - N_OPS]?).map .directive

theorem vocable.ofNumber_number (v : vocable) : ofNumber v.number = some v := by
  cases v with
  | op o => cases o <;> decide
  | directive d => cases d <;> decide

def formats : op → format
  | .ADD | .SUB | .XOR | .OR | .AND | .SLL | .SRL | .SRA | .SLT | .SLTU => .R_TYPE
  | .ADDI | .XORI | .ORI | .ANDI | .SLLI | .SRLI | .SRAI | .SLTI | .SLTIU => .I_TYPE
  | .LB | .LH | .LW | .LBU | .LHU => .I_TYPE
  | .SB | .SH | .SW => .S_TYPE
  | .BEQ | .BNE | .BLT | .BGE | .BLTU | .BGEU => .B_TYPE
  | .JALR | .ECALL | .EBREAK => .I_TYPE
  | .JAL => .J_TYPE
  | .LUI | .AUIPC => .U_TYPE

def opcodes : op → BitVec 8
  | .ADD | .SUB | .XOR | .OR | .AND | .SLL | .SRL | .SRA | .SLT | .SLTU => 0b0110011
  | .ADDI | .XORI | .ORI | .ANDI | .SLLI | .SRLI | .SRAI | .SLTI | .SLTIU => 0b0010011
  | .LB | .LH | .LW | .LBU | .LHU => 0b0000011
  | .SB | .SH | .SW => 0b0100011
  | .BEQ | .BNE | .BLT | .BGE | .BLTU | .BGEU => 0b1100011
  | .JALR => 0b1100111
  | .ECALL | .EBREAK => 0b1110011
  | .JAL => 0b1101111
  | .LUI => 0b0110111
  | .AUIPC => 0b0010111

/-- The array ends before the J- and U-type operations, and no code reads it
for them. -/
def func3s : op → BitVec 8
  | .ADD | .SUB => 0x0
  | .XOR => 0x4
  | .OR => 0x6
  | .AND => 0x7
  | .SLL => 0x1
  | .SRL | .SRA => 0x5
  | .SLT => 0x2
  | .SLTU => 0x3
  | .ADDI => 0x0
  | .XORI => 0x4
  | .ORI => 0x6
  | .ANDI => 0x7
  | .SLLI => 0x1
  | .SRLI | .SRAI => 0x5
  | .SLTI => 0x2
  | .SLTIU => 0x3
  | .LB => 0x0
  | .LH => 0x1
  | .LW => 0x2
  | .LBU => 0x4
  | .LHU => 0x5
  | .SB => 0x0
  | .SH => 0x1
  | .SW => 0x2
  | .BEQ => 0x0
  | .BNE => 0x1
  | .BLT => 0x4
  | .BGE => 0x5
  | .BLTU => 0x6
  | .BGEU => 0x7
  | .JALR | .ECALL | .EBREAK => 0x0
  | .JAL | .LUI | .AUIPC => 0x0

/-- Only the R-type operations have an entry, and only they read it. -/
def func7s : op → BitVec 8
  | .SUB | .SRA => 0x20
  | _ => 0x00

end riscv_assembler
