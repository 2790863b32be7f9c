-- The parser (`parser.c`): the operand parsers, the directives and
-- `parse_line`, which reads one line and hands what it means to the emitter.
import RiscvAssembler.Emitter
import RiscvAssembler.Lib.Scanner
import RiscvAssembler.Vocabulary

open checked machine_int scanner c_text

namespace riscv_assembler

/-- What a call of `parse_line` changes besides its cursor. -/
structure Process where
  errno : Int
  em : emitter

abbrev Parse (ε α : Type) := Scan Process ε α

variable {σ ε : Type}

/-! ## Characters -/

def whitespace (c : UInt8) : Bool := c == ch ' ' || c == ch '\t' || c == ch '\r'

def identifier (c : UInt8) : Bool :=
  (ch 'a' ≤ c && c ≤ ch 'z') || (ch 'A' ≤ c && c ≤ ch 'Z') || (ch '0' ≤ c && c ≤ ch '9') ||
    c == ch '_'

def decimal (c : UInt8) : Bool := ch '0' ≤ c && c ≤ ch '9'

def skip_whitespace : Scan σ ε Unit := skipWhile whitespace

/-- The text after `expect`, if the text starts with it. -/
def matchLiteral : List UInt8 → List UInt8 → Result (Option (List UInt8))
  | [], text => .ok (some text)
  | _ :: _, [] => .error .outOfBounds
  | e :: expect, c :: text => if c = e then matchLiteral expect text else .ok none

/-- Whether `expect` comes next. If not, the cursor stays. -/
def expect_literal (expect : String) : Scan σ ε Bool := fun text s => do
  let rest ← matchLiteral (chars expect) text
  .ok (.ok (rest.isSome, rest.getD text), s)

/-- Whether `c` comes after the blanks. The blanks are consumed in any case. -/
def expect_char_literal (c : Char) : Scan σ ε Bool := do
  skip_whitespace
  accept (ch c)

/-! ## Operands -/

def parse_reg_long_number : Scan σ Unit Nat := do
  let tens ← next
  if ¬ decimal tens then fail ()
  else do
    let ones ← peek
    if decimal ones then do
      let ones ← next
      pure (10 * (tens.toNat - 48) + (ones.toNat - 48))
    else pure (tens.toNat - 48)

/-- The switch of `parse_reg` over the first character of the name. -/
def parse_reg_name (c : UInt8) : Scan σ Unit Nat :=
  if c = ch 'x' then do
    let res ← parse_reg_long_number
    if res > 31 then fail () else pure res
  else if c = ch 'z' then do
    require (expect_literal "ero") ()
    pure 0
  else if c = ch 'r' then do
    require (expect_literal "a") ()
    pure 1
  else if c = ch 's' then do
    let sp ← expect_literal "p"
    if sp then pure 2
    else do
      let res ← parse_reg_long_number
      if res > 11 then fail () else pure (if res < 2 then res + 8 else res + 16)
  else if c = ch 'g' then do
    require (expect_literal "p") ()
    pure 3
  else if c = ch 't' then do
    let tp ← expect_literal "p"
    if tp then pure 4
    else do
      let res ← parse_reg_long_number
      if res > 6 then fail () else pure (if res < 3 then res + 5 else res + 25)
  else if c = ch 'a' then do
    let res ← parse_reg_long_number
    if res > 7 then fail () else pure (res + 10)
  else if c = ch 'f' then do
    require (expect_literal "p") ()
    pure 8
  else fail ()

def parse_reg : Scan σ Unit Nat := do
  skip_whitespace
  let c ← next
  let r ← parse_reg_name c
  let after ← peek
  if identifier after then fail () else pure r

def parse_imm : Parse Unit Int := fun text p => do
  let (res, rest, errno) ← strtoll text p.errno
  let p := { p with errno }
  if rest = text ∨ ((res = 0 ∨ res = LLONG_MAX ∨ res = LLONG_MIN) ∧ errno ≠ 0) then
    .ok (.error (), p)
  else .ok (.ok (res, rest), p)

def str_parse_identifier : Scan σ ε string := do
  skip_whitespace
  takeWhile identifier

/-- A register and the comma after it. -/
def parse_reg_comma : Scan σ Unit Nat := do
  let r ← parse_reg
  require (expect_char_literal ',') ()
  pure r

def parse_reg_reg_reg : Scan σ Unit (Nat × Nat × Nat) := do
  let r0 ← parse_reg_comma
  let r1 ← parse_reg_comma
  let r2 ← parse_reg
  pure (r0, r1, r2)

/-- An immediate for a field of 12 bits. -/
def parse_imm12 : Parse Unit (BitVec 32) := do
  let res ← parse_imm
  if 2048 ≤ res ∨ res < -2048 then fail () else pure (BitVec.ofInt 32 res)

def parse_reg_reg_imm : Parse Unit (Nat × Nat × BitVec 32) := do
  let r0 ← parse_reg_comma
  let r1 ← parse_reg_comma
  let imm ← parse_imm12
  pure (r0, r1, imm)

def parse_ls_reg_imm_reg : Parse Unit (Nat × BitVec 32 × Nat) := do
  let r0 ← parse_reg_comma
  let imm ← parse_imm12
  require (expect_char_literal '(') ()
  let r1 ← parse_reg
  require (expect_char_literal ')') ()
  pure (r0, imm, r1)

/-! ## Directives -/

/-- `emitter_buffer`, from a parser. -/
def emit (data : List UInt8) : Parse ε Unit := call fun p => do
  let em ← emitter_buffer p.em data
  .ok ((), { p with em })

/-- `emitter_advance`, from a parser. -/
def advance (n : Nat) : Parse ε Unit := call fun p => do
  let em ← emitter_advance p.em n
  .ok ((), { p with em })

/-- The character that a backslash before `c` stands for. -/
def escape (c : UInt8) : Except String UInt8 :=
  if c = ch '"' ∨ c = ch '\\' ∨ c = ch '\n' then .ok c
  else if c = ch 'b' then .ok 8
  else if c = ch 'f' then .ok 12
  else if c = ch 'n' then .ok (ch '\n')
  else if c = ch 'r' then .ok (ch '\r')
  else if c = ch 't' then .ok (ch '\t')
  else if c = 0 then .error "unexpected end of string"
  else .error "unknown escape character"

/-- The loop of `parse_string_literal`, up to the closing quote. -/
def parse_string_loop : Parse String Unit
  | [], _ => .error .outOfBounds
  | c :: text, p =>
    if c = ch '"' then .ok (.ok ((), text), p)
    else if c = 0 ∨ c = ch '\n' then .ok (.error "unexpected end of string literal", p)
    else if c = ch '\\' then
      match text with
      | [] => .error .outOfBounds
      | e :: text =>
        match escape e with
        | .error err => .ok (.error err, p)
        | .ok c => do
          let em ← emitter_buffer p.em [c]
          parse_string_loop text { p with em }
    else do
      let em ← emitter_buffer p.em [c]
      parse_string_loop text { p with em }

theorem parse_string_loop_end {c : UInt8} (hc : c = 0 ∨ c = ch '\n') (text : List UInt8)
    (p : Process) : parse_string_loop (c :: text) p =
      .ok (.error "unexpected end of string literal", p) := by
  have hquote : c ≠ ch '"' := by rcases hc with rfl | rfl <;> decide
  rw [parse_string_loop.eq_def]
  exact (if_neg hquote).trans (if_pos hc)

theorem parse_string_loop_quote (text : List UInt8) (p : Process) :
    parse_string_loop (ch '"' :: text) p = .ok (.ok ((), text), p) := by
  rw [parse_string_loop.eq_def]
  exact if_pos rfl

theorem parse_string_loop_escape (e : UInt8) (text : List UInt8) (p : Process) :
    parse_string_loop (ch '\\' :: e :: text) p =
      (match escape e with
      | .error err => .ok (.error err, p)
      | .ok c => do
        let em ← emitter_buffer p.em [c]
        parse_string_loop text { p with em }) := by
  rw [parse_string_loop.eq_def]
  exact (if_neg (by decide)).trans ((if_neg (by decide)).trans (if_pos rfl))

theorem parse_string_loop_plain {c : UInt8} (hquote : c ≠ ch '"') (hstop : ¬ (c = 0 ∨ c = ch '\n'))
    (hescape : c ≠ ch '\\') (text : List UInt8) (p : Process) :
    parse_string_loop (c :: text) p = (do
      let em ← emitter_buffer p.em [c]
      parse_string_loop text { p with em }) := by
  rw [parse_string_loop.eq_def]
  exact (if_neg hquote).trans ((if_neg hstop).trans (if_neg hescape))

def parse_string_literal : Parse String Unit := do
  let literal ← measured (do
    require (expect_char_literal '"') "expected start of string"
    parse_string_loop)
  advance (literal.2 % 4)

/-- The bound `1LL << (8 * bytes)` counts only for fewer than 8 bytes. -/
def fits_bytes (bytes : Nat) (ibuf : Int) : Bool :=
  decide (8 ≤ bytes) || (decide (ibuf < 2 ^ (8 * bytes)) && decide (-(2 ^ (8 * bytes) / 2) ≤ ibuf))

/-- One turn of the loop of `parse_data_array`: whether a comma follows. -/
def parse_data_element (bytes : Nat) : Parse String Bool := do
  let ibuf ← orFail parse_imm "immediate doesn't fit"
  if ¬ fits_bytes bytes ibuf then fail "immediate doesn't fit"
  else do
    emit (leBytes bytes (toU 64 ibuf))
    expect_char_literal ','

theorem parse_imm_shortens {text rest : List UInt8} {p p' : Process} {imm : Int}
    (h : parse_imm text p = .ok (.ok (imm, rest), p')) :
    rest <:+ text ∧ rest.length < text.length := by
  obtain ⟨⟨res, t, errno⟩, h1, h⟩ := bind_eq_ok.mp h
  have hsuf := strtoll_suffix h1
  simp only at h
  split at h
  · cases h
  · rename_i hno
    cases h
    refine ⟨hsuf, Nat.lt_of_le_of_ne hsuf.length_le fun he => hno (Or.inl ?_)⟩
    exact hsuf.eq_of_length he

theorem expect_char_literal.forward (c : Char) : Forward (expect_char_literal c : Scan σ ε Bool) :=
  (Forward.skipWhile _).bind fun _ => .accept _

theorem parse_data_element_shortens {bytes : Nat} {text rest : List UInt8} {p p' : Process}
    {b : Bool} (h : parse_data_element bytes text p = .ok (.ok (b, rest), p')) :
    rest.length < text.length := by
  obtain ⟨ibuf, mid, p1, h1, h2⟩ := bind_eq_ok_ok.mp h
  have hmid : mid.length < text.length := by
    unfold orFail at h1
    rcases hr : parse_imm text p with f | ⟨_ | ⟨imm, t⟩, p2⟩
    · rw [hr] at h1
      cases h1
    · rw [hr] at h1
      cases h1
    · rw [hr] at h1
      cases h1
      exact (parse_imm_shortens hr).2
  refine Nat.lt_of_le_of_lt (List.IsSuffix.length_le ?_) hmid
  split at h2
  · cases h2
  · exact ((Forward.call _).bind fun _ => expect_char_literal.forward ',') _ _ _ _ _ h2

/-- The loop of `parse_data_array`: the number of bytes that it emitted. -/
def parse_data_loop (bytes bytes_emitted : Nat) (text : List UInt8) (p : Process) :
    Result (Except String (Nat × List UInt8) × Process) :=
  match _h : parse_data_element bytes text p with
  | .error f => .error f
  | .ok (.error err, p) => .ok (.error err, p)
  | .ok (.ok (false, rest), p) => .ok (.ok (bytes_emitted + bytes, rest), p)
  | .ok (.ok (true, rest), p) => parse_data_loop bytes (bytes_emitted + bytes) rest p
termination_by text.length
decreasing_by exact parse_data_element_shortens _h

/-- The equation of the loop, as a scanner. -/
theorem parse_data_loop_eq (bytes bytes_emitted : Nat) :
    @Eq (Parse String Nat) (parse_data_loop bytes bytes_emitted) (do
      let more ← parse_data_element bytes
      if more then parse_data_loop bytes (bytes_emitted + bytes)
      else pure (bytes_emitted + bytes)) := by
  funext text p
  rw [parse_data_loop, bind_run]
  split <;> rename_i h <;> rw [h] <;> rfl

def parse_data_array (bytes : Nat) : Parse String Unit := do
  let bytes_emitted ← (parse_data_loop bytes 0 : Parse String Nat)
  advance (bytes_emitted % 4)

def parse_space : Parse String Unit := do
  let ibuf ← orFail parse_imm "immediate out of range"
  if 4294967296 ≤ ibuf ∨ ibuf < 0 then fail "immediate out of range"
  else advance ibuf.toNat

def switch_section (s : Sect) : Parse ε Unit := call fun p =>
  .ok ((), { p with em := { p.em with current_section := s } })

/-- The switch of `parse_line` over the directives. -/
def parse_directive : directive → Parse String Unit
  | .K_BYTE => parse_data_array 1
  | .K_HALF => parse_data_array 2
  | .K_WORD => parse_data_array 4
  | .K_DWORD => parse_data_array 8
  | .K_TEXT => switch_section .SECT_TEXT
  | .K_DATA => switch_section .SECT_DATA
  | .K_ASCII => parse_string_literal
  | .K_SPACE => parse_space

/-! ## Operations -/

/-- A register in a field of an instruction. -/
def reg (r : Nat) : BitVec 32 := BitVec.ofNat 32 r

def opcode (o : op) : BitVec 32 := (opcodes o).setWidth 32

def func3 (o : op) : BitVec 32 := (func3s o).setWidth 32

def func7 (o : op) : BitVec 32 := (func7s o).setWidth 32

def rtype_instr (o : op) (t0 t1 t2 : BitVec 32) : BitVec 32 :=
  opcode o ||| (t0 <<< 7) ||| (t1 <<< 15) ||| (t2 <<< 20) ||| (func3 o <<< 12) |||
    (func7 o <<< 25)

/-- `srai` has a bit of its own in the immediate. -/
def itype_instr (o : op) (t0 t1 t2 : BitVec 32) : BitVec 32 :=
  (if o = .SRAI then opcode o ||| (0x20 <<< 25) else opcode o) ||| (t0 <<< 7) ||| (t1 <<< 15) |||
    (t2 <<< 20) ||| (func3 o <<< 12)

def stype_instr (o : op) (t0 t1 t2 : BitVec 32) : BitVec 32 :=
  opcode o ||| (t2 <<< 15) ||| (t0 <<< 20) ||| ((t1 &&& 0xfe0) <<< 20) ||| ((t1 &&& 0x1f) <<< 7) |||
    (func3 o <<< 12)

def btype_instr (o : op) (t0 t1 : BitVec 32) : BitVec 32 :=
  opcode o ||| (t0 <<< 15) ||| (t1 <<< 20) ||| (func3 o <<< 12)

def utype_instr (o : op) (t0 imm : BitVec 32) : BitVec 32 :=
  opcode o ||| (t0 <<< 7) ||| (imm <<< 12)

def jtype_instr (o : op) (t0 : BitVec 32) : BitVec 32 := opcode o ||| (t0 <<< 7)

/-- What `parse_line` reads for an operation before it emits it: the whole
instruction, or one that still needs the displacement of a label. -/
inductive Operands
  | whole (instr : BitVec 32)
  | label (assign : assign_type) (instr : BitVec 32) (key : string)

/-- The registers of an I-type operation with its immediate, `t0`, `t1` and
`t2`. -/
def parse_itype : op → Parse String (Nat × Nat × BitVec 32)
  | .ECALL => pure (0, 0, 0)
  | .EBREAK => pure (0, 0, 1)
  | .LB | .LH | .LW | .LBU | .LHU => do
    let (t0, t2, t1) ← orFail parse_ls_reg_imm_reg
      "could not parse register, immediate(register) required for this operation"
    pure (t0, t1, t2)
  | _ => orFail parse_reg_reg_imm
      "could not parse register, register, immediate required for this operation"

/-- The three ways to read the operands of an I-type operation. -/
theorem parse_itype_eq (o : op) :
    parse_itype o = (do
      let (t0, t2, t1) ← orFail parse_ls_reg_imm_reg
        "could not parse register, immediate(register) required for this operation"
      pure (t0, t1, t2)) ∨
    parse_itype o = orFail parse_reg_reg_imm
      "could not parse register, register, immediate required for this operation" ∨
    ∃ x, parse_itype o = pure x := by
  cases o <;> first
    | exact Or.inl rfl
    | exact Or.inr (Or.inl rfl)
    | exact Or.inr (Or.inr ⟨_, rfl⟩)

def is_shift (o : op) : Bool := o = .SRAI ∨ o = .SLLI ∨ o = .SRLI

/-- The registers of a branch, each with the comma after it. -/
def parse_branch_regs : Scan σ Unit (Nat × Nat) := do
  let t0 ← parse_reg_comma
  let t1 ← parse_reg_comma
  pure (t0, t1)

/-- A register and the upper 20 bits of an immediate. -/
def parse_reg_imm20 : Parse Unit (Nat × Int) := do
  let t0 ← parse_reg_comma
  let ibuf ← parse_imm
  if 1048576 ≤ ibuf ∨ ibuf < 0 then fail () else pure (t0, ibuf)

def parse_label_operand : Parse String string := do
  let lstr ← str_parse_identifier
  if lstr.length = 0 then fail "invalid label" else pure lstr

/-- The switch of `parse_line` over the formats. -/
def parse_operands (o : op) : Parse String Operands :=
  match formats o with
  | .R_TYPE => do
    let (t0, t1, t2) ← orFail parse_reg_reg_reg
      "could not parse register, register, register required for this operation"
    pure (.whole (rtype_instr o (reg t0) (reg t1) (reg t2)))
  | .I_TYPE => do
    let (t0, t1, t2) ← parse_itype o
    if is_shift o ∧ t2.toNat > 31 then fail "immediate out of range for shift operation"
    else pure (.whole (itype_instr o (reg t0) (reg t1) t2))
  | .S_TYPE => do
    let (t0, t1, t2) ← orFail parse_ls_reg_imm_reg
      "could not parse register, immediate(register) required for this operation"
    pure (.whole (stype_instr o (reg t0) t1 (reg t2)))
  | .B_TYPE => do
    let (t0, t1) ← orFail parse_branch_regs
      "could not parse register, register required for this operation"
    let lstr ← parse_label_operand
    pure (.label .ASSIGN_BTYPE (btype_instr o (reg t0) (reg t1)) lstr)
  | .U_TYPE => do
    let (t0, ibuf) ← orFail parse_reg_imm20
      "could not parse register, immediate required for this operation"
    pure (.whole (utype_instr o (reg t0) (BitVec.ofInt 32 ibuf)))
  | .J_TYPE => do
    let t0 ← orFail parse_reg_comma "could not parse register required for this operation"
    let lstr ← parse_label_operand
    pure (.label .ASSIGN_JTYPE (jtype_instr o (reg t0)) lstr)

/-- The instruction with the displacement of its label, if the label has a
value. If not, a waiter was added for it. -/
def emitter_reference (em : emitter) (assign : assign_type) (instr : BitVec 32) (key : string) :
    Result (BitVec 32 × emitter) := do
  let (lbval, em) ← emitter_label_get_or_add_waiter em key assign
  if lbval < 0 then .ok (instr, em)
  else
    let lbval := toS 64 (lbval - em.cur.vaddr)
    let lbval := toS 64 (lbval - em.cur.pos)
    .ok (assign.set_imm instr (BitVec.ofInt 32 lbval), em)

def emit_operands : Operands → Parse ε Unit
  | .whole instr => emit (instr_bytes instr)
  | .label assign instr key => do
    let instr ← call fun p => do
      let (instr, em) ← emitter_reference p.em assign instr key
      .ok (instr, { p with em })
    emit (instr_bytes instr)

def parse_op (o : op) : Parse String Unit := do
  let operands ← parse_operands o
  emit_operands operands

/-! ## Lines -/

/-- The loop of `parse_line` over the trie: the number of the word if the trie
has it. -/
def trie_walk (pos : trie) (here : UInt8) : Scan σ ε (Option Int)
  | [], _ => .error .outOfBounds
  | c :: text, s =>
    if ¬ identifier c then do
      let termidx ← trie_term pos here
      if termidx < 0 then .ok (.ok (none, c :: text), s)
      else do
        let operation ← load tbase_auxiliary termidx
        .ok (.ok (some operation, c :: text), s)
    else do
      let nextidx ← trie_next pos here
      if nextidx < 0 then .ok (.ok (none, c :: text), s)
      else do
        let n ← load tbase_auxiliary nextidx
        let pos ← load tbase n
        trie_walk pos c text s

/-- `tbase[0]`. -/
def tbase_root : Scan σ ε trie := fun text s => do
  let pos ← load tbase 0
  .ok (.ok (pos, text), s)

def parse_known (operation : Int) : Parse String Unit :=
  match vocable.ofNumber operation with
  | some (.directive d) => parse_directive d
  | some (.op o) => parse_op o
  | none => halt .assertion

def label_add (key : string) : Parse ε Int := call fun p => do
  let (res, em) ← emitter_label_add p.em key
  .ok (res, { p with em })

/-- The name of a label and the colon after it. -/
def parse_label_name : Scan σ String string := do
  let lstr ← str_parse_identifier
  if lstr.length = 0 then fail "unknown operation/directive"
  else do
    require (expect_char_literal ':') "unknown operation/directive"
    pure lstr

def parse_label : Parse String Unit := do
  let lstr ← parse_label_name
  let res ← label_add lstr
  if res ≠ 0 then fail "label redefined" else pure ()

/-- The number of the word that comes next. The cursor goes back if the trie
has no such word. -/
def parse_word : Scan σ ε (Option Int) := do
  let rewind ← cursor
  let pos ← tbase_root
  let here ← next
  let known ← trie_walk pos here
  match known with
  | some operation => pure (some operation)
  | none => do
    seek rewind
    pure none

/-- The line from its first character that is no blank. -/
def parse_statement : Parse String Unit := do
  let known ← parse_word
  match known with
  | some operation => parse_known operation
  | none => parse_label

def out_check_line : Scan σ String Unit := do
  skip_whitespace
  let c ← peek
  if c ≠ ch '\n' ∧ c ≠ 0 then fail "extra tokens" else pure ()

/-- An error is the text that `parse_line` gives back, and no error is `NULL`. A
blank line leaves the cursor where it was. -/
def parse_line : Parse String Unit := do
  let start ← cursor
  skip_whitespace
  let c ← peek
  if c = ch '\n' then seek start
  else do
    parse_statement
    out_check_line

end riscv_assembler
