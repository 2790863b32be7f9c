-- A disassembler for single words, and what `parse_line` makes of the lines that it
-- prints: an instruction with a label is read with its label, and any other
-- instruction is assembled to the word that it was printed for.
import Mathlib.Tactic.Ring
import RiscvAssembler.InstructionWords
import RiscvAssembler.LineLocality
import RiscvAssembler.Recognition

open checked scanner c_text

namespace riscv_assembler

variable {σ ε : Type}

/-! ## Numbers -/

/-- The lowest `k` digits of a number in hexadecimal, the highest first. -/
def hex_digits : Nat → Nat → List UInt8
  | 0, _ => []
  | k + 1, n => (chars "0123456789abcdef").getD (n / 16 ^ k % 16) 0 :: hex_digits k n

theorem hex_digit : ∀ d < 16, digitOf 16 ((chars "0123456789abcdef").getD d 0) = some d := by
  decide

theorem hex_digits_spec (k n a : Nat) : Digits 16 a (hex_digits k n) (a * 16 ^ k + n % 16 ^ k) := by
  induction k generalizing a with
  | zero =>
    rw [Nat.pow_zero, Nat.mod_one, Nat.mul_one]
    exact .nil a
  | succ k ih =>
    have hdigit := hex_digit (n / 16 ^ k % 16) (Nat.mod_lt _ (by decide))
    have hvalue : a * 16 ^ (k + 1) + n % 16 ^ (k + 1) =
        (a * 16 + n / 16 ^ k % 16) * 16 ^ k + n % 16 ^ k := by
      rw [Nat.mod_pow_succ, Nat.pow_succ]
      ring
    rw [hvalue]
    exact .cons hdigit (ih _)

theorem hex_digits_identifier (k n : Nat) : ∀ x ∈ hex_digits k n, identifier x = true := by
  have hall : ∀ d < 16, identifier ((chars "0123456789abcdef").getD d 0) = true := by decide
  induction k with
  | zero => exact fun x hx => absurd hx List.not_mem_nil
  | succ k ih =>
    intro x hx
    rcases List.mem_cons.mp hx with rfl | hx
    · exact hall _ (Nat.mod_lt _ (by decide))
    · exact ih x hx

/-- The number is read back from its digits. -/
theorem hex_digits_inj {k n m : Nat} (hn : n < 16 ^ k) (hm : m < 16 ^ k)
    (h : hex_digits k n = hex_digits k m) : n = m := by
  have hread : ∀ x : Nat, readDigits 16 0 (hex_digits k x ++ [ch '\n']) =
      .ok (0 * 16 ^ k + x % 16 ^ k, [ch '\n']) := fun x =>
    readDigits_digits (hex_digits_spec k x 0) newline_ends.1 []
  have hsame := (hread n).symm.trans (h ▸ hread m)
  simp only [Nat.mod_eq_of_lt hn, Nat.mod_eq_of_lt hm, Nat.zero_mul, Nat.zero_add] at hsame
  exact (Prod.mk.inj (Except.ok.inj hsame)).1

/-- An immediate of up to 20 bits, in hexadecimal with its sign. -/
def imm_text (v : Int) : List UInt8 :=
  (if v < 0 then [ch '-'] else []) ++ (chars "0x" ++ hex_digits 5 v.natAbs)

theorem imm_text_literal {v : Int} (hlo : -1048576 < v) (hhi : v < 1048576) :
    Literal (imm_text v) v := by
  have hnumber : Unsigned (chars "0x" ++ hex_digits 5 v.natAbs) v.natAbs := by
    have hdigits := hex_digits_spec 5 v.natAbs 0
    rw [Nat.mod_eq_of_lt (by omega), Nat.zero_mul, Nat.zero_add] at hdigits
    exact .hex (Or.inl rfl) hdigits
  unfold imm_text
  by_cases hv : v < 0
  · have hminus := Literal.minus hnumber
    rw [show -(v.natAbs : Int) = v by omega] at hminus
    rw [if_pos hv]
    exact hminus
  · rw [if_neg hv, List.nil_append]
    have := Literal.plain hnumber
    rwa [Int.natAbs_of_nonneg (Int.not_lt.mp hv)] at this

/-! ## Lines of instructions -/

/-- A register by its number, with two digits. -/
def reg_text (r : Nat) : List UInt8 := [ch 'x', UInt8.ofNat (48 + r / 10), UInt8.ofNat (48 + r % 10)]

theorem reg_text_name : ∀ {r : Nat}, r < 32 → RegName (reg_text r) r := by
  intro r hr
  have hdigits : decimal (UInt8.ofNat (48 + r / 10)) = true ∧
      decimal (UInt8.ofNat (48 + r % 10)) = true ∧
      10 * ((UInt8.ofNat (48 + r / 10)).toNat - 48) +
        ((UInt8.ofNat (48 + r % 10)).toNat - 48) = r := by
    interval_cases r <;> decide
  obtain ⟨htens, hones, hvalue⟩ := hdigits
  have hnumber := ShortNumber.two htens hones
  rw [hvalue] at hnumber
  exact .x hnumber (Nat.le_of_lt_succ hr)

/-- The word of the vocabulary for an operation. -/
def mnemonic (o : op) : String :=
  ((vocabulary.find? fun w => w.2 = .op o).map Prod.fst).getD ""

theorem mnemonic_mem (o : op) : (mnemonic o, vocable.op o) ∈ vocabulary := by
  cases o <;> decide

theorem mnemonic_unique (o : op) : ∀ w ∈ vocabulary, w.1 = mnemonic o → w.2 = .op o := by
  cases o <;> decide

def Instr.op : Instr → op
  | .reg o _ _ _ | .imm o _ _ _ | .store o _ _ _ | .branch o _ _ _ | .upper o _ _ | .jump o _ _
  | .system o => o

/-- The operands, with a label for the target of a branch or a jump. -/
def Instr.operands (target : string) : Instr → List (List UInt8)
  | .reg _ rd rs1 rs2 => [reg_text rd, [ch ','], reg_text rs1, [ch ','], reg_text rs2]
  | .imm o rd rs1 v =>
    if o ∈ [op.LB, op.LH, op.LW, op.LBU, op.LHU] then
      [reg_text rd, [ch ','], imm_text v, [ch '('], reg_text rs1, [ch ')']]
    else [reg_text rd, [ch ','], reg_text rs1, [ch ','], imm_text v]
  | .store _ rs2 v rs1 => [reg_text rs2, [ch ','], imm_text v, [ch '('], reg_text rs1, [ch ')']]
  | .branch _ rs1 rs2 _ => [reg_text rs1, [ch ','], reg_text rs2, [ch ','], target]
  | .upper _ rd v => [reg_text rd, [ch ','], imm_text v]
  | .jump _ rd _ => [reg_text rd, [ch ','], target]
  | .system _ => []

/-- Tokens, each after one blank. -/
def spaced (ts : List (List UInt8)) : List UInt8 := ts.flatMap (ch ' ' :: ·)

/-- The line of an instruction. -/
def Instr.line (target : string) (i : Instr) : List UInt8 :=
  chars (mnemonic i.op) ++ spaced (i.operands target)

theorem spaced_padded (ts : List (List UInt8)) : Padded ts (spaced ts) := by
  have hblank : Blanks [ch ' '] := by unfold Blanks; decide
  induction ts with
  | nil => exact .done fun x hx => absurd hx List.not_mem_nil
  | cons t ts ih => exact .token hblank ih

/-- The word of a branch or a jump without its displacement, and the displacement. -/
def Instr.link : Instr → Option (assign_type × BitVec 32 × Int)
  | .branch o rs1 rs2 v =>
    some (.ASSIGN_BTYPE, btype_instr o (riscv_assembler.reg rs1) (riscv_assembler.reg rs2), v)
  | .jump o rd v => some (.ASSIGN_JTYPE, jtype_instr o (riscv_assembler.reg rd), v)
  | _ => none

theorem encode_of_link {i : Instr} {assign : assign_type} {instr : BitVec 32} {d : Int}
    (h : i.link = some (assign, instr, d)) : encode i = assign.set_imm instr (BitVec.ofInt 32 d) := by
  cases i <;> cases h <;> rfl

theorem Instr.Encodable.inRange {i : Instr} (h : i.Encodable) : i.InRange := by
  cases i with
  | imm o rd rs1 v => exact h.2.2.2
  | store o rs2 v rs1 => exact h.2.2.2
  | upper o rd v => exact h.2.2
  | _ => exact trivial

/-- The operands are spelled as the grammar wants them. -/
theorem Instr.Encodable.tokens {i : Instr} (h : i.Encodable) (hno : i.link = none) (target : string) :
    Tokens (mnemonic i.op) (i.operands target) i := by
  have hm := mnemonic_mem i.op
  have himm : ∀ v : Int, -2048 ≤ v → v ≤ 2047 → Literal (imm_text v) v := fun v hlo hhi =>
    imm_text_literal (by omega) (by omega)
  cases i with
  | reg o rd rs1 rs2 =>
    exact .reg hm h.1 (reg_text_name h.2.1) (reg_text_name h.2.2.1) (reg_text_name h.2.2.2)
  | imm o rd rs1 v =>
    obtain ⟨⟨hformat, hecall, hebreak⟩, h0, h1, hv⟩ := h
    have hliteral : Literal (imm_text v) v := by
      by_cases hs : is_shift o = true
      · rw [if_pos hs] at hv
        exact himm v (by omega) (by omega)
      · rw [if_neg hs] at hv
        exact himm v hv.1 hv.2
    simp only [Instr.operands]
    by_cases hload : o ∈ [op.LB, op.LH, op.LW, op.LBU, op.LHU]
    · rw [if_pos hload]
      exact .load hm hload (reg_text_name h0) hliteral (reg_text_name h1)
    · rw [if_neg hload]
      refine .imm hm hformat ?_ (reg_text_name h0) (reg_text_name h1) hliteral
      rw [List.mem_cons, List.mem_cons]
      exact not_or.mpr ⟨hecall, not_or.mpr ⟨hebreak, hload⟩⟩
  | store o rs2 v rs1 =>
    obtain ⟨hformat, h0, h1, hlo, hhi⟩ := h
    exact .store hm hformat (reg_text_name h0) (himm v hlo hhi) (reg_text_name h1)
  | upper o rd v =>
    obtain ⟨hformat, h0, hlo, hhi⟩ := h
    exact .upper hm hformat (reg_text_name h0) (imm_text_literal (by omega) (by omega))
  | system o =>
    rcases h with rfl | rfl <;> exact .system hm (by decide)
  | branch o rs1 rs2 v => cases hno
  | jump o rd v => cases hno

/-! ## Names of labels -/

/-- A name of a label that is no word of the vocabulary. -/
structure LabelName (key : string) : Prop where
  ne_nil : key ≠ []
  identifier : ∀ x ∈ key, identifier x = true
  not_spelled : ∀ v, ¬ Spelled key v

theorem identifier_not_blank : ∀ c : UInt8, identifier c = true → whitespace c = false :=
  forall_byte (by decide +kernel)

theorem str_parse_identifier_run {p t : List UInt8} (hp : Blanks p) (hne : t ≠ [])
    (ht : ∀ x ∈ t, identifier x = true) {c : UInt8} (hc : identifier c = false)
    (rest : List UInt8) (s : σ) :
    (str_parse_identifier : Scan σ ε string) (p ++ (t ++ c :: rest)) s =
      .ok (.ok (t, c :: rest), s) := by
  obtain ⟨d, ds, rfl⟩ := List.exists_cons_of_ne_nil hne
  have hd := identifier_not_blank d (ht d List.mem_cons_self)
  rw [str_parse_identifier, List.cons_append, bind_run_ok (skip_whitespace_run hp hd _ s),
    ← List.cons_append]
  exact takeWhile_append ht hc

theorem Padded.label {ts : List (List UInt8)} {t text : List UInt8} (h : Padded (t :: ts) text)
    (hts : MarkFirst ts) (ht : LabelName t) (rest : List UInt8) (s : σ) :
    ∃ after, Padded ts after ∧ (str_parse_identifier : Scan σ ε string) (text ++ ch '\n' :: rest) s =
      .ok (.ok (t, after ++ ch '\n' :: rest), s) := by
  rcases h with _ | ⟨hp, h⟩
  obtain ⟨c, l, heq, hc⟩ := h.head hts rest
  refine ⟨_, h, ?_⟩
  rw [List.append_assoc, List.append_assoc, heq]
  exact str_parse_identifier_run hp ht.ne_nil ht.identifier hc l s

theorem parse_label_operand_run {t text : List UInt8} (h : Padded [t] text) (ht : LabelName t)
    (rest : List UInt8) (p : Process) : ∃ after, Padded [] after ∧
      parse_label_operand (text ++ ch '\n' :: rest) p =
        .ok (.ok (t, after ++ ch '\n' :: rest), p) := by
  obtain ⟨after, hafter, hrun⟩ := h.label (ε := String) (Or.inl rfl) ht rest p
  have hlen : t.length ≠ 0 := fun hc => ht.ne_nil (List.length_eq_zero_iff.mp hc)
  refine ⟨after, hafter, ?_⟩
  rw [parse_label_operand, bind_run_ok hrun, if_neg hlen]
  rfl

/-! ## Reading the lines -/

theorem parse_word_known {m : String} {v : vocable} (hm : (m, v) ∈ vocabulary) {c : UInt8}
    (hc : identifier c = false) (rest : List UInt8) (s : σ) :
    (parse_word : Scan σ ε (Option Int)) (chars m ++ c :: rest) s =
      .ok (.ok (some (v.number : Int), c :: rest), s) := by
  obtain ⟨d, ds, heq, _, _, hds⟩ := vocabulary_spelling _ hm
  simp only at heq
  have hspelled : Spelled (d :: ds) v := ⟨m, hm, heq⟩
  rw [heq]
  refine (parse_word_run d hds hc rest s).1 v ?_
  rw [ascii_of_lt hspelled.ascii]
  exact hspelled

theorem parse_word_unknown {key : string} (hkey : LabelName key) {c : UInt8}
    (hc : identifier c = false) (rest : List UInt8) (s : σ) :
    (parse_word : Scan σ ε (Option Int)) (key ++ c :: rest) s =
      .ok (.ok (none, key ++ c :: rest), s) := by
  obtain ⟨d, ds, rfl⟩ := List.exists_cons_of_ne_nil hkey.ne_nil
  have hascii : ∀ c : UInt8, identifier c = true → c.toNat < 128 := forall_byte (by decide +kernel)
  refine (parse_word_run d (fun x hx => hkey.identifier x (List.mem_cons_of_mem d hx)) hc rest s).2
    fun v hv => ?_
  rw [ascii_of_lt (hascii d (hkey.identifier d List.mem_cons_self))] at hv
  exact hkey.not_spelled v hv

/-- A line is read from its first character on, if that is no blank. -/
theorem read_line_head {d : UInt8} (hblank : whitespace d = false) (hnl : d ≠ ch '\n')
    (text : List UInt8) (p : Process) :
    read_line (d :: text) p = read_statement (d :: text) p := by
  have hnone : Blanks [] := fun x hx => absurd hx List.not_mem_nil
  rw [read_line, ← List.nil_append (d :: text), bind_run_ok (skip_whitespace_run hnone hblank _ p),
    bind_run_ok (peek_cons d), if_neg hnl]
  rfl

theorem spaced_head (ts : List (List UInt8)) (rest : List UInt8) :
    ∃ c l, spaced ts ++ ch '\n' :: rest = c :: l ∧ identifier c = false := by
  cases ts with
  | nil => exact ⟨_, _, rfl, by decide⟩
  | cons t ts => exact ⟨_, _, rfl, by decide⟩

/-- The line of an operation whose operands are read. -/
theorem parse_line_operation {o : op} {ts : List (List UInt8)} {after rest : List UInt8}
    {x : Operands} {p : Process}
    (hrun : parse_operands o (spaced ts ++ ch '\n' :: rest) p =
      .ok (.ok (x, after ++ ch '\n' :: rest), p)) :
    parse_line (chars (mnemonic o) ++ (spaced ts ++ ch '\n' :: rest)) p =
      (emit_operands x >>= fun _ => out_check_line) (after ++ ch '\n' :: rest) p := by
  have hnone : Blanks [] := fun x hx => absurd hx List.not_mem_nil
  obtain ⟨c, l, heq, hc⟩ := spaced_head ts rest
  rw [heq, ← List.nil_append (chars (mnemonic o) ++ c :: l),
    parse_line_known (mnemonic_mem o) hnone hc l p, ← heq, parse_known_op, parse_op, bind_run,
    bind_run_ok hrun]
  rfl

theorem read_line_head_word (o : op) (ts : List (List UInt8)) (rest : List UInt8) (p : Process) :
    ∃ d ds, chars (mnemonic o) ++ (spaced ts ++ ch '\n' :: rest) = d :: ds ∧
      read_line (d :: ds) p = read_statement (d :: ds) p ∧
      (parse_word : Parse String (Option Int)) (d :: ds) p =
        .ok (.ok (some ((vocable.op o).number : Int), spaced ts ++ ch '\n' :: rest), p) := by
  obtain ⟨c, l, heq, hc⟩ := spaced_head ts rest
  obtain ⟨d, ds, hword, hblank, hnl, _⟩ := vocabulary_spelling _ (mnemonic_mem o)
  simp only at hword
  have hrun := parse_word_known (ε := String) (mnemonic_mem o) hc l p
  rw [← heq, hword] at hrun
  exact ⟨d, _, by rw [hword]; rfl, read_line_head hblank hnl _ p, hrun⟩

theorem read_line_target {o : op} (ho : formats o = .B_TYPE ∨ formats o = .J_TYPE)
    {ts : List (List UInt8)} {after rest : List UInt8} {assign : assign_type} {instr : BitVec 32}
    {key : string} {p : Process}
    (hrun : parse_operands o (spaced ts ++ ch '\n' :: rest) p =
      .ok (.ok (.label assign instr key, after), p)) :
    read_line (chars (mnemonic o) ++ (spaced ts ++ ch '\n' :: rest)) p =
      .ok (.ok (.refer assign instr key, after), p) := by
  obtain ⟨d, ds, heq, hread, hword⟩ := read_line_head_word o ts rest p
  rw [heq, hread, read_statement, bind_run_ok hword]
  simp only [vocable.ofNumber_number, if_pos ho]
  rw [bind_run_ok hrun]
  rfl

theorem read_line_whole {o : op} (ho : ¬ (formats o = .B_TYPE ∨ formats o = .J_TYPE))
    (ts : List (List UInt8)) (rest : List UInt8) (p : Process) :
    read_line (chars (mnemonic o) ++ (spaced ts ++ ch '\n' :: rest)) p =
      .ok (.ok (.other, spaced ts ++ ch '\n' :: rest), p) := by
  obtain ⟨d, ds, heq, hread, hword⟩ := read_line_head_word o ts rest p
  rw [heq, hread, read_statement, bind_run_ok hword]
  simp only [vocable.ofNumber_number, if_neg ho]
  rfl

theorem emit_whole_run (w : BitVec 32) {after : List UInt8} (hafter : Padded [] after)
    (rest : List UInt8) (em : emitter) :
    (emit_operands (.whole w) >>= fun _ => out_check_line : Parse String Unit)
        (after ++ ch '\n' :: rest) ⟨0, em⟩ = (do
      let em ← emitter_buffer em (instr_bytes w)
      .ok (.ok ((), ch '\n' :: rest), ⟨0, em⟩)) := by
  rw [bind_run, emit_operands, emit, call]
  rcases emitter_buffer em (instr_bytes w) with f | em'
  · rfl
  · exact hafter.end_of_line rest _

/-- A line without a label is assembled to the word that it was printed for. -/
theorem parse_line_whole {i : Instr} (h : i.Encodable) (hlink : i.link = none) (target : string)
    (rest : List UInt8) (em : emitter) :
    parse_line (i.line target ++ ch '\n' :: rest) ⟨0, em⟩ = (do
      let em ← emitter_buffer em (instr_bytes (encode i))
      .ok (.ok ((), ch '\n' :: rest), ⟨0, em⟩)) := by
  obtain ⟨o, hm, hread⟩ := (h.tokens hlink target).read
  obtain rfl : o = i.op := vocable.op.inj (mnemonic_unique i.op _ hm rfl)
  obtain ⟨w, after, hdecode, hafter, hrun⟩ := (hread _ (spaced_padded _) rest em).1 h.inRange
  rw [(decode_eq_some_iff.mp hdecode).2, Instr.line, List.append_assoc,
    parse_line_operation hrun, emit_whole_run w hafter]

theorem reading_whole {i : Instr} (h : i.Encodable) (hlink : i.link = none) (target : string)
    (rest : List UInt8) : reading (i.line target ++ ch '\n' :: rest) = some .other := by
  have hformat : ¬ (formats i.op = .B_TYPE ∨ formats i.op = .J_TYPE) := by
    cases i with
    | branch o rs1 rs2 v => cases hlink
    | jump o rd v => cases hlink
    | system o => rcases h with rfl | rfl <;> decide
    | imm o rd rs1 v => simp [Instr.op, h.1.1]
    | _ => simp [Instr.op, h.1]
  rw [Instr.line, List.append_assoc]
  exact reading_eq (read_line_whole hformat (i.operands target) rest ⟨0, .fresh 0 0⟩)

/-- The operands of a branch or a jump give the word that waits for the label. -/
theorem parse_operands_target {i : Instr} (h : i.Encodable) {assign : assign_type}
    {instr : BitVec 32} {d : Int} (hlink : i.link = some (assign, instr, d)) {target : string}
    (ht : LabelName target) (rest : List UInt8) (p : Process) :
    (formats i.op = .B_TYPE ∨ formats i.op = .J_TYPE) ∧ ∃ after, Padded [] after ∧
      parse_operands i.op (spaced (i.operands target) ++ ch '\n' :: rest) p =
        .ok (.ok (.label assign instr target, after ++ ch '\n' :: rest), p) := by
  have hpadded := spaced_padded (i.operands target)
  cases i with
  | branch o rs1 rs2 v =>
    cases hlink
    obtain ⟨hformat, h0, h1, _⟩ := h
    obtain ⟨u1, hu1, hrun1⟩ := hpadded.reg_comma (reg_text_name h0) rest p
    obtain ⟨u2, hu2, hrun2⟩ := hu1.reg_comma (reg_text_name h1) rest p
    obtain ⟨u3, hu3, hrun3⟩ := parse_label_operand_run hu2 ht rest p
    have hregs : (parse_branch_regs : Parse Unit (Nat × Nat))
        (spaced ((Instr.branch o rs1 rs2 d).operands target) ++ ch '\n' :: rest) p =
          .ok (.ok ((rs1, rs2), u2 ++ ch '\n' :: rest), p) := by
      rw [parse_branch_regs, bind_run_ok hrun1, bind_run_ok hrun2]
      rfl
    refine ⟨Or.inl hformat, u3, hu3, ?_⟩
    simp only [Instr.op, parse_operands, hformat]
    rw [bind_run_ok (orFail_run_ok hregs), bind_run_ok hrun3]
    rfl
  | jump o rd v =>
    cases hlink
    obtain ⟨hformat, h0, _⟩ := h
    obtain ⟨u1, hu1, hrun1⟩ := hpadded.reg_comma (reg_text_name h0) rest p
    obtain ⟨u2, hu2, hrun2⟩ := parse_label_operand_run hu1 ht rest p
    refine ⟨Or.inr hformat, u2, hu2, ?_⟩
    simp only [Instr.op, parse_operands, hformat]
    rw [bind_run_ok (orFail_run_ok hrun1), bind_run_ok hrun2]
    rfl
  | _ => cases hlink

/-- A line with a label is read with its label. -/
theorem reading_target {i : Instr} (h : i.Encodable) {assign : assign_type} {instr : BitVec 32}
    {d : Int} (hlink : i.link = some (assign, instr, d)) {target : string} (ht : LabelName target)
    (rest : List UInt8) :
    reading (i.line target ++ ch '\n' :: rest) = some (.refer assign instr target) := by
  obtain ⟨hformat, after, _, hrun⟩ := parse_operands_target h hlink ht rest ⟨0, .fresh 0 0⟩
  rw [Instr.line, List.append_assoc]
  exact reading_eq (read_line_target hformat hrun)

theorem parse_line_target {i : Instr} (h : i.Encodable) {assign : assign_type} {instr : BitVec 32}
    {d : Int} (hlink : i.link = some (assign, instr, d)) {target : string} (ht : LabelName target)
    (rest : List UInt8) (p : Process) :
    parse_line (i.line target ++ ch '\n' :: rest) p = (do
      let em ← emitter_refer p.em assign instr target
      .ok (.ok ((), ch '\n' :: rest), { p with em })) := by
  obtain ⟨_, after, hafter, hrun⟩ := parse_operands_target h hlink ht rest p
  rw [Instr.line, List.append_assoc, parse_line_operation hrun, bind_run, emit_operands_label]
  rcases emitter_refer p.em assign instr target with f | em
  · rfl
  · exact hafter.end_of_line rest _

/-! ## Lines of labels -/

/-- The line that defines a label. -/
def label_line (key : string) : List UInt8 := key ++ [ch ':']

theorem label_line_eq (key : string) (rest : List UInt8) :
    label_line key ++ ch '\n' :: rest = key ++ ch ':' :: ch '\n' :: rest := by
  simp [label_line]

theorem parse_label_name_run {key : string} (hkey : LabelName key) (rest : List UInt8) (s : σ) :
    (parse_label_name : Scan σ String string) (key ++ ch ':' :: rest) s =
      .ok (.ok (key, rest), s) := by
  have hnone : Blanks [] := fun x hx => absurd hx List.not_mem_nil
  have hname := str_parse_identifier_run (ε := String) hnone hkey.ne_nil hkey.identifier
    (show identifier (ch ':') = false by decide) rest s
  have hmark := expect_char_literal.spec (ε := String) hnone
    (show whitespace (ch ':') = false by decide)
    rest s
  have hlen : key.length ≠ 0 := fun hc => hkey.ne_nil (List.length_eq_zero_iff.mp hc)
  rw [parse_label_name, ← List.nil_append (key ++ ch ':' :: rest), bind_run_ok hname, if_neg hlen,
    ← List.nil_append (ch ':' :: rest), bind_run_ok (require_run_true hmark)]
  rfl

theorem reading_label {key : string} (hkey : LabelName key) (rest : List UInt8) :
    reading (label_line key ++ ch '\n' :: rest) = some (.define key) := by
  have hword := parse_word_unknown (ε := String) hkey (show identifier (ch ':') = false by decide)
    (ch '\n' :: rest) (⟨0, .fresh 0 0⟩ : Process)
  have hname := parse_label_name_run hkey (ch '\n' :: rest) (⟨0, .fresh 0 0⟩ : Process)
  obtain ⟨d, ds, rfl⟩ := List.exists_cons_of_ne_nil hkey.ne_nil
  have hd := hkey.identifier d List.mem_cons_self
  have hnl : d ≠ ch '\n' := by
    rintro rfl
    exact absurd hd (by decide)
  have hread : read_line (label_line (d :: ds) ++ ch '\n' :: rest) ⟨0, .fresh 0 0⟩ =
      .ok (.ok (.define (d :: ds), ch '\n' :: rest), ⟨0, .fresh 0 0⟩) := by
    rw [label_line_eq, List.cons_append, read_line_head (identifier_not_blank d hd) hnl,
      ← List.cons_append, read_statement, bind_run_ok hword]
    simp only
    rw [bind_run_ok hname]
    rfl
  exact reading_eq hread

theorem parse_line_label {key : string} (hkey : LabelName key) (rest : List UInt8) (p : Process)
    {em : emitter} (hadd : emitter_label_add p.em key = .ok (0, em)) :
    parse_line (label_line key ++ ch '\n' :: rest) p =
      .ok (.ok ((), ch '\n' :: rest), { p with em }) := by
  have hend : Padded [] [] := .done fun x hx => absurd hx List.not_mem_nil
  have hword := parse_word_unknown (ε := String) hkey (show identifier (ch ':') = false by decide)
    (ch '\n' :: rest) p
  have hname := parse_label_name_run hkey (ch '\n' :: rest) p
  have hcall : (label_add key : Parse String Int) (ch '\n' :: rest) p =
      .ok (.ok (0, ch '\n' :: rest), { p with em }) := by
    rw [label_add, call, hadd]
    rfl
  obtain ⟨d, ds, rfl⟩ := List.exists_cons_of_ne_nil hkey.ne_nil
  have hd := hkey.identifier d List.mem_cons_self
  have hnl : d ≠ ch '\n' := by
    rintro rfl
    exact absurd hd (by decide)
  have hstatement : parse_statement (d :: ds ++ ch ':' :: ch '\n' :: rest) p =
      .ok (.ok ((), ch '\n' :: rest), { p with em }) := by
    rw [parse_statement, bind_run_ok hword]
    simp only [parse_label]
    rw [bind_run_ok hname, bind_run_ok hcall]
    rfl
  have hnone : Blanks [] := fun x hx => absurd hx List.not_mem_nil
  rw [label_line_eq, List.cons_append, ← List.nil_append (d :: (ds ++ ch ':' :: ch '\n' :: rest)),
    parse_line_statement hnone (identifier_not_blank d hd) hnl, ← List.cons_append,
    bind_run_ok hstatement]
  exact hend.end_of_line rest _

/-! ## The bytes of the lines -/

theorem identifier_inLine : ∀ c : UInt8, identifier c = true → InLine c :=
  forall_byte (by unfold InLine; decide +kernel)

theorem reg_text_inLine {r : Nat} (hr : r < 32) : ∀ x ∈ reg_text r, InLine x := by
  unfold InLine
  interval_cases r <;> decide

theorem imm_text_inLine (v : Int) : ∀ x ∈ imm_text v, InLine x := by
  have hsigns : ∀ x ∈ chars "-0x", InLine x := by
    unfold InLine
    decide
  intro x hx
  rcases List.mem_append.mp hx with hx | hx
  · split at hx
    · exact hsigns x (by rw [List.mem_singleton.mp hx]; decide)
    · cases hx
  · rcases List.mem_append.mp hx with hx | hx
    · exact hsigns x (List.mem_cons_of_mem _ hx)
    · exact identifier_inLine x (hex_digits_identifier 5 _ x hx)

theorem label_line_inLine {key : string} (hkey : LabelName key) : ∀ x ∈ label_line key, InLine x := by
  intro x hx
  rcases List.mem_append.mp hx with hx | hx
  · exact identifier_inLine x (hkey.identifier x hx)
  · rw [List.mem_singleton.mp hx]
    unfold InLine
    decide

/-- The tokens of a line. -/
theorem mem_operands {i : Instr} (h : i.Encodable) {target : string} {t : List UInt8}
    (ht : t ∈ i.operands target) :
    t ∈ [[ch ','], [ch '('], [ch ')']] ∨ (∃ r < 32, t = reg_text r) ∨ (∃ v, t = imm_text v) ∨
      t = target := by
  cases i with
  | imm o rd rs1 v =>
    simp only [Instr.operands] at ht
    split at ht <;> grind [Instr.Encodable]
  | _ => grind [Instr.operands, Instr.Encodable]

theorem operands_inLine {i : Instr} (h : i.Encodable) {target : string}
    (htarget : ∀ x ∈ target, InLine x) : ∀ t ∈ i.operands target, ∀ x ∈ t, InLine x := by
  have hmarks : ∀ t ∈ [[ch ','], [ch '('], [ch ')']], ∀ x ∈ t, InLine x := by
    unfold InLine
    decide
  intro t ht
  rcases mem_operands h ht with ht | ⟨r, hr, rfl⟩ | ⟨v, rfl⟩ | rfl
  · exact hmarks t ht
  · exact reg_text_inLine hr
  · exact imm_text_inLine v
  · exact htarget

/-- A line stays on its line. -/
theorem line_inLine {i : Instr} (h : i.Encodable) {target : string}
    (htarget : ∀ x ∈ target, InLine x) : ∀ x ∈ i.line target, InLine x := by
  have hwords : ∀ w ∈ vocabulary, ∀ x ∈ chars w.1, InLine x := by
    unfold InLine
    decide +kernel
  intro x hx
  rcases List.mem_append.mp hx with hx | hx
  · exact hwords _ (mnemonic_mem i.op) x hx
  · obtain ⟨t, ht, hx⟩ := List.mem_flatMap.mp hx
    rcases List.mem_cons.mp hx with rfl | hx
    · unfold InLine
      decide
    · exact operands_inLine h htarget t ht x hx

end riscv_assembler
