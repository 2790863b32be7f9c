-- The grammar of operands and what the operand parsers make of it: register
-- names, immediates and marks, each after blanks.
import RiscvAssembler.Parser

open checked scanner c_text

namespace riscv_assembler

variable {σ ε : Type}

/-! ## Register names -/

/-- A number of one digit or two. -/
inductive ShortNumber : List UInt8 → Nat → Prop
  | one {d : UInt8} : decimal d = true → ShortNumber [d] (d.toNat - 48)
  | two {t d : UInt8} : decimal t = true → decimal d = true →
      ShortNumber [t, d] (10 * (t.toNat - 48) + (d.toNat - 48))

/-- A register name and the number of its register. -/
inductive RegName : List UInt8 → Nat → Prop
  | zero : RegName (chars "zero") 0
  | ra : RegName (chars "ra") 1
  | sp : RegName (chars "sp") 2
  | gp : RegName (chars "gp") 3
  | tp : RegName (chars "tp") 4
  | fp : RegName (chars "fp") 8
  | x {text : List UInt8} {n : Nat} : ShortNumber text n → n ≤ 31 → RegName (ch 'x' :: text) n
  | t {text : List UInt8} {n : Nat} : ShortNumber text n → n ≤ 6 →
      RegName (ch 't' :: text) (if n < 3 then n + 5 else n + 25)
  | s {text : List UInt8} {n : Nat} : ShortNumber text n → n ≤ 11 →
      RegName (ch 's' :: text) (if n < 2 then n + 8 else n + 16)
  | a {text : List UInt8} {n : Nat} : ShortNumber text n → n ≤ 7 → RegName (ch 'a' :: text) (n + 10)

theorem RegName.lt {text : List UInt8} {r : Nat} (h : RegName text r) : r < 32 := by
  rcases h with _ | _ | _ | _ | _ | _ | ⟨_, h⟩ | ⟨_, h⟩ | ⟨_, h⟩ | ⟨_, h⟩ <;> first | decide | grind

theorem ShortNumber.head {text : List UInt8} {n : Nat} (h : ShortNumber text n) :
    ∃ d ds, text = d :: ds ∧ decimal d = true := by
  rcases h with hd | ⟨ht, _⟩
  · exact ⟨_, _, rfl, hd⟩
  · exact ⟨_, _, rfl, ht⟩

theorem parse_reg_long_number.spec {text : List UInt8} {n : Nat} (h : ShortNumber text n)
    {c : UInt8} (hc : decimal c = false) (rest : List UInt8) (s : σ) :
    parse_reg_long_number (text ++ c :: rest) s = .ok (.ok (n, c :: rest), s) := by
  rcases h with hd | ⟨ht, hd⟩
  · simp only [parse_reg_long_number, List.cons_append, List.nil_append, bind_run, next_cons,
      ok_bind, andThen_ok, hd, not_true_eq_false, if_false, peek_cons, hc, Bool.false_eq_true]
    rfl
  · simp only [parse_reg_long_number, List.cons_append, List.nil_append, bind_run, next_cons,
      ok_bind, andThen_ok, ht, hd, not_true_eq_false, if_false, peek_cons, if_true]
    rfl

/-- A digit is not the `p` of `sp` and `tp`. -/
theorem expect_literal_p {d : UInt8} (hd : decimal d = true) (rest : List UInt8) (s : σ) :
    (expect_literal "p" : Scan σ ε Bool) (d :: rest) s = .ok (.ok (false, d :: rest), s) := by
  have hne : ∀ d, decimal d = true → d ≠ ch 'p' := forall_byte (by decide +kernel)
  have hmatch : matchLiteral (chars "p") (d :: rest) = .ok none := if_neg (hne d hd)
  rw [expect_literal, hmatch]
  rfl

/-- The name of a register from its first character on. -/
theorem RegName.split {text : List UInt8} {r : Nat} (h : RegName text r) :
    ∃ d ds, text = d :: ds ∧ whitespace d = false ∧
      ∀ (c : UInt8) (rest : List UInt8) (s : σ), identifier c = false →
        parse_reg_name d (ds ++ c :: rest) s = .ok (.ok (r, c :: rest), s) := by
  have hnot : ∀ c, identifier c = false → decimal c = false := forall_byte (by decide +kernel)
  rcases h with _ | _ | _ | _ | _ | _ | ⟨hn, h⟩ | ⟨hn, h⟩ | ⟨hn, h⟩ | ⟨hn, h⟩
  · exact ⟨_, _, rfl, by decide, fun c rest s _ => rfl⟩
  · exact ⟨_, _, rfl, by decide, fun c rest s _ => rfl⟩
  · exact ⟨_, _, rfl, by decide, fun c rest s _ => rfl⟩
  · exact ⟨_, _, rfl, by decide, fun c rest s _ => rfl⟩
  · exact ⟨_, _, rfl, by decide, fun c rest s _ => rfl⟩
  · exact ⟨_, _, rfl, by decide, fun c rest s _ => rfl⟩
  · refine ⟨_, _, rfl, by decide, fun c rest s hc => ?_⟩
    have hnum := parse_reg_long_number.spec hn (hnot c hc) rest s
    rw [parse_reg_name, if_pos rfl, bind_run_ok hnum, if_neg (by omega)]
    rfl
  · refine ⟨_, _, rfl, by decide, fun c rest s hc => ?_⟩
    obtain ⟨d, ds, rfl, hd⟩ := hn.head
    have hnum := parse_reg_long_number.spec hn (hnot c hc) rest s
    rw [parse_reg_name, if_neg (by decide), if_neg (by decide), if_neg (by decide),
      if_neg (by decide), if_neg (by decide), if_pos rfl, List.cons_append,
      bind_run_ok (expect_literal_p hd _ s)]
    simp only [Bool.false_eq_true, if_false]
    rw [← List.cons_append, bind_run_ok hnum, if_neg (by omega)]
    rfl
  · refine ⟨_, _, rfl, by decide, fun c rest s hc => ?_⟩
    obtain ⟨d, ds, rfl, hd⟩ := hn.head
    have hnum := parse_reg_long_number.spec hn (hnot c hc) rest s
    rw [parse_reg_name, if_neg (by decide), if_neg (by decide), if_neg (by decide), if_pos rfl,
      List.cons_append, bind_run_ok (expect_literal_p hd _ s)]
    simp only [Bool.false_eq_true, if_false]
    rw [← List.cons_append, bind_run_ok hnum, if_neg (by omega)]
    rfl
  · refine ⟨_, _, rfl, by decide, fun c rest s hc => ?_⟩
    have hnum := parse_reg_long_number.spec hn (hnot c hc) rest s
    rw [parse_reg_name, if_neg (by decide), if_neg (by decide), if_neg (by decide),
      if_neg (by decide), if_neg (by decide), if_neg (by decide), if_pos rfl, bind_run_ok hnum,
      if_neg (by omega)]
    rfl

def Blanks (text : List UInt8) : Prop := ∀ x ∈ text, whitespace x = true

theorem not_mem_blanks {text : List UInt8} (h : Blanks text) {c : UInt8}
    (hc : whitespace c = false) : c ∉ text := by
  intro hmem
  have := h c hmem
  rw [hc] at this
  cases this

theorem skip_whitespace_run {p : List UInt8} (hp : Blanks p) {c : UInt8}
    (hc : whitespace c = false) (rest : List UInt8) (s : σ) :
    (skip_whitespace : Scan σ ε Unit) (p ++ c :: rest) s = .ok (.ok ((), c :: rest), s) :=
  skipWhile_append hp hc

theorem parse_reg.spec {p text : List UInt8} {r : Nat} (hp : Blanks p) (h : RegName text r)
    {c : UInt8} (hc : identifier c = false) (rest : List UInt8) (s : σ) :
    parse_reg (p ++ (text ++ c :: rest)) s = .ok (.ok (r, c :: rest), s) := by
  obtain ⟨d, ds, rfl, hd, hname⟩ := h.split
  rw [List.cons_append, parse_reg, bind_run_ok (skip_whitespace_run hp hd _ s),
    bind_run_ok (next_cons d), bind_run_ok (hname c rest s hc), bind_run_ok (peek_cons c)]
  simp only [hc, Bool.false_eq_true, if_false]
  rfl

theorem expect_char_literal.spec {p : List UInt8} (hp : Blanks p) {c : Char}
    (hc : whitespace (ch c) = false) (rest : List UInt8) (s : σ) :
    (expect_char_literal c : Scan σ ε Bool) (p ++ ch c :: rest) s = .ok (.ok (true, rest), s) := by
  rw [expect_char_literal, bind_run_ok (skip_whitespace_run hp hc rest s)]
  exact accept_same (ch c)

/-! ## Immediates -/

theorem whitespace_isspace : ∀ c : UInt8, whitespace c = true → isspace c = true :=
  forall_byte (by decide +kernel)

theorem parse_imm_none {text : List UInt8} (h : readNumber text = .ok none) (p : Process) :
    parse_imm text p = .ok (.error (), p) := by
  unfold parse_imm strtoll
  rw [h]
  exact if_pos (Or.inl rfl)

/-- A number that fits is taken for an error when it is one of the three values
that `strtoll` gives for errors and `errno` is set, by whichever call. -/
theorem parse_imm_some {text rest : List UInt8} {z : Int}
    (h : readNumber text = .ok (some (z, rest))) (p : Process) : parse_imm text p =
      if LLONG_MIN ≤ z ∧ z ≤ LLONG_MAX then
        if (z = 0 ∨ z = LLONG_MAX ∨ z = LLONG_MIN) ∧ p.errno ≠ 0 then .ok (.error (), p)
        else .ok (.ok (z, rest), p)
      else .ok (.error (), { p with errno := ERANGE }) := by
  have hmoved : rest ≠ text := fun he => by
    have := readNumber_shortens h
    rw [he] at this
    exact Nat.lt_irrefl _ this
  unfold parse_imm strtoll
  simp only [h, ok_bind]
  by_cases hmax : LLONG_MAX < z
  · simp only [if_pos hmax, ok_bind]
    rw [if_pos (Or.inr ⟨Or.inr (Or.inl trivial), by decide⟩), if_neg (by omega)]
  · simp only [if_neg hmax]
    by_cases hmin : z < LLONG_MIN
    · simp only [if_pos hmin, ok_bind]
      rw [if_pos (Or.inr ⟨Or.inr (Or.inr trivial), by decide⟩), if_neg (by omega)]
    · simp only [if_neg hmin, ok_bind, hmoved, false_or]
      rw [if_pos (show LLONG_MIN ≤ z ∧ z ≤ LLONG_MAX by omega)]

/-- A literal is read when its value fits in 64 bits. `errno` is zero before. -/
theorem parse_imm.spec {p text : List UInt8} {v : Int} (hp : Blanks p) (h : Literal text v)
    {c : UInt8} (hc : digitValue c = none) (rest : List UInt8) (em : emitter) :
    parse_imm (p ++ (text ++ c :: rest)) ⟨0, em⟩ =
      if LLONG_MIN ≤ v ∧ v ≤ LLONG_MAX then .ok (.ok (v, c :: rest), ⟨0, em⟩)
      else .ok (.error (), ⟨ERANGE, em⟩) := by
  have hread := h.readNumber (fun x hx => whitespace_isspace x (hp x hx)) hc rest
  rw [parse_imm_some hread]
  simp

theorem parse_imm12.spec {p text : List UInt8} {v : Int} (hp : Blanks p) (h : Literal text v)
    {c : UInt8} (hc : digitValue c = none) (rest : List UInt8) (em : emitter) :
    (-2048 ≤ v ∧ v ≤ 2047 → parse_imm12 (p ++ (text ++ c :: rest)) ⟨0, em⟩ =
        .ok (.ok (BitVec.ofInt 32 v, c :: rest), ⟨0, em⟩)) ∧
      (¬ (-2048 ≤ v ∧ v ≤ 2047) → ∃ errno,
        parse_imm12 (p ++ (text ++ c :: rest)) ⟨0, em⟩ = .ok (.error (), ⟨errno, em⟩)) := by
  have hrun := parse_imm.spec hp h hc rest em
  have hmin : LLONG_MIN = -9223372036854775808 := rfl
  have hmax : LLONG_MAX = 9223372036854775807 := rfl
  constructor
  · intro hv
    rw [if_pos (by omega)] at hrun
    rw [parse_imm12, bind_run_ok hrun, if_neg (by omega)]
    rfl
  · intro hv
    by_cases hfit : LLONG_MIN ≤ v ∧ v ≤ LLONG_MAX
    · rw [if_pos hfit] at hrun
      rw [parse_imm12, bind_run_ok hrun, if_pos (by omega)]
      exact ⟨0, rfl⟩
    · rw [if_neg hfit] at hrun
      rw [parse_imm12, bind_run_error hrun]
      exact ⟨ERANGE, rfl⟩

end riscv_assembler
