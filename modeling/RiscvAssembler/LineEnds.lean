-- Parsers at the end of their line: a number can lead past a newline, for `strtoll`
-- skips any white space, and so can an escape in the literal of `.ascii`. All the
-- parsers of this module stay on their line, and in the text.
import RiscvAssembler.Lib.ScannerEnds
import RiscvAssembler.Progress
import RiscvAssembler.Recognition
import RiscvAssembler.Runs

open checked scanner c_text

namespace riscv_assembler

variable {σ ε : Type}

/-! ## Places -/

inductive Place
  /-- `strtoll` reads the text. -/
  | number (text : List UInt8)
  /-- The text behind the opening quote of a literal. -/
  | literal (text : List UInt8)

/-- The number of escaped newlines in the rest of a literal, or `none` if the
text ends before the literal does. -/
def literal_newlines : List UInt8 → Option Nat
  | [] => none
  | c :: text =>
    if c = ch '"' ∨ c = 0 ∨ c = ch '\n' then some 0
    else if c = ch '\\' then
      match text with
      | [] => none
      | e :: text =>
        match escape e with
        | .error _ => some 0
        | .ok _ => (literal_newlines text).map (· + if e = ch '\n' then 1 else 0)
    else literal_newlines text

/-- A newline in the white space before a number, or escaped in a literal. -/
def Place.Crosses : Place → Prop
  | .number text => ch '\n' ∈ text.takeWhile isspace
  | .literal text => 0 < (literal_newlines text).getD 0

/-- There is nothing but white space, or the literal does not end. -/
def Place.Cut : Place → Prop
  | .number text => ∀ x ∈ text, isspace x = true
  | .literal text => literal_newlines text = none

/-- The lines of a program, for an emitter whose sections are sound. -/
def asm_lines (vaddr : Sect → Nat) : Lines Process Place :=
  ⟨ch '\n', Place.Crosses, Place.Cut, fun p => p.em.Sound vaddr⟩

variable {vaddr : Sect → Nat}

/-! ## Scanners of registers and marks -/

theorem matchLiteral_inside {es text : List UInt8} (hes : ch '\n' ∉ es)
    (hend : EndsWith (ch '\n') text) : matchLiteral es text ≠ .error .outOfBounds := by
  induction es generalizing text with
  | nil =>
    intro h
    cases h
  | cons e es ih =>
    rcases text with _ | ⟨c, text⟩
    · exact absurd rfl hend.ne_nil
    · rw [List.mem_cons, not_or] at hes
      unfold matchLiteral
      split
      · rename_i hc
        exact ih hes.2 (hend.tail fun hn => hes.1 (by rw [← hc, hn]))
      · intro h
        cases h

theorem expect_literal.tame {expect : String} (h : ch '\n' ∉ chars expect) :
    (asm_lines vaddr).Tame (expect_literal expect : Parse ε Bool) := by
  refine .of_moves (fun text s b rest s' hrun => ?_) fun text s _ hend hrun => ?_
  · obtain ⟨r, hr, hrun⟩ := bind_eq_ok.mp hrun
    cases r with
    | none =>
      cases hrun
      exact ⟨id, [], rfl, List.not_mem_nil⟩
    | some l =>
      cases hrun
      exact ⟨id, chars expect, matchLiteral_used hr, h⟩
  · rcases hr : matchLiteral (chars expect) text with f | r
    · rw [expect_literal, hr] at hrun
      exact matchLiteral_inside h hend (hr.trans (by rw [Except.error.inj hrun]))
    · rw [expect_literal, hr] at hrun
      cases hrun

theorem skip_whitespace.tame : (asm_lines vaddr).Tame (skip_whitespace : Parse ε Unit) :=
  .skipWhile rfl

theorem OnRegisters.tame :
    OnRegisters fun {ε α} (m : Parse ε α) => (asm_lines vaddr).Tame m :=
  .of_line (Lines.Reads.line_closed (asm_lines vaddr)) expect_literal.tame

theorem out_check_line.tame : (asm_lines vaddr).Tame (out_check_line : Parse String Unit) :=
  out_check_line_of (Lines.Reads.line_closed (asm_lines vaddr))

/-- A line that is accepted ends at a newline or a NUL, after blanks. -/
theorem out_check_line_ok {text rest : List UInt8} {s s' : σ}
    (h : out_check_line text s = .ok (.ok ((), rest), s')) :
    (∃ blanks, text = blanks ++ rest ∧ Blanks blanks) ∧
      (rest.head? = some (ch '\n') ∨ rest.head? = some 0) := by
  obtain ⟨_, mid, s1, hskip, hend⟩ := bind_eq_ok_ok.mp h
  obtain ⟨_, hblanks⟩ := skipWhile_used hskip
  rcases mid with _ | ⟨c, mid⟩
  · cases hend
  · rw [bind_run_ok (peek_cons c)] at hend
    split at hend
    · cases hend
    · rename_i hc
      cases hend
      refine ⟨hblanks, ?_⟩
      by_cases hnl : c = ch '\n'
      · exact Or.inl (congrArg some hnl)
      · have hnul : c = 0 := Decidable.not_not.mp fun hn => hc ⟨hnl, hn⟩
        exact Or.inr (congrArg some hnul)

/-! ## Calls of the emitter -/

theorem emitter_buffer.no_bounds {em : emitter} (h : em.Sound vaddr) (data : List UInt8) :
    emitter_buffer em data ≠ .error .outOfBounds := by
  intro hrun
  have hspec := emitter_buffer_loop.spec em.cur data (h em.current_section).1
  rcases hs : emitter_buffer_loop em.cur em.cur.len data with f | s
  · rw [hs] at hspec
    rw [emitter_buffer, hs] at hrun
    cases hrun
    cases hspec.1
  · rw [emitter_buffer, hs] at hrun
    cases hrun

theorem emitter_advance.no_bounds {em : emitter} (h : em.Sound vaddr) {n : Nat} (hn : n < 2 ^ 63) :
    emitter_advance em n ≠ .error .outOfBounds := by
  intro hrun
  have hspec := section_advance.spec em.cur n (h em.current_section).1 hn
  rcases hs : section_advance em.cur n with f | s
  · rw [hs] at hspec
    rw [emitter_advance, hs] at hrun
    cases hrun
    obtain ⟨⟨msg, hmsg⟩, _⟩ := hspec
    cases hmsg
  · rw [emitter_advance, hs] at hrun
    cases hrun

/-- The two tests of `resolve_waiter` keep the word in the buffer, whatever the
waiter says. -/
theorem resolve_waiter.no_bounds {em : emitter} (h : em.Sound vaddr) (val : Int)
    (w : label_waiter) : resolve_waiter val em w ≠ .error .outOfBounds := by
  have hb : BUF_SIZE = 4096 := rfl
  have hlt := (h w.sect).1.len_lt
  have hlen := machine_int.toS64_of_lt (n := (em.sect w.sect).len) (by omega)
  unfold resolve_waiter
  simp only [hlen]
  generalize machine_int.toS 64 ((em.sect w.sect).pos : Int) = pos
  split
  · nofun
  · rename_i hbelow
    split
    · nofun
    · rename_i habove
      rw [not_not] at habove
      rw [FixedBuffer.copyOut_of_le (by omega), ok_bind]
      rw [FixedBuffer.copyIn_of_le (by simp only [instr_bytes, machine_int.length_leBytes]; omega)]
      nofun

theorem resolve_all.no_bounds {val : Int} {ws : List label_waiter} {em : emitter}
    (h : em.Sound vaddr) : runAll (resolve_waiter val) em ws ≠ .error .outOfBounds := by
  induction ws generalizing em with
  | nil => nofun
  | cons w ws ih =>
    rw [runAll_cons]
    rcases hw : resolve_waiter val em w with f | em1
    · intro hrun
      exact resolve_waiter.no_bounds h val w (hw.trans (by rw [← hrun]; rfl))
    · exact ih ((resolve_waiter_only_buffers hw).1.sound h)

theorem emitter_label_add.no_bounds {em : emitter} (h : em.Sound vaddr) (key : string) :
    emitter_label_add em key ≠ .error .outOfBounds := by
  rcases hl : em.labels.lookup key with _ | ⟨ws, v⟩
  · rw [emitter_label_add_new hl]
    intro hrun
    cases hrun
  · by_cases hv : 0 ≤ v
    · rw [emitter_label_add_defined hl hv]
      intro hrun
      cases hrun
    · cases ws with
      | none =>
        simp only [emitter_label_add, cc_get_or_insert, hl, ne_eq, not_true_eq_false, if_false,
          if_neg hv]
        intro hrun
        cases hrun
      | some ws =>
        rw [emitter_label_add_awaited hl (by omega)]
        intro hrun
        rcases hall : runAll (resolve_waiter _) em ws with f | em1
        · rw [hall] at hrun
          cases hrun
          exact resolve_all.no_bounds h hall
        · rw [hall] at hrun
          cases hrun

theorem emitter_reference.no_bounds (em : emitter) (assign : assign_type) (instr : BitVec 32)
    (key : string) : emitter_reference em assign instr key ≠ .error .outOfBounds := by
  intro hrun
  rcases bind_eq_error.mp hrun with h | ⟨⟨v, em1⟩, _, h⟩
  · unfold emitter_label_get_or_add_waiter at h
    simp only at h
    split at h
    · split at h <;> cases h
    · cases h
  · simp only at h
    split at h <;> cases h

theorem emit.tame (data : List UInt8) : (asm_lines vaddr).Tame (emit data : Parse ε Unit) := by
  refine .call (fun p _ p' h hinv => ?_) fun p hinv h => ?_
  · obtain ⟨em, hem, h⟩ := bind_eq_ok.mp h
    cases h
    exact emitter_buffer.sound hinv hem
  · rcases bind_eq_error.mp h with h | ⟨em, _, h⟩
    · exact emitter_buffer.no_bounds hinv data h
    · cases h

theorem advance.tame {n : Nat} (hn : n < 2 ^ 63) :
    (asm_lines vaddr).Tame (advance n : Parse ε Unit) := by
  refine .call (fun p _ p' h hinv => ?_) fun p hinv h => ?_
  · obtain ⟨em, hem, h⟩ := bind_eq_ok.mp h
    cases h
    exact emitter_advance.sound hn hinv hem
  · rcases bind_eq_error.mp h with h | ⟨em, _, h⟩
    · exact emitter_advance.no_bounds hinv hn h
    · cases h

theorem switch_section.tame (s : Sect) :
    (asm_lines vaddr).Tame (switch_section s : Parse ε Unit) := by
  refine .call (fun p _ p' h hinv => ?_) fun p _ h => nomatch h
  cases h
  exact hinv

theorem label_add.tame (key : string) : (asm_lines vaddr).Tame (label_add key : Parse ε Int) := by
  refine .call (fun p _ p' h hinv => ?_) fun p hinv h => ?_
  · obtain ⟨⟨res, em⟩, hem, h⟩ := bind_eq_ok.mp h
    cases h
    exact (label_add_only_buffers hem).sound hinv
  · rcases bind_eq_error.mp h with h | ⟨x, _, h⟩
    · exact emitter_label_add.no_bounds hinv key h
    · cases h

theorem emit_operands.tame (x : Operands) :
    (asm_lines vaddr).Tame (emit_operands x : Parse ε Unit) := by
  cases x with
  | whole instr => exact emit.tame _
  | label assign instr key =>
    refine Lines.Reads.bind (.call (fun p _ p' h hinv => ?_) fun p _ h => ?_) fun _ => emit.tame _
    · obtain ⟨⟨w, em⟩, hem, h⟩ := bind_eq_ok.mp h
      cases h
      intro s
      rw [(emitter_reference_sections hem).1]
      exact hinv s
    · rcases bind_eq_error.mp h with h | ⟨x, _, h⟩
      · exact emitter_reference.no_bounds p.em assign instr key h
      · cases h

theorem parse_label.tame : (asm_lines vaddr).Tame parse_label :=
  Lines.Reads.bind OnRegisters.tame.label_name fun lstr =>
    (label_add.tame lstr).bind fun _ => .ite (.fail _) (.pure _)

end riscv_assembler
