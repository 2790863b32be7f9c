-- A line that `parse_line` accepts in a buffer of its own it reads the same way
-- in any text: no operand parser, not even `strtoll` or a string escape, is led
-- past the newline of an accepted line.
import RiscvAssembler.Lib.ScannerLine
import RiscvAssembler.Compounds
import RiscvAssembler.Operands
import RiscvAssembler.Turns

open checked scanner c_text

namespace riscv_assembler

variable {σ ε α : Type}

/-- A byte of a line. -/
def InLine (c : UInt8) : Prop := c ≠ ch '\n' ∧ c ≠ 0

/-- The scanner stays on the line. In its own buffer the line has a newline and
a NUL after it. -/
abbrev StaysOnLine (m : Scan σ ε α) : Prop := OnLine InLine (ch '\n') [0] m

/-! ## Literals and marks -/

theorem matchLiteral_line {es : List UInt8} (hes : ∀ e ∈ es, ch '\n' ≠ e) (l : List UInt8) :
    ∃ r : Option (List UInt8), (∀ l', r = some l' → l' <:+ l) ∧ ∀ tail,
      matchLiteral es (l ++ ch '\n' :: tail) = .ok (r.map (· ++ ch '\n' :: tail)) := by
  induction es generalizing l with
  | nil =>
    refine ⟨some l, fun l' hl' => ?_, fun tail => rfl⟩
    cases hl'
    exact List.suffix_rfl
  | cons e es ih =>
    rcases l with _ | ⟨c, l⟩
    · exact ⟨none, nofun, fun tail => if_neg (hes e List.mem_cons_self)⟩
    · by_cases hc : c = e
      · obtain ⟨r, hr, hall⟩ := ih (fun x hx => hes x (List.mem_cons_of_mem e hx)) l
        refine ⟨r, fun l' hl' => (hr l' hl').trans (List.suffix_cons c l), fun tail => ?_⟩
        rw [List.cons_append, matchLiteral, if_pos hc, hall tail]
      · exact ⟨none, nofun, fun tail => if_neg hc⟩

theorem expect_literal.on_line {expect : String} (h : ch '\n' ∉ chars expect) :
    StaysOnLine (expect_literal expect : Scan σ ε Bool) := by
  intro l s b rest s' _ hrun
  obtain ⟨r, hr, hall⟩ := matchLiteral_line (fun e he hnl => h (hnl ▸ he)) l
  rw [expect_literal, hall [0]] at hrun
  cases hrun
  rcases r with _ | l'
  · refine ⟨l, List.suffix_rfl, rfl, fun tail => ?_⟩
    rw [expect_literal, hall tail]
    rfl
  · refine ⟨l', hr l' rfl, rfl, fun tail => ?_⟩
    rw [expect_literal, hall tail]
    rfl

theorem skip_whitespace.on_line : StaysOnLine (skip_whitespace : Scan σ ε Unit) :=
  .skipWhile (by decide)

theorem OnRegisters.on_line : OnRegisters (@StaysOnLine σ) :=
  .of_line (OnLine.line_closed fun _ h => h.1) expect_literal.on_line

/-! ## Operands -/

theorem parse_imm.on_line : StaysOnLine parse_imm := by
  intro l p imm rest p' _ h
  obtain ⟨⟨res, t, errno⟩, h1, h2⟩ := bind_eq_ok.mp h
  simp only at h2
  split at h2
  · cases h2
  · rename_i hno
    cases h2
    obtain ⟨l', hl', rfl, hall⟩ := strtoll_line h1 fun he => hno (Or.inl he)
    refine ⟨l', hl', rfl, fun tail => ?_⟩
    rw [parse_imm, hall tail, ok_bind]
    have hmoved : ¬ l' ++ ch '\n' :: tail = l ++ ch '\n' :: tail := fun he =>
      hno (Or.inl (by rw [List.append_cancel_right he]))
    simp only
    rw [if_neg (fun hor => hor.elim hmoved fun hbad => hno (Or.inr hbad))]

theorem OnOperands.on_line : OnOperands (@StaysOnLine Process) where
  toOnRegisters := .on_line
  imm := parse_imm.on_line

/-! ## Directives -/

/-- An escaped newline is read, but then the literal needs more text than its
line has. -/
theorem parse_string_loop.on_line : StaysOnLine parse_string_loop
  | [], p, a, rest, p', _, h => by
    rw [List.nil_append, parse_string_loop_end (Or.inr rfl)] at h
    cases h
  | c :: l, p, a, rest, p', hl, h => by
    obtain ⟨hnl, hnul⟩ := hl c List.mem_cons_self
    have hlater : ∀ x ∈ l, InLine x := fun x hx => hl x (List.mem_cons_of_mem c hx)
    by_cases hquote : c = ch '"'
    · subst hquote
      rw [List.cons_append, parse_string_loop_quote] at h
      cases h
      exact ⟨l, List.suffix_cons _ l, rfl, fun tail => parse_string_loop_quote _ _⟩
    · by_cases hescape : c = ch '\\'
      · subst hescape
        rcases l with _ | ⟨e, l⟩
        · rw [List.cons_append, List.nil_append, parse_string_loop_escape] at h
          obtain ⟨em, _, h⟩ := bind_eq_ok.mp h
          rw [parse_string_loop_end (Or.inl rfl)] at h
          cases h
        · rw [List.cons_append, List.cons_append, parse_string_loop_escape] at h
          rcases he : escape e with err | d
          · rw [he] at h
            cases h
          · rw [he] at h
            obtain ⟨em, hem, h⟩ := bind_eq_ok.mp h
            obtain ⟨l', hl', hrest, hall⟩ := parse_string_loop.on_line l { p with em } a rest p'
              (fun x hx => hlater x (List.mem_cons_of_mem e hx)) h
            refine ⟨l', hl'.trans ⟨[_, e], rfl⟩, hrest, fun tail => ?_⟩
            rw [List.cons_append, List.cons_append, parse_string_loop_escape, he]
            simp only [hem, ok_bind, hall tail]
      · have hplain := fun text => parse_string_loop_plain hquote
          (fun hc => hc.elim hnul hnl) hescape text p
        rw [List.cons_append, hplain] at h
        obtain ⟨em, hem, h⟩ := bind_eq_ok.mp h
        obtain ⟨l', hl', hrest, hall⟩ := parse_string_loop.on_line l { p with em } a rest p' hlater h
        refine ⟨l', hl'.trans (List.suffix_cons c l), hrest, fun tail => ?_⟩
        rw [List.cons_append, hplain, hem, ok_bind, hall tail]

theorem OnDirectives.on_line : OnDirectives (@StaysOnLine Process) where
  toOnOperands := .on_line
  measured := .measured
  emit _ := .call _
  advance _ := .call _
  switch _ := .call _

theorem parse_data_loop.on_line {bytes : Nat} (hb : bytes < BUF_SIZE) :
    ∀ bytes_emitted, StaysOnLine (parse_data_loop bytes bytes_emitted : Parse String Nat) := by
  intro bytes_emitted l p a rest p' hl h
  rw [parse_data_loop_eq] at h
  obtain ⟨more, mid, p1, h1, h2⟩ := bind_eq_ok_ok.mp h
  obtain ⟨l1, hl1, rfl, hall1⟩ := OnDirectives.on_line.data_element hb l p more mid p1 hl h1
  have hshort : l1.length < l.length := by
    have := parse_data_element_shortens h1
    simp only [List.length_append] at this
    omega
  obtain ⟨l2, hl2, hrest, hall2⟩ : ∃ l2, l2 <:+ l1 ∧ rest = l2 ++ [ch '\n', 0] ∧ ∀ tail,
      (if more then parse_data_loop bytes (bytes_emitted + bytes)
        else pure (bytes_emitted + bytes) : Parse String Nat) (l1 ++ ch '\n' :: tail) p1 =
          .ok (.ok (a, l2 ++ ch '\n' :: tail), p') := by
    have hin : ∀ x ∈ l1, InLine x := fun x hx => hl x (hl1.subset hx)
    cases more with
    | false => exact OnLine.pure (bytes_emitted + bytes) l1 p1 a rest p' hin h2
    | true => exact parse_data_loop.on_line hb (bytes_emitted + bytes) l1 p1 a rest p' hin h2
  refine ⟨l2, hl2.trans hl1, hrest, fun tail => ?_⟩
  rw [parse_data_loop_eq, bind_run_ok (hall1 tail)]
  exact hall2 tail
termination_by _ l => l.length

/-! ## Operations and labels -/

theorem emit_operands.on_line (x : Operands) : StaysOnLine (emit_operands x : Parse ε Unit) := by
  cases x with
  | whole instr => exact .call _
  | label assign instr key => exact (OnLine.call _).bind fun _ => .call _

theorem parse_op.on_line (o : op) : StaysOnLine (parse_op o) :=
  (OnOperands.on_line.operands o).bind fun x => emit_operands.on_line x

theorem parse_known.on_line (operation : Int) : StaysOnLine (parse_known operation) := by
  unfold parse_known
  rcases vocable.ofNumber operation with _ | o | d
  · exact .halt _
  · exact parse_op.on_line o
  · exact OnDirectives.on_line.directive parse_string_loop.on_line
      (fun hb => parse_data_loop.on_line hb 0) d

theorem trie_walk.on_line (pos : trie) (here : UInt8) :
    StaysOnLine (trie_walk pos here : Scan σ ε (Option Int)) := by
  intro l
  induction l generalizing pos here with
  | nil =>
    intro s a rest s' _ h
    have hnl : identifier (ch '\n') = false := by decide
    rw [List.nil_append, trie_walk_end hnl] at h
    obtain ⟨r, hr, h⟩ := bind_eq_ok.mp h
    cases h
    refine ⟨[], List.suffix_rfl, rfl, fun tail => ?_⟩
    rw [List.nil_append, trie_walk_end hnl, hr, ok_bind]
  | cons c l ih =>
    intro s a rest s' hl h
    rw [List.cons_append] at h
    by_cases hc : identifier c = true
    · rw [trie_walk_turn hc] at h
      obtain ⟨next, hnext, h⟩ := bind_eq_ok.mp h
      have hwalk : ∀ tail, (trie_walk pos here : Scan σ ε (Option Int)) (c :: l ++ ch '\n' :: tail) s =
          next.elim (.ok (.ok (none, c :: l ++ ch '\n' :: tail), s))
            fun pos => trie_walk pos c (l ++ ch '\n' :: tail) s := fun tail => by
        rw [List.cons_append, trie_walk_turn hc, hnext, ok_bind]
      cases next with
      | none =>
        cases h
        exact ⟨c :: l, List.suffix_rfl, rfl, hwalk⟩
      | some pos' =>
        obtain ⟨l', hl', hrest, hall⟩ := ih pos' c s a rest s'
          (fun x hx => hl x (List.mem_cons_of_mem c hx)) h
        exact ⟨l', hl'.trans (List.suffix_cons c l), hrest,
          fun tail => (hwalk tail).trans (hall tail)⟩
    · rw [Bool.not_eq_true] at hc
      rw [trie_walk_end hc] at h
      obtain ⟨r, hr, h⟩ := bind_eq_ok.mp h
      cases h
      refine ⟨c :: l, List.suffix_rfl, rfl, fun tail => ?_⟩
      rw [List.cons_append, trie_walk_end hc, hr, ok_bind]

theorem parse_label.on_line : StaysOnLine parse_label :=
  OnRegisters.on_line.label_name.bind fun _ => (OnLine.call _).bind fun _ =>
    OnOperands.on_line.check _ fun _ => .pure ()

/-! ## Lines -/

/-- Reading a word and going back when there is none. The first byte is not
compared with the newline, so the line must have one. -/
theorem parse_word_line {c : UInt8} {l : List UInt8} (hl : ∀ x ∈ c :: l, InLine x) {s s' : σ}
    {known : Option Int} {rest : List UInt8}
    (h : (parse_word : Scan σ ε _) (c :: l ++ [ch '\n', 0]) s = .ok (.ok (known, rest), s')) :
    ∃ l', l' <:+ c :: l ∧ rest = l' ++ [ch '\n', 0] ∧ ∀ tail,
      (parse_word : Scan σ ε _) (c :: l ++ ch '\n' :: tail) s =
        .ok (.ok (known, l' ++ ch '\n' :: tail), s') := by
  rw [parse_word, bind_run_ok cursor_run] at h
  obtain ⟨pos, mid, s1, h1, h⟩ := bind_eq_ok_ok.mp h
  obtain ⟨pos', hpos, h1⟩ := bind_eq_ok.mp h1
  cases h1
  have hroot : ∀ text, (tbase_root : Scan σ ε trie) text s = .ok (.ok (pos, text), s) := by
    intro text
    rw [tbase_root, hpos]
    rfl
  rw [List.cons_append, bind_run_ok (next_cons c)] at h
  obtain ⟨r, mid, s1, h1, h⟩ := bind_eq_ok_ok.mp h
  obtain ⟨l1, hl1, rfl, hwalk⟩ := trie_walk.on_line pos c l s r mid s1
    (fun x hx => hl x (List.mem_cons_of_mem c hx)) h1
  cases r with
  | some operation =>
    cases h
    refine ⟨l1, hl1.trans (List.suffix_cons c l), rfl, fun tail => ?_⟩
    rw [parse_word, bind_run_ok cursor_run, bind_run_ok (hroot _), List.cons_append,
      bind_run_ok (next_cons c), bind_run_ok (hwalk tail)]
    rfl
  | none =>
    cases h
    refine ⟨c :: l, List.suffix_rfl, rfl, fun tail => ?_⟩
    rw [parse_word, bind_run_ok cursor_run, bind_run_ok (hroot _), List.cons_append,
      bind_run_ok (next_cons c), bind_run_ok (hwalk tail)]
    rfl

theorem parse_statement_line {c : UInt8} {l : List UInt8} (hl : ∀ x ∈ c :: l, InLine x)
    {p p' : Process} {rest : List UInt8}
    (h : parse_statement (c :: l ++ [ch '\n', 0]) p = .ok (.ok ((), rest), p')) :
    ∃ l', l' <:+ c :: l ∧ rest = l' ++ [ch '\n', 0] ∧ ∀ tail,
      parse_statement (c :: l ++ ch '\n' :: tail) p = .ok (.ok ((), l' ++ ch '\n' :: tail), p') := by
  rw [parse_statement] at h
  obtain ⟨known, mid, p1, h1, h⟩ := bind_eq_ok_ok.mp h
  obtain ⟨l1, hl1, rfl, hword⟩ := parse_word_line hl h1
  have hin : ∀ x ∈ l1, InLine x := fun x hx => hl x (hl1.subset hx)
  cases known with
  | some operation =>
    obtain ⟨l2, hl2, hrest, hall⟩ := parse_known.on_line operation l1 p1 () rest p' hin h
    refine ⟨l2, hl2.trans hl1, hrest, fun tail => ?_⟩
    rw [parse_statement, bind_run_ok (hword tail)]
    exact hall tail
  | none =>
    obtain ⟨l2, hl2, hrest, hall⟩ := parse_label.on_line l1 p1 () rest p' hin h
    refine ⟨l2, hl2.trans hl1, hrest, fun tail => ?_⟩
    rw [parse_statement, bind_run_ok (hword tail)]
    exact hall tail

/-- An accepted line ends at its newline. -/
theorem out_check_line_line {l : List UInt8} (hl : ∀ x ∈ l, InLine x) {s s' : σ}
    {rest : List UInt8} (h : out_check_line (l ++ [ch '\n', 0]) s = .ok (.ok ((), rest), s')) :
    ∀ tail, out_check_line (l ++ ch '\n' :: tail) s = .ok (.ok ((), ch '\n' :: tail), s') := by
  rw [out_check_line] at h
  obtain ⟨_, mid, s1, h1, h⟩ := bind_eq_ok_ok.mp h
  obtain ⟨l1, hl1, rfl, hskip⟩ := skip_whitespace.on_line l s _ mid s1 hl h1
  rcases l1 with _ | ⟨c, l1⟩
  · cases h
    intro tail
    rw [out_check_line, bind_run_ok (hskip tail), List.nil_append, bind_run_ok (peek_cons _),
      if_neg (by decide)]
    rfl
  · obtain ⟨hnl, hnul⟩ := hl c (hl1.subset List.mem_cons_self)
    rw [List.cons_append, bind_run_ok (peek_cons c), if_pos ⟨hnl, hnul⟩] at h
    cases h

/-- The blanks at the start of a line, and the line after them. -/
theorem split_blanks (l : List UInt8) : ∃ p t, l = p ++ t ∧ Blanks p ∧
    (t = [] ∨ ∃ c t', t = c :: t' ∧ whitespace c = false) := by
  refine ⟨l.takeWhile whitespace, l.dropWhile whitespace, List.takeWhile_append_dropWhile.symm,
    fun x hx => List.all_eq_true.mp List.all_takeWhile x hx, ?_⟩
  rcases h : l.dropWhile whitespace with _ | ⟨c, t'⟩
  · exact Or.inl rfl
  · refine Or.inr ⟨c, t', rfl, ?_⟩
    have := List.head?_dropWhile_not whitespace l
    rw [h] at this
    simpa using this

theorem parse_line_blank {l : List UInt8} (hl : Blanks l) (tail : List UInt8) (p : Process) :
    parse_line (l ++ ch '\n' :: tail) p = .ok (.ok ((), l ++ ch '\n' :: tail), p) := by
  rw [parse_line, bind_run_ok cursor_run, bind_run_ok (skip_whitespace_run hl (by decide) tail p),
    bind_run_ok (peek_cons _), if_pos rfl]
  rfl

/-- A line that is not blank and that `parse_line` accepts alone: in any text it
does the same and stops at the newline. -/
theorem parse_line_line {l : List UInt8} (hl : ∀ x ∈ l, InLine x) (hblank : ¬ Blanks l)
    {p p' : Process} {rest : List UInt8}
    (h : parse_line (l ++ [ch '\n', 0]) p = .ok (.ok ((), rest), p')) (tail : List UInt8) :
    parse_line (l ++ ch '\n' :: tail) p = .ok (.ok ((), ch '\n' :: tail), p') := by
  obtain ⟨b, t, rfl, hb, rfl | ⟨c, t, rfl, hc⟩⟩ := split_blanks l
  · rw [List.append_nil] at hblank
    exact absurd hb hblank
  have hnl : c ≠ ch '\n' := (hl c (by simp)).1
  have hline : ∀ tail, parse_line (b ++ c :: t ++ ch '\n' :: tail) p =
      (parse_statement >>= fun _ => out_check_line) (c :: t ++ ch '\n' :: tail) p := by
    intro tail
    rw [parse_line, bind_run_ok cursor_run, List.append_assoc, List.cons_append,
      bind_run_ok (skip_whitespace_run hb hc _ p), bind_run_ok (peek_cons c), if_neg hnl]
  rw [hline] at h ⊢
  obtain ⟨_, mid, p1, h1, h2⟩ := bind_eq_ok_ok.mp h
  have hct : ∀ x ∈ c :: t, InLine x := fun x hx => hl x (List.mem_append_right b hx)
  obtain ⟨l1, hl1, rfl, hstatement⟩ := parse_statement_line hct h1
  rw [bind_run_ok (hstatement tail)]
  exact out_check_line_line (fun x hx => hct x (hl1.subset hx)) h2 tail

end riscv_assembler
