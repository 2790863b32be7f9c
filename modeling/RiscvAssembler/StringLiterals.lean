-- String literals (`parse_string_literal`): the spellings of a byte string, what
-- the literal of a spelling puts into the section, and that every other text is
-- rejected.
import RiscvAssembler.Operands
import RiscvAssembler.Pieces

open checked scanner c_text

namespace riscv_assembler

/-! ## Spellings -/

/-- The escapes: the character behind the backslash and the byte it stands for. -/
def escapes : List (UInt8 × UInt8) :=
  [(ch '"', ch '"'), (ch '\\', ch '\\'), (ch '\n', ch '\n'), (ch 'b', 8), (ch 'f', 12),
    (ch 'n', 10), (ch 'r', 13), (ch 't', 9)]

/-- A spelling of a byte string between double quotes: each byte stands for itself
or is escaped. -/
inductive Spelling : List UInt8 → List UInt8 → Prop
  | nil : Spelling [] []
  | raw {c : UInt8} {b text : List UInt8} : c ≠ 0 → c ≠ ch '"' → c ≠ ch '\\' → c ≠ ch '\n' →
      Spelling b text → Spelling (c :: b) (c :: text)
  | escaped {e c : UInt8} {b text : List UInt8} : (e, c) ∈ escapes → Spelling b text →
      Spelling (c :: b) (ch '\\' :: e :: text)

/-- The byte string as it is handed to the emitter. -/
def single_bytes (b : List UInt8) : List (List UInt8) := b.map fun c => [c]

theorem escape_ok {e c : UInt8} : escape e = .ok c ↔ (e, c) ∈ escapes := by
  have hsome : ∀ e, (escape e).toOption.all (fun c => decide ((e, c) ∈ escapes)) = true :=
    forall_byte (by decide +kernel)
  have hall : (escapes.all fun x => decide ((escape x.1).toOption = some x.2)) = true := by
    decide +kernel
  constructor
  · intro h
    have := hsome e
    rw [h] at this
    exact of_decide_eq_true this
  · intro h
    have := of_decide_eq_true (List.all_eq_true.mp hall _ h)
    rcases he : escape e with err | d <;> simp_all [Except.toOption]

/-! ## The loop -/

theorem single_bytes_run (c : UInt8) (b : List UInt8) (em : emitter) {α : Type}
    (f : emitter → Result α) :
    (runAll emitter_buffer em (single_bytes (c :: b)) >>= f) = (do
      let em ← emitter_buffer em [c]
      runAll emitter_buffer em (single_bytes b) >>= f) :=
  runAll_map_cons_bind emitter_buffer em (fun c => [c]) c b f

/-- The loop hands the bytes over and ends behind the quote. -/
theorem parse_string_loop_spelling {b spelling : List UInt8} (h : Spelling b spelling)
    (rest : List UInt8) (p : Process) :
    parse_string_loop (spelling ++ ch '"' :: rest) p = (do
      let em ← runAll emitter_buffer p.em (single_bytes b)
      .ok (.ok ((), rest), { p with em })) := by
  induction h generalizing p with
  | nil => exact parse_string_loop_quote rest p
  | raw h0 hquote hback hnl _ ih =>
    rw [List.cons_append, parse_string_loop_plain hquote (not_or.mpr ⟨h0, hnl⟩) hback,
      single_bytes_run]
    simp only [ih]
  | escaped he _ ih =>
    rw [List.cons_append, List.cons_append, parse_string_loop_escape, escape_ok.mpr he,
      single_bytes_run]
    simp only [ih]

/-- The loop hands some bytes over and fails. -/
def LoopFails (text : List UInt8) : Prop :=
  ∃ e b, b.length ≤ text.length ∧ ∀ p, parse_string_loop text p = (do
    let em ← runAll emitter_buffer p.em (single_bytes b)
    .ok (.error e, { p with em }))

/-- A text with a NUL either begins with a spelling and a quote, or the loop fails. -/
theorem parse_string_loop_terminated : ∀ {text : List UInt8}, 0 ∈ text →
    (∃ b spelling rest, Spelling b spelling ∧ text = spelling ++ ch '"' :: rest) ∨ LoopFails text
  | [], h => by cases h
  | c :: text, h0 => by
    have htail : c ≠ 0 → 0 ∈ text := fun hc =>
      (List.mem_cons.mp h0).resolve_left fun hzero => hc hzero.symm
    by_cases hquote : c = ch '"'
    · subst hquote
      exact Or.inl ⟨[], [], text, .nil, rfl⟩
    · by_cases hstop : c = 0 ∨ c = ch '\n'
      · exact Or.inr ⟨_, [], Nat.zero_le _, fun p => parse_string_loop_end hstop text p⟩
      · rw [not_or] at hstop
        by_cases hback : c = ch '\\'
        · subst hback
          rcases text with _ | ⟨e, text⟩
          · cases htail (by decide)
          · rcases he : escape e with err | d
            · exact Or.inr ⟨err, [], Nat.zero_le _, fun p => by rw [parse_string_loop_escape, he]; rfl⟩
            · have hnul : 0 ∈ text := (List.mem_cons.mp (htail (by decide))).resolve_left
                fun hzero => by rw [← hzero] at he; cases he
              rcases parse_string_loop_terminated hnul with ⟨b, spelling, rest, hb, rfl⟩ | hfails
              · exact Or.inl ⟨d :: b, ch '\\' :: e :: spelling, rest,
                  .escaped (escape_ok.mp he) hb, rfl⟩
              · obtain ⟨err, b, hlen, hrun⟩ := hfails
                refine Or.inr ⟨err, d :: b, by simp only [List.length_cons]; omega, fun p => ?_⟩
                rw [parse_string_loop_escape, he, single_bytes_run]
                simp only [hrun]
        · rcases parse_string_loop_terminated (htail hstop.1) with
            ⟨b, spelling, rest, hb, rfl⟩ | hfails
          · exact Or.inl ⟨c :: b, c :: spelling, rest, .raw hstop.1 hquote hback hstop.2 hb, rfl⟩
          · obtain ⟨err, b, hlen, hrun⟩ := hfails
            refine Or.inr ⟨err, c :: b, Nat.succ_le_succ hlen, fun p => ?_⟩
            rw [parse_string_loop_plain hquote (not_or.mpr hstop) hback, single_bytes_run]
            simp only [hrun]

/-! ## The whole literal -/

/-- The text begins, after blanks, with a literal of `b`. It is `used` characters
long with the blanks and the quotes, and `rest` is what comes behind it. -/
inductive LiteralAt : List UInt8 → List UInt8 → Nat → List UInt8 → Prop
  | intro {blanks b spelling : List UInt8} (rest : List UInt8) : Blanks blanks →
      Spelling b spelling → LiteralAt (blanks ++ ch '"' :: (spelling ++ ch '"' :: rest)) b
        (blanks.length + spelling.length + 2) rest

theorem Spelling.length_le {b spelling : List UInt8} (h : Spelling b spelling) :
    b.length ≤ spelling.length := by
  induction h with
  | nil => exact Nat.le_refl _
  | raw _ _ _ _ _ ih => exact Nat.succ_le_succ ih
  | escaped _ _ ih =>
    simp only [List.length_cons]
    omega

theorem single_bytes_length (b : List UInt8) : ((single_bytes b).map List.length).sum = b.length := by
  induction b with
  | nil => rfl
  | cons c b ih => simp_all [single_bytes, Nat.add_comm]

theorem opening_quote {blanks : List UInt8} (hblanks : Blanks blanks) (tail : List UInt8)
    (p : Process) :
    (require (expect_char_literal '"') "expected start of string" >>= fun _ => parse_string_loop)
      (blanks ++ ch '"' :: tail) p = parse_string_loop tail p :=
  bind_run_ok (require_run_true (expect_char_literal.spec hblanks (by decide) tail p))

theorem parse_string_literal_ok {blanks tail rest : List UInt8} (hblanks : Blanks blanks)
    {p : Process} {run : Result emitter} (hloop : parse_string_loop tail p = (do
      let em ← run
      .ok (.ok ((), rest), { p with em }))) :
    parse_string_literal (blanks ++ ch '"' :: tail) p = (do
      let em ← run
      let em ← emitter_advance em (((blanks ++ ch '"' :: tail).length - rest.length) % 4)
      .ok (.ok ((), rest), { p with em })) := by
  have hread := (opening_quote hblanks tail p).trans hloop
  unfold parse_string_literal
  rw [bind_run]
  rcases run with f | em
  · rw [measured_run_fault hread]
    rfl
  · rw [measured_run_ok hread, ok_bind, andThen_ok, advance_run, ok_bind]

theorem parse_string_literal_error {blanks tail : List UInt8} (hblanks : Blanks blanks)
    {p : Process} {run : Result emitter} {e : String} (hloop : parse_string_loop tail p = (do
      let em ← run
      .ok (.error e, { p with em }))) :
    parse_string_literal (blanks ++ ch '"' :: tail) p = (do
      let em ← run
      .ok (.error e, { p with em })) := by
  have hread := (opening_quote hblanks tail p).trans hloop
  unfold parse_string_literal
  rw [bind_run]
  rcases run with f | em
  · rw [measured_run_fault hread]
    rfl
  · rw [measured_run_error hread]
    rfl

theorem parse_string_literal_unopened {blanks : List UInt8} (hblanks : Blanks blanks) {c : UInt8}
    (hblank : whitespace c = false) (hquote : c ≠ ch '"') (tail : List UInt8) (p : Process) :
    parse_string_literal (blanks ++ c :: tail) p = .ok (.error "expected start of string", p) := by
  have hopen : require (expect_char_literal '"') "expected start of string"
      (blanks ++ c :: tail) p = .ok (.error "expected start of string", p) := by
    unfold require expect_char_literal
    rw [bind_run_ok (bind_run_ok (skip_whitespace_run hblanks hblank tail p) |>.trans
      (accept_other hquote))]
    rfl
  unfold parse_string_literal
  rw [bind_run_error (measured_run_error (bind_run_error hopen))]

theorem parse_string_literal_at {text b rest : List UInt8} {used : Nat}
    (h : LiteralAt text b used rest) (p : Process) :
    parse_string_literal text p = (do
      let em ← runAll emitter_buffer p.em (single_bytes b)
      let em ← emitter_advance em (used % 4)
      .ok (.ok ((), rest), { p with em })) := by
  obtain ⟨rest, hblanks, hspelling⟩ := h
  rename_i blanks spelling
  have hused : (blanks ++ ch '"' :: (spelling ++ ch '"' :: rest)).length - rest.length =
      blanks.length + spelling.length + 2 := by
    simp only [List.length_append, List.length_cons]
    omega
  rw [parse_string_literal_ok hblanks (parse_string_loop_spelling hspelling rest p), hused]

theorem parse_string_literal_fails {text : List UInt8} (h0 : 0 ∈ text)
    (hno : ¬ ∃ b used rest, LiteralAt text b used rest) :
    ∃ e b, b.length ≤ text.length ∧ ∀ p, parse_string_literal text p = (do
      let em ← runAll emitter_buffer p.em (single_bytes b)
      .ok (.error e, { p with em })) := by
  obtain ⟨c, tail, _, hc, htext⟩ := split_while (p := whitespace) ⟨0, h0, rfl⟩
  generalize hbl : text.takeWhile whitespace = blanks at htext
  have hblanks : Blanks blanks := by
    rw [← hbl]
    exact fun _ => List.mem_takeWhile_imp
  subst htext
  by_cases hquote : c = ch '"'
  · subst hquote
    have hnul : 0 ∈ ch '"' :: tail :=
      (List.mem_append.mp h0).resolve_left (not_mem_blanks hblanks rfl)
    have htail : 0 ∈ tail := (List.mem_cons.mp hnul).resolve_left (by decide)
    rcases parse_string_loop_terminated htail with ⟨b, spelling, rest, hb, rfl⟩ | ⟨e, b, hlen, hloop⟩
    · exact absurd ⟨b, _, rest, .intro rest hblanks hb⟩ hno
    · refine ⟨e, b, ?_, fun p => parse_string_literal_error hblanks (hloop p)⟩
      simp only [List.length_append, List.length_cons]
      omega
  · exact ⟨"expected start of string", [], Nat.zero_le _, fun p =>
      parse_string_literal_unopened hblanks hc hquote tail p⟩

/-- A literal hands its byte string to the emitter, byte by byte, and ends behind
the closing quote. A text with no literal is rejected: an error comes without a
new cursor, so that of the caller stays. Only the emitter can stop a call, and it
does not as long as a file has room. -/
theorem string_literals_decode_exactly (text : List UInt8) (p : Process) :
    (∀ b used rest, LiteralAt text b used rest →
      parse_string_literal text p = (do
        let em ← runAll emitter_buffer p.em (single_bytes b)
        let em ← emitter_advance em (used % 4)
        .ok (.ok ((), rest), { p with em })) ∧
      (p.em.cur.Takes (text.length + 4) →
        ∃ em, parse_string_literal text p = .ok (.ok ((), rest), { p with em }))) ∧
    (0 ∈ text → (¬ ∃ b used rest, LiteralAt text b used rest) →
      ∃ e b, parse_string_literal text p = (do
        let em ← runAll emitter_buffer p.em (single_bytes b)
        .ok (.error e, { p with em })) ∧
      (p.em.cur.Takes (text.length + 4) →
        ∃ em, parse_string_literal text p = .ok (.error e, { p with em }))) := by
  refine ⟨fun b used rest hat => ?_, fun h0 hno => ?_⟩
  · have hrun := parse_string_literal_at hat p
    refine ⟨hrun, fun htakes => ?_⟩
    have hlen : b.length ≤ text.length := by
      obtain ⟨rest, _, hspelling⟩ := hat
      have := hspelling.length_le
      simp only [List.length_append, List.length_cons]
      omega
    have hmod := Nat.mod_lt used (show 0 < 4 by decide)
    obtain ⟨em, hem⟩ := pieces_and_gap_take (single_bytes b) (used % 4)
      (htakes.mono (by rw [single_bytes_length]; omega))
    obtain ⟨em1, h1, h2⟩ := bind_eq_ok.mp hem
    exact ⟨em, by rw [hrun, h1, ok_bind, h2, ok_bind]⟩
  · obtain ⟨e, b, hlen, hall⟩ := parse_string_literal_fails h0 hno
    refine ⟨e, b, hall p, fun htakes => ?_⟩
    obtain ⟨em, hem, _⟩ := buffer_pieces_take (single_bytes b) 0
      (htakes.mono (by rw [single_bytes_length]; omega))
    exact ⟨em, by rw [hall p, hem, ok_bind]⟩

/-- `"hi\n"` after a blank. -/
theorem a_literal_with_an_escape_is_decoded :
    ∃ em, parse_string_literal (chars " \"hi\\n\"\x00")
        ⟨0, emitter.fresh 0x400000 0x10010000⟩ =
      .ok (.ok ((), [0]), ⟨0, em⟩) := by
  have hspelling : Spelling [ch 'h', ch 'i', 10] [ch 'h', ch 'i', ch '\\', ch 'n'] :=
    .raw (by decide) (by decide) (by decide) (by decide)
      (.raw (by decide) (by decide) (by decide) (by decide) (.escaped (by decide) .nil))
  have hat : LiteralAt (chars " \"hi\\n\"\x00") [ch 'h', ch 'i', 10] 7 [0] :=
    @LiteralAt.intro [ch ' '] _ _ [0] (by unfold Blanks; decide) hspelling
  exact ((string_literals_decode_exactly _ _).1 _ _ _ hat).2
    ⟨Section.ok_fresh 0x400000, by decide⟩

end riscv_assembler
