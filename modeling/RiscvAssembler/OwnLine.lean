-- A statement on its own line: what `parse_line` moves over goes past the end of
-- the line at the numbers that stand behind a newline, for `strtoll` skips it, and
-- in the literal of `.ascii`, where a backslash is to stand before it.
import RiscvAssembler.Places

open checked scanner c_text

namespace riscv_assembler

/-! ## What a call moves over -/

/-- The statement begins with the word `.ascii`. -/
def ReadsAscii (text : List UInt8) (p : Process) : Prop :=
  ∃ mid rest, (skip_whitespace : Parse String Unit) text p = .ok (.ok ((), mid), p) ∧
    (parse_word : Parse String (Option Int)) mid p =
      .ok (.ok (some ((vocable.directive .K_ASCII).number : Int), rest), p)

/-- Newlines stand between the two quotes of one literal alone, and behind a
backslash. -/
def OneLiteral (used : List UInt8) : Prop :=
  ∃ head body tail, used = head ++ ch '"' :: (body ++ ch '"' :: tail) ∧ ch '"' ∉ head ∧
    ch '\n' ∉ head ∧ LiteralBody body ∧ Blanks tail

/-- The call that goes from `text` to `rest` takes nothing from another line. -/
def OnItsLine (text rest : List UInt8) (p : Process) : Prop :=
  ∃ used, text = used ++ rest ∧ (ch '\n' ∉ used ∨ ReadsAscii text p ∧ OneLiteral used)

/-- No number of the line stands behind a newline. -/
def NumbersOnLine (text : List UInt8) (p : Process) : Prop :=
  ∀ t, .number t ∈ line_places text p → ch '\n' ∉ t.takeWhile isspace

/-! ## Places that are numbers -/

/-- The scanner comes to no literal. -/
def OnlyNumbers (places : Places Process Place) : Prop :=
  ∀ text p, ∀ x ∈ places text p, ∃ t, x = .number t

theorem OnlyNumbers.nowhere : OnlyNumbers nowhere := fun _ _ _ hx => nomatch hx

theorem OnlyNumbers.number_here : OnlyNumbers number_here := fun text _ _ hx =>
  ⟨text, List.mem_singleton.mp hx⟩

theorem OnlyNumbers.behind {ε α : Type} {m : Parse ε α} {places : α → Places Process Place}
    (h : ∀ a, OnlyNumbers (places a)) : OnlyNumbers (behind m places) := by
  intro text p x hx
  unfold scanner.behind at hx
  split at hx
  · exact h _ _ _ x hx
  · cases hx

theorem OnlyNumbers.reg_number : OnlyNumbers reg_number := .behind fun _ => .number_here

theorem OnlyNumbers.itype_places (o : op) : OnlyNumbers (itype_places o) := by
  have hreg : OnlyNumbers reg_reg_number := .behind fun _ => .reg_number
  cases o <;> first | exact .reg_number | exact hreg | exact .nowhere

theorem OnlyNumbers.op_places (o : op) : OnlyNumbers (op_places o) := by
  unfold riscv_assembler.op_places
  cases formats o with
  | I_TYPE => exact .itype_places o
  | S_TYPE => exact .reg_number
  | U_TYPE => exact .reg_number
  | R_TYPE => exact .nowhere
  | B_TYPE => exact .nowhere
  | J_TYPE => exact .nowhere

theorem array_places_numbers (bytes : Nat) (errno : Int) (text : List UInt8) :
    ∀ x ∈ array_places bytes errno text, ∃ t, x = .number t := by
  intro x hx
  rcases hn : next_number bytes errno text with _ | rest
  · rw [array_places_none hn] at hx
    exact ⟨text, List.mem_singleton.mp hx⟩
  · rw [array_places_some hn] at hx
    rcases List.mem_cons.mp hx with rfl | hx
    · exact ⟨text, rfl⟩
    · exact array_places_numbers bytes errno rest x hx
termination_by text.length
decreasing_by exact next_number_shortens hn

theorem OnlyNumbers.directive_places {d : directive} (h : d ≠ .K_ASCII) :
    OnlyNumbers (directive_places d) := by
  cases d with
  | K_BYTE => exact fun text p => array_places_numbers 1 p.errno text
  | K_HALF => exact fun text p => array_places_numbers 2 p.errno text
  | K_WORD => exact fun text p => array_places_numbers 4 p.errno text
  | K_DWORD => exact fun text p => array_places_numbers 8 p.errno text
  | K_TEXT => exact .nowhere
  | K_DATA => exact .nowhere
  | K_ASCII => exact absurd rfl h
  | K_SPACE => exact .number_here

theorem OnlyNumbers.known_places {v : vocable} (h : v ≠ .directive .K_ASCII) :
    OnlyNumbers (known_places (v.number : Int)) := by
  unfold riscv_assembler.known_places
  rw [vocable.ofNumber_number]
  cases v with
  | op o => exact .op_places o
  | directive d => exact .directive_places fun hd => h (congrArg _ hd)

/-- A statement that is no `.ascii` has no place but numbers. -/
theorem line_places_numbers {text : List UInt8} {p : Process} (h : ¬ ReadsAscii text p) :
    ∀ x ∈ line_places text p, ∃ t, x = .number t := by
  intro x hx
  unfold line_places behind at hx
  split at hx
  · rename_i mid p1 h1
    obtain ⟨rfl, _⟩ := skip_whitespace.inert _ _ _ _ h1
    rcases mid with _ | ⟨c, mid⟩
    · cases hx
    · simp only [peek_cons] at hx
      split at hx
      · cases hx
      · unfold statement_places behind at hx
        split at hx
        · rename_i known rest p2 h2
          obtain ⟨rfl, _⟩ := parse_word.inert _ _ _ _ h2
          rcases parse_word_ok h2 with ⟨rfl, _⟩ | ⟨w, v, _, _, _, rfl⟩
          · cases hx
          · refine OnlyNumbers.known_places (fun hv => h ?_) _ _ _ hx
            rw [hv] at h2
            exact ⟨_, rest, h1, h2⟩
        · cases hx
  · cases hx

/-! ## The literal of `.ascii` -/

theorem vocabulary_ascii :
    ∀ w ∈ vocabulary, w.2 = .directive .K_ASCII → w.1 = ".ascii" := by decide

/-- The word of `.ascii` is spelled in one way, up to the top bit of its first
byte. -/
theorem spelled_ascii {c : UInt8} {w : List UInt8}
    (h : Spelled (ascii c :: w) (.directive .K_ASCII)) :
    c ≠ ch '\n' ∧ c ≠ ch '"' ∧ w = chars "ascii" := by
  obtain ⟨m, hm, hword⟩ := h
  have hc : m = ".ascii" := vocabulary_ascii _ hm rfl
  subst hc
  obtain ⟨hdot, rfl⟩ := List.cons.inj hword
  have hcode : (46 : Nat) = c.toNat % 128 := by
    rw [← ascii_toNat, ← hdot]
    rfl
  refine ⟨?_, ?_, rfl⟩
  · rintro rfl
    exact absurd hcode (by decide)
  · rintro rfl
    exact absurd hcode (by decide)

/-- The text up to a mark that comes after blanks. -/
theorem require_mark_used {σ ε : Type} {c : Char} {e : ε} {text rest : List UInt8} {s s' : σ}
    (h : (require (expect_char_literal c) e : Scan σ ε Unit) text s = .ok (.ok ((), rest), s')) :
    ∃ blanks, text = blanks ++ ch c :: rest ∧ Blanks blanks := by
  obtain ⟨found, mid, s1, h1, h2⟩ := bind_eq_ok_ok.mp h
  obtain ⟨_, mid', s2, hskip, haccept⟩ := bind_eq_ok_ok.mp h1
  obtain ⟨_, blanks, rfl, hblanks⟩ := skipWhile_used hskip
  refine ⟨blanks, ?_, hblanks⟩
  rcases mid' with _ | ⟨d, mid'⟩
  · cases haccept
  · by_cases hd : d = ch c
    · rw [hd, accept_same] at haccept
      cases haccept
      cases h2
      rw [hd]
    · rw [accept_other hd] at haccept
      cases haccept
      cases h2

theorem parse_string_literal.moves {text rest : List UInt8} {p p' : Process}
    (h : parse_string_literal text p = .ok (.ok ((), rest), p')) :
    ∃ blanks body, text = blanks ++ ch '"' :: (body ++ ch '"' :: rest) ∧ Blanks blanks ∧
      LiteralBody body := by
  obtain ⟨literal, mid, p1, h1, h2⟩ := bind_eq_ok_ok.mp h
  obtain ⟨⟨_, p2⟩, _, hend⟩ := bind_eq_ok.mp h2
  cases hend
  unfold measured at h1
  obtain ⟨⟨r, p3⟩, hrun, hpair⟩ := bind_eq_ok.mp h1
  rcases r with err | ⟨_, rest'⟩
  · cases hpair
  · cases hpair
    obtain ⟨_, mid', p4, hquote, hloop⟩ := bind_eq_ok_ok.mp hrun
    obtain ⟨blanks, rfl, hblanks⟩ := require_mark_used hquote
    obtain ⟨body, rfl, hbody, _⟩ := parse_string_loop.moves mid' p4 hloop
    exact ⟨blanks, body, rfl, hblanks, hbody⟩

/-- A call that accepts an `.ascii` moves over one literal. -/
theorem ascii_moves {text rest : List UInt8} {p p' : Process} (hascii : ReadsAscii text p)
    (h : parse_line text p = .ok (.ok ((), rest), p')) :
    ∃ used, text = used ++ rest ∧ OneLiteral used := by
  obtain ⟨mid, after, hskip, hword⟩ := hascii
  rw [parse_line, bind_run_ok cursor_run, bind_run_ok hskip] at h
  obtain ⟨_, blanks, rfl, hblanks⟩ := skipWhile_used hskip
  rcases mid with _ | ⟨c, mid⟩
  · cases h
  · rcases parse_word_ok hword with ⟨hnone, _⟩ | ⟨w, v, rfl, _, hspelled, hv⟩
    · cases hnone
    · have hv := vocable.number_injective (Option.some.inj hv)
      rw [← hv] at hspelled
      obtain ⟨hnl, hquote, rfl⟩ := spelled_ascii hspelled
      rw [bind_run_ok (peek_cons c), if_neg hnl] at h
      obtain ⟨_, rest', p1, hstatement, hcheck⟩ := bind_eq_ok_ok.mp h
      have hlit : parse_string_literal after p = .ok (.ok ((), rest'), p1) := by
        rw [← hstatement, parse_statement, bind_run_ok hword]
        rfl
      obtain ⟨blanks2, body, rfl, hblanks2, hbody⟩ := parse_string_literal.moves hlit
      obtain ⟨⟨tail, rfl, htail⟩, _⟩ := out_check_line_ok hcheck
      refine ⟨(blanks ++ c :: chars "ascii" ++ blanks2) ++ ch '"' :: (body ++ ch '"' :: tail), ?_,
        _, body, tail, rfl, ?_, ?_, hbody, htail⟩
      · simp
      · simp only [List.mem_append, List.mem_cons, not_or]
        exact ⟨⟨not_mem_blanks hblanks rfl, hquote.symm, by decide⟩, not_mem_blanks hblanks2 rfl⟩
      · simp only [List.mem_append, List.mem_cons, not_or]
        exact ⟨⟨not_mem_blanks hblanks rfl, hnl.symm, by decide⟩, not_mem_blanks hblanks2 rfl⟩

/-- An `.ascii` has no place but the rest of its literal. -/
theorem ascii_on_line {text : List UInt8} {p : Process} (h : ReadsAscii text p) :
    NumbersOnLine text p := by
  obtain ⟨mid, after, hskip, hword⟩ := h
  intro t ht
  rw [line_places, behind_run hskip] at ht
  rcases mid with _ | ⟨c, mid⟩
  · cases ht
  · rw [behind_run (peek_cons c)] at ht
    split at ht
    · cases ht
    · rw [statement_places, behind_run hword] at ht
      change Place.number t ∈ string_places after p at ht
      unfold string_places behind at ht
      split at ht
      · cases List.mem_singleton.mp ht
      · cases ht

/-! ## The line of a statement -/

/-- A call that gives no error takes what it reads from one line, but for the
newlines that a literal escapes, exactly when no number stands behind a newline. -/
theorem a_statement_keeps_to_its_line_iff_its_numbers_do {text rest : List UInt8} {p p' : Process}
    (h : parse_line text p = .ok (.ok ((), rest), p')) :
    OnItsLine text rest p ↔ NumbersOnLine text p := by
  have hreads : (asm_lines fun _ => 0).Reads line_places parse_line := parse_line.reads
  obtain ⟨used, htext, hiff⟩ := hreads.moves text p () rest p' h
  by_cases hascii : ReadsAscii text p
  · obtain ⟨used, htext, hlit⟩ := ascii_moves hascii h
    exact iff_of_true ⟨used, htext, Or.inr ⟨hascii, hlit⟩⟩ (ascii_on_line hascii)
  · have hnumbers := line_places_numbers hascii
    constructor
    · rintro ⟨used', htext', hno | ⟨hyes, _⟩⟩
      · -- a call moves over one prefix of its text only
        obtain rfl : used' = used := List.append_cancel_right (htext'.symm.trans htext)
        intro t ht hcross
        exact hno (hiff.mpr ⟨_, ht, hcross⟩)
      · exact absurd hyes hascii
    · intro hcond
      refine ⟨used, htext, Or.inl fun hnl => ?_⟩
      obtain ⟨x, hx, hcross⟩ := hiff.mp hnl
      obtain ⟨t, rfl⟩ := hnumbers x hx
      exact hcond t hx hcross

/-- The number of a `.byte` is taken from the next line. -/
theorem a_number_is_taken_from_the_next_line :
    ¬ ∀ (text rest : List UInt8) (p p' : Process),
      parse_line text p = .ok (.ok ((), rest), p') → OnItsLine text rest p := by
  intro hall
  let text := chars ".byte \n1\n"
  let p : Process := .fresh 0 0x400000 0x10010000
  have hruns : (Reaches p [text] fun _ => True) ∧
      ((parse_line text p).map fun r => r.1.toOption.map Prod.snd).toOption =
        some (some (chars "\n")) ∧
      ((parse_word text p : Result (Except String (Option Int × List UInt8) × Process)).map
        fun r => r.1.toOption.map Prod.fst) =
          .ok (some (some ((vocable.directive .K_BYTE).number : Int))) := by decide +kernel
  obtain ⟨hreach, hrest, hword⟩ := hruns
  obtain ⟨p', hline, _⟩ := hreach.line hrest
  obtain ⟨used, htext, hno | ⟨⟨mid, after, hskip, hascii⟩, _⟩⟩ := hall text _ p p' hline
  · obtain rfl : used = chars ".byte \n1" := List.append_cancel_right htext.symm
    exact hno (by decide)
  · have hstart : (skip_whitespace : Parse String Unit) text p = .ok (.ok ((), text), p) := rfl
    rw [hstart] at hskip
    have hmid : text = mid :=
      congrArg Prod.snd (Except.ok.inj (congrArg Prod.fst (Except.ok.inj hskip)))
    rw [hmid, hascii] at hword
    exact absurd (Option.some.inj (Option.some.inj (Except.ok.inj hword))) (by decide)

theorem a_literal_over_two_lines_keeps_to_its_line :
    let text := chars ".ascii \"a\\\nb\" \n"
    let p : Process := .fresh 0 0x400000 0x10010000
    ∃ rest p', parse_line text p = .ok (.ok ((), rest), p') ∧
      (OnItsLine text rest p ↔ NumbersOnLine text p) := by
  intro text p
  have hreach : Reaches p [text] fun _ => True := by decide +kernel
  obtain ⟨_, hrun, _⟩ := hreach
  obtain ⟨rest, p', hline, _⟩ := assembles_cons.mp hrun
  exact ⟨rest, p', hline, a_statement_keeps_to_its_line_iff_its_numbers_do hline⟩

end riscv_assembler
