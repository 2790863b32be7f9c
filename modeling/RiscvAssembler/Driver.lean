-- The loop of `main` (`main.c`), which hands the file to `parse_line` line by
-- line. A file whose lines `parse_line` accepts one at a time takes the emitter
-- to the state that the lines take it to.
import RiscvAssembler.LineLocality
import RiscvAssembler.Progress

open checked scanner c_text

namespace riscv_assembler

/-! ## The loop -/

/-- A call that gives no error leaves a byte to step over. -/
theorem parse_line_shortens {text rest : List UInt8} {c : UInt8} {p p' : Process}
    (h : parse_line text p = .ok (.ok ((), c :: rest), p')) : rest.length < text.length :=
  Nat.lt_of_lt_of_le (Nat.lt_succ_self _) (parse_line.forward _ _ _ _ _ h).length_le

/-- The loop over the text from `pos` on, with `after` bytes of the text from
`end` on. It gives the line number and the text of the first error. The `int` that
counts the lines wraps behind the largest one, as compiled code has it. -/
def main_loop (after : Nat) (line : Int32) (pos : List UInt8) (p : Process) :
    Result (Except (Int32 × String) Process) :=
  match _h : parse_line pos p with
  | .error f => .error f
  | .ok (.error err, _) => .ok (.error (line, err))
  | .ok (.ok ((), []), _) => .error .outOfBounds
  | .ok (.ok ((), _ :: pos), p) =>
    if after < pos.length then main_loop after (line + 1) pos p else .ok (.ok p)
termination_by pos.length
decreasing_by exact parse_line_shortens _h

/-- The texts that the loop hands to `parse_line`, as far as it accepts them. -/
def main_calls (after : Nat) (pos : List UInt8) (p : Process) : List (List UInt8) :=
  match _h : parse_line pos p with
  | .ok (.ok ((), _ :: rest), p) =>
    if after < rest.length then pos :: main_calls after rest p else [pos]
  | _ => []
termination_by pos.length
decreasing_by exact parse_line_shortens _h

/-- `parse_line` on one text after the other, up to the first error. -/
def assemble (p : Process) : List (List UInt8) → Result (Except String Process)
  | [] => .ok (.ok p)
  | text :: texts =>
    match parse_line text p with
    | .error f => .error f
    | .ok (.error err, _) => .ok (.error err)
    | .ok (.ok _, p) => assemble p texts

theorem assemble_cons_ok {p p' : Process} {text : List UInt8} {texts : List (List UInt8)} :
    assemble p (text :: texts) = .ok (.ok p') ↔ ∃ rest p1,
      parse_line text p = .ok (.ok ((), rest), p1) ∧ assemble p1 texts = .ok (.ok p') := by
  rw [assemble]
  rcases parse_line text p with f | ⟨_ | ⟨_, rest⟩, p1⟩ <;> simp

theorem main_loop_ok {after : Nat} {line : Int32} {pos pos' : List UInt8} {c : UInt8} {p p' : Process}
    (h : parse_line pos p = .ok (.ok ((), c :: pos'), p')) :
    main_loop after line pos p =
      if after < pos'.length then main_loop after (line + 1) pos' p' else .ok (.ok p') := by
  rw [main_loop]
  split <;> rename_i heq <;> rw [h] at heq <;> cases heq
  rfl

theorem main_calls_ok {after : Nat} {pos pos' : List UInt8} {c : UInt8} {p p' : Process}
    (h : parse_line pos p = .ok (.ok ((), c :: pos'), p')) :
    main_calls after pos p =
      if after < pos'.length then pos :: main_calls after pos' p' else [pos] := by
  rw [main_calls]
  split
  · rename_i heq
    rw [h] at heq
    cases heq
    rfl
  · rename_i hno
    exact absurd h (hno _ _ _)

/-- A loop that accepts the whole text accepts all that it hands to
`parse_line`, one after the other. -/
theorem main_loop_calls {after : Nat} {line : Int32} {pos : List UInt8} {p p' : Process}
    (h : main_loop after line pos p = .ok (.ok p')) :
    assemble p (main_calls after pos p) = .ok (.ok p') := by
  rcases hline : parse_line pos p with f | ⟨err | ⟨_, rest⟩, p1⟩
  · rw [main_loop] at h
    split at h <;> rename_i heq <;> rw [hline] at heq <;> cases heq
    cases h
  · rw [main_loop] at h
    split at h <;> rename_i heq <;> rw [hline] at heq <;> cases heq
    cases h
  · rcases rest with _ | ⟨c, rest⟩
    · rw [main_loop] at h
      split at h <;> rename_i heq <;> rw [hline] at heq <;> cases heq
      cases h
    · rw [main_loop_ok hline] at h
      rw [main_calls_ok hline]
      by_cases hin : after < rest.length
      · rw [if_pos hin] at h ⊢
        exact assemble_cons_ok.mpr ⟨_, _, hline, main_loop_calls h⟩
      · rw [if_neg hin] at h ⊢
        cases h
        exact assemble_cons_ok.mpr ⟨_, _, hline, rfl⟩
termination_by pos.length
decreasing_by exact parse_line_shortens hline

/-! ## One line of a file -/

/-- A line alone in a buffer. -/
def alone (l : List UInt8) : List UInt8 := l ++ [ch '\n', 0]

/-- What the loop does with a line, from its start to the byte after its
newline. -/
def PassesLine (after : Nat) (line : Int32) (l text : List UInt8) (p p' : Process) : Prop :=
  (after < text.length → ∃ line', main_loop after line (l ++ ch '\n' :: text) p =
    main_loop after line' text p') ∧
  (¬ after < text.length → main_loop after line (l ++ ch '\n' :: text) p = .ok (.ok p'))

/-- A blank line is read once from each of its bytes, and changes nothing. -/
theorem passes_blank_line {after : Nat} {text l : List UInt8} (hl : Blanks l) (line : Int32)
    (p : Process) : PassesLine after line l text p p := by
  induction l generalizing line with
  | nil =>
    have hrun : main_loop after line ([] ++ ch '\n' :: text) p =
        if after < text.length then main_loop after (line + 1) text p else .ok (.ok p) :=
      main_loop_ok (parse_line_blank hl text p)
    rw [PassesLine, hrun]
    exact ⟨fun h => ⟨line + 1, if_pos h⟩, fun h => if_neg h⟩
  | cons c l ih =>
    have hrest : Blanks l := fun x hx => hl x (List.mem_cons_of_mem c hx)
    have hrun : main_loop after line (c :: l ++ ch '\n' :: text) p =
        if after < (l ++ ch '\n' :: text).length then
          main_loop after (line + 1) (l ++ ch '\n' :: text) p
        else .ok (.ok p) := main_loop_ok (parse_line_blank hl text p)
    obtain ⟨hgo, hstop⟩ := ih hrest (line + 1)
    rw [PassesLine, hrun]
    by_cases hin : after < (l ++ ch '\n' :: text).length
    · rw [if_pos hin]
      exact ⟨hgo, hstop⟩
    · have hlen : text.length < (l ++ ch '\n' :: text).length := by
        simp only [List.length_append, List.length_cons]
        omega
      rw [if_neg hin]
      exact ⟨fun h => absurd (Nat.lt_trans h hlen) hin, fun _ => rfl⟩

theorem passes_line {after : Nat} {text l rest : List UInt8} (hl : ∀ x ∈ l, InLine x)
    {p p' : Process} (h : parse_line (alone l) p = .ok (.ok ((), rest), p')) (line : Int32) :
    PassesLine after line l text p p' := by
  unfold alone at h
  by_cases hblank : Blanks l
  · rw [parse_line_blank hblank] at h
    cases h
    exact passes_blank_line hblank line p
  · have hrun : main_loop after line (l ++ ch '\n' :: text) p =
        if after < text.length then main_loop after (line + 1) text p' else .ok (.ok p') :=
      main_loop_ok (parse_line_line hl hblank h text)
    rw [PassesLine, hrun]
    exact ⟨fun hin => ⟨line + 1, if_pos hin⟩, fun hin => if_neg hin⟩

/-! ## All lines of a file -/

/-- The lines, each with its newline, and then `r`. -/
def textOf : List (List UInt8) → List UInt8 → List UInt8
  | [], r => r
  | l :: ls, r => l ++ ch '\n' :: textOf ls r

theorem length_textOf (lines : List (List UInt8)) (r : List UInt8) :
    r.length + lines.length ≤ (textOf lines r).length := by
  induction lines with
  | nil => exact Nat.le_refl _
  | cons l ls ih =>
    simp only [textOf, List.length_append, List.length_cons]
    omega

/-- The step over the last newline can end the loop before an empty last line,
which changes nothing. -/
theorem main_loop_lines {after : Nat} {r : List UInt8} (hr : r.length ≤ after)
    (hafter : after ≤ r.length + 1) {lines : List (List UInt8)} (hne : lines ≠ [])
    (hl : ∀ l ∈ lines, ∀ x ∈ l, InLine x) (line : Int32) {p p' : Process}
    (h : assemble p (lines.map alone) = .ok (.ok p')) :
    main_loop after line (textOf lines r) p = .ok (.ok p') := by
  induction lines generalizing line p with
  | nil => exact absurd rfl hne
  | cons l ls ih =>
    obtain ⟨rest, p1, hparse, hrun⟩ := assemble_cons_ok.mp h
    have hlen := length_textOf ls r
    have hline : l ∈ l :: ls := List.mem_cons_self
    obtain ⟨hgo, hstop⟩ : PassesLine after line l (textOf ls r) p p1 :=
      passes_line (hl l hline) hparse line
    by_cases hin : after < (textOf ls r).length
    · obtain ⟨line', heq⟩ := hgo hin
      have hls : ls ≠ [] := by
        rintro rfl
        exact absurd hin (by simpa [textOf] using hr)
      rw [textOf, heq]
      exact ih hls (fun l' hl' => hl l' (List.mem_cons_of_mem l hl')) line' hrun
    · rw [textOf, hstop hin]
      rcases ls with _ | ⟨l2, ls⟩
      · cases hrun
        rfl
      · have hlen2 := length_textOf ls r
        simp only [textOf, List.length_append, List.length_cons] at hin
        have hl2 : l2 = [] := List.length_eq_zero_iff.mp (by omega)
        have hls : ls = [] := by
          have hlen3 := length_textOf ls r
          exact List.length_eq_zero_iff.mp (by omega)
        subst hl2 hls
        obtain ⟨rest2, p2, hblank, hend⟩ := assemble_cons_ok.mp hrun
        rw [alone, parse_line_blank (fun x hx => absurd hx List.not_mem_nil)] at hblank
        cases hblank
        cases hend
        rfl

/-- The contents of a file with these lines, with a newline after the last one
or without. -/
def fileOf (lines : List (List UInt8)) (final : Bool) : List UInt8 :=
  [ch '\n'].intercalate lines ++ if final then [ch '\n'] else []

theorem intercalate_newline {lines : List (List UInt8)} (hne : lines ≠ []) (r : List UInt8) :
    [ch '\n'].intercalate lines ++ ch '\n' :: r = textOf lines r := by
  induction lines with
  | nil => exact absurd rfl hne
  | cons l ls ih =>
    rcases ls with _ | ⟨l2, ls⟩
    · simp [textOf]
    · have := ih (List.cons_ne_nil l2 ls)
      rw [textOf, ← this]
      simp [List.intercalate]

/-- If `parse_line` accepts all lines of a file, each alone in its own buffer,
then the loop of `main` accepts the file and leaves the same emitter. -/
theorem the_loop_reads_a_file_as_its_lines (text_vaddr data_vaddr : Nat)
    (lines : List (List UInt8)) (hl : ∀ l ∈ lines, ∀ x ∈ l, InLine x) (p : Process)
    (h : assemble ⟨0, emitter.fresh text_vaddr data_vaddr⟩
      (lines.map alone) = .ok (.ok p))
    (final : Bool) (hne : fileOf lines final ≠ []) (tail : List UInt8) :
    main_loop (tail.length + 1) 1 (fileOf lines final ++ ch '\n' :: tail)
      ⟨0, emitter.fresh text_vaddr data_vaddr⟩ = .ok (.ok p) := by
  rcases lines with _ | ⟨l, ls⟩
  · cases final with
    | true =>
      -- the file is one newline, as for a single empty line
      cases h
      have hblank : parse_line (alone []) ⟨0, emitter.fresh text_vaddr data_vaddr⟩ =
          .ok (.ok ((), alone []), ⟨0, emitter.fresh text_vaddr data_vaddr⟩) :=
        parse_line_blank (fun x hx => absurd hx List.not_mem_nil) _ _
      have hline : ∀ l ∈ [([] : List UInt8)], ∀ x ∈ l, InLine x := by simp
      have hrun := main_loop_lines (r := ch '\n' :: tail) (Nat.le_refl _) (by simp)
        (List.cons_ne_nil [] []) hline 1 (assemble_cons_ok.mpr ⟨_, _, hblank, rfl⟩)
      simpa [textOf, fileOf] using hrun
    | false => exact absurd rfl hne
  · cases final with
    | true =>
      have htext := intercalate_newline (List.cons_ne_nil l ls) (ch '\n' :: tail)
      rw [fileOf, if_pos rfl, List.append_assoc]
      simp only [List.cons_append, List.nil_append]
      rw [htext]
      exact main_loop_lines (by simp) (by simp) (List.cons_ne_nil l ls) hl 1 h
    | false =>
      have htext := intercalate_newline (List.cons_ne_nil l ls) tail
      simp only [fileOf, Bool.false_eq_true, if_false, List.append_nil]
      rw [htext]
      exact main_loop_lines (by simp) (by simp) (List.cons_ne_nil l ls) hl 1 h

theorem a_file_with_a_jump_is_read_as_its_lines :
    ∃ p, assemble ⟨0, emitter.fresh 0x400000 0x10010000⟩
        (["start:", " \t", "\taddi x1, x0, -1", "jal x0, start"].map fun l => alone (chars l)) =
          .ok (.ok p) ∧
      main_loop 1 1 (fileOf (["start:", " \t", "\taddi x1, x0, -1", "jal x0, start"].map chars) true ++
        [ch '\n']) ⟨0, emitter.fresh 0x400000 0x10010000⟩ = .ok (.ok p) := by
  have hok : ((assemble ⟨0, emitter.fresh 0x400000 0x10010000⟩
      (["start:", " \t", "\taddi x1, x0, -1", "jal x0, start"].map fun l => alone (chars l))).map
        Except.toBool).toOption = some true := by decide +kernel
  have hline : ∀ l ∈ ["start:", " \t", "\taddi x1, x0, -1", "jal x0, start"].map chars,
      ∀ x ∈ l, InLine x := by unfold InLine; decide
  rcases hrun : assemble ⟨0, emitter.fresh 0x400000 0x10010000⟩
      (["start:", " \t", "\taddi x1, x0, -1", "jal x0, start"].map fun l => alone (chars l))
    with f | ⟨err | p⟩
  · rw [hrun] at hok
    cases hok
  · rw [hrun] at hok
    cases hok
  · exact ⟨p, rfl, the_loop_reads_a_file_as_its_lines 0x400000 0x10010000 _ hline p hrun true
      (by decide) []⟩

end riscv_assembler
