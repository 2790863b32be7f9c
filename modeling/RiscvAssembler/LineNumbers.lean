-- The line counter of `main`: the calls of `parse_line` that the loop makes, with
-- the counter before each, and the number of the line that the call begins on.
import RiscvAssembler.Driver
import RiscvAssembler.OwnLine

open checked scanner c_text

namespace riscv_assembler

/-! ## The calls of the loop -/

/-- The loop before a call of `parse_line`. -/
structure Visit where
  line : Int32
  pos : List UInt8
  p : Process

/-- The calls that the loop makes, the last one included. -/
def main_visits (after : Nat) (line : Int32) (pos : List UInt8) (p : Process) : List Visit :=
  ⟨line, pos, p⟩ :: match _h : parse_line pos p with
    | .ok (.ok ((), _ :: rest), p) =>
      if after < rest.length then main_visits after (line + 1) rest p else []
    | _ => []
termination_by pos.length
decreasing_by exact parse_line_shortens _h

/-- What the loop makes of a call, if it is its last. -/
def Visit.outcome (v : Visit) : Result (Except (Int32 × String) Process) :=
  match parse_line v.pos v.p with
  | .error f => .error f
  | .ok (.error err, _) => .ok (.error (v.line, err))
  | .ok (.ok ((), []), _) => .error .outOfBounds
  | .ok (.ok ((), _ :: _), p) => .ok (.ok p)

variable {after : Nat} {line : Int32} {pos : List UInt8} {p : Process}

theorem main_visits_ok {c : UInt8} {rest : List UInt8} {p' : Process}
    (h : parse_line pos p = .ok (.ok ((), c :: rest), p')) :
    main_visits after line pos p =
      ⟨line, pos, p⟩ :: if after < rest.length then main_visits after (line + 1) rest p' else [] := by
  rw [main_visits]
  split
  · rename_i heq
    rw [h] at heq
    cases heq
    rfl
  · rename_i hno
    exact absurd h (hno _ _ _)

/-- A call that the loop does not go on after. -/
theorem main_stops (h : ∀ c rest p', parse_line pos p ≠ .ok (.ok ((), c :: rest), p')) :
    main_loop after line pos p = Visit.outcome ⟨line, pos, p⟩ ∧
      main_visits after line pos p = [⟨line, pos, p⟩] := by
  constructor
  · rw [main_loop]
    split <;> rename_i heq
    · rw [Visit.outcome, heq]
    · rw [Visit.outcome, heq]
    · rw [Visit.outcome, heq]
    · exact absurd heq (h _ _ _)
  · rw [main_visits]
    split
    · rename_i heq
      exact absurd heq (h _ _ _)
    · rfl

/-- One turn of the loop: it goes on behind the byte that the call stops at, or
it ends as the call says. -/
theorem main_turn (after : Nat) (line : Int32) (pos : List UInt8) (p : Process) :
    (∃ c rest p', parse_line pos p = .ok (.ok ((), c :: rest), p') ∧ after < rest.length ∧
      main_loop after line pos p = main_loop after (line + 1) rest p' ∧
      main_visits after line pos p = ⟨line, pos, p⟩ :: main_visits after (line + 1) rest p') ∨
    (main_loop after line pos p = Visit.outcome ⟨line, pos, p⟩ ∧
      main_visits after line pos p = [⟨line, pos, p⟩]) := by
  by_cases hgo : ∃ c rest p', parse_line pos p = .ok (.ok ((), c :: rest), p')
  · obtain ⟨c, rest, p', hline⟩ := hgo
    rw [main_loop_ok hline, main_visits_ok hline]
    by_cases hin : after < rest.length
    · rw [if_pos hin, if_pos hin]
      exact Or.inl ⟨c, rest, p', hline, hin, rfl, rfl⟩
    · rw [if_neg hin, if_neg hin, Visit.outcome, hline]
      exact Or.inr ⟨rfl, rfl⟩
  · exact Or.inr (main_stops fun c rest p' hline => hgo ⟨c, rest, p', hline⟩)

/-- The loop ends as its last call says. -/
theorem main_loop_ends (after : Nat) (line : Int32) (pos : List UInt8) (p : Process) :
    ∃ before v, main_visits after line pos p = before ++ [v] ∧
      main_loop after line pos p = v.outcome := by
  rcases main_turn after line pos p with ⟨c, rest, p', hline, _, hloop, hvisits⟩ | ⟨hloop, hvisits⟩
  · obtain ⟨before, v, hrest, hend⟩ := main_loop_ends after (line + 1) rest p'
    refine ⟨⟨line, pos, p⟩ :: before, v, ?_, hloop.trans hend⟩
    rw [hvisits, hrest]
    rfl
  · exact ⟨[], _, hvisits, hloop⟩
termination_by pos.length
decreasing_by exact parse_line_shortens hline

/-- What holds of the first call and goes over from each call that `C` holds of
to the next one holds up to the first call that `C` does not hold of. -/
theorem main_visits_keep {I C : Visit → Prop}
    (hstep : ∀ v c rest p', I v → C v → parse_line v.pos v.p = .ok (.ok ((), c :: rest), p') →
      after < rest.length → I ⟨v.line + 1, rest, p'⟩)
    (hfirst : I ⟨line, pos, p⟩) {before later : List Visit} {v : Visit}
    (hrun : main_visits after line pos p = before ++ v :: later) (hall : ∀ u ∈ before, C u) :
    I v := by
  induction before generalizing line pos p with
  | nil =>
    rw [main_visits] at hrun
    obtain ⟨rfl, _⟩ := List.cons.inj hrun
    exact hfirst
  | cons u before ih =>
    obtain ⟨hu, hbefore⟩ := List.forall_mem_cons.mp hall
    rcases main_turn after line pos p with ⟨c, rest, p', hline, hin, _, hvisits⟩ | ⟨_, hvisits⟩
    · rw [hvisits] at hrun
      obtain ⟨rfl, htail⟩ := List.cons.inj hrun
      exact ih (hstep _ c rest p' hfirst hu hline hin) htail hbefore
    · rw [hvisits] at hrun
      obtain ⟨_, htail⟩ := List.cons.inj hrun
      simp at htail

/-- The counter goes up by one at each call. -/
theorem main_visits_line {before later : List Visit} {v : Visit}
    (hrun : main_visits after line pos p = before ++ v :: later) :
    v.line = line + Int32.ofNat before.length := by
  induction before generalizing line pos p with
  | nil =>
    rw [main_visits] at hrun
    obtain ⟨rfl, _⟩ := List.cons.inj hrun
    simp
  | cons u before ih =>
    rcases main_turn after line pos p with ⟨c, rest, p', _, _, _, hvisits⟩ | ⟨_, hvisits⟩
    · rw [hvisits] at hrun
      obtain ⟨_, htail⟩ := List.cons.inj hrun
      rw [ih htail, List.length_cons, Int32.ofNat_add, Int32.add_assoc]
      congr 1
      exact Int32.add_comm _ _
    · rw [hvisits] at hrun
      obtain ⟨_, htail⟩ := List.cons.inj hrun
      simp at htail

/-- Before that many calls the counter did not wrap. -/
theorem main_visits_small {before later : List Visit} {v : Visit}
    (hrun : main_visits after 1 pos p = before ++ v :: later) (hfew : before.length < INT_MAX) :
    v.line.toInt = 1 + before.length := by
  unfold INT_MAX at hfew
  rw [main_visits_line hrun, Int32.toInt_add, Int32.toInt_one, Int32.toInt_ofNat_of_lt (by omega)]
  exact Int.bmod_eq_of_le (by omega) (by omega)

/-! ## Lines -/

/-- `n` is the number of the line of the text that `pos` is on. -/
def IsLine (text : List UInt8) (n : Int32) (pos : List UInt8) : Prop :=
  ∃ passed, text = passed ++ pos ∧ n.toInt = 1 + passed.count (ch '\n')

theorem IsLine.behind {text used pos : List UInt8} {n : Int32} (h : IsLine text n (used ++ pos))
    (hused : ch '\n' ∉ used) : IsLine text n pos := by
  obtain ⟨passed, rfl, hn⟩ := h
  refine ⟨passed ++ used, (List.append_assoc _ _ _).symm, ?_⟩
  rw [hn, List.count_append, List.count_eq_zero_of_not_mem hused, Nat.add_zero]

/-- The counter is not the largest `int`, so that it can go up. -/
theorem IsLine.next {text pos : List UInt8} {n : Int32} (h : IsLine text n (ch '\n' :: pos))
    (hsmall : n.toInt < INT_MAX) : IsLine text (n + 1) pos := by
  obtain ⟨passed, rfl, hn⟩ := h
  refine ⟨passed ++ [ch '\n'], by simp, ?_⟩
  unfold INT_MAX at hsmall
  have hlow := n.le_toInt
  have hsum : (n + 1).toInt = n.toInt + 1 := by
    rw [Int32.toInt_add, Int32.toInt_one]
    exact Int.bmod_eq_of_le (by omega) (by omega)
  rw [hsum, hn, List.count_append, List.count_singleton_self]
  omega

/-- The first line of the text is empty or not blank, it has no NUL, and no number
or literal of its statement goes on behind it. -/
structure OneLine (text : List UInt8) (p : Process) : Prop where
  not_blank : (text.dropWhile whitespace).head? = some (ch '\n') → text.head? = some (ch '\n')
  no_nul : 0 ∉ text.takeWhile (· != ch '\n')
  stays : ∀ x ∈ line_places text p, ¬ x.Crosses

instance (x : Place) : Decidable x.Crosses :=
  match x with
  | .number text => inferInstanceAs (Decidable (ch '\n' ∈ text.takeWhile isspace))
  | .literal text => inferInstanceAs (Decidable (0 < (literal_newlines text).getD 0))

instance (text : List UInt8) (p : Process) : Decidable (OneLine text p) :=
  decidable_of_iff (((text.dropWhile whitespace).head? = some (ch '\n') →
      text.head? = some (ch '\n')) ∧ 0 ∉ text.takeWhile (· != ch '\n') ∧
      ∀ x ∈ line_places text p, ¬ x.Crosses)
    ⟨fun ⟨hblank, hnul, hstays⟩ => ⟨hblank, hnul, hstays⟩,
      fun h => ⟨h.not_blank, h.no_nul, h.stays⟩⟩

/-- A call that is accepted stops at a newline or a NUL, but for a blank line, where
it stays at the first blank. -/
theorem parse_line_stops {text rest : List UInt8} {p p' : Process}
    (h : parse_line text p = .ok (.ok ((), rest), p')) :
    (rest = text ∧ (text.dropWhile whitespace).head? = some (ch '\n')) ∨
      rest.head? = some (ch '\n') ∨ rest.head? = some 0 := by
  rw [parse_line, bind_run_ok cursor_run] at h
  obtain ⟨_, mid, p1, hskip, h⟩ := bind_eq_ok_ok.mp h
  rcases mid with _ | ⟨c, mid⟩
  · cases h
  · rw [bind_run_ok (peek_cons c)] at h
    split at h
    · rename_i hnl
      cases h
      rw [← skipWhile_rest hskip]
      exact Or.inl ⟨rfl, congrArg some hnl⟩
    · obtain ⟨_, mid', p2, _, hcheck⟩ := bind_eq_ok_ok.mp h
      exact Or.inr (out_check_line_ok hcheck).2

/-- A call that takes one line leaves the cursor at its newline. -/
theorem OneLine.moves {text rest : List UInt8} {p p' : Process} (hone : OneLine text p)
    (h : parse_line text p = .ok (.ok ((), rest), p')) :
    ∃ used rest', text = used ++ rest ∧ ch '\n' ∉ used ∧ rest = ch '\n' :: rest' := by
  have hreads : (asm_lines fun _ => 0).Reads line_places parse_line := parse_line.reads
  obtain ⟨used, rfl, hiff⟩ := hreads.moves text p () rest p' h
  have hused : ch '\n' ∉ used := fun hnl =>
    (hiff.mp hnl).elim fun x hx => hone.stays x hx.1 hx.2
  have hhead : rest.head? = some (ch '\n') := by
    rcases parse_line_stops h with ⟨hsame, hblank⟩ | hnl | hnul
    · rw [hsame]
      exact hone.not_blank hblank
    · exact hnl
    · obtain ⟨rest', rfl⟩ := List.head?_eq_some_iff.mp hnul
      have hmem : 0 ∈ (used ++ 0 :: rest').takeWhile (· != ch '\n') := by
        have hline : ∀ c ∈ used, (c != ch '\n') = true := fun c hc =>
          bne_iff_ne.mpr fun hn => hused (hn ▸ hc)
        rw [List.takeWhile_append_of_pos hline, List.takeWhile_cons_of_pos rfl]
        simp
      exact absurd hmem hone.no_nul
  obtain ⟨rest', rfl⟩ := List.head?_eq_some_iff.mp hhead
  exact ⟨used, rest', rfl, hused, rfl⟩

/-- The counter before a call is the number of the line that the cursor is on. -/
def Visit.Counted (text : List UInt8) (v : Visit) : Prop := IsLine text v.line v.pos

theorem Visit.Counted.next {text rest : List UInt8} {v : Visit} {c : UInt8} {p' : Process}
    (hcount : v.Counted text) (hsmall : v.line.toInt < INT_MAX) (hone : OneLine v.pos v.p)
    (h : parse_line v.pos v.p = .ok (.ok ((), c :: rest), p')) :
    Visit.Counted text ⟨v.line + 1, rest, p'⟩ := by
  obtain ⟨used, rest', hpos, hused, heq⟩ := hone.moves h
  obtain ⟨rfl, rfl⟩ := List.cons.inj heq
  rw [Visit.Counted, hpos] at hcount
  exact (hcount.behind hused).next hsmall

/-- The calls before a call of a run that is not too long: each has a counter that can
go up. -/
theorem lines_of_few {before later : List Visit} {v : Visit}
    (hrun : main_visits after 1 pos p = before ++ v :: later) (hfew : before.length < INT_MAX) :
    ∀ u ∈ before, u.line.toInt < INT_MAX := by
  intro u hu
  obtain ⟨first, second, rfl⟩ := List.append_of_mem hu
  rw [List.length_append, List.length_cons] at hfew
  have hsplit : main_visits after 1 pos p = first ++ u :: (second ++ v :: later) := by
    rw [hrun, List.append_assoc, List.cons_append]
  have hline : u.line.toInt = 1 + first.length := main_visits_small hsplit (by omega)
  omega

/-- The counter of `main` is the line number at each call, as long as the calls before
took one line each, for they leave the cursor at its newline, and there were not more of
them than an `int` counts. So an error has the number of the line that its statement
begins on. -/
theorem the_counter_is_the_line_while_each_call_takes_one (errno : Int)
    (text_vaddr data_vaddr : Nat) (file : List UInt8) :
    let text := file ++ [ch '\n']
    let visits := main_visits 1 1 text (.fresh errno text_vaddr data_vaddr)
    (∀ before v later, visits = before ++ v :: later → (∀ u ∈ before, OneLine u.pos u.p) →
      before.length < INT_MAX → v.Counted text) ∧
    (∀ v ∈ visits, OneLine v.pos v.p → ∀ rest p',
      parse_line v.pos v.p = .ok (.ok ((), rest), p') → rest.head? = some (ch '\n')) ∧
    ∀ n err, main_loop 1 1 text (.fresh errno text_vaddr data_vaddr) = .ok (.error (n, err)) →
      (∀ u ∈ visits.dropLast, OneLine u.pos u.p) → visits.length ≤ INT_MAX →
      ∃ v p', visits.getLast? = some v ∧ parse_line v.pos v.p = .ok (.error err, p') ∧
        ∀ blanks statement, v.pos = blanks ++ statement → Blanks blanks →
          IsLine text n statement := by
  intro text visits
  have hcount : ∀ before v later, visits = before ++ v :: later →
      (∀ u ∈ before, OneLine u.pos u.p) → before.length < INT_MAX → v.Counted text := by
    intro before v later hrun hall hfew
    have hsmall := lines_of_few hrun hfew
    exact main_visits_keep (C := fun u => OneLine u.pos u.p ∧ u.line.toInt < INT_MAX)
      (fun v c rest p' h hc hline _ => h.next hc.2 hc.1 hline) ⟨[], rfl, rfl⟩ hrun
      fun u hu => ⟨hall u hu, hsmall u hu⟩
  refine ⟨hcount, fun v _ hone rest p' h => ?_, fun n err hloop hall hfew => ?_⟩
  · obtain ⟨_, rest', _, _, rfl⟩ := hone.moves h
    rfl
  · obtain ⟨before, v, hvisits, hend⟩ :=
      main_loop_ends 1 1 text (.fresh errno text_vaddr data_vaddr)
    change visits = before ++ [v] at hvisits
    rw [hvisits, List.dropLast_concat] at hall
    rw [hvisits, List.length_append, List.length_singleton] at hfew
    have hv : v.Counted text := hcount before v [] hvisits hall (by omega)
    rw [hloop, Visit.outcome] at hend
    rcases hline : parse_line v.pos v.p with f | ⟨err' | ⟨_, _ | ⟨c, rest⟩⟩, p'⟩ <;>
      rw [hline] at hend <;> cases hend
    refine ⟨v, p', by rw [hvisits, List.getLast?_concat], hline, fun blanks statement hpos hb => ?_⟩
    rw [Visit.Counted, hpos] at hv
    exact hv.behind (not_mem_blanks hb rfl)

/-- An indented blank line counts twice. -/
theorem an_indented_blank_line_counts_twice :
    ¬ ∀ (errno : Int) (text_vaddr data_vaddr : Nat) (file : List UInt8),
      ∀ v ∈ main_visits 1 1 (file ++ [ch '\n']) (.fresh errno text_vaddr data_vaddr),
        v.Counted (file ++ [ch '\n']) := by
  intro hall
  have hblank : Blanks [ch ' '] := by unfold Blanks; decide
  have hline := parse_line_blank hblank [ch '\n'] (.fresh 0 0x400000 0x10010000)
  have hmem : Visit.mk 2 [ch '\n', ch '\n'] (.fresh 0 0x400000 0x10010000) ∈
      main_visits 1 1 ([ch ' ', ch '\n'] ++ [ch '\n']) (.fresh 0 0x400000 0x10010000) := by
    change _ ∈ main_visits 1 1 ([ch ' '] ++ ch '\n' :: [ch '\n']) _
    rw [main_visits_ok hline, if_pos (by decide)]
    exact List.mem_cons_of_mem _ (by rw [main_visits]; exact List.mem_cons_self)
  obtain ⟨passed, htext, hn⟩ := hall 0 0x400000 0x10010000 [ch ' ', ch '\n'] _ hmem
  change [ch ' '] ++ [ch '\n', ch '\n'] = passed ++ [ch '\n', ch '\n'] at htext
  have hpassed : passed = [ch ' '] := (List.append_cancel_right htext).symm
  rw [hpassed] at hn
  exact absurd hn (by decide)

theorem an_error_is_on_the_third_line :
    let text := chars "\n\t.byte 1, 2\n add\n" ++ [ch '\n']
    let visits := main_visits 1 1 text (.fresh 0 0x400000 0x10010000)
    ∃ err v p', visits.getLast? = some v ∧ parse_line v.pos v.p = .ok (.error err, p') ∧
      ∀ blanks statement, v.pos = blanks ++ statement → Blanks blanks →
        IsLine text 3 statement := by
  intro text visits
  have hruns : ((main_loop 1 1 text (.fresh 0 0x400000 0x10010000)).map fun r =>
        match r with
        | .error (n, _) => some n
        | .ok _ => none) = .ok (some 3) ∧
      (∀ u ∈ visits.dropLast, OneLine u.pos u.p) ∧ visits.length ≤ INT_MAX := by decide +kernel
  obtain ⟨hloop, hall, hfew⟩ := hruns
  have hfile := the_counter_is_the_line_while_each_call_takes_one 0 0x400000 0x10010000
    (chars "\n\t.byte 1, 2\n add\n")
  rcases hrun : main_loop 1 1 text (.fresh 0 0x400000 0x10010000) with f | ⟨⟨n, err⟩ | p'⟩
  · rw [hrun] at hloop
    cases hloop
  · rw [hrun] at hloop
    obtain rfl : n = 3 := Option.some.inj (Except.ok.inj hloop)
    exact ⟨err, hfile.2.2 3 err hrun hall hfew⟩
  · rw [hrun] at hloop
    cases Except.ok.inj hloop

end riscv_assembler
