-- The newline that `main` puts behind the file: the scanners stop at it, and the
-- loop ends, unless a number or a literal is cut off at the end of the file.
import RiscvAssembler.LineNumbers

open checked scanner c_text

namespace riscv_assembler

/-- No number of the line is missing up to the end of the text, and its literal
ends before. -/
def Uncut (text : List UInt8) (p : Process) : Prop := ∀ x ∈ line_places text p, ¬ x.Cut

instance (x : Place) : Decidable x.Cut :=
  match x with
  | .number text => inferInstanceAs (Decidable (∀ c ∈ text, isspace c = true))
  | .literal text => inferInstanceAs (Decidable (literal_newlines text = none))

instance (text : List UInt8) (p : Process) : Decidable (Uncut text p) :=
  inferInstanceAs (Decidable (∀ x ∈ line_places text p, ¬ x.Cut))

/-- The call reads bytes of the text alone, and the cursor that it leaves is on
one of them. -/
def Visit.StaysIn (text : List UInt8) (v : Visit) : Prop :=
  v.pos <:+ text ∧ parse_line v.pos v.p ≠ .error .outOfBounds ∧
    ∀ rest p', parse_line v.pos v.p = .ok (.ok ((), rest), p') → rest <:+ text ∧ rest ≠ []

/-- What the loop keeps: the text that is left ends with the newline behind the
file, and the sections are sound. -/
structure Visit.Fenced (text : List UInt8) (vaddr : Sect → Nat) (v : Visit) : Prop where
  suffix : v.pos <:+ text
  ends : EndsWith (ch '\n') v.pos
  sound : v.p.em.Sound vaddr

variable {text : List UInt8} {vaddr : Sect → Nat} {v : Visit}

theorem Visit.Fenced.within (h : v.Fenced text vaddr) (hcut : Uncut v.pos v.p) :
    (asm_lines vaddr).Within (parse_line v.pos v.p) :=
  parse_line.reads.inside v.pos v.p h.sound h.ends hcut

theorem Visit.Fenced.stays_in (h : v.Fenced text vaddr) (hcut : Uncut v.pos v.p) :
    v.StaysIn text := by
  have hwithin := h.within hcut
  refine ⟨h.suffix, fun hrun => ?_, fun rest p' hrun => ?_⟩
  · rw [hrun] at hwithin
    cases hwithin with
    | fault hno => exact hno rfl
  · rw [hrun] at hwithin
    cases hwithin with
    | value _ hend =>
      exact ⟨(parse_line.forward _ _ _ _ _ hrun).trans h.suffix, hend.ne_nil⟩

theorem Visit.Fenced.next {c : UInt8} {rest : List UInt8} {p' : Process}
    (h : v.Fenced text vaddr) (hcut : Uncut v.pos v.p)
    (hrun : parse_line v.pos v.p = .ok (.ok ((), c :: rest), p')) (hrest : rest ≠ []) :
    Visit.Fenced text vaddr ⟨v.line + 1, rest, p'⟩ := by
  have hwithin := h.within hcut
  rw [hrun] at hwithin
  cases hwithin with
  | value hinv hend =>
    have hsuffix := (parse_line.forward _ _ _ _ _ hrun).trans h.suffix
    refine ⟨(List.suffix_cons c rest).trans hsuffix, ?_, hinv⟩
    apply EndsWith.of_append _ hrest
    · exact [c]
    · exact hend

/-- Each call takes a byte of what is left. -/
theorem length_main_visits {after : Nat} {line : Int32} {pos : List UInt8} {p : Process}
    (h : after < pos.length) : (main_visits after line pos p).length + after ≤ pos.length := by
  rcases main_turn after line pos p with ⟨c, rest, p', hline, hin, _, hvisits⟩ | ⟨_, hvisits⟩
  · have hshort := parse_line_shortens hline
    have hlater : (main_visits after (line + 1) rest p').length + after ≤ rest.length :=
      length_main_visits hin
    rw [hvisits, List.length_cons]
    omega
  · rw [hvisits]
    simp only [List.length_singleton]
    omega
termination_by pos.length

/-- The calls of the loop of `main` stay in the file and the newline behind it as long
as the numbers and the literals of their lines are not cut, and the loop makes no more
calls than the file has bytes. -/
theorem the_loop_stays_in_the_file_while_nothing_is_cut (errno : Int)
    (text_vaddr data_vaddr : Nat) (file : List UInt8) :
    let text := file ++ [ch '\n']
    let visits := main_visits 1 1 text (.fresh errno text_vaddr data_vaddr)
    (∀ before v later, visits = before ++ v :: later →
      (∀ u ∈ before, Uncut u.pos u.p) → Uncut v.pos v.p → v.StaysIn text) ∧
    ((∀ v ∈ visits, Uncut v.pos v.p) →
      main_loop 1 1 text (.fresh errno text_vaddr data_vaddr) ≠ .error .outOfBounds) ∧
    (file ≠ [] → visits.length ≤ file.length) := by
  intro text visits
  obtain ⟨vaddr, hsound⟩ : ∃ vaddr, (emitter.fresh text_vaddr data_vaddr).Sound vaddr :=
    ⟨_, emitter.sound_fresh text_vaddr data_vaddr⟩
  have hfirst : Visit.Fenced text vaddr ⟨1, text, .fresh errno text_vaddr data_vaddr⟩ :=
    ⟨List.suffix_rfl, ⟨file, rfl⟩, hsound⟩
  have hstays : ∀ before v later, visits = before ++ v :: later →
      (∀ u ∈ before, Uncut u.pos u.p) → Uncut v.pos v.p → v.StaysIn text := by
    intro before v later hrun hall hcut
    have hfenced : v.Fenced text vaddr := by
      refine main_visits_keep (fun v c rest p' h hcut hline hin => ?_) hfirst hrun hall
      exact h.next hcut hline (List.ne_nil_of_length_pos (Nat.lt_trans Nat.zero_lt_one hin))
    exact hfenced.stays_in hcut
  refine ⟨hstays, fun hall hloop => ?_, fun hne => ?_⟩
  · obtain ⟨before, v, hvisits, hend⟩ :=
      main_loop_ends 1 1 text (.fresh errno text_vaddr data_vaddr)
    change visits = before ++ [v] at hvisits
    rw [hvisits, List.forall_mem_append] at hall
    obtain ⟨_, hno, hrest⟩ := hstays before v [] hvisits hall.1 (hall.2 v (List.mem_singleton.mpr rfl))
    rw [hloop, Visit.outcome] at hend
    rcases hline : parse_line v.pos v.p with f | ⟨err | ⟨_, _ | ⟨c, rest⟩⟩, p'⟩ <;>
      rw [hline] at hend <;> cases hend
    · exact hno hline
    · exact (hrest _ _ hline).2 rfl
  · have htext : text.length = file.length + 1 := List.length_append
    have hpos := List.length_pos_iff.mpr hne
    have hlen : visits.length + 1 ≤ text.length := length_main_visits (by omega)
    omega

/-- The white space that `strtoll` skips goes on behind the newline. -/
theorem a_number_that_is_missing_is_read_behind_the_file :
    ¬ ∀ (errno : Int) (text_vaddr data_vaddr : Nat) (file : List UInt8), file ≠ [] →
      main_loop 1 1 (file ++ [ch '\n']) (.fresh errno text_vaddr data_vaddr) ≠
        .error .outOfBounds := by
  intro hall
  have hloop : (main_loop 1 1 (chars ".byte" ++ [ch '\n']) (.fresh 0 0x400000 0x10010000)).map
      Except.toBool = .error .outOfBounds := by decide +kernel
  apply hall 0 0x400000 0x10010000 (chars ".byte") (by decide)
  rcases hrun : main_loop 1 1 (chars ".byte" ++ [ch '\n']) (.fresh 0 0x400000 0x10010000) with f | r
  · rw [hrun] at hloop
    exact congrArg Except.error (Except.error.inj hloop)
  · rw [hrun] at hloop
    cases hloop

theorem a_file_with_its_last_number_is_read_to_its_end :
    main_loop 1 1 (chars "ecall\n.byte 1, 2" ++ [ch '\n']) (.fresh 0 0x400000 0x10010000) ≠
      .error .outOfBounds := by
  have hfile := the_loop_stays_in_the_file_while_nothing_is_cut 0 0x400000 0x10010000
    (chars "ecall\n.byte 1, 2")
  exact hfile.2.1 (by decide +kernel)

end riscv_assembler
