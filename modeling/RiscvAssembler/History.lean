-- What a number depends on beside its text: `parse_imm` reads `errno`, which earlier
-- calls may have set, and no call ever clears it. A history counts by one thing
-- alone, whether one of its calls came to a number that no `int64_t` holds.
import RiscvAssembler.LabelValues
import RiscvAssembler.Places

open checked scanner c_text

namespace riscv_assembler

/-! ## Histories -/

/-- A call with its text. -/
inductive ParserCall
  | line (text : List UInt8)
  | imm (text : List UInt8)

/-- What a call leaves behind, whether it accepts its text or not. -/
def ParserCall.step (p : Process) : ParserCall → Result Process
  | .line text => parse_call p text
  | .imm text => do
    let (_, p) ← parse_imm text p
    .ok p

/-- The numbers and the literal that a call comes to. -/
def ParserCall.places : ParserCall → Process → List Place
  | .line text => line_places text
  | .imm text => number_here text

/-- A number that no `int64_t` holds. -/
def Place.OutOfRange : Place → Prop
  | .number text => ∃ z rest, readNumber text = .ok (some (z, rest)) ∧
      ¬ (LLONG_MIN ≤ z ∧ z ≤ LLONG_MAX)
  | .literal _ => False

/-- No call of the history comes to a number out of range. -/
def InRange : Process → List ParserCall → Prop
  | _, [] => True
  | p, call :: calls => (∀ x ∈ call.places p, ¬ x.OutOfRange) ∧
      ∀ p', call.step p = .ok p' → InRange p' calls

/-! ## What a call leaves in `errno` -/

/-- The parsers tell by `errno` that no number so far was out of range. -/
abbrev Remembers {ε α : Type} (places : Places Process Place) (m : Parse ε α) : Prop :=
  Records (fun p : Process => p.errno = 0) Place.OutOfRange places m

theorem parse_imm.remembers : Remembers number_here parse_imm := by
  intro text p r p' h
  have hplace : (∀ x ∈ number_here text p, ¬ x.OutOfRange) ↔ ¬ Place.OutOfRange (.number text) := by
    simp [number_here]
  rw [hplace]
  rcases hread : readNumber text with f | _ | ⟨z, rest⟩
  · unfold parse_imm strtoll at h
    rw [hread] at h
    cases h
  · rw [parse_imm_none hread] at h
    cases h
    simp [Place.OutOfRange, hread]
  · have hout : Place.OutOfRange (.number text) ↔ ¬ (LLONG_MIN ≤ z ∧ z ≤ LLONG_MAX) := by
      simp [Place.OutOfRange, hread]
    rw [parse_imm_some hread] at h
    rw [hout, not_not]
    by_cases hz : LLONG_MIN ≤ z ∧ z ≤ LLONG_MAX
    · rw [if_pos hz] at h
      split at h <;> cases h <;> simp [hz]
    · rw [if_neg hz] at h
      cases h
      simp [hz, ERANGE]

/-- A call of the emitter leaves `errno` as it is. -/
theorem call_emitter.remembers {ε α : Type} {f : Process → Result (α × Process)}
    (hf : ∀ p a p', f p = .ok (a, p') → p'.errno = p.errno) :
    Remembers nowhere (call f : Parse ε α) :=
  .nowhere (.call fun p a p' h => by rw [hf p a p' h])

theorem emit.remembers {ε : Type} (data : List UInt8) :
    Remembers nowhere (emit data : Parse ε Unit) := by
  apply call_emitter.remembers
  intro p a p' h
  obtain ⟨em, _, h⟩ := bind_eq_ok.mp h
  cases h
  rfl

theorem advance.remembers {ε : Type} (n : Nat) :
    Remembers nowhere (advance n : Parse ε Unit) := by
  apply call_emitter.remembers
  intro p a p' h
  obtain ⟨em, _, h⟩ := bind_eq_ok.mp h
  cases h
  rfl

theorem switch_section.remembers {ε : Type} (s : Sect) :
    Remembers nowhere (switch_section s : Parse ε Unit) := by
  apply call_emitter.remembers
  intro p a p' h
  cases h
  rfl

theorem label_add.remembers {ε : Type} (key : string) :
    Remembers nowhere (label_add key : Parse ε Int) := by
  apply call_emitter.remembers
  intro p a p' h
  obtain ⟨x, _, h⟩ := bind_eq_ok.mp h
  cases h
  rfl

theorem emit_operands.remembers {ε : Type} (x : Operands) :
    Remembers nowhere (emit_operands x : Parse ε Unit) := by
  cases x with
  | whole instr => exact emit.remembers _
  | label assign instr key =>
    refine Records.bind ?_ fun _ => emit.remembers _
    apply call_emitter.remembers
    intro p a p' h
    obtain ⟨y, _, h⟩ := bind_eq_ok.mp h
    cases h
    rfl

theorem OnRegisters.remembers :
    OnRegisters fun {ε α} (m : Parse ε α) => Remembers nowhere m :=
  .of_inert ⟨fun a => .nowhere (.pure a), fun e => .nowhere (.fail e), .bind, .orFail⟩
    fun hm => .nowhere (.of_inert hm)

theorem parse_label.remembers : Remembers nowhere parse_label :=
  Records.bind OnRegisters.remembers.label_name fun lstr =>
    (label_add.remembers lstr).bind fun _ =>
      OnRegisters.remembers.check _ fun _ => OnRegisters.remembers.pure _

theorem OnPlaces.remembers : OnPlaces @Remembers where
  toPlaceClosed := Records.place_closed _ _
  registers := .remembers
  imm := parse_imm.remembers
  emit := emit.remembers
  advance _ := advance.remembers _
  switch := switch_section.remembers
  emit_operands := emit_operands.remembers
  label := parse_label.remembers
  halt := fun _ _ _ _ h => nomatch h

/-! ## The loops -/

theorem parse_string_loop.keeps_errno : Keeps (fun p : Process => p.errno = 0) parse_string_loop := by
  intro text p r p' h
  refine parse_string_loop_induct (motive := fun _ p => (p'.errno = 0) = (p.errno = 0))
    (fun _ _ => rfl) (fun _ _ _ => rfl) (fun _ _ _ _ _ _ ih => ih) text p h

theorem parse_string_loop.remembers : Remembers literal_here parse_string_loop :=
  .of_keeps parse_string_loop.keeps_errno fun text _ x hx => by
    rw [List.mem_singleton.mp hx]
    exact id

/-- After an element that fails there is no next number. -/
theorem parse_data_element.stops {bytes : Nat} {text : List UInt8} {p p' : Process} {e : String}
    (h : parse_data_element bytes text p = .ok (.error e, p')) :
    next_number bytes p.errno text = none := by
  rw [Option.eq_none_iff_forall_ne_some]
  intro rest hnext
  unfold next_number at hnext
  split at hnext
  · rename_i hrun
    cases hnext
    obtain ⟨z, mid, p1, h1, h2⟩ := bind_eq_ok_ok.mp hrun
    obtain ⟨rfl, hany⟩ := parse_imm_ok (orFail_ok h1)
    have himm : parse_imm text p = .ok (.ok (z, mid), p) := hany p.em
    rw [parse_data_element, bind_run_ok (orFail_run_ok himm)] at h
    split at h2
    · cases h2
    · rename_i hfit
      rw [if_neg hfit] at h
      rcases bind_eq_ok_cases h with ⟨_, h3, _⟩ | ⟨_, mid', p2, h3, h4⟩
      · obtain ⟨_, _, h3⟩ := bind_eq_ok.mp h3
        cases h3
      · obtain ⟨_, _, h3⟩ := bind_eq_ok.mp h3
        cases h3
        -- the comma is there for any state
        have hcomma := (OnRegisters.inert.mark (by decide) _ _ _ _ h4).2 ⟨p.errno, emitter.fresh 0 0⟩
        rw [hcomma] at h2
        cases h2
  · cases hnext

theorem parse_data_loop.remembers (bytes k : Nat) :
    Remembers (fun text p => array_places bytes p.errno text)
      (parse_data_loop bytes k : Parse String Nat) := by
  intro text p r p' h
  have helement : ∀ {text p r p'}, parse_data_element bytes text p = .ok (r, p') →
      (p'.errno = 0 ↔ p.errno = 0 ∧ ¬ Place.OutOfRange (.number text)) := fun {text p _ _} h => by
    simpa [number_here] using OnPlaces.remembers.data_element bytes text p _ _ h
  refine parse_data_loop_induct (motive := fun text p => p'.errno = 0 ↔
      p.errno = 0 ∧ ∀ x ∈ array_places bytes p.errno text, ¬ x.OutOfRange)
    (fun text p e h1 _ => ?_) (fun text p n rest h1 _ => ?_) (fun text p mid p1 h1 ih => ?_) k text p h
  · rw [helement h1, array_places_none (parse_data_element.stops h1)]
    simp
  · obtain ⟨_, hnext⟩ := parse_data_element.next h1
    rw [helement h1, array_places_none hnext]
    simp
  · obtain ⟨herrno, hnext⟩ := parse_data_element.next h1
    rw [ih, helement h1, herrno, array_places_some hnext]
    simp [and_assoc]

/-! ## Calls -/

theorem parse_statement.remembers : Remembers statement_places parse_statement :=
  Records.behind parse_word.inert fun known =>
    OnPlaces.remembers.after_word parse_string_loop.remembers
      (fun bytes => parse_data_loop.remembers bytes 0) known

theorem parse_line.remembers : Remembers line_places parse_line := by
  intro text p r p' h
  rw [parse_line, bind_run_ok cursor_run] at h
  have hline : Remembers line_places (skip_whitespace >>= fun _ => peek >>= fun c =>
      if c = ch '\n' then seek text
      else parse_statement >>= fun _ => out_check_line : Parse String Unit) := by
    refine Records.behind skip_whitespace.inert fun _ => Records.behind Inert.peek fun c => ?_
    split
    · exact .nowhere (.of_inert (.seek text))
    · exact parse_statement.remembers.bind fun _ => .nowhere (.of_inert out_check_line.inert)
  exact hline _ _ _ _ h

/-- One call: `errno` stays zero exactly if the call comes to no number out of range. -/
theorem ParserCall.step_errno {call : ParserCall} {p p' : Process} (h : call.step p = .ok p') :
    p'.errno = 0 ↔ p.errno = 0 ∧ ∀ x ∈ call.places p, ¬ x.OutOfRange := by
  cases call with
  | line text =>
    obtain ⟨r, hrun⟩ := parse_call_ok.mp h
    exact parse_line.remembers _ _ _ _ hrun
  | imm text =>
    obtain ⟨⟨r, p1⟩, hrun, h⟩ := bind_eq_ok.mp h
    cases h
    exact parse_imm.remembers _ _ _ _ hrun

/-- A whole history. -/
theorem history_errno {calls : List ParserCall} {p p' : Process}
    (h : runAll ParserCall.step p calls = .ok p') :
    p'.errno = 0 ↔ p.errno = 0 ∧ InRange p calls := by
  induction calls generalizing p with
  | nil =>
    cases h
    simp [InRange]
  | cons call calls ih =>
    obtain ⟨p1, h1, h2⟩ := bind_eq_ok.mp h
    rw [ih h2, ParserCall.step_errno h1]
    simp [InRange, h1, and_assoc]

/-! ## The answer of `parse_imm` -/

/-- The value and the text behind it, if `parse_imm` accepts. -/
def imm_answer (text : List UInt8) (p : Process) : Result (Option (Int × List UInt8)) := do
  let (r, _) ← parse_imm text p
  .ok r.toOption

/-- The number that the text begins with, if an `int64_t` holds it. -/
def imm_value (text : List UInt8) : Result (Option (Int × List UInt8)) := do
  let number ← readNumber text
  .ok (number.filter fun x => decide (LLONG_MIN ≤ x.1 ∧ x.1 ≤ LLONG_MAX))

/-- The text begins with one of the values that `strtoll` gives for errors too. -/
def Sentinel (text : List UInt8) : Prop :=
  ∃ z rest, readNumber text = .ok (some (z, rest)) ∧ (z = 0 ∨ z = LLONG_MAX ∨ z = LLONG_MIN)

theorem sentinel_iff {text rest : List UInt8} {z : Int}
    (h : readNumber text = .ok (some (z, rest))) :
    Sentinel text ↔ z = 0 ∨ z = LLONG_MAX ∨ z = LLONG_MIN := by
  simp [Sentinel, h]

theorem not_sentinel {text : List UInt8} (h : readNumber text = .ok none) : ¬ Sentinel text := by
  simp [Sentinel, h]

instance (text : List UInt8) : Decidable (Sentinel text) :=
  match h : readNumber text with
  | .ok (some (_, _)) => decidable_of_iff _ (sentinel_iff h).symm
  | .ok none => isFalse (not_sentinel h)
  | .error _ => isFalse fun ⟨_, _, hread, _⟩ => nomatch h.symm.trans hread

theorem imm_value_eq {text rest : List UInt8} {z : Int}
    (h : readNumber text = .ok (some (z, rest))) :
    imm_value text = .ok (if LLONG_MIN ≤ z ∧ z ≤ LLONG_MAX then some (z, rest) else none) := by
  unfold imm_value
  rw [h]
  by_cases hz : LLONG_MIN ≤ z ∧ z ≤ LLONG_MAX
  · rw [if_pos hz, ok_bind, Option.filter_some_pos (by simpa using hz)]
  · rw [if_neg hz, ok_bind, Option.filter_some_neg (by simpa using hz)]

/-- The sentinels themselves are values of an `int64_t`. -/
theorem Sentinel.value {text : List UInt8} (h : Sentinel text) :
    ∃ x, imm_value text = .ok (some x) := by
  obtain ⟨z, rest, hread, hz⟩ := h
  have hfit : LLONG_MIN ≤ z ∧ z ≤ LLONG_MAX := by
    rcases hz with rfl | rfl | rfl <;> decide
  exact ⟨(z, rest), by rw [imm_value_eq hread, if_pos hfit]⟩

/-- `errno` counts for the sentinels alone: they are rejected when it is set. -/
theorem imm_answer_eq {text : List UInt8} (h0 : 0 ∈ text) (p : Process) :
    imm_answer text p = if p.errno ≠ 0 ∧ Sentinel text then .ok none else imm_value text := by
  obtain ⟨number, hread⟩ := readNumber_terminated h0
  unfold imm_answer
  rcases number with _ | ⟨z, rest⟩
  · rw [parse_imm_none hread, if_neg fun h => not_sentinel hread h.2, imm_value, hread]
    rfl
  · rw [parse_imm_some hread, imm_value_eq hread]
    simp only [sentinel_iff hread]
    by_cases hz : LLONG_MIN ≤ z ∧ z ≤ LLONG_MAX
    · rw [if_pos hz, if_pos hz]
      by_cases hs : p.errno ≠ 0 ∧ (z = 0 ∨ z = LLONG_MAX ∨ z = LLONG_MIN)
      · rw [if_pos hs, if_pos hs.symm]
        rfl
      · rw [if_neg hs, if_neg fun h => hs h.symm]
        rfl
    · have hno : ¬ (z = 0 ∨ z = LLONG_MAX ∨ z = LLONG_MIN) := by
        unfold LLONG_MAX LLONG_MIN at *
        omega
      rw [if_neg hz, if_neg hz, if_neg fun h => hno h.2]
      rfl

theorem imm_answer_value_iff {text : List UInt8} (h0 : 0 ∈ text) (p : Process) :
    imm_answer text p = imm_value text ↔ p.errno = 0 ∨ ¬ Sentinel text := by
  rw [imm_answer_eq h0]
  by_cases hs : p.errno ≠ 0 ∧ Sentinel text
  · obtain ⟨x, hx⟩ := hs.2.value
    rw [if_pos hs, hx]
    simp [hs]
  · rw [if_neg hs]
    refine iff_of_true rfl ?_
    rwa [not_and_or, not_ne_iff] at hs

/-- No number of the history was out of range, and `errno` was zero before it. -/
def Unmarked (p : Process) (calls : List ParserCall) : Prop := p.errno = 0 ∧ InRange p calls

/-- After a history, `parse_imm` gives the value of the literal exactly when `errno` is
not marked or the literal is no sentinel, and after two histories it gives the same
exactly when both or none of them left a mark or the literal is no sentinel. -/
theorem parse_imm_forgets_its_history_iff {p0 p q : Process} {calls others : List ParserCall}
    (hp : runAll ParserCall.step p0 calls = .ok p) (hq : runAll ParserCall.step p0 others = .ok q)
    {text : List UInt8} (h0 : 0 ∈ text) :
    (imm_answer text p = imm_value text ↔ Unmarked p0 calls ∨ ¬ Sentinel text) ∧
      (imm_answer text p = imm_answer text q ↔
        (Unmarked p0 calls ↔ Unmarked p0 others) ∨ ¬ Sentinel text) := by
  have hmark : p.errno = 0 ↔ Unmarked p0 calls := history_errno hp
  have hother : q.errno = 0 ↔ Unmarked p0 others := history_errno hq
  rw [← hmark, ← hother]
  refine ⟨imm_answer_value_iff h0 p, ?_⟩
  by_cases hs : Sentinel text
  · obtain ⟨x, hx⟩ := hs.value
    rw [imm_answer_eq h0, imm_answer_eq h0, hx]
    by_cases hpe : p.errno = 0 <;> by_cases hqe : q.errno = 0 <;> simp [hs, hpe, hqe]
  · rw [(imm_answer_value_iff h0 p).mpr (Or.inr hs), (imm_answer_value_iff h0 q).mpr (Or.inr hs)]
    exact iff_of_true rfl (Or.inr hs)

/-- The call reads 2^63. -/
theorem large_number_marks (em : emitter) :
    runAll ParserCall.step ⟨0, em⟩ [.imm (chars "9223372036854775808\x00")] =
      .ok ⟨ERANGE, em⟩ := by
  have hlarge : readNumber (chars "9223372036854775808\x00") =
      .ok (some (9223372036854775808, [0])) := by decide +kernel
  rw [runAll_cons, ParserCall.step, parse_imm_some hlarge, if_neg (by decide)]
  rfl

/-- A number that is too large makes a later zero no number. -/
theorem a_zero_is_rejected_after_a_number_out_of_range :
    ¬ ∀ (p0 p q : Process) (calls others : List ParserCall) (text : List UInt8), p0.errno = 0 →
      runAll ParserCall.step p0 calls = .ok p → runAll ParserCall.step p0 others = .ok q →
      0 ∈ text → imm_answer text p = imm_answer text q := by
  intro hall
  have hsame := hall (.fresh 0 0x400000 0x10010000) _ _ _ [] (chars "0\x00") rfl
    (large_number_marks _) rfl (by decide)
  rw [imm_answer_eq (by decide), imm_answer_eq (by decide)] at hsame
  revert hsame
  decide +kernel

theorem a_one_is_read_after_a_number_out_of_range :
    imm_answer (chars "1\x00") ⟨ERANGE, emitter.fresh 0x400000 0x10010000⟩ =
      imm_answer (chars "1\x00") ⟨0, emitter.fresh 0x400000 0x10010000⟩ := by
  have hforget := parse_imm_forgets_its_history_iff
    (large_number_marks (emitter.fresh 0x400000 0x10010000)) (runAll_nil ParserCall.step _)
    (show 0 ∈ chars "1\x00" by decide)
  exact hforget.2.mpr (Or.inr (by decide +kernel))

end riscv_assembler
