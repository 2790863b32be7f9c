-- Data arrays (`parse_data_array`): lists of literals with commas between them,
-- which values an element takes, and the bytes that it becomes.
import RiscvAssembler.Operands
import RiscvAssembler.Pieces

open checked machine_int scanner c_text

namespace riscv_assembler

/-! ## Lists -/

/-- White space, as `strtoll` skips it. -/
def Spaces (text : List UInt8) : Prop := ∀ x ∈ text, isspace x = true

/-- A list of literals and their values. The space before a number may be of any
kind, the space before a comma is blanks. -/
inductive DataList : List UInt8 → List Int → Prop
  | last {spaces number blanks : List UInt8} {v : Int} : Spaces spaces → Literal number v →
      Blanks blanks → DataList (spaces ++ (number ++ blanks)) [v]
  | cons {spaces number blanks more : List UInt8} {v : Int} {vs : List Int} : Spaces spaces →
      Literal number v → Blanks blanks → DataList more vs →
      DataList (spaces ++ (number ++ (blanks ++ ch ',' :: more))) (v :: vs)

/-- What may come behind a list. -/
structure EndsList (c : UInt8) : Prop where
  no_digit : digitValue c = none
  no_blank : whitespace c = false
  no_comma : c ≠ ch ','

/-! ## Elements -/

/-- A value that an element of `w` bytes takes: signed or unsigned, but for 8 bytes
what `strtoll` can give. -/
def InWidth (w : Nat) (v : Int) : Prop :=
  if w < 8 then -2 ^ (8 * w - 1) ≤ v ∧ v ≤ 2 ^ (8 * w) - 1 else LLONG_MIN ≤ v ∧ v ≤ LLONG_MAX

/-- The width of an element in bytes. -/
def Width (w : Nat) : Prop := w = 1 ∨ w = 2 ∨ w = 4 ∨ w = 8

/-- The element is accepted when `errno` is what it is before. -/
def Taken (w : Nat) (errno v : Int) : Prop :=
  InWidth w v ∧ ¬ ((v = 0 ∨ v = LLONG_MAX ∨ v = LLONG_MIN) ∧ errno ≠ 0)

def element (w : Nat) (v : Int) : List UInt8 := leBytes w (toU 64 v)

theorem inWidth_iff {w : Nat} (hw : Width w) (v : Int) :
    InWidth w v ↔ (LLONG_MIN ≤ v ∧ v ≤ LLONG_MAX) ∧ fits_bytes w v = true := by
  unfold InWidth fits_bytes LLONG_MIN LLONG_MAX
  rcases hw with rfl | rfl | rfl | rfl <;> simp <;> omega

/-- The bytes of an element are its value modulo a power of two, the lowest first. -/
theorem leNat_element {w : Nat} (hw : Width w) (v : Int) :
    (leNat (element w v) : Int) = v % 2 ^ (8 * w) := by
  have hnonneg : 0 ≤ v % 2 ^ 64 := Int.emod_nonneg v (by decide)
  have hdvd : (2 ^ (8 * w) : Int) ∣ 2 ^ 64 := by
    rcases hw with rfl | rfl | rfl | rfl <;> decide
  have hbase : ((256 ^ w : Nat) : Int) = 2 ^ (8 * w) := by
    rw [Int.pow_mul]
    push_cast
    rfl
  unfold element toU
  rw [leNat_leBytes, Int.natCast_emod, hbase, Int.toNat_of_nonneg hnonneg,
    Int.emod_emod_of_dvd v hdvd]

theorem spaces_of_blanks {text : List UInt8} (h : Blanks text) : Spaces text :=
  fun x hx => whitespace_isspace x (h x hx)

/-- No digit comes after blanks. -/
theorem after_blanks {blanks : List UInt8} (h : Blanks blanks) {c : UInt8}
    (hc : digitValue c = none) (rest : List UInt8) :
    ∃ d ds, blanks ++ c :: rest = d :: ds ∧ digitValue d = none := by
  have hblank : ∀ x, whitespace x = true → digitValue x = none := forall_byte (by decide +kernel)
  rcases blanks with _ | ⟨x, blanks⟩
  · exact ⟨c, rest, rfl, hc⟩
  · exact ⟨x, _, rfl, hblank x (h x List.mem_cons_self)⟩

/-- An element up to the byte `c` behind its blanks. -/
theorem parse_data_element_run {w : Nat} (hw : Width w) {spaces number blanks : List UInt8} {v : Int}
    (hspaces : Spaces spaces) (hnumber : Literal number v) (hblanks : Blanks blanks) {c : UInt8}
    (hc : digitValue c = none) (hblank : whitespace c = false) (rest : List UInt8) (p : Process) :
    (Taken w p.errno v →
      parse_data_element w (spaces ++ (number ++ (blanks ++ c :: rest))) p = (do
        let em ← emitter_buffer p.em (element w v)
        .ok (.ok (if c = ch ',' then (true, rest) else (false, c :: rest)), { p with em }))) ∧
    (¬ Taken w p.errno v → ∃ errno,
      parse_data_element w (spaces ++ (number ++ (blanks ++ c :: rest))) p =
        .ok (.error "immediate doesn't fit", ⟨errno, p.em⟩)) := by
  obtain ⟨d, ds, hd, hdigit⟩ := after_blanks hblanks hc rest
  have hread := hnumber.readNumber hspaces hdigit ds
  rw [← hd] at hread
  have himm := parse_imm_some hread p
  unfold Taken
  rw [inWidth_iff hw]
  unfold parse_data_element
  by_cases hrange : LLONG_MIN ≤ v ∧ v ≤ LLONG_MAX
  · rw [if_pos hrange] at himm
    by_cases hmark : (v = 0 ∨ v = LLONG_MAX ∨ v = LLONG_MIN) ∧ p.errno ≠ 0
    · rw [if_pos hmark] at himm
      refine ⟨fun h => absurd hmark h.2, fun _ => ⟨p.errno, ?_⟩⟩
      exact bind_run_error (orFail_run_error himm)
    · rw [if_neg hmark] at himm
      rw [bind_run_ok (orFail_run_ok himm)]
      by_cases hfit : fits_bytes w v = true
      · refine ⟨fun _ => ?_, fun h => absurd ⟨⟨hrange, hfit⟩, hmark⟩ h⟩
        rw [if_neg (not_not.mpr hfit), bind_run, emit_run]
        unfold element
        rcases emitter_buffer p.em (leBytes w (toU 64 v)) with f | em
        · rfl
        · exact bind_run_ok (skip_whitespace_run hblanks hblank rest _)
      · refine ⟨fun h => absurd h.1.2 hfit, fun _ => ⟨p.errno, ?_⟩⟩
        rw [if_pos hfit]
        rfl
  · rw [if_neg hrange] at himm
    refine ⟨fun h => absurd h.1.1 hrange, fun _ => ⟨ERANGE, ?_⟩⟩
    exact bind_run_error (orFail_run_error himm)

/-! ## The loop -/

/-- The values as they are handed to the emitter. -/
def elements (w : Nat) (vs : List Int) : List (List UInt8) := vs.map (element w)

theorem elements_run (w : Nat) (v : Int) (vs : List Int) (em : emitter) {α : Type}
    (f : emitter → Result α) :
    (runAll emitter_buffer em (elements w (v :: vs)) >>= f) = (do
      let em ← emitter_buffer em (element w v)
      runAll emitter_buffer em (elements w vs) >>= f) :=
  runAll_map_cons_bind emitter_buffer em (element w) v vs f

/-- An element that is accepted, with a comma behind it. -/
theorem parse_data_loop_more {w k : Nat} {text rest : List UInt8} {p : Process} {data : List UInt8}
    (h : parse_data_element w text p = (do
      let em ← emitter_buffer p.em data
      .ok (.ok (true, rest), { p with em }))) :
    parse_data_loop w k text p = (do
      let em ← emitter_buffer p.em data
      parse_data_loop w (k + w) rest { p with em }) := by
  rw [parse_data_loop_eq, bind_run, h]
  rcases emitter_buffer p.em data with f | em <;> rfl

/-- The last element. -/
theorem parse_data_loop_last {w k : Nat} {text rest : List UInt8} {p : Process} {data : List UInt8}
    (h : parse_data_element w text p = (do
      let em ← emitter_buffer p.em data
      .ok (.ok (false, rest), { p with em }))) :
    parse_data_loop w k text p = (do
      let em ← emitter_buffer p.em data
      .ok (.ok (k + w, rest), { p with em })) := by
  rw [parse_data_loop_eq, bind_run, h]
  rcases emitter_buffer p.em data with f | em <;> rfl

theorem parse_data_loop_failed {w k : Nat} {text : List UInt8} {p p' : Process} {e : String}
    (h : parse_data_element w text p = .ok (.error e, p')) :
    parse_data_loop w k text p = .ok (.error e, p') := by
  rw [parse_data_loop_eq]
  exact bind_run_error h

theorem parse_data_loop_accepts {w : Nat} (hw : Width w) {text : List UInt8} {vs : List Int}
    (h : DataList text vs) {c : UInt8} (hc : EndsList c) (rest : List UInt8) (k : Nat) (p : Process)
    (htaken : ∀ v ∈ vs, Taken w p.errno v) :
    parse_data_loop w k (text ++ c :: rest) p = (do
      let em ← runAll emitter_buffer p.em (elements w vs)
      .ok (.ok (k + w * vs.length, c :: rest), { p with em })) := by
  induction h generalizing k p with
  | @last spaces number blanks v hspaces hnumber hblanks =>
    have hrun := (parse_data_element_run hw hspaces hnumber hblanks hc.no_digit hc.no_blank rest p).1
      (htaken v List.mem_cons_self)
    rw [if_neg hc.no_comma] at hrun
    rw [List.append_assoc, List.append_assoc, parse_data_loop_last hrun, elements_run]
    simp [elements]
  | @cons spaces number blanks more v vs hspaces hnumber hblanks _ ih =>
    rw [List.forall_mem_cons] at htaken
    have hrun := (parse_data_element_run hw hspaces hnumber hblanks (c := ch ',') (by decide)
      (by decide) (more ++ c :: rest) p).1 htaken.1
    rw [if_pos rfl] at hrun
    have hsum : k + w + w * vs.length = k + w * (v :: vs).length := by
      rw [List.length_cons, Nat.mul_succ]
      omega
    rw [List.append_assoc, List.append_assoc, List.append_assoc, List.cons_append,
      parse_data_loop_more hrun, elements_run]
    have hmore : ∀ em, parse_data_loop w (k + w) (more ++ c :: rest) { p with em } = _ :=
      fun em => ih (k + w) { p with em } htaken.2
    simp only [hmore, hsum]

theorem parse_data_loop_rejects {w : Nat} (hw : Width w) {text : List UInt8} {vs : List Int}
    (h : DataList text vs) {c : UInt8} (hc : EndsList c) (rest : List UInt8) (k : Nat) (p : Process)
    {good bad : List Int} {v : Int} (hvs : vs = good ++ v :: bad)
    (hgood : ∀ u ∈ good, Taken w p.errno u) (hbad : ¬ Taken w p.errno v) :
    ∃ errno, parse_data_loop w k (text ++ c :: rest) p = (do
      let em ← runAll emitter_buffer p.em (elements w good)
      .ok (.error "immediate doesn't fit", ⟨errno, em⟩)) := by
  induction h generalizing k p good with
  | @last spaces number blanks u hspaces hnumber hblanks =>
    obtain ⟨rfl, rfl⟩ : good = [] ∧ v = u := by
      rcases good with _ | ⟨g, good⟩
      · cases hvs
        exact ⟨rfl, rfl⟩
      · simp at hvs
    obtain ⟨errno, hrun⟩ := (parse_data_element_run hw hspaces hnumber hblanks hc.no_digit
      hc.no_blank rest p).2 hbad
    refine ⟨errno, ?_⟩
    rw [List.append_assoc, List.append_assoc, parse_data_loop_failed hrun]
    rfl
  | @cons spaces number blanks more u vs hspaces hnumber hblanks _ ih =>
    have helement := parse_data_element_run hw hspaces hnumber hblanks (c := ch ',') (by decide)
      (by decide) (more ++ c :: rest) p
    rw [List.append_assoc, List.append_assoc, List.append_assoc, List.cons_append]
    rcases good with _ | ⟨g, good⟩
    · cases hvs
      obtain ⟨errno, hrun⟩ := helement.2 hbad
      exact ⟨errno, parse_data_loop_failed hrun⟩
    · cases hvs
      rw [List.forall_mem_cons] at hgood
      have hrun := helement.1 hgood.1
      rw [if_pos rfl] at hrun
      rw [parse_data_loop_more hrun]
      rcases hem : emitter_buffer p.em (element w u) with f | em
      · refine ⟨0, ?_⟩
        rw [elements_run, hem]
        rfl
      · obtain ⟨errno, hloop⟩ := ih (k + w) { p with em } rfl hgood.2 hbad
        refine ⟨errno, ?_⟩
        rw [elements_run, hem]
        exact hloop

/-! ## The whole array -/

theorem taken_zero {w : Nat} {v : Int} : Taken w 0 v ↔ InWidth w v := by
  simp [Taken]

theorem elements_length (w : Nat) (vs : List Int) :
    ((elements w vs).map List.length).sum = w * vs.length := by
  induction vs with
  | nil => rfl
  | cons v vs ih =>
    simp only [elements, element, List.map_cons, List.sum_cons, length_leBytes, List.length_cons,
      Nat.mul_succ] at ih ⊢
    omega

theorem parse_data_array_run (w : Nat) (text : List UInt8) (p : Process) :
    parse_data_array w text p =
      parse_data_loop w 0 text p >>= Scan.andThen fun n => advance (n % 4) := rfl

theorem parse_data_array_accepts {w : Nat} (hw : Width w) {text : List UInt8} {vs : List Int}
    (h : DataList text vs) {c : UInt8} (hc : EndsList c) (rest : List UInt8) (p : Process)
    (htaken : ∀ v ∈ vs, Taken w p.errno v) :
    parse_data_array w (text ++ c :: rest) p = (do
      let em ← runAll emitter_buffer p.em (elements w vs)
      let em ← emitter_advance em (w * vs.length % 4)
      .ok (.ok ((), c :: rest), { p with em })) := by
  have hloop := parse_data_loop_accepts hw h hc rest 0 p htaken
  rw [parse_data_array_run, hloop]
  rcases runAll emitter_buffer p.em (elements w vs) with f | em
  · rfl
  · rw [ok_bind, ok_bind, andThen_ok, advance_run, Nat.zero_add, ok_bind]

theorem parse_data_array_rejects {w : Nat} (hw : Width w) {text : List UInt8} {vs : List Int}
    (h : DataList text vs) {c : UInt8} (hc : EndsList c) (rest : List UInt8) (p : Process)
    {good bad : List Int} {v : Int} (hvs : vs = good ++ v :: bad)
    (hgood : ∀ u ∈ good, Taken w p.errno u) (hbad : ¬ Taken w p.errno v) :
    ∃ errno, parse_data_array w (text ++ c :: rest) p = (do
      let em ← runAll emitter_buffer p.em (elements w good)
      .ok (.error "immediate doesn't fit", ⟨errno, em⟩)) := by
  obtain ⟨errno, hloop⟩ := parse_data_loop_rejects hw h hc rest 0 p hvs hgood hbad
  refine ⟨errno, ?_⟩
  rw [parse_data_array_run, hloop]
  rcases runAll emitter_buffer p.em (elements w good) with f | em <;> rfl

/-- A list up to its first element that is not taken. -/
theorem split_taken {w : Nat} {errno : Int} {vs : List Int} (h : ¬ ∀ v ∈ vs, Taken w errno v) :
    ∃ good v bad, vs = good ++ v :: bad ∧ (∀ u ∈ good, Taken w errno u) ∧ ¬ Taken w errno v := by
  induction vs with
  | nil => exact absurd (List.forall_mem_nil _) h
  | cons v vs ih =>
    by_cases hv : Taken w errno v
    · obtain ⟨good, u, bad, rfl, hgood, hbad⟩ := ih fun hall => h (List.forall_mem_cons.mpr ⟨hv, hall⟩)
      exact ⟨v :: good, u, bad, rfl, List.forall_mem_cons.mpr ⟨hv, hgood⟩, hbad⟩
    · exact ⟨[], v, vs, rfl, List.forall_mem_nil _, hv⟩

/-- A list of literals is accepted exactly if each value has its width. The elements
go to the emitter in order, and when one does not fit, those before it do. Only the
emitter can stop a call, and it does not as long as a file has room. -/
theorem data_arrays_encode_their_values {w : Nat} (hw : Width w) {text : List UInt8} {vs : List Int}
    (h : DataList text vs) (rest : List UInt8) (em : emitter) :
    let line := text ++ ch '\n' :: rest
    ((∀ v ∈ vs, InWidth w v) → parse_data_array w line ⟨0, em⟩ = (do
      let em ← runAll emitter_buffer em (elements w vs)
      let em ← emitter_advance em (w * vs.length % 4)
      .ok (.ok ((), ch '\n' :: rest), ⟨0, em⟩))) ∧
    (∀ good v bad, vs = good ++ v :: bad → (∀ u ∈ good, InWidth w u) → ¬ InWidth w v →
      ∃ errno, parse_data_array w line ⟨0, em⟩ = (do
        let em ← runAll emitter_buffer em (elements w good)
        .ok (.error "immediate doesn't fit", ⟨errno, em⟩))) ∧
    (∀ v, (element w v).length = w ∧ (leNat (element w v) : Int) = v % 2 ^ (8 * w)) ∧
    (em.cur.Takes (w * vs.length + 4) →
      ((∃ em', parse_data_array w line ⟨0, em⟩ = .ok (.ok ((), ch '\n' :: rest), ⟨0, em'⟩)) ↔
        ∀ v ∈ vs, InWidth w v)) := by
  intro line
  have hc : EndsList (ch '\n') := ⟨by decide, by decide, by decide⟩
  have haccepts := parse_data_array_accepts hw h hc rest ⟨0, em⟩
  have hrejects := @parse_data_array_rejects w hw text vs h (ch '\n') hc rest ⟨0, em⟩
  have hsplit := @split_taken w 0 vs
  simp only [taken_zero] at haccepts hrejects hsplit
  refine ⟨haccepts, fun good v bad => @hrejects good bad v,
    fun v => ⟨length_leBytes w _, leNat_element hw v⟩,
    fun htakes => ⟨fun hrun => ?_, fun hall => ?_⟩⟩
  · by_contra hno
    obtain ⟨em', hrun⟩ := hrun
    obtain ⟨good, v, bad, hvs, hgood, hbad⟩ := hsplit hno
    obtain ⟨errno, hfails⟩ := hrejects hvs hgood hbad
    rw [hrun] at hfails
    obtain ⟨_, _, hfails⟩ := bind_eq_ok.mp hfails.symm
    cases hfails
  · have hmod := Nat.mod_lt (w * vs.length) (show 0 < 4 by decide)
    obtain ⟨em', hem⟩ := pieces_and_gap_take (elements w vs) (w * vs.length % 4)
      (htakes.mono (by rw [elements_length]; omega))
    obtain ⟨em1, h1, h2⟩ := bind_eq_ok.mp hem
    exact ⟨em', by rw [haccepts hall, h1, ok_bind, h2, ok_bind]⟩

/-- The list ` 1 ,-2`. -/
theorem one_and_minus_two : DataList (chars " 1 ,-2") [1, -2] := by
  have hone : Literal (chars "1") 1 := .plain (.dec (by decide) (.cons (d := 1) (by decide) (.nil 1)))
  have htwo : Literal (chars "-2") (-2) :=
    .minus (.dec (by decide) (.cons (d := 2) (by decide) (.nil 2)))
  have hblank : Blanks [ch ' '] := by unfold Blanks; decide
  have hnone : Blanks [] := fun x hx => absurd hx List.not_mem_nil
  exact .cons (spaces_of_blanks hblank) hone hblank (.last (spaces_of_blanks hnone) htwo hnone)

theorem one_and_minus_two_are_encoded : ∃ em, parse_data_array 1 (chars " 1 ,-2" ++ [ch '\n', 0])
    ⟨0, emitter.fresh 0x400000 0x10010000⟩ = .ok (.ok ((), [ch '\n', 0]), ⟨0, em⟩) := by
  have harray := data_arrays_encode_their_values (Or.inl rfl) one_and_minus_two [0]
    (emitter.fresh 0x400000 0x10010000)
  refine (harray.2.2.2 ⟨Section.ok_fresh 0x400000, by decide⟩).mpr ?_
  unfold InWidth
  decide

end riscv_assembler
