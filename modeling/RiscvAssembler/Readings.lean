-- What a line does with the labels, read off its text alone: it defines one, or
-- its instruction names one, or neither. `parse_line` does what is read.
import RiscvAssembler.Compounds
import RiscvAssembler.Turns

open checked scanner c_text

namespace riscv_assembler

variable {σ ε α β : Type}

/-! ## The reading of a line -/

inductive Reading
  | blank
  /-- A branch or a jump to a label, with its word before the displacement. -/
  | refer (assign : assign_type) (instr : BitVec 32) (key : string)
  | define (key : string)
  /-- Any other operation or directive. -/
  | other
  deriving DecidableEq

/-- The part of `parse_statement` that decides. -/
def read_statement : Parse String Reading := do
  let known ← parse_word
  match known with
  | none => do
    let lstr ← parse_label_name
    pure (.define lstr)
  | some operation =>
    match vocable.ofNumber operation with
    | some (.op o) =>
      if formats o = .B_TYPE ∨ formats o = .J_TYPE then do
        let operands ← parse_operands o
        match operands with
        | .label assign instr key => pure (.refer assign instr key)
        | .whole _ => pure .other
      else pure .other
    | _ => pure .other

def read_line : Parse String Reading := do
  skip_whitespace
  let c ← peek
  if c = ch '\n' then pure .blank else read_statement

/-- The reading of a line, for any emitter. -/
def reading (text : List UInt8) : Option Reading :=
  match read_line text ⟨0, emitter.fresh 0 0⟩ with
  | .ok (.ok (r, _), _) => some r
  | _ => none

/-- The branch or jump goes to the emitter. -/
def emitter_refer (em : emitter) (assign : assign_type) (instr : BitVec 32) (key : string) :
    Result emitter := do
  let (instr, em) ← emitter_reference em assign instr key
  emitter_buffer em (instr_bytes instr)

/-- A call that puts bytes into a section or that chooses one. -/
inductive WriteStep (em em' : emitter) : Prop
  | buffer {data : List UInt8} : data.length < BUF_SIZE → emitter_buffer em data = .ok em' →
      WriteStep em em'
  | advance {n : Nat} : n < 2 ^ 32 → emitter_advance em n = .ok em' → WriteStep em em'
  | switch {s : Sect} : em' = { em with current_section := s } → WriteStep em em'

/-- What a line with the reading does to the emitter. -/
def Reading.Does : Reading → emitter → emitter → Prop
  | .blank, em, em' => em' = em
  | .refer assign instr key, em, em' => emitter_refer em assign instr key = .ok em'
  | .define key, em, em' => emitter_label_add em key = .ok (0, em')
  | .other, em, em' => Relation.ReflTransGen WriteStep em em'

/-! ## Parsers that only read -/

theorem expect_literal.inert (expect : String) : Inert (expect_literal expect : Scan σ ε Bool) := by
  intro text s r s' h
  obtain ⟨rest, hrest, h⟩ := bind_eq_ok.mp h
  cases h
  exact ⟨rfl, fun t => by rw [expect_literal, hrest]; rfl⟩

theorem skip_whitespace.inert : Inert (skip_whitespace : Scan σ ε Unit) := .skipWhile _

theorem OnRegisters.inert : OnRegisters (@Inert σ) :=
  .of_line (Inert.line_closed _) fun _ => expect_literal.inert _

theorem tbase_root.inert : Inert (tbase_root : Scan σ ε trie) := by
  intro text s r s' h
  obtain ⟨pos, hpos, h⟩ := bind_eq_ok.mp h
  cases h
  exact ⟨rfl, fun t => by rw [tbase_root, hpos]; rfl⟩

theorem trie_walk.inert (pos : trie) (here : UInt8) :
    Inert (trie_walk pos here : Scan σ ε (Option Int)) := by
  intro text
  induction text generalizing pos here with
  | nil => nofun
  | cons c text ih =>
    intro s r s' h
    by_cases hc : identifier c = true
    · rw [trie_walk_turn hc] at h
      obtain ⟨next, hnext, h⟩ := bind_eq_ok.mp h
      have hwalk : ∀ t, (trie_walk pos here : Scan σ ε (Option Int)) (c :: text) t =
          next.elim (.ok (.ok (none, c :: text), t)) fun pos => trie_walk pos c text t := fun t => by
        rw [trie_walk_turn hc, hnext, ok_bind]
      cases next with
      | none =>
        cases h
        exact ⟨rfl, hwalk⟩
      | some pos' =>
        obtain ⟨hs, hall⟩ := ih pos' c s r s' h
        exact ⟨hs, fun t => (hwalk t).trans (hall t)⟩
    · rw [Bool.not_eq_true] at hc
      rw [trie_walk_end hc] at h
      obtain ⟨operation, hlookup, h⟩ := bind_eq_ok.mp h
      cases h
      exact ⟨rfl, fun t => by rw [trie_walk_end hc, hlookup, ok_bind]⟩

theorem parse_word.inert : Inert (parse_word : Scan σ ε (Option Int)) := by
  refine Inert.cursor.bind fun rewind => tbase_root.inert.bind fun pos =>
    Inert.next.bind fun here => (trie_walk.inert pos here).bind fun known => ?_
  cases known with
  | some operation => exact .pure _
  | none => exact (Inert.seek rewind).bind fun _ => .pure none

theorem read_statement.inert : Inert read_statement := by
  refine parse_word.inert.bind fun known => ?_
  cases known with
  | none => exact OnRegisters.inert.label_name.bind fun _ => .pure _
  | some operation =>
    simp only
    rcases vocable.ofNumber operation with _ | o | d
    · exact .pure _
    · simp only
      by_cases ho : formats o = .B_TYPE ∨ formats o = .J_TYPE
      · rw [if_pos ho]
        refine (OnRegisters.inert.label_operands ho).bind fun operands => ?_
        cases operands <;> exact .pure _
      · rw [if_neg ho]
        exact .pure _
    · exact .pure _

theorem read_line.inert : Inert read_line :=
  skip_whitespace.inert.bind fun _ => Inert.peek.bind fun _ => .ite (.pure _) read_statement.inert

/-- A property that all parsers have which only read. -/
theorem OnRegisters.of_inert {P : ∀ {ε α : Type}, Scan σ ε α → Prop} (h : Closed P)
    (hinert : ∀ {ε α : Type} {m : Scan σ ε α}, Inert m → P m) : OnRegisters P where
  toClosed := h
  reg := hinert OnRegisters.inert.reg
  mark hc := hinert (OnRegisters.inert.mark hc)
  identifier := hinert OnRegisters.inert.identifier

/-- A reading that is made in some state is the reading of the text. -/
theorem reading_eq {text rest : List UInt8} {p p' : Process} {r : Reading}
    (h : read_line text p = .ok (.ok (r, rest), p')) : reading text = some r := by
  rw [reading, (read_line.inert _ _ _ _ h).2]

/-! ## Parsers that only write -/

/-- What the parser does to the emitter is a sequence of writes, also when it
fails. -/
def Quiet (m : Parse ε α) : Prop :=
  ∀ text p r p', m text p = .ok (r, p') → Relation.ReflTransGen WriteStep p.em p'.em

theorem Quiet.of_inert {m : Parse ε α} (hm : Inert m) : Quiet m := by
  intro text p r p' h
  rw [(hm _ _ _ _ h).1]

theorem Quiet.pure (a : α) : Quiet (pure a : Parse ε α) := .of_inert (.pure a)

theorem Quiet.fail (e : ε) : Quiet (fail e : Parse ε α) := .of_inert (.fail e)

theorem Quiet.bind {m : Parse ε α} {f : α → Parse ε β} (hm : Quiet m) (hf : ∀ a, Quiet (f a)) :
    Quiet (m >>= f) := by
  intro text p r p' h
  rcases bind_eq_ok_cases h with ⟨e, h1, _⟩ | ⟨a, mid, p1, h1, h2⟩
  · exact hm _ _ _ _ h1
  · exact (hm _ _ _ _ h1).trans (hf a _ _ _ _ h2)

theorem Quiet.orFail {ε' : Type} {m : Parse ε' α} (hm : Quiet m) (e : ε) : Quiet (orFail m e) := by
  intro text p r p' h
  unfold scanner.orFail at h
  rcases hr : m text p with f | ⟨_ | ⟨b, mid⟩, p1⟩ <;> rw [hr] at h <;> cases h <;>
    exact hm _ _ _ _ hr

theorem Quiet.measured {m : Parse ε α} (hm : Quiet m) : Quiet (measured m) := by
  intro text p r p' h
  unfold scanner.measured at h
  rcases hr : m text p with f | ⟨_ | ⟨b, mid⟩, p1⟩ <;> rw [hr] at h <;> cases h <;>
    exact hm _ _ _ _ hr

/-- A function of the emitter that is one write. -/
theorem Quiet.call {f : Process → Result (α × Process)}
    (hf : ∀ p a p', f p = .ok (a, p') → WriteStep p.em p'.em) : Quiet (call f : Parse ε α) := by
  intro text p r p' h
  obtain ⟨⟨a, p1⟩, h1, h⟩ := bind_eq_ok.mp h
  cases h
  exact .single (hf p a _ h1)

theorem emit.quiet {data : List UInt8} (hd : data.length < BUF_SIZE) :
    Quiet (emit data : Parse ε Unit) := by
  refine .call fun p _ p' h => ?_
  obtain ⟨em, hem, h⟩ := bind_eq_ok.mp h
  cases h
  exact .buffer hd hem

theorem advance.quiet {n : Nat} (hn : n < 2 ^ 32) : Quiet (advance n : Parse ε Unit) := by
  refine .call fun p _ p' h => ?_
  obtain ⟨em, hem, h⟩ := bind_eq_ok.mp h
  cases h
  exact .advance hn hem

theorem switch_section.quiet (s : Sect) : Quiet (switch_section s : Parse ε Unit) :=
  .call fun p _ p' h => by
    cases h
    exact .switch rfl

theorem parse_imm.quiet : Quiet parse_imm := by
  intro text p r p' h
  obtain ⟨⟨res, t, errno⟩, _, h⟩ := bind_eq_ok.mp h
  simp only at h
  split at h <;> cases h <;> exact .refl

theorem OnDirectives.quiet : OnDirectives @Quiet where
  toOnRegisters := .of_inert ⟨.pure, .fail, .bind, .orFail⟩ .of_inert
  imm := parse_imm.quiet
  measured := .measured
  emit := emit.quiet
  advance := advance.quiet
  switch := switch_section.quiet

/-- The operands of an operation without a label make a whole instruction. -/
theorem parse_operands_whole {o : op} (ho : ¬ (formats o = .B_TYPE ∨ formats o = .J_TYPE))
    {text rest : List UInt8} {p p' : Process} {x : Operands}
    (h : parse_operands o text p = .ok (.ok (x, rest), p')) : ∃ w, x = .whole w := by
  unfold parse_operands at h
  cases hf : formats o <;> simp only [hf] at h
  · obtain ⟨_, _, _, _, h2⟩ := bind_eq_ok_ok.mp h
    cases h2
    exact ⟨_, rfl⟩
  · obtain ⟨⟨t0, t1, t2⟩, _, _, _, h2⟩ := bind_eq_ok_ok.mp h
    simp only at h2
    split at h2 <;> cases h2
    exact ⟨_, rfl⟩
  · obtain ⟨_, _, _, _, h2⟩ := bind_eq_ok_ok.mp h
    cases h2
    exact ⟨_, rfl⟩
  · exact absurd (Or.inl hf) ho
  · obtain ⟨_, _, _, _, h2⟩ := bind_eq_ok_ok.mp h
    cases h2
    exact ⟨_, rfl⟩
  · exact absurd (Or.inr hf) ho

/-- The operands of a branch or a jump make an instruction that needs its
label. -/
theorem parse_operands_label {o : op} (ho : formats o = .B_TYPE ∨ formats o = .J_TYPE)
    {text rest : List UInt8} {p p' : Process} {x : Operands}
    (h : parse_operands o text p = .ok (.ok (x, rest), p')) :
    ∃ assign instr key, x = .label assign instr key := by
  unfold parse_operands at h
  rcases ho with ho | ho <;> simp only [ho] at h
  · obtain ⟨_, mid, p1, _, h2⟩ := bind_eq_ok_ok.mp h
    obtain ⟨lstr, mid, p2, _, h3⟩ := bind_eq_ok_ok.mp h2
    cases h3
    exact ⟨_, _, _, rfl⟩
  · obtain ⟨_, mid, p1, _, h2⟩ := bind_eq_ok_ok.mp h
    obtain ⟨lstr, mid, p2, _, h3⟩ := bind_eq_ok_ok.mp h2
    cases h3
    exact ⟨_, _, _, rfl⟩

theorem parse_string_loop.quiet : Quiet parse_string_loop := by
  intro text p r p' h
  refine parse_string_loop_induct
    (motive := fun _ p => Relation.ReflTransGen WriteStep p.em p'.em)
    (fun _ _ => .refl) (fun _ _ _ => .refl) (fun _ text p c em hem ih => ?_) text p h
  have hone : [c].length < BUF_SIZE := show 1 < 4096 by decide
  exact .head (.buffer hone hem) ih

theorem parse_data_loop.quiet {bytes : Nat} (hb : bytes < BUF_SIZE) (k : Nat) :
    Quiet (parse_data_loop bytes k : Parse String Nat) := by
  intro text p r p' h
  have helement := OnDirectives.quiet.data_element hb
  refine parse_data_loop_induct
    (motive := fun _ p => Relation.ReflTransGen WriteStep p.em p'.em)
    (fun text p e h1 _ => helement _ _ _ _ h1) (fun text p n mid h1 _ => helement _ _ _ _ h1)
    (fun text p mid p1 h1 ih => (helement _ _ _ _ h1).trans ih) k text p h

theorem parse_directive.quiet (d : directive) : Quiet (parse_directive d) :=
  OnDirectives.quiet.directive parse_string_loop.quiet (fun hb => parse_data_loop.quiet hb 0) d

/-! ## A line does what is read -/

theorem emit_operands_label (assign : assign_type) (instr : BitVec 32) (key : string)
    (text : List UInt8) (p : Process) :
    (emit_operands (.label assign instr key) : Parse String Unit) text p = (do
      let em ← emitter_refer p.em assign instr key
      .ok (.ok ((), text), { p with em })) := by
  simp only [emit_operands, emitter_refer, bind_run, call]
  rcases emitter_reference p.em assign instr key with f | ⟨w, em⟩
  · rfl
  · simp only [ok_bind, andThen_ok, emit, call]
    rcases emitter_buffer em (instr_bytes w) with f | em'
    · rfl
    · rfl

theorem parse_op_does {o : op} {text rest : List UInt8} {p p' : Process}
    (h : parse_op o text p = .ok (.ok ((), rest), p')) :
    (formats o = .B_TYPE ∨ formats o = .J_TYPE → ∃ assign instr key,
      parse_operands o text p = .ok (.ok (.label assign instr key, rest), p) ∧
        emitter_refer p.em assign instr key = .ok p'.em ∧ p'.errno = p.errno) ∧
    (¬ (formats o = .B_TYPE ∨ formats o = .J_TYPE) →
      Relation.ReflTransGen WriteStep p.em p'.em) := by
  obtain ⟨x, mid, p1, h1, h2⟩ := bind_eq_ok_ok.mp h
  constructor
  · intro ho
    obtain ⟨assign, instr, key, rfl⟩ := parse_operands_label ho h1
    obtain ⟨rfl, _⟩ := OnRegisters.inert.label_operands ho _ _ _ _ h1
    rw [emit_operands_label] at h2
    obtain ⟨em, hem, h2⟩ := bind_eq_ok.mp h2
    cases h2
    exact ⟨assign, instr, key, h1, hem, rfl⟩
  · intro ho
    obtain ⟨w, rfl⟩ := parse_operands_whole ho h1
    have hquiet := OnDirectives.quiet.operands o text p _ _ h1
    refine hquiet.trans (emit.quiet ?_ _ _ _ _ h2)
    simp [instr_bytes, BUF_SIZE]

theorem label_add_ok {ε : Type} {key : string} {text rest : List UInt8} {p p' : Process} {res : Int}
    (h : (label_add key : Parse ε Int) text p = .ok (.ok (res, rest), p')) :
    emitter_label_add p.em key = .ok (res, p'.em) ∧ rest = text := by
  obtain ⟨⟨res', p1⟩, h1, h⟩ := bind_eq_ok.mp h
  obtain ⟨⟨_, em⟩, hem, h1⟩ := bind_eq_ok.mp h1
  cases h1
  cases h
  exact ⟨hem, rfl⟩

/-- An accepted statement has a reading, and it does what is read. -/
theorem parse_statement_does {text rest : List UInt8} {p p' : Process}
    (h : parse_statement text p = .ok (.ok ((), rest), p')) :
    ∃ r mid, read_statement text p = .ok (.ok (r, mid), p) ∧ r.Does p.em p'.em := by
  obtain ⟨known, mid, p1, h1, h2⟩ := bind_eq_ok_ok.mp h
  obtain ⟨rfl, _⟩ := parse_word.inert _ _ _ _ h1
  cases known with
  | none =>
    obtain ⟨lstr, mid2, p2, h3, h4⟩ := bind_eq_ok_ok.mp h2
    obtain ⟨rfl, _⟩ := OnRegisters.inert.label_name _ _ _ _ h3
    obtain ⟨res, mid3, p3, h5, h6⟩ := bind_eq_ok_ok.mp h4
    obtain ⟨hadd, rfl⟩ := label_add_ok h5
    split at h6
    · cases h6
    · rename_i hres
      rw [not_not] at hres
      cases h6
      refine ⟨.define lstr, rest, ?_, by rw [hres] at hadd; exact hadd⟩
      rw [read_statement, bind_run_ok h1]
      simp only
      rw [bind_run_ok h3]
      rfl
  | some operation =>
    have hread : read_statement text p1 = (match vocable.ofNumber operation with
        | some (.op o) =>
          if formats o = .B_TYPE ∨ formats o = .J_TYPE then do
            let operands ← parse_operands o
            match operands with
            | .label assign instr key => pure (.refer assign instr key)
            | .whole _ => pure .other
          else pure .other
        | _ => pure .other : Parse String Reading) mid p1 := by
      rw [read_statement, bind_run_ok h1]
    simp only [parse_known] at h2
    rcases hv : vocable.ofNumber operation with _ | o | d
    · rw [hv] at h2
      cases h2
    · rw [hv] at h2 hread
      obtain ⟨hlabel, hwhole⟩ := parse_op_does h2
      by_cases ho : formats o = .B_TYPE ∨ formats o = .J_TYPE
      · obtain ⟨assign, instr, key, hoperands, hrefer, _⟩ := hlabel ho
        refine ⟨.refer assign instr key, rest, ?_, hrefer⟩
        rw [hread]
        simp only [if_pos ho]
        rw [bind_run_ok hoperands]
        rfl
      · refine ⟨.other, mid, ?_, hwhole ho⟩
        rw [hread]
        simp only [if_neg ho]
        rfl
    · rw [hv] at h2 hread
      exact ⟨.other, mid, hread, parse_directive.quiet d _ _ _ _ h2⟩

theorem out_check_line.inert : Inert (out_check_line : Scan σ String Unit) :=
  out_check_line_of (Inert.line_closed _)

/-- An accepted line has a reading, and it does what is read. -/
theorem parse_line_does {text rest : List UInt8} {p p' : Process}
    (h : parse_line text p = .ok (.ok ((), rest), p')) :
    ∃ r, reading text = some r ∧ r.Does p.em p'.em := by
  rw [parse_line, bind_run_ok cursor_run] at h
  obtain ⟨_, mid, p1, h1, hafter⟩ := bind_eq_ok_ok.mp h
  obtain ⟨rfl, _⟩ := skip_whitespace.inert _ _ _ _ h1
  obtain ⟨c, mid2, p2, h2, hline⟩ := bind_eq_ok_ok.mp hafter
  obtain ⟨rfl, _⟩ := Inert.peek _ _ _ _ h2
  have hread : read_line text p2 =
      (if c = ch '\n' then pure .blank else read_statement : Parse String Reading) mid2 p2 := by
    rw [read_line, bind_run_ok h1, bind_run_ok h2]
  by_cases hc : c = ch '\n'
  · rw [if_pos hc] at hline hread
    cases hline
    exact ⟨.blank, reading_eq hread, rfl⟩
  · rw [if_neg hc] at hline hread
    obtain ⟨_, mid3, p3, h3, hend⟩ := bind_eq_ok_ok.mp hline
    obtain ⟨rfl, _⟩ := out_check_line.inert _ _ _ _ hend
    obtain ⟨r, mid4, hr, hdoes⟩ := parse_statement_does h3
    rw [hr] at hread
    exact ⟨r, reading_eq hread, hdoes⟩

/-! ## A line that names a label, in any state -/

theorem reading_some {text : List UInt8} {r : Reading} (h : reading text = some r) :
    ∃ rest, ∀ p, read_line text p = .ok (.ok (r, rest), p) := by
  unfold reading at h
  rcases hr : read_line text ⟨0, emitter.fresh 0 0⟩ with f | ⟨_ | ⟨r', rest⟩, p'⟩ <;> rw [hr] at h <;>
    cases h
  exact ⟨rest, (read_line.inert _ _ _ _ hr).2⟩

theorem parse_statement_refers {text mid : List UInt8} {assign : assign_type} {instr : BitVec 32}
    {key : string} {p p' : Process}
    (h : read_statement text p = .ok (.ok (.refer assign instr key, mid), p')) (q : Process) :
    parse_statement text q = (do
      let em ← emitter_refer q.em assign instr key
      .ok (.ok ((), mid), { q with em })) := by
  obtain ⟨known, mid1, p1, h1, h2⟩ := bind_eq_ok_ok.mp h
  obtain ⟨_, hword⟩ := parse_word.inert _ _ _ _ h1
  cases known with
  | none =>
    obtain ⟨_, _, _, _, h3⟩ := bind_eq_ok_ok.mp h2
    cases h3
  | some operation =>
    simp only at h2
    rcases hv : vocable.ofNumber operation with _ | o | d <;> rw [hv] at h2
    · cases h2
    · simp only at h2
      split at h2
      · rename_i ho
        obtain ⟨x, mid2, p2, h3, h4⟩ := bind_eq_ok_ok.mp h2
        obtain ⟨_, hoperands⟩ := OnRegisters.inert.label_operands ho _ _ _ _ h3
        cases x with
        | whole w => cases h4
        | label assign' instr' key' =>
          cases h4
          rw [parse_statement, bind_run_ok (hword q)]
          simp only [parse_known, hv, parse_op]
          rw [bind_run_ok (hoperands q), emit_operands_label]
      · cases h2
    · cases h2

theorem parse_statement_defines {text mid : List UInt8} {key : string} {p p' : Process}
    (h : read_statement text p = .ok (.ok (.define key, mid), p')) (q : Process) :
    parse_statement text q = (do
      let (res, em) ← emitter_label_add q.em key
      if res ≠ 0 then .ok (.error "label redefined", { q with em })
      else .ok (.ok ((), mid), { q with em })) := by
  obtain ⟨known, mid1, p1, h1, h2⟩ := bind_eq_ok_ok.mp h
  obtain ⟨_, hword⟩ := parse_word.inert _ _ _ _ h1
  cases known with
  | none =>
    obtain ⟨lstr, mid2, p2, h3, h4⟩ := bind_eq_ok_ok.mp h2
    obtain ⟨_, hname⟩ := OnRegisters.inert.label_name _ _ _ _ h3
    cases h4
    rw [parse_statement, bind_run_ok (hword q)]
    simp only [parse_label]
    rw [bind_run_ok (hname q), bind_run]
    simp only [label_add, call]
    rcases emitter_label_add q.em key with f | ⟨res, em⟩
    · rfl
    · simp only [ok_bind, andThen_ok]
      by_cases hres : res ≠ 0
      · rw [if_pos hres, if_pos hres]
        rfl
      · rw [if_neg hres, if_neg hres]
        rfl
  | some operation =>
    simp only at h2
    rcases hv : vocable.ofNumber operation with _ | o | d <;> rw [hv] at h2
    · cases h2
    · simp only at h2
      split at h2
      · obtain ⟨x, mid2, p2, _, h4⟩ := bind_eq_ok_ok.mp h2
        cases x <;> cases h4
      · cases h2
    · cases h2

/-- A line that is not blank is its statement and the check of its end. -/
theorem parse_line_of_reading {text : List UInt8} {r : Reading} (hr : reading text = some r)
    (hb : r ≠ .blank) : ∃ start mid, (∀ q, read_statement start q = .ok (.ok (r, mid), q)) ∧
      ∀ q, parse_line text q = (do
        parse_statement
        out_check_line : Parse String Unit) start q := by
  obtain ⟨after, hread⟩ := reading_some hr
  obtain ⟨_, mid, p1, h1, h2⟩ := bind_eq_ok_ok.mp (hread ⟨0, emitter.fresh 0 0⟩)
  obtain ⟨rfl, hskip⟩ := skip_whitespace.inert _ _ _ _ h1
  obtain ⟨c, mid2, p2, h3, h4⟩ := bind_eq_ok_ok.mp h2
  obtain ⟨rfl, hpeek⟩ := Inert.peek _ _ _ _ h3
  by_cases hc : c = ch '\n'
  · rw [if_pos hc] at h4
    cases h4
    exact absurd rfl hb
  · rw [if_neg hc] at h4
    refine ⟨mid2, after, (read_statement.inert _ _ _ _ h4).2, fun q => ?_⟩
    rw [parse_line, bind_run_ok cursor_run, bind_run_ok (hskip q), bind_run_ok (hpeek q), if_neg hc]

/-- A line that names a label, in any state of the emitter. -/
theorem parse_line_refer_eq {text : List UInt8} {assign : assign_type} {instr : BitVec 32}
    {key : string} (hr : reading text = some (.refer assign instr key)) :
    ∃ mid, ∀ q, parse_line text q = (do
      let em ← emitter_refer q.em assign instr key
      out_check_line mid { q with em }) := by
  obtain ⟨start, mid, hread, hline⟩ := parse_line_of_reading hr nofun
  refine ⟨mid, fun q => ?_⟩
  rw [hline, bind_run, parse_statement_refers (hread q) q]
  rcases emitter_refer q.em assign instr key with f | em
  · rfl
  · rfl

/-- A line that defines a label, in any state of the emitter. -/
theorem parse_line_define_eq {text : List UInt8} {key : string}
    (hr : reading text = some (.define key)) : ∃ mid, ∀ q, parse_line text q = (do
      let (res, em) ← emitter_label_add q.em key
      if res ≠ 0 then .ok (.error "label redefined", { q with em })
      else out_check_line mid { q with em }) := by
  obtain ⟨start, mid, hread, hline⟩ := parse_line_of_reading hr nofun
  refine ⟨mid, fun q => ?_⟩
  rw [hline, bind_run, parse_statement_defines (hread q) q]
  rcases emitter_label_add q.em key with f | ⟨res, em⟩
  · rfl
  · simp only [ok_bind]
    by_cases hres : res ≠ 0
    · rw [if_pos hres, if_pos hres]
      rfl
    · rw [if_neg hres, if_neg hres]
      rfl

/-! ## A call that may be rejected -/

/-- A statement has a reading that mentions a label, or it only writes. -/
theorem parse_statement_writes {text : List UInt8} {r : Except String (Unit × List UInt8)}
    {p p' : Process} (h : parse_statement text p = .ok (r, p')) :
    Relation.ReflTransGen WriteStep p.em p'.em ∨ ∃ mid key, (∃ assign instr,
        read_statement text p = .ok (.ok (.refer assign instr key, mid), p)) ∨
      read_statement text p = .ok (.ok (.define key, mid), p) := by
  rcases bind_eq_ok_cases h with ⟨e, hw, _⟩ | ⟨known, mid, p1, hw, h2⟩
  · exact Or.inl (Quiet.of_inert parse_word.inert _ _ _ _ hw)
  obtain ⟨rfl, _⟩ := parse_word.inert _ _ _ _ hw
  cases known with
  | none =>
    rcases bind_eq_ok_cases h2 with ⟨e, hn, _⟩ | ⟨lstr, mid2, p2, hn, _⟩
    · exact Or.inl (Quiet.of_inert OnRegisters.inert.label_name _ _ _ _ hn)
    · obtain ⟨rfl, _⟩ := OnRegisters.inert.label_name _ _ _ _ hn
      refine Or.inr ⟨mid2, lstr, Or.inr ?_⟩
      rw [read_statement, bind_run_ok hw]
      simp only
      rw [bind_run_ok hn]
      rfl
  | some operation =>
    simp only [parse_known] at h2
    rcases hv : vocable.ofNumber operation with _ | o | d <;> rw [hv] at h2
    · cases h2
    · rcases bind_eq_ok_cases h2 with ⟨e, ho, _⟩ | ⟨x, mid2, p2, ho, hemit⟩
      · exact Or.inl (OnDirectives.quiet.operands o _ _ _ _ ho)
      cases x with
      | whole w =>
        have hlen : (instr_bytes w).length < BUF_SIZE := by
          rw [length_instr_bytes]
          decide
        have hops := OnDirectives.quiet.operands o _ _ _ _ ho
        exact Or.inl (hops.trans (emit.quiet hlen _ _ _ _ hemit))
      | label assign instr key =>
        have hformat : formats o = .B_TYPE ∨ formats o = .J_TYPE := by
          by_contra hno
          obtain ⟨w, hw⟩ := parse_operands_whole hno ho
          cases hw
        obtain ⟨rfl, _⟩ := OnRegisters.inert.label_operands hformat _ _ _ _ ho
        refine Or.inr ⟨mid2, key, Or.inl ⟨assign, instr, ?_⟩⟩
        rw [read_statement, bind_run_ok hw]
        simp only [hv, if_pos hformat]
        rw [bind_run_ok ho]
        rfl
    · exact Or.inl (parse_directive.quiet d _ _ _ _ h2)

/-- A line without a reading that mentions a label only writes. -/
theorem parse_line_writes {text : List UInt8} {r : Except String (Unit × List UInt8)}
    {p p' : Process} (h : parse_line text p = .ok (r, p'))
    (hrefer : ∀ assign instr key, reading text ≠ some (.refer assign instr key))
    (hdefine : ∀ key, reading text ≠ some (.define key)) :
    Relation.ReflTransGen WriteStep p.em p'.em := by
  rw [parse_line, bind_run_ok cursor_run] at h
  rcases bind_eq_ok_cases h with ⟨e, hs, _⟩ | ⟨_, mid, p1, hs, h2⟩
  · exact Quiet.of_inert skip_whitespace.inert _ _ _ _ hs
  obtain ⟨rfl, _⟩ := skip_whitespace.inert _ _ _ _ hs
  rcases bind_eq_ok_cases h2 with ⟨e, hp, _⟩ | ⟨c, mid2, p2, hp, h3⟩
  · exact Quiet.of_inert Inert.peek _ _ _ _ hp
  obtain ⟨rfl, _⟩ := Inert.peek _ _ _ _ hp
  have hread : read_line text p2 =
      (if c = ch '\n' then pure .blank else read_statement : Parse String Reading) mid2 p2 := by
    rw [read_line, bind_run_ok hs, bind_run_ok hp]
  by_cases hc : c = ch '\n'
  · rw [if_pos hc] at h3
    cases h3
    exact .refl
  · rw [if_neg hc] at h3 hread
    have hwrites : ∀ {r p'}, parse_statement mid2 p2 = .ok (r, p') →
        Relation.ReflTransGen WriteStep p2.em p'.em := by
      intro r p' hst
      rcases parse_statement_writes hst with hw | ⟨mid4, key, ⟨assign, instr, hr⟩ | hr⟩
      · exact hw
      · exact absurd (reading_eq (hread.trans hr)) (hrefer assign instr key)
      · exact absurd (reading_eq (hread.trans hr)) (hdefine key)
    rcases bind_eq_ok_cases h3 with ⟨e, hst, _⟩ | ⟨_, mid3, p3, hst, hend⟩
    · exact hwrites hst
    · rw [(out_check_line.inert _ _ _ _ hend).1]
      exact hwrites hst

/-- A line that names a label and is accepted in one state, in any state. -/
theorem parse_line_refers {text rest : List UInt8} {assign : assign_type} {instr : BitVec 32}
    {key : string} (hr : reading text = some (.refer assign instr key)) {p p' : Process}
    (h : parse_line text p = .ok (.ok ((), rest), p')) (q : Process) :
    parse_line text q = (do
      let em ← emitter_refer q.em assign instr key
      .ok (.ok ((), rest), { q with em })) := by
  obtain ⟨mid, hline⟩ := parse_line_refer_eq hr
  rw [hline] at h ⊢
  obtain ⟨em, _, hend⟩ := bind_eq_ok.mp h
  obtain ⟨_, hcheck⟩ := out_check_line.inert _ _ _ _ hend
  simp only [hcheck]

end riscv_assembler
