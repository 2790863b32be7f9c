-- The places of a line: the numbers and the literal that `parse_line` comes to,
-- read off the text of the line, and that it crosses a newline or leaves the text
-- nowhere else.
import RiscvAssembler.LineEnds

open checked scanner c_text

namespace riscv_assembler

variable {σ ε : Type} {vaddr : Sect → Nat}

/-! ## Numbers -/

/-- A number right here. -/
def number_here : Places Process Place := fun text _ => [.number text]

/-- A number behind a register. -/
def reg_number : Places Process Place :=
  behind (parse_reg_comma : Parse Unit Nat) fun _ => number_here

/-- A number behind two registers. -/
def reg_reg_number : Places Process Place :=
  behind (parse_reg_comma : Parse Unit Nat) fun _ => reg_number

/-- The numbers of an I-type operation. -/
def itype_places : op → Places Process Place
  | .ECALL | .EBREAK => nowhere
  | .LB | .LH | .LW | .LBU | .LHU => reg_number
  | _ => reg_reg_number

def op_places (o : op) : Places Process Place :=
  match formats o with
  | .I_TYPE => itype_places o
  | .S_TYPE | .U_TYPE => reg_number
  | .R_TYPE | .B_TYPE | .J_TYPE => nowhere

/-! ## Data arrays -/

/-- A number that is accepted leaves `errno`, and it is the same for any emitter. -/
theorem parse_imm_ok {text rest : List UInt8} {p p' : Process} {z : Int}
    (h : parse_imm text p = .ok (.ok (z, rest), p')) :
    p' = p ∧ ∀ em, parse_imm text ⟨p.errno, em⟩ = .ok (.ok (z, rest), ⟨p.errno, em⟩) := by
  obtain ⟨⟨res, t, errno⟩, h1, h⟩ := bind_eq_ok.mp h
  simp only at h
  split at h
  · cases h
  · rename_i hgood
    obtain ⟨number, h2, h3⟩ := bind_eq_ok.mp h1
    have herrno : errno = p.errno := by
      rcases number with _ | ⟨z', t'⟩
      · cases h3
        exact absurd (Or.inl rfl) hgood
      · simp only at h3
        split at h3
        · cases h3
          exact absurd (Or.inr ⟨Or.inr (Or.inl rfl), by decide⟩) hgood
        · split at h3
          · cases h3
            exact absurd (Or.inr ⟨Or.inr (Or.inr rfl), by decide⟩) hgood
          · cases h3
            rfl
    subst herrno
    cases h
    refine ⟨rfl, fun em => ?_⟩
    unfold parse_imm
    rw [h1, ok_bind]
    exact if_neg hgood

/-- The element of a data array without its bytes. -/
def element_number (bytes : Nat) : Parse String Bool := do
  let ibuf ← orFail parse_imm "immediate doesn't fit"
  if ¬ fits_bytes bytes ibuf then fail "immediate doesn't fit" else expect_char_literal ','

/-- The text of the number behind the comma, if the first one is accepted and a
comma follows. It is the same for any emitter. -/
def next_number (bytes : Nat) (errno : Int) (text : List UInt8) : Option (List UInt8) :=
  match element_number bytes text ⟨errno, emitter.fresh 0 0⟩ with
  | .ok (.ok (true, rest), _) => some rest
  | _ => none

theorem orFail_ok {α ε' : Type} {m : Scan σ ε' α} {e : ε} {text rest : List UInt8} {s s' : σ} {a : α}
    (h : orFail m e text s = .ok (.ok (a, rest), s')) : m text s = .ok (.ok (a, rest), s') := by
  unfold orFail at h
  rcases hr : m text s with f | ⟨_ | ⟨b, mid⟩, s1⟩ <;> rw [hr] at h <;> cases h
  rfl

theorem next_number_shortens {bytes : Nat} {errno : Int} {text rest : List UInt8}
    (h : next_number bytes errno text = some rest) : rest.length < text.length := by
  unfold next_number at h
  split at h
  · rename_i hrun
    cases h
    obtain ⟨z, mid, p1, h1, h2⟩ := bind_eq_ok_ok.mp hrun
    refine Nat.lt_of_le_of_lt (List.IsSuffix.length_le ?_) (parse_imm_shortens (orFail_ok h1)).2
    split at h2
    · cases h2
    · exact expect_char_literal.forward ',' _ _ _ _ _ h2
  · cases h

/-- The places of a data array: each number, as far as the loop gets. -/
def array_places (bytes : Nat) (errno : Int) (text : List UInt8) : List Place :=
  .number text :: match _h : next_number bytes errno text with
    | some rest => array_places bytes errno rest
    | none => []
termination_by text.length
decreasing_by exact next_number_shortens _h

theorem array_places_some {bytes : Nat} {errno : Int} {text rest : List UInt8}
    (h : next_number bytes errno text = some rest) :
    array_places bytes errno text = .number text :: array_places bytes errno rest := by
  rw [array_places]
  split <;> rename_i hn <;> rw [h] at hn <;> cases hn
  rfl

theorem array_places_none {bytes : Nat} {errno : Int} {text : List UInt8}
    (h : next_number bytes errno text = none) : array_places bytes errno text = [.number text] := by
  rw [array_places]
  split
  · rename_i hn
    rw [h] at hn
    cases hn
  · rfl

theorem parse_data_element.next {bytes : Nat} {text rest : List UInt8} {p p' : Process} {more : Bool}
    (h : parse_data_element bytes text p = .ok (.ok (more, rest), p')) :
    p'.errno = p.errno ∧ next_number bytes p.errno text = if more then some rest else none := by
  obtain ⟨z, mid, p1, h1, h2⟩ := bind_eq_ok_ok.mp h
  obtain ⟨rfl, hany⟩ := parse_imm_ok (orFail_ok h1)
  have himm := orFail_run_ok (ε := String) (e := "immediate doesn't fit") (hany (emitter.fresh 0 0))
  by_cases hfit : ¬ fits_bytes bytes z
  · rw [if_pos hfit] at h2
    cases h2
  · rw [if_neg hfit] at h2
    obtain ⟨_, mid', p2, h3, h4⟩ := bind_eq_ok_ok.mp h2
    obtain ⟨⟨_, p3⟩, hcall, hend⟩ := bind_eq_ok.mp h3
    obtain ⟨em, _, hcall⟩ := bind_eq_ok.mp hcall
    cases hcall
    cases hend
    obtain ⟨rfl, hcomma⟩ := OnRegisters.inert.mark (by decide) _ _ _ _ h4
    refine ⟨rfl, ?_⟩
    unfold next_number element_number
    rw [bind_run_ok himm, if_neg hfit, hcomma]
    cases more <;> rfl

/-! ## Lines -/

/-- The rest of a literal right here. -/
def literal_here : Places Process Place := fun text _ => [.literal text]

/-- The literal behind the opening quote. -/
def string_places : Places Process Place :=
  behind (require (expect_char_literal '"') "expected start of string" : Parse String Unit)
    fun _ => literal_here

def directive_places : directive → Places Process Place
  | .K_BYTE => fun text p => array_places 1 p.errno text
  | .K_HALF => fun text p => array_places 2 p.errno text
  | .K_WORD => fun text p => array_places 4 p.errno text
  | .K_DWORD => fun text p => array_places 8 p.errno text
  | .K_TEXT | .K_DATA => nowhere
  | .K_ASCII => string_places
  | .K_SPACE => number_here

def known_places (operation : Int) : Places Process Place :=
  match vocable.ofNumber operation with
  | some (.directive d) => directive_places d
  | some (.op o) => op_places o
  | none => nowhere

/-- The places behind the word of a statement. -/
def word_places : Option Int → Places Process Place
  | some operation => known_places operation
  | none => nowhere

def statement_places : Places Process Place :=
  behind (parse_word : Parse String (Option Int)) word_places

/-- The places of a line. -/
def line_places : Places Process Place :=
  behind (skip_whitespace : Parse String Unit) fun _ =>
    behind (peek : Parse String UInt8) fun c => if c = ch '\n' then nowhere else statement_places

/-! ## The parsers behind the places -/

/-- A property of the parsers with the places that they come to. The parsers of
registers, marks and names, and the calls of the emitter, come to none. -/
structure OnPlaces (P : ∀ {ε α : Type}, Places Process Place → Parse ε α → Prop) : Prop
    extends PlaceClosed P where
  registers : OnRegisters fun {ε α} (m : Parse ε α) => P nowhere m
  imm : P number_here parse_imm
  emit : ∀ data : List UInt8, P nowhere (emit data : Parse String Unit)
  advance : ∀ {n : Nat}, n < 2 ^ 63 → P nowhere (advance n : Parse String Unit)
  switch : ∀ s : Sect, P nowhere (switch_section s : Parse String Unit)
  emit_operands : ∀ x : Operands, P nowhere (emit_operands x : Parse String Unit)
  label : P nowhere parse_label
  halt : P nowhere (halt .assertion : Parse String Unit)

namespace OnPlaces

variable {P : ∀ {ε α : Type}, Places Process Place → Parse ε α → Prop} (h : OnPlaces P)
include h

theorem imm12 : P number_here parse_imm12 :=
  h.bind h.imm fun _ => h.registers.check () fun _ => h.registers.pure _

/-- A register comes to no place, and what is behind it has its places behind it. -/
theorem behind_reg {α : Type} {places : Nat → Places Process Place} {f : Nat → Parse Unit α}
    (hf : ∀ r, P (places r) (f r)) :
    P (behind (parse_reg_comma : Parse Unit Nat) places) (parse_reg_comma >>= f) :=
  h.behind h.registers.reg_comma OnRegisters.inert.reg_comma hf

theorem reg_reg_imm : P reg_reg_number parse_reg_reg_imm :=
  h.behind_reg fun _ => h.behind_reg fun _ => h.bind h.imm12 fun _ => h.registers.pure _

theorem ls_reg_imm_reg : P reg_number parse_ls_reg_imm_reg :=
  h.behind_reg fun _ => h.bind h.imm12 fun _ =>
    h.registers.bind (h.registers.require (h.registers.mark (by decide)) ()) fun _ =>
      h.registers.bind h.registers.reg fun _ =>
        h.registers.bind (h.registers.require (h.registers.mark (by decide)) ()) fun _ =>
          h.registers.pure _

theorem reg_imm20 : P reg_number parse_reg_imm20 :=
  h.behind_reg fun _ => h.bind h.imm fun _ => h.registers.check () fun _ => h.registers.pure _

theorem itype (o : op) : P (itype_places o) (parse_itype o) := by
  have hload : P reg_number (orFail parse_ls_reg_imm_reg
      "could not parse register, immediate(register) required for this operation") :=
    h.orFail h.ls_reg_imm_reg _
  have himm : P reg_reg_number (orFail parse_reg_reg_imm
      "could not parse register, register, immediate required for this operation") :=
    h.orFail h.reg_reg_imm _
  cases o <;> first
    | exact h.bind hload fun _ => h.registers.pure _
    | exact himm
    | exact h.registers.pure _

theorem operands (o : op) : P (op_places o) (parse_operands o) := by
  unfold op_places
  cases hf : formats o with
  | B_TYPE => exact h.registers.label_operands (Or.inl hf)
  | J_TYPE => exact h.registers.label_operands (Or.inr hf)
  | R_TYPE =>
    rw [parse_operands, hf]
    exact h.bind (h.orFail h.registers.reg_reg_reg _) fun _ => h.registers.pure _
  | I_TYPE =>
    rw [parse_operands, hf]
    exact h.bind (h.itype o) fun _ => h.registers.check _ fun _ => h.registers.pure _
  | S_TYPE =>
    rw [parse_operands, hf]
    exact h.bind (h.orFail h.ls_reg_imm_reg _) fun _ => h.registers.pure _
  | U_TYPE =>
    rw [parse_operands, hf]
    exact h.bind (h.orFail h.reg_imm20 _) fun _ => h.registers.pure _

theorem operation (o : op) : P (op_places o) (parse_op o) :=
  h.bind (h.operands o) fun x => h.emit_operands x

theorem data_element (bytes : Nat) : P number_here (parse_data_element bytes) :=
  h.bind (h.orFail h.imm _) fun _ => h.registers.check _ fun _ =>
    h.registers.bind (h.emit _) fun _ => h.registers.mark (by decide)

theorem space : P number_here parse_space :=
  h.bind (h.orFail h.imm _) fun _ => h.registers.check _ fun _ => h.advance (by omega)

theorem advance_mod (n : Nat) : P nowhere (riscv_assembler.advance (n % 4) : Parse String Unit) :=
  h.advance (by omega)

theorem string_literal (hstring : P literal_here parse_string_loop) :
    P string_places parse_string_literal := by
  have hquote : P nowhere (require (expect_char_literal '"') "expected start of string" :
      Parse String Unit) := h.registers.require (h.registers.mark (by decide)) _
  have hinert : Inert (require (expect_char_literal '"') "expected start of string" :
      Parse String Unit) := OnRegisters.inert.require (OnRegisters.inert.mark (by decide)) _
  exact h.bind (h.measured (h.behind hquote hinert fun _ => hstring)) fun _ => h.advance_mod _

/-- The loops of the directives are up to the property. -/
theorem directive (hstring : P literal_here parse_string_loop)
    (harray : ∀ bytes, P (fun text p => array_places bytes p.errno text)
      (parse_data_loop bytes 0 : Parse String Nat)) (d : directive) :
    P (directive_places d) (parse_directive d) := by
  cases d with
  | K_BYTE => exact h.bind (harray 1) fun _ => h.advance_mod _
  | K_HALF => exact h.bind (harray 2) fun _ => h.advance_mod _
  | K_WORD => exact h.bind (harray 4) fun _ => h.advance_mod _
  | K_DWORD => exact h.bind (harray 8) fun _ => h.advance_mod _
  | K_TEXT => exact h.switch _
  | K_DATA => exact h.switch _
  | K_ASCII => exact h.string_literal hstring
  | K_SPACE => exact h.space

/-- What comes after the word. -/
theorem after_word (hstring : P literal_here parse_string_loop)
    (harray : ∀ bytes, P (fun text p => array_places bytes p.errno text)
      (parse_data_loop bytes 0 : Parse String Nat)) (known : Option Int) :
    P (word_places known)
      (match known with
      | some operation => parse_known operation
      | none => parse_label) := by
  cases known with
  | none => exact h.label
  | some operation =>
    change P (known_places operation) (parse_known operation)
    unfold parse_known known_places
    rcases vocable.ofNumber operation with _ | o | d
    · exact h.halt
    · exact h.operation o
    · exact h.directive hstring harray d

end OnPlaces

/-! ## Numbers at the end of their line -/

theorem parse_imm.reads : (asm_lines vaddr).Reads number_here parse_imm where
  moves text p z rest p' h := by
    have hmoved : rest ≠ text := fun he => by
      have := (parse_imm_shortens h).2
      rw [he] at this
      exact Nat.lt_irrefl _ this
    obtain ⟨⟨res, t, errno⟩, h1, h⟩ := bind_eq_ok.mp h
    simp only at h
    split at h
    · cases h
    · cases h
      obtain ⟨digits, htext, hdigits⟩ := strtoll_used h1 hmoved
      refine ⟨text.takeWhile isspace ++ digits, by rw [List.append_assoc]; exact htext, ?_⟩
      simp only [asm_lines, number_here, List.mem_append, hdigits, or_false, List.mem_singleton,
        exists_eq_left, Place.Crosses]
  inside text p hinv hend hcut := by
    obtain ⟨l, rfl⟩ := hend
    have hl : ¬ ∀ x ∈ l, isspace x = true := fun hall =>
      hcut _ List.mem_cons_self fun x hx => by
        rcases List.mem_append.mp hx with hx | hx
        · exact hall x hx
        · rw [List.mem_singleton.mp hx]
          rfl
    obtain ⟨res, l', errno, hrun⟩ := strtoll_inside hl p.errno
    change (asm_lines vaddr).Within (parse_imm (l ++ [ch '\n']) p)
    rcases hres : parse_imm (l ++ [ch '\n']) p with f | ⟨_ | ⟨z, rest⟩, p'⟩
    · unfold parse_imm at hres
      rw [hrun, ok_bind] at hres
      simp only at hres
      split at hres <;> cases hres
    · exact .failed
    · unfold parse_imm at hres
      rw [hrun, ok_bind] at hres
      simp only at hres
      split at hres <;> cases hres
      exact .value hinv ⟨l', rfl⟩

theorem OnPlaces.reads :
    OnPlaces fun {ε α} places (m : Parse ε α) => (asm_lines vaddr).Reads places m where
  toPlaceClosed := Lines.Reads.place_closed _
  registers := .tame
  imm := parse_imm.reads
  emit := emit.tame
  advance := advance.tame
  switch := switch_section.tame
  emit_operands := emit_operands.tame
  label := parse_label.tame
  halt := .halt (by decide)

theorem parse_data_loop.moves (bytes : Nat) {k n : Nat} {text rest : List UInt8} {p p' : Process}
    (h : (parse_data_loop bytes k : Parse String Nat) text p = .ok (.ok (n, rest), p')) :
    ∃ used, text = used ++ rest ∧
      (ch '\n' ∈ used ↔ ∃ x ∈ array_places bytes p.errno text, x.Crosses) := by
  rw [parse_data_loop_eq] at h
  obtain ⟨more, mid, p1, h1, h2⟩ := bind_eq_ok_ok.mp h
  have hshort := parse_data_element_shortens h1
  obtain ⟨herrno, hnext⟩ := parse_data_element.next h1
  have hreads : (asm_lines fun _ => 0).Reads number_here (parse_data_element bytes) :=
    OnPlaces.reads.data_element bytes
  obtain ⟨u1, rfl, hiff⟩ := hreads.moves _ _ _ _ _ h1
  simp only [asm_lines, number_here, List.mem_singleton, exists_eq_left] at hiff
  cases more with
  | false =>
    cases h2
    rw [array_places_none hnext]
    exact ⟨u1, rfl, by simpa using hiff⟩
  | true =>
    obtain ⟨u2, rfl, hiff2⟩ := parse_data_loop.moves bytes h2
    rw [herrno] at hiff2
    rw [array_places_some hnext]
    refine ⟨u1 ++ u2, (List.append_assoc _ _ _).symm, ?_⟩
    simp only [List.mem_append, List.mem_cons, exists_eq_or_imp, hiff, hiff2]
termination_by text.length

theorem parse_data_loop.inside (bytes k : Nat) (text : List UInt8) (p : Process)
    (hinv : p.em.Sound vaddr) (hend : EndsWith (ch '\n') text)
    (hcut : ∀ x ∈ array_places bytes p.errno text, ¬ x.Cut) :
    (asm_lines vaddr).Within ((parse_data_loop bytes k : Parse String Nat) text p) := by
  have hfirst : ¬ Place.Cut (.number text) := by
    rw [array_places] at hcut
    exact hcut _ List.mem_cons_self
  rw [parse_data_loop_eq]
  refine ((OnPlaces.reads.data_element bytes).inside text p hinv hend
    (fun x hx => List.mem_singleton.mp hx ▸ hfirst)).bind fun more mid p1 h1 hinv1 hend1 => ?_
  have hshort := parse_data_element_shortens h1
  obtain ⟨herrno, hnext⟩ := parse_data_element.next h1
  cases more with
  | false => exact .value hinv1 hend1
  | true =>
    rw [array_places_some hnext, ← herrno] at hcut
    exact parse_data_loop.inside bytes _ mid p1 hinv1 hend1 fun x hx =>
      hcut x (List.mem_cons_of_mem _ hx)
termination_by text.length

/-! ## Literals at the end of their line -/

theorem literal_newlines_end {c : UInt8} (hc : c = ch '"' ∨ c = 0 ∨ c = ch '\n')
    (text : List UInt8) : literal_newlines (c :: text) = some 0 := by
  rw [literal_newlines.eq_def]
  exact if_pos hc

theorem literal_newlines_plain {c : UInt8} (hstop : ¬ (c = ch '"' ∨ c = 0 ∨ c = ch '\n'))
    (hescape : c ≠ ch '\\') (text : List UInt8) :
    literal_newlines (c :: text) = literal_newlines text := by
  rw [literal_newlines.eq_def]
  exact (if_neg hstop).trans (if_neg hescape)

theorem literal_newlines_escape {e d : UInt8} (he : escape e = .ok d) (text : List UInt8) :
    literal_newlines (ch '\\' :: e :: text) =
      (literal_newlines text).map (· + if e = ch '\n' then 1 else 0) := by
  rw [literal_newlines.eq_def]
  refine (if_neg (by decide)).trans ((if_pos rfl).trans ?_)
  simp only [he]

/-- What can stand in a literal: a backslash escapes the byte behind it, and no quote and
no newline stands without one. -/
inductive LiteralBody : List UInt8 → Prop
  | nil : LiteralBody []
  | plain {c : UInt8} {text : List UInt8} : c ≠ ch '"' → c ≠ ch '\n' → c ≠ ch '\\' →
      LiteralBody text → LiteralBody (c :: text)
  | escaped {e : UInt8} {text : List UInt8} : LiteralBody text →
      LiteralBody (ch '\\' :: e :: text)

/-- The loop stops behind the quote that closes the literal. -/
theorem parse_string_loop.moves {rest : List UInt8} {p' : Process} :
    ∀ (text : List UInt8) (p : Process), parse_string_loop text p = .ok (.ok ((), rest), p') →
      ∃ body, text = body ++ ch '"' :: rest ∧ LiteralBody body ∧
        literal_newlines text = some (body.count (ch '\n'))
  | [], _, h => by cases h
  | c :: text, p, h => by
    by_cases hquote : c = ch '"'
    · subst hquote
      rw [parse_string_loop_quote] at h
      cases h
      exact ⟨[], rfl, .nil, literal_newlines_end (Or.inl rfl) _⟩
    · by_cases hstop : c = 0 ∨ c = ch '\n'
      · rw [parse_string_loop_end hstop] at h
        cases h
      · by_cases hescape : c = ch '\\'
        · subst hescape
          rcases text with _ | ⟨e, text⟩
          · cases h
          · rw [parse_string_loop_escape] at h
            rcases he : escape e with err | d
            · rw [he] at h
              cases h
            · rw [he] at h
              obtain ⟨em, _, h⟩ := bind_eq_ok.mp h
              obtain ⟨body, rfl, hbody, hlit⟩ := parse_string_loop.moves text _ h
              refine ⟨ch '\\' :: e :: body, rfl, .escaped hbody, ?_⟩
              rw [literal_newlines_escape he, hlit, List.count_cons_of_ne (by decide),
                List.count_cons]
              simp
        · rw [parse_string_loop_plain hquote hstop hescape] at h
          obtain ⟨em, _, h⟩ := bind_eq_ok.mp h
          obtain ⟨body, rfl, hbody, hlit⟩ := parse_string_loop.moves text _ h
          have hnl : c ≠ ch '\n' := fun hc => hstop (Or.inr hc)
          refine ⟨c :: body, rfl, .plain hquote hnl hescape hbody, ?_⟩
          rw [literal_newlines_plain (fun hc => hc.elim hquote hstop) hescape, hlit,
            List.count_cons_of_ne hnl]

/-- One byte of the literal goes to the emitter, and then the loop goes on. -/
theorem literal_byte.inside {c : UInt8} {text : List UInt8} {p : Process} (hinv : p.em.Sound vaddr)
    (hrest : ∀ em, em.Sound vaddr →
      (asm_lines vaddr).Within (parse_string_loop text { p with em })) :
    (asm_lines vaddr).Within (do
      let em ← emitter_buffer p.em [c]
      parse_string_loop text { p with em }) := by
  rcases hem : emitter_buffer p.em [c] with f | em
  · exact .fault fun hf => emitter_buffer.no_bounds hinv [c] (hem.trans (congrArg _ hf))
  · exact hrest em (emitter_buffer.sound hinv hem)

theorem parse_string_loop.inside : ∀ (text : List UInt8) (p : Process), p.em.Sound vaddr →
    EndsWith (ch '\n') text → literal_newlines text ≠ none →
    (asm_lines vaddr).Within (parse_string_loop text p)
  | [], _, _, _, h => absurd rfl h
  | c :: text, p, hinv, hend, h => by
    by_cases hquote : c = ch '"'
    · subst hquote
      rw [parse_string_loop_quote]
      exact .value hinv (hend.tail (by decide))
    · by_cases hstop : c = 0 ∨ c = ch '\n'
      · rw [parse_string_loop_end hstop]
        exact .failed
      · by_cases hescape : c = ch '\\'
        · subst hescape
          rcases text with _ | ⟨e, text⟩
          · exact absurd rfl h
          · rw [parse_string_loop_escape]
            rcases he : escape e with err | d
            · exact .failed
            · rw [literal_newlines_escape he, ne_eq, Option.map_eq_none_iff] at h
              have htext : text ≠ [] := fun hn => h (by rw [hn]; rfl)
              have hend' : EndsWith (ch '\n') text := by
                apply EndsWith.of_append _ htext
                · exact [ch '\\', e]
                · exact hend
              exact literal_byte.inside hinv fun em hem =>
                parse_string_loop.inside text _ hem hend' h
        · rw [parse_string_loop_plain hquote hstop hescape]
          rw [literal_newlines_plain (fun hc => hc.elim hquote hstop) hescape] at h
          have hend' := hend.tail fun hc => hstop (Or.inr hc)
          exact literal_byte.inside hinv fun em hem => parse_string_loop.inside text _ hem hend' h

theorem parse_string_loop.reads : (asm_lines vaddr).Reads literal_here parse_string_loop where
  moves text p _ rest p' h := by
    obtain ⟨body, htext, _, hlit⟩ := parse_string_loop.moves text p h
    refine ⟨body ++ [ch '"'], htext.trans (List.append_cons _ _ _), ?_⟩
    have hquote : ch '\n' ≠ ch '"' := by decide
    simp only [asm_lines, literal_here, List.mem_singleton, exists_eq_left, Place.Crosses, hlit,
      Option.getD_some, List.count_pos_iff, List.mem_append, hquote, or_false]
  inside text p hinv hend hcut :=
    parse_string_loop.inside text p hinv hend (hcut _ List.mem_cons_self)

/-! ## Lines at the end of the text -/

/-- What comes after the word. -/
theorem after_word.reads {V : Sect → Nat} (known : Option Int) :
    (asm_lines V).Reads (word_places known)
      (match known with
      | some operation => parse_known operation
      | none => parse_label) :=
  OnPlaces.reads.after_word parse_string_loop.reads
    (fun bytes => ⟨fun _ _ _ _ _ h => parse_data_loop.moves bytes h, parse_data_loop.inside bytes 0⟩)
    known

/-- The word that `parse_word` finds, or it finds none and goes back. -/
theorem parse_word_ok {c : UInt8} {text rest : List UInt8} {s s' : σ} {known : Option Int}
    (h : (parse_word : Scan σ ε (Option Int)) (c :: text) s = .ok (.ok (known, rest), s')) :
    (known = none ∧ rest = c :: text) ∨ ∃ w v, text = w ++ rest ∧
      (∀ x ∈ w, identifier x = true) ∧ Spelled (ascii c :: w) v ∧ known = some (v.number : Int) := by
  have hrun := h
  rw [parse_word, bind_run_ok cursor_run] at h
  obtain ⟨pos, mid, s1, h1, h⟩ := bind_eq_ok_ok.mp h
  obtain ⟨pos', _, h1⟩ := bind_eq_ok.mp h1
  cases h1
  rw [bind_run_ok (next_cons c)] at h
  obtain ⟨r, mid, s2, h2, h⟩ := bind_eq_ok_ok.mp h
  obtain ⟨⟨w, hw, hids⟩, hstop⟩ := trie_walk.moves h2
  cases r with
  | none =>
    cases h
    exact Or.inl ⟨rfl, rfl⟩
  | some operation =>
    cases h
    obtain ⟨d, rest', rfl, hd⟩ := hstop rfl
    obtain ⟨hsome, hnone⟩ := parse_word_run (ε := ε) c hids hd rest' s
    rw [hw] at hrun
    by_cases hany : ∃ v, Spelled (ascii c :: w) v
    · obtain ⟨v, hv⟩ := hany
      rw [hsome v hv] at hrun
      cases hrun
      exact Or.inr ⟨w, v, hw, hids, hv, rfl⟩
    · rw [hnone (not_exists.mp hany)] at hrun
      cases hrun

theorem identifier_plain (x : UInt8) : identifier x = true → x ≠ ch '\n' ∧ x ≠ ch '\\' :=
  (forall_byte (by decide +kernel) :
    ∀ x, identifier x = true → x ≠ ch '\n' ∧ x ≠ ch '\\') x

theorem parse_word.used {c : UInt8} (hc : c ≠ ch '\n') {text rest : List UInt8} {s s' : σ}
    {known : Option Int}
    (h : (parse_word : Scan σ ε (Option Int)) (c :: text) s = .ok (.ok (known, rest), s')) :
    ∃ used, c :: text = used ++ rest ∧ ch '\n' ∉ used := by
  rcases parse_word_ok h with ⟨_, rfl⟩ | ⟨w, _, rfl, hw, _⟩
  · exact ⟨[], rfl, List.not_mem_nil⟩
  · refine ⟨c :: w, rfl, ?_⟩
    rw [List.mem_cons, not_or]
    exact ⟨hc.symm, fun hn => (identifier_plain _ (hw _ hn)).1 rfl⟩

theorem parse_word.total {c : UInt8} (hc : c ≠ ch '\n') {text : List UInt8} (p : Process)
    (hend : EndsWith (ch '\n') (c :: text)) :
    ∃ known rest, (parse_word : Parse ε (Option Int)) (c :: text) p = .ok (.ok (known, rest), p) := by
  have hmem : ch '\n' ∈ text := (hend.tail hc).mem
  have hstop : ∃ x ∈ text, identifier x = false := ⟨ch '\n', hmem, by decide⟩
  obtain ⟨d, rest, hdrop, hd, htail⟩ := split_while hstop
  have hw : ∀ x ∈ text.takeWhile identifier, identifier x = true := fun _ => List.mem_takeWhile_imp
  obtain ⟨hsome, hnone⟩ := parse_word_run (ε := ε) c hw hd rest p
  rw [← htail] at hsome hnone
  by_cases hany : ∃ v, Spelled (ascii c :: text.takeWhile identifier) v
  · obtain ⟨v, hv⟩ := hany
    exact ⟨_, _, hsome v hv⟩
  · exact ⟨_, _, hnone (not_exists.mp hany)⟩

theorem parse_word.inside {c : UInt8} (hc : c ≠ ch '\n') {text : List UInt8} {p : Process}
    (hinv : p.em.Sound vaddr) (hend : EndsWith (ch '\n') (c :: text)) :
    (asm_lines vaddr).Within ((parse_word : Parse ε (Option Int)) (c :: text) p) := by
  have htotal := parse_word.total (ε := ε) hc p hend
  generalize hrun : (parse_word : Parse ε (Option Int)) (c :: text) p = r at htotal
  obtain ⟨known, rest, rfl⟩ := htotal
  have hused := parse_word.used hc hrun
  obtain ⟨used, htext, hno⟩ := hused
  rw [htext] at hend
  exact .value hinv (hend.rest hno)

theorem parse_statement.moves {c : UInt8} (hc : c ≠ ch '\n') {text rest : List UInt8}
    {p p' : Process} (h : parse_statement (c :: text) p = .ok (.ok ((), rest), p')) :
    ∃ used, c :: text = used ++ rest ∧
      (ch '\n' ∈ used ↔ ∃ x ∈ statement_places (c :: text) p, x.Crosses) := by
  obtain ⟨known, mid, p1, h1, h2⟩ := bind_eq_ok_ok.mp h
  obtain ⟨rfl, _⟩ := parse_word.inert _ _ _ _ h1
  obtain ⟨u1, htext, hu1⟩ := parse_word.used hc h1
  have hreads := after_word.reads (V := fun _ => 0) known
  obtain ⟨u2, rfl, hiff⟩ := hreads.moves _ _ _ _ _ h2
  refine ⟨u1 ++ u2, by rw [htext, List.append_assoc], ?_⟩
  rw [statement_places, behind_run h1, List.mem_append, or_iff_right hu1]
  exact hiff

theorem parse_statement.inside {c : UInt8} (hc : c ≠ ch '\n') {text : List UInt8} {p : Process}
    (hinv : p.em.Sound vaddr) (hend : EndsWith (ch '\n') (c :: text))
    (hcut : ∀ x ∈ statement_places (c :: text) p, ¬ x.Cut) :
    (asm_lines vaddr).Within (parse_statement (c :: text) p) := by
  refine (parse_word.inside hc hinv hend).bind fun known mid p1 h1 hinv1 hend1 => ?_
  obtain ⟨rfl, _⟩ := parse_word.inert _ _ _ _ h1
  rw [statement_places, behind_run h1] at hcut
  exact (after_word.reads known).inside mid p1 hinv1 hend1 hcut

theorem line_places_run {text rest mid : List UInt8} {p p1 p2 : Process} {c : UInt8}
    (h1 : (skip_whitespace : Parse String Unit) text p = .ok (.ok ((), mid), p1))
    (h2 : (peek : Parse String UInt8) mid p = .ok (.ok (c, rest), p2)) :
    line_places text p = if c = ch '\n' then [] else statement_places rest p := by
  rw [line_places, behind_run h1, behind_run h2]
  split <;> rfl

/-- `parse_line` moves past a newline exactly at the places of the line that
cross one, and it stays in the text when none of them is cut. -/
theorem parse_line.reads : (asm_lines vaddr).Reads line_places parse_line where
  moves text p _ rest p' h := by
    have hblanks : (asm_lines vaddr).Tame (skip_whitespace : Parse String Unit) :=
      skip_whitespace.tame
    have hcheck : (asm_lines vaddr).Tame (out_check_line : Parse String Unit) := out_check_line.tame
    rw [parse_line, bind_run_ok cursor_run] at h
    obtain ⟨_, mid, p1, h1, h⟩ := bind_eq_ok_ok.mp h
    obtain ⟨c, mid', p2, h2, h⟩ := bind_eq_ok_ok.mp h
    obtain ⟨rfl, _⟩ := skip_whitespace.inert _ _ _ _ h1
    obtain ⟨u1, rfl, hu1⟩ := hblanks.used h1
    rw [line_places_run h1 h2]
    rcases mid with _ | ⟨d, mid⟩
    · cases h2
    · cases h2
      split at h
      · rename_i hnl
        cases h
        rw [if_pos hnl]
        exact ⟨[], rfl, by simp⟩
      · rename_i hnl
        obtain ⟨_, mid'', p3, h3, h4⟩ := bind_eq_ok_ok.mp h
        obtain ⟨u2, heq, hiff⟩ := parse_statement.moves hnl h3
        obtain ⟨u3, rfl, hu3⟩ := hcheck.used h4
        refine ⟨u1 ++ (u2 ++ u3), by rw [heq, List.append_assoc, List.append_assoc], ?_⟩
        rw [if_neg hnl, List.mem_append, List.mem_append, or_iff_right hu1, or_iff_left hu3]
        exact hiff
  inside text p hinv hend hcut := by
    rw [parse_line, bind_run_ok cursor_run]
    refine (skip_whitespace.tame.inside text p hinv hend (by simp [nowhere])).bind
      fun _ mid p1 h1 hinv1 hend1 => ?_
    refine (Lines.Reads.peek.inside mid p1 hinv1 hend1 (by simp [nowhere])).bind
      fun c mid' p2 h2 hinv2 hend2 => ?_
    obtain ⟨rfl, _⟩ := skip_whitespace.inert _ _ _ _ h1
    rw [line_places_run h1 h2] at hcut
    rcases mid with _ | ⟨d, mid⟩
    · cases h2
    · cases h2
      split
      · exact .value hinv hend
      · rename_i hnl
        rw [if_neg hnl] at hcut
        exact (parse_statement.inside hnl hinv hend1 hcut).bind fun _ rest p3 _ hinv3 hend3 =>
          out_check_line.tame.inside rest p3 hinv3 hend3 (by simp [nowhere])

end riscv_assembler
