-- What a line writes is read off its text: an accepted line that names no label makes
-- the same calls of the emitter in every state, and whatever was parsed before it.
import RiscvAssembler.Interleaving
import RiscvAssembler.Words

open checked scanner c_text

namespace riscv_assembler

variable {σ ε α β : Type}

/-! ## Scripts -/

/-- A call that puts bytes into the current section, or the choice of a section. -/
abbrev ScriptCall := Turn Sect Write

def ScriptCall.run (em : emitter) : ScriptCall → Result emitter
  | .choose s => .ok { em with current_section := s }
  | .act w => w.step em

/-- The sizes that a parser can ask for at once. -/
def ScriptCall.Short : ScriptCall → Prop
  | .choose _ => True
  | .act (.buffer data) => data.length < BUF_SIZE
  | .act (.advance n) => n.toNat < 2 ^ 32

/-- A call that succeeds follows a script, and follows it in every state of the emitter.
A process that parsed other things before may have an `errno`, but what succeeds with
one succeeds without it. -/
def Follows (r : Process → Result (Except ε (α × List UInt8) × Process)) : Prop :=
  ∀ p a rest p', r p = .ok (.ok (a, rest), p') →
    ∃ script : List ScriptCall, (∀ c ∈ script, c.Short) ∧
      runAll ScriptCall.run p.em script = .ok p'.em ∧
      ∀ em, r ⟨0, em⟩ = (runAll ScriptCall.run em script).map fun em' => (.ok (a, rest), ⟨0, em'⟩)

/-- What the parser does to the emitter is up to the text. -/
def Scripted (m : Parse ε α) : Prop := ∀ text, Follows (m text)

/-! ## The combinators -/

theorem Scripted.of_inert {m : Parse ε α} (hm : Inert m) : Scripted m := by
  intro text p a rest p' h
  obtain ⟨rfl, hall⟩ := hm text p _ _ h
  exact ⟨[], nofun, rfl, fun em => hall ⟨0, em⟩⟩

theorem Scripted.pure (a : α) : Scripted (pure a : Parse ε α) := .of_inert (.pure a)

theorem Scripted.halt (f : Fault) : Scripted (halt f : Parse ε α) := by
  intro text p a rest p' h
  cases h

theorem Scripted.fail (e : ε) : Scripted (fail e : Parse ε α) := .of_inert (.fail e)

/-- The second parser is only asked about what the first one can leave. -/
theorem Follows.bind {m : Parse ε α} {f : α → Parse ε β} {text : List UInt8} (hm : Follows (m text))
    (hf : ∀ p a mid p', m text p = .ok (.ok (a, mid), p') → Follows (f a mid)) :
    Follows ((m >>= f) text) := by
  intro p b rest p' h
  obtain ⟨a, mid, p1, h1, h2⟩ := bind_eq_ok_ok.mp h
  obtain ⟨s1, hshort1, hrun1, hall1⟩ := hm _ _ _ _ h1
  obtain ⟨s2, hshort2, hrun2, hall2⟩ := hf _ _ _ _ h1 _ _ _ _ h2
  refine ⟨s1 ++ s2, fun c hc => ?_, ?_, fun em => ?_⟩
  · rcases List.mem_append.mp hc with hc | hc
    · exact hshort1 c hc
    · exact hshort2 c hc
  · rw [runAll_append, hrun1]
    exact hrun2
  · rw [bind_run, hall1, runAll_append]
    rcases runAll ScriptCall.run em s1 with f | em1
    · rfl
    · exact hall2 em1

theorem Scripted.bind {m : Parse ε α} {f : α → Parse ε β} (hm : Scripted m)
    (hf : ∀ a, Scripted (f a)) : Scripted (m >>= f) := fun text =>
  (hm text).bind fun _ a mid _ _ => hf a mid

theorem Scripted.orFail {ε' : Type} {m : Parse ε' α} (hm : Scripted m) (e : ε) :
    Scripted (orFail m e) := by
  intro text p a rest p' h
  unfold scanner.orFail at h
  rcases hr : m text p with f | ⟨_ | ⟨b, mid⟩, p1⟩ <;> rw [hr] at h <;> cases h
  obtain ⟨script, hshort, hrun, hall⟩ := hm _ _ _ _ _ hr
  refine ⟨script, hshort, hrun, fun em => ?_⟩
  unfold scanner.orFail
  rw [hall]
  rcases runAll ScriptCall.run em script with f | em1
  · rfl
  · rfl

theorem Scripted.measured {m : Parse ε α} (hm : Scripted m) : Scripted (measured m) := by
  intro text p a rest p' h
  unfold scanner.measured at h
  rcases hr : m text p with f | ⟨_ | ⟨b, mid⟩, p1⟩ <;> rw [hr] at h <;> cases h
  obtain ⟨script, hshort, hrun, hall⟩ := hm _ _ _ _ _ hr
  refine ⟨script, hshort, hrun, fun em => ?_⟩
  unfold scanner.measured
  rw [hall]
  rcases runAll ScriptCall.run em script with f | em1
  · rfl
  · rfl

/-- A call of the emitter is a script of one call. -/
theorem Scripted.of_call {m : Parse ε Unit} {c : ScriptCall} (hc : c.Short)
    (hm : ∀ text p, m text p = (c.run p.em).map fun em => (.ok ((), text), { p with em })) :
    Scripted m := by
  intro text p a rest p' h
  rw [hm] at h
  rcases hem : c.run p.em with f | em <;> rw [hem] at h <;> cases h
  refine ⟨[c], by simpa using hc, ?_, fun em' => ?_⟩
  · rw [runAll_cons, hem]
    rfl
  · rw [hm, runAll_cons]
    rcases c.run em' with f | em1
    · rfl
    · rfl

theorem emit.scripted {data : List UInt8} (hd : data.length < BUF_SIZE) :
    Scripted (emit data : Parse ε Unit) := by
  refine .of_call (c := .act (.buffer data)) hd fun text p => ?_
  simp only [emit, call, ScriptCall.run, Write.step]
  rcases emitter_buffer p.em data with f | em
  · rfl
  · rfl

theorem advance.scripted {n : Nat} (hn : n < 2 ^ 32) : Scripted (advance n : Parse ε Unit) := by
  have hsize : (UInt64.ofNat n).toNat = n :=
    UInt64.toNat_ofNat_of_lt (Nat.lt_of_lt_of_le hn (by decide))
  refine .of_call (c := .act (.advance (.ofNat n))) ?_ fun text p => ?_
  · simp only [ScriptCall.Short, hsize]
    exact hn
  · simp only [advance, call, ScriptCall.run, Write.step, hsize]
    rcases emitter_advance p.em n with f | em
    · rfl
    · rfl

theorem switch_section.scripted (s : Sect) : Scripted (switch_section s : Parse ε Unit) :=
  .of_call (c := .choose s) trivial fun _ _ => rfl

/-- A number that was read with an `errno` is read without one. -/
theorem parse_imm.scripted : Scripted parse_imm := by
  intro text p imm rest p' h
  obtain ⟨⟨res, t, errno⟩, hnumber, h⟩ := bind_eq_ok.mp h
  simp only at h
  split at h
  · cases h
  · rename_i hok
    cases h
    refine ⟨[], nofun, rfl, fun em => ?_⟩
    have hzero : strtoll text 0 = .ok (imm, rest, 0) := by
      obtain ⟨number, hread, hnumber⟩ := bind_eq_ok.mp hnumber
      rw [strtoll, hread, ok_bind]
      rcases number with _ | ⟨z, after⟩
      · cases hnumber
        rfl
      · simp only at hnumber ⊢
        -- a number out of range sets `errno`, and is refused
        by_cases hmax : LLONG_MAX < z
        · rw [if_pos hmax] at hnumber
          cases hnumber
          exact absurd (Or.inr ⟨Or.inr (Or.inl rfl), by decide⟩) hok
        · by_cases hmin : z < LLONG_MIN
          · rw [if_neg hmax, if_pos hmin] at hnumber
            cases hnumber
            exact absurd (Or.inr ⟨Or.inr (Or.inr rfl), by decide⟩) hok
          · rw [if_neg hmax, if_neg hmin] at hnumber ⊢
            cases hnumber
            rfl
    have hmoved : ¬ rest = text := fun he => hok (Or.inl he)
    rw [parse_imm, hzero, ok_bind]
    simp [hmoved]
    rfl

/-! ## The loops -/

theorem OnDirectives.scripted : OnDirectives @Scripted where
  toOnRegisters := .of_inert ⟨.pure, .fail, .bind, .orFail⟩ .of_inert
  imm := parse_imm.scripted
  measured := .measured
  emit := emit.scripted
  advance := advance.scripted
  switch := switch_section.scripted

/-- Some bytes, and then the rest. -/
theorem Follows.after_buffer {r : Process → Result (Except ε (α × List UInt8) × Process)}
    (h : Follows r) {data : List UInt8} (hd : data.length < BUF_SIZE) :
    Follows fun p => (do
      let em ← emitter_buffer p.em data
      r { p with em }) := by
  intro p a rest p' hrun
  obtain ⟨em1, hem, hrun⟩ := bind_eq_ok.mp hrun
  obtain ⟨script, hshort, hfollow, hall⟩ := h _ _ _ _ hrun
  refine ⟨.act (.buffer data) :: script, fun c hc => ?_, ?_, fun em => ?_⟩
  · rcases List.mem_cons.mp hc with rfl | hc
    · exact hd
    · exact hshort c hc
  · rw [runAll_cons, ScriptCall.run, Write.step, hem]
    exact hfollow
  · change (emitter_buffer em data >>= fun em => r ⟨0, em⟩) = _
    rw [runAll_cons, ScriptCall.run, Write.step]
    rcases emitter_buffer em data with f | em2
    · rfl
    · exact hall em2

theorem parse_string_loop.scripted : Scripted parse_string_loop
  | [] => nofun
  | c :: text => by
    have hone : ∀ c : UInt8, [c].length < BUF_SIZE := fun c => show 1 < 4096 by decide
    by_cases hquote : c = ch '"'
    · subst hquote
      intro p a rest p' h
      rw [parse_string_loop_quote] at h
      cases h
      exact ⟨[], nofun, rfl, fun em => parse_string_loop_quote text _⟩
    · by_cases hstop : c = 0 ∨ c = ch '\n'
      · intro p a rest p' h
        rw [parse_string_loop_end hstop] at h
        cases h
      · by_cases hescape : c = ch '\\'
        · subst hescape
          rcases text with _ | ⟨e, text⟩
          · nofun
          · rw [funext (parse_string_loop_escape e text)]
            rcases escape e with err | c
            · nofun
            · exact (parse_string_loop.scripted text).after_buffer (hone c)
        · rw [funext (parse_string_loop_plain hquote hstop hescape text)]
          exact (parse_string_loop.scripted text).after_buffer (hone c)

theorem parse_data_loop.scripted {bytes : Nat} (hb : bytes < BUF_SIZE) (k : Nat) (text : List UInt8) :
    Follows (parse_data_loop bytes k text) := by
  rw [parse_data_loop_eq]
  refine (OnDirectives.scripted.data_element hb text).bind fun p more mid p' h => ?_
  have hshort := parse_data_element_shortens h
  cases more with
  | false => exact Scripted.pure _ mid
  | true => exact parse_data_loop.scripted hb (k + bytes) mid
termination_by text.length

theorem parse_directive.scripted (d : directive) : Scripted (parse_directive d) :=
  OnDirectives.scripted.directive parse_string_loop.scripted
    (fun hb => parse_data_loop.scripted hb 0) d

/-! ## Lines -/

theorem parse_op.scripted {o : op} (ho : ¬ (formats o = .B_TYPE ∨ formats o = .J_TYPE)) :
    Scripted (parse_op o) := fun text => by
  refine (OnDirectives.scripted.operands o text).bind fun p x mid p' h => ?_
  obtain ⟨w, rfl⟩ := parse_operands_whole ho h
  exact emit.scripted (by simp [instr_bytes, BUF_SIZE]) mid

/-- A statement that does not name a label. -/
theorem parse_statement_scripted {text mid : List UInt8} {p : Process}
    (h : read_statement text p = .ok (.ok (.other, mid), p)) : Follows (parse_statement text) := by
  refine (Scripted.of_inert parse_word.inert text).bind fun q known after q' hword => ?_
  obtain ⟨known', after', p1, h1, h2⟩ := bind_eq_ok_ok.mp h
  have hsame : known = known' ∧ after = after' := by
    obtain ⟨_, hall⟩ := parse_word.inert _ _ _ _ h1
    rw [hall] at hword
    cases hword
    exact ⟨rfl, rfl⟩
  obtain ⟨rfl, rfl⟩ := hsame
  cases known with
  | none =>
    obtain ⟨lstr, _, _, _, h3⟩ := bind_eq_ok_ok.mp h2
    cases h3
  | some operation =>
    simp only [parse_known] at h2 ⊢
    rcases hv : vocable.ofNumber operation with _ | o | d <;> rw [hv] at h2
    · exact Scripted.halt .assertion after
    · simp only at h2
      by_cases ho : formats o = .B_TYPE ∨ formats o = .J_TYPE
      · rw [if_pos ho] at h2
        obtain ⟨x, _, _, h3, h4⟩ := bind_eq_ok_ok.mp h2
        obtain ⟨assign, instr, key, rfl⟩ := parse_operands_label ho h3
        cases h4
      · exact parse_op.scripted ho after
    · exact parse_directive.scripted d after

/-- A line that neither names nor defines a label. -/
theorem parse_line_scripted {text : List UInt8} (hr : reading text = some .other) :
    Follows (parse_line text) := by
  obtain ⟨start, mid, hread, hline⟩ := parse_line_of_reading hr nofun
  rw [funext hline]
  exact (parse_statement_scripted (hread ⟨0, emitter.fresh 0 0⟩)).bind fun _ _ mid _ _ =>
    Scripted.of_inert out_check_line.inert mid

/-! ## The bytes of a script -/

/-- The section that is current after the call. -/
def ScriptCall.leads (cur : Sect) : ScriptCall → Sect
  | .choose s => s
  | .act _ => cur

/-- The bytes that the call puts into the section `s`. -/
def ScriptCall.lays (cur : Sect) (s : Sect) : ScriptCall → List UInt8
  | .choose _ => []
  | .act w => if s = cur then w.bytes else []

def leads : Sect → List ScriptCall → Sect
  | cur, [] => cur
  | cur, c :: script => leads (c.leads cur) script

def lays : Sect → List ScriptCall → Sect → List UInt8
  | _, [], _ => []
  | cur, c :: script, s => c.lays cur s ++ lays (c.leads cur) script s

/-- The later emitter has the bytes after those of the earlier one. -/
structure Lays (cur : Sect) (bytes : Sect → List UInt8) (em em' : emitter) : Prop where
  current_eq : em'.current_section = cur
  image_eq : ∀ s, (em'.sect s).image = (em.sect s).image ++ bytes s
  swap_eq : ∀ s, (em'.sect s).swap = (em.sect s).swap

variable {vaddr : Sect → Nat} {em em' : emitter}

theorem ScriptCall.writeStep {c : ScriptCall} (hc : c.Short) (h : c.run em = .ok em') :
    WriteStep em em' := by
  rcases c with s | (data | n)
  · cases h
    exact .switch rfl
  · exact .buffer hc h
  · exact .advance hc h

theorem writeSteps_of_script {script : List ScriptCall} (hshort : ∀ c ∈ script, c.Short)
    (h : runAll ScriptCall.run em script = .ok em') : Relation.ReflTransGen WriteStep em em' := by
  induction script generalizing em with
  | nil =>
    cases h
    exact .refl
  | cons c script ih =>
    obtain ⟨em1, h1, h2⟩ := bind_eq_ok.mp h
    exact .head (c.writeStep (hshort c List.mem_cons_self) h1)
      (ih (fun c' hc' => hshort c' (List.mem_cons_of_mem c hc')) h2)

/-- A write with room in the buffer puts its bytes at the end of the section. -/
theorem Write.section_room (w : Write) (hc : ScriptCall.Short (.act w)) (h : em.Sound vaddr)
    (hroom : em.cur.len + w.bytes.length < BUF_SIZE) :
    ∃ x, w.step em = .ok (em.setCur x) ∧ x.image = em.cur.image ++ w.bytes ∧
      x.swap = em.cur.swap := by
  obtain ⟨hok, hend, _⟩ := h em.current_section
  rcases w with data | n
  · have hspec := emitter_buffer_loop.spec em.cur data hok
    have hrun := emitter_buffer_loop_fits em.cur em.cur.len data hroom
    rw [hrun] at hspec
    obtain ⟨_, _, _, hin, _⟩ := hspec
    obtain ⟨hswap, _, himage⟩ := hin hroom
    exact ⟨_, by rw [Write.step, emitter_buffer, hrun, ok_bind], himage, hswap⟩
  · have hroom : em.cur.len + n.toNat < BUF_SIZE := by simpa [Write.bytes] using hroom
    have hn : n.toNat < 2 ^ 63 :=
      Nat.lt_of_lt_of_le (Nat.lt_of_le_of_lt (Nat.le_add_left _ _) hroom) (by decide)
    have hspec := section_advance.spec em.cur n.toNat hok hn
    obtain ⟨x, hx⟩ : ∃ x, section_advance em.cur n.toNat = .ok x := by
      have hsum : machine_int.toU 64 (em.cur.len + n.toNat) = em.cur.len + n.toNat := by
        have hb : BUF_SIZE = 4096 := rfl
        exact_mod_cast machine_int.toU_of_lt (n := em.cur.len + n.toNat) (by omega)
      exact ⟨_, section_advance_fits em.cur n.toNat hsum hroom
        (by rw [List.length_replicate]; exact Nat.le_of_lt hroom)⟩
    rw [hx] at hspec
    obtain ⟨_, _, _, hat, hswap⟩ := hspec
    exact ⟨x, by rw [Write.step, emitter_advance, hx, ok_bind], (hat hend).2, hswap hroom⟩

theorem ScriptCall.run_room {c : ScriptCall} (hc : c.Short) (h : em.Sound vaddr)
    (hroom : ∀ s, (em.sect s).len + (c.lays em.current_section s).length < BUF_SIZE) :
    ∃ em', c.run em = .ok em' ∧
      Lays (c.leads em.current_section) (c.lays em.current_section) em em' := by
  rcases c with s | w
  · exact ⟨_, rfl, rfl, fun _ => (List.append_nil _).symm, fun _ => rfl⟩
  · have hcur := hroom em.current_section
    simp only [ScriptCall.lays, if_true] at hcur
    obtain ⟨x, hrun, himage, hswap⟩ := w.section_room hc h hcur
    refine ⟨_, hrun, rfl, fun s => ?_, fun s => ?_⟩
    · by_cases hs : s = em.current_section
      · subst hs
        simp only [ScriptCall.lays, if_true]
        rw [emitter.setCur, em.set_sect_same]
        exact himage
      · rw [emitter.setCur, em.set_sect_ne _ hs]
        simp [ScriptCall.lays, hs]
    · by_cases hs : s = em.current_section
      · subst hs
        rw [emitter.setCur, em.set_sect_same]
        exact hswap
      · rw [emitter.setCur, em.set_sect_ne _ hs]

theorem Lays.trans {cur cur' : Sect} {bytes bytes' : Sect → List UInt8} {em1 : emitter}
    (h : Lays cur bytes em em1) (h' : Lays cur' bytes' em1 em') :
    Lays cur' (fun s => bytes s ++ bytes' s) em em' :=
  ⟨h'.current_eq, fun s => by rw [h'.image_eq, h.image_eq, List.append_assoc],
    fun s => (h'.swap_eq s).trans (h.swap_eq s)⟩

/-- The bytes that were put into a section are counted. -/
theorem Lays.len_eq {cur : Sect} {bytes : Sect → List UInt8} (h : Lays cur bytes em em')
    (hem : em.Sound vaddr) (hem' : em'.Sound vaddr) (s : Sect) :
    (em'.sect s).len = (em.sect s).len + (bytes s).length := by
  have hlen := (hem s).1.length_image
  have hlen' := (hem' s).1.length_image
  have hpos := (hem s).1.pos_eq
  have hpos' := (hem' s).1.pos_eq
  rw [h.image_eq, List.length_append] at hlen'
  rw [h.swap_eq] at hpos'
  omega

/-- In sections with room for its bytes a script succeeds. -/
theorem run_script_room {script : List ScriptCall} (hshort : ∀ c ∈ script, c.Short)
    (h : em.Sound vaddr)
    (hroom : ∀ s, (em.sect s).len + (lays em.current_section script s).length < BUF_SIZE) :
    ∃ em', runAll ScriptCall.run em script = .ok em' ∧
      Lays (leads em.current_section script) (lays em.current_section script) em em' := by
  induction script generalizing em with
  | nil => exact ⟨em, rfl, rfl, fun _ => (List.append_nil _).symm, fun _ => rfl⟩
  | cons c script ih =>
    have hc := hshort c List.mem_cons_self
    have hfirst : ∀ s, (em.sect s).len + (c.lays em.current_section s).length < BUF_SIZE := by
      intro s
      have := hroom s
      simp only [lays, List.length_append] at this
      omega
    obtain ⟨em1, hrun, hlays⟩ := c.run_room hc h hfirst
    have h1 := (c.writeStep hc hrun).sound h
    have hrest : ∀ s, (em1.sect s).len + (lays em1.current_section script s).length < BUF_SIZE := by
      intro s
      have := hroom s
      simp only [lays, List.length_append] at this
      rw [hlays.len_eq h h1, hlays.current_eq]
      omega
    obtain ⟨em', hrun', hlays'⟩ := ih (fun c' hc' => hshort c' (List.mem_cons_of_mem c hc')) h1 hrest
    rw [hlays.current_eq] at hlays'
    refine ⟨em', ?_, hlays.trans hlays'⟩
    rw [runAll_cons, hrun]
    exact hrun'

/-- A call that leaves small sections had room for its bytes. -/
theorem ScriptCall.room_of_small {c : ScriptCall} (hc : c.Short) (h : em.Sound vaddr)
    (hrun : c.run em = .ok em') (hs : em'.Small) (s : Sect) :
    (em.sect s).len + (c.lays em.current_section s).length < BUF_SIZE := by
  have hsmall := ((c.writeStep hc hrun).small h hs).1
  obtain ⟨hok, _, _⟩ := h s
  have hlt := hok.len_lt
  rcases c with s' | w
  · simpa [ScriptCall.lays] using hlt
  · by_cases hcur : s = em.current_section
    · subst hcur
      simp only [ScriptCall.lays, if_true]
      have hlen := (hsmall em.current_section).1.len_eq hok
      have hpos := (hs em.current_section).1.pos_lt
      rcases w with data | n
      · have hend := (emitter_buffer_small hc h hrun hs).2.1
        rw [emitter.cur] at hend
        rw [hlen]
        change _ + data.length < BUF_SIZE
        omega
      · obtain ⟨x, hx, hrun⟩ := bind_eq_ok.mp hrun
        cases hrun
        have hn : n.toNat < 2 ^ 63 := Nat.lt_of_lt_of_le hc (by decide)
        have hspec := section_advance.spec em.cur n.toNat hok hn
        rw [hx] at hspec
        obtain ⟨_, _, hend, _⟩ := hspec
        rw [emitter.setCur, em.set_sect_same, hend, emitter.cur] at hpos
        rw [hlen]
        simpa [Write.bytes] using hpos
    · simpa [ScriptCall.lays, hcur] using hlt

/-- What a script does when both sections stay small. -/
theorem run_script_small {script : List ScriptCall} (hshort : ∀ c ∈ script, c.Short)
    (h : em.Sound vaddr) (hrun : runAll ScriptCall.run em script = .ok em') (hs : em'.Small) :
    (∀ s, (em.sect s).len + (lays em.current_section script s).length < BUF_SIZE) ∧
      Lays (leads em.current_section script) (lays em.current_section script) em em' := by
  have hroom : ∀ s, (em.sect s).len + (lays em.current_section script s).length < BUF_SIZE := by
    induction script generalizing em with
    | nil =>
      intro s
      exact (h s).1.len_lt
    | cons c script ih =>
      have hc := hshort c List.mem_cons_self
      have hshort' : ∀ c' ∈ script, c'.Short := fun c' hc' => hshort c' (List.mem_cons_of_mem c hc')
      obtain ⟨em1, h1, h2⟩ := bind_eq_ok.mp hrun
      have hsound1 := (c.writeStep hc h1).sound h
      have hsmall1 := (writes_small (writeSteps_of_script hshort' h2) hsound1 hs).1
      have hfirst := c.room_of_small hc h h1 hsmall1
      obtain ⟨em2, h1', hlays⟩ := c.run_room hc h hfirst
      obtain rfl : em1 = em2 := Except.ok.inj (h1.symm.trans h1')
      intro s
      have hrest := ih hshort' hsound1 h2 s
      rw [hlays.len_eq h hsound1, hlays.current_eq] at hrest
      simp only [lays, List.length_append]
      omega
  obtain ⟨em2, hrun', hlays⟩ := run_script_room hshort h hroom
  obtain rfl : em' = em2 := Except.ok.inj (hrun.symm.trans hrun')
  exact ⟨hroom, hlays⟩

end riscv_assembler
