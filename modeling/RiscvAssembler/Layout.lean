-- Where the bytes of the sections are when the output file is loaded, against the
-- addresses that labels and displacements are made of: the text is loaded behind
-- the headers, the data is not.
import RiscvAssembler.EntryPoint
import RiscvAssembler.References

open checked machine_int c_text

namespace riscv_assembler

variable {p q : Process} {texts : List (List UInt8)} {key : string} {r : Ref}

/-! ## Loaded sections -/

/-- The program header of the section. -/
def output_phdr (em : emitter) : Sect → Elf64_Phdr
  | .SECT_TEXT => (output_header em).text
  | .SECT_DATA => (output_header em).data

/-- The position of the section's first byte in the file: after the headers, or
where `emitter_output_elf` seeks to. -/
def file_start (em : emitter) : Sect → Nat
  | .SECT_TEXT => output_after em
  | .SECT_DATA => (output_header em).data.p_offset

/-- The section has a program header. -/
def HasSegment (em : emitter) : Sect → Prop
  | .SECT_TEXT => True
  | .SECT_DATA => 0 < em.data.pos

/-- The address of the byte at offset `k` when the file is loaded. -/
def runtime_addr (em : emitter) (s : Sect) (k : Nat) : Int :=
  (output_phdr em s).p_vaddr + (file_start em s + k - (output_phdr em s).p_offset)

/-- How far behind its address the section is loaded. -/
def load_shift (em : emitter) : Sect → Nat
  | .SECT_TEXT => output_after em
  | .SECT_DATA => 0

theorem runtime_addr_eq {em : emitter} {s : Sect} (h : HasSegment em s) (k : Nat) :
    runtime_addr em s k = (em.sect s).vaddr + load_shift em s + k := by
  cases s with
  | SECT_TEXT =>
    simp only [runtime_addr, output_phdr, file_start, load_shift, output_header, text_phdr,
      emitter.text]
    omega
  | SECT_DATA =>
    have hdata : (output_header em).data.p_vaddr = em.data.vaddr := by
      have hpos : 0 < em.data.pos := h
      simp only [output_header, data_phdr, if_pos hpos]
    simp only [runtime_addr, output_phdr, file_start, load_shift, hdata, emitter.data]
    omega

/-- The sections are not shifted alike. -/
theorem load_shift_eq_iff (em : emitter) (s t : Sect) : load_shift em s = load_shift em t ↔ s = t := by
  have := (output_after_le em).1
  cases s <;> cases t <;> simp only [load_shift, reduceCtorEq, iff_false] <;> omega

/-! ## References of a run -/

/-- A displacement in the range of its format is the one that is packed. -/
theorem displacement_of_takes {em : emitter} {r : Ref} (hv : (em.sect r.sect).vaddr = r.vaddr)
    {a : Int} (hfit : r.assign.Takes (r.displacement a)) :
    r.waiter.displacement em (toS 64 a) = r.displacement a := by
  obtain ⟨_, hlo, hhi⟩ := hfit
  have hbits : r.assign.bits - 1 ≤ 20 := by cases r.assign <;> decide
  have hpow : (2 : Int) ^ (r.assign.bits - 1) ≤ 2 ^ 20 := by
    exact_mod_cast Nat.pow_le_pow_right (by decide) hbits
  have hsplit : a - (toS 64 r.off + r.vaddr) = a - r.vaddr - toS 64 r.off := by omega
  have hjoin : a - r.vaddr - r.off = r.displacement a := by
    unfold Ref.displacement
    omega
  unfold label_waiter.displacement Ref.waiter
  simp only
  rw [hv, toS_toS_sub, hsplit, toS_sub_toS, hjoin]
  exact toS_of_fits (w := 63) (by omega) (by omega)

section Fresh

variable {errno : Int} {text_vaddr data_vaddr : Nat}

/-- An address in the table is that of the definition. -/
theorem value_of_definition (h : Assembles (.fresh errno text_vaddr data_vaddr) texts p) {j k : Nat}
    {s : Sect} (hd : DefinesIn (.fresh errno text_vaddr data_vaddr) texts j key s k) {v : Int}
    (hv : p.em.value key = some v) (hpos : 0 ≤ v) :
    v = toS 64 ((p.em.sect s).vaddr + k : Nat) := by
  obtain ⟨text, q, ht, hq, hdef, rfl, rfl⟩ := hd
  obtain ⟨rest, q1, hline, hrun⟩ := line_of_run h ht hq
  have hvalue := parse_line_value hline key
  rw [hdef, Option.bind_some, valueFor_define_same] at hvalue
  rcases hbefore : q.em.value key with _ | v0
  · rw [hbefore, Option.none_or] at hvalue
    have hsame := hrun.calls.value_some hvalue
    rw [hv] at hsame
    have hcomm : ((q.em.sect q.em.current_section).vaddr + q.em.cur.pos : Nat) =
        ((q.em.cur.pos : Int) + q.em.cur.vaddr) := by
      unfold emitter.cur
      push_cast
      omega
    rw [Option.some.inj hsame, ← h.vaddr_eq hq, hcomm]
    rfl
  · rw [hbefore, Option.some_or] at hvalue
    have hsame := hrun.calls.value_some hvalue
    rw [hv] at hsame
    cases hsame
    rw [rejected_of_value hdef hbefore hpos] at hline
    cases hline

end Fresh

/-! ## Displacements against the layout -/

/-- The word of the instruction is in its section after the line that resolves it, and
its displacement in the end leads to the label where both are loaded. -/
structure LeadsTo (q1 p : Process) (r : Ref) (s : Sect) (k : Nat) : Prop where
  inside : r.off + 4 ≤ (q1.em.sect r.sect).pos
  leads : r.assign.immOf (p.em.wordOf r.sect r.off) =
    runtime_addr p.em s k - runtime_addr p.em r.sect r.off

/-- The label is in the section of the instruction, and the bits `x` bring none into the
immediate that is not one of the displacement; or it is in the other section, and
they happen to make up for the headers. -/
def MakesUp (em : emitter) (r : Ref) (s : Sect) (d : Int) (x : BitVec 32) : Prop :=
  (r.sect = s ∧ r.assign.Within d x) ∨
    (r.sect ≠ s ∧ r.assign.Takes (d + load_shift em s - load_shift em r.sect) ∧
      r.assign.Turns d (d + load_shift em s - load_shift em r.sect) x)

theorem makesUp_iff {em : emitter} {s : Sect} {d : Int} {x : BitVec 32} (hd : r.assign.Takes d) :
    r.assign.Takes (d + load_shift em s - load_shift em r.sect) ∧
        r.assign.Turns d (d + load_shift em s - load_shift em r.sect) x ↔ MakesUp em r s d x := by
  unfold MakesUp
  by_cases hs : r.sect = s
  · have hsame : d + load_shift em s - load_shift em r.sect = d := by
      rw [hs]
      omega
    rw [hsame, turns_same_iff, and_iff_right hd, and_iff_right hs]
    exact (or_iff_left fun hc => hc.1 hs).symm
  · rw [and_iff_right hs]
    exact (or_iff_right fun hc => hs hc.1).symm

/-- Without other bits a displacement leads to its label exactly in its own section. -/
theorem makesUp_zero_iff {em : emitter} {s : Sect} {d : Int} (hd : r.assign.Takes d) :
    MakesUp em r s d 0 ↔ r.sect = s := by
  have hzero : ∀ d', r.assign.Turns d d' 0 ↔ r.assign.packed d = r.assign.packed d' := by
    intro d'
    rw [assign_type.Turns, BitVec.ofNat_eq_ofNat, BitVec.zero_and, BitVec.zero_or]
  rw [← makesUp_iff hd, hzero, ← load_shift_eq_iff em]
  constructor
  · rintro ⟨htakes, hsame⟩
    have hread := congrArg r.assign.immOf hsame
    rw [immOf_packed hd, immOf_packed htakes] at hread
    omega
  · intro hshift
    have hsame : d + load_shift em s - load_shift em r.sect = d := by omega
    rw [hsame]
    exact ⟨hd, rfl⟩

section Fresh

variable {errno : Int} {text_vaddr data_vaddr : Nat}

theorem RefersAt.line (h : Assembles (.fresh errno text_vaddr data_vaddr) texts p) {i : Nat}
    (hr : RefersAt (.fresh errno text_vaddr data_vaddr) texts i key r)
    (hq : Assembles (.fresh errno text_vaddr data_vaddr) (texts.take i) q) :
    ∃ text, texts[i]? = some text ∧ reading text = some (.refer r.assign r.instr key) ∧
      r.waiter = q.em.waiter r.assign ∧ r.waiter.off = r.off ∧
      r.vaddr = (p.em.sect r.sect).vaddr := by
  obtain ⟨text, q', assign, instr, ht, hq', hname, rfl⟩ := hr
  obtain rfl := hq.unique hq'
  exact ⟨text, ht, hname, rfl, emitter.waiter_off hq.sound assign, h.vaddr_eq hq _⟩

/-- The line between two states of a run. -/
theorem line_to {first q1 : Process} (h : Assembles first texts p) {i : Nat} {text : List UInt8}
    (ht : texts[i]? = some text) (hq : Assembles first (texts.take i) q)
    (hq1 : Assembles first (texts.take (i + 1)) q1) :
    ∃ rest, parse_line text q = .ok (.ok ((), rest), q1) ∧
      Assembles q1 (texts.drop (i + 1)) p := by
  obtain ⟨rest, q2, hline, hrun⟩ := line_of_run h ht hq
  have hnext : Assembles first (texts.take (i + 1)) q2 := by
    rw [List.take_add_one, ht]
    exact assembles_append.mpr ⟨q, hq, assembles_cons.mpr ⟨rest, q2, hline, assembles_nil.mpr rfl⟩⟩
  obtain rfl := hq1.unique hnext
  exact ⟨rest, hline, hrun⟩

/-- The way to the label where both are loaded is the displacement and what the headers
add to it. -/
theorem leadsTo_iff {q1 : Process} {s : Sect} {k : Nat} (hv : r.vaddr = (p.em.sect r.sect).vaddr)
    (hinstr : HasSegment p.em r.sect) (hlabel : HasSegment p.em s) :
    LeadsTo q1 p r s k ↔ r.off + 4 ≤ (q1.em.sect r.sect).pos ∧
      r.assign.immOf (p.em.wordOf r.sect r.off) =
        r.displacement ((p.em.sect s).vaddr + k : Nat) + load_shift p.em s -
          load_shift p.em r.sect := by
  have hway : runtime_addr p.em s k - runtime_addr p.em r.sect r.off =
      r.displacement ((p.em.sect s).vaddr + k : Nat) + load_shift p.em s -
        load_shift p.em r.sect := by
    rw [runtime_addr_eq hinstr, runtime_addr_eq hlabel]
    unfold Ref.displacement
    omega
  rw [← hway]
  exact ⟨fun hl => ⟨hl.inside, hl.leads⟩, fun hl => ⟨hl.1, hl.2⟩⟩

/-- The displacement of a reference in range leads to its label exactly when the label is
in the section of the instruction, the word is not cut at the end of the buffer and no
other bits come in, or when other bits make up for the headers. -/
theorem a_displacement_leads_to_its_label_iff_in_its_section (errno : Int)
    (text_vaddr data_vaddr : Nat) (texts : List (List UInt8)) (p : Process)
    (h : Assembles (.fresh errno text_vaddr data_vaddr) texts p) (i j : Nat) (key : string)
    (r : Ref) (s : Sect) (k : Nat)
    (hr : RefersAt (.fresh errno text_vaddr data_vaddr) texts i key r)
    (hd : DefinesIn (.fresh errno text_vaddr data_vaddr) texts j key s k)
    (hfit : r.assign.Takes (r.displacement ((p.em.sect s).vaddr + k : Nat)))
    (hinstr : HasSegment p.em r.sect) (hlabel : HasSegment p.em s) (q q1 : Process) :
    (j < i → Assembles (.fresh errno text_vaddr data_vaddr) (texts.take i) q →
      Assembles (.fresh errno text_vaddr data_vaddr) (texts.take (i + 1)) q1 →
      q.em.knows key = true →
      (LeadsTo q1 p r s k ↔ q.em.cur.len + 4 < BUF_SIZE ∧
        MakesUp p.em r s (r.displacement ((p.em.sect s).vaddr + k : Nat))
          (patchedWord r.sect r.off 0 (patches q1 (texts.drop (i + 1)))))) ∧
    (i < j → Assembles (.fresh errno text_vaddr data_vaddr) (texts.take j) q →
      Assembles (.fresh errno text_vaddr data_vaddr) (texts.take (j + 1)) q1 →
      r.waiter ∈ q.em.waiting key →
      (LeadsTo q1 p r s k ↔ MakesUp p.em r s (r.displacement ((p.em.sect s).vaddr + k : Nat))
        (patchedWord r.sect r.off (q.em.wordOf r.sect r.off) (patches q (texts.drop j))))) := by
  constructor
  · intro hji hq hq1 hknows
    obtain ⟨text, ht, hname, hw, hoff, hvaddr⟩ := hr.line h hq
    obtain ⟨rest, hline, hrun⟩ := line_to h ht hq hq1
    obtain ⟨v, hv, hv0⟩ := (Option.any_eq_true _ _).mp hknows
    have hpos : 0 ≤ v := of_decide_eq_true hv0
    obtain ⟨text', qj, htj, hqj, hdef, hs, hk⟩ := hd
    obtain ⟨htj', htake⟩ := take_of_lt hji htj
    have hval := value_of_definition hq ⟨text', qj, htj', htake.symm ▸ hqj, hdef, hs, hk⟩ hv hpos
    have hdisp : r.waiter.displacement q.em v = r.displacement ((p.em.sect s).vaddr + k : Nat) := by
      rw [hval, h.vaddr_eq hq]
      exact displacement_of_takes ((h.vaddr_eq hq _).trans hvaddr.symm) hfit
    have hinside := (reference_at_once hq.sound hline hname hw hv hpos).1
    have hread := read_at_once_iff hq.sound hline hrun.calls hname hw hv hpos
    rw [hoff] at hinside hread
    rw [hdisp] at hread
    rw [leadsTo_iff hvaddr hinstr hlabel]
    exact (and_congr_left' hinside).trans (and_congr_right fun hroom =>
      (hread hroom _).trans (makesUp_iff hfit))
  · intro hij hq hq1 hmem
    obtain ⟨qi, hqi⟩ := h.before i
    obtain ⟨_, _, _, _, hoff, hvaddr⟩ := hr.line h hqi
    obtain ⟨text, qj, htj, hqj, hdef, rfl, rfl⟩ := hd
    obtain rfl := hq.unique hqj
    obtain ⟨rest, hline, hrun⟩ := line_to h htj hq hq1
    have hdrop : texts.drop j = text :: texts.drop (j + 1) := by
      obtain ⟨hj, rfl⟩ := List.getElem?_eq_some_iff.mp htj
      exact List.drop_eq_getElem_cons hj
    have haddr : q.em.addr =
        toS 64 ((p.em.sect q.em.current_section).vaddr + q.em.cur.pos : Nat) := by
      rw [← h.vaddr_eq hq, Nat.add_comm]
      rfl
    have hdisp : r.waiter.displacement q.em q.em.addr =
        r.displacement ((p.em.sect q.em.current_section).vaddr + q.em.cur.pos : Nat) := by
      rw [haddr]
      exact displacement_of_takes ((h.vaddr_eq hq _).trans hvaddr.symm) hfit
    obtain ⟨hin, hpos, _⟩ := resolved_later hq.sound hline hdef hmem (texts.drop (j + 1))
    have hread := read_later_iff hq.sound hline hrun.calls hdef hmem
    rw [hoff] at hin hread
    rw [hdisp] at hread
    rw [leadsTo_iff hvaddr hinstr hlabel, hdrop, and_iff_right (hpos ▸ hin)]
    exact (hread _).trans (makesUp_iff hfit)

end Fresh

/-- A jump from the text to a label in the data, both in the range of a jump: it
goes as far as the addresses say, and the headers are missing. -/
theorem a_jump_to_the_data_misses_its_label :
    ¬ ∀ (errno : Int) (text_vaddr data_vaddr : Nat) (texts : List (List UInt8)) (p : Process),
      Assembles (.fresh errno text_vaddr data_vaddr) texts p →
      ∀ (i j : Nat) (key : string) (r : Ref) (s : Sect) (k : Nat),
      RefersAt (.fresh errno text_vaddr data_vaddr) texts i key r →
      DefinesIn (.fresh errno text_vaddr data_vaddr) texts j key s k →
      r.assign.Takes (r.displacement ((p.em.sect s).vaddr + k : Nat)) →
      HasSegment p.em r.sect → HasSegment p.em s → ∀ q q1 : Process,
      (j < i → Assembles (.fresh errno text_vaddr data_vaddr) (texts.take i) q →
        Assembles (.fresh errno text_vaddr data_vaddr) (texts.take (i + 1)) q1 →
        q.em.knows key = true → LeadsTo q1 p r s k) ∧
      (i < j → Assembles (.fresh errno text_vaddr data_vaddr) (texts.take j) q →
        Assembles (.fresh errno text_vaddr data_vaddr) (texts.take (j + 1)) q1 →
        r.waiter ∈ q.em.waiting key → LeadsTo q1 p r s k) := by
  intro hall
  let first : Process := .fresh 0 0x400000 0x401000
  let texts := linesOf [".data", "L:", ".byte 1", ".text", "jal x0, L"]
  let jump : Ref := ⟨.ASSIGN_JTYPE, 0x6f, .SECT_TEXT, 0, 0x400000⟩
  have hruns : (Reaches first texts fun p => 0 < p.em.data.pos ∧
        runtime_addr p.em .SECT_DATA 0 = 0x401000 ∧ runtime_addr p.em .SECT_TEXT 0 = 0x4000b0 ∧
        (p.em.sect .SECT_DATA).vaddr = 0x401000 ∧
        jump.assign.immOf (p.em.wordOf .SECT_TEXT 0) = 0x1000) ∧
      (Reaches first (texts.take 4) fun q => q.em.ref .ASSIGN_JTYPE 0x6f = jump ∧
        q.em.knows (chars "L") = true) ∧
      (Reaches first (texts.take 1) fun q => q.em.current_section = .SECT_DATA ∧
        q.em.cur.pos = 0) ∧
      reading (alone (chars "jal x0, L")) = some (.refer .ASSIGN_JTYPE 0x6f (chars "L")) ∧
      reading (alone (chars "L:")) = some (.define (chars "L")) := by decide +kernel
  obtain ⟨⟨p, h, hdata, hlabel, hinstr, hvaddr, himm⟩, ⟨q, hq, href, hknows⟩,
    ⟨qj, hqj, hsect, hpos⟩, hname, hdef⟩ := hruns
  obtain ⟨q1, hq1⟩ := h.before (4 + 1)
  have hleads := (hall 0 0x400000 0x401000 texts p h 4 1 (chars "L") jump .SECT_DATA 0
    ⟨_, q, _, _, rfl, hq, hname, href.symm⟩ ⟨_, qj, rfl, hqj, hdef, hsect, hpos.symm⟩
    (by rw [hvaddr]; decide) trivial hdata q q1).1 (by decide) hq hq1 hknows
  have hway := hleads.leads
  rw [himm, hlabel, hinstr] at hway
  exact absurd hway (by decide)

theorem a_branch_in_the_text_leads_to_its_label :
    let texts := linesOf ["beq x1, x2, L", "L:"]
    let branch : Ref := ⟨.ASSIGN_BTYPE, 0x208063, .SECT_TEXT, 0, 0x400000⟩
    ∃ p q q1, Assembles (.fresh 0 0x400000 0x10010000) texts p ∧
      (LeadsTo q1 p branch .SECT_TEXT 4 ↔ MakesUp p.em branch .SECT_TEXT
        (branch.displacement ((p.em.sect .SECT_TEXT).vaddr + 4 : Nat))
        (patchedWord .SECT_TEXT 0 (q.em.wordOf .SECT_TEXT 0) (patches q (texts.drop 1)))) := by
  intro texts branch
  let first : Process := .fresh 0 0x400000 0x10010000
  have hruns : (Reaches first texts fun p => (p.em.sect .SECT_TEXT).vaddr = 0x400000) ∧
      (Reaches first (texts.take 0) fun q => q.em.ref .ASSIGN_BTYPE 0x208063 = branch) ∧
      (Reaches first (texts.take 1) fun q => branch.waiter ∈ q.em.waiting (chars "L") ∧
        q.em.current_section = .SECT_TEXT ∧ q.em.cur.pos = 4) ∧
      reading (alone (chars "beq x1, x2, L")) = some (.refer .ASSIGN_BTYPE 0x208063 (chars "L")) ∧
      reading (alone (chars "L:")) = some (.define (chars "L")) := by decide +kernel
  obtain ⟨⟨p, h, hvaddr⟩, ⟨q0, hq0, href⟩, ⟨q, hq, hmem, hsect, hpos⟩, hname, hdef⟩ := hruns
  obtain ⟨q1, hq1⟩ := h.before (1 + 1)
  exact ⟨p, q, q1, h, (a_displacement_leads_to_its_label_iff_in_its_section 0 0x400000 0x10010000
    texts p h 0 1 (chars "L") branch .SECT_TEXT 4 ⟨_, q0, _, _, rfl, hq0, hname, href.symm⟩
    ⟨_, q, rfl, hq, hdef, hsect, hpos.symm⟩ (by rw [hvaddr]; decide) trivial trivial q q1).2
    (by decide) hq hq1 hmem⟩

end riscv_assembler
