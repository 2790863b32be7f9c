-- The final word of a reference to a label, from any state of the emitter: the
-- processor reads the displacement of the label in it exactly when the displacement
-- fits the format and no other bits come in. Nothing checks that it fits.
import RiscvAssembler.FinalWords
import RiscvAssembler.Resolution

open checked machine_int c_text

namespace riscv_assembler

variable {vaddr : Sect → Nat} {em : emitter} {p q q1 : Process} {text rest : List UInt8}
  {texts : List (List UInt8)} {key : string} {assign : assign_type} {instr : BitVec 32}
  {w : label_waiter} {v : Int}

/-! ## A label with an address -/

/-- Numbers that are the same up to multiples of 2^64 have the same low bits. -/
theorem ofInt_toS_add (x y : Int) (n : Nat) :
    BitVec.ofInt 32 (x - (toS 64 n + y)) = BitVec.ofInt 32 (x - (n + y)) := by
  have hlow : ∀ z : Int,
      BitVec.ofInt 32 (x - (z + y)) = BitVec.ofInt 32 (x - y) + -BitVec.ofInt 32 z := by
    intro z
    have hsplit : x - (z + y) = (x - y) + -z := by omega
    rw [hsplit, BitVec.ofInt_add, BitVec.ofInt_neg]
  rw [hlow, hlow, ofInt_toS_of_le (show 32 ≤ 64 by decide)]

/-- `parse_line` and `emitter_label_add` pack the same displacement. -/
theorem emitter_reference_known {e : label} (hl : em.labels.lookup key = some e) (hv : 0 ≤ e.val) :
    emitter_reference em assign instr key =
      .ok (instr ||| assign.packed ((em.waiter assign).displacement em e.val), em) := by
  have hlow : BitVec.ofInt 32 (e.val - em.cur.vaddr - em.cur.pos) =
      BitVec.ofInt 32 (e.val - (em.cur.pos + em.cur.vaddr)) := by
    congr 1
    omega
  unfold emitter_reference assign_type.packed label_waiter.displacement
  rw [label_get_defined assign hl hv]
  simp only [ok_bind, if_neg (Int.not_lt.mpr hv)]
  rw [set_imm_or, ofInt_toS_of_le (show 32 ≤ 64 by decide),
    ofInt_toS_sub_of_le (show 32 ≤ 64 by decide), hlow, ofInt_toS_of_le (show 32 ≤ 64 by decide),
    em.waiter_fix_idx, ofInt_toS_add]
  rfl

/-- The offset of the instruction that comes next. -/
theorem emitter.waiter_off (h : em.Sound vaddr) (assign : assign_type) :
    (em.waiter assign).off = em.cur.pos := by
  have hb : BUF_SIZE = 4096 := rfl
  have hpos : em.cur.pos < 2 ^ 63 + BUF_SIZE := (h em.current_section).1.pos_lt
  have hsum := toU_add_toS 64 0 em.cur.pos
  rw [Int.zero_add, Int.zero_add] at hsum
  unfold label_waiter.off
  rw [em.waiter_fix_idx, hsum]
  exact toU_of_lt (by omega)

/-- A write is in its section when it does not reach the end of the buffer. -/
theorem emitter_buffer_word {em' : emitter} (h : em.Sound vaddr) {word : BitVec 32}
    (hrun : emitter_buffer em (instr_bytes word) = .ok em') :
    (em.cur.pos + 4 ≤ (em'.sect em.current_section).pos ↔ em.cur.len + 4 < BUF_SIZE) ∧
      (em.cur.len + 4 < BUF_SIZE → em'.wordOf em.current_section em.cur.pos = word) := by
  have hok : em.cur.Ok := (h em.current_section).1
  obtain ⟨x, hx, hrun⟩ := bind_eq_ok.mp hrun
  cases hrun
  obtain ⟨_, _, _, hin, hout⟩ := (emitter_buffer_loop.spec em.cur (instr_bytes word) hok).of_ok hx
  rw [length_instr_bytes] at hin hout
  have hsect : (em.setCur x).sect em.current_section = x := em.set_sect_same _ x
  constructor
  · rw [hsect]
    constructor
    · intro hpos
      by_contra hfull
      have := hout (by omega)
      omega
    · intro hfit
      have := (hin hfit).2.1
      omega
  · intro hfit
    obtain ⟨_, _, himage⟩ := hin hfit
    unfold emitter.wordOf
    rw [hsect, himage, List.drop_left' hok.length_image]
    have htake : (instr_bytes word).take 4 = instr_bytes word :=
      List.take_of_length_le (Nat.le_of_eq (length_instr_bytes word))
    rw [htake, instr_of_instr_bytes]

/-- The word of a reference to a label that has an address, after the line. -/
theorem reference_at_once (h : q.em.Sound vaddr)
    (hline : parse_line text q = .ok (.ok ((), rest), q1))
    (hname : reading text = some (.refer w.assign instr key)) (hw : w = q.em.waiter w.assign)
    (hv : q.em.value key = some v) (hpos : 0 ≤ v) :
    (w.off + 4 ≤ (q1.em.sect w.sect).pos ↔ q.em.cur.len + 4 < BUF_SIZE) ∧
      (q.em.cur.len + 4 < BUF_SIZE →
        q1.em.wordOf w.sect w.off = instr ||| w.assign.packed (w.displacement q.em v)) := by
  obtain ⟨rd, hrd, hdoes⟩ := parse_line_does hline
  rw [hname] at hrd
  cases hrd
  obtain ⟨e, hl, rfl⟩ : ∃ e, q.em.labels.lookup key = some e ∧ e.val = v :=
    Option.map_eq_some_iff.mp hv
  obtain ⟨⟨word, em⟩, hword, hbuffer⟩ := bind_eq_ok.mp hdoes
  rw [emitter_reference_known hl hpos, ← hw] at hword
  cases hword
  have hoff : w.off = q.em.cur.pos := by
    rw [hw]
    exact emitter.waiter_off h _
  have hsect : w.sect = q.em.current_section := by
    rw [hw]
    rfl
  rw [hoff, hsect]
  exact emitter_buffer_word h hbuffer

/-! ## A label that is defined later -/

/-- A waiter of a label that the line defines lies in its section, and its patch is one
of the line. -/
theorem resolved_later (h : q.em.Sound vaddr)
    (hline : parse_line text q = .ok (.ok ((), rest), q1))
    (hdef : reading text = some (.define key)) (hw : w ∈ q.em.waiting key)
    (texts : List (List UInt8)) :
    w.off + 4 ≤ (q.em.sect w.sect).pos ∧ (q1.em.sect w.sect).pos = (q.em.sect w.sect).pos ∧
      w.patch q.em q.em.addr ∈ patches q (text :: texts) := by
  obtain ⟨rd, hrd, hdoes⟩ := parse_line_does hline
  rw [hdef] at hrd
  cases hrd
  have hadd : emitter_label_add q.em key = .ok (0, q1.em) := hdoes
  refine ⟨?_, ?_, ?_⟩
  · obtain ⟨em1, hall, _⟩ := label_add_resolves hadd
    exact resolve_all_inside h hall w hw
  · obtain ⟨buf, he⟩ := (label_add_only_buffers hadd).2 w.sect
    rw [he]
  · rw [patches_cons (parse_call_ok.mpr ⟨_, hline⟩), hdef,
      effect_define (knows_of_label_add hadd)]
    exact List.mem_append_left _ (List.mem_map_of_mem hw)

/-! ## The final word -/

theorem parse_line_sound {r : Except String (Unit × List UInt8)}
    (hline : parse_line text q = .ok (r, q1)) (h : q.em.Sound vaddr) : q1.em.Sound vaddr :=
  (parse_call_does (parse_call_ok.mpr ⟨r, hline⟩)).sound h

/-- What is read in the end where a label with an address was named. -/
theorem read_at_once_iff (h : q.em.Sound vaddr)
    (hline : parse_line text q = .ok (.ok ((), rest), q1)) (hrun : Calls q1 texts p)
    (hname : reading text = some (.refer w.assign instr key)) (hw : w = q.em.waiter w.assign)
    (hv : q.em.value key = some v) (hpos : 0 ≤ v) (hfit : q.em.cur.len + 4 < BUF_SIZE) (d : Int) :
    w.assign.immOf (p.em.wordOf w.sect w.off) = d ↔ w.assign.Takes d ∧
      w.assign.Turns (w.displacement q.em v) d (patchedWord w.sect w.off 0 (patches q1 texts)) := by
  obtain ⟨hinside, hword⟩ := reference_at_once h hline hname hw hv hpos
  have hsound := parse_line_sound hline h
  have hfinal : p.em.wordOf w.sect w.off =
      instr ||| patchedWord w.sect w.off 0 (patches q1 texts) |||
        w.assign.packed (w.displacement q.em v) := by
    have hzero := patchedWord_or w.sect w.off (instr ||| w.assign.packed (w.displacement q.em v)) 0
      (patches q1 texts)
    rw [hrun.wordOf hsound (hinside.mpr hfit), hword hfit, ← BitVec.or_zero (x := _ ||| _)]
    refine hzero.trans ?_
    rw [BitVec.or_assoc, BitVec.or_assoc, BitVec.or_comm (w.assign.packed _)]
  rw [hfinal, immOf_or_packed_iff, turns_or_of_zero (immOf_of_reading hname)]

/-- What is read in the end where the line resolves a waiter. -/
theorem read_later_iff (h : q.em.Sound vaddr)
    (hline : parse_line text q = .ok (.ok ((), rest), q1)) (hrun : Calls q1 texts p)
    (hdef : reading text = some (.define key)) (hw : w ∈ q.em.waiting key) (d : Int) :
    w.assign.immOf (p.em.wordOf w.sect w.off) = d ↔ w.assign.Takes d ∧
      w.assign.Turns (w.displacement q.em q.em.addr) d
        (patchedWord w.sect w.off (q.em.wordOf w.sect w.off) (patches q (text :: texts))) := by
  obtain ⟨hinside, _, hpatch⟩ := resolved_later h hline hdef hw texts
  have hcalls : Calls q (text :: texts) p :=
    calls_cons.mpr ⟨q1, parse_call_ok.mpr ⟨_, hline⟩, hrun⟩
  rw [hcalls.wordOf h hinside, ← immOf_or_packed_iff]
  exact iff_of_eq (congrArg (fun x => w.assign.immOf x = d) (patchedWord_of_mem hpatch _))

/-! ## Displacements that are not truncated -/

/-- The word of the waiter is in its section after the line, the displacement to the
address fits the format, and the processor reads it there in the end. -/
structure NotTruncated (q1 p : Process) (w : label_waiter) (addr : Int) : Prop where
  inside : w.off + 4 ≤ (q1.em.sect w.sect).pos
  fits : w.assign.Takes (w.displacement p.em addr)
  read : w.assign.immOf (p.em.wordOf w.sect w.off) = w.displacement p.em addr

/-- The patches bring no bit into the immediate of the waiter's word that is not one of
the displacement. -/
def Spare (xs : List Patch) (w : label_waiter) (d : Int) : Prop :=
  ∀ x ∈ xs, w.assign.Within d (x.spill w.sect w.off)

theorem emitter.Sound.displacement_eq {em' : emitter} (h : em.Sound vaddr) (h' : em'.Sound vaddr)
    (w : label_waiter) (addr : Int) : w.displacement em' addr = w.displacement em addr := by
  unfold label_waiter.displacement
  rw [(h' w.sect).2.2, (h w.sect).2.2]

/-- No error is reported, and so a reference is not truncated exactly when the
displacement is even and fits the format, the word is not cut at the end of the buffer,
and no other bits come in. Other bits come in after a cut: the waiter of an instruction
that was lost points to bytes of another one. -/
theorem a_displacement_is_not_truncated_iff_it_fits (vaddr : Sect → Nat) (q q1 p : Process)
    (text rest : List UInt8) (texts : List (List UInt8)) (h : q.em.Sound vaddr)
    (hline : parse_line text q = .ok (.ok ((), rest), q1)) (hrun : Calls q1 texts p)
    (key : string) (w : label_waiter) :
    (∀ instr v, reading text = some (.refer w.assign instr key) → w = q.em.waiter w.assign →
      q.em.value key = some v → 0 ≤ v →
      (NotTruncated q1 p w v ↔ w.assign.Takes (w.displacement q.em v) ∧
        q.em.cur.len + 4 < BUF_SIZE ∧ Spare (patches q1 texts) w (w.displacement q.em v))) ∧
    (reading text = some (.define key) → w ∈ q.em.waiting key →
      (NotTruncated q1 p w q.em.addr ↔ w.assign.Takes (w.displacement q.em q.em.addr) ∧
        w.assign.Within (w.displacement q.em q.em.addr) (q.em.wordOf w.sect w.off) ∧
        Spare (patches q (text :: texts)) w (w.displacement q.em q.em.addr))) := by
  have hsame : ∀ addr, w.displacement p.em addr = w.displacement q.em addr :=
    h.displacement_eq (hrun.keeps (fun _ _ _ hd hs => hd.sound hs)
      (parse_line_sound hline h)) w
  constructor
  · intro instr v hname hw hv hpos
    have hinside := (reference_at_once h hline hname hw hv hpos).1
    have hiff : q.em.cur.len + 4 < BUF_SIZE →
        (w.assign.immOf (p.em.wordOf w.sect w.off) = w.displacement q.em v ↔
          w.assign.Takes (w.displacement q.em v) ∧
            Spare (patches q1 texts) w (w.displacement q.em v)) := by
      intro hfit
      have hzero : w.assign.Within (w.displacement q.em v) 0 := by
        rw [assign_type.Within, BitVec.ofNat_eq_ofNat, BitVec.zero_and, BitVec.zero_and]
      rw [read_at_once_iff h hline hrun hname hw hv hpos hfit, turns_same_iff, within_patchedWord,
        and_iff_right hzero]
      rfl
    constructor
    · rintro ⟨hin, htakes, hread⟩
      rw [hsame] at htakes hread
      have hfit := hinside.mp hin
      exact ⟨htakes, hfit, ((hiff hfit).mp hread).2⟩
    · rintro ⟨htakes, hfit, hspare⟩
      refine ⟨hinside.mpr hfit, ?_, ?_⟩
      · rwa [hsame]
      · rw [hsame]
        exact (hiff hfit).mpr ⟨htakes, hspare⟩
  · intro hdef hw
    obtain ⟨hin, hpos, _⟩ := resolved_later h hline hdef hw texts
    have hiff := read_later_iff h hline hrun hdef hw (w.displacement q.em q.em.addr)
    rw [turns_same_iff, within_patchedWord] at hiff
    constructor
    · rintro ⟨_, _, hread⟩
      rw [hsame] at hread
      exact hiff.mp hread
    · intro hcond
      refine ⟨hpos ▸ hin, ?_, ?_⟩
      · rw [hsame]
        exact hcond.1
      · rw [hsame]
        exact hiff.mpr hcond

/-! ## A branch that is too far -/

/-- The third of the lines `L:`, `.data` and `beq x0, x0, L`. Its label is in the
other section. -/
theorem a_far_branch :
    let w : label_waiter := ⟨0, .SECT_DATA, .ASSIGN_BTYPE⟩
    ∃ (vaddr : Sect → Nat) (q q1 : Process) (rest : List UInt8), q.em.Sound vaddr ∧
      parse_line (alone (chars "beq x0, x0, L")) q = .ok (.ok ((), rest), q1) ∧
      reading (alone (chars "beq x0, x0, L")) = some (.refer w.assign 0x63 (chars "L")) ∧
      w = q.em.waiter w.assign ∧ q.em.value (chars "L") = some 0x400000 ∧
      w.displacement q.em 0x400000 = -0xfc10000 := by
  intro w
  let first : Process := .fresh 0 0x400000 0x10010000
  let branch : List UInt8 := alone (chars "beq x0, x0, L")
  have hruns : (Reaches first (linesOf ["L:", ".data"]) fun q =>
        (q.em.waiter .ASSIGN_BTYPE = w ∧ (q.em.sect .SECT_DATA).vaddr = 0x10010000) ∧
        q.em.value (chars "L") = some 0x400000 ∧
        (parse_line branch q).map (fun r => r.1.toBool) = .ok true) ∧
      reading branch = some (.refer .ASSIGN_BTYPE 0x63 (chars "L")) := by decide +kernel
  obtain ⟨⟨q, hq, ⟨hw, hvaddr⟩, hv, hline⟩, hname⟩ := hruns
  have hdisp : w.displacement q.em 0x400000 = -0xfc10000 := by
    unfold label_waiter.displacement
    rw [hvaddr]
    unfold toS
    decide
  rcases hparse : parse_line branch q with f | ⟨err | ⟨_, rest⟩, q1⟩
  · rw [hparse] at hline
    cases hline
  · rw [hparse] at hline
    cases hline
  · exact ⟨_, q, q1, rest, hq.sound, hparse, hname, hw.symm, hv, hdisp⟩

/-- The branch is assembled without an error, and its displacement is lost. -/
theorem a_far_branch_is_truncated :
    ¬ ∀ (vaddr : Sect → Nat) (q q1 p : Process) (text rest : List UInt8)
      (texts : List (List UInt8)), q.em.Sound vaddr →
      parse_line text q = .ok (.ok ((), rest), q1) → Calls q1 texts p →
      ∀ (key : string) (w : label_waiter),
      (∀ instr v, reading text = some (.refer w.assign instr key) → w = q.em.waiter w.assign →
        q.em.value key = some v → 0 ≤ v → NotTruncated q1 p w v) ∧
      (reading text = some (.define key) → w ∈ q.em.waiting key →
        NotTruncated q1 p w q.em.addr) := by
  intro hall
  obtain ⟨vaddr, q, q1, rest, hsound, hline, hname, hw, hv, hdisp⟩ := a_far_branch
  have hsound1 := parse_line_sound hline hsound
  have hfits := ((hall vaddr q q1 q1 _ rest [] hsound hline (calls_nil.mpr rfl) _ _).1 _ _ hname hw
    hv (by decide)).fits
  rw [hsound.displacement_eq hsound1, hdisp] at hfits
  exact absurd hfits (by decide)

theorem a_far_branch_is_truncated_as_it_does_not_fit :
    let w : label_waiter := ⟨0, .SECT_DATA, .ASSIGN_BTYPE⟩
    ∃ q q1 : Process, ¬ w.assign.Takes (w.displacement q.em 0x400000) ∧
      (NotTruncated q1 q1 w 0x400000 ↔ w.assign.Takes (w.displacement q.em 0x400000) ∧
        q.em.cur.len + 4 < BUF_SIZE ∧ Spare (patches q1 []) w (w.displacement q.em 0x400000)) := by
  intro w
  obtain ⟨vaddr, q, q1, rest, hsound, hline, hname, hw, hv, hdisp⟩ := a_far_branch
  refine ⟨q, q1, ?_, (a_displacement_is_not_truncated_iff_it_fits vaddr q q1 q1 _ rest [] hsound
    hline (calls_nil.mpr rfl) (chars "L") w).1 0x63 0x400000 hname hw hv (by decide)⟩
  rw [hdisp]
  decide

end riscv_assembler
