-- What `emit_section` writes: the whole section, unless the swap file ends in a
-- hole that `copy_file_range` does not see, or has more bytes than an `int` counts.
import RiscvAssembler.ElfLaws
import RiscvAssembler.EmitterLaws

open checked machine_int SparseFile

namespace riscv_assembler

/-! ## Any run of writes -/

/-- A write to the section. -/
def Write.stepAt (em : emitter) (sw : Sect × Write) : Result emitter :=
  sw.2.step { em with current_section := sw.1 }

/-- A write keeps the counters of its section, if it returns at all. -/
theorem Write.step_ok {em em' : emitter} (w : Write) (h : em.cur.Ok) (hstep : w.step em = .ok em') :
    em'.cur.Ok := by
  by_cases hw : w.Fits em
  · obtain ⟨em1, h1, hok, _⟩ := w.step_fits em h hw
    rw [hstep] at h1
    cases h1
    exact hok
  · exact (w.step_misfit em em' h hw hstep).1

/-- A write only touches the current section. -/
theorem Write.step_eq {em em' : emitter} (w : Write) (hstep : w.step em = .ok em') :
    em' = em.setCur em'.cur := by
  cases w with
  | buffer data =>
    obtain ⟨s, _, he⟩ := bind_eq_ok.mp hstep
    cases he
    rw [emitter.cur_setCur]
  | advance n =>
    obtain ⟨s, _, he⟩ := bind_eq_ok.mp hstep
    cases he
    rw [emitter.cur_setCur]

theorem Write.stepAt_ok {em em' : emitter} (sw : Sect × Write) (h : ∀ s, (em.sect s).Ok)
    (hstep : Write.stepAt em sw = .ok em') : ∀ s, (em'.sect s).Ok := by
  have hcur : ({ em with current_section := sw.1 } : emitter).cur.Ok := h sw.1
  have hok := sw.2.step_ok hcur hstep
  rw [sw.2.step_eq hstep]
  exact emitter.forall_set (P := fun _ s => s.Ok) h hok

/-- After any writes to the two sections of a new emitter, the counters agree. -/
theorem sections_ok_of_writes {tv dv : Nat} {ws : List (Sect × Write)} {em : emitter}
    (hrun : runAll Write.stepAt (.fresh tv dv) ws = .ok em) (s : Sect) : (em.sect s).Ok := by
  have hfresh : ∀ s, ((emitter.fresh tv dv).sect s).Ok := by
    intro s
    cases s with
    | SECT_TEXT => exact Section.ok_fresh tv
    | SECT_DATA => exact Section.ok_fresh dv
  exact runAll_inv (I := fun em => ∀ s, (em.sect s).Ok)
    (fun _ sw _ h hstep => Write.stepAt_ok sw h hstep) ws _ em hfresh hrun s

/-! ## The swap file up to its offset -/

/-- The swap file has a byte for every position before its offset: it does not
end in a hole. -/
def Section.SwapFull (s : Section) : Prop := s.swap.offset ≤ s.swap.data.length

instance (s : Section) : Decidable s.SwapFull := inferInstanceAs (Decidable (_ ≤ _))

/-- All bytes of the section: those of the swap file, with zeros for its holes,
and then those in the buffer. -/
def Section.contents (s : Section) : List UInt8 :=
  upTo s.swap.data (s.pos - s.len) ++ s.buf.bytes.take s.len

theorem Section.Ok.contents_eq {s : Section} (h : s.Ok) : s.contents = s.image := by
  have hoff : s.pos - s.len = s.swap.offset := by rw [h.pos_eq, Nat.add_sub_cancel]
  unfold Section.contents Section.image SparseFile.before
  rw [hoff]

/-- `emit_section` succeeds, and the destination gets the `pos` bytes of the
section. -/
def WritesSection (em : emitter) (dst : SparseFile) (sect : Sect) : Prop :=
  (em.sect sect).contents.length = (em.sect sect).pos ∧
    emit_section em dst sect = .ok (0, dst.put (em.sect sect).contents)

/-- A full swap file that can be counted is copied, and the buffer is written
behind it. -/
theorem emit_section_of_full {em : emitter} {dst : SparseFile} {sect : Sect}
    (hok : (em.sect sect).Ok) (hroom : dst.offset + (em.sect sect).pos ≤ OFF_MAX)
    (hfull : (em.sect sect).SwapFull) (hcan : (em.sect sect).Countable) :
    emit_section em dst sect = .ok (0, dst.put (em.sect sect).image) := by
  unfold emit_section
  generalize em.sect sect = s at *
  have hb : BUF_SIZE = 4096 := rfl
  have hlen := hok.len_lt
  have hpos := hok.pos_eq
  obtain ⟨hl, hm⟩ := hok.counts
  have hself : toS 32 (s.swap.offset : Int) = s.swap.offset := toS_eq_self_iff.mpr hcan
  have hsize : toU 64 (s.len : Int) = s.len := toU_of_lt (by omega)
  have hoff : toU 64 (s.swap.offset : Int) = s.swap.offset := toU_of_lt (Nat.lt_trans hcan (by decide))
  have hroom' : dst.offset + s.swap.offset ≤ OFF_MAX := by omega
  have hcopy := copyFrom_of_le hroom' hfull
  have hslice : s.buf.copyOut 0 s.len = .ok (s.buf.bytes.take s.len) :=
    FixedBuffer.copyOut_of_le (by omega)
  have hwrite : (dst.put (s.swap.data.take s.swap.offset)).write (s.buf.bytes.take s.len) =
      some (dst.put s.image) := by
    have hcopied : (s.swap.data.take s.swap.offset).length = s.swap.offset :=
      List.length_take_of_le hfull
    have hbuf := s.take_len (Nat.le_of_lt hlen)
    refine write_eq_some.mpr ⟨by rw [put_offset, hcopied, hbuf]; omega, ?_⟩
    rw [put_put, ← hcan.counted hfull, Section.counted, hself, Int.toNat_natCast]
  simp only [hl, hm, hself, hsize, hoff, hcopy, hslice, hwrite, ok_bind, ne_eq, not_true_eq_false,
    if_false]

/-- After any writes, `emit_section` writes the whole section exactly when the
swap file does not end in a hole and an `int` counts its bytes. -/
theorem emit_section_writes_the_section_iff_its_swap_file_is_full (tv dv : Nat)
    (ws : List (Sect × Write)) (em : emitter)
    (hrun : runAll Write.stepAt (.fresh tv dv) ws = .ok em) (sect : Sect) (dst : SparseFile)
    (hroom : dst.offset + (em.sect sect).pos ≤ OFF_MAX) :
    WritesSection em dst sect ↔ (em.sect sect).SwapFull ∧ (em.sect sect).Countable := by
  have hok := sections_ok_of_writes hrun sect
  unfold WritesSection
  rw [hok.contents_eq]
  constructor
  · rintro ⟨hlen, h⟩
    obtain ⟨hput, hcount⟩ := emit_section_ok hok h
    have hcan := hok.counted_length.2 ((put_length_inj hput).symm.trans hlen)
    exact ⟨hcount hcan, hcan⟩
  · rintro ⟨hfull, hcan⟩
    exact ⟨hok.length_image, emit_section_of_full hok hroom hfull hcan⟩

/-- A gap of the size of the buffer at the end of the data: the swap file is
empty, so that nothing is copied, and the call fails. -/
theorem a_gap_at_the_end_is_not_written :
    ¬ ∀ (tv dv : Nat) (ws : List (Sect × Write)) (em : emitter),
      runAll Write.stepAt (.fresh tv dv) ws = .ok em →
      ∀ (sect : Sect) (dst : SparseFile), dst.offset + (em.sect sect).pos ≤ OFF_MAX →
      WritesSection em dst sect := by
  intro hall
  have hfacts : (runAll Write.stepAt (.fresh 0 0) [(.SECT_DATA, .advance 4096)]).map (fun em =>
      ((em.sect .SECT_DATA).pos, (emit_section em .empty .SECT_DATA).map Prod.fst)) =
        .ok (4096, .ok 1) := by decide +kernel
  rcases hrun : runAll Write.stepAt (.fresh 0 0) [(.SECT_DATA, .advance 4096)] with f | em
  · rw [hrun] at hfacts
    cases hfacts
  · rw [hrun] at hfacts
    obtain ⟨hpos, hres⟩ := Prod.mk.inj (Except.ok.inj hfacts)
    obtain ⟨_, hwrites⟩ := hall 0 0 _ em hrun .SECT_DATA .empty (by rw [hpos]; decide)
    rw [hwrites] at hres
    cases hres

/-- A gap of the size of the buffer, and then a buffer that gets full: it is written to
the swap file behind the gap, and so the file has no hole at its end. -/
theorem a_gap_before_a_full_buffer_is_written :
    let ws : List (Sect × Write) := [(.SECT_DATA, .advance 4096),
      (.SECT_DATA, .buffer (List.replicate 4095 7)), (.SECT_DATA, .buffer [1, 2])]
    ∃ em, runAll Write.stepAt (.fresh 0 0) ws = .ok em ∧
      (em.sect .SECT_DATA).pos = 8192 ∧ WritesSection em .empty .SECT_DATA := by
  intro ws
  have hfacts : (runAll Write.stepAt (.fresh 0 0) ws).map (fun em => ((em.sect .SECT_DATA).pos,
      (em.sect .SECT_DATA).swap.offset, (em.sect .SECT_DATA).swap.data.length)) =
        .ok (8192, 8191, 8191) := by decide +kernel
  rcases hrun : runAll Write.stepAt (.fresh 0 0) ws with f | em
  · rw [hrun] at hfacts
    cases hfacts
  · rw [hrun] at hfacts
    obtain ⟨hpos, hfile⟩ := Prod.mk.inj (Except.ok.inj hfacts)
    obtain ⟨hoff, hlen⟩ := Prod.mk.inj hfile
    have hroom : SparseFile.empty.offset + (em.sect .SECT_DATA).pos ≤ OFF_MAX := by
      rw [hpos]
      decide
    have hfull : (em.sect .SECT_DATA).SwapFull := by
      unfold Section.SwapFull
      rw [hoff, hlen]
    have hcan : (em.sect .SECT_DATA).Countable := by
      unfold Section.Countable
      rw [hoff]
      decide
    exact ⟨em, rfl, hpos, (emit_section_writes_the_section_iff_its_swap_file_is_full 0 0 ws em hrun
      .SECT_DATA .empty hroom).mpr ⟨hfull, hcan⟩⟩

end riscv_assembler
