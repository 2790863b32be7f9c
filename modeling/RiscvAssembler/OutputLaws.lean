-- The laws of an output over a file that held other bytes: what the calls give does
-- not depend on them, and they stay where nothing is put.
import RiscvAssembler.ElfLaws
import RiscvAssembler.Lib.Overwriting
import RiscvAssembler.Relocation

open checked machine_int SparseFile

namespace riscv_assembler

/-! ## What a file holds does not show -/

/-- Two outputs that give the same count and stand at the same offset. -/
inductive OutputAlike : Result (Int × SparseFile) → Result (Int × SparseFile) → Prop
  | fault (e : Fault) : OutputAlike (.error e) (.error e)
  | gives (err : Int) {f g : SparseFile} (h : f.offset = g.offset) :
      OutputAlike (.ok (err, f)) (.ok (err, g))

theorem OutputAlike.bind {x y : Result (Int × SparseFile)} (h : OutputAlike x y)
    {k k' : Int × SparseFile → Result (Int × SparseFile)}
    (hk : ∀ err f g, f.offset = g.offset → OutputAlike (k (err, f)) (k' (err, g))) :
    OutputAlike (x >>= k) (y >>= k') := by
  cases h with
  | fault e => exact OutputAlike.fault e
  | gives err hoff => exact hk err _ _ hoff

variable {f g : SparseFile}

/-- A call on both files either fails twice or succeeds twice. -/
def BothOrNeither (x y : Option SparseFile) : Prop :=
  (x = none ∧ y = none) ∨ ∃ f g, x = some f ∧ y = some g ∧ f.offset = g.offset

theorem write_alike (h : f.offset = g.offset) {d d' : List UInt8} (hlen : d'.length = d.length) :
    BothOrNeither (f.write d) (g.write d') := by
  unfold BothOrNeither SparseFile.write
  rw [h, hlen]
  by_cases hfit : g.offset + d.length ≤ OFF_MAX
  · right
    rw [if_pos hfit, if_pos hfit]
    exact ⟨_, _, rfl, rfl, by simp [h, hlen]⟩
  · left
    rw [if_neg hfit, if_neg hfit]
    exact ⟨rfl, rfl⟩

theorem seekSet_alike (f g : SparseFile) (target : Int) :
    BothOrNeither (f.seekSet target) (g.seekSet target) := by
  unfold BothOrNeither seekSet
  by_cases hrange : 0 ≤ target ∧ target ≤ OFF_MAX
  · right
    rw [if_pos hrange, if_pos hrange]
    exact ⟨_, _, rfl, rfl, rfl⟩
  · left
    rw [if_neg hrange, if_neg hrange]
    exact ⟨rfl, rfl⟩

theorem copyFrom_alike (h : f.offset = g.offset) (src : SparseFile) (len : Nat) :
    (f.copyFrom src len).1 = (g.copyFrom src len).1 ∧
      (f.copyFrom src len).2.offset = (g.copyFrom src len).2.offset := by
  unfold copyFrom
  rw [h]
  split <;> simp [h]

/-- Two emitters with the same bytes, at addresses of their own. -/
def SameBytes (em em' : emitter) : Prop := ∀ s, ∃ a, em'.sect s = (em.sect s).place a

theorem SameBytes.refl (em : emitter) : SameBytes em em := fun s => ⟨(em.sect s).vaddr, rfl⟩

variable {em em' : emitter}

theorem SameBytes.pos_eq (h : SameBytes em em') (s : Sect) : (em'.sect s).pos = (em.sect s).pos := by
  obtain ⟨a, ha⟩ := h s
  rw [ha]
  rfl

theorem SameBytes.counted_eq (h : SameBytes em em') (s : Sect) :
    (em'.sect s).counted = (em.sect s).counted := by
  obtain ⟨a, ha⟩ := h s
  rw [ha]
  rfl

theorem SameBytes.output_after_eq (h : SameBytes em em') : output_after em' = output_after em := by
  unfold output_after emitter.data
  rw [h.pos_eq]

theorem SameBytes.data_offset_eq (h : SameBytes em em') :
    (data_phdr em').p_offset = (data_phdr em).p_offset := by
  unfold data_phdr text_phdr emitter.data emitter.text
  rw [h.pos_eq, h.pos_eq]
  split <;> rfl

theorem emit_section_alike (hem : SameBytes em em') (sect : Sect) (h : f.offset = g.offset) :
    OutputAlike (emit_section em f sect) (emit_section em' g sect) := by
  obtain ⟨a, ha⟩ := hem sect
  have hlen : ((em.sect sect).place a).len = (em.sect sect).len := rfl
  have hpos : ((em.sect sect).place a).pos = (em.sect sect).pos := rfl
  have hbuf : ((em.sect sect).place a).buf = (em.sect sect).buf := rfl
  have hswap : ((em.sect sect).place a).swap = (em.sect sect).swap := rfl
  unfold emit_section
  simp only
  rw [ha, hlen, hpos, hbuf, hswap]
  generalize toS 32 ((em.sect sect).pos - toS 32 (em.sect sect).len) = m
  generalize toU 64 (toS 32 (em.sect sect).len) = l
  obtain ⟨hcount, hoff⟩ := copyFrom_alike h (em.sect sect).swap (toU 64 m)
  generalize f.copyFrom (em.sect sect).swap (toU 64 m) = copied at hcount hoff ⊢
  generalize g.copyFrom (em.sect sect).swap (toU 64 m) = copied' at hcount hoff ⊢
  rw [hcount]
  split
  · exact .gives 1 hoff
  · rcases (em.sect sect).buf.copyOut 0 l with e | bytes
    · exact .fault e
    · rw [ok_bind, ok_bind]
      obtain ⟨hf, hg⟩ | ⟨f', g', hf, hg, h'⟩ := write_alike hoff (d := bytes) rfl
      · rw [hf, hg]
        exact .gives 1 hoff
      · rw [hf, hg]
        exact .gives 0 h'

/-- The output comes to the same whatever the file held. -/
theorem emitter_output_elf_alike (hem : SameBytes em em') (h : f.offset = g.offset) :
    OutputAlike (emitter_output_elf em f) (emitter_output_elf em' g) := by
  have hhead : (output_head em').length = (output_head em).length := by
    rw [length_output_head, length_output_head, hem.output_after_eq]
  unfold emitter_output_elf
  obtain ⟨hf, hg⟩ | ⟨f1, g1, hf, hg, h1⟩ := write_alike h hhead
  · rw [hf, hg]
    exact .gives 1 h
  · rw [hf, hg]
    apply (emit_section_alike hem .SECT_TEXT h1).bind
    intro err f2 g2 h2
    simp only
    by_cases herr : err ≠ 0
    · rw [if_pos herr, if_pos herr]
      exact .gives 1 h2
    · rw [if_neg herr, if_neg herr]
      have hpos : em'.data.pos = em.data.pos := hem.pos_eq .SECT_DATA
      rw [hpos, hem.data_offset_eq]
      by_cases hpos : 0 < em.data.pos
      · rw [if_pos hpos, if_pos hpos]
        obtain ⟨hf, hg⟩ | ⟨f3, g3, hf, hg, h3⟩ :=
          seekSet_alike f2 g2 (toS 64 (data_phdr em).p_offset)
        · rw [hf, hg]
          exact .gives 1 h2
        · rw [hf, hg]
          exact emit_section_alike hem .SECT_DATA h3
      · rw [if_neg hpos, if_neg hpos]
        exact .gives 0 h2

/-! ## What an output puts where -/

/-- A file after an output that succeeds. -/
def put_output (em : emitter) (dst : SparseFile) : SparseFile :=
  let dst := (dst.put (output_head em)).put em.text.counted
  if 0 < em.data.pos then
    ({ dst with offset := (data_phdr em).p_offset } : SparseFile).put em.data.counted
  else dst

/-- The positions that get a byte. -/
def OutputAt (em : emitter) (i : Nat) : Prop :=
  i < output_after em + em.text.counted.length ∨
    0 < em.data.pos ∧ (data_phdr em).p_offset ≤ i ∧
      i < (data_phdr em).p_offset + em.data.counted.length

instance (em : emitter) (i : Nat) : Decidable (OutputAt em i) :=
  inferInstanceAs (Decidable (_ ∨ _))

theorem emitter_output_elf_lays {em : emitter} {dst out : SparseFile} (htext : em.text.Ok)
    (hdata : em.data.Ok) (h : emitter_output_elf em dst = .ok (0, out)) : out = put_output em dst := by
  unfold emitter_output_elf at h
  unfold put_output
  simp only
  split at h
  · cases h
  · rename_i dst1 hwrite
    obtain ⟨_, rfl⟩ := write_eq_some.mp hwrite
    obtain ⟨⟨err, dst2⟩, htextrun, h⟩ := bind_eq_ok.mp h
    simp only at h
    split at h
    · cases h
    · rename_i herr
      rw [not_not] at herr
      subst herr
      obtain ⟨rfl, _⟩ := emit_section_ok htext htextrun
      by_cases hpos : 0 < em.data.pos
      · rw [if_pos hpos] at h ⊢
        split at h
        · cases h
        · rename_i dst3 hseek
          have hoff := data_offset htext hpos
          have hb : BUF_SIZE = 4096 := rfl
          have hlt := htext.pos_lt
          unfold seekSet at hseek
          split at hseek
          · rename_i hrange
            have hself : toS 64 ((data_phdr em).p_offset : Int) = (data_phdr em).p_offset :=
              toS_of_nonneg (by omega) hrange.1
            obtain ⟨hout, _⟩ := emit_section_ok hdata h
            rw [← Option.some.inj hseek, hself, Int.toNat_natCast] at hout
            exact hout
          · cases hseek
      · rw [if_neg hpos] at h ⊢
        exact ((Prod.mk.inj (Except.ok.inj h)).2).symm

theorem put_output_over (em : emitter) (old : List UInt8) :
    Over old (OutputAt em) (put_output em .empty) (put_output em ⟨old, 0⟩) := by
  have hhead := length_output_head em
  have htext := ((Over.start old).put (output_head em)).put em.text.counted
  unfold put_output
  simp only
  by_cases hpos : 0 < em.data.pos
  · rw [if_pos hpos, if_pos hpos]
    apply ((htext.move (data_phdr em).p_offset).put em.data.counted).congr
    intro i
    unfold OutputAt
    simp [empty, hhead, hpos]
    omega
  · rw [if_neg hpos, if_neg hpos]
    apply htext.congr
    intro i
    unfold OutputAt
    simp [empty, hhead, hpos]
    omega

/-- Programs with the same bytes have files that differ in their headers alone. -/
theorem put_output_agrees (h : SameBytes em em') (dst : SparseFile) (hoff : dst.offset = 0) :
    AgreeFrom (output_after em) (put_output em dst) (put_output em' dst) := by
  have hhead : (output_head em').length = (output_head em).length := by
    rw [length_output_head, length_output_head, h.output_after_eq]
  have htext : em'.text.counted = em.text.counted := h.counted_eq .SECT_TEXT
  have hdata : em'.data.counted = em.data.counted := h.counted_eq .SECT_DATA
  have hpos : em'.data.pos = em.data.pos := h.pos_eq .SECT_DATA
  have hstart := AgreeFrom.start dst hhead
  rw [hoff, Nat.zero_add, length_output_head] at hstart
  unfold put_output
  simp only
  rw [htext, hdata, hpos, h.data_offset_eq]
  split
  · exact ((hstart.put _).move _).put _
  · exact hstart.put _

/-- No fault stops the output of sections that are as they should be. -/
theorem emit_section_gives {em : emitter} {sect : Sect} (hok : (em.sect sect).Ok)
    (dst : SparseFile) : ∃ r, emit_section em dst sect = .ok r := by
  obtain ⟨hl, _⟩ := hok.counts
  have hb : BUF_SIZE = 4096 := rfl
  have hlen := hok.len_lt
  have hsize : toU 64 ((em.sect sect).len : Int) = (em.sect sect).len := toU_of_lt (by omega)
  unfold emit_section
  simp only [hl, hsize]
  split
  · exact ⟨_, rfl⟩
  · rw [FixedBuffer.copyOut_of_le (by omega), ok_bind]
    split
    · exact ⟨_, rfl⟩
    · exact ⟨_, rfl⟩

theorem emitter_output_elf_gives {em : emitter} (htext : em.text.Ok) (hdata : em.data.Ok)
    (dst : SparseFile) : ∃ r, emitter_output_elf em dst = .ok r := by
  unfold emitter_output_elf
  split
  · exact ⟨_, rfl⟩
  · rename_i dst1 _
    obtain ⟨⟨err, dst2⟩, hrun⟩ := emit_section_gives htext dst1
    have hrun : emit_section em dst1 .SECT_TEXT = .ok (err, dst2) := hrun
    rw [hrun, ok_bind]
    simp only
    split
    · exact ⟨_, rfl⟩
    · split
      · split
        · exact ⟨_, rfl⟩
        · exact emit_section_gives hdata _
      · exact ⟨_, rfl⟩

end riscv_assembler
