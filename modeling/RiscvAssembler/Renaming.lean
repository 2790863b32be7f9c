-- Other names for the labels of a program: one name for each label, and the file is the
-- same.
import RiscvAssembler.Disassembly
import RiscvAssembler.HashedEmitter
import RiscvAssembler.Relocation

open checked scanner c_text

namespace riscv_assembler

/-- The names of the labels of a program. -/
def names (texts : List (List UInt8)) : Set string := fun key => ∃ text ∈ texts, Says text key

/-- The output depends on the sections and on the value of `_start`. -/
theorem output_of_same_sections {em em' : emitter} (hsect : em'.sect = em.sect)
    (hcurrent : em'.current_section = em.current_section)
    (hstart : em'.labels.lookup start_label = em.labels.lookup start_label) (dst : SparseFile) :
    emitter_output_elf em' dst = emitter_output_elf em dst := by
  let frame : hashed_emitter := ⟨em.sect, cc_map_placeholder, em.current_section⟩
  have htable : emitter_output_elf (frame.withTable em'.labels) dst =
      emitter_output_elf (frame.withTable em.labels) dst := output_of_start hstart dst
  have hem' : em' = frame.withTable em'.labels := by
    change em' = ⟨em.sect, em'.labels, em.current_section⟩
    rw [← hsect, ← hcurrent]
  rw [hem']
  exact htable

/-- A program whose lines read as those of another, but for the names of the labels, is
accepted with it and has the same file, if each label has a name of its own and `_start`
keeps its name. -/
theorem other_names_for_the_labels_leave_the_file (errno : Int) (text_vaddr data_vaddr : Nat)
    (σ : string → string) (texts texts' : List (List UInt8)) (p : Process)
    (hsame : List.Forall₂ (SameLine σ) texts texts')
    (hinj : Set.InjOn σ (insert start_label (names texts))) (hstart : σ start_label = start_label)
    (hrun : Assembles (.fresh errno text_vaddr data_vaddr) texts p) :
    ∃ p', Assembles (.fresh 0 text_vaddr data_vaddr) texts' p' ∧ p'.em.sect = p.em.sect ∧
      ∀ dst, emitter_output_elf p'.em dst = emitter_output_elf p.em dst := by
  have hfresh : Moved σ (insert start_label (names texts)) 0
      (Process.fresh errno text_vaddr data_vaddr).em (.fresh text_vaddr data_vaddr) :=
    moved_fresh (by simp) (by simp)
  obtain ⟨em', hrun', hmoved⟩ := hfresh.run hinj hsame
    (fun text ht key hsaid => Set.mem_insert_of_mem _ ⟨text, ht, hsaid⟩) hrun
  have hlookup := hmoved.lookup_eq start_label (Set.mem_insert _ _)
  rw [hstart] at hlookup
  have hzero : label.move 0 = id := funext label.move_zero
  rw [hzero, Option.map_id, id_eq] at hlookup
  exact ⟨⟨0, em'⟩, hrun', hmoved.sect_of_zero,
    output_of_same_sections hmoved.sect_of_zero hmoved.current_eq hlookup⟩

/-! ## Printed lines -/

theorem AcceptedAlone.acceptable {s : Sect} {text : List UInt8} (h : AcceptedAlone s text) :
    Acceptable text := by
  obtain ⟨rest, p, hrun, _⟩ := h
  exact ⟨_, rest, p, hrun⟩

theorem sameLine_label {σ : string → string} {key : string} (hkey : LabelName key)
    (hkey' : LabelName (σ key)) :
    SameLine σ (alone (label_line key)) (alone (label_line (σ key))) :=
  .define key (reading_label hkey [0]) (reading_label hkey' [0]) (label_line_alone hkey').1.acceptable

theorem sameLine_target {σ : string → string} {key : string} {i : Instr} {assign : assign_type}
    {instr : BitVec 32} {d : Int} (h : i.Encodable) (hlink : i.link = some (assign, instr, d))
    (hkey : LabelName key) (hkey' : LabelName (σ key)) :
    SameLine σ (alone (i.line key)) (alone (i.line (σ key))) :=
  .refer assign instr key (reading_target h hlink hkey [0]) (reading_target h hlink hkey' [0])
    (target_line_alone h hlink hkey').1.acceptable

theorem says_label {key k : string} (hkey : LabelName key)
    (h : Says (alone (label_line key)) k) : k = key := by
  have hr : reading (alone (label_line key)) = some (.define key) := reading_label hkey [0]
  unfold Says at h
  simp only [hr] at h
  simpa [eq_comm] using h

theorem says_target {key k : string} {i : Instr} {assign : assign_type} {instr : BitVec 32} {d : Int}
    (h : i.Encodable) (hlink : i.link = some (assign, instr, d)) (hkey : LabelName key)
    (hsaid : Says (alone (i.line key)) k) : k = key := by
  have hr : reading (alone (i.line key)) = some (.refer assign instr key) :=
    reading_target h hlink hkey [0]
  unfold Says at hsaid
  simp only [hr] at hsaid
  simpa [eq_comm] using hsaid

/-- Another label for an endless loop. -/
def other_name (key : string) : string := if key = backward 0 then forward 0 else key

theorem an_endless_loop_under_another_name :
    let jump := Instr.jump .JAL 0 0
    ∃ p p', Assembles (.fresh 0 0x400000 0x10010000)
        [alone (label_line (backward 0)), alone (jump.line (backward 0))] p ∧
      Assembles (.fresh 0 0x400000 0x10010000)
        [alone (label_line (forward 0)), alone (jump.line (forward 0))] p' ∧
      p'.em.sect = p.em.sect ∧ ∀ dst, emitter_output_elf p'.em dst = emitter_output_elf p.em dst := by
  intro jump
  have hencodable : jump.Encodable := by unfold Instr.Encodable; decide
  have hname : other_name (backward 0) = forward 0 := if_pos rfl
  have hlabel : SameLine other_name _ _ := sameLine_label (labelName_backward 0)
    (hname.symm ▸ labelName_forward 0)
  have hjump : SameLine other_name _ _ := sameLine_target hencodable rfl (labelName_backward 0)
    (hname.symm ▸ labelName_forward 0)
  rw [hname] at hlabel hjump
  have hnames : insert start_label (names [alone (label_line (backward 0)),
      alone (jump.line (backward 0))]) ⊆ {key | key = start_label ∨ key = backward 0} := by
    rintro key (rfl | ⟨text, ht, hsaid⟩)
    · exact Or.inl rfl
    · right
      simp only [List.mem_cons, List.not_mem_nil, or_false] at ht
      rcases ht with rfl | rfl
      · exact says_label (labelName_backward 0) hsaid
      · exact says_target hencodable rfl (labelName_backward 0) hsaid
  have hinj : Set.InjOn other_name {key | key = start_label ∨ key = backward 0} := by
    rintro a (rfl | rfl) b (rfl | rfl) <;> decide
  have hrun : Reaches (.fresh 0 0x400000 0x10010000)
      [alone (label_line (backward 0)), alone (jump.line (backward 0))] fun _ => True := by
    decide +kernel
  obtain ⟨p, hrun, _⟩ := hrun
  obtain ⟨p', h⟩ := other_names_for_the_labels_leave_the_file 0 0x400000 0x10010000 other_name _ _ p
    (.cons hlabel (.cons hjump .nil)) (hinj.mono hnames) (by decide) hrun
  exact ⟨p, p', hrun, h⟩

end riscv_assembler
