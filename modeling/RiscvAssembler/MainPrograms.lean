-- Programs from their source to their file: the listing of a program becomes a file
-- with its words, and a program that is moved keeps its bytes.
import RiscvAssembler.Disassembly
import RiscvAssembler.EntryPoint
import RiscvAssembler.MainLaws

open checked machine_int c_text SparseFile

namespace riscv_assembler

variable {sys : System} {opts : Options} {em em' : emitter}

/-! ## From a listing to its file -/

theorem emit_section_small {em : emitter} {sect : Sect} {dst : SparseFile}
    (hok : (em.sect sect).Ok) (hu : (em.sect sect).Unfilled)
    (hroom : dst.offset + BUF_SIZE ≤ OFF_MAX) :
    emit_section em dst sect = .ok (0, dst.put (em.sect sect).image) := by
  obtain ⟨hl, hm⟩ := hok.counts
  have hb : BUF_SIZE = 4096 := rfl
  have hlen := hok.len_lt
  have hsize : toU 64 ((em.sect sect).len : Int) = (em.sect sect).len := toU_of_lt (by omega)
  have hnone : toS 32 ((em.sect sect).swap.offset : Int) = 0 := by
    rw [hu.offset_zero]
    exact toS_eq_self_iff.mpr (by decide)
  have himage : (em.sect sect).image = (em.sect sect).buf.slice 0 (em.sect sect).len := by
    rw [hu.image_eq hok, hu.len_eq hok]
  have hcopy : dst.copyFrom (em.sect sect).swap (toU 64 0) = (0, dst) := by
    have hzero : toU 64 0 = 0 := toU_of_lt (n := 0) (by omega)
    rw [hzero, copyFrom_of_le (by omega) (Nat.zero_le _), List.take_zero, put_nil]
    rfl
  unfold emit_section
  simp only [hl, hm, hsize, hnone, hcopy]
  have hfit : dst.write ((em.sect sect).buf.slice 0 (em.sect sect).len) =
      some (dst.put ((em.sect sect).buf.slice 0 (em.sect sect).len)) := by
    have := (em.sect sect).buf.size
    apply write_eq_some.mpr
    refine ⟨?_, rfl⟩
    unfold FixedBuffer.slice
    rw [List.length_take]
    omega
  rw [if_neg (by simp), FixedBuffer.copyOut_of_le (by omega), ok_bind, hfit, himage]

/-- The file of a small program without data. -/
theorem main_small_text {disk : Disk string} {src : List UInt8} {em : emitter} (hsys : sys.Works)
    (hextra : opts.extra_args = 2) (hname : opts.input_file ≠ opts.output_file)
    (hsrc : disk.read opts.input_file = some src) (hnew : disk.node opts.output_file = none)
    (h : Accepts sys opts src em) (hs : em.Small) (hdata : (em.sect .SECT_DATA).image = []) :
    (main sys opts disk).status = .ok 0 ∧ (main sys opts disk).printed = [] ∧
      (main sys opts disk).disk.read opts.output_file =
        some (output_head em ++ (em.sect .SECT_TEXT).image) := by
  have hpos : ¬ 0 < em.data.pos := by
    have hlen := (h.sound .SECT_DATA).length_image
    rw [hdata] at hlen
    exact Nat.not_lt.mpr (Nat.le_of_eq hlen.symm)
  have hhead := length_output_head em
  have hafter := output_after_le em
  have hold : (disk.create opts.output_file).2.data (disk.create opts.output_file).1 = [] := by
    rw [Disk.create_data, Disk.read, hnew]
    rfl
  have hrun : emitter_output_elf em .empty =
      .ok (0, (SparseFile.empty.put (output_head em)).put (em.sect .SECT_TEXT).image) := by
    have hwrite : SparseFile.empty.write (output_head em) =
        some (SparseFile.empty.put (output_head em)) := by
      apply write_eq_some.mpr
      refine ⟨?_, rfl⟩
      simp only [SparseFile.empty, OFF_MAX]
      omega
    have hroom : (SparseFile.empty.put (output_head em)).offset + BUF_SIZE ≤ OFF_MAX := by
      simp only [put_offset, SparseFile.empty, BUF_SIZE, OFF_MAX]
      omega
    unfold emitter_output_elf
    rw [hwrite]
    simp only
    rw [emit_section_small (h.sound .SECT_TEXT) (hs .SECT_TEXT).1 hroom, ok_bind]
    simp only
    rw [if_neg (by simp), if_neg hpos]
  rw [main_accepts hsys hextra hname hsrc h]
  unfold main_output
  rw [hold]
  have hrun' : emitter_output_elf em ⟨[], 0⟩ = _ := hrun
  rw [hrun']
  simp only
  rw [if_neg (by simp)]
  refine ⟨rfl, rfl, ?_⟩
  rw [Disk.read_store, if_pos (disk.create_node _), put_put, put_data_of_atEnd atEnd_empty]
  · simp
  · intro hnil
    have := congrArg List.length hnil
    rw [List.length_append, hhead, List.length_nil] at this
    omega

theorem addressable_of_small {vaddr : Sect → Nat} {p p' : Process} {texts : List (List UInt8)}
    (h : Assembles p texts p') (hp : p.em.Sound vaddr) (hs : p'.em.Small) :
    AddressableAll p texts := by
  induction texts generalizing p with
  | nil =>
    rw [assembles_nil] at h
    subst h
    exact fun s => (hs s).2
  | cons text texts ih =>
    have hsmall := h.small hp hs
    obtain ⟨rest, p1, hline, hrun⟩ := assembles_cons.mp h
    obtain ⟨r, _, hdoes⟩ := parse_line_does hline
    refine ⟨fun s => (hsmall s).2, fun p2 hcall => ?_⟩
    obtain ⟨r', hline'⟩ := parse_call_ok.mp hcall
    rw [hline] at hline'
    cases hline'
    exact ih hrun (hdoes.sound hp)

/-- No line of a listing says `_start`. -/
theorem listing_entry {text_vaddr data_vaddr : Nat} {ws : List (BitVec 32)} {p : Process}
    (h : IsProgram ws)
    (hrun : Assembles (.fresh 0 text_vaddr data_vaddr) (listing_texts ws) p) (hs : p.em.Small) :
    (output_ehdr p.em).e_entry = p.em.text.vaddr + output_after p.em := by
  have hbackward : ∀ k, start_label ≠ backward k := by
    intro k hc
    simp [start_label, backward, ch] at hc
  have hforward : ∀ k, start_label ≠ forward k := by
    intro k hc
    simp [start_label, forward, ch] at hc
  have haddr := addressable_of_small hrun (emitter.sound_fresh text_vaddr data_vaddr) hs
  apply (entry_without_definition hrun haddr ?_).mpr
  · rintro text ht ⟨assign, instr, hname⟩
    obtain ⟨i, hi⟩ := List.getElem?_of_mem ht
    obtain ⟨l, rfl, hline⟩ := listing_texts_get h hi
    obtain ⟨_, _, _, d, _, _, _, hkey⟩ := hline.refers hname
    unfold target_label at hkey
    split at hkey
    · exact hbackward _ hkey
    · exact hforward _ hkey
  · intro hdef
    obtain ⟨text, ht, hdefines⟩ := mem_definitions.mp hdef
    obtain ⟨i, hi⟩ := List.getElem?_of_mem ht
    obtain ⟨l, rfl, hline⟩ := listing_texts_get h hi
    rcases hline.defines hdefines with ⟨_, hkey⟩ | ⟨_, hkey⟩
    · exact hbackward _ hkey
    · exact hforward _ hkey

theorem listing_accepts (opts : Options) {ws : List (BitVec 32)} (hsys : sys.Works)
    (h : IsProgram ws)
    (htext : toU 64 opts.text_vaddr + 4 * ws.length < 2 ^ 63)
    (hdata : toU 64 opts.data_vaddr < 2 ^ 63)
    (hpage : (fileOf (listing ws) true).length % PAGE_SIZE ≠ 0) :
    ∃ p, Accepts sys opts (fileOf (listing ws) true) p.em ∧
      Assembles (.fresh 0 (toU 64 opts.text_vaddr) (toU 64 opts.data_vaddr)) (listing_texts ws) p ∧
      p.em.Small := by
  obtain ⟨p, hloop, hrun, hs⟩ := listing_loop h htext hdata
    (List.replicate (PAGE_SIZE - 1 - (fileOf (listing ws) true).length % PAGE_SIZE) 0)
  refine ⟨p, ⟨_, p, if_neg hpage, rfl, ?_⟩, hrun, hs⟩
  unfold first_process
  rw [hsys.errno]
  exact hloop

/-- The program takes the listing of a program to a file with its words after the headers,
where the entry point is. -/
theorem the_file_of_a_listing_has_the_words_of_the_program (sys : System) (opts : Options)
    (disk : Disk string) (ws : List (BitVec 32)) (hsys : sys.Works) (hextra : opts.extra_args = 2)
    (hname : opts.input_file ≠ opts.output_file) (h : IsProgram ws)
    (htext : toU 64 opts.text_vaddr + 4 * ws.length < 2 ^ 63)
    (hdata : toU 64 opts.data_vaddr < 2 ^ 63)
    (hsrc : disk.read opts.input_file = some (fileOf (listing ws) true))
    (hpage : (fileOf (listing ws) true).length % PAGE_SIZE ≠ 0)
    (hnew : disk.node opts.output_file = none) :
    (main sys opts disk).status = .ok 0 ∧ (main sys opts disk).printed = [] ∧ ∃ em : emitter,
      (main sys opts disk).disk.read opts.output_file =
        some (output_head em ++ ws.flatMap instr_bytes) ∧
      (output_head em).length = EHDR_SIZE + PHDR_SIZE ∧
      (text_phdr em).p_vaddr = toU 64 opts.text_vaddr ∧ (text_phdr em).p_filesz = 4 * ws.length ∧
      (output_ehdr em).e_entry = toU 64 opts.text_vaddr + (output_head em).length := by
  obtain ⟨p, haccepts, hrun, hs⟩ := listing_accepts opts hsys h htext hdata hpage
  have hitext := listing_images h hrun hs .SECT_TEXT
  have hidata := listing_images h hrun hs .SECT_DATA
  have hsize : p.em.text.pos = 4 * ws.length := by
    have hlen := (haccepts.sound .SECT_TEXT).length_image
    rw [hitext, if_pos rfl] at hlen
    rw [emitter.text, ← hlen]
    simp [List.length_flatMap, length_instr_bytes, Nat.mul_comm]
  have hnone : ¬ 0 < p.em.data.pos := by
    have hlen := (haccepts.sound .SECT_DATA).length_image
    rw [hidata] at hlen
    exact Nat.not_lt.mpr (Nat.le_of_eq hlen.symm)
  have hvaddr : p.em.text.vaddr = toU 64 opts.text_vaddr := (hrun.sound .SECT_TEXT).2.2
  have hhead : (output_head p.em).length = EHDR_SIZE + PHDR_SIZE := by
    rw [length_output_head, output_after, if_neg hnone]
  obtain ⟨hstatus, hprinted, hread⟩ := main_small_text hsys hextra hname hsrc hnew haccepts hs hidata
  rw [hitext] at hread
  refine ⟨hstatus, hprinted, p.em, hread, hhead, hvaddr, hsize, ?_⟩
  rw [listing_entry h hrun hs, hvaddr, length_output_head]

theorem the_file_of_the_listing_of_three :
    let opts := Options.defaults 2 (chars "a.s")
    let ws : List (BitVec 32) := [0x0080006f, 0xffb10093, 0xfe208ee3]
    let disk := Disk.empty.add (chars "a.s") (fileOf (listing ws) true)
    (main .working opts disk).status = .ok 0 ∧ (main .working opts disk).printed = [] ∧
      ∃ em : emitter, (main .working opts disk).disk.read (chars "a.out") =
          some (output_head em ++ ws.flatMap instr_bytes) ∧
        (output_head em).length = EHDR_SIZE + PHDR_SIZE ∧
        (text_phdr em).p_vaddr = toU 64 0x400000 ∧ (text_phdr em).p_filesz = 4 * 3 ∧
        (output_ehdr em).e_entry = toU 64 0x400000 + (output_head em).length := by
  intro opts ws disk
  apply the_file_of_a_listing_has_the_words_of_the_program .working opts disk ws
    System.working_works rfl (by decide) isProgram_of_three
  · simp [opts, ws, Options.defaults, toU]
  · simp [opts, Options.defaults, toU]
  · rfl
  · decide +kernel
  · rfl

/-! ## A program at other addresses -/

theorem Moved.sameBytes {σ : string → string} {K : Set string} {d : Int} (h : Moved σ K d em em') :
    SameBytes em em' := fun s => ⟨_, h.sect_eq s⟩

/-- The same options with other addresses. -/
def Options.at_vaddrs (opts : Options) (text_vaddr data_vaddr : Int) : Options :=
  { opts with text_vaddr, data_vaddr }

theorem Accepts.move {d text_vaddr data_vaddr : Int} {src : List UInt8} (hsys : sys.Works)
    (ht : (toU 64 text_vaddr : Int) = toU 64 opts.text_vaddr + d)
    (hd : (toU 64 data_vaddr : Int) = toU 64 opts.data_vaddr + d) (h : Accepts sys opts src em)
    (hfit : ∀ s, ((em.sect s).vaddr : Int) + (em.sect s).pos < 2 ^ 63)
    (hfit' : ∀ s, ((em.sect s).vaddr : Int) + d + (em.sect s).pos < 2 ^ 63) :
    ∃ em', Accepts sys (opts.at_vaddrs text_vaddr data_vaddr) src em' ∧
      Moved id Set.univ d em em' := by
  obtain ⟨tail, p, hmap, rfl, hloop⟩ := h
  have hsound := emitter.sound_base (toU 64 opts.text_vaddr) (toU 64 opts.data_vaddr)
  have hcalls : Assembles (.fresh sys.errno (toU 64 opts.text_vaddr) (toU 64 opts.data_vaddr)) _
      p := main_loop_calls hloop
  have hvaddr : ∀ s, (p.em.sect s).vaddr =
      base (toU 64 opts.text_vaddr) (toU 64 opts.data_vaddr) s := by
    intro s
    rw [(hcalls.sound s).2.2]
    cases s <;> rfl
  simp only [hvaddr] at hfit hfit'
  have hmoved : Moved id Set.univ d (first_process sys opts).em _ := moved_fresh ht hd
  obtain ⟨em', hloop', hem'⟩ := hmoved.loop hsound hloop hfit hfit'
  refine ⟨em', ⟨tail, ⟨0, em'⟩, hmap, rfl, ?_⟩, hem'⟩
  unfold first_process Options.at_vaddrs
  rw [hsys.errno]
  exact hloop'

/-- A program that is moved as a whole keeps its bytes: its file differs in the headers alone,
and all its labels move with it. -/
theorem a_moved_program_differs_in_its_headers_alone (sys : System) (opts : Options)
    (text_vaddr data_vaddr d : Int) (disk : Disk string) (src : List UInt8) (em : emitter)
    (hsys : sys.Works) (hextra : opts.extra_args = 2) (hname : opts.input_file ≠ opts.output_file)
    (ht : (toU 64 text_vaddr : Int) = toU 64 opts.text_vaddr + d)
    (hd : (toU 64 data_vaddr : Int) = toU 64 opts.data_vaddr + d)
    (hsrc : disk.read opts.input_file = some src) (h : Accepts sys opts src em)
    (hfit : ∀ s, ((em.sect s).vaddr : Int) + (em.sect s).pos < 2 ^ 63)
    (hfit' : ∀ s, ((em.sect s).vaddr : Int) + d + (em.sect s).pos < 2 ^ 63) :
    ∃ em', Accepts sys (opts.at_vaddrs text_vaddr data_vaddr) src em' ∧
      (∀ key, em'.labels.lookup key = (em.labels.lookup key).map (label.move d)) ∧
      (main sys (opts.at_vaddrs text_vaddr data_vaddr) disk).status = (main sys opts disk).status ∧
      (main sys (opts.at_vaddrs text_vaddr data_vaddr) disk).printed =
        (main sys opts disk).printed ∧
      ((main sys opts disk).status = .ok 0 → ∃ out out',
        (main sys opts disk).disk.read opts.output_file = some out ∧
        (main sys (opts.at_vaddrs text_vaddr data_vaddr) disk).disk.read opts.output_file =
          some out' ∧
        out'.length = out.length ∧ ∀ i, output_after em ≤ i → out'.getD i 0 = out.getD i 0) := by
  obtain ⟨em', h', hmoved⟩ := h.move hsys ht hd hfit hfit'
  have hrun := main_accepts hsys hextra hname hsrc h
  have hrun' : main sys (opts.at_vaddrs text_vaddr data_vaddr) disk = _ :=
    main_accepts hsys hextra hname hsrc h'
  have hout : (opts.at_vaddrs text_vaddr data_vaddr).output_file = opts.output_file := rfl
  obtain ⟨hstatus, hprinted⟩ := main_output_alike sys hout (disk.create opts.output_file).1
    (disk.create opts.output_file).1 (disk.create opts.output_file).2
    (disk.create opts.output_file).2 hmoved.sameBytes
  rw [hrun, hrun']
  refine ⟨em', h', fun key => hmoved.lookup_eq key trivial, hstatus, hprinted, fun hzero => ?_⟩
  have hdisk := main_output_zero h.sound hzero
  have hdisk' := main_output_zero h'.sound (hstatus.trans hzero)
  have hagree := put_output_agrees hmoved.sameBytes
    ⟨(disk.create opts.output_file).2.data (disk.create opts.output_file).1, 0⟩ rfl
  refine ⟨_, _, ?_, ?_, hagree.length_eq, hagree.same⟩
  · rw [hdisk, Disk.read_store, if_pos (disk.create_node _)]
  · have hread : (main_output sys (opts.at_vaddrs text_vaddr data_vaddr)
        (disk.create opts.output_file).1 (disk.create opts.output_file).2 em').disk.read
          opts.output_file = _ := congrArg (Disk.read · opts.output_file) hdisk'
    rw [Disk.read_store, if_pos (disk.create_node _)] at hread
    exact hread

theorem the_listing_of_three_moves :
    let opts := Options.defaults 2 (chars "a.s")
    let src := fileOf (listing [0x0080006f, 0xffb10093, 0xfe208ee3]) true
    let disk := Disk.empty.add (chars "a.s") src
    let opts' := opts.at_vaddrs 0x500000 0x10110000
    ∃ em em', Accepts .working opts' src em' ∧
      (∀ key, em'.labels.lookup key = (em.labels.lookup key).map (label.move 0x100000)) ∧
      (main .working opts' disk).status = (main .working opts disk).status ∧
      (main .working opts' disk).printed = (main .working opts disk).printed ∧
      ((main .working opts disk).status = .ok 0 → ∃ out out',
        (main .working opts disk).disk.read (chars "a.out") = some out ∧
        (main .working opts' disk).disk.read (chars "a.out") = some out' ∧
        out'.length = out.length ∧ ∀ i, output_after em ≤ i → out'.getD i 0 = out.getD i 0) := by
  intro opts src disk opts'
  have htext : toU 64 opts.text_vaddr = 0x400000 := by simp [opts, Options.defaults, toU]
  have hdata : toU 64 opts.data_vaddr = 0x10010000 := by simp [opts, Options.defaults, toU]
  obtain ⟨p, haccepts, hrun, hs⟩ := listing_accepts opts System.working_works
    isProgram_of_three (by rw [htext]; decide) (by rw [hdata]; decide) (by decide +kernel)
  have haddr : ∀ s, ((p.em.sect s).vaddr : Int) < 2 ^ 62 ∧ (p.em.sect s).pos < 4096 := by
    intro s
    have hv := (hrun.sound s).2.2
    refine ⟨?_, (hs s).1.pos_lt⟩
    rw [hv, htext, hdata]
    cases s <;> decide
  refine ⟨p.em, a_moved_program_differs_in_its_headers_alone .working opts 0x500000 0x10110000
    0x100000 disk src p.em System.working_works rfl (by decide) ?_ ?_ rfl haccepts ?_ ?_⟩
  · rw [htext]
    simp [toU]
  · rw [hdata]
    simp [toU]
  · intro s
    have := haddr s
    omega
  · intro s
    have := haddr s
    omega

end riscv_assembler
