-- The laws of the whole program: which files a run changes, and what the output
-- file keeps of the bytes that it held before.
import RiscvAssembler.Main
import RiscvAssembler.OutputLaws

open checked machine_int c_text SparseFile

namespace riscv_assembler

/-! ## The course of a run -/

/-- The loop accepts the source. -/
def Accepts (sys : System) (opts : Options) (src : List UInt8) (em : emitter) : Prop :=
  ∃ tail p, map_source src = .ok tail ∧ p.em = em ∧
    main_loop (tail.length + 1) 1 (src ++ ch '\n' :: tail) (first_process sys opts) = .ok (.ok p)

theorem Accepts.sound {sys : System} {opts : Options} {src : List UInt8} {em : emitter}
    (h : Accepts sys opts src em) (s : Sect) : (em.sect s).Ok := by
  obtain ⟨tail, p, _, rfl, hloop⟩ := h
  have hrun : Assembles (.fresh sys.errno (toU 64 opts.text_vaddr) (toU 64 opts.data_vaddr)) _ p :=
    main_loop_calls hloop
  exact (hrun.sound s).1

/-- What the source makes of a run, whatever else the disk holds. -/
inductive Course
  /-- No file is opened. -/
  | refused (printed : List UInt8)
  /-- The output file is opened, and nothing is written to it. -/
  | stopped (status : Result Int) (printed : List UInt8)
  | reached (em : emitter)

def Course.outcome (sys : System) (opts : Options) (disk : Disk string) : Course → Outcome
  | .refused printed => ⟨.ok 1, printed, disk⟩
  | .stopped status printed => ⟨status, printed, (disk.create opts.output_file).2⟩
  | .reached em =>
    main_output sys opts (disk.create opts.output_file).1 (disk.create opts.output_file).2 em

/-- The courses that a run can take on a source. -/
def Course.Of (sys : System) (opts : Options) (src : Option (List UInt8)) : Course → Prop
  | .refused _ => True
  | .stopped status _ => status ≠ .ok 0 ∧
    ∀ f, status = .error f → ∀ bytes em, src = some bytes → ¬ Accepts sys opts bytes em
  | .reached em => ∃ bytes, src = some bytes ∧ Accepts sys opts bytes em

variable {sys : System} {opts : Options} {em em' : emitter}

theorem open_source_congr {input_file : string} {disk disk' : Disk string}
    (h : disk.read input_file = disk'.read input_file) :
    open_source sys input_file disk = open_source sys input_file disk' := by
  unfold open_source
  rw [h]

theorem open_source_ok {input_file : string} {disk : Disk string} {src : List UInt8}
    (h : open_source sys input_file disk = .ok src) : disk.read input_file = some src := by
  unfold open_source at h
  split at h
  · cases h
  · split at h
    · cases h
    · rename_i bytes hread
      split at h
      · cases h
      · split at h
        · cases h
        · split at h
          · cases h
          · cases h
            exact hread

theorem Course.of_message (printed : List UInt8) (src : Option (List UInt8)) :
    (Course.stopped (.ok 1) printed).Of sys opts src := by
  unfold Course.Of
  simp

theorem Course.of_fault {f : Fault} {src : List UInt8} (h : ∀ em, ¬ Accepts sys opts src em) :
    (Course.stopped (.error f) []).Of sys opts (some src) := by
  unfold Course.Of
  refine ⟨by simp, fun _ _ bytes em hbytes => ?_⟩
  cases hbytes
  exact h em

theorem main_source_course (sys : System) (opts : Options) (src : List UInt8) :
    ∃ c : Course, c.Of sys opts (some src) ∧ ∀ disk : Disk string,
      main_source sys opts (disk.create opts.output_file).1 (disk.create opts.output_file).2 src =
        c.outcome sys opts disk := by
  unfold main_source
  rcases hmap : map_source src with f | tail
  · refine ⟨.stopped (.error f) [], Course.of_fault ?_, fun _ => rfl⟩
    rintro em ⟨tail, p, hmap', _⟩
    rw [hmap] at hmap'
    cases hmap'
  · simp only
    split
    · exact ⟨.stopped (.ok 1) _, Course.of_message _ _, fun _ => rfl⟩
    · split
      · exact ⟨.stopped (.ok 1) _, Course.of_message _ _, fun _ => rfl⟩
      · rcases hloop : main_loop (tail.length + 1) 1 (src ++ ch '\n' :: tail)
          (first_process sys opts) with f | ⟨⟨line, err⟩ | p⟩
        · refine ⟨.stopped (.error f) [], Course.of_fault ?_, fun _ => rfl⟩
          rintro em ⟨tail', p, hmap', _, hloop'⟩
          rw [hmap] at hmap'
          cases hmap'
          rw [hloop] at hloop'
          cases hloop'
        · exact ⟨.stopped (.ok 1) _, Course.of_message _ _, fun _ => rfl⟩
        · exact ⟨.reached p.em, ⟨src, rfl, tail, p, hmap, rfl, hloop⟩, fun _ => rfl⟩

/-- A run of `main` takes a course that only the source decides. -/
theorem main_course (sys : System) (opts : Options) (src : Option (List UInt8)) :
    ∃ c : Course, c.Of sys opts src ∧
      ∀ disk : Disk string, disk.read opts.input_file = src →
        main sys opts disk = c.outcome sys opts disk := by
  unfold main
  by_cases hextra : opts.extra_args ≠ 2
  · exact ⟨.refused _, trivial, fun _ _ => if_pos hextra⟩
  · simp only [if_neg hextra]
    by_cases hname : opts.input_file = opts.output_file
    · exact ⟨.refused _, trivial, fun _ _ => if_pos hname⟩
    · simp only [if_neg hname]
      rcases sys.open_output with _ | errno
      · simp only
        have hread : ∀ disk : Disk string, disk.read opts.input_file = src →
            (disk.create opts.output_file).2.read opts.input_file = src := by
          intro disk h
          rw [disk.create_read_of_ne hname, h]
        by_cases hex : ∃ disk : Disk string, disk.read opts.input_file = src
        · obtain ⟨disk0, h0⟩ := hex
          have hsame : ∀ disk : Disk string, disk.read opts.input_file = src →
              open_source sys opts.input_file (disk.create opts.output_file).2 =
                open_source sys opts.input_file disk0 := by
            intro disk h
            apply open_source_congr
            rw [hread disk h, h0]
          rcases hopen : open_source sys opts.input_file disk0 with message | bytes
          · refine ⟨.stopped (.ok 1) message, Course.of_message _ _, fun disk h => ?_⟩
            rw [hsame disk h, hopen]
            rfl
          · obtain ⟨c, hof, hrun⟩ := main_source_course sys opts bytes
            obtain rfl := h0.symm.trans (open_source_ok hopen)
            refine ⟨c, hof, fun disk h => ?_⟩
            rw [hsame disk h, hopen]
            exact hrun disk
        · exact ⟨.refused [], trivial, fun disk h => absurd ⟨disk, h⟩ hex⟩
      · exact ⟨.refused _, trivial, fun _ _ => rfl⟩

/-! ## The files after a run -/

theorem main_output_disk (sys : System) (opts : Options) (fd : Nat) (disk : Disk string)
    (em : emitter) : ∃ bytes, (main_output sys opts fd disk em).disk = disk.store fd bytes := by
  unfold main_output
  split
  · exact ⟨disk.data fd, by simp [Disk.store]⟩
  · split
    · exact ⟨_, rfl⟩
    · exact ⟨_, rfl⟩

/-- Two outputs of the same bytes print and return the same. -/
theorem main_output_alike (sys : System) {opts opts' : Options}
    (hname : opts'.output_file = opts.output_file)
    (fd fd' : Nat) (disk disk' : Disk string) (hem : SameBytes em em') :
    (main_output sys opts' fd' disk' em').status = (main_output sys opts fd disk em).status ∧
      (main_output sys opts' fd' disk' em').printed = (main_output sys opts fd disk em).printed := by
  have halike :=
    emitter_output_elf_alike hem (f := ⟨disk.data fd, 0⟩) (g := ⟨disk'.data fd', 0⟩) rfl
  unfold main_output
  generalize emitter_output_elf em ⟨disk.data fd, 0⟩ = x at halike ⊢
  generalize emitter_output_elf em' ⟨disk'.data fd', 0⟩ = y at halike ⊢
  cases halike with
  | fault e => exact ⟨rfl, rfl⟩
  | gives err h =>
    simp only
    rw [hname]
    split
    · exact ⟨rfl, rfl⟩
    · exact ⟨rfl, rfl⟩

theorem main_output_zero {fd : Nat} {disk : Disk string} {em : emitter}
    (hok : ∀ s, (em.sect s).Ok) (h : (main_output sys opts fd disk em).status = .ok 0) :
    (main_output sys opts fd disk em).disk =
      disk.store fd (put_output em ⟨disk.data fd, 0⟩).data := by
  unfold main_output at h ⊢
  rcases hrun : emitter_output_elf em ⟨disk.data fd, 0⟩ with f | ⟨err, out⟩
  · rw [hrun] at h
    cases h
  · rw [hrun] at h
    simp only at h ⊢
    split at h
    · cases h
    · rename_i herr
      rw [not_not] at herr
      subst herr
      rw [emitter_output_elf_lays (hok .SECT_TEXT) (hok .SECT_DATA) hrun]
      rfl

theorem main_output_returns (sys : System) (opts : Options) (fd : Nat) (disk : Disk string)
    (hok : ∀ s, (em.sect s).Ok) (f : Fault) :
    (main_output sys opts fd disk em).status ≠ .error f := by
  obtain ⟨⟨err, out⟩, hrun⟩ := emitter_output_elf_gives (hok .SECT_TEXT) (hok .SECT_DATA)
    ⟨disk.data fd, 0⟩
  unfold main_output
  rw [hrun]
  simp only
  split <;> simp

/-- A run changes the bytes of the output file alone. If the source is not accepted it
changes none and can only make that file, empty, and no fault stops it otherwise. -/
theorem a_run_changes_the_output_file_alone (sys : System) (opts : Options) (disk : Disk string) :
    (∀ name, name ≠ opts.output_file → (main sys opts disk).disk.node name = disk.node name) ∧
    (∀ name bytes, disk.read name = some bytes →
      disk.node name ≠ disk.node opts.output_file ∨
        (∀ src em, disk.read opts.input_file = some src → ¬ Accepts sys opts src em) →
      (main sys opts disk).disk.read name = some bytes) ∧
    ((∀ src em, disk.read opts.input_file = some src → ¬ Accepts sys opts src em) →
      (main sys opts disk).status ≠ .ok 0 ∧
        ∀ bytes, disk.read opts.output_file = none →
          (main sys opts disk).disk.read opts.output_file = some bytes → bytes = []) ∧
    (∀ f, (main sys opts disk).status = .error f →
      ∀ src em, disk.read opts.input_file = some src → ¬ Accepts sys opts src em) := by
  obtain ⟨c, hof, hrun⟩ := main_course sys opts (disk.read opts.input_file)
  rw [hrun disk rfl]
  cases c with
  | refused printed =>
    refine ⟨fun _ _ => rfl, fun _ _ hread _ => hread, fun _ => ⟨by simp [Course.outcome], ?_⟩,
      fun f hf => by simp [Course.outcome] at hf⟩
    intro bytes hnone hread
    exact absurd (hnone.symm.trans hread) (by simp)
  | stopped status printed =>
    refine ⟨fun _ hname => disk.create_node_of_ne hname, fun _ _ hread _ => ?_,
      fun _ => ⟨hof.1, ?_⟩, hof.2⟩
    · exact Disk.create_read hread opts.output_file
    · intro bytes hnone hread
      have hdata := disk.create_data opts.output_file
      rw [hnone] at hdata
      have hread : (disk.create opts.output_file).2.read opts.output_file = some bytes := hread
      rw [Disk.read_of_node (disk.create_node _), hdata] at hread
      exact (Option.some.inj hread).symm
  | reached em =>
    obtain ⟨src, hsrc, haccepts⟩ := hof
    unfold Course.outcome
    simp only
    obtain ⟨out, hdisk⟩ := main_output_disk sys opts
      (disk.create opts.output_file).1 (disk.create opts.output_file).2 em
    rw [hdisk]
    refine ⟨fun _ hname => disk.create_node_of_ne hname, fun name bytes hread hor => ?_,
      fun hnot => absurd haccepts (hnot src em hsrc),
      fun f hf => absurd hf (main_output_returns sys opts _ _ haccepts.sound f)⟩
    rcases hor with hne | hnot
    · rw [Disk.read_store, if_neg ?_]
      · exact Disk.create_read hread opts.output_file
      · intro hnode
        have hname : name ≠ opts.output_file := fun hc => hne (by rw [hc])
        rw [disk.create_node_of_ne hname] at hnode
        rcases hout : disk.node opts.output_file with _ | n
        · rw [(Disk.create_missing hout).1] at hnode
          exact absurd (disk.node_lt hnode) (Nat.lt_irrefl _)
        · rw [Disk.create_of_node hout] at hnode
          exact hne (hnode.trans hout.symm)
    · exact absurd haccepts (hnot src em hsrc)

/-- What the output file held does not change what a run prints and returns. After a
run that succeeds it shows wherever the output puts no byte, so the file is that of a run into
a new file only if it was not longer and was zero there. -/
theorem an_old_output_file_shows_where_nothing_is_put (sys : System) (opts : Options)
    (fresh used : Disk string) (old : List UInt8) (hfresh : fresh.node opts.output_file = none)
    (hused : used.read opts.output_file = some old)
    (hsrc : used.read opts.input_file = fresh.read opts.input_file) :
    (main sys opts used).status = (main sys opts fresh).status ∧
    (main sys opts used).printed = (main sys opts fresh).printed ∧
    ((main sys opts fresh).status = .ok 0 → ∃ src em out out',
      fresh.read opts.input_file = some src ∧ Accepts sys opts src em ∧
      (main sys opts fresh).disk.read opts.output_file = some out ∧
      (main sys opts used).disk.read opts.output_file = some out' ∧
      out'.length = max old.length out.length ∧
      (∀ i, out'.getD i 0 = (if OutputAt em i then out else old).getD i 0) ∧
      (out' = out ↔ old.length ≤ out.length ∧ ∀ i, ¬ OutputAt em i → old.getD i 0 = 0)) := by
  obtain ⟨c, hof, hrun⟩ := main_course sys opts (fresh.read opts.input_file)
  rw [hrun fresh rfl, hrun used hsrc]
  cases c with
  | refused printed => exact ⟨rfl, rfl, fun h => by simp [Course.outcome] at h⟩
  | stopped status printed => exact ⟨rfl, rfl, fun h => absurd h hof.1⟩
  | reached em =>
    obtain ⟨src, hread, haccepts⟩ := hof
    unfold Course.outcome
    simp only
    obtain ⟨hstatus, hprinted⟩ := main_output_alike sys (rfl : opts.output_file = opts.output_file)
      (fresh.create opts.output_file).1 (used.create opts.output_file).1
      (fresh.create opts.output_file).2 (used.create opts.output_file).2 (.refl em)
    refine ⟨hstatus, hprinted, fun hzero => ?_⟩
    have hfirst : (fresh.create opts.output_file).2.data (fresh.create opts.output_file).1 = [] := by
      rw [Disk.create_data, Disk.read, hfresh]
      rfl
    have hsecond : (used.create opts.output_file).2.data (used.create opts.output_file).1 = old := by
      rw [Disk.create_data, hused]
      rfl
    have hover := put_output_over em old
    rw [main_output_zero haccepts.sound hzero, main_output_zero haccepts.sound (hstatus.trans hzero),
      Disk.read_store, Disk.read_store, if_pos (fresh.create_node _), if_pos (used.create_node _),
      hfirst, hsecond]
    refine ⟨src, em, _, _, hread, haccepts, rfl, rfl, hover.length_eq, fun i => ?_,
      hover.data_eq_iff⟩
    split
    · rename_i hi
      exact hover.same i hi
    · rename_i hi
      exact (hover.kept i hi).2

/-- A machine on which every call succeeds. -/
def System.working : System where
  open_output := none
  open_input := none
  fstat := none
  mmap := none
  calloc := true
  open_swap := fun _ => true
  errno := 0
  emit_errno := 0
  strerror := fun _ => []

/-- The output has the headers alone. -/
theorem a_longer_old_file_shows_behind_the_output :
    let opts := Options.defaults 2 (chars "a.s")
    let fresh := Disk.empty.add (chars "a.s") (chars ".data")
    let old := List.replicate 200 1
    let used := fresh.add (chars "a.out") old
    (main .working opts used).status = (main .working opts fresh).status ∧
    (main .working opts used).printed = (main .working opts fresh).printed ∧
    ((main .working opts fresh).status = .ok 0 → ∃ src em out out',
      fresh.read (chars "a.s") = some src ∧ Accepts .working opts src em ∧
      (main .working opts fresh).disk.read (chars "a.out") = some out ∧
      (main .working opts used).disk.read (chars "a.out") = some out' ∧
      out'.length = max old.length out.length ∧
      (∀ i, out'.getD i 0 = (if OutputAt em i then out else old).getD i 0) ∧
      (out' = out ↔ old.length ≤ out.length ∧ ∀ i, ¬ OutputAt em i → old.getD i 0 = 0)) := by
  intro opts fresh old used
  exact an_old_output_file_shows_where_nothing_is_put .working opts fresh used old rfl rfl rfl

/-! ## Runs without failures -/

/-- No call fails. -/
structure System.Works (sys : System) : Prop where
  open_output : sys.open_output = none
  open_input : sys.open_input = none
  fstat : sys.fstat = none
  mmap : sys.mmap = none
  calloc : sys.calloc = true
  open_swap : ∀ s, sys.open_swap s = true
  errno : sys.errno = 0

theorem System.working_works : System.working.Works :=
  ⟨rfl, rfl, rfl, rfl, rfl, fun _ => rfl, rfl⟩

theorem main_accepts {disk : Disk string} {src : List UInt8} {em : emitter} (hsys : sys.Works)
    (hextra : opts.extra_args = 2) (hname : opts.input_file ≠ opts.output_file)
    (hsrc : disk.read opts.input_file = some src) (h : Accepts sys opts src em) :
    main sys opts disk =
      main_output sys opts (disk.create opts.output_file).1 (disk.create opts.output_file).2 em := by
  obtain ⟨tail, p, hmap, rfl, hloop⟩ := h
  have hlen : src.length ≠ 0 := by
    intro hzero
    unfold map_source at hmap
    rw [hzero] at hmap
    simp at hmap
  have hopen : open_source sys opts.input_file (disk.create opts.output_file).2 = .ok src := by
    unfold open_source
    rw [hsys.open_input, disk.create_read_of_ne hname, hsrc, hsys.fstat, hsys.mmap]
    simp only
    rw [if_neg hlen]
  unfold main
  rw [if_neg (by simp [hextra]), if_neg hname, hsys.open_output]
  simp only
  rw [hopen]
  simp only
  unfold main_source
  rw [hmap]
  simp only
  rw [if_neg (by simp [hsys.calloc]), if_neg (by simp [hsys.open_swap]), hloop]

end riscv_assembler
