-- The entry point of the output file: it is the address of `_start`, unless a line
-- names `_start` before its definition or without one.
import RiscvAssembler.ElfLaws
import RiscvAssembler.LabelValues
import RiscvAssembler.Targets

open checked machine_int c_text

namespace riscv_assembler

variable {p q : Process} {texts : List (List UInt8)} {key : string}

/-! ## Definitions in a section -/

/-- Line `j` of the run defines the label in the section, at offset `k`. -/
def DefinesIn (first : Process) (texts : List (List UInt8)) (j : Nat) (key : string) (s : Sect)
    (k : Nat) : Prop :=
  ∃ text q, texts[j]? = some text ∧ Assembles first (texts.take j) q ∧
    reading text = some (.define key) ∧ q.em.current_section = s ∧ k = q.em.cur.pos

/-- The entry point is where the text has `_start`, or it is the start of the
text when the file does not define `_start`. -/
def EntryIsStart (first : Process) (texts : List (List UInt8)) (p : Process) : Prop :=
  (∀ j k, DefinesIn first texts j start_label .SECT_TEXT k →
    (output_ehdr p.em).e_entry = p.em.text.vaddr + output_after p.em + k) ∧
  (start_label ∉ definitions texts →
    (output_ehdr p.em).e_entry = p.em.text.vaddr + output_after p.em)

/-- No line names `_start` before its definition in the text, and none names it
when there is no definition. -/
def StartNotAwaited (first : Process) (texts : List (List UInt8)) : Prop :=
  (∀ j k, DefinesIn first texts j start_label .SECT_TEXT k →
    ∀ text ∈ texts.take j, ¬ Names text start_label) ∧
  (start_label ∉ definitions texts → ∀ text ∈ texts, ¬ Names text start_label)

/-! ## The entry from the table -/

theorem entry_of_value {em : emitter} {a : Nat} (h : em.value start_label = some (a : Int))
    (ha : a < 2 ^ 63) : (output_ehdr em).e_entry = a + output_after em := by
  have hafter := (output_after_le em).2
  obtain ⟨e, hl, hv⟩ := Option.map_eq_some_iff.mp h
  have hval : toU 64 e.val = a := by
    rw [hv]
    exact toU_of_lt (by omega)
  rw [output_ehdr, output_entry, hl]
  simp only [hval]
  exact_mod_cast toU_of_lt (n := a + output_after em) (by omega)

theorem entry_of_none {em : emitter} (h : em.value start_label = none)
    (ha : em.text.vaddr < 2 ^ 63) :
    (output_ehdr em).e_entry = em.text.vaddr + output_after em := by
  have hafter := (output_after_le em).2
  have hl : em.labels.lookup start_label = none := Option.map_eq_none_iff.mp h
  rw [output_ehdr, output_entry, hl]
  exact_mod_cast toU_of_lt (n := em.text.vaddr + output_after em) (by omega)

/-- The entry is in the headers when `_start` is awaited. -/
theorem entry_of_awaited {em : emitter} (h : em.value start_label = some (-1)) :
    (output_ehdr em).e_entry + 1 = output_after em := by
  obtain ⟨hmin, hmax⟩ := output_after_le em
  obtain ⟨e, hl, hv⟩ := Option.map_eq_some_iff.mp h
  rw [output_ehdr, output_entry, hl]
  simp only [hv]
  unfold toU
  omega

/-! ## Whole files -/

section Fresh

variable {errno : Int} {text_vaddr data_vaddr : Nat}

/-- The addresses of the sections never change. -/
theorem Assembles.vaddr_eq (h : Assembles (.fresh errno text_vaddr data_vaddr) texts p) {i : Nat}
    (hq : Assembles (.fresh errno text_vaddr data_vaddr) (texts.take i) q) (s : Sect) :
    (q.em.sect s).vaddr = (p.em.sect s).vaddr := (hq.sound s).2.2.trans (h.sound s).2.2.symm

/-- The value that a label has from a definition on: its address, or -1 if a line
named the label before. -/
theorem value_after_definition (h : Assembles (.fresh errno text_vaddr data_vaddr) texts p)
    (haddr : AddressableAll (.fresh errno text_vaddr data_vaddr) texts) {j k : Nat} {s : Sect}
    (hd : DefinesIn (.fresh errno text_vaddr data_vaddr) texts j key s k) :
    (p.em.value key = some (((p.em.sect s).vaddr + k : Nat) : Int) ∧ (p.em.sect s).vaddr + k < 2 ^ 63 ∧
        ∀ text ∈ texts.take j, ¬ Names text key) ∨
      (p.em.value key = some (-1) ∧ ∃ text ∈ texts.take j, Names text key) := by
  obtain ⟨text, q, ht, hq, hdef, rfl, rfl⟩ := hd
  obtain ⟨rest, q1, hline, hrun⟩ := line_of_run h ht hq
  rw [← List.take_append_drop j texts] at haddr
  rcases value_of_accepted hq.calls haddr hline hdef with ⟨hvalue, hno⟩ | ⟨hvalue, hnames⟩
  · have hfit := (haddr.split hq.calls).2.here q.em.current_section
    rw [← h.vaddr_eq hq]
    exact Or.inl ⟨hrun.calls.value_some hvalue, hfit, hno⟩
  · exact Or.inr ⟨hrun.calls.value_some hvalue, hnames⟩

/-- The entry is the definition in the text exactly when no line names `_start`
before it. -/
theorem entry_of_definition (h : Assembles (.fresh errno text_vaddr data_vaddr) texts p)
    (haddr : AddressableAll (.fresh errno text_vaddr data_vaddr) texts) {j k : Nat}
    (hd : DefinesIn (.fresh errno text_vaddr data_vaddr) texts j start_label .SECT_TEXT k) :
    (output_ehdr p.em).e_entry = p.em.text.vaddr + output_after p.em + k ↔
      ∀ text ∈ texts.take j, ¬ Names text start_label := by
  rcases value_after_definition h haddr hd with ⟨hvalue, hfit, hno⟩ | ⟨hvalue, t, ht, hname⟩
  · have hentry := entry_of_value hvalue hfit
    refine iff_of_true ?_ hno
    rw [hentry, emitter.text]
    omega
  · have hentry := entry_of_awaited hvalue
    exact iff_of_false (by omega) fun hno => hno t ht hname

/-- Without a definition the entry is the start of the text exactly when no line
names `_start`. -/
theorem entry_without_definition (h : Assembles (.fresh errno text_vaddr data_vaddr) texts p)
    (haddr : AddressableAll (.fresh errno text_vaddr data_vaddr) texts)
    (hk : start_label ∉ definitions texts) :
    (output_ehdr p.em).e_entry = p.em.text.vaddr + output_after p.em ↔
      ∀ text ∈ texts, ¬ Names text start_label := by
  have hfit : p.em.Addressable := by
    have hsplit := haddr
    rw [← List.append_nil texts] at hsplit
    exact (hsplit.split h.calls).2
  rcases h.calls.value_none haddr rfl with ⟨hnone, hno⟩ | ⟨v, _, _, t, ht, hdef⟩ | ⟨hv, hnames⟩
  · have := hfit .SECT_TEXT
    exact iff_of_true (entry_of_none hnone (by unfold emitter.text; omega)) hno
  · exact absurd (mem_definitions.mpr ⟨t, ht, hdef⟩) hk
  · have hentry := entry_of_awaited hv
    refine iff_of_false (by omega) fun hno => ?_
    obtain ⟨t, ht, hname⟩ := hnames
    exact hno t ht hname

end Fresh

/-- The entry point of an accepted file is its `_start` exactly when no line names
`_start` before its definition in the text, or at all without one. -/
theorem the_entry_is_start_iff_start_is_not_awaited (text_vaddr data_vaddr : Nat)
    (file tail : List UInt8) (p : Process)
    (h : main_loop (tail.length + 1) 1 (file ++ ch '\n' :: tail)
      (.fresh 0 text_vaddr data_vaddr) = .ok (.ok p))
    (haddr : AddressableAll (.fresh 0 text_vaddr data_vaddr)
      (main_calls (tail.length + 1) (file ++ ch '\n' :: tail) (.fresh 0 text_vaddr data_vaddr))) :
    EntryIsStart (.fresh 0 text_vaddr data_vaddr)
        (main_calls (tail.length + 1) (file ++ ch '\n' :: tail) (.fresh 0 text_vaddr data_vaddr)) p ↔
      StartNotAwaited (.fresh 0 text_vaddr data_vaddr)
        (main_calls (tail.length + 1) (file ++ ch '\n' :: tail)
          (.fresh 0 text_vaddr data_vaddr)) := by
  have hrun := main_loop_calls h
  refine and_congr ?_ ?_
  · exact forall_congr' fun j => forall_congr' fun k => forall_congr' fun hd =>
      entry_of_definition hrun haddr hd
  · exact forall_congr' fun hk => entry_without_definition hrun haddr hk

/-- A file of one line that the loop accepts. -/
theorem one_line_file {file : List UInt8} {first : Process} {P : Process → Prop} [DecidablePred P]
    (h : ((parse_line (file ++ [ch '\n']) first).map fun r => r.1.toOption.map Prod.snd).toOption =
        some (some [ch '\n']))
    (hp : Reaches first [file ++ [ch '\n']] P) :
    ∃ p, main_loop 1 1 (file ++ [ch '\n']) first = .ok (.ok p) ∧
      main_calls 1 (file ++ [ch '\n']) first = [file ++ [ch '\n']] ∧ P p := by
  obtain ⟨p, hline, hP⟩ := hp.line h
  exact ⟨p, (main_loop_one_line hline).1, (main_loop_one_line hline).2, hP⟩

/-- A jump to `_start`, which is not defined, moves the entry point. -/
theorem a_jump_to_start_moves_the_entry :
    ¬ ∀ (text_vaddr data_vaddr : Nat) (file tail : List UInt8) (p : Process),
      main_loop (tail.length + 1) 1 (file ++ ch '\n' :: tail)
        (.fresh 0 text_vaddr data_vaddr) = .ok (.ok p) →
      AddressableAll (.fresh 0 text_vaddr data_vaddr)
        (main_calls (tail.length + 1) (file ++ ch '\n' :: tail) (.fresh 0 text_vaddr data_vaddr)) →
      EntryIsStart (.fresh 0 text_vaddr data_vaddr)
        (main_calls (tail.length + 1) (file ++ ch '\n' :: tail) (.fresh 0 text_vaddr data_vaddr))
        p := by
  intro hall
  let first : Process := .fresh 0 0x400000 0x10010000
  let file := chars "jal x0, _start"
  have hruns : ((parse_line (file ++ [ch '\n']) first).map
        fun r => r.1.toOption.map Prod.snd).toOption = some (some [ch '\n']) ∧
      (Reaches first [file ++ [ch '\n']] fun p => (output_ehdr p.em).e_entry = 119 ∧
        p.em.text.vaddr = 0x400000) ∧
      AddressableAll first [file ++ [ch '\n']] ∧
      start_label ∉ definitions [file ++ [ch '\n']] := by decide +kernel
  obtain ⟨hline, hreach, haddr, hdef⟩ := hruns
  obtain ⟨p, hloop, hcalls, hentry, hvaddr⟩ := one_line_file hline hreach
  have hstart := hall 0x400000 0x10010000 file [] p hloop (hcalls.symm ▸ haddr)
  have := hstart.2 (hcalls.symm ▸ hdef)
  omega

theorem a_start_without_jumps_is_the_entry :
    ∃ p, main_loop 1 1 (chars "_start:" ++ [ch '\n']) (.fresh 0 0x400000 0x10010000) =
        .ok (.ok p) ∧
      (EntryIsStart (.fresh 0 0x400000 0x10010000)
          (main_calls 1 (chars "_start:" ++ [ch '\n']) (.fresh 0 0x400000 0x10010000)) p ↔
        StartNotAwaited (.fresh 0 0x400000 0x10010000)
          (main_calls 1 (chars "_start:" ++ [ch '\n']) (.fresh 0 0x400000 0x10010000))) := by
  let first : Process := .fresh 0 0x400000 0x10010000
  let file := chars "_start:"
  have hruns : ((parse_line (file ++ [ch '\n']) first).map
        fun r => r.1.toOption.map Prod.snd).toOption = some (some [ch '\n']) ∧
      (Reaches first [file ++ [ch '\n']] fun _ => True) ∧
      AddressableAll first [file ++ [ch '\n']] := by decide +kernel
  obtain ⟨hline, hreach, haddr⟩ := hruns
  obtain ⟨p, hloop, hcalls, _⟩ := one_line_file hline hreach
  exact ⟨p, hloop, the_entry_is_start_iff_start_is_not_awaited 0x400000 0x10010000
    (chars "_start:") [] p hloop (hcalls.symm ▸ haddr)⟩

end riscv_assembler
