-- The vocabulary: the words that the generator inserts, in its order, and the
-- two arrays of `instruction_trie.c` that it prints for them.
import RiscvAssembler.Lib.CText
import RiscvAssembler.Ops
import RiscvAssembler.TrieLaws

open checked bit_rank c_text

namespace riscv_assembler

/-- The calls of `A(x, d)` in `main` of the generator. -/
def vocabulary : List (String × vocable) := [
  ("add", .op .ADD), ("sub", .op .SUB), ("xor", .op .XOR), ("or", .op .OR), ("and", .op .AND),
  ("sll", .op .SLL), ("srl", .op .SRL), ("sra", .op .SRA), ("slt", .op .SLT), ("sltu", .op .SLTU),
  ("addi", .op .ADDI), ("xori", .op .XORI), ("ori", .op .ORI), ("andi", .op .ANDI),
  ("slli", .op .SLLI), ("srli", .op .SRLI), ("srai", .op .SRAI), ("slti", .op .SLTI),
  ("sltiu", .op .SLTIU),
  ("lb", .op .LB), ("lh", .op .LH), ("lw", .op .LW), ("lbu", .op .LBU), ("lhu", .op .LHU),
  ("sb", .op .SB), ("sh", .op .SH), ("sw", .op .SW),
  ("beq", .op .BEQ), ("bne", .op .BNE), ("blt", .op .BLT), ("bge", .op .BGE),
  ("bltu", .op .BLTU), ("bgeu", .op .BGEU),
  ("jal", .op .JAL), ("jalr", .op .JALR),
  ("lui", .op .LUI), ("auipc", .op .AUIPC),
  ("ecall", .op .ECALL), ("ebreak", .op .EBREAK),
  (".byte", .directive .K_BYTE), (".half", .directive .K_HALF), (".word", .directive .K_WORD),
  (".dword", .directive .K_DWORD), (".ascii", .directive .K_ASCII),
  (".space", .directive .K_SPACE), (".text", .directive .K_TEXT), (".data", .directive .K_DATA)]

/-- The words and numbers that `trie_builder_insert` gets. -/
def vocabulary_words : List (List UInt8 × Int) :=
  vocabulary.map fun w => (chars w.1, (w.2.number : Int))

/-- `base` after the inserts. -/
def vocabulary_builder : trie_builder := trie_builder.ofWords vocabulary_words

/-- The arrays that the generator prints. It does not print any if it stops. -/
def instruction_trie : arrays := (gbuf_of vocabulary_builder).toOption.getD ⟨[], [], 0, 0⟩

def tbase : List trie := instruction_trie.gbuf

def tbase_auxiliary : List Int := instruction_trie.aux

/-! ## What the arrays recognise -/

theorem vocabulary_words_codes : ∀ w ∈ vocabulary_words, ∀ c ∈ w.1, KeyCode c := by
  decide +kernel

/-- No word begins one that comes before it, so none is lost. -/
theorem vocabulary_words_prefix :
    vocabulary_words.Pairwise fun a b => ¬ b.1 <+: a.1 := by
  decide +kernel

theorem vocabulary_words_ne_nil : ∀ w ∈ vocabulary_words, w.1 ≠ [] := by
  decide +kernel

/-- The offsets of the arrays are small, and so no sum of `trie_next_` overflows. -/
theorem tbase_cells {t : trie} (ht : t ∈ tbase) (c : UInt8) :
    trie_next t c = trie_cell t.keys t.next c ∧ trie_term t c = trie_cell t.terms t.data c := by
  have hsmall : ∀ t ∈ tbase, (0 ≤ t.next ∧ t.next ≤ 256) ∧ 0 ≤ t.data ∧ t.data ≤ 256 := by
    decide +kernel
  have hcell : ∀ (keys : keys2) (base : Int), 0 ≤ base → base ≤ 256 →
      trie_next_ keys base c = trie_cell keys base c := by
    intro keys base hlow hhigh
    have h1 := popcount_le keys.1
    have h2 := popcount_le keys.2
    exact trie_next_eq_cell (by unfold INT_MIN; omega) (by unfold INT_MAX; omega) c
  obtain ⟨⟨hnext, hnext'⟩, hdata, hdata'⟩ := hsmall t ht
  exact ⟨hcell _ _ hnext hnext', hcell _ _ hdata hdata'⟩

/-- The walk over the two arrays finds a word with its number exactly when the
generator was given it. -/
theorem instruction_trie_recognises :
    ∃ root, load tbase 0 = .ok root ∧ ∀ c w, KeyCode c → (∀ x ∈ w, KeyCode x) →
      ∃ r, trie_lookup tbase tbase_auxiliary root c w = .ok r ∧
        ∀ data, r = some data ↔ (c :: w, data) ∈ vocabulary_words := by
  obtain ⟨g, root, hrun, hroot, hans⟩ := gbuf_of.spec (ofWords_wellKeyed vocabulary_words_codes)
  have hg : instruction_trie = g := by
    unfold instruction_trie vocabulary_builder
    rw [hrun]
    rfl
  refine ⟨root, ?_, fun c w hc hw => ?_⟩
  · unfold tbase
    rw [hg]
    exact load_eq_ok hroot
  · unfold tbase tbase_auxiliary
    rw [hg]
    obtain ⟨r, hr, hdata⟩ := hans c w hc hw
    refine ⟨r, hr, fun data => ?_⟩
    rw [hdata data, ofWords_spells_all vocabulary_words_ne_nil vocabulary_words_prefix]

end riscv_assembler
