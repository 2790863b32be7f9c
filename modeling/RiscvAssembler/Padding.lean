-- The padding behind data: `.byte` and the other arrays take it from the bytes
-- they emit, `.ascii` from the characters it scans, and both advance by what is
-- over a multiple of four, not by what is missing.
import RiscvAssembler.DataArrays
import RiscvAssembler.Runs
import RiscvAssembler.StringLiterals

open checked scanner c_text

namespace riscv_assembler

/-! ## Data directives -/

/-- The bytes of an element, for the directives that have elements. -/
def element_width : directive → Option Nat
  | .K_BYTE => some 1
  | .K_HALF => some 2
  | .K_WORD => some 4
  | .K_DWORD => some 8
  | .K_TEXT | .K_DATA | .K_ASCII | .K_SPACE => none

/-- What a data directive stands for by the text behind its word: the pieces that go
to the emitter, all of `w` bytes, and the count that the padding is taken from. -/
inductive DataText : directive → List UInt8 → Nat → List (List UInt8) → Nat → Prop
  | array {d : directive} {w : Nat} {text : List UInt8} {vs : List Int} {c : UInt8}
      (rest : List UInt8) : element_width d = some w → DataList text vs → EndsList c →
      DataText d (text ++ c :: rest) w (elements w vs) (w * vs.length)
  | ascii {text b rest : List UInt8} {used : Nat} : LiteralAt text b used rest →
      DataText .K_ASCII text 1 (single_bytes b) used

theorem element_width_some {d : directive} {w : Nat} (h : element_width d = some w) :
    Width w ∧ parse_directive d = parse_data_array w := by
  cases d <;> cases h <;> exact ⟨by unfold Width; decide, rfl⟩

/-- The pieces have one width, which divides the size of the buffer. -/
theorem DataText.pieces {d : directive} {text : List UInt8} {w count : Nat}
    {pieces : List (List UInt8)} (h : DataText d text w pieces count) :
    Width w ∧ ∀ data ∈ pieces, data.length = w := by
  cases h with
  | array rest hd hlist hc =>
    refine ⟨(element_width_some hd).1, fun data hdata => ?_⟩
    obtain ⟨v, _, rfl⟩ := List.mem_map.mp hdata
    exact machine_int.length_leBytes w _
  | ascii hat =>
    refine ⟨Or.inl rfl, fun data hdata => ?_⟩
    obtain ⟨c, _, rfl⟩ := List.mem_map.mp hdata
    rfl

/-- An accepted directive hands over its pieces and then the padding. -/
theorem DataText.run {d : directive} {text rest : List UInt8} {w count : Nat}
    {pieces : List (List UInt8)} (h : DataText d text w pieces count) {p p' : Process}
    (hrun : parse_directive d text p = .ok (.ok ((), rest), p')) :
    ∃ em, runAll emitter_buffer p.em pieces = .ok em ∧
      emitter_advance em (count % 4) = .ok p'.em := by
  cases h with
  | @array _ _ text vs c rest' hd hlist hc =>
    obtain ⟨hw, hparse⟩ := element_width_some hd
    rw [hparse] at hrun
    by_cases hall : ∀ v ∈ vs, Taken w p.errno v
    · rw [parse_data_array_accepts hw hlist hc rest' p hall] at hrun
      obtain ⟨em, h1, hrun⟩ := bind_eq_ok.mp hrun
      obtain ⟨em', h2, hrun⟩ := bind_eq_ok.mp hrun
      cases hrun
      exact ⟨em, h1, h2⟩
    · obtain ⟨good, v, bad, hvs, hgood, hbad⟩ := split_taken hall
      obtain ⟨errno, hfails⟩ := parse_data_array_rejects hw hlist hc rest' p hvs hgood hbad
      rw [hfails] at hrun
      obtain ⟨_, _, hrun⟩ := bind_eq_ok.mp hrun
      cases hrun
  | ascii hat =>
    rw [parse_directive, parse_string_literal_at hat p] at hrun
    obtain ⟨em, h1, hrun⟩ := bind_eq_ok.mp hrun
    obtain ⟨em', h2, hrun⟩ := bind_eq_ok.mp hrun
    cases hrun
    exact ⟨em, h1, h2⟩

/-! ## The padding -/

/-- What the padding is for: the section is aligned after the directive, and behind
its data come less than four bytes, which are zeros. -/
def PaddedToWord (pieces : List (List UInt8)) (p p' : Process) : Prop :=
  p'.em.cur.pos % 4 = 0 ∧ ∃ em pad, runAll emitter_buffer p.em pieces = .ok em ∧ pad < 4 ∧
    p'.em.cur.image = em.cur.image ++ List.replicate pad 0 ∧ p'.em.cur.pos = em.cur.pos + pad

/-- A data directive leaves the section aligned exactly when its bytes and the count
of its padding make up for the bytes that the full buffer loses. With room in the
buffer it loses none: an array of bytes needs an even number of them, a literal as
many bytes as its characters lack to a multiple of four, and the other arrays nothing. -/
theorem data_is_padded_to_a_word_iff_its_counts_agree {d : directive} {text rest : List UInt8}
    {w count : Nat} {pieces : List (List UInt8)} (h : DataText d text w pieces count)
    {p p' : Process} {vaddr : Sect → Nat} (hsound : p.em.Sound vaddr) (haligned : p.em.cur.pos % 4 = 0)
    (hrun : parse_directive d text p = .ok (.ok ((), rest), p')) :
    PaddedToWord pieces p p' ↔ (w * pieces.length + count) % 4 =
      p.em.cur.uncounted w (w * pieces.length) % 4 := by
  obtain ⟨hok, hend, _⟩ := hsound p.em.current_section
  obtain ⟨hw, hpieces⟩ := h.pieces
  obtain ⟨em, hbytes, hgap⟩ := h.run hrun
  have hdvd : w ∣ BUF_SIZE := by
    rcases hw with rfl | rfl | rfl | rfl <;> decide
  have hlt : w < BUF_SIZE := by
    rcases hw with rfl | rfl | rfl | rfl <;> decide
  obtain ⟨hok1, hend1, hpos1⟩ := buffer_pieces_count hdvd hlt hpieces hok hbytes
  obtain ⟨s, hs, hem⟩ := bind_eq_ok.mp hgap
  have hpad := Nat.mod_lt count (show 0 < 4 by decide)
  obtain ⟨_, _, hpos2, himage, _⟩ :=
    (section_advance.spec em.cur (count % 4) hok1 (by omega)).of_ok hs
  have hcur : p'.em.cur = s := by
    rw [← Except.ok.inj hem, em.cur_setCur]
  have hpos : p'.em.cur.pos = em.cur.pos + count % 4 := by rw [hcur, hpos2]
  have hzeros : p'.em.cur.image = em.cur.image ++ List.replicate (count % 4) 0 := by
    rw [hcur]
    exact (himage (hend1 hend)).2
  constructor
  · intro hpadded
    have := hpadded.1
    omega
  · intro hcond
    exact ⟨by omega, em, count % 4, hbytes, hpad, hzeros, hpos⟩

/-- `.byte 1` takes one byte and one zero. -/
theorem one_byte_is_padded_to_two :
    ¬ ∀ (d : directive) (text rest : List UInt8) (w count : Nat) (pieces : List (List UInt8))
      (p p' : Process) (vaddr : Sect → Nat), DataText d text w pieces count → p.em.Sound vaddr →
      p.em.cur.pos % 4 = 0 → parse_directive d text p = .ok (.ok ((), rest), p') →
      PaddedToWord pieces p p' := by
  intro hall
  have hone : DataList (chars "1") [1] :=
    @DataList.last [] (chars "1") [] 1 (List.forall_mem_nil _)
      (.plain (.dec (by decide) (.cons (d := 1) (by decide) (.nil 1)))) (List.forall_mem_nil _)
  have hrun : (((parse_directive .K_BYTE (chars "1\n") ⟨0, emitter.fresh 0x400000 0x10010000⟩).map
      fun r => (r.1.toOption, r.2.em.cur.pos)).toOption) = some (some ((), chars "\n"), 2) := by
    decide +kernel
  obtain ⟨⟨_ | ⟨_, rest⟩, p'⟩, hrun, hp⟩ := ok_of_map hrun
  · cases hp
  · have hpos : p'.em.cur.pos = 2 := congrArg Prod.snd hp
    have hpadded := hall .K_BYTE (chars "1\n") rest 1 1 (elements 1 [1]) _ p' _
      (.array (c := ch '\n') [] rfl hone ⟨by decide, by decide, by decide⟩)
      (emitter.sound_fresh 0x400000 0x10010000) rfl hrun
    rw [PaddedToWord, hpos] at hpadded
    exact absurd hpadded.1 (by decide)

theorem two_bytes_are_padded_to_four : ∃ p',
    parse_directive .K_BYTE (chars " 1 ,-2" ++ [ch '\n']) ⟨0, emitter.fresh 0x400000 0x10010000⟩ =
      .ok (.ok ((), [ch '\n']), p') ∧
    PaddedToWord (elements 1 [1, -2]) ⟨0, emitter.fresh 0x400000 0x10010000⟩ p' := by
  have hrun : (((parse_directive .K_BYTE (chars " 1 ,-2" ++ [ch '\n'])
      ⟨0, emitter.fresh 0x400000 0x10010000⟩).map fun r => r.1.toOption).toOption) =
        some (some ((), [ch '\n'])) := by decide +kernel
  obtain ⟨⟨_ | ⟨_, rest⟩, p'⟩, hrun, hp⟩ := ok_of_map hrun
  · cases hp
  · cases hp
    refine ⟨p', hrun, ?_⟩
    refine (data_is_padded_to_a_word_iff_its_counts_agree (.array (c := ch '\n') [] rfl
      one_and_minus_two ⟨by decide, by decide, by decide⟩)
      (emitter.sound_fresh 0x400000 0x10010000) rfl hrun).mpr ?_
    decide

end riscv_assembler
