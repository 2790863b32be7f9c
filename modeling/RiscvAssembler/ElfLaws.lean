-- The laws of the output file: which bytes it has when the output succeeds, when
-- its parts are whole, and what the segments in its headers leave out.
import RiscvAssembler.Elf
import RiscvAssembler.Resolution

open checked machine_int SparseFile c_text

namespace riscv_assembler

/-! ## One section -/

/-- The bytes of the section when an `int` counts those in the swap file. -/
def Section.counted (s : Section) : List UInt8 :=
  s.swap.data.take (toS 32 s.swap.offset).toNat ++ s.buf.bytes.take s.len

/-- The `int` can count the bytes in the swap file. -/
def Section.Countable (s : Section) : Prop := s.swap.offset < 2 ^ 31

instance (s : Section) : Decidable s.Countable := inferInstanceAs (Decidable (_ < _))

theorem Section.Ok.counts {s : Section} (h : s.Ok) :
    toS 32 s.len = s.len ∧ toS 32 (s.pos - s.len) = toS 32 s.swap.offset := by
  have hb : BUF_SIZE = 4096 := rfl
  have h1 := h.len_lt
  have h2 := h.pos_eq
  refine ⟨toS_eq_self_iff.mpr (by omega), ?_⟩
  congr 1
  omega

theorem Section.Ok.counted_length {s : Section} (h : s.Ok) :
    s.counted.length ≤ s.pos ∧ (s.counted.length = s.pos → s.Countable) := by
  have h1 := h.pos_eq
  have h2 := h.len_lt
  have hle := toS_le 32 s.swap.offset
  have hlen := s.take_len (Nat.le_of_lt h2)
  unfold Section.counted Section.Countable
  rw [List.length_append, hlen, List.length_take]
  refine ⟨by omega, fun heq => ?_⟩
  have hall : s.swap.offset ≤ (toS 32 s.swap.offset).toNat := by omega
  have hself : toS 32 s.swap.offset = s.swap.offset := by
    by_cases hz : s.swap.offset = 0
    · rw [hz]
      exact toS_eq_self_iff.mpr (by decide)
    · exact Int.le_antisymm hle (by omega)
  exact toS_eq_self_iff.mp hself

/-- A section that can be counted is whole, if its swap file has no
hole at the end. -/
theorem Section.Countable.counted {s : Section} (h : s.Countable)
    (hfull : s.swap.offset ≤ s.swap.data.length) : s.counted = s.image := by
  have hself : toS 32 (s.swap.offset : Int) = s.swap.offset := toS_eq_self_iff.mpr h
  unfold Section.counted Section.image SparseFile.before
  rw [hself, Int.toNat_natCast, upTo_of_le_length hfull]

/-- A count that agrees with the `int` is the number of the bytes copied, or
both are -1 and nothing was copied. -/
theorem copyFrom_agrees {dst src : SparseFile} {m : Int}
    (h : (dst.copyFrom src (toU 64 m)).1 = m) :
    (dst.copyFrom src (toU 64 m)).2 = dst.put (src.data.take m.toNat) ∧
      (0 ≤ m → m.toNat ≤ src.data.length) := by
  have hlt := toU_lt 64 m
  unfold copyFrom at h ⊢
  generalize hlen : toU 64 m = len at h hlt ⊢
  split at h
  · rename_i hfit
    have hle : (src.data.take len).length ≤ len := List.length_take_le _ _
    have hm : m.toNat = (src.data.take len).length := by
      rw [← h]
      exact Int.toNat_natCast _
    rw [← h, toU_of_lt (Nat.lt_of_le_of_lt hle hlt)] at hlen
    rw [if_pos hfit, hm, hlen]
    refine ⟨rfl, fun _ => ?_⟩
    have hmin := List.length_take_le' len src.data
    rwa [hlen] at hmin
  · rename_i hfit
    have hm : m = -1 := h.symm
    rw [hm, if_neg hfit]
    exact ⟨(put_nil dst).symm, fun hc => absurd hc (by decide)⟩

/-- When `emit_section` succeeds, it put the bytes that it counts at the
offset. -/
theorem emit_section_ok {em : emitter} {dst dst' : SparseFile} {sect : Sect}
    (hok : (em.sect sect).Ok) (h : emit_section em dst sect = .ok (0, dst')) :
    dst' = dst.put (em.sect sect).counted ∧
      ((em.sect sect).Countable → (em.sect sect).swap.offset ≤ (em.sect sect).swap.data.length) := by
  obtain ⟨hl, hm⟩ := hok.counts
  have hb : BUF_SIZE = 4096 := rfl
  have hlen := hok.len_lt
  have hsize : toU 64 ((em.sect sect).len : Int) = (em.sect sect).len := toU_of_lt (by omega)
  have hcounts : (em.sect sect).Countable →
      toS 32 ((em.sect sect).swap.offset : Int) = (em.sect sect).swap.offset :=
    toS_eq_self_iff.mpr
  unfold emit_section at h
  unfold Section.counted
  simp only [hl, hm, hsize] at h
  generalize toS 32 ((em.sect sect).swap.offset : Int) = m at h hcounts ⊢
  split at h
  · cases h
  · rename_i hcopied
    rw [not_not] at hcopied
    obtain ⟨hput, hcount⟩ := copyFrom_agrees hcopied
    rw [hput, FixedBuffer.copyOut_of_le (by omega), ok_bind] at h
    split at h
    · cases h
    · rename_i hwrite
      obtain ⟨_, rfl⟩ := write_eq_some.mp hwrite
      rw [← (Prod.mk.inj (Except.ok.inj h)).2]
      refine ⟨put_put _ _ _, fun hcan => ?_⟩
      rw [hcounts hcan] at hcount
      exact hcount (Int.natCast_nonneg _)

/-! ## The whole file -/

theorem Elf64_Ehdr.length_bytes (h : Elf64_Ehdr) (hi : h.e_ident.length = 16) :
    h.bytes.length = EHDR_SIZE := by
  unfold Elf64_Ehdr.bytes EHDR_SIZE
  simp [hi]

theorem Elf64_Phdr.length_bytes (h : Elf64_Phdr) : h.bytes.length = PHDR_SIZE := by
  unfold Elf64_Phdr.bytes PHDR_SIZE
  simp

theorem output_after_le (em : emitter) : 120 ≤ output_after em ∧ output_after em ≤ 176 := by
  unfold output_after EHDR_SIZE PHDR_SIZE
  split <;> decide

theorem length_output_head (em : emitter) : (output_head em).length = output_after em := by
  have hsize : (output_header em).bytes.length = 176 := by
    unfold Header.bytes
    rw [List.length_append, List.length_append, Elf64_Ehdr.length_bytes _ rfl,
      Elf64_Phdr.length_bytes, Elf64_Phdr.length_bytes]
    rfl
  have := (output_after_le em).2
  unfold output_head
  rw [List.length_take, hsize]
  omega

theorem roundup_page {x : Nat} (h : x + 4095 < 2 ^ 64) :
    roundup x pagesize = (x + 4095) / 4096 * 4096 := by
  have hx : toU 64 ((x : Int) + (4095 : Nat)) = x + 4095 := toU_of_lt (n := x + 4095) h
  unfold roundup pagesize
  simp only [hx, Nat.reduceSub]

/-- Where the data goes. -/
theorem data_offset {em : emitter} (htext : em.text.Ok) (hpos : 0 < em.data.pos) :
    (data_phdr em).p_offset = (em.text.pos + 4095) / 4096 * 4096 := by
  have hb : BUF_SIZE = 4096 := rfl
  have hlt := htext.pos_lt
  have hround : roundup em.text.pos pagesize = (em.text.pos + 4095) / 4096 * 4096 :=
    roundup_page (by omega)
  rw [← hround]
  unfold data_phdr text_phdr
  rw [if_pos hpos]
  rfl

/-- When the output succeeds, the file has the headers and then the text,
as far as it is counted, and the data at its own offset. -/
theorem emitter_output_elf_ok {em : emitter} {out : SparseFile} (htext : em.text.Ok)
    (hdata : em.data.Ok) (h : emitter_output_elf em .empty = .ok (0, out)) :
    (em.text.Countable → em.text.swap.offset ≤ em.text.swap.data.length) ∧
    (em.data.pos = 0 → out.data = output_head em ++ em.text.counted) ∧
    (0 < em.data.pos →
      (em.data.Countable → em.data.swap.offset ≤ em.data.swap.data.length) ∧
      out = (⟨output_head em ++ em.text.counted, (data_phdr em).p_offset⟩ : SparseFile).put
        em.data.counted) := by
  have hhead : output_head em ≠ [] := by
    intro hc
    have := length_output_head em
    have := (output_after_le em).1
    rw [hc, List.length_nil] at *
    omega
  have hput : ∀ d, (SparseFile.empty.put (output_head em)).put d =
      ⟨output_head em ++ d, (output_head em ++ d).length⟩ := by
    intro d
    rw [put_put]
    unfold SparseFile.put
    rw [if_neg (by simp [hhead])]
    rw [before_empty]
    simp [SparseFile.empty]
  unfold emitter_output_elf at h
  split at h
  · cases h
  · rename_i dst hwrite
    obtain ⟨_, rfl⟩ := write_eq_some.mp hwrite
    obtain ⟨⟨err, dst1⟩, htextrun, h⟩ := bind_eq_ok.mp h
    simp only at h
    split at h
    · cases h
    · rename_i herr
      rw [not_not] at herr
      subst herr
      obtain ⟨rfl, hcount⟩ := emit_section_ok htext htextrun
      refine ⟨hcount, ?_, ?_⟩
      · intro hzero
        rw [if_neg (by omega)] at h
        rw [← (Prod.mk.inj (Except.ok.inj h)).2]
        exact congrArg SparseFile.data (hput _)
      · intro hpos
        rw [if_pos hpos] at h
        split at h
        · cases h
        · rename_i dst2 hseek
          have hoff := data_offset htext hpos
          have hb : BUF_SIZE = 4096 := rfl
          have hlt := htext.pos_lt
          unfold SparseFile.seekSet at hseek
          split at hseek
          · rename_i hrange
            have hself : toS 64 ((data_phdr em).p_offset : Int) = (data_phdr em).p_offset :=
              toS_of_nonneg (by omega) hrange.1
            obtain ⟨hout, hcount'⟩ := emit_section_ok hdata h
            rw [← Option.some.inj hseek, hself, Int.toNat_natCast, hput] at hout
            exact ⟨hcount', hout⟩
          · cases hseek

/-! ## When the parts are whole -/

/-- No byte is in both ranges. -/
def RangesApart (a n b m : Nat) : Prop := ∀ i, ¬ ((a ≤ i ∧ i < a + n) ∧ b ≤ i ∧ i < b + m)

/-- The headers and both sections are in the file, each in its own range. -/
structure Intact (em : emitter) (out : SparseFile) : Prop where
  head : out.range 0 (output_after em) = output_head em
  text : out.range (output_after em) em.text.pos = em.text.image
  data : out.range (data_phdr em).p_offset em.data.pos = em.data.image
  head_text : RangesApart 0 (output_after em) (output_after em) em.text.pos
  head_data : RangesApart 0 (output_after em) (data_phdr em).p_offset em.data.pos
  text_data : RangesApart (output_after em) em.text.pos (data_phdr em).p_offset em.data.pos

/-- The data starts after the text. -/
def TextFits (em : emitter) : Prop :=
  output_after em + em.text.pos ≤ (em.text.pos + 4095) / 4096 * 4096

variable {em : emitter} {out : SparseFile}

theorem Intact.textFits (h : Intact em out) (htext : em.text.Ok) (hpos : 0 < em.data.pos) :
    TextFits em := by
  have hoff := data_offset htext hpos
  have hafter := output_after_le em
  have hdata := h.head_data (data_phdr em).p_offset
  have htextdata := h.text_data (data_phdr em).p_offset
  unfold TextFits
  omega

theorem range_head_append (a b : List UInt8) (off : Nat) :
    (⟨a ++ b, off⟩ : SparseFile).range 0 a.length = a ∧
      ∀ n, (⟨a ++ b, off⟩ : SparseFile).range a.length n = b.take n := by
  unfold SparseFile.range
  simp

/-- A file without data. -/
theorem intact_iff_of_no_data (htext : em.text.Ok) (hdata : em.data.Ok)
    (h : emitter_output_elf em .empty = .ok (0, out)) (hzero : em.data.pos = 0) :
    Intact em out ↔ em.text.Countable := by
  obtain ⟨hcount, hout, _⟩ := emitter_output_elf_ok htext hdata h
  have hrange := range_head_append (output_head em) em.text.counted out.offset
  rw [length_output_head, ← hout hzero] at hrange
  obtain ⟨hhead, hbody⟩ := hrange
  obtain ⟨hle, heq⟩ := htext.counted_length
  have htake : em.text.counted.take em.text.pos = em.text.counted := List.take_of_length_le hle
  constructor
  · intro hintact
    apply heq
    rw [← htake, ← hbody, hintact.text]
    exact htext.length_image
  · intro hcan
    have himage := hcan.counted (hcount hcan)
    have hempty : em.data.image = [] := List.length_eq_zero_iff.mp (hdata.length_image.trans hzero)
    refine ⟨hhead, ?_, ?_, ?_, ?_, ?_⟩
    · rw [hbody, htake, himage]
    · rw [hempty, hzero]
      exact List.take_zero
    all_goals
      unfold RangesApart
      omega

/-- The ranges of a file with data after the text. -/
theorem ranges_of_data (htext : em.text.Ok) (hdata : em.data.Ok) (hfits : TextFits em) {off : Nat}
    (hoff : off = (em.text.pos + 4095) / 4096 * 4096) (hne : em.data.counted ≠ [])
    (hout : out = (⟨output_head em ++ em.text.counted, off⟩ : SparseFile).put em.data.counted) :
    out.range 0 (output_after em) = output_head em ∧
      out.range (output_after em) em.text.pos = upTo em.text.counted em.text.pos ∧
      out.range off em.data.pos = em.data.counted := by
  unfold TextFits at hfits
  have hlen := length_output_head em
  obtain ⟨hle, _⟩ := htext.counted_length
  obtain ⟨hle', _⟩ := hdata.counted_length
  have hend : (⟨output_head em ++ em.text.counted, off⟩ : SparseFile).AtEnd := by
    unfold AtEnd
    simp only [List.length_append]
    omega
  obtain ⟨k, hk⟩ : ∃ k, off = (output_head em).length + k := ⟨off - output_after em, by omega⟩
  have hbytes : out.data =
      output_head em ++ (upTo em.text.counted k ++ em.data.counted) := by
    rw [hout, put_data_of_atEnd hend hne]
    unfold SparseFile.before
    simp only
    rw [hk, upTo_append, List.append_assoc]
  have hfile : out = ⟨output_head em ++ (upTo em.text.counted k ++ em.data.counted),
      out.offset⟩ := by
    rw [← hbytes]
  obtain ⟨hhead, hbody⟩ := range_head_append (output_head em)
    (upTo em.text.counted k ++ em.data.counted) out.offset
  rw [hlen, ← hfile] at hhead hbody
  refine ⟨hhead, ?_, ?_⟩
  · rw [hbody, List.take_append_of_le_length (by rw [length_upTo]; omega),
      take_upTo (by omega)]
  · unfold SparseFile.range
    have hdrop : out.data.drop off = em.data.counted := by
      have hall : (output_head em ++ upTo em.text.counted k).length = off := by
        rw [List.length_append, length_upTo, hk]
      rw [hbytes, ← List.append_assoc]
      exact List.drop_left' hall
    rw [hdrop]
    exact List.take_of_length_le hle'

/-- A file with data. -/
theorem intact_iff_of_data (htext : em.text.Ok) (hdata : em.data.Ok)
    (h : emitter_output_elf em .empty = .ok (0, out)) (hpos : 0 < em.data.pos) :
    Intact em out ↔
      TextFits em ∧ em.data.Countable ∧ upTo em.text.counted em.text.pos = em.text.image := by
  obtain ⟨_, _, hfile⟩ := emitter_output_elf_ok htext hdata h
  obtain ⟨hcount, hout⟩ := hfile hpos
  have hoff := data_offset htext hpos
  obtain ⟨hle, heq⟩ := hdata.counted_length
  constructor
  · intro hintact
    have hfits := hintact.textFits htext hpos
    have hne : em.data.counted ≠ [] := by
      intro hnil
      -- without the bytes of the data the file ends before them
      rw [hnil, put_nil] at hout
      have hlen : (out.range (data_phdr em).p_offset em.data.pos).length = em.data.pos := by
        rw [hintact.data, hdata.length_image]
      have htextlen := htext.counted_length.1
      have hhead := length_output_head em
      unfold TextFits at hfits
      unfold SparseFile.range at hlen
      rw [hout, List.length_take, List.length_drop, List.length_append] at hlen
      omega
    obtain ⟨_, htextrange, hdatarange⟩ := ranges_of_data htext hdata hfits hoff hne hout
    refine ⟨hfits, heq ?_, ?_⟩
    · rw [← hdatarange, hintact.data]
      exact hdata.length_image
    · rw [← htextrange, hintact.text]
  · rintro ⟨hfits, hcan, hzeros⟩
    have himage := hcan.counted (hcount hcan)
    have hne : em.data.counted ≠ [] := by
      intro hnil
      have hlen := hdata.length_image
      rw [← himage, hnil, List.length_nil] at hlen
      omega
    obtain ⟨hhead, htextrange, hdatarange⟩ := ranges_of_data htext hdata hfits hoff hne hout
    have hafter := output_after_le em
    unfold TextFits at hfits
    refine ⟨hhead, htextrange.trans hzeros, hdatarange.trans himage, ?_, ?_, ?_⟩
    all_goals
      unfold RangesApart
      omega

/-- Behind the bytes of the swap file that an `int` counts the section has only zeros. -/
def Section.LosesOnlyZeros (s : Section) : Prop :=
  ∀ b ∈ s.image.drop (toS 32 s.swap.offset).toNat, b = 0

/-- The count of a swap file that is too long is too short by more than a buffer. -/
theorem Section.Ok.counted_le {s : Section} (h : s.Ok) (hbig : ¬ s.Countable) :
    (toS 32 s.swap.offset).toNat + s.len ≤ s.swap.offset := by
  have hb : BUF_SIZE = 4096 := rfl
  have hlen := h.len_lt
  unfold Section.Countable at hbig
  rcases toS_cases 32 s.swap.offset with hneg | hself | hless
  · omega
  · have := toS_eq_self_iff (w := 31).mp hself
    omega
  · omega

/-- What is counted of such a section, with zeros behind it, is the section exactly when
only zeros are lost. -/
theorem Section.Ok.counted_eq_image_iff {s : Section} (h : s.Ok) (hbig : ¬ s.Countable) :
    upTo s.counted s.pos = s.image ↔ s.LosesOnlyZeros := by
  have hshort := h.counted_le hbig
  have hpos := h.pos_eq
  have hlen : (s.buf.bytes.take s.len).length = s.len := s.take_len (Nat.le_of_lt h.len_lt)
  unfold Section.LosesOnlyZeros
  generalize hn : (toS 32 s.swap.offset).toNat = n at hshort
  have hcounted : s.counted = s.swap.data.take n ++ s.buf.bytes.take s.len := by
    rw [Section.counted, hn]
  have htake : (s.swap.data.take n).length ≤ n := List.length_take_le _ _
  have hX : s.counted.length ≤ s.swap.offset := by
    rw [hcounted, List.length_append, hlen]
    omega
  have himage : s.image = s.swap.before ++ s.buf.bytes.take s.len := rfl
  have hbuf : s.image.drop s.swap.offset = s.buf.bytes.take s.len := by
    rw [himage]
    exact List.drop_left' (length_before _)
  have hzeros : upTo s.counted s.pos =
      s.counted ++ List.replicate (s.pos - s.counted.length) 0 := upTo_of_length_le (by omega)
  constructor
  · intro heq b hb
    -- the bytes of the buffer are behind what is counted
    have hnone : s.buf.bytes.take s.len = List.replicate s.len 0 := by
      rw [← hbuf, ← heq, hzeros, List.drop_append, List.drop_eq_nil_of_le hX, List.nil_append,
        List.drop_replicate]
      congr 1
      omega
    rw [← heq, hzeros, hcounted, hnone, List.append_assoc, List.replicate_append_replicate,
      List.drop_append, List.drop_eq_nil_of_le htake, List.nil_append, List.drop_replicate] at hb
    exact List.eq_of_mem_replicate hb
  · intro hall
    have hdrop : s.image.drop n = List.replicate (s.pos - n) 0 := by
      refine List.eq_replicate_iff.mpr ⟨?_, hall⟩
      rw [List.length_drop, h.length_image]
    have hnone : s.buf.bytes.take s.len = List.replicate s.len 0 := by
      have hrest : s.image.drop s.swap.offset = (s.image.drop n).drop (s.swap.offset - n) := by
        rw [List.drop_drop]
        congr 1
        omega
      rw [← hbuf, hrest, hdrop, List.drop_replicate]
      congr 1
      omega
    have hfirst : s.image.take n = upTo s.swap.data n := by
      rw [himage, List.take_append_of_le_length (by rw [length_before]; omega)]
      exact take_upTo (by omega)
    rw [hzeros, hcounted, hnone, ← List.take_append_drop n s.image, hfirst, hdrop, upTo,
      List.append_assoc, List.append_assoc, List.replicate_append_replicate,
      List.replicate_append_replicate]
    congr 2
    simp only [List.length_append, List.length_take, List.length_replicate]
    omega

/-- The parts of the output file are whole exactly when an `int` can count the
bytes of the swap files and the headers leave room for the data after the
text. -/
theorem the_parts_of_the_file_are_whole_iff (errno : Int) (text_vaddr data_vaddr : Nat)
    (texts : List (List UInt8)) (p : Process)
    (h : Assembles (.fresh errno text_vaddr data_vaddr) texts p) (out : SparseFile)
    (hout : emitter_output_elf p.em .empty = .ok (0, out)) :
    Intact p.em out ↔
      (p.em.data.pos = 0 ∧ p.em.text.Countable) ∨
      (0 < p.em.data.pos ∧ TextFits p.em ∧ p.em.data.Countable ∧
        (p.em.text.Countable ∨ p.em.text.LosesOnlyZeros)) := by
  have htext : p.em.text.Ok := (h.sound .SECT_TEXT).1
  have hdata : p.em.data.Ok := (h.sound .SECT_DATA).1
  by_cases hpos : 0 < p.em.data.pos
  · have hzeros : upTo p.em.text.counted p.em.text.pos = p.em.text.image ↔
        p.em.text.Countable ∨ p.em.text.LosesOnlyZeros := by
      by_cases hcan : p.em.text.Countable
      · have himage := hcan.counted ((emitter_output_elf_ok htext hdata hout).1 hcan)
        rw [himage, ← htext.length_image, upTo_length]
        exact iff_of_true rfl (Or.inl hcan)
      · rw [or_iff_right hcan]
        exact htext.counted_eq_image_iff hcan
    rw [intact_iff_of_data htext hdata hout hpos, hzeros]
    constructor
    · rintro ⟨h1, h2, h3⟩
      exact Or.inr ⟨hpos, h1, h2, h3⟩
    · rintro (⟨hzero, _⟩ | ⟨_, h1, h2, h3⟩)
      · omega
      · exact ⟨h1, h2, h3⟩
  · have hzero : p.em.data.pos = 0 := by omega
    rw [intact_iff_of_no_data htext hdata hout hzero]
    constructor
    · intro hcan
      exact Or.inl ⟨hzero, hcan⟩
    · rintro (⟨_, hcan⟩ | ⟨hc, _⟩)
      · exact hcan
      · omega

/-- The headers begin with the first byte of the ELF magic number. -/
theorem header_begins (em : emitter) : (output_header em).bytes.head? = some 0x7f := by
  simp [output_header, Header.bytes, Elf64_Ehdr.bytes, output_ehdr]

/-- One byte of data and no text: the byte takes the place of the first byte of
the headers. -/
theorem data_without_text_overwrites_the_header :
    ¬ ∀ (errno : Int) (text_vaddr data_vaddr : Nat) (texts : List (List UInt8)) (p : Process),
      text_vaddr % pagesize = 0 → data_vaddr % pagesize = 0 →
      Assembles (.fresh errno text_vaddr data_vaddr) texts p →
      ∀ out, emitter_output_elf p.em .empty = .ok (0, out) → Intact p.em out := by
  intro hall
  have hrun : Reaches (.fresh 0 0x400000 0x10010000) (linesOf [".data", ".byte 1"]) fun p =>
      ((emitter_output_elf p.em .empty).map fun r => (r.1, r.2.data.head?)).toOption =
        some (0, some 1) := by decide +kernel
  obtain ⟨p, h, hout⟩ := hrun
  obtain ⟨⟨err, out⟩, hrun, hread⟩ := ok_of_map hout
  obtain ⟨rfl, hfirst⟩ := Prod.mk.inj hread
  have hhead := (hall 0 0x400000 0x10010000 _ p rfl rfl h out hrun).head
  have hafter := output_after_le p.em
  have hsame := congrArg List.head? hhead
  unfold SparseFile.range output_head at hsame
  rw [List.drop_zero, List.head?_take, List.head?_take, if_neg (by omega), if_neg (by omega),
    hfirst, header_begins] at hsame
  exact absurd (Option.some.inj hsame) (by decide)

/-- An instruction and one byte of data. -/
def small_program : List (List UInt8) := linesOf ["addi x1, x0, 1", ".data", ".byte 1"]

theorem small_program_runs : Reaches (.fresh 0 0x400000 0x10010000) small_program fun p =>
    0 < p.em.text.pos ∧ ((emitter_output_elf p.em .empty).map Prod.fst).toOption = some 0 := by
  decide +kernel

theorem the_parts_of_a_small_program_are_whole_iff :
    ∃ p out, Assembles (.fresh 0 0x400000 0x10010000) small_program p ∧
      emitter_output_elf p.em .empty = .ok (0, out) ∧
      (Intact p.em out ↔
        (p.em.data.pos = 0 ∧ p.em.text.Countable) ∨
        (0 < p.em.data.pos ∧ TextFits p.em ∧ p.em.data.Countable ∧
          (p.em.text.Countable ∨ p.em.text.LosesOnlyZeros))) := by
  obtain ⟨p, h, _, hout⟩ := small_program_runs
  obtain ⟨⟨_, out⟩, hrun, rfl⟩ := ok_of_map hout
  exact ⟨p, out, h, hrun, the_parts_of_the_file_are_whole_iff 0 0x400000 0x10010000 _ p h out hrun⟩

/-! ## What the segments cover -/

/-- The segment has the byte of the file. -/
def Elf64_Phdr.InFile (h : Elf64_Phdr) (i : Nat) : Prop :=
  h.p_offset ≤ i ∧ i < h.p_offset + h.p_filesz

/-- The segment has the address. -/
def Elf64_Phdr.InMemory (h : Elf64_Phdr) (a : Nat) : Prop := h.p_vaddr ≤ a ∧ a < h.p_vaddr + h.p_memsz

/-- The run has no label `_start`, or it defines it in the text before any line
names it. -/
def PlainStart (first : Process) (texts : List (List UInt8)) (p : Process) : Prop :=
  p.em.labels.lookup start_label = none ∨
    ∃ j text q, texts[j]? = some text ∧ Assembles first (texts.take j) q ∧
      reading text = some (.define start_label) ∧ q.em.current_section = .SECT_TEXT ∧
      q.em.cur.pos < p.em.text.pos ∧ ∀ i r, RefersAt first texts i start_label r → j < i

/-- The segments have all bytes of the sections, and the entry point. -/
structure SegmentsCover (first : Process) (texts : List (List UInt8)) (p : Process) : Prop where
  text : ∀ i, output_after p.em ≤ i → i < output_after p.em + p.em.text.pos →
    (output_header p.em).text.InFile i
  data : ∀ i, (output_header p.em).data.p_offset ≤ i →
    i < (output_header p.em).data.p_offset + p.em.data.pos → (output_header p.em).data.InFile i
  entry : PlainStart first texts p →
    (output_header p.em).text.InMemory (output_header p.em).ehdr.e_entry

/-- A byte of the text is in the text segment when the headers before it leave
room for it. -/
theorem text_byte_in_segment_iff (em : emitter) (k : Nat) :
    (output_header em).text.InFile (output_after em + k) ↔ output_after em + k < em.text.pos := by
  simp [Elf64_Phdr.InFile, output_header, text_phdr]

/-- The last byte of the text is never in the text segment: `p_filesz` counts
the text and not the headers. -/
theorem last_text_byte_outside {em : emitter} (hpos : 0 < em.text.pos) :
    ¬ (output_header em).text.InFile (output_after em + (em.text.pos - 1)) := by
  have hafter := output_after_le em
  rw [text_byte_in_segment_iff]
  omega

/-- In no program with text do the segments cover all that was assembled. -/
theorem no_text_segment_covers_its_text (errno : Int) (text_vaddr data_vaddr : Nat)
    (texts : List (List UInt8)) (p : Process)
    (_ : Assembles (.fresh errno text_vaddr data_vaddr) texts p) (hpos : 0 < p.em.text.pos) :
    ¬ SegmentsCover (.fresh errno text_vaddr data_vaddr) texts p := fun hcover =>
  last_text_byte_outside hpos (hcover.text _ (Nat.le_add_right _ _) (by omega))

theorem a_small_program_is_not_covered :
    ¬ ∀ (errno : Int) (text_vaddr data_vaddr : Nat) (texts : List (List UInt8)) (p : Process),
      Assembles (.fresh errno text_vaddr data_vaddr) texts p → 0 < p.em.text.pos →
      SegmentsCover (.fresh errno text_vaddr data_vaddr) texts p := by
  intro hall
  obtain ⟨p, h, hpos, _⟩ := small_program_runs
  have hcover := hall 0 0x400000 0x10010000 _ p h hpos
  exact last_text_byte_outside hpos (hcover.text _ (Nat.le_add_right _ _) (by omega))

theorem no_segment_covers_the_text_of_a_small_program :
    ∃ p, Assembles (.fresh 0 0x400000 0x10010000) small_program p ∧
      ¬ SegmentsCover (.fresh 0 0x400000 0x10010000) small_program p := by
  obtain ⟨p, h, hpos, _⟩ := small_program_runs
  exact ⟨p, h, no_text_segment_covers_its_text 0 0x400000 0x10010000 _ p h hpos⟩

end riscv_assembler
