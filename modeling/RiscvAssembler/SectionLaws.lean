-- The laws of one section. What was written to it stands partly in the swap
-- file and partly in the buffer. A write that reaches the end of the buffer
-- loses bytes, so the law of the bytes holds exactly for the runs without one.
import RiscvAssembler.Emitter

open checked machine_int SparseFile

namespace riscv_assembler

/-! ## The image of a section -/

/-- The bytes of a section: the swap file up to its offset, then the part of
the buffer that is in use. -/
def Section.image (s : Section) : List UInt8 := s.swap.before ++ s.buf.bytes.take s.len

/-- What holds between the three counters of a section at all times. -/
structure Section.Ok (s : Section) : Prop where
  len_lt : s.len < BUF_SIZE
  pos_eq : s.pos = s.swap.offset + s.len
  offset_le : s.swap.offset ≤ OFF_MAX

theorem Section.Ok.pos_lt {s : Section} (h : s.Ok) : s.pos < 2 ^ 63 + BUF_SIZE := by
  obtain ⟨h1, h2, h3⟩ := h
  unfold OFF_MAX at h3
  omega

theorem Section.Ok.length_image {s : Section} (h : s.Ok) : s.image.length = s.pos := by
  obtain ⟨h1, h2, _⟩ := h
  have := s.buf.size
  simp only [image, List.length_append, length_before, List.length_take]
  omega

/-- Byte `i` of the buffer is byte `pos - len + i` of the section. -/
theorem Section.Ok.image_getElem? {s : Section} (h : s.Ok) {i : Nat} (hi : i < s.len) :
    s.image[s.pos - s.len + i]? = s.buf.bytes[i]? := by
  obtain ⟨_, h2, _⟩ := h
  have hp : s.pos - s.len = s.swap.offset := by omega
  rw [image, List.getElem?_append_right (by rw [length_before]; omega), length_before,
    List.getElem?_take_of_lt (by omega)]
  congr 1
  omega

theorem Section.take_len (s : Section) (h : s.len ≤ BUF_SIZE) :
    (s.buf.bytes.take s.len).length = s.len := by
  have := s.buf.size
  simp only [List.length_take]
  omega

theorem Section.ok_fresh (vaddr : Nat) : (Section.fresh vaddr).Ok :=
  ⟨Nat.zero_lt_succ _, rfl, Nat.zero_le _⟩

@[simp] theorem Section.image_fresh (vaddr : Nat) : (Section.fresh vaddr).image = [] := rfl

theorem Section.atEnd_fresh (vaddr : Nat) : (Section.fresh vaddr).swap.AtEnd := atEnd_empty

/-! ## Clearing the buffer -/

theorem emitter_clear_buffer_fits (s : Section) (hl : s.len ≤ BUF_SIZE)
    (hfit : s.swap.offset + s.len ≤ OFF_MAX) :
    emitter_clear_buffer s =
      .ok { s with swap := s.swap.put (s.buf.bytes.take s.len), len := 0 } := by
  have hlen := s.take_len hl
  unfold emitter_clear_buffer
  rw [write_eq_some.mpr ⟨by rw [hlen]; exact hfit, rfl⟩]
  rfl

theorem emitter_clear_buffer_full (s : Section) (hl : s.len ≤ BUF_SIZE)
    (hfull : OFF_MAX < s.swap.offset + s.len) :
    emitter_clear_buffer s = .error (.panic "write call failed") := by
  have hlen := s.take_len hl
  unfold emitter_clear_buffer SparseFile.write
  rw [if_neg (by rw [hlen]; omega)]
  rfl

/-- The bytes of the buffer move to the swap file. -/
theorem emitter_clear_buffer_image {s s' : Section} (hl : s.len ≤ BUF_SIZE)
    (hrun : emitter_clear_buffer s = .ok s') : s'.image = s.image := by
  by_cases hfit : s.swap.offset + s.len ≤ OFF_MAX
  · rw [emitter_clear_buffer_fits s hl hfit] at hrun
    cases hrun
    simp only [Section.image, before_put, List.take_zero, List.append_nil]
  · rw [emitter_clear_buffer_full s hl (Nat.lt_of_not_le hfit)] at hrun
    cases hrun

theorem emitter_clear_buffer.spec (s : Section) (h : s.Ok) :
    Meets (emitter_clear_buffer s)
      (fun s' => s'.Ok ∧ s'.len = 0 ∧ s'.pos = s.pos ∧ s'.vaddr = s.vaddr ∧
        (s.swap.AtEnd → s'.swap.AtEnd))
      (fun e => e = .panic "write call failed" ∧ 2 ^ 63 ≤ s.pos) := by
  have hlt := h.len_lt
  have hlen := s.take_len (Nat.le_of_lt hlt)
  have hm : OFF_MAX = 2 ^ 63 - 1 := rfl
  obtain ⟨h1, h2, h3⟩ := h
  by_cases hfit : s.swap.offset + s.len ≤ OFF_MAX
  · rw [emitter_clear_buffer_fits s (Nat.le_of_lt hlt) hfit]
    refine ⟨⟨Nat.zero_lt_succ _, ?_, ?_⟩, rfl, rfl, rfl, fun ha => ha.put _⟩
    · simp only [put_offset, hlen]
      omega
    · simpa only [put_offset, hlen] using hfit
  · rw [emitter_clear_buffer_full s (Nat.le_of_lt hlt) (by omega)]
    exact ⟨rfl, by omega⟩

/-! ## A write of bytes -/

/-- A write that stays inside the buffer. -/
theorem emitter_buffer_loop_fits (s : Section) (pos : Nat) (data : List UInt8)
    (h : pos + data.length < BUF_SIZE) :
    emitter_buffer_loop s pos data = .ok { s with
      buf := s.buf.put pos data (Nat.le_of_lt h)
      len := toU 64 (s.len + data.length)
      pos := toU 64 (s.pos + data.length) } := by
  rw [emitter_buffer_loop, if_neg (by omega), FixedBuffer.copyIn_of_le (Nat.le_of_lt h)]
  rfl

/-- A write that fits adds its bytes to the image. A write that does not fit
leaves the position short of them: it never counts the bytes that it copies
before it clears the buffer. -/
theorem emitter_buffer_loop.spec (s : Section) (data : List UInt8) (h : s.Ok) :
    Meets (emitter_buffer_loop s s.len data)
      (fun s' => s'.Ok ∧ s'.vaddr = s.vaddr ∧ (s.swap.AtEnd → s'.swap.AtEnd) ∧
        (s.len + data.length < BUF_SIZE →
          s'.swap = s.swap ∧ s'.pos = s.pos + data.length ∧ s'.image = s.image ++ data) ∧
        (BUF_SIZE ≤ s.len + data.length → s'.pos < s.pos + data.length))
      (fun e => e = .panic "write call failed" ∧ 2 ^ 63 ≤ s.pos) := by
  by_cases hfit : s.len + data.length < BUF_SIZE
  · have hpos := h.pos_lt
    obtain ⟨h1, h2, h3⟩ := h
    unfold BUF_SIZE at hfit hpos
    have hlen : toU 64 (s.len + data.length) = s.len + data.length := by
      exact_mod_cast toU_of_lt (n := s.len + data.length) (by omega)
    have hp : toU 64 (s.pos + data.length) = s.pos + data.length := by
      exact_mod_cast toU_of_lt (n := s.pos + data.length) (by omega)
    rw [emitter_buffer_loop_fits _ _ _ hfit, hlen, hp]
    refine ⟨⟨hfit, ?_, h3⟩, rfl, id, fun _ => ⟨rfl, rfl, ?_⟩, fun hc => ?_⟩
    · simp only
      omega
    · simp only [Section.image, FixedBuffer.take_put, List.append_assoc]
    · unfold BUF_SIZE at hc
      omega
  · have hge : BUF_SIZE ≤ s.len + data.length := by omega
    have hlt := h.len_lt
    have hcopy : s.len + (data.take (BUF_SIZE - s.len)).length ≤ BUF_SIZE := by
      simp only [List.length_take]
      omega
    rw [emitter_buffer_loop, if_pos hge]
    simp only [FixedBuffer.copyIn_of_le hcopy, ok_bind]
    have hput : ({ s with buf := s.buf.put s.len _ hcopy } : Section).Ok := ⟨h.1, h.2, h.3⟩
    refine (emitter_clear_buffer.spec _ hput).bind ?_
    rintro s1 ⟨hok1, hlen1, hpos1, hv1, hend1⟩
    have hrest : (data.drop (BUF_SIZE - s.len)).length < data.length := by
      simp only [List.length_drop]
      omega
    have ih := emitter_buffer_loop.spec s1 (data.drop (BUF_SIZE - s.len)) hok1
    rw [hlen1, hpos1] at ih
    simp only at ih
    refine Meets.mono ih ?_ fun e he => he
    rintro s2 ⟨hok2, hv2, hend2, hin2, hout2⟩
    refine ⟨hok2, by rw [hv2, hv1], fun ha => hend2 (hend1 ha), fun hc => absurd hc hfit,
      fun _ => ?_⟩
    by_cases hin : 0 + (data.drop (BUF_SIZE - s.len)).length < BUF_SIZE
    · have := (hin2 hin).2.1
      omega
    · have := hout2 (by omega)
      omega
termination_by data.length

/-- No byte that is in the section goes away, also when the buffer is cleared. -/
theorem emitter_buffer_loop_keeps {s s' : Section} {data : List UInt8} (h : s.Ok)
    (hrun : emitter_buffer_loop s s.len data = .ok s') : s.image <+: s'.image := by
  by_cases hfit : s.len + data.length < BUF_SIZE
  · obtain ⟨_, _, _, hin, _⟩ := (emitter_buffer_loop.spec s data h).of_ok hrun
    rw [(hin hfit).2.2]
    exact List.prefix_append _ _
  · have hlt := h.len_lt
    have hcopy : s.len + (data.take (BUF_SIZE - s.len)).length ≤ BUF_SIZE := by
      simp only [List.length_take]
      omega
    have hshort : (data.drop (BUF_SIZE - s.len)).length < data.length := by
      simp only [List.length_drop]
      omega
    rw [emitter_buffer_loop, if_pos (by omega)] at hrun
    simp only [FixedBuffer.copyIn_of_le hcopy, ok_bind] at hrun
    obtain ⟨s1, hclear, hrun⟩ := bind_eq_ok.mp hrun
    obtain ⟨hok1, hlen1, _⟩ := (emitter_clear_buffer.spec
      { s with buf := s.buf.put s.len _ hcopy } ⟨h.1, h.2, h.3⟩).of_ok hclear
    have himage : s1.image = s.image := by
      refine (emitter_clear_buffer_image ?_ hclear).trans ?_
      · exact Nat.le_of_lt hlt
      · simp only [Section.image, FixedBuffer.take_put_before]
    rw [show 0 = s1.len from hlen1.symm] at hrun
    rw [← himage]
    exact emitter_buffer_loop_keeps hok1 hrun
termination_by data.length

/-! ## A gap -/

theorem section_advance_fits (s : Section) (n : Nat) (hsum : toU 64 (s.len + n) = s.len + n)
    (hin : s.len + n < BUF_SIZE) (hcopy : s.len + (List.replicate n (0 : UInt8)).length ≤ BUF_SIZE) :
    section_advance s n = .ok { s with
      buf := s.buf.put s.len (List.replicate n 0) hcopy
      len := s.len + n
      pos := toU 64 (s.pos + n) } := by
  unfold section_advance
  simp only
  rw [if_neg (by omega), FixedBuffer.copyIn_of_le hcopy, ok_bind, hsum]

/-- A gap that reaches the end of the buffer clears it and moves the offset of
the swap file. -/
theorem section_advance_seek (s : Section) (n : Nat) (hge : BUF_SIZE ≤ toU 64 (s.len + n))
    (hl : s.len ≤ BUF_SIZE) (hfit : s.swap.offset + s.len ≤ OFF_MAX) :
    section_advance s n = (do
      let swap ← orPanic "lseek call failed"
        ((s.swap.put (s.buf.bytes.take s.len)).seekCur (toS 64 n))
      .ok { s with swap, len := 0, pos := toU 64 (s.pos + n) }) := by
  unfold section_advance
  simp only
  rw [if_pos hge, emitter_clear_buffer_fits { s with pos := toU 64 (s.pos + n) } hl hfit, ok_bind]

theorem section_advance_full (s : Section) (n : Nat) (hge : BUF_SIZE ≤ toU 64 (s.len + n))
    (hl : s.len ≤ BUF_SIZE) (hfull : OFF_MAX < s.swap.offset + s.len) :
    section_advance s n = .error (.panic "write call failed") := by
  unfold section_advance
  simp only
  rw [if_pos hge, emitter_clear_buffer_full { s with pos := toU 64 (s.pos + n) } hl hfull, error_bind]

/-- A gap below 2^63 adds its zeros to the image, when the offset of the swap
file has room for it. -/
theorem section_advance.spec (s : Section) (n : Nat) (h : s.Ok) (hn : n < 2 ^ 63) :
    Meets (section_advance s n)
      (fun s' => s'.Ok ∧ s'.vaddr = s.vaddr ∧ s'.pos = s.pos + n ∧
        (s.swap.AtEnd → s'.swap.AtEnd ∧ s'.image = s.image ++ List.replicate n 0) ∧
        (s.len + n < BUF_SIZE → s'.swap = s.swap))
      (fun e => (∃ msg, e = .panic msg) ∧ 2 ^ 63 ≤ s.pos + n) := by
  have hb : BUF_SIZE = 4096 := rfl
  have hm : OFF_MAX = 2 ^ 63 - 1 := rfl
  have hpos := h.pos_lt
  have hlen := s.take_len (Nat.le_of_lt h.len_lt)
  obtain ⟨h1, h2, h3⟩ := h
  have hsum : toU 64 (s.len + n) = s.len + n := by
    exact_mod_cast toU_of_lt (n := s.len + n) (by omega)
  by_cases hin : s.len + n < BUF_SIZE
  · have hp : toU 64 (s.pos + n) = s.pos + n := by
      exact_mod_cast toU_of_lt (n := s.pos + n) (by omega)
    have hcopy : s.len + (List.replicate n (0 : UInt8)).length ≤ BUF_SIZE := by
      rw [List.length_replicate]
      omega
    rw [section_advance_fits s n hsum hin hcopy, hp]
    refine ⟨⟨hin, ?_, h3⟩, rfl, rfl, fun ha => ⟨ha, ?_⟩, fun _ => rfl⟩
    · simp only
      omega
    · have htake := s.buf.take_put hcopy
      simp only [List.length_replicate] at htake
      simp only [Section.image, htake, List.append_assoc]
  · have hge : BUF_SIZE ≤ toU 64 (s.len + n) := by omega
    by_cases hfit : s.swap.offset + s.len ≤ OFF_MAX
    · rw [section_advance_seek s n hge (Nat.le_of_lt h1) hfit, toS64_of_lt hn]
      rcases hs : (s.swap.put (s.buf.bytes.take s.len)).seekCur n with _ | swap
      · have hfull : ¬ s.swap.offset + s.len + n ≤ OFF_MAX := fun hc => by
          have := (seekCur_eq_some (f := s.swap.put (s.buf.bytes.take s.len)) (n := n)).mpr
            ⟨by omega, by simp only [put_offset, hlen]; omega, rfl⟩
          rw [hs] at this
          cases this
        exact ⟨⟨_, rfl⟩, by omega⟩
      · obtain ⟨_, hle, rfl⟩ := seekCur_eq_some.mp hs
        simp only [put_offset, hlen] at hle
        have hoff : ((s.swap.offset + s.len : Nat) + n : Int).toNat =
            s.swap.offset + s.len + n := by omega
        have hp : toU 64 (s.pos + n) = s.pos + n := by
          exact_mod_cast toU_of_lt (n := s.pos + n) (by omega)
        simp only [put_offset, hlen, hoff, hp]
        refine ⟨⟨Nat.zero_lt_succ _, ?_, ?_⟩, rfl, rfl, fun ha => ?_, fun hc => absurd hc hin⟩
        · simp only
          omega
        · simp only
          omega
        · have hskip := (ha.put (s.buf.bytes.take s.len)).skip n
          have hbefore := before_skip (ha.put (s.buf.bytes.take s.len)) n
          rw [put_offset, hlen] at hskip hbefore
          exact ⟨hskip, by simp [Section.image, hbefore]⟩
    · rw [section_advance_full s n hge (Nat.le_of_lt h1) (by omega)]
      exact ⟨⟨_, rfl⟩, by omega⟩

/-! ## The bytes of a run -/

/-- A call that writes to the current section. -/
inductive Write
  | buffer (data : List UInt8)
  | advance (n : UInt64)

/-- The bytes that the caller of a write means. -/
def Write.bytes : Write → List UInt8
  | .buffer data => data
  | .advance n => List.replicate n.toNat 0

def Write.step (em : emitter) : Write → Result emitter
  | .buffer data => emitter_buffer em data
  | .advance n => emitter_advance em n.toNat

/-- The write does not reach the end of the buffer with bytes, and not the
largest offset of a file with a gap. -/
def Write.Fits (em : emitter) : Write → Prop
  | .buffer data => em.cur.len + data.length < BUF_SIZE
  | .advance n => em.cur.len + n.toNat < BUF_SIZE ∨ em.cur.pos + n.toNat < 2 ^ 63

/-- Every write of the list fits in the state that the ones before it lead to. -/
def AllFit (em : emitter) (ws : List Write) : Prop :=
  ∀ before w after, ws = before ++ w :: after →
    ∀ em', runAll Write.step em before = .ok em' → w.Fits em'

@[simp] theorem emitter.cur_setCur (em : emitter) (s : Section) : (em.setCur s).cur = s := by
  simp [emitter.cur, emitter.setCur, emitter.set]

theorem allFit_cons {em em' : emitter} {w : Write} {ws : List Write}
    (h : w.step em = .ok em') : AllFit em (w :: ws) ↔ w.Fits em ∧ AllFit em' ws := by
  constructor
  · intro hall
    refine ⟨hall [] w ws rfl em rfl, fun before w' after he em'' hrun => ?_⟩
    exact hall (w :: before) w' after (by rw [he]; rfl) em'' (by rw [runAll_cons, h]; exact hrun)
  · rintro ⟨hw, hall⟩ before w' after he em'' hrun
    rcases before with _ | ⟨b, before⟩
    · cases he
      cases hrun
      exact hw
    · cases he
      rw [runAll_cons, h, ok_bind] at hrun
      exact hall before w' after rfl em'' hrun

/-- A write that fits adds its bytes. -/
theorem Write.step_fits (em : emitter) (w : Write) (h : em.cur.Ok) (hw : w.Fits em) :
    ∃ em', w.step em = .ok em' ∧ em'.cur.Ok ∧ em'.cur.pos = em.cur.pos + w.bytes.length ∧
      (em.cur.swap.AtEnd → em'.cur.swap.AtEnd ∧ em'.cur.image = em.cur.image ++ w.bytes) := by
  have hb : BUF_SIZE = 4096 := rfl
  rcases w with data | n
  · have hspec := emitter_buffer_loop.spec em.cur data h
    have hrun := emitter_buffer_loop_fits em.cur em.cur.len data hw
    rw [hrun] at hspec
    obtain ⟨hok, _, hend, hin, _⟩ := hspec
    refine ⟨_, by rw [Write.step, emitter_buffer, hrun, ok_bind], by simpa using hok, ?_,
      fun ha => ?_⟩
    · simpa [Write.bytes] using (hin hw).2.1
    · simpa [Write.bytes] using And.intro (hend ha) (hin hw).2.2
  · have hlt := h.len_lt
    have hpos := h.pos_eq
    have hn : n.toNat < 2 ^ 63 := by rcases hw with hw | hw <;> omega
    have hspec := section_advance.spec em.cur n.toNat h hn
    obtain ⟨s, hs⟩ : ∃ s, section_advance em.cur n.toNat = .ok s := by
      rcases hw with hw | hw
      · have hsum : toU 64 (em.cur.len + n.toNat) = em.cur.len + n.toNat := by
          exact_mod_cast toU_of_lt (n := em.cur.len + n.toNat) (by omega)
        exact ⟨_, section_advance_fits em.cur n.toNat hsum hw
          (by rw [List.length_replicate]; exact Nat.le_of_lt hw)⟩
      · rcases hs : section_advance em.cur n.toNat with e | s
        · rw [hs] at hspec
          have := hspec.2
          omega
        · exact ⟨s, rfl⟩
    rw [hs] at hspec
    obtain ⟨hok, _, hp, hend, _⟩ := hspec
    refine ⟨_, by rw [Write.step, emitter_advance, hs, ok_bind], by simpa using hok, ?_,
      fun ha => ?_⟩
    · simpa [Write.bytes] using hp
    · simpa [Write.bytes] using hend ha

/-- A gap that does not fit moves the offset backwards, or the call fails. -/
theorem section_advance_misfit (s s' : Section) (n : Nat) (h : s.Ok) (hn : n < 2 ^ 64)
    (hbuf : BUF_SIZE ≤ s.len + n) (hmax : 2 ^ 63 ≤ s.pos + n) (hrun : section_advance s n = .ok s') :
    s'.Ok ∧ s'.pos < s.pos + n := by
  have hb : BUF_SIZE = 4096 := rfl
  have hm : OFF_MAX = 2 ^ 63 - 1 := rfl
  have hlen := s.take_len (Nat.le_of_lt h.len_lt)
  obtain ⟨h1, h2, h3⟩ := h
  by_cases hge : BUF_SIZE ≤ toU 64 (s.len + n)
  · by_cases hfit : s.swap.offset + s.len ≤ OFF_MAX
    · rw [section_advance_seek s n hge (Nat.le_of_lt h1) hfit] at hrun
      rcases hs : (s.swap.put (s.buf.bytes.take s.len)).seekCur (toS 64 n) with _ | swap
      · rw [hs] at hrun
        cases hrun
      · rw [hs] at hrun
        obtain ⟨h0, hle, rfl⟩ := seekCur_eq_some.mp hs
        simp only [put_offset, hlen] at h0 hle
        -- the offset stays in range only when the length turns negative
        have hneg : toS 64 n = n - 2 ^ 64 := by
          rw [toS, Int.bmod_def] at *
          split at hle <;> split <;> omega
        have hp : toU 64 (s.pos + n) = s.pos + n - 2 ^ 64 := by
          rw [hneg] at h0
          unfold toU
          omega
        cases hrun
        rw [hneg] at h0 hle
        refine ⟨⟨Nat.zero_lt_succ _, ?_, ?_⟩, ?_⟩
        · simp only [put_offset, hlen, hp, hneg]
          omega
        · simp only [put_offset, hlen, hneg]
          omega
        · simp only [hp]
          omega
    · rw [section_advance_full s n hge (Nat.le_of_lt h1) (by omega)] at hrun
      cases hrun
  · -- the sum has wrapped, so the zeros would pass the end of the buffer
    have hwrap : ¬ s.len + n ≤ BUF_SIZE := by
      unfold toU at hge
      omega
    unfold section_advance at hrun
    simp only at hrun
    rw [if_neg hge, FixedBuffer.copyIn, dif_neg (by rw [List.length_replicate]; exact hwrap)] at hrun
    cases hrun

/-- A write that does not fit is lost in part: when it returns, the position is
short of its bytes. -/
theorem Write.step_misfit (em em' : emitter) (w : Write) (h : em.cur.Ok) (hw : ¬ w.Fits em)
    (hstep : w.step em = .ok em') :
    em'.cur.Ok ∧ em'.cur.pos < em.cur.pos + w.bytes.length := by
  rcases w with data | n
  · obtain ⟨s, hs, he⟩ := bind_eq_ok.mp hstep
    cases he
    obtain ⟨hok, _, _, _, hout⟩ := (emitter_buffer_loop.spec em.cur data h).of_ok hs
    have := hout (Nat.le_of_not_lt hw)
    simpa [Write.bytes] using And.intro hok this
  · obtain ⟨s, hs, he⟩ := bind_eq_ok.mp hstep
    cases he
    simp only [Write.Fits, not_or, Nat.not_lt] at hw
    have := section_advance_misfit em.cur s n.toNat h n.toNat_lt hw.1 hw.2 hs
    simpa [Write.bytes] using this

/-- The position never runs ahead of the bytes that were written. -/
theorem pos_le_of_run (ws : List Write) (em em' : emitter) (h : em.cur.Ok)
    (hrun : runAll Write.step em ws = .ok em') :
    em'.cur.pos ≤ em.cur.pos + (ws.flatMap Write.bytes).length := by
  induction ws generalizing em with
  | nil => cases hrun; simp
  | cons w ws ih =>
    obtain ⟨em1, h1, h2⟩ := bind_eq_ok.mp hrun
    have hstep : em1.cur.Ok ∧ em1.cur.pos ≤ em.cur.pos + w.bytes.length := by
      by_cases hw : w.Fits em
      · obtain ⟨em2, he, hok, hp, _⟩ := w.step_fits em h hw
        rw [h1] at he
        cases he
        exact ⟨hok, Nat.le_of_eq hp⟩
      · obtain ⟨hok, hp⟩ := w.step_misfit em em1 h hw h1
        exact ⟨hok, Nat.le_of_lt hp⟩
    have := ih em1 hstep.1 h2
    simp only [List.flatMap_cons, List.length_append]
    omega

/-- From any good state: a run returns with the bytes of all its writes in the
image, and counts them all, exactly when every write of it fits. -/
theorem run_keeps_bytes_iff (ws : List Write) (em : emitter) (h : em.cur.Ok)
    (ha : em.cur.swap.AtEnd) :
    (∃ em', runAll Write.step em ws = .ok em' ∧
      em'.cur.image = em.cur.image ++ ws.flatMap Write.bytes ∧
      em'.cur.pos = em.cur.pos + (ws.flatMap Write.bytes).length) ↔ AllFit em ws := by
  induction ws generalizing em with
  | nil => simp [AllFit]
  | cons w ws ih =>
    by_cases hw : w.Fits em
    · obtain ⟨em1, h1, hok, hp, hend⟩ := w.step_fits em h hw
      obtain ⟨ha1, hi⟩ := hend ha
      rw [allFit_cons h1, runAll_cons, h1, ok_bind]
      simp only [hw, true_and, ← ih em1 hok ha1, hp, hi, List.flatMap_cons, List.length_append,
        List.append_assoc, Nat.add_assoc]
    · constructor
      · rintro ⟨em', hrun, _, hp⟩
        obtain ⟨em1, h1, h2⟩ := bind_eq_ok.mp hrun
        obtain ⟨hok, hlt⟩ := w.step_misfit em em1 h hw h1
        have := pos_le_of_run ws em1 em' hok h2
        simp only [List.flatMap_cons, List.length_append] at hp
        omega
      · intro hall
        exact absurd (hall [] w ws rfl em rfl) hw

/-- The emitter of a new program that writes to section `s`. -/
def emitter.freshAt (text_vaddr data_vaddr : Nat) (s : Sect) : emitter :=
  { emitter.fresh text_vaddr data_vaddr with current_section := s }

theorem emitter.cur_freshAt (tv dv : Nat) (s : Sect) :
    ∃ v, (emitter.freshAt tv dv s).cur = Section.fresh v := by
  cases s
  · exact ⟨tv, rfl⟩
  · exact ⟨dv, rfl⟩

/-- The bytes of a section are those that were written to it, in order, exactly
when no write of bytes reaches the end of the buffer and no gap passes the
largest offset of a file. -/
theorem section_keeps_its_bytes_iff_every_write_fits (tv dv : Nat) (s : Sect) (ws : List Write) :
    (∃ em, runAll Write.step (emitter.freshAt tv dv s) ws = .ok em ∧
      em.cur.image = ws.flatMap Write.bytes ∧
      em.cur.pos = (ws.flatMap Write.bytes).length) ↔
    AllFit (emitter.freshAt tv dv s) ws := by
  obtain ⟨v, hv⟩ := emitter.cur_freshAt tv dv s
  have hpos : (Section.fresh v).pos = 0 := rfl
  rw [← run_keeps_bytes_iff ws _ (hv ▸ Section.ok_fresh v) (hv ▸ Section.atEnd_fresh v), hv, hpos,
    Section.image_fresh]
  simp only [List.nil_append, Nat.zero_add]

/-- One write of 4096 bytes: the buffer is full, the swap file stays empty and
the position stays 0. -/
theorem a_full_buffer_is_lost :
    ¬ ∀ (tv dv : Nat) (s : Sect) (ws : List Write),
      ∃ em, runAll Write.step (emitter.freshAt tv dv s) ws = .ok em ∧
        em.cur.image = ws.flatMap Write.bytes ∧
        em.cur.pos = (ws.flatMap Write.bytes).length := by
  intro hall
  obtain ⟨em, hrun, hi, hp⟩ := hall 0 0 .SECT_TEXT [.buffer (List.replicate 4096 1)]
  have himage : (emitter.freshAt 0 0 .SECT_TEXT).cur.image = [] := rfl
  have hpos : (emitter.freshAt 0 0 .SECT_TEXT).cur.pos = 0 := rfl
  have hall := (run_keeps_bytes_iff _ (emitter.freshAt 0 0 .SECT_TEXT) (Section.ok_fresh 0)
    (Section.atEnd_fresh 0)).mp
      ⟨em, hrun, by rw [hi, himage, List.nil_append], by rw [hp, hpos, Nat.zero_add]⟩
  have hfit := hall [] _ [] rfl _ rfl
  simp only [Write.Fits, List.length_replicate, BUF_SIZE] at hfit
  omega

end riscv_assembler
