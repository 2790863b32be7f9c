-- Bytes that a directive hands to the emitter piece by piece: when the calls
-- return, and what the counters of the section make of the pieces. The buffer is
-- filled again and again, and each time it is full some bytes are not counted.
import Mathlib.Data.Nat.Init
import RiscvAssembler.Parser
import RiscvAssembler.SectionLaws

open checked machine_int scanner SparseFile

namespace riscv_assembler

/-! ## Room -/

/-- The section takes `n` more bytes: they stay below the largest offset of a file. -/
structure Section.Takes (s : Section) (n : Nat) : Prop where
  ok : s.Ok
  below : s.pos + n < 2 ^ 63

theorem Section.Takes.mono {s : Section} {n k : Nat} (h : s.Takes n) (hk : k ≤ n) : s.Takes k :=
  ⟨h.ok, Nat.lt_of_le_of_lt (Nat.add_le_add_left hk s.pos) h.below⟩

theorem emitter_buffer.takes {em : emitter} {data : List UInt8} {n : Nat}
    (h : em.cur.Takes (data.length + n)) :
    Meets (emitter_buffer em data) (fun em' => em'.cur.Takes n) fun _ => False := by
  have hbelow := h.below
  have hspec := emitter_buffer_loop.spec em.cur data h.ok
  unfold emitter_buffer
  rcases hs : emitter_buffer_loop em.cur em.cur.len data with f | s
  · rw [hs] at hspec
    have hfull : 2 ^ 63 ≤ em.cur.pos := hspec.2
    exact absurd hfull (by omega)
  · rw [hs] at hspec
    obtain ⟨hok, _, _, hin, hout⟩ := hspec
    have hpos : s.pos ≤ em.cur.pos + data.length := by
      rcases Nat.lt_or_ge (em.cur.len + data.length) BUF_SIZE with hfit | hfull
      · exact Nat.le_of_eq (hin hfit).2.1
      · exact Nat.le_of_lt (hout hfull)
    rw [ok_bind, meets_ok, em.cur_setCur]
    exact ⟨hok, by omega⟩

theorem buffer_pieces_take {em : emitter} (pieces : List (List UInt8)) (n : Nat)
    (h : em.cur.Takes ((pieces.map List.length).sum + n)) :
    ∃ em', runAll emitter_buffer em pieces = .ok em' ∧ em'.cur.Takes n := by
  have hrun : Meets (runAll emitter_buffer em pieces) (fun em' => em'.cur.Takes n) fun _ => False :=
    runAll_meets (I := fun n em => em.cur.Takes n) pieces
      (fun _ _ _ _ hem => emitter_buffer.takes hem) n em h
  rcases hr : runAll emitter_buffer em pieces with f | em'
  · rw [hr] at hrun
    exact absurd hrun id
  · rw [hr] at hrun
    exact ⟨em', rfl, hrun⟩

theorem emitter_advance_takes {em : emitter} {n : Nat} (h : em.cur.Takes n) :
    ∃ em', emitter_advance em n = .ok em' := by
  have hbelow := h.below
  have hspec := section_advance.spec em.cur n h.ok (by omega)
  unfold emitter_advance
  rcases hs : section_advance em.cur n with f | s
  · rw [hs] at hspec
    have hfull : 2 ^ 63 ≤ em.cur.pos + n := hspec.2
    exact absurd hfull (by omega)
  · exact ⟨em.setCur s, rfl⟩

/-- The pieces and then a gap. -/
theorem pieces_and_gap_take {em : emitter} (pieces : List (List UInt8)) (n : Nat)
    (h : em.cur.Takes ((pieces.map List.length).sum + n)) :
    ∃ em', (do
      let em ← runAll emitter_buffer em pieces
      emitter_advance em n) = .ok em' := by
  obtain ⟨em1, hrun, htakes⟩ := buffer_pieces_take pieces n h
  obtain ⟨em2, hgap⟩ := emitter_advance_takes htakes
  exact ⟨em2, by rw [hrun, ok_bind, hgap]⟩

/-! ## From a parser -/

theorem emit_run {ε : Type} (data text : List UInt8) (p : Process) :
    (emit data : Parse ε Unit) text p = (do
      let em ← emitter_buffer p.em data
      .ok (.ok ((), text), { p with em })) := by
  unfold emit call
  simp only
  cases emitter_buffer p.em data <;> rfl

theorem advance_run {ε : Type} (n : Nat) (text : List UInt8) (p : Process) :
    (advance n : Parse ε Unit) text p = (do
      let em ← emitter_advance p.em n
      .ok (.ok ((), text), { p with em })) := by
  unfold advance call
  simp only
  cases emitter_advance p.em n <;> rfl

/-! ## Bytes that are not counted -/

/-- The bytes that `pos` misses after `n` bytes in pieces of `w`: each time the
buffer is full, the part of the piece that still went into it. -/
def Section.uncounted (s : Section) (w n : Nat) : Nat :=
  (s.len + n) / BUF_SIZE * (w - s.len % w)

theorem toU_sum {a b : Nat} (h : a + b < 2 ^ 64) : toU 64 ((a : Int) + (b : Int)) = a + b := by
  exact_mod_cast toU_of_lt h

/-- A piece that fills the buffer: only what is left of it goes on. -/
theorem emitter_buffer_loop_full {s s' : Section} {data : List UInt8} (h : s.Ok)
    (hdata : data.length < BUF_SIZE) (hfull : BUF_SIZE ≤ s.len + data.length)
    (hrun : emitter_buffer_loop s s.len data = .ok s') :
    s'.len = s.len + data.length - BUF_SIZE ∧ s'.pos + (BUF_SIZE - s.len) = s.pos + data.length := by
  have hlt := h.len_lt
  have hpos := h.pos_lt
  have hb : BUF_SIZE = 4096 := rfl
  have hcopy : s.len + (data.take (BUF_SIZE - s.len)).length ≤ BUF_SIZE := by
    simp only [List.length_take]
    omega
  have hput : ({ s with buf := s.buf.put s.len _ hcopy } : Section).Ok := ⟨h.1, h.2, h.3⟩
  rw [emitter_buffer_loop, if_pos hfull] at hrun
  simp only [FixedBuffer.copyIn_of_le hcopy, ok_bind] at hrun
  obtain ⟨s1, hclear, hrest⟩ := bind_eq_ok.mp hrun
  obtain ⟨hok1, hlen1, hpos1, _, _⟩ := (emitter_clear_buffer.spec _ hput).of_ok hclear
  have hlen : (data.drop (BUF_SIZE - s.len)).length = s.len + data.length - BUF_SIZE := by
    rw [List.length_drop]
    omega
  rw [emitter_buffer_loop_fits _ _ _ (by omega)] at hrest
  cases hrest
  simp only at hpos1
  simp only [hlen1, hpos1, hlen]
  rw [toU_sum (by omega), toU_sum (by omega)]
  omega

/-- The counters after a piece that is shorter than the buffer. -/
theorem emitter_buffer_counts {em em' : emitter} {data : List UInt8} (h : em.cur.Ok)
    (hdata : data.length < BUF_SIZE) (hrun : emitter_buffer em data = .ok em') :
    em'.cur.Ok ∧ (em.cur.swap.AtEnd → em'.cur.swap.AtEnd) ∧
      em'.cur.len = (em.cur.len + data.length) % BUF_SIZE ∧
      em'.cur.pos + (em.cur.len + data.length) / BUF_SIZE * (BUF_SIZE - em.cur.len) =
        em.cur.pos + data.length := by
  have hlt := h.len_lt
  have hposlt := h.pos_lt
  have hb : BUF_SIZE = 4096 := rfl
  obtain ⟨s, hs, hem⟩ := bind_eq_ok.mp hrun
  cases hem
  obtain ⟨hok, _, hend, hin, _⟩ := (emitter_buffer_loop.spec em.cur data h).of_ok hs
  rw [em.cur_setCur]
  refine ⟨hok, hend, ?_⟩
  by_cases hfit : em.cur.len + data.length < BUF_SIZE
  · have hpos := (hin hfit).2.1
    rw [emitter_buffer_loop_fits _ _ _ hfit] at hs
    cases hs
    rw [Nat.mod_eq_of_lt hfit, Nat.div_eq_of_lt hfit, hpos]
    exact ⟨toU_sum (by omega), by omega⟩
  · obtain ⟨hlen, hpos⟩ := emitter_buffer_loop_full h hdata (by omega) hs
    have hdiv : (em.cur.len + data.length) / BUF_SIZE = 1 := by
      rw [Nat.div_eq_sub_div (by omega) (by omega), Nat.div_eq_of_lt (by omega)]
    have hmod : (em.cur.len + data.length) % BUF_SIZE = em.cur.len + data.length - BUF_SIZE := by
      rw [Nat.mod_eq_sub_mod (by omega), Nat.mod_eq_of_lt (by omega)]
    rw [hdiv, hmod, Nat.one_mul]
    exact ⟨hlen, hpos⟩

/-- A piece that fills the buffer begins before the last multiple of its width. -/
theorem room_before_full {w b l : Nat} (hw : w ∣ b) (hl : l < b) (hfull : b ≤ l + w) :
    b - l = w - l % w := by
  obtain ⟨q, rfl⟩ := hw
  have hpos : 0 < w := Nat.pos_of_ne_zero fun h0 => by simp [h0] at hl
  have hlow := Nat.div_add_mod l w
  have hmod := Nat.mod_lt l hpos
  have hq : l / w + 1 = q := by
    apply Nat.le_antisymm
    · exact Nat.div_lt_of_lt_mul hl
    · have : w * q < w * (l / w + 2) := by
        rw [Nat.mul_add]
        omega
      have := Nat.lt_of_mul_lt_mul_left this
      omega
  rw [← hq, Nat.mul_add, Nat.mul_one]
  omega

/-- The pieces of one width: each piece moves the buffer on by its width, and each
time the buffer is full the same number of bytes is not counted. -/
theorem buffer_pieces_count {w : Nat} (hw : w ∣ BUF_SIZE) (hlt : w < BUF_SIZE)
    {pieces : List (List UInt8)} (hpieces : ∀ d ∈ pieces, d.length = w) {em em' : emitter}
    (h : em.cur.Ok) (hrun : runAll emitter_buffer em pieces = .ok em') :
    em'.cur.Ok ∧ (em.cur.swap.AtEnd → em'.cur.swap.AtEnd) ∧
      em'.cur.pos + em.cur.uncounted w (w * pieces.length) = em.cur.pos + w * pieces.length := by
  induction pieces generalizing em with
  | nil =>
    cases hrun
    have hnone : em'.cur.uncounted w 0 = 0 := by
      rw [Section.uncounted, Nat.add_zero, Nat.div_eq_of_lt h.len_lt, Nat.zero_mul]
    exact ⟨h, id, by simp [hnone]⟩
  | cons d pieces ih =>
    obtain ⟨em1, h1, h2⟩ := bind_eq_ok.mp hrun
    have hd : d.length = w := hpieces d List.mem_cons_self
    obtain ⟨hok1, hend1, hlen1, hpos1⟩ := emitter_buffer_counts h (by omega) h1
    obtain ⟨hok, hend, hpos⟩ := ih (fun x hx => hpieces x (List.mem_cons_of_mem d hx)) hok1 h2
    refine ⟨hok, fun ha => hend (hend1 ha), ?_⟩
    rw [hd] at hlen1 hpos1
    have hmod : em1.cur.len % w = em.cur.len % w := by
      rw [hlen1, Nat.mod_mod_of_dvd _ hw, Nat.add_mod_right]
    have hdiv : (em.cur.len + (w + w * pieces.length)) / BUF_SIZE =
        (em.cur.len + w) / BUF_SIZE + (em1.cur.len + w * pieces.length) / BUF_SIZE := by
      rw [hlen1, ← Nat.add_assoc]
      conv_lhs => rw [← Nat.div_add_mod (em.cur.len + w) BUF_SIZE, Nat.add_assoc]
      rw [Nat.mul_add_div (by decide)]
    have hfirst : (em.cur.len + w) / BUF_SIZE * (BUF_SIZE - em.cur.len) =
        (em.cur.len + w) / BUF_SIZE * (w - em.cur.len % w) := by
      rcases Nat.lt_or_ge (em.cur.len + w) BUF_SIZE with hfit | hfull
      · rw [Nat.div_eq_of_lt hfit, Nat.zero_mul, Nat.zero_mul]
      · rw [room_before_full hw h.len_lt hfull]
    have hsum : w * (d :: pieces).length = w + w * pieces.length := by
      rw [List.length_cons, Nat.mul_succ, Nat.add_comm]
    rw [Section.uncounted, hmod] at hpos
    rw [hsum, Section.uncounted, hdiv, Nat.add_mul, ← hfirst]
    omega

end riscv_assembler
