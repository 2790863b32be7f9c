-- The words of a section while calls go on: writes leave the bytes alone that are
-- there, and each waiter that is resolved puts its immediate over four of them by OR,
-- whatever stands there.
import RiscvAssembler.Displacements
import RiscvAssembler.LabelTable
import RiscvAssembler.Lib.ByteBits

open byte_bits checked machine_int SparseFile

namespace riscv_assembler

variable {vaddr : Sect → Nat} {em em' : emitter} {p p' q : Process} {text : List UInt8}
  {texts : List (List UInt8)} {key : string} {w : label_waiter} {val : Int}

/-! ## Patches -/

/-- Four bytes of a section, and the bits that are set in them. -/
structure Patch where
  sect : Sect
  off : Nat
  mark : BitVec 32
  deriving DecidableEq

/-- The offset of the waiter's instruction in its section. -/
def label_waiter.off (w : label_waiter) : Nat := toU 64 w.fix_idx

/-- The way from the waiter's instruction to the address, as an `int64_t`. -/
def label_waiter.displacement (w : label_waiter) (em : emitter) (val : Int) : Int :=
  toS 64 (val - (w.fix_idx + (em.sect w.sect).vaddr))

/-- What the waiter does when its label is at `val`. -/
def label_waiter.patch (w : label_waiter) (em : emitter) (val : Int) : Patch where
  sect := w.sect
  off := w.off
  mark := w.assign.packed (w.displacement em val)

/-- The patches of a line with the reading: those of the waiters of the label that it
defines. -/
def Reading.patches (em : emitter) : Reading → List Patch
  | .define key => (em.waiting key).map fun w => w.patch em em.addr
  | _ => []

/-- The patches of calls. -/
def patches (p : Process) : List (List UInt8) → List Patch
  | [] => []
  | text :: texts =>
    match parse_call p text with
    | .ok p' => (effect p.em (reading text)).patches p.em ++ patches p' texts
    | .error _ => []

theorem patches_cons (h : parse_call p text = .ok p') :
    patches p (text :: texts) = (effect p.em (reading text)).patches p.em ++ patches p' texts := by
  simp only [patches, h]

/-- The patch sets bit `n` of the section. -/
def Patch.bit (x : Patch) (s : Sect) (n : Nat) : Bool :=
  decide (x.sect = s) && (decide (8 * x.off ≤ n) && x.mark.getLsbD (n - 8 * x.off))

/-- The bits that the patch sets in the word at the offset. -/
def Patch.spill (x : Patch) (s : Sect) (off : Nat) : BitVec 32 :=
  if x.sect = s then x.mark <<< (8 * (x.off - off)) >>> (8 * (off - x.off)) else 0

theorem Patch.getLsbD_spill (x : Patch) (s : Sect) (off : Nat) {i : Nat} (hi : i < 32) :
    (x.spill s off).getLsbD i = x.bit s (8 * off + i) := by
  unfold Patch.spill Patch.bit
  by_cases hs : x.sect = s
  · rw [if_pos hs, decide_eq_true hs, Bool.true_and, BitVec.getLsbD_ushiftRight,
      BitVec.getLsbD_shiftLeft]
    by_cases hle : 8 * x.off ≤ 8 * off + i
    · have hidx : 8 * (off - x.off) + i - 8 * (x.off - off) = 8 * off + i - 8 * x.off := by omega
      have hno : ¬ 8 * (off - x.off) + i < 8 * (x.off - off) := by omega
      rw [hidx, decide_eq_true hle, decide_eq_false hno, Bool.not_false, Bool.and_true,
        Bool.true_and]
      by_cases hin : 8 * (off - x.off) + i < 32
      · rw [decide_eq_true hin, Bool.true_and]
      · rw [decide_eq_false hin, Bool.false_and, BitVec.getLsbD_of_ge _ _ (by omega)]
    · have hyes : 8 * (off - x.off) + i < 8 * (x.off - off) := by omega
      rw [decide_eq_false hle, decide_eq_true hyes]
      simp
  · rw [if_neg hs, decide_eq_false hs]
    simp

/-! ## Words -/

/-- The four bytes of the section at the offset. -/
def emitter.wordOf (em : emitter) (s : Sect) (off : Nat) : BitVec 32 :=
  instr_of (((em.sect s).image.drop off).take 4)

theorem emitter.getLsbD_wordOf (em : emitter) (s : Sect) (off : Nat) {i : Nat} (hi : i < 32) :
    (em.wordOf s off).getLsbD i = bitAt (em.sect s).image (8 * off + i) := by
  unfold emitter.wordOf instr_of
  rw [BitVec.getLsbD_ofNat, decide_eq_true hi, Bool.true_and, testBit_leNat, bitAt_slice,
    decide_eq_true (show i < 8 * 4 from hi), Bool.true_and]

/-- The word at the offset with all that the patches put over it. -/
def patchedWord (s : Sect) (off : Nat) (w : BitVec 32) (xs : List Patch) : BitVec 32 :=
  xs.foldl (fun w x => w ||| x.spill s off) w

theorem getLsbD_patchedWord (s : Sect) (off : Nat) (w : BitVec 32) (xs : List Patch) {i : Nat}
    (hi : i < 32) : (patchedWord s off w xs).getLsbD i =
      (w.getLsbD i || xs.any fun x => x.bit s (8 * off + i)) := by
  unfold patchedWord
  induction xs generalizing w with
  | nil => simp
  | cons x xs ih =>
    rw [List.foldl_cons, ih, BitVec.getLsbD_or, x.getLsbD_spill s off hi, List.any_cons,
      Bool.or_assoc]

theorem patchedWord_or (s : Sect) (off : Nat) (v w : BitVec 32) (xs : List Patch) :
    patchedWord s off (v ||| w) xs = v ||| patchedWord s off w xs := by
  unfold patchedWord
  induction xs generalizing w with
  | nil => rfl
  | cons x xs ih => rw [List.foldl_cons, List.foldl_cons, BitVec.or_assoc, ih]

theorem within_patchedWord {assign : assign_type} {d : Int} {s : Sect} {off : Nat} {w : BitVec 32}
    {xs : List Patch} : assign.Within d (patchedWord s off w xs) ↔
      assign.Within d w ∧ ∀ x ∈ xs, assign.Within d (x.spill s off) := by
  unfold patchedWord
  induction xs generalizing w with
  | nil => simp
  | cons x xs ih => rw [List.foldl_cons, ih, within_or, List.forall_mem_cons, and_assoc]

/-- A patch sets all its bits in its own word. -/
theorem Patch.spill_self (x : Patch) : x.spill x.sect x.off = x.mark := by
  rw [Patch.spill, if_pos rfl, Nat.sub_self, Nat.mul_zero, BitVec.shiftLeft_zero,
    BitVec.ushiftRight_zero]

theorem patchedWord_of_mem {x : Patch} {xs : List Patch} (h : x ∈ xs) (w : BitVec 32) :
    patchedWord x.sect x.off w xs = patchedWord x.sect x.off w xs ||| x.mark := by
  obtain ⟨as, bs, rfl⟩ := List.append_of_mem h
  have hfold : patchedWord x.sect x.off w (as ++ x :: bs) =
      x.mark ||| patchedWord x.sect x.off (patchedWord x.sect x.off w as) bs := by
    rw [← patchedWord_or, BitVec.or_comm, ← x.spill_self]
    unfold patchedWord
    rw [List.foldl_append, List.foldl_cons]
  rw [hfold, BitVec.or_comm x.mark, BitVec.or_assoc, BitVec.or_self]

/-! ## One call -/

/-- A waiter that is resolved has its four bytes in the buffer. -/
theorem resolve_waiter_at (h : (em.sect w.sect).Ok) (hrun : resolve_waiter val em w = .ok em') :
    ∃ i hfit, w.off = (em.sect w.sect).swap.offset + i ∧ i + 4 ≤ (em.sect w.sect).len ∧
      em' = em.set w.sect ((em.sect w.sect).patch i
        (w.patched val (em.sect w.sect).vaddr ((em.sect w.sect).buf.slice i 4)) hfit) := by
  have hb : BUF_SIZE = 4096 := rfl
  have hm : OFF_MAX = 2 ^ 63 - 1 := rfl
  obtain ⟨hlen, hpos, hoff⟩ := h
  have hl : toS 64 ((em.sect w.sect).len : Int) = (em.sect w.sect).len := toS64_of_lt (by omega)
  unfold resolve_waiter at hrun
  simp only [hl, ofInt_toS_of_le (show 32 ≤ 64 by decide)] at hrun
  split at hrun
  · cases hrun
  · split at hrun
    · cases hrun
    · rename_i hlo hhi
      obtain ⟨i, hi⟩ := Int.eq_ofNat_of_zero_le (show
        0 ≤ ((em.sect w.sect).len : Int) - (toS 64 (em.sect w.sect).pos - w.fix_idx) by omega)
      have hin : i + 4 ≤ (em.sect w.sect).len := by omega
      have hfit : i + 4 ≤ BUF_SIZE := by omega
      rw [hi, Int.toNat_natCast, FixedBuffer.copyOut_of_le hfit, ok_bind,
        FixedBuffer.copyIn_of_le (by rw [length_instr_bytes]; exact hfit), ok_bind] at hrun
      cases hrun
      refine ⟨i, hfit, ?_, hin, rfl⟩
      -- the counters are taken modulo 2^64, and the offset is below it
      have hidx : w.fix_idx = (i - (em.sect w.sect).len) + toS 64 (em.sect w.sect).pos := by omega
      have hsum : (i : Int) - (em.sect w.sect).len + (em.sect w.sect).pos =
          ((em.sect w.sect).swap.offset + i : Nat) := by omega
      rw [label_waiter.off, hidx, toU_add_toS, hsum]
      exact toU_of_lt (by omega)

/-- The word of a waiter in the bytes of its section. -/
theorem Section.slice_image {s : Section} {i : Nat} (h : i + 4 ≤ s.len) :
    s.buf.slice i 4 = (s.image.drop (s.swap.offset + i)).take 4 := by
  unfold FixedBuffer.slice Section.image
  rw [← List.drop_drop, List.drop_left' s.swap.length_before, List.drop_take, List.take_take,
    Nat.min_eq_left (by omega)]

/-- The bytes of a section after the word at index `i` of its buffer is patched. -/
theorem Section.getElem?_patch {s : Section} {i : Nat} {instr : BitVec 32} {hfit : i + 4 ≤ BUF_SIZE}
    (h : i + 4 ≤ s.len) (j : Nat) : (s.patch i instr hfit).image[j]? =
      if s.swap.offset + i ≤ j ∧ j < s.swap.offset + i + 4 then
        (instr_bytes instr)[j - (s.swap.offset + i)]? else s.image[j]? := by
  have hlen := length_instr_bytes instr
  unfold Section.image Section.patch
  by_cases hj : j < s.swap.offset
  · rw [if_neg (by omega), List.getElem?_append_left (by rwa [s.swap.length_before]),
      List.getElem?_append_left (by rwa [s.swap.length_before])]
  · rw [List.getElem?_append_right (by rw [s.swap.length_before]; omega),
      List.getElem?_append_right (by rw [s.swap.length_before]; omega), s.swap.length_before,
      List.getElem?_take, List.getElem?_take, FixedBuffer.getElem?_put, hlen]
    simp only
    by_cases hin : s.swap.offset + i ≤ j ∧ j < s.swap.offset + i + 4
    · rw [if_pos (by omega), if_pos (by omega), if_pos hin]
      congr 1
      omega
    · rw [if_neg hin]
      congr 1
      exact if_neg (by omega)

/-- A patch puts the immediate over what stands in the word. -/
theorem label_waiter.instr_bytes_patched (w : label_waiter) (em : emitter) (val : Int)
    (word : List UInt8) (hword : word.length = 4) :
    instr_bytes (w.patched val (em.sect w.sect).vaddr word) =
      leBytes 4 (leNat word ||| (w.patch em val).mark.toNat) := by
  have hlt : leNat word < 2 ^ 32 := by
    have := leNat_lt word
    rwa [hword] at this
  unfold instr_bytes label_waiter.patched label_waiter.patch assign_type.packed
    label_waiter.displacement
  rw [set_imm_or, BitVec.toNat_or, instr_of, BitVec.toNat_ofNat, Nat.mod_eq_of_lt hlt,
    ofInt_toS_of_le (show 32 ≤ 64 by decide)]

/-- A waiter that is resolved patches its word. -/
theorem resolve_waiter_bits (h : (em.sect w.sect).Ok) (hrun : resolve_waiter val em w = .ok em')
    (s : Sect) (n : Nat) :
    bitAt (em'.sect s).image n = (bitAt (em.sect s).image n || (w.patch em val).bit s n) := by
  obtain ⟨i, hfit, hoff, hin, rfl⟩ := resolve_waiter_at h hrun
  by_cases hs : s = w.sect
  · subst hs
    have hmark : (w.patch em val).mark.toNat < 2 ^ (8 * 4) := (w.patch em val).mark.isLt
    have hlen : ((em.sect w.sect).buf.slice i 4).length = 4 := by
      have := (em.sect w.sect).buf.size
      unfold FixedBuffer.slice
      rw [List.length_take, List.length_drop]
      omega
    rw [em.set_sect_same, bitAt_or hmark (l := (em.sect w.sect).image) (o := w.off)]
    · simp only [Patch.bit, label_waiter.patch, decide_true, Bool.true_and]
      rfl
    · intro j
      rw [Section.getElem?_patch hin, w.instr_bytes_patched em val _ hlen, hoff,
        Section.slice_image hin]
  · have hno : (w.patch em val).bit s n = false := by
      rw [Patch.bit, decide_eq_false (fun hc => hs hc.symm), Bool.false_and]
    rw [em.set_sect_ne _ hs, hno, Bool.or_false]

theorem OnlyBuffers.patch (h : OnlyBuffers em em') (w : label_waiter) (val : Int) :
    w.patch em' val = w.patch em val := by
  obtain ⟨buf, he⟩ := h.2 w.sect
  unfold label_waiter.patch label_waiter.displacement
  rw [he]

theorem resolve_all_bits {ws : List label_waiter} (h : em.Sound vaddr)
    (hrun : runAll (resolve_waiter val) em ws = .ok em') (s : Sect) (n : Nat) :
    bitAt (em'.sect s).image n =
      (bitAt (em.sect s).image n || ws.any fun w => (w.patch em val).bit s n) := by
  induction ws generalizing em with
  | nil =>
    cases hrun
    simp
  | cons w ws ih =>
    obtain ⟨em1, hfirst, hrest⟩ := bind_eq_ok.mp hrun
    have hbuf := (resolve_waiter_only_buffers hfirst).1
    rw [ih (hbuf.sound h) hrest, resolve_waiter_bits (h w.sect).1 hfirst, List.any_cons,
      Bool.or_assoc]
    simp only [hbuf.patch]

/-- Waiters that are resolved lie in their sections. -/
theorem resolve_all_inside {ws : List label_waiter} (h : em.Sound vaddr)
    (hrun : runAll (resolve_waiter val) em ws = .ok em') :
    ∀ w ∈ ws, w.off + 4 ≤ (em.sect w.sect).pos := by
  induction ws generalizing em with
  | nil => exact fun _ hw => absurd hw List.not_mem_nil
  | cons w ws ih =>
    obtain ⟨em1, hfirst, hrest⟩ := bind_eq_ok.mp hrun
    have hbuf := (resolve_waiter_only_buffers hfirst).1
    rw [List.forall_mem_cons]
    constructor
    · obtain ⟨i, _, hoff, hin, _⟩ := resolve_waiter_at (h w.sect).1 hfirst
      have hpos := (h w.sect).1.pos_eq
      omega
    · intro w' hw'
      obtain ⟨buf, he⟩ := hbuf.2 w'.sect
      have hinside := ih (hbuf.sound h) hrest w' hw'
      rwa [he] at hinside

theorem emitter.keeps_image_setCur {x : Section} (h : em.cur.image <+: x.image) (s : Sect) :
    (em.sect s).image <+: ((em.setCur x).sect s).image :=
  em.forall_set (P := fun s y => (em.sect s).image <+: y.image) (fun _ => List.prefix_rfl) h s

theorem WriteStep.keeps_image (hw : WriteStep em em') (h : em.Sound vaddr) (s : Sect) :
    (em.sect s).image <+: (em'.sect s).image := by
  obtain ⟨hok, hend, _⟩ := h em.current_section
  cases hw with
  | buffer _ hrun =>
    obtain ⟨x, hx, hrun⟩ := bind_eq_ok.mp hrun
    cases hrun
    exact emitter.keeps_image_setCur (emitter_buffer_loop_keeps hok hx) s
  | advance hn hrun =>
    obtain ⟨x, hx, hrun⟩ := bind_eq_ok.mp hrun
    cases hrun
    have himage := ((section_advance.spec em.cur _ hok (by omega)).of_ok hx).2.2.2.1 hend
    refine emitter.keeps_image_setCur ?_ s
    rw [himage.2]
    exact List.prefix_append _ _
  | switch he =>
    subst he
    exact List.prefix_rfl

/-- A line that defines no label leaves the bytes alone that are there. -/
theorem Reading.Does.keeps_image {r : Reading} (hd : r.Does em em') (h : em.Sound vaddr)
    (hr : ∀ key, r ≠ .define key) (s : Sect) : (em.sect s).image <+: (em'.sect s).image := by
  cases r with
  | blank =>
    rw [hd]
  | refer assign instr key =>
    obtain ⟨⟨word, em1⟩, h1, h2⟩ := bind_eq_ok.mp hd
    obtain ⟨hsect, _⟩ := emitter_reference_sections h1
    have hsound : em1.Sound vaddr := by
      intro t
      rw [hsect]
      exact h t
    have hkeep := WriteStep.keeps_image
      (.buffer (by rw [length_instr_bytes]; decide) h2) hsound s
    rwa [hsect] at hkeep
  | define key => exact absurd rfl (hr key)
  | other =>
    induction hd with
    | refl => exact List.prefix_rfl
    | tail hws hw ih =>
      exact ih.trans (hw.keeps_image (Reading.Does.sound (r := .other) hws h) s)

/-- The definition of a label puts its patches over the bits. -/
theorem label_add_bits (h : em.Sound vaddr) (hrun : emitter_label_add em key = .ok (0, em'))
    (s : Sect) (n : Nat) : bitAt (em'.sect s).image n =
      (bitAt (em.sect s).image n || ((Reading.define key).patches em).any fun x => x.bit s n) := by
  obtain ⟨em1, hall, hsect⟩ := label_add_resolves hrun
  rw [hsect, resolve_all_bits h hall, Reading.patches, List.any_map]
  rfl

/-- What a line does to the bits that are there. -/
theorem Reading.Does.bits {r : Reading} (hd : r.Does em em') (h : em.Sound vaddr) (s : Sect) {n : Nat}
    (hn : n < 8 * (em.sect s).pos) : bitAt (em'.sect s).image n =
      (bitAt (em.sect s).image n || (r.patches em).any fun x => x.bit s n) := by
  by_cases hr : ∃ key, r = .define key
  · obtain ⟨key, rfl⟩ := hr
    exact label_add_bits h hd s n
  · obtain ⟨more, he⟩ := hd.keeps_image h (fun key hc => hr ⟨key, hc⟩) s
    have hno : r.patches em = [] := by
      cases r with
      | define key => exact absurd ⟨key, rfl⟩ hr
      | _ => rfl
    rw [← (h s).1.length_image] at hn
    rw [← he, bitAt_append_left more hn, hno, List.any_nil, Bool.or_false]

theorem Reading.Does.pos_le {r : Reading} (hd : r.Does em em') (h : em.Sound vaddr) (s : Sect) :
    (em.sect s).pos ≤ (em'.sect s).pos := by
  by_cases hr : ∃ key, r = .define key
  · obtain ⟨key, rfl⟩ := hr
    obtain ⟨buf, he⟩ := (label_add_only_buffers hd).2 s
    rw [he]
  · have hkeep := (hd.keeps_image h (fun key hc => hr ⟨key, hc⟩) s).length_le
    rwa [(h s).1.length_image, ((hd.sound h) s).1.length_image] at hkeep

/-! ## Calls -/

/-- The word at an offset after calls: what stood there, with the patches over it. -/
theorem Calls.wordOf (hrun : Calls p texts p') (h : p.em.Sound vaddr) {s : Sect} {off : Nat}
    (hoff : off + 4 ≤ (p.em.sect s).pos) :
    p'.em.wordOf s off = patchedWord s off (p.em.wordOf s off) (patches p texts) := by
  induction texts generalizing p with
  | nil =>
    rw [calls_nil.mp hrun]
    rfl
  | cons text texts ih =>
    obtain ⟨p1, hcall, hrest⟩ := calls_cons.mp hrun
    have hdoes := parse_call_does hcall
    have hpos := hdoes.pos_le h s
    rw [ih hrest (hdoes.sound h) (by omega), patches_cons hcall]
    unfold patchedWord
    rw [List.foldl_append]
    congr 1
    apply BitVec.eq_of_getLsbD_eq
    intro i hi
    refine .trans ?_ (getLsbD_patchedWord s off _ _ hi).symm
    rw [emitter.getLsbD_wordOf _ _ _ hi, emitter.getLsbD_wordOf _ _ _ hi,
      hdoes.bits h s (by omega)]

end riscv_assembler
