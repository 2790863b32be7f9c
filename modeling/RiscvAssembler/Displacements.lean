-- The displacements of branches and jumps: what goes into the immediate of a
-- word is what RV32I reads there, if it is even and fits, because the parser
-- leaves the immediate zero.
import RiscvAssembler.Encoding
import RiscvAssembler.Readings

open machine_int scanner

namespace riscv_assembler

variable {σ : Type}

/-! ## Immediates of displacements -/

/-- The displacement that the processor reads in a branch or in a jump. -/
def assign_type.immOf : assign_type → BitVec 32 → Int
  | .ASSIGN_BTYPE, w => (immBOf w).toInt
  | .ASSIGN_JTYPE, w => (immJOf w).toInt

/-- The bits of a displacement, with its sign. -/
def assign_type.bits : assign_type → Nat
  | .ASSIGN_BTYPE => 13
  | .ASSIGN_JTYPE => 21

/-- The displacement is even and fits the field. -/
def assign_type.Takes (assign : assign_type) (d : Int) : Prop :=
  d % 2 = 0 ∧ -(2 ^ (assign.bits - 1)) ≤ d ∧ d < 2 ^ (assign.bits - 1)

instance (assign : assign_type) (d : Int) : Decidable (assign.Takes d) :=
  inferInstanceAs (Decidable (_ ∧ _ ∧ _))

theorem immBOf_set_btype_imm (w i : BitVec 32) :
    immBOf (set_btype_imm w i) = immBOf w ||| (i.setWidth 13 &&& 0x1ffe#13) := by
  apply BitVec.eq_of_getLsbD_eq
  intro j hj
  simp only [immBOf, set_btype_imm, BitVec.getLsbD_append, BitVec.getLsbD_extractLsb',
    BitVec.getLsbD_or, BitVec.getLsbD_and, BitVec.getLsbD_shiftLeft, BitVec.getLsbD_ushiftRight,
    BitVec.getLsbD_setWidth]
  interval_cases j <;> simp

theorem immJOf_set_jtype_imm (w i : BitVec 32) :
    immJOf (set_jtype_imm w i) = immJOf w ||| (i.setWidth 21 &&& 0x1ffffe#21) := by
  apply BitVec.eq_of_getLsbD_eq
  intro j hj
  simp only [immJOf, set_jtype_imm, BitVec.getLsbD_append, BitVec.getLsbD_extractLsb',
    BitVec.getLsbD_or, BitVec.getLsbD_and, BitVec.getLsbD_shiftLeft, BitVec.getLsbD_setWidth]
  interval_cases j <;> simp

theorem ofInt_even {w : Nat} {d : Int} (h : d % 2 = 0) :
    (BitVec.ofInt (w + 1) d).getLsbD 0 = false := by
  have hbit : (BitVec.ofInt (w + 1) d).getLsbD 0 = (BitVec.ofInt (w + 1) d).toNat.testBit 0 := rfl
  have hpos : (0 : Int) < 2 ^ w := Int.pow_pos (by decide)
  have hpow : ((2 ^ (w + 1) : Nat) : Int) = 2 * 2 ^ w := by
    rw [Nat.pow_succ]
    push_cast
    omega
  have hmod : d % (2 * 2 ^ w) % 2 = d % 2 := Int.emod_emod_of_dvd d ⟨2 ^ w, rfl⟩
  have hnonneg : 0 ≤ d % (2 * 2 ^ w) := Int.emod_nonneg d (by omega)
  rw [hbit, Nat.testBit_zero, BitVec.toNat_ofInt, hpow, decide_eq_false_iff_not]
  omega

/-- An even number keeps its value when its lowest bit is masked. -/
theorem mask_even13 {d : Int} (h : d % 2 = 0) :
    BitVec.ofInt 13 d &&& 0x1ffe#13 = BitVec.ofInt 13 d := by
  have h0 := ofInt_even (w := 12) h
  apply BitVec.eq_of_getLsbD_eq
  intro j hj
  rw [BitVec.getLsbD_and]
  interval_cases j <;> simp_all

theorem mask_even21 {d : Int} (h : d % 2 = 0) :
    BitVec.ofInt 21 d &&& 0x1ffffe#21 = BitVec.ofInt 21 d := by
  have h0 := ofInt_even (w := 20) h
  apply BitVec.eq_of_getLsbD_eq
  intro j hj
  rw [BitVec.getLsbD_and]
  interval_cases j <;> simp_all

/-- The displacement that goes into a zero immediate is read there. -/
theorem immOf_set_imm {assign : assign_type} {w : BitVec 32} {d : Int} (hw : assign.immOf w = 0)
    (hd : assign.Takes d) : assign.immOf (assign.set_imm w (BitVec.ofInt 32 d)) = d := by
  obtain ⟨heven, hlo, hhi⟩ := hd
  cases assign with
  | ASSIGN_BTYPE =>
    have hzero : immBOf w = 0#13 := BitVec.eq_of_toInt_eq hw
    unfold assign_type.immOf assign_type.set_imm
    simp only
    rw [immBOf_set_btype_imm, hzero, setWidth_ofInt (show 13 ≤ 32 by decide), mask_even13 heven,
      BitVec.zero_or, BitVec.toInt_ofInt]
    exact Int.bmod_eq_of_le (by simpa [assign_type.bits] using hlo)
      (by simpa [assign_type.bits] using hhi)
  | ASSIGN_JTYPE =>
    have hzero : immJOf w = 0#21 := BitVec.eq_of_toInt_eq hw
    unfold assign_type.immOf assign_type.set_imm
    simp only
    rw [immJOf_set_jtype_imm, hzero, setWidth_ofInt (show 21 ≤ 32 by decide), mask_even21 heven,
      BitVec.zero_or, BitVec.toInt_ofInt]
    exact Int.bmod_eq_of_le (by simpa [assign_type.bits] using hlo)
      (by simpa [assign_type.bits] using hhi)

/-! ## The other bits of the word -/

/-- The bits of the word that the immediate takes. -/
def assign_type.imm_mask : assign_type → BitVec 32
  | .ASSIGN_BTYPE => 0xfe000f80
  | .ASSIGN_JTYPE => 0xfffff000

theorem set_imm_beside (assign : assign_type) (w i : BitVec 32) :
    assign.set_imm w i &&& ~~~assign.imm_mask = w &&& ~~~assign.imm_mask := by
  apply BitVec.eq_of_getLsbD_eq
  intro j hj
  cases assign with
  | ASSIGN_BTYPE =>
    simp only [assign_type.set_imm, assign_type.imm_mask, set_btype_imm, BitVec.getLsbD_or,
      BitVec.getLsbD_and, BitVec.getLsbD_not, BitVec.getLsbD_shiftLeft, BitVec.getLsbD_ushiftRight]
    interval_cases j <;> simp
  | ASSIGN_JTYPE =>
    simp only [assign_type.set_imm, assign_type.imm_mask, set_jtype_imm, BitVec.getLsbD_or,
      BitVec.getLsbD_and, BitVec.getLsbD_not, BitVec.getLsbD_shiftLeft]
    interval_cases j <;> simp

theorem immOf_mask (assign : assign_type) (w : BitVec 32) :
    assign.immOf (w &&& assign.imm_mask) = assign.immOf w := by
  cases assign with
  | ASSIGN_BTYPE =>
    suffices h : immBOf (w &&& 0xfe000f80) = immBOf w from congrArg BitVec.toInt h
    apply BitVec.eq_of_getLsbD_eq
    intro j hj
    simp only [immBOf, BitVec.getLsbD_append, BitVec.getLsbD_extractLsb', BitVec.getLsbD_and]
    interval_cases j <;> simp
  | ASSIGN_JTYPE =>
    suffices h : immJOf (w &&& 0xfffff000) = immJOf w from congrArg BitVec.toInt h
    apply BitVec.eq_of_getLsbD_eq
    intro j hj
    simp only [immJOf, BitVec.getLsbD_append, BitVec.getLsbD_extractLsb', BitVec.getLsbD_and]
    interval_cases j <;> simp

theorem immOf_of_zero {assign : assign_type} {w : BitVec 32} (h : w &&& assign.imm_mask = 0) :
    assign.immOf w = 0 := by
  rw [← immOf_mask, h]
  cases assign <;> rfl

/-- The immediate comes in by OR. -/
theorem set_imm_or (assign : assign_type) (w i : BitVec 32) :
    assign.set_imm w i = w ||| assign.set_imm 0 i := by
  have hzero : ∀ x : BitVec 32, (0 : BitVec 32) ||| x = x := fun _ => BitVec.zero_or
  cases assign with
  | ASSIGN_BTYPE => exact congrArg (w ||| ·) (hzero _).symm
  | ASSIGN_JTYPE => exact congrArg (w ||| ·) (hzero _).symm

/-- What the processor reads in a word, packed again: the bits that stand in the place
of the immediate. -/
theorem set_imm_immOf (assign : assign_type) (w : BitVec 32) :
    assign.set_imm 0 (BitVec.ofInt 32 (assign.immOf w)) = w &&& assign.imm_mask := by
  cases assign with
  | ASSIGN_BTYPE =>
    have hsign : BitVec.ofInt 32 (immBOf w).toInt = (immBOf w).signExtend 32 := rfl
    simp only [assign_type.set_imm, assign_type.imm_mask, assign_type.immOf, hsign]
    apply BitVec.eq_of_getLsbD_eq
    intro j hj
    simp only [set_btype_imm, immBOf, BitVec.getLsbD_or, BitVec.getLsbD_and,
      BitVec.getLsbD_shiftLeft, BitVec.getLsbD_ushiftRight, BitVec.getLsbD_signExtend,
      BitVec.getLsbD_append, BitVec.getLsbD_extractLsb']
    interval_cases j <;> simp
  | ASSIGN_JTYPE =>
    have hsign : BitVec.ofInt 32 (immJOf w).toInt = (immJOf w).signExtend 32 := rfl
    simp only [assign_type.set_imm, assign_type.imm_mask, assign_type.immOf, hsign]
    apply BitVec.eq_of_getLsbD_eq
    intro j hj
    simp only [set_jtype_imm, immJOf, BitVec.getLsbD_or, BitVec.getLsbD_and,
      BitVec.getLsbD_shiftLeft, BitVec.getLsbD_signExtend, BitVec.getLsbD_append,
      BitVec.getLsbD_extractLsb']
    interval_cases j <;> simp

theorem toInt_even {w : Nat} {x : BitVec (w + 1)} (h : x.getLsbD 0 = false) : x.toInt % 2 = 0 := by
  have hbit : x.toNat % 2 = 0 := by
    have hzero : x.toNat.testBit 0 = false := h
    rw [Nat.testBit_zero, decide_eq_false_iff_not] at hzero
    omega
  have hpow : 2 ^ (w + 1) = 2 * 2 ^ w := by rw [Nat.pow_succ, Nat.mul_comm]
  rw [BitVec.toInt_eq_toNat_cond, hpow]
  split <;> push_cast <;> omega

/-- What the processor reads is even and fits. -/
theorem takes_immOf (assign : assign_type) (w : BitVec 32) : assign.Takes (assign.immOf w) := by
  cases assign with
  | ASSIGN_BTYPE =>
    have hzero : (immBOf w).getLsbD 0 = false := by
      simp only [immBOf, BitVec.getLsbD_append]
      rfl
    have heven : (immBOf w).toInt % 2 = 0 := toInt_even hzero
    exact ⟨heven, BitVec.le_toInt (immBOf w), BitVec.toInt_lt⟩
  | ASSIGN_JTYPE =>
    have hzero : (immJOf w).getLsbD 0 = false := by
      simp only [immJOf, BitVec.getLsbD_append]
      rfl
    have heven : (immJOf w).toInt % 2 = 0 := toInt_even hzero
    exact ⟨heven, BitVec.le_toInt (immJOf w), BitVec.toInt_lt⟩

/-- A displacement is read in a word exactly when it fits and its bits stand in the
place of the immediate. -/
theorem immOf_eq_iff {assign : assign_type} {w : BitVec 32} {d : Int} :
    assign.immOf w = d ↔
      assign.Takes d ∧ w &&& assign.imm_mask = assign.set_imm 0 (BitVec.ofInt 32 d) := by
  constructor
  · rintro rfl
    exact ⟨takes_immOf assign w, (set_imm_immOf assign w).symm⟩
  · rintro ⟨hd, hmask⟩
    rw [← immOf_mask, hmask]
    exact immOf_set_imm (by cases assign <;> rfl) hd

/-- What is packed into a word with a zero immediate is read there again, the
bits beside the immediate stay, and no two displacements give the same word. -/
theorem a_displacement_is_packed_losslessly (assign : assign_type) (w : BitVec 32)
    (hw : w &&& assign.imm_mask = 0) :
    (∀ d, assign.Takes d →
      assign.immOf (assign.set_imm w (BitVec.ofInt 32 d)) = d ∧
      assign.set_imm w (BitVec.ofInt 32 d) &&& ~~~assign.imm_mask = w &&& ~~~assign.imm_mask) ∧
    ∀ d e, assign.Takes d → assign.Takes e →
      assign.set_imm w (BitVec.ofInt 32 d) = assign.set_imm w (BitVec.ofInt 32 e) → d = e := by
  have hread : ∀ d, assign.Takes d → assign.immOf (assign.set_imm w (BitVec.ofInt 32 d)) = d :=
    fun d hd => immOf_set_imm (immOf_of_zero hw) hd
  refine ⟨fun d hd => ⟨hread d hd, set_imm_beside assign w _⟩, fun d e hd he h => ?_⟩
  calc d = assign.immOf (assign.set_imm w (BitVec.ofInt 32 d)) := (hread d hd).symm
    _ = assign.immOf (assign.set_imm w (BitVec.ofInt 32 e)) := by rw [h]
    _ = e := hread e he

/-- `beq x1, x2` with the lowest displacement, and with the one after it. -/
theorem the_lowest_branch_is_packed :
    immBOf (set_btype_imm 0x208063 (BitVec.ofInt 32 (-4096))) = BitVec.ofInt 13 (-4096) ∧
      set_btype_imm 0x208063 (BitVec.ofInt 32 (-4096)) ≠
        set_btype_imm 0x208063 (BitVec.ofInt 32 (-4094)) := by
  obtain ⟨hread, hinj⟩ := a_displacement_is_packed_losslessly .ASSIGN_BTYPE 0x208063 (by decide)
  refine ⟨BitVec.eq_of_toInt_eq ?_, fun h => ?_⟩
  · exact (hread (-4096) (by decide)).1
  · have := hinj (-4096) (-4094) (by decide) (by decide) h
    omega

/-! ## Bits in the place of an immediate -/

/-- The bits of a word that the displacement sets. -/
def assign_type.packed (assign : assign_type) (d : Int) : BitVec 32 :=
  assign.set_imm 0 (BitVec.ofInt 32 d)

theorem immOf_packed {assign : assign_type} {d : Int} (hd : assign.Takes d) :
    assign.immOf (assign.packed d) = d :=
  immOf_set_imm (by cases assign <;> rfl) hd

/-- The bits that `x` has in the place of the immediate turn `d` into `d'`. -/
def assign_type.Turns (assign : assign_type) (d d' : Int) (x : BitVec 32) : Prop :=
  x &&& assign.imm_mask ||| assign.packed d = assign.packed d'

/-- The bits that `x` has in the place of the immediate are bits of the displacement. -/
def assign_type.Within (assign : assign_type) (d : Int) (x : BitVec 32) : Prop :=
  x &&& assign.imm_mask &&& ~~~assign.packed d = 0#32

instance (assign : assign_type) (d d' : Int) (x : BitVec 32) : Decidable (assign.Turns d d' x) :=
  inferInstanceAs (Decidable (_ = _))

instance (assign : assign_type) (d : Int) (x : BitVec 32) : Decidable (assign.Within d x) :=
  inferInstanceAs (Decidable (_ = _))

/-- A word has the bits of another one exactly when it has no others. -/
theorem or_eq_right_iff {w : Nat} {x y : BitVec w} : x ||| y = y ↔ x &&& ~~~y = 0#w := by
  constructor
  · intro h
    rw [← h, BitVec.not_or, ← BitVec.and_assoc, BitVec.and_not_self]
    exact BitVec.zero_and
  · intro h
    apply BitVec.eq_of_getLsbD_eq
    intro i hi
    have hbit := congrArg (fun z => z.getLsbD i) h
    simp only [BitVec.getLsbD_and, BitVec.getLsbD_not, hi, decide_true, Bool.true_and,
      BitVec.getLsbD_zero] at hbit
    rw [BitVec.getLsbD_or]
    cases hx : x.getLsbD i with
    | false => exact Bool.false_or _
    | true =>
      rw [hx, Bool.true_and, Bool.not_eq_false'] at hbit
      rw [hbit, Bool.or_true]

theorem turns_same_iff {assign : assign_type} {d : Int} {x : BitVec 32} :
    assign.Turns d d x ↔ assign.Within d x := or_eq_right_iff

theorem packed_mask (assign : assign_type) (d : Int) :
    assign.packed d &&& assign.imm_mask = assign.packed d := by
  have hbeside : assign.packed d &&& ~~~assign.imm_mask = 0#32 :=
    (set_imm_beside assign 0 _).trans BitVec.zero_and
  calc assign.packed d &&& assign.imm_mask
      = assign.packed d &&& (assign.packed d ||| assign.imm_mask) := by
        rw [or_eq_right_iff.mpr hbeside]
    _ = assign.packed d := by
        apply BitVec.eq_of_getLsbD_eq
        intro i _
        rw [BitVec.getLsbD_and, BitVec.getLsbD_or]
        cases (assign.packed d).getLsbD i <;> simp

/-- A displacement that comes in beside other bits is read as `d'` exactly when `d'` is
one that the format takes and these bits turn the one into the other. -/
theorem immOf_or_packed_iff {assign : assign_type} {x : BitVec 32} {d d' : Int} :
    assign.immOf (x ||| assign.packed d) = d' ↔ assign.Takes d' ∧ assign.Turns d d' x := by
  rw [immOf_eq_iff, BitVec.and_or_distrib_right, packed_mask]
  rfl

theorem within_or {assign : assign_type} {d : Int} {x y : BitVec 32} :
    assign.Within d (x ||| y) ↔ assign.Within d x ∧ assign.Within d y := by
  unfold assign_type.Within
  rw [BitVec.and_or_distrib_right, BitVec.and_or_distrib_right]
  exact BitVec.or_eq_zero_iff

theorem mask_of_zero {assign : assign_type} {x : BitVec 32} (h : assign.immOf x = 0) :
    x &&& assign.imm_mask = 0#32 := by
  rw [← set_imm_immOf, h]
  cases assign <;> rfl

/-- Bits beside the immediate play no part. -/
theorem turns_or_of_zero {assign : assign_type} {d d' : Int} {x y : BitVec 32}
    (hx : assign.immOf x = 0) : assign.Turns d d' (x ||| y) ↔ assign.Turns d d' y := by
  unfold assign_type.Turns
  rw [BitVec.and_or_distrib_right, mask_of_zero hx, BitVec.zero_or]

/-! ## The immediate of a word that waits -/

theorem parse_reg_name.yields (c : UInt8) :
    Yields (fun r => r < 32) (parse_reg_name c : Scan σ Unit Nat) := by
  have hnum : ∀ {p : Nat → Prop} [DecidablePred p] (g : Nat → Nat), (∀ r, ¬ p r → g r < 32) →
      Yields (fun r => r < 32) (parse_reg_long_number >>= fun res =>
        if p res then fail () else pure (g res) : Scan σ Unit Nat) := fun g hg =>
    .after fun _ => .ite (fun _ => .fail ()) fun hp => .pure (hg _ hp)
  have hname : ∀ (expect : String) (r : Nat), r < 32 → Yields (fun r => r < 32)
      (require (expect_literal expect) () >>= fun _ => pure r : Scan σ Unit Nat) :=
    fun expect r hr => .after fun _ => .pure hr
  unfold parse_reg_name
  split_ifs
  · exact hnum id fun r hr => Nat.lt_succ_of_le (Nat.le_of_not_lt hr)
  · exact hname "ero" 0 (by decide)
  · exact hname "a" 1 (by decide)
  · exact .after fun _ => .ite (fun _ => .pure (by decide)) fun _ => hnum _ fun r hr => by
      split <;> omega
  · exact hname "p" 3 (by decide)
  · exact .after fun _ => .ite (fun _ => .pure (by decide)) fun _ => hnum _ fun r hr => by
      split <;> omega
  · exact hnum (· + 10) fun r hr => by omega
  · exact hname "p" 8 (by decide)
  · exact .fail ()

theorem parse_reg.yields : Yields (fun r => r < 32) (parse_reg : Scan σ Unit Nat) :=
  .after fun _ => .after fun c => (parse_reg_name.yields c).bind fun _ hr => .after fun _ =>
    .ite (fun _ => .fail ()) fun _ => .pure hr

theorem parse_reg_comma.yields : Yields (fun r => r < 32) (parse_reg_comma : Scan σ Unit Nat) :=
  parse_reg.yields.bind fun _ hr => .after fun _ => .pure hr

theorem btype_instr_zero (o : op) (t0 t1 : BitVec 5) :
    immBOf (btype_instr o (t0.setWidth 32) (t1.setWidth 32)) = 0 := by
  apply BitVec.eq_of_getLsbD_eq
  intro j hj
  simp only [immBOf, btype_instr, opcode, func3, BitVec.getLsbD_append,
    BitVec.getLsbD_extractLsb', BitVec.getLsbD_or, BitVec.getLsbD_shiftLeft,
    BitVec.getLsbD_setWidth]
  interval_cases j <;> simp [opcodes_high o]

theorem jtype_instr_zero (o : op) (t0 : BitVec 5) : immJOf (jtype_instr o (t0.setWidth 32)) = 0 := by
  apply BitVec.eq_of_getLsbD_eq
  intro j hj
  simp only [immJOf, jtype_instr, opcode, BitVec.getLsbD_append, BitVec.getLsbD_extractLsb',
    BitVec.getLsbD_or, BitVec.getLsbD_shiftLeft, BitVec.getLsbD_setWidth]
  interval_cases j <;> simp

/-- Operands with a label come with a word whose immediate is zero. -/
theorem parse_operands.yields (o : op) : Yields (fun x => ∀ assign instr key,
    x = .label assign instr key → assign.immOf instr = 0) (parse_operands o) := by
  unfold parse_operands
  cases formats o with
  | R_TYPE => exact .after fun _ => .pure nofun
  | I_TYPE => exact .after fun _ => .ite (fun _ => .fail _) fun _ => .pure nofun
  | S_TYPE => exact .after fun _ => .pure nofun
  | U_TYPE => exact .after fun _ => .pure nofun
  | B_TYPE =>
    have hregs : Yields (fun t : Nat × Nat => t.1 < 32 ∧ t.2 < 32)
        (parse_branch_regs : Parse Unit (Nat × Nat)) :=
      parse_reg_comma.yields.bind fun _ h0 => parse_reg_comma.yields.bind fun _ h1 =>
        .pure ⟨h0, h1⟩
    refine (hregs.orFail _).bind fun t ht => .after fun lstr => .pure ?_
    intro assign instr key hx
    cases hx
    rw [assign_type.immOf, reg_eq_setWidth _ ht.1, reg_eq_setWidth _ ht.2, btype_instr_zero]
    rfl
  | J_TYPE =>
    refine (parse_reg_comma.yields.orFail _).bind fun t0 ht => .after fun lstr => .pure ?_
    intro assign instr key hx
    cases hx
    rw [assign_type.immOf, reg_eq_setWidth _ ht, jtype_instr_zero]
    rfl

/-- A line that names a label leaves the immediate of its word zero. -/
theorem read_statement.yields : Yields (fun r => ∀ assign instr key,
    r = .refer assign instr key → assign.immOf instr = 0) read_statement := by
  refine .after fun known => ?_
  cases known with
  | none => exact .after fun _ => .pure nofun
  | some operation =>
    simp only
    rcases vocable.ofNumber operation with _ | o | d
    · exact .pure nofun
    · refine .ite (fun _ => ?_) fun _ => .pure nofun
      refine (parse_operands.yields o).bind fun x hx => ?_
      cases x with
      | whole w => exact .pure nofun
      | label assign instr key =>
        refine .pure fun assign' instr' key' h => ?_
        cases h
        exact hx assign instr key rfl
    · exact .pure nofun

theorem immOf_of_reading {text : List UInt8} {assign : assign_type} {instr : BitVec 32}
    {key : string} (h : reading text = some (.refer assign instr key)) :
    assign.immOf instr = 0 := by
  have hline : Yields (fun r => ∀ assign instr key,
      r = .refer assign instr key → assign.immOf instr = 0) read_line :=
    .after fun _ => .after fun _ => .ite (fun _ => .pure nofun) fun _ => read_statement.yields
  obtain ⟨rest, hread⟩ := reading_some h
  exact hline _ _ _ _ _ (hread ⟨0, emitter.fresh 0 0⟩) assign instr key rfl

end riscv_assembler
