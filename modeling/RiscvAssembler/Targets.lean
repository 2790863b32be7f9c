-- The labels that a file names and never defines: nothing rejects them. Their
-- instructions go out with a displacement of zero, and their waiters stay in the
-- table.
import RiscvAssembler.Elf
import RiscvAssembler.Patches

open checked c_text

namespace riscv_assembler

variable {p p' q : Process} {texts : List (List UInt8)} {key : string}

/-! ## The waiters in the order of their lines -/

/-- Line `i` is behind every line that defines the label. -/
def Behind (texts : List (List UInt8)) (i : Nat) (key : string) : Prop :=
  ∀ j text, texts[j]? = some text → reading text = some (.define key) → j < i

theorem behind_of_not_mem (h : key ∉ definitions texts) (i : Nat) : Behind texts i key :=
  fun _ _ ht hdef => absurd (mem_definitions.mpr ⟨_, List.mem_of_getElem? ht, hdef⟩) h

/-- A line of one more line. -/
theorem getElem?_snoc {text t : List UInt8} {j : Nat} :
    (texts ++ [text])[j]? = some t ↔ texts[j]? = some t ∨ j = texts.length ∧ t = text := by
  rcases Nat.lt_trichotomy j texts.length with hj | rfl | hj
  · rw [List.getElem?_append_left hj, or_iff_left fun hc => by omega]
  · simp [eq_comm]
  · rw [List.getElem?_eq_none (by simp; omega), List.getElem?_eq_none (by omega)]
    simp only [reduceCtorEq, false_or, false_iff, not_and]
    omega

theorem behind_snoc {text : List UInt8} {i : Nat} : Behind (texts ++ [text]) i key ↔
    Behind texts i key ∧ (reading text = some (.define key) → texts.length < i) := by
  constructor
  · intro h
    exact ⟨fun j t ht => h j t (getElem?_snoc.mpr (Or.inl ht)),
      h texts.length text (getElem?_snoc.mpr (Or.inr ⟨rfl, rfl⟩))⟩
  · rintro ⟨hold, hnew⟩ j t ht hdef
    rcases getElem?_snoc.mp ht with ht | ⟨rfl, rfl⟩
    · exact hold j t ht hdef
    · exact hnew hdef

theorem RefersAt.lt_length {i : Nat} {r : Ref} (h : RefersAt p texts i key r) : i < texts.length := by
  obtain ⟨_, _, _, _, ht, _⟩ := h
  exact (List.getElem?_eq_some_iff.mp ht).1

theorem refersAt_snoc (hq : Assembles p texts q) {text : List UInt8} {i : Nat} {r : Ref} :
    RefersAt p (texts ++ [text]) i key r ↔ RefersAt p texts i key r ∨ i = texts.length ∧
      ∃ assign instr, reading text = some (.refer assign instr key) ∧ r = q.em.ref assign instr := by
  constructor
  · rintro ⟨t, q1, assign, instr, ht, hq1, hname, rfl⟩
    rcases getElem?_snoc.mp ht with ht | ⟨rfl, rfl⟩
    · have hi := (List.getElem?_eq_some_iff.mp ht).1
      rw [List.take_append_of_le_length (by omega)] at hq1
      exact Or.inl ⟨t, q1, assign, instr, ht, hq1, hname, rfl⟩
    · rw [List.take_left] at hq1
      obtain rfl := hq.unique hq1
      exact Or.inr ⟨rfl, assign, instr, hname, rfl⟩
  · rintro (⟨t, q1, assign, instr, ht, hq1, hname, rfl⟩ | ⟨rfl, assign, instr, hname, rfl⟩)
    · have hi := (List.getElem?_eq_some_iff.mp ht).1
      refine ⟨t, q1, assign, instr, getElem?_snoc.mpr (Or.inl ht), ?_, hname, rfl⟩
      rwa [List.take_append_of_le_length (by omega)]
    · refine ⟨text, q, assign, instr, getElem?_snoc.mpr (Or.inr ⟨rfl, rfl⟩), ?_, hname, rfl⟩
      rwa [List.take_left]

/-- The instructions with their lines, one line after the other. -/
def InOrder (rs : List (Nat × Ref)) : Prop := rs.Pairwise fun a b => a.1 < b.1

/-- What waits for the label is what names it behind its last definition, in this
order and each instruction once. -/
def WaitsInOrder (p : Process) (texts : List (List UInt8)) (key : string) (waits : List Ref) : Prop :=
  ∃ rs, InOrder rs ∧ (∀ i r, (i, r) ∈ rs ↔ RefersAt p texts i key r ∧ Behind texts i key) ∧
    waits = rs.map Prod.snd

/-- A line that does not mention the label changes nothing. -/
theorem WaitsInOrder.other {waits : List Ref} (h : WaitsInOrder p texts key waits)
    (hq : Assembles p texts q) {text : List UInt8}
    (hrefer : ∀ assign instr, reading text ≠ some (.refer assign instr key))
    (hdefine : reading text ≠ some (.define key)) :
    WaitsInOrder p (texts ++ [text]) key waits := by
  obtain ⟨rs, hord, hmem, hwait⟩ := h
  refine ⟨rs, hord, fun i r => ?_, hwait⟩
  rw [hmem, refersAt_snoc hq, behind_snoc]
  simp only [hrefer, hdefine, false_and, exists_false, and_false, or_false, false_implies, and_true]

/-- A line that names the label comes last. -/
theorem WaitsInOrder.refer {waits : List Ref} (h : WaitsInOrder p texts key waits)
    (hq : Assembles p texts q) {text : List UInt8} {assign : assign_type} {instr : BitVec 32}
    (hname : reading text = some (.refer assign instr key)) :
    WaitsInOrder p (texts ++ [text]) key (waits ++ [q.em.ref assign instr]) := by
  obtain ⟨rs, hord, hmem, rfl⟩ := h
  have hlt : ∀ ir ∈ rs, ir.1 < texts.length := fun ir hir => ((hmem ir.1 ir.2).mp hir).1.lt_length
  have hlast : Behind texts texts.length key := fun j t ht _ => (List.getElem?_eq_some_iff.mp ht).1
  refine ⟨rs ++ [(texts.length, q.em.ref assign instr)], ?_, fun i r => ?_, by simp⟩
  · refine List.pairwise_append.mpr ⟨hord, List.pairwise_singleton _ _, fun ir hir ir' hir' => ?_⟩
    rw [List.mem_singleton.mp hir']
    exact hlt ir hir
  · rw [List.mem_append, hmem, refersAt_snoc hq, behind_snoc, hname, List.mem_singleton]
    constructor
    · rintro (⟨href, hbehind⟩ | heq)
      · exact ⟨Or.inl href, hbehind, nofun⟩
      · obtain ⟨rfl, rfl⟩ := Prod.mk.inj heq
        exact ⟨Or.inr ⟨rfl, assign, instr, rfl, rfl⟩, hlast, nofun⟩
    · rintro ⟨href | ⟨rfl, assign', instr', heq, rfl⟩, hbehind, _⟩
      · exact Or.inl ⟨href, hbehind⟩
      · cases heq
        exact Or.inr rfl

/-- Nothing waits behind a definition. -/
theorem waitsInOrder_define (hq : Assembles p texts q) {text : List UInt8}
    (hdef : reading text = some (.define key)) : WaitsInOrder p (texts ++ [text]) key [] := by
  refine ⟨[], .nil, fun i r => ?_, rfl⟩
  rw [refersAt_snoc hq, behind_snoc, hdef]
  simp only [List.not_mem_nil, false_iff, not_and, forall_const]
  rintro (href | ⟨_, _, _, heq, _⟩)
  · have := href.lt_length
    intro _
    omega
  · cases heq

theorem awaiting_refer_other {B : Book} {k : string} (r : Ref) (hk : key ≠ k) :
    awaiting (B.refer k r) key = awaiting B key := by
  rw [awaiting, Ledger.waiting_refer_other r hk]
  rfl

theorem awaiting_define_other {B : Book} {k : string} (v : Int) (hk : key ≠ k) :
    awaiting (B.define k v) key = awaiting B key := by
  rw [awaiting, Ledger.waiting_define_other v hk]
  rfl

/-- What waits in the ledger for a label without an address. -/
theorem awaiting_in_order (h : Assembles p texts p') (hk : (bookOf p texts).known key = none) :
    WaitsInOrder p texts key (awaiting (bookOf p texts) key) := by
  induction texts using List.reverseRecOn generalizing p' with
  | nil =>
    refine ⟨[], .nil, fun i r => ?_, rfl⟩
    simp only [List.not_mem_nil, false_iff, not_and]
    intro hr
    exact absurd hr.lt_length (Nat.not_lt_zero i)
  | append_singleton texts text ih =>
    obtain ⟨q, hq, hlast⟩ := assembles_append.mp h
    obtain ⟨rest, q1, hline, hend⟩ := assembles_cons.mp hlast
    obtain ⟨rd, hrd, hdoes⟩ := parse_line_does hline
    have hbook : bookOf p (texts ++ [text]) = (bookOf p texts).run (rd.moves q.em) := by
      unfold bookOf
      rw [moves_append hq.calls, moves_cons (parse_call_ok.mpr ⟨_, hline⟩), hrd, effect_moves hdoes,
        Ledger.run_append]
      simp [moves]
    rw [hbook] at hk ⊢
    cases rd with
    | blank => exact (ih hq hk).other hq (by simp [hrd]) (by simp [hrd])
    | other => exact (ih hq hk).other hq (by simp [hrd]) (by simp [hrd])
    | refer assign instr k =>
      have hnone : (bookOf p texts).known key = none := hk
      by_cases hkey : key = k
      · subst hkey
        have hwait : awaiting ((bookOf p texts).refer key (q.em.ref assign instr)) key =
            awaiting (bookOf p texts) key ++ [q.em.ref assign instr] := by
          rw [awaiting, Ledger.waiting_refer_same hnone, List.map_append]
          rfl
        exact hwait ▸ (ih hq hnone).refer hq hrd
      · have hwait := awaiting_refer_other (B := bookOf p texts) (q.em.ref assign instr) hkey
        have hrefer : ∀ assign instr, reading text ≠ some (.refer assign instr key) := by
          simp [hrd, Ne.symm hkey]
        exact hwait.symm ▸ (ih hq hnone).other hq hrefer (by simp [hrd])
    | define k =>
      by_cases hkey : key = k
      · subst hkey
        have hwait : awaiting ((bookOf p texts).define key q.em.addr) key = [] := by
          rw [awaiting, Ledger.waiting_define_same]
          rfl
        exact hwait.symm ▸ waitsInOrder_define hq hrd
      · have hno : ¬ Ledger.Defines key (.define k q.em.addr : LedgerMove string Ref Int) := by
          rintro ⟨v, hv⟩
          cases hv
          exact hkey rfl
        have hnone : (bookOf p texts).known key = none := (Ledger.known_step hno).symm.trans hk
        have hwait := awaiting_define_other (B := bookOf p texts) q.em.addr hkey
        have hdefine : reading text ≠ some (.define key) := by simp [hrd, Ne.symm hkey]
        exact hwait.symm ▸ (ih hq hnone).other hq (by simp [hrd]) hdefine

/-! ## Labels without a definition -/

/-- Without a definition the instructions that wait are all that name the
label. -/
theorem awaiting_iff_refersAt (h : Assembles p texts p') (hk : key ∉ definitions texts) {r : Ref} :
    r ∈ awaiting (bookOf p texts) key ↔ ∃ i, RefersAt p texts i key r := by
  obtain ⟨rs, _, hmem, hwait⟩ := awaiting_in_order h
    (Ledger.known_run (no_defines_of_not_mem h.calls hk))
  rw [hwait, List.mem_map]
  constructor
  · rintro ⟨⟨i, r⟩, hir, rfl⟩
    exact ⟨i, ((hmem i r).mp hir).1⟩
  · rintro ⟨i, hr⟩
    exact ⟨(i, r), (hmem i r).mpr ⟨hr, behind_of_not_mem hk i⟩, rfl⟩

section Fresh

variable {errno : Int} {text_vaddr data_vaddr : Nat}

end Fresh

/-! ## Accepted files -/

/-- The loop hands a file of one accepted line to `parse_line` once. -/
theorem main_loop_one_line {file : List UInt8} {first p : Process}
    (h : parse_line (file ++ [ch '\n']) first = .ok (.ok ((), [ch '\n']), p)) :
    main_loop 1 1 (file ++ [ch '\n']) first = .ok (.ok p) ∧
      main_calls 1 (file ++ [ch '\n']) first = [file ++ [ch '\n']] :=
  ⟨main_loop_ok h, main_calls_ok h⟩

end riscv_assembler
