-- Which label references are resolved: in a run whose sections fit their
-- buffers, every reference but those that come after an awaited definition.
import RiscvAssembler.Displacements
import RiscvAssembler.Words

open checked c_text

namespace riscv_assembler

/-! ## References and definitions of a run -/

/-- Line `i` of the run is an instruction that names the label. -/
def RefersAt (p : Process) (texts : List (List UInt8)) (i : Nat) (key : string) (r : Ref) : Prop :=
  ∃ text q assign instr, texts[i]? = some text ∧ Assembles p (texts.take i) q ∧
    reading text = some (.refer assign instr key) ∧ r = q.em.ref assign instr

/-- Line `j` of the run defines the label, at the address. -/
def DefinesAt (p : Process) (texts : List (List UInt8)) (j : Nat) (key : string) (a : Nat) : Prop :=
  ∃ text q, texts[j]? = some text ∧ Assembles p (texts.take j) q ∧
    reading text = some (.define key) ∧ a = q.em.cur.vaddr + q.em.cur.pos

/-- The labels that the lines define. -/
def definitions (texts : List (List UInt8)) : List string :=
  texts.filterMap fun text =>
    match reading text with
    | some (.define key) => some key
    | _ => none

theorem mem_definitions {texts : List (List UInt8)} {key : string} :
    key ∈ definitions texts ↔ ∃ text ∈ texts, reading text = some (.define key) := by
  unfold definitions
  rw [List.mem_filterMap]
  refine exists_congr fun text => and_congr_right fun _ => ?_
  split
  · rename_i key' hr
    simp [hr]
  · rename_i hr
    simp only [reduceCtorEq, false_iff]
    exact hr key

theorem definitions_append (as bs : List (List UInt8)) :
    definitions (as ++ bs) = definitions as ++ definitions bs := List.filterMap_append

/-- No label is defined twice. -/
def DefinedOnce (texts : List (List UInt8)) : Prop := (definitions texts).Nodup

variable {p p' q : Process} {texts : List (List UInt8)} {key : string}

/-- Beside a definition no other line defines the label. -/
theorem DefinedOnce.elsewhere (h : DefinedOnce texts) {j : Nat} {text : List UInt8}
    (ht : texts[j]? = some text) (hr : reading text = some (.define key)) :
    key ∉ definitions (texts.take j) ∧ key ∉ definitions (texts.drop (j + 1)) := by
  obtain ⟨hj, rfl⟩ := List.getElem?_eq_some_iff.mp ht
  have hsplit : definitions texts = definitions (texts.take j) ++
      (definitions [texts[j]] ++ definitions (texts.drop (j + 1))) := by
    rw [← definitions_append, ← definitions_append, List.singleton_append,
      ← List.drop_eq_getElem_cons hj, List.take_append_drop]
  have hmem : key ∈ definitions [texts[j]] :=
    mem_definitions.mpr ⟨texts[j], List.mem_singleton.mpr rfl, hr⟩
  unfold DefinedOnce at h
  rw [hsplit] at h
  obtain ⟨_, h2, h3⟩ := List.nodup_append.mp h
  obtain ⟨_, _, h5⟩ := List.nodup_append.mp h2
  exact ⟨fun hc => h3 key hc key (List.mem_append_left _ hmem) rfl,
    fun hc => h5 key hmem key hc rfl⟩

/-- No line does both. -/
theorem RefersAt.ne {i j a : Nat} {r : Ref} {key' : string} (hr : RefersAt p texts i key r)
    (hd : DefinesAt p texts j key' a) : i ≠ j := by
  rintro rfl
  obtain ⟨_, _, _, _, ht, _, hname, _⟩ := hr
  obtain ⟨_, _, ht', _, hdef, _⟩ := hd
  rw [ht] at ht'
  cases ht'
  rw [hname] at hdef
  cases hdef

/-- A line of a run, and the run after it. -/
theorem line_of_run (h : Assembles p texts p') {i : Nat} {text : List UInt8}
    (ht : texts[i]? = some text) (hq : Assembles p (texts.take i) q) :
    ∃ rest q', parse_line text q = .ok (.ok ((), rest), q') ∧
      Assembles q' (texts.drop (i + 1)) p' := by
  obtain ⟨hi, rfl⟩ := List.getElem?_eq_some_iff.mp ht
  rw [← List.take_append_drop i texts, List.drop_eq_getElem_cons hi] at h
  obtain ⟨q1, hq1, hrest⟩ := assembles_append.mp h
  obtain rfl := hq.unique hq1
  exact assembles_cons.mp hrest

/-- The moves of a run around one of its lines. -/
theorem Assembles.moves_split (h : Assembles p texts p') {i : Nat} {text : List UInt8} {r : Reading}
    (ht : texts[i]? = some text) (hq : Assembles p (texts.take i) q)
    (hr : reading text = some r) :
    ∃ q', Assembles q' (texts.drop (i + 1)) p' ∧
      moves p texts = moves p (texts.take i) ++
        (r.moves q.em ++ moves q' (texts.drop (i + 1))) := by
  obtain ⟨rest, q', hline, hrun⟩ := line_of_run h ht hq
  obtain ⟨r', hr', hdoes⟩ := parse_line_does hline
  rw [hr] at hr'
  cases hr'
  obtain ⟨q1, hcall, _, hmoves⟩ := riscv_assembler.moves_split h.calls ht hq.calls
  obtain rfl : q' = q1 := Except.ok.inj ((parse_call_ok.mpr ⟨_, hline⟩).symm.trans hcall)
  rw [hr, effect_moves hdoes] at hmoves
  exact ⟨q', hrun, hmoves⟩

theorem no_defines_of_not_mem (h : Calls p texts p') (hk : key ∉ definitions texts) :
    ∀ m ∈ moves p texts, ¬ Ledger.Defines key m := fun _ hm hd =>
  hk (mem_definitions.mpr (defines_of_moves h hm hd))

theorem DefinedOnce.take (h : DefinedOnce texts) (i : Nat) : DefinedOnce (texts.take i) :=
  List.Nodup.sublist ((List.take_sublist i texts).filterMap _) h

/-- A run up to a line, seen from a later line. -/
theorem take_of_lt {i j : Nat} (h : i < j) {text : List UInt8} (ht : texts[i]? = some text) :
    (texts.take j)[i]? = some text ∧ (texts.take j).take i = texts.take i := by
  rw [List.getElem?_take_of_lt h, List.take_take, Nat.min_eq_left (Nat.le_of_lt h)]
  exact ⟨ht, rfl⟩

/-- The state before a line of a run. -/
theorem Assembles.before (h : Assembles p texts p') (i : Nat) : ∃ q, Assembles p (texts.take i) q := by
  rw [← List.take_append_drop i texts] at h
  obtain ⟨q, hq, _⟩ := assembles_append.mp h
  exact ⟨q, hq⟩

/-- A move of a run that names a label is one of its lines. -/
theorem refersAt_of_mem_moves (h : Assembles p texts p') {r : Ref}
    (hm : .refer key r ∈ moves p texts) : ∃ i, i < texts.length ∧ RefersAt p texts i key r := by
  obtain ⟨i, text, q, ht, hq, hmq⟩ := mem_moves h.calls hm
  obtain ⟨assign, instr, hname, rfl⟩ := refer_mem_effect hmq
  obtain ⟨q1, hq1⟩ := h.before i
  obtain rfl := hq.unique hq1.calls
  exact ⟨i, (List.getElem?_eq_some_iff.mp ht).1, text, q, assign, instr, ht, hq1, hname, rfl⟩

theorem RefersAt.of_take {i j : Nat} {r : Ref} (h : RefersAt p (texts.take j) i key r)
    (hij : i < j) : RefersAt p texts i key r := by
  obtain ⟨text, q, assign, instr, ht, hq, hr⟩ := h
  rw [List.getElem?_take_of_lt hij] at ht
  rw [List.take_take, Nat.min_eq_left (Nat.le_of_lt hij)] at hq
  exact ⟨text, q, assign, instr, ht, hq, hr⟩

/-- A label is named before a line exactly when it is in the ledger there. -/
theorem named_iff {j : Nat} (hq : Assembles p (texts.take j) q) :
    (bookOf p (texts.take j)).Named key ↔ ∃ i r, i < j ∧ RefersAt p texts i key r := by
  unfold bookOf
  rw [Ledger.named_run, or_iff_right (Ledger.not_named_empty key)]
  constructor
  · rintro ⟨m, hm, r, rfl⟩
    obtain ⟨i, hi, href⟩ := refersAt_of_mem_moves hq hm
    have hij : i < j := by
      rw [List.length_take] at hi
      omega
    exact ⟨i, r, hij, href.of_take hij⟩
  · rintro ⟨i, r, hi, text, q1, assign, instr, ht, hq1, hr, rfl⟩
    obtain ⟨ht', htake⟩ := take_of_lt hi ht
    obtain ⟨_, _, hmoves⟩ := hq.moves_split ht' (htake.symm ▸ hq1) hr
    rw [hmoves]
    exact ⟨_, List.mem_append_right _ List.mem_cons_self, _, rfl⟩

/-- The label has its value for the reference: it is defined later, or it was
not awaited when it was defined. -/
def InTime (p : Process) (texts : List (List UInt8)) (i j : Nat) (key : string) : Prop :=
  i < j ∨ ∀ i' r, RefersAt p texts i' key r → j < i'

/-- A reference before the first definition of its label gets that definition's
address. -/
theorem entry_of_first_definition (h : Assembles p texts p') {i j : Nat} {r : Ref}
    (hr : RefersAt p texts i key r) {text : List UInt8} (htj : texts[j]? = some text)
    (hqj : Assembles p (texts.take j) q) (hdef : reading text = some (.define key))
    (hfirst : key ∉ definitions (texts.take j)) (hij : i < j) :
    ⟨key, r, some q.em.addr⟩ ∈ (bookOf p texts).entries := by
  obtain ⟨text', qi, assign, instr, hti, hqi, hname, rfl⟩ := hr
  obtain ⟨hti', htake⟩ := take_of_lt hij hti
  obtain ⟨_, _, hmoves⟩ := h.moves_split htj hqj hdef
  obtain ⟨_, _, hmoves'⟩ := hqj.moves_split hti' (htake.symm ▸ hqi) hname
  have hnone := no_defines_of_not_mem hqj.calls hfirst
  rw [hmoves'] at hnone
  unfold bookOf
  rw [hmoves, hmoves', List.append_assoc, Ledger.run_append]
  refine Ledger.run_reference_then_definition _ _ ?_ fun m hm =>
    hnone m (List.mem_append_right _ (List.mem_cons_of_mem _ hm))
  exact Ledger.known_run fun m hm => hnone m (List.mem_append_left _ hm)

/-- The entry of a reference whose label the run defines. -/
theorem entry_of_reference (h : Assembles p texts p') (honce : DefinedOnce texts) {i j : Nat}
    {r : Ref} (hr : RefersAt p texts i key r) {text : List UInt8} (htj : texts[j]? = some text)
    (hqj : Assembles p (texts.take j) q) (hdef : reading text = some (.define key)) :
    (InTime p texts i j key → ⟨key, r, some q.em.addr⟩ ∈ (bookOf p texts).entries) ∧
      (¬ InTime p texts i j key → ⟨key, r, none⟩ ∈ (bookOf p texts).entries) := by
  obtain ⟨hbefore, hafter⟩ := honce.elsewhere htj hdef
  have hknown : (bookOf p (texts.take j)).known key = none :=
    Ledger.known_run (no_defines_of_not_mem hqj.calls hbefore)
  rcases Nat.lt_trichotomy i j with hij | hij | hij
  · exact ⟨fun _ => entry_of_first_definition h hr htj hqj hdef hbefore hij,
      fun hc => absurd (Or.inl hij) hc⟩
  · exact absurd hij (hr.ne ⟨text, q, htj, hqj, hdef, rfl⟩)
  · obtain ⟨text', qi, assign, instr, hti, hqi, hname, rfl⟩ := hr
    obtain ⟨htj', htake⟩ := take_of_lt hij htj
    obtain ⟨qr, hqr, hmoves⟩ := h.moves_split hti hqi hname
    obtain ⟨qm, hqm, hmoves'⟩ := hqi.moves_split htj' (htake.symm ▸ hqj) hdef
    have hmid := no_defines_of_not_mem hqm.calls ((honce.take i).elsewhere htj' hdef).2
    rw [htake] at hmoves'
    unfold bookOf at hknown ⊢
    rw [hmoves, hmoves', List.append_assoc, Ledger.run_append]
    constructor
    · rintro (hc | hfirst)
      · omega
      · refine Ledger.run_definition_then_reference _ _ (fun hn => ?_) hmid
        obtain ⟨i', r', hi', href⟩ := (named_iff hqj).mp hn
        exact absurd (hfirst i' r' href) (by omega)
    · intro hlate
      unfold InTime at hlate
      push Not at hlate
      obtain ⟨_, i', r', href, hi'⟩ := hlate
      have hne := href.ne ⟨text, q, htj, hqj, hdef, rfl⟩
      refine Ledger.run_awaited_definition_then_reference _ _ hknown
        ((named_iff hqj).mpr ⟨i', r', by omega, href⟩) hmid ?_
      refine no_defines_of_not_mem hqr.calls fun hc => hafter ?_
      obtain ⟨t, ht, hr'⟩ := mem_definitions.mp hc
      exact mem_definitions.mpr ⟨t, List.drop_subset_drop_left texts (by omega) ht, hr'⟩

/-! ## The words of references -/

/-- Addresses of sections that fit are what they seem. -/
theorem emitter.Small.addr {em : emitter} (h : em.Small) :
    em.addr = ((em.cur.vaddr + em.cur.pos : Nat) : Int) := by
  have hcur := (h em.current_section).2
  unfold emitter.addr emitter.cur
  rw [← Nat.cast_add, machine_int.toS64_of_lt (by omega), Nat.add_comm]

theorem Assembles.small_before {vaddr : Sect → Nat} (h : Assembles p texts p')
    (hp : p.em.Sound vaddr) (hs : p'.em.Small) {i : Nat} (hq : Assembles p (texts.take i) q) :
    q.em.Small := h.calls.small_before hp hs hq.calls

section Fresh

variable {errno : Int} {text_vaddr data_vaddr : Nat}

/-- The displacement in the word of a reference is that of its label exactly
when the label has its value for the reference, or when it is zero. -/
theorem word_of_reference (h : Assembles (.fresh errno text_vaddr data_vaddr) texts p)
    (hs : p.em.Small) (honce : DefinedOnce texts) {i j : Nat} {r : Ref} {a : Nat}
    (hr : RefersAt (.fresh errno text_vaddr data_vaddr) texts i key r)
    (hd : DefinesAt (.fresh errno text_vaddr data_vaddr) texts j key a)
    (hfit : r.assign.Takes (r.displacement a)) :
    r.assign.immOf (instr_of (p.em.wordAt r)) = r.displacement a ↔
      InTime (.fresh errno text_vaddr data_vaddr) texts i j key ∨ r.displacement a = 0 := by
  obtain ⟨text, q, htj, hqj, hdef, rfl⟩ := hd
  have hzero : r.assign.immOf r.instr = 0 := by
    obtain ⟨_, _, _, _, _, _, hname, rfl⟩ := hr
    exact immOf_of_reading hname
  have haddr := (h.small_before (emitter.sound_fresh text_vaddr data_vaddr) hs hqj).addr
  obtain ⟨hintime, hlate⟩ := entry_of_reference h honce hr htj hqj hdef
  have hwritten := h.calls.written_book hs
  by_cases hi : InTime (.fresh errno text_vaddr data_vaddr) texts i j key
  · have hword := hwritten.word _ (hintime hi)
    simp only [haddr] at hword
    rw [hword, instr_of_instr_bytes]
    exact iff_of_true (immOf_set_imm hzero hfit) (Or.inl hi)
  · have hword := hwritten.word _ (hlate hi)
    simp only at hword
    rw [hword, instr_of_instr_bytes, or_iff_right hi]
    unfold Ref.word
    rw [hzero]
    exact eq_comm

end Fresh

/-! ## Whole programs -/

/-- The displacement of every reference fits its word. -/
def DisplacementsFit (p : Process) (texts : List (List UInt8)) : Prop :=
  ∀ i j key r a, RefersAt p texts i key r → DefinesAt p texts j key a →
    r.assign.Takes (r.displacement a)

/-- In the state `p'` every reference to a label that is defined has a word
that leads to the label. -/
def LabelsResolved (p : Process) (texts : List (List UInt8)) (p' : Process) : Prop :=
  ∀ i j key r a, RefersAt p texts i key r → DefinesAt p texts j key a →
    r.assign.immOf (instr_of (p'.em.wordAt r)) = a - (r.vaddr + r.off)

/-- No label that is named before its definition is named again after it, but
where it stands. -/
def NoneNamedAgain (p : Process) (texts : List (List UInt8)) : Prop :=
  ∀ i j key r a, RefersAt p texts i key r → DefinesAt p texts j key a →
    (∃ i' r', i' < j ∧ RefersAt p texts i' key r') → j < i → a = r.vaddr + r.off

theorem all_labels_are_resolved_iff_none_is_named_again (errno : Int) (text_vaddr data_vaddr : Nat)
    (texts : List (List UInt8)) (p : Process)
    (h : Assembles (.fresh errno text_vaddr data_vaddr) texts p) (hs : p.em.Small)
    (honce : DefinedOnce texts)
    (hfit : DisplacementsFit (.fresh errno text_vaddr data_vaddr) texts) :
    LabelsResolved (.fresh errno text_vaddr data_vaddr) texts p ↔
      NoneNamedAgain (.fresh errno text_vaddr data_vaddr) texts := by
  refine forall_congr' fun i => forall_congr' fun j => forall_congr' fun key =>
    forall_congr' fun r => forall_congr' fun a => forall_congr' fun hr => forall_congr' fun hd => ?_
  have hdisp : r.displacement a = a - (r.vaddr + r.off) := by
    unfold Ref.displacement
    omega
  have hiff := word_of_reference h hs honce hr hd (hfit i j key r a hr hd)
  rw [← hdisp, hiff]
  have hzero : r.displacement a = 0 ↔ a = r.vaddr + r.off := by
    rw [hdisp]
    omega
  rw [hzero]
  constructor
  · rintro ((hij | hfirst) | ha) ⟨i', r', hi', href⟩ hji
    · omega
    · exact absurd (hfirst i' r' href) (by omega)
    · exact ha
  · intro hcond
    by_cases hij : i < j
    · exact Or.inl (Or.inl hij)
    · by_cases hn : ∃ i' r', i' < j ∧ RefersAt (.fresh errno text_vaddr data_vaddr) texts i' key r'
      · have := hr.ne hd
        exact Or.inr (hcond hn (by omega))
      · refine Or.inl (Or.inr fun i' r' href => ?_)
        have := href.ne hd
        exact Nat.lt_of_not_le fun hle => hn ⟨i', r', by omega, href⟩

/-! ## A label that is named on both sides of its definition -/

/-- A check of all moves of a run. -/
def FitTogether : LedgerMove string Ref Int → LedgerMove string Ref Int → Bool
  | .refer key r, .define key' a => key ≠ key' ∨ r.assign.Takes (r.displacement a)
  | _, _ => true

theorem RefersAt.mem_moves {i : Nat} {r : Ref} (hr : RefersAt p texts i key r)
    (h : Assembles p texts p') : .refer key r ∈ moves p texts := by
  obtain ⟨text, q, assign, instr, ht, hq, hname, rfl⟩ := hr
  obtain ⟨_, _, hmoves⟩ := h.moves_split ht hq hname
  rw [hmoves]
  exact List.mem_append_right _ List.mem_cons_self

theorem DefinesAt.mem_moves {vaddr : Sect → Nat} {j a : Nat} (hd : DefinesAt p texts j key a)
    (h : Assembles p texts p') (hp : p.em.Sound vaddr) (hs : p'.em.Small) :
    .define key (a : Int) ∈ moves p texts := by
  obtain ⟨text, q, ht, hq, hdef, rfl⟩ := hd
  obtain ⟨_, _, hmoves⟩ := h.moves_split ht hq hdef
  rw [hmoves, ← (h.small_before hp hs hq).addr]
  exact List.mem_append_right _ List.mem_cons_self

theorem displacementsFit_of_moves {vaddr : Sect → Nat} (h : Assembles p texts p')
    (hp : p.em.Sound vaddr) (hs : p'.em.Small)
    (hall : ∀ m ∈ moves p texts, ∀ m' ∈ moves p texts, FitTogether m m' = true) :
    DisplacementsFit p texts := by
  intro i j key r a hr hd
  have := hall _ (hr.mem_moves h) _ (hd.mem_moves h hp hs)
  simpa [FitTogether] using this

/-- A jump to a label, the label, and a second jump to it: the second jump
goes nowhere. -/
theorem a_jump_back_to_an_awaited_label_is_lost :
    ¬ ∀ (errno : Int) (text_vaddr data_vaddr : Nat) (texts : List (List UInt8)) (p : Process),
      Assembles (.fresh errno text_vaddr data_vaddr) texts p → p.em.Small → DefinedOnce texts →
      DisplacementsFit (.fresh errno text_vaddr data_vaddr) texts →
      LabelsResolved (.fresh errno text_vaddr data_vaddr) texts p := by
  intro hall
  let first : Process := .fresh 0 0x400000 0x10010000
  let texts := linesOf ["jal x0, L", "L:", "addi x0, x0, 0", "jal x0, L"]
  let back : Ref := ⟨.ASSIGN_JTYPE, 0x6f, .SECT_TEXT, 8, 0x400000⟩
  -- one evaluation, so that the trie is built once
  have hruns : (Reaches first texts fun p => p.em.Small ∧
        back.assign.immOf (instr_of (p.em.wordAt back)) = 0) ∧
      (∀ m ∈ moves first texts, ∀ m' ∈ moves first texts, FitTogether m m' = true) ∧
      (definitions texts).Nodup ∧
      (Reaches first (texts.take 3) fun q => q.em.ref .ASSIGN_JTYPE 0x6f = back) ∧
      (Reaches first (texts.take 1) fun q => q.em.cur.vaddr + q.em.cur.pos = 0x400004) ∧
      reading (alone (chars "jal x0, L")) = some (.refer .ASSIGN_JTYPE 0x6f (chars "L")) ∧
      reading (alone (chars "L:")) = some (.define (chars "L")) := by decide +kernel
  obtain ⟨hrun, hmoves, honce, href, hdef, hname, hlabel⟩ := hruns
  obtain ⟨p, h, hs, himm⟩ := hrun
  obtain ⟨q, hq, hback⟩ := href
  obtain ⟨q', hq', haddr⟩ := hdef
  have hresolved := hall 0 0x400000 0x10010000 texts p h hs honce
    (displacementsFit_of_moves h (emitter.sound_fresh 0x400000 0x10010000) hs hmoves)
    3 1 (chars "L") back 0x400004 ⟨_, q, _, _, rfl, hq, hname, hback.symm⟩
    ⟨_, q', rfl, hq', hlabel, haddr.symm⟩
  rw [himm] at hresolved
  exact absurd hresolved (by decide)

theorem labels_named_on_one_side_are_resolved :
    let texts := linesOf ["before:", "jal x0, before", "beq x1, x2, after", "jal x0, after",
      "after:"]
    ∃ p, Assembles (.fresh 0 0x400000 0x10010000) texts p ∧
      (LabelsResolved (.fresh 0 0x400000 0x10010000) texts p ↔
        NoneNamedAgain (.fresh 0 0x400000 0x10010000) texts) := by
  intro texts
  have hruns : (Reaches (.fresh 0 0x400000 0x10010000) texts fun p => p.em.Small) ∧
      (∀ m ∈ moves (.fresh 0 0x400000 0x10010000) texts,
        ∀ m' ∈ moves (.fresh 0 0x400000 0x10010000) texts, FitTogether m m' = true) ∧
      (definitions texts).Nodup := by decide +kernel
  obtain ⟨hrun, hmoves, honce⟩ := hruns
  obtain ⟨p, h, hs⟩ := hrun
  exact ⟨p, h, all_labels_are_resolved_iff_none_is_named_again 0 0x400000 0x10010000 _ p h hs
    honce
    (displacementsFit_of_moves h (emitter.sound_fresh 0x400000 0x10010000) hs hmoves)⟩

end riscv_assembler
