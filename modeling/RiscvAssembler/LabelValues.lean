-- The values of labels over any calls of `parse_line`, accepted or not: the first
-- line that mentions a label decides its value, and no later line changes it.
import RiscvAssembler.Resolution

open checked machine_int scanner c_text

namespace riscv_assembler

/-! ## What a line mentions -/

/-- The line is an instruction with the label as its target. -/
def Names (text : List UInt8) (key : string) : Prop :=
  ∃ assign instr, reading text = some (.refer assign instr key)

/-- The value that a line gives to a label that is not in the table. -/
def Reading.valueFor (em : emitter) (key : string) : Reading → Option Int
  | .refer _ _ k => if k = key then some (-1) else none
  | .define k => if k = key then some em.addr else none
  | _ => none

/-- A line without a reading that mentions a label leaves the table alone. -/
theorem parse_line_labels {text : List UInt8} {r : Except String (Unit × List UInt8)}
    {p p' : Process} (h : parse_line text p = .ok (r, p'))
    (hrefer : ∀ assign instr key, reading text ≠ some (.refer assign instr key))
    (hdefine : ∀ key, reading text ≠ some (.define key)) : p'.em.labels = p.em.labels :=
  writes_labels (parse_line_writes h hrefer hdefine)

/-! ## What a call does to the values -/

variable {em em' : emitter} {p p' q : Process} {text : List UInt8} {texts : List (List UInt8)}
  {key : string}

theorem value_of_labels_eq (h : em'.labels = em.labels) : em'.value key = em.value key := by
  unfold emitter.value
  rw [h]

@[simp] theorem valueFor_define_same : (Reading.define key).valueFor em key = some em.addr :=
  if_pos rfl

theorem valueFor_define_other {k : string} (h : k ≠ key) : (Reading.define k).valueFor em key = none :=
  if_neg h

@[simp] theorem valueFor_refer_same (assign : assign_type) (instr : BitVec 32) :
    (Reading.refer assign instr key).valueFor em key = some (-1) := if_pos rfl

theorem valueFor_refer_other (assign : assign_type) (instr : BitVec 32) {k : string} (h : k ≠ key) :
    (Reading.refer assign instr k).valueFor em key = none := if_neg h

/-- An entry that goes into the table. -/
theorem value_of_insert {k : string} {e : label} (h : em'.labels = em.labels.insert k e) :
    em'.value key = if k = key then some e.val else em.value key := by
  unfold emitter.value
  rw [h]
  by_cases hk : k = key
  · subst hk
    rw [if_pos rfl, AList.lookup_insert]
    rfl
  · rw [if_neg hk, AList.lookup_insert_ne (Ne.symm hk)]

/-- An entry that keeps the value of the label, or gives it the value `v` when it
has none. -/
theorem value_of_first {k : string} {e : label} {v : Int} (h : em'.labels = em.labels.insert k e)
    (hv : some e.val = (em.value k).or (some v)) :
    em'.value key = (em.value key).or (if k = key then some v else none) := by
  rw [value_of_insert h]
  by_cases hk : k = key
  · subst hk
    rw [if_pos rfl, if_pos rfl, hv]
  · rw [if_neg hk, if_neg hk, Option.or_none]

/-- A definition gives a value to a label that has none, and no other label
changes. -/
theorem emitter_label_add_value {k : string} {res : Int}
    (h : emitter_label_add em k = .ok (res, em')) (key : string) :
    em'.value key = (em.value key).or ((Reading.define k).valueFor em key) := by
  unfold Reading.valueFor
  rcases hl : em.labels.lookup k with _ | e
  · have hnone : em.value k = none := by rw [emitter.value, hl]; rfl
    rw [emitter_label_add_new hl] at h
    cases h
    refine value_of_first rfl ?_
    rw [hnone]
    rfl
  · have hval : em.value k = some e.val := by rw [emitter.value, hl]; rfl
    by_cases hv : 0 ≤ e.val
    · rw [emitter_label_add_defined hl hv] at h
      cases h
      by_cases hk : k = key
      · subst hk
        rw [hval]
        rfl
      · simp only [if_neg hk, Option.or_none]
    · obtain ⟨ws, v⟩ := e
      cases ws with
      | none =>
        simp only [emitter_label_add, cc_get_or_insert, hl, ne_eq, not_true_eq_false, if_false,
          if_neg hv] at h
        cases h
      | some ws =>
        rw [emitter_label_add_awaited hl (Int.not_le.mp hv)] at h
        obtain ⟨em1, hrun, h⟩ := bind_eq_ok.mp h
        cases h
        have hlabels : em1.labels = em.labels := (resolve_all_only_buffers hrun).2
        refine value_of_first (congrArg (AList.insert k ⟨some [], v⟩) hlabels) ?_
        rw [hval]
        rfl

theorem label_get_value {assign : assign_type} {k : string} {v : Int}
    (h : emitter_label_get_or_add_waiter em k assign = .ok (v, em')) (key : string) :
    em'.value key = (em.value key).or (if k = key then some (-1) else none) := by
  rcases hl : em.labels.lookup k with _ | e
  · have hnone : em.value k = none := by rw [emitter.value, hl]; rfl
    rw [label_get_new assign hl] at h
    cases h
    refine value_of_first rfl ?_
    rw [hnone]
    rfl
  · have hval : em.value k = some e.val := by rw [emitter.value, hl]; rfl
    by_cases hv : 0 ≤ e.val
    · rw [label_get_defined assign hl hv] at h
      cases h
      by_cases hk : k = key
      · subst hk
        rw [hval]
        rfl
      · rw [if_neg hk, Option.or_none]
    · obtain ⟨ws, v⟩ := e
      cases ws with
      | none =>
        simp only [emitter_label_get_or_add_waiter, cc_get_or_insert, hl,
          if_pos (Int.not_le.mp hv)] at h
        cases h
      | some ws =>
        rw [label_get_awaited assign hl (Int.not_le.mp hv)] at h
        cases h
        refine value_of_first rfl ?_
        rw [hval]
        rfl

/-- A reference enters a label that is not in the table with the value -1. -/
theorem emitter_refer_value {assign : assign_type} {instr : BitVec 32} {k : string}
    (h : emitter_refer em assign instr k = .ok em') (key : string) :
    em'.value key = (em.value key).or ((Reading.refer assign instr k).valueFor em key) := by
  obtain ⟨⟨w, em1⟩, h1, h2⟩ := bind_eq_ok.mp h
  obtain ⟨⟨lbval, em2⟩, hget, h1⟩ := bind_eq_ok.mp h1
  have hem : em1 = em2 := by
    simp only at h1
    split at h1 <;> cases h1 <;> rfl
  subst hem
  rw [value_of_labels_eq (emitter_buffer_labels h2), label_get_value hget]
  rfl

/-- A call of `parse_line` gives the label of its line a value if it has none,
and changes no other value, also when it gives an error. -/
theorem parse_line_value {r : Except String (Unit × List UInt8)} (h : parse_line text p = .ok (r, p'))
    (key : string) :
    p'.em.value key = (p.em.value key).or ((reading text).bind fun rd => rd.valueFor p.em key) := by
  have hother : (∀ assign instr key, reading text ≠ some (.refer assign instr key)) →
      (∀ key, reading text ≠ some (.define key)) → p'.em.value key = p.em.value key :=
    fun hrefer hdefine => value_of_labels_eq (parse_line_labels h hrefer hdefine)
  rcases hr : reading text with _ | rd
  · rw [hother (by simp [hr]) (by simp [hr]), Option.bind_none, Option.or_none]
  · cases rd with
    | blank =>
      rw [hother (by simp [hr]) (by simp [hr])]
      exact (Option.or_none ..).symm
    | other =>
      rw [hother (by simp [hr]) (by simp [hr])]
      exact (Option.or_none ..).symm
    | refer assign instr k =>
      obtain ⟨mid, hline⟩ := parse_line_refer_eq hr
      rw [hline] at h
      obtain ⟨em1, hem, hend⟩ := bind_eq_ok.mp h
      rw [(out_check_line.inert _ _ _ _ hend).1]
      exact emitter_refer_value hem key
    | define k =>
      obtain ⟨mid, hline⟩ := parse_line_define_eq hr
      rw [hline] at h
      obtain ⟨⟨res, em1⟩, hem, hend⟩ := bind_eq_ok.mp h
      have hvalue := emitter_label_add_value hem key
      simp only at hend
      split at hend
      · cases hend
        exact hvalue
      · rw [(out_check_line.inert _ _ _ _ hend).1]
        exact hvalue

/-! ## Runs of calls -/

/-- No address in the sections is too large for an `int64_t`. -/
def emitter.Addressable (em : emitter) : Prop := ∀ s, (em.sect s).vaddr + (em.sect s).pos < 2 ^ 63

instance (em : emitter) : Decidable em.Addressable :=
  decidable_of_iff (∀ s ∈ [Sect.SECT_TEXT, Sect.SECT_DATA],
    (em.sect s).vaddr + (em.sect s).pos < 2 ^ 63)
    ⟨fun h s => h s (by cases s <;> decide), fun h s _ => h s⟩

/-- Nor is it before or after any of the calls. -/
def AddressableAll (p : Process) : List (List UInt8) → Prop
  | [] => p.em.Addressable
  | text :: texts => p.em.Addressable ∧ ∀ p', parse_call p text = .ok p' → AddressableAll p' texts

theorem AddressableAll.here (h : AddressableAll p texts) : p.em.Addressable := by
  cases texts with
  | nil => exact h
  | cons text texts => exact h.1

/-- Up to a call of the run, and from it on. -/
theorem AddressableAll.split {as bs : List (List UInt8)} (h : AddressableAll p (as ++ bs))
    (hq : Calls p as q) : AddressableAll p as ∧ AddressableAll q bs := by
  induction as generalizing p with
  | nil =>
    cases hq
    exact ⟨h.here, h⟩
  | cons a as ih =>
    obtain ⟨p1, h1, hrest⟩ := calls_cons.mp hq
    obtain ⟨hhere, hnext⟩ := h
    have hrun := ih (hnext p1 h1) hrest
    refine ⟨⟨hhere, fun p2 h2 => ?_⟩, hrun.2⟩
    rw [h1] at h2
    cases h2
    exact hrun.1

theorem emitter.Addressable.addr (h : em.Addressable) :
    em.addr = ((em.cur.vaddr + em.cur.pos : Nat) : Int) := by
  have hcur := h em.current_section
  unfold emitter.addr emitter.cur
  rw [← Nat.cast_add, toS64_of_lt (by omega), Nat.add_comm]

/-- A value stays. -/
theorem Calls.value_some (h : Calls p texts p') {v : Int} (hv : p.em.value key = some v) :
    p'.em.value key = some v := by
  induction texts generalizing p with
  | nil =>
    cases h
    exact hv
  | cons text texts ih =>
    obtain ⟨p1, h1, hrest⟩ := calls_cons.mp h
    obtain ⟨r, hline⟩ := parse_call_ok.mp h1
    refine ih hrest ?_
    rw [parse_line_value hline, hv]
    rfl

/-- What becomes of a label that is not in the table: no line names it, or it gets
an address from a line that defines it, or -1 from a line that names it. -/
theorem Calls.value_none (h : Calls p texts p') (hfit : AddressableAll p texts)
    (hnone : p.em.value key = none) :
    (p'.em.value key = none ∧ ∀ text ∈ texts, ¬ Names text key) ∨
      (∃ v, p'.em.value key = some v ∧ 0 ≤ v ∧ ∃ text ∈ texts, reading text = some (.define key)) ∨
      (p'.em.value key = some (-1) ∧ ∃ text ∈ texts, Names text key) := by
  induction texts generalizing p with
  | nil =>
    cases h
    exact Or.inl ⟨hnone, nofun⟩
  | cons text texts ih =>
    obtain ⟨p1, h1, hrest⟩ := calls_cons.mp h
    obtain ⟨r, hline⟩ := parse_call_ok.mp h1
    have hvalue := parse_line_value hline key
    rw [hnone, Option.none_or] at hvalue
    have hrun : p1.em.value key = none → ¬ Names text key →
        (p'.em.value key = none ∧ ∀ t ∈ text :: texts, ¬ Names t key) ∨
          (∃ v, p'.em.value key = some v ∧ 0 ≤ v ∧
            ∃ t ∈ text :: texts, reading t = some (.define key)) ∨
          (p'.em.value key = some (-1) ∧ ∃ t ∈ text :: texts, Names t key) := by
      intro hstill hno
      rcases ih hrest (hfit.2 p1 h1) hstill with ⟨h2, hall⟩ | ⟨v, h2, hv, t, ht, hdef⟩ |
        ⟨h2, t, ht, hnames⟩
      · exact Or.inl ⟨h2, List.forall_mem_cons.mpr ⟨hno, hall⟩⟩
      · exact Or.inr (Or.inl ⟨v, h2, hv, t, List.mem_cons_of_mem _ ht, hdef⟩)
      · exact Or.inr (Or.inr ⟨h2, t, List.mem_cons_of_mem _ ht, hnames⟩)
    rcases hr : reading text with _ | rd
    · rw [hr] at hvalue
      exact hrun hvalue fun ⟨_, _, hn⟩ => by rw [hr] at hn; cases hn
    · rw [hr, Option.bind_some] at hvalue
      cases rd with
      | blank => exact hrun hvalue fun ⟨_, _, hn⟩ => by rw [hr] at hn; cases hn
      | other => exact hrun hvalue fun ⟨_, _, hn⟩ => by rw [hr] at hn; cases hn
      | refer assign instr k =>
        by_cases hk : k = key
        · subst hk
          rw [valueFor_refer_same] at hvalue
          exact Or.inr (Or.inr ⟨hrest.value_some hvalue, text, List.mem_cons_self, assign, instr, hr⟩)
        · rw [valueFor_refer_other assign instr hk] at hvalue
          refine hrun hvalue fun ⟨_, _, hn⟩ => ?_
          rw [hr] at hn
          cases hn
          exact hk rfl
      | define k =>
        by_cases hk : k = key
        · subst hk
          rw [valueFor_define_same] at hvalue
          refine Or.inr (Or.inl ⟨p.em.addr, hrest.value_some hvalue, ?_, text, List.mem_cons_self, hr⟩)
          rw [hfit.here.addr]
          exact Int.natCast_nonneg _
        · rw [valueFor_define_other hk] at hvalue
          exact hrun hvalue fun ⟨_, _, hn⟩ => by rw [hr] at hn; cases hn

/-! ## A definition that comes again -/

/-- The line is rejected with the error for a label that is defined already, and
it changes no section and no value of a label. -/
def RejectedAsRedefinition (text : List UInt8) (p : Process) : Prop :=
  ∃ p', parse_line text p = .ok (.error "label redefined", p') ∧ p'.em.sect = p.em.sect ∧
    ∀ key, p'.em.value key = p.em.value key

theorem value_lookup {v : Int} (h : p.em.value key = some v) :
    ∃ e, p.em.labels.lookup key = some e ∧ e.val = v := Option.map_eq_some_iff.mp h

/-- A label that has an address cannot be defined. -/
theorem rejected_of_value (hdef : reading text = some (.define key)) {v : Int}
    (hv : p.em.value key = some v) (hpos : 0 ≤ v) :
    parse_line text p = .ok (.error "label redefined", p) := by
  obtain ⟨mid, hline⟩ := parse_line_define_eq hdef
  obtain ⟨e, hl, rfl⟩ := value_lookup hv
  rw [hline, emitter_label_add_defined hl hpos]
  rfl

theorem skip_whitespace_returns {σ : Type} {s s' : σ} {r : Except ε (Unit × List UInt8)}
    (h : (skip_whitespace : Scan σ ε Unit) text s = .ok (r, s')) : ∃ rest, r = .ok ((), rest) := by
  unfold skip_whitespace at h
  induction text with
  | nil => cases h
  | cons c text ih =>
    by_cases hc : whitespace c = true
    · rw [skipWhile, if_pos hc] at h
      exact ih h
    · rw [skipWhile, if_neg hc] at h
      cases h
      exact ⟨_, rfl⟩

theorem out_check_line_error {σ : Type} {s s' : σ} {e : String}
    (h : (out_check_line : Scan σ String Unit) text s = .ok (.error e, s')) : e = "extra tokens" := by
  rcases bind_eq_ok_cases h with ⟨e', h1, _⟩ | ⟨_, mid, s1, _, h2⟩
  · obtain ⟨_, hr⟩ := skip_whitespace_returns h1
    cases hr
  · rcases bind_eq_ok_cases h2 with ⟨e', h3, _⟩ | ⟨c, mid2, s2, _, h4⟩
    · cases mid <;> cases h3
    · split at h4
      · cases h4
        rfl
      · cases h4

/-- A label that is awaited is not rejected, however often it was defined. -/
theorem not_rejected_of_awaited (hdef : reading text = some (.define key)) {v : Int}
    (hv : p.em.value key = some v) (hneg : v < 0) :
    parse_line text p ≠ .ok (.error "label redefined", p') := by
  intro h
  obtain ⟨mid, hline⟩ := parse_line_define_eq hdef
  rw [hline] at h
  obtain ⟨⟨res, em1⟩, hadd, hend⟩ := bind_eq_ok.mp h
  have hknows : p.em.knows key = false :=
    (knows_of_value hv).trans (decide_eq_false (Int.not_le.mpr hneg))
  rw [(emitter_label_add_res hadd).2 hknows] at hend
  exact absurd (out_check_line_error hend) (by decide)

section Fresh

variable {errno : Int} {text_vaddr data_vaddr : Nat}

/-- The value of a label after a line that defines it and is accepted: its address,
or -1 if a line named the label before. -/
theorem value_of_accepted {before after : List (List UInt8)} {rest : List UInt8}
    (hbefore : Calls (.fresh errno text_vaddr data_vaddr) before q)
    (haddr : AddressableAll (.fresh errno text_vaddr data_vaddr) (before ++ after))
    (hline : parse_line text q = .ok (.ok ((), rest), p))
    (hdef : reading text = some (.define key)) :
    (p.em.value key = some ((q.em.cur.vaddr + q.em.cur.pos : Nat) : Int) ∧
        ∀ text ∈ before, ¬ Names text key) ∨
      (p.em.value key = some (-1) ∧ ∃ text ∈ before, Names text key) := by
  obtain ⟨hfirst, hrest⟩ := haddr.split hbefore
  have hvalue := parse_line_value hline key
  rw [hdef, Option.bind_some, valueFor_define_same, hrest.here.addr] at hvalue
  rcases hbefore.value_none hfirst rfl with ⟨hnone, hno⟩ | ⟨v, hv, hpos, _⟩ | ⟨hv, hnames⟩
  · rw [hnone, Option.none_or] at hvalue
    exact Or.inl ⟨hvalue, hno⟩
  · rw [rejected_of_value hdef hv hpos] at hline
    cases hline
  · rw [hv, Option.some_or] at hvalue
    exact Or.inr ⟨hvalue, hnames⟩

end Fresh

/-- After an accepted definition, any other definition of the label is rejected
exactly when no line named the label before it. -/
theorem a_redefinition_is_rejected_iff_the_label_was_not_awaited (errno : Int)
    (text_vaddr data_vaddr : Nat) (before between : List (List UInt8))
    (line again rest : List UInt8) (q q' p : Process) (key : string)
    (hbefore : Calls (.fresh errno text_vaddr data_vaddr) before q)
    (hline : parse_line line q = .ok (.ok ((), rest), q'))
    (hdef : reading line = some (.define key)) (hbetween : Calls q' between p)
    (hagain : reading again = some (.define key))
    (haddr : AddressableAll (.fresh errno text_vaddr data_vaddr) (before ++ line :: between)) :
    RejectedAsRedefinition again p ↔ ∀ text ∈ before, ¬ Names text key := by
  rcases value_of_accepted hbefore haddr hline hdef with ⟨hvalue, hno⟩ | ⟨hvalue, text, ht, hname⟩
  · have hrej := rejected_of_value hagain (hbetween.value_some hvalue) (Int.natCast_nonneg _)
    exact iff_of_true ⟨p, hrej, rfl, fun _ => rfl⟩ hno
  · have hstill : ∀ p', parse_line again p ≠ .ok (.error "label redefined", p') := fun _ =>
      not_rejected_of_awaited hagain (hbetween.value_some hvalue) (by decide)
    exact iff_of_false (fun ⟨p', hrej, _⟩ => hstill p' hrej) fun hno => hno text ht hname

instance AddressableAll.decide : (p : Process) → (texts : List (List UInt8)) →
    Decidable (AddressableAll p texts)
  | p, [] => inferInstanceAs (Decidable p.em.Addressable)
  | p, text :: texts =>
    have : Decidable (∀ p', parse_call p text = .ok p' → AddressableAll p' texts) :=
      match h : parse_call p text with
      | .error _ => isTrue fun _ hp => by cases hp
      | .ok p1 =>
        have := AddressableAll.decide p1 texts
        decidable_of_iff (AddressableAll p1 texts)
          ⟨fun hall _ hp => Except.ok.inj hp ▸ hall, fun hall => hall p1 rfl⟩
    inferInstanceAs (Decidable (p.em.Addressable ∧ _))

/-- An awaited label can be defined twice. -/
theorem an_awaited_label_is_defined_twice :
    ¬ ∀ (errno : Int) (text_vaddr data_vaddr : Nat) (before between : List (List UInt8))
      (line again rest : List UInt8) (q q' p : Process) (key : string),
      Calls (.fresh errno text_vaddr data_vaddr) before q →
      parse_line line q = .ok (.ok ((), rest), q') → reading line = some (.define key) →
      Calls q' between p → reading again = some (.define key) →
      AddressableAll (.fresh errno text_vaddr data_vaddr) (before ++ line :: between) →
      RejectedAsRedefinition again p := by
  intro hall
  let first : Process := .fresh 0 0x400000 0x10010000
  have hruns : (Reaches first (linesOf ["jal x0, L", "L:", "L:"]) fun _ => True) ∧
      AddressableAll first (linesOf ["jal x0, L"] ++ linesOf ["L:"]) ∧
      reading (alone (chars "L:")) = some (.define (chars "L")) := by decide +kernel
  obtain ⟨⟨p3, hrun, _⟩, haddr, hdef⟩ := hruns
  obtain ⟨_, q, hname, hrun⟩ := assembles_cons.mp hrun
  obtain ⟨rest, p, hline, hrun⟩ := assembles_cons.mp hrun
  obtain ⟨_, p2, hagain, _⟩ := assembles_cons.mp hrun
  obtain ⟨p', hrej, _⟩ := hall 0 0x400000 0x10010000 (linesOf ["jal x0, L"]) [] (alone (chars "L:"))
    (alone (chars "L:")) rest q p p (chars "L")
    (calls_cons.mpr ⟨q, parse_call_ok.mpr ⟨_, hname⟩, rfl⟩) hline hdef rfl hdef haddr
  rw [hagain] at hrej
  cases hrej

theorem a_label_that_is_not_awaited_is_defined_once :
    let texts := linesOf ["addi x1, x0, 1"]
    ∃ q q' rest, Calls (.fresh 0 0x400000 0x10010000) texts q ∧
      parse_line (alone (chars "L:")) q = .ok (.ok ((), rest), q') ∧
      (RejectedAsRedefinition (alone (chars " L :")) q' ↔
        ∀ text ∈ texts, ¬ Names text (chars "L")) := by
  intro texts
  let first : Process := .fresh 0 0x400000 0x10010000
  have hruns : (Reaches first (texts ++ linesOf ["L:"]) fun _ => True) ∧
      AddressableAll first (texts ++ linesOf ["L:"]) ∧
      reading (alone (chars "L:")) = some (.define (chars "L")) ∧
      reading (alone (chars " L :")) = some (.define (chars "L")) := by decide +kernel
  obtain ⟨⟨p2, hrun, _⟩, haddr, hdef, hagain⟩ := hruns
  obtain ⟨_, q, hname, hrun⟩ := assembles_cons.mp hrun
  obtain ⟨rest, q', hline, _⟩ := assembles_cons.mp hrun
  have hcalls : Calls first texts q := calls_cons.mpr ⟨q, parse_call_ok.mpr ⟨_, hname⟩, rfl⟩
  exact ⟨q, q', rest, hcalls, hline,
    a_redefinition_is_rejected_iff_the_label_was_not_awaited 0 0x400000 0x10010000 texts [] _ _ rest
      q q' q' (chars "L") hcalls hline hdef rfl hagain haddr⟩

end riscv_assembler
