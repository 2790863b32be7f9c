-- The label table as a ledger: what `emitter_label_add` and
-- `emitter_label_get_or_add_waiter` make of it over any run is what a ledger of
-- forward references becomes.
import RiscvAssembler.Lib.Ledger
import RiscvAssembler.Runs

open checked machine_int

namespace riscv_assembler

/-! ## The ledger of a run -/

/-- An instruction that names a label: its word before the displacement, and
where it stands. -/
structure Ref where
  assign : assign_type
  instr : BitVec 32
  sect : Sect
  off : Nat
  vaddr : Nat
  deriving DecidableEq

abbrev Book := Ledger string Ref Int

/-- The instruction that comes next. -/
def emitter.ref (em : emitter) (assign : assign_type) (instr : BitVec 32) : Ref :=
  ⟨assign, instr, em.current_section, em.cur.pos, em.cur.vaddr⟩

def Ref.waiter (r : Ref) : label_waiter := ⟨toS 64 r.off, r.sect, r.assign⟩

/-- The address that comes next, as `emitter_label_add` takes it. -/
def emitter.addr (em : emitter) : Int := toS 64 (em.cur.pos + em.cur.vaddr)

/-- What a line adds to the ledger. -/
def Reading.moves (em : emitter) : Reading → List (LedgerMove string Ref Int)
  | .refer assign instr key => [.refer key (em.ref assign instr)]
  | .define key => [.define key em.addr]
  | _ => []

/-- What calls add to the ledger. -/
def moves (p : Process) : List (List UInt8) → List (LedgerMove string Ref Int)
  | [] => []
  | text :: texts =>
    match parse_call p text with
    | .ok p' => (effect p.em (reading text)).moves p.em ++ moves p' texts
    | .error _ => []

variable {p p' q : Process} {text : List UInt8} {texts : List (List UInt8)} {key : string}

theorem moves_cons (h : parse_call p text = .ok p') :
    moves p (text :: texts) = (effect p.em (reading text)).moves p.em ++ moves p' texts := by
  simp only [moves, h]

theorem moves_append {as bs : List (List UInt8)} (h : Calls p as p') :
    moves p (as ++ bs) = moves p as ++ moves p' bs := by
  induction as generalizing p with
  | nil =>
    rw [calls_nil.mp h]
    rfl
  | cons a as ih =>
    obtain ⟨p1, hcall, hrun⟩ := calls_cons.mp h
    rw [List.cons_append, moves_cons hcall, moves_cons hcall, ih hrun, List.append_assoc]

/-- The moves of a run around one of its calls. -/
theorem moves_split (h : Calls p texts p') {i : Nat} (ht : texts[i]? = some text)
    (hq : Calls p (texts.take i) q) :
    ∃ q1, parse_call q text = .ok q1 ∧ Calls q1 (texts.drop (i + 1)) p' ∧
      moves p texts = moves p (texts.take i) ++
        ((effect q.em (reading text)).moves q.em ++ moves q1 (texts.drop (i + 1))) := by
  obtain ⟨q1, hcall, hrun⟩ := call_of_run h ht hq
  obtain ⟨hi, rfl⟩ := List.getElem?_eq_some_iff.mp ht
  refine ⟨q1, hcall, hrun, ?_⟩
  conv_lhs => rw [← List.take_append_drop i texts, List.drop_eq_getElem_cons hi]
  rw [moves_append hq, moves_cons hcall]

/-- A move of a run comes from one of its calls. -/
theorem mem_moves (h : Calls p texts p') {m : LedgerMove string Ref Int} (hm : m ∈ moves p texts) :
    ∃ i text q, texts[i]? = some text ∧ Calls p (texts.take i) q ∧
      m ∈ (effect q.em (reading text)).moves q.em := by
  induction texts generalizing p with
  | nil => cases hm
  | cons text texts ih =>
    obtain ⟨p1, hcall, hrun⟩ := calls_cons.mp h
    rw [moves_cons hcall] at hm
    rcases List.mem_append.mp hm with hm | hm
    · exact ⟨0, text, p, rfl, calls_nil.mpr rfl, hm⟩
    · obtain ⟨i, text', q, ht, hq, hm'⟩ := ih hrun hm
      exact ⟨i + 1, text', q, ht, calls_cons.mpr ⟨p1, hcall, hq⟩, hm'⟩

theorem refer_mem_effect {em : emitter} {rd : Option Reading} {r : Ref}
    (h : .refer key r ∈ (effect em rd).moves em) :
    ∃ assign instr, rd = some (.refer assign instr key) ∧ r = em.ref assign instr := by
  rcases rd with _ | ⟨_ | ⟨assign, instr, k⟩ | k | _⟩
  · cases h
  · cases h
  · cases List.mem_singleton.mp h
    exact ⟨assign, instr, rfl, rfl⟩
  · cases hk : em.knows k with
    | true =>
      rw [effect_redefine hk] at h
      cases h
    | false =>
      rw [effect_define hk] at h
      cases List.mem_singleton.mp h
  · cases h

theorem define_mem_effect {em : emitter} {rd : Option Reading} {v : Int}
    (h : .define key v ∈ (effect em rd).moves em) : rd = some (.define key) ∧ v = em.addr := by
  rcases rd with _ | ⟨_ | ⟨assign, instr, k⟩ | k | _⟩
  · cases h
  · cases h
  · cases List.mem_singleton.mp h
  · cases hk : em.knows k with
    | true =>
      rw [effect_redefine hk] at h
      cases h
    | false =>
      rw [effect_define hk] at h
      cases List.mem_singleton.mp h
      exact ⟨rfl, rfl⟩
  · cases h

theorem defines_of_moves (h : Calls p texts p') {m : LedgerMove string Ref Int}
    (hm : m ∈ moves p texts) (hd : Ledger.Defines key m) :
    ∃ text ∈ texts, reading text = some (.define key) := by
  obtain ⟨i, text, q, ht, _, hmq⟩ := mem_moves h hm
  obtain ⟨v, rfl⟩ := hd
  exact ⟨text, List.mem_of_getElem? ht, (define_mem_effect hmq).1⟩

/-- What a line adds that does what it is read as. -/
theorem effect_moves {em em' : emitter} {r : Reading} (h : r.Does em em') :
    (effect em (some r)).moves em = r.moves em := by
  cases r with
  | define k => rw [effect_define (knows_of_label_add h)]
  | blank => rfl
  | refer _ _ _ => rfl
  | other => rfl

/-! ## The table of a ledger -/

/-- The instructions that wait for the key. -/
def awaiting (B : Book) (key : string) : List Ref := (B.waiting key).map fun e => e.ref

def waiters (B : Book) (key : string) : List label_waiter :=
  (B.waiting key).map fun e => e.ref.waiter

theorem waiters_eq_awaiting (B : Book) (key : string) :
    waiters B key = (awaiting B key).map Ref.waiter := by
  rw [waiters, awaiting, List.map_map]
  rfl

theorem mem_awaiting {B : Book} {key : string} {r : Ref} :
    r ∈ awaiting B key ↔ ∃ e ∈ B.entries, Ledger.Waits key e = true ∧ e.ref = r := by
  simp [awaiting, Ledger.waiting, and_assoc]

/-- The entry of the table for the key. A label that was named before its
definition keeps the value -1 for good. -/
def labelOf (B : Book) (key : string) : Option label :=
  match B.known key with
  | some v => some ⟨none, v⟩
  | none => if B.Named key then some ⟨some (waiters B key), -1⟩ else none

theorem labelOf_known {B : Book} {key : string} {v : Int} (h : B.known key = some v) :
    labelOf B key = some ⟨none, v⟩ := by
  rw [labelOf, h]

theorem labelOf_named {B : Book} {key : string} (h : B.known key = none) (hn : B.Named key) :
    labelOf B key = some ⟨some (waiters B key), -1⟩ := by
  rw [labelOf, h]
  exact if_pos hn

theorem labelOf_absent {B : Book} {key : string} (h : B.known key = none) (hn : ¬ B.Named key) :
    labelOf B key = none := by
  rw [labelOf, h]
  exact if_neg hn

/-- Two ledgers that agree on the key have the same entry for it. -/
theorem labelOf_congr {B B' : Book} {key : string} (hknown : B'.known key = B.known key)
    (hnamed : B'.Named key ↔ B.Named key) (hw : waiters B' key = waiters B key) :
    labelOf B' key = labelOf B key := by
  unfold labelOf
  rw [hknown, hw]
  simp only [hnamed]

/-- The label table is the one of the ledger. -/
def Tracks (B : Book) (em : emitter) : Prop := ∀ key, em.labels.lookup key = labelOf B key

theorem tracks_fresh (text_vaddr data_vaddr : Nat) :
    Tracks .empty (emitter.fresh text_vaddr data_vaddr) := by
  intro key
  rw [labelOf_absent rfl (Ledger.not_named_empty key)]
  rfl

theorem named_refer (B : Book) (key : string) (r : Ref) (k : string) :
    (B.refer key r).Named k ↔ B.Named k ∨ k = key := by
  have hstep := Ledger.named_step (L := B) (k := k) (m := .refer key r)
  refine hstep.trans (or_congr_right ⟨?_, ?_⟩)
  · rintro ⟨r', hr⟩
    cases hr
    rfl
  · rintro rfl
    exact ⟨r, rfl⟩

theorem waiters_refer_other {B : Book} {key k : string} (r : Ref) (hk : k ≠ key) :
    waiters (B.refer key r) k = waiters B k := by
  rw [waiters, Ledger.waiting_refer_other r hk]
  rfl

theorem waiters_refer_same {B : Book} {key : string} (h : B.known key = none) (r : Ref) :
    waiters (B.refer key r) key = waiters B key ++ [r.waiter] := by
  rw [waiters, Ledger.waiting_refer_same h, List.map_append]
  rfl

theorem waiters_unnamed {B : Book} {key : string} (h : ¬ B.Named key) : waiters B key = [] := by
  rw [waiters, Ledger.waiting_unnamed h]
  rfl

theorem labelOf_refer_other (B : Book) {key k : string} (r : Ref) (hk : k ≠ key) :
    labelOf (B.refer key r) k = labelOf B k :=
  labelOf_congr rfl ((named_refer B key r k).trans (or_iff_left hk)) (waiters_refer_other r hk)

theorem labelOf_refer_waiting {B : Book} {key : string} (h : B.known key = none) (r : Ref) :
    labelOf (B.refer key r) key = some ⟨some (waiters B key ++ [r.waiter]), -1⟩ := by
  have hknown : (B.refer key r).known key = none := h
  rw [labelOf_named hknown ((named_refer B key r key).mpr (Or.inr rfl)), waiters_refer_same h]

theorem waiters_define_same (B : Book) (key : string) (v : Int) :
    waiters (B.define key v) key = [] := by
  rw [waiters, Ledger.waiting_define_same]
  rfl

theorem waiters_define_other {B : Book} {key k : string} (v : Int) (hk : k ≠ key) :
    waiters (B.define key v) k = waiters B k := by
  rw [waiters, Ledger.waiting_define_other v hk]
  rfl

theorem named_define (B : Book) (key : string) (v : Int) (k : string) :
    (B.define key v).Named k ↔ B.Named k := by
  have hstep := Ledger.named_step (L := B) (k := k) (m := .define key v)
  exact hstep.trans (or_iff_left nofun)

theorem labelOf_define_other (B : Book) {key k : string} (v : Int) (hk : k ≠ key) :
    labelOf (B.define key v) k = labelOf B k := by
  have hno : ¬ Ledger.Defines k (.define key v : LedgerMove string Ref Int) := by
    rintro ⟨v', hv⟩
    cases hv
    exact hk rfl
  exact labelOf_congr (Ledger.known_step hno) (named_define B key v k) (waiters_define_other v hk)

theorem labelOf_define_named {B : Book} {key : string} (h : B.known key = none) (hn : B.Named key)
    (v : Int) : labelOf (B.define key v) key = some ⟨some [], -1⟩ := by
  have hknown : (B.define key v).known key = none := by simp [Ledger.define, hn, h]
  rw [labelOf_named hknown ((named_define B key v key).mpr hn), waiters_define_same]

theorem labelOf_define_unnamed {B : Book} {key : string} (hn : ¬ B.Named key) (v : Int) :
    labelOf (B.define key v) key = some ⟨none, v⟩ := by
  have hknown : (B.define key v).known key = some v := by simp [Ledger.define, hn]
  exact labelOf_known hknown

/-! ## The functions of the emitter keep the ledger -/

theorem emitter_buffer_labels {em em' : emitter} {data : List UInt8}
    (h : emitter_buffer em data = .ok em') : em'.labels = em.labels := by
  obtain ⟨s, _, h⟩ := bind_eq_ok.mp h
  cases h
  rfl

theorem WriteStep.labels {em em' : emitter} (h : WriteStep em em') : em'.labels = em.labels := by
  cases h with
  | buffer _ hrun => exact emitter_buffer_labels hrun
  | advance _ hrun =>
    obtain ⟨s, _, hrun⟩ := bind_eq_ok.mp hrun
    cases hrun
    rfl
  | switch he => rw [he]

theorem writes_labels {em em' : emitter} (h : Relation.ReflTransGen WriteStep em em') :
    em'.labels = em.labels := by
  induction h with
  | refl => rfl
  | tail _ hw ih => rw [hw.labels, ih]

/-- A reference that succeeds is entered in the ledger. -/
theorem label_get_tracks {B : Book} {em em' : emitter} {key : string} {assign : assign_type}
    {v : Int} (h : Tracks B em)
    (hrun : emitter_label_get_or_add_waiter em key assign = .ok (v, em')) (instr : BitVec 32) :
    Tracks (B.refer key (em.ref assign instr)) em' ∧ v = (B.known key).getD (-1) ∧
      ∀ v', B.known key = some v' → 0 ≤ v' := by
  have hkey := h key
  rcases hknown : B.known key with _ | v'
  · by_cases hn : B.Named key
    · rw [labelOf_named hknown hn] at hkey
      rw [label_get_awaited assign hkey (by decide)] at hrun
      cases hrun
      refine ⟨fun k => ?_, rfl, nofun⟩
      by_cases hk : k = key
      · subst hk
        rw [AList.lookup_insert, labelOf_refer_waiting hknown]
        rfl
      · rw [AList.lookup_insert_ne hk, labelOf_refer_other B _ hk, h k]
    · rw [labelOf_absent hknown hn] at hkey
      rw [label_get_new assign hkey] at hrun
      cases hrun
      refine ⟨fun k => ?_, rfl, nofun⟩
      by_cases hk : k = key
      · subst hk
        rw [AList.lookup_insert, labelOf_refer_waiting hknown, waiters_unnamed hn]
        rfl
      · rw [AList.lookup_insert_ne hk, labelOf_refer_other B _ hk, h k]
  · rw [labelOf_known hknown] at hkey
    by_cases hv : 0 ≤ v'
    · rw [label_get_defined assign hkey hv] at hrun
      cases hrun
      refine ⟨fun k => ?_, rfl, fun v'' hv'' => by cases hv''; exact hv⟩
      by_cases hk : k = key
      · subst hk
        rw [h k, labelOf_known hknown]
        exact (labelOf_known (B := B.refer k _) hknown).symm
      · rw [labelOf_refer_other B _ hk, h k]
    · simp only [emitter_label_get_or_add_waiter, cc_get_or_insert, hkey,
        if_pos (Int.not_le.mp hv)] at hrun
      cases hrun

/-- A definition that succeeds is entered in the ledger. -/
theorem label_add_tracks {B : Book} {em em' : emitter} {key : string} (h : Tracks B em)
    (hrun : emitter_label_add em key = .ok (0, em')) :
    Tracks (B.define key em.addr) em' ∧ B.known key = none := by
  have hkey := h key
  rcases hknown : B.known key with _ | v'
  · by_cases hn : B.Named key
    · rw [labelOf_named hknown hn] at hkey
      rw [emitter_label_add_awaited hkey (by decide)] at hrun
      obtain ⟨em1, hall, hrun⟩ := bind_eq_ok.mp hrun
      cases hrun
      refine ⟨fun k => ?_, rfl⟩
      by_cases hk : k = key
      · subst hk
        rw [AList.lookup_insert, labelOf_define_named hknown hn]
      · rw [AList.lookup_insert_ne hk, labelOf_define_other B _ hk,
          (resolve_all_only_buffers hall).2, h k]
    · rw [labelOf_absent hknown hn] at hkey
      rw [emitter_label_add_new hkey] at hrun
      cases hrun
      refine ⟨fun k => ?_, rfl⟩
      by_cases hk : k = key
      · subst hk
        rw [AList.lookup_insert, labelOf_define_unnamed hn]
        rfl
      · rw [AList.lookup_insert_ne hk, labelOf_define_other B _ hk, h k]
  · rw [labelOf_known hknown] at hkey
    by_cases hv : 0 ≤ v'
    · rw [emitter_label_add_defined hkey hv] at hrun
      cases hrun
    · simp only [emitter_label_add, cc_get_or_insert, hkey, ne_eq, not_true_eq_false, if_false,
        if_neg hv] at hrun
      cases hrun

/-- What a line does keeps the table and the ledger together. -/
theorem Reading.Does.tracks {B : Book} {em em' : emitter} {r : Reading} (hd : r.Does em em')
    (h : Tracks B em) : Tracks (B.run (r.moves em)) em' := by
  cases r with
  | blank =>
    rw [Reading.Does] at hd
    rwa [hd]
  | refer assign instr key =>
    obtain ⟨⟨w, em1⟩, h1, h2⟩ := bind_eq_ok.mp hd
    obtain ⟨⟨lbval, em2⟩, hget, h1⟩ := bind_eq_ok.mp h1
    obtain ⟨htracks, _, _⟩ := label_get_tracks h hget instr
    have hem : em1 = em2 := by
      simp only at h1
      split at h1 <;> cases h1 <;> rfl
    intro k
    rw [emitter_buffer_labels h2, hem]
    exact htracks k
  | define key => exact (label_add_tracks h hd).1
  | other =>
    intro k
    rw [writes_labels hd]
    exact h k

/-- After any calls the label table is the one of the ledger. -/
theorem Calls.tracks (h : Calls p texts p') {B : Book} (hp : Tracks B p.em) :
    Tracks (B.run (moves p texts)) p'.em := by
  induction texts generalizing p B with
  | nil =>
    rw [calls_nil.mp h]
    exact hp
  | cons text texts ih =>
    obtain ⟨p1, hcall, hrun⟩ := calls_cons.mp h
    rw [moves_cons hcall, Ledger.run_append]
    exact ih hrun ((parse_call_does hcall).tracks hp)

/-! ## What a definition resolves -/

/-- The waiters in the entry of the label. -/
def emitter.waiting (em : emitter) (key : string) : List label_waiter :=
  ((em.labels.lookup key).bind label.waiters).getD []

theorem emitter.waiting_of_lookup {em : emitter} {ws : List label_waiter} {v : Int}
    (h : em.labels.lookup key = some ⟨some ws, v⟩) : em.waiting key = ws := by
  rw [emitter.waiting, h]
  rfl

/-- The definition of a label resolves its waiters, and does nothing else to the
sections. -/
theorem label_add_resolves {em em' : emitter} (hrun : emitter_label_add em key = .ok (0, em')) :
    ∃ em1, runAll (resolve_waiter em.addr) em (em.waiting key) = .ok em1 ∧
      em'.sect = em1.sect := by
  rcases hl : em.labels.lookup key with _ | ⟨ws, v⟩
  · have hno : em.waiting key = [] := by
      rw [emitter.waiting, hl]
      rfl
    rw [emitter_label_add_new hl] at hrun
    cases hrun
    exact ⟨em, by rw [hno, runAll_nil], rfl⟩
  · by_cases hv : 0 ≤ v
    · rw [emitter_label_add_defined hl hv] at hrun
      cases hrun
    · cases ws with
      | none =>
        simp only [emitter_label_add, cc_get_or_insert, hl, ne_eq, not_true_eq_false, if_false,
          if_neg hv] at hrun
        cases hrun
      | some ws =>
        rw [emitter_label_add_awaited hl (by omega)] at hrun
        obtain ⟨em1, hall, hrun⟩ := bind_eq_ok.mp hrun
        cases hrun
        exact ⟨em1, by rw [emitter.waiting_of_lookup hl]; exact hall, rfl⟩

end riscv_assembler
