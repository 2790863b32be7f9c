-- The two sections do not depend on each other: sequences of operations that are
-- the same section by section leave the same sections and the same labels.
import RiscvAssembler.EmitterLaws
import RiscvAssembler.Lib.Interleaving

open checked machine_int

namespace riscv_assembler

/-! ## Operations -/

/-- An operation on the current section. -/
inductive SectionOp
  | buffer (data : List UInt8)
  | advance (n : Nat)
  | label_add (key : string)

/-- An operation, or a switch of the current section. -/
abbrev EmitterOp := Turn Sect SectionOp

def perform (em : emitter) : EmitterOp → Result emitter
  | .choose s => .ok { em with current_section := s }
  | .act (.buffer data) => emitter_buffer em data
  | .act (.advance n) => emitter_advance em n
  | .act (.label_add key) => do
    let (_, em) ← emitter_label_add em key
    .ok em

/-- The labels that the operations add, in their order. -/
def labels_added (ops : List EmitterOp) : List string :=
  ops.filterMap fun
    | .act (.label_add key) => some key
    | _ => none

/-- Each label is added once and is not in the table before. -/
def AddsNewLabels (em : emitter) (ops : List EmitterOp) : Prop :=
  (labels_added ops).Nodup ∧ ∀ key ∈ labels_added ops, em.labels.lookup key = none

/-! ## One section with its labels -/

/-- A section, and the labels that were added in it. -/
structure Labelled where
  sect : Section
  labels : List (string × Int)

/-- An operation on a section, without the rest of the emitter. -/
def Labelled.step (x : Labelled) : SectionOp → Result Labelled
  | .buffer data => do
    let s ← emitter_buffer_loop x.sect x.sect.len data
    .ok { x with sect := s }
  | .advance n => do
    let s ← section_advance x.sect n
    .ok { x with sect := s }
  | .label_add key => .ok { x with labels := x.labels ++ [(key, toS 64 (x.sect.pos + x.sect.vaddr))] }

/-- The value that one of the sections has for the label. -/
def addedIn (parts : Sect → Labelled) (key : string) : Option Int :=
  ((parts .SECT_TEXT).labels.lookup key).or ((parts .SECT_DATA).labels.lookup key)

/-- The emitter consists of the two sections and of the table it had at
first. -/
structure Consists (first em : emitter) (S : Machines Sect Labelled) : Prop where
  sect_eq : ∀ s, em.sect s = (S.parts s).sect
  current_eq : em.current_section = S.chosen
  lookup_eq : ∀ key, em.labels.lookup key =
    ((addedIn S.parts key).map fun v => ⟨none, v⟩).or (first.labels.lookup key)

variable {first em em' : emitter} {S S' : Machines Sect Labelled}

theorem Consists.cur (h : Consists first em S) : em.cur = (S.parts S.chosen).sect := by
  rw [emitter.cur, h.current_eq, h.sect_eq]

/-- A change of the current section alone. -/
theorem Consists.setCur (h : Consists first em S) (x : Section) :
    Consists first (em.setCur x) (S.setChosen { S.parts S.chosen with sect := x }) := by
  have hlabels : ∀ s, ((S.setChosen { S.parts S.chosen with sect := x }).parts s).labels =
      (S.parts s).labels := by
    intro s
    by_cases hs : s = S.chosen
    · subst hs
      rw [Machines.setChosen_same]
    · rw [S.setChosen_other _ hs]
  refine ⟨fun s => ?_, h.current_eq, fun key => ?_⟩
  · rw [emitter.setCur, h.current_eq]
    by_cases hs : s = S.chosen
    · subst hs
      rw [em.set_sect_same, Machines.setChosen_same]
    · rw [em.set_sect_ne _ hs, S.setChosen_other _ hs, h.sect_eq]
  · rw [addedIn, hlabels, hlabels]
    exact h.lookup_eq key

theorem lookup_append_singleton {l : List (string × Int)} {key k : string} {v : Int}
    (h : l.lookup key = none) :
    (l ++ [(key, v)]).lookup k = if k = key then some v else l.lookup k := by
  rw [List.lookup_append]
  by_cases hk : k = key
  · subst hk
    simp [h]
  · have hne : (k == key) = false := beq_false_of_ne hk
    rw [List.lookup_cons, hne, if_neg hk]
    exact Option.or_none

/-- A label that the current section gets. -/
def Labelled.add (x : Labelled) (key : string) (v : Int) : Labelled :=
  { x with labels := x.labels ++ [(key, v)] }

theorem addedIn_add {key : string} (v : Int) (h : addedIn S.parts key = none) (k : string) :
    addedIn (S.setChosen ((S.parts S.chosen).add key v)).parts k =
      if k = key then some v else addedIn S.parts k := by
  obtain ⟨htext, hdata⟩ := Option.or_eq_none_iff.mp h
  have hchosen : (S.parts S.chosen).labels.lookup key = none := by
    cases S.chosen
    · exact htext
    · exact hdata
  have hpart : ∀ s, ((S.setChosen ((S.parts S.chosen).add key v)).parts s).labels.lookup k =
      if S.chosen = s ∧ k = key then some v else (S.parts s).labels.lookup k := by
    intro s
    by_cases hs : S.chosen = s
    · subst hs
      rw [Machines.setChosen_same, Labelled.add, lookup_append_singleton hchosen]
      simp
    · rw [S.setChosen_other _ (Ne.symm hs), if_neg fun hc => hs hc.1]
  rw [addedIn, hpart, hpart]
  by_cases hk : k = key
  · subst hk
    cases S.chosen <;> simp [htext]
  · simp only [hk, and_false, if_false]
    rfl

/-- A new label goes to the current section. -/
theorem Consists.add (h : Consists first em S) {key : string} (v : Int)
    (hnew : em.labels.lookup key = none) :
    Consists first { em with labels := em.labels.insert key ⟨none, v⟩ }
      (S.setChosen ((S.parts S.chosen).add key v)) := by
  have hnone : addedIn S.parts key = none := by
    have hkey := h.lookup_eq key
    rw [hnew] at hkey
    simpa using (Option.or_eq_none_iff.mp hkey.symm).1
  refine ⟨fun s => ?_, h.current_eq, fun k => ?_⟩
  · by_cases hs : s = S.chosen
    · subst hs
      rw [Machines.setChosen_same]
      exact h.sect_eq _
    · rw [S.setChosen_other _ hs]
      exact h.sect_eq s
  · rw [addedIn_add v hnone]
    by_cases hk : k = key
    · subst hk
      rw [if_pos rfl]
      exact AList.lookup_insert _
    · rw [if_neg hk, ← h.lookup_eq k]
      exact AList.lookup_insert_ne hk

/-! ## Runs of operations -/

/-- What an operation does to the emitter it does to the current section. -/
theorem perform_consists (h : Consists first em S) {op : EmitterOp}
    (hnew : ∀ key ∈ labels_added [op], em.labels.lookup key = none) :
    Agree (Consists first) (perform em op) (Machines.turn Labelled.step S op) := by
  cases op with
  | choose s => exact .ok ⟨h.sect_eq, rfl, h.lookup_eq⟩
  | act op =>
    refine Agree.map_right ?_
    cases op with
    | buffer data =>
      simp only [perform, emitter_buffer, Labelled.step, h.cur]
      exact (Agree.same _).bind fun s _ _ hs => hs ▸ .ok (h.setCur s)
    | advance n =>
      simp only [perform, emitter_advance, Labelled.step, h.cur]
      exact (Agree.same _).bind fun s _ _ hs => hs ▸ .ok (h.setCur s)
    | label_add key =>
      have hkey := hnew key List.mem_cons_self
      simp only [perform, emitter_label_add_new hkey, h.cur]
      exact .ok (h.add _ hkey)

/-- An operation puts only its own label into the table. -/
theorem perform_lookup {op : EmitterOp} {key : string} (hnew : ∀ k ∈ labels_added [op],
      em.labels.lookup k = none) (hrun : perform em op = .ok em') (hno : key ∉ labels_added [op]) :
    em'.labels.lookup key = em.labels.lookup key := by
  cases op with
  | choose s =>
    cases hrun
    rfl
  | act op =>
    cases op with
    | buffer data =>
      obtain ⟨s, _, hrun⟩ := bind_eq_ok.mp hrun
      cases hrun
      rfl
    | advance n =>
      obtain ⟨s, _, hrun⟩ := bind_eq_ok.mp hrun
      cases hrun
      rfl
    | label_add k =>
      simp only [perform, emitter_label_add_new (hnew k List.mem_cons_self)] at hrun
      cases hrun
      refine AList.lookup_insert_ne fun hk => hno ?_
      rw [hk]
      exact List.mem_cons_self

theorem labels_added_cons (op : EmitterOp) (ops : List EmitterOp) :
    labels_added (op :: ops) = labels_added [op] ++ labels_added ops := by
  unfold labels_added
  rw [← List.filterMap_append, List.singleton_append]

/-- The rest of the operations adds new labels as well. -/
theorem AddsNewLabels.tail {op : EmitterOp} {ops : List EmitterOp}
    (h : AddsNewLabels em (op :: ops)) (hrun : perform em op = .ok em') : AddsNewLabels em' ops := by
  obtain ⟨hnodup, hnew⟩ := h
  rw [labels_added_cons] at hnodup hnew
  obtain ⟨_, hrest, hapart⟩ := List.nodup_append.mp hnodup
  refine ⟨hrest, fun key hkey => ?_⟩
  rw [perform_lookup (fun k hk => hnew k (List.mem_append_left _ hk)) hrun
    fun hk => hapart key hk key hkey rfl]
  exact hnew key (List.mem_append_right _ hkey)

/-- Operations that add new labels do to the sections what they do to the
emitter. -/
theorem run_consists {ops : List EmitterOp} (h : Consists first em S) (hnew : AddsNewLabels em ops) :
    Agree (Consists first) (runAll perform em ops)
      (runAll (Machines.turn Labelled.step) S ops) := by
  induction ops generalizing em S with
  | nil => exact .ok h
  | cons op ops ih =>
    have hop : ∀ key ∈ labels_added [op], em.labels.lookup key = none := fun key hkey =>
      hnew.2 key (by rw [labels_added_cons]; exact List.mem_append_left _ hkey)
    exact (perform_consists h hop).bind fun em1 S1 hrun h1 => ih h1 (hnew.tail hrun)

/-! ## Two orders -/

theorem consists_self (em : emitter) :
    Consists em em ⟨fun s => ⟨em.sect s, []⟩, em.current_section⟩ :=
  ⟨fun _ => rfl, rfl, fun _ => rfl⟩

/-- Sequences of operations that are the same for each section leave the same
sections and give every label the same value. -/
theorem sections_do_not_depend_on_the_order (em em1 : emitter) (ops ops' : List EmitterOp)
    (hnew : AddsNewLabels em ops) (hnew' : AddsNewLabels em ops')
    (hown : ∀ s, Machines.own s em.current_section ops = Machines.own s em.current_section ops')
    (h : runAll perform em ops = .ok em1) :
    ∃ em2, runAll perform em ops' = .ok em2 ∧ (∀ s, em2.sect s = em1.sect s) ∧
      ∀ key, em2.labels.lookup key = em1.labels.lookup key := by
  obtain ⟨S1, hS1, h1⟩ := (run_consists (consists_self em) hnew).1 em1 h
  obtain ⟨j, hS2⟩ := Machines.run_congr hown hS1
  obtain ⟨em2, hrun, h2⟩ := (run_consists (consists_self em) hnew').2 _ hS2
  refine ⟨em2, hrun, fun s => ?_, fun key => ?_⟩
  · rw [h2.sect_eq, h1.sect_eq]
  · rw [h2.lookup_eq, h1.lookup_eq]

theorem two_orders_of_a_small_program :
    let ops : List EmitterOp := [.act (.label_add [97]), .act (.buffer [1, 2]), .choose .SECT_DATA,
      .act (.advance 5000), .act (.label_add [98]), .choose .SECT_TEXT, .act (.buffer [3])]
    let ops' : List EmitterOp := [.choose .SECT_DATA, .act (.advance 5000), .choose .SECT_TEXT,
      .act (.label_add [97]), .act (.buffer [1, 2]), .act (.buffer [3]), .choose .SECT_DATA,
      .act (.label_add [98])]
    ∃ em1 em2, runAll perform (.fresh 0x400000 0x10010000) ops = .ok em1 ∧
      runAll perform (.fresh 0x400000 0x10010000) ops' = .ok em2 ∧
      (∀ s, em2.sect s = em1.sect s) ∧
      ∀ key, em2.labels.lookup key = em1.labels.lookup key := by
  intro ops ops'
  have hrun : (runAll perform (.fresh 0x400000 0x10010000) ops).toBool = true := by decide +kernel
  have hnew : ∀ ops, labels_added ops = [[97], [98]] →
      AddsNewLabels (.fresh 0x400000 0x10010000) ops := by
    intro ops h
    rw [AddsNewLabels, h]
    exact ⟨by decide, fun _ _ => rfl⟩
  obtain ⟨em1, h⟩ := ok_of_toBool hrun
  obtain ⟨em2, h2⟩ := sections_do_not_depend_on_the_order (.fresh 0x400000 0x10010000) em1 ops ops'
    (hnew ops rfl) (hnew ops' rfl) (by intro s; cases s <;> rfl) h
  exact ⟨em1, em2, h, h2⟩

end riscv_assembler
