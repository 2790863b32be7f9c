-- Runs of `parse_line`: what holds of both sections and of the label table after
-- any calls, accepted or rejected, whatever the lines say.
import RiscvAssembler.Driver
import RiscvAssembler.EmitterLaws
import RiscvAssembler.Readings

open checked machine_int SparseFile

namespace riscv_assembler

/-! ## Calls -/

/-- A call of `parse_line`, whatever it gives. -/
def parse_call (p : Process) (text : List UInt8) : Result Process := do
  let (_, p) ← parse_line text p
  .ok p

/-- The calls lead from `p` to `p'`. Some of them may have given an error. -/
def Calls (p : Process) (texts : List (List UInt8)) (p' : Process) : Prop :=
  runAll parse_call p texts = .ok p'

variable {p p' q : Process} {text : List UInt8} {texts : List (List UInt8)} {key : string}

theorem parse_call_ok : parse_call p text = .ok p' ↔ ∃ r, parse_line text p = .ok (r, p') := by
  unfold parse_call
  rw [bind_eq_ok]
  constructor
  · rintro ⟨⟨r, p1⟩, h, h'⟩
    cases h'
    exact ⟨r, h⟩
  · rintro ⟨r, h⟩
    exact ⟨(r, p'), h, rfl⟩

theorem calls_nil : Calls p [] p' ↔ p' = p := by
  simp [Calls, runAll_nil, eq_comm]

theorem calls_cons : Calls p (text :: texts) p' ↔
    ∃ p1, parse_call p text = .ok p1 ∧ Calls p1 texts p' := bind_eq_ok

theorem calls_append {as bs : List (List UInt8)} :
    Calls p (as ++ bs) p' ↔ ∃ q, Calls p as q ∧ Calls q bs p' := by
  unfold Calls
  rw [runAll_append]
  exact bind_eq_ok

theorem Calls.unique {p1 p2 : Process} (h1 : Calls p texts p1) (h2 : Calls p texts p2) : p1 = p2 := by
  rw [Calls, h1] at h2
  exact Except.ok.inj h2

/-- A call of a run, and the run after it. -/
theorem call_of_run (h : Calls p texts p') {i : Nat} (ht : texts[i]? = some text)
    (hq : Calls p (texts.take i) q) :
    ∃ q1, parse_call q text = .ok q1 ∧ Calls q1 (texts.drop (i + 1)) p' := by
  obtain ⟨hi, rfl⟩ := List.getElem?_eq_some_iff.mp ht
  rw [← List.take_append_drop i texts, List.drop_eq_getElem_cons hi] at h
  obtain ⟨q1, hq1, hrest⟩ := calls_append.mp h
  obtain rfl := hq.unique hq1
  exact calls_cons.mp hrest

/-- The value that the table has for the label. -/
def emitter.value (em : emitter) (key : string) : Option Int := (em.labels.lookup key).map label.val

/-- The label has an address. -/
def emitter.knows (em : emitter) (key : string) : Bool := (em.value key).any fun v => decide (0 ≤ v)

/-- What a call does to the emitter, accepted or rejected: a reference is made and a
label is defined before the end of the line is checked. The definition of a label
that has an address does nothing. -/
def effect (em : emitter) : Option Reading → Reading
  | some (.refer assign instr key) => .refer assign instr key
  | some (.define key) => if em.knows key then .blank else .define key
  | _ => .other

theorem effect_define {em : emitter} (h : em.knows key = false) :
    effect em (some (.define key)) = .define key := if_neg (by rw [h]; decide)

theorem effect_redefine {em : emitter} (h : em.knows key = true) :
    effect em (some (.define key)) = .blank := if_pos h

/-- A label that has an address cannot be defined, and any other can. -/
theorem emitter_label_add_res {em em' : emitter} {res : Int}
    (h : emitter_label_add em key = .ok (res, em')) :
    (em.knows key = true → res = -1 ∧ em' = em) ∧ (em.knows key = false → res = 0) := by
  unfold emitter.knows emitter.value
  rcases hl : em.labels.lookup key with _ | ⟨ws, v⟩
  · rw [emitter_label_add_new hl] at h
    cases h
    exact ⟨nofun, fun _ => rfl⟩
  · by_cases hv : 0 ≤ v
    · rw [emitter_label_add_defined hl hv] at h
      cases h
      exact ⟨fun _ => ⟨rfl, rfl⟩, fun hno => absurd hv (of_decide_eq_false hno)⟩
    · refine ⟨fun hyes => absurd (of_decide_eq_true hyes) hv, fun _ => ?_⟩
      simp only [emitter_label_add, cc_get_or_insert, hl, ne_eq, not_true_eq_false, if_false,
        if_neg hv] at h
      cases ws with
      | none => cases h
      | some ws =>
        obtain ⟨em1, _, h⟩ := bind_eq_ok.mp h
        cases h
        rfl

/-- A definition that succeeds is of a label without an address. -/
theorem knows_of_label_add {em em' : emitter} (h : emitter_label_add em key = .ok (0, em')) :
    em.knows key = false := by
  cases hk : em.knows key with
  | false => rfl
  | true => exact absurd ((emitter_label_add_res h).1 hk).1 (by decide)

theorem knows_of_value {em : emitter} {v : Int} (hv : em.value key = some v) :
    em.knows key = decide (0 ≤ v) := by
  rw [emitter.knows, hv]
  rfl

theorem parse_call_does (h : parse_call p text = .ok p') :
    (effect p.em (reading text)).Does p.em p'.em := by
  obtain ⟨r, hline⟩ := parse_call_ok.mp h
  rcases hr : reading text with _ | ⟨_ | ⟨assign, instr, key⟩ | key | _⟩
  · exact parse_line_writes hline (by simp [hr]) (by simp [hr])
  · exact parse_line_writes hline (by simp [hr]) (by simp [hr])
  · obtain ⟨mid, heq⟩ := parse_line_refer_eq hr
    rw [heq] at hline
    obtain ⟨em, hem, hend⟩ := bind_eq_ok.mp hline
    rw [(out_check_line.inert _ _ _ _ hend).1]
    exact hem
  · obtain ⟨mid, heq⟩ := parse_line_define_eq hr
    rw [heq] at hline
    obtain ⟨⟨res, em⟩, hem, hend⟩ := bind_eq_ok.mp hline
    have hem' : p'.em = em := by
      simp only at hend
      split at hend
      · cases hend
        rfl
      · rw [(out_check_line.inert _ _ _ _ hend).1]
    obtain ⟨hknown, hfirst⟩ := emitter_label_add_res hem
    rw [hem']
    cases hk : p.em.knows key with
    | true =>
      rw [effect_redefine hk]
      exact (hknown hk).2
    | false =>
      rw [effect_define hk]
      rw [hfirst hk] at hem
      exact hem
  · exact parse_line_writes hline (by simp [hr]) (by simp [hr])

/-- The run rule: what holds of the emitter at first and is kept by what a line
does holds after the calls. -/
theorem Calls.keeps {I : emitter → Prop}
    (hstep : ∀ r em em', Reading.Does r em em' → I em → I em') (h : Calls p texts p')
    (hp : I p.em) : I p'.em :=
  runAll_inv (I := fun p => I p.em) (fun _ _ _ hi hcall => hstep _ _ _ (parse_call_does hcall) hi)
    texts p p' hp h

/-! ## Runs -/

/-- The state before the first line. -/
def Process.fresh (errno : Int) (text_vaddr data_vaddr : Nat) : Process :=
  ⟨errno, emitter.fresh text_vaddr data_vaddr⟩

/-- The lines are accepted one after the other, and they lead from `p` to
`p'`. -/
def Assembles (p : Process) (texts : List (List UInt8)) (p' : Process) : Prop :=
  assemble p texts = .ok (.ok p')

theorem assembles_nil : Assembles p [] p' ↔ p' = p := by
  simp [Assembles, assemble, eq_comm]

theorem assembles_cons : Assembles p (text :: texts) p' ↔ ∃ rest p1,
      parse_line text p = .ok (.ok ((), rest), p1) ∧ Assembles p1 texts p' :=
  assemble_cons_ok

theorem assembles_append {as bs : List (List UInt8)} :
    Assembles p (as ++ bs) p' ↔ ∃ p1, Assembles p as p1 ∧ Assembles p1 bs p' := by
  induction as generalizing p with
  | nil => simp [assembles_nil]
  | cons a as ih =>
    simp only [List.cons_append, assembles_cons, ih]
    constructor
    · rintro ⟨rest, p1, h1, p2, h2, h3⟩
      exact ⟨p2, ⟨rest, p1, h1, h2⟩, h3⟩
    · rintro ⟨p2, ⟨rest, p1, h1, h2⟩, h3⟩
      exact ⟨rest, p1, h1, p2, h2, h3⟩

/-- The lines of a run that are accepted are calls. -/
theorem Assembles.calls (h : Assembles p texts p') : Calls p texts p' := by
  induction texts generalizing p with
  | nil => exact calls_nil.mpr (assembles_nil.mp h)
  | cons text texts ih =>
    obtain ⟨rest, p1, hline, hrun⟩ := assembles_cons.mp h
    exact calls_cons.mpr ⟨p1, parse_call_ok.mpr ⟨_, hline⟩, ih hrun⟩

theorem Assembles.unique {p1 p2 : Process} (h1 : Assembles p texts p1) (h2 : Assembles p texts p2) :
    p1 = p2 := h1.calls.unique h2.calls

theorem Assembles.keeps {I : emitter → Prop}
    (hstep : ∀ r em em', Reading.Does r em em' → I em → I em') (h : Assembles p texts p')
    (hp : I p.em) : I p'.em := h.calls.keeps hstep hp

/-- Lines as `parse_line` gets them, each in its own buffer. -/
def linesOf (lines : List String) : List (List UInt8) := lines.map fun l => alone (c_text.chars l)

/-- The lines are accepted, and the state after them has the property. -/
def Reaches (p : Process) (texts : List (List UInt8)) (P : Process → Prop) : Prop :=
  ∃ p', Assembles p texts p' ∧ P p'

instance (p : Process) (texts : List (List UInt8)) (P : Process → Prop) [DecidablePred P] :
    Decidable (Reaches p texts P) :=
  match h : assemble p texts with
  | .ok (.ok p') =>
    decidable_of_iff (P p') ⟨fun hp => ⟨p', h, hp⟩, fun ⟨_, hrun, hp⟩ => by
      rw [Assembles, h] at hrun
      cases hrun
      exact hp⟩
  | .ok (.error _) => isFalse fun ⟨_, hrun, _⟩ => by rw [Assembles, h] at hrun; cases hrun
  | .error _ => isFalse fun ⟨_, hrun, _⟩ => by rw [Assembles, h] at hrun; cases hrun

/-- A run of one line, with what the line leaves of its text. -/
theorem Reaches.line {first : Process} {text rest : List UInt8} {P : Process → Prop}
    (h : Reaches first [text] P)
    (hrest : ((parse_line text first).map fun r => r.1.toOption.map Prod.snd).toOption =
      some (some rest)) :
    ∃ p, parse_line text first = .ok (.ok ((), rest), p) ∧ P p := by
  obtain ⟨p, hrun, hp⟩ := h
  obtain ⟨rest', p1, hline, hend⟩ := assembles_cons.mp hrun
  obtain rfl := assembles_nil.mp hend
  rw [hline] at hrest
  cases hrest
  exact ⟨p, hline, hp⟩

/-! ## Sections -/

/-- The counters of both sections agree with their swap files, which were only
written at the end, and the addresses are those that `main` set. -/
def emitter.Sound (vaddr : Sect → Nat) (em : emitter) : Prop :=
  ∀ s, (em.sect s).Ok ∧ (em.sect s).swap.AtEnd ∧ (em.sect s).vaddr = vaddr s

variable {vaddr : Sect → Nat}

theorem emitter.Sound.setCur {em : emitter} {x : Section} (h : em.Sound vaddr) (hok : x.Ok)
    (hend : em.cur.swap.AtEnd → x.swap.AtEnd) (hv : x.vaddr = em.cur.vaddr) :
    (em.setCur x).Sound vaddr := by
  obtain ⟨_, hcur, hvcur⟩ := h em.current_section
  exact em.forall_set (P := fun s y => y.Ok ∧ y.swap.AtEnd ∧ y.vaddr = vaddr s) h
    ⟨hok, hend hcur, hv.trans hvcur⟩

theorem emitter_buffer.sound {em em' : emitter} {data : List UInt8} (h : em.Sound vaddr)
    (hrun : emitter_buffer em data = .ok em') : em'.Sound vaddr := by
  obtain ⟨s, hs, hrun⟩ := bind_eq_ok.mp hrun
  cases hrun
  have hspec := emitter_buffer_loop.spec em.cur data (h em.current_section).1
  rw [hs] at hspec
  obtain ⟨hok, hv, hend, _⟩ := hspec
  exact h.setCur hok hend hv

theorem emitter_advance.sound {em em' : emitter} {n : Nat} (hn : n < 2 ^ 63) (h : em.Sound vaddr)
    (hrun : emitter_advance em n = .ok em') : em'.Sound vaddr := by
  obtain ⟨s, hs, hrun⟩ := bind_eq_ok.mp hrun
  cases hrun
  have hspec := section_advance.spec em.cur n (h em.current_section).1 hn
  rw [hs] at hspec
  obtain ⟨hok, hv, _, hend, _⟩ := hspec
  exact h.setCur hok (fun ha => (hend ha).1) hv

theorem WriteStep.sound {em em' : emitter} (hw : WriteStep em em') (h : em.Sound vaddr) :
    em'.Sound vaddr := by
  cases hw with
  | buffer _ hrun => exact emitter_buffer.sound h hrun
  | advance hn hrun => exact emitter_advance.sound (by omega) h hrun
  | switch he =>
    subst he
    exact h

/-- A patch changes the bytes of one buffer. -/
theorem resolve_waiter_frame {val : Int} {em em' : emitter} {w : label_waiter}
    (h : resolve_waiter val em w = .ok em') :
    ∃ buf, em' = em.set w.sect { em.sect w.sect with buf } := by
  unfold resolve_waiter at h
  simp only at h
  split at h
  · cases h
  · split at h
    · cases h
    · obtain ⟨word, _, h⟩ := bind_eq_ok.mp h
      obtain ⟨buf, _, h⟩ := bind_eq_ok.mp h
      cases h
      exact ⟨buf, rfl⟩

/-- What the label functions may do to the sections: the bytes of the buffers
change and nothing else. -/
def OnlyBuffers (em em' : emitter) : Prop :=
  em'.current_section = em.current_section ∧ ∀ s, ∃ buf, em'.sect s = { em.sect s with buf }

theorem OnlyBuffers.refl (em : emitter) : OnlyBuffers em em :=
  ⟨rfl, fun s => ⟨(em.sect s).buf, rfl⟩⟩

theorem OnlyBuffers.trans {em em1 em2 : emitter} (h1 : OnlyBuffers em em1)
    (h2 : OnlyBuffers em1 em2) : OnlyBuffers em em2 := by
  refine ⟨h2.1.trans h1.1, fun s => ?_⟩
  obtain ⟨buf1, he1⟩ := h1.2 s
  obtain ⟨buf2, he2⟩ := h2.2 s
  exact ⟨buf2, by rw [he2, he1]⟩

theorem resolve_waiter_only_buffers {val : Int} {em em' : emitter} {w : label_waiter}
    (h : resolve_waiter val em w = .ok em') : OnlyBuffers em em' ∧ em'.labels = em.labels := by
  obtain ⟨buf, rfl⟩ := resolve_waiter_frame h
  refine ⟨⟨rfl, fun s => ?_⟩, rfl⟩
  by_cases hs : s = w.sect
  · subst hs
    exact ⟨buf, by simp⟩
  · exact ⟨(em.sect s).buf, by rw [em.set_sect_ne _ hs]⟩

theorem resolve_all_only_buffers {val : Int} {em em' : emitter} {ws : List label_waiter}
    (h : runAll (resolve_waiter val) em ws = .ok em') :
    OnlyBuffers em em' ∧ em'.labels = em.labels :=
  runAll_inv (I := fun em1 => OnlyBuffers em em1 ∧ em1.labels = em.labels)
    (fun _ _ _ h1 hstep =>
      have h2 := resolve_waiter_only_buffers hstep
      ⟨h1.1.trans h2.1, h2.2.trans h1.2⟩)
    ws em em' ⟨.refl em, rfl⟩ h

theorem OnlyBuffers.sound {em em' : emitter} (hb : OnlyBuffers em em') (h : em.Sound vaddr) :
    em'.Sound vaddr := by
  intro s
  obtain ⟨buf, he⟩ := hb.2 s
  obtain ⟨hok, hend, hv⟩ := h s
  rw [he]
  exact ⟨⟨hok.len_lt, hok.pos_eq, hok.offset_le⟩, hend, hv⟩

theorem label_add_only_buffers {em em' : emitter} {key : string} {res : Int}
    (h : emitter_label_add em key = .ok (res, em')) : OnlyBuffers em em' := by
  rcases hl : em.labels.lookup key with _ | ⟨ws, v⟩
  · rw [emitter_label_add_new hl] at h
    cases h
    exact .refl em
  · by_cases hv : 0 ≤ v
    · rw [emitter_label_add_defined hl hv] at h
      cases h
      exact .refl em
    · cases ws with
      | none =>
        simp only [emitter_label_add, cc_get_or_insert, hl, ne_eq, not_true_eq_false, if_false,
          if_neg hv] at h
        cases h
      | some ws =>
        rw [emitter_label_add_awaited hl (by omega)] at h
        obtain ⟨em1, hrun, h⟩ := bind_eq_ok.mp h
        cases h
        exact (resolve_all_only_buffers hrun).1

theorem label_get_sections {em em' : emitter} {key : string} {assign : assign_type} {v : Int}
    (h : emitter_label_get_or_add_waiter em key assign = .ok (v, em')) :
    em'.sect = em.sect ∧ em'.current_section = em.current_section := by
  unfold emitter_label_get_or_add_waiter at h
  simp only at h
  split at h
  · split at h
    · cases h
    · cases h
      exact ⟨rfl, rfl⟩
  · cases h
    exact ⟨rfl, rfl⟩

theorem emitter_reference_sections {em em' : emitter} {assign : assign_type} {instr w : BitVec 32}
    {key : string} (h : emitter_reference em assign instr key = .ok (w, em')) :
    em'.sect = em.sect ∧ em'.current_section = em.current_section := by
  obtain ⟨⟨lbval, em1⟩, h1, h⟩ := bind_eq_ok.mp h
  have hsect := label_get_sections h1
  simp only at h
  split at h <;> cases h <;> exact hsect

theorem Reading.Does.sound {r : Reading} {em em' : emitter} (hd : r.Does em em')
    (h : em.Sound vaddr) : em'.Sound vaddr := by
  cases r with
  | blank =>
    rw [Reading.Does] at hd
    rwa [hd]
  | refer assign instr key =>
    obtain ⟨⟨w, em1⟩, h1, h2⟩ := bind_eq_ok.mp hd
    obtain ⟨hsect, _⟩ := emitter_reference_sections h1
    have hsound : em1.Sound vaddr := by
      intro s
      rw [hsect]
      exact h s
    exact emitter_buffer.sound hsound h2
  | define key => exact (label_add_only_buffers hd).sound h
  | other =>
    induction hd with
    | refl => exact h
    | tail _ hw ih => exact hw.sound ih

theorem emitter.sound_fresh (text_vaddr data_vaddr : Nat) :
    (emitter.fresh text_vaddr data_vaddr).Sound fun
      | .SECT_TEXT => text_vaddr
      | .SECT_DATA => data_vaddr := by
  intro s
  cases s
  · exact ⟨Section.ok_fresh text_vaddr, Section.atEnd_fresh text_vaddr, rfl⟩
  · exact ⟨Section.ok_fresh data_vaddr, Section.atEnd_fresh data_vaddr, rfl⟩

/-- All calls from the first state keep the sections sound. -/
theorem Calls.sound {text_vaddr data_vaddr : Nat} {errno : Int}
    (h : Calls (.fresh errno text_vaddr data_vaddr) texts p) :
    p.em.Sound fun
      | .SECT_TEXT => text_vaddr
      | .SECT_DATA => data_vaddr :=
  h.keeps (fun _ _ _ hd hs => hd.sound hs) (emitter.sound_fresh text_vaddr data_vaddr)

theorem Assembles.sound {text_vaddr data_vaddr : Nat} {errno : Int}
    (h : Assembles (.fresh errno text_vaddr data_vaddr) texts p) :
    p.em.Sound fun
      | .SECT_TEXT => text_vaddr
      | .SECT_DATA => data_vaddr := h.calls.sound

end riscv_assembler
