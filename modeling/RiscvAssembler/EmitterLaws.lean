-- The laws of the whole emitter: what each function of `emitter.c` does to the
-- sections and to the label table, and the invariant of the counters over any
-- sequence of calls.
import RiscvAssembler.SectionLaws

open checked machine_int SparseFile

namespace riscv_assembler

/-! ## Sections of an emitter -/

@[simp] theorem emitter.set_sect_same (em : emitter) (s : Sect) (x : Section) :
    (em.set s x).sect s = x := by
  simp [emitter.set]

theorem emitter.set_sect_ne (em : emitter) {s t : Sect} (x : Section) (h : t ≠ s) :
    (em.set s x).sect t = em.sect t := by
  simp [emitter.set, h]

@[simp] theorem emitter.set_labels (em : emitter) (s : Sect) (x : Section) :
    (em.set s x).labels = em.labels := rfl

@[simp] theorem emitter.set_current (em : emitter) (s : Sect) (x : Section) :
    (em.set s x).current_section = em.current_section := rfl

/-- A property of each section holds after a change of one section when the new
value has it. -/
theorem emitter.forall_set {P : Sect → Section → Prop} {em : emitter} {s : Sect} {x : Section}
    (h : ∀ t, P t (em.sect t)) (hx : P s x) : ∀ t, P t ((em.set s x).sect t) := by
  intro t
  by_cases ht : t = s
  · subst ht
    simpa using hx
  · rw [em.set_sect_ne x ht]
    exact h t

/-! ## The label table, case by case -/

theorem cc_size_insert {m : label_map} {key : string} {e : label} (h : m.lookup key = none) :
    cc_size (m.insert key e) = cc_size m + 1 := by
  rw [cc_size, AList.insert_of_notMem (AList.lookup_eq_none.mp h)]
  simp [cc_size, AList.keys]

/-- A label that was never seen gets its value. -/
theorem emitter_label_add_new {em : emitter} {key : string} (h : em.labels.lookup key = none) :
    emitter_label_add em key = .ok (0, { em with
      labels := em.labels.insert key ⟨none, toS 64 (em.cur.pos + em.cur.vaddr)⟩ }) := by
  have hsz := cc_size_insert (e := ⟨none, toS 64 (em.cur.pos + em.cur.vaddr)⟩) h
  simp only [emitter_label_add, cc_get_or_insert, h]
  rw [if_pos (by omega)]

theorem emitter_label_add_defined {em : emitter} {key : string} {e : label}
    (h : em.labels.lookup key = some e) (hv : 0 ≤ e.val) :
    emitter_label_add em key = .ok (-1, em) := by
  simp only [emitter_label_add, cc_get_or_insert, h, ne_eq, not_true_eq_false, if_false,
    if_pos hv]

/-- A label with waiters: each waiter gets the value, and the entry keeps its
negative one. -/
theorem emitter_label_add_awaited {em : emitter} {key : string} {ws : List label_waiter} {v : Int}
    (h : em.labels.lookup key = some ⟨some ws, v⟩) (hv : v < 0) :
    emitter_label_add em key = (do
      let em ← runAll (resolve_waiter (toS 64 (em.cur.pos + em.cur.vaddr))) em ws
      .ok (0, { em with labels := em.labels.insert key ⟨some [], v⟩ })) := by
  simp only [emitter_label_add, cc_get_or_insert, h, ne_eq, not_true_eq_false, if_false,
    if_neg (Int.not_le.mpr hv)]

/-- The waiter for the instruction that comes next. -/
def emitter.waiter (em : emitter) (assign : assign_type) : label_waiter :=
  ⟨toS 64 em.cur.pos, em.current_section, assign⟩

theorem emitter.waiter_fix_idx (em : emitter) (assign : assign_type) :
    (em.waiter assign).fix_idx = toS 64 em.cur.pos := rfl

theorem label_get_new {em : emitter} {key : string} (assign : assign_type)
    (h : em.labels.lookup key = none) :
    emitter_label_get_or_add_waiter em key assign = .ok (-1, { em with
      labels := em.labels.insert key ⟨some [em.waiter assign], -1⟩ }) := by
  simp only [emitter_label_get_or_add_waiter, cc_get_or_insert, h]
  rw [if_pos (by decide), AList.insert_insert]
  rfl

theorem label_get_defined {em : emitter} {key : string} {e : label} (assign : assign_type)
    (h : em.labels.lookup key = some e) (hv : 0 ≤ e.val) :
    emitter_label_get_or_add_waiter em key assign = .ok (e.val, em) := by
  simp only [emitter_label_get_or_add_waiter, cc_get_or_insert, h,
    if_neg (Int.not_lt.mpr hv)]

theorem label_get_awaited {em : emitter} {key : string} {ws : List label_waiter} {v : Int}
    (assign : assign_type) (h : em.labels.lookup key = some ⟨some ws, v⟩) (hv : v < 0) :
    emitter_label_get_or_add_waiter em key assign = .ok (-1, { em with
      labels := em.labels.insert key ⟨some (ws ++ [em.waiter assign]), v⟩ }) := by
  simp only [emitter_label_get_or_add_waiter, cc_get_or_insert, h, if_pos hv]
  rfl

/-! ## One waiter -/

/-- The word that a waiter gets: the immediate of the displacement goes into
the word that stands there. -/
def label_waiter.patched (w : label_waiter) (val : Int) (vaddr : Nat) (word : List UInt8) :
    BitVec 32 :=
  w.assign.set_imm (instr_of word) (BitVec.ofInt 32 (val - (w.fix_idx + vaddr)))

/-- The section after the word at index `i` of its buffer is patched. -/
def Section.patch (s : Section) (i : Nat) (instr : BitVec 32) (h : i + 4 ≤ BUF_SIZE) : Section :=
  { s with buf := s.buf.put i (instr_bytes instr) (by simpa [instr_bytes] using h) }

@[simp] theorem Section.patch_counts (s : Section) (i : Nat) (instr : BitVec 32)
    (h : i + 4 ≤ BUF_SIZE) : (s.patch i instr h).vaddr = s.vaddr ∧ (s.patch i instr h).len = s.len ∧
      (s.patch i instr h).pos = s.pos ∧ (s.patch i instr h).swap = s.swap := ⟨rfl, rfl, rfl, rfl⟩

theorem Section.Ok.patch {s : Section} (hs : s.Ok) (i : Nat) (instr : BitVec 32)
    (h : i + 4 ≤ BUF_SIZE) : (s.patch i instr h).Ok :=
  ⟨hs.len_lt, hs.pos_eq, hs.offset_le⟩

theorem resolve_waiter_eq {val : Int} {em : emitter} {w : label_waiter} {k : Nat}
    (hk : w.fix_idx = k) (hlen : (em.sect w.sect).len ≤ BUF_SIZE)
    (hpos : (em.sect w.sect).pos < 2 ^ 63)
    (hlo : (em.sect w.sect).pos ≤ (em.sect w.sect).len + k)
    (hhi : k + 4 ≤ (em.sect w.sect).pos)
    (hfit : (em.sect w.sect).len + k - (em.sect w.sect).pos + 4 ≤ BUF_SIZE) :
    resolve_waiter val em w = .ok (em.set w.sect
      ((em.sect w.sect).patch ((em.sect w.sect).len + k - (em.sect w.sect).pos)
        (w.patched val (em.sect w.sect).vaddr
          ((em.sect w.sect).buf.slice ((em.sect w.sect).len + k - (em.sect w.sect).pos) 4))
        hfit)) := by
  have hb : BUF_SIZE = 4096 := rfl
  have hl : toS 64 ((em.sect w.sect).len : Int) = (em.sect w.sect).len :=
    toS64_of_lt (by omega)
  have hp : toS 64 ((em.sect w.sect).pos : Int) = (em.sect w.sect).pos := toS64_of_lt hpos
  have htarget : ((em.sect w.sect).len - ((em.sect w.sect).pos - w.fix_idx) : Int).toNat =
      (em.sect w.sect).len + k - (em.sect w.sect).pos := by omega
  unfold resolve_waiter
  simp only [hl, hp, htarget, ofInt_toS_of_le (show 32 ≤ 64 by decide)]
  rw [if_neg (by omega), if_neg (by omega), FixedBuffer.copyOut_of_le hfit, ok_bind,
    FixedBuffer.copyIn_of_le (by simpa [instr_bytes] using hfit), ok_bind]
  rfl

/-- A waiter that cannot be patched stops the run before any write. -/
theorem resolve_waiter_error (val : Int) {em : emitter} {w : label_waiter} {k : Nat}
    (hk : w.fix_idx = k) (hlen : (em.sect w.sect).len < 2 ^ 63)
    (hpos : (em.sect w.sect).pos < 2 ^ 63)
    (hout : ¬ ((em.sect w.sect).pos ≤ (em.sect w.sect).len + k ∧ k + 4 ≤ (em.sect w.sect).pos)) :
    ∃ e, resolve_waiter val em w = .error e ∧ (e = .panic "unimplimented" ∨ e = .assertion) := by
  have hl : toS 64 ((em.sect w.sect).len : Int) = (em.sect w.sect).len := toS64_of_lt hlen
  have hp : toS 64 ((em.sect w.sect).pos : Int) = (em.sect w.sect).pos := toS64_of_lt hpos
  unfold resolve_waiter
  simp only [hl, hp]
  by_cases hlo : (em.sect w.sect).pos ≤ (em.sect w.sect).len + k
  · rw [if_neg (by omega), if_pos (by omega)]
    exact ⟨_, rfl, Or.inr rfl⟩
  · rw [if_pos (by omega)]
    exact ⟨_, rfl, Or.inl rfl⟩

/-! ## The invariant over any sequence of calls -/

/-- A call of a function that writes to the emitter. -/
inductive Call
  | buffer (data : List UInt8)
  | advance (n : UInt64)
  | switch (s : Sect)
  | define (key : string)
  | reference (key : string) (assign : assign_type)

/-- The number of bytes that a call adds to a section. -/
def Call.size : Call → Nat
  | .buffer data => data.length
  | .advance n => n.toNat
  | _ => 0

def Call.step (em : emitter) : Call → Result emitter
  | .buffer data => emitter_buffer em data
  | .advance n => emitter_advance em n.toNat
  | .switch s => .ok { em with current_section := s }
  | .define key => do
    let (_, em) ← emitter_label_add em key
    .ok em
  | .reference key assign => do
    let (_, em) ← emitter_label_get_or_add_waiter em key assign
    .ok em

/-- A label of the table has a value, or its waiters stand for offsets. -/
def label.Ok (e : label) : Prop :=
  0 ≤ e.val ∨ ∃ ws, e.waiters = some ws ∧ ∀ w ∈ ws, ∃ k : Nat, w.fix_idx = k

def LabelsOk (m : label_map) : Prop := ∀ key e, m.lookup key = some e → e.Ok

theorem labelsOk_insert {m : label_map} {key : string} {e : label} (h : LabelsOk m) (he : e.Ok) :
    LabelsOk (m.insert key e) := by
  intro k e' hk
  by_cases hkk : k = key
  · subst hkk
    rw [AList.lookup_insert] at hk
    cases hk
    exact he
  · rw [AList.lookup_insert_ne hkk] at hk
    exact h k e' hk

/-- A section that has room for `room` more bytes below the sign bit of an
address. -/
structure Section.HasRoom (room : Nat) (s : Section) : Prop where
  ok : s.Ok
  addr_lt : s.vaddr + s.pos + room < 2 ^ 63

theorem Section.HasRoom.patch {room : Nat} {s : Section} (hs : s.HasRoom room) (i : Nat)
    (instr : BitVec 32) (h : i + 4 ≤ BUF_SIZE) : (s.patch i instr h).HasRoom room :=
  ⟨hs.ok.patch i instr h, by simpa using hs.addr_lt⟩

/-- The state between two calls, when `room` bytes are still to come. -/
structure emitter.Ok (room : Nat) (em : emitter) : Prop where
  sections : ∀ s, (em.sect s).HasRoom room
  labels : LabelsOk em.labels

/-- The two ways in which a call stops the program. -/
def Stops (e : Fault) : Prop := e = .panic "unimplimented" ∨ e = .assertion

theorem emitter.Ok.setCur {room room' : Nat} {em : emitter} {x : Section} (h : em.Ok room)
    (hroom : room' ≤ room) (hx : x.HasRoom room') : (em.setCur x).Ok room' := by
  refine ⟨em.forall_set (P := fun _ y => y.HasRoom room') ?_ hx, h.labels⟩
  intro t
  obtain ⟨hok, hlt⟩ := h.sections t
  exact ⟨hok, by omega⟩

/-- The section that is written to has the room that the emitter has. -/
theorem emitter.Ok.cur {room : Nat} {em : emitter} (h : em.Ok room) : em.cur.HasRoom room :=
  h.sections em.current_section

theorem emitter.Ok.toS_pos {room : Nat} {em : emitter} (h : em.Ok room) :
    toS 64 em.cur.pos = em.cur.pos := by
  have := h.cur.addr_lt
  exact toS64_of_lt (by omega)

/-- An address of the section that is written to is not negative. -/
theorem emitter.Ok.toS_addr {room : Nat} {em : emitter} (h : em.Ok room) :
    toS 64 (em.cur.pos + em.cur.vaddr) = em.cur.pos + em.cur.vaddr := by
  have := h.cur.addr_lt
  exact_mod_cast toS64_of_lt (n := em.cur.pos + em.cur.vaddr) (by omega)

theorem buffer_keeps_ok (room : Nat) (em : emitter) (data : List UInt8)
    (h : em.Ok (data.length + room)) : Meets (emitter_buffer em data) (emitter.Ok room) Stops := by
  obtain ⟨hok, hlt⟩ := h.cur
  refine Meets.bind (Q := fun s => (em.setCur s).Ok room) ?_ fun s hs => hs
  refine (emitter_buffer_loop.spec em.cur data hok).mono ?_ ?_
  · rintro s ⟨hs, hv, _, hin, hout⟩
    have hp : s.pos ≤ em.cur.pos + data.length := by
      by_cases hfit : em.cur.len + data.length < BUF_SIZE
      · exact Nat.le_of_eq (hin hfit).2.1
      · exact Nat.le_of_lt (hout (by omega))
    exact h.setCur (by omega) ⟨hs, by rw [hv]; omega⟩
  · rintro e ⟨_, hfull⟩
    omega

theorem advance_keeps_ok (room : Nat) (em : emitter) (n : UInt64)
    (h : em.Ok (n.toNat + room)) : Meets (emitter_advance em n.toNat) (emitter.Ok room) Stops := by
  obtain ⟨hok, hlt⟩ := h.cur
  refine Meets.bind (Q := fun s => (em.setCur s).Ok room) ?_ fun s hs => hs
  refine (section_advance.spec em.cur n.toNat hok (by omega)).mono ?_ ?_
  · rintro s ⟨hs, hv, hp, _⟩
    exact h.setCur (by omega) ⟨hs, by rw [hv, hp]; omega⟩
  · rintro e ⟨_, hfull⟩
    omega

/-- A patch changes bytes of one buffer below its fill, and nothing else. -/
theorem resolve_waiter_keeps_ok (val : Int) (room : Nat) (em : emitter) (w : label_waiter)
    (h : em.Ok room) (hw : ∃ k : Nat, w.fix_idx = k) :
    Meets (resolve_waiter val em w) (emitter.Ok room) Stops := by
  have hb : BUF_SIZE = 4096 := rfl
  obtain ⟨k, hk⟩ := hw
  obtain ⟨hok, hlt⟩ := h.sections w.sect
  have h1 := hok.len_lt
  by_cases hin : (em.sect w.sect).pos ≤ (em.sect w.sect).len + k ∧ k + 4 ≤ (em.sect w.sect).pos
  · rw [resolve_waiter_eq hk (by omega) (by omega) hin.1 hin.2 (by omega), meets_ok]
    exact ⟨em.forall_set (P := fun _ y => y.HasRoom room) h.sections
      ((h.sections w.sect).patch _ _ _), h.labels⟩
  · obtain ⟨e, he, hstop⟩ := resolve_waiter_error val hk (by omega) (by omega) hin
    rw [he]
    exact hstop

theorem label_add_keeps_ok (room : Nat) (em : emitter) (key : string) (h : em.Ok room) :
    Meets (emitter_label_add em key) (fun r => r.2.Ok room) Stops := by
  rcases hl : em.labels.lookup key with _ | ⟨ws, v⟩
  · rw [emitter_label_add_new hl, h.toS_addr, meets_ok]
    exact ⟨h.sections, labelsOk_insert h.labels (Or.inl (by simp only; omega))⟩
  · by_cases hv : 0 ≤ v
    · rw [emitter_label_add_defined hl hv, meets_ok]
      exact h
    · obtain hv' | ⟨ws, rfl, hk⟩ := h.labels key _ hl
      · exact absurd hv' hv
      rw [emitter_label_add_awaited hl (by omega)]
      refine Meets.bind (Q := emitter.Ok room) ?_ fun em' hem' => ?_
      · exact runAll_keeps ws (fun w hw em' hem' =>
          resolve_waiter_keeps_ok _ room em' w hem' (hk w hw)) em h
      · exact ⟨hem'.sections, labelsOk_insert hem'.labels (Or.inr ⟨[], rfl, by simp⟩)⟩

theorem label_get_keeps_ok (room : Nat) (em : emitter) (key : string) (assign : assign_type)
    (h : em.Ok room) :
    Meets (emitter_label_get_or_add_waiter em key assign) (fun r => r.2.Ok room) Stops := by
  have hw : ∃ k : Nat, (em.waiter assign).fix_idx = k :=
    ⟨em.cur.pos, by rw [em.waiter_fix_idx assign, h.toS_pos]⟩
  rcases hl : em.labels.lookup key with _ | ⟨ws, v⟩
  · rw [label_get_new assign hl, meets_ok]
    refine ⟨h.sections, labelsOk_insert h.labels (Or.inr ⟨_, rfl, ?_⟩)⟩
    simpa using hw
  · by_cases hv : 0 ≤ v
    · rw [label_get_defined assign hl hv, meets_ok]
      exact h
    · obtain hv' | ⟨ws, rfl, hk⟩ := h.labels key _ hl
      · exact absurd hv' hv
      rw [label_get_awaited assign hl (by omega), meets_ok]
      refine ⟨h.sections, labelsOk_insert h.labels (Or.inr ⟨_, rfl, ?_⟩)⟩
      intro w hmem
      rcases List.mem_append.mp hmem with hmem | hmem
      · exact hk w hmem
      · rw [List.mem_singleton.mp hmem]
        exact hw

theorem Call.step_keeps_ok (room : Nat) (em : emitter) (c : Call) (h : em.Ok (c.size + room)) :
    Meets (c.step em) (emitter.Ok room) Stops := by
  rcases c with data | n | s | key | ⟨key, assign⟩
  · exact buffer_keeps_ok room em data h
  · exact advance_keeps_ok room em n h
  · simp only [Call.size, Nat.zero_add] at h
    exact ⟨h.sections, h.labels⟩
  · simp only [Call.size, Nat.zero_add] at h
    exact (label_add_keeps_ok room em key h).bind fun r hr => hr
  · simp only [Call.size, Nat.zero_add] at h
    exact (label_get_keeps_ok room em key assign h).bind fun r hr => hr

/-- How one section represents the bytes that were written to it. -/
structure Section.Represents (s : Section) : Prop where
  len_lt : s.len < BUF_SIZE
  len_le : s.len ≤ s.pos
  offset : s.pos - s.len = s.swap.offset
  bytes : ∀ i < s.len, s.image[s.pos - s.len + i]? = s.buf.bytes[i]?

theorem Section.Ok.represents {s : Section} (h : s.Ok) : s.Represents := by
  have h2 := h.pos_eq
  exact ⟨h.len_lt, by omega, by omega, fun i hi => h.image_getElem? hi⟩

theorem emitter.ok_fresh (tv dv n : Nat) (h1 : tv + n < 2 ^ 63) (h2 : dv + n < 2 ^ 63) :
    (emitter.fresh tv dv).Ok n := by
  refine ⟨fun s => ?_, fun key e hk => by cases hk⟩
  cases s
  · exact ⟨Section.ok_fresh tv, h1⟩
  · exact ⟨Section.ok_fresh dv, h2⟩

/-- After each call of any sequence, every section keeps its representation.
The sequence can stop only at the unimplemented patch of the swap file or at
the assert before a patch: no copy, no zeroing and no patch leaves the buffer. -/
theorem every_section_keeps_its_representation (tv dv : Nat) (calls : List Call)
    (htext : tv + (calls.map Call.size).sum < 2 ^ 63)
    (hdata : dv + (calls.map Call.size).sum < 2 ^ 63) :
    ∀ before, before <+: calls →
      Meets (runAll Call.step (emitter.fresh tv dv) before)
        (fun em => ∀ s, (em.sect s).Represents) Stops := by
  rintro before ⟨after, rfl⟩
  rw [List.map_append, List.sum_append] at htext hdata
  refine Meets.mono (runAll_meets (p := Call.size) (I := emitter.Ok) before
    (fun c _ n em hem => c.step_keeps_ok n em hem) 0 _ ?_) ?_ fun e he => he
  · exact emitter.ok_fresh tv dv _ (by omega) (by omega)
  · intro em hem s
    exact (hem.sections s).ok.represents

/-- A jump to a label that comes later, a gap in the other section that passes
the end of the buffer, then the label. -/
theorem a_patched_jump_keeps_its_representation :
    ∃ em, runAll Call.step (emitter.fresh 0x400000 0x10010000)
        [.reference [76] .ASSIGN_JTYPE, .buffer [0x6f, 0, 0, 0], .switch .SECT_DATA,
          .advance 5000, .switch .SECT_TEXT, .define [76]] = .ok em ∧
      ∀ s, (em.sect s).Represents := by
  have hok : (runAll Call.step (emitter.fresh 0x400000 0x10010000)
      [.reference [76] .ASSIGN_JTYPE, .buffer [0x6f, 0, 0, 0], .switch .SECT_DATA,
        .advance 5000, .switch .SECT_TEXT, .define [76]]).toBool = true := by decide +kernel
  have hrep := every_section_keeps_its_representation 0x400000 0x10010000
    [.reference [76] .ASSIGN_JTYPE, .buffer [0x6f, 0, 0, 0], .switch .SECT_DATA,
      .advance 5000, .switch .SECT_TEXT, .define [76]] (by decide) (by decide) _ List.prefix_rfl
  obtain ⟨em, hrun⟩ := ok_of_toBool hok
  exact ⟨em, hrun, hrep.of_ok hrun⟩

end riscv_assembler
