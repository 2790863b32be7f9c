-- The definition of a label that is awaited: each waiting word becomes what
-- `parse_line` writes for a known label, nothing else in the sections changes,
-- and no word is patched by two definitions.
import RiscvAssembler.Resolution

open checked machine_int c_text

namespace riscv_assembler

variable {p p' q : Process} {texts : List (List UInt8)} {key : string} {vaddr : Sect → Nat}

/-! ## Bytes of waiters -/

/-- The waiter's word has the byte of the section. -/
def label_waiter.Covers (w : label_waiter) (s : Sect) (i : Nat) : Prop :=
  w.sect = s ∧ w.fix_idx ≤ i ∧ (i : Int) < w.fix_idx + 4

/-- The four bytes at the waiter's index. -/
def label_waiter.word (w : label_waiter) (em : emitter) : List UInt8 :=
  (em.sect w.sect).buf.slice w.fix_idx.toNat 4

/-- The byte of a section's buffer. -/
def emitter.byte (em : emitter) (s : Sect) (i : Nat) : Option UInt8 := (em.sect s).buf.bytes[i]?

theorem emitter.byte_eq_slice (em : emitter) (s : Sect) (i : Nat) :
    em.byte s i = ((em.sect s).buf.slice i 1)[0]? := by
  rw [FixedBuffer.getElem?_slice, if_pos (by decide)]
  rfl

/-- In sections that fit, a waiter has the offset of its instruction. -/
theorem Ref.Inside.fix_idx {r : Ref} {em : emitter} (h : r.Inside em) (hs : em.Small) :
    r.waiter.fix_idx = r.off := by
  have hb : BUF_SIZE = 4096 := rfl
  have hpos := (hs r.sect).1.pos_lt
  have hoff := h.off_le
  exact toS64_of_lt (by omega)

theorem Ref.Inside.word_eq {r : Ref} {em : emitter} (h : r.Inside em) (hs : em.Small)
    (em' : emitter) : r.waiter.word em' = em'.wordAt r := by
  unfold label_waiter.word
  rw [h.fix_idx hs]
  rfl

theorem Ref.Inside.beside {r : Ref} {em : emitter} (h : r.Inside em) (hs : em.Small) {s : Sect}
    {i : Nat} (hc : ¬ r.waiter.Covers s i) : r.Beside s i 1 := by
  rintro rfl
  unfold label_waiter.Covers at hc
  rw [h.fix_idx hs] at hc
  by_contra hno
  exact hc ⟨rfl, by omega, by omega⟩

/-! ## A line whose label is known -/

/-- The state with a value for the label, as a definition that was not awaited
leaves it. -/
def Process.withLabel (p : Process) (key : string) (val : Int) : Process :=
  { p with em := { p.em with labels := p.em.labels.insert key ⟨none, val⟩ } }

/-- The ledger with a value for the key. -/
def withKnown (B : Book) (key : string) (val : Int) : Book :=
  { B with known := Function.update B.known key (some val) }

theorem Tracks.withLabel {B : Book} (h : Tracks B p.em) (key : string) (val : Int) :
    Tracks (withKnown B key val) (p.withLabel key val).em := by
  intro k
  by_cases hk : k = key
  · subst hk
    rw [labelOf_known (B := withKnown B k val) (v := val) (by simp [withKnown])]
    exact AList.lookup_insert _
  · have hsame : labelOf (withKnown B key val) k = labelOf B k :=
      labelOf_congr (Function.update_of_ne hk _ _) Iff.rfl rfl
    rw [hsame, ← h k]
    exact AList.lookup_insert_ne hk

/-- Room for one more instruction in a section. -/
def Section.Room (s : Section) : Prop := s.pos + 4 < BUF_SIZE ∧ s.vaddr + s.pos + 4 < 2 ^ 63

/-- The instruction of a known label is written where there is room for it. -/
theorem emitter_refer_known {em : emitter} {e : label} (assign : assign_type)
    (instr : BitVec 32) (hl : em.labels.lookup key = some e) (hv : 0 ≤ e.val) (hs : em.Small)
    (hok : em.cur.Ok) (hroom : em.cur.Room) :
    ∃ em', emitter_refer em assign instr key = .ok em' ∧ em'.Small ∧
      (em'.sect em.current_section).pos = em.cur.pos + 4 := by
  have hb : BUF_SIZE = 4096 := rfl
  obtain ⟨hfit, haddr⟩ := hroom
  have hlen : em.cur.len = em.cur.pos := (hs em.current_section).1.len_eq hok
  unfold emitter_refer emitter_reference
  rw [label_get_defined assign hl hv]
  simp only [ok_bind, if_neg (Int.not_lt.mpr hv)]
  generalize assign.set_imm instr _ = w
  have hdata : em.cur.len + (instr_bytes w).length < BUF_SIZE := by
    rw [length_instr_bytes, hlen]
    exact hfit
  have hpos : toU 64 ((em.cur.pos : Int) + ((instr_bytes w).length : Nat)) = em.cur.pos + 4 := by
    rw [length_instr_bytes]
    exact toU_of_lt (n := em.cur.pos + 4) (by omega)
  unfold emitter_buffer
  rw [emitter_buffer_loop_fits em.cur em.cur.len _ hdata, ok_bind]
  refine ⟨_, rfl, ?_, ?_⟩
  · intro s
    by_cases hcur : s = em.current_section
    · subst hcur
      rw [emitter.setCur, emitter.set_sect_same]
      simp only [hpos]
      exact ⟨⟨hfit, (hs em.current_section).1.offset_zero⟩, by omega⟩
    · rw [emitter.setCur, em.set_sect_ne _ hcur]
      exact hs s
  · rw [emitter.setCur, emitter.set_sect_same]
    exact hpos

/-! ## Waiters of a run -/

/-- The instruction of the waiter is from one of the calls. Had the label been known
there, the call would have given the same answer and written the word that `em`
has. -/
def WrittenAsKnown (p : Process) (texts : List (List UInt8)) (key : string) (val : Int)
    (w : label_waiter) (em : emitter) : Prop :=
  ∃ i text q assign instr res q1 q', texts[i]? = some text ∧ Calls p (texts.take i) q ∧
    reading text = some (.refer assign instr key) ∧ w = q.em.waiter assign ∧
    parse_line text q = .ok (res, q1) ∧ parse_line text (q.withLabel key val) = .ok (res, q') ∧
    w.fix_idx = q.em.cur.pos ∧ (q'.em.sect w.sect).pos = q.em.cur.pos + 4 ∧
    w.word em = w.word q'.em

/-- After calls whose sections fit, the word of a reference with a value is what
`parse_line` writes for a label that is known. -/
theorem written_as_known (h : Calls p texts p') {B : Book} (ht : Tracks B p.em)
    (hsound : p.em.Sound vaddr) (hs : p'.em.Small) {i : Nat} {text : List UInt8}
    (hti : texts[i]? = some text) (hq : Calls p (texts.take i) q) {assign : assign_type}
    {instr : BitVec 32} (hname : reading text = some (.refer assign instr key)) {val : Int}
    (hv : 0 ≤ val) {em : emitter} (hword : em.wordAt (q.em.ref assign instr) =
      instr_bytes ((q.em.ref assign instr).word (some val))) :
    WrittenAsKnown p texts key val (q.em.waiter assign) em := by
  obtain ⟨q1, hcall, hrun⟩ := call_of_run h hti hq
  obtain ⟨res, hline⟩ := parse_call_ok.mp hcall
  have hsoundq : q.em.Sound vaddr := hq.keeps (fun _ _ _ hd hsound => hd.sound hsound) hsound
  have hsmall := h.small_before hsound hs hq
  have hdoes := parse_call_does hcall
  have hsmall1 := hrun.small (hdoes.sound hsoundq) hs
  rw [hname] at hdoes
  -- the call returned, so there is room for its instruction
  obtain ⟨hext, hin, _⟩ := emitter_refer_word (hq.tracks ht) hsoundq hsmall1 hdoes
  have hroom : q.em.cur.Room := by
    obtain ⟨hun, haddr⟩ := hsmall1 q.em.current_section
    have hpos := hun.pos_lt
    have hoff := hin.off_le
    have hvaddr := (hext q.em.current_section).vaddr_eq
    simp only [emitter.ref] at hoff
    unfold Section.Room emitter.cur at *
    omega
  have hlookup : (q.withLabel key val).em.labels.lookup key = some ⟨none, val⟩ :=
    AList.lookup_insert _
  have hok := (hsoundq q.em.current_section).1
  obtain ⟨em2, hem2, hsmall2, hpos2⟩ : ∃ em2,
      emitter_refer (q.withLabel key val).em assign instr key = .ok em2 ∧ em2.Small ∧
        (em2.sect q.em.current_section).pos = q.em.cur.pos + 4 :=
    emitter_refer_known assign instr hlookup hv hsmall hok hroom
  obtain ⟨_, hin2, hword2⟩ := emitter_refer_word ((hq.tracks ht).withLabel key val)
    (show (q.withLabel key val).em.Sound vaddr from hsoundq) hsmall2 hem2
  have hknown : (withKnown (B.run (moves p (texts.take i))) key val).known key = some val := by
    simp [withKnown]
  rw [hknown] at hword2
  obtain ⟨mid, heq⟩ := parse_line_refer_eq hname
  have hend := hline
  rw [heq] at hend
  obtain ⟨em1, _, hend⟩ := bind_eq_ok.mp hend
  have hparse := heq (q.withLabel key val)
  rw [hem2, ok_bind, (out_check_line.inert _ _ _ _ hend).2] at hparse
  have hidx : (q.em.ref assign instr).waiter.fix_idx = q.em.cur.pos := hin.fix_idx hsmall1
  have hword1 := hin.word_eq hsmall1 em
  have hword3 := hin.word_eq hsmall1 em2
  refine ⟨i, text, q, assign, instr, res, q1, _, hti, hq, hname, rfl, hline, hparse, hidx, hpos2, ?_⟩
  exact (hword1.trans hword).trans (hword3.trans hword2).symm

/-- The waiters in the table are the instructions that wait in the ledger. -/
theorem Tracks.waiters {B : Book} {em : emitter} (h : Tracks B em) {ws : List label_waiter} {v : Int}
    (hl : em.labels.lookup key = some ⟨some ws, v⟩) : ws = (awaiting B key).map Ref.waiter := by
  have hkey := h key
  rw [hl] at hkey
  unfold labelOf at hkey
  rw [waiters_eq_awaiting] at hkey
  split at hkey
  · cases hkey
  · split at hkey
    · cases hkey
      rfl
    · cases hkey

/-- A label with waiters has no address. -/
theorem Tracks.known_none {B : Book} {em : emitter} (h : Tracks B em) {ws : List label_waiter}
    {v : Int} (hl : em.labels.lookup key = some ⟨some ws, v⟩) : B.known key = none := by
  have hkey := h key
  rw [hl] at hkey
  rcases hknown : B.known key with _ | v'
  · rfl
  · rw [labelOf_known hknown] at hkey
    cases hkey

theorem Tracks.knows {B : Book} {em : emitter} (h : Tracks B em) (hk : B.known key = none) :
    em.knows key = false := by
  unfold emitter.knows emitter.value
  rw [h key]
  by_cases hn : B.Named key
  · rw [labelOf_named hk hn]
    rfl
  · rw [labelOf_absent hk hn]
    rfl

/-- What waits was made to wait by one of the calls. -/
theorem call_of_awaiting (h : Calls p texts p') {r : Ref}
    (hr : r ∈ awaiting (bookOf p texts) key) :
    ∃ i text q assign instr, texts[i]? = some text ∧ Calls p (texts.take i) q ∧
      reading text = some (.refer assign instr key) ∧ r = q.em.ref assign instr := by
  obtain ⟨e, he, hw, rfl⟩ := mem_awaiting.mp hr
  have hkey : e.key = key := by
    simp only [Ledger.Waits, decide_eq_true_eq] at hw
    exact hw.1
  obtain ⟨i, text, q, ht, hq, hmq⟩ := mem_moves h (hkey ▸ Ledger.refer_of_mem_run he)
  obtain ⟨assign, instr, hname, href⟩ := refer_mem_effect hmq
  exact ⟨i, text, q, assign, instr, ht, hq, hname, href⟩

/-- What waits at a definition never waits again, so it shares no byte with
what waits later. -/
theorem awaiting_apart (h : Calls p texts p') (hw : Written (bookOf p texts) p'.em) {j : Nat}
    {text : List UInt8} {key' : string} (ht : texts[j]? = some text)
    (hq : Calls p (texts.take j) q) (hdef : reading text = some (.define key'))
    (hknows : q.em.knows key' = false) {r r' : Ref}
    (hr' : r' ∈ awaiting (bookOf p (texts.take j)) key') (hr : r ∈ awaiting (bookOf p texts) key) :
    r'.Apart r := by
  obtain ⟨e', he', hw', rfl⟩ := mem_awaiting.mp hr'
  obtain ⟨e, he, hwait, rfl⟩ := mem_awaiting.mp hr
  simp only [Ledger.Waits, decide_eq_true_eq, Option.isNone_iff_eq_none] at hw' hwait
  obtain ⟨rfl, hnone⟩ := hw'
  obtain ⟨q1, _, _, hmoves⟩ := moves_split h ht hq
  rw [hdef, effect_define hknows] at hmoves
  have hsettled : { e' with val := some q.em.addr } ∈ (bookOf p texts).entries := by
    unfold bookOf
    rw [hmoves, Ledger.run_append]
    exact Ledger.settled_run (Ledger.defined_step he' hnone q.em.addr) rfl _
  have hne : { e' with val := some q.em.addr } ≠ e := by
    intro hc
    rw [← hc] at hwait
    cases hwait.2
  have : Std.Symm fun e e' : LedgerEntry string Ref Int => e.ref.Apart e'.ref :=
    ⟨fun _ _ ha => ha.symm⟩
  exact hw.apart.forall hsettled he hne

/-! ## Definitions -/

/-- The counters and the swap files are the same, and so is every byte that no
waiter covers. -/
def UndisturbedBut (ws : List label_waiter) (em em' : emitter) : Prop :=
  ∀ s, ((em'.sect s).vaddr = (em.sect s).vaddr ∧ (em'.sect s).len = (em.sect s).len ∧
      (em'.sect s).pos = (em.sect s).pos ∧ (em'.sect s).swap = (em.sect s).swap) ∧
    ∀ i, (∀ w ∈ ws, ¬ w.Covers s i) → em'.byte s i = em.byte s i

/-- No definition among the calls had a waiter with a byte of this one. -/
def NotPatchedBy (p : Process) (texts : List (List UInt8)) (w : label_waiter) : Prop :=
  ∀ j text q key ws v, texts[j]? = some text → Calls p (texts.take j) q →
    reading text = some (.define key) → q.em.labels.lookup key = some ⟨some ws, v⟩ →
    ∀ w' ∈ ws, ∀ s i, ¬ (w'.Covers s i ∧ w.Covers s i)

theorem Ref.Apart.covers {r r' : Ref} {em em' : emitter} (h : r'.Apart r) (hr : r.Inside em)
    (hs : em.Small) (hr' : r'.Inside em') (hs' : em'.Small) (s : Sect) (i : Nat) :
    ¬ (r'.waiter.Covers s i ∧ r.waiter.Covers s i) := by
  unfold label_waiter.Covers
  rw [hr.fix_idx hs, hr'.fix_idx hs']
  rintro ⟨⟨rfl, h1, h2⟩, h3, h4, h5⟩
  have := h h3
  omega

/-- After any calls of `parse_line`, a definition that succeeds turns each waiting word
into the one that `parse_line` writes for a known label, disturbs nothing else, and
patches no word that a definition before it patched. -/
theorem a_definition_patches_exactly_the_words_that_wait (errno : Int)
    (text_vaddr data_vaddr : Nat) (texts : List (List UInt8)) (p : Process)
    (h : Calls (.fresh errno text_vaddr data_vaddr) texts p) (hs : p.em.Small) (key : string)
    (em : emitter) (hdef : emitter_label_add p.em key = .ok (0, em)) (ws : List label_waiter)
    (v : Int) (hws : p.em.labels.lookup key = some ⟨some ws, v⟩) :
    (∀ w ∈ ws, WrittenAsKnown (.fresh errno text_vaddr data_vaddr) texts key p.em.addr w em) ∧
      UndisturbedBut ws p.em em ∧
      ∀ w ∈ ws, NotPatchedBy (.fresh errno text_vaddr data_vaddr) texts w := by
  have hfresh := emitter.sound_fresh text_vaddr data_vaddr
  have htracks := h.tracks_book
  have hwritten := h.written_book hs
  obtain ⟨hdone, hframe⟩ := label_add_words htracks h.sound hs hwritten hdef
  have hbuf := label_add_only_buffers hdef
  have hinside : ∀ r ∈ awaiting (bookOf (.fresh errno text_vaddr data_vaddr) texts) key,
      r.Inside p.em := fun r hr => ((hwritten.awaiting key).1 r hr).1
  have hpos : 0 ≤ p.em.addr := by
    rw [hs.addr]
    exact Int.natCast_nonneg _
  rw [htracks.waiters hws]
  refine ⟨?_, ?_, ?_⟩
  · intro w hw
    obtain ⟨r, hr, rfl⟩ := List.mem_map.mp hw
    obtain ⟨i, text, q, assign, instr, hti, hq, hname, rfl⟩ := call_of_awaiting h hr
    exact written_as_known h (tracks_fresh text_vaddr data_vaddr) hfresh hs hti hq hname hpos
      (hdone _ hr)
  · intro s
    obtain ⟨buf, he⟩ := hbuf.2 s
    refine ⟨by rw [he]; exact ⟨rfl, rfl, rfl, rfl⟩, fun i hi => ?_⟩
    rw [emitter.byte_eq_slice, emitter.byte_eq_slice, hframe s i 1 fun r hr =>
      (hinside r hr).beside hs (hi r.waiter (List.mem_map_of_mem hr))]
  · intro w hw j text q key' ws' v' htj hq hdef' hws' w' hw'
    obtain ⟨r, hr, rfl⟩ := List.mem_map.mp hw
    have hsq := h.small_before hfresh hs hq
    have hknows := hq.tracks_book.knows (hq.tracks_book.known_none hws')
    rw [hq.tracks_book.waiters hws'] at hw'
    obtain ⟨r', hr', rfl⟩ := List.mem_map.mp hw'
    have hinside' := (((hq.written_book hsq).awaiting key').1 r' hr').1
    exact (awaiting_apart h hwritten htj hq hdef' hknows hr' hr).covers (hinside r hr) hs hinside'
      hsq

/-- The calls before the definition: a jump, a branch from the other section, and a
jump that is rejected for what stands behind its label. -/
theorem a_definition_patches_the_word_of_a_rejected_jump :
    let first : Process := .fresh 0 0x400000 0x10010000
    let texts := linesOf ["jal x1, L", ".data", "beq x1, x2, L", ".text", "jal x0, L x"]
    let ws : List label_waiter := [⟨0, .SECT_TEXT, .ASSIGN_JTYPE⟩, ⟨0, .SECT_DATA, .ASSIGN_BTYPE⟩,
      ⟨4, .SECT_TEXT, .ASSIGN_JTYPE⟩]
    ∃ p em, Calls first texts p ∧ emitter_label_add p.em (chars "L") = .ok (0, em) ∧
      (∀ w ∈ ws, WrittenAsKnown first texts (chars "L") p.em.addr w em) ∧
      UndisturbedBut ws p.em em ∧ ∀ w ∈ ws, NotPatchedBy first texts w := by
  intro first texts ws
  have hruns : ((runAll parse_call first texts).map fun p => decide (p.em.Small ∧
      p.em.labels.lookup (chars "L") = some ⟨some ws, -1⟩ ∧
      ((emitter_label_add p.em (chars "L")).map Prod.fst).toOption = some 0)).toOption =
        some true := by decide +kernel
  obtain ⟨p, h, hp⟩ := ok_of_map hruns
  obtain ⟨hs, hws, hadd⟩ := of_decide_eq_true hp
  obtain ⟨⟨_, em⟩, hdef, rfl⟩ := ok_of_map hadd
  exact ⟨p, em, h, hdef, a_definition_patches_exactly_the_words_that_wait 0 0x400000 0x10010000
    texts p h hs (chars "L") em hdef ws (-1) hws⟩

end riscv_assembler
