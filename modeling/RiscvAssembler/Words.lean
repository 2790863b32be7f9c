-- The words of the instructions that name labels, in sections that fit their
-- buffers: a write never touches an earlier word, and a definition patches
-- exactly the words that wait for it.
import RiscvAssembler.LabelTable

open checked machine_int SparseFile

namespace riscv_assembler

/-! ## Sections that fit their buffer -/

/-- The section never reached the end of its buffer, so all its bytes are still
there. The position alone would not say so: it does not count lost bytes. -/
structure Section.Unfilled (s : Section) : Prop where
  pos_lt : s.pos < BUF_SIZE
  offset_zero : s.swap.offset = 0

theorem Section.Unfilled.len_eq {s : Section} (h : s.Unfilled) (hok : s.Ok) : s.len = s.pos := by
  have := hok.pos_eq
  have := h.offset_zero
  omega

theorem Section.Ok.unfilled {s : Section} (hok : s.Ok) (h : s.swap.offset = 0) : s.Unfilled := by
  have h1 := hok.pos_eq
  have h2 := hok.len_lt
  exact ⟨by omega, h⟩

/-- The later section has the bytes of the earlier one, and maybe more. -/
structure Section.Extends (s s' : Section) : Prop where
  vaddr_eq : s'.vaddr = s.vaddr
  pos_le : s.pos ≤ s'.pos
  slice_eq : ∀ off k, off + k ≤ s.pos → s'.buf.slice off k = s.buf.slice off k

theorem Section.Extends.refl (s : Section) : s.Extends s := ⟨rfl, Nat.le_refl _, fun _ _ _ => rfl⟩

theorem Section.Extends.trans {s s1 s2 : Section} (h1 : s.Extends s1) (h2 : s1.Extends s2) :
    s.Extends s2 :=
  ⟨h2.vaddr_eq.trans h1.vaddr_eq, Nat.le_trans h1.pos_le h2.pos_le, fun off k hk =>
    (h2.slice_eq off k (Nat.le_trans hk h1.pos_le)).trans (h1.slice_eq off k hk)⟩

theorem emitter_clear_buffer_offset {s s' : Section} (hl : s.len ≤ BUF_SIZE)
    (h : emitter_clear_buffer s = .ok s') :
    s'.swap.offset = s.swap.offset + s.len ∧ s'.len = 0 := by
  by_cases hfit : s.swap.offset + s.len ≤ OFF_MAX
  · rw [emitter_clear_buffer_fits s hl hfit] at h
    cases h
    simp [s.take_len hl]
  · rw [emitter_clear_buffer_full s hl (by omega)] at h
    cases h

/-- A write never moves the offset of the swap file back, and a write that
reaches the end of the buffer moves it on. -/
theorem emitter_buffer_loop_offset {s s' : Section} {pos : Nat} {data : List UInt8}
    (hl : s.len ≤ BUF_SIZE) (h : emitter_buffer_loop s pos data = .ok s') :
    s.swap.offset ≤ s'.swap.offset ∧
      (BUF_SIZE ≤ pos + data.length → s.swap.offset + s.len ≤ s'.swap.offset) := by
  rw [emitter_buffer_loop] at h
  by_cases hge : BUF_SIZE ≤ pos + data.length
  · rw [if_pos hge] at h
    obtain ⟨buf, _, h⟩ := bind_eq_ok.mp h
    obtain ⟨s1, hclear, h⟩ := bind_eq_ok.mp h
    obtain ⟨hoff, hlen⟩ := emitter_clear_buffer_offset (s := { s with buf }) hl hclear
    have hrest := (emitter_buffer_loop_offset (by rw [hlen]; exact Nat.zero_le _) h).1
    simp only at hoff
    exact ⟨by omega, fun _ => by omega⟩
  · rw [if_neg hge] at h
    obtain ⟨buf, _, h⟩ := bind_eq_ok.mp h
    cases h
    exact ⟨Nat.le_refl _, fun hc => absurd hc hge⟩
termination_by pos + data.length
decreasing_by
  simp only [List.length_drop, BUF_SIZE] at *
  omega

theorem emitter_buffer_loop_unfilled {s s' : Section} {data : List UInt8} (hok : s.Ok)
    (hd : data.length < BUF_SIZE) (h : emitter_buffer_loop s s.len data = .ok s')
    (hs' : s'.Unfilled) :
    s.Unfilled ∧ s.Extends s' ∧ s'.pos = s.pos + data.length ∧
      s'.buf.slice s.pos data.length = data := by
  obtain ⟨hle, hcross⟩ := emitter_buffer_loop_offset (Nat.le_of_lt hok.len_lt) h
  have hzero := hs'.offset_zero
  have hs : s.Unfilled := hok.unfilled (by omega)
  have hlen := hs.len_eq hok
  have hfit : s.len + data.length < BUF_SIZE := by
    by_contra hge
    have := hcross (by omega)
    omega
  have hpos := hs.pos_lt
  rw [emitter_buffer_loop_fits s s.len data hfit] at h
  cases h
  have hb : BUF_SIZE = 4096 := rfl
  have hp : toU 64 (s.pos + data.length) = s.pos + data.length := by
    exact_mod_cast toU_of_lt (n := s.pos + data.length) (by omega)
  refine ⟨hs, ⟨rfl, ?_, fun off k hk => ?_⟩, hp, ?_⟩
  · simp only [hp]
    omega
  · exact FixedBuffer.slice_put_disjoint s.buf (Nat.le_of_lt hfit) (Or.inl (by omega))
  · rw [← hlen]
    exact FixedBuffer.slice_put_same s.buf (Nat.le_of_lt hfit)

theorem section_advance_unfilled {s s' : Section} {n : Nat} (hok : s.Ok) (hn : n < 2 ^ 63)
    (h : section_advance s n = .ok s') (hs' : s'.Unfilled) : s.Unfilled ∧ s.Extends s' := by
  have hspec := section_advance.spec s n hok hn
  rw [h] at hspec
  obtain ⟨hok', hv, hp, _, hswap⟩ := hspec
  have h1 := hok.pos_eq
  have h2 := hok'.pos_eq
  have h3 := hok'.len_lt
  have hzero := hs'.offset_zero
  by_cases hfit : s.len + n < BUF_SIZE
  · have hs : s.Unfilled := hok.unfilled (by rw [← hswap hfit]; exact hzero)
    refine ⟨hs, ⟨hv, by omega, fun off k hk => ?_⟩⟩
    have hb : BUF_SIZE = 4096 := rfl
    have hsum : toU 64 (s.len + n) = s.len + n := by
      exact_mod_cast toU_of_lt (n := s.len + n) (by omega)
    have hlen := hs.len_eq hok
    have hcopy : s.len + (List.replicate n (0 : UInt8)).length ≤ BUF_SIZE := by
      rw [List.length_replicate]
      omega
    rw [section_advance_fits s n hsum hfit hcopy] at h
    rw [← Except.ok.inj h]
    exact FixedBuffer.slice_put_disjoint s.buf hcopy (Or.inl (by omega))
  · omega

/-! ## Emitters whose sections fit -/

/-- Neither section reached the end of its buffer, and no address in them is
too large for an `int64_t`. -/
def emitter.Small (em : emitter) : Prop :=
  ∀ s, (em.sect s).Unfilled ∧ (em.sect s).vaddr + (em.sect s).pos < 2 ^ 63

instance (s : Section) : Decidable s.Unfilled :=
  decidable_of_iff (s.pos < BUF_SIZE ∧ s.swap.offset = 0)
    ⟨fun h => ⟨h.1, h.2⟩, fun h => ⟨h.pos_lt, h.offset_zero⟩⟩

instance (em : emitter) : Decidable em.Small :=
  decidable_of_iff (∀ s ∈ [Sect.SECT_TEXT, Sect.SECT_DATA],
    (em.sect s).Unfilled ∧ (em.sect s).vaddr + (em.sect s).pos < 2 ^ 63)
    ⟨fun h s => h s (by cases s <;> decide), fun h s _ => h s⟩

/-- Both sections have the bytes that they had, and maybe more. -/
def emitter.Extends (em em' : emitter) : Prop := ∀ s, (em.sect s).Extends (em'.sect s)

theorem emitter.Extends.trans {em em1 em2 : emitter} (h1 : em.Extends em1)
    (h2 : em1.Extends em2) : em.Extends em2 := fun s => (h1 s).trans (h2 s)

theorem emitter.Extends.of_sect_eq {em em' : emitter} (h : em'.sect = em.sect) : em.Extends em' := by
  intro s
  rw [h]
  exact .refl _

variable {vaddr : Sect → Nat}

theorem emitter.Small.of_sect_eq {em em' : emitter} (h : em'.Small) (hs : em'.sect = em.sect) :
    em.Small := by
  intro s
  rw [← hs]
  exact h s

/-- A change of the current section that extends it. -/
theorem emitter.Small.of_setCur {em : emitter} {x : Section} (h : (em.setCur x).Small)
    (hx : x.Unfilled → em.cur.Unfilled ∧ em.cur.Extends x) :
    em.Small ∧ em.Extends (em.setCur x) := by
  have hcur : (em.setCur x).sect em.current_section = x := em.set_sect_same _ x
  have hnew := h em.current_section
  rw [hcur] at hnew
  obtain ⟨hun, hext⟩ := hx hnew.1
  have hother : ∀ s, s ≠ em.current_section → (em.setCur x).sect s = em.sect s := fun s hs =>
    em.set_sect_ne x hs
  constructor
  · intro s
    by_cases hs : s = em.current_section
    · subst hs
      have h1 := hext.vaddr_eq
      have h2 := hext.pos_le
      exact ⟨hun, by rw [emitter.cur] at h1 h2; omega⟩
    · rw [← hother s hs]
      exact h s
  · intro s
    by_cases hs : s = em.current_section
    · subst hs
      rw [hcur]
      exact hext
    · rw [hother s hs]
      exact .refl _

/-- Bytes that fit stand at the end of the section. -/
theorem emitter_buffer_small {em em' : emitter} {data : List UInt8} (hd : data.length < BUF_SIZE)
    (h : em.Sound vaddr) (hrun : emitter_buffer em data = .ok em') (hs : em'.Small) :
    (em.Small ∧ em.Extends em') ∧
      (em'.sect em.current_section).pos = em.cur.pos + data.length ∧
      (em'.sect em.current_section).buf.slice em.cur.pos data.length = data := by
  obtain ⟨s, hloop, hrun⟩ := bind_eq_ok.mp hrun
  cases hrun
  have hok := (h em.current_section).1
  have hset : (em.setCur s).sect em.current_section = s := em.set_sect_same _ s
  have hun := (hs em.current_section).1
  rw [hset] at hun ⊢
  obtain ⟨_, _, hpos, hslice⟩ := emitter_buffer_loop_unfilled hok hd hloop hun
  refine ⟨hs.of_setCur fun hun => ?_, hpos, hslice⟩
  obtain ⟨h1, h2, _⟩ := emitter_buffer_loop_unfilled hok hd hloop hun
  exact ⟨h1, h2⟩

theorem WriteStep.small {em em' : emitter} (hw : WriteStep em em') (h : em.Sound vaddr)
    (hs : em'.Small) : em.Small ∧ em.Extends em' := by
  cases hw with
  | buffer hd hrun => exact (emitter_buffer_small hd h hrun hs).1
  | advance hn hrun =>
    obtain ⟨s, hadv, hrun⟩ := bind_eq_ok.mp hrun
    cases hrun
    exact hs.of_setCur (section_advance_unfilled (h em.current_section).1 (by omega) hadv)
  | switch he =>
    subst he
    exact ⟨hs, .of_sect_eq rfl⟩

theorem writes_small {em em' : emitter} (hw : Relation.ReflTransGen WriteStep em em')
    (h : em.Sound vaddr) (hs : em'.Small) : em.Small ∧ em.Extends em' := by
  induction hw with
  | refl => exact ⟨hs, .of_sect_eq rfl⟩
  | tail hrun hlast ih =>
    have hsound := Reading.Does.sound (r := .other) hrun h
    obtain ⟨hs1, hext⟩ := hlast.small hsound hs
    obtain ⟨hs0, hext0⟩ := ih hs1
    exact ⟨hs0, hext0.trans hext⟩

theorem OnlyBuffers.small_iff {em em' : emitter} (h : OnlyBuffers em em') :
    em'.Small ↔ em.Small := by
  refine forall_congr' fun s => ?_
  obtain ⟨buf, he⟩ := h.2 s
  rw [he]
  exact and_congr_left fun _ => ⟨fun hs => ⟨hs.pos_lt, hs.offset_zero⟩,
    fun hs => ⟨hs.pos_lt, hs.offset_zero⟩⟩

/-- Sections that fit after a line did fit before it. -/
theorem Reading.Does.small {r : Reading} {em em' : emitter} (hd : r.Does em em')
    (h : em.Sound vaddr) (hs : em'.Small) : em.Small := by
  cases r with
  | blank =>
    rw [Reading.Does] at hd
    rwa [← hd]
  | refer assign instr key =>
    obtain ⟨⟨w, em1⟩, h1, h2⟩ := bind_eq_ok.mp hd
    obtain ⟨hsect, _⟩ := emitter_reference_sections h1
    have hsound : em1.Sound vaddr := by
      intro s
      rw [hsect]
      exact h s
    have hlen : (instr_bytes w).length < BUF_SIZE := by simp [instr_bytes, BUF_SIZE]
    exact (emitter_buffer_small hlen hsound h2 hs).1.1.of_sect_eq hsect
  | define key => exact (label_add_only_buffers hd).small_iff.mp hs
  | other => exact (writes_small hd h hs).1

/-- Sections that fit after a run did fit before it. -/
theorem Calls.small {p p' : Process} {texts : List (List UInt8)} (h : Calls p texts p')
    (hp : p.em.Sound vaddr) (hs : p'.em.Small) : p.em.Small := by
  induction texts generalizing p with
  | nil => rwa [← calls_nil.mp h]
  | cons text texts ih =>
    obtain ⟨p1, hcall, hrun⟩ := calls_cons.mp h
    have hdoes := parse_call_does hcall
    exact hdoes.small hp (ih hrun (hdoes.sound hp))

/-- Sections that fit in the end fit all along. -/
theorem Calls.small_before {p p' q : Process} {texts : List (List UInt8)} (h : Calls p texts p')
    (hp : p.em.Sound vaddr) (hs : p'.em.Small) {i : Nat} (hq : Calls p (texts.take i) q) :
    q.em.Small := by
  rw [← List.take_append_drop i texts] at h
  obtain ⟨q1, hq1, hrun⟩ := calls_append.mp h
  obtain rfl := hq.unique hq1
  exact hrun.small (hq.keeps (fun _ _ _ hd hsound => hd.sound hsound) hp) hs

theorem Assembles.small {p p' : Process} {texts : List (List UInt8)} (h : Assembles p texts p')
    (hp : p.em.Sound vaddr) (hs : p'.em.Small) : p.em.Small := h.calls.small hp hs

/-! ## The words of the ledger -/

/-- The displacement from the instruction to the label. -/
def Ref.displacement (r : Ref) (val : Int) : Int := val - (r.off + r.vaddr)

/-- The word of an instruction that names a label, before and after the label
has its value. -/
def Ref.word (r : Ref) : Option Int → BitVec 32
  | none => r.instr
  | some val => r.assign.set_imm r.instr (BitVec.ofInt 32 (r.displacement val))

/-- The instruction has no byte of the slice. -/
def Ref.Beside (r : Ref) (s : Sect) (off k : Nat) : Prop :=
  s = r.sect → off + k ≤ r.off ∨ r.off + 4 ≤ off

/-- The two instructions share no byte. -/
def Ref.Apart (r r' : Ref) : Prop := r.Beside r'.sect r'.off 4

theorem Ref.Apart.symm {r r' : Ref} (h : r.Apart r') : r'.Apart r := fun hs => (h hs.symm).symm

/-- The four bytes of the emitter where the instruction stands. -/
def emitter.wordAt (em : emitter) (r : Ref) : List UInt8 := (em.sect r.sect).buf.slice r.off 4

/-- The instruction lies in its section. -/
structure Ref.Inside (r : Ref) (em : emitter) : Prop where
  off_le : r.off + 4 ≤ (em.sect r.sect).pos
  vaddr_eq : (em.sect r.sect).vaddr = r.vaddr

theorem Ref.Inside.extends {r : Ref} {em em' : emitter} (h : r.Inside em) (he : em.Extends em') :
    r.Inside em' ∧ em'.wordAt r = em.wordAt r := by
  have hsect := he r.sect
  exact ⟨⟨Nat.le_trans h.off_le hsect.pos_le, hsect.vaddr_eq.trans h.vaddr_eq⟩,
    hsect.slice_eq r.off 4 h.off_le⟩

theorem Ref.Inside.only_buffers {r : Ref} {em em' : emitter} (h : r.Inside em)
    (hb : OnlyBuffers em em') : r.Inside em' := by
  obtain ⟨buf, he⟩ := hb.2 r.sect
  exact ⟨by rw [he]; exact h.off_le, by rw [he]; exact h.vaddr_eq⟩

/-- Every instruction that names a label stands in its section with the word of
its entry, and no two of them share a byte. -/
structure Written (B : Book) (em : emitter) : Prop where
  inside : ∀ e ∈ B.entries, e.ref.Inside em
  word : ∀ e ∈ B.entries, em.wordAt e.ref = instr_bytes (e.ref.word e.val)
  apart : B.entries.Pairwise fun e e' => e.ref.Apart e'.ref

theorem written_fresh (text_vaddr data_vaddr : Nat) :
    Written .empty (emitter.fresh text_vaddr data_vaddr) := ⟨nofun, nofun, .nil⟩

theorem Written.extends {B : Book} {em em' : emitter} (h : Written B em) (he : em.Extends em') :
    Written B em' :=
  ⟨fun e hm => ((h.inside e hm).extends he).1,
    fun e hm => ((h.inside e hm).extends he).2.trans (h.word e hm), h.apart⟩

/-! ## Patches -/

/-- In sections that fit, the index of a waiter is its offset. -/
theorem resolve_waiter_inside (val : Int) {em : emitter} {r : Ref} (h : em.Sound vaddr)
    (hs : em.Small) (hin : r.Inside em) (hword : em.wordAt r = instr_bytes r.instr) :
    ∃ hfit, resolve_waiter val em r.waiter =
      .ok (em.set r.sect ((em.sect r.sect).patch r.off (r.word (some val)) hfit)) := by
  obtain ⟨hun, hsmall⟩ := hs r.sect
  have hlen := hun.len_eq (h r.sect).1
  have hb : BUF_SIZE = 4096 := rfl
  have hpos := hun.pos_lt
  have hoff := hin.off_le
  have hk : r.waiter.fix_idx = r.off := toS64_of_lt (by omega)
  have hidx : (em.sect r.sect).len + r.off - (em.sect r.sect).pos = r.off := by omega
  have heq : resolve_waiter val em r.waiter = _ := resolve_waiter_eq hk
    (show (em.sect r.sect).len ≤ BUF_SIZE by omega)
    (show (em.sect r.sect).pos < 2 ^ 63 by omega)
    (show (em.sect r.sect).pos ≤ (em.sect r.sect).len + r.off by omega) hoff
    (show (em.sect r.sect).len + r.off - (em.sect r.sect).pos + 4 ≤ BUF_SIZE by omega)
  have hpatched : r.waiter.patched val (em.sect r.sect).vaddr ((em.sect r.sect).buf.slice r.off 4) =
      r.word (some val) := by
    have hw : (em.sect r.sect).buf.slice r.off 4 = instr_bytes r.instr := hword
    rw [label_waiter.patched, hw, instr_of_instr_bytes, hk, hin.vaddr_eq]
    rfl
  refine ⟨by omega, heq.trans ?_⟩
  have hsect : r.waiter.sect = r.sect := rfl
  simp only [hsect, hidx, hpatched]

/-- One waiter gets its word, and every slice beside it stays. -/
theorem resolve_waiter_word {val : Int} {em em' : emitter} {r : Ref} (h : em.Sound vaddr)
    (hs : em.Small) (hin : r.Inside em) (hword : em.wordAt r = instr_bytes r.instr)
    (hrun : resolve_waiter val em r.waiter = .ok em') :
    em'.wordAt r = instr_bytes (r.word (some val)) ∧
      ∀ s off k, r.Beside s off k →
        (em'.sect s).buf.slice off k = (em.sect s).buf.slice off k := by
  obtain ⟨hfit, heq⟩ := resolve_waiter_inside val h hs hin hword
  rw [heq] at hrun
  rw [← Except.ok.inj hrun]
  have hput : r.off + (instr_bytes (r.word (some val))).length ≤ BUF_SIZE := by
    rw [length_instr_bytes]
    exact hfit
  constructor
  · rw [emitter.wordAt, emitter.set_sect_same]
    have hsame := FixedBuffer.slice_put_same (em.sect r.sect).buf hput
    rwa [length_instr_bytes] at hsame
  · intro s off k hdisj
    by_cases hsr : s = r.sect
    · subst hsr
      rw [emitter.set_sect_same]
      refine FixedBuffer.slice_put_disjoint _ hput ?_
      rw [length_instr_bytes]
      exact hdisj rfl
    · rw [em.set_sect_ne _ hsr]

/-- All waiters get their words, and every slice beside them stays. -/
theorem resolve_all_words {val : Int} {rs : List Ref} {em em' : emitter} (h : em.Sound vaddr)
    (hs : em.Small) (hin : ∀ r ∈ rs, r.Inside em)
    (hword : ∀ r ∈ rs, em.wordAt r = instr_bytes r.instr) (hap : rs.Pairwise Ref.Apart)
    (hrun : runAll (resolve_waiter val) em (rs.map Ref.waiter) = .ok em') :
    (∀ r ∈ rs, em'.wordAt r = instr_bytes (r.word (some val))) ∧
      ∀ s off k, (∀ r ∈ rs, r.Beside s off k) →
        (em'.sect s).buf.slice off k = (em.sect s).buf.slice off k := by
  induction rs generalizing em with
  | nil =>
    cases hrun
    exact ⟨nofun, fun _ _ _ _ => rfl⟩
  | cons r rs ih =>
    obtain ⟨em1, hfirst, hrest⟩ := bind_eq_ok.mp hrun
    obtain ⟨hr, hrs⟩ := List.pairwise_cons.mp hap
    obtain ⟨hbuf, _⟩ := resolve_waiter_only_buffers hfirst
    obtain ⟨hdone, hframe⟩ := resolve_waiter_word h hs (hin r List.mem_cons_self)
      (hword r List.mem_cons_self) hfirst
    have hin1 : ∀ r' ∈ rs, r'.Inside em1 := fun r' hr' =>
      (hin r' (List.mem_cons_of_mem r hr')).only_buffers hbuf
    have hword1 : ∀ r' ∈ rs, em1.wordAt r' = instr_bytes r'.instr := fun r' hr' =>
      (hframe _ _ _ (hr r' hr')).trans (hword r' (List.mem_cons_of_mem r hr'))
    obtain ⟨hall, hframe1⟩ :=
      ih (hbuf.sound h) (hbuf.small_iff.mpr hs) hin1 hword1 hrs hrest
    constructor
    · intro r' hr'
      rcases List.mem_cons.mp hr' with rfl | hr'
      · exact (hframe1 _ _ _ fun r2 hr2 => (hr r2 hr2).symm).trans hdone
      · exact hall r' hr'
    · intro s off k hbeside
      exact (hframe1 s off k fun r2 hr2 => hbeside r2 (List.mem_cons_of_mem r hr2)).trans
        (hframe s off k (hbeside r List.mem_cons_self))

theorem Written.awaiting {B : Book} {em : emitter} (h : Written B em) (key : string) :
    (∀ r ∈ awaiting B key, r.Inside em ∧ em.wordAt r = instr_bytes r.instr) ∧
      (awaiting B key).Pairwise Ref.Apart := by
  constructor
  · intro r hr
    obtain ⟨e, he, hw, rfl⟩ := mem_awaiting.mp hr
    have hval : e.val = none := by simp [Ledger.Waits] at hw; exact hw.2
    refine ⟨h.inside e he, (h.word e he).trans ?_⟩
    rw [hval]
    rfl
  · exact List.pairwise_map.mpr (h.apart.sublist List.filter_sublist)

/-- The waiters of a label without an address are the instructions that wait in the
ledger. -/
theorem Tracks.waiting {B : Book} {em : emitter} {key : string} (h : Tracks B em)
    (hknown : B.known key = none) : em.waiting key = (awaiting B key).map Ref.waiter := by
  have hkey := h key
  rw [← waiters_eq_awaiting]
  by_cases hn : B.Named key
  · rw [labelOf_named hknown hn] at hkey
    exact emitter.waiting_of_lookup hkey
  · rw [labelOf_absent hknown hn] at hkey
    rw [waiters_unnamed hn, emitter.waiting, hkey]
    rfl

/-- What a definition does to the sections: the waiting words get their
displacements, and every slice beside them stays. -/
theorem label_add_words {B : Book} {em em' : emitter} {key : string} (ht : Tracks B em)
    (hsound : em.Sound vaddr) (hs : em.Small) (hw : Written B em)
    (hrun : emitter_label_add em key = .ok (0, em')) :
    (∀ r ∈ awaiting B key, em'.wordAt r = instr_bytes (r.word (some em.addr))) ∧
      ∀ s off k, (∀ r ∈ awaiting B key, r.Beside s off k) →
        (em'.sect s).buf.slice off k = (em.sect s).buf.slice off k := by
  obtain ⟨em1, hall, hsect⟩ := label_add_resolves hrun
  rw [ht.waiting (label_add_tracks ht hrun).2] at hall
  obtain ⟨hawait, hap⟩ := hw.awaiting key
  have hwords := resolve_all_words hsound hs (fun r hr => (hawait r hr).1)
    (fun r hr => (hawait r hr).2) hap hall
  unfold emitter.wordAt at hwords ⊢
  rwa [hsect]

/-! ## Runs keep the words -/

theorem Written.define {B : Book} {em em' : emitter} {key : string} (h : Written B em)
    (ht : Tracks B em) (hsound : em.Sound vaddr) (hs : em.Small)
    (hrun : emitter_label_add em key = .ok (0, em')) : Written (B.define key em.addr) em' := by
  obtain ⟨hdone, hframe⟩ := label_add_words ht hsound hs h hrun
  have hbuf := label_add_only_buffers hrun
  have hentries := Ledger.define_entries B key em.addr
  constructor
  · intro e' he'
    rw [hentries] at he'
    obtain ⟨e, he, rfl⟩ := List.mem_map.mp he'
    rw [(Ledger.settle_key key em.addr e).2]
    exact (h.inside e he).only_buffers hbuf
  · intro e' he'
    rw [hentries] at he'
    obtain ⟨e, he, rfl⟩ := List.mem_map.mp he'
    cases hw : Ledger.Waits key e with
    | true =>
      rw [Ledger.settle_of_waits hw]
      exact hdone e.ref (mem_awaiting.mpr ⟨e, he, hw, rfl⟩)
    | false =>
      rw [Ledger.settle_of_not_waits hw]
      refine (hframe _ _ _ fun r hr => ?_).trans (h.word e he)
      obtain ⟨e2, he2, hw2, rfl⟩ := mem_awaiting.mp hr
      have hne : e2 ≠ e := by
        rintro rfl
        rw [hw] at hw2
        cases hw2
      have : Std.Symm fun e e' : LedgerEntry string Ref Int => e.ref.Apart e'.ref :=
        ⟨fun _ _ ha => ha.symm⟩
      exact h.apart.forall he2 he hne
  · rw [hentries]
    refine List.pairwise_map.mpr (h.apart.imp fun {e e'} ha => ?_)
    rwa [(Ledger.settle_key key em.addr e).2, (Ledger.settle_key key em.addr e').2]

/-- The instruction goes to the end of its section, with the displacement if
the label is known. -/
theorem emitter_refer_word {B : Book} {em em' : emitter} {assign : assign_type}
    {instr : BitVec 32} {key : string} (ht : Tracks B em) (hsound : em.Sound vaddr)
    (hs : em'.Small) (hrun : emitter_refer em assign instr key = .ok em') :
    em.Extends em' ∧ (em.ref assign instr).Inside em' ∧
      em'.wordAt (em.ref assign instr) =
        instr_bytes ((em.ref assign instr).word (B.known key)) := by
  obtain ⟨⟨w, em1⟩, h1, h2⟩ := bind_eq_ok.mp hrun
  obtain ⟨hsect, hcurrent⟩ := emitter_reference_sections h1
  obtain ⟨⟨lbval, em2⟩, hget, h1⟩ := bind_eq_ok.mp h1
  obtain ⟨_, hlbval, hpos⟩ := label_get_tracks ht hget instr
  obtain ⟨hsect2, hcurrent2⟩ := label_get_sections hget
  have hcur : em1.cur = em.cur := by rw [emitter.cur, hsect, hcurrent]; rfl
  have hcur2 : em2.cur = em.cur := by rw [emitter.cur, hsect2, hcurrent2]; rfl
  have hw : w = (em.ref assign instr).word (B.known key) := by
    simp only at h1
    rcases hknown : B.known key with _ | v
    · rw [hlbval, hknown] at h1
      cases h1
      rfl
    · rw [hlbval, hknown, Option.getD_some, if_neg (Int.not_lt.mpr (hpos v hknown))] at h1
      cases h1
      rw [hcur2, ofInt_toS_of_le (show 32 ≤ 64 by decide),
        ofInt_toS_sub_of_le (show 32 ≤ 64 by decide)]
      unfold Ref.word Ref.displacement
      congr 2
      simp only [emitter.ref]
      omega
  have hsound1 : em1.Sound vaddr := by
    intro s
    rw [hsect]
    exact hsound s
  have hlen : (instr_bytes w).length < BUF_SIZE := by simp [instr_bytes, BUF_SIZE]
  obtain ⟨⟨_, hext⟩, hend, hslice⟩ := emitter_buffer_small hlen hsound1 h2 hs
  rw [length_instr_bytes, hcur, hcurrent] at hend hslice
  have hext' : em.Extends em' := (emitter.Extends.of_sect_eq hsect).trans hext
  refine ⟨hext', ⟨Nat.le_of_eq hend.symm, (hext' em.current_section).vaddr_eq⟩, ?_⟩
  rw [← hw]
  exact hslice

theorem Written.refer {B : Book} {em em' : emitter} {assign : assign_type} {instr : BitVec 32}
    {key : string} (h : Written B em) (ht : Tracks B em) (hsound : em.Sound vaddr)
    (hs : em'.Small) (hrun : emitter_refer em assign instr key = .ok em') :
    Written (B.refer key (em.ref assign instr)) em' := by
  obtain ⟨hext, hin, hword⟩ := emitter_refer_word ht hsound hs hrun
  have hold := h.extends hext
  constructor
  · intro e he
    rcases List.mem_append.mp he with he | he
    · exact hold.inside e he
    · rw [List.mem_singleton.mp he]
      exact hin
  · intro e he
    rcases List.mem_append.mp he with he | he
    · exact hold.word e he
    · rw [List.mem_singleton.mp he]
      exact hword
  · refine List.pairwise_append.mpr ⟨hold.apart, List.pairwise_singleton _ _, ?_⟩
    intro e he e' he'
    rw [List.mem_singleton.mp he']
    intro hsect
    refine Or.inr ((h.inside e he).off_le.trans (Nat.le_of_eq ?_))
    exact congrArg (fun s => (em.sect s).pos) hsect.symm

/-- What a line does keeps the words of the ledger in their places. -/
theorem Reading.Does.written {B : Book} {em em' : emitter} {r : Reading} (hd : r.Does em em')
    (h : Written B em) (ht : Tracks B em) (hsound : em.Sound vaddr) (hs : em'.Small) :
    Written (B.run (r.moves em)) em' := by
  cases r with
  | blank =>
    rw [Reading.Does] at hd
    rwa [hd]
  | refer assign instr key => exact h.refer ht hsound hs hd
  | define key => exact h.define ht hsound ((label_add_only_buffers hd).small_iff.mp hs) hd
  | other => exact h.extends (writes_small hd hsound hs).2

theorem Calls.written {p p' : Process} {texts : List (List UInt8)} (h : Calls p texts p')
    {B : Book} (hw : Written B p.em) (ht : Tracks B p.em) (hsound : p.em.Sound vaddr)
    (hs : p'.em.Small) : Written (B.run (moves p texts)) p'.em := by
  induction texts generalizing p B with
  | nil =>
    rw [calls_nil.mp h]
    exact hw
  | cons text texts ih =>
    obtain ⟨p1, hcall, hrun⟩ := calls_cons.mp h
    have hdoes := parse_call_does hcall
    have hsound1 := hdoes.sound hsound
    rw [moves_cons hcall, Ledger.run_append]
    exact ih hrun (hdoes.written hw ht hsound (hrun.small hsound1 hs)) (hdoes.tracks ht) hsound1

/-! ## Runs from the first state -/

/-- The ledger of a run from the first state. -/
def bookOf (p : Process) (texts : List (List UInt8)) : Book := Ledger.empty.run (moves p texts)

section Fresh

variable {errno : Int} {text_vaddr data_vaddr : Nat} {texts : List (List UInt8)} {p : Process}

theorem Calls.tracks_book (h : Calls (.fresh errno text_vaddr data_vaddr) texts p) :
    Tracks (bookOf (.fresh errno text_vaddr data_vaddr) texts) p.em :=
  h.tracks (tracks_fresh text_vaddr data_vaddr)

theorem Calls.written_book (h : Calls (.fresh errno text_vaddr data_vaddr) texts p)
    (hs : p.em.Small) : Written (bookOf (.fresh errno text_vaddr data_vaddr) texts) p.em :=
  h.written (written_fresh text_vaddr data_vaddr) (tracks_fresh text_vaddr data_vaddr)
    (emitter.sound_fresh text_vaddr data_vaddr) hs

end Fresh

end riscv_assembler
