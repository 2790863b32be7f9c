-- Errors are local: when no label is defined twice and the sections fit, a program is
-- accepted exactly when each of its lines is accepted alone, in empty sections.
import RiscvAssembler.TwoPasses

open checked machine_int scanner c_text

namespace riscv_assembler

variable {vaddr : Sect → Nat} {B : Book} {em : emitter} {key : string}

/-! ## Calls with labels that succeed -/

/-- In sections that fit all waiters of a definition get their words. -/
theorem resolve_all_runs (val : Int) {rs : List Ref} (h : em.Sound vaddr) (hs : em.Small)
    (hin : ∀ r ∈ rs, r.Inside em) (hword : ∀ r ∈ rs, em.wordAt r = instr_bytes r.instr)
    (hap : rs.Pairwise Ref.Apart) :
    ∃ em', runAll (resolve_waiter val) em (rs.map Ref.waiter) = .ok em' := by
  induction rs generalizing em with
  | nil => exact ⟨em, rfl⟩
  | cons r rs ih =>
    have hr := hword r List.mem_cons_self
    obtain ⟨hfirst, hrest⟩ := List.pairwise_cons.mp hap
    obtain ⟨_, hrun⟩ := resolve_waiter_inside val h hs (hin r List.mem_cons_self) hr
    obtain ⟨hbuf, _⟩ := resolve_waiter_only_buffers hrun
    obtain ⟨_, hframe⟩ := resolve_waiter_word h hs (hin r List.mem_cons_self) hr hrun
    obtain ⟨em', hall⟩ := ih (hbuf.sound h) (hbuf.small_iff.mpr hs)
      (fun r' hr' => (hin r' (List.mem_cons_of_mem r hr')).only_buffers hbuf)
      (fun r' hr' => (hframe _ _ _ (hfirst r' hr')).trans (hword r' (List.mem_cons_of_mem r hr')))
      hrest
    refine ⟨em', ?_⟩
    rw [List.map_cons, runAll_cons, hrun]
    exact hall

theorem label_add_runs (ht : Tracks B em) (hw : Written B em) (h : em.Sound vaddr) (hs : em.Small)
    (hk : B.known key = none) : ∃ em', emitter_label_add em key = .ok (0, em') := by
  have hkey := ht key
  by_cases hn : B.Named key
  · obtain ⟨hawait, hap⟩ := hw.awaiting key
    obtain ⟨em', hall⟩ := resolve_all_runs em.addr h hs (fun r hr => (hawait r hr).1)
      (fun r hr => (hawait r hr).2) hap
    rw [labelOf_named hk hn] at hkey
    rw [emitter_label_add_awaited hkey (by decide), waiters_eq_awaiting]
    have haddr : toS 64 (em.cur.pos + em.cur.vaddr) = em.addr := rfl
    exact ⟨_, by rw [haddr, hall, ok_bind]⟩
  · rw [labelOf_absent hk hn] at hkey
    exact ⟨_, emitter_label_add_new hkey⟩

theorem emitter_refer_runs (ht : Tracks B em) (h : em.Sound vaddr)
    (hroom : em.cur.len + 4 < BUF_SIZE) (hk : ∀ v, B.known key = some v → 0 ≤ v)
    (assign : assign_type) (instr : BitVec 32) :
    ∃ em', emitter_refer em assign instr key = .ok em' := by
  have hkey := ht key
  have hget : ∃ r, emitter_label_get_or_add_waiter em key assign = .ok r := by
    rcases hknown : B.known key with _ | v
    · by_cases hn : B.Named key
      · rw [labelOf_named hknown hn] at hkey
        exact ⟨_, label_get_awaited assign hkey (by decide)⟩
      · rw [labelOf_absent hknown hn] at hkey
        exact ⟨_, label_get_new assign hkey⟩
    · rw [labelOf_known hknown] at hkey
      exact ⟨_, label_get_defined assign hkey (hk v hknown)⟩
  have hreference : ∃ r, emitter_reference em assign instr key = .ok r := by
    obtain ⟨⟨v, em1⟩, hget⟩ := hget
    rw [emitter_reference, hget, ok_bind]
    by_cases hv : v < 0
    · exact ⟨_, if_pos hv⟩
    · exact ⟨_, if_neg hv⟩
  obtain ⟨⟨w, em1⟩, hreference⟩ := hreference
  obtain ⟨hsect, hcurrent⟩ := emitter_reference_sections hreference
  have h1 : em1.Sound vaddr := by
    intro s
    rw [hsect]
    exact h s
  have hcur : em1.cur = em.cur := by rw [emitter.cur, hsect, hcurrent]; rfl
  obtain ⟨em', hrun, _⟩ := emit_word_lays h1 (by rw [hcur]; exact hroom) w
  refine ⟨em', ?_⟩
  rw [emitter_refer, hreference]
  exact hrun

/-! ## Lines that are accepted alone -/

/-- The line is accepted where both sections are empty, and does not fill them. -/
def AcceptedAlone (s : Sect) (text : List UInt8) : Prop :=
  ∃ rest p, parse_line text ⟨0, .freshAt 0 0 s⟩ = .ok (.ok ((), rest), p) ∧ p.em.Small

theorem AcceptedAlone.small {s : Sect} {text : List UInt8} (h : AcceptedAlone s text) :
    (assembled_alone s text).Small := by
  obtain ⟨rest, p, hrun, hs⟩ := h
  rw [assembled_alone, hrun]
  exact hs

/-- The spot before a line. -/
def spot (texts : List (List UInt8)) (i : Nat) : Spot := (texts.take i).foldl Spot.after .start

theorem spot_succ {texts : List (List UInt8)} {i : Nat} {text : List UInt8}
    (ht : texts[i]? = some text) : spot texts (i + 1) = (spot texts i).after text := by
  rw [spot, List.take_add_one, ht]
  simp [spot]

/-- The sections only grow. -/
theorem sizes_le_after (x : Spot) (text : List UInt8) (s : Sect) :
    x.sizes s ≤ (x.after text).sizes s := Nat.le_add_right _ _

theorem spot_sizes_mono {texts : List (List UInt8)} {i j : Nat} (hij : i ≤ j)
    (hj : j ≤ texts.length) (s : Sect) : (spot texts i).sizes s ≤ (spot texts j).sizes s := by
  induction j with
  | zero =>
    rw [Nat.le_zero.mp hij]
  | succ j ih =>
    rcases Nat.lt_or_eq_of_le hij with hlt | rfl
    · have ht : texts[j]? = some texts[j] := List.getElem?_eq_getElem hj
      rw [spot_succ ht]
      exact (ih (Nat.le_of_lt_succ hlt) (Nat.le_of_succ_le hj)).trans (sizes_le_after _ _ s)
    · exact Nat.le_refl _

/-! ## A line in its place -/

theorem known_nonneg {texts : List (List UInt8)} {errno : Int} {text_vaddr data_vaddr : Nat}
    {p : Process} (h : Calls (.fresh errno text_vaddr data_vaddr) texts p) (hs : p.em.Small)
    {v : Int} (hk : (bookOf (.fresh errno text_vaddr data_vaddr) texts).known key = some v) :
    0 ≤ v := by
  obtain ⟨i, text, q, _, hq, hm⟩ := mem_moves h (Ledger.define_of_known_run hk)
  obtain ⟨_, rfl⟩ := define_mem_effect hm
  rw [(h.small_before (emitter.sound_base text_vaddr data_vaddr) hs hq).addr]
  exact Int.natCast_nonneg _

/-- Bytes that fit leave small sections small. -/
theorem Lays.small {cur : Sect} {bytes : Sect → List UInt8} {em' : emitter}
    (h : Lays cur bytes em em') (hem : em.Sound vaddr) (hem' : em'.Sound vaddr) (hs : em.Small)
    (hfit : ∀ s, (em.sect s).pos + (bytes s).length < BUF_SIZE ∧
      vaddr s + ((em.sect s).pos + (bytes s).length) < 2 ^ 63) : em'.Small := by
  intro s
  obtain ⟨hpos, haddr⟩ := hfit s
  have hv : (em'.sect s).vaddr = vaddr s := (hem' s).2.2
  have hoffset := (hs s).1.offset_zero
  refine ⟨⟨?_, ?_⟩, ?_⟩
  · rw [h.pos_eq hem hem']
    exact hpos
  · rw [h.swap_eq]
    exact hoffset
  · rw [hv, h.pos_eq hem hem']
    exact haddr

/-- There is room for the line in its place. -/
def Spot.Fits (vaddr : Sect → Nat) (x : Spot) : Prop :=
  ∀ s, x.sizes s < BUF_SIZE ∧ vaddr s + x.sizes s < 2 ^ 63

/-- The line goes on from `p` without an `errno`, and stays in the buffers. -/
def GoesOn (text : List UInt8) (em : emitter) : Prop :=
  ∃ rest em', parse_line text ⟨0, em⟩ = .ok (.ok ((), rest), ⟨0, em'⟩) ∧ em'.Small

section Line

variable {text : List UInt8} {x : Spot}

theorem goes_on_other (hr : reading text = some .other) (halone : AcceptedAlone x.sect text)
    (hx : x.At em) (h : em.Sound vaddr) (hs : em.Small) (hfit : (x.after text).Fits vaddr) :
    GoesOn text em := by
  have hsmall := halone.small
  have hfresh := emitter.sound_freshAt 0 0 x.sect
  obtain ⟨rest, p, hrun, _⟩ := halone
  obtain ⟨script, hshort, hscript, hall⟩ := parse_line_scripted hr _ _ _ _ hrun
  have hp : assembled_alone x.sect text = p.em := by rw [assembled_alone, hrun]
  obtain ⟨_, hlays⟩ := run_script_small hshort hfresh hscript (hp ▸ hsmall)
  have hbytes : ∀ s, (x.after text).sizes s = (em.sect s).pos +
      (lays em.current_section script s).length := by
    intro s
    change x.sizes s + ((assembled_alone x.sect text).sect s).image.length = _
    have himage : ((assembled_alone x.sect text).sect s).image = lays x.sect script s := by
      rw [hp]
      exact hlays.image_alone s
    rw [himage, hx.sizes_eq, hx.sect_eq]
  obtain ⟨em', hrun', hlays'⟩ := run_script_room hshort h fun s => by
    rw [hs.room h, ← hbytes]
    exact (hfit s).1
  have h' := Reading.Does.sound (r := .other) (writeSteps_of_script hshort hrun') h
  refine ⟨rest, em', by rw [hall, hrun']; rfl, hlays'.small h h' hs fun s => ?_⟩
  rw [← hbytes]
  exact hfit s

theorem goes_on_refer {assign : assign_type} {instr : BitVec 32}
    (hr : reading text = some (.refer assign instr key)) (halone : AcceptedAlone x.sect text)
    (hx : x.At em) (h : em.Sound vaddr) (hs : em.Small) (ht : Tracks B em)
    (hk : ∀ v, B.known key = some v → 0 ≤ v) (hfit : (x.after text).Fits vaddr) :
    GoesOn text em := by
  obtain ⟨rest, p, hrun, _⟩ := halone
  have hsizes := sizes_after_refer (x := x) hr hrun
  have hroom : em.cur.len + 4 < BUF_SIZE := by
    have := (hfit x.sect).1
    rw [hsizes, if_pos rfl, hx.sizes_eq, hx.sect_eq, ← hs.room h] at this
    exact this
  obtain ⟨em', hrefer⟩ := emitter_refer_runs ht h hroom hk assign instr
  obtain ⟨w, hlays⟩ := emitter_refer_lays h hroom hrefer
  have h' := Reading.Does.sound (r := .refer assign instr key) hrefer h
  refine ⟨rest, em', ?_, hlays.small h h' hs fun s => ?_⟩
  · rw [parse_line_refers hr hrun, hrefer]
    rfl
  · have hbytes : (x.after text).sizes s = (em.sect s).pos +
        (word_in em.current_section w s).length := by
      rw [hsizes, hx.sizes_eq, hx.sect_eq, word_in]
      split <;> simp [length_instr_bytes]
    rw [← hbytes]
    exact hfit s

theorem goes_on_define (hr : reading text = some (.define key)) (halone : AcceptedAlone x.sect text)
    (h : em.Sound vaddr) (hs : em.Small) (ht : Tracks B em) (hw : Written B em)
    (hk : B.known key = none) : GoesOn text em := by
  obtain ⟨rest, p, hrun, _⟩ := halone
  obtain ⟨mid, hline⟩ := parse_line_define_eq hr
  have hend : ∀ q : Process, out_check_line mid q = .ok (.ok ((), rest), q) := by
    rw [hline] at hrun
    obtain ⟨⟨res, em1⟩, _, hrun⟩ := bind_eq_ok.mp hrun
    simp only at hrun
    split at hrun
    · cases hrun
    · exact (out_check_line.inert _ _ _ _ hrun).2
  obtain ⟨em', hadd⟩ := label_add_runs ht hw h hs hk
  refine ⟨rest, em', ?_, (label_add_only_buffers hadd).small_iff.mpr hs⟩
  rw [hline, hadd, ok_bind]
  simp only [ne_eq, not_true_eq_false, if_false]
  exact hend _

end Line

/-! ## A line on its own -/

theorem small_freshAt (s : Sect) : (emitter.freshAt 0 0 s).Small := by
  have hsmall : (emitter.fresh 0 0).Small := by decide
  exact hsmall.of_sect_eq rfl

/-- A few bytes in empty sections. -/
theorem Lays.small_alone {cur s : Sect} {bytes : Sect → List UInt8} {em' : emitter}
    (h : Lays cur bytes (.freshAt 0 0 s) em')
    (hem' : em'.Sound fun | .SECT_TEXT => 0 | .SECT_DATA => 0)
    (hfit : ∀ s', (bytes s').length < BUF_SIZE) : em'.Small := by
  refine h.small (emitter.sound_freshAt 0 0 s) hem' (small_freshAt s) fun s' => ?_
  have hlen := hfit s'
  have hb : BUF_SIZE = 4096 := rfl
  have hpos : ((emitter.freshAt 0 0 s).sect s').pos = 0 := by cases s' <;> rfl
  rw [hpos]
  cases s' <;> exact ⟨by omega, by simp only; omega⟩

theorem emitter_refer_alone (s : Sect) (assign : assign_type) (instr : BitVec 32) (key : string) :
    ∃ em, emitter_refer (.freshAt 0 0 s) assign instr key = .ok em ∧ em.Small := by
  obtain ⟨em, hrefer⟩ := emitter_refer_freshAt s assign instr key
  have hfresh := emitter.sound_freshAt 0 0 s
  have hroom : (emitter.freshAt 0 0 s).cur.len + 4 < BUF_SIZE := by
    rw [emitter.cur, len_freshAt]
    decide
  obtain ⟨w, hlays⟩ := emitter_refer_lays hfresh hroom hrefer
  have h' := Reading.Does.sound (r := .refer assign instr key) hrefer hfresh
  refine ⟨em, hrefer, hlays.small_alone h' fun s' => ?_⟩
  rw [word_in]
  split <;> simp [length_instr_bytes, BUF_SIZE]

theorem emitter_label_add_alone (s : Sect) (key : string) :
    ∃ em, emitter_label_add (.freshAt 0 0 s) key = .ok (0, em) ∧ em.Small := by
  have hadd : emitter_label_add (.freshAt 0 0 s) key = .ok (0, _) := emitter_label_add_new rfl
  exact ⟨_, hadd, (label_add_only_buffers hadd).small_iff.mpr (small_freshAt s)⟩

theorem AcceptedAlone.of_accepted {text rest : List UInt8} {p p' : Process}
    (hrun : parse_line text p = .ok (.ok ((), rest), p')) (hem : p.em.Sound vaddr)
    (hs : p'.em.Small) : AcceptedAlone p.em.current_section text := by
  obtain ⟨r, hr, _⟩ := parse_line_does hrun
  generalize hcur : p.em.current_section = s
  have hfresh := emitter.sound_freshAt 0 0 s
  cases r with
  | blank => exact ⟨_, _, parse_line_blank_eq hr _, small_freshAt s⟩
  | other =>
    obtain ⟨script, hshort, hfollow, hall⟩ := parse_line_scripted hr _ _ _ _ hrun
    obtain ⟨hroom, _⟩ := run_script_small hshort hem hfollow hs
    have hlen : ∀ s', (lays s script s').length < BUF_SIZE := by
      intro s'
      rw [← hcur]
      exact Nat.lt_of_le_of_lt (Nat.le_add_left _ _) (hroom s')
    obtain ⟨em', hrun', hlays⟩ := run_script_room hshort hfresh fun s' => by
      rw [len_freshAt, Nat.zero_add]
      exact hlen s'
    have h' := Reading.Does.sound (r := .other) (writeSteps_of_script hshort hrun') hfresh
    exact ⟨rest, ⟨0, em'⟩, by rw [hall, hrun']; rfl, hlays.small_alone h' hlen⟩
  | refer assign instr key =>
    obtain ⟨em, hrefer, hsmall⟩ := emitter_refer_alone s assign instr key
    exact ⟨rest, ⟨0, em⟩, by rw [parse_line_refers hr hrun, hrefer]; rfl, hsmall⟩
  | define key =>
    obtain ⟨mid, hline⟩ := parse_line_define_eq hr
    obtain ⟨⟨res, em1⟩, _, hafter⟩ := bind_eq_ok.mp ((hline p).symm.trans hrun)
    simp only at hafter
    split at hafter
    · cases hafter
    · obtain ⟨_, hend⟩ := out_check_line.inert _ _ _ _ hafter
      obtain ⟨em, hadd, hsmall⟩ := emitter_label_add_alone s key
      refine ⟨rest, ⟨0, em⟩, ?_, hsmall⟩
      rw [hline, hadd, ok_bind]
      simp only [ne_eq, not_true_eq_false, if_false]
      exact hend _

/-! ## Programs -/

section Programs

variable {text_vaddr data_vaddr : Nat} {texts : List (List UInt8)} {p : Process}

/-- A run comes to its last spot. -/
theorem Assembles.at_end {p' : Process} {x : Spot} (h : Assembles p texts p') (hx : x.At p.em)
    (hem : p.em.Sound vaddr) (hs : p'.em.Small) : (texts.foldl Spot.after x).At p'.em := by
  induction texts generalizing p x with
  | nil =>
    rw [assembles_nil] at h
    rwa [h]
  | cons text texts ih =>
    obtain ⟨rest, p1, hline, hrun⟩ := assembles_cons.mp h
    obtain ⟨r, _, hdoes⟩ := parse_line_does hline
    have hem1 := hdoes.sound hem
    exact ih hrun (placed_line hline hx hem (hrun.small hem1 hs)).at_after hem1

theorem Assembles.at_spot {errno : Int}
    (h : Assembles (.fresh errno text_vaddr data_vaddr) texts p) (hs : p.em.Small) :
    (spot texts texts.length).At p.em := by
  rw [spot, List.take_length]
  exact h.at_end (Spot.start_at text_vaddr data_vaddr) (emitter.sound_base text_vaddr data_vaddr) hs

theorem spot_take {i j : Nat} (hij : i ≤ j) : spot (texts.take j) i = spot texts i := by
  rw [spot, spot, List.take_take, Nat.min_eq_left hij]

theorem Spot.At.fits {x : Spot} (hx : x.At p.em) (hem : p.em.Sound vaddr) (hs : p.em.Small) :
    x.Fits vaddr := by
  intro s
  have hpos := (hs s).1.pos_lt
  have haddr := (hs s).2
  rw [hx.sizes_eq, ← (hem s).2.2]
  exact ⟨hpos, haddr⟩

/-- One more line of a program that has been accepted so far. -/
theorem accepted_succ (honce : DefinedOnce texts)
    (halone : ∀ i text, texts[i]? = some text → AcceptedAlone (spot texts i).sect text)
    (hfit : (spot texts texts.length).Fits (base text_vaddr data_vaddr)) {i : Nat}
    (hi : i < texts.length) {em : emitter}
    (h : Assembles (.fresh 0 text_vaddr data_vaddr) (texts.take i) ⟨0, em⟩) (hs : em.Small) :
    ∃ em', Assembles (.fresh 0 text_vaddr data_vaddr) (texts.take (i + 1)) ⟨0, em'⟩ ∧ em'.Small := by
  have ht : texts[i]? = some texts[i] := List.getElem?_eq_getElem hi
  have hem : em.Sound (base text_vaddr data_vaddr) := h.keeps
    (fun _ _ _ hd hsound => hd.sound hsound) (emitter.sound_base text_vaddr data_vaddr)
  have hx : (spot texts i).At em := by
    have hat := h.at_spot hs
    rwa [List.length_take, Nat.min_eq_left (Nat.le_of_lt hi), spot_take (Nat.le_refl i)] at hat
  have hafter : ((spot texts i).after texts[i]).Fits (base text_vaddr data_vaddr) := by
    intro s
    have hle := spot_sizes_mono (Nat.succ_le_of_lt hi) (Nat.le_refl _) s
    have hlast := hfit s
    rw [spot_succ ht] at hle
    exact ⟨by omega, by omega⟩
  have hline := halone i _ ht
  obtain ⟨_, q, hrun, _⟩ := halone i _ ht
  obtain ⟨r, hr, _⟩ := parse_line_does hrun
  have hgo : GoesOn texts[i] em := by
    cases r with
    | blank => exact ⟨_, _, parse_line_blank_eq hr _, hs⟩
    | other => exact goes_on_other hr hline hx hem hs hafter
    | refer assign instr key =>
      exact goes_on_refer hr hline hx hem hs h.calls.tracks_book (fun _ => known_nonneg h.calls hs)
        hafter
    | define key =>
      exact goes_on_define hr hline hem hs h.calls.tracks_book (h.calls.written_book hs)
        (Ledger.known_run (no_defines_of_not_mem h.calls (honce.elsewhere ht hr).1))
  obtain ⟨rest, em', hgo, hs'⟩ := hgo
  refine ⟨em', ?_, hs'⟩
  rw [List.take_add_one, ht]
  exact assembles_append.mpr ⟨_, h, assembles_cons.mpr ⟨rest, _, hgo, assembles_nil.mpr rfl⟩⟩

/-- Lines that are accepted alone are accepted one after the other. -/
theorem accepted_of_alone (honce : DefinedOnce texts)
    (halone : ∀ i text, texts[i]? = some text → AcceptedAlone (spot texts i).sect text)
    (hfit : (spot texts texts.length).Fits (base text_vaddr data_vaddr)) :
    ∃ p, Assembles (.fresh 0 text_vaddr data_vaddr) texts p ∧ p.em.Small := by
  have hrun : ∀ i, i ≤ texts.length → ∃ em,
      Assembles (.fresh 0 text_vaddr data_vaddr) (texts.take i) ⟨0, em⟩ ∧ em.Small := by
    intro i hi
    induction i with
    | zero =>
      refine ⟨emitter.fresh text_vaddr data_vaddr, assembles_nil.mpr rfl, fun s => ?_⟩
      have haddr := (hfit s).2
      have hzero : 0 < BUF_SIZE := by decide
      cases s <;> exact ⟨⟨hzero, rfl⟩, Nat.lt_of_le_of_lt (Nat.le_add_right _ _) haddr⟩
    | succ i ih =>
      obtain ⟨em, h, hs⟩ := ih (Nat.le_of_succ_le hi)
      exact accepted_succ honce halone hfit hi h hs
  obtain ⟨em, h, hs⟩ := hrun texts.length (Nat.le_refl _)
  rw [List.take_length] at h
  exact ⟨⟨0, em⟩, h, hs⟩

/-- A program whose labels are defined once is accepted within its buffers exactly when
each of its lines is accepted alone and the sizes of the lines add up to sections that
fit. -/
theorem a_program_is_accepted_iff_its_lines_are (text_vaddr data_vaddr : Nat)
    (texts : List (List UInt8)) (honce : DefinedOnce texts) :
    (∃ p, Assembles (.fresh 0 text_vaddr data_vaddr) texts p ∧ p.em.Small) ↔
      (∀ i text, texts[i]? = some text → AcceptedAlone (spot texts i).sect text) ∧
        (spot texts texts.length).Fits (base text_vaddr data_vaddr) := by
  have hstart := emitter.sound_base text_vaddr data_vaddr
  constructor
  · rintro ⟨p, h, hs⟩
    have hem := h.keeps (fun _ _ _ hd hsound => hd.sound hsound) hstart
    refine ⟨fun i text ht => ?_, (h.at_spot hs).fits hem hs⟩
    obtain ⟨q, hq, _⟩ := assembles_append.mp ((List.take_append_drop i texts).symm ▸ h)
    obtain ⟨rest, q', hline, hrun⟩ := line_of_run h ht hq
    have hqem := hq.keeps (fun _ _ _ hd hsound => hd.sound hsound) hstart
    obtain ⟨_, _, hdoes⟩ := parse_line_does hline
    have hlen : (texts.take i).length = i := by
      have := (List.getElem?_eq_some_iff.mp ht).1
      rw [List.length_take]
      omega
    have hat := hq.at_spot (h.small_before hstart hs hq)
    rw [hlen, spot_take (Nat.le_refl i)] at hat
    rw [hat.sect_eq]
    exact .of_accepted hline hqem (hrun.small (hdoes.sound hqem) hs)
  · rintro ⟨halone, hfit⟩
    exact accepted_of_alone honce halone hfit

theorem lines_of_two_sections_accepted_alone :
    let texts := linesOf ["jal x0, end", ".data", "x:", ".half 7, 8", ".text", "end:", "jal x0, x"]
    (∃ p, Assembles (.fresh 0 0x400000 0x10010000) texts p ∧ p.em.Small) ↔
      (∀ i text, texts[i]? = some text → AcceptedAlone (spot texts i).sect text) ∧
        (spot texts texts.length).Fits (base 0x400000 0x10010000) := by
  intro texts
  have honce : (definitions texts).Nodup := by decide +kernel
  exact a_program_is_accepted_iff_its_lines_are 0x400000 0x10010000 texts honce

end Programs

end riscv_assembler
