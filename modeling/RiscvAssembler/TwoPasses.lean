-- A reference for the labels of a program: an assembler of two passes, which assembles
-- each line on its own, finds the addresses of all labels first and only then writes
-- the displacements. One pass with patches gives the same bytes, exactly when each
-- reference is made in time.
import RiscvAssembler.Scripts
import RiscvAssembler.Targets

open checked scanner c_text

namespace riscv_assembler

/-! ## Two passes -/

/-- The emitter after the line alone, in empty sections of which `s` is the current
one. -/
def assembled_alone (s : Sect) (text : List UInt8) : emitter :=
  match parse_line text ⟨0, emitter.freshAt 0 0 s⟩ with
  | .ok (.ok _, p) => p.em
  | _ => emitter.freshAt 0 0 s

/-- Where a line stands: its section, and how much both sections hold before it. -/
structure Spot where
  sect : Sect
  sizes : Sect → Nat

def Spot.start : Spot := ⟨.SECT_TEXT, fun _ => 0⟩

def Spot.after (x : Spot) (text : List UInt8) : Spot where
  sect := (assembled_alone x.sect text).current_section
  sizes s := x.sizes s + ((assembled_alone x.sect text).sect s).image.length

/-- The instruction of a line, as a reference. -/
def Spot.ref (x : Spot) (vaddr : Sect → Nat) (assign : assign_type) (instr : BitVec 32) : Ref :=
  ⟨assign, instr, x.sect, x.sizes x.sect, vaddr x.sect⟩

/-- The first pass: the address of a label. -/
def symbol (vaddr : Sect → Nat) (key : string) : Spot → List (List UInt8) → Option Int
  | _, [] => none
  | x, text :: texts =>
    if reading text = some (.define key) then some (vaddr x.sect + x.sizes x.sect : Nat)
    else symbol vaddr key (x.after text) texts

/-- The bytes of a line. An instruction that names a label has the given word. -/
def line_bytes (vaddr : Sect → Nat) (word : string → Ref → List UInt8) (x : Spot)
    (text : List UInt8) (s : Sect) : List UInt8 :=
  match reading text with
  | some (.refer assign instr key) =>
    if s = x.sect then word key (x.ref vaddr assign instr) else []
  | _ => ((assembled_alone x.sect text).sect s).image

/-- The second pass: the bytes of a section. -/
def linked (vaddr : Sect → Nat) (word : string → Ref → List UInt8) :
    Spot → List (List UInt8) → Sect → List UInt8
  | _, [], _ => []
  | x, text :: texts, s =>
    line_bytes vaddr word x text s ++ linked vaddr word (x.after text) texts s

theorem linked_append (vaddr : Sect → Nat) (word : string → Ref → List UInt8) (x : Spot)
    (as bs : List (List UInt8)) (s : Sect) : linked vaddr word x (as ++ bs) s =
      linked vaddr word x as s ++ linked vaddr word (as.foldl Spot.after x) bs s := by
  induction as generalizing x with
  | nil => rfl
  | cons text texts ih =>
    rw [List.cons_append, linked, linked, ih, List.append_assoc]
    rfl

/-- The word of a reference with the address from the first pass. A label without an
address leaves the displacement at zero. -/
def two_passes (vaddr : Sect → Nat) (texts : List (List UInt8)) (s : Sect) : List UInt8 :=
  linked vaddr (fun key r => instr_bytes (r.word (symbol vaddr key .start texts))) .start texts s

/-! ## A line in its place -/

variable {vaddr : Sect → Nat} {p p' : Process} {texts : List (List UInt8)} {key : string}

/-- The spot is where the emitter stands. -/
structure Spot.At (x : Spot) (em : emitter) : Prop where
  sect_eq : x.sect = em.current_section
  sizes_eq : ∀ s, x.sizes s = (em.sect s).pos

theorem Spot.At.ref_eq {x : Spot} {em : emitter} (h : x.At em) (hem : em.Sound vaddr)
    (assign : assign_type) (instr : BitVec 32) :
    x.ref vaddr assign instr = em.ref assign instr := by
  have hv : em.cur.vaddr = vaddr em.current_section := (hem em.current_section).2.2
  rw [Spot.ref, h.sizes_eq, h.sect_eq, emitter.ref, hv]
  rfl

theorem emitter.sound_freshAt (tv dv : Nat) (s : Sect) :
    (emitter.freshAt tv dv s).Sound fun
      | .SECT_TEXT => tv
      | .SECT_DATA => dv := emitter.sound_fresh tv dv

/-- The bytes of a line that is assembled alone are all that its sections hold. -/
theorem Lays.image_alone {cur s : Sect} {bytes : Sect → List UInt8} {em : emitter}
    (h : Lays cur bytes (.freshAt 0 0 s) em) (s' : Sect) : (em.sect s').image = bytes s' := by
  rw [h.image_eq]
  cases s' <;> rfl

theorem len_freshAt (s s' : Sect) : ((emitter.freshAt 0 0 s).sect s').len = 0 := by
  cases s' <;> rfl

theorem Section.Unfilled.image_eq {x : Section} (h : x.Unfilled) (hok : x.Ok) :
    x.image = x.buf.slice 0 x.pos := by
  simp [Section.image, SparseFile.before, SparseFile.upTo, h.offset_zero, FixedBuffer.slice,
    h.len_eq hok]

section Places

variable {cur : Sect} {bytes : Sect → List UInt8} {em em' : emitter}

theorem Lays.pos_eq (h : Lays cur bytes em em') (hem : em.Sound vaddr) (hem' : em'.Sound vaddr)
    (s : Sect) : (em'.sect s).pos = (em.sect s).pos + (bytes s).length := by
  rw [← (hem s).1.length_image, ← (hem' s).1.length_image, h.image_eq, List.length_append]

/-- In small sections the bytes stand at the old end. -/
theorem Lays.slice_eq (h : Lays cur bytes em em') (hem : em.Sound vaddr) (hem' : em'.Sound vaddr)
    (hs : em'.Small) (s : Sect) :
    (em'.sect s).buf.slice (em.sect s).pos ((em'.sect s).pos - (em.sect s).pos) = bytes s := by
  have himage := (hs s).1.image_eq (hem' s).1
  have hlen := (hem s).1.length_image
  rw [h.image_eq] at himage
  have hdrop := congrArg (List.drop (em.sect s).pos) himage
  rw [← hlen, List.drop_left, hlen] at hdrop
  rw [hdrop]
  simp [FixedBuffer.slice, List.drop_take]

end Places

/-! ## Lines on their own -/

theorem read_statement_ne_blank {text rest : List UInt8} {p p' : Process} {r : Reading}
    (h : read_statement text p = .ok (.ok (r, rest), p')) : r ≠ .blank := by
  rintro rfl
  obtain ⟨known, mid, p1, _, h2⟩ := bind_eq_ok_ok.mp h
  cases known with
  | none =>
    obtain ⟨_, _, _, _, h3⟩ := bind_eq_ok_ok.mp h2
    cases h3
  | some operation =>
    simp only at h2
    rcases hv : vocable.ofNumber operation with _ | o | d <;> rw [hv] at h2
    · cases h2
    · simp only at h2
      split at h2
      · obtain ⟨x, _, _, _, h4⟩ := bind_eq_ok_ok.mp h2
        cases x <;> cases h4
      · cases h2
    · cases h2

theorem parse_line_blank_eq {text : List UInt8} (hr : reading text = some .blank) (q : Process) :
    parse_line text q = .ok (.ok ((), text), q) := by
  obtain ⟨after, hread⟩ := reading_some hr
  obtain ⟨_, mid, p1, h1, h2⟩ := bind_eq_ok_ok.mp (hread q)
  obtain ⟨rfl, _⟩ := skip_whitespace.inert _ _ _ _ h1
  obtain ⟨c, mid2, p2, h3, h4⟩ := bind_eq_ok_ok.mp h2
  obtain ⟨rfl, _⟩ := Inert.peek _ _ _ _ h3
  rw [parse_line, bind_run_ok cursor_run, bind_run_ok h1, bind_run_ok h3]
  by_cases hc : c = ch '\n'
  · rw [if_pos hc]
    rfl
  · rw [if_neg hc] at h4
    exact absurd rfl (read_statement_ne_blank h4)

/-- The bytes of one word in a section. -/
def word_in (s : Sect) (w : BitVec 32) (s' : Sect) : List UInt8 :=
  if s' = s then instr_bytes w else []

theorem emit_word_lays {em : emitter} (hem : em.Sound vaddr) (hroom : em.cur.len + 4 < BUF_SIZE)
    (w : BitVec 32) : ∃ em', emitter_buffer em (instr_bytes w) = .ok em' ∧
      Lays em.current_section (word_in em.current_section w) em em' := by
  have hshort : ScriptCall.Short (.act (.buffer (instr_bytes w))) := by
    change (instr_bytes w).length < BUF_SIZE
    rw [length_instr_bytes]
    decide
  refine ScriptCall.run_room hshort hem fun s => ?_
  by_cases hs : s = em.current_section
  · subst hs
    rw [emitter.cur] at hroom
    simpa [ScriptCall.lays, Write.bytes, length_instr_bytes] using hroom
  · simpa [ScriptCall.lays, hs] using (hem s).1.len_lt

/-- A reference puts one word at the end of the section. -/
theorem emitter_refer_lays {em em' : emitter} {assign : assign_type} {instr : BitVec 32}
    (hem : em.Sound vaddr) (hroom : em.cur.len + 4 < BUF_SIZE)
    (hrun : emitter_refer em assign instr key = .ok em') :
    ∃ w, Lays em.current_section (word_in em.current_section w) em em' := by
  obtain ⟨⟨w, em1⟩, h1, h2⟩ := bind_eq_ok.mp hrun
  obtain ⟨hsect, hcurrent⟩ := emitter_reference_sections h1
  have hem1 : em1.Sound vaddr := by
    intro s
    rw [hsect]
    exact hem s
  have hcur : em1.cur = em.cur := by rw [emitter.cur, hsect, hcurrent]; rfl
  obtain ⟨em2, hrun2, hlays⟩ := emit_word_lays hem1 (by rw [hcur]; exact hroom) w
  obtain rfl : em' = em2 := Except.ok.inj (h2.symm.trans hrun2)
  rw [hcurrent] at hlays
  exact ⟨w, hlays.current_eq, fun s => by rw [hlays.image_eq, hsect],
    fun s => by rw [hlays.swap_eq, hsect]⟩

theorem emitter_refer_freshAt (s : Sect) (assign : assign_type) (instr : BitVec 32) (key : string) :
    ∃ em, emitter_refer (.freshAt 0 0 s) assign instr key = .ok em := by
  have hnew : (emitter.freshAt 0 0 s).labels.lookup key = none := rfl
  have hrefer : ∃ em1 : emitter,
      emitter_reference (.freshAt 0 0 s) assign instr key = .ok (instr, em1) ∧
      em1.sect = (emitter.freshAt 0 0 s).sect := by
    refine ⟨{ emitter.freshAt 0 0 s with
      labels := (emitter.freshAt 0 0 s).labels.insert key
        ⟨some [(emitter.freshAt 0 0 s).waiter assign], -1⟩ }, ?_, rfl⟩
    rw [emitter_reference, label_get_new assign hnew, ok_bind]
    rfl
  obtain ⟨em1, hrun1, hsect⟩ := hrefer
  have hem1 : em1.Sound fun | .SECT_TEXT => 0 | .SECT_DATA => 0 := by
    intro s'
    rw [hsect]
    exact emitter.sound_freshAt 0 0 s s'
  have hroom : em1.cur.len + 4 < BUF_SIZE := by
    rw [emitter.cur, hsect, len_freshAt]
    decide
  obtain ⟨em2, hrun2, _⟩ := emit_word_lays hem1 hroom instr
  exact ⟨em2, by rw [emitter_refer, hrun1]; exact hrun2⟩

/-- An accepted line on its own: its bytes, and the section after it. -/
theorem assembled_alone_lays {text rest : List UInt8} {r : Reading} (hr : reading text = some r)
    (hrun : parse_line text p = .ok (.ok ((), rest), p')) (hem : p.em.Sound vaddr)
    (hs : p'.em.Small) (hno : ∀ assign instr key, r ≠ .refer assign instr key)
    (hno' : ∀ key, r ≠ .define key) : ∃ cur bytes, Lays cur bytes p.em p'.em ∧
      Lays cur bytes (.freshAt 0 0 p.em.current_section)
        (assembled_alone p.em.current_section text) := by
  unfold assembled_alone
  cases r with
  | refer assign instr key => exact absurd rfl (hno assign instr key)
  | define key => exact absurd rfl (hno' key)
  | blank =>
    rw [parse_line_blank_eq hr] at hrun ⊢
    cases hrun
    exact ⟨p.em.current_section, fun _ => [], ⟨rfl, fun _ => (List.append_nil _).symm, fun _ => rfl⟩,
      rfl, fun _ => (List.append_nil _).symm, fun _ => rfl⟩
  | other =>
    obtain ⟨script, hshort, hfollow, hall⟩ := parse_line_scripted hr _ _ _ _ hrun
    obtain ⟨hroom, hlays⟩ := run_script_small hshort hem hfollow hs
    have hfresh : ∀ s, ((emitter.freshAt 0 0 p.em.current_section).sect s).len +
        (lays p.em.current_section script s).length < BUF_SIZE := by
      intro s
      have := hroom s
      rw [len_freshAt]
      omega
    obtain ⟨em1, hrun1, hlays1⟩ := run_script_room hshort
      (emitter.sound_freshAt 0 0 p.em.current_section) hfresh
    rw [hall, hrun1]
    exact ⟨_, _, hlays, hlays1⟩

theorem assembled_alone_refer {text rest : List UInt8} {assign : assign_type} {instr : BitVec 32}
    (hr : reading text = some (.refer assign instr key))
    (hrun : parse_line text p = .ok (.ok ((), rest), p')) (s : Sect) :
    ∃ w, Lays s (word_in s w) (.freshAt 0 0 s) (assembled_alone s text) := by
  obtain ⟨em, hem⟩ := emitter_refer_freshAt s assign instr key
  have halone : assembled_alone s text = em := by
    rw [assembled_alone, parse_line_refers hr hrun, hem]
    rfl
  rw [halone]
  refine emitter_refer_lays (emitter.sound_freshAt 0 0 s) ?_ hem
  rw [emitter.cur, len_freshAt]
  decide

theorem assembled_alone_define {text rest : List UInt8} (hr : reading text = some (.define key))
    (hrun : parse_line text p = .ok (.ok ((), rest), p')) (s : Sect) :
    Lays s (fun _ => []) (.freshAt 0 0 s) (assembled_alone s text) := by
  obtain ⟨mid, hline⟩ := parse_line_define_eq hr
  have hend : ∀ q : Process, out_check_line mid q = .ok (.ok ((), rest), q) := by
    rw [hline] at hrun
    obtain ⟨⟨res, em⟩, _, hrun⟩ := bind_eq_ok.mp hrun
    simp only at hrun
    split at hrun
    · cases hrun
    · exact (out_check_line.inert _ _ _ _ hrun).2
  rw [assembled_alone, hline, emitter_label_add_new rfl]
  simp only [ok_bind, ne_eq, not_true_eq_false, if_false, hend]
  exact ⟨rfl, fun _ => (List.append_nil _).symm, fun _ => rfl⟩

/-! ## A line in its place -/

theorem emitter.Small.room {em : emitter} (h : em.Small) (hem : em.Sound vaddr) (s : Sect) :
    (em.sect s).len = (em.sect s).pos := (h s).1.len_eq (hem s).1

theorem emitter_refer_room {em em' : emitter} {assign : assign_type} {instr : BitVec 32}
    (hem : em.Sound vaddr) (hrun : emitter_refer em assign instr key = .ok em') (hs : em'.Small) :
    em.cur.len + 4 < BUF_SIZE := by
  have hsmall := Reading.Does.small (r := .refer assign instr key) hrun hem hs
  obtain ⟨⟨w, em1⟩, h1, h2⟩ := bind_eq_ok.mp hrun
  obtain ⟨hsect, hcurrent⟩ := emitter_reference_sections h1
  have hem1 : em1.Sound vaddr := by
    intro s
    rw [hsect]
    exact hem s
  have hlen : (instr_bytes w).length < BUF_SIZE := by
    rw [length_instr_bytes]
    decide
  have hend := (emitter_buffer_small hlen hem1 h2 hs).2.1
  have hlt := (hs em1.current_section).1.pos_lt
  have hroom := hsmall.room hem em.current_section
  rw [length_instr_bytes, emitter.cur, hsect] at hend
  rw [hend, hcurrent] at hlt
  rw [emitter.cur, hroom]
  exact hlt

/-- The emitter goes on to the next spot, and has the bytes of the line between the
two. -/
structure Placed (vaddr : Sect → Nat) (x : Spot) (text : List UInt8) (em : emitter) : Prop where
  at_after : (x.after text).At em
  bytes_eq : ∀ s, (em.sect s).buf.slice (x.sizes s) ((x.after text).sizes s - x.sizes s) =
    line_bytes vaddr (fun _ r => em.wordAt r) x text s

theorem line_bytes_of_not_refer {text : List UInt8} {r : Reading} (hr : reading text = some r)
    (hno : ∀ assign instr key, r ≠ .refer assign instr key) (word : string → Ref → List UInt8)
    (x : Spot) (s : Sect) :
    line_bytes vaddr word x text s = ((assembled_alone x.sect text).sect s).image := by
  unfold line_bytes
  rw [hr]
  cases r with
  | refer assign instr key => exact absurd rfl (hno assign instr key)
  | _ => rfl

theorem Placed.of_lays {x : Spot} {text : List UInt8} {em em' : emitter} {cur : Sect}
    {bytes : Sect → List UInt8} (hx : x.At em) (hem : em.Sound vaddr) (hem' : em'.Sound vaddr)
    (hs : em'.Small) (hlays : Lays cur bytes em em')
    (halone : Lays cur bytes (.freshAt 0 0 x.sect) (assembled_alone x.sect text))
    {r : Reading} (hr : reading text = some r)
    (hno : ∀ assign instr key, r ≠ .refer assign instr key) : Placed vaddr x text em' := by
  have hat : (x.after text).At em' := by
    refine ⟨halone.current_eq.trans hlays.current_eq.symm, fun s => ?_⟩
    change x.sizes s + ((assembled_alone x.sect text).sect s).image.length = _
    rw [halone.image_alone, hlays.pos_eq hem hem', hx.sizes_eq]
  refine ⟨hat, fun s => ?_⟩
  rw [line_bytes_of_not_refer hr hno, halone.image_alone, ← hlays.slice_eq hem hem' hs s,
    hat.sizes_eq, hx.sizes_eq]

theorem sizes_after_refer {x : Spot} {text rest : List UInt8} {assign : assign_type}
    {instr : BitVec 32} (hr : reading text = some (.refer assign instr key))
    (hrun : parse_line text p = .ok (.ok ((), rest), p')) (s : Sect) :
    (x.after text).sizes s = x.sizes s + if s = x.sect then 4 else 0 := by
  obtain ⟨w, halone⟩ := assembled_alone_refer hr hrun x.sect
  change x.sizes s + ((assembled_alone x.sect text).sect s).image.length = _
  rw [halone.image_alone, word_in]
  split <;> simp [length_instr_bytes]

/-- The bytes of a line with a reference are the word of it. -/
theorem slice_of_refer {x : Spot} {text rest : List UInt8} {assign : assign_type}
    {instr : BitVec 32} (hr : reading text = some (.refer assign instr key))
    (hrun : parse_line text p = .ok (.ok ((), rest), p')) (em : emitter) (s : Sect) :
    (em.sect s).buf.slice (x.sizes s) ((x.after text).sizes s - x.sizes s) =
      line_bytes vaddr (fun _ r => em.wordAt r) x text s := by
  unfold line_bytes
  rw [hr, sizes_after_refer hr hrun, Nat.add_sub_cancel_left]
  by_cases hs : s = x.sect
  · subst hs
    simp only [if_true]
    rfl
  · simp only [if_neg hs]
    rfl

/-- An accepted line is where the two passes put it. -/
theorem placed_line {x : Spot} {text rest : List UInt8}
    (hrun : parse_line text p = .ok (.ok ((), rest), p')) (hx : x.At p.em)
    (hem : p.em.Sound vaddr) (hs : p'.em.Small) : Placed vaddr x text p'.em := by
  obtain ⟨r, hr, hdoes⟩ := parse_line_does hrun
  have hem' := hdoes.sound hem
  cases r with
  | blank =>
    obtain ⟨cur, bytes, hlays, halone⟩ := assembled_alone_lays hr hrun hem hs nofun nofun
    rw [← hx.sect_eq] at halone
    exact .of_lays hx hem hem' hs hlays halone hr nofun
  | other =>
    obtain ⟨cur, bytes, hlays, halone⟩ := assembled_alone_lays hr hrun hem hs nofun nofun
    rw [← hx.sect_eq] at halone
    exact .of_lays hx hem hem' hs hlays halone hr nofun
  | define key =>
    have halone := assembled_alone_define hr hrun x.sect
    obtain ⟨hcurrent, hbuf⟩ := label_add_only_buffers hdoes
    have hpos : ∀ s, (p'.em.sect s).pos = (p.em.sect s).pos := by
      intro s
      obtain ⟨buf, he⟩ := hbuf s
      rw [he]
    have hsizes : ∀ s, (x.after text).sizes s = x.sizes s := by
      intro s
      change x.sizes s + ((assembled_alone x.sect text).sect s).image.length = _
      rw [halone.image_alone]
      rfl
    refine ⟨⟨halone.current_eq.trans (hx.sect_eq.trans hcurrent.symm), fun s => ?_⟩, fun s => ?_⟩
    · rw [hsizes, hpos, hx.sizes_eq]
    · rw [hsizes, Nat.sub_self, line_bytes_of_not_refer hr nofun, halone.image_alone]
      rfl
  | refer assign instr key =>
    obtain ⟨w, hlays⟩ := emitter_refer_lays hem (emitter_refer_room hem hdoes hs) hdoes
    obtain ⟨_, halone⟩ := assembled_alone_refer hr hrun x.sect
    refine ⟨⟨halone.current_eq.trans (hx.sect_eq.trans hlays.current_eq.symm), fun s => ?_⟩,
      slice_of_refer hr hrun p'.em⟩
    rw [sizes_after_refer hr hrun, hlays.pos_eq hem hem', hx.sizes_eq, hx.sect_eq, word_in]
    split <;> simp [length_instr_bytes]

/-! ## Runs -/

/-- A line that names no label adds no reference to the ledger. -/
theorem refs_of_moves {B : Book} {r : Reading} (hno : ∀ assign instr key, r ≠ .refer assign instr key)
    {em : emitter} {e : LedgerEntry string Ref Int} (he : e ∈ (B.run (r.moves em)).entries) :
    ∃ e' ∈ B.entries, e'.ref = e.ref := by
  cases r with
  | refer assign instr key => exact absurd rfl (hno assign instr key)
  | define key =>
    have he : e ∈ (B.define key em.addr).entries := he
    rw [Ledger.define_entries] at he
    obtain ⟨e', he', rfl⟩ := List.mem_map.mp he
    exact ⟨e', he', (Ledger.settle_key key em.addr e').2.symm⟩
  | blank => exact ⟨e, he, rfl⟩
  | other => exact ⟨e, he, rfl⟩

/-- A slice that is whole before a line and beside all references stays. -/
theorem Reading.Does.frame {B : Book} {r : Reading} {em em' : emitter} (hd : r.Does em em')
    (hw : Written B em) (ht : Tracks B em) (hem : em.Sound vaddr) (hs : em'.Small) {s : Sect}
    {off k : Nat} (hin : off + k ≤ (em.sect s).pos) (hb : ∀ e ∈ B.entries, e.ref.Beside s off k) :
    (em'.sect s).buf.slice off k = (em.sect s).buf.slice off k ∧ off + k ≤ (em'.sect s).pos ∧
      ∀ e ∈ (B.run (r.moves em)).entries, e.ref.Beside s off k := by
  have hold : (∀ assign instr key, r ≠ .refer assign instr key) →
      ∀ e ∈ (B.run (r.moves em)).entries, e.ref.Beside s off k := by
    intro hno e he
    obtain ⟨e', he', href⟩ := refs_of_moves hno he
    rw [← href]
    exact hb e' he'
  cases r with
  | blank =>
    rw [Reading.Does] at hd
    subst hd
    exact ⟨rfl, hin, hb⟩
  | other =>
    have hext := (writes_small hd hem hs).2 s
    exact ⟨hext.slice_eq off k hin, hin.trans hext.pos_le, hold (by simp)⟩
  | define key =>
    have hbuf := label_add_only_buffers hd
    obtain ⟨_, hframe⟩ := label_add_words ht hem (hbuf.small_iff.mp hs) hw hd
    refine ⟨hframe s off k fun r hr => ?_, ?_, hold (by simp)⟩
    · obtain ⟨e, he, _, rfl⟩ := mem_awaiting.mp hr
      exact hb e he
    · obtain ⟨buf, hsect⟩ := hbuf.2 s
      rw [hsect]
      exact hin
  | refer assign instr key =>
    have hext := (emitter_refer_word ht hem hs hd).1 s
    refine ⟨hext.slice_eq off k hin, hin.trans hext.pos_le, fun e he => ?_⟩
    have he : e ∈ B.entries ++ [⟨key, em.ref assign instr, B.known key⟩] := he
    rcases List.mem_append.mp he with he | he
    · exact hb e he
    · rw [List.mem_singleton.mp he]
      rintro rfl
      exact Or.inl hin

theorem Assembles.frame {B : Book} (h : Assembles p texts p') (hw : Written B p.em)
    (ht : Tracks B p.em) (hem : p.em.Sound vaddr) (hs : p'.em.Small) {s : Sect} {off k : Nat}
    (hin : off + k ≤ (p.em.sect s).pos) (hb : ∀ e ∈ B.entries, e.ref.Beside s off k) :
    (p'.em.sect s).buf.slice off k = (p.em.sect s).buf.slice off k := by
  induction texts generalizing p B with
  | nil =>
    rw [assembles_nil] at h
    rw [h]
  | cons text texts ih =>
    obtain ⟨rest, p1, hline, hrun⟩ := assembles_cons.mp h
    obtain ⟨r, _, hdoes⟩ := parse_line_does hline
    have hem1 := hdoes.sound hem
    have hs1 := hrun.small hem1 hs
    obtain ⟨hslice, hin1, hb1⟩ := hdoes.frame hw ht hem hs1 hin hb
    rw [← hslice]
    exact ih hrun (hdoes.written hw ht hem hs1) (hdoes.tracks ht) hem1 hin1 hb1

theorem slice_add (b : FixedBuffer BUF_SIZE) (off j k : Nat) :
    b.slice off (j + k) = b.slice off j ++ b.slice (off + j) k := by
  simp [FixedBuffer.slice, List.take_add]

/-- What the line put into a section is still there after the run, its reference
excepted, which may have got its displacement. -/
theorem line_after_run {B : Book} {x : Spot} {text : List UInt8} {r : Reading} {p1 : Process}
    {rest : List UInt8} (hline : parse_line text p = .ok (.ok ((), rest), p1))
    (hr : reading text = some r) (hdoes : r.Does p.em p1.em) (hx : x.At p.em) (hw : Written B p.em)
    (ht : Tracks B p.em) (hem : p.em.Sound vaddr) (h : Assembles p1 texts p') (hs : p'.em.Small)
    (s : Sect) :
    (p'.em.sect s).buf.slice (x.sizes s) ((x.after text).sizes s - x.sizes s) =
      line_bytes vaddr (fun _ r => p'.em.wordAt r) x text s := by
  have hem1 := hdoes.sound hem
  have hs1 := h.small hem1 hs
  have hplaced := placed_line hline hx hem hs1
  have hle : x.sizes s ≤ (x.after text).sizes s := Nat.le_add_right _ _
  by_cases hrefer : ∃ assign instr key, r = .refer assign instr key
  · obtain ⟨assign, instr, key, rfl⟩ := hrefer
    exact slice_of_refer hr hline p'.em s
  · have hno : ∀ assign instr key, r ≠ .refer assign instr key := fun assign instr key he =>
      hrefer ⟨assign, instr, key, he⟩
    rw [line_bytes_of_not_refer hr hno, ← line_bytes_of_not_refer hr hno (fun _ r => p1.em.wordAt r),
      ← hplaced.bytes_eq]
    refine h.frame (hdoes.written hw ht hem hs1) (hdoes.tracks ht) hem1 hs ?_ fun e he => ?_
    · rw [← hplaced.at_after.sizes_eq]
      omega
    · obtain ⟨e', he', href⟩ := refs_of_moves hno he
      rintro rfl
      refine Or.inr ?_
      rw [← href, hx.sizes_eq]
      exact (hw.inside e' he').off_le

/-- After a run both sections hold the bytes of its lines, one line after the other. -/
theorem Assembles.linked {B : Book} {x : Spot} (h : Assembles p texts p') (hx : x.At p.em)
    (hw : Written B p.em) (ht : Tracks B p.em) (hem : p.em.Sound vaddr) (hs : p'.em.Small)
    (s : Sect) : x.sizes s ≤ (p'.em.sect s).pos ∧
      (p'.em.sect s).buf.slice (x.sizes s) ((p'.em.sect s).pos - x.sizes s) =
        riscv_assembler.linked vaddr (fun _ r => p'.em.wordAt r) x texts s := by
  induction texts generalizing p B x with
  | nil =>
    rw [assembles_nil] at h
    rw [h, hx.sizes_eq, Nat.sub_self]
    exact ⟨Nat.le_refl _, rfl⟩
  | cons text texts ih =>
    obtain ⟨rest, p1, hline, hrun⟩ := assembles_cons.mp h
    obtain ⟨r, hr, hdoes⟩ := parse_line_does hline
    have hem1 := hdoes.sound hem
    have hs1 := hrun.small hem1 hs
    have hplaced := placed_line hline hx hem hs1
    obtain ⟨hle, hrest⟩ := ih hrun hplaced.at_after (hdoes.written hw ht hem hs1)
      (hdoes.tracks ht) hem1
    have hfirst := line_after_run hline hr hdoes hx hw ht hem hrun hs s
    have hle' : x.sizes s ≤ (x.after text).sizes s := Nat.le_add_right _ _
    refine ⟨Nat.le_trans hle' hle, ?_⟩
    have hsplit : (p'.em.sect s).pos - x.sizes s = ((x.after text).sizes s - x.sizes s) +
        ((p'.em.sect s).pos - (x.after text).sizes s) := by omega
    rw [hsplit, slice_add, hfirst, Nat.add_sub_cancel' hle', hrest]
    rfl

/-! ## References and labels, line by line -/

/-- The lines of a run with the states before them. -/
theorem line_at_cons {text rest : List UInt8} {p1 : Process} (texts : List (List UInt8))
    (hline : parse_line text p = .ok (.ok ((), rest), p1)) {i : Nat} {t : List UInt8} {q : Process} :
    (text :: texts)[i]? = some t ∧ Assembles p ((text :: texts).take i) q ↔
      (i = 0 ∧ t = text ∧ q = p) ∨
        ∃ j, i = j + 1 ∧ texts[j]? = some t ∧ Assembles p1 (texts.take j) q := by
  cases i with
  | zero =>
    constructor
    · rintro ⟨ht, hq⟩
      cases ht
      exact Or.inl ⟨rfl, rfl, assembles_nil.mp hq⟩
    · rintro (⟨_, rfl, rfl⟩ | ⟨j, hj, _⟩)
      · exact ⟨rfl, assembles_nil.mpr rfl⟩
      · cases hj
  | succ j =>
    simp only [List.getElem?_cons_succ, List.take_succ_cons, assembles_cons, Nat.add_one_ne_zero,
      false_and, false_or, Nat.add_right_cancel_iff]
    constructor
    · rintro ⟨ht, rest', p2, hline', hq⟩
      rw [hline] at hline'
      cases hline'
      exact ⟨j, rfl, ht, hq⟩
    · rintro ⟨j', rfl, ht, hq⟩
      exact ⟨ht, rest, p1, hline, hq⟩

theorem refersAt_cons {text rest : List UInt8} {p1 : Process}
    (hline : parse_line text p = .ok (.ok ((), rest), p1)) {i : Nat} {r : Ref} :
    RefersAt p (text :: texts) i key r ↔
      (i = 0 ∧ ∃ assign instr, reading text = some (.refer assign instr key) ∧
        r = p.em.ref assign instr) ∨ ∃ j, i = j + 1 ∧ RefersAt p1 texts j key r := by
  constructor
  · rintro ⟨t, q, assign, instr, ht, hq, hr, rfl⟩
    rcases (line_at_cons texts hline).mp ⟨ht, hq⟩ with ⟨rfl, rfl, rfl⟩ | ⟨j, rfl, ht, hq⟩
    · exact Or.inl ⟨rfl, assign, instr, hr, rfl⟩
    · exact Or.inr ⟨j, rfl, t, q, assign, instr, ht, hq, hr, rfl⟩
  · rintro (⟨rfl, assign, instr, hr, rfl⟩ | ⟨j, rfl, t, q, assign, instr, ht, hq, hr, rfl⟩)
    · obtain ⟨ht, hq⟩ := (line_at_cons texts hline).mpr (Or.inl ⟨rfl, rfl, rfl⟩)
      exact ⟨text, p, assign, instr, ht, hq, hr, rfl⟩
    · obtain ⟨ht, hq⟩ := (line_at_cons texts hline).mpr (Or.inr ⟨j, rfl, ht, hq⟩)
      exact ⟨t, q, assign, instr, ht, hq, hr, rfl⟩

theorem definesAt_cons {text rest : List UInt8} {p1 : Process}
    (hline : parse_line text p = .ok (.ok ((), rest), p1)) {j a : Nat} :
    DefinesAt p (text :: texts) j key a ↔
      (j = 0 ∧ reading text = some (.define key) ∧ a = p.em.cur.vaddr + p.em.cur.pos) ∨
        ∃ j', j = j' + 1 ∧ DefinesAt p1 texts j' key a := by
  constructor
  · rintro ⟨t, q, ht, hq, hr, rfl⟩
    rcases (line_at_cons texts hline).mp ⟨ht, hq⟩ with ⟨rfl, rfl, rfl⟩ | ⟨j, rfl, ht, hq⟩
    · exact Or.inl ⟨rfl, hr, rfl⟩
    · exact Or.inr ⟨j, rfl, t, q, ht, hq, hr, rfl⟩
  · rintro (⟨rfl, hr, rfl⟩ | ⟨j, rfl, t, q, ht, hq, hr, rfl⟩)
    · obtain ⟨ht, hq⟩ := (line_at_cons texts hline).mpr (Or.inl ⟨rfl, rfl, rfl⟩)
      exact ⟨text, p, ht, hq, hr, rfl⟩
    · obtain ⟨ht, hq⟩ := (line_at_cons texts hline).mpr (Or.inr ⟨j, rfl, ht, hq⟩)
      exact ⟨t, q, ht, hq, hr, rfl⟩

/-- A label that is defined once is defined in one line, at one address. -/
theorem DefinesAt.unique {j j' a a' : Nat} (hd : DefinesAt p texts j key a)
    (hd' : DefinesAt p texts j' key a') (honce : DefinedOnce texts) : j' = j ∧ a' = a := by
  obtain ⟨text, q, ht, hq, hdef, rfl⟩ := hd
  obtain ⟨text', q', ht', hq', hdef', rfl⟩ := hd'
  obtain ⟨hbefore, hafter⟩ := honce.elsewhere ht hdef
  have hj : j' = j := by
    rcases Nat.lt_trichotomy j' j with hlt | heq | hgt
    · refine absurd (mem_definitions.mpr ⟨text', ?_, hdef'⟩) hbefore
      exact List.mem_of_getElem? ((List.getElem?_take_of_lt hlt).trans ht')
    · exact heq
    · refine absurd (mem_definitions.mpr ⟨text', ?_, hdef'⟩) hafter
      refine List.mem_of_getElem? (i := j' - (j + 1)) ?_
      rw [List.getElem?_drop, Nat.add_sub_cancel' hgt]
      exact ht'
  subst hj
  rw [hq.unique hq']
  exact ⟨rfl, rfl⟩

/-- The first pass finds no address for a label that is not defined, -/
theorem symbol_eq_none (hk : key ∉ definitions texts) (x : Spot) :
    symbol vaddr key x texts = none := by
  induction texts generalizing x with
  | nil => rfl
  | cons text texts ih =>
    rw [← List.singleton_append, definitions_append, List.mem_append, not_or] at hk
    unfold symbol
    rw [if_neg fun hr => hk.1 (mem_definitions.mpr ⟨text, List.mem_singleton_self text, hr⟩)]
    exact ih hk.2 _

/-- and the address of the first definition for one that is. -/
theorem symbol_eq_some {x : Spot} {j a : Nat} (h : Assembles p texts p') (hx : x.At p.em)
    (hem : p.em.Sound vaddr) (hs : p'.em.Small) (hd : DefinesAt p texts j key a)
    (hfirst : key ∉ definitions (texts.take j)) : symbol vaddr key x texts = some (a : Int) := by
  induction texts generalizing p x j with
  | nil =>
    obtain ⟨_, _, ht, _⟩ := hd
    cases ht
  | cons text texts ih =>
    obtain ⟨rest, p1, hline, hrun⟩ := assembles_cons.mp h
    obtain ⟨r, _, hdoes⟩ := parse_line_does hline
    have hem1 := hdoes.sound hem
    unfold symbol
    rcases (definesAt_cons hline).mp hd with ⟨rfl, hr, rfl⟩ | ⟨j, rfl, hd'⟩
    · have hv : p.em.cur.vaddr = vaddr p.em.current_section := (hem p.em.current_section).2.2
      rw [if_pos hr, hx.sizes_eq, hx.sect_eq, hv]
      rfl
    · rw [List.take_succ_cons, ← List.singleton_append, definitions_append, List.mem_append,
        not_or] at hfirst
      rw [if_neg fun hr => hfirst.1 (mem_definitions.mpr ⟨text, List.mem_singleton_self text, hr⟩)]
      exact ih hrun (placed_line hline hx hem (hrun.small hem1 hs)).at_after hem1 hd' hfirst.2

section Words

variable (word word' : string → Ref → List UInt8) {x : Spot} {text : List UInt8}

theorem line_bytes_of_refer {em : emitter} (hx : x.At em) (hem : em.Sound vaddr)
    {assign : assign_type} {instr : BitVec 32}
    (hr : reading text = some (.refer assign instr key)) (s : Sect) :
    line_bytes vaddr word x text s =
      if s = x.sect then word key (em.ref assign instr) else [] := by
  unfold line_bytes
  rw [hr]
  simp only [hx.ref_eq hem]

/-- The words of the reference that a line makes, if it makes one. -/
theorem line_bytes_eq_iff {em : emitter} (hx : x.At em) (hem : em.Sound vaddr) :
    (∀ s, line_bytes vaddr word x text s = line_bytes vaddr word' x text s) ↔
      ∀ assign instr key, reading text = some (.refer assign instr key) →
        word key (em.ref assign instr) = word' key (em.ref assign instr) := by
  constructor
  · intro heq assign instr key hr
    have hsame := heq x.sect
    rwa [line_bytes_of_refer word hx hem hr, line_bytes_of_refer word' hx hem hr, if_pos rfl,
      if_pos rfl] at hsame
  · intro heq s
    by_cases hrefer : ∃ assign instr key, reading text = some (.refer assign instr key)
    · obtain ⟨assign, instr, key, hr⟩ := hrefer
      rw [line_bytes_of_refer word hx hem hr, line_bytes_of_refer word' hx hem hr,
        heq assign instr key hr]
    · unfold line_bytes
      split
      · rename_i assign instr key hr
        exact absurd ⟨assign, instr, key, hr⟩ hrefer
      · rfl

theorem length_line_bytes {em : emitter} (hx : x.At em) (hem : em.Sound vaddr)
    (hlen : ∀ assign instr key, reading text = some (.refer assign instr key) →
      (word key (em.ref assign instr)).length = (word' key (em.ref assign instr)).length) (s : Sect) :
    (line_bytes vaddr word x text s).length = (line_bytes vaddr word' x text s).length := by
  by_cases hrefer : ∃ assign instr key, reading text = some (.refer assign instr key)
  · obtain ⟨assign, instr, key, hr⟩ := hrefer
    rw [line_bytes_of_refer word hx hem hr, line_bytes_of_refer word' hx hem hr]
    split
    · exact hlen assign instr key hr
    · rfl
  · have hsame := (line_bytes_eq_iff word word' hx hem).mpr
      fun assign instr key hr => absurd ⟨assign, instr, key, hr⟩ hrefer
    rw [hsame s]

/-- Two ways to write the words give the same sections exactly when they write the same
words. -/
theorem linked_eq_iff (h : Assembles p texts p') (hx : x.At p.em) (hem : p.em.Sound vaddr)
    (hs : p'.em.Small)
    (hlen : ∀ i key r, RefersAt p texts i key r → (word key r).length = (word' key r).length) :
    (∀ s, linked vaddr word x texts s = linked vaddr word' x texts s) ↔
      ∀ i key r, RefersAt p texts i key r → word key r = word' key r := by
  induction texts generalizing p x with
  | nil =>
    refine iff_of_true (fun _ => rfl) fun i key r hr => ?_
    obtain ⟨_, _, _, _, ht, _⟩ := hr
    cases ht
  | cons text texts ih =>
    obtain ⟨rest, p1, hline, hrun⟩ := assembles_cons.mp h
    obtain ⟨r, _, hdoes⟩ := parse_line_does hline
    have hem1 := hdoes.sound hem
    have hat := (placed_line hline hx hem (hrun.small hem1 hs)).at_after
    have hcons : ∀ {i key r}, RefersAt p (text :: texts) i key r ↔ _ := refersAt_cons hline
    have hfirst : (∀ s, line_bytes vaddr word x text s = line_bytes vaddr word' x text s) ↔ _ :=
      line_bytes_eq_iff word word' hx hem
    have hrest := ih hrun hat hem1 fun i key r hr =>
      hlen (i + 1) key r (hcons.mpr (Or.inr ⟨i, rfl, hr⟩))
    have hl : ∀ s, (line_bytes vaddr word x text s).length = _ :=
      length_line_bytes word word' hx hem fun assign instr key hr =>
        hlen 0 key _ (hcons.mpr (Or.inl ⟨rfl, assign, instr, hr, rfl⟩))
    constructor
    · intro heq i key r hr
      have hparts : ∀ s, line_bytes vaddr word x text s = line_bytes vaddr word' x text s ∧
          linked vaddr word (x.after text) texts s = linked vaddr word' (x.after text) texts s :=
        fun s => List.append_inj (heq s) (hl s)
      rcases hcons.mp hr with ⟨_, assign, instr, hname, rfl⟩ | ⟨j, _, hrj⟩
      · exact hfirst.mp (fun s => (hparts s).1) assign instr key hname
      · exact hrest.mp (fun s => (hparts s).2) j key r hrj
    · intro heq s
      unfold linked
      rw [hfirst.mpr (fun assign instr key hr =>
          heq 0 key _ (hcons.mpr (Or.inl ⟨rfl, assign, instr, hr, rfl⟩))) s,
        hrest.mpr (fun i key r hr => heq (i + 1) key r (hcons.mpr (Or.inr ⟨i, rfl, hr⟩))) s]

end Words

/-! ## One pass -/

/-- The addresses of the sections. -/
def base (text_vaddr data_vaddr : Nat) : Sect → Nat
  | .SECT_TEXT => text_vaddr
  | .SECT_DATA => data_vaddr

theorem emitter.sound_base (text_vaddr data_vaddr : Nat) :
    (emitter.fresh text_vaddr data_vaddr).Sound (base text_vaddr data_vaddr) := by
  intro s
  have := emitter.sound_fresh text_vaddr data_vaddr s
  cases s <;> exact this

theorem Spot.start_at (text_vaddr data_vaddr : Nat) :
    Spot.start.At (emitter.fresh text_vaddr data_vaddr) :=
  ⟨rfl, fun s => by cases s <;> rfl⟩

theorem instr_bytes_inj {w w' : BitVec 32} (h : instr_bytes w = instr_bytes w') : w = w' := by
  rw [← instr_of_instr_bytes w, h, instr_of_instr_bytes]

section Fresh

variable {errno : Int} {text_vaddr data_vaddr : Nat}

/-- A section holds its lines with the words of their references in it. -/
theorem image_linked (h : Assembles (.fresh errno text_vaddr data_vaddr) texts p)
    (hs : p.em.Small) (s : Sect) : (p.em.sect s).image =
      linked (base text_vaddr data_vaddr) (fun _ r => p.em.wordAt r) .start texts s := by
  have hstart := emitter.sound_base text_vaddr data_vaddr
  have hem := h.keeps (fun _ _ _ hd hsound => hd.sound hsound) hstart
  rw [(hs s).1.image_eq (hem s).1]
  exact (h.linked (Spot.start_at text_vaddr data_vaddr) (written_fresh text_vaddr data_vaddr)
    (tracks_fresh text_vaddr data_vaddr) hstart hs s).2

/-- The word of a reference is the one of the two passes exactly when the reference is in
time, or when it makes no difference to the word. -/
theorem word_eq_two_passes_iff (h : Assembles (.fresh errno text_vaddr data_vaddr) texts p)
    (hs : p.em.Small) (honce : DefinedOnce texts) {i : Nat} {r : Ref}
    (hr : RefersAt (.fresh errno text_vaddr data_vaddr) texts i key r) :
    p.em.wordAt r = instr_bytes (r.word (symbol (base text_vaddr data_vaddr) key .start texts)) ↔
      ∀ j a, DefinesAt (.fresh errno text_vaddr data_vaddr) texts j key a →
        InTime (.fresh errno text_vaddr data_vaddr) texts i j key ∨ r.word (some a) = r.instr := by
  have hwritten := h.calls.written_book hs
  have hstart := emitter.sound_base text_vaddr data_vaddr
  by_cases hk : key ∈ definitions texts
  · obtain ⟨text, ht, hdef⟩ := mem_definitions.mp hk
    obtain ⟨j, hj, rfl⟩ := List.getElem_of_mem ht
    have htj : texts[j]? = some texts[j] := List.getElem?_eq_getElem hj
    obtain ⟨q, hqj, _⟩ := assembles_append.mp ((List.take_append_drop j texts).symm ▸ h)
    have haddr := (h.small_before hstart hs hqj).addr
    have hd : DefinesAt (.fresh errno text_vaddr data_vaddr) texts j key
        (q.em.cur.vaddr + q.em.cur.pos) := ⟨_, q, htj, hqj, hdef, rfl⟩
    have hsymbol := symbol_eq_some h (Spot.start_at text_vaddr data_vaddr) hstart hs hd
      (honce.elsewhere htj hdef).1
    obtain ⟨hintime, hlate⟩ := entry_of_reference h honce hr htj hqj hdef
    rw [hsymbol]
    by_cases hi : InTime (.fresh errno text_vaddr data_vaddr) texts i j key
    · have hword := hwritten.word _ (hintime hi)
      simp only [haddr] at hword
      refine iff_of_true hword fun j' a hd' => ?_
      obtain ⟨rfl, rfl⟩ := hd.unique hd' honce
      exact Or.inl hi
    · have hword := hwritten.word _ (hlate hi)
      simp only at hword
      rw [hword]
      constructor
      · intro hsame j' a hd'
        obtain ⟨rfl, rfl⟩ := hd.unique hd' honce
        exact Or.inr (instr_bytes_inj hsame).symm
      · intro hall
        rcases hall j _ hd with hc | hsame
        · exact absurd hc hi
        · rw [hsame]
          rfl
  · have hin := (awaiting_iff_refersAt h hk).mpr ⟨i, hr⟩
    rw [symbol_eq_none hk]
    refine iff_of_true ((hwritten.awaiting key).1 r hin).2 fun j a hd => ?_
    obtain ⟨text, _, ht, _, hdef, _⟩ := hd
    exact absurd (mem_definitions.mpr ⟨text, List.mem_of_getElem? ht, hdef⟩) hk

/-- One pass that patches the words of labels leaves both sections as two passes do,
byte for byte, exactly when no reference comes too late for its label. -/
theorem one_pass_writes_what_two_passes_write_iff (errno : Int) (text_vaddr data_vaddr : Nat)
    (texts : List (List UInt8)) (p : Process)
    (h : Assembles (.fresh errno text_vaddr data_vaddr) texts p) (hs : p.em.Small)
    (honce : DefinedOnce texts) :
    (∀ s, (p.em.sect s).image = two_passes (base text_vaddr data_vaddr) texts s) ↔
      ∀ i j key r a, RefersAt (.fresh errno text_vaddr data_vaddr) texts i key r →
        DefinesAt (.fresh errno text_vaddr data_vaddr) texts j key a →
          InTime (.fresh errno text_vaddr data_vaddr) texts i j key ∨ r.word (some a) = r.instr := by
  have hstart := emitter.sound_base text_vaddr data_vaddr
  have hat := Spot.start_at text_vaddr data_vaddr
  have hfour : ∀ i key r, RefersAt (.fresh errno text_vaddr data_vaddr) texts i key r →
      (p.em.wordAt r).length =
        (instr_bytes (r.word (symbol (base text_vaddr data_vaddr) key .start texts))).length := by
    intro i key r hr
    obtain ⟨e, he, _, rfl⟩ := Ledger.entry_of_mem (L := .empty) (hr.mem_moves h)
    rw [(h.calls.written_book hs).word e he, length_instr_bytes, length_instr_bytes]
  have hiff := linked_eq_iff (fun _ r => p.em.wordAt r)
    (fun key r => instr_bytes (r.word (symbol (base text_vaddr data_vaddr) key .start texts)))
    h hat hstart hs hfour
  simp only [image_linked h hs]
  refine hiff.trans ⟨fun hall i j key r a hr hd => ?_, fun hall i key r hr => ?_⟩
  · exact (word_eq_two_passes_iff h hs honce hr).mp (hall i key r hr) j a hd
  · exact (word_eq_two_passes_iff h hs honce hr).mpr fun j a hd => hall i j key r a hr hd

theorem two_passes_for_two_sections :
    let texts := linesOf ["jal x0, end", ".data", "x:", ".half 7, 8", ".text", "beq x1, x2, end",
      "end:", "jal x0, x"]
    ∃ p, Assembles (.fresh 0 0x400000 0x10010000) texts p ∧
      ((∀ s, (p.em.sect s).image = two_passes (base 0x400000 0x10010000) texts s) ↔
        ∀ i j key r a, RefersAt (.fresh 0 0x400000 0x10010000) texts i key r →
          DefinesAt (.fresh 0 0x400000 0x10010000) texts j key a →
            InTime (.fresh 0 0x400000 0x10010000) texts i j key ∨ r.word (some a) = r.instr) := by
  intro texts
  have hruns : (Reaches (.fresh 0 0x400000 0x10010000) texts fun p => p.em.Small) ∧
      (definitions texts).Nodup := by decide +kernel
  obtain ⟨⟨p, h, hs⟩, honce⟩ := hruns
  exact ⟨p, h, one_pass_writes_what_two_passes_write_iff 0 0x400000 0x10010000 texts p h hs honce⟩

end Fresh

end riscv_assembler
