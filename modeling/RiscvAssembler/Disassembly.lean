-- A disassembler for whole programs: every sequence of instructions whose branches and
-- jumps stay inside is the text that the assembler makes of its listing.
import RiscvAssembler.Acceptance
import RiscvAssembler.Listing

open checked scanner c_text

namespace riscv_assembler

/-! ## The listing of a program -/

/-- The label of an instruction for those that stand at it or after it, and the one for
those before it. A label that is named before its definition is lost to the lines after
it, so each instruction has both. -/
def backward (k : Nat) : string := ch 'b' :: hex_digits 3 k

def forward (k : Nat) : string := ch 'f' :: hex_digits 3 k

/-- The instruction that a displacement leads to, from instruction `k`. -/
def target (k : Nat) (d : Int) : Nat := ((4 * k + d) / 4).toNat

def target_label (k : Nat) (d : Int) : string :=
  if target k d ≤ k then backward (target k d) else forward (target k d)

def instruction_line (k : Nat) (w : BitVec 32) : List UInt8 :=
  (decode w).elim [] fun i => i.line (i.link.elim [] fun l => target_label k l.2.2)

/-- Three lines for each instruction, its two labels first, and two labels at the end. -/
def listing_line (ws : List (BitVec 32)) (i : Nat) : List UInt8 :=
  if i % 3 = 0 then label_line (backward (i / 3))
  else if i % 3 = 1 then label_line (forward (i / 3))
  else instruction_line (i / 3) (ws.getD (i / 3) 0)

def listing (ws : List (BitVec 32)) : List (List UInt8) :=
  (List.range (3 * ws.length + 2)).map (listing_line ws)

/-- Instructions that fit the buffer of a section, with all branches and jumps to
instructions of the program or to its end. -/
structure IsProgram (ws : List (BitVec 32)) : Prop where
  size_lt : 4 * ws.length < BUF_SIZE
  decodes : ∀ k < ws.length, ∃ i, decode (ws.getD k 0) = some i
  inside : ∀ k < ws.length, ∀ i assign instr d, decode (ws.getD k 0) = some i →
    i.link = some (assign, instr, d) → d % 4 = 0 ∧ 0 ≤ 4 * k + d ∧ 4 * k + d ≤ 4 * ws.length

/-! ## Labels -/

/-- A letter and three digits in hexadecimal are no word of the vocabulary. -/
theorem labelName_hex {c : Char} (hc : c = 'b' ∨ c = 'f') (k : Nat) :
    LabelName (ch c :: hex_digits 3 k) := by
  have hletter : identifier (ch c) = true := by rcases hc with rfl | rfl <;> decide
  have hdigits : ∀ x ∈ hex_digits 3 k, x ∈ chars "0123456789abcdef" := by
    intro x hx
    simp only [hex_digits, List.mem_cons, List.not_mem_nil, or_false] at hx
    have hmem : ∀ d < 16, (chars "0123456789abcdef").getD d 0 ∈ chars "0123456789abcdef" := by
      decide
    rcases hx with rfl | rfl | rfl <;> exact hmem _ (Nat.mod_lt _ (by decide))
  have hwords : ∀ w ∈ vocabulary, (chars w.1).head? = some (ch 'b') ∨
      (chars w.1).head? = some (ch 'f') → ∃ x ∈ (chars w.1).tail, x ∉ chars "0123456789abcdef" := by
    decide +kernel
  refine ⟨List.cons_ne_nil _ _, fun x hx => ?_, ?_⟩
  · rcases List.mem_cons.mp hx with rfl | hx
    · exact hletter
    · exact hex_digits_identifier 3 k x hx
  · rintro v ⟨m, hm, heq⟩
    have hhead : (chars m).head? = some (ch c) := by rw [heq]; rfl
    obtain ⟨x, hx, hno⟩ := hwords _ hm (by rcases hc with rfl | rfl <;> simp [hhead])
    rw [heq] at hx
    exact hno (hdigits x hx)

theorem labelName_backward (k : Nat) : LabelName (backward k) := labelName_hex (Or.inl rfl) k

theorem labelName_forward (k : Nat) : LabelName (forward k) := labelName_hex (Or.inr rfl) k

theorem labelName_target (k : Nat) (d : Int) : LabelName (target_label k d) := by
  unfold target_label
  split
  · exact labelName_backward _
  · exact labelName_forward _

theorem backward_inj {j k : Nat} (hj : j < 4096) (hk : k < 4096) (h : backward j = backward k) :
    j = k := hex_digits_inj hj hk (List.cons.inj h).2

theorem forward_inj {j k : Nat} (hj : j < 4096) (hk : k < 4096) (h : forward j = forward k) :
    j = k := hex_digits_inj hj hk (List.cons.inj h).2

theorem backward_ne_forward (j k : Nat) : backward j ≠ forward k := fun h =>
  absurd (List.cons.inj h).1 (by decide)

/-! ## The lines of a listing -/

variable {ws : List (BitVec 32)} {i j k : Nat}

/-- The texts that `parse_line` gets, one for each line. -/
def listing_texts (ws : List (BitVec 32)) : List (List UInt8) := (listing ws).map alone

theorem length_listing_texts (ws : List (BitVec 32)) :
    (listing_texts ws).length = 3 * ws.length + 2 := by
  simp [listing_texts, listing]

/-- What a line of the listing is: a label of an instruction or of the end, or an
instruction. -/
inductive ListingLine (ws : List (BitVec 32)) : Nat → List UInt8 → Prop
  | backward {k : Nat} : k ≤ ws.length → ListingLine ws (3 * k) (label_line (backward k))
  | forward {k : Nat} : k ≤ ws.length → ListingLine ws (3 * k + 1) (label_line (forward k))
  | whole {k : Nat} {i : Instr} : k < ws.length → i.Encodable → encode i = ws.getD k 0 →
      i.link = none → ListingLine ws (3 * k + 2) (i.line [])
  | target {k : Nat} {i : Instr} {assign : assign_type} {instr : BitVec 32} {d : Int} :
      k < ws.length → i.Encodable → encode i = ws.getD k 0 →
      i.link = some (assign, instr, d) → ListingLine ws (3 * k + 2) (i.line (target_label k d))

theorem listing_line_of_lt (h : IsProgram ws) (hi : i < 3 * ws.length + 2) :
    ListingLine ws i (listing_line ws i) := by
  have hsplit : i = 3 * (i / 3) ∨ i = 3 * (i / 3) + 1 ∨ i = 3 * (i / 3) + 2 := by omega
  generalize i / 3 = k at hsplit
  unfold listing_line
  rcases hsplit with rfl | rfl | rfl
  · rw [if_pos (by omega), show 3 * k / 3 = k by omega]
    exact .backward (by omega)
  · rw [if_neg (by omega), if_pos (by omega), show (3 * k + 1) / 3 = k by omega]
    exact .forward (by omega)
  · rw [if_neg (by omega), if_neg (by omega), show (3 * k + 2) / 3 = k by omega]
    have hk : k < ws.length := by omega
    obtain ⟨ins, hdecode⟩ := h.decodes k hk
    obtain ⟨hencodable, hencode⟩ := encode_decode hdecode
    rw [instruction_line, hdecode, Option.elim_some]
    rcases hlink : ins.link with _ | ⟨assign, instr, d⟩
    · exact .whole hk hencodable hencode hlink
    · exact .target hk hencodable hencode hlink

theorem listing_texts_get {text : List UInt8} (h : IsProgram ws)
    (ht : (listing_texts ws)[i]? = some text) :
    ∃ l, text = alone l ∧ ListingLine ws i l := by
  obtain ⟨hi, rfl⟩ := List.getElem?_eq_some_iff.mp ht
  rw [length_listing_texts] at hi
  refine ⟨listing_line ws i, ?_, listing_line_of_lt h hi⟩
  simp [listing_texts, listing]

/-! ## The lines alone -/

/-- The bytes of a line of the listing. -/
def listing_bytes (i : Nat) (w : BitVec 32) : Sect → List UInt8 :=
  if i % 3 = 2 then word_in .SECT_TEXT w else fun _ => []

theorem label_line_alone {key : string} (hkey : LabelName key) :
    AcceptedAlone .SECT_TEXT (alone (label_line key)) ∧
      Lays .SECT_TEXT (fun _ => []) (.freshAt 0 0 .SECT_TEXT)
        (assembled_alone .SECT_TEXT (alone (label_line key))) := by
  obtain ⟨em, hadd, hs⟩ := emitter_label_add_alone .SECT_TEXT key
  have hrun := parse_line_label hkey [0] ⟨0, .freshAt 0 0 .SECT_TEXT⟩ hadd
  exact ⟨⟨_, _, hrun, hs⟩, assembled_alone_define (reading_label hkey [0]) hrun .SECT_TEXT⟩

theorem whole_line_alone {ins : Instr} (h : ins.Encodable) (hlink : ins.link = none)
    (target : string) : AcceptedAlone .SECT_TEXT (alone (ins.line target)) ∧
      Lays .SECT_TEXT (word_in .SECT_TEXT (encode ins)) (.freshAt 0 0 .SECT_TEXT)
        (assembled_alone .SECT_TEXT (alone (ins.line target))) := by
  have hfresh := emitter.sound_freshAt 0 0 .SECT_TEXT
  obtain ⟨em, hbuffer, hlays⟩ := emit_word_lays hfresh
    (show (emitter.freshAt 0 0 .SECT_TEXT).cur.len + 4 < BUF_SIZE by decide) (encode ins)
  have hrun := parse_line_whole h hlink target [0] (.freshAt 0 0 .SECT_TEXT)
  rw [hbuffer, ok_bind] at hrun
  have h' := emitter_buffer.sound hfresh hbuffer
  have hs : em.Small := hlays.small_alone h' fun s => by
    rw [word_in]
    split <;> simp [length_instr_bytes, BUF_SIZE]
  refine ⟨⟨_, _, hrun, hs⟩, ?_⟩
  rw [assembled_alone, alone, hrun]
  exact hlays

theorem target_line_alone {ins : Instr} (h : ins.Encodable) {assign : assign_type}
    {instr : BitVec 32} {d : Int} (hlink : ins.link = some (assign, instr, d)) {target : string}
    (ht : LabelName target) : AcceptedAlone .SECT_TEXT (alone (ins.line target)) ∧
      ∃ w, Lays .SECT_TEXT (word_in .SECT_TEXT w) (.freshAt 0 0 .SECT_TEXT)
        (assembled_alone .SECT_TEXT (alone (ins.line target))) := by
  obtain ⟨em, hrefer, hs⟩ := emitter_refer_alone .SECT_TEXT assign instr target
  have hrun := parse_line_target h hlink ht [0] ⟨0, .freshAt 0 0 .SECT_TEXT⟩
  rw [hrefer, ok_bind] at hrun
  exact ⟨⟨_, _, hrun, hs⟩, assembled_alone_refer (reading_target h hlink ht [0]) hrun .SECT_TEXT⟩

theorem ListingLine.stands_alone {l : List UInt8} (h : ListingLine ws i l) :
    AcceptedAlone .SECT_TEXT (alone l) ∧
      ∃ w, Lays .SECT_TEXT (listing_bytes i w) (.freshAt 0 0 .SECT_TEXT)
        (assembled_alone .SECT_TEXT (alone l)) := by
  unfold listing_bytes
  cases h with
  | backward hk =>
    obtain ⟨haccepted, hlays⟩ := label_line_alone (labelName_backward _)
    exact ⟨haccepted, 0, by rw [if_neg (by omega)]; exact hlays⟩
  | forward hk =>
    obtain ⟨haccepted, hlays⟩ := label_line_alone (labelName_forward _)
    exact ⟨haccepted, 0, by rw [if_neg (by omega)]; exact hlays⟩
  | whole hk hencodable hencode hlink =>
    obtain ⟨haccepted, hlays⟩ := whole_line_alone hencodable hlink []
    exact ⟨haccepted, _, by rw [if_pos (by omega)]; exact hlays⟩
  | target hk hencodable hencode hlink =>
    obtain ⟨haccepted, w, hlays⟩ := target_line_alone hencodable hlink (labelName_target _ _)
    exact ⟨haccepted, w, by rw [if_pos (by omega)]; exact hlays⟩

/-- The text has four bytes for each instruction before a line. -/
theorem spot_listing (h : IsProgram ws) (hi : i ≤ 3 * ws.length + 2) :
    spot (listing_texts ws) i = ⟨.SECT_TEXT, fun s => if s = .SECT_TEXT then 4 * (i / 3) else 0⟩ := by
  induction i with
  | zero =>
    simp [spot, Spot.start]
  | succ i ih =>
    have hlt : i < (listing_texts ws).length := by
      rw [length_listing_texts]
      omega
    have ht : (listing_texts ws)[i]? = some (listing_texts ws)[i] := List.getElem?_eq_getElem hlt
    obtain ⟨l, hl, hline⟩ := listing_texts_get h ht
    obtain ⟨_, w, hlays⟩ := hline.stands_alone
    rw [spot_succ ht, ih (by omega), hl, Spot.after, hlays.current_eq]
    congr 1
    funext s
    rw [hlays.image_alone, listing_bytes]
    rcases s with _ | _ <;> by_cases hmod : i % 3 = 2 <;>
      simp [hmod, word_in, length_instr_bytes] <;> omega

/-! ## The run of a listing -/

theorem definedOnce_of {texts : List (List UInt8)}
    (h : ∀ (i j : Nat) (ti tj : List UInt8) (key : string), texts[i]? = some ti →
      texts[j]? = some tj → reading ti = some (.define key) → reading tj = some (.define key) →
      i = j) : DefinedOnce texts := by
  have hdefine : ∀ {text key}, key ∈ definitions [text] → reading text = some (.define key) := by
    intro text key hmem
    obtain ⟨t, ht, hr⟩ := mem_definitions.mp hmem
    rwa [List.mem_singleton.mp ht] at hr
  induction texts with
  | nil => exact List.nodup_nil
  | cons text texts ih =>
    have hrest : DefinedOnce texts := ih fun i j ti tj key hi hj hri hrj =>
      Nat.succ.inj (h (i + 1) (j + 1) ti tj key hi hj hri hrj)
    unfold DefinedOnce at hrest ⊢
    rw [← List.singleton_append, definitions_append, List.nodup_append]
    refine ⟨?_, hrest, fun key hkey key' hkey' heq => ?_⟩
    · have hlen : (definitions [text]).length ≤ 1 := List.length_filterMap_le _ _
      generalize definitions [text] = keys at hlen
      rcases keys with _ | ⟨k, _ | ⟨k', ks⟩⟩
      · exact List.nodup_nil
      · exact List.nodup_singleton k
      · simp at hlen
    · subst heq
      obtain ⟨t, ht, hr⟩ := mem_definitions.mp hkey'
      obtain ⟨j, hj, rfl⟩ := List.getElem_of_mem ht
      have := h 0 (j + 1) text _ key rfl (List.getElem?_eq_getElem hj) (hdefine hkey) hr
      omega

theorem ListingLine.defines {l : List UInt8} (h : ListingLine ws i l) {key : string}
    (hr : reading (alone l) = some (.define key)) :
    (i = 3 * (i / 3) ∧ key = riscv_assembler.backward (i / 3)) ∨
      (i = 3 * (i / 3) + 1 ∧ key = riscv_assembler.forward (i / 3)) := by
  rw [alone] at hr
  cases h with
  | @backward k hk =>
    rw [reading_label (labelName_backward k) [0]] at hr
    cases hr
    rw [show 3 * k / 3 = k by omega]
    exact Or.inl ⟨rfl, rfl⟩
  | @forward k hk =>
    rw [reading_label (labelName_forward k) [0]] at hr
    cases hr
    rw [show (3 * k + 1) / 3 = k by omega]
    exact Or.inr ⟨rfl, rfl⟩
  | whole hk hencodable hencode hlink =>
    rw [reading_whole hencodable hlink [] [0]] at hr
    cases hr
  | target hk hencodable hencode hlink =>
    rw [reading_target hencodable hlink (labelName_target _ _) [0]] at hr
    cases hr

theorem ListingLine.refers {l : List UInt8} (h : ListingLine ws i l) {assign : assign_type}
    {instr : BitVec 32} {key : string} (hr : reading (alone l) = some (.refer assign instr key)) :
    i = 3 * (i / 3) + 2 ∧ i / 3 < ws.length ∧ ∃ ins d, ins.Encodable ∧
      encode ins = ws.getD (i / 3) 0 ∧ ins.link = some (assign, instr, d) ∧
      key = target_label (i / 3) d := by
  rw [alone] at hr
  cases h with
  | @backward k hk =>
    rw [reading_label (labelName_backward k) [0]] at hr
    cases hr
  | @forward k hk =>
    rw [reading_label (labelName_forward k) [0]] at hr
    cases hr
  | whole hk hencodable hencode hlink =>
    rw [reading_whole hencodable hlink [] [0]] at hr
    cases hr
  | @target k ins assign' instr' d hk hencodable hencode hlink =>
    rw [reading_target hencodable hlink (labelName_target _ _) [0]] at hr
    cases hr
    rw [show (3 * k + 2) / 3 = k by omega]
    exact ⟨rfl, hk, ins, d, hencodable, hencode, hlink, rfl⟩

theorem listing_defined_once (h : IsProgram ws) : DefinedOnce (listing_texts ws) := by
  have hsize := h.size_lt
  have hb : BUF_SIZE = 4096 := rfl
  refine definedOnce_of fun i j ti tj key hi hj hri hrj => ?_
  have hilt := (List.getElem?_eq_some_iff.mp hi).1
  have hjlt := (List.getElem?_eq_some_iff.mp hj).1
  rw [length_listing_texts] at hilt hjlt
  obtain ⟨li, rfl, hli⟩ := listing_texts_get h hi
  obtain ⟨lj, rfl, hlj⟩ := listing_texts_get h hj
  rcases hli.defines hri with ⟨hieq, rfl⟩ | ⟨hieq, rfl⟩ <;>
    rcases hlj.defines hrj with ⟨hjeq, hkey⟩ | ⟨hjeq, hkey⟩
  · have := backward_inj (by omega) (by omega) hkey
    omega
  · exact absurd hkey (backward_ne_forward _ _)
  · exact absurd hkey.symm (backward_ne_forward _ _)
  · have := forward_inj (by omega) (by omega) hkey
    omega

/-- The line that defines the label of a target. -/
def target_line (k : Nat) (d : Int) : Nat :=
  if target k d ≤ k then 3 * target k d else 3 * target k d + 1

theorem target_line_defines (ws : List (BitVec 32)) (k : Nat) (d : Int) (ht : target k d ≤ ws.length) :
    ∃ text, (listing_texts ws)[target_line k d]? = some text ∧
      reading text = some (.define (target_label k d)) := by
  have hget : ∀ i, i < 3 * ws.length + 2 →
      (listing_texts ws)[i]? = some (alone (listing_line ws i)) := by
    intro i hi
    simp [listing_texts, listing, hi]
  unfold target_line target_label
  by_cases hle : target k d ≤ k
  · rw [if_pos hle, if_pos hle]
    refine ⟨_, hget _ (by omega), ?_⟩
    rw [listing_line, if_pos (by omega), show 3 * target k d / 3 = target k d by omega]
    exact reading_label (labelName_backward _) [0]
  · rw [if_neg hle, if_neg hle]
    refine ⟨_, hget _ (by omega), ?_⟩
    rw [listing_line, if_neg (by omega), if_pos (by omega),
      show (3 * target k d + 1) / 3 = target k d by omega]
    exact reading_label (labelName_forward _) [0]

section Runs

variable {text_vaddr data_vaddr : Nat} {p : Process}

/-- Where the run of a listing stands before a line. -/
theorem listing_at (h : IsProgram ws)
    (hrun : Assembles (.fresh 0 text_vaddr data_vaddr) (listing_texts ws) p) (hs : p.em.Small)
    {q : Process} (hi : i ≤ 3 * ws.length + 2)
    (hq : Assembles (.fresh 0 text_vaddr data_vaddr) ((listing_texts ws).take i) q) :
    q.em.current_section = .SECT_TEXT ∧ q.em.cur.pos = 4 * (i / 3) ∧ q.em.cur.vaddr = text_vaddr := by
  have hstart := emitter.sound_base text_vaddr data_vaddr
  have hat := hq.at_spot (hrun.small_before hstart hs hq)
  have hlen : ((listing_texts ws).take i).length = i := by
    rw [List.length_take, length_listing_texts]
    omega
  rw [hlen, spot_take (Nat.le_refl i), spot_listing h hi] at hat
  have hsect : q.em.current_section = .SECT_TEXT := hat.sect_eq.symm
  have hpos := hat.sizes_eq .SECT_TEXT
  have hem := hq.keeps (fun _ _ _ hd hsound => hd.sound hsound) hstart
  have hv := (hem .SECT_TEXT).2.2
  rw [emitter.cur, hsect]
  exact ⟨rfl, hpos.symm, hv⟩

/-- A displacement inside the program leads to one of its instructions. -/
theorem target_inside (h : IsProgram ws) (hk : k < ws.length) {ins : Instr} {assign : assign_type}
    {instr : BitVec 32} {d : Int} (hencodable : ins.Encodable) (hencode : encode ins = ws.getD k 0)
    (hlink : ins.link = some (assign, instr, d)) :
    target k d ≤ ws.length ∧ (4 * target k d : Int) = 4 * k + d := by
  have hdecode : decode (ws.getD k 0) = some ins := decode_eq_some_iff.mpr ⟨hencodable, hencode⟩
  obtain ⟨hmod, hlo, hhi⟩ := h.inside k hk ins assign instr d hdecode hlink
  unfold target
  omega

/-- The label of a target is named from one side only. -/
theorem target_in_time (first : Process) (d : Int) (h : IsProgram ws) (hk : k < ws.length) :
    InTime first (listing_texts ws) (3 * k + 2) (target_line k d) (target_label k d) := by
  have hsize := h.size_lt
  have hb : BUF_SIZE = 4096 := rfl
  unfold target_line target_label
  by_cases hle : target k d ≤ k
  · rw [if_pos hle, if_pos hle]
    refine Or.inr fun i' r' href => ?_
    obtain ⟨text, q, assign, instr, hti, _, hname, _⟩ := href
    obtain ⟨l, rfl, hline⟩ := listing_texts_get h hti
    obtain ⟨hieq, hk', ins, d', hencodable, hencode, hlink, hkey⟩ := hline.refers hname
    obtain ⟨ht', _⟩ := target_inside h hk' hencodable hencode hlink
    unfold target_label at hkey
    split at hkey
    · have := backward_inj (by omega) (by omega) hkey
      omega
    · exact absurd hkey (backward_ne_forward _ _)
  · rw [if_neg hle]
    exact Or.inl (by omega)

/-- Every reference of a listing is in time, so the word of its line is the one that the
line was printed for. -/
theorem listing_word (h : IsProgram ws)
    (hrun : Assembles (.fresh 0 text_vaddr data_vaddr) (listing_texts ws) p) (hs : p.em.Small)
    {key : string} {r : Ref}
    (hr : RefersAt (.fresh 0 text_vaddr data_vaddr) (listing_texts ws) i key r) :
    p.em.wordAt r = instr_bytes (ws.getD (i / 3) 0) := by
  have honce := listing_defined_once h
  obtain ⟨text, q, assign, instr, hti, hqi, hname, rfl⟩ := hr
  have hilt := (List.getElem?_eq_some_iff.mp hti).1
  rw [length_listing_texts] at hilt
  obtain ⟨l, rfl, hline⟩ := listing_texts_get h hti
  obtain ⟨hieq, hk, ins, d, hencodable, hencode, hlink, rfl⟩ := hline.refers hname
  obtain ⟨ht, htarget⟩ := target_inside h hk hencodable hencode hlink
  obtain ⟨text', htj, hdef⟩ := target_line_defines ws (i / 3) d ht
  have hjlt := (List.getElem?_eq_some_iff.mp htj).1
  rw [length_listing_texts] at hjlt
  obtain ⟨qj, hqj, _⟩ := assembles_append.mp
    ((List.take_append_drop (target_line (i / 3) d) (listing_texts ws)).symm ▸ hrun)
  obtain ⟨_, hposi, hvi⟩ := listing_at h hrun hs (Nat.le_of_lt hilt) hqi
  obtain ⟨_, hposj, hvj⟩ := listing_at h hrun hs (Nat.le_of_lt hjlt) hqj
  have hline_target : target_line (i / 3) d / 3 = target (i / 3) d := by
    unfold target_line
    split <;> omega
  have htime := target_in_time (.fresh 0 text_vaddr data_vaddr) d h hk
  rw [← hieq] at htime
  have haddr := (hrun.small_before (emitter.sound_base text_vaddr data_vaddr) hs hqj).addr
  have hentry := (entry_of_reference hrun honce ⟨_, q, assign, instr, hti, hqi, hname, rfl⟩ htj hqj
    hdef).1 htime
  rw [(hrun.calls.written_book hs).word _ hentry, ← hencode, encode_of_link hlink, Ref.word]
  have hdisp : (q.em.ref assign instr).displacement qj.em.addr = d := by
    rw [haddr, Ref.displacement, emitter.ref]
    simp only [hposi, hvi, hposj, hvj, hline_target]
    push_cast
    omega
  rw [hdisp]
  rfl

/-- The bytes of a line of the listing, in its place. -/
theorem listing_line_bytes (h : IsProgram ws)
    (hrun : Assembles (.fresh 0 text_vaddr data_vaddr) (listing_texts ws) p) (hs : p.em.Small)
    {text : List UInt8} (ht : (listing_texts ws)[i]? = some text) (s : Sect) :
    line_bytes (base text_vaddr data_vaddr) (fun _ r => p.em.wordAt r) (spot (listing_texts ws) i)
      text s = listing_bytes i (ws.getD (i / 3) 0) s := by
  have hlt := (List.getElem?_eq_some_iff.mp ht).1
  rw [length_listing_texts] at hlt
  have hsect : (spot (listing_texts ws) i).sect = .SECT_TEXT := by
    rw [spot_listing h (Nat.le_of_lt hlt)]
  obtain ⟨l, rfl, hline⟩ := listing_texts_get h ht
  have hlabel : ∀ {key : string}, LabelName key → ∀ x : Spot, x.sect = .SECT_TEXT →
      line_bytes (base text_vaddr data_vaddr) (fun _ r => p.em.wordAt r) x (alone (label_line key)) s =
        [] := by
    intro key hkey x hx
    obtain ⟨_, hlays⟩ := label_line_alone hkey
    have hr : reading (alone (label_line key)) = some (.define key) := reading_label hkey [0]
    rw [line_bytes_of_not_refer hr nofun, hx, hlays.image_alone]
  unfold listing_bytes
  cases hline with
  | backward hk =>
    rw [if_neg (by omega)]
    exact hlabel (labelName_backward _) _ hsect
  | forward hk =>
    rw [if_neg (by omega)]
    exact hlabel (labelName_forward _) _ hsect
  | @whole k ins hk hencodable hencode hlink =>
    obtain ⟨_, hlays⟩ := whole_line_alone hencodable hlink []
    have hr : reading (alone (ins.line [])) = some .other := reading_whole hencodable hlink [] [0]
    rw [if_pos (by omega), line_bytes_of_not_refer hr nofun, hsect, hlays.image_alone, hencode,
      show (3 * k + 2) / 3 = k by omega]
  | @target k ins assign instr d hk hencodable hencode hlink =>
    have hr : reading (alone (ins.line (target_label k d))) = some (.refer assign instr _) :=
      reading_target hencodable hlink (labelName_target k d) [0]
    obtain ⟨q, hq, _⟩ := assembles_append.mp
      ((List.take_append_drop (3 * k + 2) (listing_texts ws)).symm ▸ hrun)
    have hstart := emitter.sound_base text_vaddr data_vaddr
    have hat := hq.at_spot (hrun.small_before hstart hs hq)
    have hlen : ((listing_texts ws).take (3 * k + 2)).length = 3 * k + 2 := by
      rw [List.length_take, length_listing_texts]
      omega
    rw [hlen, spot_take (Nat.le_refl _)] at hat
    have hqem := hq.keeps (fun _ _ _ hd hsound => hd.sound hsound) hstart
    rw [if_pos (by omega), line_bytes_of_refer _ hat hqem hr, hsect, word_in,
      listing_word h hrun hs ⟨_, q, assign, instr, ht, hq, hr, rfl⟩]

/-- The sections of a listing that is assembled. -/
theorem listing_images (h : IsProgram ws)
    (hrun : Assembles (.fresh 0 text_vaddr data_vaddr) (listing_texts ws) p) (hs : p.em.Small)
    (s : Sect) : (p.em.sect s).image = if s = .SECT_TEXT then ws.flatMap instr_bytes else [] := by
  have hprefix : ∀ i, i ≤ 3 * ws.length + 2 →
      linked (base text_vaddr data_vaddr) (fun _ r => p.em.wordAt r) .start
        ((listing_texts ws).take i) s =
          if s = .SECT_TEXT then (ws.take (i / 3)).flatMap instr_bytes else [] := by
    intro i hi
    induction i with
    | zero => simp [linked]
    | succ i ih =>
      have hlt : i < (listing_texts ws).length := by
        rw [length_listing_texts]
        omega
      have ht : (listing_texts ws)[i]? = some (listing_texts ws)[i] := List.getElem?_eq_getElem hlt
      rw [List.take_add_one, ht, linked_append, ih (by omega), ← spot, Option.toList_some, linked,
        listing_line_bytes h hrun hs ht, linked, List.append_nil, listing_bytes]
      by_cases hmod : i % 3 = 2
      · have hk : i / 3 < ws.length := by omega
        have hget : ws[i / 3]? = some (ws.getD (i / 3) 0) := by
          rw [List.getD_eq_getElem?_getD, List.getElem?_eq_getElem hk]
          rfl
        rw [if_pos hmod, word_in, show (i + 1) / 3 = i / 3 + 1 by omega, List.take_add_one, hget]
        by_cases hsect : s = .SECT_TEXT
        · simp [hsect]
        · simp [hsect]
      · rw [if_neg hmod, List.append_nil, show (i + 1) / 3 = i / 3 by omega]
  rw [image_linked hrun hs s]
  have hall := hprefix (3 * ws.length + 2) (Nat.le_refl _)
  rw [← length_listing_texts, List.take_length, length_listing_texts,
    show (3 * ws.length + 2) / 3 = ws.length by omega, List.take_length] at hall
  exact hall

/-- A listing is accepted. -/
theorem listing_accepted (h : IsProgram ws) (htext : text_vaddr + 4 * ws.length < 2 ^ 63)
    (hdata : data_vaddr < 2 ^ 63) :
    ∃ p, Assembles (.fresh 0 text_vaddr data_vaddr) (listing_texts ws) p ∧ p.em.Small := by
  refine accepted_of_alone (listing_defined_once h) (fun i text ht => ?_) fun s => ?_
  · have hlt := (List.getElem?_eq_some_iff.mp ht).1
    rw [length_listing_texts] at hlt
    obtain ⟨l, rfl, hline⟩ := listing_texts_get h ht
    rw [spot_listing h (Nat.le_of_lt hlt)]
    exact hline.stands_alone.1
  · have hsize := h.size_lt
    have hb : BUF_SIZE = 4096 := rfl
    rw [length_listing_texts, spot_listing h (Nat.le_refl _),
      show (3 * ws.length + 2) / 3 = ws.length by omega]
    cases s with
    | SECT_TEXT => exact ⟨by simpa using hsize, by simpa [base] using htext⟩
    | SECT_DATA => exact ⟨by simp [hb], by simpa [base] using hdata⟩

theorem listing_inLine (h : IsProgram ws) : ∀ l ∈ listing ws, ∀ x ∈ l, InLine x := by
  have htarget : ∀ k d, ∀ x ∈ target_label k d, InLine x := fun k d x hx =>
    identifier_inLine x ((labelName_target k d).identifier x hx)
  intro l hl
  obtain ⟨i, hi, rfl⟩ := List.mem_map.mp hl
  have hline := listing_line_of_lt h (List.mem_range.mp hi)
  generalize listing_line ws i = l at hline
  cases hline with
  | backward _ => exact label_line_inLine (labelName_backward _)
  | forward _ => exact label_line_inLine (labelName_forward _)
  | whole _ hencodable _ _ => exact line_inLine hencodable fun x hx => absurd hx List.not_mem_nil
  | target _ hencodable _ _ => exact line_inLine hencodable (htarget _ _)

/-- The loop of `main` accepts a listing. -/
theorem listing_loop (h : IsProgram ws) (htext : text_vaddr + 4 * ws.length < 2 ^ 63)
    (hdata : data_vaddr < 2 ^ 63) (tail : List UInt8) :
    ∃ p, main_loop (tail.length + 1) 1 (fileOf (listing ws) true ++ ch '\n' :: tail)
        (.fresh 0 text_vaddr data_vaddr) = .ok (.ok p) ∧
      Assembles (.fresh 0 text_vaddr data_vaddr) (listing_texts ws) p ∧ p.em.Small := by
  obtain ⟨p, hrun, hs⟩ := listing_accepted h htext hdata
  have hne : listing ws ≠ [] := by
    rw [listing, List.range_succ]
    simp
  refine ⟨p, ?_, hrun, hs⟩
  have hfile := intercalate_newline hne (ch '\n' :: tail)
  rw [fileOf, if_pos rfl, List.append_assoc]
  simp only [List.cons_append, List.nil_append]
  rw [hfile]
  exact main_loop_lines (by simp) (by simp) hne (listing_inLine h) 1 hrun

/-- Every program is what the assembler makes of its listing. -/
theorem every_program_is_assembled_from_its_listing (text_vaddr data_vaddr : Nat)
    (ws : List (BitVec 32)) (h : IsProgram ws) (htext : text_vaddr + 4 * ws.length < 2 ^ 63)
    (hdata : data_vaddr < 2 ^ 63) (tail : List UInt8) :
    ∃ p, main_loop (tail.length + 1) 1 (fileOf (listing ws) true ++ ch '\n' :: tail)
        (.fresh 0 text_vaddr data_vaddr) = .ok (.ok p) ∧
      (p.em.sect .SECT_TEXT).image = ws.flatMap instr_bytes ∧ (p.em.sect .SECT_DATA).image = [] := by
  obtain ⟨p, hloop, hrun, hs⟩ := listing_loop h htext hdata tail
  exact ⟨p, hloop, listing_images h hrun hs .SECT_TEXT, listing_images h hrun hs .SECT_DATA⟩

end Runs

/-- A jump forward over an addition, and a branch back to it. -/
theorem isProgram_of_three : IsProgram [0x0080006f, 0xffb10093, 0xfe208ee3] := by
  have hjump : decode 0x0080006f = some (.jump .JAL 0 8) := by decide
  have haddi : decode 0xffb10093 = some (.imm .ADDI 1 2 (-5)) := by decide
  have hbranch : decode 0xfe208ee3 = some (.branch .BEQ 1 2 (-4)) := by decide
  refine ⟨by decide, fun k hk => ?_, fun k hk i assign instr d hdecode hlink => ?_⟩
  · simp only [List.length_cons, List.length_nil] at hk
    interval_cases k
    · exact ⟨_, hjump⟩
    · exact ⟨_, haddi⟩
    · exact ⟨_, hbranch⟩
  · simp only [List.length_cons, List.length_nil] at hk
    interval_cases k
    · cases hjump.symm.trans hdecode
      cases hlink
      decide
    · cases haddi.symm.trans hdecode
      cases hlink
    · cases hbranch.symm.trans hdecode
      cases hlink
      decide

theorem a_program_of_three_is_assembled_from_its_listing :
    ∃ p, main_loop 1 1 (fileOf (listing [0x0080006f, 0xffb10093, 0xfe208ee3]) true ++ [ch '\n'])
        (.fresh 0 0x400000 0x10010000) = .ok (.ok p) ∧
      (p.em.sect .SECT_TEXT).image =
        [0x0080006f, 0xffb10093, (0xfe208ee3 : BitVec 32)].flatMap instr_bytes ∧
      (p.em.sect .SECT_DATA).image = [] :=
  every_program_is_assembled_from_its_listing 0x400000 0x10010000 _ isProgram_of_three (by decide)
    (by decide) []

end riscv_assembler
