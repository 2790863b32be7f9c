-- A program at other addresses and with other names for its labels. The assembler
-- writes the same bytes when both sections move by one distance and each label keeps a
-- name of its own.
import Mathlib.Data.Set.Function
import RiscvAssembler.FinalWords
import RiscvAssembler.LabelValues
import RiscvAssembler.TwoPasses

open checked machine_int scanner

namespace riscv_assembler

/-! ## Sections at other addresses -/

def Section.place (s : Section) (a : Nat) : Section := { s with vaddr := a }

theorem emitter_clear_buffer_place (s : Section) (a : Nat) :
    emitter_clear_buffer (s.place a) = (emitter_clear_buffer s).map (Section.place · a) := by
  unfold emitter_clear_buffer Section.place
  simp only
  rcases s.swap.write (s.buf.bytes.take s.len) with _ | swap <;> rfl

/-- The loop that fills the buffer does not look at the address. -/
theorem emitter_buffer_loop_place (s : Section) (pos : Nat) (data : List UInt8) (a : Nat) :
    emitter_buffer_loop (s.place a) pos data =
      (emitter_buffer_loop s pos data).map (Section.place · a) := by
  induction s, pos, data using emitter_buffer_loop.induct with
  | case1 s pos data hfull copy ih =>
    rw [emitter_buffer_loop, if_pos hfull]
    conv_rhs => rw [emitter_buffer_loop, if_pos hfull]
    simp only
    have hbuf : (s.place a).buf = s.buf := rfl
    rw [hbuf]
    rcases s.buf.copyIn pos (data.take copy) with f | buf
    · rfl
    · have hplace : ({ s.place a with buf } : Section) = Section.place { s with buf } a := rfl
      simp only [ok_bind, hplace, emitter_clear_buffer_place]
      rcases emitter_clear_buffer { s with buf } with f | s'
      · rfl
      · exact ih s'
  | case2 s pos data hroom =>
    rw [emitter_buffer_loop, if_neg hroom]
    conv_rhs => rw [emitter_buffer_loop, if_neg hroom]
    have hbuf : (s.place a).buf = s.buf := rfl
    rw [hbuf]
    rcases s.buf.copyIn pos data with f | buf <;> rfl

theorem clear_and_seek_place (s : Section) (a : Nat) (msg : String)
    (seek : SparseFile → Option SparseFile) :
    (do
      let s ← emitter_clear_buffer (s.place a)
      let swap ← orPanic msg (seek s.swap)
      .ok { s with swap }) =
    Except.map (Section.place · a) (do
      let s ← emitter_clear_buffer s
      let swap ← orPanic msg (seek s.swap)
      .ok { s with swap }) := by
  rw [emitter_clear_buffer_place]
  rcases emitter_clear_buffer s with f | s'
  · rfl
  · have hswap : (s'.place a).swap = s'.swap := rfl
    simp only [Except.map, ok_bind, hswap]
    rcases seek s'.swap with _ | swap <;> rfl

theorem section_advance_place (s : Section) (n a : Nat) :
    section_advance (s.place a) n = (section_advance s n).map (Section.place · a) := by
  unfold section_advance
  simp only
  have hlen : (s.place a).len = s.len := rfl
  have hbuf : (s.place a).buf = s.buf := rfl
  have hpos : (s.place a).pos = s.pos := rfl
  rw [hlen, hbuf, hpos]
  by_cases hfull : BUF_SIZE ≤ toU 64 (s.len + n)
  · rw [if_pos hfull, if_pos hfull]
    exact clear_and_seek_place { s with pos := toU 64 (s.pos + n) } a "lseek call failed"
      fun f => f.seekCur (toS 64 n)
  · rw [if_neg hfull, if_neg hfull]
    rcases s.buf.copyIn s.len (List.replicate n 0) with f | buf <;> rfl

/-- A section that is written keeps its address. -/
theorem emitter_buffer_loop_vaddr {s s' : Section} {pos : Nat} {data : List UInt8}
    (h : emitter_buffer_loop s pos data = .ok s') : s'.vaddr = s.vaddr := by
  have hplace := emitter_buffer_loop_place s pos data s.vaddr
  have hsame : s.place s.vaddr = s := rfl
  rw [hsame, h] at hplace
  have hself : s' = s'.place s.vaddr := Except.ok.inj hplace
  rw [hself]
  rfl

theorem section_advance_vaddr {s s' : Section} {n : Nat} (h : section_advance s n = .ok s') :
    s'.vaddr = s.vaddr := by
  have hplace := section_advance_place s n s.vaddr
  have hsame : s.place s.vaddr = s := rfl
  rw [hsame, h] at hplace
  have hself : s' = s'.place s.vaddr := Except.ok.inj hplace
  rw [hself]
  rfl

/-! ## Emitters at other addresses -/

/-- The label after the move. One without a value stays as it is. -/
def label.move (d : Int) (l : label) : label := if l.val < 0 then l else { l with val := l.val + d }

theorem label.move_zero (l : label) : l.move 0 = l := by
  unfold label.move
  simp

theorem label.move_neg {d : Int} {l : label} (h : l.val < 0) : l.move d = l := if_pos h

theorem label.move_nonneg {d : Int} {l : label} (h : 0 ≤ l.val) :
    l.move d = { l with val := l.val + d } := if_neg (Int.not_lt.mpr h)

/-- The emitter `em'` is `em` with all addresses moved by `d`, and the labels of `K` under
the names that `σ` gives them. -/
structure Moved (σ : string → string) (K : Set string) (d : Int) (em em' : emitter) : Prop where
  current_eq : em'.current_section = em.current_section
  sect_eq : ∀ s, em'.sect s = (em.sect s).place (em'.sect s).vaddr
  vaddr_eq : ∀ s, ((em'.sect s).vaddr : Int) = (em.sect s).vaddr + d
  lookup_eq : ∀ key ∈ K, em'.labels.lookup (σ key) = (em.labels.lookup key).map (label.move d)
  /-- No value becomes negative. -/
  val_nonneg : ∀ key l, em.labels.lookup key = some l → 0 ≤ l.val → 0 ≤ l.val + d

variable {σ : string → string} {K : Set string} {d : Int} {em em1 em' : emitter}

theorem Moved.cur_eq (h : Moved σ K d em em') : em'.cur = em.cur.place em'.cur.vaddr := by
  unfold emitter.cur
  rw [h.current_eq]
  exact h.sect_eq em.current_section

theorem Moved.cur_vaddr (h : Moved σ K d em em') : (em'.cur.vaddr : Int) = em.cur.vaddr + d := by
  unfold emitter.cur
  rw [h.current_eq]
  exact h.vaddr_eq em.current_section

theorem Moved.cur_pos (h : Moved σ K d em em') : em'.cur.pos = em.cur.pos := by
  rw [h.cur_eq]
  rfl

/-- The same new contents for a section of both. -/
theorem Moved.set (h : Moved σ K d em em') (s : Sect) {x : Section}
    (hx : x.vaddr = (em.sect s).vaddr) :
    Moved σ K d (em.set s x) (em'.set s (x.place (em'.sect s).vaddr)) := by
  refine ⟨h.current_eq, fun t => ?_, fun t => ?_, h.lookup_eq, h.val_nonneg⟩
  · by_cases ht : t = s
    · subst ht
      rw [emitter.set_sect_same, emitter.set_sect_same]
      rfl
    · rw [emitter.set_sect_ne _ _ ht, emitter.set_sect_ne _ _ ht]
      exact h.sect_eq t
  · by_cases ht : t = s
    · subst ht
      rw [emitter.set_sect_same, emitter.set_sect_same, hx]
      exact h.vaddr_eq t
    · rw [emitter.set_sect_ne _ _ ht, emitter.set_sect_ne _ _ ht]
      exact h.vaddr_eq t

theorem Moved.setCur (h : Moved σ K d em em') {x : Section} (hx : x.vaddr = em.cur.vaddr) :
    Moved σ K d (em.setCur x) (em'.setCur (x.place em'.cur.vaddr)) := by
  unfold emitter.setCur emitter.cur
  rw [h.current_eq]
  exact h.set em.current_section hx

/-- The same new contents for a label of both. -/
theorem Moved.insert (h : Moved σ K d em em') (hinj : Set.InjOn σ K) {key : string}
    (hkey : key ∈ K) {l : label} (hl : 0 ≤ l.val → 0 ≤ l.val + d) :
    Moved σ K d { em with labels := em.labels.insert key l }
      { em' with labels := em'.labels.insert (σ key) (l.move d) } := by
  refine ⟨h.current_eq, h.sect_eq, h.vaddr_eq, fun k hk => ?_, fun k l' hk hv => ?_⟩
  · by_cases heq : k = key
    · subst heq
      simp
    · have hne : σ k ≠ σ key := fun hc => heq (hinj hk hkey hc)
      simp only [AList.lookup_insert_ne heq, AList.lookup_insert_ne hne]
      exact h.lookup_eq k hk
  · by_cases heq : k = key
    · subst heq
      simp only [AList.lookup_insert, Option.some.injEq] at hk
      subst hk
      exact hl hv
    · simp only [AList.lookup_insert_ne heq] at hk
      exact h.val_nonneg k l' hk hv

/-! ## Writes -/

theorem Moved.buffer (h : Moved σ K d em em') {data : List UInt8}
    (hrun : emitter_buffer em data = .ok em1) :
    ∃ em1', emitter_buffer em' data = .ok em1' ∧ Moved σ K d em1 em1' := by
  obtain ⟨x, hloop, hset⟩ := bind_eq_ok.mp hrun
  cases hset
  refine ⟨_, ?_, h.setCur (emitter_buffer_loop_vaddr hloop)⟩
  have hlen : em'.cur.len = em.cur.len := by
    rw [h.cur_eq]
    rfl
  have hloop' := emitter_buffer_loop_place em.cur em.cur.len data em'.cur.vaddr
  rw [← h.cur_eq, hloop] at hloop'
  rw [emitter_buffer, hlen, hloop']
  rfl

theorem Moved.advance (h : Moved σ K d em em') {n : Nat} (hrun : emitter_advance em n = .ok em1) :
    ∃ em1', emitter_advance em' n = .ok em1' ∧ Moved σ K d em1 em1' := by
  obtain ⟨x, hadvance, hset⟩ := bind_eq_ok.mp hrun
  cases hset
  refine ⟨_, ?_, h.setCur (section_advance_vaddr hadvance)⟩
  have hadvance' := section_advance_place em.cur n em'.cur.vaddr
  rw [← h.cur_eq, hadvance] at hadvance'
  rw [emitter_advance, hadvance']
  rfl

theorem Moved.script (h : Moved σ K d em em') {script : List ScriptCall}
    (hrun : runAll ScriptCall.run em script = .ok em1) :
    ∃ em1', runAll ScriptCall.run em' script = .ok em1' ∧ Moved σ K d em1 em1' := by
  induction script generalizing em em' with
  | nil =>
    cases hrun
    exact ⟨em', rfl, h⟩
  | cons c script ih =>
    obtain ⟨em2, h1, h2⟩ := bind_eq_ok.mp hrun
    have hstep : ∃ em2', c.run em' = .ok em2' ∧ Moved σ K d em2 em2' := by
      rcases c with s | (data | n)
      · cases h1
        exact ⟨_, rfl, rfl, h.sect_eq, h.vaddr_eq, h.lookup_eq, h.val_nonneg⟩
      · exact h.buffer h1
      · exact h.advance h1
    obtain ⟨em2', h1', h2'⟩ := hstep
    obtain ⟨em1', hrun', hmoved⟩ := ih h2' h2
    exact ⟨em1', by rw [runAll_cons, h1', ok_bind, hrun'], hmoved⟩

/-! ## Labels -/

theorem Moved.resolve (h : Moved σ K d em em') {val : Int} {w : label_waiter}
    (hrun : resolve_waiter val em w = .ok em1) :
    ∃ em1', resolve_waiter (val + d) em' w = .ok em1' ∧ Moved σ K d em1 em1' := by
  have hsect := h.sect_eq w.sect
  have hvaddr := h.vaddr_eq w.sect
  have hlen : (em'.sect w.sect).len = (em.sect w.sect).len := by rw [hsect]; rfl
  have hpos : (em'.sect w.sect).pos = (em.sect w.sect).pos := by rw [hsect]; rfl
  have hbuf : (em'.sect w.sect).buf = (em.sect w.sect).buf := by rw [hsect]; rfl
  have hoff : val + d - (w.fix_idx + (em'.sect w.sect).vaddr) =
      val - (w.fix_idx + (em.sect w.sect).vaddr) := by omega
  unfold resolve_waiter at hrun ⊢
  simp only at hrun ⊢
  rw [hlen, hpos, hbuf, hoff]
  split at hrun
  · cases hrun
  · rename_i hreach
    rw [if_neg hreach]
    split at hrun
    · cases hrun
    · rename_i hin
      rw [if_neg hin]
      obtain ⟨word, hword, hrun⟩ := bind_eq_ok.mp hrun
      obtain ⟨buf, hcopy, hset⟩ := bind_eq_ok.mp hrun
      cases hset
      rw [hword, ok_bind, hcopy, ok_bind]
      have hmoved := h.set w.sect (x := { em.sect w.sect with buf }) rfl
      refine ⟨_, rfl, ?_⟩
      rw [hsect]
      exact hmoved

theorem Moved.resolve_all (h : Moved σ K d em em') {val : Int} {ws : List label_waiter}
    (hrun : runAll (resolve_waiter val) em ws = .ok em1) :
    ∃ em1', runAll (resolve_waiter (val + d)) em' ws = .ok em1' ∧ Moved σ K d em1 em1' := by
  induction ws generalizing em em' with
  | nil =>
    cases hrun
    exact ⟨em', rfl, h⟩
  | cons w ws ih =>
    obtain ⟨em2, h1, h2⟩ := bind_eq_ok.mp hrun
    obtain ⟨em2', h1', h2'⟩ := h.resolve h1
    obtain ⟨em1', hrun', hmoved⟩ := ih h2' h2
    exact ⟨em1', by rw [runAll_cons, h1', ok_bind, hrun'], hmoved⟩

/-- Addresses are values of labels, before the move and after it, if there is a move. -/
def Movable (d : Int) (em em' : emitter) : Prop := d = 0 ∨ em.Addressable ∧ em'.Addressable

/-- The label of the next byte moves with the section. -/
theorem Moved.addr (h : Moved σ K d em em') (hfit : Movable d em em') :
    label.move d ⟨none, toS 64 (em.cur.pos + em.cur.vaddr)⟩ =
        ⟨none, toS 64 (em'.cur.pos + em'.cur.vaddr)⟩ ∧
      toS 64 (em'.cur.pos + em'.cur.vaddr) = toS 64 (em.cur.pos + em.cur.vaddr) + d ∧
      (0 ≤ toS 64 (em.cur.pos + em.cur.vaddr) → 0 ≤ toS 64 (em.cur.pos + em.cur.vaddr) + d) := by
  have hvaddr := h.cur_vaddr
  have hpos := h.cur_pos
  rcases hfit with rfl | ⟨hfit, hfit'⟩
  · have hsame : em'.cur.vaddr = em.cur.vaddr := by omega
    rw [label.move_zero, hpos, hsame, Int.add_zero]
    exact ⟨rfl, rfl, fun hv => hv⟩
  · have hcur : em.cur.vaddr + em.cur.pos < 2 ^ 63 := hfit em.current_section
    have hcur' : em'.cur.vaddr + em'.cur.pos < 2 ^ 63 := hfit' em'.current_section
    have haddr : toS 64 (em.cur.pos + em.cur.vaddr) = em.cur.pos + em.cur.vaddr :=
      toS_eq_self_iff.mpr (by omega)
    have haddr' : toS 64 (em'.cur.pos + em'.cur.vaddr) = em'.cur.pos + em'.cur.vaddr :=
      toS_eq_self_iff.mpr (by omega)
    have hmove : (em'.cur.pos + em'.cur.vaddr : Int) = em.cur.pos + em.cur.vaddr + d := by omega
    rw [haddr, haddr', label.move_nonneg (by simp only; omega), hmove]
    exact ⟨rfl, rfl, fun _ => by omega⟩

theorem Moved.lookup_none (h : Moved σ K d em em') {key : string} (hkey : key ∈ K)
    (hl : em.labels.lookup key = none) : em'.labels.lookup (σ key) = none := by
  rw [h.lookup_eq key hkey, hl]
  rfl

theorem Moved.lookup_some (h : Moved σ K d em em') {key : string} (hkey : key ∈ K) {l : label}
    (hl : em.labels.lookup key = some l) : em'.labels.lookup (σ key) = some (l.move d) := by
  rw [h.lookup_eq key hkey, hl]
  rfl

theorem Moved.label_add (h : Moved σ K d em em') (hinj : Set.InjOn σ K) {key : string}
    (hkey : key ∈ K) (hfit : Movable d em em') (hrun : emitter_label_add em key = .ok (0, em1)) :
    ∃ em1', emitter_label_add em' (σ key) = .ok (0, em1') ∧ Moved σ K d em1 em1' := by
  obtain ⟨hlabel, haddr, hval⟩ := h.addr hfit
  rcases hl : em.labels.lookup key with _ | ⟨ws, v⟩
  · rw [emitter_label_add_new hl] at hrun
    cases hrun
    refine ⟨_, emitter_label_add_new (h.lookup_none hkey hl), ?_⟩
    have hmoved := h.insert hinj hkey (l := ⟨none, toS 64 (em.cur.pos + em.cur.vaddr)⟩) hval
    rwa [hlabel] at hmoved
  · by_cases hv : 0 ≤ v
    · rw [emitter_label_add_defined hl hv] at hrun
      cases hrun
    · rw [Int.not_le] at hv
      rcases ws with _ | ws
      · unfold emitter_label_add cc_get_or_insert at hrun
        simp only [hl] at hrun
        rw [if_neg (by simp), if_neg (Int.not_le.mpr hv)] at hrun
        cases hrun
      · have hl' := h.lookup_some hkey hl
        rw [label.move_neg hv] at hl'
        rw [emitter_label_add_awaited hl hv] at hrun
        rw [emitter_label_add_awaited hl' hv, haddr]
        obtain ⟨em2, hall, hset⟩ := bind_eq_ok.mp hrun
        cases hset
        obtain ⟨em2', hall', hmoved⟩ := h.resolve_all hall
        rw [hall', ok_bind]
        have hinsert := hmoved.insert hinj hkey (l := ⟨some [], v⟩) fun hc =>
          absurd hv (Int.not_lt.mpr hc)
        rw [label.move_neg hv] at hinsert
        exact ⟨_, rfl, hinsert⟩

/-- The word of a reference does not depend on where the program is. -/
theorem Moved.reference (h : Moved σ K d em em') (hinj : Set.InjOn σ K) {key : string}
    (hkey : key ∈ K) {assign : assign_type} {instr w : BitVec 32}
    (hrun : emitter_reference em assign instr key = .ok (w, em1)) :
    ∃ em1', emitter_reference em' assign instr (σ key) = .ok (w, em1') ∧ Moved σ K d em1 em1' := by
  have hpos := h.cur_pos
  have hwaiter : em'.waiter assign = em.waiter assign := by
    unfold emitter.waiter
    rw [hpos, h.current_eq]
  unfold emitter_reference at hrun ⊢
  rcases hl : em.labels.lookup key with _ | ⟨ws, v⟩
  · rw [label_get_new assign hl, ok_bind] at hrun
    rw [label_get_new assign (h.lookup_none hkey hl), ok_bind, hwaiter]
    simp only at hrun ⊢
    rw [if_pos (by decide)] at hrun ⊢
    cases hrun
    exact ⟨_, rfl, h.insert hinj hkey (by simp)⟩
  · have hl' := h.lookup_some hkey hl
    by_cases hv : 0 ≤ v
    · have hv' := h.val_nonneg key _ hl hv
      rw [label.move_nonneg hv] at hl'
      simp only at hv' hl'
      rw [label_get_defined assign hl hv, ok_bind] at hrun
      rw [label_get_defined assign hl' hv', ok_bind]
      simp only at hrun ⊢
      rw [if_neg (Int.not_lt.mpr hv)] at hrun
      have hvaddr := h.cur_vaddr
      have hoff : v + d - em'.cur.vaddr = v - em.cur.vaddr := by omega
      rw [if_neg (Int.not_lt.mpr hv'), hoff, hpos]
      cases hrun
      exact ⟨_, rfl, h⟩
    · rw [Int.not_le] at hv
      rw [label.move_neg hv] at hl'
      rcases ws with _ | ws
      · unfold emitter_label_get_or_add_waiter cc_get_or_insert at hrun
        simp only [hl] at hrun
        rw [if_pos hv] at hrun
        cases hrun
      · rw [label_get_awaited assign hl hv, ok_bind] at hrun
        rw [label_get_awaited assign hl' hv, ok_bind, hwaiter]
        simp only at hrun ⊢
        rw [if_pos (by decide)] at hrun ⊢
        cases hrun
        have hinsert := h.insert hinj hkey (l := ⟨some (ws ++ [em.waiter assign]), v⟩)
          fun hc => absurd hv (Int.not_lt.mpr hc)
        rw [label.move_neg hv] at hinsert
        exact ⟨_, rfl, hinsert⟩

theorem Moved.refer (h : Moved σ K d em em') (hinj : Set.InjOn σ K) {key : string} (hkey : key ∈ K)
    {assign : assign_type} {instr : BitVec 32}
    (hrun : emitter_refer em assign instr key = .ok em1) :
    ∃ em1', emitter_refer em' assign instr (σ key) = .ok em1' ∧ Moved σ K d em1 em1' := by
  obtain ⟨⟨w, em2⟩, hreference, hbuffer⟩ := bind_eq_ok.mp hrun
  obtain ⟨em2', hreference', hmoved⟩ := h.reference hinj hkey hreference
  obtain ⟨em1', hbuffer', hmoved'⟩ := hmoved.buffer hbuffer
  refine ⟨em1', ?_, hmoved'⟩
  rw [emitter_refer, hreference', ok_bind]
  exact hbuffer'

/-! ## Lines and files -/

variable {vaddr : Sect → Nat} {p p' : Process}

/-- The line names the label or defines it. -/
def Says (text : List UInt8) (key : string) : Prop :=
  (∃ assign instr, reading text = some (.refer assign instr key)) ∨ reading text = some (.define key)

/-- Some run accepts the line. -/
def Acceptable (text : List UInt8) : Prop :=
  ∃ p rest p', parse_line text p = .ok (.ok ((), rest), p')

/-- Two lines that read the same but for the names. -/
inductive SameLine (σ : string → string) (text text' : List UInt8) : Prop
  | plain (htext : text' = text) (hno : ∀ key, ¬ Says text key)
  | refer (assign : assign_type) (instr : BitVec 32) (key : string)
      (hr : reading text = some (.refer assign instr key))
      (hr' : reading text' = some (.refer assign instr (σ key))) (haccepts : Acceptable text')
  | define (key : string) (hr : reading text = some (.define key))
      (hr' : reading text' = some (.define (σ key))) (haccepts : Acceptable text')

theorem sameLine_id {text rest : List UInt8} (h : parse_line text p = .ok (.ok ((), rest), p')) :
    SameLine id text text := by
  obtain ⟨r, hr, _⟩ := parse_line_does h
  have hplain : (∀ assign instr key, r ≠ .refer assign instr key) → (∀ key, r ≠ .define key) →
      SameLine id text text := by
    intro hrefer hdefine
    refine .plain rfl fun key hsaid => ?_
    rcases hsaid with ⟨assign, instr, hk⟩ | hk
    · exact hrefer assign instr key (Option.some.inj (hr.symm.trans hk))
    · exact hdefine key (Option.some.inj (hr.symm.trans hk))
  cases r with
  | blank => exact hplain (by simp) (by simp)
  | other => exact hplain (by simp) (by simp)
  | refer assign instr key => exact .refer assign instr key hr hr ⟨p, rest, p', h⟩
  | define key => exact .define key hr hr ⟨p, rest, p', h⟩

/-- The line of the moved program. -/
theorem Moved.line {text text' rest : List UInt8} (h : Moved σ K d p.em em)
    (hinj : Set.InjOn σ K) (hsame : SameLine σ text text') (hkeys : ∀ key, Says text key → key ∈ K)
    (hfit : Movable d p.em em) (hline : parse_line text p = .ok (.ok ((), rest), p')) :
    ∃ rest' em', parse_line text' ⟨0, em⟩ = .ok (.ok ((), rest'), ⟨0, em'⟩) ∧
      Moved σ K d p'.em em' ∧ (text' = text → rest' = rest) := by
  obtain ⟨r, hr, hdoes⟩ := parse_line_does hline
  cases hsame with
  | plain htext hno =>
    subst htext
    cases r with
    | blank =>
      rw [parse_line_blank_eq hr] at hline ⊢
      cases hline
      exact ⟨text', em, rfl, h, fun _ => rfl⟩
    | other =>
      obtain ⟨script, _, hfollow, hall⟩ := parse_line_scripted hr _ _ _ _ hline
      obtain ⟨em', hscript, hmoved⟩ := h.script hfollow
      rw [hall, hscript]
      exact ⟨rest, em', rfl, hmoved, fun _ => rfl⟩
    | refer assign instr key => exact absurd (Or.inl ⟨assign, instr, hr⟩) (hno key)
    | define key => exact absurd (Or.inr hr) (hno key)
  | refer assign instr key hr1 hr' haccepts =>
    obtain rfl := Option.some.inj (hr.symm.trans hr1)
    have hkey := hkeys key (Or.inl ⟨assign, instr, hr⟩)
    obtain ⟨em', hrefer, hmoved⟩ := h.refer hinj hkey hdoes
    obtain ⟨q, rest', q', hq⟩ := haccepts
    refine ⟨rest', em', ?_, hmoved, ?_⟩
    · rw [parse_line_refers hr' hq, hrefer]
      rfl
    · rintro rfl
      rw [parse_line_refers hr' hq] at hline
      obtain ⟨_, _, hend⟩ := bind_eq_ok.mp hline
      cases hend
      rfl
  | define key hr1 hr' haccepts =>
    obtain rfl := Option.some.inj (hr.symm.trans hr1)
    have hkey := hkeys key (Or.inr hr)
    obtain ⟨em', hadd, hmoved⟩ := h.label_add hinj hkey hfit hdoes
    obtain ⟨q, rest', q', hq⟩ := haccepts
    obtain ⟨mid, heq⟩ := parse_line_define_eq hr'
    have hcheck : ∀ q : Process, out_check_line mid q = .ok (.ok ((), rest'), q) := by
      rw [heq] at hq
      obtain ⟨⟨res, em2⟩, _, hq⟩ := bind_eq_ok.mp hq
      simp only at hq
      split at hq
      · cases hq
      · exact (out_check_line.inert _ _ _ _ hq).2
    refine ⟨rest', em', ?_, hmoved, ?_⟩
    · rw [heq, hadd, ok_bind]
      simp only
      rw [if_neg (by simp), hcheck]
    · rintro rfl
      rw [heq] at hline
      obtain ⟨⟨res, em2⟩, _, hline⟩ := bind_eq_ok.mp hline
      simp only at hline
      split at hline
      · cases hline
      · rw [hcheck] at hline
        cases hline
        rfl

theorem Assembles.pos_le {texts : List (List UInt8)} (hrun : Assembles p texts p')
    (h : p.em.Sound vaddr) (s : Sect) : (p.em.sect s).pos ≤ (p'.em.sect s).pos := by
  induction texts generalizing p with
  | nil =>
    rw [assembles_nil] at hrun
    rw [hrun]
  | cons text texts ih =>
    obtain ⟨rest, p1, hline, hrun⟩ := assembles_cons.mp hrun
    obtain ⟨r, _, hdoes⟩ := parse_line_does hline
    exact (hdoes.pos_le h s).trans (ih hrun (hdoes.sound h))

/-- The loop accepts the file of a program at another address. -/
theorem Moved.loop {after : Nat} {line : Int32} {pos : List UInt8} {p p' : Process} {em : emitter}
    (h : Moved id Set.univ d p.em em) (hp : p.em.Sound vaddr)
    (hrun : main_loop after line pos p = .ok (.ok p'))
    (hfit : ∀ s, (vaddr s : Int) + (p'.em.sect s).pos < 2 ^ 63)
    (hfit' : ∀ s, (vaddr s : Int) + d + (p'.em.sect s).pos < 2 ^ 63) :
    ∃ em', main_loop after line pos ⟨0, em⟩ = .ok (.ok ⟨0, em'⟩) ∧ Moved id Set.univ d p'.em em' := by
  have hgrow : ∀ s, (p.em.sect s).pos ≤ (p'.em.sect s).pos := by
    have hcalls : Assembles p _ p' := main_loop_calls hrun
    exact hcalls.pos_le hp
  have haddr : p.em.Addressable := by
    intro s
    have hv := (hp s).2.2
    have := hfit s
    have := hgrow s
    omega
  have haddr' : em.Addressable := by
    intro s
    have hv := (hp s).2.2
    have hv' := h.vaddr_eq s
    have hpos : (em.sect s).pos = (p.em.sect s).pos := by rw [h.sect_eq]; rfl
    have := hfit' s
    have := hgrow s
    omega
  rcases hline : parse_line pos p with f | ⟨err | ⟨_, rest⟩, p1⟩
  · rw [main_loop] at hrun
    split at hrun <;> rename_i heq <;> rw [hline] at heq <;> cases heq
    cases hrun
  · rw [main_loop] at hrun
    split at hrun <;> rename_i heq <;> rw [hline] at heq <;> cases heq
    cases hrun
  · obtain ⟨rest', em1, hline', hmoved, hrest⟩ := h.line (Set.injOn_id _) (sameLine_id hline)
      (fun _ _ => trivial) (Or.inr ⟨haddr, haddr'⟩) hline
    obtain rfl := hrest rfl
    obtain ⟨r, _, hdoes⟩ := parse_line_does hline
    rcases rest' with _ | ⟨c, rest⟩
    · rw [main_loop] at hrun
      split at hrun <;> rename_i heq <;> rw [hline] at heq <;> cases heq
      cases hrun
    · rw [main_loop_ok hline] at hrun
      rw [main_loop_ok hline']
      by_cases hin : after < rest.length
      · rw [if_pos hin] at hrun ⊢
        exact hmoved.loop (hdoes.sound hp) hrun hfit hfit'
      · rw [if_neg hin] at hrun ⊢
        cases hrun
        exact ⟨em1, rfl, hmoved⟩
termination_by pos.length
decreasing_by exact parse_line_shortens hline

/-- The programs at the first line. -/
theorem moved_fresh {text_vaddr data_vaddr text_vaddr' data_vaddr' : Nat}
    (ht : (text_vaddr' : Int) = text_vaddr + d) (hd : (data_vaddr' : Int) = data_vaddr + d) :
    Moved σ K d (emitter.fresh text_vaddr data_vaddr) (emitter.fresh text_vaddr' data_vaddr') := by
  refine ⟨rfl, fun s => ?_, fun s => ?_, fun _ _ => rfl, fun key l hl => ?_⟩
  · cases s <;> rfl
  · cases s
    · exact ht
    · exact hd
  · cases hl

/-- The run of the lines under other names, at the same addresses. -/
theorem Moved.run {texts texts' : List (List UInt8)} (h : Moved σ K 0 p.em em)
    (hinj : Set.InjOn σ K) (hsame : List.Forall₂ (SameLine σ) texts texts')
    (hkeys : ∀ text ∈ texts, ∀ key, Says text key → key ∈ K) (hrun : Assembles p texts p') :
    ∃ em', Assembles ⟨0, em⟩ texts' ⟨0, em'⟩ ∧ Moved σ K 0 p'.em em' := by
  induction hsame generalizing p em with
  | nil =>
    rw [assembles_nil] at hrun
    subst hrun
    exact ⟨em, assembles_nil.mpr rfl, h⟩
  | @cons text text' texts texts' hline hlines ih =>
    obtain ⟨rest, p1, hparse, hrun⟩ := assembles_cons.mp hrun
    obtain ⟨rest', em1, hparse', hmoved, _⟩ := h.line hinj hline
      (hkeys text List.mem_cons_self) (Or.inl rfl) hparse
    obtain ⟨em', hrun', hmoved'⟩ := ih hmoved
      (fun t ht => hkeys t (List.mem_cons_of_mem text ht)) hrun
    exact ⟨em', assembles_cons.mpr ⟨rest', _, hparse', hrun'⟩, hmoved'⟩

/-- A program without a move has the same sections. -/
theorem Moved.sect_of_zero (h : Moved σ K 0 em em') : em'.sect = em.sect := by
  funext s
  have hv := h.vaddr_eq s
  have hsame : (em'.sect s).vaddr = (em.sect s).vaddr := by omega
  rw [h.sect_eq s, hsame]
  rfl

end riscv_assembler
