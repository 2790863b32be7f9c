-- The emitter with its labels in a map of `cc.h`: any sequence of calls returns what
-- it returns with an association list, or panics because there is no memory.
import RiscvAssembler.CcMapCapacity
import RiscvAssembler.Elf
import RiscvAssembler.EmitterLaws

open checked machine_int

namespace riscv_assembler

/-! ## The emitter over a hash table -/

/-- The emitter as `emitter.h` has it. -/
structure hashed_emitter where
  sect : Sect → Section
  labels : cc_map string label
  current_section : Sect

def hashed_emitter.fresh (text_vaddr data_vaddr : Nat) : hashed_emitter :=
  ⟨(emitter.fresh text_vaddr data_vaddr).sect, cc_map_placeholder, .SECT_TEXT⟩

/-- The emitter with another table. Only the functions over labels see the table. -/
def hashed_emitter.withTable (em : hashed_emitter) (labels : label_map) : emitter :=
  ⟨em.sect, labels, em.current_section⟩

/-- What `realloc` has memory for: a map of so many buckets, and one more waiter for a
label with so many. It depends on these counts alone, not on the label or on what was
allocated before. -/
structure Memory where
  buckets : Nat → Bool
  waiter : Nat → Bool
  limit : Nat
  bounded : ∀ cap, 2 ^ limit ≤ cap → buckets cap = false

def no_mem : String := "memory allocation failed"

/-- A function that does not use the labels. -/
def hashed_emitter.onSections (em : hashed_emitter) (f : emitter → Result emitter) :
    Result (Int × hashed_emitter) := do
  let em' ← f (em.withTable ∅)
  .ok (0, { em with sect := em'.sect })

section

variable (hash : string → BitVec 64) (mem : Memory)

/-- `emitter_label_add`. As with the maps, `none` would be a loop that does not end. -/
def hashed_label_add (em : hashed_emitter) (key : string) :
    Option (Result (Int × hashed_emitter)) := do
  let old_sz := em.labels.size
  let nu : label := ⟨none, toS 64 ((em.withTable ∅).cur.pos + (em.withTable ∅).cur.vaddr)⟩
  let (itr, labels) ← cc_map_insert hash mem.buckets nu key false (mem.limit + 1) em.labels
  match itr with
  | none => some (.error (.panic no_mem))
  | some bucket => do
    let (e, cleaned) ← labels.write bucket fun e => { e with waiters := some [] }
    if labels.size ≠ old_sz then some (.ok (0, { em with labels }))
    else if 0 ≤ e.val then some (.ok (-1, { em with labels }))
    else
      match e.waiters with
      | none => some (.error .indeterminate)
      | some waiters => some (do
        let em' ← runAll (resolve_waiter nu.val) (em.withTable ∅) waiters
        .ok (0, { em with sect := em'.sect, labels := cleaned }))

def hashed_label_get_or_add_waiter (em : hashed_emitter) (key : string) (wait_assign : assign_type) :
    Option (Result (Int × hashed_emitter)) := do
  let nu : label := ⟨some [], -1⟩
  let (itr, labels) ← cc_map_insert hash mem.buckets nu key false (mem.limit + 1) em.labels
  match itr with
  | none => some (.error (.panic no_mem))
  | some bucket => do
    let waiter := (em.withTable ∅).waiter wait_assign
    let (e, pushed) ← labels.write bucket fun e => { e with waiters := e.waiters.map (· ++ [waiter]) }
    if e.val < 0 then
      match e.waiters with
      | none => some (.error .indeterminate)
      | some waiters =>
        if ¬ mem.waiter waiters.length then some (.error (.panic no_mem))
        else some (.ok (-1, { em with labels := pushed }))
    else some (.ok (e.val, { em with labels }))

def hashed_call (em : hashed_emitter) : Call → Option (Result (Int × hashed_emitter))
  | .buffer data => some (em.onSections (emitter_buffer · data))
  | .advance n => some (em.onSections (emitter_advance · n.toNat))
  | .switch s => some (.ok (0, { em with current_section := s }))
  | .define key => hashed_label_add hash mem em key
  | .reference key assign => hashed_label_get_or_add_waiter hash mem em key assign

/-- The values that the calls return, one after the other. -/
def hashed_calls : List Call → hashed_emitter → Option (Result (List Int × hashed_emitter))
  | [], em => some (.ok ([], em))
  | call :: calls, em => do
    match ← hashed_call hash mem em call with
    | .error f => some (.error f)
    | .ok (v, em) => do
      match ← hashed_calls calls em with
      | .error f => some (.error f)
      | .ok (vs, em) => some (.ok (v :: vs, em))

/-- `emitter_output_elf` reads no label but `_start`. -/
def hashed_output_elf (em : hashed_emitter) (dst : SparseFile) :
    Option (Result (Int × SparseFile)) := do
  let start ← cc_map_get hash em.labels start_label
  match start with
  | none => some (emitter_output_elf (em.withTable ∅) dst)
  | some bucket => do
    let (_, e) ← em.labels.buckets bucket
    some (emitter_output_elf (em.withTable (AList.singleton start_label e)) dst)

end

/-! ## The emitter over an association list -/

/-- A call with the value that it returns, 0 if there is none. -/
def Call.value (em : emitter) : Call → Result (Int × emitter)
  | .define key => emitter_label_add em key
  | .reference key assign => emitter_label_get_or_add_waiter em key assign
  | call => do
    let em ← call.step em
    .ok (0, em)

def call_values : List Call → emitter → Result (List Int × emitter)
  | [], em => .ok ([], em)
  | call :: calls, em => do
    let (v, em) ← call.value em
    let (vs, em) ← call_values calls em
    .ok (v :: vs, em)

/-- The label that a call names. -/
def Call.name : Call → Option string
  | .define key => some key
  | .reference key _ => some key
  | _ => none

/-! ## Functions that do not see the labels -/

/-- The function reads the sections and which one is current, and changes only the
sections. -/
def Blind (f : emitter → Result emitter) : Prop :=
  ∃ g : (Sect → Section) → Sect → Result (Sect → Section), ∀ em : emitter,
    f em = g em.sect em.current_section >>= fun sect => .ok { em with sect }

theorem blind_buffer (data : List UInt8) : Blind (emitter_buffer · data) :=
  ⟨fun sect cur => emitter_buffer_loop (sect cur) (sect cur).len data >>= fun s =>
    .ok (Function.update sect cur s), fun em => by
      unfold emitter_buffer
      simp only [bind_assoc, ok_bind]
      rfl⟩

theorem blind_advance (n : Nat) : Blind (emitter_advance · n) :=
  ⟨fun sect cur => section_advance (sect cur) n >>= fun s => .ok (Function.update sect cur s),
    fun em => by
      unfold emitter_advance
      simp only [bind_assoc, ok_bind]
      rfl⟩

theorem blind_resolve_waiter (val : Int) (w : label_waiter) : Blind (resolve_waiter val · w) := by
  refine ⟨fun sect cur => resolve_waiter val ⟨sect, ∅, cur⟩ w >>= fun em => .ok em.sect, fun em => ?_⟩
  simp only [resolve_waiter]
  by_cases hswap : toS 64 (em.sect w.sect).pos - toS 64 (em.sect w.sect).len > w.fix_idx
  · simp only [if_pos hswap, error_bind]
  · simp only [if_neg hswap]
    split
    · rfl
    · simp only [bind_assoc, ok_bind]
      rfl

theorem Blind.runAll {α : Type} {step : emitter → α → Result emitter} (h : ∀ a, Blind (step · a))
    (as : List α) : Blind (checked.runAll step · as) := by
  induction as with
  | nil => exact ⟨fun sect _ => .ok sect, fun _ => rfl⟩
  | cons a as ih =>
    obtain ⟨g, hg⟩ := h a
    obtain ⟨gs, hgs⟩ := ih
    refine ⟨fun sect cur => g sect cur >>= fun sect => gs sect cur, fun em => ?_⟩
    simp only [runAll_cons, bind_assoc] at hg hgs ⊢
    rw [hg em, bind_assoc]
    refine congrArg _ (funext fun sect => ?_)
    rw [ok_bind, hgs]

/-- What such a function does over any table. -/
theorem Blind.run {f : emitter → Result emitter} (hf : Blind f) (em : hashed_emitter) :
    (∃ e, ∀ l, f (em.withTable l) = .error e) ∨
      ∃ sect, ∀ l, f (em.withTable l) = .ok (({ em with sect } : hashed_emitter).withTable l) := by
  obtain ⟨g, hg⟩ := hf
  rcases hrun : g em.sect em.current_section with e | sect
  · refine Or.inl ⟨e, fun l => ?_⟩
    rw [hg, hashed_emitter.withTable, hrun]
    rfl
  · refine Or.inr ⟨sect, fun l => ?_⟩
    rw [hg, hashed_emitter.withTable, hrun]
    rfl

/-! ## One table for the other -/

section

variable {hash : string → BitVec 64} {mem : Memory} {K : Finset string} {t u : cc_map string label}
  {l : label_map} {em : hashed_emitter}

/-- There is memory for the labels `K` and for all their waiters, and the labels are
not too many for any hash function. -/
structure Memory.Roomy (mem : Memory) (K : Finset string) : Prop where
  buckets : ∀ cap ≤ 4096, mem.buckets cap = true
  waiter : ∀ n, mem.waiter n = true
  few : K.card ≤ 2047

/-- The map holds the labels of the association list, which are some of `K`. -/
structure TableOf (hash : string → BitVec 64) (mem : Memory) (K : Finset string)
    (t : cc_map string label) (l : label_map) : Prop where
  holds : t.Holds hash fun key => l.lookup key
  size : t.size = cc_size l
  known : ∀ key, l.lookup key ≠ none → key ∈ K
  tight : mem.Roomy K → t.Tight

theorem tableOf_empty : TableOf hash mem K cc_map_placeholder ∅ :=
  ⟨cc_map_placeholder.holds hash, rfl, fun _ hne => absurd rfl hne, fun _ => cc_map_placeholder.tight⟩

theorem lookup_insert_eq (l : label_map) (key : string) (e : label) :
    (fun k => (l.insert key e).lookup k) = Function.update (fun k => l.lookup k) key (some e) := by
  funext k
  by_cases hk : k = key
  · subst hk
    rw [AList.lookup_insert, Function.update_self]
  · rw [AList.lookup_insert_ne hk, Function.update_of_ne hk]

theorem cc_size_insert_eq (l : label_map) (key : string) (e : label) :
    cc_size (l.insert key e) = if l.lookup key = none then cc_size l + 1 else cc_size l := by
  by_cases hl : l.lookup key = none
  · rw [if_pos hl, cc_size_insert hl]
  · have hmem : key ∈ l.keys :=
      AList.mem_keys.mpr (not_not.mp fun h => hl (AList.lookup_eq_none.mpr h))
    have hpos := List.length_pos_of_mem hmem
    have herase := @List.length_erase_of_mem _ instBEqOfDecidableEq _ key l.keys hmem
    rw [if_neg hl, cc_size, AList.keys_insert, List.length_cons, herase, cc_size]
    omega

/-- An element is written through its pointer. -/
theorem TableOf.write (h : TableOf hash mem K t l) {b : Nat} {key : string} {e : label}
    (hb : b ∈ t.occupied ∅) (hbucket : t.buckets b = some (key, e)) (write : label → label) :
    ∃ u, t.write b write = some (e, u) ∧ TableOf hash mem K u (l.insert key (write e)) := by
  obtain ⟨u, hrun, hu, hsize, hmask⟩ := h.holds.write hb hbucket write
  obtain ⟨key', e', hbucket', hl⟩ := h.holds.stores.holds b hb
  rw [hbucket] at hbucket'
  cases hbucket'
  refine ⟨u, hrun, ?_, ?_, fun k hne => ?_, fun hroomy => ?_⟩
  · rw [lookup_insert_eq]
    exact hu
  · rw [hsize, h.size, cc_size_insert_eq, if_neg (by rw [hl]; exact nofun)]
  · by_cases hk : k = key
    · exact h.known k (by rw [hk, hl]; exact nofun)
    · rw [AList.lookup_insert_ne hk] at hne
      exact h.known k hne
  · have := h.tight hroomy
    unfold cc_map.Tight cc_map.width at this ⊢
    rwa [hsize, hmask]

theorem cc_get_or_insert_fst (l : label_map) (key : string) (nu : label) :
    (cc_get_or_insert l key nu).1 = settled (fun k => l.lookup k) key nu false := by
  simp only [cc_get_or_insert, settled]
  rcases l.lookup key with _ | e <;> rfl

theorem cc_get_or_insert_lookup (l : label_map) (key : string) (nu : label) :
    (fun k => (cc_get_or_insert l key nu).2.lookup k) =
      Function.update (fun k => l.lookup k) key (some (cc_get_or_insert l key nu).1) := by
  unfold cc_get_or_insert
  rcases hl : l.lookup key with _ | e
  · exact lookup_insert_eq l key nu
  · simp only [← hl, Function.update_eq_self]

theorem cc_get_or_insert_size (l : label_map) (key : string) (nu : label) :
    cc_size (cc_get_or_insert l key nu).2 =
      if l.lookup key = none then cc_size l + 1 else cc_size l := by
  unfold cc_get_or_insert
  rcases hl : l.lookup key with _ | e
  · simp only [cc_size_insert hl, if_true]
  · simp only [reduceCtorEq, if_false]

/-- The labels without one that is not there are fewer than all. -/
theorem TableOf.size_lt (h : TableOf hash mem K t l) {key : string} (hkey : key ∈ K)
    (hnew : l.lookup key = none) : t.size < K.card := by
  have hle := h.holds.stores.size_le (K := K.erase key) fun k hne =>
    Finset.mem_erase.mpr ⟨fun he => hne (he ▸ hnew), h.known k hne⟩
  rw [Finset.card_erase_of_mem hkey] at hle
  have hpos := Finset.card_pos.mpr ⟨key, hkey⟩
  omega

/-- `cc_get_or_insert` on both tables. -/
theorem TableOf.get_or_insert (h : TableOf hash mem K t l) {key : string} (hkey : key ∈ K)
    (nu : label) :
    ∃ itr u, cc_map_insert hash mem.buckets nu key false (mem.limit + 1) t = some (itr, u) ∧
      (itr = none ∧ ¬ mem.Roomy K ∨ ∃ b, itr = some b ∧ b ∈ u.occupied ∅ ∧
        u.buckets b = some (key, (cc_get_or_insert l key nu).1) ∧
        TableOf hash mem K u (cc_get_or_insert l key nu).2) := by
  have hsettled : ∀ u b, u.Settled hash (fun k => l.lookup k) key
      (settled (fun k => l.lookup k) key nu false) (some b) → (mem.Roomy K → u.Tight) →
      b ∈ u.occupied ∅ ∧ u.buckets b = some (key, (cc_get_or_insert l key nu).1) ∧
        TableOf hash mem K u (cc_get_or_insert l key nu).2 := by
    rintro u b ⟨hstores, hchained, hb, hbucket⟩ htight
    rw [← cc_get_or_insert_fst] at hstores hbucket
    refine ⟨hb, hbucket, ⟨?_, hchained⟩, ?_, fun k hne => ?_, htight⟩
    · rwa [cc_get_or_insert_lookup]
    · rw [h.holds.stores.size_update hstores, cc_get_or_insert_size, h.size]
    · by_cases hk : k = key
      · exact hk ▸ hkey
      · have hlook := congrFun (cc_get_or_insert_lookup l key nu) k
        rw [Function.update_of_ne hk] at hlook
        exact h.known k (hlook ▸ hne)
  by_cases hroomy : mem.Roomy K
  · obtain ⟨b, u, hrun, htight, hset⟩ := cc_map_insert.tight mem.bounded hroomy.buckets h.holds
      (h.tight hroomy) key nu false fun hnew => Nat.lt_of_lt_of_le (h.size_lt hkey hnew) hroomy.few
    exact ⟨_, u, hrun, Or.inr ⟨b, rfl, hsettled u b hset fun _ => htight⟩⟩
  · obtain ⟨c, hc⟩ := h.holds.chained
    obtain ⟨w, hw⟩ := h.holds.stores.sized
    obtain ⟨r, u, hrun, hset, _⟩ := cc_map_insert.spec mem.bounded h.holds.stores hc key nu false
      mem.limit hw (Nat.le_add_left _ _)
    cases r with
    | none => exact ⟨_, u, hrun, Or.inl ⟨rfl, hroomy⟩⟩
    | some b => exact ⟨_, u, hrun, Or.inr ⟨b, rfl, hsettled u b hset fun hr => absurd hr hroomy⟩⟩

/-! ## One call -/

/-- The two results are the same value with the same sections, or the same fault, if
there is memory. -/
def Alike (hash : string → BitVec 64) (mem : Memory) (K : Finset string) {α : Type}
    (x : Result (α × hashed_emitter)) (y : Result (α × emitter)) : Prop :=
  (∃ a em l, x = .ok (a, em) ∧ y = .ok (a, em.withTable l) ∧ TableOf hash mem K em.labels l) ∨
    (∃ f, x = .error f ∧ y = .error f) ∨ x = .error (.panic no_mem) ∧ ¬ mem.Roomy K

theorem onSections_alike (h : TableOf hash mem K em.labels l) {f : emitter → Result emitter}
    (hf : Blind f) : Alike hash mem K (em.onSections f) (do
      let em ← f (em.withTable l)
      .ok (0, em)) := by
  unfold hashed_emitter.onSections
  rcases hf.run em with ⟨e, hrun⟩ | ⟨sect, hrun⟩
  · rw [hrun, hrun]
    exact Or.inr (Or.inl ⟨e, rfl, rfl⟩)
  · rw [hrun, hrun]
    exact Or.inl ⟨0, { em with sect }, l, rfl, rfl, h⟩

theorem hashed_label_add_alike (h : TableOf hash mem K em.labels l) {key : string} (hkey : key ∈ K) :
    ∃ x, hashed_label_add hash mem em key = some x ∧
      Alike hash mem K x (emitter_label_add (em.withTable l) key) := by
  obtain ⟨itr, u, hrun, hres⟩ := h.get_or_insert hkey
    ⟨none, toS 64 ((em.withTable ∅).cur.pos + (em.withTable ∅).cur.vaddr)⟩
  unfold hashed_label_add
  simp only [hrun, Option.bind_eq_bind, Option.bind_some]
  rcases hres with ⟨rfl, hno⟩ | ⟨b, rfl, hb, hbucket, hu⟩
  · exact ⟨_, rfl, Or.inr (Or.inr ⟨rfl, hno⟩)⟩
  · obtain ⟨v, hwrite, hv⟩ := hu.write hb hbucket fun e => { e with waiters := some [] }
    have hval : toS 64 ((em.withTable l).cur.pos + (em.withTable l).cur.vaddr) =
        toS 64 ((em.withTable ∅).cur.pos + (em.withTable ∅).cur.vaddr) := rfl
    have hlabels : (em.withTable l).labels = l := rfl
    simp only [hwrite, Option.bind_some, emitter_label_add, hlabels, hval]
    rcases hget : cc_get_or_insert l key
      ⟨none, toS 64 ((em.withTable ∅).cur.pos + (em.withTable ∅).cur.vaddr)⟩ with ⟨e, l'⟩
    rw [hget] at hu hv
    rw [hu.size, h.size]
    by_cases hsize : cc_size l' = cc_size l
    · simp only [hsize, ne_eq, not_true_eq_false, if_false]
      by_cases hdefined : 0 ≤ e.val
      · simp only [if_pos hdefined]
        exact ⟨_, rfl, Or.inl ⟨_, { em with labels := u }, l', rfl, rfl, hu⟩⟩
      · simp only [if_neg hdefined]
        rcases hws : e.waiters with _ | ws
        · exact ⟨_, rfl, Or.inr (Or.inl ⟨_, rfl, rfl⟩)⟩
        · have htable : ({ em.withTable l with labels := l' } : emitter) = em.withTable l' := rfl
          simp only [htable]
          refine ⟨_, rfl, ?_⟩
          rcases (Blind.runAll (blind_resolve_waiter (toS 64 ((em.withTable ∅).cur.pos +
            (em.withTable ∅).cur.vaddr))) ws).run em with ⟨f, hfault⟩ | ⟨sect, hdone⟩
          · rw [hfault, hfault]
            exact Or.inr (Or.inl ⟨f, rfl, rfl⟩)
          · rw [hdone, hdone]
            exact Or.inl ⟨0, { em with sect, labels := v }, _, rfl, rfl, hv⟩
    · simp only [hsize, ne_eq, not_false_eq_true, if_true]
      exact ⟨_, rfl, Or.inl ⟨_, { em with labels := u }, l', rfl, rfl, hu⟩⟩

theorem hashed_label_get_alike (h : TableOf hash mem K em.labels l) {key : string} (hkey : key ∈ K)
    (assign : assign_type) :
    ∃ x, hashed_label_get_or_add_waiter hash mem em key assign = some x ∧
      Alike hash mem K x (emitter_label_get_or_add_waiter (em.withTable l) key assign) := by
  obtain ⟨itr, u, hrun, hres⟩ := h.get_or_insert hkey ⟨some [], -1⟩
  unfold hashed_label_get_or_add_waiter
  simp only [hrun, Option.bind_eq_bind, Option.bind_some]
  rcases hres with ⟨rfl, hno⟩ | ⟨b, rfl, hb, hbucket, hu⟩
  · exact ⟨_, rfl, Or.inr (Or.inr ⟨rfl, hno⟩)⟩
  · obtain ⟨v, hwrite, hv⟩ := hu.write hb hbucket fun e =>
      { e with waiters := e.waiters.map (· ++ [(em.withTable ∅).waiter assign]) }
    have hlabels : (em.withTable l).labels = l := rfl
    simp only [hwrite, Option.bind_some, emitter_label_get_or_add_waiter, hlabels]
    rcases hget : cc_get_or_insert l key ⟨some [], -1⟩ with ⟨e, l'⟩
    rw [hget] at hu hv
    by_cases hval : e.val < 0
    · simp only [if_pos hval]
      rcases hws : e.waiters with _ | ws
      · exact ⟨_, rfl, Or.inr (Or.inl ⟨_, rfl, rfl⟩)⟩
      · simp only [hws, Option.map_some] at hv
        cases hpush : mem.waiter ws.length with
        | false =>
          refine ⟨_, if_pos (by simp [hpush]), Or.inr (Or.inr ⟨rfl, fun hroomy => ?_⟩)⟩
          rw [hroomy.waiter] at hpush
          cases hpush
        | true =>
          exact ⟨_, if_neg (by simp [hpush]), Or.inl ⟨-1, { em with labels := v }, _, rfl, rfl, hv⟩⟩
    · simp only [if_neg hval]
      exact ⟨_, rfl, Or.inl ⟨_, { em with labels := u }, l', rfl, rfl, hu⟩⟩

theorem hashed_call_alike (h : TableOf hash mem K em.labels l) (call : Call)
    (hname : ∀ key, call.name = some key → key ∈ K) :
    ∃ x, hashed_call hash mem em call = some x ∧
      Alike hash mem K x (call.value (em.withTable l)) := by
  cases call with
  | buffer data => exact ⟨_, rfl, onSections_alike h (blind_buffer data)⟩
  | advance n => exact ⟨_, rfl, onSections_alike h (blind_advance n.toNat)⟩
  | switch s => exact ⟨_, rfl, Or.inl ⟨0, { em with current_section := s }, l, rfl, rfl, h⟩⟩
  | define key => exact hashed_label_add_alike h (hname key rfl)
  | reference key assign => exact hashed_label_get_alike h (hname key rfl) assign

/-! ## All calls -/

theorem hashed_calls_alike (calls : List Call) (h : TableOf hash mem K em.labels l)
    (hnames : ∀ call ∈ calls, ∀ key, call.name = some key → key ∈ K) :
    ∃ x, hashed_calls hash mem calls em = some x ∧
      Alike hash mem K x (call_values calls (em.withTable l)) := by
  induction calls generalizing em l with
  | nil => exact ⟨_, rfl, Or.inl ⟨[], em, l, rfl, rfl, h⟩⟩
  | cons call calls ih =>
    obtain ⟨x, hrun, halike⟩ := hashed_call_alike h call (hnames call List.mem_cons_self)
    unfold hashed_calls call_values
    simp only [hrun, Option.bind_eq_bind, Option.bind_some]
    rcases halike with ⟨v, em', l', rfl, hval, h'⟩ | ⟨f, rfl, hval⟩ | ⟨rfl, hno⟩
    · obtain ⟨y, hrest, halike'⟩ := ih h' fun c hc => hnames c (List.mem_cons_of_mem call hc)
      simp only [hrest, hval, ok_bind, Option.bind_some]
      rcases halike' with ⟨vs, em2, l2, rfl, hvals, h2⟩ | ⟨f, rfl, hvals⟩ | ⟨rfl, hno⟩
      · rw [hvals]
        exact ⟨_, rfl, Or.inl ⟨_, em2, l2, rfl, rfl, h2⟩⟩
      · rw [hvals]
        exact ⟨_, rfl, Or.inr (Or.inl ⟨f, rfl, rfl⟩)⟩
      · exact ⟨_, rfl, Or.inr (Or.inr ⟨rfl, hno⟩)⟩
    · rw [hval]
      exact ⟨_, rfl, Or.inr (Or.inl ⟨f, rfl, rfl⟩)⟩
    · exact ⟨_, rfl, Or.inr (Or.inr ⟨rfl, hno⟩)⟩

/-- The output sees `_start` alone. -/
theorem output_of_start {l' : label_map} (hstart : l.lookup start_label = l'.lookup start_label)
    (dst : SparseFile) : emitter_output_elf (em.withTable l) dst =
      emitter_output_elf (em.withTable l') dst := by
  have htext : (em.withTable l).text = (em.withTable l').text := rfl
  have hdata : (em.withTable l).data = (em.withTable l').data := rfl
  have hlookup : (em.withTable l).labels.lookup start_label =
      (em.withTable l').labels.lookup start_label := hstart
  have hafter : output_after (em.withTable l) = output_after (em.withTable l') := by
    rw [output_after, output_after, hdata]
  have htextp : text_phdr (em.withTable l) = text_phdr (em.withTable l') := by
    rw [text_phdr, text_phdr, htext]
  have hdatap : data_phdr (em.withTable l) = data_phdr (em.withTable l') := by
    rw [data_phdr, data_phdr, hdata, htextp]
  have hhead : output_head (em.withTable l) = output_head (em.withTable l') := by
    rw [output_head, output_head, output_header, output_header, output_ehdr, output_ehdr, output_entry,
      output_entry, hlookup, hafter, htext, hdata, htextp, hdatap]
  have hsect : (em.withTable l).sect = (em.withTable l').sect := rfl
  have hemit : ∀ dst s,
      emit_section (em.withTable l) dst s = emit_section (em.withTable l') dst s := by
    intro dst s
    rw [emit_section, emit_section, hsect]
  simp only [emitter_output_elf, hhead, hdata, hdatap, hemit]

theorem hashed_output_elf_eq (h : TableOf hash mem K em.labels l) (dst : SparseFile) :
    hashed_output_elf hash em dst = some (emitter_output_elf (em.withTable l) dst) := by
  obtain ⟨c, hc⟩ := h.holds.chained
  obtain ⟨r, hrun, hfinds⟩ := cc_map_get.spec h.holds.stores hc start_label
  unfold hashed_output_elf
  simp only [hrun, Option.bind_eq_bind, Option.bind_some]
  cases r with
  | none =>
    simp only [cc_map.Finds] at hfinds
    exact congrArg some (output_of_start (hfinds ▸ rfl) dst)
  | some b =>
    obtain ⟨_, _, e, hbucket, hl⟩ := hfinds
    simp only [hbucket, Option.bind_some]
    refine congrArg some (output_of_start ?_ dst)
    exact (AList.lookup_insert ∅).trans hl.symm

end

/-- Over any hash function, any sequence of calls of the emitter returns what it
returns over the association list and leaves the same file, unless memory is refused
or there are more than 2047 labels. Then the one other end is the panic. -/
theorem the_hash_table_serves_as_the_label_table (hash : string → BitVec 64) (mem : Memory)
    (text_vaddr data_vaddr : Nat) (calls : List Call) :
    ∃ x, hashed_calls hash mem calls (.fresh text_vaddr data_vaddr) = some x ∧
      match x with
      | .ok (values, em) => ∃ em', call_values calls (.fresh text_vaddr data_vaddr) =
          .ok (values, em') ∧ ∀ dst, hashed_output_elf hash em dst = some (emitter_output_elf em' dst)
      | .error f => call_values calls (.fresh text_vaddr data_vaddr) = .error f ∨
          f = .panic no_mem ∧ ¬ mem.Roomy (calls.filterMap Call.name).toFinset := by
  have hnames : ∀ call ∈ calls, ∀ key, call.name = some key →
      key ∈ (calls.filterMap Call.name).toFinset := fun call hcall key hkey =>
    List.mem_toFinset.mpr (List.mem_filterMap.mpr ⟨call, hcall, hkey⟩)
  obtain ⟨x, hrun, halike⟩ := hashed_calls_alike calls
    (show TableOf hash mem _ (hashed_emitter.fresh text_vaddr data_vaddr).labels ∅ from tableOf_empty)
    hnames
  refine ⟨x, hrun, ?_⟩
  rcases halike with ⟨vs, em, l, rfl, hvals, h⟩ | ⟨f, rfl, hvals⟩ | ⟨rfl, hno⟩
  · exact ⟨_, hvals, hashed_output_elf_eq h⟩
  · exact Or.inl hvals
  · exact Or.inr ⟨rfl, hno⟩

end riscv_assembler
