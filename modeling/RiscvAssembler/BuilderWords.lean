-- What the tree of the generator holds: the words that its paths spell, and
-- which of the words that were inserted are among them. An insert that finds a
-- path for its word already leaves the tree as it is, so a word is lost when it
-- begins one that was inserted before it.
import RiscvAssembler.Trie
import RiscvAssembler.TrieBuilder

open checked

namespace riscv_assembler

/-! ## What the tree says -/

/-- A path of entries spells the word, and the last of them has the data. -/
inductive trie_builder.Spells : trie_builder → List UInt8 → Int → Prop
  | last {c : UInt8} {data : Int} {next more : trie_builder} :
      Spells (.entry c true data next more) [c] data
  | down {c : UInt8} {term : Bool} {d data : Int} {w : List UInt8} {next more : trie_builder} :
      Spells next w data → Spells (.entry c term d next more) (c :: w) data
  | more {c : UInt8} {term : Bool} {d data : Int} {w : List UInt8} {next more : trie_builder} :
      Spells more w data → Spells (.entry c term d next more) w data

namespace trie_builder

def keyAt : trie_builder → UInt8 → Bool
  | .nil, _ => false
  | .entry key _ _ _ more, c => key == c || more.keyAt c

/-- An entry with the key has data. -/
def termAt : trie_builder → UInt8 → Bool
  | .nil, _ => false
  | .entry key term _ _ more, c => (key == c && term) || more.termAt c

/-- An entry with the key has entries below it. -/
def linkAt : trie_builder → UInt8 → Bool
  | .nil, _ => false
  | .entry key _ _ next more, c => (key == c && decide (next.len > 0)) || more.linkAt c

/-- No two entries of one array have the same key, and every key is one that
the flat trie can hold. -/
def WellKeyed : trie_builder → Prop
  | .nil => True
  | .entry key _ _ next more =>
    KeyCode key ∧ more.keyAt key = false ∧ next.WellKeyed ∧ more.WellKeyed

/-- The same for keys of any kind. -/
def Keyed (P : UInt8 → Prop) : trie_builder → Prop
  | .nil => True
  | .entry key _ _ next more =>
    P key ∧ more.keyAt key = false ∧ next.Keyed P ∧ more.Keyed P

/-- No two entries of one array have the same key. -/
abbrev Apart (b : trie_builder) : Prop := b.Keyed fun _ => True

theorem wellKeyed_iff (b : trie_builder) : b.WellKeyed ↔ b.Keyed KeyCode := by
  induction b with
  | nil => exact Iff.rfl
  | entry key term d next more ihn ihm => simp only [WellKeyed, Keyed, ihn, ihm]

theorem termAt_keyAt {b : trie_builder} {c : UInt8} (h : b.termAt c = true) : b.keyAt c = true := by
  induction b with
  | nil => exact h
  | entry key term d next more _ ih =>
    simp only [termAt, keyAt, Bool.or_eq_true, Bool.and_eq_true] at h ⊢
    exact h.imp (fun h => h.1) ih

theorem linkAt_keyAt {b : trie_builder} {c : UInt8} (h : b.linkAt c = true) : b.keyAt c = true := by
  induction b with
  | nil => exact h
  | entry key term d next more _ ih =>
    simp only [linkAt, keyAt, Bool.or_eq_true, Bool.and_eq_true] at h ⊢
    exact h.imp (fun h => h.1) ih

theorem WellKeyed.keyCode {b : trie_builder} (hb : b.WellKeyed) {c : UInt8}
    (h : b.keyAt c = true) : KeyCode c := by
  induction b with
  | nil => cases h
  | entry key term d next more _ ih =>
    obtain ⟨hkey, _, _, hmore⟩ := hb
    simp only [keyAt, Bool.or_eq_true, beq_iff_eq] at h
    rcases h with rfl | h
    · exact hkey
    · exact ih hmore h

theorem Spells.keyAt {b : trie_builder} {c : UInt8} {w : List UInt8} {d : Int}
    (h : b.Spells (c :: w) d) : b.keyAt c = true := by
  generalize hw : c :: w = v at h
  induction h with
  | last => cases hw; simp [trie_builder.keyAt]
  | down _ _ => cases hw; simp [trie_builder.keyAt]
  | more _ ih => simp [trie_builder.keyAt, ih hw]

theorem Spells.ne_nil {b : trie_builder} {w : List UInt8} {d : Int} (h : b.Spells w d) :
    w ≠ [] := by
  induction h with
  | last => exact List.cons_ne_nil _ _
  | down _ _ => exact List.cons_ne_nil _ _
  | more _ ih => exact ih

theorem Spells.len_pos {b : trie_builder} {w : List UInt8} {d : Int} (h : b.Spells w d) :
    b.len > 0 := by
  cases h <;> exact Nat.succ_pos _

theorem Spells.termAt {b : trie_builder} {c : UInt8} {d : Int} (h : b.Spells [c] d) :
    b.termAt c = true := by
  generalize hw : [c] = v at h
  induction h with
  | last => cases hw; simp [trie_builder.termAt]
  | down h _ => cases hw; exact absurd rfl h.ne_nil
  | more _ ih => simp [trie_builder.termAt, ih hw]

theorem Spells.linkAt {b : trie_builder} {c x : UInt8} {w : List UInt8} {d : Int}
    (h : b.Spells (c :: x :: w) d) : b.linkAt c = true := by
  generalize hw : c :: x :: w = v at h
  induction h with
  | last => cases hw
  | down h _ => cases hw; simp [trie_builder.linkAt, h.len_pos]
  | more _ ih => simp [trie_builder.linkAt, ih hw]

/-- Under the key of the first entry only that entry spells. -/
theorem spells_entry_same {c : UInt8} {term : Bool} {d data : Int} {next more : trie_builder}
    {w : List UInt8} (hmore : more.keyAt c = false) :
    (entry c term d next more).Spells (c :: w) data ↔
      (w = [] ∧ term = true ∧ data = d) ∨ next.Spells w data := by
  constructor
  · intro h
    cases h with
    | last => exact Or.inl ⟨rfl, rfl, rfl⟩
    | down h => exact Or.inr h
    | more h => rw [h.keyAt] at hmore; cases hmore
  · rintro (⟨rfl, rfl, rfl⟩ | h)
    · exact .last
    · exact .down h

theorem spells_entry_other {key c : UInt8} {term : Bool} {d data : Int} {next more : trie_builder}
    {w : List UInt8} (h : key ≠ c) :
    (entry key term d next more).Spells (c :: w) data ↔ more.Spells (c :: w) data := by
  constructor
  · intro hs
    cases hs with
    | last => exact absurd rfl h
    | down _ => exact absurd rfl h
    | more hs => exact hs
  · exact .more

end trie_builder

/-! ## The words that go in -/

/-- The keys of the entries after the loop are those from before and `c`. -/
theorem upsert_keyAt {c : UInt8} {insert : trie_builder → Int × trie_builder}
    {nu : Int × trie_builder} {b : trie_builder} (hnu : ∀ k, nu.2.keyAt k = true → k = c)
    {k : UInt8} (hk : (b.upsert c insert nu).2.keyAt k = true) : b.keyAt k = true ∨ k = c := by
  induction b with
  | nil => exact Or.inr (hnu k hk)
  | entry key term d next more _ ih =>
    unfold trie_builder.upsert at hk
    by_cases hc : key = c
    · rw [if_pos hc] at hk
      exact Or.inl hk
    · rw [if_neg hc] at hk
      simp only [trie_builder.keyAt, Bool.or_eq_true] at hk ⊢
      rcases hk with hk | hk
      · exact Or.inl (Or.inl hk)
      · exact (ih hk).imp Or.inr id

/-- Another key stays absent. -/
theorem upsert_keyAt_false {c : UInt8} {insert : trie_builder → Int × trie_builder}
    {nu : Int × trie_builder} {b : trie_builder} (hnu : ∀ k, nu.2.keyAt k = true → k = c)
    {k : UInt8} (hb : b.keyAt k = false) (hk : k ≠ c) :
    (b.upsert c insert nu).2.keyAt k = false := by
  rw [Bool.eq_false_iff]
  intro hat
  rcases upsert_keyAt hnu hat with hat | hat
  · rw [hb] at hat
    cases hat
  · exact hk hat

/-- An insert keeps the keys apart, when it does so one level down. -/
theorem upsert_keyed {P : UInt8 → Prop} {c : UInt8}
    {insert : trie_builder → Int × trie_builder} {nu : Int × trie_builder} {b : trie_builder}
    (hb : b.Keyed P) (hinsert : ∀ next : trie_builder, next.Keyed P → (insert next).2.Keyed P)
    (hkeyed : nu.2.Keyed P) (hnu : ∀ k, nu.2.keyAt k = true → k = c) :
    (b.upsert c insert nu).2.Keyed P := by
  induction b with
  | nil => exact hkeyed
  | entry key term d next more _ ih =>
    obtain ⟨hkey, hmore, hnext, hrest⟩ := hb
    unfold trie_builder.upsert
    by_cases hc : key = c
    · rw [if_pos hc]
      exact ⟨hkey, hmore, hinsert next hnext, hrest⟩
    · rw [if_neg hc]
      exact ⟨hkey, upsert_keyAt_false hnu hmore hc, hnext, ih hrest⟩

/-- The entry that a new word starts with. -/
def new_entry (c : UInt8) (rest : List UInt8) (data : Int) : Int × trie_builder :=
  if rest = [] then (0, .entry c true data .nil .nil)
  else
    let (n, next) := trie_builder_insert .nil rest data
    (n + 1, .entry c false 0 next .nil)

theorem trie_builder_insert_cons (b : trie_builder) (c : UInt8) (rest : List UInt8) (data : Int) :
    trie_builder_insert b (c :: rest) data =
      b.upsert c (fun next => trie_builder_insert next rest data) (new_entry c rest data) := rfl

theorem new_entry_keyAt (c : UInt8) (rest : List UInt8) (data : Int) {k : UInt8}
    (h : (new_entry c rest data).2.keyAt k = true) : k = c := by
  unfold new_entry at h
  split at h
  all_goals
    simp only [trie_builder.keyAt, Bool.or_false, beq_iff_eq] at h
    exact h.symm

theorem insert_keyed {P : UInt8 → Prop} {b : trie_builder} {w : List UInt8} (data : Int)
    (hb : b.Keyed P) (hw : ∀ c ∈ w, P c) : (trie_builder_insert b w data).2.Keyed P := by
  induction w generalizing b with
  | nil => exact hb
  | cons c rest ih =>
    have hrest : ∀ x ∈ rest, P x := fun x hx => hw x (List.mem_cons_of_mem c hx)
    rw [trie_builder_insert_cons]
    refine upsert_keyed hb (fun next hnext => ih hnext hrest) ?_
      fun k hk => new_entry_keyAt c rest data hk
    unfold new_entry
    split
    · exact ⟨hw c List.mem_cons_self, rfl, trivial, trivial⟩
    · exact ⟨hw c List.mem_cons_self, rfl, ih trivial hrest, trivial⟩

theorem ofWords_snoc (words : List (List UInt8 × Int)) (w : List UInt8 × Int) :
    trie_builder.ofWords (words ++ [w]) =
      (trie_builder_insert (trie_builder.ofWords words) w.1 w.2).2 := by
  simp [trie_builder.ofWords]

theorem ofWords_keyed {P : UInt8 → Prop} {words : List (List UInt8 × Int)}
    (h : ∀ w ∈ words, ∀ c ∈ w.1, P c) : (trie_builder.ofWords words).Keyed P := by
  induction words using List.reverseRecOn with
  | nil => trivial
  | append_singleton words w ih =>
    rw [ofWords_snoc]
    exact insert_keyed w.2 (ih fun u hu => h u (List.mem_append_left _ hu))
      (h w (List.mem_append_right _ (List.mem_singleton_self w)))

theorem ofWords_wellKeyed {words : List (List UInt8 × Int)}
    (h : ∀ w ∈ words, ∀ c ∈ w.1, KeyCode c) : (trie_builder.ofWords words).WellKeyed :=
  (trie_builder.wellKeyed_iff _).mpr (ofWords_keyed h)

theorem ofWords_apart (words : List (List UInt8 × Int)) : (trie_builder.ofWords words).Apart :=
  ofWords_keyed fun _ _ _ _ => trivial

/-- The entries have a path for the word, with data at its end or without. -/
def trie_builder.pathAt : trie_builder → List UInt8 → Bool
  | _, [] => true
  | .nil, _ :: _ => false
  | .entry key _ _ next more, c :: w =>
    if key = c then next.pathAt w else more.pathAt (c :: w)

theorem trie_builder.pathAt_nil (b : trie_builder) : b.pathAt [] = true := by
  cases b <;> rfl

theorem not_spells_nil {w : List UInt8} {data : Int} : ¬ trie_builder.nil.Spells w data := nofun

/-- What the loop over the entries does to the words, when it does so one level
down and the new entry stands for the word alone. -/
theorem upsert_spells {c : UInt8} {rest : List UInt8} {data : Int}
    {insert : trie_builder → Int × trie_builder} {nu : Int × trie_builder} {b : trie_builder}
    (hb : b.Apart)
    (hinsert : ∀ next : trie_builder, next.Apart → ∀ v x, (insert next).2.Spells v x ↔
      next.Spells v x ∨ next.pathAt rest = false ∧ v = rest ∧ x = data)
    (hnu : ∀ v x, nu.2.Spells v x ↔ v = c :: rest ∧ x = data)
    (hkeys : ∀ k, nu.2.keyAt k = true → k = c) (v : List UInt8) (x : Int) :
    (b.upsert c insert nu).2.Spells v x ↔
      b.Spells v x ∨ b.pathAt (c :: rest) = false ∧ v = c :: rest ∧ x = data := by
  induction b with
  | nil =>
    rw [trie_builder.upsert, hnu v x]
    simp [trie_builder.pathAt, not_spells_nil]
  | entry key term d next more _ ih =>
    obtain ⟨_, hmore, hnext, hrest⟩ := hb
    rcases v with _ | ⟨y, v⟩
    · have hno : ∀ b : trie_builder, ¬ b.Spells [] x := fun b h => h.ne_nil rfl
      simp [hno]
    unfold trie_builder.upsert
    by_cases hkey : key = c
    · subst hkey
      rw [if_pos rfl]
      simp only [trie_builder.pathAt, if_true]
      by_cases hy : key = y
      · subst hy
        rw [trie_builder.spells_entry_same hmore, trie_builder.spells_entry_same hmore,
          hinsert next hnext]
        simp only [List.cons.injEq, true_and, or_assoc]
      · rw [trie_builder.spells_entry_other hy, trie_builder.spells_entry_other hy]
        simp [Ne.symm hy]
    · rw [if_neg hkey]
      simp only [trie_builder.pathAt, if_neg hkey]
      by_cases hy : key = y
      · subst hy
        rw [trie_builder.spells_entry_same (upsert_keyAt_false hkeys hmore hkey),
          trie_builder.spells_entry_same hmore]
        simp [hkey]
      · rw [trie_builder.spells_entry_other hy, trie_builder.spells_entry_other hy, ih hrest]

/-- An insert adds its word, unless the entries have a path for it already. -/
theorem insert_spells {b : trie_builder} {w : List UInt8} {data : Int} (hb : b.Apart)
    (hne : w ≠ []) (v : List UInt8) (x : Int) :
    (trie_builder_insert b w data).2.Spells v x ↔
      b.Spells v x ∨ b.pathAt w = false ∧ v = w ∧ x = data := by
  induction w generalizing b v x with
  | nil => exact absurd rfl hne
  | cons c rest ih =>
    rw [trie_builder_insert_cons]
    refine upsert_spells hb ?_ ?_ (fun k hk => new_entry_keyAt c rest data hk) v x
    · intro next hnext v x
      rcases rest with _ | ⟨y, rest⟩
      · simp [trie_builder_insert, trie_builder.pathAt_nil]
      · exact ih hnext (List.cons_ne_nil _ _) v x
    · intro v x
      rcases v with _ | ⟨y, v⟩
      · have hno : ¬ (new_entry c rest data).2.Spells [] x := fun h => h.ne_nil rfl
        simp [hno]
      unfold new_entry
      by_cases hy : c = y
      · subst hy
        rcases rest with _ | ⟨z, rest⟩
        · rw [if_pos rfl, trie_builder.spells_entry_same rfl]
          simp [not_spells_nil]
        · rw [if_neg (List.cons_ne_nil _ _), trie_builder.spells_entry_same rfl,
            ih (b := .nil) trivial (List.cons_ne_nil _ _)]
          simp [not_spells_nil, trie_builder.pathAt]
      · have hno : ∀ (term : Bool) (d : Int) (next : trie_builder),
            ¬ (trie_builder.entry c term d next .nil).Spells (y :: v) x := by
          intro term d next h
          exact not_spells_nil ((trie_builder.spells_entry_other hy).mp h)
        split <;> simp [hno, Ne.symm hy]

/-- The paths after the loop over the entries, when an insert one level down adds
the beginnings of the rest of the word. -/
theorem upsert_pathAt {c : UInt8} {rest : List UInt8}
    {insert : trie_builder → Int × trie_builder} {nu : Int × trie_builder} {b : trie_builder}
    (hinsert : ∀ (next : trie_builder) v, (insert next).2.pathAt v = true ↔
      next.pathAt v = true ∨ v <+: rest)
    (hnu : ∀ v, nu.2.pathAt v = true ↔ v <+: c :: rest) (v : List UInt8) :
    (b.upsert c insert nu).2.pathAt v = true ↔ b.pathAt v = true ∨ v <+: c :: rest := by
  rcases v with _ | ⟨y, v⟩
  · simp [trie_builder.pathAt_nil]
  induction b with
  | nil =>
    unfold trie_builder.upsert
    simp [hnu, trie_builder.pathAt]
  | entry key term d next more _ ih =>
    unfold trie_builder.upsert
    by_cases hkey : key = c
    · subst hkey
      rw [if_pos rfl]
      by_cases hy : key = y
      · subst hy
        simp [trie_builder.pathAt, hinsert]
      · simp [trie_builder.pathAt, hy, List.cons_prefix_cons, Ne.symm hy]
    · rw [if_neg hkey]
      by_cases hy : key = y
      · subst hy
        simp [trie_builder.pathAt, List.cons_prefix_cons, hkey]
      · simpa [trie_builder.pathAt, hy] using ih

/-- After an insert there is a path for each word that had one and for the
beginnings of the new word, and for nothing else. -/
theorem insert_pathAt (b : trie_builder) (w : List UInt8) (data : Int) (v : List UInt8) :
    (trie_builder_insert b w data).2.pathAt v = true ↔ b.pathAt v = true ∨ v <+: w := by
  induction w generalizing b v with
  | nil =>
    rw [trie_builder_insert, List.prefix_nil]
    exact ⟨Or.inl, fun h => h.elim id fun hv => by rw [hv, trie_builder.pathAt_nil]⟩
  | cons c rest ih =>
    rw [trie_builder_insert_cons]
    refine upsert_pathAt (fun next v => ih next v) (fun v => ?_) v
    rcases v with _ | ⟨y, v⟩
    · simp [trie_builder.pathAt_nil]
    unfold new_entry
    by_cases hy : c = y
    · subst hy
      rcases rest with _ | ⟨z, rest⟩
      · rcases v with _ | ⟨x, v⟩ <;> simp [trie_builder.pathAt]
      · rw [if_neg (List.cons_ne_nil _ _), List.prefix_cons_inj]
        have hnil := ih .nil v
        rcases v with _ | ⟨x, v⟩
        · simp [trie_builder.pathAt]
        · simpa [trie_builder.pathAt] using hnil
    · split <;> simp [trie_builder.pathAt, hy, List.cons_prefix_cons, Ne.symm hy]

/-- The paths of the tree are the beginnings of the words. -/
theorem ofWords_pathAt (words : List (List UInt8 × Int)) {v : List UInt8} (hv : v ≠ []) :
    (trie_builder.ofWords words).pathAt v = true ↔ ∃ w ∈ words, v <+: w.1 := by
  induction words using List.reverseRecOn with
  | nil =>
    rcases v with _ | ⟨y, v⟩
    · exact absurd rfl hv
    · simp [trie_builder.ofWords, trie_builder.pathAt]
  | append_singleton words w ih =>
    rw [ofWords_snoc, insert_pathAt, ih]
    simp [or_and_right, exists_or]

/-- A word is found with its data exactly when it does not begin a word that was
inserted before it. -/
theorem ofWords_spells {words : List (List UInt8 × Int)} (hne : ∀ w ∈ words, w.1 ≠ [])
    (v : List UInt8) (x : Int) :
    (trie_builder.ofWords words).Spells v x ↔
      ∃ before after, words = before ++ (v, x) :: after ∧ ∀ u ∈ before, ¬ v <+: u.1 := by
  induction words using List.reverseRecOn with
  | nil => simp [trie_builder.ofWords, not_spells_nil]
  | append_singleton words w ih =>
    have hw : w.1 ≠ [] := hne w (List.mem_append_right _ (List.mem_singleton_self w))
    have hpath : (trie_builder.ofWords words).pathAt w.1 = false ↔ ∀ u ∈ words, ¬ w.1 <+: u.1 := by
      rw [Bool.eq_false_iff, ne_eq, ofWords_pathAt words hw]
      simp
    rw [ofWords_snoc, insert_spells (ofWords_apart words) hw, hpath,
      ih fun u hu => hne u (List.mem_append_left _ hu)]
    constructor
    · rintro (⟨before, after, rfl, hbefore⟩ | ⟨hall, rfl, rfl⟩)
      · exact ⟨before, after ++ [w], by simp, hbefore⟩
      · exact ⟨words, [], rfl, hall⟩
    · rintro ⟨before, after, heq, hbefore⟩
      rcases List.eq_nil_or_concat after with rfl | ⟨after, y, rfl⟩
      · obtain ⟨rfl, hlast⟩ := List.append_inj' heq rfl
        cases hlast
        exact Or.inr ⟨hbefore, rfl, rfl⟩
      · rw [List.concat_eq_append, ← List.cons_append, ← List.append_assoc] at heq
        obtain ⟨rfl, _⟩ := List.append_inj' heq rfl
        exact Or.inl ⟨before, after, rfl, hbefore⟩

theorem pairwise_iff_before {α : Type} {R : α → α → Prop} {l : List α} :
    l.Pairwise R ↔ ∀ before b after, l = before ++ b :: after → ∀ a ∈ before, R a b := by
  constructor
  · rintro h before b after rfl a ha
    exact (List.pairwise_append.mp h).2.2 a ha b List.mem_cons_self
  · intro h
    induction l with
    | nil => exact .nil
    | cons a l ih =>
      refine .cons (fun b hb => ?_) (ih fun before b after heq c hc => ?_)
      · obtain ⟨before, after, rfl⟩ := List.append_of_mem hb
        exact h (a :: before) b after rfl a List.mem_cons_self
      · exact h (a :: before) b after (by rw [heq]; rfl) c (List.mem_cons_of_mem a hc)

/-- Words of which none begins one before it are all found, with their data, and
nothing else is. -/
theorem ofWords_spells_all {words : List (List UInt8 × Int)} (hne : ∀ w ∈ words, w.1 ≠ [])
    (hbegins : words.Pairwise fun a b => ¬ b.1 <+: a.1) (v : List UInt8) (x : Int) :
    (trie_builder.ofWords words).Spells v x ↔ (v, x) ∈ words := by
  rw [ofWords_spells hne]
  constructor
  · rintro ⟨before, after, rfl, _⟩
    simp
  · intro hmem
    obtain ⟨before, after, heq⟩ := List.append_of_mem hmem
    exact ⟨before, after, heq, pairwise_iff_before.mp hbegins before (v, x) after heq⟩

/-! ## Looking up a string -/

/-- The data of a string: the entries are followed by key, and the last one has
to be a term. -/
def trie_builder.lookup : trie_builder → List UInt8 → Option Int
  | _, [] => none
  | .nil, _ :: _ => none
  | .entry key term data next more, c :: rest =>
    if key = c then
      if rest = [] then
        if term then some data else none
      else next.lookup rest
    else more.lookup (c :: rest)

theorem trie_builder.lookup_nil (b : trie_builder) : b.lookup [] = none := by
  cases b <;> rfl

/-- The loop over the entries takes the first one with the key. When the keys
are apart there is no other. -/
theorem lookup_spells {b : trie_builder} (hb : b.Apart) (v : List UInt8) (d : Int) :
    b.lookup v = some d ↔ b.Spells v d := by
  induction b generalizing v with
  | nil => rcases v with _ | ⟨c, v⟩ <;> simp [trie_builder.lookup, not_spells_nil]
  | entry key term data next more ihn ihm =>
    obtain ⟨_, hmore, hnext, hrest⟩ := hb
    rcases v with _ | ⟨c, v⟩
    · simp only [trie_builder.lookup_nil, reduceCtorEq, false_iff]
      exact fun h => h.ne_nil rfl
    unfold trie_builder.lookup
    by_cases hkey : key = c
    · subst hkey
      rw [if_pos rfl, trie_builder.spells_entry_same hmore, ← ihn hnext]
      rcases v with _ | ⟨y, v⟩
      · cases term <;> simp [trie_builder.lookup_nil, eq_comm]
      · simp
    · rw [if_neg hkey, trie_builder.spells_entry_other hkey, ihm hrest]

theorem ofWords_lookup {words : List (List UInt8 × Int)} (hne : ∀ w ∈ words, w.1 ≠ [])
    (v : List UInt8) (d : Int) :
    (trie_builder.ofWords words).lookup v = some d ↔
      ∃ before after, words = before ++ (v, d) :: after ∧ ∀ u ∈ before, ¬ v <+: u.1 := by
  rw [lookup_spells (ofWords_apart words), ofWords_spells hne]

/-- Every word of the list is found with its data, and no other string is. -/
def StoresExactly (words : List (List UInt8 × Int)) : Prop :=
  ∀ v d, (trie_builder.ofWords words).lookup v = some d ↔ (v, d) ∈ words

/-- With different words, all are found exactly when none begins one that was
inserted before it. -/
theorem storesExactly_iff {words : List (List UInt8 × Int)} (hne : ∀ w ∈ words, w.1 ≠ [])
    (hdistinct : (words.map Prod.fst).Nodup) :
    StoresExactly words ↔ words.Pairwise fun a b => ¬ b.1 <+: a.1 := by
  constructor
  · intro hall
    refine pairwise_iff_before.mpr fun before w after heq a ha => ?_
    have hmem : w ∈ words := by simp [heq]
    obtain ⟨before', after', heq', hnone⟩ := (ofWords_lookup hne w.1 w.2).mp ((hall w.1 w.2).mpr hmem)
    -- the word stands at one place only
    have hnodup : (before ++ w :: after).Nodup := heq ▸ hdistinct.of_map
    obtain ⟨hbefore, hafter⟩ : w ∉ before ∧ w ∉ after := by
      simpa using (List.nodup_cons.mp (List.nodup_middle.mp hnodup)).1
    have hsame : before = before' :=
      ((List.append_cons_inj_of_notMem hbefore hafter).mp (heq.symm.trans heq')).1
    exact hnone a (hsame ▸ ha)
  · intro hbegins v d
    rw [lookup_spells (ofWords_apart words), ofWords_spells_all hne hbegins]

/-- Two words that change their places show which of them begins the other. -/
theorem not_prefix_of_any_order {words : List (List UInt8 × Int)} (hne : ∀ w ∈ words, w.1 ≠ [])
    (hsame : ∀ words', words'.Perm words → ∀ v,
      (trie_builder.ofWords words').lookup v = (trie_builder.ofWords words).lookup v)
    {x y : List UInt8 × Int} {l : List (List UInt8 × Int)} (hperm : (x :: y :: l).Perm words)
    (hxy : x.1 ≠ y.1) : ¬ x.1 <+: y.1 := by
  intro hpre
  have hswap : (y :: x :: l).Perm words := (List.Perm.swap x y l).trans hperm
  have hnonempty : ∀ {words' : List (List UInt8 × Int)}, words'.Perm words → ∀ w ∈ words', w.1 ≠ [] :=
    fun {_} hp w hw => hne w (hp.mem_iff.mp hw)
  have hfound : (trie_builder.ofWords (x :: y :: l)).lookup x.1 = some x.2 :=
    (ofWords_lookup (hnonempty hperm) _ _).mpr ⟨[], y :: l, rfl, List.forall_mem_nil _⟩
  rw [hsame _ hperm, ← hsame _ hswap, ofWords_lookup (hnonempty hswap)] at hfound
  obtain ⟨before, after, heq, hnone⟩ := hfound
  rcases before with _ | ⟨u, before⟩
  · cases heq
    exact hxy rfl
  · obtain ⟨rfl, _⟩ := List.cons.inj heq
    exact hnone y List.mem_cons_self hpre

/-- The builder stores exactly what was inserted if and only if no word begins
one that was inserted before it. The order of the words does not matter if and
only if none begins another one. -/
theorem the_builder_stores_its_words_iff_none_begins_one_before_it
    (words : List (List UInt8 × Int)) (hne : ∀ w ∈ words, w.1 ≠ [])
    (hdistinct : (words.map Prod.fst).Nodup) :
    ((∀ v d, (trie_builder.ofWords words).lookup v = some d ↔ (v, d) ∈ words) ↔
      words.Pairwise fun a b => ¬ b.1 <+: a.1) ∧
    ((∀ words', words'.Perm words → ∀ v,
        (trie_builder.ofWords words').lookup v = (trie_builder.ofWords words).lookup v) ↔
      words.Pairwise fun a b => ¬ a.1 <+: b.1 ∧ ¬ b.1 <+: a.1) := by
  refine ⟨storesExactly_iff hne hdistinct, fun hsame => ?_, fun hapart words' hperm v => ?_⟩
  · refine pairwise_iff_before.mpr fun before w after heq a ha => ?_
    obtain ⟨l, r, rfl⟩ := List.append_of_mem ha
    have haw : (a :: w :: (l ++ (r ++ after))).Perm words := by
      rw [heq, List.append_assoc, List.cons_append]
      refine List.Perm.trans (.cons a ?_) List.perm_middle.symm
      rw [← List.append_assoc, ← List.append_assoc]
      exact List.perm_middle.symm
    have hdiff : a.1 ≠ w.1 := by
      have := (haw.map Prod.fst).nodup_iff.mpr hdistinct
      simp only [List.map_cons, List.nodup_cons, List.mem_cons, not_or] at this
      exact this.1.1
    exact ⟨not_prefix_of_any_order hne hsame haw hdiff,
      not_prefix_of_any_order hne hsame ((List.Perm.swap a w _).trans haw) hdiff.symm⟩
  · have hapart' := (hperm.pairwise_iff fun {a b} h => h.symm).mpr hapart
    have hne' : ∀ w ∈ words', w.1 ≠ [] := fun w hw => hne w (hperm.mem_iff.mp hw)
    have hdistinct' := (hperm.map Prod.fst).nodup_iff.mpr hdistinct
    apply Option.ext
    intro d
    rw [(storesExactly_iff hne hdistinct).mpr (hapart.imp fun h => h.2),
      (storesExactly_iff hne' hdistinct').mpr (hapart'.imp fun h => h.2), hperm.mem_iff]

/-- `or` after `ori`: there is a path for `or` already, and it is lost. -/
theorem or_is_lost_after_ori :
    ¬ ∀ words : List (List UInt8 × Int), (∀ w ∈ words, w.1 ≠ []) → (words.map Prod.fst).Nodup →
      ∀ v d, (trie_builder.ofWords words).lookup v = some d ↔ (v, d) ∈ words := by
  intro hall
  have hor := (hall [([111, 114, 105], 12), ([111, 114], 3)] (by decide) (by decide)
    [111, 114] 3).mpr (by decide)
  have hnone : (trie_builder.ofWords [([111, 114, 105], 12), ([111, 114], 3)]).lookup [111, 114] =
      none := by decide
  rw [hnone] at hor
  cases hor

/-- `or` before `ori`. -/
theorem or_is_stored_before_ori :
    (trie_builder.ofWords [([111, 114], 3), ([111, 114, 105], 12)]).lookup [111, 114] = some 3 :=
  ((the_builder_stores_its_words_iff_none_begins_one_before_it
    [([111, 114], 3), ([111, 114, 105], 12)] (by decide) (by decide)).1.mpr (by decide)
      [111, 114] 3).mpr (by decide)

end riscv_assembler
