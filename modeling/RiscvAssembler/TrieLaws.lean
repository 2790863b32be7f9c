-- The laws of the trie generator: the flat trie answers every word as the tree
-- does. The proof goes over the tree. It carries which cells of the two arrays
-- a call writes, and states the answers for any later arrays that agree on
-- those cells.
import RiscvAssembler.BuilderWords

open checked bit_rank

namespace riscv_assembler

/-! ## The size of the tree -/

namespace trie_builder

/-- The entries with data, and the ones with entries below them. -/
def terms : trie_builder → Nat
  | .nil => 0
  | .entry _ term _ _ more => (if term then 1 else 0) + more.terms

def links : trie_builder → Nat
  | .nil => 0
  | .entry _ _ _ next more => (if next.len > 0 then 1 else 0) + more.links

/-- The nodes below this one. -/
def nodes : trie_builder → Nat
  | .nil => 0
  | .entry _ _ _ next more => (if next.len > 0 then 1 + next.nodes else 0) + more.nodes

/-- The auxiliary cells of the nodes below this one. -/
def cells : trie_builder → Nat
  | .nil => 0
  | .entry _ _ _ next more =>
    (if next.len > 0 then next.links + next.terms + next.cells else 0) + more.cells

end trie_builder

/-! ## One node -/

theorem getLsbD_bit {k i : Nat} (hk : k < 64) :
    ((1 : BitVec 64) <<< k).getLsbD i = decide (i = k) := by
  have htwo := BitVec.getLsbD_twoPow (w := 64) (i := k) (j := i)
  rw [BitVec.twoPow_eq] at htwo
  rw [show (1 : BitVec 64) = 1#64 from rfl, htwo, decide_eq_true hk, Bool.true_and]
  exact decide_eq_decide.mpr eq_comm

theorem mem_set {keys : keys2} {k : UInt8} (hk : k.toNat < 128) {i : Nat} (hi : i < 128) :
    mem (trie_set_key keys k) i = (mem keys i || decide (i = k.toNat)) := by
  have hfrag : key_frag k < 64 := by rw [key_frag_eq]; omega
  unfold trie_set_key
  simp only
  by_cases hlow : k.toNat < 64
  · rw [if_pos (by rw [key_word_eq]; omega)]
    have hf : key_frag k = k.toNat := by rw [key_frag_eq]; omega
    by_cases hi64 : i < 64
    · simp only [mem, if_pos hi64, BitVec.getLsbD_or, getLsbD_bit hfrag]
      rw [hf]
    · simp only [mem, if_neg hi64, decide_eq_false (show ¬ i = k.toNat by omega), Bool.or_false]
  · rw [if_neg (by rw [key_word_eq]; omega)]
    have hf : key_frag k = k.toNat - 64 := by rw [key_frag_eq]; omega
    by_cases hi64 : i < 64
    · simp only [mem, if_pos hi64, decide_eq_false (show ¬ i = k.toNat by omega), Bool.or_false]
    · simp only [mem, if_neg hi64, BitVec.getLsbD_or, getLsbD_bit hfrag]
      rw [hf]
      congr 1
      exact decide_eq_decide.mpr (by omega)

theorem hasKey_set {keys : keys2} {k c : UInt8} (hk : KeyCode k) (hc : KeyCode c) :
    hasKey (trie_set_key keys k) c = (hasKey keys c || k == c) := by
  unfold hasKey
  rw [mem_set hk.2.1 hc.2.1]
  congr 1
  rw [Bool.eq_iff_iff, decide_eq_true_iff, beq_iff_eq, ← UInt8.toNat_inj, eq_comm]

/-- A key that was not there makes one more. -/
theorem rank_set {keys : keys2} {k : UInt8} (hk : KeyCode k) (h : hasKey keys k = false) :
    rank (trie_set_key keys k) 128 = rank keys 128 + 1 := by
  have hins : rank (trie_set_key keys k) 128 =
      Nat.count (fun i => mem keys i = true ∨ i = k.toNat) 128 := by
    refine count_congr fun i hi => ?_
    rw [mem_set hk.2.1 hi, Bool.or_eq_true, decide_eq_true_iff]
  rw [hins]
  exact count_insert hk.2.1 (by rw [hasKey] at h; simp [h]) fun i => Iff.rfl

/-- The two counts of the first loop are the sizes of the two sets. -/
structure gbuf_scan.Ok (s : gbuf_scan) : Prop where
  np_eq : s.np = rank s.keys 128
  dp_eq : s.dp = rank s.terms 128

/-- One set of the first loop, after an entry that is in it or not. -/
theorem scan_step (on : Bool) {keys : keys2} {n : Nat} {k : UInt8} (hk : KeyCode k)
    (hn : n = rank keys 128) (h : hasKey keys k = false) :
    (if on then n + 1 else n) = rank (if on then trie_set_key keys k else keys) 128 ∧
      ∀ c, KeyCode c → hasKey (if on then trie_set_key keys k else keys) c =
        (hasKey keys c || (k == c && on)) := by
  cases on
  · exact ⟨hn, fun c _ => by simp⟩
  · refine ⟨?_, fun c hc => ?_⟩
    · simp only [if_true]
      rw [rank_set hk h, hn]
    · simp only [if_true, Bool.and_true]
      exact hasKey_set hk hc

/-- What the first loop has found after one more entry. -/
def gbuf_scan.after (s : gbuf_scan) (key : UInt8) (term link : Bool) : gbuf_scan where
  keys := if link then trie_set_key s.keys key else s.keys
  terms := if term then trie_set_key s.terms key else s.terms
  np := if link then s.np + 1 else s.np
  dp := if term then s.dp + 1 else s.dp

theorem gbuf_fill_scan_entry (s : gbuf_scan) (key : UInt8) (term : Bool) (d : Int)
    (next more : trie_builder) :
    gbuf_fill_scan s (.entry key term d next more) =
      gbuf_fill_scan (s.after key term (decide (next.len > 0))) more := by
  cases term <;> by_cases hl : next.len > 0 <;> simp [gbuf_fill_scan, gbuf_scan.after, hl]

theorem gbuf_fill_scan.spec (b : trie_builder) (s : gbuf_scan) (hb : b.WellKeyed) (hs : s.Ok)
    (hnew : ∀ c, b.keyAt c = true → hasKey s.keys c = false ∧ hasKey s.terms c = false) :
    (gbuf_fill_scan s b).Ok ∧
      (∀ c, KeyCode c → hasKey (gbuf_fill_scan s b).keys c = (hasKey s.keys c || b.linkAt c)) ∧
      (∀ c, KeyCode c → hasKey (gbuf_fill_scan s b).terms c = (hasKey s.terms c || b.termAt c)) ∧
      (gbuf_fill_scan s b).np = s.np + b.links ∧ (gbuf_fill_scan s b).dp = s.dp + b.terms := by
  induction b generalizing s with
  | nil => simp [gbuf_fill_scan, trie_builder.linkAt, trie_builder.termAt, trie_builder.links,
      trie_builder.terms, hs]
  | entry key term d next more _ ih =>
    obtain ⟨hkey, hmore, _, hrest⟩ := hb
    obtain ⟨hk0, ht0⟩ := hnew key (by simp [trie_builder.keyAt])
    obtain ⟨hnp, hkeys⟩ := scan_step (decide (next.len > 0)) hkey hs.np_eq hk0
    obtain ⟨hdp, hterms⟩ := scan_step term hkey hs.dp_eq ht0
    rw [gbuf_fill_scan_entry]
    -- the keys of the entries that follow are other keys
    have hother : ∀ c, more.keyAt c = true → (key == c) = false := by
      intro c hc
      rw [beq_eq_false_iff_ne]
      rintro rfl
      rw [hmore] at hc
      cases hc
    have hnew' : ∀ c, more.keyAt c = true →
        hasKey (s.after key term (decide (next.len > 0))).keys c = false ∧
          hasKey (s.after key term (decide (next.len > 0))).terms c = false := by
      intro c hc
      obtain ⟨hk, ht⟩ := hnew c (by simp [trie_builder.keyAt, hc])
      simp only [gbuf_scan.after]
      rw [hkeys c (hrest.keyCode hc), hterms c (hrest.keyCode hc), hk, ht, hother c hc]
      exact ⟨rfl, rfl⟩
    obtain ⟨h1, h2, h3, h4, h5⟩ := ih _ hrest ⟨hnp, hdp⟩ hnew'
    refine ⟨h1, fun c hc => ?_, fun c hc => ?_, ?_, ?_⟩
    · rw [h2 c hc, gbuf_scan.after, hkeys c hc, trie_builder.linkAt, Bool.or_assoc]
    · rw [h3 c hc, gbuf_scan.after, hterms c hc, trie_builder.termAt, Bool.or_assoc]
    · rw [h4, trie_builder.links, gbuf_scan.after]
      by_cases hl : next.len > 0 <;> simp only [hl, decide_true, decide_false, if_true,
        Bool.false_eq_true, if_false] <;> omega
    · rw [h5, trie_builder.terms, gbuf_scan.after]
      cases term <;> simp only [if_true, Bool.false_eq_true, if_false] <;> omega

theorem gbuf_size_eq (b : trie_builder) (gpos apos : Nat) :
    gbuf_size b gpos apos = (gpos + b.nodes, apos + (b.links + b.terms + b.cells)) := by
  induction b generalizing gpos apos with
  | nil => rfl
  | entry key term d next more ih1 ih2 =>
    unfold gbuf_size
    simp only [ih1, ih2, trie_builder.nodes, trie_builder.cells, trie_builder.links,
      trie_builder.terms]
    cases term <;> by_cases hl : next.len > 0 <;> simp only [hl, if_true, if_false] <;> grind

/-! ## The cells of a node -/

/-- The cell with the data of a key. -/
def trie.dataCell (t : trie) (c : UInt8) : Nat := t.data.toNat + rank t.terms c.toNat

/-- The cell with the number of the next node of a key. -/
def trie.nextCell (t : trie) (c : UInt8) : Nat := t.next.toNat + rank t.keys c.toNat

/-- The cells of a node lie between two limits, and no data shares a cell with
the number of a node. -/
structure trie.Placed (t : trie) (lo lim : Nat) : Prop where
  data_nonneg : 0 ≤ t.data
  next_nonneg : 0 ≤ t.next
  data_in : ∀ c, hasKey t.terms c = true → c.toNat < 128 → lo ≤ t.dataCell c ∧ t.dataCell c < lim
  next_in : ∀ c, hasKey t.keys c = true → c.toNat < 128 → lo ≤ t.nextCell c ∧ t.nextCell c < lim
  apart : ∀ c e, hasKey t.terms c = true → hasKey t.keys e = true → c.toNat < 128 →
    e.toNat < 128 → t.dataCell c ≠ t.nextCell e

theorem trie.Placed.data_add {t : trie} {lo lim : Nat} (h : t.Placed lo lim) (c : UInt8) :
    t.data + (rank t.terms c.toNat : Int) = t.dataCell c := by
  have := h.data_nonneg
  unfold trie.dataCell
  omega

theorem trie.Placed.next_add {t : trie} {lo lim : Nat} (h : t.Placed lo lim) (c : UInt8) :
    t.next + (rank t.keys c.toNat : Int) = t.nextCell c := by
  have := h.next_nonneg
  unfold trie.nextCell
  omega

theorem trie.Placed.mono {t : trie} {lo lim lim' : Nat} (h : t.Placed lo lim) (hle : lim ≤ lim') :
    t.Placed lo lim' := by
  refine ⟨h.data_nonneg, h.next_nonneg, fun c hc hlt => ?_, fun c hc hlt => ?_, h.apart⟩
  · have := h.data_in c hc hlt
    omega
  · have := h.next_in c hc hlt
    omega

theorem trie.dataCell_inj {t : trie} {c e : UInt8} (hc : hasKey t.terms c = true)
    (he : hasKey t.terms e = true) (h : t.dataCell c = t.dataCell e) : c = e := by
  unfold trie.dataCell at h
  exact UInt8.toNat_inj.mp (rank_injective hc he (by omega))

theorem trie.nextCell_inj {t : trie} {c e : UInt8} (hc : hasKey t.keys c = true)
    (he : hasKey t.keys e = true) (h : t.nextCell c = t.nextCell e) : c = e := by
  unfold trie.nextCell at h
  exact UInt8.toNat_inj.mp (rank_injective hc he (by omega))

/-- The cell is one that the entries of `b` have in the node. -/
def trie.Owns (t : trie) (b : trie_builder) (i : Nat) : Prop :=
  (∃ c, b.termAt c = true ∧ t.dataCell c = i) ∨ ∃ c, b.linkAt c = true ∧ t.nextCell c = i

/-- The node holds the keys of the tree. -/
structure trie.Covers (t : trie) (b : trie_builder) : Prop where
  terms : ∀ c, b.termAt c = true → hasKey t.terms c = true
  links : ∀ c, b.linkAt c = true → hasKey t.keys c = true

theorem trie.Owns.within {t : trie} {b : trie_builder} {i lo lim : Nat} (h : t.Owns b i)
    (hb : b.WellKeyed) (hp : t.Placed lo lim) (hc : t.Covers b) : lo ≤ i ∧ i < lim := by
  rcases h with ⟨c, hat, rfl⟩ | ⟨c, hat, rfl⟩
  · exact hp.data_in c (hc.terms c hat) (hb.keyCode (trie_builder.termAt_keyAt hat)).2.1
  · exact hp.next_in c (hc.links c hat) (hb.keyCode (trie_builder.linkAt_keyAt hat)).2.1

theorem trie.Covers.more {t : trie} {key : UInt8} {term : Bool} {d : Int}
    {next more : trie_builder} (h : t.Covers (.entry key term d next more)) : t.Covers more :=
  ⟨fun c hc => h.terms c (by simp [trie_builder.termAt, hc]),
    fun c hc => h.links c (by simp [trie_builder.linkAt, hc])⟩

/-- The data cell of the first entry is not a cell of the entries after it. -/
theorem dataCell_not_owned {t : trie} {key : UInt8} {term : Bool} {d : Int} {lo lim : Nat}
    {next more : trie_builder} (hb : (trie_builder.entry key term d next more).WellKeyed)
    (hp : t.Placed lo lim) (hc : t.Covers (.entry key term d next more)) (hterm : term = true) :
    ¬ t.Owns more (t.dataCell key) := by
  obtain ⟨hkey, hmore, _, hrest⟩ := hb
  have hin : hasKey t.terms key = true := hc.terms key (by simp [trie_builder.termAt, hterm])
  rintro (⟨c, hat, heq⟩ | ⟨c, hat, heq⟩)
  · have hc' := trie.dataCell_inj (hc.more.terms c hat) hin heq
    rw [hc'] at hat
    rw [trie_builder.termAt_keyAt hat] at hmore
    cases hmore
  · exact hp.apart key c hin (hc.more.links c hat) hkey.2.1
      (hrest.keyCode (trie_builder.linkAt_keyAt hat)).2.1 heq.symm

theorem nextCell_not_owned {t : trie} {key : UInt8} {term : Bool} {d : Int} {lo lim : Nat}
    {next more : trie_builder} (hb : (trie_builder.entry key term d next more).WellKeyed)
    (hp : t.Placed lo lim) (hc : t.Covers (.entry key term d next more)) (hnext : next.len > 0) :
    ¬ t.Owns more (t.nextCell key) := by
  obtain ⟨hkey, hmore, _, hrest⟩ := hb
  have hin : hasKey t.keys key = true := hc.links key (by simp [trie_builder.linkAt, hnext])
  rintro (⟨c, hat, heq⟩ | ⟨c, hat, heq⟩)
  · exact hp.apart c key (hc.more.terms c hat) hin
      (hrest.keyCode (trie_builder.termAt_keyAt hat)).2.1 hkey.2.1 heq
  · have hc' := trie.nextCell_inj (hc.more.links c hat) hin heq
    rw [hc'] at hat
    rw [trie_builder.linkAt_keyAt hat] at hmore
    cases hmore

/-! ## The answers of a node -/

/-- The walk from the node finds what the tree spells, and nothing else. -/
def Answers (tbase : List trie) (aux : List Int) (t : trie) (b : trie_builder) : Prop :=
  ∀ c w, KeyCode c → (∀ x ∈ w, KeyCode x) → ∃ r, trie_lookup tbase aux t c w = .ok r ∧
    ∀ data, r = some data ↔ b.Spells (c :: w) data

/-- The cells of the entries hold their data and the numbers of their nodes. -/
def Laid (tbase : List trie) (aux : List Int) (t : trie) : trie_builder → Prop
  | .nil => True
  | .entry key term data next more =>
    (term = true → aux[t.dataCell key]? = some data) ∧
    (next.len > 0 → ∃ (n : Nat) (below : trie), aux[t.nextCell key]? = some (n : Int) ∧
      tbase[n]? = some below ∧ Answers tbase aux below next) ∧
    Laid tbase aux t more

theorem Laid.data {tbase : List trie} {aux : List Int} {t : trie} {b : trie_builder}
    (h : Laid tbase aux t b) (hb : b.WellKeyed) {c : UInt8} (hc : b.termAt c = true) :
    ∃ data, aux[t.dataCell c]? = some data ∧ ∀ d, b.Spells [c] d ↔ d = data := by
  induction b with
  | nil => cases hc
  | entry key term data next more _ ih =>
    obtain ⟨_, hmore, _, hrest⟩ := hb
    obtain ⟨hdata, _, hlaid⟩ := h
    simp only [trie_builder.termAt, Bool.or_eq_true, Bool.and_eq_true, beq_iff_eq] at hc
    by_cases hkey : key = c
    · subst hkey
      rcases hc with ⟨_, hterm⟩ | hat
      · refine ⟨data, hdata hterm, fun d => ?_⟩
        rw [trie_builder.spells_entry_same hmore]
        have hnil : ¬ next.Spells [] d := fun hs => hs.ne_nil rfl
        simp [hterm, hnil]
      · rw [trie_builder.termAt_keyAt hat] at hmore
        cases hmore
    · obtain ⟨data', haux, hspells⟩ := ih hlaid hrest (hc.resolve_left fun hc => hkey hc.1)
      refine ⟨data', haux, fun d => ?_⟩
      rw [trie_builder.spells_entry_other hkey, hspells d]

theorem Laid.next {tbase : List trie} {aux : List Int} {t : trie} {b : trie_builder}
    (h : Laid tbase aux t b) (hb : b.WellKeyed) {c : UInt8} (hc : b.linkAt c = true) :
    ∃ (n : Nat) (below : trie) (next : trie_builder), aux[t.nextCell c]? = some (n : Int) ∧
      tbase[n]? = some below ∧ Answers tbase aux below next ∧
      ∀ x w d, b.Spells (c :: x :: w) d ↔ next.Spells (x :: w) d := by
  induction b with
  | nil => cases hc
  | entry key term data next more _ ih =>
    obtain ⟨_, hmore, _, hrest⟩ := hb
    obtain ⟨_, hlink, hlaid⟩ := h
    simp only [trie_builder.linkAt, Bool.or_eq_true, Bool.and_eq_true, beq_iff_eq,
      decide_eq_true_eq] at hc
    by_cases hkey : key = c
    · subst hkey
      rcases hc with ⟨_, hlen⟩ | hat
      · obtain ⟨n, below, haux, hnode, hans⟩ := hlink hlen
        refine ⟨n, below, next, haux, hnode, hans, fun x w d => ?_⟩
        rw [trie_builder.spells_entry_same hmore]
        simp
      · rw [trie_builder.linkAt_keyAt hat] at hmore
        cases hmore
    · obtain ⟨n, below, next', haux, hnode, hans, hspells⟩ :=
        ih hlaid hrest (hc.resolve_left fun hc => hkey hc.1)
      refine ⟨n, below, next', haux, hnode, hans, fun x w d => ?_⟩
      rw [trie_builder.spells_entry_other hkey, hspells x w d]

/-- A node that holds the keys of a tree, with its cells laid out, answers as
the tree does. -/
theorem Laid.answers {tbase : List trie} {aux : List Int} {t : trie} {b : trie_builder}
    {lo lim : Nat} (h : Laid tbase aux t b) (hb : b.WellKeyed) (hp : t.Placed lo lim)
    (hterms : ∀ c, KeyCode c → hasKey t.terms c = b.termAt c)
    (hlinks : ∀ c, KeyCode c → hasKey t.keys c = b.linkAt c) : Answers tbase aux t b := by
  intro c w hc hw
  rcases w with _ | ⟨x, w⟩
  · unfold trie_lookup
    by_cases hat : b.termAt c = true
    · obtain ⟨data, haux, hspells⟩ := h.data hb hat
      rw [trie_cell_present _ hc ((hterms c hc).trans hat), hp.data_add, ok_bind,
        if_neg (by omega), load_eq_ok haux, ok_bind]
      exact ⟨some data, rfl, fun d => by rw [hspells d]; simp [eq_comm]⟩
    · have hno : hasKey t.terms c = false := by rw [hterms c hc]; simpa using hat
      rw [trie_cell_absent _ hc.2.1 hno, ok_bind, if_pos (by decide)]
      exact ⟨none, rfl, fun d => by simpa using fun hs => hat (trie_builder.Spells.termAt hs)⟩
  · unfold trie_lookup
    by_cases hat : b.linkAt c = true
    · obtain ⟨n, below, next, haux, hnode, hans, hspells⟩ := h.next hb hat
      rw [trie_cell_present _ hc ((hlinks c hc).trans hat), hp.next_add, ok_bind,
        if_neg (by omega), load_eq_ok haux, ok_bind, load_eq_ok hnode, ok_bind]
      obtain ⟨r, hr, hdata⟩ := hans x w (hw x List.mem_cons_self)
        fun y hy => hw y (List.mem_cons_of_mem x hy)
      exact ⟨r, hr, fun d => by rw [hdata d, hspells x w d]⟩
    · have hno : hasKey t.keys c = false := by rw [hlinks c hc]; simpa using hat
      rw [trie_cell_absent _ hc.2.1 hno, ok_bind, if_pos (by decide)]
      exact ⟨none, rfl, fun d => by simpa using fun hs => hat (trie_builder.Spells.linkAt hs)⟩

/-! ## Filling the arrays -/

theorem gbuf_fill_term.spec {n lo lim : Nat} {key : UInt8} {term : Bool} {data : Int} {g : arrays}
    {t : trie} (hn : g.gbuf[n]? = some t) (hp : t.Placed lo lim) (hkey : KeyCode key)
    (hin : term = true → hasKey t.terms key = true) (hlen : lim ≤ g.aux.length) :
    ∃ aux, gbuf_fill_term n key term data g = .ok { g with aux } ∧ aux.length = g.aux.length ∧
      (term = true → aux[t.dataCell key]? = some data) ∧
      ∀ i, (term = true → t.dataCell key ≠ i) → aux[i]? = g.aux[i]? := by
  unfold gbuf_fill_term
  cases term with
  | false => exact ⟨g.aux, rfl, rfl, nofun, fun _ _ => rfl⟩
  | true =>
    have hlt : t.dataCell key < g.aux.length :=
      Nat.lt_of_lt_of_le (hp.data_in key (hin rfl) hkey.2.1).2 hlen
    rw [if_pos rfl, load_eq_ok hn, ok_bind, key_index_eq _ hkey, ok_bind, hp.data_add,
      store_eq_ok hlt, ok_bind]
    refine ⟨_, rfl, List.length_set, fun _ => List.getElem?_set_self hlt, fun i hi => ?_⟩
    exact List.getElem?_set_ne (hi rfl)

theorem gbuf_fill_link.spec {n lo lim : Nat} {key : UInt8} {g : arrays} {t : trie}
    (hn : g.gbuf[n]? = some t) (hp : t.Placed lo lim) (hkey : KeyCode key)
    (hin : hasKey t.keys key = true) (hlen : lim ≤ g.aux.length) :
    ∃ aux, gbuf_fill_link n key g = .ok { g with gpos := g.gpos + 1, aux } ∧
      aux.length = g.aux.length ∧ aux[t.nextCell key]? = some ((g.gpos + 1 : Nat) : Int) ∧
      ∀ i, t.nextCell key ≠ i → aux[i]? = g.aux[i]? := by
  have hlt : t.nextCell key < g.aux.length :=
    Nat.lt_of_lt_of_le (hp.next_in key hin hkey.2.1).2 hlen
  unfold gbuf_fill_link
  rw [load_eq_ok hn, ok_bind, key_index_eq _ hkey, ok_bind, hp.next_add]
  simp only
  rw [store_eq_ok hlt, ok_bind]
  exact ⟨_, rfl, List.length_set, List.getElem?_set_self hlt, fun i hi => List.getElem?_set_ne hi⟩

/-- What the loop of a node does: it writes the cells of the entries, the nodes
after `gpos` and the cells from `apos` on, and in any arrays that agree with it
there the entries are laid out. -/
structure LoopPost (t : trie) (b : trie_builder) (g g' : arrays) : Prop where
  gpos : g'.gpos = g.gpos + b.nodes
  apos : g'.apos = g.apos + b.cells
  gbuf_length : g'.gbuf.length = g.gbuf.length
  aux_length : g'.aux.length = g.aux.length
  gbuf_frame : ∀ i ≤ g.gpos, g'.gbuf[i]? = g.gbuf[i]?
  aux_frame : ∀ i < g.apos, ¬ t.Owns b i → g'.aux[i]? = g.aux[i]?
  laid : ∀ tbase aux, (∀ i, g.gpos < i → i ≤ g'.gpos → tbase[i]? = g'.gbuf[i]?) →
    (∀ i, t.Owns b i ∨ g.apos ≤ i ∧ i < g'.apos → aux[i]? = g'.aux[i]?) → Laid tbase aux t b

/-- What `gbuf_fill` does: it writes the nodes from `gpos` on and the cells from
`apos` on, and in any arrays that agree with it there the node at `gpos` answers
as the tree does. -/
structure FillPost (b : trie_builder) (g g' : arrays) : Prop where
  gpos : g'.gpos = g.gpos + b.nodes
  apos : g'.apos = g.apos + (b.links + b.terms + b.cells)
  gbuf_length : g'.gbuf.length = g.gbuf.length
  aux_length : g'.aux.length = g.aux.length
  gbuf_frame : ∀ i < g.gpos, g'.gbuf[i]? = g.gbuf[i]?
  aux_frame : ∀ i < g.apos, g'.aux[i]? = g.aux[i]?
  answers : ∀ tbase aux, (∀ i, g.gpos ≤ i → i ≤ g'.gpos → tbase[i]? = g'.gbuf[i]?) →
    (∀ i, g.apos ≤ i → i < g'.apos → aux[i]? = g'.aux[i]?) →
    ∃ t, tbase[g.gpos]? = some t ∧ Answers tbase aux t b

/-- The arrays have room for a tree at the cursors. -/
structure HasRoom (b : trie_builder) (g : arrays) : Prop where
  gbuf : g.gpos + b.nodes < g.gbuf.length
  aux : g.apos + (b.links + b.terms + b.cells) ≤ g.aux.length

theorem hasKey_empty (c : UInt8) : hasKey (0, 0) c = false := by
  simp [hasKey, mem]

theorem gbuf_scan.ok_empty : (⟨(0, 0), (0, 0), 0, 0⟩ : gbuf_scan).Ok := by
  have hzero : rank ((0, 0) : keys2) 128 = 0 := by
    refine (Nat.count_iff_forall_not).mpr fun i _ => ?_
    simp [mem]
  exact ⟨hzero.symm, hzero.symm⟩

/-- The node that the first loop makes. -/
theorem gbuf_fill_node.spec {b : trie_builder} {g : arrays} (hb : b.WellKeyed)
    (hroom : HasRoom b g) :
    ∃ t, gbuf_fill_node b g = .ok { g with
        gbuf := g.gbuf.set g.gpos t
        apos := g.apos + (b.links + b.terms) } ∧
      t.Placed g.apos (g.apos + (b.links + b.terms)) ∧
      (∀ c, KeyCode c → hasKey t.terms c = b.termAt c) ∧
      (∀ c, KeyCode c → hasKey t.keys c = b.linkAt c) := by
  obtain ⟨hok, hkeys, hterms, hnp, hdp⟩ := gbuf_fill_scan.spec b ⟨(0, 0), (0, 0), 0, 0⟩ hb
    gbuf_scan.ok_empty fun c _ => ⟨hasKey_empty c, hasKey_empty c⟩
  obtain ⟨hnp', hdp'⟩ := hok
  simp only [hasKey_empty, Bool.false_or, Nat.zero_add] at hkeys hterms hnp hdp
  have hlt : g.gpos < g.gbuf.length := by
    have := hroom.gbuf
    omega
  unfold gbuf_fill_node
  simp only
  rw [store_eq_ok hlt, ok_bind, hnp, hdp, Nat.add_assoc]
  refine ⟨_, rfl, ⟨?_, ?_, ?_, ?_, ?_⟩, hterms, hkeys⟩
  · simp only
    split <;> omega
  · simp only
    split <;> omega
  · intro c hc hlt
    have hrank := rank_lt_rank hc hlt
    simp only [← hdp', hdp] at hrank
    simp only [trie.dataCell, if_neg (show ¬ b.terms = 0 by omega)]
    omega
  · intro c hc hlt
    have hrank := rank_lt_rank hc hlt
    simp only [← hnp', hnp] at hrank
    simp only [trie.nextCell, if_neg (show ¬ b.links = 0 by omega)]
    omega
  · intro c e hc he hlt hlt'
    have hrank := rank_lt_rank hc hlt
    have hrank' := rank_lt_rank he hlt'
    simp only [← hdp', hdp] at hrank
    simp only [← hnp', hnp] at hrank'
    simp only [trie.dataCell, trie.nextCell, if_neg (show ¬ b.terms = 0 by omega),
      if_neg (show ¬ b.links = 0 by omega)]
    omega

/-- The run of `gbuf_fill`, when the loop of the node does what it should. -/
theorem gbuf_fill_of_loop {b : trie_builder} {g : arrays} (hb : b.WellKeyed) (hroom : HasRoom b g)
    (hloop : ∀ (t : trie) (g1 : arrays), g1.gbuf[g.gpos]? = some t → g1.gpos = g.gpos →
      t.Placed g.apos g1.apos → t.Covers b → g1.gpos + b.nodes < g1.gbuf.length →
      g1.apos + b.cells ≤ g1.aux.length →
      ∃ g', gbuf_fill_loop g.gpos b g1 = .ok g' ∧ LoopPost t b g1 g') :
    ∃ g', gbuf_fill b g = .ok g' ∧ FillPost b g g' := by
  obtain ⟨t, hnode, hp, hterms, hlinks⟩ := gbuf_fill_node.spec hb hroom
  obtain ⟨hgbuf, haux⟩ := hroom
  have hlt : g.gpos < g.gbuf.length := by omega
  have hcov : t.Covers b :=
    ⟨fun c hc => (hterms c (hb.keyCode (trie_builder.termAt_keyAt hc))).trans hc,
      fun c hc => (hlinks c (hb.keyCode (trie_builder.linkAt_keyAt hc))).trans hc⟩
  obtain ⟨g', hrun, hpost⟩ := hloop t
    { g with gbuf := g.gbuf.set g.gpos t, apos := g.apos + (b.links + b.terms) }
    (List.getElem?_set_self hlt) rfl hp hcov (by simpa using hgbuf) (by simp only; omega)
  have hgpos := hpost.gpos
  have hapos := hpost.apos
  simp only at hgpos hapos
  refine ⟨g', by rw [gbuf_fill, hnode, ok_bind, hrun], ?_⟩
  refine ⟨hgpos, by omega, by rw [hpost.gbuf_length, List.length_set], hpost.aux_length,
    fun i hi => ?_, fun i hi => ?_, fun tbase aux hg ha => ?_⟩
  · rw [hpost.gbuf_frame i (Nat.le_of_lt hi)]
    exact List.getElem?_set_ne (by omega)
  · refine hpost.aux_frame i (by simp only; omega) fun hown => ?_
    have := hown.within hb hp hcov
    omega
  · refine ⟨t, ?_, ?_⟩
    · rw [hg g.gpos (Nat.le_refl _) (by omega), hpost.gbuf_frame g.gpos (Nat.le_refl _)]
      exact List.getElem?_set_self hlt
    · refine (hpost.laid tbase aux (fun i hi hi' => hg i (Nat.le_of_lt hi) hi') ?_).answers hb hp
        hterms hlinks
      rintro i (hown | ⟨hi, hi'⟩)
      · have := hown.within hb hp hcov
        exact ha i this.1 (by omega)
      · simp only at hi
        exact ha i (by omega) hi'

/-- What the first entry of a loop does. -/
structure EntryPost (t : trie) (key : UInt8) (term : Bool) (data : Int) (next : trie_builder)
    (g g' : arrays) : Prop where
  gpos : g'.gpos = g.gpos + (if next.len > 0 then 1 + next.nodes else 0)
  apos : g'.apos = g.apos + (if next.len > 0 then next.links + next.terms + next.cells else 0)
  gbuf_length : g'.gbuf.length = g.gbuf.length
  aux_length : g'.aux.length = g.aux.length
  gbuf_frame : ∀ i ≤ g.gpos, g'.gbuf[i]? = g.gbuf[i]?
  aux_frame : ∀ i < g.apos, (term = true → t.dataCell key ≠ i) →
    (next.len > 0 → t.nextCell key ≠ i) → g'.aux[i]? = g.aux[i]?
  data : term = true → g'.aux[t.dataCell key]? = some data
  next : next.len > 0 → ∀ tbase aux,
    (∀ i, g.gpos < i → i ≤ g'.gpos → tbase[i]? = g'.gbuf[i]?) →
    (∀ i, i = t.nextCell key ∨ g.apos ≤ i ∧ i < g'.apos → aux[i]? = g'.aux[i]?) →
    ∃ (n : Nat) (below : trie), aux[t.nextCell key]? = some (n : Int) ∧
      tbase[n]? = some below ∧ Answers tbase aux below next

/-- The first entry, then the entries after it. -/
theorem EntryPost.cons {t : trie} {key : UInt8} {term : Bool} {d : Int} {next more : trie_builder}
    {g g1 g2 : arrays} {lo : Nat} (hb : (trie_builder.entry key term d next more).WellKeyed)
    (hp : t.Placed lo g.apos) (hc : t.Covers (.entry key term d next more))
    (h1 : EntryPost t key term d next g g1) (h2 : LoopPost t more g1 g2) :
    LoopPost t (.entry key term d next more) g g2 := by
  have hgpos := h1.gpos
  have hapos := h1.apos
  have hgpos2 := h2.gpos
  have hapos2 := h2.apos
  have hown_more : ∀ i, t.Owns more i → i < g.apos := fun i h =>
    (h.within hb.2.2.2 hp hc.more).2
  have hown : ∀ i, t.Owns more i → t.Owns (.entry key term d next more) i := by
    rintro i (⟨c, hat, h⟩ | ⟨c, hat, h⟩)
    · exact Or.inl ⟨c, by simp [trie_builder.termAt, hat], h⟩
    · exact Or.inr ⟨c, by simp [trie_builder.linkAt, hat], h⟩
  refine ⟨?_, ?_, by rw [h2.gbuf_length, h1.gbuf_length], by rw [h2.aux_length, h1.aux_length],
    fun i hi => ?_, fun i hi hno => ?_, fun tbase aux hg ha => ⟨?_, ?_, ?_⟩⟩
  · rw [hgpos2, hgpos, trie_builder.nodes, Nat.add_assoc]
  · rw [hapos2, hapos, trie_builder.cells, Nat.add_assoc]
  · rw [h2.gbuf_frame i (by omega), h1.gbuf_frame i hi]
  · rw [h2.aux_frame i (by omega) fun h => hno (hown i h)]
    refine h1.aux_frame i hi (fun hterm he => hno ?_) (fun hlen he => hno ?_)
    · exact Or.inl ⟨key, by simp [trie_builder.termAt, hterm], he⟩
    · exact Or.inr ⟨key, by simp [trie_builder.linkAt, hlen], he⟩
  · intro hterm
    have hat : t.Owns (.entry key term d next more) (t.dataCell key) :=
      Or.inl ⟨key, by simp [trie_builder.termAt, hterm], rfl⟩
    have hlt := (hat.within hb hp hc).2
    rw [ha _ (Or.inl hat), h2.aux_frame _ (by omega) (dataCell_not_owned hb hp hc hterm)]
    exact h1.data hterm
  · intro hlen
    have hat : t.Owns (.entry key term d next more) (t.nextCell key) :=
      Or.inr ⟨key, by simp [trie_builder.linkAt, hlen], rfl⟩
    have hlt := (hat.within hb hp hc).2
    refine h1.next hlen tbase aux (fun i hi hi' => ?_) ?_
    · rw [hg i hi (by omega), h2.gbuf_frame i hi']
    · rintro i (rfl | ⟨hi, hi'⟩)
      · rw [ha _ (Or.inl hat), h2.aux_frame _ (by omega) (nextCell_not_owned hb hp hc hlen)]
      · rw [ha i (Or.inr ⟨hi, by omega⟩), h2.aux_frame i hi' fun h => ?_]
        have := hown_more i h
        omega
  · refine h2.laid tbase aux (fun i hi hi' => hg i (by omega) hi') ?_
    rintro i (h | ⟨hi, hi'⟩)
    · exact ha i (Or.inl (hown i h))
    · exact ha i (Or.inr ⟨by omega, hi'⟩)

/-- What the second loop does for an entry: its data, and the nodes below it. -/
def gbuf_fill_entry (n : Nat) (key : UInt8) (term : Bool) (data : Int) (next : trie_builder)
    (g : arrays) : Result arrays := do
  let g ← gbuf_fill_term n key term data g
  if next.len > 0 then do
    let g ← gbuf_fill_link n key g
    gbuf_fill next g
  else .ok g

theorem gbuf_fill_loop_entry (n : Nat) (key : UInt8) (term : Bool) (data : Int)
    (next more : trie_builder) (g : arrays) :
    gbuf_fill_loop n (.entry key term data next more) g =
      gbuf_fill_entry n key term data next g >>= gbuf_fill_loop n more := by
  rw [gbuf_fill_loop, gbuf_fill_entry, bind_assoc]
  rfl

/-- The step: one entry, when the nodes below it are filled as they should. -/
theorem gbuf_fill_entry.spec {n lo : Nat} {g : arrays} {t : trie} {key : UInt8} {term : Bool}
    (data : Int) {next : trie_builder} (hn : g.gbuf[n]? = some t) (hp : t.Placed lo g.apos)
    (hkey : KeyCode key) (hterms : term = true → hasKey t.terms key = true)
    (hlinks : next.len > 0 → hasKey t.keys key = true) (haux : g.apos ≤ g.aux.length)
    (hroom : next.len > 0 → HasRoom next { g with gpos := g.gpos + 1 })
    (hbelow : ∀ g1, HasRoom next g1 → ∃ g2, gbuf_fill next g1 = .ok g2 ∧ FillPost next g1 g2) :
    ∃ g', gbuf_fill_entry n key term data next g = .ok g' ∧
      EntryPost t key term data next g g' := by
  obtain ⟨aux1, hrun1, hlen1, hdata1, hframe1⟩ := gbuf_fill_term.spec hn hp hkey hterms haux
  unfold gbuf_fill_entry
  rw [hrun1, ok_bind]
  by_cases hlen : next.len > 0
  · rw [if_pos hlen]
    have hin := (hp.next_in key (hlinks hlen) hkey.2.1).2
    obtain ⟨aux2, hrun2, hlen2, hdata2, hframe2⟩ := gbuf_fill_link.spec
      (g := { g with aux := aux1 }) hn hp hkey (hlinks hlen) (by simp only; omega)
    simp only at hlen2
    obtain ⟨g3, hrun3, hpost3⟩ := hbelow { g with gpos := g.gpos + 1, aux := aux2 }
      ⟨(hroom hlen).gbuf, by rw [hlen2, hlen1]; exact (hroom hlen).aux⟩
    have hgpos := hpost3.gpos
    have hapos := hpost3.apos
    simp only at hgpos hapos
    -- the cells of this node are below the ones that the next node takes
    have hkeep : ∀ i < g.apos, t.nextCell key ≠ i → g3.aux[i]? = aux1[i]? := fun i hi hne =>
      (hpost3.aux_frame i hi).trans (hframe2 i hne)
    refine ⟨g3, by rw [hrun2, ok_bind]; exact hrun3, ?_⟩
    refine ⟨by rw [if_pos hlen]; omega, by rw [if_pos hlen]; omega, hpost3.gbuf_length,
      by rw [hpost3.aux_length, hlen2, hlen1], fun i hi => ?_, fun i hi hd hl => ?_,
      fun hterm => ?_, fun _ tbase aux hg ha => ?_⟩
    · exact hpost3.gbuf_frame i (Nat.lt_succ_of_le hi)
    · rw [hkeep i hi (hl hlen), hframe1 i hd]
    · rw [hkeep _ (hp.data_in key (hterms hterm) hkey.2.1).2
        (hp.apart key key (hterms hterm) (hlinks hlen) hkey.2.1 hkey.2.1).symm]
      exact hdata1 hterm
    · obtain ⟨below, hbelow, hans⟩ := hpost3.answers tbase aux
        (fun i hi hi' => hg i (Nat.lt_of_succ_le hi) hi')
        (fun i hi hi' => ha i (Or.inr ⟨hi, hi'⟩))
      refine ⟨g.gpos + 1, below, ?_, hbelow, hans⟩
      rw [ha _ (Or.inl rfl), hpost3.aux_frame _ hin]
      exact hdata2
  · rw [if_neg hlen]
    exact ⟨_, rfl, by rw [if_neg hlen]; rfl, by rw [if_neg hlen]; rfl, rfl, hlen1,
      fun _ _ => rfl, fun i _ hd _ => hframe1 i hd, hdata1, fun h => absurd h hlen⟩

theorem gbuf_fill_loop.spec (b : trie_builder) (n lo : Nat) (g : arrays) (t : trie)
    (hb : b.WellKeyed) (hn : g.gbuf[n]? = some t) (hle : n ≤ g.gpos) (hp : t.Placed lo g.apos)
    (hc : t.Covers b) (hgbuf : g.gpos + b.nodes < g.gbuf.length)
    (haux : g.apos + b.cells ≤ g.aux.length) :
    ∃ g', gbuf_fill_loop n b g = .ok g' ∧ LoopPost t b g g' := by
  induction b generalizing n lo g t with
  | nil =>
    refine ⟨g, rfl, rfl, rfl, rfl, rfl, fun _ _ => rfl, fun _ _ _ => rfl, fun _ _ _ _ => trivial⟩
  | entry key term data next more ihnext ihmore =>
    have hwell := hb
    obtain ⟨hkey, _, hnext, hmore⟩ := hb
    simp only [trie_builder.nodes] at hgbuf
    simp only [trie_builder.cells] at haux
    have hterms : term = true → hasKey t.terms key = true := fun h =>
      hc.terms key (by simp [trie_builder.termAt, h])
    have hlinks : next.len > 0 → hasKey t.keys key = true := fun h =>
      hc.links key (by simp [trie_builder.linkAt, h])
    obtain ⟨g2, hrun2, hpost2⟩ := gbuf_fill_entry.spec data hn hp hkey hterms hlinks (by omega)
      (fun hlen => by
        rw [if_pos hlen] at hgbuf haux
        exact ⟨by simp only; omega, by simp only; omega⟩)
      fun g1 hroom => gbuf_fill_of_loop hnext hroom fun t' g1 hat hg1 hp' hc' hroom1 hroom2 =>
        ihnext _ _ g1 t' hnext hat (Nat.le_of_eq hg1.symm) hp' hc' hroom1 hroom2
    have h2gpos := hpost2.gpos
    have h2apos := hpost2.apos
    obtain ⟨g', hrun, hpost⟩ := ihmore n lo g2 t hmore
      (by rw [hpost2.gbuf_frame n hle, hn]) (by omega) (hp.mono (by omega)) hc.more
      (by rw [hpost2.gbuf_length]; omega) (by rw [hpost2.aux_length]; omega)
    refine ⟨g', ?_, hpost2.cons hwell hp hc hpost⟩
    rw [gbuf_fill_loop_entry, hrun2, ok_bind, hrun]

theorem gbuf_fill.spec {b : trie_builder} {g : arrays} (hb : b.WellKeyed) (hroom : HasRoom b g) :
    ∃ g', gbuf_fill b g = .ok g' ∧ FillPost b g g' :=
  gbuf_fill_of_loop hb hroom fun t g1 hat hg1 hp hc hroom1 hroom2 =>
    gbuf_fill_loop.spec b _ _ g1 t hb hat (Nat.le_of_eq hg1.symm) hp hc hroom1 hroom2

theorem gbuf_of.spec {b : trie_builder} (hb : b.WellKeyed) :
    ∃ g t, gbuf_of b = .ok g ∧ g.gbuf[0]? = some t ∧ Answers g.gbuf g.aux t b := by
  unfold gbuf_of
  rw [gbuf_size_eq]
  simp only [Nat.zero_add]
  obtain ⟨g, hrun, hpost⟩ := gbuf_fill.spec (g := {
    gbuf := List.replicate (b.nodes + 1) ⟨(0, 0), (0, 0), 0, 0⟩
    aux := List.replicate (b.links + b.terms + b.cells) 0
    gpos := 0
    apos := 0 }) hb ⟨by simp, by simp⟩
  obtain ⟨t, hat, hans⟩ := hpost.answers g.gbuf g.aux (fun _ _ _ => rfl) (fun _ _ _ => rfl)
  exact ⟨g, t, hrun, hat, hans⟩

end riscv_assembler
