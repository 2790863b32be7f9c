-- The sizing pass of the trie generator and its filling pass: the second one
-- with a record of what it writes. It fills the nodes one after the other, and
-- writes each auxiliary cell that the first one counted once.
import RiscvAssembler.TrieLaws

open checked

namespace riscv_assembler

/-! ## The filling pass with a record -/

structure logged where
  g : arrays
  /-- The indices of `gbuf`, one for each call of `gbuf_fill`. -/
  nodes : List Nat
  /-- The indices of `aux`, one for each write. -/
  cells : List Int

def gbuf_fill_node_logged (base : trie_builder) (t : logged) : Result logged := do
  let g ← gbuf_fill_node base t.g
  .ok { t with g, nodes := t.nodes ++ [t.g.gpos] }

def gbuf_fill_term_logged (n : Nat) (key : UInt8) (term : Bool) (data : Int) (t : logged) :
    Result logged :=
  if term then do
    let node ← load t.g.gbuf n
    let i ← key_index node.terms key
    let aux ← store t.g.aux (node.data + i) data
    .ok { t with g := { t.g with aux }, cells := t.cells ++ [node.data + i] }
  else .ok t

def gbuf_fill_link_logged (n : Nat) (key : UInt8) (t : logged) : Result logged := do
  let node ← load t.g.gbuf n
  let i ← key_index node.keys key
  let gpos := t.g.gpos + 1
  let aux ← store t.g.aux (node.next + i) gpos
  .ok { t with g := { t.g with gpos, aux }, cells := t.cells ++ [node.next + i] }

def gbuf_fill_loop_logged (n : Nat) (base : trie_builder) (t : logged) : Result logged :=
  match base with
  | .nil => .ok t
  | .entry key term data next more => do
    let t ← gbuf_fill_term_logged n key term data t
    let t ← (if next.len > 0 then do
        let t ← gbuf_fill_link_logged n key t
        let below ← gbuf_fill_node_logged next t
        gbuf_fill_loop_logged t.g.gpos next below
      else .ok t)
    gbuf_fill_loop_logged n more t

def gbuf_fill_logged (base : trie_builder) (t : logged) : Result logged := do
  let below ← gbuf_fill_node_logged base t
  gbuf_fill_loop_logged t.g.gpos base below

/-- The arrays that `main` allocates, before the filling pass. -/
def logged.start (base : trie_builder) : logged where
  g := {
    gbuf := List.replicate ((gbuf_size base 0 0).1 + 1) ⟨(0, 0), (0, 0), 0, 0⟩
    aux := List.replicate (gbuf_size base 0 0).2 0
    gpos := 0
    apos := 0 }
  nodes := []
  cells := []

/-! ## The record changes nothing -/

/-- Without its record the run is the other one. -/
def Erases (x : Result logged) (y : Result arrays) : Prop := x.map logged.g = y

theorem Erases.bind {x : Result logged} {y : Result arrays} {f : logged → Result logged}
    {h : arrays → Result arrays} (hx : Erases x y) (hf : ∀ t, Erases (f t) (h t.g)) :
    Erases (x >>= f) (y >>= h) := by
  unfold Erases at hx
  subst hx
  cases x with
  | error e => rfl
  | ok t => exact hf t

theorem Erases.ok {x : Result logged} {y : Result arrays} (h : Erases x y) {t : logged}
    (hx : x = .ok t) : y = .ok t.g := by
  subst hx
  exact h.symm

theorem gbuf_fill_node_logged.erases (base : trie_builder) (t : logged) :
    Erases (gbuf_fill_node_logged base t) (gbuf_fill_node base t.g) := by
  unfold Erases gbuf_fill_node_logged
  cases gbuf_fill_node base t.g <;> rfl

theorem gbuf_fill_term_logged.erases (n : Nat) (key : UInt8) (term : Bool) (data : Int)
    (t : logged) : Erases (gbuf_fill_term_logged n key term data t)
      (gbuf_fill_term n key term data t.g) := by
  unfold Erases gbuf_fill_term_logged gbuf_fill_term
  cases term with
  | false => rfl
  | true =>
    simp only [if_true]
    cases load t.g.gbuf n with
    | error e => rfl
    | ok node =>
      simp only [ok_bind]
      cases key_index node.terms key with
      | error e => rfl
      | ok i =>
        simp only [ok_bind]
        cases store t.g.aux (node.data + i) data <;> rfl

theorem gbuf_fill_link_logged.erases (n : Nat) (key : UInt8) (t : logged) :
    Erases (gbuf_fill_link_logged n key t) (gbuf_fill_link n key t.g) := by
  unfold Erases gbuf_fill_link_logged gbuf_fill_link
  cases load t.g.gbuf n with
  | error e => rfl
  | ok node =>
    simp only [ok_bind]
    cases key_index node.keys key with
    | error e => rfl
    | ok i =>
      simp only [ok_bind]
      cases store t.g.aux (node.next + i) ((t.g.gpos + 1 : Nat) : Int) <;> rfl

theorem gbuf_fill_loop_logged.erases (base : trie_builder) (n : Nat) (t : logged) :
    Erases (gbuf_fill_loop_logged n base t) (gbuf_fill_loop n base t.g) := by
  induction base generalizing n t with
  | nil => rfl
  | entry key term data next more ihnext ihmore =>
    unfold gbuf_fill_loop_logged gbuf_fill_loop
    refine (gbuf_fill_term_logged.erases n key term data t).bind fun t => ?_
    refine Erases.bind ?_ fun t => ihmore n t
    split
    · refine (gbuf_fill_link_logged.erases n key t).bind fun t => ?_
      exact (gbuf_fill_node_logged.erases next t).bind fun below => ihnext t.g.gpos below
    · rfl

theorem gbuf_fill_logged.erases (base : trie_builder) (t : logged) :
    Erases (gbuf_fill_logged base t) (gbuf_fill base t.g) :=
  (gbuf_fill_node_logged.erases base t).bind fun below =>
    gbuf_fill_loop_logged.erases base t.g.gpos below

/-- What the second loop does for an entry. -/
def gbuf_fill_entry_logged (n : Nat) (key : UInt8) (term : Bool) (data : Int)
    (next : trie_builder) (t : logged) : Result logged := do
  let t ← gbuf_fill_term_logged n key term data t
  if next.len > 0 then do
    let t ← gbuf_fill_link_logged n key t
    gbuf_fill_logged next t
  else .ok t

theorem gbuf_fill_loop_logged_entry (n : Nat) (key : UInt8) (term : Bool) (data : Int)
    (next more : trie_builder) (t : logged) :
    gbuf_fill_loop_logged n (.entry key term data next more) t =
      gbuf_fill_entry_logged n key term data next t >>= gbuf_fill_loop_logged n more := by
  rw [gbuf_fill_loop_logged, gbuf_fill_entry_logged, bind_assoc]
  rfl

theorem gbuf_fill_entry_logged.erases (n : Nat) (key : UInt8) (term : Bool) (data : Int)
    (next : trie_builder) (t : logged) :
    Erases (gbuf_fill_entry_logged n key term data next t)
      (gbuf_fill_entry n key term data next t.g) := by
  unfold gbuf_fill_entry_logged gbuf_fill_entry
  refine (gbuf_fill_term_logged.erases n key term data t).bind fun t => ?_
  split
  · refine (gbuf_fill_link_logged.erases n key t).bind fun t => ?_
    exact gbuf_fill_logged.erases next t
  · rfl

/-! ## The cells of a node, as a list -/

/-- The cells that the second loop writes for the entries themselves. -/
def trie.cellsOf (t : trie) : trie_builder → List Nat
  | .nil => []
  | .entry key term _ next more =>
    (if term then [t.dataCell key] else []) ++
      ((if next.len > 0 then [t.nextCell key] else []) ++ t.cellsOf more)

theorem trie.length_cellsOf (t : trie) (b : trie_builder) :
    (t.cellsOf b).length = b.links + b.terms := by
  induction b with
  | nil => rfl
  | entry key term d next more _ ih =>
    simp only [trie.cellsOf, List.length_append, ih, trie_builder.links, trie_builder.terms]
    cases term <;> by_cases hl : next.len > 0 <;> simp [hl] <;> omega

theorem trie.owns_of_mem {t : trie} {b : trie_builder} {i : Nat} (h : i ∈ t.cellsOf b) :
    t.Owns b i := by
  induction b with
  | nil => cases h
  | entry key term d next more _ ih =>
    simp only [trie.cellsOf, List.mem_append] at h
    rcases h with h | h | h
    · cases term with
      | false => cases h
      | true => exact Or.inl ⟨key, by simp [trie_builder.termAt], (List.mem_singleton.mp h).symm⟩
    · split at h
      · rename_i hl
        exact Or.inr ⟨key, by simp [trie_builder.linkAt, hl], (List.mem_singleton.mp h).symm⟩
      · cases h
    · rcases ih h with ⟨c, hat, hc⟩ | ⟨c, hat, hc⟩
      · exact Or.inl ⟨c, by simp [trie_builder.termAt, hat], hc⟩
      · exact Or.inr ⟨c, by simp [trie_builder.linkAt, hat], hc⟩

theorem trie.nodup_cellsOf {t : trie} {b : trie_builder} {lo lim : Nat} (hb : b.WellKeyed)
    (hp : t.Placed lo lim) (hc : t.Covers b) : (t.cellsOf b).Nodup := by
  induction b with
  | nil => exact .nil
  | entry key term d next more _ ih =>
    have hmore := ih hb.2.2.2 hc.more
    have hdata : term = true → t.dataCell key ∉ t.cellsOf more := fun hterm hmem =>
      dataCell_not_owned hb hp hc hterm (trie.owns_of_mem hmem)
    have hnext : next.len > 0 → t.nextCell key ∉ t.cellsOf more := fun hlen hmem =>
      nextCell_not_owned hb hp hc hlen (trie.owns_of_mem hmem)
    have hapart : term = true → next.len > 0 → t.dataCell key ≠ t.nextCell key :=
      fun hterm hlen => hp.apart key key (hc.terms key (by simp [trie_builder.termAt, hterm]))
        (hc.links key (by simp [trie_builder.linkAt, hlen])) hb.1.2.1 hb.1.2.1
    unfold trie.cellsOf
    cases term <;> by_cases hl : next.len > 0 <;> simp_all

/-- As many different numbers as a range has are the range in some order. -/
theorem perm_range' {l : List Nat} {lo n : Nat} (hnodup : l.Nodup)
    (hin : ∀ i ∈ l, lo ≤ i ∧ i < lo + n) (hlen : l.length = n) : l.Perm (List.range' lo n) := by
  have hsub : l.Subperm (List.range' lo n) :=
    hnodup.subperm fun i hi => List.mem_range'_1.mpr (hin i hi)
  exact hsub.perm_of_length_le (by simp [hlen])

/-- A node whose cells fill a region. -/
theorem trie.cellsOf_perm {t : trie} {b : trie_builder} {lo : Nat} (hb : b.WellKeyed)
    (hp : t.Placed lo (lo + (b.links + b.terms))) (hc : t.Covers b) :
    (t.cellsOf b).Perm (List.range' lo (b.links + b.terms)) :=
  perm_range' (trie.nodup_cellsOf hb hp hc)
    (fun _ hi => (trie.owns_of_mem hi).within hb hp hc) (t.length_cellsOf b)

/-! ## What is written -/

/-- The record after a run: nodes in their order, and cells in any order. -/
structure logged.Adds (t t' : logged) (nodes cells : List Nat) : Prop where
  nodes : t'.nodes = t.nodes ++ nodes
  cells : t'.cells.Perm (t.cells ++ cells.map fun i : Nat => (i : Int))

theorem logged.Adds.trans {t t1 t2 : logged} {nodes nodes' cells cells' : List Nat}
    (h : t.Adds t1 nodes cells) (h' : t1.Adds t2 nodes' cells') :
    t.Adds t2 (nodes ++ nodes') (cells ++ cells') := by
  constructor
  · rw [h'.nodes, h.nodes, List.append_assoc]
  · rw [List.map_append, ← List.append_assoc]
    exact h'.cells.trans (.append_right _ h.cells)

theorem logged.Adds.perm {t t' : logged} {nodes cells cells' : List Nat}
    (h : t.Adds t' nodes cells) (hp : cells.Perm cells') : t.Adds t' nodes cells' :=
  ⟨h.nodes, h.cells.trans (.append_left _ (hp.map _))⟩

theorem gbuf_fill_term_logged.spec {n lo lim : Nat} {key : UInt8} {term : Bool} (data : Int)
    {t : logged} {node : trie} (hn : t.g.gbuf[n]? = some node) (hp : node.Placed lo lim)
    (hkey : KeyCode key) (hin : term = true → hasKey node.terms key = true)
    (hlen : lim ≤ t.g.aux.length) :
    ∃ aux t', gbuf_fill_term_logged n key term data t = .ok t' ∧ t'.g = { t.g with aux } ∧
      aux.length = t.g.aux.length ∧ t.Adds t' [] (if term then [node.dataCell key] else []) := by
  unfold gbuf_fill_term_logged
  cases term with
  | false => exact ⟨t.g.aux, t, rfl, rfl, rfl, by simp, by simp⟩
  | true =>
    have hlt : node.dataCell key < t.g.aux.length :=
      Nat.lt_of_lt_of_le (hp.data_in key (hin rfl) hkey.2.1).2 hlen
    rw [if_pos rfl, load_eq_ok hn, ok_bind, key_index_eq _ hkey, ok_bind, hp.data_add,
      store_eq_ok hlt, ok_bind]
    exact ⟨_, _, rfl, rfl, List.length_set, by simp, by simp⟩

theorem gbuf_fill_link_logged.spec {n lo lim : Nat} {key : UInt8} {t : logged} {node : trie}
    (hn : t.g.gbuf[n]? = some node) (hp : node.Placed lo lim) (hkey : KeyCode key)
    (hin : hasKey node.keys key = true) (hlen : lim ≤ t.g.aux.length) :
    ∃ aux t', gbuf_fill_link_logged n key t = .ok t' ∧
      t'.g = { t.g with gpos := t.g.gpos + 1, aux } ∧ aux.length = t.g.aux.length ∧
      t.Adds t' [] [node.nextCell key] := by
  have hlt : node.nextCell key < t.g.aux.length :=
    Nat.lt_of_lt_of_le (hp.next_in key hin hkey.2.1).2 hlen
  unfold gbuf_fill_link_logged
  rw [load_eq_ok hn, ok_bind, key_index_eq _ hkey, ok_bind, hp.next_add]
  simp only
  rw [store_eq_ok hlt, ok_bind]
  exact ⟨_, _, rfl, rfl, List.length_set, by simp, by simp⟩

/-- The call of `gbuf_fill` for a node, when the loop of the node writes what it
should. -/
theorem gbuf_fill_logged_of_loop {b : trie_builder} {t : logged} (hb : b.WellKeyed)
    (hroom : HasRoom b t.g)
    (hloop : ∀ (node : trie) (t1 : logged), t1.g.gbuf[t.g.gpos]? = some node →
      t1.g.gpos = t.g.gpos → node.Placed t.g.apos t1.g.apos → node.Covers b →
      t1.g.gpos + b.nodes < t1.g.gbuf.length → t1.g.apos + b.cells ≤ t1.g.aux.length →
      ∃ t', gbuf_fill_loop_logged t.g.gpos b t1 = .ok t' ∧
        t1.Adds t' (List.range' (t1.g.gpos + 1) b.nodes)
          (node.cellsOf b ++ List.range' t1.g.apos b.cells)) :
    ∃ t', gbuf_fill_logged b t = .ok t' ∧
      t.Adds t' (List.range' t.g.gpos (1 + b.nodes))
        (List.range' t.g.apos (b.links + b.terms + b.cells)) := by
  obtain ⟨node, hnode, hp, hterms, hlinks⟩ := gbuf_fill_node.spec hb hroom
  obtain ⟨hgbuf, haux⟩ := hroom
  have hlt : t.g.gpos < t.g.gbuf.length := by omega
  have hcov : node.Covers b :=
    ⟨fun c hc => (hterms c (hb.keyCode (trie_builder.termAt_keyAt hc))).trans hc,
      fun c hc => (hlinks c (hb.keyCode (trie_builder.linkAt_keyAt hc))).trans hc⟩
  unfold gbuf_fill_logged gbuf_fill_node_logged
  rw [hnode]
  simp only [ok_bind]
  obtain ⟨t', hrun, hadds⟩ := hloop node { t with
      g := { t.g with
        gbuf := t.g.gbuf.set t.g.gpos node
        apos := t.g.apos + (b.links + b.terms) }
      nodes := t.nodes ++ [t.g.gpos] }
    (List.getElem?_set_self hlt) rfl hp hcov (by simpa using hgbuf) (by simp only; omega)
  refine ⟨t', hrun, ?_, ?_⟩
  · rw [hadds.nodes, List.append_assoc, Nat.add_comm 1, List.range'_succ]
    rfl
  · refine hadds.cells.trans (.append_left _ (.map _ ?_))
    rw [← List.range'_append_1]
    exact .append_right _ (node.cellsOf_perm hb hp hcov)

/-- The step: one entry, when the nodes below it are recorded as they should. -/
theorem gbuf_fill_entry_logged.spec {n lo : Nat} {t : logged} {node : trie} {key : UInt8}
    {term : Bool} (data : Int) {next : trie_builder} (hn : t.g.gbuf[n]? = some node)
    (hp : node.Placed lo t.g.apos) (hkey : KeyCode key) (hnext : next.WellKeyed)
    (hterms : term = true → hasKey node.terms key = true)
    (hlinks : next.len > 0 → hasKey node.keys key = true) (haux : t.g.apos ≤ t.g.aux.length)
    (hroom : next.len > 0 → HasRoom next { t.g with gpos := t.g.gpos + 1 })
    (hbelow : ∀ t1 : logged, HasRoom next t1.g → ∃ t2, gbuf_fill_logged next t1 = .ok t2 ∧
      t1.Adds t2 (List.range' t1.g.gpos (1 + next.nodes))
        (List.range' t1.g.apos (next.links + next.terms + next.cells))) :
    ∃ t', gbuf_fill_entry_logged n key term data next t = .ok t' ∧
      EntryPost node key term data next t.g t'.g ∧
      t.Adds t' (List.range' (t.g.gpos + 1) (if next.len > 0 then 1 + next.nodes else 0))
        ((if term then [node.dataCell key] else []) ++
          ((if next.len > 0 then [node.nextCell key] else []) ++ List.range' t.g.apos
            (if next.len > 0 then next.links + next.terms + next.cells else 0))) := by
  suffices hadds : ∃ t', gbuf_fill_entry_logged n key term data next t = .ok t' ∧ t.Adds t' _ _ by
    obtain ⟨t', hrun, hadds⟩ := hadds
    obtain ⟨g', hrun', hpost⟩ := gbuf_fill_entry.spec data hn hp hkey hterms hlinks haux hroom
      fun g1 h => gbuf_fill.spec hnext h
    have hsame : t'.g = g' :=
      Except.ok.inj (((gbuf_fill_entry_logged.erases n key term data next t).ok hrun).symm.trans hrun')
    exact ⟨t', hrun, hsame ▸ hpost, hadds⟩
  obtain ⟨aux1, t1, hrun1, hg1, hlen1, hadds1⟩ :=
    gbuf_fill_term_logged.spec data hn hp hkey hterms haux
  unfold gbuf_fill_entry_logged
  rw [hrun1, ok_bind]
  by_cases hlen : next.len > 0
  · simp only [if_pos hlen]
    obtain ⟨aux2, t2, hrun2, hg2, hlen2, hadds2⟩ := gbuf_fill_link_logged.spec (t := t1)
      (by rw [hg1]; exact hn) hp hkey (hlinks hlen) (by rw [hg1]; simp only; omega)
    simp only [hg1] at hg2 hlen2
    obtain ⟨t3, hrun3, hadds3⟩ := hbelow t2 (by
      rw [hg2]
      exact ⟨(hroom hlen).gbuf, by rw [hlen2, hlen1]; exact (hroom hlen).aux⟩)
    rw [hg2] at hadds3
    exact ⟨t3, by rw [hrun2, ok_bind, hrun3], hadds1.trans (hadds2.trans hadds3)⟩
  · simp only [if_neg hlen]
    exact ⟨t1, rfl, hadds1.perm (by simp)⟩

theorem gbuf_fill_loop_logged.spec (b : trie_builder) (n lo : Nat) (t : logged) (node : trie)
    (hb : b.WellKeyed) (hn : t.g.gbuf[n]? = some node) (hle : n ≤ t.g.gpos)
    (hp : node.Placed lo t.g.apos) (hc : node.Covers b)
    (hgbuf : t.g.gpos + b.nodes < t.g.gbuf.length) (haux : t.g.apos + b.cells ≤ t.g.aux.length) :
    ∃ t', gbuf_fill_loop_logged n b t = .ok t' ∧
      t.Adds t' (List.range' (t.g.gpos + 1) b.nodes)
        (node.cellsOf b ++ List.range' t.g.apos b.cells) := by
  induction b generalizing n lo t node with
  | nil => exact ⟨t, rfl, by simp [trie_builder.nodes], by simp [trie.cellsOf, trie_builder.cells]⟩
  | entry key term data next more ihnext ihmore =>
    obtain ⟨hkey, _, hnext, hmore⟩ := hb
    simp only [trie_builder.nodes] at hgbuf ⊢
    simp only [trie_builder.cells] at haux ⊢
    have hterms : term = true → hasKey node.terms key = true := fun h =>
      hc.terms key (by simp [trie_builder.termAt, h])
    have hlinks : next.len > 0 → hasKey node.keys key = true := fun h =>
      hc.links key (by simp [trie_builder.linkAt, h])
    obtain ⟨t1, hrun1, hpost, hadds1⟩ := gbuf_fill_entry_logged.spec data hn hp hkey hnext hterms
      hlinks (by omega)
      (fun hlen => by
        rw [if_pos hlen] at hgbuf haux
        exact ⟨by simp only; omega, by simp only; omega⟩)
      fun t1 hroom => gbuf_fill_logged_of_loop hnext hroom
        fun node' t' hat hg' hp' hc' hroom1 hroom2 =>
          ihnext _ _ t' node' hnext hat (Nat.le_of_eq hg'.symm) hp' hc' hroom1 hroom2
    have hgpos := hpost.gpos
    have hapos := hpost.apos
    obtain ⟨t', hrun, hadds⟩ := ihmore n lo t1 node hmore
      (by rw [hpost.gbuf_frame n hle, hn]) (by omega) (hp.mono (by omega)) hc.more
      (by rw [hpost.gbuf_length]; omega) (by rw [hpost.aux_length]; omega)
    refine ⟨t', by rw [gbuf_fill_loop_logged_entry, hrun1, ok_bind, hrun], ?_⟩
    rw [← List.range'_append_1, ← List.range'_append_1, Nat.add_right_comm, ← hgpos, ← hapos]
    -- the cells of this node and those of the nodes below take turns in the record
    refine (hadds1.trans hadds).perm (List.perm_iff_count.mpr fun i => ?_)
    simp only [trie.cellsOf, List.count_append]
    omega

theorem gbuf_fill_logged.spec {b : trie_builder} {t : logged} (hb : b.WellKeyed)
    (hroom : HasRoom b t.g) :
    ∃ t', gbuf_fill_logged b t = .ok t' ∧
      t.Adds t' (List.range' t.g.gpos (1 + b.nodes))
        (List.range' t.g.apos (b.links + b.terms + b.cells)) :=
  gbuf_fill_logged_of_loop hb hroom fun node t1 hat hg1 hp hc hroom1 hroom2 =>
    gbuf_fill_loop_logged.spec b _ _ t1 node hb hat (Nat.le_of_eq hg1.symm) hp hc hroom1 hroom2

theorem logged.hasRoom_start (base : trie_builder) : HasRoom base (logged.start base).g := by
  unfold logged.start
  rw [gbuf_size_eq]
  constructor <;> simp

/-- The filling pass stays inside what the sizing pass counted and uses it up:
it ends with the counts, each node is filled by one call and each auxiliary cell
is written once. -/
theorem the_filling_pass_uses_up_what_the_sizing_pass_counts (words : List (List UInt8 × Int))
    (hwords : ∀ w ∈ words, ∀ c ∈ w.1, KeyCode c) :
    ∃ t, gbuf_fill_logged (trie_builder.ofWords words)
        (logged.start (trie_builder.ofWords words)) = .ok t ∧
      gbuf_of (trie_builder.ofWords words) = .ok t.g ∧
      (t.g.gpos, t.g.apos) = gbuf_size (trie_builder.ofWords words) 0 0 ∧
      t.nodes.Perm (List.range (t.g.gpos + 1)) ∧
      t.cells.Perm ((List.range t.g.apos).map fun i : Nat => (i : Int)) := by
  have hb := ofWords_wellKeyed hwords
  have hroom := logged.hasRoom_start (trie_builder.ofWords words)
  obtain ⟨t, hrun, hadds⟩ := gbuf_fill_logged.spec hb hroom
  have hfill := (gbuf_fill_logged.erases _ _).ok hrun
  obtain ⟨g, hg, hpost⟩ := gbuf_fill.spec hb hroom
  have hsame : t.g = g := Except.ok.inj (hfill.symm.trans hg)
  subst hsame
  have hgpos : t.g.gpos = (trie_builder.ofWords words).nodes := by
    simpa [logged.start] using hpost.gpos
  have hapos : t.g.apos = (trie_builder.ofWords words).links +
      (trie_builder.ofWords words).terms + (trie_builder.ofWords words).cells := by
    simpa [logged.start] using hpost.apos
  refine ⟨t, hrun, hfill, ?_, ?_, ?_⟩
  · rw [gbuf_size_eq, hgpos, hapos]
    simp
  · rw [hadds.nodes, hgpos, List.range_eq_range', Nat.add_comm]
    exact .refl _
  · rw [hapos, List.range_eq_range']
    exact hadds.cells

/-- `or` and `ori`: three nodes and four cells. -/
theorem or_and_ori_fill_three_nodes_and_four_cells : ∃ t,
    gbuf_fill_logged (trie_builder.ofWords [([111, 114], 3), ([111, 114, 105], 12)])
      (logged.start (trie_builder.ofWords [([111, 114], 3), ([111, 114, 105], 12)])) = .ok t ∧
    t.nodes.Perm [0, 1, 2] ∧ t.cells.Perm [0, 1, 2, 3] := by
  obtain ⟨t, hrun, _, hsize, hnodes, hcells⟩ :=
    the_filling_pass_uses_up_what_the_sizing_pass_counts
      [([111, 114], 3), ([111, 114, 105], 12)] (by decide)
  have hcount : gbuf_size (trie_builder.ofWords [([111, 114], 3), ([111, 114, 105], 12)]) 0 0 =
      (2, 4) := by decide
  obtain ⟨hgpos, hapos⟩ := Prod.mk.inj (hsize.trans hcount)
  rw [hgpos] at hnodes
  rw [hapos] at hcells
  exact ⟨t, hrun, hnodes, hcells⟩

end riscv_assembler
