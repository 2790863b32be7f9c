-- The insertion of `cc.h` with its load limit, and the growth of the map: no key is
-- lost, and the loops end unless memory does not.
import RiscvAssembler.CcMapEviction

open chains

namespace riscv_assembler

variable {κ ε : Type} {hash : κ → BitVec 64} {t u : cc_map κ ε} {off : Finset Nat}
  {m : κ → Option ε} {c : Nat → Finset Nat} {key : κ}

/-! ## Sizes -/

theorem cc_map_cap_eq (hcap : t.cap_mask ≠ 0) : cc_map_cap t = t.width := by
  rw [cc_map_cap, if_neg hcap]
  rfl

theorem cc_max_size_lt {cap : Nat} (h : 0 < cap) : cc_max_size cap < cap := by
  rw [cc_max_size, Nat.div_lt_iff_lt_mul (by decide)]
  omega

/-- Below the load limit there are more buckets than keys. -/
theorem size_lt_width (h : t.size + 1 ≤ cc_max_size (cc_map_cap t)) :
    t.cap_mask ≠ 0 ∧ t.size < t.width := by
  have hcap : t.cap_mask ≠ 0 := by
    intro hzero
    rw [cc_map_cap, if_pos hzero, hzero] at h
    simp [cc_max_size] at h
  have hlt : cc_max_size t.width < t.width := cc_max_size_lt (Nat.succ_pos t.cap_mask)
  rw [cc_map_cap_eq hcap] at h
  exact ⟨hcap, by omega⟩

/-- A map from `cc_map_make_rehash` before the first key. -/
theorem cc_map_allocated.stores (k : Nat) :
    (cc_map_allocated (κ := κ) (ε := ε) (2 ^ k)).Stores ∅ (fun _ => none) := by
  have hocc : (cc_map_allocated (κ := κ) (ε := ε) (2 ^ k)).occupied ∅ = ∅ := by
    refine Finset.eq_empty_of_forall_notMem fun b hb => ?_
    exact (mem_occupied.mp hb).2.1 rfl
  refine ⟨⟨k, Nat.sub_add_cancel (Nat.two_pow_pos k)⟩, fun _ => rfl, ?_, ?_, nofun, ?_⟩
  · rw [hocc]
    rfl
  · rw [hocc]
    exact fun b hb => absurd hb (Finset.notMem_empty b)
  · rw [hocc]
    exact fun b hb => absurd hb (Finset.notMem_empty b)

theorem cc_map_allocated.chained (hash : κ → BitVec 64) (cap : Nat) :
    (cc_map_allocated (κ := κ) (ε := ε) cap).Chained hash ∅ (fun _ => ∅) := by
  refine ⟨fun h => ⟨nofun, nofun, nofun, nofun, nofun, nofun⟩, fun h _ => ?_, fun b hb => ?_, nofun⟩
  · exact iff_of_false (fun hin => not_empty_of_in_home hin rfl) Finset.not_nonempty_empty
  · exact absurd rfl (mem_occupied.mp hb).2.1

theorem cc_map.Stores.lt_cap (hs : t.Stores off m) {b : Nat} (hb : b ∈ t.occupied off) :
    b < cc_map_cap t := by
  obtain ⟨hlt, hfull, _⟩ := mem_occupied.mp hb
  rwa [cc_map_cap_eq (hs.cap_mask_ne_zero hlt hfull)]

/-! ## A key that is not in the map -/

variable [DecidableEq κ]

/-- What an insertion of a new key does to the map: it finds a bucket for the key, or
leaves the keys alone. -/
def cc_map.Inserted (hash : κ → BitVec 64) (t : cc_map κ ε) (m : κ → Option ε) (key : κ) (el : ε)
    (u : cc_map κ ε) : Option Nat → Prop
  | some b => u.Stores ∅ (Function.update m key (some el)) ∧ (∃ c, u.Chained hash ∅ c) ∧
      b ∈ u.occupied ∅ ∧ u.buckets b = some (key, el) ∧ u.size = t.size + 1
  | none => u.Stores ∅ m ∧ u.size = t.size

theorem cc_map.Chained.inserted_at_home (hc : t.Chained hash off c) (hs : t.Stores off m)
    (hoff : off ⊆ {t.home hash key}) (hfree : t.home hash key ∉ t.occupied off)
    (hcap : t.cap_mask ≠ 0) (hkey : m key = none) (el : ε) :
    t.Inserted hash m key el
      { t.start (t.home hash key) (cc_hash_frag (hash key)) key el with size := t.size + 1 }
      (some (t.home hash key)) := by
  have hlt : t.home hash key < t.width := t.home_lt key
  have hchain := hc.start hs.sized rfl (fun h' x hx he => hfree (he ▸ hc.mem_occupied_of_mem hx))
    hoff el
  have hhere : (t.start (t.home hash key) (cc_hash_frag (hash key)) key el).metadata
      (t.home hash key) ≠ CC_MAP_EMPTY := by
    apply not_empty_of_in_home
    rw [hchain.first _ hlt, Function.update_self]
    exact Finset.singleton_nonempty 0
  have hadd := hs.add el hkey hlt hfree hcap
    (u := { t.start (t.home hash key) (cc_hash_frag (hash key)) key el with size := t.size + 1 })
    rfl rfl rfl hhere
    (fun x hx => Eq.congr_left (cc_map.start_metadata_other hx ..))
  have herase : off.erase (t.home hash key) = ∅ := by
    rw [Finset.erase_eq_empty_iff, ← Finset.subset_singleton_iff]
    exact hoff
  rw [herase] at hadd
  exact ⟨hadd, ⟨_, hchain.with_size _⟩, mem_occupied.mpr ⟨hlt, hhere, Finset.notMem_empty _⟩,
    Function.update_self .., rfl⟩

theorem cc_map_insert_home.spec (hs : t.Stores ∅ m) (hc : t.Chained hash ∅ c)
    (hcap : t.cap_mask ≠ 0)
    (hfirst : ¬ cc_in_home_bucket (t.metadata (t.home hash key)) = true) (el : ε) :
    ∃ r u, cc_map_insert_home hash t el key = some (r, u) ∧ u.cap_mask = t.cap_mask ∧
      t.Inserted hash m key el u r ∧ (r = none → t.Crowded) := by
  have hkey := hc.no_key hs hfirst
  unfold cc_map_insert_home
  by_cases hfull : t.metadata (t.home hash key) = CC_MAP_EMPTY
  · simp only [hfull, ne_eq, not_true_eq_false, if_false, Option.bind_eq_bind, Option.bind_some]
    refine ⟨_, _, rfl, rfl, ?_, fun hno => absurd hno (Option.some_ne_none _)⟩
    exact hc.inserted_at_home hs (Finset.empty_subset _)
      (fun hmem => (mem_occupied.mp hmem).2.1 hfull) hcap hkey el
  · obtain ⟨vacant, v, hrun, hmask, hsize, hres⟩ :=
      cc_map_evict.spec hs hc (t.home_lt key) hfull hfirst
    have hhome : v.home hash key = t.home hash key := by rw [cc_map.home, cc_map.home, hmask]
    simp only [hfull, ne_eq, not_false_eq_true, if_true, hrun, Option.bind_eq_bind, Option.bind_some]
    cases vacant with
    | false =>
      obtain ⟨hstores, hcrowded⟩ := hres
      exact ⟨none, v, rfl, hmask, ⟨hstores, hsize⟩, fun _ => hcrowded⟩
    | true =>
      obtain ⟨hstores, c', hchained⟩ := hres
      rw [← hhome] at hstores hchained ⊢
      obtain ⟨hstored, hlinked, hmem, hbucket, _⟩ := hchained.inserted_at_home hstores
        (Finset.Subset.refl _)
        (fun hmem => (mem_occupied.mp hmem).2.2 (Finset.mem_singleton_self _)) (hmask ▸ hcap) hkey el
      exact ⟨_, _, rfl, hmask, ⟨hstored, hlinked, hmem, hbucket, congrArg (· + 1) hsize⟩,
        fun hno => absurd hno (Option.some_ne_none _)⟩

theorem cc_map_insert_chain.spec (hs : t.Stores ∅ m) (hc : t.Chained hash ∅ c)
    (hkey : m key = none)
    (hfirst : cc_in_home_bucket (t.metadata (t.home hash key)) = true) (el : ε) :
    ∃ r u, cc_map_insert_chain hash t el key = some (r, u) ∧ u.cap_mask = t.cap_mask ∧
      t.Inserted hash m key el u r ∧ (r = none → t.Crowded) := by
  have hne := (hc.first _ (t.home_lt key)).mp hfirst
  unfold cc_map_insert_chain
  rcases hrun : cc_map_find_first_empty t (t.home hash key) with _ | ⟨empty, x⟩
  · exact ⟨none, t, by simp only [hrun], rfl, ⟨hs, rfl⟩, fun _ => hc.crowded hs.sized hne hrun⟩
  · obtain ⟨prev, hloc, ⟨c', hlinked⟩, hstored, hmem⟩ := hc.link_first_empty (n := t.size) hs rfl hne
      hkey (fun b hb => absurd hb (Finset.notMem_empty b)) hrun el
    simp only [hrun, hloc, Option.bind_eq_bind, Option.bind_some]
    exact ⟨_, _, rfl, rfl, ⟨hstored, ⟨c', hlinked.with_size _⟩, hmem, Function.update_self .., rfl⟩,
      nofun⟩

theorem cc_map_reinsert.spec (hs : t.Stores ∅ m) (hc : t.Chained hash ∅ c)
    (hcap : t.cap_mask ≠ 0) (hkey : m key = none) (el : ε) :
    ∃ r u, cc_map_reinsert hash t el key = some (r, u) ∧ u.cap_mask = t.cap_mask ∧
      t.Inserted hash m key el u r ∧ (r = none → t.Crowded) := by
  unfold cc_map_reinsert
  by_cases hfirst : cc_in_home_bucket (t.metadata (t.home hash key)) = true
  · rw [if_neg (not_not.mpr hfirst)]
    exact cc_map_insert_chain.spec hs hc hkey hfirst el
  · rw [if_pos hfirst]
    exact cc_map_insert_home.spec hs hc hcap hfirst el

/-! ## The load limit -/

/-- What an insertion leaves under the key. -/
def settled (m : κ → Option ε) (key : κ) (el : ε) (replace : Bool) : ε :=
  if replace then el else (m key).getD el

/-- What an insertion does to the map: it gives the bucket of the key, or leaves the
keys alone. -/
def cc_map.Settled (hash : κ → BitVec 64) (m : κ → Option ε) (key : κ) (el : ε) (u : cc_map κ ε) :
    Option Nat → Prop
  | some b => u.Stores ∅ (Function.update m key (some el)) ∧ (∃ c, u.Chained hash ∅ c) ∧
      b ∈ u.occupied ∅ ∧ u.buckets b = some (key, el)
  | none => u.Stores ∅ m

theorem cc_map.Inserted.settled {el : ε} {r : Option Nat} (h : t.Inserted hash m key el u r)
    (hkey : m key = none) (replace : Bool) :
    u.Settled hash m key (settled m key el replace) r := by
  have hel : riscv_assembler.settled m key el replace = el := by simp [riscv_assembler.settled, hkey]
  rw [hel]
  cases r with
  | none => exact h.1
  | some b => exact ⟨h.1, h.2.1, h.2.2.1, h.2.2.2.1⟩

/-- One attempt of an insertion. It fails only for a new key, when the map is full or
crowded. -/
theorem cc_map_insert_raw.spec (hs : t.Stores ∅ m) (hc : t.Chained hash ∅ c) (key : κ) (el : ε)
    (replace : Bool) :
    ∃ r u, cc_map_insert_raw hash t el key replace = some (r, u) ∧ u.cap_mask = t.cap_mask ∧
      u.Settled hash m key (settled m key el replace) r ∧
      (r = none → u.size = t.size ∧ m key = none ∧
        (cc_max_size (cc_map_cap t) < t.size + 1 ∨ t.Crowded)) ∧
      (r ≠ none → m key = none → t.size + 1 ≤ cc_max_size (cc_map_cap t)) := by
  unfold cc_map_insert_raw
  by_cases hfirst : cc_in_home_bucket (t.metadata (t.home hash key)) = true
  · obtain ⟨r, hrun, hfinds⟩ :=
      cc_map_find_in_chain_finds hs hc ((hc.first _ (t.home_lt key)).mp hfirst)
    rw [if_neg (not_not.mpr hfirst), hrun]
    simp only [Option.bind_eq_bind, Option.bind_some]
    cases r with
    | some b =>
      obtain ⟨hb, hfull, old, hbucket, hm⟩ := hfinds
      have hbocc : b ∈ t.occupied ∅ := mem_occupied.mpr ⟨hb, hfull, Finset.notMem_empty b⟩
      refine ⟨_, _, rfl, ?_, ?_, nofun, fun _ hno => absurd (hno.symm.trans hm) nofun⟩
      · cases replace <;> rfl
      · cases replace with
        | true =>
          exact ⟨hs.set_bucket hbocc hbucket el, ⟨c, hc.set_bucket hbucket el⟩, hbocc,
            Function.update_self ..⟩
        | false =>
          have hel : settled m key el false = old := by simp [settled, hm]
          rw [hel, cc_map.Settled, ← hm, Function.update_eq_self]
          exact ⟨hs, ⟨c, hc⟩, hbocc, hbucket⟩
    | none =>
      by_cases hload : cc_max_size (cc_map_cap t) < t.size + 1
      · simp only [if_pos hload]
        exact ⟨none, t, rfl, rfl, hs, fun _ => ⟨rfl, hfinds, Or.inl hload⟩, fun h => absurd rfl h⟩
      · simp only [if_neg hload]
        obtain ⟨r, u, hrun, hmask, hins, hcrowded⟩ := cc_map_insert_chain.spec hs hc hfinds hfirst el
        refine ⟨r, u, hrun, hmask, hins.settled hfinds replace, ?_, fun _ _ => Nat.not_lt.mp hload⟩
        rintro rfl
        exact ⟨hins.2, hfinds, Or.inr (hcrowded rfl)⟩
  · have hkey := hc.no_key hs hfirst
    rw [if_pos hfirst]
    by_cases hload : cc_max_size (cc_map_cap t) < t.size + 1
    · rw [if_pos hload]
      exact ⟨none, t, rfl, rfl, hs, fun _ => ⟨rfl, hkey, Or.inl hload⟩, fun h => absurd rfl h⟩
    · rw [if_neg hload]
      obtain ⟨r, u, hrun, hmask, hins, hcrowded⟩ :=
        cc_map_insert_home.spec hs hc (size_lt_width (Nat.not_lt.mp hload)).1 hfirst el
      refine ⟨r, u, hrun, hmask, hins.settled hkey replace, ?_, fun _ _ => Nat.not_lt.mp hload⟩
      rintro rfl
      exact ⟨hins.2, hkey, Or.inr (hcrowded rfl)⟩

/-! ## A larger map -/

theorem card_inter_cons_of_mem {o : Finset Nat} {i : Nat} {is : List Nat} (hi : i ∉ is) (ho : i ∈ o) :
    (o ∩ (i :: is).toFinset).card = (o ∩ is.toFinset).card + 1 := by
  rw [List.toFinset_cons, Finset.inter_insert_of_mem ho, Finset.card_insert_of_notMem]
  exact fun hmem => hi (List.mem_toFinset.mp (Finset.mem_inter.mp hmem).2)

theorem card_inter_cons_of_notMem {o : Finset Nat} {i : Nat} (is : List Nat) (ho : i ∉ o) :
    (o ∩ (i :: is).toFinset).card = (o ∩ is.toFinset).card := by
  rw [List.toFinset_cons, Finset.inter_insert_of_notMem ho]

/-- The keys of the buckets `is` go to the map `u`, which holds the others. It takes
them all, or breaks when it is crowded. -/
theorem cc_map_reinsert_loop.spec (hs : t.Stores ∅ m) (is : List Nat) (hnodup : is.Nodup)
    (hlt : ∀ i ∈ is, i < t.width) {m' : κ → Option ε} {c' : Nat → Finset Nat}
    (hu : u.Stores ∅ m') (hcu : u.Chained hash ∅ c') (hcap : u.cap_mask ≠ 0)
    (hsub : ∀ key el, m' key = some el → m key = some el)
    (hrest : ∀ i ∈ is, i ∈ t.occupied ∅ → ∀ key el, t.buckets i = some (key, el) → m' key = none)
    (hdone : ∀ key el, m key = some el →
      m' key = some el ∨ ∃ i ∈ is, i ∈ t.occupied ∅ ∧ t.buckets i = some (key, el))
    (hcount : u.size + (t.occupied ∅ ∩ is.toFinset).card = t.size) :
    ∃ v, cc_map_reinsert_loop hash t is u = some v ∧ v.cap_mask = u.cap_mask ∧
      (v.size = t.size ∧ v.Stores ∅ m ∧ (∃ c, v.Chained hash ∅ c) ∨
        v.size < t.size ∧ min v.width CC_MAP_DISPLACEMENT_LIMIT ≤ v.size) := by
  induction is generalizing u m' c' with
  | nil =>
    have hm : m' = m := by
      funext key
      rcases hkey : m' key with _ | el
      · rcases hkey' : m key with _ | el
        · rfl
        · rcases hdone key el hkey' with h | ⟨i, hi, _⟩
          · exact absurd (hkey.symm.trans h) (Option.some_ne_none el).symm
          · exact absurd hi List.not_mem_nil
      · exact (hsub key el hkey).symm
    rw [List.toFinset_nil, Finset.inter_empty, Finset.card_empty] at hcount
    exact ⟨u, rfl, rfl, Or.inl ⟨hcount, hm ▸ hu, c', hcu⟩⟩
  | cons i is ih =>
    obtain ⟨hi, hnodup⟩ := List.nodup_cons.mp hnodup
    have hlt' : ∀ i ∈ is, i < t.width := fun j hj => hlt j (List.mem_cons_of_mem i hj)
    unfold cc_map_reinsert_loop
    by_cases hempty : t.metadata i = CC_MAP_EMPTY
    · have hocc : i ∉ t.occupied ∅ := fun h => (mem_occupied.mp h).2.1 hempty
      rw [if_pos hempty]
      refine ih hnodup hlt' hu hcu hcap hsub
        (fun j hj => hrest j (List.mem_cons_of_mem i hj)) (fun key el hm => ?_) ?_
      · rcases hdone key el hm with h | ⟨j, hj, hjocc, hbucket⟩
        · exact Or.inl h
        · rcases List.mem_cons.mp hj with rfl | hj
          · exact absurd hjocc hocc
          · exact Or.inr ⟨j, hj, hjocc, hbucket⟩
      · rwa [card_inter_cons_of_notMem is hocc] at hcount
    · have hocc : i ∈ t.occupied ∅ := mem_occupied.mpr
        ⟨hlt i List.mem_cons_self, hempty, Finset.notMem_empty i⟩
      obtain ⟨key, el, hbucket, hm⟩ := hs.holds i hocc
      have hkey := hrest i List.mem_cons_self hocc key el hbucket
      obtain ⟨r, v, hrun, hmask, hins, hcrowded⟩ := cc_map_reinsert.spec hu hcu hcap hkey el
      rw [card_inter_cons_of_mem hi hocc] at hcount
      rw [if_neg hempty, hbucket]
      simp only [Option.bind_eq_bind, Option.bind_some, hrun]
      cases r with
      | none =>
        obtain ⟨hv, hsize⟩ := hins
        have hwidth : v.width = u.width := by rw [cc_map.width, cc_map.width, hmask]
        refine ⟨v, rfl, hmask, Or.inr ⟨by omega, ?_⟩⟩
        rw [hwidth, hsize]
        exact (hcrowded rfl).le_size hu
      | some b =>
        obtain ⟨hv, ⟨cv, hcv⟩, _, _, hsize⟩ := hins
        simp only [Option.isNone_some, Bool.false_eq_true, if_false, ← hmask]
        refine ih hnodup hlt' hv hcv (hmask ▸ hcap) (fun key' el' h => ?_)
          (fun j hj hjocc key' el' hj' => ?_) (fun key' el' h => ?_) (by omega)
        · by_cases hk : key' = key
          · subst hk
            rwa [Function.update_self, ← hm] at h
          · rw [Function.update_of_ne hk] at h
            exact hsub key' el' h
        · have hk : key' ≠ key := by
            rintro rfl
            obtain rfl := hs.single j hjocc i hocc key' el' el hj' hbucket
            exact hi hj
          rw [Function.update_of_ne hk]
          exact hrest j (List.mem_cons_of_mem i hj) hjocc key' el' hj'
        · by_cases hk : key' = key
          · subst hk
            rw [Function.update_self, ← hm]
            exact Or.inl h
          · rw [Function.update_of_ne hk]
            rcases hdone key' el' h with h' | ⟨j, hj, hjocc, hj'⟩
            · exact Or.inl h'
            · rcases List.mem_cons.mp hj with rfl | hj
              · rw [hbucket] at hj'
                cases hj'
                exact absurd rfl hk
              · exact Or.inr ⟨j, hj, hjocc, hj'⟩

/-- All keys go to a map of the capacity. -/
theorem cc_map_rehash_turn (hash : κ → BitVec 64) (hs : t.Stores ∅ m) {k : Nat} (hk : 0 < k) :
    ∃ v, cc_map_reinsert_loop hash t (List.range (cc_map_cap t)) (cc_map_allocated (2 ^ k)) =
      some v ∧ v.width = 2 ^ k ∧
      (v.size = t.size ∧ v.Stores ∅ m ∧ (∃ c, v.Chained hash ∅ c) ∨
        v.size < t.size ∧ min v.width CC_MAP_DISPLACEMENT_LIMIT ≤ v.size) := by
  have hcap : (cc_map_allocated (κ := κ) (ε := ε) (2 ^ k)).cap_mask ≠ 0 :=
    Nat.sub_ne_zero_of_lt (Nat.one_lt_two_pow hk.ne')
  have hle : ∀ i ∈ List.range (cc_map_cap t), i < t.width := by
    intro i hi
    have hlt := List.mem_range.mp hi
    unfold cc_map_cap at hlt
    rw [cc_map.width]
    split at hlt <;> omega
  have hall : t.occupied ∅ ∩ (List.range (cc_map_cap t)).toFinset = t.occupied ∅ := by
    rw [Finset.inter_eq_left]
    exact fun b hb => List.mem_toFinset.mpr (List.mem_range.mpr (hs.lt_cap hb))
  obtain ⟨v, hrun, hmask, hres⟩ := cc_map_reinsert_loop.spec hs _ List.nodup_range hle
    (cc_map_allocated.stores k) (cc_map_allocated.chained hash (2 ^ k)) hcap
    (fun _ _ hno => absurd hno.symm (Option.some_ne_none _))
    (fun _ _ _ _ _ _ => rfl)
    (fun key el hm => by
      obtain ⟨b, hb, hbucket⟩ := hs.found key el hm
      exact Or.inr ⟨b, List.mem_range.mpr (hs.lt_cap hb), hb, hbucket⟩)
    (by rw [hall, hs.size]; exact Nat.zero_add _)
  refine ⟨v, hrun, ?_, hres⟩
  rw [cc_map.width, hmask]
  exact Nat.sub_add_cancel (Nat.two_pow_pos k)

/-- What a rehash gives: a map of the capacity `2 ^ k` with the same keys, unless there
is no memory for it. -/
def cc_map.Rehashed (hash : κ → BitVec 64) (alloc : Nat → Bool) (limit : Nat) (t : cc_map κ ε)
    (m : κ → Option ε) (k : Nat) : Option (cc_map κ ε) → Prop
  | none => alloc (2 ^ k) = false
  | some u => u.width = 2 ^ k ∧ k < limit ∧ u.size = t.size ∧ u.Stores ∅ m ∧
      ∃ c, u.Chained hash ∅ c

section

variable {alloc : Nat → Bool} {limit : Nat} (hmem : ∀ cap, 2 ^ limit ≤ cap → alloc cap = false)

include hmem

/-- The rehash ends with all keys in a larger map, or without memory. With few keys
the first capacity is enough. -/
theorem cc_map_make_rehash.spec (hash : κ → BitVec 64) (hs : t.Stores ∅ m) (turns : Nat) {k : Nat}
    (hk : 0 < k) (hturns : limit ≤ k + turns) :
    ∃ r j, cc_map_make_rehash hash alloc t (turns + 1) (2 ^ k) = some r ∧ k ≤ j ∧
      (t.size ≤ min (2 ^ k) CC_MAP_DISPLACEMENT_LIMIT → j = k) ∧
      t.Rehashed hash alloc limit m j r := by
  induction turns generalizing k with
  | zero =>
    have hno : alloc (2 ^ k) = false := hmem _ (Nat.pow_le_pow_right (by decide) hturns)
    unfold cc_map_make_rehash
    simp only [hno, Bool.false_eq_true, not_false_eq_true, if_true]
    exact ⟨none, k, rfl, Nat.le_refl k, fun _ => rfl, hno⟩
  | succ turns ih =>
    unfold cc_map_make_rehash
    cases hno : alloc (2 ^ k) with
    | false =>
      simp only [Bool.false_eq_true, not_false_eq_true, if_true]
      exact ⟨none, k, rfl, Nat.le_refl k, fun _ => rfl, hno⟩
    | true =>
      have hlt : k < limit := by
        by_contra hge
        rw [hmem _ (Nat.pow_le_pow_right (by decide) (Nat.not_lt.mp hge))] at hno
        cases hno
      obtain ⟨v, hrun, hwidth, hres⟩ := cc_map_rehash_turn hash hs hk
      simp only [not_true_eq_false, if_false, hrun, Option.bind_eq_bind, Option.bind_some]
      rcases hres with ⟨hsize, hv, hcv⟩ | ⟨hsize, hcrowded⟩
      · rw [if_neg (Nat.not_lt.mpr (Nat.le_of_eq hsize.symm))]
        exact ⟨some v, k, rfl, Nat.le_refl k, fun _ => rfl, hwidth, hlt, hsize, hv, hcv⟩
      · rw [if_pos hsize, ← Nat.pow_succ]
        obtain ⟨r, j, hrun', hj, hfew, hr⟩ := ih (Nat.succ_pos k) (by omega)
        refine ⟨r, j, hrun', by omega, fun hle => ?_, hr⟩
        rw [hwidth] at hcrowded
        omega

omit hmem [DecidableEq κ] in
/-- The capacity that an insertion asks for first. -/
theorem growth_cap {w : Nat} (hw : t.width = 2 ^ w) :
    ∃ k, w < k ∧ (if t.cap_mask ≠ 0 then cc_map_cap t * 2 else CC_MAP_MIN_NONZERO_BUCKET_COUNT) =
      2 ^ k := by
  by_cases hcap : t.cap_mask = 0
  · rw [cc_map.width, hcap] at hw
    have hzero : w = 0 := by
      by_contra hne
      exact absurd hw (Nat.ne_of_lt (Nat.one_lt_two_pow hne))
    rw [if_neg (not_not.mpr hcap)]
    exact ⟨3, by omega, rfl⟩
  · rw [if_pos hcap, cc_map_cap_eq hcap, hw, ← Nat.pow_succ]
    exact ⟨w + 1, Nat.lt_succ_self w, rfl⟩

/-- An insertion ends with the key in the map, or without memory. -/
theorem cc_map_insert.spec (hs : t.Stores ∅ m) (hc : t.Chained hash ∅ c) (key : κ) (el : ε)
    (replace : Bool) (turns : Nat) {w : Nat} (hw : t.width = 2 ^ w) (hturns : limit ≤ w + turns) :
    ∃ r u, cc_map_insert hash alloc el key replace (turns + 1) t = some (r, u) ∧
      u.Settled hash m key (settled m key el replace) r ∧
      (r = none → m key = none ∧ ∃ k, w < k ∧ alloc (2 ^ k) = false) := by
  induction turns generalizing t c w with
  | zero =>
    obtain ⟨r, u, hraw, hmask, hset, hnone, _⟩ := cc_map_insert_raw.spec hs hc key el replace
    unfold cc_map_insert
    simp only [hraw, Option.bind_eq_bind, Option.bind_some]
    cases r with
    | some b => exact ⟨some b, u, rfl, hset, nofun⟩
    | none =>
      obtain ⟨k, hwk, hcap⟩ := growth_cap (t := u) (w := w) (by rwa [cc_map.width, hmask])
      have hno : alloc (2 ^ k) = false :=
        hmem _ (Nat.pow_le_pow_right (by decide) (by omega))
      unfold cc_map_make_rehash
      simp only [hcap, hno, Option.isSome_none, Bool.false_eq_true, not_false_eq_true, if_true,
        if_false, Option.bind_some]
      exact ⟨none, u, rfl, hset, fun _ => ⟨(hnone rfl).2.1, k, hwk, hno⟩⟩
  | succ turns ih =>
    obtain ⟨r, u, hraw, hmask, hset, hnone, _⟩ := cc_map_insert_raw.spec hs hc key el replace
    unfold cc_map_insert
    simp only [hraw, Option.bind_eq_bind, Option.bind_some]
    cases r with
    | some b => exact ⟨some b, u, rfl, hset, nofun⟩
    | none =>
      obtain ⟨k, hwk, hcap⟩ := growth_cap (t := u) (w := w) (by rwa [cc_map.width, hmask])
      obtain ⟨r', j, hrehash, hj, _, hr'⟩ := cc_map_make_rehash.spec hmem hash hset
        (turns + 1) (Nat.zero_lt_of_lt hwk) (by omega)
      simp only [hcap, hrehash, Option.isSome_none, Bool.false_eq_true, if_false, Option.bind_some]
      cases r' with
      | none => exact ⟨none, u, rfl, hset, fun _ => ⟨(hnone rfl).2.1, j, by omega, hr'⟩⟩
      | some v =>
        obtain ⟨hwidth, _, _, hv, c', hcv⟩ := hr'
        obtain ⟨r, u', hrun, hset', hnone'⟩ := ih hv hcv hwidth (by omega)
        refine ⟨r, u', hrun, hset', fun h => ?_⟩
        obtain ⟨hkey, x, hx, hno⟩ := hnone' h
        exact ⟨hkey, x, by omega, hno⟩

end

end riscv_assembler
