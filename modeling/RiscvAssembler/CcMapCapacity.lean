-- How large the map of `cc.h` gets: with fewer than 2048 keys the capacity depends on
-- their number alone, and 2048 keys with one hash code never fit.
import Mathlib.Data.Finset.Image
import RiscvAssembler.CcMapRuns

open chains

namespace riscv_assembler

variable {κ ε : Type} [DecidableEq κ] {hash : κ → BitVec 64} {t u : cc_map κ ε}
  {m : κ → Option ε} {c : Nat → Finset Nat}

/-! ## The number of keys -/

/-- The keys in the buckets. -/
def cc_map.keys (t : cc_map κ ε) : Finset (Option κ) :=
  (t.occupied ∅).image fun b => (t.buckets b).map Prod.fst

theorem cc_map.Stores.card_keys (hs : t.Stores ∅ m) : t.keys.card = t.size := by
  rw [cc_map.keys, Finset.card_image_of_injOn, hs.size]
  intro b hb b' hb' he
  obtain ⟨key, el, hbucket, _⟩ := hs.holds b hb
  obtain ⟨key', el', hbucket', _⟩ := hs.holds b' hb'
  simp only [hbucket, hbucket', Option.map_some, Option.some.injEq] at he
  subst he
  exact hs.single b hb b' hb' key el el' hbucket hbucket'

theorem cc_map.Stores.mem_keys (hs : t.Stores ∅ m) {x : Option κ} :
    x ∈ t.keys ↔ ∃ key, x = some key ∧ m key ≠ none := by
  rw [cc_map.keys, Finset.mem_image]
  constructor
  · rintro ⟨b, hb, rfl⟩
    obtain ⟨key, el, hbucket, hm⟩ := hs.holds b hb
    exact ⟨key, by rw [hbucket]; rfl, by rw [hm]; exact nofun⟩
  · rintro ⟨key, rfl, hne⟩
    obtain ⟨el, hm⟩ := Option.ne_none_iff_exists'.mp hne
    obtain ⟨b, hb, hbucket⟩ := hs.found key el hm
    exact ⟨b, hb, by rw [hbucket]; rfl⟩

theorem cc_map.Stores.size_eq (hs : t.Stores ∅ m) {K : Finset κ} (hK : ∀ key, key ∈ K ↔ m key ≠ none) :
    t.size = K.card := by
  have hkeys : t.keys = K.image some := by
    ext x
    rw [hs.mem_keys, Finset.mem_image]
    constructor
    · rintro ⟨key, rfl, hne⟩
      exact ⟨key, (hK key).mpr hne, rfl⟩
    · rintro ⟨key, hkey, rfl⟩
      exact ⟨key, rfl, (hK key).mp hkey⟩
  rw [← hs.card_keys, hkeys, Finset.card_image_of_injective K (Option.some_injective κ)]

/-- There are not more keys than could be there. -/
theorem cc_map.Stores.size_le (hs : t.Stores ∅ m) {K : Finset κ} (hK : ∀ key, m key ≠ none → key ∈ K) :
    t.size ≤ K.card := by
  rw [← hs.card_keys, ← Finset.card_image_of_injective K (Option.some_injective κ)]
  refine Finset.card_le_card fun x hx => ?_
  obtain ⟨key, rfl, hne⟩ := hs.mem_keys.mp hx
  exact Finset.mem_image_of_mem some (hK key hne)

/-- The size after an insertion, which counts a new key. -/
theorem cc_map.Stores.size_update (hs : t.Stores ∅ m) {key : κ} {el : ε}
    (hu : u.Stores ∅ (Function.update m key (some el))) :
    u.size = if m key = none then t.size + 1 else t.size := by
  have hkeys : u.keys = insert (some key) t.keys := by
    ext x
    rw [Finset.mem_insert, hs.mem_keys, hu.mem_keys]
    constructor
    · rintro ⟨key', rfl, hne⟩
      by_cases hk : key' = key
      · exact Or.inl (congrArg some hk)
      · rw [Function.update_of_ne hk] at hne
        exact Or.inr ⟨key', rfl, hne⟩
    · rintro (rfl | ⟨key', rfl, hne⟩)
      · exact ⟨key, rfl, by rw [Function.update_self]; exact nofun⟩
      · by_cases hk : key' = key
        · exact ⟨key', rfl, by rw [hk, Function.update_self]; exact nofun⟩
        · exact ⟨key', rfl, by rwa [Function.update_of_ne hk]⟩
  rw [← hu.card_keys, hkeys, ← hs.card_keys]
  by_cases hm : m key = none
  · rw [if_pos hm, Finset.card_insert_of_notMem]
    rw [hs.mem_keys]
    rintro ⟨key', he, hne⟩
    cases he
    exact hne hm
  · rw [if_neg hm, Finset.insert_eq_of_mem (hs.mem_keys.mpr ⟨key, rfl, hm⟩)]

/-! ## The load limit of powers of two -/

theorem cc_max_size_mono {a b : Nat} (h : a ≤ b) : cc_max_size a ≤ cc_max_size b :=
  Nat.div_le_div_right (Nat.mul_le_mul_left _ h)

/-- Twice the buckets take a key more. -/
theorem lt_cc_max_size_double {cap : Nat} (h : 8 ≤ cap) : cc_max_size cap < cc_max_size (cap * 2) := by
  unfold cc_max_size
  omega

/-- The capacity `2 ^ k` is the first that takes `n` keys. -/
structure FirstCap (n k : Nat) : Prop where
  min : 3 ≤ k
  le_max_size : n ≤ cc_max_size (2 ^ k)
  before : ∀ j, 3 ≤ j → j < k → cc_max_size (2 ^ j) < n

theorem cc_map_min_cap_loop.spec {n k : Nat} (h : FirstCap n k) (turns : Nat) {i : Nat} (hi : 3 ≤ i)
    (hik : i ≤ k) (hturns : k < i + turns) :
    cc_map_min_cap_loop n turns (2 ^ i) = some (2 ^ k) := by
  induction turns generalizing i with
  | zero => omega
  | succ turns ih =>
    unfold cc_map_min_cap_loop
    rcases Nat.lt_or_eq_of_le hik with hlt | rfl
    · rw [if_pos (h.before i hi hlt), ← Nat.pow_succ]
      exact ih (Nat.le_succ_of_le hi) hlt (by omega)
    · rw [if_neg (Nat.not_lt.mpr h.le_max_size)]

theorem FirstCap.cc_map_min_cap_for_n_els_eq {n k : Nat} (h : FirstCap n k) (hn : n ≠ 0)
    (hk : k < 64) :
    cc_map_min_cap_for_n_els n = some (2 ^ k) := by
  rw [cc_map_min_cap_for_n_els, if_neg hn]
  exact cc_map_min_cap_loop.spec h 61 (Nat.le_refl 3) h.min (by omega)

/-- The map is the placeholder, or has the first capacity that takes its keys. -/
def cc_map.Tight (t : cc_map κ ε) : Prop :=
  t.size = 0 ∧ t.cap_mask = 0 ∨ t.size ≠ 0 ∧ ∃ k ≤ 12, t.width = 2 ^ k ∧ FirstCap t.size k

omit [DecidableEq κ] in
theorem cap_mask_ne_zero_of_width {k : Nat} (hk : 3 ≤ k) (h : t.width = 2 ^ k) : t.cap_mask ≠ 0 := by
  have hpow : 2 ^ 3 ≤ 2 ^ k := Nat.pow_le_pow_right (by decide) hk
  rw [← h, cc_map.width] at hpow
  omega

omit [DecidableEq κ] in
theorem cc_map.Tight.cap_eq (h : t.Tight) : cc_map_min_cap_for_n_els t.size = some (cc_map_cap t) := by
  rcases h with ⟨hsize, hcap⟩ | ⟨hsize, k, hk, hwidth, hfirst⟩
  · rw [cc_map_min_cap_for_n_els, if_pos hsize, cc_map_cap, if_pos hcap, hcap]
  · rw [hfirst.cc_map_min_cap_for_n_els_eq hsize (by omega),
      cc_map_cap_eq (cap_mask_ne_zero_of_width hfirst.min hwidth), hwidth]

/-! ## Insertion with few keys -/

/-- With few keys only the load limit is in the way of a new one. -/
theorem cc_map_insert_raw_fits (h : t.Holds hash m) (key : κ) (el : ε) (replace : Bool)
    (hroom : m key = none →
      t.size < CC_MAP_DISPLACEMENT_LIMIT ∧ t.size + 1 ≤ cc_max_size (cc_map_cap t)) :
    ∃ b u, cc_map_insert_raw hash t el key replace = some (some b, u) ∧ u.cap_mask = t.cap_mask ∧
      u.Settled hash m key (settled m key el replace) (some b) := by
  obtain ⟨c, hc⟩ := h.chained
  obtain ⟨r, u, hrun, hmask, hset, hnone, _⟩ := cc_map_insert_raw.spec h.stores hc key el replace
  rcases r with _ | b
  · obtain ⟨_, hkey, hwhy⟩ := hnone rfl
    obtain ⟨hfew, hload⟩ := hroom hkey
    rcases hwhy with hfull | hcrowded
    · omega
    · have hle := hcrowded.le_size h.stores
      have hlt := (size_lt_width hload).2
      omega
  · exact ⟨b, u, hrun, hmask, hset⟩

omit [DecidableEq κ] in
/-- The map after a new key that the load limit lets in. -/
theorem Tight.of_firstCap {k n : Nat} (hk : k ≤ 12) (hwidth : t.width = 2 ^ k) (hsize : t.size = n + 1)
    (h : FirstCap (n + 1) k) : t.Tight :=
  Or.inr ⟨by omega, k, hk, hwidth, hsize ▸ h⟩

omit [DecidableEq κ] in
/-- The capacity that is asked for when the load limit keeps a new key out. -/
theorem cc_map.Tight.growth (h : t.Tight) (hfew : t.size < CC_MAP_DISPLACEMENT_LIMIT)
    (hfull : cc_max_size (cc_map_cap t) < t.size + 1) :
    ∃ k ≤ 12, FirstCap (t.size + 1) k ∧
      (if t.cap_mask ≠ 0 then cc_map_cap t * 2 else CC_MAP_MIN_NONZERO_BUCKET_COUNT) = 2 ^ k := by
  rcases h with ⟨hsize, hcap⟩ | ⟨hsize, k, hk, hwidth, hfirst⟩
  · rw [if_neg (not_not.mpr hcap), hsize]
    exact ⟨3, by decide, ⟨Nat.le_refl 3, by decide, fun j _ _ => by omega⟩, rfl⟩
  · have hcap := cap_mask_ne_zero_of_width hfirst.min hwidth
    rw [cc_map_cap_eq hcap, hwidth] at hfull
    rw [if_pos hcap, cc_map_cap_eq hcap, hwidth, ← Nat.pow_succ]
    have hk' : k ≠ 12 := by
      rintro rfl
      have hmax : cc_max_size (2 ^ 12) = 3686 := by decide
      unfold CC_MAP_DISPLACEMENT_LIMIT at hfew
      omega
    have hpow : 2 ^ 3 ≤ 2 ^ k := Nat.pow_le_pow_right (by decide) hfirst.min
    have hdouble := lt_cc_max_size_double hpow
    have hmax := hfirst.le_max_size
    refine ⟨k + 1, by omega, ⟨Nat.le_succ_of_le hfirst.min, ?_, fun j _ hj => ?_⟩, rfl⟩
    · rw [Nat.pow_succ]
      omega
    · have hle := cc_max_size_mono (Nat.pow_le_pow_right (show 0 < 2 by decide) (Nat.le_of_lt_succ hj))
      omega

section

variable {alloc : Nat → Bool} {limit : Nat} (hmem : ∀ cap, 2 ^ limit ≤ cap → alloc cap = false)
  (hgrant : ∀ cap ≤ 4096, alloc cap = true)

include hmem hgrant

/-- A map of few keys takes one more, and stays tight. -/
theorem cc_map_insert.tight (h : t.Holds hash m) (ht : t.Tight) (key : κ) (el : ε) (replace : Bool)
    (hroom : m key = none → t.size < CC_MAP_DISPLACEMENT_LIMIT) :
    ∃ b u, cc_map_insert hash alloc el key replace (limit + 1) t = some (some b, u) ∧ u.Tight ∧
      u.Settled hash m key (settled m key el replace) (some b) := by
  have hgranted : ∀ k ≤ 12, alloc (2 ^ k) = true := fun k hk =>
    hgrant _ (Nat.pow_le_pow_right (show 0 < 2 by decide) hk)
  by_cases hgrow : m key = none ∧ cc_max_size (cc_map_cap t) < t.size + 1
  · obtain ⟨hkey, hfull⟩ := hgrow
    have hfew := hroom hkey
    obtain ⟨k, hk, hfirst, hask⟩ := ht.growth hfew hfull
    obtain ⟨c, hc⟩ := h.chained
    obtain ⟨r, u, hraw, hmask, hset, hnone, hsome⟩ :=
      cc_map_insert_raw.spec h.stores hc key el replace
    rcases r with _ | b
    · obtain ⟨husize, _, _⟩ := hnone rfl
      have hask' : (if u.cap_mask ≠ 0 then cc_map_cap u * 2 else CC_MAP_MIN_NONZERO_BUCKET_COUNT) =
          2 ^ k := by
        rw [← hask, cc_map_cap, cc_map_cap, hmask]
      have hlimit : 12 < limit := by
        by_contra hle
        have hno := hmem (2 ^ 12) (Nat.pow_le_pow_right (by decide) (Nat.not_lt.mp hle))
        rw [hgranted 12 (Nat.le_refl _)] at hno
        cases hno
      obtain ⟨limit', rfl⟩ : ∃ n, limit = n + 1 := ⟨limit - 1, by omega⟩
      obtain ⟨r', j, hrehash, _, hj, hr'⟩ := cc_map_make_rehash.spec hmem hash hset
        (limit' + 1) (Nat.lt_of_lt_of_le (by decide) hfirst.min) (Nat.le_add_left _ _)
      have hsmall : u.size ≤ min (2 ^ k) CC_MAP_DISPLACEMENT_LIMIT := by
        have hlt := cc_max_size_lt (Nat.two_pow_pos k)
        have hle := hfirst.le_max_size
        omega
      obtain rfl := hj hsmall
      rcases r' with _ | v
      · rw [cc_map.Rehashed, hgranted j hk] at hr'
        cases hr'
      · obtain ⟨hwidth, _, hvsize, hv, hcv⟩ := hr'
        have hvcap := cap_mask_ne_zero_of_width hfirst.min hwidth
        obtain ⟨b, w, hraw', hmask', hset'⟩ := cc_map_insert_raw_fits ⟨hv, hcv⟩ key el replace
          (fun _ => ⟨by omega, by
            rw [cc_map_cap_eq hvcap, hwidth, hvsize, husize]
            exact hfirst.le_max_size⟩)
        refine ⟨b, w, ?_, ?_, hset'⟩
        · unfold cc_map_insert
          simp only [hraw, hask', hrehash, Option.isSome_none, Bool.false_eq_true, if_false,
            Option.bind_eq_bind, Option.bind_some]
          unfold cc_map_insert
          simp only [hraw', Option.isSome_some, if_true, Option.bind_eq_bind, Option.bind_some]
        · have hsize := hv.size_update hset'.1
          rw [if_pos hkey, hvsize, husize] at hsize
          refine Tight.of_firstCap hk ?_ hsize hfirst
          rwa [cc_map.width, hmask']
    · have := hsome (Option.some_ne_none b) hkey
      omega
  · have hload : m key = none → t.size + 1 ≤ cc_max_size (cc_map_cap t) := fun hkey =>
      Nat.not_lt.mp fun hlt => hgrow ⟨hkey, hlt⟩
    obtain ⟨b, u, hraw, hmask, hset⟩ := cc_map_insert_raw_fits h key el replace
      (fun hkey => ⟨hroom hkey, hload hkey⟩)
    refine ⟨b, u, ?_, ?_, hset⟩
    · unfold cc_map_insert
      simp only [hraw, Option.isSome_some, if_true, Option.bind_eq_bind, Option.bind_some]
    · have hsize := h.stores.size_update hset.1
      have hwidth : u.width = t.width := by rw [cc_map.width, cc_map.width, hmask]
      by_cases hkey : m key = none
      · rw [if_pos hkey] at hsize
        have hle := hload hkey
        rcases ht with ⟨_, hcap⟩ | ⟨_, k, hk, hw, hfirst⟩
        · rw [cc_map_cap, if_pos hcap, hcap] at hle
          simp [cc_max_size] at hle
        · rw [cc_map_cap_eq (cap_mask_ne_zero_of_width hfirst.min hw), hw] at hle
          refine Tight.of_firstCap hk (hwidth.trans hw) hsize ⟨hfirst.min, hle, fun j hj hlt => ?_⟩
          exact Nat.lt_succ_of_lt (hfirst.before j hj hlt)
      · rw [if_neg hkey] at hsize
        unfold cc_map.Tight
        rw [hsize, hmask, hwidth]
        exact ht

/-- The same for a run whose keys are all in `K`. -/
theorem runCalls_tight {K : Finset κ} (hcard : K.card ≤ CC_MAP_DISPLACEMENT_LIMIT)
    (calls : List (MapCall κ ε)) (hcalls : ∀ call ∈ calls, call.key ∈ K) (h : t.Holds hash m)
    (ht : t.Tight) (hK : ∀ key, m key ≠ none → key ∈ K) :
    ∃ u, runCalls hash alloc (limit + 1) calls t = some ((meanings m calls).1, u) ∧
      u.Holds hash (meanings m calls).2 ∧ u.Tight := by
  induction calls generalizing t m with
  | nil => exact ⟨t, rfl, h, ht⟩
  | cons call calls ih =>
    have hcalls' : ∀ call ∈ calls, call.key ∈ K := fun call' hmem' =>
      hcalls call' (List.mem_cons_of_mem call hmem')
    have hkey := hcalls call List.mem_cons_self
    have hK' : ∀ key, (call.meaning m).2 key ≠ none → key ∈ K := by
      intro key hne
      rcases MapCall.of_meaning_ne_none hne with hold | rfl
      · exact hK key hold
      · exact hkey
    have hstep : ∃ v, call.run hash alloc (limit + 1) t = some ((call.meaning m).1, v) ∧
        v.Holds hash (call.meaning m).2 ∧ v.Tight := by
      cases call with
      | insert key el replace write =>
        have hkey : key ∈ K := hkey
        have hroom : m key = none → t.size < CC_MAP_DISPLACEMENT_LIMIT := by
          intro hnone
          have hle := h.stores.size_le (K := K.erase key) fun key' hne =>
            Finset.mem_erase.mpr ⟨fun he => hne (he ▸ hnone), hK key' hne⟩
          rw [Finset.card_erase_of_mem hkey] at hle
          have hpos := Finset.card_pos.mpr ⟨key, hkey⟩
          omega
        obtain ⟨b, u, hrun, hu, hset⟩ := cc_map_insert.tight hmem hgrant h ht key el replace hroom
        obtain ⟨hstores, hchained, hb, hbucket⟩ := hset
        obtain ⟨v, hwrite, hv, hsize, hmask⟩ :=
          cc_map.Holds.write ⟨hstores, hchained⟩ hb hbucket write
        rw [Function.update_idem] at hv
        refine ⟨v, ?_, hv, ?_⟩
        · unfold MapCall.run
          simp only [hrun, hwrite, Option.bind_eq_bind, Option.bind_some]
          rfl
        · unfold cc_map.Tight cc_map.width
          rw [hsize, hmask]
          exact hu
      | get key write =>
        obtain ⟨c, hc⟩ := h.chained
        obtain ⟨r, hrun, hfinds⟩ := cc_map_get.spec h.stores hc key
        unfold MapCall.run MapCall.meaning
        simp only [hrun, Option.bind_eq_bind, Option.bind_some]
        rcases r with _ | b
        · simp only [cc_map.Finds] at hfinds
          simp only [hfinds]
          exact ⟨t, rfl, h, ht⟩
        · obtain ⟨hb, hfull, el, hbucket, hm⟩ := hfinds
          obtain ⟨v, hwrite, hv, hsize, hmask⟩ := h.write
            (mem_occupied.mpr ⟨hb, hfull, Finset.notMem_empty b⟩) hbucket write
          simp only [hwrite, hm, Option.bind_some]
          refine ⟨v, rfl, hv, ?_⟩
          unfold cc_map.Tight cc_map.width
          rw [hsize, hmask]
          exact ht
    obtain ⟨v, hrun, hv, hvt⟩ := hstep
    obtain ⟨u, hrest, hu, hut⟩ := ih hcalls' hv hvt hK'
    refine ⟨u, ?_, hu, hut⟩
    unfold runCalls
    simp only [hrun, hrest, Option.bind_eq_bind, Option.bind_some]
    cases hreply : (call.meaning m).1 with
    | no_memory => exact absurd hreply call.meaning_granted
    | element el => rw [meanings, hreply]
    | missing => rw [meanings, hreply]

end

omit [DecidableEq κ] in
theorem cc_map_placeholder.tight : (cc_map_placeholder : cc_map κ ε).Tight := Or.inl ⟨rfl, rfl⟩

/-- With at most 2047 keys no hash function makes an insertion fail, or the table
larger than the load limit asks for. -/
theorem the_capacity_depends_on_the_number_of_keys_alone (hash : κ → BitVec 64)
    (alloc : Nat → Bool) (limit : Nat) (hmem : ∀ cap, 2 ^ limit ≤ cap → alloc cap = false)
    (hgrant : ∀ cap ≤ 4096, alloc cap = true) (calls : List (MapCall κ ε))
    (hfew : (calls.map MapCall.key).toFinset.card ≤ 2047) :
    ∃ (u : cc_map κ ε) (K : Finset κ), runCalls hash alloc (limit + 1) calls cc_map_placeholder =
        some ((meanings (fun _ => none) calls).1, u) ∧
      (∀ key, key ∈ K ↔ (meanings (fun _ => none) calls).2 key ≠ none) ∧ u.size = K.card ∧
      cc_map_min_cap_for_n_els K.card = some (cc_map_cap u) := by
  obtain ⟨u, hrun, hholds, hu⟩ := runCalls_tight hmem hgrant hfew calls
    (fun call hcall => List.mem_toFinset.mpr (List.mem_map_of_mem hcall))
    (cc_map_placeholder.holds hash) cc_map_placeholder.tight (fun _ hne => absurd rfl hne)
  have hkeys : ∀ key, key ∈ (calls.map MapCall.key).toFinset.filter
      (fun key => ((meanings (fun _ => none) calls).2 key).isSome) ↔
      (meanings (fun _ => none) calls).2 key ≠ none := by
    intro key
    rw [Finset.mem_filter, Option.isSome_iff_ne_none]
    exact and_iff_right_of_imp fun hne =>
      List.mem_toFinset.mpr ((of_meanings_ne_none hne).resolve_left fun hc => hc rfl)
  have hsize := hholds.stores.size_eq hkeys
  exact ⟨u, _, hrun, hkeys, hsize, hsize ▸ hu.cap_eq⟩

/-- The 2047 keys may even have one hash code. -/
theorem the_capacity_of_2047_keys_with_one_hash_code :
    let calls : List (MapCall Nat Nat) :=
      (List.range 2047).map fun key => .insert key key true id
    ∃ (u : cc_map Nat Nat) (K : Finset Nat),
      runCalls (fun _ => 0) (fun cap => decide (cap < 2 ^ 13)) (13 + 1) calls cc_map_placeholder =
        some ((meanings (fun _ => none) calls).1, u) ∧
      (∀ key, key ∈ K ↔ (meanings (fun _ => none) calls).2 key ≠ none) ∧ u.size = K.card ∧
      cc_map_min_cap_for_n_els K.card = some (cc_map_cap u) := by
  intro calls
  refine the_capacity_depends_on_the_number_of_keys_alone _ _ 13
    (fun _ h => decide_eq_false (Nat.not_lt.mpr h)) (fun cap h => decide_eq_true (by omega)) calls ?_
  rw [List.map_map]
  refine Nat.le_trans (List.toFinset_card_le _) ?_
  rw [List.length_map, List.length_range]

/-! ## Too many keys with one hash code -/

omit [DecidableEq κ] in
/-- A chain has no more keys than there are displacements. -/
theorem cc_map.Holds.card_le (h : t.Holds hash m) {K : Finset κ} {code : BitVec 64}
    (hsame : ∀ key ∈ K, hash key = code) (hin : ∀ key ∈ K, m key ≠ none) :
    K.card ≤ CC_MAP_DISPLACEMENT_LIMIT := by
  obtain ⟨c, hc⟩ := h.chained
  have hchain : ∀ key ∈ K, ∃ d, d ∈ c (code.toNat &&& t.cap_mask) ∧
      ∃ el, t.buckets (t.probe (code.toNat &&& t.cap_mask) d) = some (key, el) := by
    intro key hkey
    obtain ⟨el, hm⟩ := Option.ne_none_iff_exists'.mp (hin key hkey)
    obtain ⟨d, hd, hbucket⟩ := hc.key_on_chain h.stores hm
    rw [cc_map.home, hsame key hkey] at hd hbucket
    exact ⟨d, hd, el, hbucket⟩
  choose! d hd hbucket using hchain
  have hcard : K.card ≤ (Finset.range CC_MAP_DISPLACEMENT_LIMIT).card := by
    refine Finset.card_le_card_of_injOn d (fun key hkey => ?_) fun key hkey key' hkey' he => ?_
    · exact Finset.mem_coe.mpr (Finset.mem_range.mpr ((hc.chain _).lt_limit _ (hd key hkey)))
    · obtain ⟨el, hb⟩ := hbucket key hkey
      obtain ⟨el', hb'⟩ := hbucket key' hkey'
      rw [he, hb'] at hb
      cases hb
      rfl
  rwa [Finset.card_range] at hcard

/-- A key that is in the finite map stays there. -/
theorem meanings_ne_none (calls : List (MapCall κ ε)) {key : κ} (h : m key ≠ none) :
    (meanings m calls).2 key ≠ none := by
  induction calls generalizing m with
  | nil => exact h
  | cons call calls ih => exact ih (call.meaning_ne_none h)

theorem meanings_inserted {calls : List (MapCall κ ε)} {key : κ} {el : ε} {replace : Bool}
    {write : ε → ε} (h : .insert key el replace write ∈ calls) :
    (meanings m calls).2 key ≠ none := by
  induction calls generalizing m with
  | nil => exact absurd h List.not_mem_nil
  | cons call calls ih =>
    rcases List.mem_cons.mp h with rfl | h
    · refine meanings_ne_none calls ?_
      simp [MapCall.meaning]
    · exact ih h

/-- A run that inserts 2048 keys with one hash code ends without memory, however much
there is. -/
theorem keys_of_one_hash_code_exhaust_memory (hash : κ → BitVec 64) (alloc : Nat → Bool)
    (limit : Nat) (hmem : ∀ cap, 2 ^ limit ≤ cap → alloc cap = false) (calls : List (MapCall κ ε))
    (K : Finset κ) (code : BitVec 64) (hsame : ∀ key ∈ K, hash key = code) (hmany : 2048 ≤ K.card)
    (hinsert : ∀ key ∈ K, ∃ el replace write, .insert key el replace write ∈ calls) :
    ∃ replies u, runCalls hash alloc (limit + 1) calls cc_map_placeholder =
      some (replies ++ [.no_memory], u) := by
  obtain ⟨replies, u, hrun, hres⟩ := runCalls_holds hmem calls (cc_map_placeholder.holds hash)
  rcases hres with ⟨_, hu⟩ | ⟨n, _, _, rfl, _, _⟩
  · have hle := hu.card_le hsame fun key hkey => by
      obtain ⟨el, replace, write, hmem'⟩ := hinsert key hkey
      exact meanings_inserted hmem'
    exact absurd (Nat.le_trans hmany hle) (by decide)
  · exact ⟨_, u, hrun⟩

theorem keys_of_one_hash_code_exhaust_a_size_t :
    ∃ replies u, runCalls (fun _ => 0) (fun cap => decide (cap < 2 ^ 64)) (64 + 1)
      ((List.range 2048).map fun key => .insert key key false id) cc_map_placeholder =
      some (replies ++ [.no_memory], u) := by
  refine keys_of_one_hash_code_exhaust_memory _ _ 64 (fun _ h => decide_eq_false (Nat.not_lt.mpr h)) _
    (Finset.range 2048) 0 (fun _ _ => rfl) (Nat.le_of_eq (Finset.card_range _).symm) fun key hkey => ?_
  exact ⟨key, false, id, List.mem_map_of_mem (List.mem_range.mpr (Finset.mem_range.mp hkey))⟩

end riscv_assembler
