-- The laws of the map of `cc.h`: which keys stand in its buckets, how the chains run
-- through them, and that each step of an insertion keeps both.
import Mathlib.Data.Finset.Card
import RiscvAssembler.CcMap
import RiscvAssembler.Lib.Chains
import RiscvAssembler.Lib.Probing

open chains

namespace riscv_assembler

/-! ## Metadata -/

theorem and_relink {m d M : BitVec 16} (hd : d &&& M = 0)
    (hM : ~~~CC_MAP_DISPLACEMENT_MASK &&& M = M) : cc_relink m d &&& M = m &&& M := by
  rw [cc_relink, BitVec.and_or_distrib_right, BitVec.and_assoc, hM, hd]
  simp

/-- A displacement as it stands in a metadatum. -/
theorem ofNat_and_displacement {d : Nat} (hd : d ≤ CC_MAP_DISPLACEMENT_LIMIT) :
    BitVec.ofNat 16 d &&& CC_MAP_DISPLACEMENT_MASK = BitVec.ofNat 16 d := by
  unfold CC_MAP_DISPLACEMENT_LIMIT at hd
  apply BitVec.eq_of_toNat_eq
  have hlt : d < 2 ^ 16 := by omega
  simp only [BitVec.toNat_and, BitVec.toNat_ofNat, CC_MAP_DISPLACEMENT_MASK, Nat.mod_eq_of_lt hlt]
  exact (Nat.and_two_pow_sub_one_eq_mod d 11).trans (Nat.mod_eq_of_lt (by omega))

/-- The displacement part of a metadatum keeps off the other masks. -/
theorem displacement_and {d M : BitVec 16} (hd : d &&& CC_MAP_DISPLACEMENT_MASK = d)
    (hM : CC_MAP_DISPLACEMENT_MASK &&& M = 0) : d &&& M = 0 := by
  rw [← hd, BitVec.and_assoc, hM]
  simp

section

variable {m d : BitVec 16} (hd : d &&& CC_MAP_DISPLACEMENT_MASK = d)

include hd

theorem cc_displacement_relink : cc_displacement (cc_relink m d) = d.toNat := by
  rw [cc_displacement, cc_relink, BitVec.and_or_distrib_right, BitVec.and_assoc, hd]
  simp

theorem frag_relink : cc_relink m d &&& CC_MAP_HASH_FRAG_MASK = m &&& CC_MAP_HASH_FRAG_MASK :=
  and_relink (displacement_and hd (by decide)) (by decide)

theorem cc_in_home_bucket_relink : cc_in_home_bucket (cc_relink m d) = cc_in_home_bucket m := by
  unfold cc_in_home_bucket
  rw [and_relink (displacement_and hd (by decide)) (by decide)]

end

theorem and_displacement_idem (m : BitVec 16) :
    m &&& CC_MAP_DISPLACEMENT_MASK &&& CC_MAP_DISPLACEMENT_MASK = m &&& CC_MAP_DISPLACEMENT_MASK := by
  rw [BitVec.and_assoc, BitVec.and_self]

theorem cc_displacement_le (m : BitVec 16) : cc_displacement m ≤ CC_MAP_DISPLACEMENT_LIMIT := by
  rw [cc_displacement, BitVec.toNat_and]
  exact Nat.and_le_right

/-- A metadatum that links to a bucket is not empty. -/
theorem not_empty_of_displacement {m : BitVec 16} (h : 0 < cc_displacement m) : m ≠ CC_MAP_EMPTY := by
  rintro rfl
  exact absurd h (by decide)

theorem not_empty_of_in_home {m : BitVec 16} (h : cc_in_home_bucket m = true) : m ≠ CC_MAP_EMPTY := by
  rintro rfl
  exact absurd h (by decide)

/-- The metadatum of a key that is not the first of its chain. -/
theorem linked_metadatum {f x : BitVec 16} (hf : f &&& CC_MAP_HASH_FRAG_MASK = f) :
    let m := f ||| (x &&& CC_MAP_DISPLACEMENT_MASK)
    cc_displacement m = cc_displacement x ∧ m &&& CC_MAP_HASH_FRAG_MASK = f ∧
      cc_in_home_bucket m = false := by
  have hfrag : ∀ M, CC_MAP_HASH_FRAG_MASK &&& M = 0 → f &&& M = 0 := by
    intro M hM
    rw [← hf, BitVec.and_assoc, hM]
    simp
  have hdisp : ∀ M, CC_MAP_DISPLACEMENT_MASK &&& M = 0 → x &&& CC_MAP_DISPLACEMENT_MASK &&& M = 0 :=
    fun M hM => displacement_and (and_displacement_idem x) hM
  refine ⟨?_, ?_, ?_⟩
  · rw [cc_displacement, cc_displacement, BitVec.and_or_distrib_right, hfrag _ (by decide),
      and_displacement_idem]
    simp
  · rw [BitVec.and_or_distrib_right, hf, hdisp _ (by decide)]
    simp
  · rw [cc_in_home_bucket, BitVec.and_or_distrib_right, hfrag _ (by decide), hdisp _ (by decide)]
    decide

/-- The metadatum of a key that stands alone in its home bucket. -/
theorem home_metadatum {f : BitVec 16} (hf : f &&& CC_MAP_HASH_FRAG_MASK = f) :
    let m := f ||| CC_MAP_IN_HOME_BUCKET_MASK ||| CC_MAP_DISPLACEMENT_MASK
    cc_displacement m = CC_MAP_DISPLACEMENT_LIMIT ∧ m &&& CC_MAP_HASH_FRAG_MASK = f ∧
      cc_in_home_bucket m = true := by
  have hfrag : ∀ M, CC_MAP_HASH_FRAG_MASK &&& M = 0 → f &&& M = 0 := by
    intro M hM
    rw [← hf, BitVec.and_assoc, hM]
    simp
  refine ⟨?_, ?_, ?_⟩
  · rw [cc_displacement, BitVec.and_or_distrib_right, BitVec.and_or_distrib_right, hfrag _ (by decide)]
    decide
  · rw [BitVec.and_or_distrib_right, BitVec.and_or_distrib_right, hf, BitVec.or_assoc]
    have hzero : (CC_MAP_IN_HOME_BUCKET_MASK &&& CC_MAP_HASH_FRAG_MASK |||
        CC_MAP_DISPLACEMENT_MASK &&& CC_MAP_HASH_FRAG_MASK) = 0 := by decide
    rw [hzero]
    simp
  · rw [cc_in_home_bucket, BitVec.and_or_distrib_right, BitVec.and_or_distrib_right,
      hfrag _ (by decide)]
    decide

theorem frag_cc_hash_frag (h : BitVec 64) :
    cc_hash_frag h &&& CC_MAP_HASH_FRAG_MASK = cc_hash_frag h := by
  rw [cc_hash_frag, BitVec.and_assoc, BitVec.and_self]

/-! ## Keys and chains -/

variable {κ ε : Type} {hash : κ → BitVec 64} {t : cc_map κ ε} {off : Finset Nat}
  {m : κ → Option ε} {c : Nat → Finset Nat}

/-- The number of buckets that a mask can give. The placeholder has one. -/
def cc_map.width (t : cc_map κ ε) : Nat := t.cap_mask + 1

def cc_map.Sized (t : cc_map κ ε) : Prop := ∃ k, t.width = 2 ^ k

/-- The buckets with a key, without those whose key counts no more. -/
def cc_map.occupied (t : cc_map κ ε) (off : Finset Nat) : Finset Nat :=
  (Finset.range t.width).filter fun b => t.metadata b ≠ CC_MAP_EMPTY ∧ b ∉ off

/-- The buckets hold the keys of `m`, each once. -/
structure cc_map.Stores (t : cc_map κ ε) (off : Finset Nat) (m : κ → Option ε) : Prop where
  sized : t.Sized
  placeholder : t.cap_mask = 0 → t.metadata 0 = CC_MAP_EMPTY
  size : t.size = (t.occupied off).card
  holds : ∀ b ∈ t.occupied off, ∃ key el, t.buckets b = some (key, el) ∧ m key = some el
  found : ∀ key el, m key = some el → ∃ b ∈ t.occupied off, t.buckets b = some (key, el)
  single : ∀ b ∈ t.occupied off, ∀ b' ∈ t.occupied off, ∀ key el el',
    t.buckets b = some (key, el) → t.buckets b' = some (key, el') → b = b'

/-- The chain of the home bucket `h` runs through the buckets at the displacements
`s`, in their order. -/
structure cc_map.Chain (hash : κ → BitVec 64) (t : cc_map κ ε) (h : Nat) (s : Finset Nat) :
    Prop where
  home_lt : s.Nonempty → h < t.width
  zero_mem : s.Nonempty → 0 ∈ s
  lt_limit : ∀ d ∈ s, d < CC_MAP_DISPLACEMENT_LIMIT
  bucket : ∀ d ∈ s, ∃ key el, t.buckets (t.probe h d) = some (key, el) ∧ t.home hash key = h ∧
    t.metadata (t.probe h d) &&& CC_MAP_HASH_FRAG_MASK = cc_hash_frag (hash key)
  inj : ∀ d ∈ s, ∀ d' ∈ s, t.probe h d = t.probe h d' → d = d'
  link : ∀ d ∈ s,
    IsNext CC_MAP_DISPLACEMENT_LIMIT s d (cc_displacement (t.metadata (t.probe h d)))

/-- Each key that counts is on a chain. -/
structure cc_map.Chained (hash : κ → BitVec 64) (t : cc_map κ ε) (off : Finset Nat)
    (c : Nat → Finset Nat) : Prop where
  chain : ∀ h, t.Chain hash h (c h)
  first : ∀ h < t.width, cc_in_home_bucket (t.metadata h) = true ↔ (c h).Nonempty
  reaches : ∀ b ∈ t.occupied off, ∃ h, ∃ d ∈ c h, t.probe h d = b
  off_chain : ∀ b ∈ off, ∀ h, ∀ d ∈ c h, t.probe h d ≠ b

theorem mem_occupied {b : Nat} :
    b ∈ t.occupied off ↔ b < t.width ∧ t.metadata b ≠ CC_MAP_EMPTY ∧ b ∉ off := by
  rw [cc_map.occupied, Finset.mem_filter, Finset.mem_range]

theorem cc_map.Sized.and_cap_mask (h : t.Sized) (x : Nat) : x &&& t.cap_mask = x % t.width := by
  obtain ⟨k, hk⟩ := h
  have hmask : t.cap_mask = 2 ^ k - 1 := by
    rw [← hk]
    rfl
  rw [hk, hmask, Nat.and_two_pow_sub_one_eq_mod]

theorem cc_map.Sized.probe_eq (h : t.Sized) (home d : Nat) :
    t.probe home d = probing.probe t.width home d := by
  rw [cc_map.probe, h.and_cap_mask]
  rfl

theorem cc_map.probe_lt (t : cc_map κ ε) (home d : Nat) : t.probe home d < t.width :=
  Nat.lt_succ_of_le Nat.and_le_right

theorem cc_map.home_lt (t : cc_map κ ε) (key : κ) : t.home hash key < t.width :=
  Nat.lt_succ_of_le Nat.and_le_right

theorem cc_map.Sized.probe_zero (h : t.Sized) {home : Nat} (hh : home < t.width) :
    t.probe home 0 = home := by
  rw [h.probe_eq, probing.probe_zero hh]

namespace cc_map.Chained

variable (hc : t.Chained hash off c)

include hc

theorem width_of_mem {h d : Nat} (hd : d ∈ c h) : h < t.width := (hc.chain h).home_lt ⟨d, hd⟩

/-- A bucket on a chain has a key. -/
theorem not_empty {h d : Nat} (hd : d ∈ c h) : t.metadata (t.probe h d) ≠ CC_MAP_EMPTY :=
  not_empty_of_displacement (Nat.zero_lt_of_lt ((hc.chain h).link d hd).lt)

theorem mem_occupied_of_mem {h d : Nat} (hd : d ∈ c h) : t.probe h d ∈ t.occupied off :=
  mem_occupied.mpr ⟨t.probe_lt h d, hc.not_empty hd, fun hoff => hc.off_chain _ hoff h d hd rfl⟩

/-- No bucket is on two chains. -/
theorem unique {h h' d d' : Nat} (hd : d ∈ c h) (hd' : d' ∈ c h')
    (he : t.probe h d = t.probe h' d') : h = h' ∧ d = d' := by
  obtain ⟨key, el, hb, hhome, _⟩ := (hc.chain h).bucket d hd
  obtain ⟨key', el', hb', hhome', _⟩ := (hc.chain h').bucket d' hd'
  rw [he, hb'] at hb
  cases hb
  obtain rfl := hhome.symm.trans hhome'
  exact ⟨rfl, (hc.chain h).inj d hd d' hd' he⟩

/-- Only the first bucket of a chain is marked. -/
theorem in_home_iff (hs : t.Sized) {h d : Nat} (hd : d ∈ c h) :
    cc_in_home_bucket (t.metadata (t.probe h d)) = true ↔ d = 0 := by
  rw [hc.first _ (t.probe_lt h d)]
  constructor
  · intro hne
    have hzero : 0 ∈ c (t.probe h d) := (hc.chain _).zero_mem hne
    exact (hc.unique hzero hd (hs.probe_zero (t.probe_lt h d))).2.symm
  · rintro rfl
    rw [hs.probe_zero (hc.width_of_mem hd)]
    exact ⟨0, hd⟩

/-- A key is on the chain of its home bucket. -/
theorem key_on_chain (hs : t.Stores off m) {key : κ} {el : ε} (h : m key = some el) :
    ∃ d ∈ c (t.home hash key), t.buckets (t.probe (t.home hash key) d) = some (key, el) := by
  obtain ⟨b, hb, hbucket⟩ := hs.found key el h
  obtain ⟨home, d, hd, rfl⟩ := hc.reaches b hb
  obtain ⟨key', el', hbucket', hhome, _⟩ := (hc.chain home).bucket d hd
  rw [hbucket] at hbucket'
  cases hbucket'
  rw [hhome]
  exact ⟨d, hd, hbucket⟩

end cc_map.Chained

/-! ## Lookup -/

/-- The walk along a chain from one of its buckets on. -/
theorem cc_map_find_in_chain.spec [DecidableEq κ] (hc : t.Chained hash off c) {key : κ} {h : Nat}
    (hh : t.home hash key = h) (turns d : Nat) (hd : d ∈ c h)
    (hturns : CC_MAP_DISPLACEMENT_LIMIT < turns + d) :
    ∃ r, cc_map_find_in_chain hash t key turns (t.probe h d) = some r ∧
      (∀ b, r = some b → b ∈ t.occupied off ∧ ∃ el, t.buckets b = some (key, el)) ∧
      (r = none → ∀ x ∈ c h, d ≤ x → ∀ el, t.buckets (t.probe h x) ≠ some (key, el)) := by
  induction turns generalizing d with
  | zero =>
    have := (hc.chain h).lt_limit d hd
    omega
  | succ turns ih =>
    obtain ⟨k, el, hbucket, hhome, hfrag⟩ := (hc.chain h).bucket d hd
    have hnext := (hc.chain h).link d hd
    have hfound : t.has_key hash key (t.probe h d) = some (decide (k = key)) := by
      rw [cc_map.has_key, hfrag, hbucket]
      by_cases hk : k = key
      · subst hk
        simp
      · split
        · rfl
        · simp [hk]
    unfold cc_map_find_in_chain
    rw [hfound, hh]
    by_cases hk : k = key
    · subst hk
      simp only [Option.bind_eq_bind, Option.bind_some, decide_true, if_true]
      refine ⟨_, rfl, fun b hb => ?_, fun hno => absurd hno (Option.some_ne_none _)⟩
      cases hb
      exact ⟨hc.mem_occupied_of_mem hd, el, hbucket⟩
    · simp only [Option.bind_eq_bind, Option.bind_some, hk, decide_false, Bool.false_eq_true, if_false]
      have hother : ∀ el', t.buckets (t.probe h d) ≠ some (key, el') := by
        intro el' he
        rw [hbucket] at he
        exact hk (congrArg Prod.fst (Option.some.inj he))
      split
      · rename_i hlimit
        refine ⟨none, rfl, fun b hb => absurd hb.symm (Option.some_ne_none b), fun _ x hx hdx => ?_⟩
        obtain rfl : d = x := by
          by_contra hne
          have hle := hnext.le x hx (by omega)
          have := (hc.chain h).lt_limit x hx
          omega
        exact hother
      · rename_i hlimit
        have hlt : cc_displacement (t.metadata (t.probe h d)) < CC_MAP_DISPLACEMENT_LIMIT :=
          Nat.lt_of_le_of_ne (cc_displacement_le _) hlimit
        have hgt := hnext.lt
        obtain ⟨r, hrun, hsome, hnone⟩ := ih _ (hnext.mem_of_lt hlt) (by omega)
        refine ⟨r, hrun, hsome, fun hr x hx hdx => ?_⟩
        rcases Nat.lt_or_eq_of_le hdx with hdx | rfl
        · exact hnone hr x hx (hnext.le x hx hdx)
        · exact hother

/-- What a lookup gives: the bucket of the key, or nothing. -/
def cc_map.Finds (t : cc_map κ ε) (m : κ → Option ε) (key : κ) : Option Nat → Prop
  | some b => b < t.width ∧ t.metadata b ≠ CC_MAP_EMPTY ∧
      ∃ el, t.buckets b = some (key, el) ∧ m key = some el
  | none => m key = none

theorem cc_map_find_in_chain_finds [DecidableEq κ] (hs : t.Stores ∅ m) (hc : t.Chained hash ∅ c)
    {key : κ} (hne : (c (t.home hash key)).Nonempty) :
    ∃ r, cc_map_find_in_chain hash t key (CC_MAP_DISPLACEMENT_LIMIT + 1) (t.home hash key) =
      some r ∧ t.Finds m key r := by
  obtain ⟨r, hrun, hsome, hnone⟩ := cc_map_find_in_chain.spec hc rfl (CC_MAP_DISPLACEMENT_LIMIT + 1) 0
    ((hc.chain _).zero_mem hne) (by omega)
  rw [hs.sized.probe_zero (t.home_lt key)] at hrun
  refine ⟨r, hrun, ?_⟩
  rcases r with _ | b
  · rcases hm : m key with _ | el
    · exact hm
    · obtain ⟨d, hd, hbucket⟩ := hc.key_on_chain hs hm
      exact absurd hbucket (hnone rfl d hd (Nat.zero_le d) el)
  · obtain ⟨hb, el, hbucket⟩ := hsome b rfl
    obtain ⟨key', el', hbucket', hm⟩ := hs.holds b hb
    rw [hbucket] at hbucket'
    cases hbucket'
    obtain ⟨hlt, hmeta, _⟩ := mem_occupied.mp hb
    exact ⟨hlt, hmeta, el, hbucket, hm⟩

/-- A home bucket without a chain is that of no key. -/
theorem cc_map.Chained.no_key (hs : t.Stores off m) (hc : t.Chained hash off c) {key : κ}
    (h : ¬ cc_in_home_bucket (t.metadata (t.home hash key)) = true) : m key = none := by
  rcases hm : m key with _ | el
  · rfl
  · obtain ⟨d, hd, _⟩ := hc.key_on_chain hs hm
    exact absurd ((hc.first _ (t.home_lt key)).mpr ⟨d, hd⟩) h

theorem cc_map_get.spec [DecidableEq κ] (hs : t.Stores ∅ m) (hc : t.Chained hash ∅ c) (key : κ) :
    ∃ r, cc_map_get hash t key = some r ∧ t.Finds m key r := by
  unfold cc_map_get
  by_cases hfirst : cc_in_home_bucket (t.metadata (t.home hash key)) = true
  · rw [if_neg (not_not.mpr hfirst)]
    exact cc_map_find_in_chain_finds hs hc ((hc.first _ (t.home_lt key)).mp hfirst)
  · rw [if_pos hfirst]
    exact ⟨none, rfl, hc.no_key hs hfirst⟩

end riscv_assembler
