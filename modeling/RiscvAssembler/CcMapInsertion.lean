-- Insertion into the map of `cc.h`: what linking a key, evicting one and making the
-- map larger do to its keys and to its chains.
import RiscvAssembler.CcMapLaws

open chains

namespace riscv_assembler

variable {κ ε : Type} {hash : κ → BitVec 64} {t : cc_map κ ε} {off : Finset Nat}
  {m : κ → Option ε} {c : Nat → Finset Nat}

/-! ## The loops of an insertion -/

theorem cc_map_find_first_empty_loop.spec (h turns d : Nat) (hd : d < CC_MAP_DISPLACEMENT_LIMIT)
    (hturns : CC_MAP_DISPLACEMENT_LIMIT ≤ turns + d) :
    match cc_map_find_first_empty_loop t h turns d (cc_quadratic d) with
    | some (empty, x) => d ≤ x ∧ x < CC_MAP_DISPLACEMENT_LIMIT ∧ empty = t.probe h x ∧
        t.metadata empty = CC_MAP_EMPTY
    | none =>
      ∀ x, d ≤ x → x < CC_MAP_DISPLACEMENT_LIMIT → t.metadata (t.probe h x) ≠ CC_MAP_EMPTY := by
  induction turns generalizing d with
  | zero => omega
  | succ turns ih =>
    unfold cc_map_find_first_empty_loop
    by_cases hempty : t.metadata ((h + cc_quadratic d) &&& t.cap_mask) = CC_MAP_EMPTY
    · simp only [if_pos hempty]
      exact ⟨Nat.le_refl d, hd, rfl, hempty⟩
    · simp only [if_neg hempty]
      have hhere : ∀ x, d ≤ x → x < d + 1 → t.metadata (t.probe h x) ≠ CC_MAP_EMPTY := by
        intro x hx hx'
        obtain rfl : d = x := by omega
        exact hempty
      by_cases hlast : d + 1 = CC_MAP_DISPLACEMENT_LIMIT
      · rw [if_pos hlast]
        intro x hx hx'
        exact hhere x hx (by omega)
      · have hstep : cc_quadratic d + (d + 1) = cc_quadratic (d + 1) :=
          (probing.triangle_succ d).symm
        rw [if_neg hlast, hstep]
        have hrec := ih (d + 1) (by omega) (by omega)
        split at hrec
        · exact ⟨Nat.le_of_succ_le hrec.1, hrec.2⟩
        · intro x hx hx'
          rcases Nat.lt_or_ge x (d + 1) with hlt | hge
          · exact hhere x hx hlt
          · exact hrec x hge hx'

theorem cc_map_find_first_empty.spec (t : cc_map κ ε) (h : Nat) :
    match cc_map_find_first_empty t h with
    | some (empty, x) => 0 < x ∧ x < CC_MAP_DISPLACEMENT_LIMIT ∧ empty = t.probe h x ∧
        t.metadata empty = CC_MAP_EMPTY
    | none => ∀ x, 0 < x → x < CC_MAP_DISPLACEMENT_LIMIT → t.metadata (t.probe h x) ≠ CC_MAP_EMPTY :=
  cc_map_find_first_empty_loop.spec h CC_MAP_DISPLACEMENT_LIMIT 1 (by decide) (by decide)

namespace cc_map.Chain

variable {h : Nat} {s : Finset Nat} (hc : t.Chain hash h s)

include hc

theorem insert_location_loop {d : Nat} (hd : d < CC_MAP_DISPLACEMENT_LIMIT) (hno : d ∉ s)
    (turns p : Nat) (hp : p ∈ s) (hpd : p < d) (hturns : CC_MAP_DISPLACEMENT_LIMIT < turns + p) :
    ∃ q ∈ s, cc_map_find_insert_location_loop t h d turns (t.probe h p) = some (t.probe h q) ∧
      q < d ∧ d < cc_displacement (t.metadata (t.probe h q)) := by
  induction turns generalizing p with
  | zero =>
    have := hc.lt_limit p hp
    omega
  | succ turns ih =>
    unfold cc_map_find_insert_location_loop
    have hnext := hc.link p hp
    by_cases hlt : d < cc_displacement (t.metadata (t.probe h p))
    · simp only [if_pos hlt]
      exact ⟨p, hp, rfl, hpd, hlt⟩
    · simp only [if_neg hlt]
      have hmem := hnext.mem_of_lt (by omega)
      have hne : cc_displacement (t.metadata (t.probe h p)) ≠ d := by
        intro he
        rw [he] at hmem
        exact hno hmem
      have hgt := hnext.lt
      exact ih _ hmem (by omega) (by omega)

/-- The place of a new displacement in the chain. -/
theorem insert_location (hs : t.Sized) {d : Nat} (hd : d < CC_MAP_DISPLACEMENT_LIMIT)
    (hpos : 0 < d) (hno : d ∉ s) (hne : s.Nonempty) :
    ∃ q ∈ s, cc_map_find_insert_location_in_chain t h d = some (t.probe h q) ∧
      q < d ∧ d < cc_displacement (t.metadata (t.probe h q)) := by
  have hloop := hc.insert_location_loop hd hno (CC_MAP_DISPLACEMENT_LIMIT + 1) 0 (hc.zero_mem hne)
    hpos (by omega)
  rwa [hs.probe_zero (hc.home_lt hne)] at hloop

theorem find_prev_loop {d : Nat} (hd : d ∈ s) (turns p : Nat) (hp : p ∈ s) (hpd : p < d)
    (hturns : CC_MAP_DISPLACEMENT_LIMIT < turns + p) :
    ∃ q ∈ s, cc_map_find_prev_loop t h (t.probe h d) turns (t.probe h p) = some (t.probe h q) ∧
      cc_displacement (t.metadata (t.probe h q)) = d := by
  induction turns generalizing p with
  | zero =>
    have := hc.lt_limit p hp
    omega
  | succ turns ih =>
    unfold cc_map_find_prev_loop
    have hnext := hc.link p hp
    have hle := hnext.le d hd hpd
    have hmem := hnext.mem_of_lt (Nat.lt_of_le_of_lt hle (hc.lt_limit d hd))
    by_cases heq : t.probe h (cc_displacement (t.metadata (t.probe h p))) = t.probe h d
    · simp only [if_pos heq]
      exact ⟨p, hp, rfl, hc.inj _ hmem d hd heq⟩
    · simp only [if_neg heq]
      have hne : cc_displacement (t.metadata (t.probe h p)) ≠ d := fun he => heq (by rw [he])
      have hgt := hnext.lt
      exact ih _ hmem (by omega) (by omega)

/-- The bucket of the chain before one that is not the first. -/
theorem find_prev (hs : t.Sized) {d : Nat} (hd : d ∈ s) (hpos : 0 < d) :
    ∃ q ∈ s, cc_map_find_prev_loop t h (t.probe h d) (CC_MAP_DISPLACEMENT_LIMIT + 1) h =
      some (t.probe h q) ∧ IsNext CC_MAP_DISPLACEMENT_LIMIT s q d := by
  have hne : s.Nonempty := ⟨d, hd⟩
  obtain ⟨q, hq, hrun, hnext⟩ := hc.find_prev_loop hd (CC_MAP_DISPLACEMENT_LIMIT + 1) 0
    (hc.zero_mem hne) hpos (by omega)
  rw [hs.probe_zero (hc.home_lt hne)] at hrun
  exact ⟨q, hq, hrun, hnext ▸ hc.link q hq⟩

/-- A chain does not see the buckets that are not on it. -/
theorem congr {t' : cc_map κ ε} (hmask : t'.cap_mask = t.cap_mask)
    (hbuckets : ∀ d ∈ s, t'.buckets (t.probe h d) = t.buckets (t.probe h d))
    (hmeta : ∀ d ∈ s, t'.metadata (t.probe h d) = t.metadata (t.probe h d)) : t'.Chain hash h s := by
  have hprobe : ∀ d, t'.probe h d = t.probe h d := by
    intro d
    rw [cc_map.probe, cc_map.probe, hmask]
  have hhome : ∀ key, t'.home hash key = t.home hash key := by
    intro key
    rw [cc_map.home, cc_map.home, hmask]
  have hwidth : t'.width = t.width := by rw [cc_map.width, cc_map.width, hmask]
  refine ⟨fun hne => hwidth ▸ hc.home_lt hne, hc.zero_mem, hc.lt_limit, fun d hd => ?_,
    fun d hd d' hd' he => ?_, fun d hd => ?_⟩
  · simp only [hprobe, hbuckets d hd, hmeta d hd, hhome]
    exact hc.bucket d hd
  · rw [hprobe, hprobe] at he
    exact hc.inj d hd d' hd' he
  · rw [hprobe, hmeta d hd]
    exact hc.link d hd

end cc_map.Chain

/-! ## Links -/

@[simp] theorem cc_map.unlink_probe (t : cc_map κ ε) (prev b h x : Nat) :
    (t.unlink prev b).probe h x = t.probe h x := rfl

theorem cc_map.unlink_metadata_prev (t : cc_map κ ε) (prev b : Nat) :
    (t.unlink prev b).metadata prev =
      cc_relink (t.metadata prev) (t.metadata b &&& CC_MAP_DISPLACEMENT_MASK) :=
  Function.update_self ..

theorem cc_map.unlink_metadata_other {prev x : Nat} (hx : x ≠ prev) (b : Nat) :
    (t.unlink prev b).metadata x = t.metadata x :=
  Function.update_of_ne hx ..

@[simp] theorem cc_map.link_probe (t : cc_map κ ε) (prev empty d : Nat) (f : BitVec 16) (key : κ)
    (el : ε) (h x : Nat) : (t.link prev empty d f key el).probe h x = t.probe h x := rfl

@[simp] theorem cc_map.link_buckets (t : cc_map κ ε) (prev empty d : Nat) (f : BitVec 16) (key : κ)
    (el : ε) : (t.link prev empty d f key el).buckets =
      Function.update t.buckets empty (some (key, el)) := rfl

theorem cc_map.link_metadata_empty {prev empty : Nat} (hne : prev ≠ empty) (d : Nat) (f : BitVec 16)
    (key : κ) (el : ε) : (t.link prev empty d f key el).metadata empty =
      f ||| (t.metadata prev &&& CC_MAP_DISPLACEMENT_MASK) := by
  simp [cc_map.link, cc_map.set_metadatum, cc_map.set_bucket, hne.symm]

theorem cc_map.link_metadata_prev {prev empty : Nat} (hne : prev ≠ empty) (d : Nat) (f : BitVec 16)
    (key : κ) (el : ε) : (t.link prev empty d f key el).metadata prev =
      cc_relink (t.metadata prev) (BitVec.ofNat 16 d) := by
  simp [cc_map.link, cc_map.set_metadatum, cc_map.set_bucket, hne]

theorem cc_map.link_metadata_other {prev empty b : Nat} (hp : b ≠ prev) (he : b ≠ empty) (d : Nat)
    (f : BitVec 16) (key : κ) (el : ε) :
    (t.link prev empty d f key el).metadata b = t.metadata b := by
  simp [cc_map.link, cc_map.set_metadatum, cc_map.set_bucket, hp, he]

/-- A displacement that a link can hold, as a number. -/
theorem toNat_ofNat_displacement {d : Nat} (hd : d ≤ CC_MAP_DISPLACEMENT_LIMIT) :
    (BitVec.ofNat 16 d).toNat = d := by
  unfold CC_MAP_DISPLACEMENT_LIMIT at hd
  rw [BitVec.toNat_ofNat, Nat.mod_eq_of_lt (by omega)]

/-- A chain with a key more. -/
theorem cc_map.Chain.link_key {h q d : Nat} {s : Finset Nat} (hc : t.Chain hash h s) (hq : q ∈ s)
    (hqd : q < d) (hd : d < CC_MAP_DISPLACEMENT_LIMIT)
    (hlt : d < cc_displacement (t.metadata (t.probe h q)))
    (hempty : t.metadata (t.probe h d) = CC_MAP_EMPTY) {key : κ} (hhome : t.home hash key = h)
    (el : ε) : (t.link (t.probe h q) (t.probe h d) d (cc_hash_frag (hash key)) key el).Chain hash h
      (insert d s) := by
  have hfull : ∀ x ∈ s, t.probe h x ≠ t.probe h d := by
    intro x hx he
    refine not_empty_of_displacement (Nat.zero_lt_of_lt (hc.link x hx).lt) ?_
    rw [he, hempty]
  have hmask := ofNat_and_displacement (Nat.le_of_lt hd)
  have hnat := toNat_ofNat_displacement (Nat.le_of_lt hd)
  have hnext := hc.link q hq
  obtain ⟨hnew_disp, hnew_frag, _⟩ :=
    linked_metadatum (x := t.metadata (t.probe h q)) (frag_cc_hash_frag (hash key))
  refine ⟨fun _ => hc.home_lt ⟨q, hq⟩, fun _ => Finset.mem_insert_of_mem (hc.zero_mem ⟨q, hq⟩),
    fun x hx => ?_, fun x hx => ?_, fun x hx y hy he => ?_, fun x hx => ?_⟩
  · rcases Finset.mem_insert.mp hx with rfl | hx
    · exact hd
    · exact hc.lt_limit x hx
  · rw [cc_map.link_probe, cc_map.link_buckets]
    rcases Finset.mem_insert.mp hx with rfl | hx
    · rw [cc_map.link_metadata_empty (hfull q hq), Function.update_self]
      exact ⟨key, el, rfl, hhome, hnew_frag⟩
    · obtain ⟨key', el', hb, hhome', hfrag⟩ := hc.bucket x hx
      rw [Function.update_of_ne (hfull x hx)]
      refine ⟨key', el', hb, hhome', ?_⟩
      by_cases hxq : t.probe h x = t.probe h q
      · rw [hxq, cc_map.link_metadata_prev (hfull q hq), frag_relink hmask, ← hxq]
        exact hfrag
      · rw [cc_map.link_metadata_other hxq (hfull x hx)]
        exact hfrag
  · simp only [cc_map.link_probe] at he
    rcases Finset.mem_insert.mp hx with hxd | hx
    · rcases Finset.mem_insert.mp hy with hyd | hy
      · exact hxd.trans hyd.symm
      · rw [hxd] at he
        exact absurd he.symm (hfull y hy)
    · rcases Finset.mem_insert.mp hy with hyd | hy
      · rw [hyd] at he
        exact absurd he (hfull x hx)
      · exact hc.inj x hx y hy he
  · rw [cc_map.link_probe]
    rcases Finset.mem_insert.mp hx with rfl | hx
    · rw [cc_map.link_metadata_empty (hfull q hq), hnew_disp]
      exact hnext.insert_after hqd hlt
    · by_cases hxq : x = q
      · subst hxq
        rw [cc_map.link_metadata_prev (hfull x hx), cc_displacement_relink hmask, hnat]
        exact hnext.insert_before hqd hlt
      · rw [cc_map.link_metadata_other (fun he => hxq (hc.inj x hx q hq he)) (hfull x hx)]
        exact hnext.insert_other hlt hx hxq hq hqd (hc.link x hx)

/-- A chain without a key that was not its first. -/
theorem cc_map.Chain.unlink {h p d : Nat} {s : Finset Nat} (hc : t.Chain hash h s) (hp : p ∈ s)
    (hd : d ∈ s) (hnext : IsNext CC_MAP_DISPLACEMENT_LIMIT s p d) :
    (t.unlink (t.probe h p) (t.probe h d)).Chain hash h (s.erase d) := by
  have hmask := and_displacement_idem (t.metadata (t.probe h d))
  have hpd := hnext.lt
  have hsame : ∀ x ∈ s, x ≠ p → (t.unlink (t.probe h p) (t.probe h d)).metadata (t.probe h x) =
      t.metadata (t.probe h x) := fun x hx hne =>
    cc_map.unlink_metadata_other (fun he => hne (hc.inj x hx p hp he)) _
  refine ⟨fun _ => hc.home_lt ⟨p, hp⟩, fun _ => Finset.mem_erase.mpr ⟨by omega, hc.zero_mem ⟨p, hp⟩⟩,
    fun x hx => hc.lt_limit x (Finset.mem_of_mem_erase hx), fun x hx => ?_,
    fun x hx y hy => hc.inj x (Finset.mem_of_mem_erase hx) y (Finset.mem_of_mem_erase hy),
    fun x hx => ?_⟩
  · have hx := Finset.mem_of_mem_erase hx
    obtain ⟨key, el, hb, hhome, hfrag⟩ := hc.bucket x hx
    refine ⟨key, el, hb, hhome, ?_⟩
    rw [cc_map.unlink_probe]
    by_cases hxp : x = p
    · subst hxp
      rw [cc_map.unlink_metadata_prev, frag_relink hmask, hfrag]
    · rw [hsame x hx hxp, hfrag]
  · have hx := Finset.mem_of_mem_erase hx
    rw [cc_map.unlink_probe]
    by_cases hxp : x = p
    · subst hxp
      rw [cc_map.unlink_metadata_prev, cc_displacement_relink hmask]
      exact hnext.erase_before (hc.link d hd)
    · rw [hsame x hx hxp]
      exact hnext.erase_other hp hx hxp (hc.link x hx)

theorem cc_map.start_metadata_other {b home : Nat} (hb : b ≠ home) (f : BitVec 16) (key : κ)
    (el : ε) : (t.start home f key el).metadata b = t.metadata b :=
  Function.update_of_ne hb ..

/-! ## All chains -/

/-- The chains do not see the size. -/
theorem cc_map.Chained.with_size (hc : t.Chained hash off c) (n : Nat) :
    ({ t with size := n } : cc_map κ ε).Chained hash off c :=
  ⟨fun h => (hc.chain h).congr rfl (fun _ _ => rfl) (fun _ _ => rfl), hc.first, hc.reaches,
    hc.off_chain⟩

/-- A displacement more on one of the chains. -/
theorem mem_update_insert {h h' d x : Nat} :
    x ∈ Function.update c h (insert d (c h)) h' ↔ h' = h ∧ x = d ∨ x ∈ c h' := by
  by_cases hh : h' = h
  · subst hh
    simp
  · simp [hh]

/-- A displacement less on one of the chains. -/
theorem mem_update_erase {h h' d x : Nat} :
    x ∈ Function.update c h ((c h).erase d) h' ↔ x ∈ c h' ∧ ¬ (h' = h ∧ x = d) := by
  by_cases hh : h' = h
  · subst hh
    simp [and_comm]
  · simp [hh]

/-- A key is linked into a chain that is there. -/
theorem cc_map.Chained.link (hc : t.Chained hash off c) {h q d : Nat}
    (hq : q ∈ c h) (hqd : q < d) (hd : d < CC_MAP_DISPLACEMENT_LIMIT)
    (hlt : d < cc_displacement (t.metadata (t.probe h q)))
    (hempty : t.metadata (t.probe h d) = CC_MAP_EMPTY) (hoff : t.probe h d ∉ off) {key : κ}
    (hhome : t.home hash key = h) (el : ε) :
    (t.link (t.probe h q) (t.probe h d) d (cc_hash_frag (hash key)) key el).Chained hash off
      (Function.update c h (insert d (c h))) := by
  have hmask := ofNat_and_displacement (Nat.le_of_lt hd)
  have hfull : ∀ h', ∀ x ∈ c h', t.probe h' x ≠ t.probe h d := by
    intro h' x hx he
    refine hc.not_empty hx ?_
    rw [he, hempty]
  have hqne := hfull h q hq
  obtain ⟨_, _, hnew⟩ :=
    linked_metadatum (x := t.metadata (t.probe h q)) (frag_cc_hash_frag (hash key))
  have hfirst : ∀ b, cc_in_home_bucket ((t.link (t.probe h q) (t.probe h d) d
      (cc_hash_frag (hash key)) key el).metadata b) = cc_in_home_bucket (t.metadata b) := by
    intro b
    by_cases hbd : b = t.probe h d
    · rw [hbd, cc_map.link_metadata_empty hqne, hnew, hempty]
      rfl
    · by_cases hbq : b = t.probe h q
      · rw [hbq, cc_map.link_metadata_prev hqne, cc_in_home_bucket_relink hmask]
      · rw [cc_map.link_metadata_other hbq hbd]
  refine ⟨fun h' => ?_, fun b hb => ?_, fun b hb => ?_, fun b hb h' x hx => ?_⟩
  · by_cases hh : h' = h
    · subst hh
      rw [Function.update_self]
      exact (hc.chain h').link_key hq hqd hd hlt hempty hhome el
    · rw [Function.update_of_ne hh]
      refine (hc.chain h').congr rfl (fun x hx => ?_) (fun x hx => ?_)
      · rw [cc_map.link_buckets, Function.update_of_ne (hfull h' x hx)]
      · exact cc_map.link_metadata_other (fun he => hh (hc.unique hx hq he).1) (hfull h' x hx) ..
  · rw [hfirst, hc.first b hb]
    by_cases hbh : b = h
    · subst hbh
      rw [Function.update_self]
      exact iff_of_true ⟨q, hq⟩ (Finset.insert_nonempty d _)
    · rw [Function.update_of_ne hbh]
  · obtain ⟨hwidth, hmeta, hboff⟩ := mem_occupied.mp hb
    by_cases hbd : b = t.probe h d
    · exact ⟨h, d, mem_update_insert.mpr (Or.inl ⟨rfl, rfl⟩), hbd.symm⟩
    · have hold : t.metadata b ≠ CC_MAP_EMPTY := by
        by_cases hbq : b = t.probe h q
        · rw [hbq]
          exact hc.not_empty hq
        · rwa [cc_map.link_metadata_other hbq hbd] at hmeta
      obtain ⟨h', x, hx, he⟩ := hc.reaches b (mem_occupied.mpr ⟨hwidth, hold, hboff⟩)
      exact ⟨h', x, mem_update_insert.mpr (Or.inr hx), he⟩
  · rcases mem_update_insert.mp hx with ⟨rfl, rfl⟩ | hx
    · intro he
      rw [cc_map.link_probe] at he
      exact hoff (he ▸ hb)
    · exact hc.off_chain b hb h' x hx

/-- A key that is not the first of its chain is taken off. It stands in its bucket
until it is moved. -/
theorem cc_map.Chained.unlink (hc : t.Chained hash ∅ c) {h p d : Nat} (hp : p ∈ c h) (hd : d ∈ c h)
    (hnext : IsNext CC_MAP_DISPLACEMENT_LIMIT (c h) p d) :
    (t.unlink (t.probe h p) (t.probe h d)).Chained hash {t.probe h d}
      (Function.update c h ((c h).erase d)) := by
  have hmask := and_displacement_idem (t.metadata (t.probe h d))
  have hpd := hnext.lt
  have hfirst : ∀ b, cc_in_home_bucket ((t.unlink (t.probe h p) (t.probe h d)).metadata b) =
      cc_in_home_bucket (t.metadata b) := by
    intro b
    by_cases hb : b = t.probe h p
    · rw [hb, cc_map.unlink_metadata_prev, cc_in_home_bucket_relink hmask]
    · rw [cc_map.unlink_metadata_other hb]
  refine ⟨fun h' => ?_, fun b hb => ?_, fun b hb => ?_, fun b hb h' x hx => ?_⟩
  · by_cases hh : h' = h
    · subst hh
      rw [Function.update_self]
      exact (hc.chain h').unlink hp hd hnext
    · rw [Function.update_of_ne hh]
      exact (hc.chain h').congr rfl (fun _ _ => rfl)
        (fun x hx => cc_map.unlink_metadata_other (fun he => hh (hc.unique hx hp he).1) _)
  · rw [hfirst, hc.first b hb]
    by_cases hbh : b = h
    · subst hbh
      rw [Function.update_self]
      refine iff_of_true ⟨p, hp⟩ ⟨0, Finset.mem_erase.mpr ⟨by omega, ?_⟩⟩
      exact (hc.chain b).zero_mem ⟨p, hp⟩
    · rw [Function.update_of_ne hbh]
  · obtain ⟨hwidth, hmeta, hboff⟩ := mem_occupied.mp hb
    have hold : t.metadata b ≠ CC_MAP_EMPTY := by
      by_cases hbp : b = t.probe h p
      · rw [hbp]
        exact hc.not_empty hp
      · rwa [cc_map.unlink_metadata_other hbp] at hmeta
    obtain ⟨h', x, hx, he⟩ := hc.reaches b (mem_occupied.mpr ⟨hwidth, hold, Finset.notMem_empty b⟩)
    refine ⟨h', x, mem_update_erase.mpr ⟨hx, ?_⟩, he⟩
    rintro ⟨rfl, rfl⟩
    exact hboff (Finset.mem_singleton.mpr he.symm)
  · obtain ⟨hx, hne⟩ := mem_update_erase.mp hx
    intro he
    rw [Finset.mem_singleton.mp hb] at he
    exact hne (hc.unique hx hd he)

/-- A key is put into its home bucket, which no chain runs through. -/
theorem cc_map.Chained.start (hc : t.Chained hash off c) (hs : t.Sized) {key : κ} {h : Nat}
    (hhome : t.home hash key = h) (hfree : ∀ h', ∀ x ∈ c h', t.probe h' x ≠ h) (hoff : off ⊆ {h})
    (el : ε) :
    (t.start h (cc_hash_frag (hash key)) key el).Chained hash ∅ (Function.update c h {0}) := by
  have hlt : h < t.width := hhome ▸ t.home_lt key
  have hnone : ∀ x, x ∉ c h := fun x hx =>
    hfree h 0 ((hc.chain h).zero_mem ⟨x, hx⟩) (hs.probe_zero hlt)
  obtain ⟨hdisp, hfrag, hin⟩ := home_metadatum (frag_cc_hash_frag (hash key))
  have hhere : (t.start h (cc_hash_frag (hash key)) key el).metadata h =
      cc_hash_frag (hash key) ||| CC_MAP_IN_HOME_BUCKET_MASK ||| CC_MAP_DISPLACEMENT_MASK :=
    Function.update_self ..
  have hprobe : (t.start h (cc_hash_frag (hash key)) key el).probe h 0 = h := hs.probe_zero hlt
  refine ⟨fun h' => ?_, fun b hb => ?_, fun b hb => ?_, fun b hb => absurd hb (Finset.notMem_empty b)⟩
  · by_cases hh : h' = h
    · subst hh
      rw [Function.update_self]
      have hzero : ∀ d ∈ ({0} : Finset Nat), d = 0 := fun d hd => Finset.mem_singleton.mp hd
      refine ⟨fun _ => hlt, fun _ => Finset.mem_singleton_self 0, fun d hd => ?_, fun d hd => ?_,
        fun d hd d' hd' _ => (hzero d hd).trans (hzero d' hd').symm, fun d hd => ?_⟩
      · rw [hzero d hd]
        decide
      · rw [hzero d hd, hprobe, hhere]
        exact ⟨key, el, Function.update_self .., hhome, hfrag⟩
      · rw [hzero d hd, hprobe, hhere, hdisp]
        refine ⟨by decide, Or.inr rfl, fun y hy hlt => ?_⟩
        exact absurd (hzero y hy) (Nat.ne_of_gt hlt)
    · rw [Function.update_of_ne hh]
      exact (hc.chain h').congr rfl (fun x hx => Function.update_of_ne (hfree h' x hx) _ _)
        (fun x hx => cc_map.start_metadata_other (hfree h' x hx) ..)
  · by_cases hbh : b = h
    · rw [hbh, hhere, hin, Function.update_self]
      exact iff_of_true rfl (Finset.singleton_nonempty 0)
    · rw [cc_map.start_metadata_other hbh, Function.update_of_ne hbh]
      exact hc.first b hb
  · obtain ⟨hwidth, hmeta, _⟩ := mem_occupied.mp hb
    by_cases hbh : b = h
    · refine ⟨h, 0, ?_, ?_⟩
      · rw [Function.update_self]
        exact Finset.mem_singleton_self 0
      · rw [hprobe, hbh]
    · rw [cc_map.start_metadata_other hbh] at hmeta
      obtain ⟨h', x, hx, he⟩ := hc.reaches b
        (mem_occupied.mpr ⟨hwidth, hmeta, fun hmem => hbh (Finset.mem_singleton.mp (hoff hmem))⟩)
      refine ⟨h', x, ?_, he⟩
      have hne : h' ≠ h := by
        rintro rfl
        exact hnone x hx
      rwa [Function.update_of_ne hne]

end riscv_assembler
