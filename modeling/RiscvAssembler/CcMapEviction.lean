-- A key more in the map of `cc.h`: what an eviction and an insertion without a check
-- of the load do to its keys and to its chains.
import RiscvAssembler.CcMapInsertion

open chains

namespace riscv_assembler

variable {κ ε : Type} {hash : κ → BitVec 64} {t u : cc_map κ ε} {off : Finset Nat}
  {m : κ → Option ε} {c : Nat → Finset Nat}

/-! ## Keys -/

/-- A map with a key has buckets of its own. -/
theorem cc_map.Stores.cap_mask_ne_zero (hs : t.Stores off m) {b : Nat} (hb : b < t.width)
    (hfull : t.metadata b ≠ CC_MAP_EMPTY) : t.cap_mask ≠ 0 := by
  intro hzero
  have hb0 : b = 0 := by
    rw [cc_map.width, hzero] at hb
    omega
  rw [hb0] at hfull
  exact hfull (hs.placeholder hzero)

/-- Two maps with the same buckets in use hold the same keys. -/
theorem cc_map.Stores.congr (hs : t.Stores off m) (hmask : u.cap_mask = t.cap_mask)
    (hsize : u.size = t.size) (hbuckets : u.buckets = t.buckets)
    (hmeta : ∀ x, u.metadata x = CC_MAP_EMPTY ↔ t.metadata x = CC_MAP_EMPTY) : u.Stores off m := by
  have hwidth : u.width = t.width := by rw [cc_map.width, cc_map.width, hmask]
  have hocc : u.occupied off = t.occupied off := by
    ext x
    rw [mem_occupied, mem_occupied, hwidth, Ne, hmeta x]
  refine ⟨?_, fun hzero => (hmeta 0).mpr (hs.placeholder (hmask ▸ hzero)), ?_, ?_, ?_, ?_⟩
  · obtain ⟨k, hk⟩ := hs.sized
    exact ⟨k, hwidth.trans hk⟩
  · rw [hocc, hsize, hs.size]
  · rw [hocc, hbuckets]
    exact hs.holds
  · rw [hocc, hbuckets]
    exact hs.found
  · rw [hocc, hbuckets]
    exact hs.single

/-! ## What stays empty -/

theorem relink_ne_empty {x d : BitVec 16} (hd : d &&& CC_MAP_DISPLACEMENT_MASK = d)
    (hpos : 0 < d.toNat) : cc_relink x d ≠ CC_MAP_EMPTY := by
  apply not_empty_of_displacement
  rwa [cc_displacement_relink hd]

theorem cc_map.unlink_empty_iff {prev b : Nat} (hprev : t.metadata prev ≠ CC_MAP_EMPTY)
    (hpos : 0 < cc_displacement (t.metadata b)) (x : Nat) :
    (t.unlink prev b).metadata x = CC_MAP_EMPTY ↔ t.metadata x = CC_MAP_EMPTY := by
  by_cases hx : x = prev
  · rw [hx, cc_map.unlink_metadata_prev]
    exact iff_of_false (relink_ne_empty (and_displacement_idem _) hpos) hprev
  · rw [cc_map.unlink_metadata_other hx]

theorem cc_map.link_empty_iff {prev empty d : Nat} (hne : prev ≠ empty)
    (hprev : t.metadata prev ≠ CC_MAP_EMPTY) (hpos : 0 < d) (hd : d ≤ CC_MAP_DISPLACEMENT_LIMIT)
    (f : BitVec 16) (key : κ) (el : ε) {x : Nat} (hx : x ≠ empty) :
    (t.link prev empty d f key el).metadata x = CC_MAP_EMPTY ↔ t.metadata x = CC_MAP_EMPTY := by
  by_cases hxp : x = prev
  · rw [hxp, cc_map.link_metadata_prev hne]
    refine iff_of_false (relink_ne_empty (ofNat_and_displacement hd) ?_) hprev
    rwa [toNat_ofNat_displacement hd]
  · rw [cc_map.link_metadata_other hxp hx]

/-! ## Crowded maps -/

/-- A key that starts no chain finds no empty bucket within the displacement limit. -/
def cc_map.Crowded (t : cc_map κ ε) : Prop :=
  ∃ h < t.width, t.metadata h ≠ CC_MAP_EMPTY ∧
    ∀ x, 0 < x → x < CC_MAP_DISPLACEMENT_LIMIT → t.metadata (t.probe h x) ≠ CC_MAP_EMPTY

theorem cc_map.Chained.crowded (hc : t.Chained hash off c) (hs : t.Sized) {h : Nat}
    (hne : (c h).Nonempty) (hrun : cc_map_find_first_empty t h = none) : t.Crowded := by
  have hlt := (hc.chain h).home_lt hne
  have hfind := cc_map_find_first_empty.spec t h
  rw [hrun] at hfind
  refine ⟨h, hlt, ?_, hfind⟩
  have hzero := hc.not_empty ((hc.chain h).zero_mem hne)
  rwa [hs.probe_zero hlt] at hzero

theorem cc_map.Crowded.congr (h : t.Crowded) (hmask : u.cap_mask = t.cap_mask)
    (hmeta : ∀ x, t.metadata x = CC_MAP_EMPTY ↔ u.metadata x = CC_MAP_EMPTY) : u.Crowded := by
  obtain ⟨home, hlt, hfull, hno⟩ := h
  have hprobe : ∀ x, u.probe home x = t.probe home x := by
    intro x
    rw [cc_map.probe, cc_map.probe, hmask]
  refine ⟨home, ?_, (not_congr (hmeta home)).mp hfull, fun x hpos hx => ?_⟩
  · rwa [cc_map.width, hmask]
  · rw [hprobe]
    exact (not_congr (hmeta _)).mp (hno x hpos hx)

/-- A crowded map has as many keys as there are displacements, or as buckets. -/
theorem cc_map.Crowded.le_size (h : t.Crowded) (hs : t.Stores ∅ m) :
    min t.width CC_MAP_DISPLACEMENT_LIMIT ≤ t.size := by
  obtain ⟨home, hlt, hfull, hno⟩ := h
  obtain ⟨k, hk⟩ := hs.sized
  have hprobes : ((Finset.range (min t.width CC_MAP_DISPLACEMENT_LIMIT)).image
      (t.probe home)).card = min t.width CC_MAP_DISPLACEMENT_LIMIT := by
    rw [Finset.card_image_of_injOn, Finset.card_range]
    intro i hi j hj he
    have hi' : i < 2 ^ k := hk ▸ (Nat.lt_min.mp (Finset.mem_range.mp hi)).1
    have hj' : j < 2 ^ k := hk ▸ (Nat.lt_min.mp (Finset.mem_range.mp hj)).1
    refine probing.probe_injOn home hi' hj' ?_
    rwa [← hk, ← hs.sized.probe_eq, ← hs.sized.probe_eq]
  rw [← hprobes, hs.size]
  refine Finset.card_le_card fun b hb => ?_
  obtain ⟨x, hx, rfl⟩ := Finset.mem_image.mp hb
  refine mem_occupied.mpr ⟨t.probe_lt home x, ?_, Finset.notMem_empty _⟩
  rcases Nat.eq_zero_or_pos x with rfl | hpos
  · rwa [hs.sized.probe_zero hlt]
  · exact hno x hpos (Nat.lt_min.mp (Finset.mem_range.mp hx)).2

/-! ## A key less, a key more -/

variable [DecidableEq κ]

/-- The map without the key of a bucket, which still stands there. -/
theorem cc_map.Stores.drop (hs : t.Stores ∅ m) {b : Nat} {key : κ} {el : ε}
    (hb : b ∈ t.occupied ∅) (hbucket : t.buckets b = some (key, el)) :
    ({ t with size := t.size - 1 } : cc_map κ ε).Stores {b} (Function.update m key none) := by
  have hocc : ({ t with size := t.size - 1 } : cc_map κ ε).occupied {b} =
      (t.occupied ∅).erase b := by
    ext x
    rw [Finset.mem_erase, mem_occupied, mem_occupied, Finset.mem_singleton]
    exact ⟨fun ⟨hw, hm, hne⟩ => ⟨hne, hw, hm, Finset.notMem_empty x⟩,
      fun ⟨hne, hw, hm, _⟩ => ⟨hw, hm, hne⟩⟩
  refine ⟨hs.sized, hs.placeholder, ?_, fun x hx => ?_, fun key' el' hm => ?_,
    fun x hx y hy => ?_⟩
  · rw [hocc, Finset.card_erase_of_mem hb]
    exact congrArg (· - 1) hs.size
  · rw [hocc] at hx
    obtain ⟨hne, hx⟩ := Finset.mem_erase.mp hx
    obtain ⟨key', el', hbucket', hm⟩ := hs.holds x hx
    refine ⟨key', el', hbucket', ?_⟩
    have hkey : key' ≠ key := by
      rintro rfl
      exact hne (hs.single x hx b hb key' el' el hbucket' hbucket)
    rw [Function.update_of_ne hkey, hm]
  · have hkey : key' ≠ key := by
      rintro rfl
      rw [Function.update_self] at hm
      cases hm
    rw [Function.update_of_ne hkey] at hm
    obtain ⟨x, hx, hbucket'⟩ := hs.found key' el' hm
    refine ⟨x, ?_, hbucket'⟩
    rw [hocc]
    refine Finset.mem_erase.mpr ⟨?_, hx⟩
    rintro rfl
    rw [hbucket] at hbucket'
    cases hbucket'
    exact hkey rfl
  · rw [hocc] at hx hy
    exact hs.single x (Finset.mem_of_mem_erase hx) y (Finset.mem_of_mem_erase hy)

/-- The map with a key in a bucket that held none. -/
theorem cc_map.Stores.add (hs : t.Stores off m) {b : Nat} {key : κ} (el : ε) (hkey : m key = none)
    (hb : b < t.width) (hfree : b ∉ t.occupied off) (hcap : t.cap_mask ≠ 0)
    (hmask : u.cap_mask = t.cap_mask) (hsize : u.size = t.size + 1)
    (hbuckets : u.buckets = Function.update t.buckets b (some (key, el)))
    (hfull : u.metadata b ≠ CC_MAP_EMPTY)
    (hother : ∀ x ≠ b, u.metadata x = CC_MAP_EMPTY ↔ t.metadata x = CC_MAP_EMPTY) :
    u.Stores (off.erase b) (Function.update m key (some el)) := by
  have hwidth : u.width = t.width := by rw [cc_map.width, cc_map.width, hmask]
  have hocc : u.occupied (off.erase b) = insert b (t.occupied off) := by
    ext x
    rw [Finset.mem_insert, mem_occupied, mem_occupied, hwidth, Finset.mem_erase]
    by_cases hx : x = b
    · subst hx
      exact iff_of_true ⟨hb, hfull, fun h => h.1 rfl⟩ (Or.inl rfl)
    · rw [Ne, hother x hx]
      simp [hx]
  have hold : ∀ x ∈ t.occupied off, u.buckets x = t.buckets x := by
    intro x hx
    have hne : x ≠ b := by
      rintro rfl
      exact hfree hx
    rw [hbuckets, Function.update_of_ne hne]
  have hhere : u.buckets b = some (key, el) := by rw [hbuckets, Function.update_self]
  have hnew : ∀ x ∈ t.occupied off, ∀ el', t.buckets x ≠ some (key, el') := by
    intro x hx el' he
    obtain ⟨key', el'', hbucket, hm⟩ := hs.holds x hx
    rw [he] at hbucket
    cases hbucket
    rw [hkey] at hm
    cases hm
  refine ⟨?_, fun hzero => absurd (hmask ▸ hzero) hcap, ?_, fun x hx => ?_, fun key' el' hm => ?_,
    fun x hx y hy key' el' el'' hbx hby => ?_⟩
  · obtain ⟨k, hk⟩ := hs.sized
    exact ⟨k, hwidth.trans hk⟩
  · rw [hocc, Finset.card_insert_of_notMem hfree, hsize, hs.size]
  · rw [hocc] at hx
    rcases Finset.mem_insert.mp hx with rfl | hx
    · exact ⟨key, el, hhere, Function.update_self ..⟩
    · obtain ⟨key', el', hbucket, hm⟩ := hs.holds x hx
      have hne : key' ≠ key := by
        rintro rfl
        exact hnew x hx el' hbucket
      exact ⟨key', el', (hold x hx).trans hbucket, (Function.update_of_ne hne ..).trans hm⟩
  · rw [hocc]
    by_cases hk : key' = key
    · subst hk
      rw [Function.update_self] at hm
      cases hm
      exact ⟨b, Finset.mem_insert_self .., hhere⟩
    · rw [Function.update_of_ne hk] at hm
      obtain ⟨x, hx, hbucket⟩ := hs.found key' el' hm
      exact ⟨x, Finset.mem_insert_of_mem hx, (hold x hx).trans hbucket⟩
  · rw [hocc] at hx hy
    rcases Finset.mem_insert.mp hx with hxb | hx
    · rcases Finset.mem_insert.mp hy with hyb | hy
      · exact hxb.trans hyb.symm
      · rw [hxb, hhere] at hbx
        cases hbx
        exact absurd ((hold y hy).symm.trans hby) (hnew y hy el'')
    · rcases Finset.mem_insert.mp hy with hyb | hy
      · rw [hyb, hhere] at hby
        cases hby
        exact absurd ((hold x hx).symm.trans hbx) (hnew x hx el')
      · exact hs.single x hx y hy key' el' el'' ((hold x hx).symm.trans hbx)
          ((hold y hy).symm.trans hby)

/-- Another element for a key in its bucket. -/
theorem cc_map.Stores.set_bucket (hs : t.Stores ∅ m) {b : Nat} {key : κ} {old : ε}
    (hb : b ∈ t.occupied ∅) (hbucket : t.buckets b = some (key, old)) (el : ε) :
    (t.set_bucket b key el).Stores ∅ (Function.update m key (some el)) := by
  have hother : ∀ x ∈ t.occupied ∅, x ≠ b → ∀ el', t.buckets x ≠ some (key, el') :=
    fun x hx hne el' he => hne (hs.single x hx b hb key el' old he hbucket)
  have hhere : (t.set_bucket b key el).buckets b = some (key, el) := Function.update_self ..
  have hkeep : ∀ x ≠ b, (t.set_bucket b key el).buckets x = t.buckets x :=
    fun x hx => Function.update_of_ne hx ..
  refine ⟨hs.sized, hs.placeholder, hs.size, fun x hx => ?_, fun key' el' hm => ?_,
    fun x hx y hy key' el' el'' hbx hby => ?_⟩
  · by_cases hxb : x = b
    · subst hxb
      exact ⟨key, el, hhere, Function.update_self ..⟩
    · obtain ⟨key', el', hx', hm⟩ := hs.holds x hx
      have hne : key' ≠ key := by
        rintro rfl
        exact hother x hx hxb el' hx'
      exact ⟨key', el', (hkeep x hxb).trans hx', (Function.update_of_ne hne ..).trans hm⟩
  · by_cases hk : key' = key
    · subst hk
      rw [Function.update_self] at hm
      cases hm
      exact ⟨b, hb, hhere⟩
    · rw [Function.update_of_ne hk] at hm
      obtain ⟨x, hx, hx'⟩ := hs.found key' el' hm
      refine ⟨x, hx, (hkeep x ?_).trans hx'⟩
      rintro rfl
      rw [hbucket] at hx'
      cases hx'
      exact hk rfl
  · by_cases hxb : x = b
    · by_cases hyb : y = b
      · exact hxb.trans hyb.symm
      · rw [hxb, hhere] at hbx
        cases hbx
        exact absurd ((hkeep y hyb).symm.trans hby) (hother y hy hyb el'')
    · by_cases hyb : y = b
      · rw [hyb, hhere] at hby
        cases hby
        exact absurd ((hkeep x hxb).symm.trans hbx) (hother x hx hxb el')
      · exact hs.single x hx y hy key' el' el'' ((hkeep x hxb).symm.trans hbx)
          ((hkeep y hyb).symm.trans hby)

omit [DecidableEq κ] in
theorem cc_map.Chained.set_bucket (hc : t.Chained hash off c) {b : Nat} {key : κ} {old : ε}
    (hbucket : t.buckets b = some (key, old)) (el : ε) :
    (t.set_bucket b key el).Chained hash off c := by
  refine ⟨fun h => ?_, hc.first, hc.reaches, hc.off_chain⟩
  have hchain := hc.chain h
  refine ⟨hchain.home_lt, hchain.zero_mem, hchain.lt_limit, fun d hd => ?_, hchain.inj, hchain.link⟩
  obtain ⟨key', el', hd', hhome, hfrag⟩ := hchain.bucket d hd
  by_cases hdb : t.probe h d = b
  · rw [hdb, hbucket] at hd'
    cases hd'
    exact ⟨key, el, hdb ▸ Function.update_self .., hhome, hfrag⟩
  · exact ⟨key', el', (Function.update_of_ne hdb ..).trans hd', hhome, hfrag⟩

/-! ## Eviction -/

/-- The key goes to the first empty bucket and is linked into the chain of its home. -/
theorem cc_map.Chained.link_first_empty (hc : t.Chained hash off c) {n : Nat}
    (hs : ({ t with size := n } : cc_map κ ε).Stores off m) {key : κ} {h : Nat}
    (hhome : t.home hash key = h) (hne : (c h).Nonempty) (hkey : m key = none)
    (hoff : ∀ b ∈ off, t.metadata b ≠ CC_MAP_EMPTY) {empty x : Nat}
    (hrun : cc_map_find_first_empty t h = some (empty, x)) (el : ε) :
    ∃ prev, cc_map_find_insert_location_in_chain t h x = some prev ∧
      (∃ c', (t.link prev empty x (cc_hash_frag (hash key)) key el).Chained hash off c') ∧
      ({ t.link prev empty x (cc_hash_frag (hash key)) key el with size := n + 1 } :
        cc_map κ ε).Stores off (Function.update m key (some el)) ∧
      empty ∈ (t.link prev empty x (cc_hash_frag (hash key)) key el).occupied off := by
  have hsized : t.Sized := hs.sized
  have hfind := cc_map_find_first_empty.spec t h
  rw [hrun] at hfind
  obtain ⟨hpos, hlt, rfl, hempty⟩ := hfind
  have hno : x ∉ c h := fun hx => hc.not_empty hx hempty
  obtain ⟨p, hp, hloc, hpx, hxp⟩ := (hc.chain h).insert_location hsized hlt hpos hno hne
  have hpne : t.probe h p ≠ t.probe h x := by
    intro he
    rw [← he] at hempty
    exact hc.not_empty hp hempty
  have hxoff : t.probe h x ∉ off := fun hmem => hoff _ hmem hempty
  have hfull : (t.link (t.probe h p) (t.probe h x) x (cc_hash_frag (hash key)) key el).metadata
      (t.probe h x) ≠ CC_MAP_EMPTY := by
    rw [cc_map.link_metadata_empty hpne]
    apply not_empty_of_displacement
    rw [(linked_metadatum (frag_cc_hash_frag (hash key))).1]
    exact Nat.zero_lt_of_lt hxp
  refine ⟨t.probe h p, hloc, ⟨_, hc.link hp hpx hlt hxp hempty hxoff hhome el⟩, ?_,
    mem_occupied.mpr ⟨t.probe_lt h x, hfull, hxoff⟩⟩
  have hadd := hs.add el hkey (t.probe_lt h x) (fun hmem => (mem_occupied.mp hmem).2.1 hempty)
    (hs.cap_mask_ne_zero (t.probe_lt h p) (hc.not_empty hp))
    (u := { t.link (t.probe h p) (t.probe h x) x (cc_hash_frag (hash key)) key el with
      size := n + 1 })
    rfl rfl rfl hfull
    (fun y hy => cc_map.link_empty_iff hpne (hc.not_empty hp) hpos (Nat.le_of_lt hlt) _ _ _ hy)
  rwa [Finset.erase_eq_of_notMem hxoff] at hadd

/-- A bucket with a key of another home is freed, or else there is no empty one for
its key. -/
theorem cc_map_evict.spec (hs : t.Stores ∅ m) (hc : t.Chained hash ∅ c) {b : Nat}
    (hb : b < t.width) (hfull : t.metadata b ≠ CC_MAP_EMPTY)
    (hin : ¬ cc_in_home_bucket (t.metadata b) = true) :
    ∃ vacant u, cc_map_evict hash t b = some (vacant, u) ∧ u.cap_mask = t.cap_mask ∧
      u.size = t.size ∧ if vacant then u.Stores {b} m ∧ ∃ c', u.Chained hash {b} c'
        else u.Stores ∅ m ∧ t.Crowded := by
  have hbocc : b ∈ t.occupied ∅ := mem_occupied.mpr ⟨hb, hfull, Finset.notMem_empty b⟩
  obtain ⟨h, d, hd, rfl⟩ := hc.reaches b hbocc
  obtain ⟨key, el, hbucket, hhome, hfrag⟩ := (hc.chain h).bucket d hd
  have hpos : 0 < d := by
    rcases Nat.eq_zero_or_pos d with rfl | hpos
    · exact absurd ((hc.in_home_iff hs.sized hd).mpr rfl) hin
    · exact hpos
  obtain ⟨q, hq, hprev, hnext⟩ := (hc.chain h).find_prev hs.sized hd hpos
  have hqd : t.probe h d ≠ t.probe h q := fun he =>
    Nat.ne_of_gt hnext.lt ((hc.chain h).inj d hd q hq he)
  have hdisp := Nat.zero_lt_of_lt ((hc.chain h).link d hd).lt
  have hempty := cc_map.unlink_empty_iff (hc.not_empty hq) hdisp
  have hmeta : (t.unlink (t.probe h q) (t.probe h d)).metadata (t.probe h d) =
      t.metadata (t.probe h d) := cc_map.unlink_metadata_other hqd _
  have hstores : (t.unlink (t.probe h q) (t.probe h d)).Stores ∅ m :=
    hs.congr rfl rfl rfl hempty
  have hchained := hc.unlink hq hd hnext
  have hrest : (Function.update c h ((c h).erase d) h).Nonempty := by
    rw [Function.update_self]
    exact ⟨q, Finset.mem_erase.mpr ⟨Nat.ne_of_lt hnext.lt, hq⟩⟩
  unfold cc_map_evict
  simp only [hbucket, hhome, hprev, Option.bind_eq_bind, Option.bind_some]
  rcases hrun : cc_map_find_first_empty (t.unlink (t.probe h q) (t.probe h d)) h with _ | ⟨empty, x⟩
  · refine ⟨_, _, rfl, rfl, rfl, ?_⟩
    rw [if_neg Bool.false_ne_true]
    exact ⟨hstores, (hchained.crowded hstores.sized hrest hrun).congr rfl hempty⟩
  · have hdrop := hstores.drop
      (mem_occupied.mpr ⟨hb, (not_congr (hempty _)).mpr hfull, Finset.notMem_empty _⟩) hbucket
    have hoff : ∀ y ∈ ({t.probe h d} : Finset Nat),
        (t.unlink (t.probe h q) (t.probe h d)).metadata y ≠ CC_MAP_EMPTY := by
      intro y hy
      rw [Finset.mem_singleton.mp hy]
      exact (not_congr (hempty _)).mpr hfull
    obtain ⟨prev, hloc, hlinked, hstored, _⟩ := hchained.link_first_empty hdrop hhome hrest
      (Function.update_self ..) hoff hrun el
    have hcount : t.size - 1 + 1 = t.size := by
      have hcard := Finset.card_pos.mpr ⟨_, hbocc⟩
      rw [← hs.size] at hcard
      exact Nat.sub_add_cancel hcard
    have hm : Function.update (Function.update m key none) key (some el) = m := by
      obtain ⟨key', el', hbucket', hm⟩ := hs.holds _ hbocc
      rw [hbucket] at hbucket'
      cases hbucket'
      rw [Function.update_idem, ← hm, Function.update_eq_self]
    simp only [hloc, Option.bind_some, hmeta, hfrag]
    refine ⟨_, _, rfl, rfl, rfl, ?_⟩
    rw [if_pos rfl]
    refine ⟨?_, hlinked⟩
    have hsize : (t.unlink (t.probe h q) (t.probe h d)).size - 1 + 1 = t.size := hcount
    rw [hm, hsize] at hstored
    exact hstored

end riscv_assembler
