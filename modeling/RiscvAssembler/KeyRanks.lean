-- The law of `trie_next_`: it numbers the characters of a key set in their
-- order. The character with no bit below it in its word is the exception, since
-- the shift that should drop all the bits is not defined.
import Mathlib.Data.Set.Function
import RiscvAssembler.Trie

open checked bit_rank

namespace riscv_assembler

/-- The characters of a key set. -/
def key_set (keys : keys2) : Set UInt8 := {c | c.toNat < 128 ∧ hasKey keys c = true}

/-- As many numbers as the set has keys, from the base on. -/
def key_numbers (keys : keys2) (base : Int) : Set Int :=
  {z | base ≤ z ∧ z < base + popcount keys.1 + popcount keys.2}

/-- What `trie_next_` is meant to give. -/
def ranked (keys : keys2) (base : Int) (c : UInt8) : Int :=
  if hasKey keys c then base + rank keys c.toNat else -1

/-- `frag` is zero for the lowest character of each word. -/
theorem lowest_of_word {c : UInt8} (hc : c.toNat < 128) :
    c.toNat % 64 = 0 ↔ c.toNat = 0 ∨ c.toNat = 64 := by
  omega

theorem key_index_lowest (keys : keys2) {c : UInt8} (h : c.toNat % 64 = 0) :
    key_index keys c = .error .shiftAmount := by
  unfold key_index
  simp only [key_frag_eq, h]
  rfl

/-- The shift for a key that is the lowest of its word is by 64. -/
theorem trie_next_lowest {keys : keys2} {c : UInt8} (next : Int) (hc : c.toNat < 128)
    (hlow : c.toNat % 64 = 0) (h : hasKey keys c = true) :
    trie_next_ keys next c = .error .shiftAmount := by
  unfold trie_next_
  rw [if_neg, key_index_lowest keys hlow, error_bind]
  rw [bit_eq_zero, keys_at_getLsbD keys hc, h]
  decide

theorem trie_next_absent {keys : keys2} {c : UInt8} (next : Int) (hc : c.toNat < 128)
    (h : hasKey keys c = false) : trie_next_ keys next c = .ok (-1) := by
  unfold trie_next_
  rw [if_pos]
  rw [bit_eq_zero, keys_at_getLsbD keys hc, h]

theorem trie_next_present {keys : keys2} {c : UInt8} (next : Int) (hc : KeyCode c)
    (h : hasKey keys c = true) : trie_next_ keys next c = addInt next (rank keys c.toNat) := by
  unfold trie_next_
  rw [if_neg, key_index_eq keys hc, ok_bind]
  rw [bit_eq_zero, keys_at_getLsbD keys hc.2.1, h]
  decide

/-- A base that is an `int` is at least the smallest one. -/
theorem int_min_le (base : Int32) (n : Nat) : INT_MIN ≤ base.toInt + n := by
  have := base.le_toInt
  unfold INT_MIN
  omega

theorem trie_next_eq_ranked_iff (keys : keys2) (base : Int32) {c : UInt8} (hc : c.toNat < 128) :
    trie_next_ keys base.toInt c = .ok (ranked keys base.toInt c) ↔
      hasKey keys c = false ∨
        c.toNat % 64 ≠ 0 ∧ base.toInt + rank keys c.toNat ≤ INT_MAX := by
  unfold ranked
  cases h : hasKey keys c with
  | false => simp [trie_next_absent base.toInt hc h]
  | true =>
    by_cases hlow : c.toNat % 64 = 0
    · simp [trie_next_lowest base.toInt hc hlow h, hlow]
    · have hcode : KeyCode c := by
        unfold KeyCode
        omega
      rw [trie_next_present base.toInt hcode h, if_pos rfl, addInt_eq_ok]
      simp [hlow, int_min_le base (rank keys c.toNat)]

/-- All the members of a key set. -/
theorem rank_all (keys : keys2) : rank keys 128 = popcount keys.1 + popcount keys.2 :=
  rank_add keys 64

/-- The ranks put a key set in order onto the numbers from the base on. -/
theorem ranked_biject (keys : keys2) (base : Int) :
    (∀ c ∈ key_set keys, ∀ e ∈ key_set keys, c.toNat < e.toNat →
        ranked keys base c < ranked keys base e) ∧
      Set.BijOn (ranked keys base) (key_set keys) (key_numbers keys base) := by
  have hrank : ∀ c ∈ key_set keys, ranked keys base c = base + rank keys c.toNat :=
    fun c hc => if_pos hc.2
  have hall := rank_all keys
  refine ⟨fun c hc e he hlt => ?_, fun c hc => ?_, fun c hc e he heq => ?_, fun z hz => ?_⟩
  · rw [hrank c hc, hrank e he]
    have := rank_lt_rank hc.2 hlt
    omega
  · rw [hrank c hc]
    have := rank_lt_rank hc.2 hc.1
    constructor <;> omega
  · rw [hrank c hc, hrank e he] at heq
    exact UInt8.toNat_inj.mp (rank_injective hc.2 he.2 (by omega))
  · obtain ⟨hlo, hhi⟩ := hz
    obtain ⟨i, hi, hmem, hi'⟩ := exists_rank_eq keys (n := 128) (k := (z - base).toNat) (by omega)
    have hcode : (UInt8.ofNat i).toNat = i := by
      simp only [UInt8.toNat_ofNat']
      omega
    have hin : UInt8.ofNat i ∈ key_set keys := by
      constructor
      · rw [hcode]
        exact hi
      · rw [hasKey, hcode]
        exact hmem
    refine ⟨UInt8.ofNat i, hin, ?_⟩
    rw [hrank _ hin, hcode, hi']
    omega

/-- `trie_next_` gives the rank of a character, or -1, exactly when the
character is no key, or is not the lowest of its word and has a number that an `int`
holds. It puts the keys in order onto the numbers from the base on exactly when none of
them is the lowest of its word and an `int` holds the last of these numbers. -/
theorem trie_next_is_rank_iff_no_key_is_lowest (keys : keys2) (base : Int32) :
    (∀ c : UInt8, c.toNat < 128 →
      (trie_next_ keys base.toInt c = .ok (ranked keys base.toInt c) ↔ hasKey keys c = false ∨
        c.toNat % 64 ≠ 0 ∧ base.toInt + rank keys c.toNat ≤ INT_MAX)) ∧
    ((∃ f : UInt8 → Int, (∀ c ∈ key_set keys, trie_next_ keys base.toInt c = .ok (f c)) ∧
      (∀ c ∈ key_set keys, ∀ e ∈ key_set keys, c.toNat < e.toNat → f c < f e) ∧
      Set.BijOn f (key_set keys) (key_numbers keys base.toInt)) ↔
    hasKey keys 0 = false ∧ hasKey keys 64 = false ∧
      base.toInt + popcount keys.1 + popcount keys.2 - 1 ≤ INT_MAX) := by
  refine ⟨fun c hc => trie_next_eq_ranked_iff keys base hc, ?_⟩
  constructor
  · rintro ⟨f, hrun, _, hbij⟩
    have hno : ∀ c : UInt8, c.toNat < 128 → c.toNat % 64 = 0 → hasKey keys c = false := by
      intro c hc hlow
      by_contra hkey
      rw [Bool.not_eq_false] at hkey
      have := hrun c ⟨hc, hkey⟩
      rw [trie_next_lowest base.toInt hc hlow hkey] at this
      cases this
    refine ⟨hno 0 (by decide) (by decide), hno 64 (by decide) (by decide), ?_⟩
    -- the last number is the one of some key
    by_contra hbig
    have hbase := base.toInt_lt
    unfold INT_MAX at hbig
    have hlast : base.toInt + popcount keys.1 + popcount keys.2 - 1 ∈
        key_numbers keys base.toInt := ⟨by omega, by omega⟩
    obtain ⟨c, hc, heq⟩ := hbij.surjOn hlast
    have hcode : KeyCode c := by
      obtain ⟨hlt, hkey⟩ := hc
      refine ⟨Nat.pos_of_ne_zero fun hzero => ?_, hlt, fun hat => ?_⟩
      · rw [hno c hlt (by omega)] at hkey
        cases hkey
      · rw [hno c hlt (by omega)] at hkey
        cases hkey
    have hvalue := hrun c hc
    rw [trie_next_present base.toInt hcode hc.2, addInt_eq_ok, heq] at hvalue
    unfold INT_MAX at hvalue
    omega
  · rintro ⟨h0, h64, hlast⟩
    obtain ⟨hmono, hbij⟩ := ranked_biject keys base.toInt
    refine ⟨ranked keys base.toInt, fun c hc => ?_, hmono, hbij⟩
    refine (trie_next_eq_ranked_iff keys base hc.1).mpr (Or.inr ⟨fun hlow => ?_, ?_⟩)
    · rcases (lowest_of_word hc.1).mp hlow with hzero | hzero
      · have : c = 0 := UInt8.toNat_inj.mp hzero
        rw [this] at hc
        exact absurd (h0.symm.trans hc.2) (by decide)
      · have : c = 64 := UInt8.toNat_inj.mp hzero
        rw [this] at hc
        exact absurd (h64.symm.trans hc.2) (by decide)
    · have hrank := rank_lt_rank hc.2 hc.1
      rw [rank_all] at hrank
      omega

/-- The key set of `@` alone. -/
theorem the_rank_of_the_lowest_key_is_undefined :
    ¬ ∀ (keys : keys2) (base : Int32) (c : UInt8), c.toNat < 128 →
      trie_next_ keys base.toInt c = .ok (ranked keys base.toInt c) := by
  intro hall
  have hrun := hall (0, 1) 0 64 (by decide)
  rw [trie_next_lowest _ (by decide) (by decide) (by decide)] at hrun
  cases hrun

end riscv_assembler
