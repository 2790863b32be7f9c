-- The flat trie (`trie.h`, `trie.c`): nodes with two key sets of 128 bits, and
-- an auxiliary array in which a key finds its cell by its rank.
import RiscvAssembler.Lib.BitRank
import RiscvAssembler.Lib.Checked

open checked bit_rank

namespace riscv_assembler

/-- `uint64_t keys[2]`. -/
abbrev keys2 := BitVec 64 × BitVec 64

/-- The two offsets are `int`s in the source, and numbers of any size here, as the
counters of the generator are. -/
structure trie where
  keys : keys2
  terms : keys2
  /-- An offset into the auxiliary array, for the keys. -/
  next : Int
  /-- The same for the terms. -/
  data : Int
  deriving DecidableEq

/-- `(c >> 6) & 1`: which word holds the bit of `c`. The top bit is ignored. -/
def key_word (c : UInt8) : Nat := (c.toNat >>> 6) &&& 1

/-- `c & 63`: the bit of `c` in its word. -/
def key_frag (c : UInt8) : Nat := c.toNat &&& 63

def keys_at (keys : keys2) (ik : Nat) : BitVec 64 := if ik = 0 then keys.1 else keys.2

/-- The number of keys before `c`. The shift is undefined when no bit is left
out of it. -/
def key_index (keys : keys2) (c : UInt8) : Result Int :=
  let ik := key_word c
  let frag := key_frag c
  let lower : Int := if ik ≠ 0 then popcount keys.1 else 0
  if 64 ≤ 64 - frag then .error .shiftAmount
  else .ok (lower + popcount (keys_at keys ik <<< (64 - frag)))

def trie_next_ (keys : keys2) (next : Int) (c : UInt8) : Result Int :=
  if (keys_at keys (key_word c) >>> key_frag c) &&& 1 = 0 then .ok (-1)
  else do
    let i ← key_index keys c
    addInt next i

def trie_next (t : trie) (c : UInt8) : Result Int := trie_next_ t.keys t.next c

def trie_term (t : trie) (c : UInt8) : Result Int := trie_next_ t.terms t.data c

/-- The cell of a key in arrays of any size: what `trie_next_` gives as long as an `int`
numbers the cells. -/
def trie_cell (keys : keys2) (next : Int) (c : UInt8) : Result Int :=
  if (keys_at keys (key_word c) >>> key_frag c) &&& 1 = 0 then .ok (-1)
  else do
    let i ← key_index keys c
    .ok (next + i)

/-- The walk of `parse_line` over the characters of a word, from the node `pos`
with the character `here`, in arrays of any size: the data of the word if the trie
has it. -/
def trie_lookup (tbase : List trie) (aux : List Int) (pos : trie) (here : UInt8) :
    List UInt8 → Result (Option Int)
  | [] => do
    let termidx ← trie_cell pos.terms pos.data here
    if termidx < 0 then .ok none
    else do
      let data ← load aux termidx
      .ok (some data)
  | next :: rest => do
    let nextidx ← trie_cell pos.keys pos.next here
    if nextidx < 0 then .ok none
    else do
      let n ← load aux nextidx
      let pos ← load tbase n
      trie_lookup tbase aux pos next rest

/-! ## Keys -/

/-- The characters that a key set has room for and that no shift fails on: the
codes from 1 to 127, without 64. -/
def KeyCode (c : UInt8) : Prop := 0 < c.toNat ∧ c.toNat < 128 ∧ c.toNat ≠ 64

instance (c : UInt8) : Decidable (KeyCode c) := inferInstanceAs (Decidable (_ ∧ _ ∧ _))

/-- Whether the bit of `c` is set. -/
def hasKey (keys : keys2) (c : UInt8) : Bool := mem keys c.toNat

theorem key_word_eq (c : UInt8) : key_word c = c.toNat / 64 % 2 := by
  rw [key_word, Nat.shiftRight_eq_div_pow, Nat.and_one_is_mod]

theorem key_frag_eq (c : UInt8) : key_frag c = c.toNat % 64 :=
  Nat.and_two_pow_sub_one_eq_mod c.toNat 6

theorem bit_eq_zero (x : BitVec 64) (k : Nat) : (x >>> k) &&& 1 = 0 ↔ x.getLsbD k = false := by
  have hbit : (x >>> k).getLsbD 0 = x.getLsbD k := by simp
  have hone := BitVec.and_one_eq_setWidth_ofBool_getLsbD (x := x >>> k)
  rw [hbit] at hone
  rw [show (1 : BitVec 64) = 1#64 from rfl, hone]
  cases x.getLsbD k <;> decide

theorem keys_at_getLsbD (keys : keys2) {c : UInt8} (h : c.toNat < 128) :
    (keys_at keys (key_word c)).getLsbD (key_frag c) = hasKey keys c := by
  rw [key_word_eq, key_frag_eq, keys_at, hasKey, mem]
  by_cases hc : c.toNat < 64
  · rw [if_pos (by omega), if_pos hc, Nat.mod_eq_of_lt hc]
  · rw [if_neg (by omega), if_neg hc, Nat.mod_eq_sub_mod (by omega), Nat.mod_eq_of_lt (by omega)]

/-- The rank of a key, for a character that no shift fails on. -/
theorem key_index_eq (keys : keys2) {c : UInt8} (h : KeyCode c) :
    key_index keys c = .ok (rank keys c.toNat : Int) := by
  obtain ⟨hpos, hlt, hat⟩ := h
  have hfrag : key_frag c ≤ 64 := by rw [key_frag_eq]; omega
  have hzero : ¬ 64 ≤ 64 - key_frag c := by rw [key_frag_eq]; omega
  unfold key_index
  simp only
  rw [if_neg hzero, popcount_shiftLeft _ hfrag, key_word_eq, key_frag_eq, keys_at]
  by_cases hc : c.toNat < 64
  · have hword : c.toNat / 64 % 2 = 0 := by omega
    rw [hword, Nat.mod_eq_of_lt hc, rank_of_le keys (Nat.le_of_lt hc)]
    simp
  · have hword : c.toNat / 64 % 2 = 1 := by omega
    have hsum : c.toNat = 64 + c.toNat % 64 := by omega
    have hrank : rank keys c.toNat = popcount keys.1 + below keys.2 (c.toNat % 64) := by
      conv_lhs => rw [hsum]
      exact rank_add keys _
    rw [hword, hrank]
    simp

theorem trie_cell_absent {keys : keys2} {c : UInt8} (next : Int) (hc : c.toNat < 128)
    (h : hasKey keys c = false) : trie_cell keys next c = .ok (-1) := by
  unfold trie_cell
  rw [if_pos]
  rw [bit_eq_zero, keys_at_getLsbD keys hc, h]

theorem trie_cell_present {keys : keys2} {c : UInt8} (next : Int) (hc : KeyCode c)
    (h : hasKey keys c = true) : trie_cell keys next c = .ok (next + rank keys c.toNat) := by
  unfold trie_cell
  rw [if_neg, key_index_eq keys hc, ok_bind]
  rw [bit_eq_zero, keys_at_getLsbD keys hc.2.1, h]
  decide

/-! ## Sums of `int`s -/

theorem key_index_le {keys : keys2} {c : UInt8} {i : Int} (h : key_index keys c = .ok i) :
    0 ≤ i ∧ i ≤ popcount keys.1 + popcount keys.2 := by
  unfold key_index at h
  simp only at h
  split at h
  · cases h
  · have hfrag : key_frag c ≤ 64 := by rw [key_frag_eq]; omega
    have h1 := below_le_popcount keys.1 hfrag
    have h2 := below_le_popcount keys.2 hfrag
    have hi := Except.ok.inj h
    rw [popcount_shiftLeft _ hfrag, keys_at] at hi
    by_cases hword : key_word c = 0
    · rw [if_pos hword, if_neg (not_not.mpr hword)] at hi
      omega
    · rw [if_neg hword, if_pos hword] at hi
      omega

/-- Where an `int` numbers every cell of the keys, the two sums are the same. -/
theorem trie_next_eq_cell {keys : keys2} {next : Int} (hlow : INT_MIN ≤ next)
    (hhigh : next + popcount keys.1 + popcount keys.2 ≤ INT_MAX) (c : UInt8) :
    trie_next_ keys next c = trie_cell keys next c := by
  unfold trie_next_ trie_cell
  split
  · rfl
  · rcases hi : key_index keys c with f | i
    · rfl
    · have hin := key_index_le hi
      exact addInt_eq_ok.mpr ⟨rfl, by omega, by omega⟩

end riscv_assembler
