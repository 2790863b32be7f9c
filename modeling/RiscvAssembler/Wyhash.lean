-- The hash function of the labels (`cc_wyhash` of `cc.h`): its loops end, and it reads
-- no byte outside the key.
import RiscvAssembler.Emitter

open checked machine_int

namespace riscv_assembler

/-! ## Words -/

/-- The low and the high half of the product. -/
def cc_wymum (a b : BitVec 64) : BitVec 64 × BitVec 64 :=
  (BitVec.ofNat 64 (a.toNat * b.toNat), BitVec.ofNat 64 ((a.toNat * b.toNat) >>> 64))

def cc_wymix (a b : BitVec 64) : BitVec 64 := (cc_wymum a b).1 ^^^ (cc_wymum a b).2

/-- `memcpy` of `k` bytes at `p`, as a little-endian number. `cc_wyr8` is the one for 8
bytes, `cc_wyr4` the one for 4. -/
def cc_wyr (k : Nat) (key : List UInt8) (p : Int) : Result (BitVec 64) :=
  if 0 ≤ p ∧ p + k ≤ key.length then .ok (BitVec.ofNat 64 (leNat ((key.drop p.toNat).take k)))
  else .error .outOfBounds

def cc_wyr8 : List UInt8 → Int → Result (BitVec 64) := cc_wyr 8

def cc_wyr4 : List UInt8 → Int → Result (BitVec 64) := cc_wyr 4

/-- The first, the middle and the last of `k` bytes at `p`. -/
def cc_wyr3 (key : List UInt8) (p : Int) (k : Nat) : Result (BitVec 64) := do
  let first ← load key p
  let middle ← load key (p + (k >>> 1 : Nat))
  let last ← load key (p + k - 1)
  .ok (BitVec.ofNat 64 first.toNat <<< 16 ||| BitVec.ofNat 64 middle.toNat <<< 8 |||
    BitVec.ofNat 64 last.toNat)

/-! ## The hash -/

def wyseed : BitVec 64 := 0xCA813BF4C7ABF0A9

def wysecret0 : BitVec 64 := 0x2D358DCCAA6C78A5

def wysecret1 : BitVec 64 := 0x8BB84B93962EACC9

def wysecret2 : BitVec 64 := 0x4B33A62ED433D4A3

def wysecret3 : BitVec 64 := 0x4D5A2DA51DE1AA47

/-- One turn over 16 bytes at `p`. -/
def cc_wyturn (key : List UInt8) (p : Int) (secret seed : BitVec 64) : Result (BitVec 64) := do
  let x ← cc_wyr8 key p
  let y ← cc_wyr8 key (p + 8)
  .ok (cc_wymix (x ^^^ secret) (y ^^^ seed))

/-- The loop over 48 bytes at a time, whose body runs first. -/
def cc_wyhash_loop48 (key : List UInt8) (p : Int) (i : Nat) (seed see1 see2 : BitVec 64) :
    Result (Int × Nat × BitVec 64) := do
  let seed ← cc_wyturn key p wysecret1 seed
  let see1 ← cc_wyturn key (p + 16) wysecret2 see1
  let see2 ← cc_wyturn key (p + 32) wysecret3 see2
  let i' := i - 48
  if 48 ≤ i' then cc_wyhash_loop48 key (p + 48) i' seed see1 see2
  else .ok (p + 48, i', seed ^^^ (see1 ^^^ see2))
termination_by i
decreasing_by omega

/-- The loop over 16 bytes at a time. -/
def cc_wyhash_loop16 (key : List UInt8) (p : Int) (i : Nat) (seed : BitVec 64) :
    Result (Int × Nat × BitVec 64) :=
  if 16 < i then do
    let seed ← cc_wyturn key p wysecret1 seed
    cc_wyhash_loop16 key (p + 16) (i - 16) seed
  else .ok (p, i, seed)
termination_by i

/-- The words `a` and `b` of the key, and the seed. -/
def cc_wyhash_words (key : List UInt8) : Result (BitVec 64 × BitVec 64 × BitVec 64) :=
  let len := key.length
  if len ≤ 16 then
    if 4 ≤ len then do
      let step : Nat := (len >>> 3) <<< 2
      let a0 ← cc_wyr4 key 0
      let a1 ← cc_wyr4 key step
      let b0 ← cc_wyr4 key (len - 4)
      let b1 ← cc_wyr4 key (len - 4 - step)
      .ok (a0 <<< 32 ||| a1, b0 <<< 32 ||| b1, wyseed)
    else if 0 < len then do
      let a ← cc_wyr3 key 0 len
      .ok (a, 0, wyseed)
    else .ok (0, 0, wyseed)
  else do
    let (p, i, seed) ← (if 48 ≤ len then cc_wyhash_loop48 key 0 len wyseed wyseed wyseed
      else .ok (0, len, wyseed))
    let (p, i, seed) ← cc_wyhash_loop16 key p i seed
    let a ← cc_wyr8 key (p + i - 16)
    let b ← cc_wyr8 key (p + i - 8)
    .ok (a, b, seed)

def cc_wyhash (key : List UInt8) : Result (BitVec 64) := do
  let (a, b, seed) ← cc_wyhash_words key
  let (a, b) := cc_wymum (a ^^^ wysecret1) (b ^^^ seed)
  .ok (cc_wymix (a ^^^ wysecret0 ^^^ BitVec.ofNat 64 key.length) (b ^^^ wysecret1))

/-! ## Every read is inside the key -/

variable (key : List UInt8)

theorem cc_wyr_ok (k : Nat) {p : Int} (h : 0 ≤ p) (hk : p + k ≤ key.length) :
    ∃ v, cc_wyr k key p = .ok v := ⟨_, if_pos ⟨h, hk⟩⟩

theorem load_ok {p : Int} (h : 0 ≤ p) (hlt : p < key.length) : ∃ v, load key p = .ok v := by
  obtain ⟨k, rfl⟩ := Int.eq_ofNat_of_zero_le h
  have hk : k < key.length := Int.ofNat_lt.mp hlt
  exact ⟨_, load_eq_ok (List.getElem?_eq_getElem hk)⟩

theorem cc_wyturn_ok {p : Int} (h : 0 ≤ p) (hk : p + 16 ≤ key.length) (secret seed : BitVec 64) :
    ∃ v, cc_wyturn key p secret seed = .ok v := by
  obtain ⟨x, hx⟩ := cc_wyr_ok key 8 h (by omega)
  obtain ⟨y, hy⟩ := cc_wyr_ok key 8 (p := p + 8) (by omega) (by omega)
  unfold cc_wyturn cc_wyr8
  rw [hx, ok_bind, hy, ok_bind]
  exact ⟨_, rfl⟩

/-- The loop stops with fewer than 48 bytes left, and never reads behind the last. -/
theorem cc_wyhash_loop48.spec {p : Int} {i : Nat} (h : 0 ≤ p) (hi : 48 ≤ i)
    (hlen : p + i = key.length) (seed see1 see2 : BitVec 64) :
    ∃ p' i' s, cc_wyhash_loop48 key p i seed see1 see2 = .ok (p', i', s) ∧ 48 ≤ p' ∧
      p' + i' = key.length := by
  induction i using Nat.strong_induction_on generalizing p seed see1 see2 with
  | _ i ih =>
    obtain ⟨s0, h0⟩ := cc_wyturn_ok key h (by omega) wysecret1 seed
    obtain ⟨s1, h1⟩ := cc_wyturn_ok key (p := p + 16) (by omega) (by omega) wysecret2 see1
    obtain ⟨s2, h2⟩ := cc_wyturn_ok key (p := p + 32) (by omega) (by omega) wysecret3 see2
    unfold cc_wyhash_loop48
    rw [h0, ok_bind, h1, ok_bind, h2, ok_bind]
    by_cases hmore : 48 ≤ i - 48
    · rw [if_pos hmore]
      exact ih (i - 48) (by omega) (by omega) hmore (by omega) _ _ _
    · rw [if_neg hmore]
      exact ⟨_, _, _, rfl, by omega, by omega⟩

theorem cc_wyhash_loop16.spec {p : Int} {i : Nat} (h : 0 ≤ p) (hlen : p + i = key.length)
    (seed : BitVec 64) :
    ∃ p' i' s, cc_wyhash_loop16 key p i seed = .ok (p', i', s) ∧ p' + i' = key.length ∧ i' ≤ 16 := by
  induction i using Nat.strong_induction_on generalizing p seed with
  | _ i ih =>
    unfold cc_wyhash_loop16
    by_cases hmore : 16 < i
    · obtain ⟨s, hs⟩ := cc_wyturn_ok key h (by omega) wysecret1 seed
      rw [if_pos hmore, hs, ok_bind]
      exact ih (i - 16) (by omega) (by omega) (by omega) _
    · rw [if_neg hmore]
      exact ⟨_, _, _, rfl, hlen, by omega⟩

theorem cc_wyhash_words_ok : ∃ w, cc_wyhash_words key = .ok w := by
  unfold cc_wyhash_words
  by_cases hshort : key.length ≤ 16
  · simp only [if_pos hshort]
    by_cases hfour : 4 ≤ key.length
    · have hstep : (key.length >>> 3) <<< 2 = key.length / 8 * 4 := by
        rw [Nat.shiftRight_eq_div_pow, Nat.shiftLeft_eq]
      simp only [if_pos hfour, hstep]
      obtain ⟨a0, h0⟩ := cc_wyr_ok key 4 (p := 0) (by omega) (by omega)
      obtain ⟨a1, h1⟩ := cc_wyr_ok key 4 (p := (key.length / 8 * 4 : Nat)) (by omega)
        (by omega)
      obtain ⟨b0, h2⟩ := cc_wyr_ok key 4 (p := (key.length : Int) - 4) (by omega)
        (by omega)
      obtain ⟨b1, h3⟩ := cc_wyr_ok key 4
        (p := (key.length : Int) - 4 - (key.length / 8 * 4 : Nat)) (by omega) (by omega)
      unfold cc_wyr4
      rw [h0, ok_bind, h1, ok_bind, h2, ok_bind, h3, ok_bind]
      exact ⟨_, rfl⟩
    · simp only [if_neg hfour]
      by_cases hpos : 0 < key.length
      · have hhalf : key.length >>> 1 = key.length / 2 := Nat.shiftRight_one _
        obtain ⟨x, hx⟩ := load_ok key (p := 0) (by omega) (by omega)
        obtain ⟨y, hy⟩ := load_ok key (p := (0 : Int) + (key.length >>> 1 : Nat)) (by omega)
          (by omega)
        obtain ⟨z, hz⟩ := load_ok key (p := (0 : Int) + key.length - 1) (by omega) (by omega)
        simp only [if_pos hpos, cc_wyr3]
        rw [hx, ok_bind, hy, ok_bind, hz, ok_bind]
        exact ⟨_, rfl⟩
      · simp only [if_neg hpos]
        exact ⟨_, rfl⟩
  · simp only [if_neg hshort]
    -- at least 16 bytes are behind the place that the loops stop at
    have hfirst : ∃ p i s, (if 48 ≤ key.length then
        cc_wyhash_loop48 key 0 key.length wyseed wyseed wyseed
        else .ok (0, key.length, wyseed)) = .ok (p, i, s) ∧ 0 ≤ p ∧ p + i = key.length := by
      by_cases hlong : 48 ≤ key.length
      · obtain ⟨p, i, s, hrun, hp, hlen⟩ := cc_wyhash_loop48.spec key (p := 0) (by omega) hlong
          (by omega) wyseed wyseed wyseed
        exact ⟨p, i, s, by rw [if_pos hlong, hrun], by omega, hlen⟩
      · exact ⟨_, _, _, if_neg hlong, by omega, by omega⟩
    obtain ⟨p, i, s, hrun, hp, hlen⟩ := hfirst
    obtain ⟨p', i', s', hrun', hlen', _⟩ := cc_wyhash_loop16.spec key hp hlen s
    obtain ⟨a, ha⟩ := cc_wyr_ok key 8 (p := p' + i' - 16) (by omega) (by omega)
    obtain ⟨b, hb⟩ := cc_wyr_ok key 8 (p := p' + i' - 8) (by omega) (by omega)
    rw [hrun, ok_bind, hrun', ok_bind]
    unfold cc_wyr8
    rw [ha, ok_bind, hb, ok_bind]
    exact ⟨_, rfl⟩

/-- The hash of a key of any length is read from its own bytes. -/
theorem the_hash_reads_only_the_key (key : List UInt8) : ∃ h, cc_wyhash key = .ok h := by
  obtain ⟨w, hw⟩ := cc_wyhash_words_ok key
  unfold cc_wyhash
  rw [hw, ok_bind]
  exact ⟨_, rfl⟩

example : (cc_wyhash []).toOption = some 10602188539874428322 := by decide +kernel

example : (cc_wyhash [1, 2, 3]).toOption = some 2203864384469389545 := by decide +kernel

end riscv_assembler
