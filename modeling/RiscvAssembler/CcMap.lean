-- The map of `cc.h`, which the label table of the emitter is: a hash table whose
-- keys with one home bucket form a chain through the metadata of their buckets.
import Mathlib.Algebra.Ring.Nat
import Mathlib.Logic.Function.Basic
import Mathlib.Tactic.Common

namespace riscv_assembler

/-! ## Metadata -/

def CC_MAP_EMPTY : BitVec 16 := 0x0000

def CC_MAP_HASH_FRAG_MASK : BitVec 16 := 0xF000

def CC_MAP_IN_HOME_BUCKET_MASK : BitVec 16 := 0x0800

def CC_MAP_DISPLACEMENT_MASK : BitVec 16 := 0x07FF

/-- The mask is also the limit of the displacements. -/
def CC_MAP_DISPLACEMENT_LIMIT : Nat := 0x07FF

def CC_MAP_MIN_NONZERO_BUCKET_COUNT : Nat := 8

/-- The highest four bits of a hash code. -/
def cc_hash_frag (hash : BitVec 64) : BitVec 16 :=
  (hash >>> 48).setWidth 16 &&& CC_MAP_HASH_FRAG_MASK

def cc_quadratic (displacement : Nat) : Nat := (displacement * displacement + displacement) / 2

/-- `metadatum & CC_MAP_DISPLACEMENT_MASK`, as a number. -/
def cc_displacement (m : BitVec 16) : Nat := (m &&& CC_MAP_DISPLACEMENT_MASK).toNat

/-- The metadatum with another displacement. -/
def cc_relink (m : BitVec 16) (displacement : BitVec 16) : BitVec 16 :=
  (m &&& ~~~CC_MAP_DISPLACEMENT_MASK) ||| displacement

def cc_in_home_bucket (m : BitVec 16) : Bool := m &&& CC_MAP_IN_HOME_BUCKET_MASK ≠ 0

/-! ## The table -/

/-- A map with its buckets. The placeholder is the map with the `cap_mask` 0. What
stands in a bucket counts only if its metadatum is not empty. -/
structure cc_map (κ ε : Type) where
  size : Nat
  cap_mask : Nat
  metadata : Nat → BitVec 16
  buckets : Nat → Option (κ × ε)

variable {κ ε : Type}

/-- `cc_map_placeholder`, which `cc_init` makes of a map. -/
def cc_map_placeholder : cc_map κ ε := ⟨0, 0, fun _ => CC_MAP_EMPTY, fun _ => none⟩

/-- What `cc_map_make_rehash` allocates. -/
def cc_map_allocated (cap : Nat) : cc_map κ ε := ⟨0, cap - 1, fun _ => CC_MAP_EMPTY, fun _ => none⟩

def cc_map_cap (t : cc_map κ ε) : Nat := t.cap_mask + if t.cap_mask = 0 then 0 else 1

def cc_map.set_metadatum (t : cc_map κ ε) (bucket : Nat) (m : BitVec 16) : cc_map κ ε :=
  { t with metadata := Function.update t.metadata bucket m }

def cc_map.set_bucket (t : cc_map κ ε) (bucket : Nat) (key : κ) (el : ε) : cc_map κ ε :=
  { t with buckets := Function.update t.buckets bucket (some (key, el)) }

/-- `(home_bucket + cc_quadratic(displacement)) & cap_mask`. The sum of two
`size_t`s may wrap, which the mask does not see. -/
def cc_map.probe (t : cc_map κ ε) (home_bucket displacement : Nat) : Nat :=
  (home_bucket + cc_quadratic displacement) &&& t.cap_mask

/-- `(size_t)(max_load * (double)cap)` for the load 0.9, which is the double
8106479329266893 / 2^53. The capacity is a power of two, so that the product is
exact. -/
def cc_max_size (cap : Nat) : Nat := 8106479329266893 * cap / 2 ^ 53

/-- The loop of `cc_map_min_cap_for_n_els`. From 8 on a `size_t` can double 60 times. -/
def cc_map_min_cap_loop (n : Nat) : (turns cap : Nat) → Option Nat
  | 0, _ => none
  | turns + 1, cap => if cc_max_size cap < n then cc_map_min_cap_loop n turns (cap * 2) else some cap

def cc_map_min_cap_for_n_els (n : Nat) : Option Nat :=
  if n = 0 then some 0 else cc_map_min_cap_loop n 61 CC_MAP_MIN_NONZERO_BUCKET_COUNT

/-- The key in the empty bucket is linked behind `prev`. `cc_map_evict`,
`cc_map_insert_raw` and `cc_map_reinsert` do it alike. -/
def cc_map.link (t : cc_map κ ε) (prev empty displacement : Nat) (hashfrag : BitVec 16) (key : κ)
    (el : ε) : cc_map κ ε :=
  let t := t.set_bucket empty key el
  let t := t.set_metadatum empty (hashfrag ||| (t.metadata prev &&& CC_MAP_DISPLACEMENT_MASK))
  t.set_metadatum prev (cc_relink (t.metadata prev) (BitVec.ofNat 16 displacement))

/-- The key in the bucket is disconnected from the chain, in which it comes after
`prev`. -/
def cc_map.unlink (t : cc_map κ ε) (prev bucket : Nat) : cc_map κ ε :=
  t.set_metadatum prev
    (cc_relink (t.metadata prev) (t.metadata bucket &&& CC_MAP_DISPLACEMENT_MASK))

/-- The key is put into its home bucket, as the first of a chain. -/
def cc_map.start (t : cc_map κ ε) (home_bucket : Nat) (hashfrag : BitVec 16) (key : κ) (el : ε) :
    cc_map κ ε :=
  let t := t.set_bucket home_bucket key el
  t.set_metadatum home_bucket (hashfrag ||| CC_MAP_IN_HOME_BUCKET_MASK ||| CC_MAP_DISPLACEMENT_MASK)

/-! ## Chains -/

/-- The loop of `cc_map_find_first_empty`. It ends at the limit after as many turns
as there are displacements. -/
def cc_map_find_first_empty_loop (t : cc_map κ ε) (home_bucket : Nat) :
    (turns displacement linear_displacement : Nat) → Option (Nat × Nat)
  | 0, _, _ => none
  | turns + 1, displacement, linear_displacement =>
    let empty := (home_bucket + linear_displacement) &&& t.cap_mask
    if t.metadata empty = CC_MAP_EMPTY then some (empty, displacement)
    else if displacement + 1 = CC_MAP_DISPLACEMENT_LIMIT then none
    else cc_map_find_first_empty_loop t home_bucket turns (displacement + 1)
      (linear_displacement + (displacement + 1))

/-- The first empty bucket for a key of the home bucket and its displacement. -/
def cc_map_find_first_empty (t : cc_map κ ε) (home_bucket : Nat) : Option (Nat × Nat) :=
  cc_map_find_first_empty_loop t home_bucket CC_MAP_DISPLACEMENT_LIMIT 1 1

/-- The loops over a chain end as soon as its displacements do not get larger, or
else at the limit, so that the number of turns is bounded. `none` would be a loop
that goes on. -/
def cc_map_find_insert_location_loop (t : cc_map κ ε) (home_bucket displacement_to_empty : Nat) :
    (turns candidate : Nat) → Option Nat
  | 0, _ => none
  | turns + 1, candidate =>
    let displacement := cc_displacement (t.metadata candidate)
    if displacement_to_empty < displacement then some candidate
    else cc_map_find_insert_location_loop t home_bucket displacement_to_empty turns
      (t.probe home_bucket displacement)

/-- The bucket of the chain behind which a key with the displacement is linked. -/
def cc_map_find_insert_location_in_chain (t : cc_map κ ε)
    (home_bucket displacement_to_empty : Nat) : Option Nat :=
  cc_map_find_insert_location_loop t home_bucket displacement_to_empty
    (CC_MAP_DISPLACEMENT_LIMIT + 1) home_bucket

/-- The first loop of `cc_map_evict`: the bucket of the chain before `bucket`. -/
def cc_map_find_prev_loop (t : cc_map κ ε) (home_bucket bucket : Nat) :
    (turns prev : Nat) → Option Nat
  | 0, _ => none
  | turns + 1, prev =>
    let next := t.probe home_bucket (cc_displacement (t.metadata prev))
    if next = bucket then some prev else cc_map_find_prev_loop t home_bucket bucket turns next

variable (hash : κ → BitVec 64)

def cc_map.home (t : cc_map κ ε) (key : κ) : Nat := (hash key).toNat &&& t.cap_mask

/-- Moves a key out of a bucket that is not its home, and gives whether there was an
empty one. If there was none, the key is already off its chain. -/
def cc_map_evict (t : cc_map κ ε) (bucket : Nat) : Option (Bool × cc_map κ ε) := do
  let (key, el) ← t.buckets bucket
  let home_bucket := t.home hash key
  let prev ← cc_map_find_prev_loop t home_bucket bucket (CC_MAP_DISPLACEMENT_LIMIT + 1) home_bucket
  let t := t.unlink prev bucket
  match cc_map_find_first_empty t home_bucket with
  | none => some (false, t)
  | some (empty, displacement) => do
    let prev ← cc_map_find_insert_location_in_chain t home_bucket displacement
    let t := t.link prev empty displacement (t.metadata bucket &&& CC_MAP_HASH_FRAG_MASK) key el
    some (true, t)

/-! ## Insertion -/

/-- The key goes to its home bucket, as the first of a chain. It evicts a key that
is there from another chain. -/
def cc_map_insert_home (t : cc_map κ ε) (el : ε) (key : κ) : Option (Option Nat × cc_map κ ε) := do
  let home_bucket := t.home hash key
  let (vacant, t) ← (if t.metadata home_bucket ≠ CC_MAP_EMPTY then cc_map_evict hash t home_bucket
    else some (true, t))
  if ¬ vacant then some (none, t)
  else
    let t := t.start home_bucket (cc_hash_frag (hash key)) key el
    some (some home_bucket, { t with size := t.size + 1 })

/-- The key goes to the first empty bucket and is linked into the chain of its home
bucket. -/
def cc_map_insert_chain (t : cc_map κ ε) (el : ε) (key : κ) : Option (Option Nat × cc_map κ ε) :=
  let home_bucket := t.home hash key
  match cc_map_find_first_empty t home_bucket with
  | none => some (none, t)
  | some (empty, displacement) => do
    let prev ← cc_map_find_insert_location_in_chain t home_bucket displacement
    let t := t.link prev empty displacement (cc_hash_frag (hash key)) key el
    some (some empty, { t with size := t.size + 1 })

/-- The key is not in the map, and the map is large enough. The result is the bucket
of the key, or `NULL`. -/
def cc_map_reinsert (t : cc_map κ ε) (el : ε) (key : κ) : Option (Option Nat × cc_map κ ε) :=
  if ¬ cc_in_home_bucket (t.metadata (t.home hash key)) then cc_map_insert_home hash t el key
  else cc_map_insert_chain hash t el key

/-- The loop of `cc_map_make_rehash` over the buckets of the old map, which breaks
at the first key that finds no bucket. -/
def cc_map_reinsert_loop (t : cc_map κ ε) : List Nat → cc_map κ ε → Option (cc_map κ ε)
  | [], new_cntr => some new_cntr
  | i :: is, new_cntr =>
    if t.metadata i = CC_MAP_EMPTY then cc_map_reinsert_loop t is new_cntr
    else do
      let (key, el) ← t.buckets i
      let (itr, new_cntr) ← cc_map_reinsert hash new_cntr el key
      if itr.isNone then some new_cntr else cc_map_reinsert_loop t is new_cntr

/-- The loop of `cc_map_make_rehash`, which doubles the capacity until all keys find
a bucket. `alloc` says for which capacities `realloc` gives memory. -/
def cc_map_make_rehash (alloc : Nat → Bool) (t : cc_map κ ε) :
    (turns cap : Nat) → Option (Option (cc_map κ ε))
  | 0, _ => none
  | turns + 1, cap =>
    if ¬ alloc cap then some none
    else do
      let new_cntr ← cc_map_reinsert_loop hash t (List.range (cc_map_cap t)) (cc_map_allocated cap)
      if new_cntr.size < t.size then cc_map_make_rehash alloc t turns (cap * 2)
      else some (some new_cntr)

variable [DecidableEq κ]

/-- Whether the bucket has the key. The keys are compared only if the fragments of
their hash codes agree. -/
def cc_map.has_key (t : cc_map κ ε) (key : κ) (bucket : Nat) : Option Bool :=
  if t.metadata bucket &&& CC_MAP_HASH_FRAG_MASK = cc_hash_frag (hash key) then do
    let (k, _) ← t.buckets bucket
    some (decide (k = key))
  else some false

/-- The loop over a chain of `cc_map_get` and of `cc_map_insert_raw`: the bucket of
the key, if the chain has it. -/
def cc_map_find_in_chain (t : cc_map κ ε) (key : κ) : (turns bucket : Nat) → Option (Option Nat)
  | 0, _ => none
  | turns + 1, bucket => do
    let found ← t.has_key hash key bucket
    if found then some (some bucket)
    else
      let displacement := cc_displacement (t.metadata bucket)
      if displacement = CC_MAP_DISPLACEMENT_LIMIT then some none
      else cc_map_find_in_chain t key turns (t.probe (t.home hash key) displacement)

def cc_map_get (t : cc_map κ ε) (key : κ) : Option (Option Nat) :=
  if ¬ cc_in_home_bucket (t.metadata (t.home hash key)) then some none
  else cc_map_find_in_chain hash t key (CC_MAP_DISPLACEMENT_LIMIT + 1) (t.home hash key)

/-- The bucket of the key, or `NULL` if the key does not fit. -/
def cc_map_insert_raw (t : cc_map κ ε) (el : ε) (key : κ) (replace : Bool) :
    Option (Option Nat × cc_map κ ε) :=
  if ¬ cc_in_home_bucket (t.metadata (t.home hash key)) then
    if cc_max_size (cc_map_cap t) < t.size + 1 then some (none, t)
    else cc_map_insert_home hash t el key
  else do
    let found ← cc_map_find_in_chain hash t key (CC_MAP_DISPLACEMENT_LIMIT + 1) (t.home hash key)
    match found with
    | some bucket => some (some bucket, if replace then t.set_bucket bucket key el else t)
    | none =>
      if cc_max_size (cc_map_cap t) < t.size + 1 then some (none, t)
      else cc_map_insert_chain hash t el key

/-- The loop of `cc_map_insert`, which makes the map larger until the key fits. The
result is the bucket of the key, or `NULL` when there is no memory. -/
def cc_map_insert (alloc : Nat → Bool) (el : ε) (key : κ) (replace : Bool) :
    (turns : Nat) → cc_map κ ε → Option (Option Nat × cc_map κ ε)
  | 0, _ => none
  | turns + 1, t => do
    let (itr, t) ← cc_map_insert_raw hash t el key replace
    if itr.isSome then some (itr, t)
    else do
      let new_cntr ← cc_map_make_rehash hash alloc t (turns + 1)
        (if t.cap_mask ≠ 0 then cc_map_cap t * 2 else CC_MAP_MIN_NONZERO_BUCKET_COUNT)
      match new_cntr with
      | none => some (none, t)
      | some t => cc_map_insert alloc el key replace turns t

end riscv_assembler
