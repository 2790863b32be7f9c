-- Runs of the map of `cc.h`: whatever the hash function, a sequence of calls sees what
-- it would see of a finite map, until there is no memory for a larger table.
import RiscvAssembler.CcMapGrowth

open chains

namespace riscv_assembler

variable {κ ε : Type} {hash : κ → BitVec 64} {t u : cc_map κ ε}
  {m : κ → Option ε} {c : Nat → Finset Nat}

/-! ## Calls -/

/-- A call, and what the caller then makes of the element through the pointer that it
got. -/
inductive MapCall (κ ε : Type)
  | insert (key : κ) (el : ε) (replace : Bool) (write : ε → ε)
  | get (key : κ) (write : ε → ε)

def MapCall.key : MapCall κ ε → κ
  | .insert key _ _ _ => key
  | .get key _ => key

/-- The element in the bucket, and the map after the caller has written it. -/
def cc_map.write (t : cc_map κ ε) (bucket : Nat) (write : ε → ε) : Option (ε × cc_map κ ε) := do
  let (key, el) ← t.buckets bucket
  some (el, t.set_bucket bucket key (write el))

variable [DecidableEq κ]

/-- What a call gives: an element, or `NULL` of a lookup, or `NULL` of an insertion. -/
inductive Reply (ε : Type)
  | element (el : ε)
  | missing
  | no_memory
  deriving DecidableEq

def MapCall.run (hash : κ → BitVec 64) (alloc : Nat → Bool) (turns : Nat) (t : cc_map κ ε) :
    MapCall κ ε → Option (Reply ε × cc_map κ ε)
  | .insert key el replace write => do
    let (itr, t) ← cc_map_insert hash alloc el key replace turns t
    match itr with
    | none => some (.no_memory, t)
    | some bucket => do
      let (el, t) ← t.write bucket write
      some (.element el, t)
  | .get key write => do
    let itr ← cc_map_get hash t key
    match itr with
    | none => some (.missing, t)
    | some bucket => do
      let (el, t) ← t.write bucket write
      some (.element el, t)

/-- The calls one after the other. A caller that got no memory makes no more. -/
def runCalls (hash : κ → BitVec 64) (alloc : Nat → Bool) (turns : Nat) :
    List (MapCall κ ε) → cc_map κ ε → Option (List (Reply ε) × cc_map κ ε)
  | [], t => some ([], t)
  | call :: calls, t => do
    let (reply, t) ← call.run hash alloc turns t
    match reply with
    | .no_memory => some ([.no_memory], t)
    | reply => do
      let (replies, t) ← runCalls hash alloc turns calls t
      some (reply :: replies, t)

/-! ## A finite map -/

/-- What the caller sees of a finite map, and the finite map after the call. -/
def MapCall.meaning (m : κ → Option ε) : MapCall κ ε → Reply ε × (κ → Option ε)
  | .insert key el replace write =>
    (.element (settled m key el replace),
      Function.update m key (some (write (settled m key el replace))))
  | .get key write =>
    match m key with
    | none => (.missing, m)
    | some el => (.element el, Function.update m key (some (write el)))

def meanings (m : κ → Option ε) : List (MapCall κ ε) → List (Reply ε) × (κ → Option ε)
  | [] => ([], m)
  | call :: calls =>
    ((call.meaning m).1 :: (meanings (call.meaning m).2 calls).1,
      (meanings (call.meaning m).2 calls).2)

/-- A finite map is never without memory. -/
theorem MapCall.meaning_granted (call : MapCall κ ε) : (call.meaning m).1 ≠ .no_memory := by
  cases call with
  | insert key el replace write => simp [MapCall.meaning]
  | get key write => rcases hm : m key with _ | el <;> simp [MapCall.meaning, hm]

/-- A call takes no key away, -/
theorem MapCall.meaning_ne_none (call : MapCall κ ε) {key : κ} (h : m key ≠ none) :
    (call.meaning m).2 key ≠ none := by
  cases call with
  | insert key' el replace write =>
    by_cases hk : key = key'
    · simp [MapCall.meaning, hk]
    · simpa [MapCall.meaning, hk] using h
  | get key' write =>
    rcases hm : m key' with _ | el
    · simpa [MapCall.meaning, hm] using h
    · by_cases hk : key = key'
      · simp [MapCall.meaning, hk, hm]
      · simpa [MapCall.meaning, hm, hk] using h

/-- and adds none but its own. -/
theorem MapCall.of_meaning_ne_none {call : MapCall κ ε} {key : κ}
    (h : (call.meaning m).2 key ≠ none) : m key ≠ none ∨ key = call.key := by
  by_cases hk : key = call.key
  · exact Or.inr hk
  · refine Or.inl ?_
    cases call with
    | insert key' el replace write =>
      have hk : key ≠ key' := hk
      simpa [MapCall.meaning, hk] using h
    | get key' write =>
      have hk : key ≠ key' := hk
      rcases hm : m key' with _ | el
      · simpa [MapCall.meaning, hm] using h
      · simpa [MapCall.meaning, hm, hk] using h

/-- A key of the map was there before, or one of the calls is for it. -/
theorem of_meanings_ne_none {calls : List (MapCall κ ε)} {key : κ}
    (h : (meanings m calls).2 key ≠ none) : m key ≠ none ∨ key ∈ calls.map MapCall.key := by
  induction calls generalizing m with
  | nil => exact Or.inl h
  | cons call calls ih =>
    rcases ih h with hone | hmem
    · rcases MapCall.of_meaning_ne_none hone with hold | rfl
      · exact Or.inl hold
      · exact Or.inr List.mem_cons_self
    · exact Or.inr (List.mem_cons_of_mem _ hmem)

/-- The table holds the finite map, with its chains in order. -/
structure cc_map.Holds (hash : κ → BitVec 64) (t : cc_map κ ε) (m : κ → Option ε) : Prop where
  stores : t.Stores ∅ m
  chained : ∃ c, t.Chained hash ∅ c

omit [DecidableEq κ] in
theorem cc_map_placeholder.holds (hash : κ → BitVec 64) :
    (cc_map_placeholder : cc_map κ ε).Holds hash fun _ => none :=
  ⟨cc_map_allocated.stores 0, _, cc_map_allocated.chained hash 1⟩

/-- The caller writes through its pointer. -/
theorem cc_map.Holds.write {b : Nat} {key : κ} {el : ε} (h : t.Holds hash m) (hb : b ∈ t.occupied ∅)
    (hbucket : t.buckets b = some (key, el)) (write : ε → ε) :
    ∃ u, t.write b write = some (el, u) ∧
      u.Holds hash (Function.update m key (some (write el))) ∧ u.size = t.size ∧
      u.cap_mask = t.cap_mask := by
  obtain ⟨c, hc⟩ := h.chained
  refine ⟨t.set_bucket b key (write el), ?_, ⟨h.stores.set_bucket hb hbucket _, c,
    hc.set_bucket hbucket _⟩, rfl, rfl⟩
  rw [cc_map.write, hbucket]
  rfl

section

variable {alloc : Nat → Bool} {limit : Nat} (hmem : ∀ cap, 2 ^ limit ≤ cap → alloc cap = false)

include hmem

/-- One call does to the table what it does to the finite map, or memory ends. -/
theorem MapCall.run_step (h : t.Holds hash m) (call : MapCall κ ε) :
    ∃ reply u, call.run hash alloc (limit + 1) t = some (reply, u) ∧
      (reply = (call.meaning m).1 ∧ u.Holds hash (call.meaning m).2 ∨
        reply = .no_memory ∧ u.Stores ∅ m ∧ ∃ k, alloc (2 ^ k) = false) := by
  obtain ⟨c, hc⟩ := h.chained
  cases call with
  | insert key el replace write =>
    obtain ⟨w, hw⟩ := h.stores.sized
    obtain ⟨r, u, hrun, hset, hnone⟩ := cc_map_insert.spec hmem h.stores hc key el replace limit hw
      (Nat.le_add_left limit w)
    unfold MapCall.run
    simp only [hrun, Option.bind_eq_bind, Option.bind_some]
    cases r with
    | none =>
      obtain ⟨_, k, _, hno⟩ := hnone rfl
      exact ⟨_, u, rfl, Or.inr ⟨rfl, hset, k, hno⟩⟩
    | some b =>
      obtain ⟨hstores, hchained, hb, hbucket⟩ := hset
      obtain ⟨v, hwrite, hv, _⟩ := cc_map.Holds.write ⟨hstores, hchained⟩ hb hbucket write
      simp only [hwrite, Option.bind_some]
      refine ⟨_, v, rfl, Or.inl ⟨rfl, ?_⟩⟩
      rw [Function.update_idem] at hv
      exact hv
  | get key write =>
    obtain ⟨r, hrun, hfinds⟩ := cc_map_get.spec h.stores hc key
    unfold MapCall.run MapCall.meaning
    simp only [hrun, Option.bind_eq_bind, Option.bind_some]
    cases r with
    | none =>
      simp only [cc_map.Finds] at hfinds
      simp only [hfinds]
      exact ⟨_, t, rfl, Or.inl ⟨rfl, h⟩⟩
    | some b =>
      obtain ⟨hb, hfull, el, hbucket, hm⟩ := hfinds
      obtain ⟨v, hwrite, hv, _⟩ := h.write (mem_occupied.mpr ⟨hb, hfull, Finset.notMem_empty b⟩)
        hbucket write
      simp only [hwrite, hm, Option.bind_some]
      exact ⟨_, v, rfl, Or.inl ⟨rfl, hv⟩⟩

/-- The same for a run from a table on. -/
theorem runCalls_holds (calls : List (MapCall κ ε)) (h : t.Holds hash m) :
    ∃ replies u, runCalls hash alloc (limit + 1) calls t = some (replies, u) ∧
      (replies = (meanings m calls).1 ∧ u.Holds hash (meanings m calls).2 ∨
        ∃ n < calls.length, ∃ k, replies = (meanings m (calls.take n)).1 ++ [.no_memory] ∧
          u.Stores ∅ (meanings m (calls.take n)).2 ∧ alloc (2 ^ k) = false) := by
  induction calls generalizing t m with
  | nil => exact ⟨[], t, rfl, Or.inl ⟨rfl, h⟩⟩
  | cons call calls ih =>
    obtain ⟨reply, v, hrun, hstep⟩ := call.run_step hmem h
    unfold runCalls
    simp only [hrun, Option.bind_eq_bind, Option.bind_some]
    rcases hstep with ⟨hreply, hv⟩ | ⟨rfl, hv, k, hno⟩
    · obtain ⟨replies, u, hrest, hres⟩ := ih hv
      refine ⟨reply :: replies, u, ?_, ?_⟩
      · cases reply with
        | no_memory => exact absurd hreply.symm call.meaning_granted
        | element el => simp [hrest]
        | missing => simp [hrest]
      · rcases hres with ⟨hreplies, hu⟩ | ⟨n, hn, k, hreplies, hu, hno⟩
        · refine Or.inl ⟨?_, hu⟩
          rw [meanings, hreply, hreplies]
        · refine Or.inr ⟨n + 1, Nat.succ_lt_succ hn, k, ?_, hu, hno⟩
          rw [List.take_succ_cons, meanings, hreply, hreplies]
          rfl
    · exact ⟨_, v, rfl, Or.inr ⟨0, Nat.succ_pos _, k, rfl, hv, hno⟩⟩

end

/-- Whatever the hash function gives and whenever memory ends, a run from the empty map
on sees what it sees of a finite map, up to the first insertion without memory. -/
theorem a_run_of_the_map_is_one_of_a_finite_map (hash : κ → BitVec 64) (alloc : Nat → Bool)
    (limit : Nat) (hmem : ∀ cap, 2 ^ limit ≤ cap → alloc cap = false)
    (calls : List (MapCall κ ε)) :
    ∃ replies u, runCalls hash alloc (limit + 1) calls cc_map_placeholder = some (replies, u) ∧
      (replies = (meanings (fun _ => none) calls).1 ∨
        ∃ n < calls.length, ∃ k, alloc (2 ^ k) = false ∧
          replies = (meanings (fun _ => none) (calls.take n)).1 ++ [.no_memory]) := by
  obtain ⟨replies, u, hrun, hres⟩ := runCalls_holds hmem calls (cc_map_placeholder.holds hash)
  refine ⟨replies, u, hrun, ?_⟩
  rcases hres with ⟨hreplies, _⟩ | ⟨n, hn, k, hreplies, _, hno⟩
  · exact Or.inl hreplies
  · exact Or.inr ⟨n, hn, k, hno, hreplies⟩

/-- Two keys with one hash code, and memory for 8 buckets. -/
theorem a_run_of_three_calls_is_one_of_a_finite_map :
    ∃ replies u, runCalls (fun _ => 0) (fun cap => decide (cap < 2 ^ 4)) (4 + 1)
        [.insert 5 1 false (· + 1), .insert 13 2 false id, .get 5 id] cc_map_placeholder =
        some (replies, u) ∧
      (replies = (meanings (fun _ => none)
          [.insert 5 1 false (· + 1), .insert 13 2 false id, .get 5 id]).1 ∨
        ∃ n < [MapCall.insert 5 1 false (· + 1), .insert 13 2 false id, .get 5 id].length, ∃ k,
          decide (2 ^ k < 2 ^ 4) = false ∧
          replies = (meanings (fun _ => none)
            ([.insert 5 1 false (· + 1), .insert 13 2 false id, .get 5 id].take n)).1 ++
              [.no_memory]) :=
  a_run_of_the_map_is_one_of_a_finite_map _ _ 4 (fun _ h => decide_eq_false (Nat.not_lt.mpr h)) _

end riscv_assembler
