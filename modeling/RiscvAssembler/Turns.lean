-- The loops of the parser, turn by turn: the walk over the trie, the loop of a
-- literal and the loop of a data array.
import RiscvAssembler.Parser

open checked scanner c_text

namespace riscv_assembler

variable {σ ε : Type}

/-! ## The walk over the trie -/

/-- One turn of the walk: the node for the next character, if there is one. -/
def trie_turn (pos : trie) (here : UInt8) : Result (Option trie) := do
  let nextidx ← trie_next pos here
  if nextidx < 0 then .ok none
  else do
    let n ← load tbase_auxiliary nextidx
    let pos ← load tbase n
    .ok (some pos)

/-- The last turn: the number of the word that ends at the node. -/
def trie_end (pos : trie) (here : UInt8) : Result (Option Int) := do
  let termidx ← trie_term pos here
  if termidx < 0 then .ok none
  else do
    let operation ← load tbase_auxiliary termidx
    .ok (some operation)

/-- The walk stays in the array. -/
theorem trie_turn_mem {pos pos' : trie} {here : UInt8} (h : trie_turn pos here = .ok (some pos')) :
    pos' ∈ tbase := by
  obtain ⟨nextidx, _, h⟩ := bind_eq_ok.mp h
  split at h
  · cases h
  · obtain ⟨n, _, h⟩ := bind_eq_ok.mp h
    obtain ⟨pos1, hload, h⟩ := bind_eq_ok.mp h
    cases h
    exact mem_of_load hload

theorem trie_walk_turn {c : UInt8} (hc : identifier c = true) (pos : trie) (here : UInt8)
    (text : List UInt8) (s : σ) :
    (trie_walk pos here : Scan σ ε (Option Int)) (c :: text) s = trie_turn pos here >>= fun r =>
      r.elim (.ok (.ok (none, c :: text), s)) fun pos => trie_walk pos c text s := by
  rw [trie_walk, trie_turn, if_neg (not_not.mpr hc)]
  rcases trie_next pos here with f | nextidx
  · rfl
  · by_cases hneg : nextidx < 0
    · simp only [ok_bind, if_pos hneg]
      rfl
    · simp only [ok_bind, if_neg hneg]
      rcases load tbase_auxiliary nextidx with f | n
      · rfl
      · simp only [ok_bind]
        rcases load tbase n with f | pos'
        · rfl
        · rfl

/-- The walk ends before a byte that is no character of an identifier. -/
theorem trie_walk_end {c : UInt8} (hc : identifier c = false) (pos : trie) (here : UInt8)
    (text : List UInt8) (s : σ) :
    (trie_walk pos here : Scan σ ε (Option Int)) (c :: text) s =
      trie_end pos here >>= fun r => .ok (.ok (r, c :: text), s) := by
  rw [trie_walk, trie_end, hc, if_pos (by decide)]
  rcases trie_term pos here with f | termidx
  · rfl
  · by_cases hneg : termidx < 0
    · simp only [ok_bind, if_pos hneg]
    · simp only [ok_bind, if_neg hneg]
      rcases load tbase_auxiliary termidx with f | operation
      · rfl
      · rfl

/-! ## The walk against the trie -/

theorem trie_lookup_end {pos : trie} (hpos : pos ∈ tbase) (here : UInt8) :
    trie_lookup tbase tbase_auxiliary pos here [] = trie_end pos here := by
  rw [trie_lookup, trie_end, (tbase_cells hpos here).2]

theorem trie_lookup_turn {pos : trie} (hpos : pos ∈ tbase) (here c : UInt8) (w : List UInt8) :
    trie_lookup tbase tbase_auxiliary pos here (c :: w) = trie_turn pos here >>= fun r =>
      r.elim (.ok none) fun pos => trie_lookup tbase tbase_auxiliary pos c w := by
  rw [trie_lookup, trie_turn, (tbase_cells hpos here).1]
  rcases trie_cell pos.keys pos.next here with f | nextidx
  · rfl
  · by_cases hneg : nextidx < 0
    · simp only [ok_bind, if_pos hneg]
      rfl
    · simp only [ok_bind, if_neg hneg]
      rcases load tbase_auxiliary nextidx with f | n
      · rfl
      · simp only [ok_bind]
        rcases load tbase n with f | pos'
        · rfl
        · rfl

/-- From a node of the array the walk gives what the trie has for the word up to `c`.
It goes past the word if it finds it. -/
theorem trie_walk_word {w : List UInt8} (hw : ∀ x ∈ w, identifier x = true) {c : UInt8}
    (hc : identifier c = false) {pos : trie} {here : UInt8} (hpos : pos ∈ tbase) {r : Option Int}
    (h : trie_lookup tbase tbase_auxiliary pos here w = .ok r) (rest : List UInt8) (s : σ) :
    ∃ text, (trie_walk pos here : Scan σ ε (Option Int)) (w ++ c :: rest) s =
      .ok (.ok (r, text), s) ∧ (r.isSome → text = c :: rest) := by
  induction w generalizing pos here with
  | nil =>
    rw [trie_lookup_end hpos] at h
    exact ⟨c :: rest, by rw [List.nil_append, trie_walk_end hc, h, ok_bind], fun _ => rfl⟩
  | cons x w ih =>
    rw [trie_lookup_turn hpos] at h
    obtain ⟨next, hturn, h⟩ := bind_eq_ok.mp h
    rw [List.cons_append, trie_walk_turn (hw x List.mem_cons_self), hturn, ok_bind]
    cases next with
    | none =>
      cases h
      exact ⟨_, rfl, fun hsome => by cases hsome⟩
    | some pos' =>
      exact ih (fun y hy => hw y (List.mem_cons_of_mem x hy)) (trie_turn_mem hturn) h

/-- A walk moves past identifier characters, and it finds a word only before a
byte that is none. -/
theorem trie_walk.moves {pos : trie} {here : UInt8} {text rest : List UInt8} {s s' : σ}
    {r : Option Int}
    (h : (trie_walk pos here : Scan σ ε (Option Int)) text s = .ok (.ok (r, rest), s')) :
    (∃ used, text = used ++ rest ∧ ∀ x ∈ used, identifier x = true) ∧
      (r.isSome → ∃ c rest', rest = c :: rest' ∧ identifier c = false) := by
  induction text generalizing pos here with
  | nil => cases h
  | cons c text ih =>
    by_cases hc : identifier c = true
    · rw [trie_walk_turn hc] at h
      obtain ⟨next, _, h⟩ := bind_eq_ok.mp h
      cases next with
      | none =>
        cases h
        exact ⟨⟨[], rfl, List.forall_mem_nil _⟩, fun hsome => by cases hsome⟩
      | some pos' =>
        obtain ⟨⟨used, rfl, hused⟩, hstop⟩ := ih h
        exact ⟨⟨c :: used, rfl, List.forall_mem_cons.mpr ⟨hc, hused⟩⟩, hstop⟩
    · rw [Bool.not_eq_true] at hc
      rw [trie_walk_end hc] at h
      obtain ⟨operation, _, h⟩ := bind_eq_ok.mp h
      cases h
      exact ⟨⟨[], rfl, List.forall_mem_nil _⟩, fun _ => ⟨c, text, rfl, hc⟩⟩

/-! ## The loop of a literal -/

/-- The runs of the loop of a literal, turn by turn: each turn but the last reads
one character and puts its byte into the section. -/
theorem parse_string_loop_induct {r : Except String (Unit × List UInt8)} {p' : Process}
    {motive : List UInt8 → Process → Prop}
    (quote : ∀ rest, r = .ok ((), rest) → motive (ch '"' :: rest) p')
    (failed : ∀ text e, r = .error e → motive text p')
    (turn : ∀ used text p c em, emitter_buffer p.em [c] = .ok em → motive text { p with em } →
      motive (used ++ text) p) :
    ∀ (text : List UInt8) (p : Process), parse_string_loop text p = .ok (r, p') → motive text p
  | [], p, h => by cases h
  | c :: text, p, h => by
    by_cases hquote : c = ch '"'
    · subst hquote
      rw [parse_string_loop_quote] at h
      cases h
      exact quote text rfl
    · by_cases hstop : c = 0 ∨ c = ch '\n'
      · rw [parse_string_loop_end hstop] at h
        cases h
        exact failed _ _ rfl
      · by_cases hescape : c = ch '\\'
        · subst hescape
          rcases text with _ | ⟨e, text⟩
          · cases h
          · rw [parse_string_loop_escape] at h
            rcases he : escape e with err | d <;> rw [he] at h
            · cases h
              exact failed _ _ rfl
            · obtain ⟨em, hem, h⟩ := bind_eq_ok.mp h
              exact turn [_, e] text p d em hem
                (parse_string_loop_induct quote failed turn text _ h)
        · rw [parse_string_loop_plain hquote hstop hescape] at h
          obtain ⟨em, hem, h⟩ := bind_eq_ok.mp h
          exact turn [c] text p c em hem (parse_string_loop_induct quote failed turn text _ h)

/-! ## The loop of a data array -/

/-- The runs of the loop of a data array, element by element. -/
theorem parse_data_loop_induct {bytes : Nat} {r : Except String (Nat × List UInt8)} {p' : Process}
    {motive : List UInt8 → Process → Prop}
    (failed : ∀ text p e, parse_data_element bytes text p = .ok (.error e, p') → r = .error e →
      motive text p)
    (last : ∀ text p n rest, parse_data_element bytes text p = .ok (.ok (false, rest), p') →
      r = .ok (n, rest) → motive text p)
    (turn : ∀ text p mid p1, parse_data_element bytes text p = .ok (.ok (true, mid), p1) →
      motive mid p1 → motive text p)
    (k : Nat) (text : List UInt8) (p : Process)
    (h : parse_data_loop bytes k text p = .ok (r, p')) : motive text p := by
  rw [parse_data_loop_eq] at h
  rcases bind_eq_ok_cases h with ⟨e, h1, he⟩ | ⟨more, mid, p1, h1, h2⟩
  · exact failed text p e h1 he
  · have hshort := parse_data_element_shortens h1
    cases more with
    | false =>
      cases h2
      exact last text p _ mid h1 rfl
    | true =>
      exact turn text p mid p1 h1 (parse_data_loop_induct failed last turn _ mid p1 h2)
termination_by text.length

end riscv_assembler
