-- Which texts are words: the walk over the trie finds a word of the vocabulary
-- where one stands, and also where only its first byte with the top bit cleared
-- would spell one.
import Mathlib.Data.List.TakeWhile
import RiscvAssembler.InstructionLines

open checked scanner c_text

namespace riscv_assembler

variable {σ ε : Type}

/-! ## The top bit -/

/-- The character that the key sets take `c` for: the top bit is ignored. -/
def ascii (c : UInt8) : UInt8 := c &&& 127

theorem ascii_toNat (c : UInt8) : (ascii c).toNat = c.toNat % 128 := by
  unfold ascii
  rw [UInt8.toNat_and]
  exact Nat.and_two_pow_sub_one_eq_mod c.toNat 7

theorem ascii_of_lt {c : UInt8} (h : c.toNat < 128) : ascii c = c := by
  apply UInt8.toNat_inj.mp
  rw [ascii_toNat, Nat.mod_eq_of_lt h]

theorem key_index_ascii (keys : keys2) (c : UInt8) : key_index keys (ascii c) = key_index keys c := by
  unfold key_index
  simp only [key_word_eq, key_frag_eq, ascii_toNat]
  rw [show c.toNat % 128 / 64 % 2 = c.toNat / 64 % 2 by omega,
    show c.toNat % 128 % 64 = c.toNat % 64 by omega]

theorem trie_cell_ascii (keys : keys2) (next : Int) (c : UInt8) :
    trie_cell keys next (ascii c) = trie_cell keys next c := by
  unfold trie_cell
  rw [key_index_ascii]
  simp only [key_word_eq, key_frag_eq, ascii_toNat]
  rw [show c.toNat % 128 / 64 % 2 = c.toNat / 64 % 2 by omega,
    show c.toNat % 128 % 64 = c.toNat % 64 by omega]

theorem trie_lookup_ascii (tbase : List trie) (aux : List Int) (pos : trie) (here : UInt8)
    (w : List UInt8) :
    trie_lookup tbase aux pos (ascii here) w = trie_lookup tbase aux pos here w := by
  cases w with
  | nil => simp only [trie_lookup, trie_cell_ascii]
  | cons x w => simp only [trie_lookup, trie_cell_ascii]

/-- A character that the node has no key and no term for ends every walk. -/
theorem trie_lookup_absent {tbase : List trie} {aux : List Int} {pos : trie} {here : UInt8}
    (hlt : here.toNat < 128) (hkey : hasKey pos.keys here = false)
    (hterm : hasKey pos.terms here = false) (w : List UInt8) :
    trie_lookup tbase aux pos here w = .ok none := by
  cases w with
  | nil =>
    unfold trie_lookup
    rw [trie_cell_absent _ hlt hterm]
    rfl
  | cons x w =>
    unfold trie_lookup
    rw [trie_cell_absent _ hlt hkey]
    rfl

/-! ## The walk from the root -/

/-- No word starts with NUL or with `@`, the two codes that the shift of a rank
fails on. -/
theorem root_has_no_code_zero {root : trie} (hroot : load tbase 0 = .ok root) {c : UInt8}
    (hc : c = 0 ∨ c = 64) : hasKey root.keys c = false ∧ hasKey root.terms c = false := by
  have hkeys : (load tbase 0).map (fun root => (hasKey root.keys 0, hasKey root.terms 0,
      hasKey root.keys 64, hasKey root.terms 64)) = .ok (false, false, false, false) := by
    decide +kernel
  rw [hroot] at hkeys
  have hkeys := Except.ok.inj hkeys
  simp only [Prod.mk.injEq] at hkeys
  obtain ⟨h0, h0', h64, h64'⟩ := hkeys
  rcases hc with rfl | rfl
  · exact ⟨h0, h0'⟩
  · exact ⟨h64, h64'⟩

theorem identifier_keyCode (c : UInt8) : identifier c = true → KeyCode c :=
  (forall_byte (by decide +kernel) : ∀ c, identifier c = true → KeyCode c) c

/-- The walk always ends, with the number of the word that the bytes spell once
the top bit of the first is cleared. -/
theorem trie_lookup_root : ∃ root, load tbase 0 = .ok root ∧
    ∀ here w, (∀ x ∈ w, identifier x = true) →
      ∃ r, trie_lookup tbase tbase_auxiliary root here w = .ok r ∧
        ∀ data, r = some data ↔ (ascii here :: w, data) ∈ vocabulary_words := by
  obtain ⟨root, hroot, hans⟩ := instruction_trie_recognises
  refine ⟨root, hroot, fun here w hw => ?_⟩
  rw [← trie_lookup_ascii]
  have hlt : (ascii here).toNat < 128 := by
    rw [ascii_toNat]
    exact Nat.mod_lt _ (by decide)
  by_cases hcode : KeyCode (ascii here)
  · exact hans _ w hcode fun x hx => identifier_keyCode x (hw x hx)
  · have hzero : ascii here = 0 ∨ ascii here = 64 := by
      unfold KeyCode at hcode
      rw [← UInt8.toNat_inj, ← UInt8.toNat_inj]
      simp only [UInt8.reduceToNat]
      omega
    obtain ⟨hkey, hterm⟩ := root_has_no_code_zero hroot hzero
    refine ⟨none, trie_lookup_absent hlt hkey hterm w, fun data => ?_⟩
    simp only [reduceCtorEq, false_iff]
    exact fun hmem => hcode (vocabulary_words_codes _ hmem _ List.mem_cons_self)

/-! ## Words of the vocabulary -/

theorem vocable.number_injective {u v : vocable} (h : (u.number : Int) = v.number) : u = v := by
  have huv := congrArg vocable.ofNumber h
  rw [vocable.ofNumber_number, vocable.ofNumber_number] at huv
  exact Option.some.inj huv

/-- The bytes are the word that was inserted for `v`. -/
def Spelled (word : List UInt8) (v : vocable) : Prop := ∃ m, (m, v) ∈ vocabulary ∧ chars m = word

theorem spelled_iff (word : List UInt8) (v : vocable) :
    Spelled word v ↔ (word, (v.number : Int)) ∈ vocabulary_words := by
  unfold Spelled vocabulary_words
  rw [List.mem_map]
  constructor
  · rintro ⟨m, hm, rfl⟩
    exact ⟨_, hm, rfl⟩
  · rintro ⟨⟨m, u⟩, hm, heq⟩
    obtain ⟨hword, hnum⟩ := Prod.mk.inj heq
    exact ⟨m, vocable.number_injective hnum ▸ hm, hword⟩

theorem Spelled.ascii {here : UInt8} {w : List UInt8} {v : vocable} (h : Spelled (here :: w) v) :
    here.toNat < 128 :=
  (vocabulary_words_codes _ ((spelled_iff _ v).mp h) _ List.mem_cons_self).2.1

/-- What `parse_word` makes of a text with a first byte and the identifier
characters behind it. -/
theorem parse_word_run (here : UInt8) {w : List UInt8} (hw : ∀ x ∈ w, identifier x = true)
    {c : UInt8} (hc : identifier c = false) (rest : List UInt8) (s : σ) :
    (∀ v, Spelled (ascii here :: w) v →
      (parse_word : Scan σ ε (Option Int)) (here :: (w ++ c :: rest)) s =
        .ok (.ok (some (v.number : Int), c :: rest), s)) ∧
    ((∀ v, ¬ Spelled (ascii here :: w) v) →
      (parse_word : Scan σ ε (Option Int)) (here :: (w ++ c :: rest)) s =
        .ok (.ok (none, here :: (w ++ c :: rest)), s)) := by
  obtain ⟨root, hroot, hans⟩ := trie_lookup_root
  obtain ⟨r, hlookup, hdata⟩ := hans here w hw
  have htbase : (tbase_root : Scan σ ε trie) (here :: (w ++ c :: rest)) s =
      .ok (.ok (root, here :: (w ++ c :: rest)), s) := by
    rw [tbase_root, hroot]
    rfl
  obtain ⟨text, hwalk, htext⟩ := trie_walk_word (ε := ε) hw hc (mem_of_load hroot) hlookup rest s
  rw [parse_word, bind_run_ok cursor_run, bind_run_ok htbase, bind_run_ok (next_cons here),
    bind_run_ok hwalk]
  constructor
  · intro v hv
    have hr := (hdata _).mpr ((spelled_iff _ v).mp hv)
    rw [htext (by rw [hr]; rfl), hr]
    rfl
  · intro hno
    have hnone : r = none := by
      cases r with
      | none => rfl
      | some data =>
        have hmem := (hdata data).mp rfl
        obtain ⟨⟨m, v⟩, hm, heq⟩ := List.mem_map.mp hmem
        exact absurd ⟨m, hm, (Prod.mk.inj heq).1⟩ (hno v)
    rw [hnone]
    rfl

/-! ## Lines -/

/-- The line is recognised by the word it starts with, `here` and the identifier
characters behind it, and by nothing else. -/
structure FindsItsWord (blanks : List UInt8) (here : UInt8) (tail : List UInt8) (p : Process) :
    Prop where
  found : ∀ v, (parse_word : Parse String (Option Int)) (here :: tail) p =
      .ok (.ok (some (v.number : Int), tail.dropWhile identifier), p) ↔
    Spelled (here :: tail.takeWhile identifier) v
  other : (∀ v, ¬ Spelled (here :: tail.takeWhile identifier) v) →
    parse_line (blanks ++ here :: tail) p =
      (parse_label >>= fun _ => out_check_line) (here :: tail) p
  no_assert : ∀ k rest p', (parse_word : Parse String (Option Int)) (here :: tail) p =
      .ok (.ok (some k, rest), p') → ∃ v, vocable.ofNumber k = some v

/-- The first byte has its top bit set, and without it a word would start here. -/
def HidesWord (here : UInt8) (tail : List UInt8) : Prop :=
  128 ≤ here.toNat ∧ ∃ v, Spelled (ascii here :: tail.takeWhile identifier) v

theorem HidesWord.not_spelled {here : UInt8} {tail w : List UInt8} (h : HidesWord here tail)
    (v : vocable) : ¬ Spelled (here :: w) v := fun hs => by
  have := hs.ascii
  have := h.1
  omega

/-- The top bit changes nothing when it hides no word. -/
theorem spelled_of_not_hidden {here : UInt8} {tail : List UInt8} (h : ¬ HidesWord here tail)
    (v : vocable) : Spelled (ascii here :: tail.takeWhile identifier) v ↔
      Spelled (here :: tail.takeWhile identifier) v := by
  by_cases hlt : here.toNat < 128
  · rw [ascii_of_lt hlt]
  · constructor
    · intro hs
      exact absurd ⟨Nat.le_of_not_lt hlt, v, hs⟩ h
    · intro hs
      exact absurd hs.ascii hlt

/-- A line is a statement after its blanks. -/
theorem parse_line_statement {blanks : List UInt8} (hblanks : Blanks blanks) {here : UInt8}
    (hhere : whitespace here = false) (hnl : here ≠ ch '\n') (tail : List UInt8) (p : Process) :
    parse_line (blanks ++ here :: tail) p =
      (parse_statement >>= fun _ => out_check_line) (here :: tail) p := by
  rw [parse_line, bind_run_ok cursor_run, bind_run_ok (skip_whitespace_run hblanks hhere _ p),
    bind_run_ok (peek_cons here), if_neg hnl]

/-- The walk finds exactly the words of the vocabulary, in every text, unless
the top bit of the first byte hides one. -/
theorem the_walk_finds_exactly_its_words_iff_the_top_bit_hides_none (blanks : List UInt8)
    (here : UInt8) (tail : List UInt8) (p : Process) (hblanks : Blanks blanks)
    (hhere : whitespace here = false) (hnl : here ≠ ch '\n')
    (hend : ∃ c ∈ tail, identifier c = false) :
    FindsItsWord blanks here tail p ↔ ¬ HidesWord here tail := by
  obtain ⟨c, rest, hdrop, hc, htail⟩ := split_while hend
  have hw : ∀ x ∈ tail.takeWhile identifier, identifier x = true := fun _ => List.mem_takeWhile_imp
  obtain ⟨hsome, hnone⟩ := parse_word_run (ε := String) here hw hc rest p
  rw [← htail] at hsome hnone
  rw [← hdrop] at hsome
  constructor
  · intro hfinds hhides
    obtain ⟨v, hv⟩ := hhides.2
    exact hhides.not_spelled v ((hfinds.found v).mp (hsome v hv))
  · intro hhides
    simp only [spelled_of_not_hidden hhides] at hsome hnone
    by_cases hany : ∃ u, Spelled (here :: tail.takeWhile identifier) u
    · obtain ⟨u, hu⟩ := hany
      refine ⟨fun v => ⟨fun hrun => ?_, hsome v⟩, fun hno => absurd hu (hno u),
        fun k rest' p' hrun => ?_⟩
      · rw [hsome u hu] at hrun
        injection hrun with hrun
        have hnum := (Prod.mk.inj (Except.ok.inj (Prod.mk.inj hrun).1)).1
        exact vocable.number_injective (Option.some.inj hnum) ▸ hu
      · rw [hsome u hu] at hrun
        cases hrun
        exact ⟨u, vocable.ofNumber_number u⟩
    · have hno : ∀ u, ¬ Spelled (here :: tail.takeWhile identifier) u := not_exists.mp hany
      have hword := hnone hno
      refine ⟨fun v => ⟨fun hrun => ?_, fun hv => absurd hv (hno v)⟩, fun _ => ?_,
        fun k rest' p' hrun => ?_⟩
      · rw [hword] at hrun
        cases hrun
      · have hstatement : parse_statement (here :: tail) p = parse_label (here :: tail) p := by
          rw [parse_statement, bind_run_ok hword]
        rw [parse_line_statement hblanks hhere hnl, bind_run, bind_run, hstatement]
      · rw [hword] at hrun
        cases hrun

/-- The byte `0xae` is a dot with its top bit set. -/
theorem a_byte_outside_ascii_is_taken_for_a_dot :
    ¬ ∀ (blanks : List UInt8) (here : UInt8) (tail : List UInt8) (p : Process), Blanks blanks →
      whitespace here = false → here ≠ ch '\n' → (∃ c ∈ tail, identifier c = false) →
      FindsItsWord blanks here tail p := by
  intro hall
  have hfinds := hall [] 0xae (chars "byte 1\n") ⟨0, .fresh 0 0⟩ (fun _ h => nomatch h) (by decide)
    (by decide) ⟨ch ' ', by decide, by decide⟩
  have hword : Spelled (ascii 0xae :: chars "byte") (.directive .K_BYTE) :=
    ⟨".byte", by decide, by decide⟩
  have hrun := (parse_word_run (ε := String) 0xae (w := chars "byte") (by decide) (c := ch ' ')
    (by decide) (chars "1\n") (⟨0, .fresh 0 0⟩ : Process)).1 _ hword
  have hspelled := (hfinds.found (.directive .K_BYTE)).mp hrun
  exact absurd hspelled.ascii (by decide)

theorem add_is_found_as_itself :
    FindsItsWord [ch ' '] (ch 'a') (chars "dd x1, x2, x3\n") ⟨0, .fresh 0 0⟩ ↔
      ¬ HidesWord (ch 'a') (chars "dd x1, x2, x3\n") :=
  the_walk_finds_exactly_its_words_iff_the_top_bit_hides_none [ch ' '] (ch 'a') _ _
    (by unfold Blanks; decide) (by decide) (by decide) ⟨ch ' ', by decide, by decide⟩

end riscv_assembler
