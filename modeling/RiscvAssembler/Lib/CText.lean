-- The parts of the C library that read text: character constants, `isspace`
-- and `strtoll` with base 0.
import RiscvAssembler.Lib.Checked

open checked

namespace c_text

/-- A character constant. -/
def ch (c : Char) : UInt8 := UInt8.ofNat c.toNat

/-- The bytes of a string literal, without the NUL. -/
def chars (s : String) : List UInt8 := s.toList.map ch

def isspace (c : UInt8) : Bool := c == ch ' ' || (9 ≤ c && c ≤ 13)

/-- The value of a digit: a letter counts from ten on. -/
def digitValue (c : UInt8) : Option Nat :=
  if ch '0' ≤ c ∧ c ≤ ch '9' then some (c.toNat - 48)
  else if ch 'a' ≤ c ∧ c ≤ ch 'z' then some (c.toNat - 87)
  else if ch 'A' ≤ c ∧ c ≤ ch 'Z' then some (c.toNat - 55)
  else none

/-- The value of a digit of the base. -/
def digitOf (base : Nat) (c : UInt8) : Option Nat := (digitValue c).filter (· < base)

/-- Reads digits until the first byte that is none. `acc` is the number so far. -/
def readDigits (base acc : Nat) : List UInt8 → Result (Nat × List UInt8)
  | [] => .error .outOfBounds
  | c :: text =>
    match digitOf base c with
    | some d => readDigits base (acc * base + d) text
    | none => .ok (acc, c :: text)

def skipSpace : List UInt8 → Result (List UInt8)
  | [] => .error .outOfBounds
  | c :: text => if isspace c then skipSpace text else .ok (c :: text)

/-- Whether the number is negative, and the text after the sign. -/
def readSign : List UInt8 → Result (Bool × List UInt8)
  | [] => .error .outOfBounds
  | c :: text =>
    if c = ch '-' then .ok (true, text)
    else if c = ch '+' then .ok (false, text)
    else .ok (false, c :: text)

/-- The base that base 0 stands for, and where its digits start: `0x` before a
hexadecimal digit, then `0`, then all else. -/
def readBase : List UInt8 → Result (Nat × List UInt8)
  | [] => .error .outOfBounds
  | c :: text =>
    if c ≠ ch '0' then .ok (10, c :: text)
    else match text with
      | [] => .error .outOfBounds
      | x :: after =>
        if ¬ (x = ch 'x' ∨ x = ch 'X') then .ok (8, c :: text)
        else match after with
          | [] => .error .outOfBounds
          | d :: _ => if (digitOf 16 d).isSome then .ok (16, after) else .ok (8, c :: text)

def LLONG_MAX : Int := 9223372036854775807

def LLONG_MIN : Int := -9223372036854775808

def ERANGE : Int := 34

/-- The number and where it ends, before the check of the range. Without a
digit there is no number. -/
def readNumber (text : List UInt8) : Result (Option (Int × List UInt8)) := do
  let text ← skipSpace text
  let (negative, text) ← readSign text
  let (base, text) ← readBase text
  match text with
  | [] => .error .outOfBounds
  | c :: _ =>
    if (digitOf base c).isSome then do
      let (n, rest) ← readDigits base 0 text
      .ok (some (if negative then -(n : Int) else n, rest))
    else .ok none

/-- `strtoll(text, &end, 0)`: the value, `end` and `errno` after the call. A
value out of range becomes the nearest bound, with `ERANGE`. -/
def strtoll (text : List UInt8) (errno : Int) : Result (Int × List UInt8 × Int) := do
  let number ← readNumber text
  match number with
  | none => .ok (0, text, errno)
  | some (z, rest) =>
    if LLONG_MAX < z then .ok (LLONG_MAX, rest, ERANGE)
    else if z < LLONG_MIN then .ok (LLONG_MIN, rest, ERANGE)
    else .ok (z, rest, errno)

/-! ## Where the number ends -/

theorem skipSpace_suffix {text rest : List UInt8} (h : skipSpace text = .ok rest) :
    rest <:+ text := by
  induction text with
  | nil => cases h
  | cons c text ih =>
    unfold skipSpace at h
    split at h
    · exact (ih h).trans (List.suffix_cons c text)
    · cases h
      exact List.suffix_rfl

theorem readSign_suffix {text rest : List UInt8} {b : Bool} (h : readSign text = .ok (b, rest)) :
    rest <:+ text := by
  rcases text with _ | ⟨c, text⟩
  · cases h
  · simp only [readSign] at h
    split at h
    · cases h
      exact List.suffix_cons c _
    · split at h
      · cases h
        exact List.suffix_cons c _
      · cases h
        exact List.suffix_rfl

theorem readBase_suffix {text rest : List UInt8} {base : Nat}
    (h : readBase text = .ok (base, rest)) : rest <:+ text := by
  rcases text with _ | ⟨c, text⟩
  · cases h
  · simp only [readBase] at h
    split at h
    · cases h
      exact List.suffix_rfl
    · rcases text with _ | ⟨x, text⟩
      · cases h
      · simp only at h
        split at h
        · cases h
          exact List.suffix_rfl
        · rcases text with _ | ⟨d, text⟩
          · cases h
          · simp only at h
            split at h
            · cases h
              exact (List.suffix_cons x _).trans (List.suffix_cons c _)
            · cases h
              exact List.suffix_rfl

theorem readDigits_suffix {base acc n : Nat} {text rest : List UInt8}
    (h : readDigits base acc text = .ok (n, rest)) : rest <:+ text := by
  induction text generalizing acc with
  | nil => cases h
  | cons c text ih =>
    unfold readDigits at h
    split at h
    · exact (ih h).trans (List.suffix_cons c text)
    · cases h
      exact List.suffix_rfl

theorem readNumber_suffix {text rest : List UInt8} {z : Int}
    (h : readNumber text = .ok (some (z, rest))) : rest <:+ text := by
  obtain ⟨t1, h1, h⟩ := bind_eq_ok.mp h
  obtain ⟨⟨b, t2⟩, h2, h⟩ := bind_eq_ok.mp h
  obtain ⟨⟨base, t3⟩, h3, h⟩ := bind_eq_ok.mp h
  refine List.IsSuffix.trans ?_
    ((readBase_suffix h3).trans ((readSign_suffix h2).trans (skipSpace_suffix h1)))
  rcases t3 with _ | ⟨c, t3⟩
  · cases h
  · simp only at h
    split at h
    · obtain ⟨⟨n, t4⟩, h4, h⟩ := bind_eq_ok.mp h
      cases h
      exact readDigits_suffix h4
    · cases h

theorem strtoll_suffix {text rest : List UInt8} {errno errno' res : Int}
    (h : strtoll text errno = .ok (res, rest, errno')) : rest <:+ text := by
  obtain ⟨number, h1, h⟩ := bind_eq_ok.mp h
  rcases number with _ | ⟨z, t⟩
  · cases h
    exact List.suffix_rfl
  · have hsuf := readNumber_suffix h1
    simp only at h
    split at h
    · cases h
      exact hsuf
    · split at h
      · cases h
        exact hsuf
      · cases h
        exact hsuf

/-- A number has a digit at least. -/
theorem readNumber_shortens {text rest : List UInt8} {z : Int}
    (h : readNumber text = .ok (some (z, rest))) : rest.length < text.length := by
  obtain ⟨t1, h1, h⟩ := bind_eq_ok.mp h
  obtain ⟨⟨b, t2⟩, h2, h⟩ := bind_eq_ok.mp h
  obtain ⟨⟨base, t3⟩, h3, h⟩ := bind_eq_ok.mp h
  have hsuffix := (readBase_suffix h3).trans ((readSign_suffix h2).trans (skipSpace_suffix h1))
  rcases t3 with _ | ⟨c, t3⟩
  · cases h
  · simp only at h
    split at h
    · rename_i hdigit
      obtain ⟨⟨n, t4⟩, h4, h⟩ := bind_eq_ok.mp h
      cases h
      obtain ⟨d, hd⟩ := Option.isSome_iff_exists.mp hdigit
      unfold readDigits at h4
      simp only [hd] at h4
      have hdigits := (readDigits_suffix h4).length_le
      have hbefore := hsuffix.length_le
      simp only [List.length_cons] at hbefore ⊢
      omega
    · cases h

/-! ## Literals -/

/-- A property of bytes that can be checked for each of the 256. -/
theorem forall_byte {P : UInt8 → Prop} (h : ∀ n < 256, P (UInt8.ofNat n)) (c : UInt8) : P c := by
  have := h c.toNat c.toNat_lt
  rwa [UInt8.ofNat_toNat] at this

/-- `ds` are digits of the base, and `m` is the number after them when `n` was
the one before. -/
inductive Digits (base : Nat) : Nat → List UInt8 → Nat → Prop
  | nil (n : Nat) : Digits base n [] n
  | cons {n m d : Nat} {c : UInt8} {ds : List UInt8} :
      digitOf base c = some d → Digits base (n * base + d) ds m → Digits base n (c :: ds) m

/-- A number without a sign, in decimal, in octal or in hexadecimal. -/
inductive Unsigned : List UInt8 → Nat → Prop
  | dec {c : UInt8} {ds : List UInt8} {n : Nat} :
      c ≠ ch '0' → Digits 10 0 (c :: ds) n → Unsigned (c :: ds) n
  | oct {ds : List UInt8} {n : Nat} : Digits 8 0 ds n → Unsigned (ch '0' :: ds) n
  | hex {x c : UInt8} {ds : List UInt8} {n : Nat} :
      x = ch 'x' ∨ x = ch 'X' → Digits 16 0 (c :: ds) n → Unsigned (ch '0' :: x :: c :: ds) n

/-- An integer literal and its value. -/
inductive Literal : List UInt8 → Int → Prop
  | plain {text : List UInt8} {n : Nat} : Unsigned text n → Literal text n
  | plus {text : List UInt8} {n : Nat} : Unsigned text n → Literal (ch '+' :: text) n
  | minus {text : List UInt8} {n : Nat} : Unsigned text n → Literal (ch '-' :: text) (-n)

theorem digitOf_of_not_digit {c : UInt8} (h : digitValue c = none) (base : Nat) :
    digitOf base c = none := by
  rw [digitOf, h]
  rfl

theorem digitOf_digit {base d : Nat} {c : UInt8} (h : digitOf base c = some d) :
    (digitValue c).isSome := by
  rcases hd : digitValue c with _ | n
  · rw [digitOf_of_not_digit hd] at h
    cases h
  · rfl

theorem readDigits_digits {base n m : Nat} {ds : List UInt8} (h : Digits base n ds m) {c : UInt8}
    (hc : digitValue c = none) (rest : List UInt8) :
    readDigits base n (ds ++ c :: rest) = .ok (m, c :: rest) := by
  induction h with
  | nil n => simp only [List.nil_append, readDigits, digitOf_of_not_digit hc]
  | cons hd _ ih => simp only [List.cons_append, readDigits, hd, ih]

theorem Digits.head {base n m : Nat} {c : UInt8} {ds : List UInt8}
    (h : Digits base n (c :: ds) m) : (digitOf base c).isSome := by
  cases h with
  | cons hd _ => rw [hd]; rfl

/-- After a `0`, any byte but `x` leaves the base at eight. -/
theorem readBase_oct {x : UInt8} (hx : ¬ (x = ch 'x' ∨ x = ch 'X')) (text : List UInt8) :
    readBase (ch '0' :: x :: text) = .ok (8, ch '0' :: x :: text) := by
  simp only [readBase, ne_eq, not_true_eq_false, if_false, if_pos hx]

/-- The digits of a number without a sign: where they start, their base and
their value. -/
theorem Unsigned.readBase {text : List UInt8} {n : Nat} (h : Unsigned text n) {c : UInt8}
    (hc : digitValue c = none) (rest : List UInt8) :
    ∃ base first ds, c_text.readBase (text ++ c :: rest) = .ok (base, first :: ds ++ c :: rest) ∧
      Digits base 0 (first :: ds) n := by
  have hx : ∀ x, x = ch 'x' ∨ x = ch 'X' → digitValue x = some 33 ∧ digitOf 8 x = none := by
    rintro x (rfl | rfl) <;> decide
  rcases h with ⟨hne, hds⟩ | @⟨ds, _, hds⟩ | ⟨hxx, hds⟩
  · refine ⟨10, _, _, ?_, hds⟩
    simp only [List.cons_append, c_text.readBase, if_pos hne]
  · have hzero : Digits 8 0 (ch '0' :: ds) n := Digits.cons (d := 0) (by decide) hds
    refine ⟨8, _, _, ?_, hzero⟩
    rcases ds with _ | ⟨d, ds⟩
    · refine readBase_oct (fun hcx => ?_) rest
      rw [(hx c hcx).1] at hc
      cases hc
    · refine readBase_oct (fun hdx => ?_) _
      have hd := hds.head
      rw [(hx d hdx).2] at hd
      cases hd
  · refine ⟨16, _, _, ?_, hds⟩
    simp only [List.cons_append, c_text.readBase, ne_eq, not_true_eq_false, if_false, hxx,
      hds.head, if_true]

theorem skipSpace_append {blanks : List UInt8} (hb : ∀ x ∈ blanks, isspace x = true) {c : UInt8}
    (hc : isspace c = false) (rest : List UInt8) :
    skipSpace (blanks ++ c :: rest) = .ok (c :: rest) := by
  induction blanks with
  | nil => simp [skipSpace, hc]
  | cons x blanks ih =>
    simp only [List.cons_append, skipSpace, if_pos (hb x List.mem_cons_self)]
    exact ih fun y hy => hb y (List.mem_cons_of_mem x hy)

/-- The first byte of a number without a sign is a digit. -/
theorem Unsigned.head {text : List UInt8} {n : Nat} (h : Unsigned text n) :
    ∃ c ds, text = c :: ds ∧ isspace c = false ∧ c ≠ ch '-' ∧ c ≠ ch '+' := by
  have hdigit : ∀ c : UInt8, (digitValue c).isSome →
      isspace c = false ∧ c ≠ ch '-' ∧ c ≠ ch '+' := forall_byte (by decide +kernel)
  rcases h with ⟨_, hds⟩ | hds | ⟨_, hds⟩
  · obtain ⟨d, hd⟩ := Option.isSome_iff_exists.mp hds.head
    exact ⟨_, _, rfl, hdigit _ (digitOf_digit hd)⟩
  · exact ⟨_, _, rfl, hdigit _ (by decide)⟩
  · exact ⟨_, _, rfl, hdigit _ (by decide)⟩

/-- What is read once the sign is known. -/
theorem Unsigned.readAfterSign {text : List UInt8} {n : Nat} (h : Unsigned text n) {c : UInt8}
    (hc : digitValue c = none) (rest : List UInt8) (negative : Bool) :
    (c_text.readBase (text ++ c :: rest) >>= fun (base, text) =>
      match text with
      | [] => .error .outOfBounds
      | c :: _ =>
        if (digitOf base c).isSome then do
          let (n, rest) ← readDigits base 0 text
          .ok (some (if negative then -(n : Int) else n, rest))
        else .ok none) = .ok (some (if negative then -(n : Int) else n, c :: rest)) := by
  obtain ⟨base, first, ds, hbase, hds⟩ := h.readBase hc rest
  have hread := readDigits_digits hds hc rest
  rw [hbase, ok_bind]
  simp only [List.cons_append, hds.head, if_true] at hread ⊢
  rw [hread, ok_bind]

/-- A literal after blanks, before a byte that is no digit. -/
theorem Literal.readNumber {text : List UInt8} {z : Int} (h : Literal text z)
    {blanks : List UInt8} (hb : ∀ x ∈ blanks, isspace x = true) {c : UInt8}
    (hc : digitValue c = none) (rest : List UInt8) :
    c_text.readNumber (blanks ++ (text ++ c :: rest)) = .ok (some (z, c :: rest)) := by
  unfold c_text.readNumber
  rcases h with hu | hu | hu
  · obtain ⟨d, ds, rfl, hspace, hminus, hplus⟩ := hu.head
    rw [List.cons_append, skipSpace_append hb hspace, ok_bind]
    simp only [readSign, if_neg hminus, if_neg hplus, ok_bind]
    exact hu.readAfterSign hc rest false
  · rw [List.cons_append, skipSpace_append hb (by decide), ok_bind]
    simp only [readSign, if_neg (show ch '+' ≠ ch '-' by decide), if_true, ok_bind]
    exact hu.readAfterSign hc rest false
  · rw [List.cons_append, skipSpace_append hb (by decide), ok_bind]
    simp only [readSign, if_true, ok_bind]
    exact hu.readAfterSign hc rest true

/-! ## A number before the end of a line -/

/-- A byte that ends a line: reading a number stops there, and no blank, sign or
digit is it. -/
theorem newline_ends : digitValue (ch '\n') = none ∧ ch '\n' ≠ ch '-' ∧ ch '\n' ≠ ch '+' ∧
    ch '\n' ≠ ch '0' ∧ ch '\n' ≠ ch 'x' ∧ ch '\n' ≠ ch 'X' := by
  decide

theorem readDigits_line (base acc : Nat) (l : List UInt8) :
    ∃ n l', l' <:+ l ∧ ∀ tail,
      readDigits base acc (l ++ ch '\n' :: tail) = .ok (n, l' ++ ch '\n' :: tail) := by
  induction l generalizing acc with
  | nil =>
    refine ⟨acc, [], List.suffix_rfl, fun tail => ?_⟩
    rw [List.nil_append, readDigits, digitOf_of_not_digit newline_ends.1]
  | cons c l ih =>
    rcases hd : digitOf base c with _ | d
    · refine ⟨acc, c :: l, List.suffix_rfl, fun tail => ?_⟩
      rw [List.cons_append, readDigits, hd]
    · obtain ⟨n, l', hl', hall⟩ := ih (acc * base + d)
      refine ⟨n, l', hl'.trans (List.suffix_cons c l), fun tail => ?_⟩
      rw [List.cons_append, readDigits, hd]
      exact hall tail

theorem readSign_line (l : List UInt8) :
    ∃ b l', l' <:+ l ∧ ∀ tail,
      readSign (l ++ ch '\n' :: tail) = .ok (b, l' ++ ch '\n' :: tail) := by
  obtain ⟨_, hminus, hplus, _⟩ := newline_ends
  rcases l with _ | ⟨c, l⟩
  · refine ⟨false, [], List.suffix_rfl, fun tail => ?_⟩
    rw [List.nil_append, readSign, if_neg hminus, if_neg hplus]
  · by_cases hm : c = ch '-'
    · exact ⟨true, l, List.suffix_cons c l, fun tail => if_pos hm⟩
    · by_cases hp : c = ch '+'
      · refine ⟨false, l, List.suffix_cons c l, fun tail => ?_⟩
        rw [List.cons_append, readSign, if_neg hm, if_pos hp]
      · refine ⟨false, c :: l, List.suffix_rfl, fun tail => ?_⟩
        rw [List.cons_append, readSign, if_neg hm, if_neg hp]

/-- The byte after `0x` decides between two bases, and it may be the newline. -/
theorem readBase_line (l : List UInt8) :
    ∃ base l', l' <:+ l ∧ ∀ tail,
      readBase (l ++ ch '\n' :: tail) = .ok (base, l' ++ ch '\n' :: tail) := by
  obtain ⟨hdigit, _, _, hzero, hx, hX⟩ := newline_ends
  rcases l with _ | ⟨c, l⟩
  · refine ⟨10, [], List.suffix_rfl, fun tail => ?_⟩
    simp only [List.nil_append, readBase, if_pos hzero]
  · by_cases hc : c ≠ ch '0'
    · refine ⟨10, c :: l, List.suffix_rfl, fun tail => ?_⟩
      simp only [List.cons_append, readBase, if_pos hc]
    · rw [ne_eq, not_not] at hc
      subst hc
      rcases l with _ | ⟨x, l⟩
      · exact ⟨8, [ch '0'], List.suffix_rfl, fun tail => readBase_oct (by simp [hx, hX]) tail⟩
      · by_cases hxx : x = ch 'x' ∨ x = ch 'X'
        · have hbase : ∀ d after, readBase (ch '0' :: x :: d :: after) =
              if (digitOf 16 d).isSome then .ok (16, d :: after)
              else .ok (8, ch '0' :: x :: d :: after) := fun d after => by
            simp only [readBase, ne_eq, not_true_eq_false, if_false, hxx]
          rcases l with _ | ⟨d, l⟩
          · refine ⟨8, [ch '0', x], List.suffix_rfl, fun tail => ?_⟩
            rw [List.cons_append, List.cons_append, List.nil_append, hbase,
              digitOf_of_not_digit hdigit]
            rfl
          · by_cases hd : (digitOf 16 d).isSome
            · refine ⟨16, d :: l, ⟨[ch '0', x], rfl⟩, fun tail => ?_⟩
              rw [List.cons_append, List.cons_append, List.cons_append, hbase, if_pos hd]
            · refine ⟨8, ch '0' :: x :: d :: l, List.suffix_rfl, fun tail => ?_⟩
              rw [List.cons_append, List.cons_append, List.cons_append, hbase, if_neg hd]
        · exact ⟨8, ch '0' :: x :: l, List.suffix_rfl, fun tail => readBase_oct hxx _⟩

theorem skipSpace_line (l : List UInt8) (hl : ¬ ∀ x ∈ l, isspace x = true) :
    ∃ l', l' <:+ l ∧ ∀ tail, skipSpace (l ++ ch '\n' :: tail) = .ok (l' ++ ch '\n' :: tail) := by
  induction l with
  | nil => exact absurd (fun x hx => absurd hx List.not_mem_nil) hl
  | cons c l ih =>
    by_cases hc : isspace c = true
    · have hrest : ¬ ∀ x ∈ l, isspace x = true := fun h => hl fun x hx => by
        rcases List.mem_cons.mp hx with rfl | hx
        · exact hc
        · exact h x hx
      obtain ⟨l', hl', hall⟩ := ih hrest
      refine ⟨l', hl'.trans (List.suffix_cons c l), fun tail => ?_⟩
      rw [List.cons_append, skipSpace, if_pos hc]
      exact hall tail
    · exact ⟨c :: l, List.suffix_rfl, fun tail => if_neg hc⟩

/-- The number on a line that is not blank, whatever follows the line. -/
theorem readNumber_line (l : List UInt8) (hl : ¬ ∀ x ∈ l, isspace x = true) :
    (∀ tail, readNumber (l ++ ch '\n' :: tail) = .ok none) ∨ ∃ z l', l' <:+ l ∧
      ∀ tail, readNumber (l ++ ch '\n' :: tail) = .ok (some (z, l' ++ ch '\n' :: tail)) := by
  obtain ⟨l1, h1, hspace⟩ := skipSpace_line l hl
  obtain ⟨negative, l2, h2, hsign⟩ := readSign_line l1
  obtain ⟨base, l3, h3, hbase⟩ := readBase_line l2
  obtain ⟨n, l4, h4, hdigits⟩ := readDigits_line base 0 l3
  have hrun : ∀ tail, readNumber (l ++ ch '\n' :: tail) = (
      match l3 ++ ch '\n' :: tail with
      | [] => .error .outOfBounds
      | c :: _ =>
        if (digitOf base c).isSome then
          .ok (some (if negative then -(n : Int) else n, l4 ++ ch '\n' :: tail))
        else .ok none) := by
    intro tail
    rw [readNumber, hspace tail, ok_bind, hsign tail, ok_bind]
    simp only [hbase tail, ok_bind, hdigits tail]
  obtain ⟨c, hc⟩ : ∃ c, ∀ tail, ∃ after, l3 ++ ch '\n' :: tail = c :: after := by
    rcases l3 with _ | ⟨c, l3⟩
    · exact ⟨ch '\n', fun tail => ⟨tail, rfl⟩⟩
    · exact ⟨c, fun tail => ⟨_, rfl⟩⟩
  by_cases hd : (digitOf base c).isSome
  · refine Or.inr ⟨if negative then -(n : Int) else n, l4, h4.trans (h3.trans (h2.trans h1)),
      fun tail => ?_⟩
    obtain ⟨after, heq⟩ := hc tail
    rw [hrun tail, heq]
    exact if_pos hd
  · refine Or.inl fun tail => ?_
    obtain ⟨after, heq⟩ := hc tail
    rw [hrun tail, heq]
    exact if_neg hd

/-- There is no number on a blank line that stands alone. -/
theorem readNumber_blank {l : List UInt8} (hl : ∀ x ∈ l, isspace x = true) :
    readNumber (l ++ [ch '\n', 0]) = .ok none := by
  have hblank : ∀ x ∈ l ++ [ch '\n'], isspace x = true := by
    intro x hx
    rcases List.mem_append.mp hx with hx | hx
    · exact hl x hx
    · rw [List.mem_singleton.mp hx]
      decide
  rw [show l ++ [ch '\n', 0] = l ++ [ch '\n'] ++ 0 :: [] by simp, readNumber,
    skipSpace_append hblank (by decide)]
  rfl

/-- A number that is read on a line alone is read on it in any text. -/
theorem strtoll_line {l rest : List UInt8} {errno res errno' : Int}
    (h : strtoll (l ++ [ch '\n', 0]) errno = .ok (res, rest, errno'))
    (hmoved : rest ≠ l ++ [ch '\n', 0]) :
    ∃ l', l' <:+ l ∧ rest = l' ++ [ch '\n', 0] ∧ ∀ tail,
      strtoll (l ++ ch '\n' :: tail) errno = .ok (res, l' ++ ch '\n' :: tail, errno') := by
  have hnone : readNumber (l ++ [ch '\n', 0]) ≠ .ok none := by
    intro hn
    rw [strtoll, hn] at h
    cases h
    exact hmoved rfl
  rcases readNumber_line l (fun hl => hnone (readNumber_blank hl)) with hn | ⟨z, l', hl', hz⟩
  · exact absurd (hn [0]) hnone
  · refine ⟨l', hl', ?_⟩
    unfold strtoll at h ⊢
    simp only [hz, ok_bind] at h ⊢
    by_cases hmax : LLONG_MAX < z
    · simp only [if_pos hmax] at h ⊢
      cases h
      exact ⟨rfl, fun _ => rfl⟩
    · by_cases hmin : z < LLONG_MIN
      · simp only [if_neg hmax, if_pos hmin] at h ⊢
        cases h
        exact ⟨rfl, fun _ => rfl⟩
      · simp only [if_neg hmax, if_neg hmin] at h ⊢
        cases h
        exact ⟨rfl, fun _ => rfl⟩

/-! ## The bytes of a number -/

/-- Only the white space before a number can hold a newline. -/
theorem skipSpace_used {text rest : List UInt8} (h : skipSpace text = .ok rest) :
    text = text.takeWhile isspace ++ rest := by
  induction text with
  | nil => cases h
  | cons c text ih =>
    unfold skipSpace at h
    split at h
    · rename_i hc
      rw [List.takeWhile_cons_of_pos hc, List.cons_append, ← ih h]
    · rename_i hc
      cases h
      rw [List.takeWhile_cons_of_neg hc, List.nil_append]

theorem readSign_used {text rest : List UInt8} {b : Bool} (h : readSign text = .ok (b, rest)) :
    ∃ used, text = used ++ rest ∧ ch '\n' ∉ used := by
  rcases text with _ | ⟨c, text⟩
  · cases h
  · simp only [readSign] at h
    split at h
    · rename_i hc
      cases h
      exact ⟨[c], rfl, by rw [hc]; decide⟩
    · split at h
      · rename_i hc
        cases h
        exact ⟨[c], rfl, by rw [hc]; decide⟩
      · cases h
        exact ⟨[], rfl, List.not_mem_nil⟩

theorem readBase_used {text rest : List UInt8} {base : Nat} (h : readBase text = .ok (base, rest)) :
    ∃ used, text = used ++ rest ∧ ch '\n' ∉ used := by
  rcases text with _ | ⟨c, text⟩
  · cases h
  · simp only [readBase] at h
    split at h
    · cases h
      exact ⟨[], rfl, List.not_mem_nil⟩
    · rename_i hc
      rw [ne_eq, not_not] at hc
      rcases text with _ | ⟨x, text⟩
      · cases h
      · simp only at h
        split at h
        · cases h
          exact ⟨[], rfl, List.not_mem_nil⟩
        · rename_i hx
          rw [not_not] at hx
          rcases text with _ | ⟨d, text⟩
          · cases h
          · simp only at h
            split at h
            · cases h
              refine ⟨[c, x], rfl, ?_⟩
              rcases hx with rfl | rfl <;> rw [hc] <;> decide
            · cases h
              exact ⟨[], rfl, List.not_mem_nil⟩

theorem readDigits_used {base acc n : Nat} {text rest : List UInt8}
    (h : readDigits base acc text = .ok (n, rest)) :
    ∃ used, text = used ++ rest ∧ ch '\n' ∉ used := by
  induction text generalizing acc with
  | nil => cases h
  | cons c text ih =>
    unfold readDigits at h
    split at h
    · rename_i d hd
      obtain ⟨used, rfl, hused⟩ := ih h
      refine ⟨c :: used, rfl, ?_⟩
      rw [List.mem_cons, not_or]
      refine ⟨fun hc => ?_, hused⟩
      rw [← hc, digitOf_of_not_digit newline_ends.1] at hd
      cases hd
    · cases h
      exact ⟨[], rfl, List.not_mem_nil⟩

/-- A number with the white space before it. -/
theorem readNumber_used {text rest : List UInt8} {z : Int}
    (h : readNumber text = .ok (some (z, rest))) :
    ∃ digits, text = text.takeWhile isspace ++ (digits ++ rest) ∧ ch '\n' ∉ digits := by
  obtain ⟨t1, h1, hsign⟩ := bind_eq_ok.mp h
  obtain ⟨⟨b, t2⟩, h2, hbase⟩ := bind_eq_ok.mp hsign
  obtain ⟨⟨base, t3⟩, h3, hdigits⟩ := bind_eq_ok.mp hbase
  have hspace := skipSpace_used h1
  obtain ⟨u2, heq2, hu2⟩ := readSign_used h2
  obtain ⟨u3, heq3, hu3⟩ := readBase_used h3
  rcases t3 with _ | ⟨c, t3⟩
  · cases hdigits
  · simp only at hdigits
    split at hdigits
    · obtain ⟨⟨n, t4⟩, h4, hend⟩ := bind_eq_ok.mp hdigits
      cases hend
      obtain ⟨u4, heq4, hu4⟩ := readDigits_used h4
      rw [heq2, heq3, heq4] at hspace
      refine ⟨u2 ++ (u3 ++ u4), ?_, ?_⟩
      · rw [List.append_assoc, List.append_assoc]
        exact hspace
      · simp only [List.mem_append, not_or]
        exact ⟨hu2, hu3, hu4⟩
    · cases hdigits

theorem strtoll_used {text rest : List UInt8} {errno errno' res : Int}
    (h : strtoll text errno = .ok (res, rest, errno')) (hmoved : rest ≠ text) :
    ∃ digits, text = text.takeWhile isspace ++ (digits ++ rest) ∧ ch '\n' ∉ digits := by
  obtain ⟨number, h1, h⟩ := bind_eq_ok.mp h
  rcases number with _ | ⟨z, rest'⟩
  · cases h
    exact absurd rfl hmoved
  · have hused := readNumber_used h1
    simp only at h
    split at h
    · cases h
      exact hused
    · split at h <;> cases h <;> exact hused

/-- In a text that ends with a newline, `strtoll` stays in the text if there is
something else than white space. -/
theorem strtoll_inside {l : List UInt8} (hl : ¬ ∀ x ∈ l, isspace x = true) (errno : Int) :
    ∃ res l' errno', strtoll (l ++ [ch '\n']) errno = .ok (res, l' ++ [ch '\n'], errno') := by
  unfold strtoll
  rcases readNumber_line l hl with hn | ⟨z, l', _, hz⟩
  · rw [hn [], ok_bind]
    exact ⟨0, l, errno, rfl⟩
  · rw [hz [], ok_bind]
    simp only
    split
    · exact ⟨_, l', _, rfl⟩
    · split <;> exact ⟨_, l', _, rfl⟩

/-! ## A number in a text with a NUL -/

theorem skipSpace_terminated {text : List UInt8} (h0 : 0 ∈ text) :
    ∃ rest, skipSpace text = .ok rest ∧ 0 ∈ rest := by
  induction text with
  | nil => cases h0
  | cons c text ih =>
    unfold skipSpace
    split
    · rename_i hc
      refine ih ((List.mem_cons.mp h0).resolve_left fun hzero => ?_)
      rw [← hzero] at hc
      cases hc
    · exact ⟨c :: text, rfl, h0⟩

theorem readSign_terminated {text : List UInt8} (h0 : 0 ∈ text) :
    ∃ negative rest, readSign text = .ok (negative, rest) ∧ 0 ∈ rest := by
  rcases text with _ | ⟨c, text⟩
  · cases h0
  · have htail : ∀ d : UInt8, d ≠ 0 → c = d → 0 ∈ text := fun d hd hc =>
      (List.mem_cons.mp h0).resolve_left fun hzero => hd (hc.symm.trans hzero.symm)
    simp only [readSign]
    split
    · rename_i hc
      exact ⟨true, text, rfl, htail _ (by decide) hc⟩
    · split
      · rename_i hc
        exact ⟨false, text, rfl, htail _ (by decide) hc⟩
      · exact ⟨false, c :: text, rfl, h0⟩

theorem readBase_terminated {text : List UInt8} (h0 : 0 ∈ text) :
    ∃ base rest, readBase text = .ok (base, rest) ∧ 0 ∈ rest := by
  rcases text with _ | ⟨c, text⟩
  · cases h0
  · by_cases hc : c = ch '0'
    · have htext : 0 ∈ text := (List.mem_cons.mp h0).resolve_left fun hzero => by
        rw [hc] at hzero
        revert hzero
        decide
      rcases text with _ | ⟨x, after⟩
      · cases htext
      · by_cases hx : x = ch 'x' ∨ x = ch 'X'
        · have hafter : 0 ∈ after := (List.mem_cons.mp htext).resolve_left fun hzero => by
            rcases hx with rfl | rfl <;> revert hzero <;> decide
          rcases after with _ | ⟨d, after⟩
          · cases hafter
          · simp only [readBase, hc, ne_eq, not_true_eq_false, if_false, hx]
            split
            · exact ⟨16, _, rfl, hafter⟩
            · exact ⟨8, _, rfl, hc ▸ h0⟩
        · simp only [readBase, hc, ne_eq, not_true_eq_false, if_false, hx, not_false_eq_true, if_true]
          exact ⟨8, _, rfl, hc ▸ h0⟩
    · exact ⟨10, c :: text, by simp [readBase, hc], h0⟩

theorem readDigits_terminated {text : List UInt8} (base acc : Nat) (h0 : 0 ∈ text) :
    ∃ n rest, readDigits base acc text = .ok (n, rest) := by
  induction text generalizing acc with
  | nil => cases h0
  | cons c text ih =>
    unfold readDigits
    split
    · rename_i d hd
      refine ih _ ((List.mem_cons.mp h0).resolve_left fun hzero => ?_)
      rw [← hzero, digitOf_of_not_digit (by decide)] at hd
      cases hd
    · exact ⟨acc, c :: text, rfl⟩

/-- `strtoll` stops at the NUL. -/
theorem readNumber_terminated {text : List UInt8} (h0 : 0 ∈ text) :
    ∃ number, readNumber text = .ok number := by
  obtain ⟨t1, h1, h01⟩ := skipSpace_terminated h0
  obtain ⟨negative, t2, h2, h02⟩ := readSign_terminated h01
  obtain ⟨base, t3, h3, h03⟩ := readBase_terminated h02
  unfold readNumber
  simp only [h1, h2, h3, ok_bind]
  rcases t3 with _ | ⟨c, t3⟩
  · cases h03
  · simp only
    split
    · obtain ⟨n, rest, h4⟩ := readDigits_terminated base 0 h03
      rw [h4]
      exact ⟨_, rfl⟩
    · exact ⟨_, rfl⟩

end c_text
