-- A ledger of references to names that may be defined later. A name that is
-- defined before any reference becomes known. A name that is referred to first
-- never becomes known: its definition settles the references that wait for it,
-- and later ones wait for another definition.
import Mathlib.Data.List.Induction
import Mathlib.Logic.Function.Basic
import Mathlib.Tactic.Common

/-- A reference to a key, with its value once it has one. -/
structure LedgerEntry (κ ρ ν : Type) where
  key : κ
  ref : ρ
  val : Option ν

structure Ledger (κ ρ ν : Type) where
  known : κ → Option ν
  /-- The references, the first one first. -/
  entries : List (LedgerEntry κ ρ ν)

/-- What can happen to a ledger. -/
inductive LedgerMove (κ ρ ν : Type)
  | refer (k : κ) (r : ρ)
  | define (k : κ) (v : ν)

namespace Ledger

variable {κ ρ ν : Type} [DecidableEq κ]

def empty : Ledger κ ρ ν := ⟨fun _ => none, []⟩

/-- A reference to the key was made. -/
def Named (L : Ledger κ ρ ν) (k : κ) : Prop := ∃ e ∈ L.entries, e.key = k

instance (L : Ledger κ ρ ν) (k : κ) : Decidable (L.Named k) :=
  inferInstanceAs (Decidable (∃ e ∈ L.entries, e.key = k))

/-- The entry waits for the key. -/
def Waits (k : κ) (e : LedgerEntry κ ρ ν) : Bool := e.key = k ∧ e.val.isNone

/-- The entry with the value, if it waits for the key. -/
def settle (k : κ) (v : ν) (e : LedgerEntry κ ρ ν) : LedgerEntry κ ρ ν :=
  if Waits k e then { e with val := some v } else e

def refer (L : Ledger κ ρ ν) (k : κ) (r : ρ) : Ledger κ ρ ν :=
  { L with entries := L.entries ++ [⟨k, r, L.known k⟩] }

def define (L : Ledger κ ρ ν) (k : κ) (v : ν) : Ledger κ ρ ν :=
  if L.Named k then { L with entries := L.entries.map (settle k v) }
  else { L with known := Function.update L.known k (some v) }

def step (L : Ledger κ ρ ν) : LedgerMove κ ρ ν → Ledger κ ρ ν
  | .refer k r => L.refer k r
  | .define k v => L.define k v

def run (L : Ledger κ ρ ν) (ms : List (LedgerMove κ ρ ν)) : Ledger κ ρ ν := ms.foldl step L

/-- The references that wait for the key. -/
def waiting (L : Ledger κ ρ ν) (k : κ) : List (LedgerEntry κ ρ ν) := L.entries.filter (Waits k)

/-- The move defines the key. -/
def Defines (k : κ) (m : LedgerMove κ ρ ν) : Prop := ∃ v, m = .define k v

/-- The move is a reference to the key. -/
def Refers (k : κ) (m : LedgerMove κ ρ ν) : Prop := ∃ r, m = .refer k r

@[simp] theorem run_nil (L : Ledger κ ρ ν) : L.run [] = L := rfl

@[simp] theorem run_cons (L : Ledger κ ρ ν) (m : LedgerMove κ ρ ν) (ms : List (LedgerMove κ ρ ν)) :
    L.run (m :: ms) = (L.step m).run ms := rfl

theorem run_append (L : Ledger κ ρ ν) (as bs : List (LedgerMove κ ρ ν)) :
    L.run (as ++ bs) = (L.run as).run bs := List.foldl_append

omit [DecidableEq κ] in
@[simp] theorem not_named_empty (k : κ) : ¬ (empty : Ledger κ ρ ν).Named k := nofun

/-! ## One entry -/

theorem settle_key (k : κ) (v : ν) (e : LedgerEntry κ ρ ν) :
    (settle k v e).key = e.key ∧ (settle k v e).ref = e.ref := by
  unfold settle
  split <;> exact ⟨rfl, rfl⟩

theorem settle_of_waits {k : κ} {e : LedgerEntry κ ρ ν} (h : Waits k e = true) (v : ν) :
    settle k v e = { e with val := some v } := if_pos h

theorem settle_of_not_waits {k : κ} {e : LedgerEntry κ ρ ν} (h : Waits k e = false) (v : ν) :
    settle k v e = e := by
  rw [settle, h]
  rfl

theorem not_waits_of_settled {e : LedgerEntry κ ρ ν} (h : e.val.isSome) (k : κ) :
    Waits k e = false := by
  unfold Waits
  cases he : e.val <;> simp_all

theorem not_waits_of_ne {k : κ} {e : LedgerEntry κ ρ ν} (h : e.key ≠ k) : Waits k e = false := by
  simp [Waits, h]

/-- A definition settles every entry that waits for the key, named or not. -/
theorem define_entries (L : Ledger κ ρ ν) (k : κ) (v : ν) :
    (L.define k v).entries = L.entries.map (settle k v) := by
  unfold define
  split
  · rfl
  · rename_i hn
    have hsame : L.entries.map (settle k v) = L.entries.map id := List.map_congr_left fun e he =>
      settle_of_not_waits (not_waits_of_ne fun hk => hn ⟨e, he, hk⟩) v
    rw [hsame, List.map_id]

/-! ## One move -/

/-- An entry that has its value keeps it. -/
theorem settled_step {L : Ledger κ ρ ν} {e : LedgerEntry κ ρ ν} (he : e ∈ L.entries)
    (hv : e.val.isSome) (m : LedgerMove κ ρ ν) : e ∈ (L.step m).entries := by
  cases m with
  | refer k r => exact List.mem_append_left _ he
  | define k v =>
    rw [step, define_entries]
    exact List.mem_map.mpr ⟨e, he, settle_of_not_waits (not_waits_of_settled hv k) v⟩

/-- An entry stays as it is while its key is not defined. -/
theorem waiting_step {L : Ledger κ ρ ν} {e : LedgerEntry κ ρ ν} (he : e ∈ L.entries)
    {m : LedgerMove κ ρ ν} (hm : ¬ Defines e.key m) : e ∈ (L.step m).entries := by
  cases m with
  | refer k r => exact List.mem_append_left _ he
  | define k v =>
    have hk : e.key ≠ k := fun hk => hm ⟨v, by rw [hk]⟩
    rw [step, define_entries]
    exact List.mem_map.mpr ⟨e, he, settle_of_not_waits (not_waits_of_ne hk) v⟩

/-- A definition settles an entry that waits for it. -/
theorem defined_step {L : Ledger κ ρ ν} {e : LedgerEntry κ ρ ν} (he : e ∈ L.entries)
    (hv : e.val = none) (v : ν) :
    { e with val := some v } ∈ (L.step (.define e.key v)).entries := by
  have hw : Waits e.key e = true := by simp [Waits, hv]
  rw [step, define_entries]
  exact List.mem_map.mpr ⟨e, he, settle_of_waits hw v⟩

/-- A known value never changes, as long as definitions of the key are not
repeated. -/
theorem known_step {L : Ledger κ ρ ν} {k : κ} {m : LedgerMove κ ρ ν} (hm : ¬ Defines k m) :
    (L.step m).known k = L.known k := by
  cases m with
  | refer k' r => rfl
  | define k' v =>
    have hk : k ≠ k' := fun hk => hm ⟨v, by rw [hk]⟩
    simp only [step, define]
    split
    · rfl
    · simp [hk]

theorem named_step {L : Ledger κ ρ ν} {k : κ} {m : LedgerMove κ ρ ν} :
    (L.step m).Named k ↔ L.Named k ∨ Refers k m := by
  cases m with
  | refer k' r =>
    constructor
    · rintro ⟨e, he, hk⟩
      rcases List.mem_append.mp he with he | he
      · exact Or.inl ⟨e, he, hk⟩
      · rw [List.mem_singleton.mp he] at hk
        exact Or.inr ⟨r, by rw [← hk]⟩
    · rintro (⟨e, he, hk⟩ | ⟨r', hr⟩)
      · exact ⟨e, List.mem_append_left _ he, hk⟩
      · cases hr
        exact ⟨_, List.mem_append_right _ (List.mem_singleton.mpr rfl), rfl⟩
  | define k' v =>
    have hno : ¬ Refers k (.define k' v : LedgerMove κ ρ ν) := nofun
    rw [or_iff_left hno]
    unfold Named
    rw [step, define_entries]
    constructor
    · rintro ⟨e, he, hk⟩
      obtain ⟨e', he', rfl⟩ := List.mem_map.mp he
      exact ⟨e', he', (settle_key k' v e').1 ▸ hk⟩
    · rintro ⟨e, he, hk⟩
      exact ⟨_, List.mem_map_of_mem he, (settle_key k' v e).1.trans hk⟩

/-! ## What waits -/

theorem waiting_refer_same {L : Ledger κ ρ ν} {k : κ} (h : L.known k = none) (r : ρ) :
    (L.refer k r).waiting k = L.waiting k ++ [⟨k, r, none⟩] := by
  simp [waiting, refer, h, Waits, List.filter_append]

theorem waiting_refer_other {L : Ledger κ ρ ν} {k k' : κ} (r : ρ) (h : k' ≠ k) :
    (L.refer k r).waiting k' = L.waiting k' := by
  simp [waiting, refer, Waits, List.filter_append, h.symm]

theorem waiting_unnamed {L : Ledger κ ρ ν} {k : κ} (h : ¬ L.Named k) : L.waiting k = [] := by
  rw [waiting, List.filter_eq_nil_iff]
  intro e he
  rw [not_waits_of_ne fun hk => h ⟨e, he, hk⟩]
  decide

theorem waiting_define_same (L : Ledger κ ρ ν) (k : κ) (v : ν) : (L.define k v).waiting k = [] := by
  rw [waiting, define_entries, List.filter_eq_nil_iff]
  intro e he
  obtain ⟨e', he', rfl⟩ := List.mem_map.mp he
  cases hw : Waits k e' with
  | true =>
    rw [settle_of_waits hw, not_waits_of_settled rfl]
    decide
  | false =>
    rw [settle_of_not_waits hw, hw]
    decide

theorem waiting_define_other {L : Ledger κ ρ ν} {k k' : κ} (v : ν) (h : k' ≠ k) :
    (L.define k v).waiting k' = L.waiting k' := by
  rw [waiting, waiting, define_entries]
  induction L.entries with
  | nil => rfl
  | cons e es ih =>
    rw [List.map_cons]
    cases hw : Waits k e with
    | true =>
      have hkey : e.key = k := by
        simp only [Waits, decide_eq_true_eq] at hw
        exact hw.1
      have hno : Waits k' e = false := not_waits_of_ne fun hc => h (hc.symm.trans hkey)
      have hsettled : Waits k' (settle k v e) = false := by
        rw [settle_of_waits hw]
        exact not_waits_of_settled rfl k'
      rw [List.filter_cons_of_neg (by rw [hsettled]; decide),
        List.filter_cons_of_neg (by rw [hno]; decide), ih]
    | false =>
      rw [settle_of_not_waits hw, List.filter_cons, List.filter_cons, ih]

/-! ## Whole runs -/

theorem settled_run {L : Ledger κ ρ ν} {e : LedgerEntry κ ρ ν} (he : e ∈ L.entries)
    (hv : e.val.isSome) (ms : List (LedgerMove κ ρ ν)) : e ∈ (L.run ms).entries := by
  induction ms generalizing L with
  | nil => exact he
  | cons m ms ih => exact ih (settled_step he hv m)

theorem waiting_run {L : Ledger κ ρ ν} {e : LedgerEntry κ ρ ν} (he : e ∈ L.entries)
    {ms : List (LedgerMove κ ρ ν)} (hms : ∀ m ∈ ms, ¬ Defines e.key m) :
    e ∈ (L.run ms).entries := by
  induction ms generalizing L with
  | nil => exact he
  | cons m ms ih =>
    exact ih (waiting_step he (hms m List.mem_cons_self))
      fun m' hm' => hms m' (List.mem_cons_of_mem m hm')

theorem known_run {L : Ledger κ ρ ν} {k : κ} {ms : List (LedgerMove κ ρ ν)}
    (hms : ∀ m ∈ ms, ¬ Defines k m) : (L.run ms).known k = L.known k := by
  induction ms generalizing L with
  | nil => rfl
  | cons m ms ih =>
    rw [run_cons, ih fun m' hm' => hms m' (List.mem_cons_of_mem m hm'),
      known_step (hms m List.mem_cons_self)]

theorem named_run {L : Ledger κ ρ ν} {k : κ} {ms : List (LedgerMove κ ρ ν)} :
    (L.run ms).Named k ↔ L.Named k ∨ ∃ m ∈ ms, Refers k m := by
  induction ms generalizing L with
  | nil => simp
  | cons m ms ih => rw [run_cons, ih, named_step]; simp [or_assoc]

/-- A reference before the definition of its key gets the value of the
definition. -/
theorem run_reference_then_definition {L : Ledger κ ρ ν} {k : κ} (r : ρ) (v : ν)
    (hk : L.known k = none) {ms ms' : List (LedgerMove κ ρ ν)} (hms : ∀ m ∈ ms, ¬ Defines k m) :
    ⟨k, r, some v⟩ ∈ (L.run (.refer k r :: ms ++ .define k v :: ms')).entries := by
  have hin : ⟨k, r, none⟩ ∈ (L.step (.refer k r)).entries :=
    List.mem_append_right _ (List.mem_singleton.mpr (by rw [hk]))
  rw [run_append]
  exact settled_run (defined_step (waiting_run hin hms) rfl v) rfl ms'

/-- A reference after the definition of its key gets the value of the
definition, if the definition was not awaited. -/
theorem run_definition_then_reference {L : Ledger κ ρ ν} {k : κ} (r : ρ) (v : ν)
    (hn : ¬ L.Named k) {ms ms' : List (LedgerMove κ ρ ν)} (hms : ∀ m ∈ ms, ¬ Defines k m) :
    ⟨k, r, some v⟩ ∈ (L.run (.define k v :: ms ++ .refer k r :: ms')).entries := by
  have hknown : (L.step (.define k v)).known k = some v := by
    simp [step, define, hn]
  rw [run_append]
  refine settled_run (List.mem_append_right _ (List.mem_singleton.mpr ?_)) rfl ms'
  rw [run_cons, known_run hms, hknown]

/-- A reference after a definition that was awaited waits for another one. -/
theorem run_awaited_definition_then_reference {L : Ledger κ ρ ν} {k : κ} (r : ρ) (v : ν)
    (hk : L.known k = none) (hn : L.Named k) {ms ms' : List (LedgerMove κ ρ ν)}
    (hms : ∀ m ∈ ms, ¬ Defines k m) (hms' : ∀ m ∈ ms', ¬ Defines k m) :
    ⟨k, r, none⟩ ∈ (L.run (.define k v :: ms ++ .refer k r :: ms')).entries := by
  have hknown : (L.step (.define k v)).known k = none := by
    simp [step, define, hn, hk]
  have hin : ⟨k, r, none⟩ ∈ ((L.run (.define k v :: ms)).step (.refer k r)).entries := by
    refine List.mem_append_right _ (List.mem_singleton.mpr ?_)
    rw [run_cons, known_run hms, hknown]
  rw [run_append]
  exact waiting_run hin hms'

/-- Every entry comes from its reference. -/
theorem refer_of_mem_run {ms : List (LedgerMove κ ρ ν)} {e : LedgerEntry κ ρ ν}
    (he : e ∈ (empty.run ms : Ledger κ ρ ν).entries) : .refer e.key e.ref ∈ ms := by
  induction ms using List.reverseRecOn generalizing e with
  | nil => cases he
  | append_singleton ms m ih =>
    rw [run_append, run_cons, run_nil] at he
    cases m with
    | refer k r =>
      rcases List.mem_append.mp he with he | he
      · exact List.mem_append_left _ (ih he)
      · rw [List.mem_singleton.mp he]
        exact List.mem_append_right _ (List.mem_singleton.mpr rfl)
    | define k v =>
      rw [step, define_entries] at he
      obtain ⟨e', he', rfl⟩ := List.mem_map.mp he
      obtain ⟨hkey, href⟩ := settle_key k v e'
      rw [hkey, href]
      exact List.mem_append_left _ (ih he')

/-- No entry is lost. -/
theorem entry_kept_step {L : Ledger κ ρ ν} {e : LedgerEntry κ ρ ν} (he : e ∈ L.entries)
    (m : LedgerMove κ ρ ν) : ∃ e' ∈ (L.step m).entries, e'.key = e.key ∧ e'.ref = e.ref := by
  cases m with
  | refer k r => exact ⟨e, List.mem_append_left _ he, rfl, rfl⟩
  | define k v =>
    refine ⟨settle k v e, ?_, settle_key k v e⟩
    rw [step, define_entries]
    exact List.mem_map_of_mem he

theorem entry_kept_run {L : Ledger κ ρ ν} {e : LedgerEntry κ ρ ν} (he : e ∈ L.entries)
    (ms : List (LedgerMove κ ρ ν)) : ∃ e' ∈ (L.run ms).entries, e'.key = e.key ∧ e'.ref = e.ref := by
  induction ms generalizing L e with
  | nil => exact ⟨e, he, rfl, rfl⟩
  | cons m ms ih =>
    obtain ⟨e1, he1, hkey1, href1⟩ := entry_kept_step he m
    obtain ⟨e2, he2, hkey2, href2⟩ := ih he1
    exact ⟨e2, he2, hkey2.trans hkey1, href2.trans href1⟩

/-- Every reference has its entry. -/
theorem entry_of_mem {L : Ledger κ ρ ν} {k : κ} {r : ρ} {ms : List (LedgerMove κ ρ ν)}
    (hr : .refer k r ∈ ms) : ∃ e ∈ (L.run ms).entries, e.key = k ∧ e.ref = r := by
  obtain ⟨as, bs, rfl⟩ := List.append_of_mem hr
  rw [run_append, run_cons]
  exact entry_kept_run (e := ⟨k, r, (L.run as).known k⟩)
    (List.mem_append_right _ (List.mem_singleton_self _)) bs

/-- What is known was defined. -/
theorem define_of_known_run {ms : List (LedgerMove κ ρ ν)} {k : κ} {v : ν}
    (h : (empty.run ms : Ledger κ ρ ν).known k = some v) : .define k v ∈ ms := by
  induction ms using List.reverseRecOn with
  | nil => cases h
  | append_singleton ms m ih =>
    rw [run_append, run_cons, run_nil] at h
    by_cases hm : Defines k m
    · obtain ⟨u, rfl⟩ := hm
      simp only [step, define] at h
      split at h
      · exact List.mem_append_left _ (ih h)
      · simp only [Function.update_self] at h
        rw [Option.some.inj h]
        exact List.mem_append_right _ (List.mem_singleton_self _)
    · rw [known_step hm] at h
      exact List.mem_append_left _ (ih h)

end Ledger
