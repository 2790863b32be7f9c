-- The emitter (`emitter.h`, `emitter.c`): the two sections with their buffers
-- and swap files, the label table, and the functions that write to them.
import Mathlib.Data.List.AList
import Mathlib.Logic.Function.Basic
import RiscvAssembler.Lib.FixedBuffer
import RiscvAssembler.Lib.MachineInt
import RiscvAssembler.Lib.SparseFile

open checked machine_int

namespace riscv_assembler

/-! ## The data -/

/-- `sizeof em->section_buf[0]`. -/
def BUF_SIZE : Nat := 4096

/-- `enum section`. -/
inductive Sect
  | SECT_TEXT
  | SECT_DATA
  deriving DecidableEq, Repr

/-- One element of `section`, with its row of `section_buf`. The `uint64_t`
fields are numbers below 2^64. -/
structure Section where
  buf : FixedBuffer BUF_SIZE
  vaddr : Nat
  /-- The position of the next byte in the buffer. -/
  len : Nat
  /-- The position relative to the first byte ever written. -/
  pos : Nat
  swap : SparseFile

inductive assign_type
  | ASSIGN_BTYPE
  | ASSIGN_JTYPE
  deriving DecidableEq, Repr

structure label_waiter where
  /-- The offset into the section. -/
  fix_idx : Int
  sect : Sect
  assign : assign_type
  deriving DecidableEq, Repr

/-- `waiters` is `none` until it is set: `emitter_label_add` puts a label in
the table with the vector that happened to stand on its stack. -/
structure label where
  waiters : Option (List label_waiter)
  /-- Negative if the label has no value yet. -/
  val : Int
  deriving DecidableEq, Repr

/-- The bytes of an identifier. Two strings are the same key when their bytes
are. -/
abbrev string := List UInt8

abbrev label_map := AList fun _ : string => label

structure emitter where
  sect : Sect → Section
  labels : label_map
  current_section : Sect

/-- The section that is written to. -/
def emitter.cur (em : emitter) : Section := em.sect em.current_section

def emitter.set (em : emitter) (s : Sect) (x : Section) : emitter :=
  { em with sect := Function.update em.sect s x }

def emitter.setCur (em : emitter) (x : Section) : emitter := em.set em.current_section x

/-- A section as `main` sets it up: `calloc` made it zero, the swap file is new
and empty. -/
def Section.fresh (vaddr : Nat) : Section :=
  ⟨FixedBuffer.zeroed BUF_SIZE, vaddr, 0, 0, SparseFile.empty⟩

/-- The emitter before the first line. -/
def emitter.fresh (text_vaddr data_vaddr : Nat) : emitter where
  sect := fun
    | .SECT_TEXT => Section.fresh text_vaddr
    | .SECT_DATA => Section.fresh data_vaddr
  labels := ∅
  current_section := .SECT_TEXT

/-! ## Writing to a section -/

/-- Writes the buffer to the swap file to make room. -/
def emitter_clear_buffer (s : Section) : Result Section := do
  let swap ← orPanic "write call failed" (s.swap.write (s.buf.bytes.take s.len))
  .ok { s with swap, len := 0 }

/-- The loop of `emitter_buffer`, with its local `pos`. -/
def emitter_buffer_loop (s : Section) (pos : Nat) (data : List UInt8) : Result Section :=
  if BUF_SIZE ≤ pos + data.length then do
    let copy := BUF_SIZE - pos
    let buf ← s.buf.copyIn pos (data.take copy)
    let s ← emitter_clear_buffer { s with buf }
    emitter_buffer_loop s 0 (data.drop copy)
  else do
    let buf ← s.buf.copyIn pos data
    .ok { s with
      buf
      len := toU 64 (s.len + data.length)
      pos := toU 64 (s.pos + data.length) }
termination_by pos + data.length
decreasing_by
  simp only [List.length_drop, BUF_SIZE] at *
  omega

def emitter_buffer (em : emitter) (data : List UInt8) : Result emitter := do
  let s ← emitter_buffer_loop em.cur em.cur.len data
  .ok (em.setCur s)

/-- `emitter_advance` on the section that is written to. The `size_t` becomes
an `off_t` in the call of `lseek`. -/
def section_advance (s : Section) (len : Nat) : Result Section :=
  let pos := s.len
  let s := { s with pos := toU 64 (s.pos + len) }
  if BUF_SIZE ≤ toU 64 (pos + len) then do
    let s ← emitter_clear_buffer s
    let swap ← orPanic "lseek call failed" (s.swap.seekCur (toS 64 len))
    .ok { s with swap }
  else do
    let buf ← s.buf.copyIn pos (List.replicate len 0)
    .ok { s with buf, len := toU 64 (s.len + len) }

def emitter_advance (em : emitter) (len : Nat) : Result emitter := do
  let s ← section_advance em.cur len
  .ok (em.setCur s)

/-! ## Instruction words -/

/-- The four bytes of an instruction in memory. -/
def instr_bytes (instr : BitVec 32) : List UInt8 := leBytes 4 instr.toNat

/-- The instruction that four bytes hold. -/
def instr_of (bytes : List UInt8) : BitVec 32 := BitVec.ofNat 32 (leNat bytes)

theorem length_instr_bytes (w : BitVec 32) : (instr_bytes w).length = 4 := length_leBytes 4 _

theorem instr_of_instr_bytes (w : BitVec 32) : instr_of (instr_bytes w) = w := by
  apply BitVec.eq_of_toNat_eq
  rw [instr_of, instr_bytes, leNat_leBytes, BitVec.toNat_ofNat]
  have := w.isLt
  omega

def set_btype_imm (instr i : BitVec 32) : BitVec 32 :=
  instr ||| (((i &&& 0x1000) <<< 19) ||| ((i &&& 0x7e0) <<< 20) ||| ((i &&& 0x1e) <<< 7) |||
    ((i &&& 0x800) >>> 4))

def set_jtype_imm (instr i : BitVec 32) : BitVec 32 :=
  instr ||| (((i &&& 0x100000) <<< 11) ||| (i &&& 0xff000) ||| ((i &&& 0x7fe) <<< 20) |||
    ((i &&& 0x800) <<< 9))

/-- The switch over `assign_type` that chooses between the two. -/
def assign_type.set_imm : assign_type → BitVec 32 → BitVec 32 → BitVec 32
  | .ASSIGN_BTYPE => set_btype_imm
  | .ASSIGN_JTYPE => set_jtype_imm

/-! ## Labels -/

def cc_size (m : label_map) : Nat := m.keys.length

/-- The label under the key after the call, and the table. -/
def cc_get_or_insert (m : label_map) (key : string) (nu : label) : label × label_map :=
  match m.lookup key with
  | some e => (e, m)
  | none => (nu, m.insert key nu)

/-- One turn of the loop over the waiters: the immediate goes into the word
that waits for it. The index of the word is not negative in the last branch,
so it is taken as a natural number. -/
def resolve_waiter (val : Int) (em : emitter) (waiter : label_waiter) : Result emitter :=
  let s := em.sect waiter.sect
  let offset := toS 64 (val - (waiter.fix_idx + s.vaddr))
  let len := toS 64 s.len
  let pos := toS 64 s.pos
  if pos - len > waiter.fix_idx then .error (.panic "unimplimented")
  else if ¬ 4 + len - (pos - waiter.fix_idx) ≤ len then .error .assertion
  else do
    let target := (len - (pos - waiter.fix_idx)).toNat
    let word ← s.buf.copyOut target 4
    let instr := waiter.assign.set_imm (instr_of word) (BitVec.ofInt 32 offset)
    let buf ← s.buf.copyIn target (instr_bytes instr)
    .ok (em.set waiter.sect { s with buf })

/-- Gives 0, or -1 for a label that has a value already. -/
def emitter_label_add (em : emitter) (key : string) : Result (Int × emitter) :=
  let old_sz := cc_size em.labels
  let nu : label := ⟨none, toS 64 (em.cur.pos + em.cur.vaddr)⟩
  let (e, labels) := cc_get_or_insert em.labels key nu
  let em := { em with labels }
  if cc_size labels ≠ old_sz then .ok (0, em)
  else if 0 ≤ e.val then .ok (-1, em)
  else
    match e.waiters with
    | none => .error .indeterminate
    | some waiters => do
      let em ← runAll (resolve_waiter nu.val) em waiters
      -- the waiters are cleaned up, the value of the label stays as it was
      .ok (0, { em with labels := em.labels.insert key { e with waiters := some [] } })

/-- The value of the label, or -1 after one more waiter was added for it. -/
def emitter_label_get_or_add_waiter (em : emitter) (key : string) (wait_assign : assign_type) :
    Result (Int × emitter) :=
  let (e, labels) := cc_get_or_insert em.labels key ⟨some [], -1⟩
  if e.val < 0 then
    match e.waiters with
    | none => .error .indeterminate
    | some waiters =>
      let waiter : label_waiter := ⟨toS 64 em.cur.pos, em.current_section, wait_assign⟩
      let labels := labels.insert key { e with waiters := some (waiters ++ [waiter]) }
      .ok (-1, { em with labels })
  else .ok (e.val, { em with labels })

end riscv_assembler
