-- The output file (the second half of `emitter.c`): the ELF header, one program
-- header for each section that is not empty, and the bytes of the sections.
import RiscvAssembler.Emitter

open checked machine_int

namespace riscv_assembler

/-! ## Headers -/

structure Elf64_Ehdr where
  e_ident : List UInt8
  e_type : Nat
  e_machine : Nat
  e_version : Nat
  e_entry : Nat
  e_phoff : Nat
  e_shoff : Nat
  e_flags : Nat
  e_ehsize : Nat
  e_phentsize : Nat
  e_phnum : Nat
  e_shentsize : Nat
  e_shnum : Nat
  e_shstrndx : Nat

structure Elf64_Phdr where
  p_type : Nat
  p_flags : Nat
  p_offset : Nat
  p_vaddr : Nat
  p_paddr : Nat
  p_filesz : Nat
  p_memsz : Nat
  p_align : Nat

/-- A header as it lies in memory. -/
def Elf64_Ehdr.bytes (h : Elf64_Ehdr) : List UInt8 :=
  h.e_ident ++ leBytes 2 h.e_type ++ leBytes 2 h.e_machine ++ leBytes 4 h.e_version ++
    leBytes 8 h.e_entry ++ leBytes 8 h.e_phoff ++ leBytes 8 h.e_shoff ++ leBytes 4 h.e_flags ++
    leBytes 2 h.e_ehsize ++ leBytes 2 h.e_phentsize ++ leBytes 2 h.e_phnum ++
    leBytes 2 h.e_shentsize ++ leBytes 2 h.e_shnum ++ leBytes 2 h.e_shstrndx

def Elf64_Phdr.bytes (h : Elf64_Phdr) : List UInt8 :=
  leBytes 4 h.p_type ++ leBytes 4 h.p_flags ++ leBytes 8 h.p_offset ++ leBytes 8 h.p_vaddr ++
    leBytes 8 h.p_paddr ++ leBytes 8 h.p_filesz ++ leBytes 8 h.p_memsz ++ leBytes 8 h.p_align

/-- A header of zeros. -/
def Elf64_Phdr.zero : Elf64_Phdr := ⟨0, 0, 0, 0, 0, 0, 0, 0⟩

/-- The local struct of `emitter_output_elf`. -/
structure Header where
  ehdr : Elf64_Ehdr
  text : Elf64_Phdr
  data : Elf64_Phdr

def Header.bytes (h : Header) : List UInt8 := h.ehdr.bytes ++ h.text.bytes ++ h.data.bytes

def EHDR_SIZE : Nat := 64

def PHDR_SIZE : Nat := 56

def pagesize : Nat := 0x1000

def PT_LOAD : Nat := 1

def PF_X : Nat := 1

def PF_W : Nat := 2

def PF_R : Nat := 4

def ET_EXEC : Nat := 2

def EM_RISCV : Nat := 243

def EV_CURRENT : Nat := 1

/-- `roundup` of a `uint64_t`. -/
def roundup (x y : Nat) : Nat := toU 64 (x + (y - 1 : Nat)) / y * y

/-- The key `_start`. -/
def start_label : string := [95, 115, 116, 97, 114, 116]

def emitter.text (em : emitter) : Section := em.sect .SECT_TEXT

def emitter.data (em : emitter) : Section := em.sect .SECT_DATA

/-- The size of the headers, which is where the text goes. -/
def output_after (em : emitter) : Nat :=
  if 0 < em.data.pos then EHDR_SIZE + PHDR_SIZE + PHDR_SIZE else EHDR_SIZE + PHDR_SIZE

/-- Mapped from 0, so that the offset is page aligned: this wraps in the
headers. -/
def text_phdr (em : emitter) : Elf64_Phdr where
  p_type := PT_LOAD
  p_flags := PF_X ||| PF_R
  p_offset := 0
  p_vaddr := em.text.vaddr
  p_paddr := em.text.vaddr
  p_filesz := em.text.pos
  p_memsz := em.text.pos
  p_align := pagesize

def data_phdr (em : emitter) : Elf64_Phdr :=
  if 0 < em.data.pos then
    { p_type := PT_LOAD
      p_flags := PF_R ||| PF_W
      p_offset := roundup ((text_phdr em).p_filesz + (text_phdr em).p_offset) pagesize
      p_vaddr := em.data.vaddr
      p_paddr := em.data.vaddr
      p_filesz := em.data.pos
      p_memsz := em.data.pos
      p_align := pagesize }
  else .zero

/-- The value of `_start` or the address of the text, and the headers after
it. -/
def output_entry (em : emitter) : Nat :=
  let e_entry :=
    match em.labels.lookup start_label with
    | some start => toU 64 start.val
    | none => em.text.vaddr
  toU 64 (e_entry + output_after em)

def output_ehdr (em : emitter) : Elf64_Ehdr where
  e_ident := [0x7f, 69, 76, 70, 2, 1, 1, 0, 0, 0, 0, 0, 0, 0, 0, 0]
  e_type := ET_EXEC
  e_machine := EM_RISCV
  e_version := EV_CURRENT
  e_entry := output_entry em
  e_phoff := 0x40
  e_shoff := 0
  e_flags := 0
  e_ehsize := 64
  e_phentsize := 0x38
  e_phnum := if 0 < em.data.pos then 2 else 1
  e_shentsize := 0
  e_shnum := 0
  e_shstrndx := 0

def output_header (em : emitter) : Header := ⟨output_ehdr em, text_phdr em, data_phdr em⟩

/-- The bytes of the header that go to the file. -/
def output_head (em : emitter) : List UInt8 := (output_header em).bytes.take (output_after em)

/-! ## Output -/

/-- 0, or 1 when a call gives another count than it should. The `uint64_t`
counters become `int`s, and the `int`s become the `size_t`s of the calls. The
calls do as much as they can: less would only make the result 1. -/
def emit_section (em : emitter) (dst : SparseFile) (sect : Sect) : Result (Int × SparseFile) :=
  let s := em.sect sect
  let l := toS 32 s.len
  let m := toS 32 (s.pos - l)
  let copied := dst.copyFrom s.swap (toU 64 m)
  if copied.1 ≠ m then .ok (1, copied.2)
  else do
    let bytes ← s.buf.copyOut 0 (toU 64 l)
    match copied.2.write bytes with
    | none => .ok (1, copied.2)
    | some dst => .ok (0, dst)

def emitter_output_elf (em : emitter) (dst : SparseFile) : Result (Int × SparseFile) :=
  match dst.write (output_head em) with
  | none => .ok (1, dst)
  | some dst => do
    let (err, dst) ← emit_section em dst .SECT_TEXT
    if err ≠ 0 then .ok (1, dst)
    else if 0 < em.data.pos then
      match dst.seekSet (toS 64 (data_phdr em).p_offset) with
      | none => .ok (1, dst)
      | some dst => emit_section em dst .SECT_DATA
    else .ok (0, dst)

end riscv_assembler
