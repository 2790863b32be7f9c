-- The program (`main.c`): from the options to the output file. The arguments are
-- parsed before, by code that is not in the sources.
import RiscvAssembler.Driver
import RiscvAssembler.Elf
import RiscvAssembler.Lib.Disk

open checked machine_int c_text

namespace riscv_assembler

/-! ## What the program meets -/

/-- The locals of `main` after `argparse`. -/
structure Options where
  extra_args : Int
  input_file : string
  output_file : string
  text_vaddr : Int
  data_vaddr : Int

/-- What `main` has before `argparse`. -/
def Options.defaults (extra_args : Int) (input_file : string) : Options where
  extra_args := extra_args
  input_file := input_file
  output_file := chars "a.out"
  text_vaddr := 0x00400000
  data_vaddr := 0x10010000

/-- The calls of `main` besides those on the bytes of files: the `errno` of a call that
fails, or `none`. -/
structure System where
  open_output : Option Int
  open_input : Option Int
  fstat : Option Int
  mmap : Option Int
  calloc : Bool
  open_swap : Sect → Bool
  /-- The `errno` before the first line. -/
  errno : Int
  /-- The `errno` after an output that fails. -/
  emit_errno : Int
  strerror : Int → List UInt8

/-- The `errno` of a name that leads nowhere. -/
def ENOENT : Int := 2

/-- The page of the machine that `main` runs on. -/
def PAGE_SIZE : Nat := 4096

structure Outcome where
  /-- What `main` returns, unless it does not come to that. -/
  status : Result Int
  printed : List UInt8
  disk : Disk string

/-- The message of a call that failed. -/
def System.failed (sys : System) (what : String) (name : string) (errno : Int) : List UInt8 :=
  chars "Failed to " ++ chars what ++ chars " " ++ name ++ chars ": " ++ sys.strerror errno ++
    chars "\n"

/-! ## From the source to the output -/

/-- The bytes of the source, or the message that there are none. -/
def open_source (sys : System) (input_file : string) (disk : Disk string) :
    Except (List UInt8) (List UInt8) :=
  match sys.open_input with
  | some errno => .error (sys.failed "open" input_file errno)
  | none =>
    match disk.read input_file with
    | none => .error (sys.failed "open" input_file ENOENT)
    | some src =>
      match sys.fstat with
      | some errno => .error (sys.failed "stat" input_file errno)
      | none =>
        if src.length = 0 then .error (input_file ++ chars " is completely empty!\n")
        else
          match sys.mmap with
          | some errno => .error (sys.failed "mmap" input_file errno)
          | none => .ok src

/-- What lies in memory after the newline that `main` puts behind the source. Only the
rest of the last page of the file can be written to. -/
def map_source (src : List UInt8) : Result (List UInt8) :=
  if src.length % PAGE_SIZE = 0 then .error .outOfBounds
  else .ok (List.replicate (PAGE_SIZE - 1 - src.length % PAGE_SIZE) 0)

/-- The process when the loop starts. -/
def first_process (sys : System) (opts : Options) : Process :=
  ⟨sys.errno, emitter.fresh (toU 64 opts.text_vaddr) (toU 64 opts.data_vaddr)⟩

/-- The output over what the file `fd` holds. -/
def main_output (sys : System) (opts : Options) (fd : Nat) (disk : Disk string) (em : emitter) :
    Outcome :=
  match emitter_output_elf em ⟨disk.data fd, 0⟩ with
  | .error f => ⟨.error f, [], disk⟩
  | .ok (err, out) =>
    if err ≠ 0 then
      ⟨.ok 1, sys.failed "emit to" opts.output_file sys.emit_errno, disk.store fd out.data⟩
    else ⟨.ok 0, [], disk.store fd out.data⟩

/-- The part of `main` after `mmap`. -/
def main_source (sys : System) (opts : Options) (fd : Nat) (disk : Disk string)
    (src : List UInt8) : Outcome :=
  match map_source src with
  | .error f => ⟨.error f, [], disk⟩
  | .ok tail =>
    if sys.calloc = false then ⟨.ok 1, chars "Out of memory!\n", disk⟩
    else if sys.open_swap .SECT_TEXT = false ∨ sys.open_swap .SECT_DATA = false then
      ⟨.ok 1, chars "Failed to open temporary files.\n", disk⟩
    else
      match main_loop (tail.length + 1) 1 (src ++ ch '\n' :: tail) (first_process sys opts) with
      | .error f => ⟨.error f, [], disk⟩
      | .ok (.error (line, err)) =>
        ⟨.ok 1, opts.input_file ++ chars ":" ++ chars (toString line.toInt) ++ chars ": " ++ chars err ++
          chars "\n", disk⟩
      | .ok (.ok p) => main_output sys opts fd disk p.em

/-- The output file is opened before the input file, and what it holds is not cut off. -/
def main (sys : System) (opts : Options) (disk : Disk string) : Outcome :=
  if opts.extra_args ≠ 2 then ⟨.ok 1, chars "Exactly one input must be specified.\n", disk⟩
  else if opts.input_file = opts.output_file then
    ⟨.ok 1, chars "Input and output files share the same name " ++ opts.input_file ++ chars "\n",
      disk⟩
  else
    match sys.open_output with
    | some errno => ⟨.ok 1, sys.failed "open" opts.output_file errno, disk⟩
    | none =>
      let (fd, disk) := disk.create opts.output_file
      match open_source sys opts.input_file disk with
      | .error message => ⟨.ok 1, message, disk⟩
      | .ok src => main_source sys opts fd disk src

end riscv_assembler
