import RiscvAssembler.Lib.BitRank
import RiscvAssembler.Lib.ByteBits
import RiscvAssembler.Lib.CText
import RiscvAssembler.Lib.Chains
import RiscvAssembler.Lib.Checked
import RiscvAssembler.Lib.FixedBuffer
import RiscvAssembler.Lib.Interleaving
import RiscvAssembler.Lib.Ledger
import RiscvAssembler.Lib.MachineInt
import RiscvAssembler.Lib.Probing
import RiscvAssembler.Lib.Scanner
import RiscvAssembler.Lib.ScannerEnds
import RiscvAssembler.Lib.ScannerGrammar
import RiscvAssembler.Lib.ScannerLine
import RiscvAssembler.Lib.SparseFile
import RiscvAssembler.Ops
import RiscvAssembler.Emitter
import RiscvAssembler.SectionLaws
import RiscvAssembler.EmitterLaws
import RiscvAssembler.Trie
import RiscvAssembler.TrieBuilder
import RiscvAssembler.BuilderWords
import RiscvAssembler.TrieLaws
import RiscvAssembler.Sizing
import RiscvAssembler.Vocabulary
import RiscvAssembler.Parser
import RiscvAssembler.KeyRanks
import RiscvAssembler.Turns
import RiscvAssembler.Compounds
import RiscvAssembler.Isa
import RiscvAssembler.Encoding
import RiscvAssembler.Operands
import RiscvAssembler.InstructionLines
import RiscvAssembler.LineLocality
import RiscvAssembler.Progress
import RiscvAssembler.Registers
import RiscvAssembler.Driver
import RiscvAssembler.Readings
import RiscvAssembler.Runs
import RiscvAssembler.LabelTable
import RiscvAssembler.Words
import RiscvAssembler.Displacements
import RiscvAssembler.Resolution
import RiscvAssembler.Patches
import RiscvAssembler.Elf
import RiscvAssembler.ElfLaws
import RiscvAssembler.Targets
import RiscvAssembler.LabelValues
import RiscvAssembler.FinalWords
import RiscvAssembler.References
import RiscvAssembler.Layout
import RiscvAssembler.EntryPoint
import RiscvAssembler.Interleaving
import RiscvAssembler.SectionOutput
import RiscvAssembler.Recognition
import RiscvAssembler.LineEnds
import RiscvAssembler.Places
import RiscvAssembler.OwnLine
import RiscvAssembler.LineNumbers
import RiscvAssembler.Sentinel
import RiscvAssembler.History
import RiscvAssembler.Pieces
import RiscvAssembler.StringLiterals
import RiscvAssembler.DataArrays
import RiscvAssembler.Padding
import RiscvAssembler.CcMap
import RiscvAssembler.CcMapLaws
import RiscvAssembler.CcMapInsertion
import RiscvAssembler.CcMapEviction
import RiscvAssembler.CcMapGrowth
import RiscvAssembler.CcMapRuns
import RiscvAssembler.CcMapCapacity
import RiscvAssembler.HashedEmitter
import RiscvAssembler.Wyhash
import RiscvAssembler.Scripts
import RiscvAssembler.TwoPasses
import RiscvAssembler.Acceptance
import RiscvAssembler.InstructionWords
import RiscvAssembler.Listing
import RiscvAssembler.Disassembly
import RiscvAssembler.Relocation
import RiscvAssembler.Main
import RiscvAssembler.OutputLaws
import RiscvAssembler.MainLaws
import RiscvAssembler.MainPrograms
import RiscvAssembler.Renaming
