-- The generator of the trie (`instruction_trie/main.c`): a tree of entries that
-- the words are inserted into, and the two arrays that it is flattened to.
import RiscvAssembler.Trie

open checked bit_rank

namespace riscv_assembler

/-! ## The tree -/

/-- `trie_builder` with its entries in the order of the array `ents`. An entry
holds its key, its term flag, its data and its `next`, and is followed by the
entries after it. -/
inductive trie_builder
  | nil
  | entry (key : UInt8) (term : Bool) (data : Int) (next : trie_builder) (more : trie_builder)

/-- The number of entries. -/
def trie_builder.len : trie_builder → Nat
  | .nil => 0
  | .entry _ _ _ _ more => more.len + 1

/-- The loop of `trie_builder_insert` over the entries: the `next` of the entry
with the key goes through `insert`. If no entry has the key, `nu` stands after
the last one. The count comes from the call that ran. -/
def trie_builder.upsert (c : UInt8) (insert : trie_builder → Int × trie_builder)
    (nu : Int × trie_builder) : trie_builder → Int × trie_builder
  | .nil => nu
  | .entry key term data next more =>
    if key = c then
      let (n, next) := insert next
      (n, .entry key term data next more)
    else
      let (n, more) := upsert c insert nu more
      (n, .entry key term data next more)

/-- `str` is the word without its NUL. A new entry gets the data only when its
character is the last one, and an entry that was there keeps what it has. -/
def trie_builder_insert (base : trie_builder) (str : List UInt8) (data : Int) :
    Int × trie_builder :=
  match str with
  | [] => (0, base)
  | c :: rest =>
    let nu : Int × trie_builder :=
      if rest = [] then (0, .entry c true data .nil .nil)
      else
        let (n, next) := trie_builder_insert .nil rest data
        (n + 1, .entry c false 0 next .nil)
    base.upsert c (fun next => trie_builder_insert next rest data) nu

/-- The tree after the words, in order, were inserted into the empty one. -/
def trie_builder.ofWords (words : List (List UInt8 × Int)) : trie_builder :=
  words.foldl (fun base w => (trie_builder_insert base w.1 w.2).2) .nil

/-! ## The arrays -/

def trie_set_key (keys : keys2) (c : UInt8) : keys2 :=
  let bit := (1 : BitVec 64) <<< key_frag c
  if key_word c = 0 then (keys.1 ||| bit, keys.2) else (keys.1, keys.2 ||| bit)

/-- The globals of the generator. Its counters are `int`s and are numbers of any size
here, so the arrays are those of the source up to 2^31 cells. -/
structure arrays where
  gbuf : List trie
  aux : List Int
  gpos : Nat
  apos : Nat

/-- Counts the nodes below `base` and the cells of the auxiliary array. -/
def gbuf_size (base : trie_builder) (gpos apos : Nat) : Nat × Nat :=
  match base with
  | .nil => (gpos, apos)
  | .entry _ term _ next more =>
    let apos := if term then apos + 1 else apos
    let (gpos, apos) := if next.len > 0 then gbuf_size next (gpos + 1) (apos + 1) else (gpos, apos)
    gbuf_size more gpos apos

/-- What the first loop of `gbuf_fill` finds in the entries. -/
structure gbuf_scan where
  keys : keys2
  terms : keys2
  np : Nat
  dp : Nat

/-- The first loop of `gbuf_fill`. -/
def gbuf_fill_scan (s : gbuf_scan) : trie_builder → gbuf_scan
  | .nil => s
  | .entry key term _ next more =>
    let s := if term then { s with terms := trie_set_key s.terms key, dp := s.dp + 1 } else s
    let s := if next.len > 0 then { s with keys := trie_set_key s.keys key, np := s.np + 1 } else s
    gbuf_fill_scan s more

/-- `gbuf_fill` up to its second loop: the node at `gpos` is written, and its
cells in the auxiliary array are reserved. -/
def gbuf_fill_node (base : trie_builder) (g : arrays) : Result arrays := do
  let s := gbuf_fill_scan ⟨(0, 0), (0, 0), 0, 0⟩ base
  let gbuf ← store g.gbuf g.gpos {
    keys := s.keys
    terms := s.terms
    next := if s.np = 0 then 0 else g.apos
    data := if s.dp = 0 then 0 else g.apos + s.np }
  .ok { g with gbuf, apos := g.apos + s.np + s.dp }

/-- The data of an entry goes to its cell, if it has data. -/
def gbuf_fill_term (n : Nat) (key : UInt8) (term : Bool) (data : Int) (g : arrays) :
    Result arrays :=
  if term then do
    let node ← load g.gbuf n
    let i ← key_index node.terms key
    let aux ← store g.aux (node.data + i) data
    .ok { g with aux }
  else .ok g

/-- The number of the next node goes to the cell of its entry. -/
def gbuf_fill_link (n : Nat) (key : UInt8) (g : arrays) : Result arrays := do
  let node ← load g.gbuf n
  let i ← key_index node.keys key
  let gpos := g.gpos + 1
  let aux ← store g.aux (node.next + i) gpos
  .ok { g with gpos, aux }

/-- The second loop of `gbuf_fill`, for the node `n`. The call of `gbuf_fill`
in it fills the node at `gpos`. -/
def gbuf_fill_loop (n : Nat) (base : trie_builder) (g : arrays) : Result arrays :=
  match base with
  | .nil => .ok g
  | .entry key term data next more => do
    let g ← gbuf_fill_term n key term data g
    let g ← (if next.len > 0 then do
        let g ← gbuf_fill_link n key g
        let below ← gbuf_fill_node next g
        gbuf_fill_loop g.gpos next below
      else .ok g)
    gbuf_fill_loop n more g

def gbuf_fill (base : trie_builder) (g : arrays) : Result arrays := do
  let below ← gbuf_fill_node base g
  gbuf_fill_loop g.gpos base below

/-- The arrays as `main` allocates and fills them. -/
def gbuf_of (base : trie_builder) : Result arrays :=
  let (gpos, apos) := gbuf_size base 0 0
  gbuf_fill base {
    gbuf := List.replicate (gpos + 1) ⟨(0, 0), (0, 0), 0, 0⟩
    aux := List.replicate apos 0
    gpos := 0
    apos := 0 }

end riscv_assembler
