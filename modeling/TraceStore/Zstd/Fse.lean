import TraceStore.Zstd.BackwardBits

/-!
# Finite state entropy codes

A code is a distribution of symbols over a table of states. A state stands for a symbol, and tells
how many bits to read and what to add to them for the state that follows.
-/
namespace TraceStore.Zstd.Fse

/-- How often a symbol occurs among the states. -/
inductive Share
  /-- That many states. -/
  | cells (count : Nat)
  /-- One state, from which all states can follow. -/
  | rare
deriving DecidableEq

/-- What a state stands for. -/
structure Entry where
  symbol : Nat
  bits : Nat
  base : Nat

/-- A table of `2 ^ log` states. -/
structure Table where
  log : Nat
  entries : Array Entry

namespace Table

/-- What a state stands for; states behind the table end a code. -/
def entry (t : Table) (state : Nat) : Entry := t.entries.getD state ⟨0, 0, 0⟩

/-- The table with a single state that stands for `symbol`. -/
def single (symbol : Nat) : Table := ⟨0, #[⟨symbol, 0, 0⟩]⟩

end Table

/-! ### Building a table -/

/-- The next cell on the way through `2 ^ log` cells that is not above `top`. -/
def nextCell (log top : Nat) : Nat → Nat → Nat
  | 0, cell => cell
  | fuel + 1, cell =>
    let size := 2 ^ log
    let next := (cell + size / 2 + size / 8 + 3) % size
    if next ≤ top then next else nextCell log top fuel next

/-- Gives the last cells to the rare symbols, first symbol last, and tells how many are left. -/
def placeRare : List (Share × Nat) → Array Nat → Nat → Array Nat × Nat
  | [], cells, left => (cells, left)
  | (.rare, symbol) :: rest, cells, left =>
    placeRare rest (cells.setIfInBounds (left - 1) symbol) (left - 1)
  | (.cells _, _) :: rest, cells, left => placeRare rest cells left

/-- Gives `count` cells on the way through the table to a symbol. -/
def placeSymbol (log top symbol : Nat) : Nat → Array Nat → Nat → Array Nat × Nat
  | 0, cells, cell => (cells, cell)
  | count + 1, cells, cell =>
    placeSymbol log top symbol count (cells.setIfInBounds cell symbol)
      (nextCell log top (2 ^ log) cell)

/-- Gives the cells that are not above `top` to the symbols in their order. -/
def placeCommon (log top : Nat) : List (Share × Nat) → Array Nat → Nat → Array Nat
  | [], cells, _ => cells
  | (.rare, _) :: rest, cells, cell => placeCommon log top rest cells cell
  | (.cells count, symbol) :: rest, cells, cell =>
    let (cells, cell) := placeSymbol log top symbol count cells cell
    placeCommon log top rest cells cell

/-- The entries of the cells from the first on; `next` counts the states of each symbol up. -/
def entriesOf (log : Nat) : List Nat → Array Nat → List Entry
  | [], _ => []
  | symbol :: rest, next =>
    let n := next.getD symbol 1
    let bits := log - n.log2
    ⟨symbol, bits, n <<< bits - 2 ^ log⟩ :: entriesOf log rest (next.setIfInBounds symbol (n + 1))

/-- The table of a distribution over `2 ^ log` states. -/
def build (log : Nat) (shares : List Share) : Table :=
  let indexed := shares.zipIdx
  let (cells, left) := placeRare indexed (Array.replicate (2 ^ log) 0) (2 ^ log)
  let cells := placeCommon log (left - 1) indexed cells 0
  let firsts := shares.map fun
    | .cells count => count
    | .rare => 1
  ⟨log, (entriesOf log cells.toList firsts.toArray).toArray⟩

/-! ### Reading a distribution -/

/-- How many further symbols have no states: runs of three as long as two bits are set. -/
def zeroRun (bytes : ByteArray) : Nat → Nat → Nat × Nat
  | 0, bit => (0, bit)
  | fuel + 1, bit =>
    let n := bitsAt bytes bit 2
    if n = 3 then
      let (more, bit) := zeroRun bytes fuel (bit + 2)
      (3 + more, bit)
    else (n, bit + 2)

/-- Reads shares into `done`, which holds them backwards, until all states are given out. A share
takes as few bits as tell the shares apart that are still possible, and the lowest of these one bit
less. Every round adds one, so `fuel` rounds are enough for as many symbols. -/
def sharesWithin (bytes : ByteArray) (symbols : Nat) :
    Nat → List Share → Nat → Nat → Option (List Share × Nat)
  | 0, _, _, _ => none
  | fuel + 1, done, left, bit =>
    if symbols ≤ done.length then none
    else
      let width := (left + 1).log2 + 1
      let half := 2 ^ (width - 1)
      let short := 2 * half - 1 - (left + 1)
      let low := bitsAt bytes bit (width - 1)
      let (value, bit) :=
        if low < short then (low, bit + width - 1)
        else
          let full := bitsAt bytes bit width
          (if half ≤ full then full - short else full, bit + width)
      match value with
      | 0 =>
        if left = 1 then some (.rare :: done, bit)
        else sharesWithin bytes symbols fuel (.rare :: done) (left - 1) bit
      | 1 =>
        let (zeros, bit) := zeroRun bytes (4 * bytes.size + 1) bit
        sharesWithin bytes symbols fuel
          (List.replicate (zeros + 1) (.cells 0) ++ done) left bit
      | count + 1 =>
        if left = count then some (.cells count :: done, bit)
        else sharesWithin bytes symbols fuel (.cells count :: done) (left - count) bit

/-- Lowest logarithm of a table's size that can be described. -/
def minLog : Nat := 5

/-- Reads the description of a table for at most `symbols` symbols and at most `2 ^ maxLog` states
from byte `start` on. Delivers the table and the number of bytes that describe it. -/
def read (bytes : ByteArray) (start symbols maxLog : Nat) : Option (Table × Nat) := do
  let section_ := bytes.extract start bytes.size
  let log := bitsAt section_ 0 4 + minLog
  if maxLog < log then none
  let (done, bit) ← sharesWithin section_ symbols (symbols + 1) [] (2 ^ log) 4
  let size := (bit + 7) / 8
  if section_.size < size ∨ symbols < done.length then none
  return (build log done.reverse, size)

end TraceStore.Zstd.Fse
