import TraceStore.Zstd.Fse

/-!
# Huffman codes for literals

A code is given by a weight for each symbol: a weight of `w` takes `2 ^ (w - 1)` cells of a table
whose size is a power of two, and the weight of the last symbol is the one that fills it. The next
bits of a stream, as many as the table has bits, name a cell, which tells the symbol and the number
of bits that are its code.
-/
namespace TraceStore.Zstd.Huffman

/-- Logarithm of the largest table. -/
def maxLog : Nat := 12

/-- Number of weights that can be sent at most; one more is implied. -/
def maxWeights : Nat := 255

/-- A cell of a table. -/
structure Cell where
  symbol : UInt8
  bits : Nat

instance : Inhabited Cell := ⟨⟨0, 0⟩⟩

/-- A table of `2 ^ log` cells. -/
structure Table where
  log : Nat
  cells : Array Cell

/-- Cells that a weight takes. -/
def cellsOf (weight : Nat) : Nat := if weight = 0 then 0 else 2 ^ (weight - 1)

/-- The weight that takes `count` cells, if there is one. -/
def weightOf? (count : Nat) : Option Nat :=
  if count ≠ 0 ∧ 2 ^ count.log2 = count then some (count.log2 + 1) else none

/-- The table for the weights that were sent. Two symbols at least have the longest codes, and an
even number of them. -/
def build? (weights : List Nat) : Option Table := do
  if weights.any (maxLog < ·) then none
  let taken := weights.foldl (fun taken weight => taken + cellsOf weight) 0
  if taken = 0 then none
  let log := taken.log2 + 1
  if maxLog < log then none
  let all := weights ++ [← weightOf? (2 ^ log - taken)]
  let longest := all.count 1
  if longest < 2 ∨ longest % 2 = 1 then none
  let indexed := all.zipIdx
  let cells := (List.range log).flatMap fun below =>
    indexed.flatMap fun (weight, symbol) =>
      if weight = below + 1 then
        List.replicate (2 ^ below) ⟨UInt8.ofNat symbol, log - below⟩
      else []
  return ⟨log, cells.toArray⟩

/-! ### Reading weights -/

/-- Weights of four bits each, two to a byte and the first in its upper half. -/
def directWeights (bytes : ByteArray) (start : Nat) : Nat → List Nat
  | 0 => []
  | 1 => [byteAt bytes start / 16]
  | count + 2 =>
    byteAt bytes start / 16 :: byteAt bytes start % 16 :: directWeights bytes (start + 1) count

/-- Decodes weights by two states in turn, `state` being the one whose turn it is. When the bits do
not suffice for the state that follows, the other one gives the last weight. At most `fuel + 1` are
accepted. -/
def codedWeightsWithin (t : Fse.Table) : Nat → Nat → Nat → BackwardBits → Option (List Nat)
  | 0, _, _, _ => none
  | fuel + 1, state, other, bits =>
    let entry := t.entry state
    match bits.read? entry.bits with
    | none => some [entry.symbol, (t.entry other).symbol]
    | some (n, bits) =>
      (codedWeightsWithin t fuel other (entry.base + n) bits).map (entry.symbol :: ·)

/-- The weights in `bytes`, which describe a table for them and then hold them in its code. -/
def codedWeights (bytes : ByteArray) : Option (List Nat) := do
  let (t, size) ← Fse.read bytes 0 256 6
  let bits ← BackwardBits.start? (bytes.extract size bytes.size)
  let (state, bits) ← bits.read? t.log
  let (other, bits) ← bits.read? t.log
  codedWeightsWithin t (maxWeights - 1) state other bits

/-- Reads a table from byte `start` on. Delivers it and the number of bytes that describe it. -/
def read (bytes : ByteArray) (start : Nat) : Option (Table × Nat) := do
  if bytes.size ≤ start then none
  let head := byteAt bytes start
  let size := if head < 128 then head else (head - 127 + 1) / 2
  if bytes.size < start + 1 + size then none
  let weights ←
    if head < 128 then codedWeights (bytes.extract (start + 1) (start + 1 + size))
    else some (directWeights bytes (start + 1) (head - 127))
  return (← build? weights, size + 1)

/-! ### Decoding -/

/-- Decodes `count` symbols to the end of `out`. -/
def decodeSymbols (t : Table) : Nat → BackwardBits → ByteArray → Option (BackwardBits × ByteArray)
  | 0, bits, out => some (bits, out)
  | count + 1, bits, out =>
    let cell := t.cells.getD (bits.peek t.log) default
    match bits.drop? cell.bits with
    | none => none
    | some bits => decodeSymbols t count bits (out.push cell.symbol)

/-- Decodes a stream of `count` symbols to the end of `out`. The symbols have to use it up. -/
def decodeStream (t : Table) (bytes : ByteArray) (count : Nat) (out : ByteArray) :
    Option ByteArray := do
  let bits ← BackwardBits.start? bytes
  let (bits, out) ← decodeSymbols t count bits out
  if bits.left = 0 then some out else none

/-- Decodes `count` symbols from four streams, the lengths of whose first three stand in front. The
first three have as many symbols, and the last one those that are left. -/
def decodeFour (t : Table) (bytes : ByteArray) (count : Nat) : Option ByteArray := do
  if count < 6 ∨ bytes.size < 10 then none
  let length1 := wordAt bytes 0 2
  let length2 := wordAt bytes 2 2
  let length3 := wordAt bytes 4 2
  let start2 := 6 + length1
  let start3 := start2 + length2
  let start4 := start3 + length3
  if bytes.size < start4 then none
  let part := (count + 3) / 4
  if count < 3 * part then none
  let out ← decodeStream t (bytes.extract 6 start2) part .empty
  let out ← decodeStream t (bytes.extract start2 start3) part out
  let out ← decodeStream t (bytes.extract start3 start4) part out
  decodeStream t (bytes.extract start4 bytes.size) (count - 3 * part) out

end TraceStore.Zstd.Huffman
