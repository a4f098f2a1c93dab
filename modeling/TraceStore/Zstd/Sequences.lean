import TraceStore.Bytes.Backreference
import TraceStore.Zstd.Fse

/-!
# The sequences of a block

A sequence takes over some literals and then copies bytes written before. Its three numbers are
coded by a symbol each, from a code of its own, and extra bits. Distances can be named as one of the
last three that were used.
-/
namespace TraceStore.Zstd

/-! ### Numbers -/

/-- A kind of number in a sequence. -/
structure NumberKind where
  /-- Base and number of extra bits of each symbol. -/
  table : Array (Nat × Nat)
  /-- The code that needs no description. -/
  preset : Fse.Table
  /-- Logarithm of the largest table of a code. -/
  maxLog : Nat

namespace NumberKind

/-- Shares given by numbers of states, with zero states standing for a symbol that is not used. -/
private def sharesOf (counts : List Int) : List Fse.Share :=
  counts.map fun n => if n < 0 then .rare else .cells n.toNat

/-- How many literals to take over. -/
def literals : NumberKind where
  table := #[(0, 0), (1, 0), (2, 0), (3, 0), (4, 0), (5, 0), (6, 0), (7, 0), (8, 0), (9, 0),
    (10, 0), (11, 0), (12, 0), (13, 0), (14, 0), (15, 0), (16, 1), (18, 1), (20, 1), (22, 1),
    (24, 2), (28, 2), (32, 3), (40, 3), (48, 4), (64, 6), (128, 7), (256, 8), (512, 9),
    (1024, 10), (2048, 11), (4096, 12), (8192, 13), (16384, 14), (32768, 15), (65536, 16)]
  preset := Fse.build 6 <| sharesOf
    [4, 3, 2, 2, 2, 2, 2, 2, 2, 2, 2, 2, 2, 1, 1, 1, 2, 2, 2, 2, 2, 2, 2, 2, 2, 3, 2, 1, 1, 1, 1, 1,
      -1, -1, -1, -1]
  maxLog := 9

/-- How many bytes to copy. -/
def lengths : NumberKind where
  table := (Array.range 32).map (fun i => (i + 3, 0)) ++
    #[(35, 1), (37, 1), (39, 1), (41, 1), (43, 2), (47, 2), (51, 3), (59, 3), (67, 4), (83, 4),
      (99, 5), (131, 7), (259, 8), (515, 9), (1027, 10), (2051, 11), (4099, 12), (8195, 13),
      (16387, 14), (32771, 15), (65539, 16)]
  preset := Fse.build 6 <| sharesOf
    [1, 4, 3, 2, 2, 2, 2, 2, 2, 1, 1, 1, 1, 1, 1, 1, 1, 1, 1, 1, 1, 1, 1, 1, 1, 1, 1, 1, 1, 1, 1, 1,
      1, 1, 1, 1, 1, 1, 1, 1, 1, 1, 1, 1, 1, 1, -1, -1, -1, -1, -1, -1, -1]
  maxLog := 9

/-- From how far back to copy: a symbol is the number of extra bits. -/
def distances : NumberKind where
  table := (Array.range 32).map fun i => (2 ^ i, i)
  preset := Fse.build 5 <| sharesOf
    [1, 1, 1, 1, 1, 1, 2, 2, 2, 1, 1, 1, 1, 1, 1, 1, 1, 1, 1, 1, 1, 1, 1, 1, -1, -1, -1, -1, -1]
  maxLog := 8

/-- Reads the code of a kind of number from byte `start` of a block on. Delivers it and the number
of bytes that describe it. `earlier` is the code of an earlier block. -/
def readCode (kind : NumberKind) (block : ByteArray) (start mode : Nat)
    (earlier : Option Fse.Table) : Option (Fse.Table × Nat) :=
  match mode with
  | 0 => some (kind.preset, 0)
  | 1 =>
    if block.size ≤ start ∨ kind.table.size ≤ byteAt block start then none
    else some (.single (byteAt block start), 1)
  | 2 => Fse.read block start kind.table.size kind.maxLog
  | _ => earlier.map fun t => (t, 0)

/-- Base and number of extra bits of the symbol that a state stands for. -/
def meaning (kind : NumberKind) (t : Fse.Table) (state : Nat) : Nat × Nat :=
  kind.table.getD (t.entry state).symbol (0, 0)

end NumberKind

/-- The codes of the three kinds of numbers. -/
structure SequenceCodes where
  literals : Fse.Table
  distances : Fse.Table
  lengths : Fse.Table

/-! ### Repeated distances -/

/-- The last three distances that were used, the last one first. -/
structure RecentDistances where
  first : Nat
  second : Nat
  third : Nat

namespace RecentDistances

/-- The distances that a frame starts with. -/
def initial : RecentDistances := ⟨1, 4, 8⟩

/-- The distance that a value stands for, and the recent ones after it was used. Values from four
up are distances of their own; the lower ones name a recent one, the one after it if no literals are
taken over, and then at last one less than the last distance. -/
def resolve (recent : RecentDistances) (value : Nat) (noLiterals : Bool) :
    Option (Nat × RecentDistances) :=
  if 3 < value then some (value - 3, ⟨value - 3, recent.first, recent.second⟩)
  else
    match value + (if noLiterals then 1 else 0) with
    | 1 => some (recent.first, recent)
    | 2 => some (recent.second, ⟨recent.second, recent.first, recent.third⟩)
    | 3 => some (recent.third, ⟨recent.third, recent.first, recent.second⟩)
    | _ =>
      if recent.first ≤ 1 then none
      else some (recent.first - 1, ⟨recent.first - 1, recent.first, recent.second⟩)

end RecentDistances

/-! ### Running sequences -/

/-- What sequences work on. -/
structure SequenceState where
  bits : BackwardBits
  literalState : Nat
  distanceState : Nat
  lengthState : Nat
  recent : RecentDistances
  /-- Literals taken over so far. -/
  taken : Nat
  /-- Everything decoded so far, of this frame from `frameStart` on. -/
  out : ByteArray

/-- Moves a state on. -/
private def follow (t : Fse.Table) (state : Nat) (bits : BackwardBits) :
    Option (Nat × BackwardBits) := do
  let entry := t.entry state
  let (n, bits) ← bits.read? entry.bits
  return (entry.base + n, bits)

/-- Runs one sequence. The output of the block may not grow beyond `limit`. -/
def runSequence (codes : SequenceCodes) (literals : ByteArray) (frameStart limit : Nat)
    (last : Bool) (s : SequenceState) : Option SequenceState := do
  let (literalBase, literalBits) := NumberKind.literals.meaning codes.literals s.literalState
  let (lengthBase, lengthBits) := NumberKind.lengths.meaning codes.lengths s.lengthState
  let (distanceBase, distanceBits) := NumberKind.distances.meaning codes.distances s.distanceState
  let (distanceExtra, bits) ← s.bits.read? distanceBits
  let (lengthExtra, bits) ← bits.read? lengthBits
  let (literalExtra, bits) ← bits.read? literalBits
  let count := literalBase + literalExtra
  let length := lengthBase + lengthExtra
  let (distance, recent) ← s.recent.resolve (distanceBase + distanceExtra) (literalBase == 0)
  if literals.size < s.taken + count ∨ limit < s.out.size + count + length then none
  let out := s.out ++ literals.extract s.taken (s.taken + count)
  if out.size < frameStart + distance then none
  let s := { s with bits, recent, taken := s.taken + count, out := copyBack out distance length }
  if last then return s
  let (literalState, bits) ← follow codes.literals s.literalState s.bits
  let (lengthState, bits) ← follow codes.lengths s.lengthState bits
  let (distanceState, bits) ← follow codes.distances s.distanceState bits
  return { s with bits, literalState, lengthState, distanceState }

/-- Runs as many sequences as told. -/
def runSequences (codes : SequenceCodes) (literals : ByteArray) (frameStart limit : Nat) :
    Nat → SequenceState → Option SequenceState
  | 0, s => some s
  | count + 1, s => do
    let s ← runSequence codes literals frameStart limit (count == 0) s
    runSequences codes literals frameStart limit count s

/-! ### The section -/

/-- What the start of the section tells: how many sequences there are, and where it goes on. -/
def sequenceCount (block : ByteArray) (start : Nat) : Option (Nat × Nat) :=
  let head := byteAt block start
  if block.size ≤ start then none
  else if head < 128 then some (head, start + 1)
  else if head = 255 then
    if block.size < start + 3 then none else some (wordAt block (start + 1) 2 + 0x7f00, start + 3)
  else
    if block.size < start + 2 then none
    else some ((head - 128) * 256 + byteAt block (start + 1), start + 2)

/-- Reads the codes of a section with sequences. Delivers them and where the sequences start. -/
def readCodes (block : ByteArray) (start : Nat) (earlier : Option SequenceCodes) :
    Option (SequenceCodes × Nat) := do
  if block.size ≤ start then none
  let modes := byteAt block start
  if modes % 4 ≠ 0 then none
  let i := start + 1
  let (literals, size) ←
    NumberKind.literals.readCode block i (modes / 64) (earlier.map (·.literals))
  let i := i + size
  let (distances, size) ←
    NumberKind.distances.readCode block i (modes / 16 % 4) (earlier.map (·.distances))
  let i := i + size
  let (lengths, size) ←
    NumberKind.lengths.readCode block i (modes / 4 % 4) (earlier.map (·.lengths))
  return (⟨literals, distances, lengths⟩, i + size)

/-- What a block leaves to the ones after it. -/
structure SequenceMemory where
  codes : Option SequenceCodes
  recent : RecentDistances

/-- Runs the sequences of a block from byte `start` on, with its literals, and takes over the
literals that are left. -/
def runSection (block : ByteArray) (start : Nat) (literals : ByteArray) (frameStart limit : Nat)
    (memory : SequenceMemory) (out : ByteArray) : Option (SequenceMemory × ByteArray) := do
  let (count, i) ← sequenceCount block start
  if count = 0 then
    if i ≠ block.size ∨ limit < out.size + literals.size then none
    return (memory, out ++ literals)
  let (codes, i) ← readCodes block i memory.codes
  let bits ← BackwardBits.start? (block.extract i block.size)
  let (literalState, bits) ← bits.read? codes.literals.log
  let (distanceState, bits) ← bits.read? codes.distances.log
  let (lengthState, bits) ← bits.read? codes.lengths.log
  let s ← runSequences codes literals frameStart limit count
    { bits, literalState, distanceState, lengthState, recent := memory.recent, taken := 0, out }
  if s.bits.left ≠ 0 ∨ limit < s.out.size + (literals.size - s.taken) then none
  return (⟨some codes, s.recent⟩, s.out ++ literals.extract s.taken literals.size)

end TraceStore.Zstd
