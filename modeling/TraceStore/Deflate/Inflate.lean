import TraceStore.Bytes.Backreference
import TraceStore.Bytes.LittleEndian
import TraceStore.Deflate.PrefixCode

/-!
# Decoding a deflate stream

An `Inflate` decodes a stream step by step from the input it has been given, and can be given more
when that runs out: a step that lacks input changes nothing. It decodes up to a limit of output,
but takes in the symbol that goes beyond it.
-/
namespace TraceStore.Deflate

/-- Why decoding cannot go on. -/
inductive Stop
  | starved
  | invalid
deriving DecidableEq, Repr

/-- Where in a stream decoding stands. -/
inductive Phase
  /-- Before the header of a block. -/
  | header
  /-- Within a stored block of which some bytes are left. -/
  | stored (left : Nat)
  /-- Within a compressed block. -/
  | coded (literals distances : PrefixCode)
  /-- Behind the last block. -/
  | finished

/-- A deflate stream that is being decoded. -/
structure Inflate where
  phase : Phase
  /-- Whether the block at hand is the last one. -/
  last : Bool
  /-- Input that is not used up. -/
  input : ByteArray
  /-- Bits of `input` that are used up. -/
  bit : Nat
  /-- Everything decoded so far. -/
  output : ByteArray

namespace Inflate

/-- A stream before its first block. -/
def start : Inflate := ⟨.header, false, .empty, 0, .empty⟩

/-! ### Block headers -/

/-- Code lengths of the literals of a block with fixed codes. -/
def fixedLiteralLengths : List Nat :=
  List.replicate 144 8 ++ List.replicate 112 9 ++ List.replicate 24 7 ++ List.replicate 8 8

/-- Code lengths of the distances of a block with fixed codes. -/
def fixedDistanceLengths : List Nat := List.replicate 32 5

/-- Phase of a block with fixed codes. -/
def fixedPhase : Phase :=
  .coded (.ofLengths fixedLiteralLengths) (.ofLengths fixedDistanceLengths)

/-- Order in which the lengths of the code for code lengths are sent. -/
def lengthOrder : List Nat := [16, 17, 18, 0, 8, 7, 9, 6, 10, 5, 11, 4, 12, 3, 13, 2, 14, 1, 15]

/-- The number in the next `count` bits, and the position behind them. -/
def number (bytes : ByteArray) (bit count : Nat) : Except Stop (Nat × Nat) :=
  if bytes.size * 8 < bit + count then .error .starved
  else .ok (bitsAt bytes bit count, bit + count)

/-- The next `count` numbers of three bits each. -/
def shortNumbers (bytes : ByteArray) : Nat → Nat → Except Stop (List Nat × Nat)
  | 0, bit => .ok ([], bit)
  | count + 1, bit => do
    let (n, bit) ← number bytes bit 3
    let (rest, bit) ← shortNumbers bytes count bit
    return (n :: rest, bit)

/-- Reads code lengths into `done`, which holds them backwards, until there are `total`. A run may
go beyond that. Every round adds one at least, so `fuel` rounds are enough for as many. -/
def codeLengthsWithin (code : PrefixCode) (bytes : ByteArray) (total : Nat) :
    Nat → List Nat → Nat → Except Stop (List Nat × Nat)
  | 0, done, bit => .ok (done, bit)
  | fuel + 1, done, bit =>
    if total ≤ done.length then .ok (done, bit)
    else
      match code.look bytes bit with
      | .starved => .error .starved
      | .unassigned => .error .invalid
      | .found symbol bit =>
        if symbol < 16 then codeLengthsWithin code bytes total fuel (symbol :: done) bit
        else
          let run (length base extra : Nat) := do
            let (n, bit) ← number bytes bit extra
            codeLengthsWithin code bytes total fuel (List.replicate (base + n) length ++ done) bit
          if symbol = 16 then
            match done with
            | [] => .error .invalid
            | previous :: _ => run previous 3 2
          else if symbol = 17 then run 0 3 3
          else run 0 11 7

/-- Reads the two codes of a block that brings its own. -/
def ownCodes (bytes : ByteArray) (bit : Nat) : Except Stop (Phase × Nat) := do
  let (literals, bit) ← number bytes bit 5
  let (distances, bit) ← number bytes bit 5
  let (lengths, bit) ← number bytes bit 4
  let literals := literals + 257
  let distances := distances + 1
  if 286 < literals ∨ 30 < distances then throw .invalid
  let (sent, bit) ← shortNumbers bytes (lengths + 4) bit
  let lengthOf (symbol : Nat) := ((lengthOrder.zip sent).lookup symbol).getD 0
  let codeLengthLengths := (List.range 19).map lengthOf
  if !PrefixCode.isComplete codeLengthLengths then throw .invalid
  let total := literals + distances
  let (done, bit) ←
    codeLengthsWithin (.ofLengths codeLengthLengths) bytes total total [] bit
  if done.length ≠ total then throw .invalid
  let all := done.reverse
  let literalLengths := all.take literals
  let distanceLengths := all.drop literals
  if !(PrefixCode.isUsable literalLengths && PrefixCode.isUsable distanceLengths) then
    throw .invalid
  return (.coded (.ofLengths literalLengths) (.ofLengths distanceLengths), bit)

/-- Phase that follows a block. -/
def afterBlock (last : Bool) : Phase := if last then .finished else .header

/-- Reads the header of a block. -/
def blockHeader (s : Inflate) : Except Stop Inflate := do
  let (last, bit) ← number s.input s.bit 1
  let (kind, bit) ← number s.input bit 2
  let last := last == 1
  match kind with
  | 0 =>
    let start := (bit + 7) / 8
    if s.input.size < start + 4 then throw .starved
    let length := LittleEndian.decodeAt s.input start 2
    let complement := LittleEndian.decodeAt s.input (start + 2) 2
    if length + complement ≠ 65535 then throw .invalid
    let phase := if length = 0 then afterBlock last else .stored length
    return { s with phase, last, bit := 8 * (start + 4) }
  | 1 => return { s with phase := fixedPhase, last, bit }
  | 2 =>
    let (phase, bit) ← ownCodes s.input bit
    return { s with phase, last, bit }
  | _ => throw .invalid

/-! ### Symbols -/

/-- Base and number of extra bits of the lengths that symbols from 257 on stand for. -/
def lengthTable : Array (Nat × Nat) :=
  #[(3, 0), (4, 0), (5, 0), (6, 0), (7, 0), (8, 0), (9, 0), (10, 0), (11, 1), (13, 1), (15, 1),
    (17, 1), (19, 2), (23, 2), (27, 2), (31, 2), (35, 3), (43, 3), (51, 3), (59, 3), (67, 4),
    (83, 4), (99, 4), (115, 4), (131, 5), (163, 5), (195, 5), (227, 5), (258, 0)]

/-- Base and number of extra bits of the distances that symbols stand for. -/
def distanceTable : Array (Nat × Nat) :=
  #[(1, 0), (2, 0), (3, 0), (4, 0), (5, 1), (7, 1), (9, 2), (13, 2), (17, 3), (25, 3), (33, 4),
    (49, 4), (65, 5), (97, 5), (129, 6), (193, 6), (257, 7), (385, 7), (513, 8), (769, 8),
    (1025, 9), (1537, 9), (2049, 10), (3073, 10), (4097, 11), (6145, 11), (8193, 12),
    (12289, 12), (16385, 13), (24577, 13)]

/-- The number that entry `i` of a table and the bits behind its symbol stand for. -/
def tableNumber (table : Array (Nat × Nat)) (i : Nat) (bytes : ByteArray) (bit : Nat) :
    Except Stop (Nat × Nat) :=
  match table[i]? with
  | none => .error .invalid
  | some (base, extra) => do
    let (n, bit) ← number bytes bit extra
    return (base + n, bit)

/-- The symbol whose code starts at bit `bit`, and the position behind it. -/
def symbol (code : PrefixCode) (bytes : ByteArray) (bit : Nat) : Except Stop (Nat × Nat) :=
  match code.look bytes bit with
  | .found symbol bit => .ok (symbol, bit)
  | .starved => .error .starved
  | .unassigned => .error .invalid

/-- What one symbol of a compressed block, with all that belongs to it, stands for. -/
inductive Token
  | literal (b : UInt8)
  | endOfBlock
  | copy (length distance : Nat)

/-- Reads a token of a compressed block. -/
def token (literals distances : PrefixCode) (bytes : ByteArray) (bit : Nat) :
    Except Stop (Token × Nat) := do
  let (literal, bit) ← symbol literals bytes bit
  if literal < 256 then return (.literal (UInt8.ofNat literal), bit)
  else if literal = 256 then return (.endOfBlock, bit)
  else
    let (length, bit) ← tableNumber lengthTable (literal - 257) bytes bit
    let (code, bit) ← symbol distances bytes bit
    let (distance, bit) ← tableNumber distanceTable code bytes bit
    return (.copy length distance, bit)

/-! ### Running -/

/-- Why a run ended. -/
inductive Halt
  /-- The output is as long as was asked for. -/
  | full
  | starved
  | invalid
  | finished
deriving DecidableEq, Repr

namespace Halt

/-- The end of a run for which decoding could not go on. -/
def ofStop : Stop → Halt
  | .starved => .starved
  | .invalid => .invalid

end Halt

/-- Decodes until the output is longer than `limit`, or to the byte as long if the next byte is a
stored one. Every round uses up input, so `fuel` rounds are enough for fewer bits. -/
def runWithin (limit : Nat) : Nat → Inflate → Halt × Inflate
  | 0, s => (.starved, s)
  | fuel + 1, s =>
    if limit < s.output.size then (.full, s)
    else
      match s.phase with
      | .finished => (.finished, s)
      | .header =>
        match s.blockHeader with
        | .ok s => runWithin limit fuel s
        | .error stop => (.ofStop stop, s)
      | .stored left =>
        let start := s.bit / 8
        let step := min left (min (limit - s.output.size) (s.input.size - start))
        if limit ≤ s.output.size then (.full, s)
        else if step = 0 then (.starved, s)
        else
          runWithin limit fuel { s with
            phase := if step = left then afterBlock s.last else .stored (left - step)
            bit := s.bit + 8 * step
            output := s.output ++ s.input.extract start (start + step) }
      | .coded literals distances =>
        match token literals distances s.input s.bit with
        | .error stop => (.ofStop stop, s)
        | .ok (.literal b, bit) =>
          runWithin limit fuel { s with bit, output := s.output.push b }
        | .ok (.endOfBlock, bit) =>
          runWithin limit fuel { s with bit, phase := afterBlock s.last }
        | .ok (.copy length distance, bit) =>
          runWithin limit fuel { s with bit, output := copyBack s.output distance length }

/-- Decodes until the output reaches `limit`, the input runs out, or the stream ends. -/
def run (limit : Nat) (s : Inflate) : Halt × Inflate :=
  runWithin limit (8 * s.input.size + 1) s

/-- Takes more input in, in front of nothing but what is not used up. -/
def feed (bytes : ByteArray) (s : Inflate) : Inflate :=
  { s with input := s.input.extract (s.bit / 8) s.input.size ++ bytes, bit := s.bit % 8 }

/-- Gives the input back of which not a bit is used up. -/
def giveBack (s : Inflate) : ByteArray × Inflate :=
  let used := (s.bit + 7) / 8
  (s.input.extract used s.input.size, { s with input := s.input.extract 0 used })

end Inflate
end TraceStore.Deflate
