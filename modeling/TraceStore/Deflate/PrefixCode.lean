import TraceStore.Bytes.Bits

/-!
# Canonical prefix codes

A prefix code is given by the length of each symbol's code. Codes of one length are consecutive
numbers in the order of their symbols, and follow those of the lengths below. A code is sent with
its highest bit first.
-/
namespace TraceStore.Deflate

/-- Longest code. -/
def maxCodeLength : Nat := 15

/-- A canonical prefix code, prepared for decoding. -/
structure PrefixCode where
  /-- For each length from one up, how many symbols have a code of that length. -/
  counts : List Nat
  /-- The symbols in the order of their codes. -/
  symbols : Array Nat

/-- What a look at the next bits of a stream finds. -/
inductive Symbol
  /-- A symbol, and the bit position behind its code. -/
  | found (symbol stop : Nat)
  /-- The stream ends within a code. -/
  | starved
  /-- No code starts like this. -/
  | unassigned

namespace PrefixCode

/-- The lengths that codes may have, shortest first. -/
def codeLengths : List Nat := (List.range maxCodeLength).map (· + 1)

/-- The code whose symbol `i` has a code of length `lengths[i]`; zero stands for no code. -/
def ofLengths (lengths : List Nat) : PrefixCode where
  counts := codeLengths.map lengths.count
  symbols := (codeLengths.flatMap fun length =>
    lengths.zipIdx.filterMap fun (l, symbol) => if l = length then some symbol else none).toArray

/-- Share of all codes of the longest length that are taken by a symbol's code or start with it;
everything is taken if it is `2 ^ maxCodeLength`. -/
def coverage (lengths : List Nat) : Nat :=
  lengths.foldl (fun taken length =>
    if length = 0 then taken else taken + 2 ^ (maxCodeLength - length)) 0

/-- Whether every sequence of bits starts with exactly one code. -/
def isComplete (lengths : List Nat) : Bool := coverage lengths == 2 ^ maxCodeLength

/-- Whether the lengths are those of a code: a complete one, or one of at most one symbol. -/
def isUsable (lengths : List Nat) : Bool :=
  isComplete lengths || (lengths.filter (· != 0)).length ≤ 1

/-- Looks for a code among those of the lengths left. `first` is the lowest code of the length at
hand, `index` the place of its symbol, and `code` the bits taken so far. -/
def lookWithin (symbols : Array Nat) (bytes : ByteArray) :
    List Nat → Nat → Nat → Nat → Nat → Symbol
  | [], _, _, _, _ => .unassigned
  | count :: rest, bit, first, index, code =>
    if bytes.size * 8 ≤ bit then .starved
    else
      let code := 2 * code + bitsAt bytes bit 1
      if code < first + count then
        match symbols[index + (code - first)]? with
        | some symbol => .found symbol (bit + 1)
        | none => .unassigned
      else lookWithin symbols bytes rest (bit + 1) (2 * (first + count)) (index + count) code

/-- The symbol whose code starts at bit `bit`. -/
def look (c : PrefixCode) (bytes : ByteArray) (bit : Nat) : Symbol :=
  lookWithin c.symbols bytes c.counts bit 0 0 0

end PrefixCode
end TraceStore.Deflate
