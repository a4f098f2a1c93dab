/-!
# Cyclic redundancy check

The 32-bit check of gzip, with bits taken lowest first.
-/
namespace TraceStore.Crc32

/-- The polynomial, lowest power first. -/
def polynomial : UInt32 := 0xedb88320

/-- Takes one bit out of a remainder. -/
def shift (c : UInt32) : UInt32 :=
  if c &&& 1 = 1 then (c >>> 1) ^^^ polynomial else c >>> 1

/-- Takes a number of bits out of a remainder. -/
def shifts : Nat → UInt32 → UInt32
  | 0, c => c
  | n + 1, c => shifts n (shift c)

/-- Remainders of the bytes. -/
def table : Array UInt32 := (Array.range 256).map fun i => shifts 8 (UInt32.ofNat i)

/-- Remainder of a byte. -/
def remainder (b : UInt32) : UInt32 := table.getD (b &&& 0xff).toNat 0

/-- Check of some bytes and `bytes`, if `crc` is the check of the ones before. -/
def update (crc : UInt32) (bytes : ByteArray) : UInt32 :=
  (bytes.data.foldl (fun c b => remainder (c ^^^ b.toUInt32) ^^^ (c >>> 8)) (crc ^^^ 0xffffffff))
    ^^^ 0xffffffff

/-- Check of `bytes`. -/
def compute (bytes : ByteArray) : UInt32 := update 0 bytes

/-- The check of some bytes goes on where that of the bytes before ended. -/
theorem update_append (crc : UInt32) (a b : ByteArray) :
    update crc (a ++ b) = update (update crc a) b := by
  simp only [update, ByteArray.data_append, Array.foldl_append]
  rw [UInt32.xor_assoc _ 0xffffffff, UInt32.xor_self, UInt32.xor_zero]

end TraceStore.Crc32
