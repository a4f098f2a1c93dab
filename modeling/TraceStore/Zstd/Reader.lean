import TraceStore.Bytes.XxHash64
import TraceStore.Error
import TraceStore.Zstd.Frame

/-!
# Reading zstd data

A piece of zstd data is one frame after the other, with skippable frames between them that hold
anything and decode to nothing. A `Reader` decodes as much of it as it is asked for.

A frame whose contents fit a request is decoded in one go, into the place of its contents; others are
decoded block by block, through a window of their own.
-/
namespace TraceStore.Zstd

/-- Magic number of a frame. -/
def frameMagic : Nat := 0xfd2fb528

/-- Magic number of the first kind of skippable frames; there are sixteen. -/
def skippableMagic : Nat := 0x184d2a50

/-- A frame that is being decoded. -/
structure OpenFrame where
  header : FrameHeader
  /-- Whether its contents fit the request that came to it. -/
  whole : Bool
  /-- Where its contents start in the output. -/
  start : Nat
  memory : BlockMemory

namespace OpenFrame

/-- Longest output of a block. -/
def longest (frame : OpenFrame) : Nat :=
  if frame.whole then frame.header.contentSize.getD 0 else frame.header.blockLimit

end OpenFrame

/-- What a reader is in the middle of. -/
inductive Stage
  /-- Nothing: there is another frame, or the end of the data. -/
  | between
  | within (frame : OpenFrame)
  /-- A frame without the check behind it. -/
  | behind (frame : OpenFrame)
  /-- The data does not decode any further. -/
  | failed

/-- A reader of zstd data. -/
structure Reader where
  data : ByteArray
  /-- Position of the next byte of the data. -/
  i : Nat
  /-- Everything that was decoded. -/
  out : ByteArray
  /-- Bytes of that which were handed out. -/
  delivered : Nat
  stage : Stage

namespace Reader

/-- A reader at the beginning of a piece of data. -/
def start (data : ByteArray) : Reader := ⟨data, 0, .empty, 0, .between⟩

/-- Whether the data ends here. It holds a frame at least. -/
def ended (r : Reader) : Bool :=
  match r.stage with
  | .between => 0 < r.i && r.data.size ≤ r.i
  | _ => false

/-- Whether there is something to hand out to a request for `count` bytes: all of them, or what is
left of a frame. A frame that fits a request is handed out when it has ended. -/
def ready (count : Nat) (r : Reader) : Bool :=
  match r.stage with
  | .between => r.delivered < r.out.size
  | .within frame | .behind frame => !frame.whole && r.delivered + count ≤ r.out.size
  | .failed => false

/-- Hands out some of what was decoded. -/
def handOut (count : Nat) (r : Reader) : ByteArray × Reader :=
  let piece := r.out.extract r.delivered (r.delivered + count)
  (piece, { r with delivered := r.delivered + piece.size })

/-- Begins the frame at hand, with room for `count` bytes, or passes it if it is skippable. A frame
that fits the room needs no window. -/
def beginFrame (count : Nat) (r : Reader) : Option Reader :=
  if r.data.size < r.i + 4 then none
  else
    let magic := wordAt r.data r.i 4
    if magic = frameMagic then
      match FrameHeader.read? r.data (r.i + 4) with
      | none => none
      | some header =>
        let whole := header.contentSize.any (· ≤ count)
        if !whole ∧ maxWindowSize < header.windowSize then none
        else
          let frame := ⟨header, whole, r.out.size, .initial⟩
          some { r with i := r.i + 4 + header.size, stage := .within frame }
    else if magic / 16 * 16 = skippableMagic then
      let stop := r.i + 8 + wordAt r.data (r.i + 4) 4
      if r.data.size < r.i + 8 ∨ r.data.size < stop then none
      else some { r with i := stop }
    else none

/-- Decodes the next block of a frame. The blocks may not decode to more than the header tells, and
all of them decode to exactly that; but of a frame that did not fit a request, this is not looked at
when the last block is empty. -/
def decodeBlock (data : ByteArray) (frame : OpenFrame) (delivered : Nat) (s : FrameState) :
    Option Reader :=
  match nextBlock data frame.start frame.header.blockLimit frame.longest s with
  | none => none
  | some (last, empty, s) =>
    let decoded := s.out.size - frame.start
    let told := frame.header.contentSize.getD decoded
    if told < decoded then none
    else if !last then
      some ⟨data, s.i, s.out, delivered, .within { frame with memory := s.memory }⟩
    else if (frame.whole ∨ !empty) ∧ told ≠ decoded then none
    else some ⟨data, s.i, s.out, delivered, if frame.header.checked then .behind frame else .between⟩

/-- Compares the contents of a frame with the check behind it. -/
def check (frame : OpenFrame) (r : Reader) : Option Reader :=
  if r.data.size < r.i + 4 then none
  else if wordAt r.data r.i 4 ≠ (XxHash64.hashFrom r.out frame.start).toNat % 2 ^ 32 then none
  else some { r with i := r.i + 4, stage := .between }

/-- Decodes on, with room for `count` bytes. -/
def advance (count : Nat) (r : Reader) : Option Reader :=
  match r.stage with
  | .between => beginFrame count r
  | .within frame => decodeBlock r.data frame r.delivered ⟨r.i, frame.memory, r.out⟩
  | .behind frame => check frame r
  | .failed => none

/-- A reader whose data does not decode. -/
def failure : Except IoError ByteArray × Reader := (.error .zstd, ⟨.empty, 0, .empty, 0, .failed⟩)

/-- Decodes until there is something to hand out to a request for `count` bytes. Every step takes a
byte of the data, so `fuel` steps are enough for fewer bytes. -/
def readWithin (count : Nat) : Nat → Reader → Except IoError ByteArray × Reader
  | 0, _ => failure
  | fuel + 1, r =>
    if r.ready count then (r.handOut count).map .ok id
    else if r.ended then (.ok .empty, r)
    else
      match r.advance count with
      | none => failure
      | some r => readWithin count fuel r

/-- Some of the next bytes, at most `count`; none at the end of the data. -/
def read (count : Nat) (r : Reader) : Except IoError ByteArray × Reader :=
  readWithin count (r.data.size + 1) r

end Reader
end TraceStore.Zstd
