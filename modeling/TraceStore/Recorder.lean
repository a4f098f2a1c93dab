import TraceStore.Backend

/-!
# A backend in memory

A `Recorder` keeps what is written to it and remembers every call it gets, so that it shows what a
handle asks of its backend. The bytes are kept when it is closed and opened again.
-/
namespace TraceStore

/-- A call that a backend got. -/
inductive Call
  | acquire (path : String) (mode : Mode)
  | write (count : Nat)
  | read (count : Nat)
  | readSome (count : Nat)
  | getc
  | skip (count : Nat)
  | flush
  | close
deriving DecidableEq, Repr

namespace Call

/-- Text of a call. -/
def text : Call → String
  | acquire path mode => "open " ++ path ++ " " ++ mode.name
  | write count => "write " ++ toString count
  | read count => "read " ++ toString count
  | readSome count => "read_some " ++ toString count
  | getc => "getc"
  | skip count => "skip " ++ toString count
  | flush => "flush"
  | close => "close"

end Call

/-- A backend that keeps its bytes in memory. -/
structure Recorder where
  /-- Whether it claims to have positions. -/
  offsets : Bool
  /-- Whether it refuses to be opened. -/
  refuses : Bool
  data : ByteArray
  pos : Nat
  /-- The calls it got, the last one first. -/
  calls : List Call

namespace Recorder

/-- An empty recorder. -/
def new (offsets refuses : Bool) : Recorder := ⟨offsets, refuses, .empty, 0, []⟩

/-- Remembers a call. -/
def record (call : Call) (r : Recorder) : Recorder := { r with calls := call :: r.calls }

/-- The next bytes, at most `count`. -/
def next (r : Recorder) (count : Nat) : ByteArray := r.data.extract r.pos (r.pos + count)

/-- Moves on by `count` bytes, at most to the end. -/
def advance (r : Recorder) (count : Nat) : Recorder :=
  { r with pos := min (r.pos + count) r.data.size }

instance : Backend Recorder where
  format _ := .snappy
  supportsOffsets r := r.offsets
  acquire path mode r d :=
    let r := r.record (.acquire path mode)
    if r.refuses then ⟨.error (.corrupt (.codec "refused")), r, d⟩
    else ⟨.ok (), { r with pos := 0 }, d⟩
  write bytes r d :=
    let r := r.record (.write bytes.size)
    ⟨.ok (), { r with data := r.data ++ bytes }, d⟩
  read count r _ :=
    let r := r.record (.read count)
    let bytes := r.next count
    if bytes.size < count then (.error .unexpectedEof, r) else (.ok bytes, r.advance count)
  readSome count r _ :=
    let r := r.record (.readSome count)
    (.ok (r.next count), r.advance count)
  getc r _ :=
    let r := r.record .getc
    ((r.next 1).data[0]?, r.advance 1)
  skip count r _ := (.ok (), (r.record (.skip count)).advance count)
  flush r d := ⟨.ok (), r.record .flush, d⟩
  close r d := (r.record .close, d)

end Recorder
end TraceStore
