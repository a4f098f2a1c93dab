/-!
# Reading a source to its end

A source hands out some of its next bytes, at most as many as it is asked for, and none at its end.
`Take` is a source that ends early, and `Take.readToEnd` gathers all bytes of it in a buffer. How
much it asks for at a time is the room that the buffer has.
-/
namespace TraceStore

/-- Room in a growing buffer, by the sizes of the pieces in it, the last one first. A buffer that is
full grows, so there is always some. -/
structure Room where
  after : List Nat → Nat
  pos : ∀ sizes, 0 < after sizes

namespace Room

/-- Bytes that a full buffer grows by at least. -/
def least : Nat := 32

/-- Room in a buffer that doubles. The first piece is read into a place of its own, and the buffer
made for it, with eight bytes at least. -/
def doublingAfter : List Nat → Nat
  | [] => least
  | [first] => if first < 8 then 8 - first else max first least
  | size :: sizes =>
    let room := doublingAfter sizes
    if size < room then room - size else max (sizes.foldl (· + ·) size) least

theorem doublingAfter_pos (sizes : List Nat) : 0 < doublingAfter sizes := by
  match sizes with
  | [] => decide
  | [first] =>
    rw [doublingAfter, least]
    split <;> omega
  | size :: second :: sizes =>
    rw [doublingAfter, least]
    · split <;> omega
    · simp

/-- A buffer that doubles. -/
def doubling : Room := ⟨doublingAfter, doublingAfter_pos⟩

end Room

variable {ε δ : Type}

/-- A source that ends after `limit` bytes at the latest. -/
structure Take (δ : Type) where
  source : δ
  limit : Nat

namespace Take

/-- Some of the next bytes. The source is asked for none behind the limit. -/
def read (next : Nat → δ → Except ε ByteArray × δ) (count : Nat) (t : Take δ) :
    Except ε ByteArray × Take δ :=
  if t.limit = 0 then (.ok .empty, t)
  else
    match next (min count t.limit) t.source with
    | (.ok piece, source) => (.ok piece, ⟨source, t.limit - piece.size⟩)
    | (.error e, source) => (.error e, ⟨source, t.limit⟩)

/-- Adds pieces to `out` until there is none. The pieces in it have the given sizes, the last one
first. Every piece takes a byte of the limit, so `fuel` requests are enough below it. -/
def readWithin (next : Nat → δ → Except ε ByteArray × δ) (room : Room) :
    Nat → List Nat → ByteArray → Take δ → Except ε ByteArray
  | 0, _, out, _ => .ok out
  | fuel + 1, sizes, out, t =>
    match t.read next (room.after sizes) with
    | (.error e, _) => .error e
    | (.ok piece, t) =>
      if piece.isEmpty then .ok out
      else readWithin next room fuel (piece.size :: sizes) (out ++ piece) t

/-- All bytes up to the end. -/
def readToEnd (next : Nat → δ → Except ε ByteArray × δ) (room : Room) (t : Take δ) :
    Except ε ByteArray :=
  readWithin next room (t.limit + 1) [] .empty t

end Take
end TraceStore
