import TraceStore.Proofs.Chunk.Handle
import TraceStore.Proofs.Chunk.Layout
import TraceStore.Proofs.Disk.Writer

/-!
# What a writer of chunks leaves in its file

A writer has emitted some chunks behind the magic, and the bytes of the next one are pending:
`ChunkWriter.Emits`. Whatever is written later, the pending bytes become the beginning of the next
chunk, which starts where the writer says: `ChunkWriter.Grows`.
-/
namespace TraceStore

variable {σ : Type} {c : Codec σ} {o : WriteOptions}

/-- A chunk that a writer emitted: its bytes, and the block that the codec made of them. -/
structure Emitted (c : Codec σ) (o : WriteOptions) where
  data : ByteArray
  block : ByteArray
  compress_eq : ∃ memory memory', c.compress o data memory = (.ok block, memory')
  size_lt : block.size < 2 ^ 32
  data_pos : 0 < data.size
  data_le : data.size ≤ o.chunkSize.toNat

namespace Emitted

/-- The bytes of a file that some chunks take. -/
def frames (chunks : List (Emitted c o)) : List UInt8 := chunks.flatMap fun e => frameOf e.block

/-- The bytes that were written into some chunks. -/
def contents (chunks : List (Emitted c o)) : List UInt8 := chunks.flatMap (·.data.data.toList)

@[simp] theorem frames_nil : frames ([] : List (Emitted c o)) = [] := rfl
@[simp] theorem frames_cons (e : Emitted c o) (chunks : List (Emitted c o)) :
    frames (e :: chunks) = frameOf e.block ++ frames chunks := rfl
@[simp] theorem frames_append (chunks more : List (Emitted c o)) :
    frames (chunks ++ more) = frames chunks ++ frames more := by simp [frames]

@[simp] theorem contents_nil : contents ([] : List (Emitted c o)) = [] := rfl
@[simp] theorem contents_cons (e : Emitted c o) (chunks : List (Emitted c o)) :
    contents (e :: chunks) = e.data.data.toList ++ contents chunks := rfl
@[simp] theorem contents_append (chunks more : List (Emitted c o)) :
    contents (chunks ++ more) = contents chunks ++ contents more := by simp [contents]

end Emitted

/-- Whether the codec encodes every chunk that a writer with these options can have, to a block whose
length fits its field. -/
def Codec.Encodes (c : Codec σ) (o : WriteOptions) : Prop :=
  ∀ (data : ByteArray) (memory : σ), 0 < data.size → data.size ≤ o.chunkSize.toNat →
    ∃ block memory', c.compress o data memory = (.ok block, memory') ∧ block.size < 2 ^ 32

/-- Whether the codec refuses a chunk with an error: it fails, or its block is too long for the field
of its length. -/
def Codec.Refuses (c : Codec σ) (o : WriteOptions) (data : ByteArray) (memory : σ) (e : Error) : Prop :=
  (c.compress o data memory).1 = .error e ∨
    ∃ block, (c.compress o data memory).1 = .ok block ∧ 2 ^ 32 ≤ block.size ∧
      e = .corrupt .lengthOverField

theorem Codec.Encodes.not_refuses (hc : c.Encodes o) {data : ByteArray} (hpos : 0 < data.size)
    (hle : data.size ≤ o.chunkSize.toNat) (memory : σ) (e : Error) : ¬ c.Refuses o data memory e := by
  obtain ⟨block, memory', hblock, hsize⟩ := hc data memory hpos hle
  rw [Codec.Refuses, hblock]
  rintro (herror | ⟨block', hok, hlong, -⟩)
  · cases herror
  · obtain rfl := Except.ok.inj hok
    omega

namespace ChunkWriter

/-! ### What a writer does with its file -/

theorem through_emit (c : Codec σ) (o : WriteOptions) (w : ChunkWriter) (memory : σ) (d : Disk) :
    w.sink.Through d (w.emit c o memory d).state.2.sink (w.emit c o memory d).disk := by
  rw [emit]
  split
  · exact .refl
  split
  · exact .refl
  case h_2 block _ _ =>
    split
    · exact .refl
    dsimp only
    split
    · exact .write _ .refl
    · split <;> exact .write _ (.write _ .refl)

theorem through_writeWithin (c : Codec σ) (o : WriteOptions) (bytes : ByteArray) (fuel : Nat) :
    ∀ (start : Nat) (w : ChunkWriter) (memory : σ) (d : Disk), w.sink.Through d
      (writeWithin c o bytes fuel start memory w d).state.2.sink
      (writeWithin c o bytes fuel start memory w d).disk := by
  induction fuel with
  | zero => intro start w memory d; exact .refl
  | succ fuel ih =>
      intro start w memory d
      rw [writeWithin]
      split
      · exact .refl
      extract_lets stop w₁
      split
      · exact ih stop w₁ memory d
      · have hemit := through_emit c o w₁ memory d
        split <;> rename_i hnext <;> rw [hnext] at hemit
        · exact hemit
        · exact hemit.trans (ih ..)

/-- A writer of chunks does what is requested by writing to its file and flushing it. -/
theorem through_perform (c : Codec σ) (o : WriteOptions) (request : WriteRequest)
    (w : σ × ChunkWriter) (d : Disk) :
    w.2.sink.Through d (perform c o request w d).state.2.sink (perform c o request w d).disk := by
  obtain ⟨memory, w⟩ := w
  cases request with
  | write bytes => exact through_writeWithin ..
  | flush =>
      have hemit := through_emit c o w memory d
      rw [perform, flush]
      split <;> rename_i hnext <;> rw [hnext] at hemit
      · exact hemit
      · exact hemit.flush

/-- A request passes on what it passes on behind what was passed on before. -/
theorem advances_perform (c : Codec σ) (o : WriteOptions) (request : WriteRequest)
    (w : σ × ChunkWriter) (d : Disk) :
    w.2.sink.Advances d (perform c o request w d).state.2.sink (perform c o request w d).disk :=
  (through_perform c o request w d).advances

/-- A writer is created once the options are valid and the path is made a file. It holds the magic
back, so nothing is left that could fail. -/
theorem create_ok_iff {path : String} {d d' : Disk} {w : ChunkWriter} :
    create c o path d = .ok (w, d') ↔ o.validate = .ok () ∧
      ∃ id, d.create path = .ok (id, d') ∧ w = ⟨⟨id, 0, c.magicBytes⟩, 2, .empty⟩ := by
  have hmagic : ∀ (id : Nat) (d : Disk),
      (FileWriter.start id).write c.magicBytes d = ⟨.ok (), ⟨id, 0, c.magicBytes⟩, d⟩ :=
    fun id d => by simp [FileWriter.write, FileWriter.start, FileWriter.blockSize]
  cases ho : o.validate with
  | error e => simp [create, ho]
  | ok =>
      cases hcreate : d.create path with
      | error cause => simp [create, ho, hcreate]
      | ok made =>
          obtain ⟨id, d₁⟩ := made
          simp only [create, ho, hcreate, hmagic, Except.map, true_and]
          constructor
          · intro h
            obtain ⟨rfl, rfl⟩ := Prod.mk.inj (Except.ok.inj h)
            exact ⟨id, rfl, rfl⟩
          · rintro ⟨_, h, rfl⟩
            obtain ⟨rfl, rfl⟩ := Prod.mk.inj (Except.ok.inj h)
            rfl

/-! ### The chunks emitted -/

/-- A writer that has emitted some chunks, to a file of the disk `d₀`. -/
structure Emits (d₀ : Disk) (id : Nat) (chunks : List (Emitted c o)) (w : ChunkWriter) (d : Disk) :
    Prop where
  wrote : w.sink.Wrote d₀ id (c.magicBytes.data.toList ++ Emitted.frames chunks) d
  written_eq : w.written = 2 + (Emitted.frames chunks).length
  cache_le : w.cache.size ≤ o.chunkSize.toNat

/-- The writer `w'` comes after `w` if the bytes `s` are written and the chunks `more` emitted in
between. The first of these chunks starts with the bytes that were pending. -/
structure Grows (more : List (Emitted c o)) (s : List UInt8) (w w' : ChunkWriter) : Prop where
  contents_eq : Emitted.contents more ++ w'.cache.data.toList = w.cache.data.toList ++ s
  first_le : ∀ e ∈ more.head?, w.cache.size ≤ e.data.size

theorem Grows.refl (w : ChunkWriter) : Grows ([] : List (Emitted c o)) [] w w :=
  ⟨by simp, by simp⟩

theorem Grows.trans {more more' : List (Emitted c o)} {s s' : List UInt8} {w w' w'' : ChunkWriter}
    (h : Grows more s w w') (h' : Grows more' s' w' w'') :
    Grows (more ++ more') (s ++ s') w w'' := by
  refine ⟨?_, ?_⟩
  · rw [Emitted.contents_append, List.append_assoc, h'.contents_eq, ← List.append_assoc,
      h.contents_eq, List.append_assoc]
  · cases more with
    | nil =>
        -- Nothing was emitted yet, so what was pending is pending still.
        intro e he
        have hlen := congrArg List.length h.contents_eq
        have hle := h'.first_le e he
        simp only [Emitted.contents_nil, List.nil_append, List.length_append, length_toList] at hlen
        omega
    | cons first rest => exact h.first_le

/-! ### Turns -/

/-- A request to a writer, and what came of it. -/
structure Turn (c : Codec σ) (o : WriteOptions) where
  request : WriteRequest
  result : Except Error Unit
  /-- The bytes of the request that were taken in. -/
  accepted : List UInt8
  /-- The chunks that were emitted. -/
  emitted : List (Emitted c o)
  /-- The bytes that are pending afterwards. -/
  pending : ByteArray

namespace Turn

/-- How a turn goes on from the bytes that were pending before it. A write fills one chunk after the
other, and stops at the end of a chunk that the codec refuses. A flush ends the pending chunk, and
changes nothing if the codec refuses it. -/
inductive Follows (pending : ByteArray) : Turn c o → Prop
  | wrote {bytes : ByteArray} {more : List (Emitted c o)} {pending' : ByteArray}
      (kept : Emitted.contents more ++ pending'.data.toList =
        pending.data.toList ++ bytes.data.toList)
      (full : ∀ e ∈ more, e.data.size = o.chunkSize.toNat)
      (room : pending.size < o.chunkSize.toNat ∨ 0 < bytes.size →
        pending'.size < o.chunkSize.toNat) :
      Follows pending ⟨.write bytes, .ok (), bytes.data.toList, more, pending'⟩
  | stopped {bytes : ByteArray} {e : Error} {part : List UInt8} {more : List (Emitted c o)}
      {pending' : ByteArray} {memory : σ} (taken : part <+: bytes.data.toList)
      (kept : Emitted.contents more ++ pending'.data.toList = pending.data.toList ++ part)
      (full : ∀ e ∈ more, e.data.size = o.chunkSize.toNat)
      (size_eq : pending'.size = o.chunkSize.toNat) (refused : c.Refuses o pending' memory e) :
      Follows pending ⟨.write bytes, .error e, part, more, pending'⟩
  | idle (empty : pending.size = 0) : Follows pending ⟨.flush, .ok (), [], [], pending⟩
  | flushed {e : Emitted c o} (data_eq : e.data = pending) :
      Follows pending ⟨.flush, .ok (), [], [e], .empty⟩
  | unflushed {e : Error} {memory : σ} (pos : 0 < pending.size)
      (refused : c.Refuses o pending memory e) : Follows pending ⟨.flush, .error e, [], [], pending⟩

variable {pending : ByteArray} {turn : Turn c o}

/-- No byte is lost in a turn. -/
theorem Follows.contents_eq (h : turn.Follows pending) :
    Emitted.contents turn.emitted ++ turn.pending.data.toList =
      pending.data.toList ++ turn.accepted := by
  cases h with
  | wrote kept => exact kept
  | stopped _ kept => exact kept
  | idle => simp
  | flushed data_eq => simp [data_eq]
  | unflushed => simp

/-- The first chunk that is emitted starts with the bytes that were pending. -/
theorem Follows.first_le (h : turn.Follows pending) (hle : pending.size ≤ o.chunkSize.toNat) :
    ∀ e ∈ turn.emitted.head?, pending.size ≤ e.data.size := by
  intro e he
  have hmem := List.mem_of_mem_head? he
  cases h with
  | wrote _ full => exact (full e hmem).symm ▸ hle
  | stopped _ _ full => exact (full e hmem).symm ▸ hle
  | idle => cases hmem
  | flushed data_eq =>
      obtain rfl := List.mem_singleton.1 hmem
      exact data_eq ▸ Nat.le_refl _
  | unflushed => cases hmem

/-- A write of nothing changes nothing. -/
private theorem Follows.of_empty {bytes : ByteArray} (hempty : bytes.size = 0) (pending : ByteArray) :
    Follows pending (⟨.write bytes, .ok (), bytes.data.toList, [], pending⟩ : Turn c o) := by
  refine .wrote ?_ (by simp) (by omega)
  simp [toList_eq_nil_iff.2 hempty]

/-- Bytes that fit beside the pending ones, and a write after them, make one write. -/
private theorem Follows.behind {piece rest bytes : ByteArray} {result : Except Error Unit}
    {part : List UInt8} {more : List (Emitted c o)} {pending' : ByteArray}
    (h : Follows (pending ++ piece) ⟨.write rest, result, part, more, pending'⟩)
    (hroom : (pending ++ piece).size < o.chunkSize.toNat)
    (hbytes : bytes.data.toList = piece.data.toList ++ rest.data.toList) :
    Follows pending ⟨.write bytes, result, piece.data.toList ++ part, more, pending'⟩ := by
  cases h with
  | wrote kept full room =>
      rw [← hbytes]
      refine .wrote ?_ full fun _ => room (.inl hroom)
      rw [kept, hbytes]
      simp
  | stopped taken kept full size_eq refused =>
      refine .stopped ?_ ?_ full size_eq refused
      · rw [hbytes]
        exact (List.prefix_append_right_inj _).2 taken
      · rw [kept]
        simp

/-- Bytes that complete the pending chunk, and a write after them, make one write if the chunk is
emitted in between. -/
private theorem Follows.behind_chunk {piece rest bytes : ByteArray} {result : Except Error Unit}
    {part : List UInt8} {first : Emitted c o} {more : List (Emitted c o)} {pending' : ByteArray}
    (h : Follows .empty ⟨.write rest, result, part, more, pending'⟩)
    (hdata : first.data = pending ++ piece) (hsize : first.data.size = o.chunkSize.toNat)
    (hbytes : bytes.data.toList = piece.data.toList ++ rest.data.toList) :
    Follows pending ⟨.write bytes, result, piece.data.toList ++ part, first :: more, pending'⟩ := by
  have hchunk : 0 < o.chunkSize.toNat := hsize ▸ first.data_pos
  cases h with
  | wrote kept full room =>
      rw [← hbytes]
      refine .wrote ?_ ?_ fun _ => room (.inl hchunk)
      · rw [Emitted.contents_cons, List.append_assoc, kept, hdata, hbytes]
        simp
      · exact List.forall_mem_cons.2 ⟨hsize, full⟩
  | stopped taken kept full size_eq refused =>
      refine .stopped ?_ ?_ ?_ size_eq refused
      · rw [hbytes]
        exact (List.prefix_append_right_inj _).2 taken
      · rw [Emitted.contents_cons, List.append_assoc, kept, hdata]
        simp
      · exact List.forall_mem_cons.2 ⟨hsize, full⟩

end Turn

variable {d₀ d : Disk} {id : Nat} {chunks : List (Emitted c o)} {w : ChunkWriter} {memory : σ}

/-! ### Emitting -/

/-- Nothing is emitted if nothing is pending. -/
theorem emit_of_empty (hempty : w.cache.size = 0) :
    w.emit c o memory d = ⟨.ok (), (memory, w), d⟩ := by
  rw [ChunkWriter.emit, if_pos (isEmpty_iff.2 hempty)]

namespace Emits

/-- A pending chunk that the codec encodes is emitted. -/
theorem emit_of_compress (h : w.Emits d₀ id chunks d) (hpending : 0 < w.cache.size)
    {block : ByteArray} {memory' : σ} (hblock : c.compress o w.cache memory = (.ok block, memory'))
    (hsize : block.size < 2 ^ 32) :
    ∃ (e : Emitted c o) (w' : ChunkWriter) (d' : Disk),
      w.emit c o memory d = ⟨.ok (), (memory', w'), d'⟩ ∧ e.data = w.cache ∧ e.block = block ∧
        w'.cache = .empty ∧ w'.Emits d₀ id (chunks ++ [e]) d' := by
  obtain ⟨sink₁, d₁, hheader, h₁⟩ := h.wrote.write (LittleEndian.bytes 4 block.size)
  obtain ⟨sink₂, d₂, hbody, h₂⟩ := h₁.write block
  refine ⟨⟨w.cache, block, ⟨_, _, hblock⟩, hsize, hpending, h.cache_le⟩,
    ⟨sink₂, w.written + 4 + block.size, .empty⟩, d₂, ?_, rfl, rfl, rfl, ?_, ?_, Nat.zero_le _⟩
  · have hnot : w.cache.isEmpty = false := by
      rw [ByteArray.isEmpty, beq_eq_false_iff_ne]
      omega
    rw [ChunkWriter.emit, hnot, if_neg Bool.false_ne_true, hblock]
    simp only [if_neg (Nat.not_le.2 hsize), hheader, hbody]
  · simpa [frameOf] using h₂
  · simp [h.written_eq, frameOf]
    omega

/-- A pending chunk is emitted, or the codec refuses it and nothing changes but its memory. -/
theorem emit_or_refused (h : w.Emits d₀ id chunks d) (hpending : 0 < w.cache.size) (memory : σ) :
    (∃ (e : Emitted c o) (w' : ChunkWriter) (d' : Disk) (memory' : σ),
      w.emit c o memory d = ⟨.ok (), (memory', w'), d'⟩ ∧ e.data = w.cache ∧ w'.cache = .empty ∧
        w'.Emits d₀ id (chunks ++ [e]) d') ∨
    ∃ (e : Error) (memory' : σ), w.emit c o memory d = ⟨.error e, (memory', w), d⟩ ∧
      c.Refuses o w.cache memory e := by
  have hnot : ¬ w.cache.isEmpty = true := fun hempty => by
    rw [isEmpty_iff] at hempty
    omega
  obtain ⟨⟨result, memory'⟩, hcompress⟩ : ∃ made, c.compress o w.cache memory = made := ⟨_, rfl⟩
  cases result with
  | error e =>
      refine .inr ⟨e, memory', ?_, .inl (by rw [hcompress])⟩
      rw [ChunkWriter.emit, if_neg hnot, hcompress]
  | ok block =>
      by_cases hsize : block.size < 2 ^ 32
      · obtain ⟨e, w', d', hemit, hdata, -, hempty, h'⟩ := h.emit_of_compress hpending hcompress hsize
        exact .inl ⟨e, w', d', memory', hemit, hdata, hempty, h'⟩
      · have hlong := Nat.not_lt.1 hsize
        refine .inr ⟨_, memory', ?_, .inr ⟨block, by rw [hcompress], hlong, rfl⟩⟩
        rw [ChunkWriter.emit, if_neg hnot, hcompress]
        simp only [if_pos hlong]

/-- With a codec that encodes all chunks, the pending chunk is emitted. -/
theorem emit (h : w.Emits d₀ id chunks d) (hc : c.Encodes o) (memory : σ) :
    ∃ (more : List (Emitted c o)) (w' : ChunkWriter) (d' : Disk) (memory' : σ),
      w.emit c o memory d = ⟨.ok (), (memory', w'), d'⟩ ∧ w'.Emits d₀ id (chunks ++ more) d' ∧
        Grows more [] w w' ∧ w'.cache = .empty := by
  by_cases hpending : w.cache.size = 0
  · exact ⟨[], w, d, memory, emit_of_empty hpending, by simpa using h, .refl w,
      eq_of_toList_eq (toList_eq_nil_iff.2 hpending)⟩
  · have hpos := Nat.pos_of_ne_zero hpending
    rcases h.emit_or_refused hpos memory with
      ⟨e, w', d', memory', hemit, hdata, hempty, h'⟩ | ⟨e, _, -, hrefused⟩
    · exact ⟨[e], w', d', memory', hemit, h', ⟨by simp [hdata, hempty], by simp [hdata]⟩, hempty⟩
    · exact absurd hrefused (hc.not_refuses hpos h.cache_le _ _)

end Emits

/-! ### Writing -/

/-- The writer with more bytes pending. -/
def gather (w : ChunkWriter) (bytes : ByteArray) : ChunkWriter :=
  { w with cache := w.cache ++ bytes }

/-- One round of writing takes in as many bytes as the chunk and the bytes allow. -/
private theorem writeWithin_succ {bytes : ByteArray} {start : Nat} (hmore : start < bytes.size)
    (fuel : Nat) : writeWithin c o bytes (fuel + 1) start memory w d =
      let step := min (o.chunkSize.toNat - w.cache.size) (bytes.size - start)
      let w₁ := w.gather (bytes.extract start (start + step))
      if w₁.cache.size < o.chunkSize.toNat then
        writeWithin c o bytes fuel (start + step) memory w₁ d
      else
        match w₁.emit c o memory d with
        | ⟨.error e, state, d⟩ => ⟨.error e, state, d⟩
        | ⟨.ok (), (memory, w), d⟩ => writeWithin c o bytes fuel (start + step) memory w d := by
  rw [writeWithin, if_neg (Nat.not_le.2 hmore)]
  rfl

namespace Emits

/-- One round of writing the bytes from `start` on, which are `rest`, takes a piece of them into the
pending chunk. The piece is empty only if the chunk is full already. -/
private theorem round (h : w.Emits d₀ id chunks d) {bytes rest : ByteArray} {start : Nat}
    (hrest : rest.data.toList = bytes.data.toList.drop start) (hmore : 0 < rest.size) :
    ∃ piece rest' : ByteArray, rest.data.toList = piece.data.toList ++ rest'.data.toList ∧
      rest'.data.toList = bytes.data.toList.drop (start + piece.size) ∧
      (piece.size = 0 → w.cache.size = o.chunkSize.toNat) ∧
      (w.gather piece).Emits d₀ id chunks d ∧
      ∀ (fuel : Nat) (memory : σ),
        ChunkWriter.writeWithin c o bytes (fuel + 1) start memory w d =
          if (w.gather piece).cache.size < o.chunkSize.toNat then
            ChunkWriter.writeWithin c o bytes fuel (start + piece.size) memory (w.gather piece) d
          else
            match (w.gather piece).emit c o memory d with
            | ⟨.error e, state, d⟩ => ⟨.error e, state, d⟩
            | ⟨.ok (), (memory, w), d⟩ =>
              ChunkWriter.writeWithin c o bytes fuel (start + piece.size) memory w d := by
  have hcache := h.cache_le
  have hleft := congrArg List.length hrest
  rw [List.length_drop, length_toList, length_toList] at hleft
  generalize hstep : min (o.chunkSize.toNat - w.cache.size) (bytes.size - start) = step
  have hsize : (bytes.extract start (start + step)).size = step := by
    rw [ByteArray.size_extract]
    omega
  have htaken : (w.gather (bytes.extract start (start + step))).cache.size = w.cache.size + step := by
    rw [gather, ByteArray.size_append, hsize]
  refine ⟨bytes.extract start (start + step), ⟨⟨bytes.data.toList.drop (start + step)⟩⟩,
    ?_, ?_, by omega, ⟨h.wrote, h.written_eq, by omega⟩, fun fuel memory => ?_⟩
  · rw [hrest, toList_drop_eq bytes start step, hsize]
  · rw [hsize]
  · rw [writeWithin_succ (by omega), hsize, hstep]

/-- Writing the bytes from `start` on, which are `rest`. Each round takes bytes in, except that the
first does not if the pending chunk is full. -/
private theorem writeWithin (hchunk : 0 < o.chunkSize.toNat) (bytes : ByteArray) (fuel : Nat) :
    ∀ (start : Nat) (rest : ByteArray) (chunks : List (Emitted c o)) (w : ChunkWriter) (d : Disk)
      (memory : σ), rest.data.toList = bytes.data.toList.drop start → rest.size ≤ fuel →
      (w.cache.size = o.chunkSize.toNat → rest.size < fuel) → w.Emits d₀ id chunks d →
      ∃ (result : Except Error Unit) (part : List UInt8) (more : List (Emitted c o))
        (w' : ChunkWriter) (d' : Disk) (memory' : σ),
        writeWithin c o bytes fuel start memory w d = ⟨result, (memory', w'), d'⟩ ∧
          w'.Emits d₀ id (chunks ++ more) d' ∧
          Turn.Follows w.cache ⟨.write rest, result, part, more, w'.cache⟩ := by
  induction fuel with
  | zero =>
      intro start rest chunks w d memory hrest hfuel hfull h
      exact ⟨_, _, [], w, d, memory, rfl, by simpa using h, .of_empty (by omega) _⟩
  | succ fuel ih =>
      intro start rest chunks w d memory hrest hfuel hfull h
      by_cases hmore : 0 < rest.size
      case neg =>
        have hleft := congrArg List.length hrest
        rw [List.length_drop, length_toList, length_toList] at hleft
        exact ⟨_, _, [], w, d, memory, if_pos (by omega), by simpa using h, .of_empty (by omega) _⟩
      case pos =>
        obtain ⟨piece, rest', hsplit, hrest', hstuck, h₁, hround⟩ := h.round hrest hmore
        have hsize := congrArg List.length hsplit
        rw [List.length_append, length_toList, length_toList, length_toList] at hsize
        rw [hround]
        split
        case isTrue hroom =>
          obtain ⟨result, part, more, w', d', memory', hrun, h', hturn⟩ :=
            ih _ rest' chunks _ d memory hrest' (by omega) (by omega) h₁
          exact ⟨result, _, more, w', d', memory', hrun, h', hturn.behind hroom hsplit⟩
        case isFalse hfilled =>
          have hchunk₁ := Nat.le_antisymm h₁.cache_le (Nat.not_lt.1 hfilled)
          rcases h₁.emit_or_refused (hchunk₁ ▸ hchunk) memory with
            ⟨first, w₂, d₂, memory₂, hemit, hdata, hempty, h₂⟩ | ⟨e, memory₂, hemit, hrefused⟩
          · have hroom : w₂.cache.size ≠ o.chunkSize.toNat := hempty ▸ Nat.ne_of_lt hchunk
            obtain ⟨result, part, more, w', d', memory', hrun, h', hturn⟩ :=
              ih _ rest' (chunks ++ [first]) w₂ d₂ memory₂ hrest' (by omega) (absurd · hroom) h₂
            rw [hempty] at hturn
            rw [hemit]
            exact ⟨result, _, first :: more, w', d', memory', hrun, by simpa using h',
              hturn.behind_chunk hdata (hdata ▸ hchunk₁) hsplit⟩
          · rw [hemit]
            refine ⟨.error e, piece.data.toList, [], _, d, memory₂, rfl, by simpa using h₁,
              .stopped ?_ ?_ (by simp) hchunk₁ hrefused⟩
            · exact ⟨_, hsplit.symm⟩
            · simp [gather]

/-- A flush passes everything on that was emitted, once nothing is left to emit. -/
private theorem flush_of_emit {w₁ : ChunkWriter} {d₁ : Disk} {memory₁ : σ}
    (h : w₁.Emits d₀ id chunks d₁) (hemit : w.emit c o memory d = ⟨.ok (), (memory₁, w₁), d₁⟩) :
    ∃ (w' : ChunkWriter) (d' : Disk),
      ChunkWriter.perform c o .flush (memory, w) d = ⟨.ok (), (memory₁, w'), d'⟩ ∧
        w'.Emits d₀ id chunks d' ∧ w'.cache = w₁.cache := by
  obtain ⟨sink, hflush, -, hwrote⟩ := h.wrote.flush
  refine ⟨{ w₁ with sink }, _, ?_, ⟨hwrote, h.written_eq, h.cache_le⟩, rfl⟩
  simp only [ChunkWriter.perform, ChunkWriter.flush, hemit, hflush]
  rfl

/-- What a request comes to. -/
theorem turn (h : w.Emits d₀ id chunks d) (hchunk : 0 < o.chunkSize.toNat) (memory : σ)
    (request : WriteRequest) :
    ∃ (t : Turn c o) (w' : ChunkWriter) (d' : Disk) (memory' : σ), t.request = request ∧
      perform c o request (memory, w) d = ⟨t.result, (memory', w'), d'⟩ ∧
        w'.Emits d₀ id (chunks ++ t.emitted) d' ∧ t.Follows w.cache ∧ t.pending = w'.cache := by
  cases request with
  | write bytes =>
      obtain ⟨result, part, more, w', d', memory', hrun, h', hturn⟩ :=
        writeWithin hchunk bytes (bytes.size + 1) 0 bytes chunks w d memory rfl (by omega)
          (by omega) h
      exact ⟨⟨.write bytes, result, part, more, w'.cache⟩, w', d', memory', rfl, hrun, h', hturn, rfl⟩
  | flush =>
      by_cases hpending : w.cache.size = 0
      case pos =>
        obtain ⟨w', d', hperform, h', hcache⟩ := h.flush_of_emit (emit_of_empty hpending)
        exact ⟨⟨.flush, .ok (), [], [], w.cache⟩, w', d', memory, rfl, hperform, by simpa using h',
          .idle hpending, hcache.symm⟩
      case neg =>
        rcases h.emit_or_refused (Nat.pos_of_ne_zero hpending) memory with
          ⟨e, w₁, d₁, memory₁, hemit, hdata, hempty, h₁⟩ | ⟨e, memory₁, hemit, hrefused⟩
        · obtain ⟨w', d', hperform, h', hcache⟩ := h₁.flush_of_emit hemit
          exact ⟨⟨.flush, .ok (), [], [e], .empty⟩, w', d', memory₁, rfl, hperform, h',
            .flushed hdata, (hcache.trans hempty).symm⟩
        · refine ⟨⟨.flush, .error e, [], [], w.cache⟩, w, d, memory₁, rfl, ?_, by simpa using h,
            .unflushed (Nat.pos_of_ne_zero hpending) hrefused, rfl⟩
          simp only [ChunkWriter.perform, ChunkWriter.flush, hemit]

/-- Bytes that leave room in the pending chunk are added to it, and the disk does not change. -/
theorem write_of_lt (h : w.Emits d₀ id chunks d) (bytes : ByteArray)
    (hlt : w.cache.size + bytes.size < o.chunkSize.toNat) (memory : σ) :
    ∃ w', w.write c o bytes memory d = ⟨.ok (), (memory, w'), d⟩ ∧ w'.Emits d₀ id chunks d ∧
      w'.cache.size = w.cache.size + bytes.size := by
  rw [ChunkWriter.write]
  by_cases hnone : bytes.size = 0
  · exact ⟨w, by rw [ChunkWriter.writeWithin, if_pos (Nat.le_of_eq hnone)], h, by rw [hnone, Nat.add_zero]⟩
  · have hall : bytes.extract 0 (0 + min (o.chunkSize.toNat - w.cache.size) (bytes.size - 0)) =
        bytes := by
      rw [Nat.zero_add, Nat.sub_zero, Nat.min_eq_right (by omega), ByteArray.extract_zero_size]
    have hsize : (w.gather bytes).cache.size = w.cache.size + bytes.size := ByteArray.size_append
    refine ⟨w.gather bytes, ?_, ⟨h.wrote, h.written_eq, by omega⟩, hsize⟩
    rw [writeWithin_succ (Nat.pos_of_ne_zero hnone)]
    simp only [hall]
    rw [if_pos (by omega), ChunkWriter.writeWithin.eq_def]
    split
    · rfl
    · rw [if_pos (by omega)]

/-- A request of a writer whose codec encodes all chunks succeeds, and adds its bytes. -/
theorem perform (h : w.Emits d₀ id chunks d) (hc : c.Encodes o) (hlt : w.cache.size < o.chunkSize.toNat)
    (memory : σ) (request : WriteRequest) :
    ∃ (more : List (Emitted c o)) (w' : ChunkWriter) (d' : Disk) (memory' : σ),
      perform c o request (memory, w) d = ⟨.ok (), (memory', w'), d'⟩ ∧
        w'.Emits d₀ id (chunks ++ more) d' ∧ Grows more request.bytes w w' ∧
        w'.cache.size < o.chunkSize.toNat := by
  have hchunk := Nat.zero_lt_of_lt hlt
  obtain ⟨t, w', d', memory', rfl, hperform, h', hturn, hpending⟩ := h.turn hchunk memory request
  have hgrows : Grows t.emitted t.accepted w w' :=
    ⟨hpending ▸ hturn.contents_eq, hturn.first_le h.cache_le⟩
  cases hturn with
  | wrote _ _ room =>
      exact ⟨_, w', d', memory', hperform, h', hgrows, hpending ▸ room (.inl hlt)⟩
  | stopped _ _ _ size_eq refused =>
      exact absurd refused (hc.not_refuses (size_eq ▸ hchunk) (Nat.le_of_eq size_eq) _ _)
  | idle empty =>
      exact ⟨_, w', d', memory', hperform, h', hgrows, by rw [← hpending, empty]; exact hchunk⟩
  | flushed => exact ⟨_, w', d', memory', hperform, h', hgrows, hpending ▸ hchunk⟩
  | unflushed pos refused => exact absurd refused (hc.not_refuses pos h.cache_le _ _)

/-- Any requests of such a writer succeed, and add their bytes. -/
theorem runAll (h : w.Emits d₀ id chunks d) (hc : c.Encodes o) (hlt : w.cache.size < o.chunkSize.toNat)
    (memory : σ) (requests : List WriteRequest) :
    ∃ (more : List (Emitted c o)) (w' : ChunkWriter) (d' : Disk) (memory' : σ),
      WriteRequest.runAll (ChunkWriter.perform c o) requests (memory, w) d =
          ⟨.ok (), (memory', w'), d'⟩ ∧
        w'.Emits d₀ id (chunks ++ more) d' ∧ Grows more (WriteRequest.written requests) w w' ∧
        w'.cache.size < o.chunkSize.toNat := by
  induction requests generalizing w d memory chunks with
  | nil => exact ⟨[], w, d, memory, rfl, by simpa using h, .refl w, hlt⟩
  | cons request requests ih =>
      obtain ⟨more₁, w₁, d₁, memory₁, hfirst, h₁, hgrows₁, hlt₁⟩ := h.perform hc hlt memory request
      obtain ⟨more₂, w₂, d₂, memory₂, hrest, h₂, hgrows₂, hlt₂⟩ := ih h₁ hlt₁ memory₁
      refine ⟨more₁ ++ more₂, w₂, d₂, memory₂, ?_, by simpa using h₂, hgrows₁.trans hgrows₂, hlt₂⟩
      rw [WriteRequest.runAll, hfirst]
      exact hrest

/-- Finishing leaves the magic and the chunks in the file, the pending one included. -/
theorem finish (h : w.Emits d₀ id chunks d) (hc : c.Encodes o) (memory : σ) :
    ∃ more : List (Emitted c o), Emitted.contents more = w.cache.data.toList ∧
      (∀ e ∈ more.head?, w.cache.size ≤ e.data.size) ∧
      (w.finish c o memory d).2 = d₀.setNode id (.file ⟨(c.magicBytes.data.toList ++
        Emitted.frames (chunks ++ more)).toArray⟩) := by
  obtain ⟨more, w', d', memory', hemit, h', hgrows, hempty⟩ := h.emit hc memory
  refine ⟨more, ?_, hgrows.first_le, ?_⟩
  · simpa [hempty] using hgrows.contents_eq
  · simp only [ChunkWriter.finish, hemit, ChunkWriter.release, h'.wrote.release]

end Emits

/-! ### Creating -/

/-- A writer just created has emitted nothing. -/
theorem create_of_creatable (ho : o.validate = .ok ()) {path : String} (hpath : d.Creatable path) :
    ∃ (id : Nat) (d₀ : Disk) (w : ChunkWriter) (d' : Disk),
      d.create path = .ok (id, d₀) ∧ ChunkWriter.create c o path d = .ok (w, d') ∧
        w.Emits d₀ id ([] : List (Emitted c o)) d' ∧ w.cache = .empty := by
  obtain ⟨id, d₀, hcreate, hnode⟩ := hpath
  obtain ⟨sink, d', hwrite, hwrote⟩ := (FileWriter.wrote_start hnode).write c.magicBytes
  refine ⟨id, d₀, ⟨sink, 2, .empty⟩, d', hcreate, ?_, ⟨by simpa using hwrote, rfl, Nat.zero_le _⟩,
    rfl⟩
  simp [ChunkWriter.create, ho, hcreate, hwrite, Except.map]

end ChunkWriter
end TraceStore
