import TraceStore.Chunk.Backend
import TraceStore.Proofs.Operations

/-!
# Handles on chunked files

An open handle over the chunked backend passes every request on to the reader or writer that it has
open, and changes in nothing else: `ChunkReader.handle` and `ChunkWriter.handle` turn a reader or a
writer into the handle around it, and requests commute with them.
-/
namespace TraceStore

variable {σ : Type} (filename : String) (b : Chunked σ)

namespace ChunkReader

/-- The handle that has a reader open. -/
def handle (r : ChunkReader) : File (Chunked σ) :=
  ⟨filename, .read, true, { b with state := .reading r }⟩

/-- Answers a request. -/
def ask (c : Codec σ) (r : ChunkReader) (d : Disk) : ReadRequest → Answer × ChunkReader
  | .read count => (r.read c count d).map .bytes id
  | .readSome count => (r.readSome c count d).map .bytes id
  | .getc => (r.getc c d).map .byte id
  | .skip count => (r.skip c count d).map .done id
  | .seek a => (r.setCurrentOffset c a d).map .done id

/-- Does whatever leaves a reader open. There is nothing to do for what needs a writer. -/
def run (c : Codec σ) (r : ChunkReader) (d : Disk) : Operation → Reply × ChunkReader
  | .ask request => (r.ask c d request).map .answer id
  | .currentOffset => (.position r.currentOffset, r)
  | .percentRead => (.share r.percentRead, r)
  | op => (op.refused (.wrongMode .write .read), r)

variable (r : ChunkReader) (d : Disk)

theorem read_handle (count : Nat) : (r.handle filename b).read count d =
    (r.read b.codec count d).map id (·.handle filename b) := rfl

theorem readSome_handle (count : Nat) : (r.handle filename b).readSome count d =
    (r.readSome b.codec count d).map id (·.handle filename b) := rfl

theorem getc_handle : (r.handle filename b).getc d =
    (r.getc b.codec d).map id (·.handle filename b) := rfl

theorem skip_handle (count : Nat) : (r.handle filename b).skip count d =
    (r.skip b.codec count d).map id (·.handle filename b) := rfl

theorem setCurrentOffset_handle (a : Offset) : (r.handle filename b).setCurrentOffset a d =
    (r.setCurrentOffset b.codec a d).map id (·.handle filename b) := rfl

theorem currentOffset_handle :
    (r.handle filename b).currentOffset = (r.currentOffset, r.handle filename b) := rfl

theorem ask_handle (request : ReadRequest) :
    (r.handle filename b).ask d request = (r.ask b.codec d request).map id (·.handle filename b) := by
  cases request <;> rfl

theorem run_handle {op : Operation} (hopens : ¬ op.Opens) (hclose : op ≠ .close) :
    op.run (r.handle filename b) d =
      ((r.run b.codec d op).1, (r.run b.codec d op).2.handle filename b, d) := by
  cases op with
  | «open» filename mode => exact absurd trivial hopens
  | openBound => exact absurd trivial hopens
  | ask request =>
      rw [Operation.run, ask_handle]
      rfl
  | perform request => cases request <;> rfl
  | close => exact absurd rfl hclose
  | currentOffset => rfl
  | percentRead => rfl

theorem close_handle : (r.handle filename b).close d =
    (⟨filename, .read, false, { b with state := .closed }⟩, d) := rfl

end ChunkReader

namespace Chunked

/-- Opening a path for reading with a handle that is closed. -/
private theorem open_closed_read (f : File (Chunked σ)) (path : String) (d : Disk) :
    ({ f with opened := false } : File (Chunked σ)).open path .read d =
      match ChunkReader.open f.backend.codec path d with
      | .error e => ⟨.error e, ⟨path, .read, false, f.backend⟩, d⟩
      | .ok r => ⟨.ok (), r.handle path f.backend, f.backend.release d⟩ := by
  show (let o := f.backend.acquire path .read d
    (⟨o.result, ⟨path, .read, o.result.isOk, o.state⟩, o.disk⟩ : Outcome (File (Chunked σ)) Unit)) = _
  rw [acquire]
  cases ChunkReader.open f.backend.codec path d <;> rfl

/-- Opening a path for reading with a new handle. -/
theorem open_new_read (c : Codec σ) (memory : σ) (o : WriteOptions) (path : String) (d : Disk) :
    (File.new (Chunked.new c memory o)).open path .read d =
      match ChunkReader.open c path d with
      | .error e => ⟨.error e, ⟨path, .read, false, .new c memory o⟩, d⟩
      | .ok r => ⟨.ok (), r.handle path (.new c memory o), d⟩ :=
  open_closed_read (File.new (Chunked.new c memory o)) path d

/-- A handle that was opened for reading without a change of the disk has a reader open that was
opened on that disk. -/
theorem reader_of_open {f g : File (Chunked σ)} {path : String} {d : Disk}
    (h : f.open path .read d = ⟨.ok (), g, d⟩) :
    ∃ r b, ChunkReader.open f.backend.codec path d = .ok r ∧ b.codec = f.backend.codec ∧
      g = r.handle path b := by
  have hcodec : (f.close d).1.backend.codec = f.backend.codec := by
    obtain ⟨_, _, opened, ⟨_, _, _, state⟩⟩ := f
    cases opened <;> cases state <;> rfl
  -- Closing changes nothing, or leaves nothing open that opening gives up.
  have hdisk : (f.close d).2 = d ∨ ∀ d', (f.close d).1.backend.release d' = d' := by
    obtain ⟨_, _, opened, ⟨_, _, _, state⟩⟩ := f
    cases opened
    · exact .inl rfl
    · cases state <;> exact .inr fun _ => rfl
  rw [File.open_eq_open_close, open_closed_read, hcodec] at h
  split at h
  case h_1 => exact absurd (Outcome.mk.inj h).1 (by simp)
  case h_2 r hopen =>
    obtain ⟨-, rfl, hsame⟩ := Outcome.mk.inj h
    have hclose : (f.close d).2 = d := by
      rcases hdisk with hclose | hrelease
      · exact hclose
      · rw [hrelease] at hsame
        exact hsame
    rw [hclose] at hopen
    exact ⟨r, _, hopen, hcodec, rfl⟩

end Chunked

namespace ChunkWriter

/-- The handle that has a writer open, with the memory of the codec. -/
def handle (w : σ × ChunkWriter) : File (Chunked σ) :=
  ⟨filename, .write, true, { b with memory := w.1, state := .writing w.2 }⟩

/-- Performs a request. -/
def perform (c : Codec σ) (o : WriteOptions) :
    WriteRequest → σ × ChunkWriter → Disk → Outcome (σ × ChunkWriter) Unit
  | .write bytes, (memory, w), d => w.write c o bytes memory d
  | .flush, (memory, w), d => w.flush c o memory d

variable (w : σ × ChunkWriter) (d : Disk)

theorem perform_handle (request : WriteRequest) : (handle filename b w).perform request d =
    (perform b.codec b.options request w d).mapState (handle filename b) := by
  cases request <;> rfl

theorem run_perform_handle (request : WriteRequest) :
    (Operation.perform request).run (handle filename b w) d =
      (.done (perform b.codec b.options request w d).result,
        handle filename b (perform b.codec b.options request w d).state,
        (perform b.codec b.options request w d).disk) := by
  rw [Operation.run, perform_handle]
  rfl

theorem currentOffset_handle :
    (handle filename b w).currentOffset = (w.2.currentOffset, handle filename b w) := rfl

theorem close_handle : ((handle filename b w).close d).2 =
    (w.2.finish b.codec b.options w.1 d).2 := rfl

theorem release_handle : (handle filename b w).release d =
    (w.2.finish b.codec b.options w.1 d).2 := rfl

end ChunkWriter

/-- Opening a path for writing with a new handle. -/
theorem Chunked.open_new_write (c : Codec σ) (memory : σ) (o : WriteOptions) (path : String)
    (d : Disk) : (File.new (Chunked.new c memory o)).open path .write d =
      match ChunkWriter.create c o path d with
      | .error e => ⟨.error e, ⟨path, .write, false, .new c memory o⟩, d⟩
      | .ok (w, d) => ⟨.ok (), ChunkWriter.handle path (.new c memory o) (memory, w), d⟩ := by
  show (let o := (Chunked.new c memory o).acquire path .write d
    (⟨o.result, ⟨path, .write, o.result.isOk, o.state⟩, o.disk⟩ : Outcome (File (Chunked σ)) Unit)) = _
  rw [acquire]
  simp only [Chunked.new]
  cases ChunkWriter.create c o path d <;> rfl

end TraceStore
