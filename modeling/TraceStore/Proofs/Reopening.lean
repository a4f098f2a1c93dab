import TraceStore.Proofs.Lifecycle
import TraceStore.Proofs.Trace

/-!
# Opening a handle again

Opening a handle closes it first, and what is opened then knows nothing of what was done with the
handle before: it goes on as a new handle would on the disk that closing has left. All that a closed
backend keeps beside its options is the memory of its codec, and with codecs that encode the same
whatever they remember, that memory can be forgotten: `Chunked.With.embeds_forget`.
-/
namespace TraceStore

/-! ### Forgetting the memory of a codec -/

namespace Codec

variable {σ : Type}

/-- Whether the blocks that a codec encodes do not depend on its memory. -/
def Memoryless (c : Codec σ) : Prop :=
  ∀ o bytes memory memory', (c.compress o bytes memory).1 = (c.compress o bytes memory').1

/-- The codec that encodes as another one does with a certain memory. -/
def forget (c : Codec σ) (memory : σ) : Codec Unit :=
  { c with compress := fun o bytes _ => ((c.compress o bytes memory).1, ()) }

theorem Memoryless.compress_forget {c : Codec σ} (hc : c.Memoryless) (memory₀ : σ)
    (o : WriteOptions) (bytes : ByteArray) (memory : σ) :
    (c.forget memory₀).compress o bytes () = ((c.compress o bytes memory).1, ()) := by
  rw [← hc o bytes memory₀ memory]
  rfl

end Codec

namespace ChunkWriter

variable {σ : Type} {c : Codec σ} (hc : c.Memoryless) (memory₀ : σ) (o : WriteOptions)

/-- What a writer leaves behind, without the memory of the codec. -/
def forget (s : σ × ChunkWriter) : Unit × ChunkWriter := ((), s.2)

include hc

theorem emit_forget (memory : σ) (w : ChunkWriter) (d : Disk) :
    w.emit (c.forget memory₀) o () d = (w.emit c o memory d).mapState forget := by
  rw [emit, emit, hc.compress_forget memory₀ o w.cache memory]
  split
  · rfl
  obtain ⟨result, memory'⟩ := c.compress o w.cache memory
  cases result with
  | error e => rfl
  | ok block =>
      dsimp only
      split
      · rfl
      split
      · rfl
      split <;> rfl

theorem write_forget (bytes : ByteArray) (memory : σ) (w : ChunkWriter) (d : Disk) :
    w.write (c.forget memory₀) o bytes () d = (w.write c o bytes memory d).mapState forget := by
  suffices ∀ fuel start memory (w : ChunkWriter) d,
      writeWithin (c.forget memory₀) o bytes fuel start () w d =
        (writeWithin c o bytes fuel start memory w d).mapState forget from this ..
  intro fuel
  induction fuel with
  | zero => exact fun _ _ _ _ => rfl
  | succ fuel ih =>
      intro start memory w d
      rw [writeWithin, writeWithin]
      split
      · rfl
      dsimp only
      split
      · exact ih ..
      rw [emit_forget hc memory₀ o memory]
      generalize emit c o memory _ d = emitted
      obtain ⟨result, ⟨memory', w'⟩, d'⟩ := emitted
      cases result with
      | error e => rfl
      | ok => exact ih ..

theorem flush_forget (memory : σ) (w : ChunkWriter) (d : Disk) :
    w.flush (c.forget memory₀) o () d = (w.flush c o memory d).mapState forget := by
  rw [flush, flush, emit_forget hc memory₀ o memory]
  obtain ⟨result, ⟨memory', w'⟩, d'⟩ := w.emit c o memory d
  cases result <;> rfl

theorem finish_forget (memory : σ) (w : ChunkWriter) (d : Disk) :
    (w.finish (c.forget memory₀) o () d).2 = (w.finish c o memory d).2 := by
  rw [finish, emit_forget hc memory₀ o memory]
  rfl

end ChunkWriter

namespace ChunkReader

variable {σ : Type} (c : Codec σ) (memory₀ : σ) (d : Disk)

theorem loadNext_forget (r : ChunkReader) :
    r.loadNext (c.forget memory₀) d = r.loadNext c d := rfl

theorem fill_forget (r : ChunkReader) : r.fill (c.forget memory₀) d = r.fill c d := by
  suffices ∀ fuel (r : ChunkReader),
      fillWithin (c.forget memory₀) d fuel r = fillWithin c d fuel r from this _ r
  intro fuel
  induction fuel with
  | zero => exact fun _ => rfl
  | succ fuel ih =>
      intro r
      simp only [fillWithin, loadNext_forget, ih]

theorem read_forget (count : Nat) (r : ChunkReader) :
    r.read (c.forget memory₀) count d = r.read c count d := by
  suffices ∀ fuel count done (r : ChunkReader),
      readWithin (c.forget memory₀) d fuel count done r = readWithin c d fuel count done r from
    this ..
  intro fuel
  induction fuel with
  | zero => exact fun _ _ _ => rfl
  | succ fuel ih =>
      intro count done r
      simp only [readWithin, fill_forget, ih]

theorem readSome_forget (count : Nat) (r : ChunkReader) :
    r.readSome (c.forget memory₀) count d = r.readSome c count d := by
  rw [readSome, readSome, fill_forget]

theorem getc_forget (r : ChunkReader) : r.getc (c.forget memory₀) d = r.getc c d := by
  rw [getc, getc, fill_forget]

theorem skip_forget (count : Nat) (r : ChunkReader) :
    r.skip (c.forget memory₀) count d = r.skip c count d := by
  rw [skip_eq_read, skip_eq_read, read_forget]

end ChunkReader

/-- A chunked backend whose codec is known. -/
structure Chunked.With {σ : Type} (c : Codec σ) where
  memory : σ
  options : WriteOptions
  state : ChunkState

namespace Chunked.With

variable {σ : Type} {c : Codec σ}

/-- The backend with its codec. -/
def toChunked (b : With c) : Chunked σ := ⟨c, b.memory, b.options, b.state⟩

/-- The backend without its codec. -/
def ofChunked (b : Chunked σ) : With c := ⟨b.memory, b.options, b.state⟩

/-- The backend with the codec that has no memory. -/
def forget (memory₀ : σ) (b : With c) : Chunked Unit := ⟨c.forget memory₀, (), b.options, b.state⟩

instance : Backend (With c) where
  format _ := c.format
  supportsOffsets _ := true
  acquire path mode b d := (Backend.acquire path mode b.toChunked d).mapState ofChunked
  write bytes b d := (Backend.write bytes b.toChunked d).mapState ofChunked
  read count b d := (Backend.read count b.toChunked d).map id ofChunked
  readSome count b d := (Backend.readSome count b.toChunked d).map id ofChunked
  getc b d := (Backend.getc b.toChunked d).map id ofChunked
  skip count b d := (Backend.skip count b.toChunked d).map id ofChunked
  flush b d := (Backend.flush b.toChunked d).mapState ofChunked
  close b d := (Backend.close b.toChunked d).map ofChunked id
  currentOffset b := (Backend.currentOffset b.toChunked).map id ofChunked
  setCurrentOffset a b d := (Backend.setCurrentOffset a b.toChunked d).map id ofChunked
  percentRead b := (Backend.percentRead b.toChunked).map id ofChunked
  release b d := Backend.release b.toChunked d

theorem embeds_toChunked : Backend.Embeds (toChunked : With c → Chunked σ) where
  format _ := rfl
  supportsOffsets _ := rfl
  acquire path mode b d := by
    show acquire path mode b.toChunked d =
      ((acquire path mode b.toChunked d).mapState (ofChunked (c := c))).mapState toChunked
    cases mode <;> rw [acquire] <;> split <;> rfl
  write bytes b d := by obtain ⟨memory, o, state⟩ := b; cases state <;> rfl
  read count b d := by obtain ⟨memory, o, state⟩ := b; cases state <;> rfl
  readSome count b d := by obtain ⟨memory, o, state⟩ := b; cases state <;> rfl
  getc b d := by obtain ⟨memory, o, state⟩ := b; cases state <;> rfl
  skip count b d := by obtain ⟨memory, o, state⟩ := b; cases state <;> rfl
  flush b d := by obtain ⟨memory, o, state⟩ := b; cases state <;> rfl
  close b d := by obtain ⟨memory, o, state⟩ := b; cases state <;> rfl
  currentOffset _ := rfl
  setCurrentOffset a b d := by obtain ⟨memory, o, state⟩ := b; cases state <;> rfl
  percentRead _ := rfl
  release _ _ := rfl

private theorem withReader_forget (memory₀ : σ) (b : With c) {α : Type}
    (f : ChunkReader → Except Error α × ChunkReader) : (b.forget memory₀).withReader f =
      ((b.toChunked.withReader f).map id (ofChunked (c := c))).map id (forget memory₀) := by
  obtain ⟨memory, o, state⟩ := b
  cases state <;> rfl

/-- A memory that changes nothing can be forgotten. -/
theorem embeds_forget (hc : c.Memoryless) (memory₀ : σ) :
    Backend.Embeds (forget memory₀ : With c → Chunked Unit) where
  format _ := rfl
  supportsOffsets _ := rfl
  acquire path mode b d := by
    show acquire path mode (b.forget memory₀) d =
      ((acquire path mode b.toChunked d).mapState (ofChunked (c := c))).mapState (forget memory₀)
    have hread : ChunkReader.open (c.forget memory₀) path d = ChunkReader.open c path d := rfl
    have hwrite : ChunkWriter.create (c.forget memory₀) b.options path d =
        ChunkWriter.create c b.options path d := rfl
    cases mode with
    | read =>
        rw [acquire, acquire]
        simp only [forget, toChunked, hread]
        split <;> rfl
    | write =>
        rw [acquire, acquire]
        simp only [forget, toChunked, hwrite]
        split <;> rfl
  write bytes b d := by
    obtain ⟨memory, o, state⟩ := b
    cases state with
    | writing w =>
        show ((w.write (c.forget memory₀) o bytes () d).mapState fun s =>
          (⟨c.forget memory₀, s.1, o, .writing s.2⟩ : Chunked Unit)) = _
        rw [ChunkWriter.write_forget hc memory₀ o bytes memory]
        rfl
    | _ => rfl
  read count b d := by
    show (b.forget memory₀).withReader (fun r => r.read (c.forget memory₀) count d) = _
    simp only [ChunkReader.read_forget]
    exact withReader_forget memory₀ b _
  readSome count b d := by
    show (b.forget memory₀).withReader (fun r => r.readSome (c.forget memory₀) count d) = _
    simp only [ChunkReader.readSome_forget]
    exact withReader_forget memory₀ b _
  getc b d := by
    obtain ⟨memory, o, state⟩ := b
    cases state with
    | reading r =>
        show (r.getc (c.forget memory₀) d).map id (fun r =>
          (⟨c.forget memory₀, (), o, .reading r⟩ : Chunked Unit)) = _
        rw [ChunkReader.getc_forget]
        rfl
    | _ => rfl
  skip count b d := by
    show (b.forget memory₀).withReader (fun r => r.skip (c.forget memory₀) count d) = _
    simp only [ChunkReader.skip_forget]
    exact withReader_forget memory₀ b _
  flush b d := by
    obtain ⟨memory, o, state⟩ := b
    cases state with
    | writing w =>
        show ((w.flush (c.forget memory₀) o () d).mapState fun s =>
          (⟨c.forget memory₀, s.1, o, .writing s.2⟩ : Chunked Unit)) = _
        rw [ChunkWriter.flush_forget hc memory₀ o memory]
        rfl
    | _ => rfl
  close b d := by
    obtain ⟨memory, o, state⟩ := b
    cases state with
    | writing w =>
        show ((⟨c.forget memory₀, (), o, .closed⟩ : Chunked Unit),
          (w.finish (c.forget memory₀) o () d).2) = _
        rw [ChunkWriter.finish_forget hc memory₀ o memory]
        rfl
    | _ => rfl
  currentOffset _ := rfl
  setCurrentOffset a b d := withReader_forget memory₀ b _
  percentRead _ := rfl
  release b d := by
    obtain ⟨memory, o, state⟩ := b
    cases state <;> rfl

end Chunked.With

/-! ### Opening again -/

namespace File

variable {β : Type} [Backend β]

/-- Whether opening a path again is as opening it with a new handle over a backend, on the disk that
closing the handle leaves: the replies, the disk and what can be told of the handle are the same
then and whatever is done later, and so is what is left when the handle is given up. -/
def StartsAfresh (b : β) (f : File β) : Prop :=
  ∀ path mode ops d,
    let again := Operation.runAll (.open path mode :: ops) f d
    let fresh := Operation.runAll (.open path mode :: ops) (File.new b) (f.close d).2
    again.1 = fresh.1 ∧ again.2.2 = fresh.2.2 ∧
      again.2.1.release again.2.2 = fresh.2.1.release fresh.2.2 ∧
      again.2.1.filename = fresh.2.1.filename ∧ again.2.1.mode = fresh.2.1.mode ∧
      again.2.1.opened = fresh.2.1.opened

/-- Whether a handle, whatever was done with it before, writes traces that are complete before it is
opened again. What is opened then finds the whole trace in its file, and so does a reader of the
same path. -/
def Finishes (b : β) (o : WriteOptions) (f : File β) : Prop :=
  ∀ path d requests, o.validate = .ok () → (f.close d).2.Creatable path →
    ∃ (f₁ f₂ : File β) (d₁ d₂ d₃ : Disk) (F : ByteArray),
      f.open path .write d = ⟨.ok (), f₁, d₁⟩ ∧
      WriteRequest.runAll perform requests f₁ d₁ = ⟨.ok (), f₂, d₂⟩ ∧
      (f₂.close d₂).2 = d₃ ∧ d₃.contents? path = some F ∧
      [f.format.magic.1, f.format.magic.2] <+: F.data.toList ∧
      f₂.StartsAfresh b ∧ ∃ g, f₂.open path .read d₂ = ⟨.ok (), g, d₃⟩ ∧
        Serves (fun count f => f.readSome count d₃) (fun count f => f.read count d₃)
          (WriteRequest.written requests) g

/-- Opening depends on nothing but the backend that closing leaves. -/
theorem open_eq_open_new (f : File β) (path : String) (mode : Mode) (d : Disk) :
    f.open path mode d = (File.new (f.close d).1.backend).open path mode (f.close d).2 := rfl

/-- A handle whose backend is as good as new once it is closed starts afresh. -/
theorem startsAfresh_of_close {b : β} {f : File β} (h : ∀ d, (f.close d).1.backend = b) :
    f.StartsAfresh b := by
  intro path mode ops d
  have heq : Operation.runAll (.open path mode :: ops) f d =
      Operation.runAll (.open path mode :: ops) (File.new b) (f.close d).2 := by
    rw [Operation.runAll, Operation.runAll, Operation.run, Operation.run, open_eq_open_new f, h]
  rw [heq]
  exact ⟨rfl, rfl, rfl, rfl, rfl, rfl⟩

end File

namespace Chunked

variable {σ : Type} {c : Codec σ} {o : WriteOptions} {memory : σ} {f : File (Chunked σ)}

/-- Closing leaves nothing but the codec, with whatever it remembers, and the options. -/
theorem exists_backend_of_close (hf : File.Reached (Chunked.new c memory o) f) (d : Disk) :
    ∃ memory', (f.close d).1.backend = Chunked.new c memory' o := by
  have hcoupled := File.Coupled.of_reached (lifecycle c o) ⟨rfl, rfl, rfl⟩ hf
  exact (hcoupled.close (lifecycle c o) d).2.exists_new

/-- New handles with different memories of a codec cannot be told apart if the codec encodes the
same whatever it remembers. -/
theorem startsAfresh_new (hc : c.Memoryless) (memory memory' : σ) (o : WriteOptions) :
    (File.new (Chunked.new c memory' o)).StartsAfresh (Chunked.new c memory o) := by
  intro path mode ops d again fresh
  let x (memory : σ) : File (With c) := File.new ⟨memory, o, .closed⟩
  let ended (memory : σ) := Operation.runAll (.open path mode :: ops) (x memory) d
  have hrun : ∀ memory : σ,
      Operation.runAll (.open path mode :: ops) (File.new (Chunked.new c memory o)) d =
        (ended memory).map id (Prod.map (File.map With.toChunked) id) := fun memory =>
    Operation.runAll_map With.embeds_toChunked _ (x memory) d
  have hforget : ∀ memory' : σ,
      (ended memory').map id (Prod.map (File.map (With.forget memory)) id) =
        Operation.runAll (.open path mode :: ops)
          (File.new (⟨c.forget memory, (), o, .closed⟩ : Chunked Unit)) d := fun memory' =>
    (Operation.runAll_map (With.embeds_forget hc memory) _ (x memory') d).symm
  have hsame := (hforget memory').trans (hforget memory).symm
  rw [show again = _ from hrun memory', show fresh = _ from hrun memory]
  generalize ended memory' = one at hsame
  generalize ended memory = other at hsame
  obtain ⟨replies, f, d₁⟩ := one
  obtain ⟨replies', f', d₂⟩ := other
  simp only [Prod.map, id, Prod.mk.injEq] at hsame
  obtain ⟨rfl, hf, rfl⟩ := hsame
  obtain ⟨hfilename, hmode, hopened, -⟩ := File.mk.inj hf
  refine ⟨rfl, rfl, ?_, hfilename, hmode, hopened⟩
  simp only [Prod.map, id, File.release_map With.embeds_toChunked]
  rw [← File.release_map (With.embeds_forget hc memory), hf,
    File.release_map (With.embeds_forget hc memory)]

/-- Whatever was done with a handle, it starts afresh when it is opened again. -/
theorem startsAfresh (hc : c.Memoryless) (hf : File.Reached (Chunked.new c memory o) f) :
    f.StartsAfresh (Chunked.new c memory o) := by
  intro path mode ops d
  obtain ⟨memory', hbackend⟩ := exists_backend_of_close hf d
  have hagain : Operation.runAll (.open path mode :: ops) f d =
      Operation.runAll (.open path mode :: ops) (File.new (Chunked.new c memory' o))
        (f.close d).2 := by
    rw [Operation.runAll, Operation.runAll, Operation.run, Operation.run, File.open_eq_open_new f,
      hbackend]
  rw [hagain]
  exact startsAfresh_new hc memory memory' o path mode ops (f.close d).2

theorem format_of_reached (hf : File.Reached (Chunked.new c memory o) f) : f.format = c.format :=
  congrArg Codec.format (File.Coupled.of_reached (lifecycle c o) ⟨rfl, rfl, rfl⟩ hf).1

/-- The handle with another memory of its codec. -/
private def remembering (memory : σ) (f : File (Chunked σ)) : File (Chunked σ) :=
  { f with backend := { f.backend with memory } }

private theorem readSome_remembering (memory : σ) (count : Nat) (f : File (Chunked σ)) (d : Disk) :
    (remembering memory f).readSome count d = (f.readSome count d).map id (remembering memory) := by
  obtain ⟨filename, mode, opened, ⟨_, _, _, state⟩⟩ := f
  cases opened <;> cases mode <;> cases state <;> rfl

private theorem read_remembering (memory : σ) (count : Nat) (f : File (Chunked σ)) (d : Disk) :
    (remembering memory f).read count d = (f.read count d).map id (remembering memory) := by
  obtain ⟨filename, mode, opened, ⟨_, _, _, state⟩⟩ := f
  cases opened <;> cases mode <;> cases state <;> rfl

/-- What is served does not depend on the memory of the codec. -/
theorem serves_of_open_new {path : String} {d : Disk} {s : List UInt8} {memory' : σ}
    (h : ∃ g, (File.new (Chunked.new c memory' o)).open path .read d = ⟨.ok (), g, d⟩ ∧
      Serves (fun count f => f.readSome count d) (fun count f => f.read count d) s g) (memory : σ) :
    ∃ g, (File.new (Chunked.new c memory o)).open path .read d = ⟨.ok (), g, d⟩ ∧
      Serves (fun count f => f.readSome count d) (fun count f => f.read count d) s g := by
  obtain ⟨g, hopen, hserves⟩ := h
  rw [open_new_read] at hopen ⊢
  cases hr : ChunkReader.open c path d with
  | error e =>
      rw [hr] at hopen
      cases (Outcome.mk.inj hopen).1
  | ok r =>
      rw [hr] at hopen
      obtain ⟨-, rfl, -⟩ := Outcome.mk.inj hopen
      exact ⟨remembering memory (r.handle path (.new c memory' o)), rfl,
        hserves.map (remembering memory) (readSome_remembering memory · · d)
          (read_remembering memory · · d)⟩

/-- Whatever was done with a handle, it finishes what it writes before it is opened again. -/
theorem finishes (hmemory : c.Memoryless) (hc : c.Lossless) (hroom : c.Roomy)
    (hmagic : c.magic = c.format.magic) (hf : File.Reached (Chunked.new c memory o) f) :
    f.Finishes (Chunked.new c memory o) o := by
  intro path d requests ho hpath
  obtain ⟨memory₁, hbackend₁⟩ := exists_backend_of_close hf d
  obtain ⟨f₁, f₂, d₁, d₂, d₃, F, hopen, hrun, hclose, -, hcontents, hhead, hread⟩ :=
    roundTrips hc hroom hmagic ho hpath memory₁ requests
  have hopened : f.open path .write d = ⟨.ok (), f₁, d₁⟩ := by
    rw [File.open_eq_open_new, hbackend₁]
    exact hopen
  have hf₂ : File.Reached (Chunked.new c memory o) f₂ := by
    have hreached := (hf.open path .write d).performs requests (f.open path .write d).disk
    rwa [hopened, hrun] at hreached
  obtain ⟨memory₂, hbackend₂⟩ := exists_backend_of_close hf₂ d₂
  have hserves : ∃ g, (File.new (Chunked.new c memory₁ o)).open path .read d₃ = ⟨.ok (), g, d₃⟩ ∧
      Serves (fun count f => f.readSome count d₃) (fun count f => f.read count d₃)
        (WriteRequest.written requests) g := by
    obtain ⟨g, hg, -, hserves⟩ := hread o
    exact ⟨g, hg, hserves⟩
  refine ⟨f₁, f₂, d₁, d₂, d₃, F, hopened, hrun, hclose, hcontents, ?_, startsAfresh hmemory hf₂, ?_⟩
  · rw [format_of_reached hf]
    exact hhead
  · rw [File.open_eq_open_new, hbackend₂, hclose]
    exact serves_of_open_new hserves memory₂

end Chunked

namespace Streamed

variable {δ ε : Type} [StreamDecoder δ] [StreamEncoder ε] {o : WriteOptions}
  {f : File (Streamed δ ε)}

/-- Closing leaves nothing but the options. -/
theorem backend_of_close (hf : File.Reached (Streamed.new o) f) (d : Disk) :
    (f.close d).1.backend = Streamed.new o := by
  have hcoupled := File.Coupled.of_reached (lifecycle (δ := δ) (ε := ε) o) ⟨rfl, rfl⟩ hf
  exact (hcoupled.close (lifecycle o) d).2.eq_new

/-- Whatever was done with a handle, it starts afresh when it is opened again. -/
theorem startsAfresh (hf : File.Reached (Streamed.new o) f) : f.StartsAfresh (Streamed.new o) :=
  File.startsAfresh_of_close (backend_of_close hf)

/-- Whatever was done with a handle, it finishes what it writes before it is opened again. -/
theorem finishes (hlossless : StreamLossless δ ε) (hf : File.Reached (Streamed.new o) f) :
    f.Finishes (Streamed.new o) o := by
  intro path d requests ho hpath
  obtain ⟨f₁, f₂, d₁, d₂, d₃, F, hopen, hrun, hclose, -, hcontents, hhead, hread⟩ :=
    roundTrips hlossless ho hpath requests
  have hopened : f.open path .write d = ⟨.ok (), f₁, d₁⟩ := by
    rw [File.open_eq_open_new, backend_of_close hf]
    exact hopen
  have hf₂ : File.Reached (Streamed.new o) f₂ := by
    have hreached := (hf.open path .write d).performs requests (f.open path .write d).disk
    rwa [hopened, hrun] at hreached
  refine ⟨f₁, f₂, d₁, d₂, d₃, F, hopened, hrun, hclose, hcontents, hhead, startsAfresh hf₂, ?_⟩
  obtain ⟨g, hg, -, hserves⟩ := hread o
  refine ⟨g, ?_, hserves⟩
  rw [File.open_eq_open_new, backend_of_close hf₂, hclose]
  exact hg

end Streamed

/-! ### Formats -/

/-- Compressors of blocks that encode the same whatever they remember. -/
structure Compression.Memoryless [Compression] : Prop where
  snappy : (Snappy.codecOf Compression.snappy).Memoryless
  zstd : (Zstd.codecOf Compression.zstd).Memoryless

theorem Compression.Memoryless.codec [Compression] (h : Compression.Memoryless) {format : Format}
    {c : Codec Compression.Memory} (hformat : format.codec? = some c) : c.Memoryless :=
  Format.of_codec? hformat h.snappy h.zstd

/-- The compressors that take bytes over as they are remember nothing. -/
theorem Compression.stored_memoryless : @Compression.Memoryless Compression.stored where
  snappy _ _ _ _ := rfl
  zstd _ _ _ _ := rfl

/-- Whatever was done with a handle over the backend of some format, and whatever happened to the
disk in between, opening it again is as opening a new handle with the same options on the disk that
closing leaves, and so is whatever is done later. With compressors that lose nothing, what is
written to a handle with such a past is complete in its file before the handle is opened again, also
if that is for the same path. -/
theorem File.reopens [Compression] (hmemory : Compression.Memoryless) (o : WriteOptions) :
    (∀ (format : Format) (c : Codec Compression.Memory), format.codec? = some c →
      ∀ f, Reached (Chunked.new c Compression.fresh o) f →
        f.StartsAfresh (Chunked.new c Compression.fresh o) ∧
          (Compression.Lossless → f.Finishes (Chunked.new c Compression.fresh o) o)) ∧
    ∀ f, Reached (Streamed.new o : GzipBackend) f →
      f.StartsAfresh (Streamed.new o) ∧ (Compression.Lossless → f.Finishes (Streamed.new o) o) := by
  refine ⟨fun format c hformat f hf => ⟨?_, fun hlossless => ?_⟩,
    fun f hf => ⟨?_, fun hlossless => ?_⟩⟩
  · exact Chunked.startsAfresh (hmemory.codec hformat) hf
  · have hmagic : c.magic = c.format.magic := by
      rw [Format.format_of_codec? hformat, Format.magic_of_codec? hformat]
    exact Chunked.finishes (hmemory.codec hformat) (hlossless.codec hformat)
      (Format.roomy_of_codec? hformat) hmagic hf
  · exact Streamed.startsAfresh hf
  · exact Streamed.finishes hlossless.gzip hf

/-- A handle with a byte pending is opened again, for reading of the same path. -/
theorem File.reopens_pending :
    let b := Chunked.new Snappy.codec () default
    let pending := Operation.runAll [.open "t" .write, .perform (.write ⟨#[7]⟩)] (File.new b) .empty
    let replies := (Operation.runAll [.open "t" .read, .ask .getc] pending.2.1 pending.2.2).1
    replies = (Operation.runAll [.open "t" .read, .ask .getc] (File.new b)
        (pending.2.1.close pending.2.2).2).1 ∧ pending.2.1.Finishes b default := by
  intro b pending replies
  have hreached : Reached b pending.2.1 :=
    (Reached.bound "" .read).runAll [.open "t" .write, .perform (.write ⟨#[7]⟩)] .empty
  obtain ⟨hchunked, -⟩ := @reopens .stored Compression.stored_memoryless default
  obtain ⟨hafresh, hfinishes⟩ := hchunked .snappy Snappy.codec rfl _ hreached
  exact ⟨(hafresh "t" .read [.ask .getc] pending.2.2).1, hfinishes Compression.stored_lossless⟩

end TraceStore
