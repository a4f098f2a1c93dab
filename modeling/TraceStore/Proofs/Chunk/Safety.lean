import TraceStore.Proofs.Chunk.Failure
import TraceStore.Proofs.Chunk.Rounds
import TraceStore.Proofs.Lifecycle

/-!
# Bounds of the cache

In every state that a handle on chunked files gets into, a reader stands in the chunk of its cache
and a writer has no more pending than a chunk takes, and both are small enough for the field of a
position. The places that they keep are those in the file, for a reader as long as no chunk has
failed to load, for a writer as long as the file has not broken off: `Chunked.cache_safe`.
-/
namespace TraceStore

variable {σ : Type} {c : Codec σ} {o : WriteOptions} {d : Disk}

/-! ### Readers -/

namespace ChunkReader

variable {r r' : ChunkReader} {failed : Bool}

/-- In the course of a request a chunk fails to load. -/
def FailsToLoad (c : Codec σ) (d : Disk) (r : ChunkReader) : ReadRequest → Prop
  | .seek a => target a ≤ r.fileSize ∧ ∃ e, ((r.aimed a).loadNext c d).1 = .error e
  | request => ∃ e, r.Fails c d e request

/-- The readers that requests make of one just opened, and whether a chunk has failed to load since.
The disk may be any other one each time, as others change it too. -/
inductive Since (c : Codec σ) : Bool → ChunkReader → Prop
  | opened {path : String} {d : Disk} {r : ChunkReader} : ChunkReader.open c path d = .ok r →
      Since c false r
  | loaded {failed : Bool} {r : ChunkReader} {request : ReadRequest} {d : Disk} :
      Since c failed r → ¬ r.FailsToLoad c d request → Since c failed (r.ask c d request).2
  | failed {failed : Bool} {r : ChunkReader} {request : ReadRequest} {d : Disk} :
      Since c failed r → r.FailsToLoad c d request → Since c true (r.ask c d request).2

/-- A reader that stands in the chunk of its cache. -/
structure Inside (r : ChunkReader) : Prop where
  pos_le : r.pos ≤ r.cache.size
  size_le : r.cache.size ≤ maxChunkSize

/-- A reader whose file stands where it expects the next chunk. -/
def InPlace (r : ChunkReader) : Prop := r.source.position = r.nextChunk + r.source.pending.size

/-- What a reader keeps to, if a chunk has failed to load or if none has. -/
structure Safe (failed : Bool) (r : ChunkReader) : Prop extends Inside r where
  inPlace : failed = false → r.InPlace

theorem Inside.park (r : ChunkReader) : r.park.Inside := ⟨Nat.le_refl 0, Nat.zero_le _⟩

/-- What a load comes to on any disk, and where it leaves the file. -/
private inductive Loads (c : Codec σ) (r : ChunkReader) : Except Error Bool → ChunkReader → Prop
  | none {source : FileReader} :
      source.position + r.source.pending.size = r.source.position + source.pending.size →
      Loads c r (.ok false) { r with source }
  | chunk {source : FileReader} {block cache : ByteArray} : c.decompress block = .ok cache →
      source.position + r.source.pending.size =
        r.source.position + chunkHeaderSize + block.size + source.pending.size →
      Loads c r (.ok true) { r with
        source, cache, pos := 0, chunkStart := r.nextChunk
        nextChunk := r.nextChunk + chunkHeaderSize + block.size }
  | failed {source : FileReader} {e : Error} : Loads c r (.error e) { r with source }

private theorem loads_loadNext (c : Codec σ) (d : Disk) (r : ChunkReader) :
    Loads c r (r.loadNext c d).1 (r.loadNext c d).2 := by
  rw [loadNext]
  split
  · show Loads c r _ { r with source := r.source }
    exact .none rfl
  split
  · exact .failed
  case h_2 header source₁ hheader =>
    have hplace := FileReader.position_of_read hheader
    have hle := FileReader.size_le_of_read hheader
    dsimp only
    split
    case isTrue hempty =>
      rw [isEmpty_iff.1 hempty] at hplace
      exact .none hplace
    split
    · exact .failed
    case isFalse hwhole =>
      split
      · exact .failed
      split
      · exact .failed
      case h_2 block source₂ hblock =>
        have hplace' := FileReader.position_of_read hblock
        have hle' := FileReader.size_le_of_read hblock
        split
        · exact .failed
        case isFalse hall =>
          split
          · exact .failed
          case h_2 cache hdecompress =>
            have hlength : LittleEndian.decode header.data.toList = block.size := by omega
            rw [hlength]
            refine .chunk hdecompress ?_
            omega

/-- Loading brings a chunk that is not too long, or leaves the cache as it is. -/
private theorem Inside.load (hc : c.Bounded) (h : r.Inside) : (r.loadNext c d).2.Inside := by
  have hloads := loads_loadNext c d r
  generalize (r.loadNext c d).1 = result at hloads
  generalize (r.loadNext c d).2 = r' at hloads ⊢
  cases hloads with
  | none => exact ⟨h.pos_le, h.size_le⟩
  | chunk hdecompress => exact ⟨Nat.zero_le _, hc hdecompress⟩
  | failed => exact ⟨h.pos_le, h.size_le⟩

/-- Loading goes to the next chunk, unless it fails. -/
private theorem InPlace.load {more : Bool} (h : r.InPlace)
    (hload : r.loadNext c d = (.ok more, r')) : r'.InPlace := by
  have hloads := loads_loadNext c d r
  rw [hload] at hloads
  simp only [InPlace] at h ⊢
  cases hloads with
  | none hplace =>
      dsimp only
      omega
  | chunk hdecompress hplace =>
      dsimp only
      omega

/-- What reading keeps of a reader as long as no load fails, and then. -/
private theorem keptUntil_inside (hc : c.Bounded) (d : Disk) :
    KeptUntil c d (fun r => r.Inside ∧ r.InPlace) Inside where
  loaded := by
    intro r r' more h _ hload
    have hinside := h.1.load (d := d) hc
    rw [hload] at hinside
    exact ⟨hinside, h.2.load hload⟩
  failed := by
    intro r r' e h _ hload
    have hinside := h.1.load (d := d) hc
    rw [hload] at hinside
    exact hinside
  pass := by
    intro r count h hcount
    have hpos := h.1.pos_le
    simp only [available] at hcount
    exact ⟨⟨by dsimp only; omega, h.1.size_le⟩, h.2⟩

/-- What reading keeps of a reader after a load has failed. -/
private theorem kept_inside (hc : c.Bounded) (d : Disk) : Kept c d Inside where
  load h _ := h.load hc
  pass := by
    intro r count h hcount
    have hpos := h.pos_le
    simp only [available] at hcount
    exact ⟨by dsimp only; omega, h.size_le⟩

/-- Going to a position leaves a reader inside its cache, and in place unless the load fails. -/
private theorem Inside.seek (hc : c.Bounded) (d : Disk) (r : ChunkReader) (a : Offset) :
    (r.setCurrentOffset c a d).2.Inside ∧
      (r.InPlace → ¬ r.FailsToLoad c d (.seek a) → (r.setCurrentOffset c a d).2.InPlace) := by
  have haimed : (r.aimed a).Inside := ⟨Nat.le_refl 0, Nat.zero_le _⟩
  have hplace : (r.aimed a).InPlace := rfl
  rw [setCurrentOffset_eq]
  split
  · exact ⟨.park r, fun h _ => h⟩
  case isFalse hle =>
    have hinside := haimed.load (d := d) hc
    split <;> rename_i hload <;> rw [hload] at hinside
    · have hloaded := hplace.load hload
      split
      case isTrue hin => exact ⟨⟨hin, hinside.size_le⟩, fun _ _ => hloaded⟩
      · exact ⟨.park _, fun _ _ => hloaded⟩
    · have hloaded := hplace.load hload
      split
      · exact ⟨hinside, fun _ _ => hloaded⟩
      · exact ⟨.park _, fun _ _ => hloaded⟩
    case h_3 e _ =>
      refine ⟨.park _, fun _ hloads => absurd ⟨Nat.not_lt.1 hle, e, ?_⟩ hloads⟩
      rw [hload]

/-- Every request keeps to the bounds. -/
private theorem Safe.ask (hc : c.Bounded) (h : r.Safe failed) (d : Disk) (request : ReadRequest) :
    (r.ask c d request).2.Inside ∧
      (failed = false → ¬ r.FailsToLoad c d request → (r.ask c d request).2.InPlace) := by
  have hsequential (hrequest : request.Sequential)
      (hfails : r.FailsToLoad c d request ↔ ∃ e, r.Fails c d e request) :
      (r.ask c d request).2.Inside ∧
        (failed = false → ¬ r.FailsToLoad c d request → (r.ask c d request).2.InPlace) := by
    refine ⟨(kept_inside hc d).ask h.toInside hrequest, fun hfailed hloads => ?_⟩
    rcases (keptUntil_inside hc d).ask ⟨h.toInside, h.inPlace hfailed⟩ hrequest with
      ⟨-, -, hplace⟩ | ⟨e, herror, -⟩
    · exact hplace
    · exact absurd (hfails.2 ⟨e, herror⟩) hloads
  cases request with
  | seek a =>
      obtain ⟨hinside, hplace⟩ := Inside.seek hc d r a
      exact ⟨hinside, fun hfailed => hplace (h.inPlace hfailed)⟩
  | _ => exact hsequential trivial .rfl

/-- A reader keeps to the bounds, whatever it is asked for. -/
theorem Since.safe (hc : c.Bounded) (h : Since c failed r) : r.Safe failed := by
  induction h with
  | opened hopen =>
      rw [ChunkReader.open] at hopen
      split at hopen
      · cases hopen
      split at hopen
      · cases hopen
      case h_2 head source hread =>
        have hplace := FileReader.position_of_read hread
        split at hopen
        case isTrue hmagic =>
          cases hopen
          refine ⟨⟨Nat.le_refl 0, Nat.zero_le _⟩, fun _ => ?_⟩
          rw [hmagic, Codec.size_magicBytes] at hplace
          simpa [InPlace, FileReader.start] using hplace
        case isFalse => cases hopen
  | loaded _ hloads ih =>
      obtain ⟨hinside, hplace⟩ := ih.ask hc _ _
      exact ⟨hinside, fun hfailed => hplace hfailed hloads⟩
  | failed _ _ ih => exact ⟨(ih.ask hc _ _).1, by simp⟩

end ChunkReader

/-! ### Writers -/

namespace ChunkWriter

variable {w w' : ChunkWriter} {past emissions : List Emission}

/-- The writers that requests make of one just created, and what the attempts to emit a chunk came
to since. The disk may be any other one each time, as others change it too. -/
inductive Since (c : Codec σ) (o : WriteOptions) : List Emission → σ × ChunkWriter → Prop
  | created {memory : σ} {path : String} {d d' : Disk} {w : ChunkWriter} :
      create c o path d = .ok (w, d') → Since c o [] (memory, w)
  | performed {past emissions : List Emission} {w : σ × ChunkWriter} {request : WriteRequest}
      {d : Disk} {out : Outcome (σ × ChunkWriter) Unit} : Since c o past w →
      Performs c o request w d emissions out → Since c o (past ++ emissions) out.state

/-- A writer with no more pending than a chunk takes, and with all of its file written but for the
headers of chunks that broke off. -/
structure Counted (o : WriteOptions) (past : List Emission) (w : ChunkWriter) : Prop where
  chunkSize_pos : 0 < o.chunkSize.toNat
  chunkSize_le : o.chunkSize.toNat ≤ maxChunkSize
  size_le : w.cache.size ≤ o.chunkSize.toNat
  written_le : w.written ≤ w.sink.handed
  handed_le : w.sink.handed ≤ w.written + chunkHeaderSize * past.count .broken

/-- What a writer keeps to after some attempts to emit a chunk. A full chunk is pending only if the
last one failed. -/
structure Safe (o : WriteOptions) (past : List Emission) (w : ChunkWriter) : Prop
    extends Counted o past w where
  size_lt : (∀ last ∈ past.getLast?, last = .done) → w.cache.size < o.chunkSize.toNat

/-- An attempt to emit a chunk leaves a full one only if it fails. -/
private theorem Counted.attempt {emission : Emission} {result : Except Error Unit}
    (h : w.Counted o past) (hattempt : Attempt w emission result w') :
    w'.Safe o (past ++ [emission]) := by
  have hwritten := h.written_le
  have hhanded := h.handed_le
  have hcount : (past ++ [emission]).count .broken =
      past.count .broken + [emission].count .broken := List.count_append ..
  cases hattempt with
  | idle hempty =>
      refine ⟨{ h with handed_le := ?_ }, fun _ => by rw [hempty]; exact h.chunkSize_pos⟩
      rw [hcount]
      exact hhanded
  | @done sink block htaken =>
      refine ⟨{ h with size_le := Nat.zero_le _, written_le := ?_, handed_le := ?_ },
        fun _ => h.chunkSize_pos⟩
      · dsimp only
        omega
      · have hnone : [Emission.done].count .broken = 0 := rfl
        rw [hcount, hnone, Nat.add_zero, htaken]
        dsimp only
        omega
  | refused =>
      refine ⟨{ h with handed_le := ?_ }, fun hlast => ?_⟩
      · rw [hcount]
        exact hhanded
      · simp at hlast
  | broken hge hle =>
      refine ⟨{ h with written_le := Nat.le_trans hwritten hge, handed_le := ?_ }, fun hlast => ?_⟩
      · rw [hcount, List.count_singleton_self, Nat.mul_add]
        dsimp only
        omega
      · simp at hlast

/-- Filling the pending chunk keeps it within its room. -/
private theorem Counted.gather {bytes : ByteArray} (h : w.Counted o past)
    (hsize : (w.gather bytes).cache.size ≤ o.chunkSize.toNat) : (w.gather bytes).Counted o past :=
  { h with size_le := hsize }

/-- The rounds of a write keep to the bounds. -/
private theorem Writes.safe {bytes : ByteArray} {start : Nat} {memory : σ}
    {out : Outcome (σ × ChunkWriter) Unit} (h : Writes c o bytes start memory w d emissions out)
    (hw : w.Safe o past) : out.state.2.Safe o (past ++ emissions) := by
  induction h generalizing past with
  | all => simpa using hw
  | gathered hmore hle hgather hlt _ ih =>
      obtain ⟨-, hsize⟩ := size_gather hle hmore
      subst hgather
      exact ih ⟨hw.toCounted.gather hsize, fun _ => hlt⟩
  | @emitted start memory _ w w₁ w' d _ emissions out hmore hle hgather _ hemit _ ih =>
      obtain ⟨-, hsize⟩ := size_gather hle hmore
      have hattempt := attempt_emit c o memory w₁ d
      rw [emission_eq_done_iff.2 (by rw [hemit]), hemit] at hattempt
      subst hgather
      have hrest := ih ((hw.toCounted.gather hsize).attempt hattempt)
      rwa [List.append_assoc] at hrest
  | stopped hmore hle hgather _ hfailed =>
      obtain ⟨-, hsize⟩ := size_gather hle hmore
      subst hgather
      exact (hw.toCounted.gather hsize).attempt (attempt_emit ..)

/-- Every request keeps to the bounds. -/
private theorem Performs.safe {request : WriteRequest} {w : σ × ChunkWriter}
    {out : Outcome (σ × ChunkWriter) Unit} (h : Performs c o request w d emissions out)
    (hw : w.2.Safe o past) : out.state.2.Safe o (past ++ emissions) := by
  cases h with
  | write hwrites => exact hwrites.safe hw
  | @flush memory w _ =>
      have hemit := hw.toCounted.attempt (attempt_emit c o memory w d)
      rw [ChunkWriter.flush]
      split
      case h_1 hnext =>
        rw [hnext] at hemit
        exact hemit
      case h_2 memory' w' d' hnext =>
        rw [hnext] at hemit
        have hhanded := w'.sink.handed_flush d'
        exact { hemit with
          written_le := Nat.le_trans hemit.written_le (Nat.le_of_eq hhanded.symm)
          handed_le := Nat.le_trans (Nat.le_of_eq hhanded) hemit.handed_le }

/-- A writer keeps to the bounds, whatever is requested. -/
theorem Since.safe {w : σ × ChunkWriter} (h : Since c o past w) : w.2.Safe o past := by
  induction h with
  | created hcreate =>
      obtain ⟨ho, id, -, rfl⟩ := create_ok_iff.1 hcreate
      obtain ⟨hpos, hle⟩ := WriteOptions.chunkSize_of_validate ho
      exact {
        chunkSize_pos := hpos
        chunkSize_le := hle
        size_le := Nat.zero_le _
        written_le := Nat.le_refl 2
        handed_le := Nat.le_refl 2
        size_lt := fun _ => hpos }
  | performed _ hperforms ih => exact hperforms.safe ih

end ChunkWriter

/-! ### Handles -/

namespace Chunked

variable {f : File (Chunked σ)} {memory : σ}

/-- What a backend has open came by requests from what was opened. -/
def Stands (c : Codec σ) (o : WriteOptions) (b : Chunked σ) : Prop :=
  match b.state with
  | .closed => True
  | .reading r => ∃ failed, ChunkReader.Since c failed r
  | .writing w => ∃ past, ChunkWriter.Since c o past (b.memory, w)

private theorem stands_acquire (c : Codec σ) (o : WriteOptions) (memory : σ) (path : String)
    (mode : Mode) (d : Disk) : ((new c memory o).acquire path mode d).state.Stands c o := by
  cases mode with
  | read =>
      rw [acquire]
      split
      · trivial
      case h_2 r hopen => exact ⟨false, .opened hopen⟩
  | write =>
      rw [acquire]
      split
      · trivial
      case h_2 w d' hcreate => exact ⟨[], .created hcreate⟩

/-- An operation makes requests of what is open, or changes what is open. -/
private theorem Stands.run (h : f.backend.Stands c o) (hf : f.Coupled (Holds c o)) (op : Operation)
    (d : Disk) : (op.run f d).2.1.backend.Stands c o := by
  by_cases hop : op.Opens
  · have hopen (path : String) (mode : Mode) : (f.open path mode d).state.backend.Stands c o := by
      obtain ⟨memory, hnew⟩ := (hf.close (lifecycle c o) d).2.exists_new
      show (acquire path mode (f.close d).1.backend (f.close d).2).state.Stands c o
      rw [hnew]
      exact stands_acquire c o memory path mode _
    cases op with
    | «open» path mode => exact hopen path mode
    | openBound => exact hopen f.filename f.mode
    | _ => exact hop.elim
  rcases File.refused_or_open f d hop with ⟨e, -, hrun, -⟩ | ⟨hopened, hright⟩
  · rw [hrun]
    exact h
  by_cases hclose : op = .close
  · subst hclose
    obtain ⟨memory, hnew⟩ := (hf.close (lifecycle c o) d).2.exists_new
    show (f.close d).1.backend.Stands c o
    rw [hnew]
    trivial
  obtain ⟨filename, mode, opened, b⟩ := f
  cases hopened
  cases mode with
  | read =>
      obtain ⟨memory, r, rfl⟩ := Holds.exists_reader hf
      obtain ⟨failed, hr⟩ := h
      show Stands c o (op.run (r.handle filename ⟨c, memory, o, .reading r⟩) d).2.1.backend
      rw [ChunkReader.run_handle filename _ r d hop hclose]
      show ∃ failed, ChunkReader.Since c failed (r.run c d op).2
      cases op with
      | ask request =>
          by_cases hloads : r.FailsToLoad c d request
          · exact ⟨true, hr.failed hloads⟩
          · exact ⟨failed, hr.loaded hloads⟩
      | _ => exact ⟨failed, hr⟩
  | write =>
      obtain ⟨memory, w, rfl⟩ := Holds.exists_writer hf
      obtain ⟨past, hw⟩ := h
      cases op with
      | «open» path mode => exact absurd trivial hop
      | openBound => exact absurd trivial hop
      | close => exact absurd rfl hclose
      | ask request => cases hright .read rfl
      | percentRead => cases hright .read rfl
      | currentOffset => exact ⟨past, hw⟩
      | perform request =>
          have hsafe := hw.safe
          obtain ⟨emissions, hperforms⟩ := ChunkWriter.exists_performs (c := c)
            hsafe.chunkSize_pos hsafe.size_le request memory d
          show Stands c o ((Operation.perform request).run
            (ChunkWriter.handle filename ⟨c, memory, o, .writing w⟩ (memory, w)) d).2.1.backend
          rw [ChunkWriter.run_perform_handle]
          exact ⟨past ++ emissions, hw.performed ((hperforms _ _).2 ⟨rfl, rfl⟩)⟩

/-- Whatever was done with a handle, what it has open came by requests from what was opened. -/
theorem stands_of_reached (hf : File.Reached (new c memory o) f) : f.backend.Stands c o := by
  induction hf with
  | bound filename mode => trivial
  | run op d hf ih => exact ih.run (.of_reached (lifecycle c o) ⟨rfl, rfl, rfl⟩ hf) op d

/-- A device without space takes the header of a chunk into the buffer and refuses its block, if
that is a long one. -/
private theorem emit_of_fullDevice {w : ChunkWriter} {memory memory' : σ} {block : ByteArray}
    (hnode : d.node? w.sink.node = some .fullDevice)
    (hpending : w.sink.pending.size = 2) (hcache : 0 < w.cache.size)
    (hblock : c.compress o w.cache memory = (.ok block, memory')) (hlong : 8192 ≤ block.size)
    (hlt : block.size < 2 ^ 32) :
    ∃ e sink, w.emit c o memory d = ⟨.error e, (memory', { w with sink }), d⟩ ∧
      sink.handed = w.sink.handed + 4 := by
  have hnot : ¬ w.cache.isEmpty = true := fun h => by
    rw [isEmpty_iff] at h
    omega
  obtain ⟨sink, hsink⟩ : ∃ sink, sink =
      { w.sink with pending := w.sink.pending ++ LittleEndian.bytes 4 block.size } := ⟨_, rfl⟩
  have hheader : (LittleEndian.bytes 4 block.size).size = 4 := by
    rw [← length_toList, LittleEndian.toList_bytes, LittleEndian.length_encode]
  have hsize : sink.pending.size = 6 := by
    rw [hsink, ByteArray.size_append, hheader, hpending]
  have hwrite : w.sink.write (LittleEndian.bytes 4 block.size) d = ⟨.ok (), sink, d⟩ := by
    rw [FileWriter.write, if_pos (by rw [hheader, hpending]; decide), hsink]
  have hfull : d.writeAt sink.node sink.position sink.pending = .error .storageFull := by
    have hempty : ¬ sink.pending.isEmpty = true := fun h => by
      rw [isEmpty_iff] at h
      omega
    have hsame : d.node? sink.node = some .fullDevice := by rw [hsink]; exact hnode
    simp [Disk.writeAt, hsame, hempty]
  have hrefuse : sink.write block d = ⟨.error (.io .storageFull), sink, d⟩ := by
    have hroom : ¬ sink.pending.size + block.size ≤ FileWriter.blockSize := by
      rw [FileWriter.blockSize]
      omega
    rw [FileWriter.write, if_neg fun h => hroom h.1, if_neg hroom]
    simp [FileWriter.flush, FileWriter.passOn, hfull]
  refine ⟨.io .storageFull, sink, ?_, ?_⟩
  · rw [ChunkWriter.emit, if_neg hnot, hblock]
    simp only [if_neg (Nat.not_le.2 hlt), hwrite, hrefuse]
  · rw [hsink, FileWriter.handed, FileWriter.handed, ByteArray.size_append, hheader, Nat.add_assoc]

/-- What 9000 bytes, written to a device without space and flushed, leave of a new writer. -/
private theorem flush_of_fullDevice {data : ByteArray} (hdata : data.size = 9000)
    {w : ChunkWriter} (hw : w = ⟨⟨1, 0, Snappy.codec.magicBytes⟩, 2, .empty⟩) :
    ∃ w₁, ChunkWriter.perform Snappy.codec default (.write data) ((), w) .empty =
        ⟨.ok (), ((), w₁), .empty⟩ ∧
      ∃ e w₂, ChunkWriter.perform Snappy.codec default .flush ((), w₁) .empty =
          ⟨.error e, ((), w₂), .empty⟩ ∧ w₂.written = 2 ∧ w₂.sink.handed = 6 := by
  have hchunk : (default : WriteOptions).chunkSize.toNat = 1048576 := rfl
  have hempty : w.cache.size = 0 := by
    rw [hw]
    rfl
  have hstop : ChunkWriter.stop default data 0 w = 9000 := by
    rw [ChunkWriter.stop, hchunk, hdata, hempty]
    rfl
  -- The bytes are fewer than a chunk takes, so that writing them emits nothing.
  obtain ⟨w₁, hw₁⟩ : ∃ w₁, w₁ = w.gather (data.extract 0 (ChunkWriter.stop default data 0 w)) :=
    ⟨_, rfl⟩
  have hcache : w₁.cache.size = 9000 := by
    have hsize : (w.gather (data.extract 0 (ChunkWriter.stop default data 0 w))).cache.size + 0 =
        w.cache.size + ChunkWriter.stop default data 0 w :=
      (ChunkWriter.size_gather (by omega) (by omega)).1
    rw [← hw₁] at hsize
    omega
  have hwrite : ChunkWriter.perform Snappy.codec default (.write data) ((), w) .empty =
      ⟨.ok (), ((), w₁), .empty⟩ := by
    obtain ⟨_, hperforms⟩ := ChunkWriter.exists_performs (c := Snappy.codec) (o := default) (w := w)
      (by omega) (by omega) (.write data) () .empty
    have hwrites : ChunkWriter.Writes Snappy.codec default data 0 () w .empty []
        ⟨.ok (), ((), w₁), .empty⟩ :=
      .gathered (by omega) (by omega) hw₁ (by omega) (.all (by omega))
    exact ((hperforms _ _).1 (.write hwrites)).2.symm
  obtain ⟨block, hblock, hlong, hlt⟩ : ∃ block,
      Snappy.codec.compress default w₁.cache () = (.ok block, ()) ∧ 8192 ≤ block.size ∧
        block.size < 2 ^ 32 := by
    have hmax : w₁.cache.size ≤ maxChunkSize := by rw [hcache]; decide
    obtain ⟨block, _, hblock, -, hle⟩ := Snappy.lossless default w₁.cache () rfl (by omega) hmax
    refine ⟨block, hblock, ?_, ?_⟩
    · rw [Snappy.compress_eq hmax] at hblock
      rw [← Except.ok.inj (Prod.mk.inj hblock).1, ← length_toList, Snappy.toList_encode (by omega)]
      simp only [List.length_append, length_toList]
      omega
    · rw [hcache] at hle
      exact Nat.lt_of_le_of_lt hle (by decide)
  have hnode : Disk.empty.node? w₁.sink.node = some .fullDevice := by
    rw [hw₁, hw]
    rfl
  obtain ⟨e, sink, hemit, hhanded⟩ :=
    emit_of_fullDevice hnode (by rw [hw₁, hw]; rfl) (by omega) hblock hlong hlt
  refine ⟨w₁, hwrite, e, { w₁ with sink }, ?_, ?_, ?_⟩
  · rw [ChunkWriter.perform, ChunkWriter.flush, hemit]
  · rw [hw₁, hw]
    rfl
  · rw [hhanded, hw₁, hw]
    rfl

/-- A new handle that writes as many bytes and flushes them. -/
private theorem written_lags {data : ByteArray} (hdata : data.size = 9000) :
    let f := File.bound (Chunked.new Snappy.codec () default) "/dev/full" .write
    let ops : List Operation := [.openBound, .perform (.write data), .perform .flush]
    ∃ w, (Operation.runAll ops f .empty).2.1.backend.state = .writing w ∧ w.written = 2 ∧
      w.sink.handed = 6 := by
  intro f ops
  obtain ⟨w₀, hw₀⟩ : ∃ w₀ : ChunkWriter, w₀ = ⟨⟨1, 0, Snappy.codec.magicBytes⟩, 2, .empty⟩ :=
    ⟨_, rfl⟩
  have hcreate : ChunkWriter.create Snappy.codec default "/dev/full" .empty =
      .ok (w₀, Disk.empty) := ChunkWriter.create_ok_iff.2 ⟨rfl, 1, rfl, hw₀⟩
  have hopen : f.openBound .empty = ⟨.ok (), ChunkWriter.handle "/dev/full"
      (.new Snappy.codec () default) ((), w₀), .empty⟩ := by
    show (let o := (Chunked.new Snappy.codec () default).acquire "/dev/full" .write .empty
      (⟨o.result, ⟨"/dev/full", .write, o.result.isOk, o.state⟩, o.disk⟩ :
        Outcome (File (Chunked Unit)) Unit)) = _
    rw [acquire]
    simp only [Chunked.new]
    rw [hcreate]
    rfl
  obtain ⟨w₁, hwrite, e, w₂, hflush, hwritten, hhanded⟩ := flush_of_fullDevice hdata hw₀
  refine ⟨w₂, ?_, hwritten, hhanded⟩
  simp only [ops, Operation.runAll]
  rw [Operation.run, hopen]
  simp only [ChunkWriter.run_perform_handle]
  rw [show (new Snappy.codec () default).codec = Snappy.codec from rfl,
    show (new Snappy.codec () default).options = default from rfl, hwrite, hflush]
  rfl

/-- Whatever is open was opened, and came to be what it is by requests. A reader then stands in a
chunk of its cache that is not too long, its position is told without loss, and a byte is there
whenever filling says so. As long as no chunk has failed to load, its file stands where it expects
the next one. A writer then has no more pending than a chunk takes, and less unless the last chunk
was not emitted, and its position is told without loss. It counts the bytes that its file has taken,
but for the headers of chunks that the file broke off. And what is requested of it ends. -/
theorem cache_safe (hc : c.Bounded) (memory : σ) (o : WriteOptions) :
    (∀ f, File.Reached (Chunked.new c memory o) f → f.backend.Stands c o) ∧
    (∀ failed r, ChunkReader.Since c failed r →
      r.pos ≤ r.cache.size ∧ r.cache.size ≤ maxChunkSize ∧
      r.currentOffset.inChunk.toNat = r.pos ∧
      (∀ d r', r.fill c d = (.ok true, r') → r'.pos < r'.cache.size) ∧
      (failed = false → r.source.position = r.nextChunk + r.source.pending.size)) ∧
    ∀ past memory w, ChunkWriter.Since c o past (memory, w) →
      w.cache.size ≤ o.chunkSize.toNat ∧ o.chunkSize.toNat ≤ maxChunkSize ∧
      ((∀ last ∈ past.getLast?, last = .done) → w.cache.size < o.chunkSize.toNat) ∧
      w.currentOffset.inChunk.toNat = w.cache.size ∧
      (.broken ∉ past → w.written = w.sink.handed) ∧
      (w.written ≤ w.sink.handed ∧ w.sink.handed ≤ w.written + 4 * past.count .broken) ∧
      ∀ request d, ∃ emissions, ∀ emissions' out,
        ChunkWriter.Performs c o request (memory, w) d emissions' out ↔
          emissions' = emissions ∧ out = ChunkWriter.perform c o request (memory, w) d := by
  have hfits {size : Nat} (hsize : size ≤ maxChunkSize) : size < 2 ^ 32 := by
    rw [maxChunkSize] at hsize
    omega
  refine ⟨fun f hf => stands_of_reached hf, fun failed r hr => ?_, fun past memory w hw => ?_⟩
  · have hsafe := hr.safe hc
    have hpos := Nat.le_trans hsafe.pos_le hsafe.size_le
    refine ⟨hsafe.pos_le, hsafe.size_le, ChunkReader.inChunk_ofNat (hfits hpos), ?_, hsafe.inPlace⟩
    intro d r' hfill
    exact Nat.lt_of_sub_pos (ChunkReader.available_of_fill hfill)
  · have hsafe := hw.safe
    have hsize := Nat.le_trans hsafe.size_le hsafe.chunkSize_le
    refine ⟨hsafe.size_le, hsafe.chunkSize_le, hsafe.size_lt,
      ChunkReader.inChunk_ofNat (hfits hsize), fun hnone => ?_, ⟨hsafe.written_le, hsafe.handed_le⟩,
      fun request d =>
        ChunkWriter.exists_performs hsafe.chunkSize_pos hsafe.size_le request memory d⟩
    have hle := hsafe.handed_le
    rw [List.count_eq_zero_of_not_mem hnone, Nat.mul_zero] at hle
    exact Nat.le_antisymm hsafe.written_le hle

/-- A new handle that was opened for writing and given two bytes. -/
theorem cache_safe_snappy :
    let f := (Operation.runAll [.openBound, .perform (.write ⟨#[1, 2]⟩)]
      (File.bound (Chunked.new Snappy.codec () default) "t" .write) .empty).2.1
    ∃ w, f.backend.state = .writing w ∧
      w.cache.size ≤ 1048576 ∧ w.currentOffset.inChunk.toNat = w.cache.size ∧
      w.written ≤ w.sink.handed := by
  intro f
  obtain ⟨hstands, -, hwriters⟩ := cache_safe (Snappy.bounded _) () default
  have hf := hstands f ((File.Reached.bound "t" .write).runAll _ .empty)
  obtain ⟨w, hw⟩ : ∃ w, f.backend.state = .writing w := ⟨_, rfl⟩
  rw [Stands, hw] at hf
  obtain ⟨past, hpast⟩ := hf
  obtain ⟨hsize, -, -, hexact, -, ⟨hwritten, -⟩, -⟩ := hwriters past _ w hpast
  exact ⟨w, hw, hsize, hexact, hwritten⟩

/-- A chunk that a device without space breaks off: six bytes were handed over, and two counted. -/
theorem written_lags_behind :
    Snappy.codec.Bounded ∧ ∃ f w, File.Reached (Chunked.new Snappy.codec () default) f ∧
      f.backend.state = .writing w ∧ w.written = 2 ∧ w.sink.handed = 6 := by
  obtain ⟨w, hw, hwritten, hhanded⟩ :=
    written_lags (show (⟨Array.replicate 9000 1⟩ : ByteArray).size = 9000 from Array.size_replicate)
  exact ⟨Snappy.bounded _, _, w, (File.Reached.bound "/dev/full" .write).runAll _ .empty, hw,
    hwritten, hhanded⟩

end Chunked
end TraceStore
