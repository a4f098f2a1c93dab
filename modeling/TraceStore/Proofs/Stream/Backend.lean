import TraceStore.Proofs.Disk.Reader
import TraceStore.Proofs.Disk.Writer
import TraceStore.Proofs.Cursor
import TraceStore.Stream.Backend

/-!
# Traces in single streams

What the backend for single streams relies on is that its decoder gets back what its encoder was
given: `StreamLossless`. Then whatever is requested of a handle that writes, a handle on the file
delivers the bytes written: `Streamed.session`.
-/
namespace TraceStore

variable {δ ε : Type} [StreamDecoder δ] [StreamEncoder ε]

/-- Performs a request for writing. -/
def StreamEncoder.perform : WriteRequest → ε → Disk → Outcome ε Unit
  | .write bytes, e, d => StreamEncoder.write bytes e d
  | .flush, e, d => StreamEncoder.flush e d

/-- Whatever is requested of an encoder at the start of a file, other nodes stay as they are. -/
def StreamEncoder.SparesOthers (ε : Type) [StreamEncoder ε] : Prop :=
  ∀ (o : WriteOptions) (d : Disk) (id other : Nat), other ≠ id →
    WriteRequest.Spares (τ := ε) StreamEncoder.perform other
      (StreamEncoder.start o (FileWriter.start id)) d

/-- An encoder that does nothing to a disk but through the writer that it was given: it writes to
that and flushes it, and gives it up in the end. -/
structure StreamEncoder.WritesThrough (sink : ε → FileWriter) : Prop where
  start : ∀ o w, sink (StreamEncoder.start o w) = w
  perform : ∀ request e d, (sink e).Through d
    (sink (StreamEncoder.perform request e d).state) (StreamEncoder.perform request e d).disk
  finish : ∀ e d, ∃ w d', (sink e).Through d w d' ∧ StreamEncoder.finish e d = w.release d'

theorem StreamEncoder.WritesThrough.sparesOthers {sink : ε → FileWriter}
    (h : WritesThrough sink) : SparesOthers ε := by
  intro o d id other hne
  refine WriteRequest.spares_of_advances sink (fun request e d => (h.perform request e d).advances) ?_
  rw [h.start]
  exact hne

/-- Whatever is requested of an encoder on an empty file, it succeeds and leaves a file that starts
with the magic of gzip, and a decoder on any file with these contents delivers what was written.
Nothing else on the disk changes. -/
def StreamLossless (δ ε : Type) [StreamDecoder δ] [StreamEncoder ε] : Prop :=
  ∀ (o : WriteOptions) (d : Disk) (id : Nat) (requests : List WriteRequest),
    o.validate = .ok () → d.node? id = some (.file .empty) → ∃ (e : ε) (d' : Disk) (F : ByteArray),
      WriteRequest.runAll StreamEncoder.perform requests
        (StreamEncoder.start o (FileWriter.start id)) d = ⟨.ok (), e, d'⟩ ∧
      StreamEncoder.finish e d' = d.setNode id (.file F) ∧
      [Format.zlib.magic.1, Format.zlib.magic.2] <+: F.data.toList ∧
      ∀ (d' : Disk) (id' : Nat), d'.node? id' = some (.file F) →
        Delivers (fun count x => StreamDecoder.read count x d') (WriteRequest.written requests)
          (StreamDecoder.start id' d' : δ)

/-! ### Reading -/

namespace StreamReader

variable {d : Disk} {r : StreamReader δ} {s : List UInt8}

theorem percentRead_of_clean (h : r.tail = .clean) : r.percentRead = 100 := if_pos h

theorem percentRead_le (h : r.tail ≠ .clean) : r.percentRead ≤ 99 := by
  rw [percentRead, if_neg h]
  exact Nat.min_le_right ..

/-- A reader that has not failed, and whose decoder has `s` to deliver. -/
def Streams (d : Disk) (s : List UInt8) (r : StreamReader δ) : Prop :=
  r.tail ≠ .failed ∧ Delivers (fun count x => StreamDecoder.read count x d) s r.decoder

/-- A request for some bytes. -/
theorem readSome_step (s : List UInt8) (r : StreamReader δ) (h : r.Streams d s)
    (count : Nat) (hcount : 0 < count) : ∃ piece r' rest, r.readSome count d = (.ok piece, r') ∧
      s = piece.data.toList ++ rest ∧ piece.size ≤ count ∧ (piece.size = 0 → s = []) ∧
        r'.Streams d rest := by
  obtain ⟨htail, hdelivers⟩ := h
  obtain ⟨piece, decoder, rest, hread, hs, hle, hend, hrest⟩ := hdelivers.step hcount
  refine ⟨piece, { r with decoder, tail := if piece.isEmpty then .clean else r.tail }, rest, ?_, hs,
    hle, hend, ?_, hrest⟩
  · rw [readSome, if_neg (by omega), if_neg htail, hread]
  · show (if piece.isEmpty then Tail.clean else r.tail) ≠ .failed
    split
    · simp
    · exact htail

/-- A request for exactly some bytes. -/
theorem Streams.read (h : r.Streams d s) (count : Nat) : ∃ result r',
    r.read count d = (result, r') ∧ ReadsFrom s count result ∧ r'.Streams d (s.drop count) := by
  -- What was read and what is left make up the same stream in every round.
  suffices ∀ fuel count (done : ByteArray) s (r : StreamReader δ), count ≤ fuel → r.Streams d s →
      ∃ result r', readWithin d fuel count done r = (result, r') ∧
        ReadsFrom (done.data.toList ++ s) (done.size + count) result ∧
        r'.Streams d (s.drop count) by
    simpa [StreamReader.read] using this count count .empty s r (Nat.le_refl _) h
  intro fuel
  induction fuel with
  | zero =>
      intro count done s r hfuel h
      obtain rfl : count = 0 := by omega
      exact ⟨_, r, rfl, readsFrom_done done s, h⟩
  | succ fuel ih =>
      intro count done s r hfuel h
      by_cases hcount : count = 0
      · subst hcount
        exact ⟨_, r, by rw [readWithin, if_pos rfl], readsFrom_done done s, h⟩
      obtain ⟨piece, r', rest, hread, rfl, hle, hend, hrest⟩ :=
        readSome_step s r h count (Nat.pos_of_ne_zero hcount)
      rw [readWithin, if_neg hcount, hread]
      by_cases hpiece : piece.size = 0
      · have hnil := hend hpiece
        refine ⟨_, r', if_pos (isEmpty_iff.2 hpiece), ?_, ?_⟩
        · rw [hnil]
          exact readsFrom_past (Nat.pos_of_ne_zero hcount)
        · rw [hnil, List.drop_nil]
          rwa [(List.append_eq_nil_iff.1 hnil).2] at hrest
      · obtain ⟨result, r'', hround, hfrom, hkeep⟩ :=
          ih (count - piece.size) (done ++ piece) rest r' (by omega) hrest
        refine ⟨result, r'', ?_, ?_, ?_⟩
        · rw [← hround]
          exact if_neg (mt isEmpty_iff.1 hpiece)
        · exact hfrom.of_piece hle
        · rwa [drop_toList_append hle]

/-- A stream is served. -/
theorem Streams.serves (h : r.Streams d s) :
    Serves (fun count r => r.readSome count d) (fun count r => r.read count d) s r :=
  .of_invariant (Streams d) readSome_step
    (fun s r h count hlt => by
      obtain ⟨_, _, hread, hfrom, -⟩ := Streams.read h count
      rw [hread, hfrom.2 hlt]) h

/-- The handle that has a reader open. -/
def handle (filename : String) (o : WriteOptions) (r : StreamReader δ) : File (Streamed δ ε) :=
  ⟨filename, .read, true, ⟨o, .reading r⟩⟩

theorem readSome_handle (filename : String) (o : WriteOptions) (count : Nat) (r : StreamReader δ) :
    (r.handle filename o : File (Streamed δ ε)).readSome count d =
      (r.readSome count d).map id (handle filename o) := by
  -- The backend answers requests for nothing by itself, as the reader would.
  cases count <;> rfl

theorem read_handle (filename : String) (o : WriteOptions) (count : Nat) (r : StreamReader δ) :
    (r.handle filename o : File (Streamed δ ε)).read count d =
      (r.read count d).map id (handle filename o) := by
  cases count <;> rfl

theorem Streams.serves_handle (filename : String) (o : WriteOptions) (h : r.Streams d s) :
    Serves (fun count f => f.readSome count d) (fun count f => f.read count d) s
      (r.handle filename o : File (Streamed δ ε)) :=
  Serves.map (handle filename o) (readSome_handle filename o) (read_handle filename o) h.serves

end StreamReader

/-! ### Writing -/

namespace StreamEncoder

/-- The handle that has an encoder open. -/
def handle (filename : String) (o : WriteOptions) (e : ε) : File (Streamed δ ε) :=
  ⟨filename, .write, true, ⟨o, .writing e⟩⟩

theorem perform_handle (filename : String) (o : WriteOptions) (request : WriteRequest) (e : ε)
    (d : Disk) : (handle filename o e : File (Streamed δ ε)).perform request d =
      (perform request e d).mapState (handle filename o) := by
  cases request <;> rfl

theorem runAll_handle (filename : String) (o : WriteOptions) (requests : List WriteRequest) (e : ε)
    (d : Disk) : WriteRequest.runAll File.perform requests
        (handle filename o e : File (Streamed δ ε)) d =
      (WriteRequest.runAll perform requests e d).mapState (handle filename o) :=
  WriteRequest.runAll_mapState (handle filename o) (perform_handle filename o) requests e d

end StreamEncoder

/-! ### A whole session -/

namespace Streamed

/-- Opening a file for reading with a new handle. -/
theorem open_new_read (o : WriteOptions) {d : Disk} {path : String} {id : Nat} {F : ByteArray}
    (hlookup : d.lookup path = .ok id) (hnode : d.node? id = some (.file F)) :
    (File.new (new o : Streamed δ ε)).open path .read d =
      ⟨.ok (), StreamReader.handle path o ⟨StreamDecoder.start id d, F.size, .pending⟩, d⟩ := by
  show (let opened := Streamed.acquire path .read (Streamed.new o) d
    (⟨opened.result, ⟨path, .read, opened.result.isOk, opened.state⟩, opened.disk⟩ :
      Outcome (File (Streamed δ ε)) Unit)) = _
  simp only [acquire, StreamReader.open, hlookup, Disk.size_file hnode]
  rfl

/-- Opening a path for writing with a new handle. -/
theorem open_new_write (o : WriteOptions) (path : String) (d : Disk) :
    (File.new (new o : Streamed δ ε)).open path .write d =
      match o.validate, d.create path with
      | .error e, _ => ⟨.error e, ⟨path, .write, false, new o⟩, d⟩
      | .ok (), .error cause => ⟨.error (.io cause), ⟨path, .write, false, new o⟩, d⟩
      | .ok (), .ok (id, d') =>
        ⟨.ok (), StreamEncoder.handle path o (StreamEncoder.start o (FileWriter.start id)), d'⟩ := by
  show (let opened := Streamed.acquire path .write (Streamed.new o) d
    (⟨opened.result, ⟨path, .write, opened.result.isOk, opened.state⟩, opened.disk⟩ :
      Outcome (File (Streamed δ ε)) Unit)) = _
  simp only [acquire, Streamed.new]
  cases o.validate with
  | error e => rfl
  | ok => cases d.create path <;> rfl

/-- Whatever is requested of a new handle that writes, a new handle on the file reads it back. -/
theorem roundTrips (hlossless : StreamLossless δ ε) {o : WriteOptions} (ho : o.validate = .ok ())
    {d : Disk} {path : String} (hpath : d.Creatable path) (requests : List WriteRequest) :
    File.RoundTrips (new : WriteOptions → Streamed δ ε) .zlib o path d requests := by
  obtain ⟨id, d₁, hcreate, hnode⟩ := hpath
  obtain ⟨e, d₂, F, hrun, hfinish, hmagic, hdelivers⟩ := hlossless o d₁ id requests ho hnode
  have hid : id < d₁.nodes.size := (Array.getElem?_eq_some_iff.1 hnode).1
  have hcontents : (d₁.setNode id (.file F)).contents? path = some F :=
    Disk.contents?_setNode (Disk.find?_create hcreate) hid
  obtain ⟨id', hlookup, hnode'⟩ := Disk.lookup_of_contents hcontents
  refine ⟨StreamEncoder.handle path o (StreamEncoder.start o (FileWriter.start id)),
    StreamEncoder.handle path o e, d₁, d₂, _, F, ?_, ?_, hfinish, hfinish, hcontents, hmagic, ?_⟩
  · rw [open_new_write, ho, hcreate]
  · rw [StreamEncoder.runAll_handle, hrun]
    rfl
  · intro o
    have hstreams : StreamReader.Streams (d₁.setNode id (.file F)) (WriteRequest.written requests)
        (⟨StreamDecoder.start id' (d₁.setNode id (.file F)), F.size, .pending⟩ : StreamReader δ) :=
      ⟨by simp, hdelivers _ id' hnode'⟩
    exact ⟨_, open_new_read o hlookup hnode', rfl, hstreams.serves_handle path o⟩

end Streamed
end TraceStore
