import TraceStore.Proofs.Chunk.Follow
import TraceStore.Proofs.Chunk.Placed

/-!
# Going back in a trace that is being written

While one handle writes a trace, another one reads it, tells where it stands, and goes back to where
it was. A position that it told leads it to the bytes that came next there, whatever was written
since, but it is accepted only up to the length that the file had when the reader opened it:
`Chunked.goes_back`. A position in a chunk that was appended after that is rejected:
`Chunked.rejects_own_mark`.
-/
namespace TraceStore

variable {σ : Type} {c : Codec σ} {o : WriteOptions}

/-- A handle that writes a trace, a handle that reads it once it was opened, and what they did. -/
structure Marking (σ : Type) where
  writer : File (Chunked σ)
  reader : Option (File (Chunked σ))
  disk : Disk
  /-- The bytes written so far. -/
  written : List UInt8
  /-- The bytes written before the last flush or close. -/
  flushed : List UInt8
  /-- The length of the file when the reader was opened. -/
  length : Nat
  /-- How many of the bytes written the reader stands behind. -/
  position : Nat
  /-- The positions that the reader told so far, and how many bytes it stood behind then. -/
  marks : List (Offset × Nat)

namespace Marking

/-- The handle that writes, and what it did. -/
def unread (s : Marking σ) : Following σ := ⟨s.writer, none, s.disk, s.written, s.flushed, []⟩

/-- What may happen next, as long as the reader has met no error. -/
inductive Step (c : Codec σ) (path : String) (s : Marking σ) : Marking σ → Prop
  | writer {t : Following σ} : Following.Step c path s.unread t → t.reader = none →
      Step c path s { s with
        writer := t.writer, disk := t.disk, written := t.written, flushed := t.flushed }
  | openReader {f g : File (Chunked σ)} {F : ByteArray} : s.reader = none → f.backend.codec = c →
      f.open path .read s.disk = ⟨.ok (), g, s.disk⟩ → s.disk.contents? path = some F →
      Step c path s { s with reader := some g, length := F.size }
  | ask {g : File (Chunked σ)} {request : ReadRequest} {count : Nat} : s.reader = some g →
      ¬ LoadFails s.disk g request → request.Takes (g.ask s.disk request).1 count →
      Step c path s { s with
        reader := some (g.ask s.disk request).2, position := s.position + count }
  | mark {g : File (Chunked σ)} : s.reader = some g →
      Step c path s { s with marks := (g.currentOffset.1, s.position) :: s.marks }
  | goBack {g g' : File (Chunked σ)} {a : Offset} {k : Nat} : s.reader = some g →
      (a, k) ∈ s.marks → g.setCurrentOffset a s.disk = (.ok (), g') →
      Step c path s { s with reader := some g', position := k }

theorem Step.write {path : String} {s : Marking σ} {bytes : ByteArray} {f : File (Chunked σ)}
    {d : Disk} (h : s.writer.write bytes s.disk = ⟨.ok (), f, d⟩) :
    Step c path s { s with writer := f, disk := d, written := s.written ++ bytes.data.toList } :=
  .writer (s := s) (t := { s.unread with
    writer := f, disk := d, written := s.written ++ bytes.data.toList }) (.write h) rfl

theorem Step.flush {path : String} {s : Marking σ} {f : File (Chunked σ)} {d : Disk}
    (h : s.writer.flush s.disk = ⟨.ok (), f, d⟩) :
    Step c path s { s with writer := f, disk := d, flushed := s.written } :=
  .writer (s := s) (t := { s.unread with writer := f, disk := d, flushed := s.written })
    (.flush h) rfl

/-- Whether a position leads to the place behind the first `k` bytes of the stream of a file. -/
def Leads (c : Codec σ) (F : ByteArray) (a : Offset) (k : Nat) : Prop :=
  ∃ start pos, a = .ofNat start pos ∧ ChunkReader.Names c F start pos k

/-- What the reader has of the file, and what the positions that it told lead to. -/
structure Reads (c : Codec σ) (path : String) (id : Nat) (F : ByteArray) (s : Marking σ)
    (g : File (Chunked σ)) : Prop where
  reader : ∃ (r : ChunkReader) (b : Chunked σ), g = r.handle path b ∧ b.codec = c ∧
    r.source.node = id ∧ r.fileSize = s.length ∧ r.Placed c s.disk F s.position
  two_le : 2 ≤ s.length
  length_le : s.length ≤ F.size
  marks : ∀ mark ∈ s.marks, Leads c F mark.1 mark.2

/-- What the handles have of the file, as long as its length can be counted in 64 bits. -/
structure Stands (c : Codec σ) (o : WriteOptions) (path : String) (d₀ : Disk) (id : Nat)
    (chunks : List (Chunk c)) (F : ByteArray) (s : Marking σ) : Prop where
  stored : Following.Stored c path d₀ id chunks F s.unread
  writes : Following.Writes c o path d₀ id chunks F s.writer s.disk s.written
  idle : s.reader = none → s.position = 0 ∧ s.marks = []
  reads : F.size < 2 ^ 64 → ∀ g, s.reader = some g → Reads c path id F s g

/-! ### Positions that were told -/

variable {F F' : ByteArray} {a : Offset} {k : Nat} {path : String} {d₀ : Disk} {id : Nat}
  {chunks : List (Chunk c)} {s s' : Marking σ} {g : File (Chunked σ)}

theorem Leads.grow (h : Leads c F a k) (hgrown : F.data.toList <+: F'.data.toList) :
    Leads c F' a k := by
  obtain ⟨start, pos, ha, hnames⟩ := h
  exact ⟨start, pos, ha, hnames.grow hgrown⟩

/-- A position leads to the place that it says, if it is large enough for that. -/
theorem Leads.names (h : Leads c F a k) (hc : c.Bounded) (htwo : 2 ≤ F.size)
    (hsize : F.size < 2 ^ 64) :
    ChunkReader.Names c F (ChunkReader.target a) a.inChunk.toNat k ∧
      ChunkReader.target a = a.chunk.toNat ∧
      a = .ofNat (ChunkReader.target a) a.inChunk.toNat := by
  obtain ⟨start, pos, rfl, hnames⟩ := h
  obtain ⟨hpos, hle⟩ := hnames.start_le htwo
  have hchunk : (Offset.ofNat start pos).chunk.toNat = start := by
    rw [Offset.ofNat, UInt64.toNat_ofNat', Nat.mod_eq_of_lt (by omega)]
  rw [ChunkReader.target_ofNat (by omega) (by omega),
    ChunkReader.inChunk_ofNat (hnames.pos_lt hc), hchunk]
  exact ⟨hnames, rfl, rfl⟩

/-- A handle that stands in the stream goes on there. -/
theorem Stands.continues (h : Stands c o path d₀ id chunks F s) {r : ChunkReader} {b : Chunked σ}
    (hb : b.codec = c) (hplaced : r.Placed c s.disk F k) : s.unread.Continues k (r.handle path b) := by
  obtain ⟨hk, htrails⟩ := hplaced.trails h.stored.begins
  exact h.stored.continues h.writes.decoded_begins hb hk htrails

/-! ### What every step keeps -/

/-- The reader stays what it is, and the positions that it told stay good, as the writer goes on. -/
theorem Reads.grow (h : Reads c path id F s g) (hgrown : F.data.toList <+: F'.data.toList)
    {t : Following σ} (hnode : t.disk.node? id = some (.file F')) :
    Reads c path id F' { s with
      writer := t.writer, disk := t.disk, written := t.written, flushed := t.flushed } g where
  reader := by
    obtain ⟨r, b, hr, hb, hid, hsize, hplaced⟩ := h.reader
    exact ⟨r, b, hr, hb, hid, hsize, hplaced.grow (by rwa [hid]) hgrown⟩
  two_le := h.two_le
  length_le := by
    have hlen := hgrown.length_le
    rw [length_toList, length_toList] at hlen
    exact Nat.le_trans h.length_le hlen
  marks mark hmark := (h.marks mark hmark).grow hgrown

/-- Opening a reader. -/
theorem Stands.openReader (h : Stands c o path d₀ id chunks F s) {f : File (Chunked σ)}
    (hnone : s.reader = none) (hcodec : f.backend.codec = c)
    (hopen : f.open path .read s.disk = ⟨.ok (), g, s.disk⟩)
    (hF : s.disk.contents? path = some F) :
    Reads c path id F { s with reader := some g, length := F.size } g := by
  obtain ⟨hposition, hmarks⟩ := h.idle hnone
  obtain ⟨r, b, rfl, hb, hr, hid⟩ := h.stored.exists_opened hcodec hopen
  have hplaced := ChunkReader.Placed.of_open hF hr
  exact {
    reader := ⟨r, b, rfl, hb, hid, (ChunkReader.onFile_of_open hF hr).fileSize_eq, by
      rw [hposition]
      exact hplaced⟩
    two_le := hplaced.two_le
    length_le := Nat.le_refl _
    marks := by
      rw [hmarks]
      exact fun mark hmark => by cases hmark }

/-- Going back to a position that was told. It is rejected if it is behind the length that the file
had when the reader was opened, and accepted otherwise if a byte was read before it or the file has
its first chunk in full. -/
theorem Reads.goBack (h : Reads c path id F s g) (hc : c.Bounded) (hsize : F.size < 2 ^ 64)
    {mark : Offset × Nat} (hmark : mark ∈ s.marks) :
    (s.length < mark.1.chunk.toNat → (g.setCurrentOffset mark.1 s.disk).1 =
      .error (.invalidOffset mark.1.chunk mark.1.inChunk)) ∧
    (mark.1.chunk.toNat ≤ s.length → (mark.2 ≠ 0 ∨ ∃ (chunk : Chunk c) (rest : List UInt8),
        F.data.toList.drop 2 = chunk.frame ++ rest) →
      (g.setCurrentOffset mark.1 s.disk).1 = .ok ()) ∧
    ∀ g', g.setCurrentOffset mark.1 s.disk = (.ok (), g') →
      g'.currentOffset.1 = mark.1 ∧
        Reads c path id F { s with reader := some g', position := mark.2 } g' := by
  obtain ⟨r, b, rfl, rfl, hid, hlength, hplaced⟩ := h.reader
  have hle := h.length_le
  obtain ⟨hnames, htarget, ha⟩ := (h.marks mark hmark).names hc (Nat.le_trans h.two_le hle) hsize
  rw [← hlength] at hle
  obtain ⟨hrejected, haccepted, hstands⟩ :=
    ChunkReader.setCurrentOffset_of_names hplaced.within hle hnames
  rw [htarget, hlength] at hrejected haccepted
  rw [ChunkReader.setCurrentOffset_handle]
  refine ⟨hrejected, haccepted, fun g' hseek => ?_⟩
  have hsame : ChunkReader.SameFile r (r.setCurrentOffset b.codec mark.1 s.disk).2 :=
    ChunkReader.sameFile_ask r (.seek mark.1)
  generalize r.setCurrentOffset b.codec mark.1 s.disk = answer at hstands hseek hsame
  obtain ⟨result, r'⟩ := answer
  obtain ⟨rfl, rfl⟩ := Prod.mk.inj hseek
  obtain ⟨hplaced', hstart, hpos⟩ := hstands r' rfl
  constructor
  · show Offset.ofNat r'.chunkStart r'.pos = mark.1
    rw [hstart, hpos, ← ha]
  · exact { h with
      reader := ⟨r', b, rfl, rfl, hsame.node_eq.trans hid, hsame.fileSize_eq.trans hlength,
        hplaced'⟩ }

/-- A request that takes some bytes. -/
theorem Reads.ask (h : Reads c path id F s g) {request : ReadRequest} {count : Nat}
    (hloads : ¬ LoadFails s.disk g request)
    (htakes : request.Takes (g.ask s.disk request).1 count) :
    Reads c path id F
      { s with reader := some (g.ask s.disk request).2, position := s.position + count }
      (g.ask s.disk request).2 := by
  obtain ⟨r, b, rfl, rfl, hid, hlength, hplaced⟩ := h.reader
  rw [ChunkReader.ask_handle] at htakes ⊢
  have hsame := ChunkReader.sameFile_ask (c := b.codec) (d := s.disk) r request
  have hplaced' := (ChunkReader.counted_placed b.codec s.disk F).ask hplaced
    (fun e hfails => hloads ⟨e, hfails⟩) htakes
  exact { h with
    reader := ⟨_, b, rfl, rfl, hsame.node_eq.trans hid, hsame.fileSize_eq.trans hlength, hplaced'⟩ }

section Step

variable (hencodes : c.Encodes o)
  (hdecodes : ∀ emitted : List (Emitted c o), ∃ chunks : List (Chunk c),
    Chunk.frames chunks = Emitted.frames emitted ∧ Chunk.decoded chunks = Emitted.contents emitted ∧
      chunks.map (·.data) = emitted.map (·.data))

include hencodes hdecodes

/-- Every step keeps what the handles have of the file. -/
theorem Step.keeps (hstep : Step c path s s') (hc : c.Bounded)
    (h : Stands c o path d₀ id chunks F s) :
    ∃ (chunks' : List (Chunk c)) (F' : ByteArray), Stands c o path d₀ id chunks' F' s' := by
  cases hstep with
  | @writer t hwriter hnone =>
      obtain ⟨chunks', F', hgrown, hs, hw⟩ := hwriter.keeps hencodes hdecodes h.stored h.writes
      have hlen := hgrown.length_le
      rw [length_toList, length_toList] at hlen
      refine ⟨chunks', F', ?_, hw, h.idle, fun hsize g hg => ?_⟩
      · obtain ⟨writer, reader, disk, written, flushed, delivered⟩ := t
        obtain rfl : reader = none := hnone
        obtain rfl : delivered = [] := hs.unread rfl
        exact hs
      · exact (h.reads (by omega) g hg).grow hgrown hs.node_eq
  | @openReader f g F' hnone hcodec hopen hF' =>
      have hF : s.disk.contents? path = some F := h.stored.contents_eq
      obtain rfl := Option.some.inj (hF.symm.trans hF')
      refine ⟨chunks, F, h.stored, h.writes, by simp, fun _ g' hg' => ?_⟩
      obtain rfl := Option.some.inj hg'
      exact h.openReader hnone hcodec hopen hF
  | @ask g request count hg hloads htakes =>
      refine ⟨chunks, F, h.stored, h.writes, by simp, fun hsize g' hg' => ?_⟩
      obtain rfl := Option.some.inj hg'
      exact (h.reads hsize g hg).ask hloads htakes
  | @mark g hg =>
      refine ⟨chunks, F, h.stored, h.writes, fun hreader => ?_, fun hsize g' hg' => ?_⟩
      · cases hg.symm.trans hreader
      · obtain rfl := Option.some.inj (hg.symm.trans hg')
        have hreads := h.reads hsize g hg
        obtain ⟨r, b, rfl, -, -, -, hplaced⟩ := hreads.reader
        refine { hreads with marks := fun mark hmark => ?_ }
        rcases List.mem_cons.1 hmark with rfl | hmark
        · exact ⟨r.chunkStart, r.pos, rfl, hplaced.names⟩
        · exact hreads.marks mark hmark
  | @goBack g g' a k hg hmark hseek =>
      refine ⟨chunks, F, h.stored, h.writes, by simp, fun hsize g'' hg' => ?_⟩
      obtain rfl := Option.some.inj hg'
      exact (((h.reads hsize g hg).goBack hc hsize hmark).2.2 g' hseek).2

end Step

/-- What of the stream was flushed lies in the file in full. -/
theorem Stands.exists_first (h : Stands c o path d₀ id chunks F s) (hflushed : s.flushed ≠ []) :
    ∃ (chunk : Chunk c) (rest : List UInt8), F.data.toList.drop 2 = chunk.frame ++ rest := by
  obtain ⟨full, -, ⟨rest, hrest⟩, hdecoded⟩ := h.stored.flushed
  cases full with
  | nil => exact absurd hdecoded.symm hflushed
  | cons chunk more => exact ⟨chunk, Chunk.frames more ++ rest, by rw [← hrest]; simp⟩

end Marking

/-- A handle writes a trace, while another one reads it, tells where it stands, and goes back to
positions that it told. Whatever the order of their requests, as long as no request of the reader
fails, it goes on behind the bytes that it has taken. A position that it told is accepted if a chunk
could start there when the file was opened, and bytes had been read before or have been flushed; the
reader tells it again then, and goes on with what came next when it was told. A position behind the
length that the file had when it was opened is rejected. -/
theorem Chunked.goes_back [Compression] {format : Format} {c : Codec Compression.Memory}
    (hformat : format.codec? = some c) (hc : c.Lossless) (ho : o.validate = .ok ())
    {d : Disk} {path : String} (hpath : d.Creatable path) :
    let opened := (File.new (Chunked.new c Compression.fresh o)).open path .write d
    opened.result = .ok () ∧
    ∀ s, Relation.ReflTransGen (Marking.Step c path)
        ⟨opened.state, none, opened.disk, [], [], 0, 0, []⟩ s →
      ∀ F g, s.disk.contents? path = some F → F.size < 2 ^ 64 → s.reader = some g →
        s.unread.Continues s.position g ∧
        ∀ a k, (a, k) ∈ s.marks →
          (a.chunk.toNat ≤ s.length → k ≠ 0 ∨ s.flushed ≠ [] →
            (g.setCurrentOffset a s.disk).1 = .ok ()) ∧
          (∀ g', g.setCurrentOffset a s.disk = (.ok (), g') →
            g'.currentOffset.1 = a ∧ s.unread.Continues k g') ∧
          (s.length < a.chunk.toNat →
            (g.setCurrentOffset a s.disk).1 = .error (.invalidOffset a.chunk a.inChunk)) := by
  intro opened
  have hbounded : c.Bounded := Format.bounded_of_codec? hformat
  obtain ⟨f, d₀, d₁, id, F₀, hmade, hstored, hwrites⟩ := Following.exists_start (c := c) ho hpath
  replace hmade : opened = ⟨.ok (), f, d₁⟩ := hmade
  clear_value opened
  subst hmade
  refine ⟨rfl, fun s hreached => ?_⟩
  obtain ⟨chunks, F', h⟩ : ∃ chunks F, Marking.Stands c o path d₀ id chunks F s := by
    induction hreached with
    | refl => exact ⟨[], F₀, hstored, hwrites, fun _ => ⟨rfl, rfl⟩, fun _ g hg => by cases hg⟩
    | tail _ hstep ih =>
        obtain ⟨chunks, F, h⟩ := ih
        exact hstep.keeps (hc.encodes (format.roomy_of_codec? hformat) ho)
          (Following.exists_decoded ho hformat hc) hbounded h
  intro F g hF hsize hg
  have hF' : s.disk.contents? path = some F' := by
    have hdisk : s.disk = d₀.setNode id (.file F') := h.stored.disk_eq
    rw [hdisk]
    exact Disk.contents?_setNode h.stored.find_eq h.stored.id_lt
  obtain rfl := Option.some.inj (hF.symm.trans hF')
  have hreads := h.reads hsize g hg
  constructor
  · obtain ⟨r, b, rfl, hb, -, -, hplaced⟩ := hreads.reader
    exact h.continues hb hplaced
  · intro a k hmark
    obtain ⟨hrejected, haccepted, hgoes⟩ := hreads.goBack hbounded hsize hmark
    refine ⟨fun hle hfirst => haccepted hle (hfirst.imp_right h.exists_first), ?_, hrejected⟩
    intro g' hseek
    obtain ⟨htell, hreads'⟩ := hgoes g' hseek
    obtain ⟨r, b, rfl, hb, -, -, hplaced⟩ := hreads'.reader
    exact ⟨htell, h.continues hb hplaced⟩

/-- A reader takes a byte and tells where it stands, and more is written and flushed. -/
theorem Chunked.goes_back_snappy :
    let b := Chunked.new Snappy.codec () default
    let opened := (File.new b).open "t" .write .empty
    let wrote := opened.state.write ⟨#[7, 8]⟩ opened.disk
    let flushed := wrote.state.flush wrote.disk
    let reader := (File.new b).open "t" .read flushed.disk
    let read := reader.state.readSome 1 flushed.disk
    let a := read.2.currentOffset.1
    let more := flushed.state.write ⟨#[9]⟩ flushed.disk
    let all := more.state.flush more.disk
    read.1 = .ok ⟨#[7]⟩ ∧ ∃ g', read.2.setCurrentOffset a all.disk = (.ok (), g') ∧
      g'.currentOffset.1 = a ∧ ∃ piece g'', g'.readSome 9 all.disk = (.ok piece, g'') ∧
        0 < piece.size ∧ piece.data.toList <+: [8, 9] := by
  intro b opened wrote flushed reader read a more all
  have hwrote : opened.state.write ⟨#[7, 8]⟩ opened.disk = ⟨.ok (), wrote.state, wrote.disk⟩ :=
    Outcome.eq_of_result (by decide +kernel)
  have hflushed : wrote.state.flush wrote.disk = ⟨.ok (), flushed.state, flushed.disk⟩ :=
    Outcome.eq_of_result (by decide +kernel)
  have hcontents : flushed.disk.contents? "t" =
      some ⟨#[0x61, 0x74, 4, 0, 0, 0, 2, 4, 7, 8]⟩ := by decide +kernel
  have hreader :
      (File.new b).open "t" .read flushed.disk = ⟨.ok (), reader.state, flushed.disk⟩ := by
    obtain ⟨_, hopen⟩ :=
      open_of_magic (c := Snappy.codec) () default hcontents (List.prefix_append [0x61, 0x74] _)
    show reader = _
    rw [show reader = _ from hopen]
  have hread : read.1 = .ok ⟨#[7]⟩ := by decide +kernel
  have hmore : flushed.state.write ⟨#[9]⟩ flushed.disk = ⟨.ok (), more.state, more.disk⟩ :=
    Outcome.eq_of_result (by decide +kernel)
  have hall : more.state.flush more.disk = ⟨.ok (), all.state, all.disk⟩ :=
    Outcome.eq_of_result (by decide +kernel)
  have hcontents' : all.disk.contents? "t" =
      some ⟨#[0x61, 0x74, 4, 0, 0, 0, 2, 4, 7, 8, 3, 0, 0, 0, 1, 0, 9]⟩ := by decide +kernel
  have ha : a = ⟨2, 1⟩ := by decide +kernel
  have hloads : ¬ LoadFails flushed.disk reader.state (.readSome 1) := by
    have hcodec : (File.new b).backend.codec = Snappy.codec := rfl
    rw [loadFails_readSome_iff (.opened hcodec hreader)]
    rintro ⟨e, he⟩
    cases hread.symm.trans he
  have hpath : Disk.empty.Creatable "t" := ⟨2, _, rfl, rfl⟩
  obtain ⟨-, hgoes⟩ := @goes_back default Compression.stored .snappy Snappy.codec rfl
    Snappy.lossless rfl .empty "t" hpath
  have hcodec : (File.new b).backend.codec = Snappy.codec := rfl
  replace hgoes : ∀ s, Relation.ReflTransGen (Marking.Step Snappy.codec "t")
    ⟨opened.state, none, opened.disk, [], [], 0, 0, []⟩ s → _ := hgoes
  have hanswer : reader.state.ask flushed.disk (.readSome 1) = (.bytes (.ok ⟨#[7]⟩), read.2) := by
    have hpiece : reader.state.readSome 1 flushed.disk = (.ok ⟨#[7]⟩, read.2) := by rw [← hread]
    rw [File.ask, hpiece]
    rfl
  have htakes : (ReadRequest.readSome 1).Takes
      (reader.state.ask flushed.disk (.readSome 1)).1 1 := by
    rw [hanswer]
    exact .readSome
  have hmark : read.2.currentOffset.1 = a := rfl
  clear_value all more a read reader flushed wrote opened b
  have h₁ : Marking.Step Snappy.codec "t" ⟨opened.state, none, opened.disk, [], [], 0, 0, []⟩ _ :=
    .write hwrote
  have h₂ : Marking.Step Snappy.codec "t" ⟨wrote.state, none, wrote.disk, [7, 8], [], 0, 0, []⟩ _ :=
    .flush hflushed
  have h₃ : Marking.Step Snappy.codec "t"
      ⟨flushed.state, none, flushed.disk, [7, 8], [7, 8], 0, 0, []⟩ _ :=
    .openReader rfl hcodec hreader hcontents
  have h₄ : Marking.Step Snappy.codec "t"
      ⟨flushed.state, some reader.state, flushed.disk, [7, 8], [7, 8], 10, 0, []⟩ _ :=
    .ask rfl hloads htakes
  rw [hanswer] at h₄
  have h₅ : Marking.Step Snappy.codec "t"
      ⟨flushed.state, some read.2, flushed.disk, [7, 8], [7, 8], 10, 1, []⟩ _ := .mark rfl
  rw [hmark] at h₅
  have h₆ : Marking.Step Snappy.codec "t"
      ⟨flushed.state, some read.2, flushed.disk, [7, 8], [7, 8], 10, 1, [(a, 1)]⟩ _ :=
    .write hmore
  have h₇ : Marking.Step Snappy.codec "t"
      ⟨more.state, some read.2, more.disk, [7, 8, 9], [7, 8], 10, 1, [(a, 1)]⟩ _ := .flush hall
  have hreached := ((((((Relation.ReflTransGen.single h₁).tail h₂).tail h₃).tail h₄).tail h₅).tail
    h₆).tail h₇
  obtain ⟨-, hmarks⟩ := hgoes _ hreached _ _ hcontents' (by decide) rfl
  obtain ⟨haccepted, hleads, -⟩ := hmarks a 1 (by simp)
  have hle : a.chunk.toNat ≤ 10 := by
    rw [ha]
    decide
  have hseek := haccepted hle (.inl Nat.one_ne_zero)
  obtain ⟨htell, -, hcontinues⟩ := hleads _ (Prod.ext hseek rfl)
  refine ⟨hread, _, Prod.ext hseek rfl, htell, ?_⟩
  rcases hcontinues 9 (by decide) with hmore | hend
  · exact hmore
  · exact absurd hend (by decide : ¬3 ≤ 1)

/-- A reader that has come to the third of three chunks, two of which were appended after it was
opened, tells where it stands. The same position is accepted by another reader, but not by the one
that told it. -/
theorem Chunked.rejects_own_mark :
    let b := Chunked.new Snappy.codec () default
    let opened := (File.new b).open "t" .write .empty
    let wrote₁ := opened.state.write ⟨#[1]⟩ opened.disk
    let flushed₁ := wrote₁.state.flush wrote₁.disk
    let reader := (File.new b).open "t" .read flushed₁.disk
    let wrote₂ := flushed₁.state.write ⟨#[2]⟩ flushed₁.disk
    let flushed₂ := wrote₂.state.flush wrote₂.disk
    let wrote₃ := flushed₂.state.write ⟨#[3]⟩ flushed₂.disk
    let flushed₃ := wrote₃.state.flush wrote₃.disk
    let d := flushed₃.disk
    let read₁ := reader.state.readSome 4 d
    let read₂ := read₁.2.readSome 4 d
    let read₃ := read₂.2.readSome 4 d
    let a := read₃.2.currentOffset.1
    let other := (File.new b).open "t" .read d
    (∀ result ∈ [opened.result, wrote₁.result, flushed₁.result, reader.result, wrote₂.result,
      flushed₂.result, wrote₃.result, flushed₃.result, other.result], result = .ok ()) ∧
    (read₁.1 = .ok ⟨#[1]⟩ ∧ read₂.1 = .ok ⟨#[2]⟩ ∧ read₃.1 = .ok ⟨#[3]⟩) ∧ a = ⟨16, 1⟩ ∧
    (read₃.2.setCurrentOffset a d).1 = .error (.invalidOffset 16 1) ∧
    (other.state.setCurrentOffset a d).1 = .ok () := by
  decide +kernel

end TraceStore
