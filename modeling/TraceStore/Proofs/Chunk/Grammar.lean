import TraceStore.Proofs.Chunk.Reader

/-!
# The files that a reader accepts

A chunked file opens if it starts with the magic, and reading it to its end delivers what its chunks
decode to, up to the first place where no chunk follows. That place decides how reading ends, and
the sizes of the requests have no part in it.
-/
namespace TraceStore

variable {σ : Type}

/-- A reader just opened has the chunks behind the magic to deliver. -/
theorem ChunkReader.streams_of_open {c : Codec σ} {d : Disk} {path : String} {F : ByteArray}
    (hF : d.contents? path = some F) (chunks : List (Chunk c)) {tail : List UInt8}
    {ending : Except Error Unit} (hend : Ends c tail ending)
    (hmagic : F.data.toList = c.magicBytes.data.toList ++ (Chunk.frames chunks ++ tail)) :
    ∃ r, ChunkReader.open c path d = .ok r ∧ r.Streams c d (Chunk.decoded chunks) ending := by
  obtain ⟨source, hopen, hahead, -⟩ := open_of_magic hF hmagic
  exact ⟨_, hopen, rfl, chunks, tail, hahead, hend, rfl⟩

/-- A file that starts with the magic opens. -/
theorem Chunked.open_of_magic {c : Codec σ} (memory : σ) (o : WriteOptions) {d : Disk}
    {path : String} {F : ByteArray} (hF : d.contents? path = some F)
    (hmagic : c.magicBytes.data.toList <+: F.data.toList) :
    ∃ r : ChunkReader, (File.new (Chunked.new c memory o)).open path .read d =
      ⟨.ok (), r.handle path (.new c memory o), d⟩ := by
  obtain ⟨body, hbody⟩ := hmagic
  obtain ⟨source, hr, -⟩ := ChunkReader.open_of_magic hF hbody.symm
  exact ⟨_, by rw [open_new_read, hr]⟩

/-- A file opens iff it starts with the magic. Behind it lie chunks and then a tail where no chunk
follows. Requests of any size deliver what the chunks decode to and then come to the ending that
the tail tells, which is a clean one iff all of the file is chunks. -/
theorem Chunked.accepts_grammar (c : Codec σ) (memory : σ) (o : WriteOptions) {d : Disk}
    {path : String} {F : ByteArray} (hF : d.contents? path = some F) :
    let opened := (File.new (Chunked.new c memory o)).open path .read d
    (opened.result = .ok () ↔ c.magicBytes.data.toList <+: F.data.toList) ∧
    (opened.result ≠ .ok () → opened.result = .error (.corrupt .magicMismatch)) ∧
    ∀ body, F.data.toList = c.magicBytes.data.toList ++ body →
      ∃ (chunks : List (Chunk c)) (tail : List UInt8) (ending : Except Error Unit),
        body = Chunk.frames chunks ++ tail ∧ Ends c tail ending ∧
        (ending = .ok () ↔ ∃ all : List (Chunk c), body = Chunk.frames all) ∧
        ∀ count, 0 < count → ∀ bytes ending',
          (∃ f, Drains (fun f => f.readSome count opened.disk) opened.state bytes ending' f) ↔
            bytes = Chunk.decoded chunks ∧ ending' = ending := by
  intro opened
  by_cases hmagic : c.magicBytes.data.toList <+: F.data.toList
  case neg =>
    have hopened : opened.result = .error (.corrupt .magicMismatch) := by
      simp only [opened, open_new_read, ChunkReader.open_of_not_magic hF hmagic]
    refine ⟨by simp [hopened, hmagic], fun _ => hopened, fun body hbody => ?_⟩
    exact absurd ⟨body, hbody.symm⟩ hmagic
  case pos =>
    obtain ⟨rest, hrest⟩ := hmagic
    obtain ⟨chunks, tail, ending, rfl, hend⟩ := exists_chunks c rest
    obtain ⟨r, hopen, hstreams⟩ := ChunkReader.streams_of_open hF chunks hend hrest.symm
    have hopened : opened = ⟨.ok (), r.handle path (.new c memory o), d⟩ := by
      simp only [opened, open_new_read, hopen]
    rw [hopened]
    refine ⟨by simpa using ⟨_, hrest⟩, by simp, fun body hbody => ?_⟩
    obtain rfl := List.append_cancel_left (hrest.trans hbody)
    refine ⟨chunks, tail, ending, rfl, hend, ?_, ?_⟩
    · constructor
      · rintro rfl
        cases hend
        exact ⟨chunks, by simp⟩
      · rintro ⟨all, hall⟩
        rw [← List.append_nil (Chunk.frames all)] at hall
        obtain ⟨r', hopen', hstreams'⟩ :=
          ChunkReader.streams_of_open hF all .clean (by rw [← hall]; exact hrest.symm)
        obtain rfl := Except.ok.inj (hopen.symm.trans hopen')
        exact (hstreams.unique hstreams').2
    · intro count hcount bytes ending'
      obtain ⟨f, hdrains⟩ := hstreams.drains_handle (b := .new c memory o) hcount
      constructor
      · rintro ⟨_, hother⟩
        obtain ⟨hbytes, hending, -⟩ := hother.unique hdrains
        exact ⟨hbytes, hending⟩
      · rintro ⟨rfl, rfl⟩
        exact ⟨f, hdrains⟩

theorem Chunked.accepts_one_chunk :
    let d : Disk := ⟨[("t", 0)], #[.file ⟨#[0x70, 0x6c, 1, 0, 0, 0, 7]⟩]⟩
    ((File.new (Chunked.new Codec.plain () default)).open "t" .read d).result = .ok () := by
  intro d
  have hF : d.contents? "t" = some ⟨#[0x70, 0x6c, 1, 0, 0, 0, 7]⟩ := rfl
  obtain ⟨hopens, -⟩ := accepts_grammar Codec.plain () default hF
  exact hopens.2 ⟨[1, 0, 0, 0, 7], rfl⟩

end TraceStore
