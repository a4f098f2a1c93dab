import TraceStore.Proofs.Chunk.Resume

/-!
# Going to positions

A reader accepts a position iff the file decodes there, and whatever it did before it then is the
same reader as any other one of that file: `OpenOn.seek_accepts_decodable`, `OpenOn.seek_forgets`.
A position that it rejects leaves it at the end of the stream, for good until it accepts one.
-/
namespace TraceStore

variable {σ : Type} {c : Codec σ} {d : Disk} {F : ByteArray}

/-! ### What lies at a position -/

/-- The place that a position leads to is in the file, and the file ends there, or a chunk starts
there that decodes to as many bytes as the position says, or more. -/
def Decodable (c : Codec σ) (F : ByteArray) (a : Offset) : Prop :=
  ChunkReader.target a ≤ F.size ∧
    (ChunkReader.target a = F.size ∧ a.inChunk = 0 ∨
      ∃ (chunk : Chunk c) (rest : List UInt8),
        F.data.toList.drop (ChunkReader.target a) = chunk.frame ++ rest ∧
          a.inChunk.toNat ≤ chunk.data.size)

/-- The stream that lies behind a position, and how reading it ends. -/
inductive Behind (c : Codec σ) (F : ByteArray) (a : Offset) :
    List UInt8 → Except Error Unit → Prop
  | fileEnd : ChunkReader.target a = F.size → a.inChunk = 0 → Behind c F a [] (.ok ())
  | inChunk {chunk : Chunk c} {chunks : List (Chunk c)} {tail : List UInt8}
      {ending : Except Error Unit} :
      F.data.toList.drop (ChunkReader.target a) = chunk.frame ++ (Chunk.frames chunks ++ tail) →
      a.inChunk.toNat ≤ chunk.data.size → Ends c tail ending →
      Behind c F a (chunk.data.data.toList.drop a.inChunk.toNat ++ Chunk.decoded chunks) ending

theorem Decodable.exists_behind {a : Offset} (h : Decodable c F a) :
    ∃ s ending, Behind c F a s ending := by
  obtain ⟨-, ⟨hend, hzero⟩ | ⟨chunk, rest, hchunk, hle⟩⟩ := h
  · exact ⟨_, _, .fileEnd hend hzero⟩
  · obtain ⟨chunks, tail, ending, rfl, hends⟩ := exists_chunks c rest
    exact ⟨_, _, .inChunk hchunk hle hends⟩

namespace ChunkReader

variable {r r' : ChunkReader} {a : Offset}

/-! ### Positions that are accepted -/

/-- A position is accepted if a stream lies behind it, and the reader has that to deliver. -/
theorem setCurrentOffset_behind (h : r.OnFile d F) {s : List UInt8} {ending : Except Error Unit}
    (hbehind : Behind c F a s ending) :
    ∃ r', r.setCurrentOffset c a d = (.ok (), r') ∧ r'.Streams c d s ending := by
  cases hbehind with
  | fileEnd hend hzero =>
      obtain ⟨source, hseek, hahead, -⟩ := setCurrentOffset_end (c := c) h hend hzero
      exact ⟨_, hseek, rfl, [], [], hahead, .clean, rfl⟩
  | inChunk hchunk hle hends =>
      obtain ⟨source, hseek, hahead, -⟩ := setCurrentOffset_chunk h _ hchunk hle
      exact ⟨_, hseek, rfl, _, _, hahead, hends, rfl⟩

/-- A position is accepted, or the reader is parked. -/
theorem setCurrentOffset_cases (c : Codec σ) (d : Disk) (r : ChunkReader) (a : Offset) :
    (∃ r', r.setCurrentOffset c a d = (.ok (), r')) ∨ ∃ r' : ChunkReader,
      r.setCurrentOffset c a d = (.error (.invalidOffset a.chunk a.inChunk), r'.park) := by
  rw [setCurrentOffset_eq]
  split
  · exact .inr ⟨r, rfl⟩
  · split
    · split
      · exact .inl ⟨_, rfl⟩
      · exact .inr ⟨_, rfl⟩
    · split
      · exact .inl ⟨_, rfl⟩
      · exact .inr ⟨_, rfl⟩
    · exact .inr ⟨_, rfl⟩

/-- Where a position is accepted, the file decodes. -/
theorem decodable_of_accepted (h : r.OnFile d F)
    (haccepted : r.setCurrentOffset c a d = (.ok (), r')) : Decodable c F a := by
  rw [setCurrentOffset_eq, h.fileSize_eq] at haccepted
  split at haccepted
  · cases haccepted
  case isFalse hle =>
  have hle := Nat.not_lt.1 hle
  have hahead := ahead_aimed h a
  have hparked : (r.aimed a).parked = false := rfl
  -- What is loaded tells what starts at the place that the position leads to.
  rcases ends_or_chunk c (F.data.toList.drop (target a)) with
    ⟨ending, hends⟩ | ⟨chunk, rest, hchunk⟩
  · cases ending with
    | ok =>
        have hnil := hends.eq_nil
        rw [hnil] at hahead
        obtain ⟨source, hload, -⟩ := loadNext_nil (c := c) hparked hahead
        rw [hload] at haccepted
        have hend : target a = F.size := by
          rw [List.drop_eq_nil_iff, length_toList] at hnil
          omega
        by_cases hzero : a.inChunk = 0
        · exact ⟨hle, .inl ⟨hend, hzero⟩⟩
        · simp [hzero] at haccepted
    | error e =>
        obtain ⟨source, _, hload, -⟩ := loadNext_error hparked hends hahead
        rw [hload] at haccepted
        cases haccepted
  · rw [hchunk] at hahead
    obtain ⟨source, hload, -⟩ := loadNext_chunk hparked chunk hahead
    rw [hload] at haccepted
    by_cases hsize : a.inChunk.toNat ≤ chunk.data.size
    · exact ⟨hle, .inr ⟨chunk, rest, hchunk, hsize⟩⟩
    · simp [hsize] at haccepted

theorem accepts_iff_decodable (h : r.OnFile d F) :
    (r.setCurrentOffset c a d).1 = .ok () ↔ Decodable c F a := by
  constructor
  · intro haccepted
    exact decodable_of_accepted h (Prod.ext haccepted rfl)
  · intro hdecodable
    obtain ⟨_, _, hbehind⟩ := hdecodable.exists_behind
    obtain ⟨_, hseek, -⟩ := setCurrentOffset_behind h hbehind
    rw [hseek]

/-! ### Parked readers -/

/-- A reader that rejected a position, and has nothing to deliver. -/
structure Parked (r : ChunkReader) : Prop where
  parked_eq : r.parked = true
  size_le : r.cache.size ≤ r.pos

theorem parked_park (r : ChunkReader) : r.park.Parked := ⟨rfl, Nat.le_refl 0⟩

namespace Parked

variable (h : r.Parked)

include h

theorem fill (c : Codec σ) (d : Disk) : r.fill c d = (.ok false, r) := by
  rw [ChunkReader.fill, fillWithin, if_neg (Nat.not_lt.2 h.size_le), loadNext, if_pos h.parked_eq]

theorem read (c : Codec σ) (d : Disk) {count : Nat} (hcount : 0 < count) :
    r.read c count d = (.error .unexpectedEof, r) := by
  obtain ⟨count, rfl⟩ : ∃ k, count = k + 1 := ⟨count - 1, by omega⟩
  rw [ChunkReader.read, readWithin, if_neg (by omega), h.fill]

theorem readSome (c : Codec σ) (d : Disk) (count : Nat) :
    r.readSome c count d = (.ok .empty, r) := by
  rw [ChunkReader.readSome, h.fill]
  split <;> rfl

theorem getc (c : Codec σ) (d : Disk) : r.getc c d = (none, r) := by
  rw [ChunkReader.getc, h.fill]

theorem skip (c : Codec σ) (d : Disk) {count : Nat} (hcount : 0 < count) :
    r.skip c count d = (.error .unexpectedEof, r) := by
  obtain ⟨count, rfl⟩ : ∃ k, count = k + 1 := ⟨count - 1, by omega⟩
  rw [ChunkReader.skip, skipWithin, if_neg (by omega), h.fill]

/-- A parked reader stays parked, unless it accepts a position. -/
theorem run (c : Codec σ) (d : Disk) {op : Operation}
    (hop : ∀ a, op = .ask (.seek a) → (r.setCurrentOffset c a d).1 ≠ .ok ()) :
    (r.run c d op).2.Parked := by
  cases op with
  | ask request =>
      cases request with
      | read count =>
          cases count with
          | zero => exact h
          | succ count => simpa [ChunkReader.run, ask, h.read] using h
      | readSome count => simpa [ChunkReader.run, ask, h.readSome] using h
      | getc => simpa [ChunkReader.run, ask, h.getc] using h
      | skip count =>
          cases count with
          | zero => exact h
          | succ count => simpa [ChunkReader.run, ask, h.skip] using h
      | seek a =>
          rcases setCurrentOffset_cases c d r a with ⟨r', hseek⟩ | ⟨r', hseek⟩
          · exact absurd (by rw [hseek]) (hop a rfl)
          · simpa [ChunkReader.run, ask, hseek] using parked_park r'
  | _ => exact h

end Parked

/-! ### Positions make readers the same -/

/-- Two readers of one file give the same answer to a position, and are the same reader if they
accept it. -/
theorem setCurrentOffset_congr (h : SameFile r r') :
    (r.setCurrentOffset c a d).1 = (r'.setCurrentOffset c a d).1 ∧
      ((r.setCurrentOffset c a d).1 = .ok () →
        r.setCurrentOffset c a d = r'.setCurrentOffset c a d) := by
  have haimed : r'.aimed a = r.aimed a := by
    simp [aimed, FileReader.seek, h.node_eq, h.blockSize_eq, h.fileSize_eq]
  simp only [setCurrentOffset_eq, h.fileSize_eq, haimed]
  split
  · simp
  · simp

end ChunkReader

/-! ### Handles -/

/-- A handle that has come to the end of its stream. -/
structure File.Exhausted {β : Type} [Backend β] (d : Disk) (f : File β) : Prop where
  read : ∀ {count}, 0 < count → (f.read count d).1 = .error .unexpectedEof
  readSome : ∀ count, (f.readSome count d).1 = .ok .empty
  getc : (f.getc d).1 = none
  skip : ∀ {count}, 0 < count → (f.skip count d).1 = .error .unexpectedEof

/-- What comes of a handle and a disk by operations that open no path and bring the handle to no
position that it accepts. -/
inductive Unsought {β : Type} [Backend β] (f : File β) (d : Disk) : File β → Disk → Prop
  | refl : Unsought f d f d
  | step {g : File β} {d' : Disk} (op : Operation) : Unsought f d g d' → ¬ op.Opens →
      (∀ a, op = .ask (.seek a) → (g.setCurrentOffset a d').1 ≠ .ok ()) →
      Unsought f d (op.run g d').2.1 (op.run g d').2.2

variable {path path' : String} {f g : File (Chunked σ)}

/-- There is a handle on every file that starts with the magic. -/
theorem exists_openOn (c : Codec σ) (memory : σ) (hF : d.contents? path = some F)
    (hmagic : c.magicBytes.data.toList <+: F.data.toList) : ∃ f, OpenOn c path d f := by
  obtain ⟨_, hopen⟩ := Chunked.open_of_magic memory default hF hmagic
  exact ⟨_, .opened rfl hopen⟩

theorem ChunkReader.Parked.exhausted {r : ChunkReader} (h : r.Parked) (path : String)
    (b : Chunked σ) (d : Disk) : (r.handle path b).Exhausted d where
  read hcount := by rw [read_handle, h.read b.codec d hcount]; rfl
  readSome count := by rw [readSome_handle, h.readSome]; rfl
  getc := by rw [getc_handle, h.getc]; rfl
  skip hcount := by rw [skip_handle, h.skip b.codec d hcount]; rfl

/-- A handle with a parked reader is closed, or goes on with a parked reader. -/
private theorem Unsought.closed_or_parked {r : ChunkReader} {b : Chunked σ} {d' : Disk}
    (hr : r.Parked) (h : Unsought (r.handle path b) d g d') :
    d' = d ∧ (g.opened = false ∨ ∃ r' : ChunkReader, g = r'.handle path b ∧ r'.Parked) := by
  induction h with
  | refl => exact ⟨rfl, .inr ⟨r, rfl, hr⟩⟩
  | step op _ hopens hseek ih =>
      obtain ⟨rfl, hclosed | ⟨r', rfl, hr'⟩⟩ := ih
      · rw [Operation.run_of_closed hclosed _ hopens]
        exact ⟨rfl, .inl hclosed⟩
      · by_cases hclose : op = .close
        · subst hclose
          rw [Operation.run, ChunkReader.close_handle]
          exact ⟨rfl, .inl rfl⟩
        · rw [ChunkReader.run_handle path b r' _ hopens hclose]
          exact ⟨rfl, .inr ⟨_, rfl, hr'.run b.codec _ hseek⟩⟩

/-- A handle accepts a position iff the file decodes there, whatever it did before. It then delivers
what lies behind that position. It rejects every other position with one error, and is left at the
end of the stream, until it accepts a position or is opened again. -/
theorem OpenOn.seek_accepts_iff_decodable (h : OpenOn c path d f) (hF : d.contents? path = some F)
    (a : Offset) :
    let sought := f.setCurrentOffset a d
    (sought.1 = .ok () ↔ Decodable c F a) ∧
    (sought.1 = .ok () → ∃ s ending, Behind c F a s ending ∧ (sought.2.getc d).1 = s.head? ∧
      ∀ count, 0 < count →
        ∃ g, Drains (fun f => f.readSome count d) sought.2 s ending g) ∧
    (sought.1 ≠ .ok () → sought.1 = .error (.invalidOffset a.chunk a.inChunk) ∧
      ∀ g d', Unsought sought.2 d g d' → d' = d ∧ (g.opened = true → g.Exhausted d)) := by
  intro sought
  obtain ⟨r, b, rfl, rfl, hr⟩ := h.exists_reader hF
  have hsought : sought = (r.setCurrentOffset b.codec a d).map id (·.handle path b) :=
    ChunkReader.setCurrentOffset_handle path b r d a
  have haccepts : sought.1 = .ok () ↔ Decodable b.codec F a := ChunkReader.accepts_iff_decodable hr
  refine ⟨haccepts, fun haccepted => ?_, fun hrejected => ?_⟩
  · obtain ⟨s, ending, hbehind⟩ := (haccepts.1 haccepted).exists_behind
    obtain ⟨r', hseek, hstreams⟩ := ChunkReader.setCurrentOffset_behind hr hbehind
    obtain ⟨_, hgetc, -⟩ := hstreams.getc
    rw [hsought, hseek]
    refine ⟨s, ending, hbehind, ?_, fun count hcount => hstreams.drains_handle hcount⟩
    show (r'.getc b.codec d).1 = s.head?
    rw [hgetc]
  · rcases ChunkReader.setCurrentOffset_cases b.codec d r a with ⟨r', hseek⟩ | ⟨r', hseek⟩
    · exact absurd (by rw [hsought, hseek]; rfl) hrejected
    rw [hsought, hseek]
    refine ⟨rfl, fun g d' hg => ?_⟩
    obtain ⟨rfl, hclosed | ⟨r'', rfl, hparked⟩⟩ :=
      Unsought.closed_or_parked (ChunkReader.parked_park r') hg
    · exact ⟨rfl, fun hopened => absurd (hclosed.symm.trans hopened) (by simp)⟩
    · exact ⟨rfl, fun _ => hparked.exhausted path b _⟩

private theorem exists_chunk_plain :
    ∃ chunk : Chunk Codec.plain, chunk.frame = [1, 0, 0, 0, 7] ∧ chunk.data.size = 1 :=
  ⟨⟨⟨#[7]⟩, ⟨#[7]⟩, by decide, by decide, rfl⟩, rfl, rfl⟩

theorem OpenOn.seek_accepts_end_of_chunk :
    let d : Disk := ⟨[("t", 0)], #[.file ⟨#[0x70, 0x6c, 1, 0, 0, 0, 7]⟩]⟩
    ∃ f, OpenOn Codec.plain "t" d f ∧ (f.setCurrentOffset ⟨2, 1⟩ d).1 = .ok () := by
  intro d
  have hF : d.contents? "t" = some ⟨#[0x70, 0x6c, 1, 0, 0, 0, 7]⟩ := rfl
  obtain ⟨f, hf⟩ := exists_openOn Codec.plain () hF ⟨[1, 0, 0, 0, 7], rfl⟩
  obtain ⟨chunk, hchunk, hsize⟩ := exists_chunk_plain
  obtain ⟨haccepts, -⟩ := hf.seek_accepts_iff_decodable hF ⟨2, 1⟩
  refine ⟨f, hf, haccepts.2 ⟨by decide, .inr ⟨chunk, [], ?_, ?_⟩⟩⟩
  · rw [hchunk]
    rfl
  · rw [hsize]
    decide

/-- Two handles that have the same reader open, or are closed both. -/
def Alike (c : Codec σ) (f g : File (Chunked σ)) : Prop :=
  (∃ (r : ChunkReader) (path path' : String) (b b' : Chunked σ),
      f = r.handle path b ∧ g = r.handle path' b' ∧ b.codec = c ∧ b'.codec = c) ∨
    f.opened = false ∧ g.opened = false

/-- Handles that are alike give the same reply to an operation, and stay alike. -/
private theorem Alike.run (h : Alike c f g) {op : Operation} (hop : ¬ op.Opens) (d : Disk) :
    ∃ reply f' g', op.run f d = (reply, f', d) ∧ op.run g d = (reply, g', d) ∧ Alike c f' g' := by
  rcases h with ⟨r, path, path', b, b', rfl, rfl, rfl, hcodec⟩ | ⟨hf, hg⟩
  · by_cases hclose : op = .close
    · subst hclose
      exact ⟨.closed, _, _, rfl, rfl, .inr ⟨rfl, rfl⟩⟩
    · have hg := ChunkReader.run_handle path' b' r d hop hclose
      rw [hcodec] at hg
      exact ⟨_, _, _, ChunkReader.run_handle path b r d hop hclose, hg,
        .inl ⟨_, path, path', b, b', rfl, rfl, rfl, hcodec⟩⟩
  · exact ⟨_, f, g, Operation.run_of_closed hf d hop, Operation.run_of_closed hg d hop,
      .inr ⟨hf, hg⟩⟩

private theorem Alike.runAll (h : Alike c f g) (ops : List Operation)
    (hops : ∀ op ∈ ops, ¬ op.Opens) (d : Disk) :
    (Operation.runAll ops f d).1 = (Operation.runAll ops g d).1 := by
  induction ops generalizing f g with
  | nil => rfl
  | cons op ops ih =>
      obtain ⟨reply, f', g', hf, hg, halike⟩ := h.run (hops op (by simp)) d
      have hrest := ih halike fun op hop => hops op (by simp [hop])
      simp only [Operation.runAll, hf, hg, hrest]

/-- Two handles on one file answer alike whether they go to a position, whatever was done with them
before. If they go there, they give the same replies to everything that is done with them from then
on, unless they are opened again. -/
theorem OpenOn.seek_forgets (hf : OpenOn c path d f) (hg : OpenOn c path' d g)
    (hpath : d.lookup path' = d.lookup path) (a : Offset) :
    (f.setCurrentOffset a d).1 = (g.setCurrentOffset a d).1 ∧
      ((f.setCurrentOffset a d).1 = .ok () → ∀ ops : List Operation, (∀ op ∈ ops, ¬ op.Opens) →
        (Operation.runAll ops (f.setCurrentOffset a d).2 d).1 =
          (Operation.runAll ops (g.setCurrentOffset a d).2 d).1) := by
  obtain ⟨r₀, r, b, hr₀, rfl, rfl, hr⟩ := hf.exists_sameFile
  obtain ⟨r₀', r', b', hr₀', rfl, hcodec, hr'⟩ := hg.exists_sameFile
  obtain rfl : r₀ = r₀' := by
    rw [ChunkReader.open, hpath] at hr₀'
    exact Except.ok.inj (hr₀.symm.trans hr₀')
  obtain ⟨hresult, haccepted⟩ :=
    ChunkReader.setCurrentOffset_congr (c := b.codec) (d := d) (a := a) (hr.symm.trans hr')
  rw [ChunkReader.setCurrentOffset_handle, ChunkReader.setCurrentOffset_handle, hcodec]
  refine ⟨hresult, fun hok ops hops => ?_⟩
  rw [haccepted hok]
  exact Alike.runAll (c := b.codec) (.inl ⟨_, path, path', b, b', rfl, rfl, rfl, hcodec⟩) ops hops d

/-- A handle that rejected a position is as good as a new one after it accepted another. -/
theorem OpenOn.seek_revives :
    let d : Disk := ⟨[("t", 0)], #[.file ⟨#[0x70, 0x6c, 1, 0, 0, 0, 7]⟩]⟩
    ∃ f, OpenOn Codec.plain "t" d f ∧
      let parked := (f.setCurrentOffset ⟨9, 0⟩ d).2
      (parked.setCurrentOffset ⟨2, 0⟩ d).1 = .ok () ∧
      (Operation.runAll [.ask (.read 1)] (parked.setCurrentOffset ⟨2, 0⟩ d).2 d).1 =
        (Operation.runAll [.ask (.read 1)] (f.setCurrentOffset ⟨2, 0⟩ d).2 d).1 := by
  intro d
  have hF : d.contents? "t" = some ⟨#[0x70, 0x6c, 1, 0, 0, 0, 7]⟩ := rfl
  obtain ⟨f, hf⟩ := exists_openOn Codec.plain () hF ⟨[1, 0, 0, 0, 7], rfl⟩
  have hparked : OpenOn Codec.plain "t" d (f.setCurrentOffset ⟨9, 0⟩ d).2 := hf.asked (.seek ⟨9, 0⟩)
  obtain ⟨hresult, hreplies⟩ := hparked.seek_forgets hf rfl ⟨2, 0⟩
  obtain ⟨chunk, hchunk, -⟩ := exists_chunk_plain
  have haccepted : ((f.setCurrentOffset ⟨9, 0⟩ d).2.setCurrentOffset ⟨2, 0⟩ d).1 = .ok () := by
    obtain ⟨r, b, hr, hcodec, hfile⟩ := hparked.exists_reader hF
    have hstart : [1, 0, 0, 0, 7] = chunk.frame ++ [] := by rw [hchunk]; rfl
    obtain ⟨_, hseek, -⟩ :=
      ChunkReader.setCurrentOffset_chunk (a := ⟨2, 0⟩) hfile chunk hstart (Nat.zero_le _)
    rw [hr, ChunkReader.setCurrentOffset_handle, hcodec, hseek]
    rfl
  exact ⟨f, hf, haccepted, hreplies haccepted _ (by simp [Operation.Opens])⟩

end TraceStore
