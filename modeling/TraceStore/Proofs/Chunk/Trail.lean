import TraceStore.Proofs.Chunk.Reader

/-!
# Reading a chunked file that grows

A file that is still being written holds some bytes of the chunks emitted so far, and may end
within one of them. A reader of it delivers what the chunks hold from the first one on, whatever it
has fetched when: `ChunkReader.Trails`. Where it stops, it has delivered every chunk that the file
holds in full: `ChunkReader.Trails.readSome`.
-/
namespace TraceStore

variable {σ : Type} {c : Codec σ}

/-- The first of some chunks is determined by the bytes of the file. -/
theorem Chunk.append_inj {chunk chunk' : Chunk c} {s s' : List UInt8}
    (h : chunk.frame ++ s = chunk'.frame ++ s') : chunk = chunk' ∧ s = s' := by
  obtain ⟨block, data, hlt, hle, hdata⟩ := chunk
  obtain ⟨block', data', hlt', hle', hdata'⟩ := chunk'
  simp only [Chunk.frame, frameOf, List.append_assoc] at h
  obtain ⟨hheader, hrest⟩ := List.append_inj h (by simp)
  have hsize := congrArg LittleEndian.decode hheader
  rw [LittleEndian.decode_encode_of_lt hlt, LittleEndian.decode_encode_of_lt hlt'] at hsize
  obtain ⟨hblock, rfl⟩ := List.append_inj hrest hsize
  obtain rfl := eq_of_toList_eq hblock
  obtain rfl := Except.ok.inj (hdata.symm.trans hdata')
  exact ⟨rfl, rfl⟩

/-- So are those that lie in the file one after the other. -/
theorem Chunk.prefix_of_frames {chunks chunks' : List (Chunk c)}
    (h : Chunk.frames chunks <+: Chunk.frames chunks') : chunks <+: chunks' := by
  induction chunks generalizing chunks' with
  | nil => exact List.nil_prefix
  | cons chunk chunks ih =>
      obtain ⟨s, hs⟩ := h
      rw [Chunk.frames_cons, List.append_assoc] at hs
      cases chunks' with
      | nil =>
          have hlen := congrArg List.length hs
          rw [Chunk.frames_nil, List.length_append, Chunk.length_frame, chunkHeaderSize,
            List.length_nil] at hlen
          omega
      | cons chunk' chunks' =>
          obtain ⟨rfl, hrest⟩ := Chunk.append_inj hs
          exact List.cons_prefix_cons.2 ⟨rfl, ih ⟨s, hrest⟩⟩

namespace ChunkReader

variable {d d' : Disk} {F F' : ByteArray} {chunks : List (Chunk c)} {delivered : List UInt8}
  {r : ChunkReader}

/-- A reader of the file `F`, which holds some bytes of the chunks emitted, that has loaded the first
of them and has delivered some bytes of those, in order. -/
structure Trails (c : Codec σ) (d : Disk) (F : ByteArray) (chunks : List (Chunk c))
    (delivered : List UInt8) (r : ChunkReader) : Prop where
  parked_eq : r.parked = false
  within : r.source.Within d F
  loaded : ∃ (loaded behind : List (Chunk c)) (rest : List UInt8), chunks = loaded ++ behind ∧
    F.data.toList = c.magicBytes.data.toList ++ (Chunk.frames loaded ++ rest) ∧
    r.source.Ahead d rest ∧
    delivered ++ r.cache.data.toList.drop r.pos = Chunk.decoded loaded

/-- Whether every chunk that the file `F` holds in full has been delivered. -/
def CaughtUp (F : ByteArray) (chunks : List (Chunk c)) (delivered : List UInt8) : Prop :=
  ∀ full, full <+: chunks → Chunk.frames full <+: F.data.toList.drop 2 →
    Chunk.decoded full <+: delivered

/-- A reader just opened is on the file that its path leads to, and has fetched nothing from behind
the end. -/
theorem source_of_open {path : String} (hF : d.contents? path = some F)
    (hopen : ChunkReader.open c path d = .ok r) :
    d.lookup path = .ok r.source.node ∧ r.source.Within d F := by
  obtain ⟨id, hlookup, hnode⟩ := Disk.lookup_of_contents hF
  have hread := (FileReader.within_start hnode blockSize).read 2
  have hkeeps := (FileReader.read_keeps (.start id blockSize) 2 d).1
  rw [ChunkReader.open, hlookup] at hopen
  dsimp only at hopen
  split at hopen
  case h_1 => cases hopen
  case h_2 hnext =>
    rw [hnext] at hread hkeeps
    split at hopen
    · obtain rfl := Except.ok.inj hopen
      exact ⟨hlookup.trans (congrArg _ hkeeps.symm), hread⟩
    · cases hopen

/-- A reader just opened has delivered nothing. -/
theorem trails_of_open {path : String} (hF : d.contents? path = some F)
    (hopen : ChunkReader.open c path d = .ok r) :
    d.lookup path = .ok r.source.node ∧ r.Trails c d F chunks [] := by
  have hmagic : c.magicBytes.data.toList <+: F.data.toList := Classical.byContradiction fun hnot => by
    rw [open_of_not_magic hF hnot] at hopen
    cases hopen
  obtain ⟨body, hbody⟩ := hmagic
  obtain ⟨source, hopen', hahead, hnode⟩ := open_of_magic hF hbody.symm
  obtain rfl := Except.ok.inj (hopen.symm.trans hopen')
  obtain ⟨hlookup, hwithin⟩ := source_of_open hF hopen
  exact ⟨hlookup, rfl, hwithin, [], chunks, body, rfl, hbody.symm, hahead, rfl⟩

namespace Trails

/-- When the file grows and more chunks are emitted, a reader goes on from where it stands. -/
theorem grow (h : r.Trails c d F chunks delivered)
    (hsource : d'.node? r.source.node = some (.file F'))
    (hgrown : F.data.toList <+: F'.data.toList) (more : List (Chunk c)) :
    r.Trails c d' F' (chunks ++ more) delivered := by
  obtain ⟨added, hadded⟩ := hgrown
  obtain ⟨loaded, behind, rest, hchunks, hfile, hahead, hdelivered⟩ := h.loaded
  refine ⟨h.parked_eq, ⟨hsource, ?_⟩, loaded, behind ++ more, rest ++ added, ?_, ?_,
    hahead.grow h.within hsource hadded.symm, hdelivered⟩
  · have hlen := congrArg List.length hadded
    rw [List.length_append, length_toList, length_toList] at hlen
    have := h.within.position_le
    omega
  · rw [hchunks, List.append_assoc]
  · rw [← hadded, hfile]
    simp

/-- Where no chunk is loaded, the reader has delivered all that the file holds. -/
private theorem caughtUp (h : r.Trails c d F chunks delivered) (hpos : r.cache.size ≤ r.pos)
    (hload : (r.loadNext c d).1 ≠ .ok true) : CaughtUp F chunks delivered := by
  obtain ⟨loaded, behind, rest, hchunks, hfile, hahead, hdelivered⟩ := h.loaded
  rw [List.drop_of_length_le hpos, List.append_nil] at hdelivered
  intro full hfull hheld
  rw [hfile, List.drop_left' (by rfl)] at hheld
  have hloaded : loaded <+: chunks := hchunks ▸ List.prefix_append ..
  rcases List.prefix_or_prefix_of_prefix hfull hloaded with hle | ⟨more, rfl⟩
  · obtain ⟨more, rfl⟩ := hle
    rw [hdelivered, Chunk.decoded_append]
    exact List.prefix_append ..
  · cases more with
    | nil =>
        exact ⟨[], by rw [List.append_nil, List.append_nil, hdelivered]⟩
    | cons chunk more =>
        -- A chunk that is there in full would have been loaded.
        rw [Chunk.frames_append, List.prefix_append_right_inj, Chunk.frames_cons] at hheld
        obtain ⟨tail, rfl⟩ := hheld
        rw [List.append_assoc] at hahead
        obtain ⟨source, hchunk, -⟩ := loadNext_chunk h.parked_eq chunk hahead
        rw [hchunk] at hload
        exact absurd rfl hload

/-- A reader that has delivered all of the chunks loaded loads the next one, unless the file does not
hold it in full. -/
private theorem loadNext (h : r.Trails c d F chunks delivered)
    (hbegins : F.data.toList <+: c.magicBytes.data.toList ++ Chunk.frames chunks)
    (hpos : r.cache.size ≤ r.pos) :
    (∃ r', r.loadNext c d = (.ok true, r') ∧ r'.Trails c d F chunks delivered ∧
      r'.source.unread d < r.source.unread d) ∨
    ∃ (result : Except Error Bool) (r' : ChunkReader), r.loadNext c d = (result, r') ∧
      (result = .ok false ∧ r'.Trails c d F chunks delivered ∨ ∃ e, result = .error e) ∧
      CaughtUp F chunks delivered := by
  obtain ⟨loaded, behind, rest, hchunks, hfile, hahead, hdelivered⟩ := h.loaded
  have hwithin := (loadNext_keeps (c := c) (P := (·.Within d F)) (fun _ count hr => hr.read count)
    h.within).1
  rcases ends_or_chunk c rest with ⟨ending, hend⟩ | ⟨chunk, rest, rfl⟩
  · right
    cases ending with
    | ok =>
        obtain rfl := hend.eq_nil
        obtain ⟨source, hload, hahead', -⟩ := loadNext_nil (c := c) h.parked_eq hahead
        rw [hload] at hwithin
        exact ⟨_, _, hload, .inl ⟨rfl, h.parked_eq, hwithin, loaded, behind, [], hchunks, hfile,
          hahead', hdelivered⟩, h.caughtUp hpos (by simp [hload])⟩
    | error e =>
        obtain ⟨source, _, hload, -⟩ := loadNext_error h.parked_eq hend hahead
        exact ⟨_, _, hload, .inr ⟨e, rfl⟩, h.caughtUp hpos (by simp [hload])⟩
  · left
    obtain ⟨source, hload, hahead', -⟩ := loadNext_chunk h.parked_eq chunk hahead
    rw [hload] at hwithin
    -- The chunk in the file is the next one that was emitted.
    obtain ⟨behind, rfl⟩ : ∃ more, behind = chunk :: more := by
      rw [hfile, hchunks, List.prefix_append_right_inj, Chunk.frames_append,
        List.prefix_append_right_inj] at hbegins
      have hnext : Chunk.frames [chunk] <+: Chunk.frames behind := by
        refine List.IsPrefix.trans ⟨rest, ?_⟩ hbegins
        rw [Chunk.frames_cons, Chunk.frames_nil, List.append_nil]
      obtain ⟨more, rfl⟩ := Chunk.prefix_of_frames hnext
      exact ⟨more, rfl⟩
    refine ⟨_, hload, ⟨h.parked_eq, hwithin, loaded ++ [chunk], behind, rest, ?_, ?_, hahead', ?_⟩, ?_⟩
    · rw [hchunks]
      simp
    · rw [hfile]
      simp
    · rw [List.drop_of_length_le hpos, List.append_nil] at hdelivered
      rw [hdelivered]
      simp
    · rw [hahead.unread_eq, FileReader.Ahead.unread_eq hahead', List.length_append,
        Chunk.length_frame, chunkHeaderSize]
      omega

/-- Filling makes a byte available, unless everything that the file holds in full was delivered. -/
private theorem fill (h : r.Trails c d F chunks delivered)
    (hbegins : F.data.toList <+: c.magicBytes.data.toList ++ Chunk.frames chunks) :
    (∃ r', r.fill c d = (.ok true, r') ∧ r'.Trails c d F chunks delivered) ∨
    ∃ (result : Except Error Bool) (r' : ChunkReader), r.fill c d = (result, r') ∧
      (result = .ok false ∧ r'.Trails c d F chunks delivered ∨ ∃ e, result = .error e) ∧
      CaughtUp F chunks delivered := by
  suffices ∀ fuel (r : ChunkReader), r.source.unread d < fuel → r.Trails c d F chunks delivered →
      (∃ r', fillWithin c d fuel r = (.ok true, r') ∧ r'.Trails c d F chunks delivered) ∨
      ∃ (result : Except Error Bool) (r' : ChunkReader), fillWithin c d fuel r = (result, r') ∧
        (result = .ok false ∧ r'.Trails c d F chunks delivered ∨ ∃ e, result = .error e) ∧
        CaughtUp F chunks delivered from this _ r (Nat.lt_succ_self _) h
  intro fuel
  induction fuel with
  | zero => intro r hfuel; omega
  | succ fuel ih =>
      intro r hfuel h
      rw [fillWithin]
      split
      case isTrue => exact .inl ⟨r, rfl, h⟩
      case isFalse hpos =>
        rcases h.loadNext hbegins (Nat.not_lt.1 hpos) with
          ⟨r', hload, h', hless⟩ | ⟨result, r', hload, hresult, hcaught⟩
        · rw [hload]
          exact ih r' (by omega) h'
        · refine .inr ⟨result, r', ?_, hresult, hcaught⟩
          rw [hload]
          rcases hresult with ⟨rfl, -⟩ | ⟨e, rfl⟩ <;> rfl

/-- A request for some bytes gets the next ones, unless everything that the file holds in full was
delivered. -/
theorem readSome (h : r.Trails c d F chunks delivered)
    (hbegins : F.data.toList <+: c.magicBytes.data.toList ++ Chunk.frames chunks) {count : Nat}
    (hcount : 0 < count) :
    (∃ piece r', r.readSome c count d = (.ok piece, r') ∧ 0 < piece.size ∧
      r'.Trails c d F chunks (delivered ++ piece.data.toList)) ∨
    ∃ (result : Except Error ByteArray) (r' : ChunkReader), r.readSome c count d = (result, r') ∧
      (result = .ok .empty ∧ r'.Trails c d F chunks delivered ∨ ∃ e, result = .error e) ∧
      CaughtUp F chunks delivered := by
  rw [ChunkReader.readSome, if_neg (by omega)]
  rcases h.fill hbegins with ⟨r₁, hfill, h₁⟩ | ⟨result, r₁, hfill, hresult, hcaught⟩
  · left
    have hpos := available_of_fill hfill
    have hsize := size_take (Nat.min_le_left r₁.available count)
    obtain ⟨loaded, behind, rest, hchunks, hfile, hahead, hdelivered⟩ := h₁.loaded
    refine ⟨(r₁.take (min r₁.available count)).1, (r₁.take (min r₁.available count)).2,
      by rw [hfill], by omega, h₁.parked_eq, h₁.within, loaded, behind, rest, hchunks, hfile,
      hahead, ?_⟩
    rw [← hdelivered, List.append_assoc, take, toList_extract, ← List.drop_drop,
      List.take_append_drop]
  · right
    rcases hresult with ⟨rfl, h₁⟩ | ⟨e, rfl⟩
    · exact ⟨.ok .empty, r₁, by rw [hfill], .inl ⟨rfl, h₁⟩, hcaught⟩
    · exact ⟨.error e, r₁, by rw [hfill], .inr ⟨e, rfl⟩, hcaught⟩

/-- What was delivered is the beginning of what the chunks hold. -/
theorem delivered_begins (h : r.Trails c d F chunks delivered) :
    delivered <+: Chunk.decoded chunks := by
  obtain ⟨loaded, behind, rest, rfl, -, -, hdelivered⟩ := h.loaded
  rw [Chunk.decoded_append]
  exact List.IsPrefix.trans ⟨_, hdelivered⟩ (List.prefix_append ..)

end Trails
end ChunkReader
end TraceStore
