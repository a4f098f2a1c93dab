import Mathlib.Data.List.Infix
import TraceStore.Proofs.Chunk.Failure
import TraceStore.Proofs.Chunk.Trail

/-!
# Positions in a file that grows

A reader that goes from chunk to chunk stands behind so many bytes of the stream, and the position
that it tells names them: `ChunkReader.Placed`. The file may grow meanwhile, but the length that the
reader checks positions against is the one that the file had when it was opened. A position that was
told before is accepted if it is not behind that: `ChunkReader.setCurrentOffset_of_names`.
-/
namespace TraceStore

/-- A request that reads on is answered without an error, and takes so many bytes of the stream. -/
inductive ReadRequest.Takes : ReadRequest → Answer → Nat → Prop
  | read {count : Nat} {bytes : ByteArray} : Takes (.read count) (.bytes (.ok bytes)) count
  | readSome {count : Nat} {piece : ByteArray} :
      Takes (.readSome count) (.bytes (.ok piece)) piece.size
  | getc {b : UInt8} : Takes .getc (.byte (some b)) 1
  | ended : Takes .getc (.byte none) 0
  | skip {count : Nat} : Takes (.skip count) (.done (.ok ())) count

namespace ChunkReader

variable {σ : Type} {c : Codec σ} {d d' : Disk} {F F' : ByteArray} {k : Nat} {r r' : ChunkReader}

/-! ### Counting what is taken -/

/-- A property of readers and numbers of bytes that loading keeps unless it fails, and that passing
over bytes of the chunk in the cache keeps with so many more. -/
structure Counted (c : Codec σ) (d : Disk) (P : Nat → ChunkReader → Prop) : Prop where
  load : ∀ {k r r' more}, P k r → r.cache.size ≤ r.pos → r.loadNext c d = (.ok more, r') → P k r'
  pass : ∀ {k r count}, P k r → count ≤ r.available → P (k + count) { r with pos := r.pos + count }

namespace Counted

variable {P : Nat → ChunkReader → Prop} (h : Counted c d P)

include h

theorem fill (hr : P k r) {more : Bool} (hfill : r.fill c d = (.ok more, r')) : P k r' := by
  suffices ∀ fuel r, P k r → fillWithin c d fuel r = (.ok more, r') → P k r' from this _ _ hr hfill
  intro fuel
  induction fuel with
  | zero =>
      intro r hr hfill
      cases hfill
      exact hr
  | succ fuel ih =>
      intro r hr hfill
      rw [fillWithin] at hfill
      split at hfill
      · cases hfill
        exact hr
      · have hpos : r.cache.size ≤ r.pos := by omega
        split at hfill <;> rename_i hload
        · exact ih _ (h.load hr hpos hload) hfill
        · cases hfill
          exact h.load hr hpos hload
        · cases hfill

theorem read (hr : P k r) {count : Nat} {bytes : ByteArray}
    (hread : r.read c count d = (.ok bytes, r')) : P (k + count) r' := by
  suffices ∀ fuel k count done r, count ≤ fuel → P k r →
      readWithin c d fuel count done r = (.ok bytes, r') → P (k + count) r' from
    this _ _ _ _ _ (Nat.le_refl count) hr hread
  intro fuel
  induction fuel with
  | zero =>
      intro k count done r hfuel hr hread
      obtain rfl : count = 0 := by omega
      cases hread
      exact hr
  | succ fuel ih =>
      intro k count done r hfuel hr hread
      rw [readWithin] at hread
      split at hread
      case isTrue hzero =>
        subst hzero
        cases hread
        exact hr
      case isFalse =>
        split at hread
        · cases hread
        · cases hread
        case h_3 r₁ hfill =>
          have hpos := available_of_fill hfill
          have hpassed := h.pass (h.fill hr hfill) (Nat.min_le_left r₁.available count)
          have hrest := ih _ _ _ _ (by omega) hpassed hread
          rwa [Nat.add_assoc, Nat.add_sub_cancel' (Nat.min_le_right ..)] at hrest

theorem readSome (hr : P k r) {count : Nat} {piece : ByteArray}
    (hread : r.readSome c count d = (.ok piece, r')) : P (k + piece.size) r' := by
  rw [ChunkReader.readSome] at hread
  split at hread
  · cases hread
    exact hr
  · split at hread
    · cases hread
    case h_2 hfill =>
      cases hread
      exact h.fill hr hfill
    case h_3 r₁ hfill =>
      have hle := Nat.min_le_left r₁.available count
      have hpassed := h.pass (h.fill hr hfill) hle
      obtain ⟨hpiece, rfl⟩ := Prod.mk.inj hread
      have hsize : piece.size = min r₁.available count := by
        rw [← Except.ok.inj hpiece]
        exact size_take hle
      rwa [hsize]

/-- A request during which no chunk fails to load takes what its answer says. -/
theorem ask (hr : P k r) {request : ReadRequest} {count : Nat}
    (hfails : ∀ e, ¬ r.Fails c d e request) (htakes : request.Takes (r.ask c d request).1 count) :
    P (k + count) (r.ask c d request).2 := by
  cases request with
  | read count' =>
      rw [ChunkReader.ask] at htakes ⊢
      generalize hread : r.read c count' d = answer at htakes ⊢
      obtain ⟨result, r'⟩ := answer
      cases htakes
      exact h.read hr hread
  | readSome count' =>
      rw [ChunkReader.ask] at htakes ⊢
      generalize hread : r.readSome c count' d = answer at htakes ⊢
      obtain ⟨result, r'⟩ := answer
      cases htakes
      exact h.readSome hr hread
  | skip count' =>
      rw [ChunkReader.ask, skip_eq_read] at htakes ⊢
      generalize hread : r.read c count' d = answer at htakes ⊢
      obtain ⟨_ | bytes, r'⟩ := answer
      · cases htakes
      · cases htakes
        exact h.read hr hread
  | getc =>
      simp only [Fails] at hfails
      rw [ChunkReader.ask, ChunkReader.getc] at htakes ⊢
      generalize hfill : r.fill c d = filled at htakes hfails ⊢
      obtain ⟨e | _ | _, r₁⟩ := filled
      · exact absurd rfl (hfails e)
      · cases htakes
        exact h.fill hr hfill
      · have hpos := available_of_fill hfill
        have hpassed := h.pass (h.fill hr hfill) hpos
        have hsize : 0 < (r₁.take 1).1.data.size :=
          Nat.lt_of_lt_of_eq Nat.one_pos (size_take hpos).symm
        dsimp only [Prod.map] at htakes ⊢
        rw [Array.getElem?_eq_getElem hsize] at htakes
        cases htakes
        exact hpassed
  | seek a => cases htakes

end Counted

/-! ### Files that grow -/

/-- What lies behind a place of the file lies there still when the file has grown. -/
theorem drop_of_grown {added : List UInt8} (hadded : F.data.toList ++ added = F'.data.toList)
    {p : Nat} (hp : p ≤ F.size) :
    F'.data.toList.drop p = F.data.toList.drop p ++ added := by
  rw [← hadded, List.drop_append_of_le_length (by rwa [length_toList])]

/-- What a file holds of the chunks that it is the beginning of. -/
theorem drop_of_begins {chunks : List (Chunk c)} (htwo : 2 ≤ F.size)
    (hbegins : F.data.toList <+: c.magicBytes.data.toList ++ Chunk.frames chunks) :
    F.data.toList = c.magicBytes.data.toList ++ F.data.toList.drop 2 ∧
      F.data.toList.drop 2 <+: Chunk.frames chunks := by
  obtain ⟨body, hbody⟩ : c.magicBytes.data.toList <+: F.data.toList := by
    refine List.prefix_of_prefix_length_le (List.prefix_append _ _) hbegins ?_
    rwa [length_toList, length_toList, Codec.size_magicBytes]
  have hdrop : F.data.toList.drop 2 = body := by rw [← hbody, List.drop_left' (by rfl)]
  rw [← hbody, List.prefix_append_right_inj] at hbegins
  rw [hdrop]
  exact ⟨hbody.symm, hbegins⟩

/-- Loading that does not fail leaves a reader as it was, or with the chunk that came next. -/
theorem loadNext_of_within (hparked : r.parked = false) (hwithin : r.source.Within d F)
    (hahead : r.source.Ahead d (F.data.toList.drop r.nextChunk)) (hle : r.nextChunk ≤ F.size)
    {more : Bool} (hload : r.loadNext c d = (.ok more, r')) :
    r'.parked = false ∧ r'.source.Within d F ∧
    r'.source.Ahead d (F.data.toList.drop r'.nextChunk) ∧ r'.nextChunk ≤ F.size ∧
    (more = false ∧ r' = { r with source := r'.source } ∨
      ∃ chunk : Chunk c, more = true ∧ r'.cache = chunk.data ∧ r'.pos = 0 ∧
        r'.chunkStart = r.nextChunk ∧ r'.nextChunk = r.nextChunk + chunk.frame.length ∧
        F.data.toList.drop r.nextChunk = chunk.frame ++ F.data.toList.drop r'.nextChunk) := by
  have hwithin' := (loadNext_keeps (c := c) (P := (·.Within d F)) (fun _ count hr => hr.read count)
    hwithin).1
  rcases loadNext_cases c hparked hahead with ⟨hnil, source, hnext, hrest, -⟩ |
    ⟨chunk, rest, source, hsplit, hnext, hrest, -⟩ | ⟨e, source, rest, hnext, -⟩
  all_goals
    rw [hnext] at hload hwithin'
    cases hload
  · exact ⟨hparked, hwithin', by rw [hnil]; exact hrest, hle, .inl ⟨rfl, rfl⟩⟩
  · have hbehind := drop_behind hsplit
    exact ⟨hparked, hwithin', by rw [hbehind]; exact hrest,
      add_length_le_size hsplit chunk.length_frame_pos,
      .inr ⟨chunk, rfl, rfl, rfl, rfl, rfl, by rw [hbehind]; exact hsplit⟩⟩

/-! ### Where a reader stands -/

/-- Whether the place `start` of the file, and `pos` bytes of what is there, is behind the first `k`
bytes of the stream: it is the start of that, or it is in a chunk that lies behind others. -/
def Names (c : Codec σ) (F : ByteArray) (start pos k : Nat) : Prop :=
  start = 2 ∧ pos = 0 ∧ k = 0 ∨
  ∃ (before : List (Chunk c)) (chunk : Chunk c) (rest : List UInt8),
    F.data.toList.drop 2 = Chunk.frames before ++ (chunk.frame ++ rest) ∧ pos ≤ chunk.data.size ∧
    start = 2 + (Chunk.frames before).length ∧ k = (Chunk.decoded before).length + pos

/-- A reader that stands behind the first `k` bytes of the stream: it has loaded no chunk, or what
is left of the one in its cache comes next. What lies behind the place recorded for the next chunk
is read after that. -/
structure Placed (c : Codec σ) (d : Disk) (F : ByteArray) (k : Nat) (r : ChunkReader) : Prop where
  parked_eq : r.parked = false
  within : r.source.Within d F
  ahead : r.source.Ahead d (F.data.toList.drop r.nextChunk)
  nextChunk_le : r.nextChunk ≤ F.size
  loaded : r.cache = .empty ∧ r.pos = 0 ∧ r.chunkStart = 2 ∧ r.nextChunk = 2 ∧ k = 0 ∨
    ∃ (before : List (Chunk c)) (chunk : Chunk c), r.cache = chunk.data ∧ r.pos ≤ r.cache.size ∧
      F.data.toList.drop 2 =
        Chunk.frames before ++ (chunk.frame ++ F.data.toList.drop r.nextChunk) ∧
      r.chunkStart = 2 + (Chunk.frames before).length ∧
      r.nextChunk = r.chunkStart + chunk.frame.length ∧
      k = (Chunk.decoded before).length + r.pos

/-- What a position leads to stays as the file grows. -/
theorem Names.grow {start pos : Nat} (h : Names c F start pos k)
    (hgrown : F.data.toList <+: F'.data.toList) : Names c F' start pos k := by
  rcases h with hstart | ⟨before, chunk, rest, hsplit, hpos⟩
  · exact .inl hstart
  · obtain ⟨added, hadded⟩ := hgrown.drop 2
    exact .inr ⟨before, chunk, rest ++ added, by rw [← hadded, hsplit]; simp, hpos⟩

/-- A place that a position leads to is in the file. -/
theorem Names.start_le {start pos : Nat} (h : Names c F start pos k) (htwo : 2 ≤ F.size) :
    2 ≤ start ∧ start ≤ F.size := by
  rcases h with ⟨rfl, -⟩ | ⟨before, chunk, rest, hsplit, -, rfl, -⟩
  · exact ⟨Nat.le_refl 2, htwo⟩
  · have hlen := congrArg List.length hsplit
    rw [List.length_drop, length_toList, List.length_append] at hlen
    omega

/-- The bytes of a chunk can be counted in 32 bits. -/
theorem Names.pos_lt {start pos : Nat} (h : Names c F start pos k) (hc : c.Bounded) :
    pos < 2 ^ 32 := by
  rcases h with ⟨-, rfl, -⟩ | ⟨before, chunk, rest, -, hpos, -⟩
  · decide
  · have hbound : chunk.data.size ≤ maxChunkSize := hc chunk.decompress_eq
    rw [maxChunkSize] at hbound
    omega

namespace Placed

theorem two_le (h : r.Placed c d F k) : 2 ≤ F.size := by
  have hle := h.nextChunk_le
  rcases h.loaded with ⟨-, -, -, hnext, -⟩ | ⟨_, _, -, -, -, hstart, hnext, -⟩ <;> omega

/-- The recorded position is that of what is delivered next. -/
theorem names (h : r.Placed c d F k) : Names c F r.chunkStart r.pos k := by
  rcases h.loaded with ⟨-, hpos, hstart, -, hk⟩ |
    ⟨before, chunk, hcache, hpos, hsplit, hstart, -, hk⟩
  · exact .inl ⟨hstart, hpos, hk⟩
  · exact .inr ⟨before, chunk, _, hsplit, hcache ▸ hpos, hstart, hk⟩

/-- A reader just opened stands at the start of the stream. -/
theorem of_open {path : String} (hF : d.contents? path = some F)
    (hopen : ChunkReader.open c path d = .ok r) : r.Placed c d F 0 := by
  have hsettled := settled_of_open hF hopen
  refine ⟨hsettled.parked_eq, (source_of_open hF hopen).2, hsettled.ahead,
    hsettled.nextChunk_le, ?_⟩
  have hfresh : r.cache = .empty ∧ r.pos = 0 ∧ r.chunkStart = 2 ∧ r.nextChunk = 2 := by
    rw [ChunkReader.open] at hopen
    split at hopen
    · cases hopen
    split at hopen
    · cases hopen
    split at hopen
    · cases hopen
      exact ⟨rfl, rfl, rfl, rfl⟩
    · cases hopen
  obtain ⟨hcache, hpos, hstart, hnext⟩ := hfresh
  exact .inl ⟨hcache, hpos, hstart, hnext, rfl⟩

/-- When the file grows, a reader goes on from where it stands. -/
theorem grow (h : r.Placed c d F k) (hnode : d'.node? r.source.node = some (.file F'))
    (hgrown : F.data.toList <+: F'.data.toList) : r.Placed c d' F' k := by
  obtain ⟨added, hadded⟩ := hgrown
  have hle := h.nextChunk_le
  have hlen := congrArg List.length hadded
  rw [List.length_append, length_toList, length_toList] at hlen
  have hposition := h.within.position_le
  refine ⟨h.parked_eq, ⟨hnode, by omega⟩, ?_, by omega, ?_⟩
  · rw [drop_of_grown hadded hle]
    exact h.ahead.grow h.within hnode hadded.symm
  · rcases h.loaded with hstart | ⟨before, chunk, hcache, hpos, hsplit, hstart, hnext, hk⟩
    · exact .inl hstart
    · refine .inr ⟨before, chunk, hcache, hpos, ?_, hstart, hnext, hk⟩
      rw [drop_of_grown hadded hle, drop_of_grown hadded (by omega), hsplit]
      simp

end Placed

/-- Reading moves a reader by what it takes, as long as no chunk fails to load. -/
theorem counted_placed (c : Codec σ) (d : Disk) (F : ByteArray) : Counted c d (Placed c d F) where
  load := by
    intro k r r' more h hpos hload
    obtain ⟨hparked, hwithin, hahead, hle, ⟨-, hsame⟩ |
      ⟨chunk, -, hcache', hpos', hstart', hnext', hsplit⟩⟩ :=
      loadNext_of_within h.parked_eq h.within h.ahead h.nextChunk_le hload
    · refine ⟨hparked, hwithin, hahead, hle, ?_⟩
      rw [hsame]
      exact h.loaded
    · refine ⟨hparked, hwithin, hahead, hle, .inr ?_⟩
      rcases h.loaded with ⟨hcache, hzero, hstart, hnextChunk, hk⟩ |
        ⟨before, last, hcache, hle', hsplit', hstart, hnextChunk, hk⟩
      · refine ⟨[], chunk, hcache', by omega, ?_, ?_, by rw [hnext', hstart'], ?_⟩
        · rw [← hsplit, hnextChunk]
          rfl
        · rw [hstart', hnextChunk]
          rfl
        · rw [hk, hpos']
          rfl
      · refine ⟨before ++ [last], chunk, hcache', by omega, ?_, ?_, by rw [hnext', hstart'], ?_⟩
        · rw [hsplit', hsplit]
          simp
        · rw [hstart', hnextChunk, hstart]
          simp [Nat.add_assoc]
        · rw [hk, hpos', Chunk.decoded_append, List.length_append, Chunk.decoded_cons,
            Chunk.decoded_nil, List.append_nil, length_toList, ← hcache]
          omega
  pass := by
    intro k r count h hcount
    refine { h with loaded := ?_ }
    rcases h.loaded with ⟨hcache, hpos, hstart, hnext, hk⟩ |
      ⟨before, chunk, hcache, hpos, hsplit, hstart, hnext, hk⟩
    · have : count = 0 := by simpa [available, hcache] using hcount
      exact .inl ⟨hcache, by rw [this, hpos], hstart, hnext, by rw [this, hk]⟩
    · rw [available] at hcount
      refine .inr ⟨before, chunk, hcache, ?_, hsplit, hstart, hnext, by rw [hk, Nat.add_assoc]⟩
      show r.pos + count ≤ r.cache.size
      omega

/-- A reader that stands in the stream of some chunks, of which the file holds the beginning, trails
behind what they hold. -/
theorem Placed.trails (h : r.Placed c d F k) {chunks : List (Chunk c)}
    (hbegins : F.data.toList <+: c.magicBytes.data.toList ++ Chunk.frames chunks) :
    k ≤ (Chunk.decoded chunks).length ∧ r.Trails c d F chunks ((Chunk.decoded chunks).take k) := by
  obtain ⟨hfile, hbegins⟩ := drop_of_begins h.two_le hbegins
  rcases h.loaded with ⟨hcache, hpos, -, hnext, rfl⟩ |
    ⟨before, chunk, hcache, hpos, hsplit, -, -, rfl⟩
  · refine ⟨Nat.zero_le _, h.parked_eq, h.within, [], chunks, F.data.toList.drop 2, rfl, hfile, ?_,
      ?_⟩
    · rw [← hnext]
      exact h.ahead
    · rw [hcache, hpos]
      rfl
  · -- The chunks that were loaded are the first ones.
    obtain ⟨behind, rfl⟩ : before ++ [chunk] <+: chunks := by
      refine Chunk.prefix_of_frames (List.IsPrefix.trans ?_ hbegins)
      rw [hsplit]
      exact ⟨F.data.toList.drop r.nextChunk, by simp⟩
    rw [hcache, ← length_toList] at hpos
    have hdelivered : (Chunk.decoded (before ++ [chunk] ++ behind)).take
        ((Chunk.decoded before).length + r.pos) =
          Chunk.decoded before ++ chunk.data.data.toList.take r.pos := by
      simp only [Chunk.decoded_append, Chunk.decoded_cons, Chunk.decoded_nil, List.append_nil,
        List.append_assoc]
      rw [List.take_length_add_append, List.take_append_of_le_length hpos]
    refine ⟨?_, h.parked_eq, h.within, before ++ [chunk], behind, _, rfl, ?_, h.ahead, ?_⟩
    · simp only [Chunk.decoded_append, Chunk.decoded_cons, Chunk.decoded_nil, List.length_append,
        List.append_nil]
      omega
    · rw [hsplit] at hfile
      simpa using hfile
    · rw [hdelivered, hcache, List.append_assoc, List.take_append_drop]
      simp

/-! ### Going back -/

/-- Going to a position leaves a reader on its file. -/
private theorem within_setCurrentOffset (h : r.source.Within d F) (hsize : r.fileSize ≤ F.size)
    (a : Offset) : (r.setCurrentOffset c a d).2.source.Within d F := by
  rw [setCurrentOffset_eq]
  split
  case isTrue => exact h
  case isFalse hle =>
    have haimed : (r.aimed a).source.Within d F :=
      ⟨h.node_eq, show target a ≤ F.size by omega⟩
    have hload := (loadNext_keeps (c := c) (P := (·.Within d F)) (fun _ count hr => hr.read count)
      haimed).1
    split <;> rename_i hnext <;> rw [hnext] at hload
    · split <;> exact hload
    · split <;> exact hload
    · exact hload

/-- Going to a position in a chunk. -/
private theorem placed_of_chunk (h : r.source.Within d F) (hsize : r.fileSize ≤ F.size) {a : Offset}
    (hle : target a ≤ r.fileSize) {before : List (Chunk c)} {chunk : Chunk c} {rest : List UInt8}
    (hsplit : F.data.toList.drop 2 = Chunk.frames before ++ (chunk.frame ++ rest))
    (hpos : a.inChunk.toNat ≤ chunk.data.size)
    (hstart : target a = 2 + (Chunk.frames before).length) :
    ∃ r', r.setCurrentOffset c a d = (.ok (), r') ∧
      r'.Placed c d F ((Chunk.decoded before).length + a.inChunk.toNat) ∧
      r'.chunkStart = target a ∧ r'.pos = a.inChunk.toNat := by
  have hchunk : F.data.toList.drop (target a) = chunk.frame ++ rest := hstart ▸ drop_behind hsplit
  have hbehind := drop_behind hchunk
  obtain ⟨source, hseek, hahead, -⟩ := setCurrentOffset_of_le h.node_eq hle chunk hchunk hpos
  have hwithin := within_setCurrentOffset (c := c) h hsize a
  rw [hseek] at hwithin
  exact ⟨_, hseek, ⟨rfl, hwithin, by rwa [hbehind],
    add_length_le_size hchunk chunk.length_frame_pos,
    .inr ⟨before, chunk, rfl, hpos, by rw [hbehind, hsplit], hstart, rfl, rfl⟩⟩, rfl, rfl⟩

/-- Going to the end of a file that has no chunk. -/
private theorem placed_of_none (h : r.source.Within d F) (hsize : r.fileSize ≤ F.size) {a : Offset}
    (htarget : target a = 2) (hle : target a ≤ r.fileSize) (hpos : a.inChunk.toNat = 0)
    (hnone : F.data.toList.drop 2 = []) :
    ∃ r', r.setCurrentOffset c a d = (.ok (), r') ∧ r'.Placed c d F 0 ∧
      r'.chunkStart = target a ∧ r'.pos = a.inChunk.toNat := by
  have hahead : (r.aimed a).source.Ahead d (F.data.toList.drop (target a)) :=
    FileReader.ahead_seek h.node_eq _
  rw [htarget, hnone] at hahead
  obtain ⟨source, hload, hrest, -⟩ := loadNext_nil (c := c) (r := r.aimed a) rfl hahead
  have hzero : a.inChunk = 0 := UInt32.toNat_inj.1 hpos
  have hseek : r.setCurrentOffset c a d = (.ok (), { r.aimed a with source }) := by
    rw [setCurrentOffset_eq, if_neg (Nat.not_lt.2 hle), hload]
    exact if_pos hzero
  have hwithin := within_setCurrentOffset (c := c) h hsize a
  rw [hseek] at hwithin
  refine ⟨_, hseek, ⟨rfl, hwithin, ?_, Nat.le_trans hle hsize, .inl ?_⟩, rfl, hpos.symm⟩
  · show source.Ahead d (F.data.toList.drop (target a))
    rwa [htarget, hnone]
  · exact ⟨rfl, rfl, htarget, htarget, rfl⟩

/-- Where the file was long enough for a position when it was opened, the position is accepted, but
for the start of a file that does not have its first chunk in full. -/
private theorem placed_or_rejected (h : r.source.Within d F) (hsize : r.fileSize ≤ F.size)
    {a : Offset} (hle : target a ≤ r.fileSize) (hnames : Names c F (target a) a.inChunk.toNat k) :
    (∃ r', r.setCurrentOffset c a d = (.ok (), r') ∧ r'.Placed c d F k ∧
      r'.chunkStart = target a ∧ r'.pos = a.inChunk.toNat) ∨
    k = 0 ∧ (¬∃ (chunk : Chunk c) (rest : List UInt8), F.data.toList.drop 2 = chunk.frame ++ rest) ∧
      (r.setCurrentOffset c a d).1 ≠ .ok () := by
  rcases hnames with ⟨hstart, hpos, rfl⟩ | ⟨before, chunk, rest, hsplit, hpos, hstart, rfl⟩
  · rcases ends_or_chunk c (F.data.toList.drop 2) with ⟨_ | _, hend⟩ | ⟨chunk, rest, hsplit⟩
    · -- What is there cannot be loaded.
      right
      have hahead : (r.aimed a).source.Ahead d (F.data.toList.drop (target a)) :=
        FileReader.ahead_seek h.node_eq _
      rw [hstart] at hahead
      obtain ⟨source, _, hload, -⟩ := loadNext_error (c := c) (r := r.aimed a) rfl hend hahead
      refine ⟨rfl, ?_, ?_⟩
      · rintro ⟨chunk, rest, hsplit⟩
        rw [hsplit] at hahead
        obtain ⟨_, hload', -⟩ := loadNext_chunk (r := r.aimed a) rfl chunk hahead
        cases hload.symm.trans hload'
      · rw [setCurrentOffset_eq, if_neg (Nat.not_lt.2 hle), hload]
        simp
    · exact .inl (placed_of_none h hsize hstart hle hpos hend.eq_nil)
    · have hfirst : F.data.toList.drop 2 = Chunk.frames (c := c) [] ++ (chunk.frame ++ rest) :=
        hsplit
      have hplaced := placed_of_chunk h hsize hle hfirst (by omega) hstart
      rw [hpos] at hplaced ⊢
      exact .inl hplaced
  · exact .inl (placed_of_chunk h hsize hle hsplit hpos hstart)

/-- What comes of going to a position that names some bytes of the stream. It is rejected if the
file was too short for it when it was opened, and accepted otherwise, but for the start of a file
that does not have its first chunk in full. The reader then stands behind the bytes that the
position names. -/
theorem setCurrentOffset_of_names (h : r.source.Within d F) (hsize : r.fileSize ≤ F.size)
    {a : Offset} (hnames : Names c F (target a) a.inChunk.toNat k) :
    (r.fileSize < target a →
      (r.setCurrentOffset c a d).1 = .error (.invalidOffset a.chunk a.inChunk)) ∧
    (target a ≤ r.fileSize →
      (k ≠ 0 ∨ ∃ (chunk : Chunk c) (rest : List UInt8),
        F.data.toList.drop 2 = chunk.frame ++ rest) →
      (r.setCurrentOffset c a d).1 = .ok ()) ∧
    ∀ r', r.setCurrentOffset c a d = (.ok (), r') →
      r'.Placed c d F k ∧ r'.chunkStart = target a ∧ r'.pos = a.inChunk.toNat := by
  by_cases hle : target a ≤ r.fileSize
  · refine ⟨fun hlt => absurd hle (Nat.not_le.2 hlt), ?_⟩
    rcases placed_or_rejected h hsize hle hnames with ⟨r', hseek, hplaced⟩ | ⟨hk, hnone, hrejected⟩
    · refine ⟨fun _ _ => by rw [hseek], fun r'' haccepted => ?_⟩
      obtain rfl := (Prod.mk.inj (hseek.symm.trans haccepted)).2
      exact hplaced
    · refine ⟨fun _ hfirst => ?_, fun r' haccepted => absurd (by rw [haccepted]) hrejected⟩
      exact absurd (hfirst.resolve_left (absurd hk)) hnone
  · have hlt := Nat.lt_of_not_le hle
    have hseek :
        r.setCurrentOffset c a d = (.error (.invalidOffset a.chunk a.inChunk), r.park) := by
      rw [setCurrentOffset_eq, if_pos hlt]
    refine ⟨fun _ => by rw [hseek], fun hle' => absurd hle' hle, fun r' haccepted => ?_⟩
    cases hseek.symm.trans haccepted

end ChunkReader
end TraceStore
