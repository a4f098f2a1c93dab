import TraceStore.Proofs.Chunk.Seek

/-!
# Chunks that fail to load

A reader does not keep in mind that a chunk failed to load: it goes on with whatever follows in the
file. `History` says what it does not know, and `After` which handles a history leads to. As long as
no load has failed since reading started, the recorded positions are those of what was read
(`Settled`). Once one has, they lag behind the file until a position is accepted (`Astray`).
-/
namespace TraceStore

variable {σ : Type}

namespace ChunkReader

variable {c : Codec σ} {d : Disk} {r r' : ChunkReader} {F : ByteArray} {e : Error}

/-! ### Requests that fail to load a chunk -/

/-- In the course of reading the next `count` bytes a chunk fails to load. -/
inductive FailsToRead (c : Codec σ) (d : Disk) : Nat → ChunkReader → Error → Prop
  | here {count r r' e} : 0 < count → r.fill c d = (.error e, r') → FailsToRead c d count r e
  | later {count r r' e} : r.fill c d = (.ok true, r') → r'.available < count →
      FailsToRead c d (count - r'.available) { r' with pos := r'.pos + r'.available } e →
      FailsToRead c d count r e

/-- In the course of a request that reads on a chunk fails to load. -/
def Fails (c : Codec σ) (d : Disk) (r : ChunkReader) (e : Error) : ReadRequest → Prop
  | .read count => FailsToRead c d count r e
  | .readSome count => 0 < count ∧ (r.fill c d).1 = .error e
  | .getc => (r.fill c d).1 = .error e
  | .skip count => FailsToRead c d count r e
  | .seek _ => False

theorem Fails.sequential {request : ReadRequest} (h : r.Fails c d e request) :
    request.Sequential := by
  cases request with
  | seek a => exact h
  | _ => trivial

/-- A property `P` of readers that loads keep, but for one that fails, after which `Q` holds. Passing
over bytes of the chunk in the cache keeps `P`. -/
structure KeptUntil (c : Codec σ) (d : Disk) (P Q : ChunkReader → Prop) : Prop where
  loaded : ∀ {r r' more}, P r → r.cache.size ≤ r.pos → r.loadNext c d = (.ok more, r') → P r'
  failed : ∀ {r r' e}, P r → r.cache.size ≤ r.pos → r.loadNext c d = (.error e, r') → Q r'
  pass : ∀ {r count}, P r → count ≤ r.available → P { r with pos := r.pos + count }

namespace KeptUntil

variable {P Q : ChunkReader → Prop} (h : KeptUntil c d P Q)

include h

theorem fill (hr : P r) : ((∃ more, (r.fill c d).1 = .ok more) ∧ P (r.fill c d).2) ∨
    ((∃ e, (r.fill c d).1 = .error e) ∧ Q (r.fill c d).2) := by
  suffices ∀ fuel r, P r →
      ((∃ more, (fillWithin c d fuel r).1 = .ok more) ∧ P (fillWithin c d fuel r).2) ∨
        ((∃ e, (fillWithin c d fuel r).1 = .error e) ∧ Q (fillWithin c d fuel r).2) from
    this _ _ hr
  intro fuel
  induction fuel with
  | zero => intro r hr; exact .inl ⟨⟨_, rfl⟩, hr⟩
  | succ fuel ih =>
      intro r hr
      rw [fillWithin]
      split
      · exact .inl ⟨⟨_, rfl⟩, hr⟩
      · have hpos : r.cache.size ≤ r.pos := by omega
        split <;> rename_i hload
        · exact ih _ (h.loaded hr hpos hload)
        · exact .inl ⟨⟨_, rfl⟩, h.loaded hr hpos hload⟩
        · exact .inr ⟨⟨_, rfl⟩, h.failed hr hpos hload⟩

theorem fill_ok {more : Bool} (hr : P r) (hfill : r.fill c d = (.ok more, r')) : P r' := by
  rcases h.fill hr with ⟨-, hkept⟩ | ⟨⟨e, herror⟩, -⟩
  · rwa [hfill] at hkept
  · rw [hfill] at herror
    cases herror

theorem fill_error (hr : P r) (hfill : r.fill c d = (.error e, r')) : Q r' := by
  rcases h.fill hr with ⟨⟨more, hok⟩, -⟩ | ⟨-, hfailed⟩
  · rw [hfill] at hok
    cases hok
  · rwa [hfill] at hfailed

/-- Reading ends with the first load that fails. -/
private theorem readWithin (hr : P r) {fuel count : Nat} (hfuel : count ≤ fuel)
    (done : ByteArray) :
    ((∀ e, ¬ FailsToRead c d count r e) ∧
        P (ChunkReader.readWithin c d fuel count done r).2) ∨
      ∃ e, FailsToRead c d count r e ∧ (ChunkReader.readWithin c d fuel count done r).1 = .error e ∧
        Q (ChunkReader.readWithin c d fuel count done r).2 := by
  induction fuel generalizing r count done with
  | zero =>
      obtain rfl : count = 0 := by omega
      refine .inl ⟨fun e hfails => ?_, hr⟩
      cases hfails with
      | here hpos => omega
      | later _ hlt => omega
  | succ fuel ih =>
      rw [ChunkReader.readWithin]
      split
      case isTrue hzero =>
        refine .inl ⟨fun e hfails => ?_, hr⟩
        cases hfails with
        | here hpos => omega
        | later _ hlt => omega
      case isFalse hcount =>
        split
        case h_1 e r' hfill =>
          exact .inr ⟨e, .here (by omega) hfill, rfl, h.fill_error hr hfill⟩
        case h_2 r' hfill =>
          refine .inl ⟨fun e hfails => ?_, h.fill_ok hr hfill⟩
          cases hfails with
          | here _ hfill' => cases hfill.symm.trans hfill'
          | later hfill' => cases hfill.symm.trans hfill'
        case h_3 r' hfill =>
          have hpos := available_of_fill hfill
          have hnext := h.pass (h.fill_ok hr hfill) (Nat.min_le_left r'.available count)
          have hrest : count - min r'.available count ≤ fuel := by omega
          rcases ih hnext hrest (done ++ (r'.take (min r'.available count)).1) with
            ⟨hnone, hkept⟩ | ⟨e, hfails, hread, hfailed⟩
          · refine .inl ⟨fun e hfails => ?_, hkept⟩
            cases hfails with
            | here _ hfill' => cases hfill.symm.trans hfill'
            | later hfill' hlt hfails =>
                obtain ⟨-, rfl⟩ := Prod.mk.inj (hfill.symm.trans hfill')
                rw [Nat.min_eq_left (Nat.le_of_lt hlt)] at hnone
                exact hnone e hfails
          · by_cases hlt : r'.available < count
            · rw [Nat.min_eq_left (Nat.le_of_lt hlt)] at hfails
              exact .inr ⟨e, .later hfill hlt hfails, hread, hfailed⟩
            · rw [Nat.min_eq_right (by omega), Nat.sub_self] at hfails
              cases hfails with
              | here hpos => omega
              | later _ hlt => omega

/-- A request that reads on fails to load a chunk, and is answered accordingly, or it does not. -/
theorem ask (hr : P r) {request : ReadRequest} (hrequest : request.Sequential) :
    ((∀ e, ¬ r.Fails c d e request) ∧ P (r.ask c d request).2) ∨
      ∃ e, r.Fails c d e request ∧ (r.ask c d request).1 = request.refused e ∧
        Q (r.ask c d request).2 := by
  cases request with
  | read count =>
      rcases h.readWithin hr (Nat.le_refl count) .empty with hkept | ⟨e, hfails, hread, hfailed⟩
      · exact .inl hkept
      · exact .inr ⟨e, hfails, congrArg Answer.bytes hread, hfailed⟩
  | skip count =>
      rw [ChunkReader.ask, skip_eq_read]
      rcases h.readWithin hr (Nat.le_refl count) .empty with hkept | ⟨e, hfails, hread, hfailed⟩
      · exact .inl hkept
      · refine .inr ⟨e, hfails, ?_, hfailed⟩
        exact congrArg (fun result => Answer.done (Except.map (fun _ => ()) result)) hread
  | readSome count =>
      simp only [Fails, ChunkReader.ask, ChunkReader.readSome]
      by_cases hzero : count = 0
      · exact .inl ⟨fun e hfails => by omega, by rwa [if_pos hzero]⟩
      · rw [if_neg hzero]
        split
        case h_1 e r' hfill =>
          exact .inr ⟨e, ⟨by omega, by rw [hfill]⟩, rfl, h.fill_error hr hfill⟩
        case h_2 r' hfill => exact .inl ⟨by simp [hfill], h.fill_ok hr hfill⟩
        case h_3 r' hfill =>
          exact .inl ⟨by simp [hfill], h.pass (h.fill_ok hr hfill) (Nat.min_le_left ..)⟩
  | getc =>
      simp only [Fails, ChunkReader.ask, ChunkReader.getc]
      rcases hfill : r.fill c d with ⟨e | more, r'⟩
      · exact .inr ⟨e, rfl, rfl, h.fill_error hr hfill⟩
      · have hkept := h.fill_ok hr hfill
        cases more with
        | false => exact .inl ⟨by simp, hkept⟩
        | true => exact .inl ⟨by simp, h.pass hkept (available_of_fill hfill)⟩
  | seek a => exact absurd hrequest id

end KeptUntil
/-! ### Recorded positions and the file -/

/-- No load has failed since reading started at `start`: from there to the place recorded for the
next chunk the file is chunks, the last of which is in the cache, and what lies behind that place is
read next. -/
structure Settled (c : Codec σ) (d : Disk) (F : ByteArray) (start : Nat) (r : ChunkReader) : Prop
    extends OnFile d F r where
  parked_eq : r.parked = false
  start_pos : 0 < start
  ahead : r.source.Ahead d (F.data.toList.drop r.nextChunk)
  nextChunk_le : r.nextChunk ≤ F.size
  loaded : r.cache = .empty ∧ r.pos = 0 ∧ r.chunkStart = start ∧ r.nextChunk = start ∨
    ∃ (chunks : List (Chunk c)) (chunk : Chunk c), r.cache = chunk.data ∧ r.pos ≤ r.cache.size ∧
      F.data.toList.drop start =
        Chunk.frames chunks ++ (chunk.frame ++ F.data.toList.drop r.nextChunk) ∧
      r.chunkStart = start + (Chunk.frames chunks).length ∧
      r.nextChunk = r.chunkStart + chunk.frame.length

/-- A load has failed since reading started, and the place recorded for the next chunk lags behind
what is read next. -/
structure Astray (d : Disk) (F : ByteArray) (r : ChunkReader) : Prop extends OnFile d F r where
  parked_eq : r.parked = false
  lags : ∃ rest, r.source.Ahead d rest ∧ r.nextChunk + rest.length < F.size

/-- What has been loaded, and what has not. -/
theorem Settled.exists_loaded {start : Nat} (h : r.Settled c d F start) :
    ∃ chunks : List (Chunk c), r.nextChunk = start + (Chunk.frames chunks).length ∧
      F.data.toList.drop start = Chunk.frames chunks ++ F.data.toList.drop r.nextChunk := by
  rcases h.loaded with ⟨-, -, -, hnext⟩ | ⟨chunks, chunk, -, -, hsplit, hstart, hnext⟩
  · exact ⟨[], by simpa using hnext, by rw [hnext]; rfl⟩
  · refine ⟨chunks ++ [chunk], ?_, ?_⟩
    · rw [hnext, hstart, Chunk.frames_append]
      simp [Nat.add_assoc]
    · rw [hsplit, Chunk.frames_append]
      simp

/-- A reader stays settled until a load fails, and is astray then. -/
theorem keptUntil_settled (c : Codec σ) (d : Disk) (F : ByteArray) (start : Nat) :
    KeptUntil c d (Settled c d F start) (Astray d F) where
  loaded := by
    intro r r' more h _ hload
    rcases loadNext_cases c h.parked_eq h.ahead with ⟨hnil, source, hnext, hrest, hnode⟩ |
      ⟨chunk, rest, source, hsplit, hnext, hrest, hnode⟩ | ⟨e, source, rest, hnext, -⟩
    all_goals
      rw [hnext] at hload
      cases hload
    · exact { h with
        node_eq := by rw [hnode]; exact h.node_eq
        ahead := by rw [hnil]; exact hrest }
    · have hbehind := drop_behind hsplit
      obtain ⟨chunks, hstart, hchunks⟩ := h.exists_loaded
      exact {
        node_eq := by rw [hnode]; exact h.node_eq
        fileSize_eq := h.fileSize_eq
        parked_eq := h.parked_eq
        start_pos := h.start_pos
        ahead := by rw [hbehind]; exact hrest
        nextChunk_le := add_length_le_size hsplit chunk.length_frame_pos
        loaded := .inr ⟨chunks, chunk, rfl, Nat.zero_le _, by rw [hbehind, hchunks, hsplit],
          hstart, rfl⟩ }
  failed := by
    intro r r' e h _ hload
    rcases loadNext_cases c h.parked_eq h.ahead with ⟨hnil, source, hnext, -⟩ |
      ⟨chunk, rest, source, hsplit, hnext, -⟩ | ⟨e, source, rest, hnext, hrest, hlt, hnode⟩
    all_goals
      rw [hnext] at hload
      cases hload
    rw [List.length_drop, length_toList] at hlt
    exact {
      node_eq := by rw [hnode]; exact h.node_eq
      fileSize_eq := h.fileSize_eq
      parked_eq := h.parked_eq
      lags := ⟨rest, hrest, by show r.nextChunk + rest.length < F.size; omega⟩ }
  pass := by
    intro r count h hcount
    simp only [available] at hcount
    refine { h with loaded := ?_ }
    rcases h.loaded with ⟨hcache, hpos, hstart⟩ | ⟨chunks, chunk, hcache, hpos, hsplit⟩
    · have : count = 0 := by simpa [hcache] using hcount
      exact .inl ⟨hcache, by rw [this, hpos], hstart⟩
    · refine .inr ⟨chunks, chunk, hcache, ?_, hsplit⟩
      show r.pos + count ≤ r.cache.size
      omega

/-- Reading does not bring the recorded positions up to the file again. -/
theorem kept_astray (c : Codec σ) (d : Disk) (F : ByteArray) : Kept c d (Astray d F) where
  load := by
    intro r h _
    obtain ⟨s, hahead, hlags⟩ := h.lags
    rcases loadNext_cases c h.parked_eq hahead with ⟨hnil, source, hnext, hrest, hnode⟩ |
      ⟨chunk, rest, source, rfl, hnext, hrest, hnode⟩ | ⟨e, source, rest, hnext, hrest, hlt, hnode⟩
    all_goals
      rw [hnext]
      refine { h with node_eq := by rw [hnode]; exact h.node_eq, lags := ⟨_, hrest, ?_⟩ }
    · rwa [hnil] at hlags
    · rw [List.length_append] at hlags
      show r.nextChunk + chunk.frame.length + rest.length < F.size
      omega
    · show r.nextChunk + rest.length < F.size
      omega
  pass h _ := { h with lags := h.lags }

/-- A reader just opened is settled. -/
theorem settled_of_open {path : String} (hF : d.contents? path = some F)
    (h : ChunkReader.open c path d = .ok r) : r.Settled c d F 2 := by
  by_cases hmagic : c.magicBytes.data.toList <+: F.data.toList
  · obtain ⟨body, hbody⟩ := hmagic
    obtain ⟨source, hopen, hahead, hnode⟩ := open_of_magic hF hbody.symm
    obtain rfl := Except.ok.inj (h.symm.trans hopen)
    exact {
      node_eq := hnode
      fileSize_eq := rfl
      parked_eq := rfl
      start_pos := Nat.two_pos
      ahead := by rwa [← hbody, List.drop_left' (by rfl)]
      nextChunk_le := by
        have hlen := congrArg List.length hbody
        rw [length_toList, List.length_append, length_toList, Codec.size_magicBytes] at hlen
        show 2 ≤ F.size
        omega
      loaded := .inl ⟨rfl, rfl, rfl, rfl⟩ }
  · rw [open_of_not_magic hF hmagic] at h
    cases h

theorem target_pos (a : Offset) : 0 < target a := by
  rw [target]
  split
  · exact Nat.two_pos
  case isFalse hne => exact Nat.pos_of_ne_zero fun hzero => hne (UInt64.toNat_inj.1 hzero)

/-- A reader that accepts a position is settled, whatever it was before. -/
theorem settled_of_accepted (h : r.OnFile d F) {a : Offset}
    (haccepted : r.setCurrentOffset c a d = (.ok (), r')) : r'.Settled c d F (target a) := by
  obtain ⟨hle, ⟨hend, hzero⟩ | ⟨chunk, rest, hchunk, hin⟩⟩ := decodable_of_accepted h haccepted
  · obtain ⟨source, hseek, hahead, hnode⟩ := setCurrentOffset_end (c := c) h hend hzero
    cases haccepted.symm.trans hseek
    exact {
      node_eq := by rw [hnode]; exact h.node_eq
      fileSize_eq := rfl
      parked_eq := rfl
      start_pos := target_pos a
      ahead := by rwa [List.drop_of_length_le (Nat.le_of_eq (length_toList F))]
      nextChunk_le := Nat.le_refl _
      loaded := .inl ⟨rfl, rfl, hend.symm, hend.symm⟩ }
  · obtain ⟨source, hseek, hahead, hnode⟩ := setCurrentOffset_chunk h chunk hchunk hin
    cases haccepted.symm.trans hseek
    have hbehind := drop_behind hchunk
    exact {
      node_eq := by rw [hnode]; exact h.node_eq
      fileSize_eq := rfl
      parked_eq := rfl
      start_pos := target_pos a
      ahead := by rwa [hbehind]
      nextChunk_le := add_length_le_size hchunk chunk.length_frame_pos
      loaded := .inr ⟨[], chunk, rfl, hin, by rw [hbehind, hchunk]; rfl, rfl, rfl⟩ }

end ChunkReader

/-! ### Histories -/

/-- What became of a handle by what it was asked for: it rejected the last position, or it has been
reading since from a place in the file, and a load has failed on the way or none has. -/
inductive History
  | parked
  | reading (start : Nat) (failed : Bool)

/-- In the course of a request to an open reader a chunk fails to load. -/
def LoadFails (d : Disk) (f : File (Chunked σ)) (request : ReadRequest) : Prop :=
  match f.backend.state with
  | .reading r => ∃ e, r.Fails f.backend.codec d e request
  | _ => False

/-- The handles on a path of a disk after a history. Reading starts anew with each position that is
accepted. -/
inductive After (c : Codec σ) (path : String) (d : Disk) : History → File (Chunked σ) → Prop
  | opened {f g : File (Chunked σ)} : f.backend.codec = c →
      f.open path .read d = ⟨.ok (), g, d⟩ → After c path d (.reading 2 false) g
  | accepted {history : History} {f : File (Chunked σ)} {a : Offset} : After c path d history f →
      (f.setCurrentOffset a d).1 = .ok () →
      After c path d (.reading (ChunkReader.target a) false) (f.setCurrentOffset a d).2
  | rejected {history : History} {f : File (Chunked σ)} {a : Offset} : After c path d history f →
      (f.setCurrentOffset a d).1 ≠ .ok () → After c path d .parked (f.setCurrentOffset a d).2
  | stayed {f : File (Chunked σ)} {request : ReadRequest} : After c path d .parked f →
      request.Sequential → After c path d .parked (f.ask d request).2
  | loaded {start : Nat} {failed : Bool} {f : File (Chunked σ)} {request : ReadRequest} :
      After c path d (.reading start failed) f → request.Sequential → ¬ LoadFails d f request →
      After c path d (.reading start failed) (f.ask d request).2
  | failed {start : Nat} {failed : Bool} {f : File (Chunked σ)} {request : ReadRequest} :
      After c path d (.reading start failed) f → LoadFails d f request →
      After c path d (.reading start true) (f.ask d request).2

variable {c : Codec σ} {path : String} {d : Disk} {F : ByteArray} {f : File (Chunked σ)}
  {history : History}

/-- A load fails during a request for some bytes iff the request fails. -/
theorem loadFails_readSome_iff (h : OpenOn c path d f) (count : Nat) :
    LoadFails d f (.readSome count) ↔ ∃ e, (f.readSome count d).1 = .error e := by
  obtain ⟨_, r, b, -, rfl, -, -⟩ := h.exists_sameFile
  rw [ChunkReader.readSome_handle]
  show (∃ e, 0 < count ∧ (r.fill b.codec d).1 = .error e) ↔
    ∃ e, (r.readSome b.codec count d).1 = .error e
  rw [ChunkReader.readSome]
  by_cases hzero : count = 0
  · simp [hzero]
  · rw [if_neg hzero]
    have hpos : 0 < count := Nat.pos_of_ne_zero hzero
    split <;> simp [*]

/-- A new handle that opens a path. -/
theorem After.of_new {memory : σ} {o : WriteOptions}
    (h : ((File.new (Chunked.new c memory o)).open path .read d).result = .ok ()) :
    After c path d (.reading 2 false) ((File.new (Chunked.new c memory o)).open path .read d).state
    := by
  refine .opened (f := File.new (Chunked.new c memory o)) rfl ?_
  rw [Chunked.open_new_read] at h ⊢
  split <;> simp_all

theorem After.openOn (h : After c path d history f) : OpenOn c path d f := by
  induction h with
  | opened hcodec hopen => exact .opened hcodec hopen
  | accepted _ _ ih => exact .asked (.seek _) ih
  | rejected _ _ ih => exact .asked (.seek _) ih
  | stayed _ _ ih => exact .asked _ ih
  | loaded _ _ _ ih => exact .asked _ ih
  | failed _ _ ih => exact .asked _ ih

/-- A request for some bytes that gets them, or comes to the end, is no failure. -/
theorem After.readSome {start : Nat} {failed : Bool} (h : After c path d (.reading start failed) f)
    {count : Nat} {bytes : ByteArray} (hread : (f.readSome count d).1 = .ok bytes) :
    After c path d (.reading start failed) (f.readSome count d).2 := by
  have hrequest : (ReadRequest.readSome count).Sequential := trivial
  refine h.loaded hrequest ?_
  rw [loadFails_readSome_iff h.openOn]
  rintro ⟨e, herror⟩
  cases hread.symm.trans herror

/-- A request for some bytes that fails is a failure. -/
theorem After.readSome_error {start : Nat} {failed : Bool} {e : Error} {count : Nat}
    (h : After c path d (.reading start failed) f) (hread : (f.readSome count d).1 = .error e) :
    After c path d (.reading start true) (f.readSome count d).2 :=
  h.failed ((loadFails_readSome_iff h.openOn count).2 ⟨e, hread⟩)

namespace ChunkReader

/-- What a history tells of a reader. -/
def Fits (c : Codec σ) (d : Disk) (F : ByteArray) : History → ChunkReader → Prop
  | .parked, r => r.Parked ∧ r.OnFile d F
  | .reading start false, r => r.Settled c d F start
  | .reading _ true, r => r.Astray d F

theorem Fits.onFile {r : ChunkReader} (h : r.Fits c d F history) : r.OnFile d F := by
  match history, h with
  | .parked, h => exact h.2
  | .reading _ false, h => exact h.toOnFile
  | .reading _ true, h => exact h.toOnFile

/-- Whether a load fails during a request tells how the history goes on. -/
theorem Fits.ask {r : ChunkReader} {start : Nat} {failed : Bool}
    (h : r.Fits c d F (.reading start failed)) {request : ReadRequest}
    (hrequest : request.Sequential) :
    ((∀ e, ¬ r.Fails c d e request) →
        (r.ask c d request).2.Fits c d F (.reading start failed)) ∧
      ∀ e, r.Fails c d e request → (r.ask c d request).2.Fits c d F (.reading start true) := by
  cases failed with
  | true =>
      have hkept := (kept_astray c d F).ask h hrequest
      exact ⟨fun _ => hkept, fun _ _ => hkept⟩
  | false =>
      rcases (keptUntil_settled c d F start).ask h hrequest with
        ⟨hnone, hkept⟩ | ⟨e, hfails, -, hastray⟩
      · exact ⟨fun _ => hkept, fun e hfails => absurd hfails (hnone e)⟩
      · exact ⟨fun hnone => absurd hfails (hnone e), fun _ _ => hastray⟩

end ChunkReader

/-- A handle has a reader open that fits its history. -/
theorem After.exists_reader (h : After c path d history f) (hF : d.contents? path = some F) :
    ∃ (r : ChunkReader) (b : Chunked σ), f = r.handle path b ∧ b.codec = c ∧
      r.Fits c d F history := by
  induction h with
  | opened hcodec hopen =>
      obtain ⟨r, b, hr, hb, rfl⟩ := Chunked.reader_of_open hopen
      rw [hcodec] at hr hb
      exact ⟨r, b, rfl, hb, ChunkReader.settled_of_open hF hr⟩
  | @accepted _ _ a _ haccepted ih =>
      obtain ⟨r, b, rfl, rfl, hr⟩ := ih
      rw [ChunkReader.setCurrentOffset_handle] at haccepted ⊢
      exact ⟨_, b, rfl, rfl, ChunkReader.settled_of_accepted hr.onFile (Prod.ext haccepted rfl)⟩
  | @rejected _ _ a _ hrejected ih =>
      obtain ⟨r, b, rfl, rfl, hr⟩ := ih
      rw [ChunkReader.setCurrentOffset_handle] at hrejected ⊢
      have hparked : (r.setCurrentOffset b.codec a d).2.Parked := by
        rcases ChunkReader.setCurrentOffset_cases b.codec d r a with ⟨r', hseek⟩ | ⟨r', hseek⟩
        · exact absurd (by rw [hseek]; rfl) hrejected
        · rw [hseek]
          exact ChunkReader.parked_park r'
      exact ⟨_, b, rfl, rfl, hparked,
        hr.onFile.of_sameFile (ChunkReader.sameFile_ask r (.seek a))⟩
  | @stayed _ request _ hrequest ih =>
      obtain ⟨r, b, rfl, rfl, hparked, hr⟩ := ih
      rw [ChunkReader.ask_handle]
      refine ⟨_, b, rfl, rfl, ?_, hr.of_sameFile (ChunkReader.sameFile_ask r request)⟩
      exact hparked.run b.codec d fun a (ha : Operation.ask request = .ask (.seek a)) => by
        cases ha
        exact absurd hrequest id
  | @loaded _ _ _ request _ hrequest hloads ih =>
      obtain ⟨r, b, rfl, rfl, hr⟩ := ih
      rw [ChunkReader.ask_handle]
      exact ⟨_, b, rfl, rfl, (hr.ask hrequest).1 fun e hfails => hloads ⟨e, hfails⟩⟩
  | @failed _ _ _ request _ hfails ih =>
      obtain ⟨r, b, rfl, rfl, hr⟩ := ih
      obtain ⟨e, hfails⟩ := hfails
      rw [ChunkReader.ask_handle]
      exact ⟨_, b, rfl, rfl, (hr.ask hfails.sequential).2 e hfails⟩

end TraceStore
