import TraceStore.Proofs.Chunk.Refusal

/-!
# How a stream is split into chunks

The chunks of a file depend on the bytes written and on the places of the flushes among them: every
part of the stream between two flushes is cut into full chunks and a shorter rest. How the bytes
were handed over in requests does not matter: `Chunked.file_of_stream`.
-/
namespace TraceStore

/-! ### Cutting -/

/-- Cuts bytes into pieces of `n`; the last may be shorter, and none is empty. -/
def cut (n : Nat) (s : List UInt8) : List (List UInt8) :=
  if 0 < n ∧ 0 < s.length then s.take n :: cut n (s.drop n) else []
termination_by s.length
decreasing_by
  rw [List.length_drop]
  omega

variable {n : Nat}

@[simp] theorem cut_nil : cut n [] = [] := by simp [cut]

theorem cut_append {full : List UInt8} (hn : 0 < n) (hfull : full.length = n) (s : List UInt8) :
    cut n (full ++ s) = full :: cut n s := by
  rw [cut, if_pos ⟨hn, by rw [List.length_append]; omega⟩, List.take_left' hfull,
    List.drop_left' hfull]

/-- Full pieces at the front are cut off as they are. -/
theorem cut_flatten_append {fulls : List (List UInt8)} (hn : 0 < n)
    (hfulls : ∀ full ∈ fulls, full.length = n) (s : List UInt8) :
    cut n (fulls.flatten ++ s) = fulls ++ cut n s := by
  induction fulls with
  | nil => rfl
  | cons full fulls ih =>
      rw [List.flatten_cons, List.append_assoc, cut_append hn (hfulls full (by simp)),
        ih fun full hfull => hfulls full (by simp [hfull]), List.cons_append]

theorem cut_of_le {s : List UInt8} (hs : 0 < s.length) (hle : s.length ≤ n) : cut n s = [s] := by
  rw [cut, if_pos ⟨by omega, hs⟩, List.take_of_length_le hle, List.drop_of_length_le hle, cut_nil]

/-- No piece is empty or longer than `n`. -/
theorem length_of_mem_cut {s piece : List UInt8} (h : piece ∈ cut n s) :
    0 < piece.length ∧ piece.length ≤ n := by
  fun_induction cut n s with
  | case1 s hs ih =>
      rcases List.mem_cons.1 h with rfl | h
      · rw [List.length_take]
        omega
      · exact ih h
  | case2 => cases h

/-! ### Segments -/

namespace WriteRequest

/-- The parts of the stream between the flushes, if it starts with `s`. -/
def segments : List WriteRequest → List UInt8 → List (List UInt8)
  | [], s => [s]
  | write bytes :: requests, s => segments requests (s ++ bytes.data.toList)
  | flush :: requests, s => s :: segments requests []

/-- The chunks that some requests make of a stream, if it starts with `s`. -/
def pieces (n : Nat) (requests : List WriteRequest) (s : List UInt8) : List (List UInt8) :=
  (segments requests s).flatMap (cut n)

theorem pieces_flush (requests : List WriteRequest) (s : List UInt8) :
    pieces n (flush :: requests) s = cut n s ++ pieces n requests [] := by
  rw [pieces, segments, List.flatMap_cons]
  rfl

/-- Full chunks at the front of a stream stay as they are, whatever is requested. -/
theorem pieces_flatten_append {fulls : List (List UInt8)} (hn : 0 < n)
    (hfulls : ∀ full ∈ fulls, full.length = n) (requests : List WriteRequest) (s : List UInt8) :
    pieces n requests (fulls.flatten ++ s) = fulls ++ pieces n requests s := by
  induction requests generalizing s with
  | nil => simp [pieces, segments, cut_flatten_append hn hfulls]
  | cons request requests ih =>
      cases request with
      | write bytes =>
          have hrest := ih (s ++ bytes.data.toList)
          rwa [← List.append_assoc] at hrest
      | flush => simp [pieces, segments, cut_flatten_append hn hfulls]

theorem flatten_segments (requests : List WriteRequest) (s : List UInt8) :
    (segments requests s).flatten = s ++ written requests := by
  induction requests generalizing s with
  | nil => simp [segments]
  | cons request requests ih =>
      cases request with
      | write bytes => simp [segments, ih, WriteRequest.bytes]
      | flush => simp [segments, ih, WriteRequest.bytes]

/-- Writes that are flushed at their end only make the chunks that all of their bytes are cut into. -/
theorem pieces_writes (writes : List ByteArray) :
    pieces n (writes.map write ++ [flush]) [] = cut n (written (writes.map write)) := by
  have hone : ∀ s, segments (writes.map write ++ [flush]) s =
      [s ++ written (writes.map write), []] := by
    induction writes with
    | nil => simp [segments]
    | cons bytes writes ih => simp [segments, ih, WriteRequest.bytes]
  rw [pieces, hone]
  simp

/-- Whether there is a flush at a place of the stream. -/
def FlushedAt (requests : List WriteRequest) (p : Nat) : Prop :=
  ∃ before after, requests = before ++ flush :: after ∧ (written before).length = p

@[simp] theorem not_flushedAt_nil {p : Nat} : ¬ FlushedAt [] p := by
  rintro ⟨before, after, hsplit, -⟩
  cases before <;> cases hsplit

theorem flushedAt_cons {request : WriteRequest} {requests : List WriteRequest} {p : Nat} :
    FlushedAt (request :: requests) p ↔
      (request = flush ∧ p = 0) ∨ ∃ q, p = request.bytes.length + q ∧ FlushedAt requests q := by
  constructor
  · rintro ⟨before, after, hsplit, rfl⟩
    cases before with
    | nil => exact .inl ⟨(List.cons_eq_cons.1 hsplit).1, rfl⟩
    | cons first before =>
        obtain ⟨rfl, hrest⟩ := List.cons_eq_cons.1 hsplit
        exact .inr ⟨_, by simp, before, after, hrest, rfl⟩
  · rintro (⟨rfl, rfl⟩ | ⟨q, rfl, before, after, rfl, rfl⟩)
    · exact ⟨[], requests, rfl, rfl⟩
    · exact ⟨request :: before, after, rfl, by simp⟩

end WriteRequest

/-! ### The places of the flushes determine the segments -/

/-- Whether one of the segments that make up a stream ends at a place. -/
def EndsAt : List (List UInt8) → Nat → Prop
  | [], _ => False
  | s :: rest, p => p = s.length ∨ ∃ q, p = s.length + q ∧ EndsAt rest q

namespace EndsAt

variable {segments segments' : List (List UInt8)} {s s' : List UInt8} {p : Nat}

theorem pos (hne : ∀ s ∈ segments, s ≠ []) (h : EndsAt segments p) : 0 < p := by
  cases segments with
  | nil => exact h.elim
  | cons s rest =>
      have hs := List.length_pos_iff.2 (hne s (by simp))
      rcases h with rfl | ⟨q, rfl, -⟩ <;> omega

theorem first_le (h : EndsAt (s :: segments) p) : s.length ≤ p := by
  rcases h with rfl | ⟨q, rfl, -⟩ <;> omega

/-- A segment that ends behind the first one is a segment of the rest. -/
theorem of_cons (h : EndsAt (s :: segments) (s.length + p)) (hp : 0 < p) : EndsAt segments p := by
  rcases h with h | ⟨q, h, hq⟩
  · omega
  · obtain rfl : p = q := by omega
    exact hq

/-- Segments without an empty one are determined by the stream and the places where they end. -/
theorem ext (hne : ∀ s ∈ segments, s ≠ []) (hne' : ∀ s ∈ segments', s ≠ [])
    (hstream : segments.flatten = segments'.flatten)
    (hends : ∀ p, EndsAt segments p ↔ EndsAt segments' p) : segments = segments' := by
  induction segments generalizing segments' with
  | nil =>
      cases segments' with
      | nil => rfl
      | cons s' rest' => exact absurd ((hends s'.length).2 (.inl rfl)) id
  | cons s rest ih =>
      cases segments' with
      | nil => exact absurd ((hends s.length).1 (.inl rfl)) id
      | cons s' rest' =>
          have hlen : s.length = s'.length :=
            Nat.le_antisymm (first_le ((hends s'.length).2 (.inl rfl)))
              (first_le ((hends s.length).1 (.inl rfl)))
          obtain ⟨rfl, hrest⟩ := List.append_inj hstream hlen
          rw [List.forall_mem_cons] at hne hne'
          rw [ih hne.2 hne'.2 hrest fun p => ?_]
          constructor
          · intro h
            exact of_cons ((hends _).1 (.inr ⟨p, rfl, h⟩)) (pos hne.2 h)
          · intro h
            exact of_cons ((hends _).2 (.inr ⟨p, rfl, h⟩)) (pos hne'.2 h)

/-- Without its empty segments a stream has the same places where segments end, but its start. -/
theorem filter_iff : EndsAt (segments.filter (!·.isEmpty)) p ↔ 0 < p ∧ EndsAt segments p := by
  induction segments generalizing p with
  | nil => simp [EndsAt]
  | cons s rest ih =>
      cases s with
      | nil =>
          rw [List.filter_cons_of_neg (by simp), ih]
          constructor
          · rintro ⟨hp, h⟩
            exact ⟨hp, .inr ⟨p, by simp, h⟩⟩
          · rintro ⟨hp, rfl | ⟨q, rfl, h⟩⟩
            · exact absurd hp (Nat.lt_irrefl 0)
            · rw [List.length_nil, Nat.zero_add] at hp ⊢
              exact ⟨hp, h⟩
      | cons b s =>
          rw [List.filter_cons_of_pos (by simp)]
          constructor
          · rintro (rfl | ⟨q, rfl, h⟩)
            · exact ⟨by simp, .inl rfl⟩
            · exact ⟨by rw [List.length_cons]; omega, .inr ⟨q, rfl, (ih.1 h).2⟩⟩
          · rintro ⟨-, rfl | ⟨q, rfl, h⟩⟩
            · exact .inl rfl
            · cases q with
              | zero => exact .inl rfl
              | succ q => exact .inr ⟨q + 1, rfl, ih.2 ⟨Nat.succ_pos q, h⟩⟩

end EndsAt

namespace WriteRequest

/-- Segments end where there are flushes, and at the end of the stream. -/
theorem endsAt_segments {requests : List WriteRequest} {s : List UInt8} {p : Nat} :
    EndsAt (segments requests s) p ↔ ∃ q, p = s.length + q ∧ FlushedAt (requests ++ [flush]) q := by
  induction requests generalizing s p with
  | nil =>
      have hlast : ∀ q, FlushedAt [flush] q ↔ q = 0 := by
        intro q
        simp [flushedAt_cons]
      simp [segments, EndsAt, hlast]
  | cons request requests ih =>
      rw [List.cons_append]
      cases request with
      | write bytes =>
          rw [segments, ih]
          constructor
          · rintro ⟨q, rfl, h⟩
            exact ⟨bytes.data.toList.length + q, by rw [List.length_append]; omega,
              flushedAt_cons.2 (.inr ⟨q, rfl, h⟩)⟩
          · rintro ⟨q, rfl, h⟩
            rcases flushedAt_cons.1 h with ⟨hflush, -⟩ | ⟨q', rfl, h'⟩
            · cases hflush
            · exact ⟨q', by rw [List.length_append, WriteRequest.bytes]; omega, h'⟩
      | flush =>
          constructor
          · rintro (rfl | ⟨q, rfl, h⟩)
            · exact ⟨0, rfl, flushedAt_cons.2 (.inl ⟨rfl, rfl⟩)⟩
            · obtain ⟨q', rfl, h'⟩ := ih.1 h
              exact ⟨q', by simp, flushedAt_cons.2 (.inr ⟨q', by simp [WriteRequest.bytes], h'⟩)⟩
          · rintro ⟨q, rfl, h⟩
            rcases flushedAt_cons.1 h with ⟨-, rfl⟩ | ⟨q', rfl, h'⟩
            · exact .inl rfl
            · exact .inr ⟨q', by simp [WriteRequest.bytes], ih.2 ⟨q', by simp, h'⟩⟩

/-- Requests that write the same stream and flush it at the same places make the same chunks of it.
A flush at the start of the stream does not matter. -/
theorem pieces_congr {requests requests' : List WriteRequest}
    (hwritten : written requests = written requests')
    (hflushed : ∀ p, 0 < p → (FlushedAt (requests ++ [flush]) p ↔ FlushedAt (requests' ++ [flush]) p)) :
    pieces n requests [] = pieces n requests' [] := by
  have hcut : ∀ segments : List (List UInt8),
      (segments.filter (!·.isEmpty)).flatMap (cut n) = segments.flatMap (cut n) := by
    intro segments
    induction segments with
    | nil => rfl
    | cons s rest ih =>
        cases s with
        | nil => simpa using ih
        | cons b s => simpa using ih
  have hends : ∀ requests p, EndsAt (segments requests []) p ↔ FlushedAt (requests ++ [flush]) p := by
    intro requests p
    simp [endsAt_segments]
  have hsame : (segments requests []).filter (!·.isEmpty) =
      (segments requests' []).filter (!·.isEmpty) := by
    apply EndsAt.ext
    · simp
    · simp
    · simp only [List.flatten_filter_not_isEmpty, flatten_segments, hwritten]
    · intro p
      rw [EndsAt.filter_iff, EndsAt.filter_iff, hends, hends]
      exact and_congr_right (hflushed p)
  rw [pieces, pieces, ← hcut, hsame, hcut]

end WriteRequest

/-! ### The chunks of a session -/

section Session

variable {σ : Type} {c : Codec σ} {o : WriteOptions}

namespace ChunkWriter.Emits

variable {d₀ d d' : Disk} {id : Nat} {chunks : List (Emitted c o)} {w w' : ChunkWriter}
  {memory memory' : σ}

/-- Requests that all succeed have emitted the pieces of the stream, but for a rest that is pending. -/
theorem runAll_pieces (h : w.Emits d₀ id chunks d) (hlt : w.cache.size < o.chunkSize.toNat)
    {requests : List WriteRequest}
    (hrun : WriteRequest.runAll (ChunkWriter.perform c o) requests (memory, w) d =
      ⟨.ok (), (memory', w'), d'⟩) :
    ∃ more : List (Emitted c o), w'.Emits d₀ id (chunks ++ more) d' ∧
      w'.cache.size < o.chunkSize.toNat ∧
      WriteRequest.pieces o.chunkSize.toNat requests w.cache.data.toList =
        more.map (·.data.data.toList) ++ cut o.chunkSize.toNat w'.cache.data.toList := by
  have hchunk := Nat.zero_lt_of_lt hlt
  induction requests generalizing w d memory chunks with
  | nil =>
      obtain ⟨-, hstate, rfl⟩ := Outcome.mk.inj hrun
      obtain ⟨-, rfl⟩ := Prod.mk.inj hstate
      exact ⟨[], by simpa using h, hlt, by simp [WriteRequest.pieces, WriteRequest.segments]⟩
  | cons request requests ih =>
      obtain ⟨t, w₁, d₁, memory₁, rfl, hperform, h₁, hfollows, hpending⟩ :=
        h.turn hchunk memory request
      rw [WriteRequest.runAll, hperform] at hrun
      cases hfollows with
      | @wrote bytes first pending' kept full room =>
          obtain rfl := hpending
          obtain ⟨more, h', hlt', hpieces⟩ := ih h₁ (room (.inl hlt)) hrun
          refine ⟨first ++ more, by simpa using h', hlt', ?_⟩
          show WriteRequest.pieces _ requests (w.cache.data.toList ++ bytes.data.toList) = _
          rw [← kept, Emitted.contents, List.flatMap_def, WriteRequest.pieces_flatten_append hchunk,
            hpieces, List.map_append, List.append_assoc]
          simpa using full
      | stopped => cases hrun
      | idle empty =>
          have hnil := toList_eq_nil_iff.2 empty
          obtain ⟨more, h', hlt', hpieces⟩ := ih h₁ (hpending ▸ hlt) hrun
          refine ⟨more, by simpa using h', hlt', ?_⟩
          rw [← hpending, hnil] at hpieces
          rw [WriteRequest.pieces_flush, hnil, cut_nil, List.nil_append, hpieces]
      | @flushed e data_eq =>
          obtain ⟨more, h', hlt', hpieces⟩ := ih h₁ (hpending ▸ hchunk) hrun
          refine ⟨e :: more, by simpa using h', hlt', ?_⟩
          rw [← hpending] at hpieces
          rw [WriteRequest.pieces_flush, ← data_eq, cut_of_le (by simpa using e.data_pos)
            (by simpa using e.data_le)]
          exact congrArg (e.data.data.toList :: ·) hpieces
      | unflushed => cases hrun

end ChunkWriter.Emits

/-- The block of a chunk is what the codec makes of it, if that is a function. -/
theorem Emitted.eq_of_function {f : ByteArray → Except Error ByteArray}
    (hf : ∀ data memory, (c.compress o data memory).1 = f data) (e : Emitted c o) :
    f e.data = .ok e.block := by
  obtain ⟨memory, memory', hcompress⟩ := e.compress_eq
  rw [← hf e.data memory, hcompress]

/-- What a codec whose blocks are a function of the chunks makes of a stream that was cut. -/
def framesOf (f : ByteArray → Except Error ByteArray) (pieces : List (List UInt8)) : List UInt8 :=
  pieces.flatMap fun piece => frameMade (f ⟨piece.toArray⟩)

theorem Emitted.frames_eq {f : ByteArray → Except Error ByteArray}
    (hf : ∀ data memory, (c.compress o data memory).1 = f data) (chunks : List (Emitted c o)) :
    frames chunks = framesOf f (chunks.map (·.data.data.toList)) := by
  have hframe : (fun e : Emitted c o => frameOf e.block) = fun e => frameMade (f e.data) := by
    funext e
    rw [e.eq_of_function hf, frameMade, if_neg (Nat.not_le.2 e.size_lt)]
  rw [frames, hframe, framesOf, List.flatMap_map]

/-- The frame that a writer adds when it ends is that of the piece that is pending. -/
private theorem lastFrame_eq {f : ByteArray → Except Error ByteArray}
    (hf : ∀ data memory, (c.compress o data memory).1 = f data) {pending : ByteArray}
    (hle : pending.size ≤ o.chunkSize.toNat) (memory : σ) :
    c.lastFrame o pending memory = framesOf f (cut o.chunkSize.toNat pending.data.toList) := by
  rw [Codec.lastFrame]
  split
  case isTrue hempty =>
    rw [toList_eq_nil_iff.2 (isEmpty_iff.1 hempty), cut_nil]
    rfl
  case isFalse hpending =>
    have hpos : 0 < pending.size := Nat.pos_of_ne_zero fun h => hpending (isEmpty_iff.2 h)
    rw [cut_of_le (by simpa using hpos) (by simpa using hle), hf, framesOf, List.flatMap_singleton]

/-- Whether a disk is left by a handle that ends, closed or given up. -/
def Outcome.Leaves (ran : Outcome (File (Chunked σ)) Unit) (d : Disk) : Prop :=
  d = (ran.state.close ran.disk).2 ∨ d = ran.state.release ran.disk

/-- A session: a new handle opens a path for writing and performs requests, up to the first that
fails. -/
def Chunked.record (c : Codec σ) (o : WriteOptions) (memory : σ) (path : String) (d : Disk)
    (requests : List WriteRequest) : Outcome (File (Chunked σ)) Unit :=
  match (File.new (Chunked.new c memory o)).open path .write d with
  | ⟨.error e, f, d⟩ => ⟨.error e, f, d⟩
  | ⟨.ok (), f, d⟩ => WriteRequest.runAll File.perform requests f d

/-- A session that succeeds leaves the frames of the pieces of its stream behind the magic. -/
private theorem Chunked.contents_of_record {f : ByteArray → Except Error ByteArray}
    (hf : ∀ data memory, (c.compress o data memory).1 = f data) (ho : o.validate = .ok ())
    {memory : σ} {path : String} {d d' : Disk} {requests : List WriteRequest}
    (hpath : d.Creatable path) (hok : (record c o memory path d requests).result = .ok ())
    (hd' : (record c o memory path d requests).Leaves d') :
    let pieces := WriteRequest.pieces o.chunkSize.toNat requests []
    d'.contents? path = some ⟨(c.magicBytes.data.toList ++ framesOf f pieces).toArray⟩ ∧
      ∀ piece ∈ pieces.dropLast, ∃ block, f ⟨piece.toArray⟩ = .ok block ∧ block.size < 2 ^ 32 := by
  intro pieces
  have hchunk := (WriteOptions.chunkSize_of_validate ho).1
  obtain ⟨id, d₀, w₀, d₁, hcreate, hmade, h₀, hempty⟩ :=
    ChunkWriter.create_of_creatable (c := c) ho hpath
  have hrecord : record c o memory path d requests =
      (WriteRequest.runAll (ChunkWriter.perform c o) requests (memory, w₀) d₁).mapState
        (ChunkWriter.handle path (.new c memory o)) := by
    rw [record, open_new_write, hmade]
    exact WriteRequest.runAll_mapState (ChunkWriter.handle path (.new c memory o))
      (fun request w d => ChunkWriter.perform_handle path (.new c memory o) w d request) ..
  rw [hrecord] at hok hd'
  obtain ⟨⟨result, ⟨memory', w⟩, d₂⟩, hrun⟩ :
    ∃ ran, WriteRequest.runAll (ChunkWriter.perform c o) requests (memory, w₀) d₁ = ran := ⟨_, rfl⟩
  rw [hrun] at hok hd'
  obtain rfl : result = .ok () := hok
  obtain ⟨more, h, hlt, hpieces⟩ := h₀.runAll_pieces (by rw [hempty]; exact hchunk) hrun
  rw [hempty] at hpieces
  have hfinish : d' = (w.finish c o memory' d₂).2 := by
    rcases hd' with hclose | hrelease
    · exact hclose.trans (ChunkWriter.close_handle ..)
    · exact hrelease.trans (ChunkWriter.release_handle ..)
  constructor
  · have hframes : framesOf f pieces = Emitted.frames more ++ c.lastFrame o w.cache memory' := by
      rw [show pieces = _ from hpieces, framesOf, List.flatMap_append, Emitted.frames_eq hf,
        lastFrame_eq hf h.cache_le]
      rfl
    rw [hfinish, h.finish_eq, List.nil_append, List.append_assoc, ← hframes]
    exact Disk.contents?_setNode (Disk.find?_create hcreate) h.wrote.id_lt
  · -- Only the piece that is pending in the end may have been refused.
    intro piece hpiece
    have hmore : piece ∈ more.map (·.data.data.toList) := by
      rw [show pieces = _ from hpieces] at hpiece
      by_cases hpending : w.cache.size = 0
      · rw [toList_eq_nil_iff.2 hpending, cut_nil, List.append_nil] at hpiece
        exact List.dropLast_subset _ hpiece
      · rwa [cut_of_le (Nat.pos_of_ne_zero hpending) h.cache_le, List.dropLast_concat] at hpiece
    obtain ⟨e, -, rfl⟩ := List.mem_map.1 hmore
    exact ⟨e.block, e.eq_of_function hf, e.size_lt⟩

/-- The file of a session that succeeds depends only on the stream and on the places of the flushes
in it, with a codec whose blocks are a function of the chunks. Behind the magic it has a chunk for
each of the pieces that the parts of the stream between the flushes are cut into. Only the last
piece may be refused, when the session ends, and has no chunk then. -/
theorem Chunked.file_of_stream {f : ByteArray → Except Error ByteArray}
    (hf : ∀ data memory, (c.compress o data memory).1 = f data) (ho : o.validate = .ok ()) :
    (∀ (memory : σ) (path : String) (d d' : Disk) (requests : List WriteRequest),
      let ran := record c o memory path d requests
      let pieces := WriteRequest.pieces o.chunkSize.toNat requests []
      d.Creatable path → ran.result = .ok () → ran.Leaves d' →
      d'.contents? path = some ⟨(c.magicBytes.data.toList ++ framesOf f pieces).toArray⟩ ∧
      (∀ piece ∈ pieces, 0 < piece.length ∧ piece.length ≤ o.chunkSize.toNat) ∧
      ∀ piece ∈ pieces.dropLast, ∃ block, f ⟨piece.toArray⟩ = .ok block ∧ block.size < 2 ^ 32) ∧
    ∀ (memory₁ memory₂ : σ) (path₁ path₂ : String) (d₁ d₂ d₁' d₂' : Disk)
      (requests₁ requests₂ : List WriteRequest),
      let ran₁ := record c o memory₁ path₁ d₁ requests₁
      let ran₂ := record c o memory₂ path₂ d₂ requests₂
      d₁.Creatable path₁ → ran₁.result = .ok () → ran₁.Leaves d₁' →
      d₂.Creatable path₂ → ran₂.result = .ok () → ran₂.Leaves d₂' →
      WriteRequest.written requests₁ = WriteRequest.written requests₂ →
      (∀ p, 0 < p → (WriteRequest.FlushedAt (requests₁ ++ [.flush]) p ↔
        WriteRequest.FlushedAt (requests₂ ++ [.flush]) p)) →
      d₁'.contents? path₁ = d₂'.contents? path₂ := by
  constructor
  · intro memory path d d' requests ran pieces hpath hok hd'
    obtain ⟨hcontents, hmade⟩ := contents_of_record hf ho hpath hok hd'
    refine ⟨hcontents, fun piece hpiece => ?_, hmade⟩
    obtain ⟨s, -, hmem⟩ := List.mem_flatMap.1 hpiece
    exact length_of_mem_cut hmem
  · intro memory₁ memory₂ path₁ path₂ d₁ d₂ d₁' d₂' requests₁ requests₂ ran₁ ran₂ hpath₁ hok₁ hd₁
      hpath₂ hok₂ hd₂ hwritten hflushed
    rw [(contents_of_record hf ho hpath₁ hok₁ hd₁).1, (contents_of_record hf ho hpath₂ hok₂ hd₂).1,
      WriteRequest.pieces_congr hwritten hflushed]

theorem Chunked.file_of_stream_plain :
    let o : WriteOptions := ⟨2, 6, 3⟩
    let requests₁ : List WriteRequest := [.write ⟨#[1, 2, 3]⟩, .flush, .write ⟨#[4]⟩, .write ⟨#[5, 6]⟩]
    let requests₂ : List WriteRequest := [.write ⟨#[1]⟩, .write ⟨#[2, 3]⟩, .flush, .flush, .write ⟨#[4, 5, 6]⟩]
    let ran₁ := record Codec.plain o () "t" .empty requests₁
    let ran₂ := record Codec.plain o () "t" .empty requests₂
    let d₁ := (ran₁.state.close ran₁.disk).2
    let d₂ := (ran₂.state.close ran₂.disk).2
    d₁.contents? "t" = d₂.contents? "t" ∧
    d₁.contents? "t" = some ⟨#[0x70, 0x6c, 2, 0, 0, 0, 1, 2, 1, 0, 0, 0, 3, 2, 0, 0, 0, 4, 5,
      1, 0, 0, 0, 6]⟩ := by
  intro o requests₁ requests₂ ran₁ ran₂ d₁ d₂
  have hpath : Disk.empty.Creatable "t" := ⟨2, _, rfl, rfl⟩
  have hf : ∀ data memory, (Codec.plain.compress o data memory).1 = .ok data := fun _ _ => rfl
  obtain ⟨-, hsame⟩ := file_of_stream hf (o := o) rfl
  refine ⟨hsame () () "t" "t" .empty .empty d₁ d₂ requests₁ requests₂ hpath (by decide +kernel) (.inl rfl)
    hpath (by decide +kernel) (.inl rfl) rfl fun p _ => ?_, by decide +kernel⟩
  have hplaces : (∃ q, p = 3 + q ∧ (q = 0 ∨ q = 3)) ↔
      ∃ q, p = 1 + q ∧ ∃ q', q = 2 + q' ∧ (q' = 0 ∨ q' = 3) := by
    constructor
    · rintro ⟨q, rfl, hq⟩
      exact ⟨2 + q, by omega, q, rfl, hq⟩
    · rintro ⟨-, rfl, q, rfl, hq⟩
      exact ⟨q, by omega, hq⟩
  simpa [requests₁, requests₂, WriteRequest.flushedAt_cons, WriteRequest.bytes] using hplaces

end Session
end TraceStore
