import TraceStore.Proofs.Chunk.Writer

/-!
# Writing with a codec that refuses chunks

Any request to a writer may fail because the codec refuses a chunk, and the writer may be used on
after that. The bytes that were taken in lie in the chunks emitted and in the pending chunk, in
order, at every moment: `ChunkWriter.Accounts`. Only a pending chunk that is refused once more when
the writer ends is missing in the file: `Chunked.keeps_accepted`.
-/
namespace TraceStore

variable {σ : Type} {c : Codec σ} {o : WriteOptions}

/-- The frame of a chunk that the codec made a block of, unless it refused the chunk. -/
def frameMade : Except Error ByteArray → List UInt8
  | .error _ => []
  | .ok block => if 2 ^ 32 ≤ block.size then [] else frameOf block

/-- The frame that a writer adds when it ends: that of the pending chunk, if anything is pending and
the codec does not refuse it. -/
def Codec.lastFrame (c : Codec σ) (o : WriteOptions) (pending : ByteArray) (memory : σ) : List UInt8 :=
  if pending.isEmpty then [] else frameMade (c.compress o pending memory).1

namespace ChunkWriter

/-- The bytes that are pending after some turns, if there were `pending` before. -/
def Turn.pendingAfter (pending : ByteArray) (turns : List (Turn c o)) : ByteArray :=
  turns.foldl (fun _ turn => turn.pending) pending

/-- What a writer has made, in some turns, of the bytes that it took in. -/
structure Accounts (turns : List (Turn c o)) (w : ChunkWriter) : Prop where
  kept : Emitted.contents (turns.flatMap (·.emitted)) ++ w.cache.data.toList =
    turns.flatMap (·.accepted)
  written_eq : w.written = 2 + (Emitted.frames (turns.flatMap (·.emitted))).length
  cache_eq : w.cache = Turn.pendingAfter .empty turns
  cache_le : w.cache.size ≤ o.chunkSize.toNat

variable {d₀ d : Disk} {id : Nat} {chunks : List (Emitted c o)} {w : ChunkWriter}

namespace Emits

/-- When a writer ends, nothing is missing in its file but a pending chunk that is refused. -/
theorem finish_eq (h : w.Emits d₀ id chunks d) (memory : σ) :
    (w.finish c o memory d).2 = d₀.setNode id (.file ⟨(c.magicBytes.data.toList ++
      Emitted.frames chunks ++ c.lastFrame o w.cache memory).toArray⟩) := by
  by_cases hpending : w.cache.size = 0
  case pos =>
    rw [Codec.lastFrame, if_pos (isEmpty_iff.2 hpending), List.append_nil, ChunkWriter.finish,
      emit_of_empty hpending]
    exact h.wrote.release
  case neg =>
    have hnot : ¬ w.cache.isEmpty = true := fun hempty => hpending (isEmpty_iff.1 hempty)
    obtain ⟨⟨result, memory'⟩, hcompress⟩ : ∃ made, c.compress o w.cache memory = made := ⟨_, rfl⟩
    rw [Codec.lastFrame, if_neg hnot, hcompress]
    cases result with
    | error e =>
        rw [frameMade, List.append_nil, ChunkWriter.finish, ChunkWriter.emit, if_neg hnot, hcompress]
        exact h.wrote.release
    | ok block =>
        by_cases hsize : 2 ^ 32 ≤ block.size
        · rw [ChunkWriter.finish, ChunkWriter.emit, if_neg hnot, hcompress]
          simp only [frameMade, if_pos hsize, List.append_nil]
          exact h.wrote.release
        · obtain ⟨e, w', d', hemit, -, hblock, -, h'⟩ :=
            h.emit_of_compress (Nat.pos_of_ne_zero hpending) hcompress (Nat.not_le.1 hsize)
          simp only [ChunkWriter.finish, hemit, frameMade, if_neg hsize, ChunkWriter.release,
            h'.wrote.release]
          simp [hblock]

/-- Any requests come to turns, each of which goes on from where the last one ended. -/
theorem exists_turns (hchunk : 0 < o.chunkSize.toNat) (path : String) (memory₀ : σ)
    (requests : List WriteRequest) : ∀ {chunks : List (Emitted c o)} {w : ChunkWriter} {d : Disk},
      w.Emits d₀ id chunks d → ∀ memory : σ, ∃ turns : List (Turn c o),
      turns.map (·.request) = requests ∧ ∀ before after, turns = before ++ after →
        ∃ (w' : ChunkWriter) (d' : Disk) (memory' : σ),
          Operation.runAll (before.map (.perform ·.request))
              (handle path (.new c memory₀ o) (memory, w)) d =
            (before.map (.done ·.result), handle path (.new c memory₀ o) (memory', w'), d') ∧
          w'.Emits d₀ id (chunks ++ before.flatMap (·.emitted)) d' ∧
          Emitted.contents (before.flatMap (·.emitted)) ++ w'.cache.data.toList =
            w.cache.data.toList ++ before.flatMap (·.accepted) ∧
          w'.cache = Turn.pendingAfter w.cache before ∧
          ∀ turn ∈ after.head?, turn.Follows w'.cache := by
  induction requests with
  | nil =>
      intro chunks w d h memory
      refine ⟨[], rfl, fun before after hsplit => ?_⟩
      obtain ⟨rfl, rfl⟩ := List.append_eq_nil_iff.1 hsplit.symm
      exact ⟨w, d, memory, rfl, by simpa using h, by simp, rfl, by simp⟩
  | cons request requests ih =>
      intro chunks w d h memory
      obtain ⟨turn, w₁, d₁, memory₁, rfl, hperform, h₁, hfollows, hpending⟩ :=
        h.turn hchunk memory request
      obtain ⟨turns, rfl, hmoments⟩ := ih h₁ memory₁
      refine ⟨turn :: turns, rfl, fun before after hsplit => ?_⟩
      cases before with
      | nil =>
          subst hsplit
          exact ⟨w, d, memory, rfl, by simpa using h, by simp, rfl, by simpa using hfollows⟩
      | cons first before =>
          obtain ⟨rfl, hrest⟩ := List.cons_eq_cons.1 hsplit
          obtain ⟨w', d', memory', hrun, h', hkept, hcache, hnext⟩ := hmoments before after hrest
          refine ⟨w', d', memory', ?_, by simpa using h', ?_, ?_, hnext⟩
          · have hfirst := run_perform_handle path (.new c memory₀ o) (memory, w) d turn.request
            rw [show ChunkWriter.perform (Chunked.new c memory₀ o).codec (Chunked.new c memory₀ o).options
              turn.request (memory, w) d = ⟨turn.result, (memory₁, w₁), d₁⟩ from hperform] at hfirst
            rw [List.map_cons, Operation.runAll, hfirst]
            simp only [hrun]
            rfl
          · rw [List.flatMap_cons, List.flatMap_cons, Emitted.contents_append, List.append_assoc,
              hkept, ← List.append_assoc, ← hpending, hfollows.contents_eq, List.append_assoc]
          · rw [hcache, ← hpending]
            rfl

end Emits
end ChunkWriter

/-- Whatever is requested of a new handle that writes, and whichever requests fail because the codec
refuses a chunk: at every moment the bytes that were taken in lie in the chunks emitted, in order,
and in the pending chunk. Wherever the session ends, the file has exactly those chunks, and the
pending one unless the codec refuses it then. -/
theorem Chunked.keeps_accepted (ho : o.validate = .ok ()) {d : Disk} {path : String}
    (hpath : d.Creatable path) (memory : σ) (requests : List WriteRequest) :
    let b := Chunked.new c memory o
    let opened := (File.new b).open path .write d
    opened.result = .ok () ∧
    ∃ turns : List (ChunkWriter.Turn c o), turns.map (·.request) = requests ∧
      ∀ before after, turns = before ++ after → ∃ (w : σ × ChunkWriter) (d₁ : Disk),
        Operation.runAll (before.map (.perform ·.request)) opened.state opened.disk =
          (before.map (.done ·.result), ChunkWriter.handle path b w, d₁) ∧
        w.2.Accounts before ∧ (∀ turn ∈ after.head?, turn.Follows w.2.cache) ∧
        ∀ d₂, d₂ = ((ChunkWriter.handle path b w).close d₁).2 ∨
            d₂ = (ChunkWriter.handle path b w).release d₁ →
          d₂.contents? path = some ⟨(c.magicBytes.data.toList ++
            Emitted.frames (before.flatMap (·.emitted)) ++
            c.lastFrame o w.2.cache w.1).toArray⟩ := by
  intro b opened
  have hpos := (WriteOptions.chunkSize_of_validate ho).1
  obtain ⟨id, d₀, w₀, d₁, hcreate, hmade, h₀, hempty⟩ :=
    ChunkWriter.create_of_creatable (c := c) ho hpath
  have hopened : opened = ⟨.ok (), ChunkWriter.handle path b (memory, w₀), d₁⟩ := by
    show (File.new b).open path .write d = _
    rw [open_new_write, hmade]
  clear_value opened
  subst hopened
  obtain ⟨turns, hturns, hmoments⟩ := h₀.exists_turns hpos path memory requests memory
  refine ⟨rfl, turns, hturns, fun before after hsplit => ?_⟩
  obtain ⟨w, d', memory', hrun, h, hkept, hcache, hnext⟩ := hmoments before after hsplit
  rw [hempty] at hkept hcache
  refine ⟨(memory', w), d', hrun, ⟨by simpa using hkept, h.written_eq, hcache, h.cache_le⟩, hnext,
    fun d₂ hd₂ => ?_⟩
  have hfinish : d₂ = (w.finish c o memory' d').2 := by
    rcases hd₂ with hclose | hrelease
    · exact hclose.trans (ChunkWriter.close_handle ..)
    · exact hrelease.trans (ChunkWriter.release_handle ..)
  rw [hfinish, h.finish_eq, List.nil_append]
  exact Disk.contents?_setNode (Disk.find?_create hcreate) h.wrote.id_lt

theorem Chunked.keeps_accepted_by_picky :
    let o : WriteOptions := ⟨2, 6, 3⟩
    let b := Chunked.new Codec.picky () o
    let opened := (File.new b).open "t" .write .empty
    let requests : List WriteRequest := [.write ⟨#[1, 2, 3, 0xee, 5]⟩, .flush, .write ⟨#[6]⟩]
    let ran := Operation.runAll (requests.map .perform) opened.state opened.disk
    let refused := Reply.done (.error (.corrupt (.codec "picky compress")))
    ran.1 = [refused, refused, refused] ∧
    (ran.2.1.close ran.2.2).2.contents? "t" = some ⟨#[0x70, 0x6b, 2, 0, 0, 0, 1, 2]⟩ ∧
    ∃ (turns : List (ChunkWriter.Turn Codec.picky o)) (w : Unit × ChunkWriter),
      turns.map (·.request) = requests ∧ ran.1 = turns.map (.done ·.result) ∧
      ran.2.1 = ChunkWriter.handle "t" b w ∧ w.2.Accounts turns := by
  intro o b opened requests ran refused
  have hpath : Disk.empty.Creatable "t" := ⟨2, _, rfl, rfl⟩
  have hreplies : ran.1 = [refused, refused, refused] := by decide +kernel
  refine ⟨hreplies, by decide +kernel, ?_⟩
  obtain ⟨-, turns, hturns, hmoments⟩ :=
    keeps_accepted (c := Codec.picky) (o := o) rfl hpath () requests
  obtain ⟨w, d₁, hrun, haccounts, -, -⟩ := hmoments turns [] (List.append_nil turns).symm
  have hran : ran = (turns.map (.done ·.result), ChunkWriter.handle "t" b w, d₁) := by
    rw [← hrun]
    show Operation.runAll (requests.map .perform) _ _ = _
    rw [← hturns, List.map_map]
    rfl
  exact ⟨turns, w, hturns, by rw [hran], by rw [hran], haccounts⟩

end TraceStore
