import TraceStore.Proofs.Chunk.Writer
import TraceStore.Proofs.Disk.Places

/-!
# The rounds of a write

Writing fills the pending chunk and emits it when it is full, over and over, until all bytes are
taken in or a chunk is not emitted. This loop has no bound of its own: `ChunkWriter.Writes` is what
it comes to, with what each attempt to emit a chunk came to. It ends for all bytes, also where it
starts with a chunk that is full and takes nothing in at first: `ChunkWriter.exists_performs`.
-/
namespace TraceStore

variable {σ : Type} {c : Codec σ} {o : WriteOptions}

/-- What an attempt to emit the pending chunk comes to: nothing is pending any more, or the codec
refuses the chunk, or the file takes only part of it or none. -/
inductive Emission
  | done
  | refused
  | broken
deriving DecidableEq

namespace ChunkWriter

/-! ### Attempts to emit a chunk -/

/-- What emitting the pending chunk comes to. -/
def emission (c : Codec σ) (o : WriteOptions) (memory : σ) (w : ChunkWriter) (d : Disk) :
    Emission :=
  if (w.emit c o memory d).result.isOk then .done
  else
    match (c.compress o w.cache memory).1 with
    | .ok block => if 2 ^ 32 ≤ block.size then .refused else .broken
    | .error _ => .refused

/-- What an attempt to emit the pending chunk of `w` leaves. If the file breaks off, it may have
taken the header of the chunk. -/
inductive Attempt (w : ChunkWriter) : Emission → Except Error Unit → ChunkWriter → Prop
  | idle : w.cache.size = 0 → Attempt w .done (.ok ()) w
  | done {sink : FileWriter} {block : ByteArray} :
      sink.handed = w.sink.handed + chunkHeaderSize + block.size →
      Attempt w .done (.ok ()) ⟨sink, w.written + chunkHeaderSize + block.size, .empty⟩
  | refused {e : Error} : Attempt w .refused (.error e) w
  | broken {e : Error} {sink : FileWriter} : w.sink.handed ≤ sink.handed →
      sink.handed ≤ w.sink.handed + chunkHeaderSize →
      Attempt w .broken (.error e) { w with sink }

variable {w : ChunkWriter} {memory : σ} {d : Disk}

theorem attempt_emit (c : Codec σ) (o : WriteOptions) (memory : σ) (w : ChunkWriter) (d : Disk) :
    Attempt w (w.emission c o memory d) (w.emit c o memory d).result
      (w.emit c o memory d).state.2 := by
  by_cases hempty : w.cache.size = 0
  · rw [emission, emit_of_empty hempty]
    exact .idle hempty
  have hpending : ¬ w.cache.isEmpty = true := fun h => hempty (isEmpty_iff.1 h)
  rw [emission, emit, if_neg hpending]
  rcases hcompress : c.compress o w.cache memory with ⟨e | block, memory'⟩
  · exact .refused
  by_cases hlong : 2 ^ 32 ≤ block.size
  · simp only [if_pos hlong]
    exact .refused
  simp only [if_neg hlong]
  -- The file takes the header and then the block, each of them whole or not at all.
  have hheader := w.sink.handed_write d (LittleEndian.bytes 4 block.size)
  have hsize : (LittleEndian.bytes 4 block.size).size = chunkHeaderSize := by
    rw [← length_toList, LittleEndian.toList_bytes, LittleEndian.length_encode]
    rfl
  rw [hsize] at hheader
  rcases hwrite : w.sink.write (LittleEndian.bytes 4 block.size) d with ⟨e | _, sink₁, d₁⟩
  · rw [hwrite] at hheader
    replace hheader : sink₁.handed = w.sink.handed := hheader
    have hle : sink₁.handed ≤ w.sink.handed + chunkHeaderSize := by omega
    exact .broken (Nat.le_of_eq hheader.symm) hle
  · rw [hwrite] at hheader
    replace hheader : sink₁.handed = w.sink.handed + chunkHeaderSize := hheader
    have hbody := sink₁.handed_write d₁ block
    dsimp only
    rcases hwrite' : sink₁.write block d₁ with ⟨e | _, sink₂, d₂⟩
    · rw [hwrite'] at hbody
      replace hbody : sink₂.handed = sink₁.handed := hbody
      have hge : w.sink.handed ≤ sink₂.handed := by omega
      exact .broken hge (Nat.le_of_eq (hbody.trans hheader))
    · rw [hwrite'] at hbody
      replace hbody : sink₂.handed = sink₁.handed + block.size := hbody
      exact .done (by rw [hbody, hheader])

/-- A chunk is emitted iff the attempt succeeds. -/
theorem emission_eq_done_iff :
    w.emission c o memory d = .done ↔ (w.emit c o memory d).result = .ok () := by
  have h := attempt_emit c o memory w d
  generalize w.emission c o memory d = emission at h ⊢
  generalize (w.emit c o memory d).result = result at h ⊢
  generalize (w.emit c o memory d).state.2 = w' at h
  cases h <;> simp

/-- Nothing is pending once a chunk has been emitted. -/
theorem Attempt.size_eq {w' : ChunkWriter} {result : Except Error Unit}
    (h : Attempt w .done result w') : w'.cache.size = 0 := by
  cases h with
  | idle hempty => exact hempty
  | done => rfl

/-! ### The loop -/

/-- The place in `bytes` up to which a round takes them in: as many as the pending chunk has room
for. -/
def stop (o : WriteOptions) (bytes : ByteArray) (start : Nat) (w : ChunkWriter) : Nat :=
  start + min (o.chunkSize.toNat - w.cache.size) (bytes.size - start)

/-- The loop that writes the bytes from `start` on: what its attempts to emit a chunk come to, and
what it comes to itself. In no round is the pending chunk longer than a chunk may be, so that the
room that is left is never less than nothing. -/
inductive Writes (c : Codec σ) (o : WriteOptions) (bytes : ByteArray) : Nat → σ → ChunkWriter →
    Disk → List Emission → Outcome (σ × ChunkWriter) Unit → Prop
  | all {start : Nat} {memory : σ} {w : ChunkWriter} {d : Disk} : bytes.size ≤ start →
      Writes c o bytes start memory w d [] ⟨.ok (), (memory, w), d⟩
  | gathered {start : Nat} {memory : σ} {w w₁ : ChunkWriter} {d : Disk} {emissions : List Emission}
      {out : Outcome (σ × ChunkWriter) Unit} : start < bytes.size →
      w.cache.size ≤ o.chunkSize.toNat →
      w₁ = w.gather (bytes.extract start (stop o bytes start w)) →
      w₁.cache.size < o.chunkSize.toNat →
      Writes c o bytes (stop o bytes start w) memory w₁ d emissions out →
      Writes c o bytes start memory w d emissions out
  | emitted {start : Nat} {memory memory' : σ} {w w₁ w' : ChunkWriter} {d d' : Disk}
      {emissions : List Emission} {out : Outcome (σ × ChunkWriter) Unit} : start < bytes.size →
      w.cache.size ≤ o.chunkSize.toNat →
      w₁ = w.gather (bytes.extract start (stop o bytes start w)) →
      o.chunkSize.toNat ≤ w₁.cache.size → w₁.emit c o memory d = ⟨.ok (), (memory', w'), d'⟩ →
      Writes c o bytes (stop o bytes start w) memory' w' d' emissions out →
      Writes c o bytes start memory w d (.done :: emissions) out
  | stopped {start : Nat} {memory : σ} {w w₁ : ChunkWriter} {d : Disk} {e : Error} :
      start < bytes.size → w.cache.size ≤ o.chunkSize.toNat →
      w₁ = w.gather (bytes.extract start (stop o bytes start w)) →
      o.chunkSize.toNat ≤ w₁.cache.size → (w₁.emit c o memory d).result = .error e →
      Writes c o bytes start memory w d [w₁.emission c o memory d] (w₁.emit c o memory d)

variable {bytes : ByteArray} {start : Nat}

theorem size_gather (h : w.cache.size ≤ o.chunkSize.toNat) (hstart : start < bytes.size) :
    (w.gather (bytes.extract start (stop o bytes start w))).cache.size + start =
        w.cache.size + stop o bytes start w ∧
      (w.gather (bytes.extract start (stop o bytes start w))).cache.size ≤ o.chunkSize.toNat := by
  simp only [gather, stop, ByteArray.size_append, ByteArray.size_extract]
  omega

theorem Writes.unique {emissions emissions' : List Emission}
    {out out' : Outcome (σ × ChunkWriter) Unit}
    (h : Writes c o bytes start memory w d emissions out)
    (h' : Writes c o bytes start memory w d emissions' out') :
    emissions = emissions' ∧ out = out' := by
  induction h generalizing emissions' out' with
  | all hend =>
      cases h' with
      | all => exact ⟨rfl, rfl⟩
      | gathered hmore => omega
      | emitted hmore => omega
      | stopped hmore => omega
  | gathered hmore _ hw hlt _ ih =>
      subst hw
      cases h' with
      | all hend => omega
      | gathered _ _ hw' _ hrest =>
          subst hw'
          exact ih hrest
      | emitted _ _ hw' hfull =>
          subst hw'
          omega
      | stopped _ _ hw' hfull =>
          subst hw'
          omega
  | emitted hmore _ hw hfull hemit _ ih =>
      subst hw
      cases h' with
      | all hend => omega
      | gathered _ _ hw' hlt =>
          subst hw'
          omega
      | emitted _ _ hw' _ hemit' hrest =>
          subst hw'
          cases hemit.symm.trans hemit'
          obtain ⟨rfl, rfl⟩ := ih hrest
          exact ⟨rfl, rfl⟩
      | stopped _ _ hw' _ hfailed =>
          subst hw'
          rw [hemit] at hfailed
          cases hfailed
  | stopped hmore _ hw hfull hfailed =>
      subst hw
      cases h' with
      | all hend => omega
      | gathered _ _ hw' hlt =>
          subst hw'
          omega
      | emitted _ _ hw' _ hemit =>
          subst hw'
          rw [hemit] at hfailed
          cases hfailed
      | stopped _ _ hw' =>
          subst hw'
          exact ⟨rfl, rfl⟩

/-- A round takes bytes in, except that a chunk that is full when the loop starts leaves no room. -/
theorem exists_writes (hchunk : 0 < o.chunkSize.toNat) (h : w.cache.size ≤ o.chunkSize.toNat)
    (bytes : ByteArray) (memory : σ) (d : Disk) :
    ∃ emissions, Writes c o bytes 0 memory w d emissions (w.write c o bytes memory d) := by
  suffices ∀ fuel start memory w d, w.cache.size ≤ o.chunkSize.toNat → bytes.size - start ≤ fuel →
      (o.chunkSize.toNat ≤ w.cache.size → bytes.size - start < fuel) →
      ∃ emissions, Writes c o bytes start memory w d emissions
        (writeWithin c o bytes fuel start memory w d) from
    this (bytes.size + 1) 0 memory w d h (by omega) (by omega)
  intro fuel
  induction fuel with
  | zero =>
      intro start memory w d _ hfuel _
      exact ⟨[], .all (by omega)⟩
  | succ fuel ih =>
      intro start memory w d hw hfuel hfull
      rw [writeWithin]
      split
      case isTrue hend => exact ⟨[], .all hend⟩
      case isFalse hmore =>
        have hmore := Nat.not_le.1 hmore
        obtain ⟨w₁, hw₁⟩ : ∃ w₁, w₁ = w.gather (bytes.extract start (stop o bytes start w)) :=
          ⟨_, rfl⟩
        obtain ⟨hsize, hle⟩ := size_gather hw hmore
        rw [← hw₁] at hsize hle
        have hstop : stop o bytes start w =
          start + min (o.chunkSize.toNat - w.cache.size) (bytes.size - start) := rfl
        extract_lets next w₂
        obtain rfl : w₂ = w₁ := hw₁.symm
        split
        case isTrue hlt =>
          obtain ⟨emissions, hwrites⟩ := ih next memory w₂ d hle (by omega) (by omega)
          exact ⟨emissions, .gathered hmore hw hw₁ hlt hwrites⟩
        case isFalse hlt =>
          have hlong := Nat.not_lt.1 hlt
          split
          case h_1 e state d' hemit =>
            have hfailed : (w₂.emit c o memory d).result = .error e := by rw [hemit]
            have hwrites := Writes.stopped hmore hw hw₁ hlong hfailed
            rw [hemit] at hwrites
            exact ⟨_, hwrites⟩
          case h_2 memory' w' d' hemit =>
            have hempty : w'.cache.size = 0 := by
              have hdone : w₂.emission c o memory d = .done :=
                emission_eq_done_iff.2 (by rw [hemit])
              have hattempt := attempt_emit c o memory w₂ d
              rw [hdone, hemit] at hattempt
              exact hattempt.size_eq
            obtain ⟨emissions, hwrites⟩ := ih next memory' w' d' (by omega) (by omega) (by omega)
            exact ⟨.done :: emissions, .emitted hmore hw hw₁ hlong hemit hwrites⟩

/-! ### Requests -/

/-- What a request to a writer comes to, with what its attempts to emit a chunk come to. -/
inductive Performs (c : Codec σ) (o : WriteOptions) : WriteRequest → σ × ChunkWriter → Disk →
    List Emission → Outcome (σ × ChunkWriter) Unit → Prop
  | write {bytes : ByteArray} {memory : σ} {w : ChunkWriter} {d : Disk}
      {emissions : List Emission} {out : Outcome (σ × ChunkWriter) Unit} :
      Writes c o bytes 0 memory w d emissions out →
      Performs c o (.write bytes) (memory, w) d emissions out
  | flush {memory : σ} {w : ChunkWriter} {d : Disk} :
      Performs c o .flush (memory, w) d [w.emission c o memory d] (w.flush c o memory d)

/-- A request ends, and comes to one thing only. -/
theorem exists_performs (hchunk : 0 < o.chunkSize.toNat) (h : w.cache.size ≤ o.chunkSize.toNat)
    (request : WriteRequest) (memory : σ) (d : Disk) :
    ∃ emissions, ∀ emissions' out, Performs c o request (memory, w) d emissions' out ↔
      emissions' = emissions ∧ out = perform c o request (memory, w) d := by
  cases request with
  | write bytes =>
      obtain ⟨emissions, hwrites⟩ := exists_writes (c := c) hchunk h bytes memory d
      refine ⟨emissions, fun emissions' out => ⟨fun hperforms => ?_, ?_⟩⟩
      · cases hperforms with
        | write hwrites' =>
            obtain ⟨rfl, rfl⟩ := hwrites'.unique hwrites
            exact ⟨rfl, rfl⟩
      · rintro ⟨rfl, rfl⟩
        exact .write hwrites
  | flush =>
      refine ⟨[w.emission c o memory d], fun emissions' out => ⟨fun hperforms => ?_, ?_⟩⟩
      · cases hperforms
        exact ⟨rfl, rfl⟩
      · rintro ⟨rfl, rfl⟩
        exact .flush

end ChunkWriter
end TraceStore
