import TraceStore.Proofs.Stream.Cut
import TraceStore.Proofs.Trace

/-!
# Traces beside others

A trace that is created at one path, and whatever is then written to it, leaves the files at other
paths as they are: `Trace.spares_of_openForWrite`.
-/
namespace TraceStore

variable {o : WriteOptions} {d d' : Disk} {path : String} {other : Nat}

/-- What was made of a path by a writer of chunks that was created there. -/
private theorem ChunkWriter.advances_create {σ : Type} {c : Codec σ} {w : ChunkWriter}
    (h : create c o path d = .ok (w, d')) :
    ∃ id d₁, d.create path = .ok (id, d₁) ∧ (FileWriter.start id).Advances d₁ w.sink d' := by
  obtain ⟨-, id, hcreate, rfl⟩ := create_ok_iff.1 h
  exact ⟨id, d', hcreate, rfl, Nat.le_refl _, fun _ _ => rfl, rfl, fun hend => ⟨hend, .refl ..⟩⟩

/-- A chunked trace and its disk leave a node as it is. -/
theorem Chunked.spares_of_open {σ : Type} {c : Codec σ} {memory : σ} {f : File (Chunked σ)}
    (hopen : (File.new (new c memory o)).open path .write d = ⟨.ok (), f, d'⟩)
    (hother : other < d.nodes.size) (hne : d.find? path ≠ some other) :
    d'.node? other = d.node? other ∧ WriteRequest.Spares File.perform other f d' := by
  rw [open_new_write] at hopen
  split at hopen
  · cases (Outcome.mk.inj hopen).1
  case h_2 w d₂ hwriter =>
    obtain ⟨-, rfl, rfl⟩ := Outcome.mk.inj hopen
    obtain ⟨id, d₁, hcreate, hmagic⟩ := ChunkWriter.advances_create hwriter
    obtain ⟨hsame, hnode⟩ := Disk.node?_of_create hcreate hother hne
    have hspares : WriteRequest.Spares (ChunkWriter.perform c o) other (memory, w) d₂ :=
      WriteRequest.spares_of_advances (fun w => w.2.sink) (ChunkWriter.advances_perform c o)
        (by rw [hmagic.node_eq]; exact hnode)
    exact ⟨(hmagic.same other hnode).trans hsame,
      hspares.mapState (ChunkWriter.handle path (new c memory o))
        fun request w d => ChunkWriter.perform_handle path (new c memory o) w d request⟩

/-- A gzip trace and its disk leave a node as it is. -/
theorem Streamed.spares_of_open {δ ε : Type} [StreamDecoder δ] [StreamEncoder ε]
    (hspares : StreamEncoder.SparesOthers ε)
    {f : File (Streamed δ ε)} (hopen : (File.new (new o)).open path .write d = ⟨.ok (), f, d'⟩)
    (hother : other < d.nodes.size) (hne : d.find? path ≠ some other) :
    d'.node? other = d.node? other ∧ WriteRequest.Spares File.perform other f d' := by
  rw [open_new_write] at hopen
  split at hopen
  · cases (Outcome.mk.inj hopen).1
  · cases (Outcome.mk.inj hopen).1
  case h_3 id d₁ _ hcreate =>
    obtain ⟨-, rfl, rfl⟩ := Outcome.mk.inj hopen
    obtain ⟨hsame, hnode⟩ := Disk.node?_of_create hcreate hother hne
    exact ⟨hsame, (hspares o d₁ id other hnode).mapState (StreamEncoder.handle path o)
      (StreamEncoder.perform_handle path o)⟩

/-- The traces of a backend that is embedded are those of the backend. -/
private theorem AnyBackend.spares_of_open [Compression] {β : Type} [Backend β] {g : β → AnyBackend}
    (hg : Backend.Embeds g) {b : β}
    (hspares : ∀ f d', (File.new b).open path .write d = ⟨.ok (), f, d'⟩ →
      d'.node? other = d.node? other ∧ WriteRequest.Spares File.perform other f d')
    {t : Trace} (hopen : (File.new (g b)).open path .write d = ⟨.ok (), t, d'⟩) :
    d'.node? other = d.node? other ∧ WriteRequest.Spares File.perform other t d' := by
  obtain ⟨f, rfl, hopened⟩ := File.exists_open_of_map hg hopen
  obtain ⟨hsame, hf⟩ := hspares f d' hopened
  exact ⟨hsame, hf.mapState (File.map g) fun request f d => File.perform_map hg f d request⟩

/-- A trace that is created at another path than that of a node leaves the node as it is, and so
does everything that is then written to it. -/
theorem Trace.spares_of_openForWrite [Compression]
    (hspares : StreamEncoder.SparesOthers Compression.Encoder)
    {format : Format} {t : Trace} (hopen : openForWrite path format o d = .ok (t, d'))
    (hother : other < d.nodes.size) (hne : d.find? path ≠ some other) :
    d'.node? other = d.node? other ∧ WriteRequest.Spares File.perform other t d' := by
  rw [openForWrite_eq_ok, AnyBackend.ofFormat] at hopen
  cases hcodec : format.codec? with
  | some c =>
      rw [hcodec] at hopen
      exact AnyBackend.spares_of_open AnyBackend.embeds_chunked
        (fun f d' hf => Chunked.spares_of_open hf hother hne) hopen
  | none =>
      rw [hcodec] at hopen
      exact AnyBackend.spares_of_open AnyBackend.embeds_gzip
        (fun f d' hf => Streamed.spares_of_open hspares hf hother hne) hopen

end TraceStore
