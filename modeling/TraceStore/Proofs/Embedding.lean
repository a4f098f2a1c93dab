import TraceStore.Proofs.Operations

/-!
# Backends that stand for others

A backend can be made of another one and do what that one does. A handle over it then answers as a
handle over the other one, whatever is done with it: `Operation.runAll_map`.
-/
namespace TraceStore

/-- A backend of another type that does what a given one does. -/
structure Backend.Embeds {β γ : Type} [Backend β] [Backend γ] (g : β → γ) : Prop where
  format : ∀ b, Backend.format (g b) = Backend.format b
  supportsOffsets : ∀ b, Backend.supportsOffsets (g b) = Backend.supportsOffsets b
  acquire : ∀ path mode b d,
    Backend.acquire path mode (g b) d = (Backend.acquire path mode b d).mapState g
  write : ∀ bytes b d, Backend.write bytes (g b) d = (Backend.write bytes b d).mapState g
  read : ∀ count b d, Backend.read count (g b) d = (Backend.read count b d).map id g
  readSome : ∀ count b d, Backend.readSome count (g b) d = (Backend.readSome count b d).map id g
  getc : ∀ b d, Backend.getc (g b) d = (Backend.getc b d).map id g
  skip : ∀ count b d, Backend.skip count (g b) d = (Backend.skip count b d).map id g
  flush : ∀ b d, Backend.flush (g b) d = (Backend.flush b d).mapState g
  close : ∀ b d, Backend.close (g b) d = (Backend.close b d).map g id
  currentOffset : ∀ b, Backend.currentOffset (g b) = (Backend.currentOffset b).map id g
  setCurrentOffset : ∀ a b d,
    Backend.setCurrentOffset a (g b) d = (Backend.setCurrentOffset a b d).map id g
  percentRead : ∀ b, Backend.percentRead (g b) = (Backend.percentRead b).map id g
  release : ∀ b d, Backend.release (g b) d = Backend.release b d

namespace File

variable {β γ : Type}

/-- The same handle over another backend. -/
def map (g : β → γ) (f : File β) : File γ := ⟨f.filename, f.mode, f.opened, g f.backend⟩

variable {g : β → γ}

theorem check_map (f : File β) (expected : Mode) : (f.map g).check expected = f.check expected :=
  rfl

theorem backend_map (f : File β) : (f.map g).backend = g f.backend := rfl

private theorem reading_map (f : File β) {α : Type} {request : β → Except Error α × β}
    {request' : γ → Except Error α × γ} (h : ∀ b, request' (g b) = (request b).map id g) :
    (f.map g).reading request' = (f.reading request).map id (map g) := by
  rw [reading, reading, check_map]
  cases f.check .read with
  | error e => rfl
  | ok => simp [h, map]

variable [Backend β] [Backend γ] (hg : Backend.Embeds g) (f : File β) (d : Disk)

include hg

theorem format_map : (f.map g).format = f.format := hg.format f.backend

theorem supportsOffsets_map : (f.map g).supportsOffsets = f.supportsOffsets :=
  hg.supportsOffsets f.backend

theorem close_map : (f.map g).close d = (f.close d).map (map g) id := by
  obtain ⟨filename, mode, opened, b⟩ := f
  cases opened with
  | false => rfl
  | true => simp [close, map, hg.close]

theorem release_map : (f.map g).release d = f.release d := by
  rw [release, close_map hg]
  exact hg.release _ _

theorem open_map (path : String) (mode : Mode) :
    (f.map g).open path mode d = (f.open path mode d).mapState (map g) := by
  simp only [File.open, close_map hg, Prod.map]
  rw [backend_map, hg.acquire]
  rfl

omit f d in
/-- What a new handle over another backend opens, one over the backend itself opens. -/
theorem exists_open_of_map {b : β} {path : String} {mode : Mode} {d d' : Disk} {t : File γ}
    (hopen : (File.new (g b)).open path mode d = ⟨.ok (), t, d'⟩) :
    ∃ f, t = f.map g ∧ (File.new b).open path mode d = ⟨.ok (), f, d'⟩ := by
  rw [show File.new (g b) = (File.new b).map g from rfl, open_map hg] at hopen
  generalize (File.new b).open path mode d = opened at hopen
  obtain ⟨result, f, d₁⟩ := opened
  obtain ⟨rfl, rfl, rfl⟩ := Outcome.mk.inj hopen
  exact ⟨f, rfl, rfl⟩

theorem openBound_map : (f.map g).openBound d = (f.openBound d).mapState (map g) :=
  open_map hg f d f.filename f.mode

theorem read_map (count : Nat) : (f.map g).read count d = (f.read count d).map id (map g) :=
  f.reading_map fun b => hg.read count b d

theorem readSome_map (count : Nat) :
    (f.map g).readSome count d = (f.readSome count d).map id (map g) :=
  f.reading_map fun b => hg.readSome count b d

theorem getc_map : (f.map g).getc d = (f.getc d).map id (map g) := by
  rw [getc, getc, check_map]
  cases f.check .read with
  | error e => rfl
  | ok => simp [hg.getc, map]

theorem skip_map (count : Nat) : (f.map g).skip count d = (f.skip count d).map id (map g) :=
  f.reading_map fun b => hg.skip count b d

theorem setCurrentOffset_map (a : Offset) :
    (f.map g).setCurrentOffset a d = (f.setCurrentOffset a d).map id (map g) := by
  refine f.reading_map fun b => ?_
  rw [hg.supportsOffsets]
  split
  · exact hg.setCurrentOffset a b d
  · rfl

theorem currentOffset_map : (f.map g).currentOffset = f.currentOffset.map id (map g) := by
  rw [currentOffset, currentOffset, supportsOffsets_map hg f]
  show (if f.opened && f.supportsOffsets then _ else _) = _
  split
  · simp [hg.currentOffset, map]
  · rfl

theorem percentRead_map : (f.map g).percentRead = f.percentRead.map id (map g) := by
  rw [percentRead, percentRead, check_map]
  cases f.check .read with
  | error e => rfl
  | ok => simp [hg.percentRead, map]

theorem ask_map (request : ReadRequest) :
    (f.map g).ask d request = (f.ask d request).map id (map g) := by
  cases request with
  | read count =>
      rw [ask, ask, read_map hg]
      rfl
  | readSome count =>
      rw [ask, ask, readSome_map hg]
      rfl
  | getc =>
      rw [ask, ask, getc_map hg]
      rfl
  | skip count =>
      rw [ask, ask, skip_map hg]
      rfl
  | seek a =>
      rw [ask, ask, setCurrentOffset_map hg]
      rfl

theorem perform_map (request : WriteRequest) :
    (f.map g).perform request d = (f.perform request d).mapState (map g) := by
  cases request with
  | write bytes =>
      rw [perform, perform, write, write, check_map]
      cases f.check .write with
      | error e => rfl
      | ok =>
          rw [backend_map, hg.write]
          rfl
  | flush =>
      rw [perform, perform, flush, flush, check_map]
      cases f.check .write with
      | error e => rfl
      | ok =>
          rw [backend_map, hg.flush]
          rfl

/-- What is served behind a handle is served behind the same one over another backend. -/
theorem serves_map {s : List UInt8} {f : File β}
    (h : Serves (fun count f => f.readSome count d) (fun count f => f.read count d) s f) :
    Serves (fun count f => f.readSome count d) (fun count f => f.read count d) s (f.map g) :=
  Serves.map (map g) (fun count f => readSome_map hg f d count)
    (fun count f => read_map hg f d count) h

theorem RoundTrips.map {new : WriteOptions → β} {format : Format} {o : WriteOptions} {path : String}
    {d : Disk} {requests : List WriteRequest} (h : RoundTrips new format o path d requests) :
    RoundTrips (fun o => g (new o)) format o path d requests := by
  obtain ⟨f, f', d₁, d₂, d₃, F, hopen, hrun, hclose, hrelease, hcontents, hmagic, hread⟩ := h
  have hnew : ∀ o, File.new (g (new o)) = (File.new (new o)).map g := fun _ => rfl
  refine ⟨f.map g, f'.map g, d₁, d₂, d₃, F, ?_, ?_, ?_, ?_, hcontents, hmagic, fun o' => ?_⟩
  · rw [hnew, open_map hg, hopen]
    rfl
  · rw [WriteRequest.runAll_mapState (File.map g) (fun request f d => perform_map hg f d request),
      hrun]
    rfl
  · rw [close_map hg, Prod.map_snd]
    exact hclose
  · rw [release_map hg]
    exact hrelease
  · obtain ⟨r, hr, hformat, hserves⟩ := hread o'
    refine ⟨r.map g, ?_, ?_, serves_map hg d₃ hserves⟩
    · rw [hnew, open_map hg, hr]
      rfl
    · rw [format_map hg]
      exact hformat

end File

namespace Operation

variable {β γ : Type} [Backend β] [Backend γ] {g : β → γ} (hg : Backend.Embeds g)

include hg

theorem run_map (op : Operation) (f : File β) (d : Disk) :
    op.run (f.map g) d = (op.run f d).map id (Prod.map (File.map g) id) := by
  cases op with
  | «open» filename mode => simp [run, File.open_map hg f, Outcome.mapState]
  | openBound => simp [run, File.openBound_map hg f, Outcome.mapState]
  | ask request => simp [run, File.ask_map hg f]
  | perform request => simp [run, File.perform_map hg f, Outcome.mapState]
  | close => simp [run, File.close_map hg f]
  | currentOffset => simp [run, File.currentOffset_map hg f]
  | percentRead => simp [run, File.percentRead_map hg f]

/-- A handle over a backend that stands for another one does what a handle over that one does. -/
theorem runAll_map (ops : List Operation) (f : File β) (d : Disk) :
    runAll ops (f.map g) d = (runAll ops f d).map id (Prod.map (File.map g) id) := by
  induction ops generalizing f d with
  | nil => rfl
  | cons op ops ih => simp only [runAll, run_map hg, ih, Prod.map, id]

end Operation
end TraceStore
