import TraceStore.Proofs.Blame
import TraceStore.Proofs.Operations

/-!
# What a handle and its backend agree on

A handle keeps in mind whether it is open and for what, and its backend keeps what it has open. The
two agree in every state that a handle gets into, however its operations end and whatever happens to
the disk in between. So no operation finds a backend without what it needs, and errors of misuse
come from the handle alone: `File.agrees_of_reached`.
-/
namespace TraceStore

/-! ### Misuse -/

namespace Reply

/-- The error that a reply tells, if it tells one. -/
def error? : Reply → Option Error
  | done (.error e) | answer (.bytes (.error e)) | answer (.done (.error e)) => some e
  | _ => none

/-- Whether a reply tells an error of misuse. -/
def IsMisuse (reply : Reply) : Prop := ∃ e, reply.error? = some e ∧ e.isMisuse = true

@[simp] theorem isMisuse_done {result : Except Error Unit} :
    (done result).IsMisuse ↔ ¬ Blameless result := by
  cases result <;> simp [IsMisuse, error?]

@[simp] theorem isMisuse_answer_done {result : Except Error Unit} :
    (answer (.done result)).IsMisuse ↔ ¬ Blameless result := by
  cases result <;> simp [IsMisuse, error?]

@[simp] theorem isMisuse_answer_bytes {result : Except Error ByteArray} :
    (answer (.bytes result)).IsMisuse ↔ ¬ Blameless result := by
  cases result <;> simp [IsMisuse, error?]

@[simp] theorem not_isMisuse_byte (result : Option UInt8) : ¬ (answer (.byte result)).IsMisuse := by
  simp [IsMisuse, error?]

@[simp] theorem not_isMisuse_position (a : Offset) : ¬ (position a).IsMisuse := by
  simp [IsMisuse, error?]

@[simp] theorem not_isMisuse_share (percent : Nat) : ¬ (share percent).IsMisuse := by
  simp [IsMisuse, error?]

@[simp] theorem not_isMisuse_closed : ¬ closed.IsMisuse := by simp [IsMisuse, error?]

end Reply

namespace File

variable {β : Type} [Backend β]

/-- What a handle asks for before it does an operation. Bytes are had one by one from a handle that
is not open for reading, there are just none, and flushing one that is not open for writing does
nothing. -/
def Allows (f : File β) : Operation → Prop
  | .ask (.read _) | .ask (.readSome _) | .ask (.skip _) => f.opened = true ∧ f.mode = .read
  | .ask (.seek _) => f.opened = true ∧ f.mode = .read ∧ f.supportsOffsets = true
  | .perform (.write _) => f.opened = true ∧ f.mode = .write
  | _ => True

/-- A handle that can come out of operations on a new one over a backend. The disk may be any other
one each time, as others change it too. -/
inductive Reached (b : β) : File β → Prop
  | bound (filename : String) (mode : Mode) : Reached b (.bound b filename mode)
  | run {f : File β} (op : Operation) (d : Disk) : Reached b f → Reached b (op.run f d).2.1

theorem Reached.open {b : β} {f : File β} (h : Reached b f) (path : String) (mode : Mode)
    (d : Disk) : Reached b (f.open path mode d).state := .run (.open path mode) d h

theorem Reached.performs {b : β} {f : File β} (h : Reached b f) (requests : List WriteRequest)
    (d : Disk) : Reached b (WriteRequest.runAll perform requests f d).state :=
  WriteRequest.runAll_keeps (fun f _ => Reached b f)
    (fun request _ d h => .run (.perform request) d h) requests h

theorem Reached.runAll {b : β} {f : File β} (h : Reached b f) (ops : List Operation) (d : Disk) :
    Reached b (Operation.runAll ops f d).2.1 := by
  induction ops generalizing f d with
  | nil => exact h
  | cons op ops ih => exact ih (.run op d h) _

/-- What a handle agrees on with a backend that has something open for a mode, or nothing. The
errors of misuse are the handle's own, and an operation that needs a mode is refused without a
change of the handle or finds the backend open for it. -/
structure Agrees (f : File β) (held : Option Mode) : Prop where
  reading : held = some .read ↔ f.opened = true ∧ f.mode = .read
  writing : held = some .write ↔ f.opened = true ∧ f.mode = .write
  nothing : held = none ↔ f.opened = false
  misuse : ∀ (op : Operation) (d : Disk), (op.run f d).1.IsMisuse ↔ ¬ f.Allows op
  found : ∀ (op : Operation) (d : Disk) (mode : Mode), op.mode? = some mode →
    (∃ e : Error, e.isMisuse = true ∧ op.run f d = (op.refused e, f, d)) ∨ held = some mode

end File

/-! ### Backends -/

section

variable {β : Type} [Backend β]

/-- Laws of a backend for which `Holds` says what it has open. It is opened with nothing open, and
what is open stays so until it is closed. -/
structure Backend.Lifecycle (Holds : Option Mode → β → Prop) : Prop where
  acquire : ∀ path mode b d, Holds none b →
    Holds (if (Backend.acquire path mode b d).result.isOk then some mode else none)
      (Backend.acquire path mode b d).state
  write : ∀ bytes b d, Holds (some .write) b → Holds (some .write) (Backend.write bytes b d).state
  read : ∀ count b d, Holds (some .read) b → Holds (some .read) (Backend.read count b d).2
  readSome : ∀ count b d, Holds (some .read) b → Holds (some .read) (Backend.readSome count b d).2
  getc : ∀ b d, Holds (some .read) b → Holds (some .read) (Backend.getc b d).2
  skip : ∀ count b d, Holds (some .read) b → Holds (some .read) (Backend.skip count b d).2
  flush : ∀ b d, Holds (some .write) b → Holds (some .write) (Backend.flush b d).state
  close : ∀ mode b d, Holds (some mode) b → Holds none (Backend.close b d).1
  currentOffset : ∀ mode b, Holds (some mode) b → Holds (some mode) (Backend.currentOffset b).2
  setCurrentOffset : ∀ a b d, Holds (some .read) b →
    Holds (some .read) (Backend.setCurrentOffset a b d).2
  percentRead : ∀ b, Holds (some .read) b → Holds (some .read) (Backend.percentRead b).2

/-- A backend that blames nobody, as long as it is used with what it has open only. -/
structure Backend.Blameless (Holds : Option Mode → β → Prop) : Prop where
  acquire : ∀ path mode b d, Holds none b →
    TraceStore.Blameless (Backend.acquire path mode b d).result
  write : ∀ bytes b d, Holds (some .write) b →
    TraceStore.Blameless (Backend.write bytes b d).result
  read : ∀ count b d, Holds (some .read) b → TraceStore.Blameless (Backend.read count b d).1
  readSome : ∀ count b d, Holds (some .read) b →
    TraceStore.Blameless (Backend.readSome count b d).1
  skip : ∀ count b d, Holds (some .read) b → TraceStore.Blameless (Backend.skip count b d).1
  flush : ∀ b d, Holds (some .write) b → TraceStore.Blameless (Backend.flush b d).result
  setCurrentOffset : ∀ a b d, Holds (some .read) b →
    TraceStore.Blameless (Backend.setCurrentOffset a b d).1

end

namespace File

variable {β : Type} [Backend β] {Holds : Option Mode → β → Prop} {f : File β}

/-- Whether the backend has open what the handle says. -/
def Coupled (Holds : Option Mode → β → Prop) (f : File β) : Prop :=
  Holds (if f.opened then some f.mode else none) f.backend

/-- A refusal is misuse where the handle does not allow the operation. -/
theorem isMisuse_refused {op : Operation} (hop : ¬ op.Opens) {e : Error} (he : e.isMisuse = true)
    (h : f.opened = false ∨ ∃ mode, op.mode? = some mode ∧ f.mode ≠ mode) :
    (op.refused e).IsMisuse ↔ ¬ f.Allows op := by
  have hnot : ∀ {mode}, op.mode? = some mode → ¬ (f.opened = true ∧ f.mode = mode) := by
    rintro mode hmode ⟨hopened, rfl⟩
    rcases h with hclosed | ⟨mode, hneeded, hne⟩
    · simp [hclosed] at hopened
    · exact hne (Option.some.inj (hmode.symm.trans hneeded))
  cases op with
  | ask request =>
      cases request <;>
        simp_all [Operation.refused, ReadRequest.refused, Allows, Operation.mode?]
  | perform request => cases request <;> simp_all [Operation.refused, Allows, Operation.mode?]
  | «open» filename mode => exact absurd trivial hop
  | openBound => exact absurd trivial hop
  | _ => simp [Operation.refused, Allows]

/-- What neither opens nor needs another mode than the handle is open in. -/
theorem refused_or_open (f : File β) (d : Disk) {op : Operation} (hop : ¬ op.Opens) :
    (∃ e : Error, e.isMisuse = true ∧ op.run f d = (op.refused e, f, d) ∧
        ((op.refused e).IsMisuse ↔ ¬ f.Allows op)) ∨
      f.opened = true ∧ ∀ mode, op.mode? = some mode → f.mode = mode := by
  cases hopened : f.opened with
  | false =>
      exact .inl ⟨.notOpened, rfl, Operation.run_of_closed hopened d hop,
        isMisuse_refused hop rfl (.inl hopened)⟩
  | true =>
      by_cases hwrong : ∃ mode, op.mode? = some mode ∧ f.mode ≠ mode
      · obtain ⟨mode, hmode, hne⟩ := hwrong
        exact .inl ⟨.wrongMode mode f.mode, rfl, Operation.run_of_mode_ne hopened d hmode hne,
          isMisuse_refused hop rfl (.inr ⟨mode, hmode, hne⟩)⟩
      · exact .inr ⟨rfl, fun mode hmode => Decidable.not_not.1 fun hne => hwrong ⟨mode, hmode, hne⟩⟩

namespace Coupled

section

variable (hlaws : Backend.Lifecycle Holds)

include hlaws

theorem close (h : f.Coupled Holds) (d : Disk) :
    (f.close d).1.opened = false ∧ Holds none (f.close d).1.backend := by
  obtain ⟨filename, mode, opened, b⟩ := f
  cases opened with
  | false => exact ⟨rfl, h⟩
  | true => exact ⟨rfl, hlaws.close mode b d h⟩

theorem «open» (h : f.Coupled Holds) (path : String) (mode : Mode) (d : Disk) :
    (f.open path mode d).state.Coupled Holds :=
  hlaws.acquire path mode _ (f.close d).2 (h.close hlaws d).2

private theorem ask {filename : String} {b : β} (h : Holds (some .read) b) (d : Disk)
    (request : ReadRequest) :
    ((Operation.ask request).run (⟨filename, .read, true, b⟩ : File β) d).2.1.Coupled Holds := by
  cases request with
  | read count => exact hlaws.read count b d h
  | readSome count => exact hlaws.readSome count b d h
  | getc => exact hlaws.getc b d h
  | skip count => exact hlaws.skip count b d h
  | seek a =>
      cases hsupport : (⟨filename, .read, true, b⟩ : File β).supportsOffsets with
      | false =>
          rw [Operation.run_seek_of_unsupported rfl rfl a d hsupport]
          exact h
      | true =>
          rw [Operation.run_seek_of_supported rfl rfl a d hsupport]
          exact hlaws.setCurrentOffset a b d h

/-- Whatever is done with a handle, its backend has open afterwards what the handle says. -/
theorem run (h : f.Coupled Holds) (op : Operation) (d : Disk) :
    (op.run f d).2.1.Coupled Holds := by
  by_cases hop : op.Opens
  · cases op with
    | «open» path mode => exact h.open hlaws path mode d
    | openBound => exact h.open hlaws f.filename f.mode d
    | _ => exact hop.elim
  rcases refused_or_open f d hop with ⟨e, -, hrun, -⟩ | ⟨hopened, hright⟩
  · rw [hrun]
    exact h
  obtain ⟨filename, mode, opened, b⟩ := f
  cases hopened
  cases op with
  | «open» path mode => exact absurd trivial hop
  | openBound => exact absurd trivial hop
  | ask request =>
      cases hright .read rfl
      exact ask hlaws h d request
  | perform request =>
      cases hright .write rfl
      cases request with
      | write bytes => exact hlaws.write bytes b d h
      | flush => exact hlaws.flush b d h
  | close => exact hlaws.close mode b d h
  | currentOffset =>
      cases hsupport : (⟨filename, mode, true, b⟩ : File β).supportsOffsets with
      | false =>
          rw [Operation.run_currentOffset_of_unsupported hsupport]
          exact h
      | true =>
          rw [Operation.run_currentOffset_of_supported rfl hsupport]
          exact hlaws.currentOffset mode b h
  | percentRead =>
      cases hright .read rfl
      exact hlaws.percentRead b h

theorem of_reached {b : β} (hb : Holds none b) (hf : Reached b f) : f.Coupled Holds := by
  induction hf with
  | bound filename mode => exact hb
  | run op d _ ih => exact ih.run hlaws op d

end

variable (hlaws : Backend.Lifecycle Holds) (hblameless : Backend.Blameless Holds)

include hblameless

private theorem ask_isMisuse_iff {filename : String} {b : β} (h : Holds (some .read) b) (d : Disk)
    (request : ReadRequest) :
    let f : File β := ⟨filename, .read, true, b⟩
    ((Operation.ask request).run f d).1.IsMisuse ↔ ¬ f.Allows (.ask request) := by
  intro f
  cases request with
  | read count =>
      have hresult := hblameless.read count b d h
      simpa [Operation.run, f, File.ask, File.read, reading, check, Allows]
  | readSome count =>
      have hresult := hblameless.readSome count b d h
      simpa [Operation.run, f, File.ask, File.readSome, reading, check, Allows]
  | getc => simp [Operation.run, File.ask, Allows]
  | skip count =>
      have hresult := hblameless.skip count b d h
      simpa [Operation.run, f, File.ask, File.skip, reading, check, Allows]
  | seek a =>
      cases hsupport : f.supportsOffsets with
      | false =>
          rw [Operation.run_seek_of_unsupported rfl rfl a d hsupport]
          simp [Allows, hsupport, Error.isMisuse]
      | true =>
          rw [Operation.run_seek_of_supported rfl rfl a d hsupport]
          have hresult := hblameless.setCurrentOffset a b d h
          simpa [Allows, hsupport, f]

private theorem perform_isMisuse_iff {filename : String} {b : β} (h : Holds (some .write) b)
    (d : Disk) (request : WriteRequest) :
    let f : File β := ⟨filename, .write, true, b⟩
    ((Operation.perform request).run f d).1.IsMisuse ↔ ¬ f.Allows (.perform request) := by
  intro f
  cases request with
  | write bytes =>
      have hresult := hblameless.write bytes b d h
      simpa [Operation.run, f, File.perform, File.write, check, Allows]
  | flush =>
      have hresult := hblameless.flush b d h
      simpa [Operation.run, f, File.perform, File.flush, check, Allows]

include hlaws

/-- Errors of misuse are those that the handle raises. -/
theorem run_isMisuse_iff (h : f.Coupled Holds) (op : Operation) (d : Disk) :
    (op.run f d).1.IsMisuse ↔ ¬ f.Allows op := by
  by_cases hop : op.Opens
  · have hresult : ∀ path mode, TraceStore.Blameless (f.open path mode d).result :=
      fun path mode => hblameless.acquire path mode _ (f.close d).2 (h.close hlaws d).2
    cases op with
    | «open» path mode => simpa [Operation.run, Allows] using hresult path mode
    | openBound => simpa [Operation.run, openBound, Allows] using hresult f.filename f.mode
    | _ => exact hop.elim
  rcases refused_or_open f d hop with ⟨e, -, hrun, hiff⟩ | ⟨hopened, hright⟩
  · rw [hrun]
    exact hiff
  obtain ⟨filename, mode, opened, b⟩ := f
  cases hopened
  cases op with
  | «open» path mode => exact absurd trivial hop
  | openBound => exact absurd trivial hop
  | ask request =>
      cases hright .read rfl
      exact ask_isMisuse_iff hblameless h d request
  | perform request =>
      cases hright .write rfl
      exact perform_isMisuse_iff hblameless h d request
  | _ => simp [Operation.run, Allows]

/-- What is coupled agrees, once it can be told what a backend has open. -/
theorem agrees (h : f.Coupled Holds) {held : Option Mode}
    (hheld : ∀ m, Holds m f.backend → held = m) : f.Agrees held := by
  have heq := hheld _ h
  refine ⟨?_, ?_, ?_, h.run_isMisuse_iff hlaws hblameless, ?_⟩
  · cases hopened : f.opened <;> simp [heq, hopened]
  · cases hopened : f.opened <;> simp [heq, hopened]
  · cases hopened : f.opened <;> simp [heq, hopened]
  · intro op d mode hmode
    have hop : ¬ op.Opens := by
      cases op <;> first | exact id | cases hmode
    rcases refused_or_open f d hop with ⟨e, he, hrun, -⟩ | ⟨hopened, hright⟩
    · exact .inl ⟨e, he, hrun⟩
    · exact .inr (by simp [heq, hopened, hright mode hmode])

end Coupled
end File

/-! ### Chunked files -/

namespace ChunkState

/-- What something is open for, if anything is. -/
def mode? : ChunkState → Option Mode
  | closed => none
  | reading _ => some .read
  | writing _ => some .write

end ChunkState

namespace Chunked

variable {σ : Type} {c : Codec σ} {o : WriteOptions}

/-- Whether a backend with a codec and options has something open for a mode, or nothing. -/
def Holds (c : Codec σ) (o : WriteOptions) (held : Option Mode) (b : Chunked σ) : Prop :=
  b.codec = c ∧ b.options = o ∧ b.state.mode? = held

theorem Holds.exists_reader {b : Chunked σ} (h : b.Holds c o (some .read)) :
    ∃ memory r, b = ⟨c, memory, o, .reading r⟩ := by
  obtain ⟨_, memory, _, state⟩ := b
  obtain ⟨rfl, rfl, hstate⟩ := h
  cases state with
  | closed => cases hstate
  | reading r => exact ⟨memory, r, rfl⟩
  | writing w => cases hstate

theorem Holds.exists_writer {b : Chunked σ} (h : b.Holds c o (some .write)) :
    ∃ memory w, b = ⟨c, memory, o, .writing w⟩ := by
  obtain ⟨_, memory, _, state⟩ := b
  obtain ⟨rfl, rfl, hstate⟩ := h
  cases state with
  | closed => cases hstate
  | reading r => cases hstate
  | writing w => exact ⟨memory, w, rfl⟩

theorem Holds.exists_new {b : Chunked σ} (h : b.Holds c o none) :
    ∃ memory, b = Chunked.new c memory o := by
  obtain ⟨_, memory, _, state⟩ := b
  obtain ⟨rfl, rfl, hstate⟩ := h
  cases state with
  | closed => exact ⟨memory, rfl⟩
  | reading r => cases hstate
  | writing w => cases hstate

theorem lifecycle (c : Codec σ) (o : WriteOptions) : Backend.Lifecycle (Holds c o) where
  acquire path mode b d hb := by
    show Holds c o (if (acquire path mode b d).result.isOk then some mode else none)
      (acquire path mode b d).state
    cases mode <;> rw [acquire] <;> split
    · exact hb
    · exact ⟨hb.1, hb.2.1, rfl⟩
    · exact hb
    · exact ⟨hb.1, hb.2.1, rfl⟩
  write bytes b d hb := by
    obtain ⟨memory, w, rfl⟩ := hb.exists_writer
    exact ⟨rfl, rfl, rfl⟩
  read count b d hb := by
    obtain ⟨memory, r, rfl⟩ := hb.exists_reader
    exact ⟨rfl, rfl, rfl⟩
  readSome count b d hb := by
    obtain ⟨memory, r, rfl⟩ := hb.exists_reader
    exact ⟨rfl, rfl, rfl⟩
  getc b d hb := by
    obtain ⟨memory, r, rfl⟩ := hb.exists_reader
    exact ⟨rfl, rfl, rfl⟩
  skip count b d hb := by
    obtain ⟨memory, r, rfl⟩ := hb.exists_reader
    exact ⟨rfl, rfl, rfl⟩
  flush b d hb := by
    obtain ⟨memory, w, rfl⟩ := hb.exists_writer
    exact ⟨rfl, rfl, rfl⟩
  close mode b d hb := by
    obtain ⟨_, memory, _, state⟩ := b
    obtain ⟨rfl, rfl, -⟩ := hb
    cases state <;> exact ⟨rfl, rfl, rfl⟩
  currentOffset mode b hb := hb
  setCurrentOffset a b d hb := by
    obtain ⟨memory, r, rfl⟩ := hb.exists_reader
    exact ⟨rfl, rfl, rfl⟩
  percentRead b hb := hb

theorem blameless (hc : c.Blameless) (o : WriteOptions) : Backend.Blameless (Holds c o) where
  acquire path mode b d _ := by
    show Blameless (acquire path mode b d).result
    cases mode with
    | read =>
        rw [acquire]
        split
        case h_1 h => exact (ChunkReader.blameless_open b.codec d path).error h
        case h_2 => exact blameless_ok ()
    | write =>
        rw [acquire]
        split
        case h_1 h => exact (ChunkWriter.blameless_create b.options b.codec path d).error h
        case h_2 => exact blameless_ok ()
  write bytes b d hb := by
    obtain ⟨memory, w, rfl⟩ := hb.exists_writer
    exact ChunkWriter.blameless_write o hc bytes memory w d
  read count b d hb := by
    obtain ⟨memory, r, rfl⟩ := hb.exists_reader
    exact ChunkReader.blameless_read d hc count r
  readSome count b d hb := by
    obtain ⟨memory, r, rfl⟩ := hb.exists_reader
    exact ChunkReader.blameless_readSome d hc count r
  skip count b d hb := by
    obtain ⟨memory, r, rfl⟩ := hb.exists_reader
    exact ChunkReader.blameless_skip d hc count r
  flush b d hb := by
    obtain ⟨memory, w, rfl⟩ := hb.exists_writer
    exact ChunkWriter.blameless_flush o hc memory w d
  setCurrentOffset a b d hb := by
    obtain ⟨memory, r, rfl⟩ := hb.exists_reader
    exact ChunkReader.blameless_setCurrentOffset c d a r

end Chunked

/-! ### Streams -/

namespace StreamState

/-- What something is open for, if anything is. -/
def mode? {δ ε : Type} : StreamState δ ε → Option Mode
  | closed => none
  | reading _ => some .read
  | writing _ => some .write

end StreamState

namespace Streamed

variable {δ ε : Type} [StreamDecoder δ] [StreamEncoder ε] {o : WriteOptions}

/-- Whether a backend with options has something open for a mode, or nothing. -/
def Holds (o : WriteOptions) (held : Option Mode) (b : Streamed δ ε) : Prop :=
  b.options = o ∧ b.state.mode? = held

section

omit [StreamDecoder δ] [StreamEncoder ε]

theorem Holds.exists_reader {b : Streamed δ ε} (h : b.Holds o (some .read)) :
    ∃ r, b = ⟨o, .reading r⟩ := by
  obtain ⟨_, state⟩ := b
  obtain ⟨rfl, hstate⟩ := h
  cases state with
  | closed => cases hstate
  | reading r => exact ⟨r, rfl⟩
  | writing encoder => cases hstate

theorem Holds.exists_writer {b : Streamed δ ε} (h : b.Holds o (some .write)) :
    ∃ encoder, b = ⟨o, .writing encoder⟩ := by
  obtain ⟨_, state⟩ := b
  obtain ⟨rfl, hstate⟩ := h
  cases state with
  | closed => cases hstate
  | reading r => cases hstate
  | writing encoder => exact ⟨encoder, rfl⟩

theorem Holds.eq_new {b : Streamed δ ε} (h : b.Holds o none) : b = Streamed.new o := by
  obtain ⟨_, state⟩ := b
  obtain ⟨rfl, hstate⟩ := h
  cases state with
  | closed => rfl
  | reading r => cases hstate
  | writing encoder => cases hstate

end

theorem lifecycle (o : WriteOptions) :
    Backend.Lifecycle (Holds o : Option Mode → Streamed δ ε → Prop) where
  acquire path mode b d hb := by
    show Holds o (if (acquire path mode b d).result.isOk then some mode else none)
      (acquire path mode b d).state
    cases mode with
    | read =>
        rw [acquire]
        split
        · exact hb
        · exact ⟨hb.1, rfl⟩
    | write =>
        rw [acquire]
        split
        · exact hb
        split
        · exact hb
        · exact ⟨hb.1, rfl⟩
  write bytes b d hb := by
    obtain ⟨encoder, rfl⟩ := hb.exists_writer
    exact ⟨rfl, rfl⟩
  read count b d hb := by
    obtain ⟨r, rfl⟩ := hb.exists_reader
    show Holds o _ (Streamed.read count _ d).2
    rw [Streamed.read]
    split <;> exact ⟨rfl, rfl⟩
  readSome count b d hb := by
    obtain ⟨r, rfl⟩ := hb.exists_reader
    show Holds o _ (Streamed.readSome count _ d).2
    rw [Streamed.readSome]
    split <;> exact ⟨rfl, rfl⟩
  getc b d hb := by
    obtain ⟨r, rfl⟩ := hb.exists_reader
    exact ⟨rfl, rfl⟩
  skip count b d hb := by
    obtain ⟨r, rfl⟩ := hb.exists_reader
    exact ⟨rfl, rfl⟩
  flush b d hb := by
    obtain ⟨encoder, rfl⟩ := hb.exists_writer
    exact ⟨rfl, rfl⟩
  close _ _ _ hb := ⟨hb.1, rfl⟩
  currentOffset _ _ hb := hb
  setCurrentOffset _ _ _ hb := hb
  percentRead _ hb := hb

theorem blameless (hε : StreamEncoder.Blameless ε) (o : WriteOptions) :
    Backend.Blameless (Holds o : Option Mode → Streamed δ ε → Prop) where
  acquire path mode b d _ := by
    show Blameless (acquire path mode b d).result
    cases mode with
    | read =>
        rw [acquire]
        split
        case h_1 h => exact (StreamReader.blameless_open d path).error h
        case h_2 => exact blameless_ok ()
    | write =>
        rw [acquire]
        split
        case h_1 h => exact b.options.blameless_validate.error h
        split <;> simp
  write bytes b d hb := by
    obtain ⟨encoder, rfl⟩ := hb.exists_writer
    exact hε.write bytes encoder d
  read count b d hb := by
    obtain ⟨r, rfl⟩ := hb.exists_reader
    show Blameless (Streamed.read count _ d).1
    rw [Streamed.read]
    split
    · exact blameless_ok _
    · exact StreamReader.blameless_read d count r
  readSome count b d hb := by
    obtain ⟨r, rfl⟩ := hb.exists_reader
    show Blameless (Streamed.readSome count _ d).1
    rw [Streamed.readSome]
    split
    · exact blameless_ok _
    · exact StreamReader.blameless_readSome d count r
  skip count b d hb := by
    obtain ⟨r, rfl⟩ := hb.exists_reader
    exact StreamReader.blameless_skip d count r
  flush b d hb := by
    obtain ⟨encoder, rfl⟩ := hb.exists_writer
    exact hε.flush encoder d
  setCurrentOffset _ _ _ _ := blameless_ok ()

end Streamed

/-! ### Formats -/

/-- In every state that a handle over the backend of some format gets into, whatever was done with
it and whatever happened to the disk, it agrees with its backend: that has a reader open if and only
if the handle is open for reading, a writer if and only if it is open for writing, and nothing if
and only if the handle is closed. A reply is an error of misuse if and only if the handle does not
allow the operation, and no operation that needs a reader or a writer gets to a backend without. Of
the encoders, that of gzip files fails for reasons of its own only; those of blocks may fail as they
like, as their codecs say what that means. -/
theorem File.agrees_of_reached [Compression] (hgzip : StreamEncoder.Blameless Compression.Encoder)
    (o : WriteOptions) :
    (∀ (format : Format) (c : Codec Compression.Memory), format.codec? = some c →
      ∀ f, Reached (Chunked.new c Compression.fresh o) f → f.Agrees f.backend.state.mode?) ∧
    ∀ f, Reached (Streamed.new o : GzipBackend) f → f.Agrees f.backend.state.mode? := by
  refine ⟨fun format c hformat f hf => ?_, fun f hf => ?_⟩
  · have hlaws := Chunked.lifecycle c o
    have hown := Chunked.blameless (Format.blameless_of_codec? hformat) o
    exact (Coupled.of_reached hlaws ⟨rfl, rfl, rfl⟩ hf).agrees hlaws hown fun _ h => h.2.2
  · have hlaws := Streamed.lifecycle (δ := Compression.Decoder) (ε := Compression.Encoder) o
    have hown := Streamed.blameless (δ := Compression.Decoder) hgzip o
    exact (Coupled.of_reached hlaws ⟨rfl, rfl⟩ hf).agrees hlaws hown fun _ h => h.2

/-- A handle that was written to and then fails to open a missing file, and one over gzip files that
gets as far as that. -/
theorem File.agrees_of_reached_missing :
    let ops : List Operation := [.openBound, .perform (.write ⟨#[1]⟩), .open "u" .read, .ask .getc]
    let f := (Operation.runAll ops (File.bound (Chunked.new Snappy.codec () default) "t" .write)
      .empty).2.1
    let g := (Operation.runAll ops
      (File.bound (Streamed.new default : @GzipBackend .stored) "t" .write) .empty).2.1
    (f.opened = false ∧ f.Agrees f.backend.state.mode?) ∧
      g.opened = false ∧ g.Agrees g.backend.state.mode? := by
  intro ops f g
  obtain ⟨hchunked, hgzip⟩ := @agrees_of_reached .stored Gzip.Encoder.blameless default
  exact ⟨⟨by decide +kernel,
      hchunked .snappy _ rfl f ((Reached.bound "t" .write).runAll ops .empty)⟩,
    by decide +kernel, hgzip g ((Reached.bound "t" .write).runAll ops .empty)⟩

end TraceStore
