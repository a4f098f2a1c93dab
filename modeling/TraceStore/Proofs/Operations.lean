import TraceStore.Proofs.Requests

/-!
# Operations of handles

Everything that can be done with a handle, as data. A handle that is closed, or open for something
else, refuses an operation on its own: `Operation.run_of_closed`, `Operation.run_of_mode_ne`.
-/
namespace TraceStore

/-- What can be done with a handle. -/
inductive Operation
  | «open» (filename : String) (mode : Mode)
  | openBound
  | ask (request : ReadRequest)
  | perform (request : WriteRequest)
  | close
  | currentOffset
  | percentRead

/-- What an operation tells its caller. -/
inductive Reply
  | done (result : Except Error Unit)
  | answer (answer : Answer)
  | position (a : Offset)
  | share (percent : Nat)
  | closed
deriving DecidableEq

/-- Opening a path closes the handle first. -/
theorem File.open_eq_open_close {β : Type} [Backend β] (f : File β) (path : String) (mode : Mode)
    (d : Disk) : f.open path mode d =
      ({ (f.close d).1 with opened := false } : File β).open path mode (f.close d).2 := by
  obtain ⟨_, _, opened, _⟩ := f
  cases opened <;> rfl

namespace Operation

/-- Whether an operation opens a path. -/
def Opens : Operation → Prop
  | .open _ _ | openBound => True
  | _ => False

/-- The mode that a handle has to be open in for an operation, if it matters. -/
def mode? : Operation → Option Mode
  | ask _ | percentRead => some .read
  | perform _ => some .write
  | _ => none

/-- The reply to an operation that is refused with an error. -/
def refused (e : Error) : Operation → Reply
  | .open _ _ | openBound | perform (.write _) => .done (.error e)
  | ask request => .answer (request.refused e)
  | perform .flush => .done (.ok ())
  | close => .closed
  | currentOffset => .position default
  | percentRead => .share 0

variable {β : Type} [Backend β]

/-- Does something with a handle. -/
def run : Operation → File β → Disk → Reply × File β × Disk
  | .open filename mode, f, d =>
    let o := f.open filename mode d
    (.done o.result, o.state, o.disk)
  | openBound, f, d =>
    let o := f.openBound d
    (.done o.result, o.state, o.disk)
  | ask request, f, d =>
    let (answer, f) := f.ask d request
    (.answer answer, f, d)
  | perform request, f, d =>
    let o := f.perform request d
    (.done o.result, o.state, o.disk)
  | close, f, d => (.closed, f.close d)
  | currentOffset, f, d =>
    let (a, f) := f.currentOffset
    (.position a, f, d)
  | percentRead, f, d =>
    let (percent, f) := f.percentRead
    (.share percent, f, d)

/-- Does one thing after the other with a handle. -/
def runAll : List Operation → File β → Disk → List Reply × File β × Disk
  | [], f, d => ([], f, d)
  | op :: ops, f, d =>
    let (reply, f, d) := op.run f d
    let (replies, f, d) := runAll ops f d
    (reply :: replies, f, d)

variable {f : File β}

private theorem ask_of_error {e : Error} (h : f.check .read = .error e) (d : Disk)
    (request : ReadRequest) : f.ask d request = (request.refused e, f) := by
  cases request <;>
    simp only [File.ask, File.read, File.readSome, File.getc, File.skip, File.setCurrentOffset,
      File.reading, h] <;> rfl

private theorem perform_of_error {e : Error} (h : f.check .write = .error e) (d : Disk)
    (request : WriteRequest) :
    (perform request).run f d = ((perform request).refused e, f, d) := by
  cases request <;> simp only [run, File.perform, File.write, File.flush, h] <;> rfl

private theorem percentRead_of_error {e : Error} (h : f.check .read = .error e) (d : Disk) :
    percentRead.run f d = (percentRead.refused e, f, d) := by
  simp only [run, File.percentRead, h]
  rfl

/-- A closed handle refuses everything but to be opened, and stays as it is. -/
theorem run_of_closed (hf : f.opened = false) (d : Disk) {op : Operation} (hop : ¬ op.Opens) :
    op.run f d = (op.refused .notOpened, f, d) := by
  have hcheck : ∀ mode, f.check mode = .error .notOpened := fun mode => by simp [File.check, hf]
  cases op with
  | «open» filename mode => exact absurd trivial hop
  | openBound => exact absurd trivial hop
  | ask request => simp only [run, ask_of_error (hcheck .read), refused]
  | perform request => exact perform_of_error (hcheck .write) d request
  | close => simp [run, File.close, hf, refused]
  | currentOffset => simp [run, File.currentOffset, hf, refused]
  | percentRead => exact percentRead_of_error (hcheck .read) d

/-- A handle that is open for something else refuses what needs another mode, and stays as it is. -/
theorem run_of_mode_ne (hf : f.opened = true) (d : Disk) {op : Operation} {mode : Mode}
    (hop : op.mode? = some mode) (hmode : f.mode ≠ mode) :
    op.run f d = (op.refused (.wrongMode mode f.mode), f, d) := by
  have hcheck : f.check mode = .error (.wrongMode mode f.mode) := by simp [File.check, hf, hmode]
  cases op with
  | «open» filename mode => cases hop
  | openBound => cases hop
  | ask request =>
      cases hop
      simp only [run, ask_of_error hcheck, refused]
  | perform request =>
      cases hop
      exact perform_of_error hcheck d request
  | close => cases hop
  | currentOffset => cases hop
  | percentRead =>
      cases hop
      exact percentRead_of_error hcheck d

/-! ### Positions -/

/-- Without support for offsets a handle tells the start of the stream as its position. -/
theorem run_currentOffset_of_unsupported (h : f.supportsOffsets = false) (d : Disk) :
    currentOffset.run f d = (.position default, f, d) := by
  simp [run, File.currentOffset, h]

theorem run_currentOffset_of_supported (hf : f.opened = true) (h : f.supportsOffsets = true)
    (d : Disk) : currentOffset.run f d = (.position (Backend.currentOffset f.backend).1,
      { f with backend := (Backend.currentOffset f.backend).2 }, d) := by
  simp [run, File.currentOffset, hf, h]

variable (hf : f.opened = true) (hmode : f.mode = .read) (a : Offset) (d : Disk)

include hf hmode

private theorem run_seek (b : Bool) (h : f.supportsOffsets = b) : (ask (.seek a)).run f d =
    let (result, backend) := if b then Backend.setCurrentOffset a f.backend d
      else (.error .offsetsUnsupported, f.backend)
    (.answer (.done result), { f with backend }, d) := by
  subst h
  simp only [run, File.ask, File.setCurrentOffset, File.reading, File.check, hf, hmode]
  rfl

/-- Without support for offsets a handle that is open for reading goes to no position. -/
theorem run_seek_of_unsupported (h : f.supportsOffsets = false) :
    (ask (.seek a)).run f d = (.answer (.done (.error .offsetsUnsupported)), f, d) :=
  run_seek hf hmode a d false h

theorem run_seek_of_supported (h : f.supportsOffsets = true) : (ask (.seek a)).run f d =
    (.answer (.done (Backend.setCurrentOffset a f.backend d).1),
      { f with backend := (Backend.setCurrentOffset a f.backend d).2 }, d) :=
  run_seek hf hmode a d true h

end Operation
end TraceStore
