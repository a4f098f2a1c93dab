import TraceStore.Proofs.Embedding
import TraceStore.Recorder

/-!
# The calls that a backend gets

A `Watched` backend does what the one inside it does and keeps the calls that it gets. Whatever is
done with a handle, its backend gets them in order: it is opened, used as its mode allows and closed
once, and then opened again or not. A handle that is closed or open for something else answers
without a call: `Watched.obeys_protocol`.
-/
namespace TraceStore

/-- A call that a backend got. Opening says whether it succeeded, and the calls about positions
whether the backend supported them then. -/
inductive Event
  | acquire (path : String) (mode : Mode) (succeeded : Bool)
  | write (bytes : ByteArray)
  | read (count : Nat)
  | readSome (count : Nat)
  | getc
  | skip (count : Nat)
  | flush
  | close
  | currentOffset (supported : Bool)
  | setCurrentOffset (a : Offset) (supported : Bool)
  | percentRead

namespace Event

/-- Whether a backend that is open in a mode may get a call. -/
def Legal : Mode → Event → Prop
  | .read, read _ | .read, readSome _ | .read, getc | .read, skip _ | .read, percentRead => True
  | .read, setCurrentOffset _ supported => supported = true
  | .write, write _ | .write, flush => True
  | _, currentOffset supported => supported = true
  | _, _ => False

/-- The calls from one opening on: it failed, or a session followed, with uses that the mode allows
and closed once at its end. -/
inductive Attempt : List Event → Prop
  | refused (path : String) (mode : Mode) : Attempt [acquire path mode false]
  | session (path : String) {mode : Mode} {uses : List Event} : (∀ e ∈ uses, e.Legal mode) →
      Attempt (acquire path mode true :: (uses ++ [close]))

/-- Calls that are one attempt after the other. -/
def Orderly (events : List Event) : Prop :=
  ∃ attempts : List (List Event), (∀ attempt ∈ attempts, Attempt attempt) ∧
    events = attempts.flatten

theorem orderly_nil : Orderly [] := ⟨[], by simp, rfl⟩

theorem Orderly.append {events attempt : List Event} (h : Orderly events)
    (hlast : Attempt attempt) : Orderly (events ++ attempt) := by
  obtain ⟨attempts, hall, rfl⟩ := h
  refine ⟨attempts ++ [attempt], ?_, by simp⟩
  intro other hother
  rcases List.mem_append.1 hother with hbefore | hnew
  · exact hall other hbefore
  · exact List.mem_singleton.1 hnew ▸ hlast

end Event

/-- A backend together with the calls that it got, the first one first. -/
structure Watched (β : Type) where
  backend : β
  events : List Event

namespace Watched

variable {β : Type}

/-- A backend that got no calls yet. -/
def start (b : β) : Watched β := ⟨b, []⟩

/-- The backend after one more call, which has changed what is inside. -/
def after (w : Watched β) (e : Event) (b : β) : Watched β := ⟨b, w.events ++ [e]⟩

variable [Backend β]

instance : Backend (Watched β) where
  format w := Backend.format w.backend
  supportsOffsets w := Backend.supportsOffsets w.backend
  acquire path mode w d :=
    let o := Backend.acquire path mode w.backend d
    o.mapState (w.after (.acquire path mode o.result.isOk))
  write bytes w d := (Backend.write bytes w.backend d).mapState (w.after (.write bytes))
  read count w d := (Backend.read count w.backend d).map id (w.after (.read count))
  readSome count w d := (Backend.readSome count w.backend d).map id (w.after (.readSome count))
  getc w d := (Backend.getc w.backend d).map id (w.after .getc)
  skip count w d := (Backend.skip count w.backend d).map id (w.after (.skip count))
  flush w d := (Backend.flush w.backend d).mapState (w.after .flush)
  close w d := (Backend.close w.backend d).map (w.after .close) id
  currentOffset w :=
    (Backend.currentOffset w.backend).map id
      (w.after (.currentOffset (Backend.supportsOffsets w.backend)))
  setCurrentOffset a w d :=
    (Backend.setCurrentOffset a w.backend d).map id
      (w.after (.setCurrentOffset a (Backend.supportsOffsets w.backend)))
  percentRead w := (Backend.percentRead w.backend).map id (w.after .percentRead)
  release w d := Backend.release w.backend d

/-- Watching changes nothing. -/
theorem embeds_backend : Backend.Embeds (backend : Watched β → β) where
  format _ := rfl
  supportsOffsets _ := rfl
  acquire _ _ _ _ := rfl
  write _ _ _ := rfl
  read _ _ _ := rfl
  readSome _ _ _ := rfl
  getc _ _ := rfl
  skip _ _ _ := rfl
  flush _ _ := rfl
  close _ _ := rfl
  currentOffset _ := rfl
  setCurrentOffset _ _ _ := rfl
  percentRead _ := rfl
  release _ _ := rfl

/-- A handle as it is, or after one use of its backend that its mode allows. -/
private def Used (f g : File (Watched β)) : Prop :=
  g = f ∨ f.opened = true ∧ ∃ e b, e.Legal f.mode ∧ g = { f with backend := f.backend.after e b }

omit [Backend β] in
private theorem used_after {f : File (Watched β)} (hf : f.opened = true) (e : Event) (b : β)
    (he : e.Legal f.mode) : Used f { f with backend := f.backend.after e b } :=
  .inr ⟨hf, e, b, he, rfl⟩

private theorem ask_used (filename : String) (w : Watched β) (d : Disk) (request : ReadRequest) :
    let f : File (Watched β) := ⟨filename, .read, true, w⟩
    Used f ((Operation.ask request).run f d).2.1 := by
  intro f
  cases request with
  | read count => exact used_after (f := f) rfl (.read count) _ trivial
  | readSome count => exact used_after (f := f) rfl (.readSome count) _ trivial
  | getc => exact used_after (f := f) rfl .getc _ trivial
  | skip count => exact used_after (f := f) rfl (.skip count) _ trivial
  | seek a =>
      cases h : f.supportsOffsets with
      | false =>
          rw [Operation.run_seek_of_unsupported rfl rfl a d h]
          exact .inl rfl
      | true =>
          rw [Operation.run_seek_of_supported rfl rfl a d h]
          exact used_after (f := f) rfl (.setCurrentOffset a f.supportsOffsets) _ h

private theorem currentOffset_used (f : File (Watched β)) (hf : f.opened = true) (d : Disk) :
    Used f (Operation.currentOffset.run f d).2.1 := by
  cases h : f.supportsOffsets with
  | false =>
      rw [Operation.run_currentOffset_of_unsupported h]
      exact .inl rfl
  | true =>
      rw [Operation.run_currentOffset_of_supported hf h]
      exact used_after hf (.currentOffset f.supportsOffsets) _ (by cases f.mode <;> exact h)

/-- What neither opens nor closes uses the backend once at most. -/
private theorem run_used (f : File (Watched β)) (d : Disk) {op : Operation} (hop : ¬ op.Opens)
    (hclose : op ≠ .close) : Used f (op.run f d).2.1 := by
  cases hopened : f.opened with
  | false =>
      rw [Operation.run_of_closed hopened d hop]
      exact .inl rfl
  | true =>
      have wrong : ∀ {mode}, op.mode? = some mode → f.mode ≠ mode → Used f (op.run f d).2.1 := by
        intro mode hmode hne
        rw [Operation.run_of_mode_ne hopened d hmode hne]
        exact .inl rfl
      obtain ⟨filename, mode, opened, w⟩ := f
      cases hopened
      cases op with
      | «open» filename mode => exact absurd trivial hop
      | openBound => exact absurd trivial hop
      | close => exact absurd rfl hclose
      | ask request =>
          cases mode with
          | write => exact wrong rfl (by simp)
          | read => exact ask_used filename w d request
      | perform request =>
          cases mode with
          | read => exact wrong rfl (by simp)
          | write =>
              cases request with
              | write bytes =>
                  exact used_after (f := ⟨filename, .write, true, w⟩) rfl (.write bytes) _ trivial
              | flush => exact used_after (f := ⟨filename, .write, true, w⟩) rfl .flush _ trivial
      | currentOffset => exact currentOffset_used ⟨filename, mode, true, w⟩ rfl d
      | percentRead =>
          cases mode with
          | write => exact wrong rfl (by simp)
          | read =>
              exact used_after (f := ⟨filename, .read, true, w⟩) rfl .percentRead _ trivial

/-! ### Runs -/

/-- The calls of a handle are attempts that are over, and a session that goes on if it is open. -/
private inductive Tracked : File (Watched β) → Prop
  | closed {f : File (Watched β)} : f.opened = false → Event.Orderly f.backend.events → Tracked f
  | opened {f : File (Watched β)} {before : List Event} (path : String) (uses : List Event) :
      f.opened = true → Event.Orderly before → (∀ e ∈ uses, e.Legal f.mode) →
      f.backend.events = before ++ .acquire path f.mode true :: uses → Tracked f

namespace Tracked

variable {f : File (Watched β)}

omit [Backend β] in
private theorem used {g : File (Watched β)} (h : Tracked f) (huse : Used f g) : Tracked g := by
  rcases huse with rfl | ⟨hf, e, b, he, rfl⟩
  · exact h
  cases h with
  | closed hclosed => simp [hf] at hclosed
  | opened path uses _ hbefore huses hevents =>
      refine .opened path (uses ++ [e]) hf hbefore ?_ ?_
      · intro e' he'
        rcases List.mem_append.1 he' with hold | hnew
        · exact huses e' hold
        · exact List.mem_singleton.1 hnew ▸ he
      · simp [after, hevents]

/-- Closing ends the session, if there is one. -/
private theorem close (h : Tracked f) (d : Disk) :
    (f.close d).1.opened = false ∧ Event.Orderly (f.close d).1.backend.events := by
  cases h with
  | closed hclosed horderly =>
      rw [File.close, hclosed]
      exact ⟨hclosed, horderly⟩
  | opened path uses hopened hbefore huses hevents =>
      rw [File.close, hopened]
      refine ⟨rfl, ?_⟩
      show Event.Orderly (f.backend.events ++ [.close])
      rw [hevents, List.append_assoc, List.cons_append]
      exact hbefore.append (.session path huses)

/-- Opening ends the session first, and begins the next one if it succeeds. -/
private theorem «open» (h : Tracked f) (path : String) (mode : Mode) (d : Disk) :
    Tracked (f.open path mode d).state := by
  obtain ⟨-, horderly⟩ := h.close d
  generalize hacquire : Backend.acquire path mode (f.close d).1.backend.backend (f.close d).2 = o
  have hstate : (f.open path mode d).state = ⟨path, mode, o.result.isOk,
      (f.close d).1.backend.after (.acquire path mode o.result.isOk) o.state⟩ := by
    rw [← hacquire]
    rfl
  rw [hstate]
  cases o.result.isOk with
  | false => exact .closed rfl (horderly.append (.refused path mode))
  | true => exact .opened path [] rfl horderly (by simp) rfl

private theorem run (h : Tracked f) (op : Operation) (d : Disk) : Tracked (op.run f d).2.1 := by
  by_cases hop : op.Opens
  · cases op with
    | «open» path mode => exact h.open path mode d
    | openBound => exact h.open f.filename f.mode d
    | _ => exact hop.elim
  · by_cases hclose : op = .close
    · subst hclose
      obtain ⟨hclosed, horderly⟩ := h.close d
      exact .closed hclosed horderly
    · exact h.used (run_used f d hop hclose)

private theorem runAll (h : Tracked f) (ops : List Operation) (d : Disk) :
    Tracked (Operation.runAll ops f d).2.1 := by
  induction ops generalizing f d with
  | nil => exact h
  | cons op ops ih => exact ih (h.run op d) _

end Tracked

/-- Whatever is done with a handle over whatever backend, until it is closed and given up, the calls
that the backend gets are orderly. Watching them changes nothing. A handle that is closed or open
for something else, or whose backend has no positions, answers without a call and stays as it
is. -/
theorem obeys_protocol (b : β) (filename : String) (mode : Mode) (ops : List Operation) (d : Disk) :
    let ended := Operation.runAll ops (File.bound (start b) filename mode) d
    let closed := ended.2.1.close ended.2.2
    Operation.runAll ops (File.bound b filename mode) d =
        ended.map id (Prod.map (File.map backend) id) ∧
      ended.2.1.release ended.2.2 = Backend.release closed.1.backend closed.2 ∧
      Event.Orderly closed.1.backend.events ∧
      ∀ (f : File (Watched β)) (d : Disk),
        (f.opened = false → ∀ op : Operation, ¬ op.Opens →
          op.run f d = (op.refused .notOpened, f, d)) ∧
        (f.opened = true → ∀ (op : Operation) (mode : Mode), op.mode? = some mode → f.mode ≠ mode →
          op.run f d = (op.refused (.wrongMode mode f.mode), f, d)) ∧
        (f.supportsOffsets = false →
          Operation.currentOffset.run f d = (.position default, f, d) ∧
          (f.opened = true → f.mode = .read → ∀ a, (Operation.ask (.seek a)).run f d =
            (.answer (.done (.error .offsetsUnsupported)), f, d))) := by
  intro ended closed
  have hstart : Tracked (File.bound (start b) filename mode) := .closed rfl Event.orderly_nil
  refine ⟨Operation.runAll_map embeds_backend ops (File.bound (start b) filename mode) d, rfl,
    ((hstart.runAll ops d).close _).2, fun f d => ⟨?_, ?_, ?_⟩⟩
  · intro hf op hop
    exact Operation.run_of_closed hf d hop
  · intro hf op mode hop hmode
    exact Operation.run_of_mode_ne hf d hop hmode
  · intro h
    exact ⟨Operation.run_currentOffset_of_unsupported h d,
      fun hf hmode a => Operation.run_seek_of_unsupported hf hmode a d h⟩

theorem obeys_protocol_reopened :
    let f := File.bound (start (Recorder.new false false)) "t" .write
    let ops : List Operation := [.percentRead, .openBound, .ask .getc, .perform (.write ⟨#[1]⟩),
      .open "t" .read, .ask .getc, .ask (.seek default)]
    let ended := Operation.runAll ops f .empty
    Event.Orderly (ended.2.1.close ended.2.2).1.backend.events ∧
      Operation.percentRead.run f .empty = (.share 0, f, .empty) := by
  obtain ⟨-, -, horderly, hmisuse⟩ := obeys_protocol (Recorder.new false false) "t" .write
    [.percentRead, .openBound, .ask .getc, .perform (.write ⟨#[1]⟩), .open "t" .read, .ask .getc,
      .ask (.seek default)] .empty
  exact ⟨horderly, (hmisuse _ .empty).1 rfl .percentRead id⟩

end Watched
end TraceStore
