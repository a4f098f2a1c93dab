import TraceStore.Proofs.Lifecycle
import TraceStore.Proofs.Trace

/-!
# What a handle does to a disk

A handle touches the files that it makes, and no others. It makes one when it is opened for writing
with success, which empties the file if it was there, and adds to the end of that file until it is
closed. A handle that cannot be opened is closed, and so are the files that it had open, but nothing
else has changed: `File.touches_only_made`.
-/
namespace TraceStore

/-! ### Disks -/

namespace Disk

variable {d d' : Disk} {id : Nat}

/-- What becomes of a disk when a path is opened for writing: a file behind the path is empty, the
path is bound to a new node if there was none, and all other paths and nodes stay as they are. -/
structure Emptied (d : Disk) (path : String) (id : Nat) (d' : Disk) : Prop where
  bound : d'.find? path = some id
  before : d.find? path = some id ∨ d.find? path = none ∧ d.node? id = none
  empty : d'.node? id = some (.file .empty) ∨ d' = d ∧ ∀ data, d.node? id ≠ some (.file data)
  names : ∀ other, other ≠ path → d'.find? other = d.find? other
  nodes : ∀ other, other ≠ id → d'.node? other = d.node? other

theorem emptied_of_create {path : String} (h : d.create path = .ok (id, d')) :
    d.Emptied path id d' where
  bound := find?_create h
  before := by
    rcases cases_of_create h with ⟨hfind, rfl, -⟩ | ⟨hfind, -⟩
    · exact .inr ⟨hfind, by simp [node?]⟩
    · exact .inl hfind
  empty := by
    rcases cases_of_create h with ⟨-, rfl, rfl⟩ | ⟨-, ⟨⟨data, hnode⟩, rfl⟩ | ⟨hnode, rfl⟩⟩
    · exact .inl (by simp [node?])
    · exact .inl (node?_setNode (Array.getElem?_eq_some_iff.1 hnode).1)
    · exact .inr ⟨rfl, hnode⟩
  names _ hne := find?_create_of_ne h hne
  nodes _ hne := node?_create_of_ne h hne

/-- What a disk may become if one node at most is written to, at the end of its file. -/
structure Grows (only : Option Nat) (d d' : Disk) : Prop where
  names_eq : d'.names = d.names
  same : ∀ id, only ≠ some id → d'.node? id = d.node? id
  appended : ∀ id, d.Appended d' id

theorem Grows.refl (only : Option Nat) (d : Disk) : Grows only d d :=
  ⟨rfl, fun _ _ => rfl, fun _ => .refl ..⟩

theorem Grows.find?_eq {only : Option Nat} (h : Grows only d d') (path : String) :
    d'.find? path = d.find? path := congrArg (List.lookup path) h.names_eq

end Disk

/-- A writer at the end of its file. -/
theorem FileWriter.Advances.grows {w w' : FileWriter} {d d' : Disk} (h : w.Advances d w' d')
    (hend : w.AtEnd d) : Disk.Grows (some w.node) d d' where
  names_eq := h.names_eq
  same id hne := h.same id fun heq => hne (congrArg some heq.symm)
  appended id := by
    by_cases hid : id = w.node
    · rw [hid]
      exact (h.appended hend).2
    · exact .inl (h.same id hid)

/-! ### Handles -/

namespace Operation

variable {β : Type} [Backend β]

/-- The path that an operation opens, and the mode that it opens it in. -/
def opens? (f : File β) : Operation → Option (String × Mode)
  | .open path mode => some (path, mode)
  | openBound => some (f.filename, f.mode)
  | _ => none

omit [Backend β] in
theorem Opens.exists_opens? {op : Operation} (h : op.Opens) (f : File β) :
    ∃ path mode, op.opens? f = some (path, mode) := by
  cases op with
  | «open» path mode => exact ⟨path, mode, rfl⟩
  | openBound => exact ⟨f.filename, f.mode, rfl⟩
  | _ => exact h.elim

theorem run_of_opens? {op : Operation} {f : File β} {path : String} {mode : Mode}
    (h : op.opens? f = some (path, mode)) (d : Disk) :
    op.run f d = (.done (f.open path mode d).result, (f.open path mode d).state,
      (f.open path mode d).disk) := by
  cases op with
  | «open» path mode =>
      cases h
      rfl
  | openBound =>
      cases h
      rfl
  | _ => cases h

/-- An operation that opens a path for writing with success, and the node that is bound to the path
then. -/
structure Makes (path : String) (id : Nat) (op : Operation) (f : File β) (d : Disk) : Prop where
  opens : op.opens? f = some (path, .write)
  succeeds : (op.run f d).1 = .done (.ok ())
  bound : (op.run f d).2.2.find? path = some id

/-- Whether one of some operations makes a path a file for writing. -/
def Made (path : String) (id : Nat) : List Operation → File β → Disk → Prop
  | [], _, _ => False
  | op :: ops, f, d =>
    op.Makes path id f d ∨ Made path id ops (op.run f d).2.1 (op.run f d).2.2

end Operation

namespace File

variable {β : Type} [Backend β]

/-- The node that a handle writes to, if it is open for writing. -/
def writesTo? (f : File β) (d : Disk) : Option Nat :=
  if f.opened = true ∧ f.mode = .write then d.find? f.filename else none

/-- What a handle with some options does to a disk that nobody else changes. -/
structure Confined (o : WriteOptions) (f : File β) (d : Disk) : Prop where
  /-- Paths that are not made stay bound to what they were, or to nothing. -/
  names : ∀ (ops : List Operation) path, (∀ id, ¬ Operation.Made path id ops f d) →
    (Operation.runAll ops f d).2.2.find? path = d.find? path
  /-- Nodes that are not made stay as they are, but for one that is being written to. That is added
  to at its end. -/
  nodes : ∀ (ops : List Operation) id, (∀ path, ¬ Operation.Made path id ops f d) →
    (Operation.runAll ops f d).2.2.node? id = d.node? id ∨
      f.writesTo? d = some id ∧ d.Appended (Operation.runAll ops f d).2.2 id
  /-- Opening for writing makes an empty file, once the handle is closed. -/
  emptied : ∀ (op : Operation) path, op.opens? f = some (path, .write) →
    (op.run f d).1 = .done (.ok ()) → ∃ id, (f.close d).2.Emptied path id (op.run f d).2.2
  /-- Opening for reading changes nothing. -/
  looked : ∀ (op : Operation) path, op.opens? f = some (path, .read) →
    (op.run f d).2.2 = (f.close d).2
  /-- Failing to open changes nothing either, and leaves the handle closed. -/
  failed : ∀ (op : Operation) e, op.Opens → (op.run f d).1 = .done (.error e) →
    (op.run f d).2.1.opened = false ∧ (op.run f d).2.2 = (f.close d).2
  /-- Nothing is opened for writing with options that are not valid. -/
  rejected : ∀ (op : Operation) path e, op.opens? f = some (path, .write) →
    o.validate = .error e → (op.run f d).1 = .done (.error e)
  /-- Giving the handle up does what closing it does. -/
  released : f.release d = (f.close d).2

/-- Whether every handle over a backend is confined, whatever was done with it. -/
def KeepsToItself (b : β) (o : WriteOptions) : Prop :=
  ∀ filename mode d ops,
    let ended := Operation.runAll ops (File.bound b filename mode) d
    ended.2.1.Confined o ended.2.2

end File

/-! ### Backends -/

/-- Laws of a backend for which `Holds` says what it has open, and `sink?` the writer that it has
open. It changes a disk by means of that writer only. -/
structure Backend.WritesThrough {β : Type} [Backend β] (Holds : Option Mode → β → Prop)
    (sink? : β → Option FileWriter) (o : WriteOptions) : Prop where
  lifecycle : Backend.Lifecycle Holds
  look : ∀ path b d, Holds none b → (Backend.acquire path .read b d).disk = d
  fail : ∀ path mode b d e, Holds none b → (Backend.acquire path mode b d).result = .error e →
    (Backend.acquire path mode b d).disk = d
  reject : ∀ path b d e, Holds none b → o.validate = .error e →
    (Backend.acquire path .write b d).result = .error e
  create : ∀ path b d, Holds none b → (Backend.acquire path .write b d).result = .ok () →
    ∃ w, d.create path = .ok (w.node, (Backend.acquire path .write b d).disk) ∧
      sink? (Backend.acquire path .write b d).state = some w ∧ w.position = 0
  write : ∀ bytes b d w, sink? b = some w → ∃ w',
    sink? (Backend.write bytes b d).state = some w' ∧ w.Through d w' (Backend.write bytes b d).disk
  flush : ∀ b d w, sink? b = some w → ∃ w',
    sink? (Backend.flush b d).state = some w' ∧ w.Through d w' (Backend.flush b d).disk
  close : ∀ b d w, sink? b = some w → ∃ w', w.Through d w' (Backend.close b d).2
  closeReading : ∀ b d, Holds (some .read) b → (Backend.close b d).2 = d
  currentOffset : ∀ b, sink? (Backend.currentOffset b).2 = sink? b
  release : ∀ b d, Holds none b → Backend.release b d = d

namespace File

variable {β : Type} [Backend β] {Holds : Option Mode → β → Prop} {sink? : β → Option FileWriter}
  {o : WriteOptions} {f : File β} {d : Disk}

/-- A handle on a disk that nobody else has changed: if it is open for writing, it goes on at the
end of the file that its path is bound to. -/
structure Kept (Holds : Option Mode → β → Prop) (sink? : β → Option FileWriter) (f : File β)
    (d : Disk) : Prop where
  coupled : f.Coupled Holds
  sink : f.opened = true → f.mode = .write →
    ∃ w, sink? f.backend = some w ∧ w.AtEnd d ∧ d.find? f.filename = some w.node

/-- What an operation may do that makes nothing: it adds to the file that the handle writes to, and
the handle goes on writing to that or to none. -/
structure Stays (Holds : Option Mode → β → Prop) (sink? : β → Option FileWriter) (f : File β)
    (d : Disk) (f' : File β) (d' : Disk) : Prop where
  kept : f'.Kept Holds sink? d'
  grows : Disk.Grows (f.writesTo? d) d d'
  writesTo : ∀ id, f'.writesTo? d' = some id → f.writesTo? d = some id

namespace Kept

omit [Backend β] in
/-- What is done through the writer of a handle. -/
private theorem of_through {filename : String} {b b' : β} {w w' : FileWriter} {d' : Disk}
    (hend : w.AtEnd d) (hfind : d.find? filename = some w.node) (hthrough : w.Through d w' d')
    (hw' : sink? b' = some w') (hb' : Holds (some .write) b') :
    Stays Holds sink? (⟨filename, .write, true, b⟩ : File β) d ⟨filename, .write, true, b'⟩ d' := by
  have hadvances := hthrough.advances
  have hgrows := hadvances.grows hend
  have hfind' : d'.find? filename = some w'.node := by
    rw [hgrows.find?_eq, hfind, hadvances.node_eq]
  refine ⟨⟨hb', fun _ _ => ⟨w', hw', (hadvances.appended hend).1, hfind'⟩⟩, ?_, fun id hid => ?_⟩
  · simpa [writesTo?, hfind] using hgrows
  · simpa [writesTo?, hfind, hfind', hadvances.node_eq] using hid

omit [Backend β] in
/-- What becomes of a handle that does not write then. -/
private theorem stays_of_not_writing {f' : File β} {d' : Disk} (hf' : f'.Coupled Holds)
    (hnot : ¬ (f'.opened = true ∧ f'.mode = .write)) (hgrows : Disk.Grows (f.writesTo? d) d d') :
    Stays Holds sink? f d f' d' where
  kept := ⟨hf', fun hopened hwrite => absurd ⟨hopened, hwrite⟩ hnot⟩
  grows := hgrows
  writesTo id hid := by
    rw [writesTo?, if_neg hnot] at hid
    cases hid

omit [Backend β] in
/-- What changes nothing but the backend of a handle that reads. -/
private theorem stays_of_read {f' : File β} (hf' : f'.Coupled Holds) (hmode : f'.mode = .read) :
    Stays Holds sink? f d f' d :=
  stays_of_not_writing hf' (by simp [hmode]) (.refl ..)

omit [Backend β] in
theorem stays_self (h : f.Kept Holds sink? d) : Stays Holds sink? f d f d :=
  ⟨h, .refl .., fun _ => id⟩

variable (hlaws : Backend.WritesThrough Holds sink? o)

include hlaws

section

variable (h : f.Kept Holds sink? d)

include h

theorem close : Stays Holds sink? f d (f.close d).1 (f.close d).2 := by
  obtain ⟨hclosed, hnone⟩ := h.coupled.close hlaws.lifecycle d
  have hcoupled : (f.close d).1.Coupled Holds := by rwa [Coupled, hclosed]
  refine stays_of_not_writing hcoupled (by simp [hclosed]) ?_
  obtain ⟨filename, mode, opened, b⟩ := f
  cases opened with
  | false => exact .refl ..
  | true =>
      show Disk.Grows _ d (Backend.close b d).2
      cases mode with
      | read =>
          rw [hlaws.closeReading b d h.coupled]
          exact .refl ..
      | write =>
          obtain ⟨w, hw, hend, hfind⟩ := h.sink rfl rfl
          obtain ⟨w', hthrough⟩ := hlaws.close b d w hw
          simpa [writesTo?, hfind] using hthrough.advances.grows hend

/-- Whatever else is done than to open a path. -/
theorem run {op : Operation} (hop : ¬ op.Opens) :
    Stays Holds sink? f d (op.run f d).2.1 (op.run f d).2.2 := by
  have hcoupled := h.coupled.run hlaws.lifecycle op d
  rcases refused_or_open f d hop with ⟨e, -, hrun, -⟩ | ⟨hopened, hright⟩
  · rw [hrun]
    exact h.stays_self
  obtain ⟨filename, mode, opened, b⟩ := f
  cases hopened
  cases op with
  | «open» path mode => exact absurd trivial hop
  | openBound => exact absurd trivial hop
  | ask request =>
      cases hright .read rfl
      refine stays_of_read hcoupled ?_
      cases request <;> rfl
  | perform request =>
      cases hright .write rfl
      obtain ⟨w, hw, hend, hfind⟩ := h.sink rfl rfl
      cases request with
      | write bytes =>
          obtain ⟨w', hw', hthrough⟩ := hlaws.write bytes b d w hw
          exact of_through hend hfind hthrough hw' hcoupled
      | flush =>
          obtain ⟨w', hw', hthrough⟩ := hlaws.flush b d w hw
          exact of_through hend hfind hthrough hw' hcoupled
  | close => exact h.close hlaws
  | currentOffset =>
      cases mode with
      | read =>
          refine stays_of_read hcoupled ?_
          cases hsupport : (⟨filename, .read, true, b⟩ : File β).supportsOffsets with
          | false => rw [Operation.run_currentOffset_of_unsupported hsupport]
          | true => rw [Operation.run_currentOffset_of_supported rfl hsupport]
      | write =>
          obtain ⟨w, hw, hend, hfind⟩ := h.sink rfl rfl
          cases hsupport : (⟨filename, .write, true, b⟩ : File β).supportsOffsets with
          | false =>
              rw [Operation.run_currentOffset_of_unsupported hsupport]
              exact h.stays_self
          | true =>
              rw [Operation.run_currentOffset_of_supported rfl hsupport] at hcoupled ⊢
              exact of_through hend hfind .refl (by rw [hlaws.currentOffset, hw]) hcoupled
  | percentRead =>
      cases hright .read rfl
      exact stays_of_read hcoupled rfl

theorem disk_open_read (path : String) : (f.open path .read d).disk = (f.close d).2 :=
  hlaws.look path _ _ (h.coupled.close hlaws.lifecycle d).2

theorem open_of_error {path : String} {mode : Mode} {e : Error}
    (herror : (f.open path mode d).result = .error e) :
    (f.open path mode d).state.opened = false ∧ (f.open path mode d).disk = (f.close d).2 := by
  refine ⟨?_, hlaws.fail path mode _ _ e (h.coupled.close hlaws.lifecycle d).2 herror⟩
  show (f.open path mode d).result.isOk = false
  rw [herror]
  rfl

theorem result_open_of_invalid {e : Error} (ho : o.validate = .error e) (path : String) :
    (f.open path .write d).result = .error e :=
  hlaws.reject path _ _ e (h.coupled.close hlaws.lifecycle d).2 ho

/-- A handle that was opened for writing starts at the end of the file that it has made. -/
theorem open_write {path : String} (hok : (f.open path .write d).result = .ok ()) :
    let opened := f.open path .write d
    ∃ id, (f.close d).2.create path = .ok (id, opened.disk) ∧
      opened.state.Kept Holds sink? opened.disk ∧ opened.state.writesTo? opened.disk = some id := by
  intro opened
  obtain ⟨w, hcreate, hw, hposition⟩ : ∃ w : FileWriter,
      (f.close d).2.create path = .ok (w.node, opened.disk) ∧
        sink? opened.state.backend = some w ∧ w.position = 0 :=
    hlaws.create path _ (f.close d).2 (h.coupled.close hlaws.lifecycle d).2 hok
  have hopened : opened.state.opened = true := by
    show opened.result.isOk = true
    rw [hok]
    rfl
  have hemptied := Disk.emptied_of_create hcreate
  refine ⟨w.node, hcreate, ⟨h.coupled.open hlaws.lifecycle path .write d, fun _ _ =>
    ⟨w, hw, fun data hnode => ?_, hemptied.bound⟩⟩, ?_⟩
  · rw [hposition]
    rcases hemptied.empty with hempty | ⟨hsame, hnot⟩
    · obtain rfl : .empty = data := by simpa [hempty] using hnode
      rfl
    · rw [hsame] at hnode
      exact absurd hnode (hnot data)
  · rw [writesTo?, if_pos ⟨hopened, rfl⟩]
    exact hemptied.bound

/-- What an operation may do: it makes a file, or it makes nothing. -/
theorem stays_or_makes (op : Operation) :
    Stays Holds sink? f d (op.run f d).2.1 (op.run f d).2.2 ∨
      ∃ path id, op.Makes path id f d ∧ (f.close d).2.create path = .ok (id, (op.run f d).2.2) ∧
        (op.run f d).2.1.Kept Holds sink? (op.run f d).2.2 ∧
        (op.run f d).2.1.writesTo? (op.run f d).2.2 = some id := by
  by_cases hop : op.Opens
  case neg => exact .inl (h.run hlaws hop)
  -- All that an opening changes before it makes a file is what closing changes.
  obtain ⟨path, mode, hopens⟩ := hop.exists_opens? f
  have hrun := Operation.run_of_opens? hopens d
  have hgrows := (h.close hlaws).grows
  have hcoupled := h.coupled.open hlaws.lifecycle path mode d
  cases hresult : (f.open path mode d).result with
  | error e =>
      obtain ⟨hclosed, hdisk⟩ := h.open_of_error hlaws hresult
      rw [hrun]
      exact .inl (stays_of_not_writing hcoupled (by simp [hclosed]) (by rwa [hdisk]))
  | ok =>
      cases mode with
      | read =>
          have hmode : (f.open path .read d).state.mode = .read := rfl
          rw [hrun]
          exact .inl (stays_of_not_writing hcoupled (by simp [hmode])
            (by rwa [h.disk_open_read hlaws]))
      | write =>
          obtain ⟨id, hcreate, hkept, hto⟩ := h.open_write hlaws hresult
          refine .inr ⟨path, id, ⟨hopens, by rw [hrun, hresult], ?_⟩, ?_⟩
          · rw [hrun]
            exact Disk.find?_create hcreate
          · rw [hrun]
            exact ⟨hcreate, hkept, hto⟩

/-- A handle stays at the end of its file whatever is done with it. -/
theorem run_any (op : Operation) : (op.run f d).2.1.Kept Holds sink? (op.run f d).2.2 := by
  rcases h.stays_or_makes hlaws op with hstays | ⟨-, -, -, -, hkept, -⟩
  · exact hstays.kept
  · exact hkept

end

theorem runAll (h : f.Kept Holds sink? d) (ops : List Operation) :
    (Operation.runAll ops f d).2.1.Kept Holds sink? (Operation.runAll ops f d).2.2 := by
  induction ops generalizing f d with
  | nil => exact h
  | cons op ops ih => exact ih (h.run_any hlaws op)

/-- Paths that are not made stay bound to what they were. -/
theorem names (h : f.Kept Holds sink? d) {path : String} {ops : List Operation}
    (hnot : ∀ id, ¬ Operation.Made path id ops f d) :
    (Operation.runAll ops f d).2.2.find? path = d.find? path := by
  induction ops generalizing f d with
  | nil => rfl
  | cons op ops ih =>
      have hfirst : (op.run f d).2.2.find? path = d.find? path := by
        -- Closing binds no names, and what is made then is another path.
        rcases h.stays_or_makes hlaws op with hstays | ⟨path', id, hmakes, hcreate, -⟩
        · exact hstays.grows.find?_eq path
        · have hne : path ≠ path' := fun heq => hnot id (.inl (heq ▸ hmakes))
          rw [Disk.find?_create_of_ne hcreate hne, (h.close hlaws).grows.find?_eq]
      exact (ih (h.run_any hlaws op) fun id hmade => hnot id (.inr hmade)).trans hfirst

/-- Nodes that are not made stay as they are, but for one that is being written to. -/
theorem nodes (h : f.Kept Holds sink? d) {id : Nat} {ops : List Operation}
    (hnot : ∀ path, ¬ Operation.Made path id ops f d) :
    d.Appended (Operation.runAll ops f d).2.2 id ∧
      (f.writesTo? d ≠ some id → (Operation.runAll ops f d).2.2.node? id = d.node? id) := by
  induction ops generalizing f d with
  | nil => exact ⟨.refl .., fun _ => rfl⟩
  | cons op ops ih =>
      -- The handle is still at the end of its file, so the rest of the run adds to that at most.
      obtain ⟨happended, hsame⟩ := ih (h.run_any hlaws op) fun path hmade => hnot path (.inr hmade)
      rcases h.stays_or_makes hlaws op with hstays | ⟨path, id', hmakes, hcreate, -, hto⟩
      · refine ⟨(hstays.grows.appended id).trans happended, fun hne => ?_⟩
        exact (hsame fun hid => hne (hstays.writesTo id hid)).trans (hstays.grows.same id hne)
      · -- From now on another node is written to. Closing is what may have added to this one.
        have hne : id ≠ id' := fun heq => hnot path (.inl (heq ▸ hmakes))
        have hlater := hsame fun hid => hne (Option.some.inj (hid.symm.trans hto))
        have hcreated := Disk.node?_create_of_ne hcreate hne
        have hclosed := (h.close hlaws).grows
        have hnode : (Operation.runAll (op :: ops) f d).2.2.node? id =
            (f.close d).2.node? id := hlater.trans hcreated
        refine ⟨?_, fun hne => hnode.trans (hclosed.same id hne)⟩
        rw [Disk.Appended, hnode]
        exact hclosed.appended id

theorem confined (h : f.Kept Holds sink? d) : f.Confined o d where
  names _ _ hnot := h.names hlaws hnot
  nodes ops id hnot := by
    obtain ⟨happended, hsame⟩ := h.nodes hlaws hnot
    by_cases hto : f.writesTo? d = some id
    · exact .inr ⟨hto, happended⟩
    · exact .inl (hsame hto)
  emptied op path hopens hok := by
    rw [Operation.run_of_opens? hopens] at hok ⊢
    obtain ⟨id, hcreate, -⟩ := h.open_write hlaws (Reply.done.inj hok)
    exact ⟨id, Disk.emptied_of_create hcreate⟩
  looked op path hopens := by
    rw [Operation.run_of_opens? hopens]
    exact h.disk_open_read hlaws path
  failed op e hop herror := by
    obtain ⟨path, mode, hopens⟩ := hop.exists_opens? f
    rw [Operation.run_of_opens? hopens] at herror ⊢
    exact h.open_of_error hlaws (Reply.done.inj herror)
  rejected op path e hopens ho := by
    rw [Operation.run_of_opens? hopens, h.result_open_of_invalid hlaws ho]
  released := hlaws.release _ _ (h.coupled.close hlaws.lifecycle d).2

end Kept

theorem keepsToItself_of_laws (hlaws : Backend.WritesThrough Holds sink? o) {b : β}
    (hb : Holds none b) : KeepsToItself b o := by
  intro filename mode d ops ended
  have hnew : (File.bound b filename mode).Kept Holds sink? d :=
    ⟨hb, fun hopened => by cases hopened⟩
  exact (hnew.runAll hlaws ops).confined hlaws

end File

namespace Chunked

variable {σ : Type} {c : Codec σ} {o : WriteOptions}

/-- The writer of what is open for writing. -/
def sink? (b : Chunked σ) : Option FileWriter :=
  match b.state with
  | .writing w => some w.sink
  | _ => none

theorem exists_writer_of_sink? {b : Chunked σ} {w : FileWriter} (h : b.sink? = some w) :
    ∃ w', b.state = .writing w' ∧ w'.sink = w := by
  rw [sink?] at h
  split at h
  case h_1 w' hstate => exact ⟨w', hstate, Option.some.inj h⟩
  case h_2 => cases h

theorem writesThrough (c : Codec σ) (o : WriteOptions) :
    Backend.WritesThrough (Holds c o) sink? o where
  lifecycle := lifecycle c o
  look path b d hb := by
    obtain ⟨memory, rfl⟩ := hb.exists_new
    show (acquire path .read _ d).disk = d
    rw [acquire]
    split <;> rfl
  fail path mode b d e hb herror := by
    change (acquire path mode b d).result = _ at herror
    show (acquire path mode b d).disk = d
    cases mode <;> rw [acquire] at herror ⊢ <;> split at herror
    · rfl
    · cases herror
    · rfl
    · cases herror
  reject path b d e hb ho := by
    obtain ⟨memory, rfl⟩ := hb.exists_new
    show (acquire path .write _ d).result = _
    simp [acquire, ChunkWriter.create, Chunked.new, ho]
  create path b d hb hok := by
    obtain ⟨memory, rfl⟩ := hb.exists_new
    change (acquire path .write _ d).result = _ at hok
    show ∃ w, d.create path = .ok (w.node, (acquire path .write _ d).disk) ∧
      (acquire path .write _ d).state.sink? = some w ∧ w.position = 0
    rw [acquire] at hok ⊢
    split at hok
    case h_1 => cases hok
    case h_2 w d' hcreate =>
      obtain ⟨-, id, hmade, rfl⟩ := ChunkWriter.create_ok_iff.1 hcreate
      exact ⟨⟨id, 0, c.magicBytes⟩, hmade, rfl, rfl⟩
  write bytes b d w hw := by
    obtain ⟨w', hstate, rfl⟩ := exists_writer_of_sink? hw
    obtain ⟨c, memory, o, _⟩ := b
    cases hstate
    exact ⟨_, rfl, ChunkWriter.through_perform c o (.write bytes) (memory, w') d⟩
  flush b d w hw := by
    obtain ⟨w', hstate, rfl⟩ := exists_writer_of_sink? hw
    obtain ⟨c, memory, o, _⟩ := b
    cases hstate
    exact ⟨_, rfl, ChunkWriter.through_perform c o .flush (memory, w') d⟩
  close b d w hw := by
    obtain ⟨w', hstate, rfl⟩ := exists_writer_of_sink? hw
    obtain ⟨c, memory, o, _⟩ := b
    cases hstate
    exact ⟨_, (ChunkWriter.through_emit c o w' memory d).flush⟩
  closeReading b d hb := by
    obtain ⟨memory, r, rfl⟩ := hb.exists_reader
    rfl
  currentOffset _ := rfl
  release b d hb := by
    obtain ⟨memory, rfl⟩ := hb.exists_new
    rfl

end Chunked

namespace Streamed

variable {δ ε : Type} [StreamDecoder δ] [StreamEncoder ε] {sink : ε → FileWriter}

/-- The writer of what is open for writing, if encoders have writers. -/
def sink? (sink : ε → FileWriter) (b : Streamed δ ε) : Option FileWriter :=
  match b.state with
  | .writing encoder => some (sink encoder)
  | _ => none

omit [StreamDecoder δ] [StreamEncoder ε] in
theorem exists_encoder_of_sink? {b : Streamed δ ε} {w : FileWriter} (h : b.sink? sink = some w) :
    ∃ encoder, b.state = .writing encoder ∧ sink encoder = w := by
  rw [sink?] at h
  split at h
  case h_1 encoder hstate => exact ⟨encoder, hstate, Option.some.inj h⟩
  case h_2 => cases h

theorem writesThrough (hsink : StreamEncoder.WritesThrough sink) (o : WriteOptions) :
    Backend.WritesThrough (Holds o : Option Mode → Streamed δ ε → Prop) (sink? sink) o where
  lifecycle := lifecycle o
  look path b d hb := by
    obtain rfl := hb.eq_new
    show (acquire path .read _ d).disk = d
    rw [acquire]
    split <;> rfl
  fail path mode b d e hb herror := by
    change (acquire path mode b d).result = _ at herror
    show (acquire path mode b d).disk = d
    cases mode with
    | read =>
        rw [acquire] at herror ⊢
        split at herror
        · rfl
        · cases herror
    | write =>
        rw [acquire] at herror ⊢
        split at herror
        · rfl
        split at herror
        · rfl
        · cases herror
  reject path b d e hb ho := by
    obtain rfl := hb.eq_new
    show (acquire path .write _ d).result = _
    simp [acquire, Streamed.new, ho]
  create path b d hb hok := by
    obtain rfl := hb.eq_new
    change (acquire path .write (Streamed.new o) d).result = _ at hok
    show ∃ w, d.create path = .ok (w.node, (acquire path .write (Streamed.new o) d).disk) ∧
      (acquire path .write (Streamed.new o) d).state.sink? sink = some w ∧ w.position = 0
    rw [acquire] at hok ⊢
    split at hok
    · cases hok
    split at hok
    · cases hok
    case h_2 id d' hcreate =>
      exact ⟨.start id, hcreate, congrArg some (hsink.start o (.start id)), rfl⟩
  write bytes b d w hw := by
    obtain ⟨encoder, hstate, rfl⟩ := exists_encoder_of_sink? hw
    obtain ⟨o, _⟩ := b
    cases hstate
    exact ⟨_, rfl, hsink.perform (.write bytes) encoder d⟩
  flush b d w hw := by
    obtain ⟨encoder, hstate, rfl⟩ := exists_encoder_of_sink? hw
    obtain ⟨o, _⟩ := b
    cases hstate
    exact ⟨_, rfl, hsink.perform .flush encoder d⟩
  close b d w hw := by
    obtain ⟨encoder, hstate, rfl⟩ := exists_encoder_of_sink? hw
    obtain ⟨o, _⟩ := b
    cases hstate
    obtain ⟨w, d', hthrough, hfinish⟩ := hsink.finish encoder d
    refine ⟨(w.flush d').state, ?_⟩
    show (sink encoder).Through d (w.flush d').state (StreamEncoder.finish encoder d)
    rw [hfinish]
    exact hthrough.flush
  closeReading b d hb := by
    obtain ⟨r, rfl⟩ := hb.exists_reader
    rfl
  currentOffset _ := rfl
  release b d hb := by
    obtain rfl := hb.eq_new
    rfl

end Streamed

/-! ### Backends that stand for others -/

section

variable {β γ : Type} [Backend β] [Backend γ] {g : β → γ} (hg : Backend.Embeds g)

omit [Backend β] [Backend γ] in
theorem Operation.opens?_map (op : Operation) (f : File β) : op.opens? (f.map g) = op.opens? f := by
  cases op <;> rfl

include hg

theorem Operation.makes_map {path : String} {id : Nat} {op : Operation} {f : File β} {d : Disk} :
    op.Makes path id (f.map g) d ↔ op.Makes path id f d := by
  constructor
  · rintro ⟨hopen, hok, hbound⟩
    rw [Operation.run_map hg] at hok hbound
    exact ⟨opens?_map op f ▸ hopen, hok, hbound⟩
  · rintro ⟨hopen, hok, hbound⟩
    refine ⟨(opens?_map op f).trans hopen, ?_, ?_⟩
    · rw [Operation.run_map hg]
      exact hok
    · rw [Operation.run_map hg]
      exact hbound

theorem Operation.made_map {path : String} {id : Nat} {ops : List Operation} {f : File β}
    {d : Disk} : Made path id ops (f.map g) d ↔ Made path id ops f d := by
  induction ops generalizing f d with
  | nil => exact Iff.rfl
  | cons op ops ih =>
      rw [Made, Made, Operation.run_map hg, makes_map hg]
      exact or_congr_right ih

/-- A handle over a backend that stands for another one is confined as a handle over that one. -/
theorem File.Confined.map {o : WriteOptions} {f : File β} {d : Disk} (h : f.Confined o d) :
    (f.map g).Confined o d := by
  constructor
  · intro ops path hnot
    rw [Operation.runAll_map hg]
    exact h.names ops path fun id hmade => hnot id ((Operation.made_map hg).2 hmade)
  · intro ops id hnot
    rw [Operation.runAll_map hg]
    exact h.nodes ops id fun path hmade => hnot path ((Operation.made_map hg).2 hmade)
  · intro op path hopen hok
    rw [Operation.run_map hg] at hok ⊢
    rw [File.close_map hg]
    exact h.emptied op path (Operation.opens?_map op f ▸ hopen) hok
  · intro op path hopen
    rw [Operation.run_map hg, File.close_map hg]
    exact h.looked op path (Operation.opens?_map op f ▸ hopen)
  · intro op e hop herror
    rw [Operation.run_map hg] at herror ⊢
    rw [File.close_map hg]
    exact h.failed op e hop herror
  · intro op path e hopen ho
    rw [Operation.run_map hg]
    exact h.rejected op path e (Operation.opens?_map op f ▸ hopen) ho
  · rw [File.release_map hg, File.close_map hg]
    exact h.released

theorem File.KeepsToItself.map {o : WriteOptions} {b : β} (h : KeepsToItself b o) :
    KeepsToItself (g b) o := by
  intro filename mode d ops ended
  have hended : ended = (Operation.runAll ops (File.bound b filename mode) d).map id
      (Prod.map (File.map g) id) := Operation.runAll_map hg ops (File.bound b filename mode) d
  rw [hended]
  exact (h filename mode d ops).map hg

end

/-! ### Traces -/

/-- Whether a new handle over a backend fails to open a path, and then is closed and has changed
nothing. -/
def File.FailsToOpen {β : Type} [Backend β] (b : β) (path : String) (mode : Mode) (d : Disk)
    (e : Error) : Prop :=
  ∃ f, (File.new b).open path mode d = ⟨.error e, f, d⟩ ∧ f.opened = false

namespace File.KeepsToItself

variable {β : Type} [Backend β] {b : β} {o : WriteOptions} (h : KeepsToItself b o) {path : String}
  {d : Disk}

include h

theorem confined_new : (File.new b).Confined o d := h "" .read d []

theorem disk_open_read : ((File.new b).open path .read d).disk = d :=
  h.confined_new.looked (.open path .read) path rfl

theorem emptied (hok : ((File.new b).open path .write d).result = .ok ()) :
    ∃ id, d.Emptied path id ((File.new b).open path .write d).disk :=
  h.confined_new.emptied (.open path .write) path rfl (congrArg Reply.done hok)

theorem failsToOpen {mode : Mode} {e : Error}
    (herror : ((File.new b).open path mode d).result = .error e) :
    FailsToOpen b path mode d e := by
  obtain ⟨hclosed, hdisk⟩ :=
    h.confined_new.failed (.open path mode) e trivial (congrArg Reply.done herror)
  have hsame : ((File.new b).open path mode d).disk = d := hdisk
  refine ⟨((File.new b).open path mode d).state, ?_, hclosed⟩
  rw [Outcome.eq_of_result herror, hsame]

end File.KeepsToItself

/-- What opening a path as a trace does to a disk. -/
structure Trace.OpensConfined [Compression] (o : WriteOptions) (path : String) (d : Disk) :
    Prop where
  read : ∀ t d', openForRead path d = .ok (t, d') → d' = d
  /-- No format is found, and nothing is opened, or the path cannot be opened in the one found. -/
  readFailed : ∀ e, openForRead path d = .error e →
    (Format.detect path d = none ∧ e = .unknownFormat) ∨
    ∃ format, Format.detect path d = some format ∧
      File.FailsToOpen (AnyBackend.ofFormat default format) path .read d e
  write : ∀ format t d', openForWrite path format o d = .ok (t, d') → ∃ id, d.Emptied path id d'
  writeFailed : ∀ format e, openForWrite path format o d = .error e →
    File.FailsToOpen (AnyBackend.ofFormat o format) path .write d e

section

variable [Compression] {sink : Compression.Encoder → FileWriter}
  (hsink : StreamEncoder.WritesThrough sink)

include hsink

theorem AnyBackend.keepsToItself (o : WriteOptions) (format : Format) :
    File.KeepsToItself (ofFormat o format) o := by
  rw [ofFormat]
  cases format.codec? with
  | some c =>
      have hlaws := Chunked.writesThrough c o
      exact (File.keepsToItself_of_laws hlaws ⟨rfl, rfl, rfl⟩).map embeds_chunked
  | none =>
      have hlaws := Streamed.writesThrough (δ := Compression.Decoder) hsink o
      exact (File.keepsToItself_of_laws hlaws ⟨rfl, rfl⟩).map embeds_gzip

theorem Trace.opensConfined (o : WriteOptions) (path : String) (d : Disk) :
    OpensConfined o path d where
  read t d' hok := by
    obtain ⟨format, -, hopen⟩ := openForRead_eq_ok.1 hok
    have hdisk : ((File.new (AnyBackend.ofFormat default format)).open path .read d).disk = d :=
      (AnyBackend.keepsToItself hsink default format).disk_open_read
    rwa [hopen] at hdisk
  readFailed e herror := by
    rcases openForRead_eq_error.1 herror with hnone | ⟨format, hformat, hresult⟩
    · exact .inl hnone
    · have hkeeps := AnyBackend.keepsToItself hsink default format
      exact .inr ⟨format, hformat, hkeeps.failsToOpen hresult⟩
  write format t d' hok := by
    have hopen := openForWrite_eq_ok.1 hok
    obtain ⟨id, hemptied⟩ :=
      (AnyBackend.keepsToItself hsink o format).emptied (congrArg Outcome.result hopen)
    rw [hopen] at hemptied
    exact ⟨id, hemptied⟩
  writeFailed format e herror := by
    have hkeeps := AnyBackend.keepsToItself hsink o format
    exact hkeeps.failsToOpen (openForWrite_eq_error.1 herror)

end

/-- Whatever is done with a handle over the backend of some format, with any options and on any
disk, it changes nothing but the files that it makes: those that it opens for writing with success,
which are emptied then and added to at their ends from then on. Opening a path with invalid options,
or failing to open it for another reason, leaves the handle closed and the disk as closing has left
it, and opening a path for reading changes nothing either. So it is with traces, whose format is
found out when they are opened for reading. -/
theorem File.touches_only_made [Compression] {sink : Compression.Encoder → FileWriter}
    (hsink : StreamEncoder.WritesThrough sink) (o : WriteOptions) :
    (∀ (format : Format) (c : Codec Compression.Memory), format.codec? = some c →
      ∀ memory, KeepsToItself (Chunked.new c memory o) o) ∧
    KeepsToItself (Streamed.new o : GzipBackend) o ∧
    (∀ format, KeepsToItself (AnyBackend.ofFormat o format) o) ∧
    ∀ path d, Trace.OpensConfined o path d := by
  refine ⟨fun format c _ memory => ?_, ?_, AnyBackend.keepsToItself hsink o,
    Trace.opensConfined hsink o⟩
  · exact keepsToItself_of_laws (Chunked.writesThrough c o) ⟨rfl, rfl, rfl⟩
  · have hlaws := Streamed.writesThrough (δ := Compression.Decoder) hsink o
    exact keepsToItself_of_laws hlaws ⟨rfl, rfl⟩

/-- A handle makes one file and then fails to open another that is no trace. The first holds what
was written, and the second is as it was. -/
theorem File.touches_only_made_snappy :
    let d : Disk := ⟨[("t", 0), ("u", 1)], #[.file ⟨#[1, 2, 3]⟩, .file ⟨#[2]⟩]⟩
    let ops : List Operation := [.open "t" .write, .perform (.write ⟨#[7]⟩), .open "u" .read]
    let ended := Operation.runAll ops (File.bound (Chunked.new Snappy.codec () default) "" .read) d
    let ended' := Operation.runAll ops (File.bound (.new default : @GzipBackend .stored) "" .read) d
    (ended.2.2.contents? "t" = some ⟨#[0x61, 0x74, 3, 0, 0, 0, 1, 0, 7]⟩ ∧
      ended.2.2.contents? "u" = some ⟨#[2]⟩ ∧ ended.2.1.Confined default ended.2.2) ∧
      ended'.2.1.opened = true ∧ ended'.2.2.contents? "u" = some ⟨#[2]⟩ ∧
        ended'.2.1.Confined default ended'.2.2 := by
  intro d ops ended ended'
  obtain ⟨hchunked, hgzip, -⟩ :=
    @touches_only_made .stored Gzip.Encoder.sink Gzip.Encoder.writesThrough default
  exact ⟨⟨by decide +kernel, by decide +kernel,
      hchunked .snappy Snappy.codec rfl () "" .read d ops⟩,
    by decide +kernel, by decide +kernel, hgzip "" .read d ops⟩

end TraceStore
