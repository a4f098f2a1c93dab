import TraceStore.Disk.Writer
import TraceStore.Proofs.Bytes

/-!
# What a buffered writer leaves in its file

A `FileWriter` on a file has passed on some of the bytes written to it and holds the others back,
and it changes nothing else on the disk: `FileWriter.Wrote`. Once it is given up, the file holds
exactly the bytes written: `FileWriter.Wrote.release`.
-/
namespace TraceStore
namespace Disk

variable {d : Disk} {id : Nat} {data : ByteArray}

theorem node?_setNode {node : Node} (h : id < d.nodes.size) :
    (d.setNode id node).node? id = some node := by
  simp [node?, setNode, h]

theorem node?_setNode_of_ne {other : Nat} {node : Node} (h : other ≠ id) :
    (d.setNode id node).node? other = d.node? other := by
  simp [node?, setNode, Ne.symm h]

theorem setNode_setNode (d : Disk) (id : Nat) (node node' : Node) :
    (d.setNode id node).setNode id node' = d.setNode id node' := by
  simp [setNode]

theorem setNode_self {node : Node} (h : d.node? id = some node) : d.setNode id node = d := by
  obtain ⟨hlt, hget⟩ := Array.getElem?_eq_some_iff.1 h
  simp only [setNode]
  congr 1
  apply Array.ext_getElem?
  intro i
  by_cases hi : id = i
  · subst hi
    simp [hlt, hget]
  · simp [hi]

theorem find?_setNode (d : Disk) (id : Nat) (node : Node) (path : String) :
    (d.setNode id node).find? path = d.find? path := rfl

theorem contents?_setNode {path : String} (hpath : d.find? path = some id)
    (h : id < d.nodes.size) : (d.setNode id (.file data)).contents? path = some data := by
  simp [contents?, find?_setNode, hpath, node?_setNode h]

/-- Writing behind the end of a file adds bytes to it. -/
theorem writeAt_end (h : d.node? id = some (.file data)) (bytes : ByteArray) :
    d.writeAt id data.size bytes = .ok (d.setNode id (.file (data ++ bytes))) := by
  simp [writeAt, h, splice]

/-- Whether a node was at most added to, at the end of a file. -/
def Appended (d d' : Disk) (id : Nat) : Prop :=
  d'.node? id = d.node? id ∨
    ∃ data more, d.node? id = some (.file data) ∧ d'.node? id = some (.file (data ++ more))

theorem Appended.refl (d : Disk) (id : Nat) : d.Appended d id := .inl rfl

theorem Appended.trans {d' d'' : Disk} (h : d.Appended d' id) (h' : d'.Appended d'' id) :
    d.Appended d'' id := by
  rcases h with hsame | ⟨data, more, hold, hnew⟩
  · rwa [Appended, hsame] at h'
  rcases h' with hsame' | ⟨data', more', hold', hnew'⟩
  · exact .inr ⟨data, more, hold, hsame'.trans hnew⟩
  · obtain rfl : data' = data ++ more := by simpa [hnew] using hold'.symm
    exact .inr ⟨data, more ++ more', hold, by rw [hnew', ByteArray.append_assoc]⟩

/-- Writing binds no names. -/
theorem names_of_writeAt {position : Nat} {bytes : ByteArray} {d' : Disk}
    (h : d.writeAt id position bytes = .ok d') : d'.names = d.names := by
  rw [writeAt] at h
  split at h
  · rw [← Except.ok.inj h, setNode]
  · split at h
    · rw [← Except.ok.inj h]
    · cases h
  · rw [← Except.ok.inj h]

/-- Writing to a node that holds no file leaves the disk as it is. -/
theorem eq_of_writeAt {position : Nat} {bytes : ByteArray} {d' : Disk}
    (h : d.writeAt id position bytes = .ok d') (hfile : ∀ data, d.node? id ≠ some (.file data)) :
    d' = d := by
  rw [writeAt] at h
  split at h
  case h_1 hnode => exact absurd hnode (hfile _)
  · split at h
    · exact (Except.ok.inj h).symm
    · cases h
  · exact (Except.ok.inj h).symm

/-- Writing to a node leaves the other nodes as they are. -/
theorem node?_of_writeAt {position other : Nat} {bytes : ByteArray} {d' : Disk}
    (h : d.writeAt id position bytes = .ok d') (hne : other ≠ id) :
    d'.node? other = d.node? other := by
  rw [writeAt] at h
  split at h
  · rw [← Except.ok.inj h, node?_setNode_of_ne hne]
  · split at h
    · rw [← Except.ok.inj h]
    · cases h
  · rw [← Except.ok.inj h]

/-- What creating a path does: it makes a new file, empties one, or leaves everything as it is if
no file is bound to the path. -/
theorem cases_of_create {path : String} {d' : Disk} (h : d.create path = .ok (id, d')) :
    (d.find? path = none ∧ id = d.nodes.size ∧
      d' = ⟨(path, id) :: d.names, d.nodes.push (.file .empty)⟩) ∨
    d.find? path = some id ∧
      ((∃ data, d.node? id = some (.file data)) ∧ d' = d.setNode id (.file .empty) ∨
        (∀ data, d.node? id ≠ some (.file data)) ∧ d' = d) := by
  rw [create] at h
  split at h
  case h_1 hfind =>
    rw [bind] at h
    split at h
    · cases h
    · obtain ⟨rfl, rfl⟩ := Prod.mk.inj (Except.ok.inj h)
      exact .inl ⟨hfind, rfl, rfl⟩
  case h_2 hfind =>
    split at h
    · cases h
    case h_2 data hnode =>
      obtain ⟨rfl, rfl⟩ := Prod.mk.inj (Except.ok.inj h)
      exact .inr ⟨hfind, .inl ⟨⟨data, hnode⟩, rfl⟩⟩
    case h_3 hnode =>
      obtain ⟨rfl, rfl⟩ := Prod.mk.inj (Except.ok.inj h)
      exact .inr ⟨hfind, .inr ⟨hnode, rfl⟩⟩

/-- Creating a path leaves the nodes as they are that it is not bound to then. -/
theorem node?_create_of_ne {path : String} {other : Nat} {d' : Disk}
    (h : d.create path = .ok (id, d')) (hne : other ≠ id) : d'.node? other = d.node? other := by
  rcases cases_of_create h with ⟨-, rfl, rfl⟩ | ⟨-, ⟨-, rfl⟩ | ⟨-, rfl⟩⟩
  · simp [node?, Array.getElem?_push, hne]
  · exact node?_setNode_of_ne hne
  · rfl

/-- Creating a path leaves the nodes as they are that other paths are bound to. -/
theorem node?_of_create {path : String} {other : Nat} {d' : Disk}
    (h : d.create path = .ok (id, d')) (hother : other < d.nodes.size)
    (hne : d.find? path ≠ some other) : d'.node? other = d.node? other ∧ other ≠ id := by
  have hother' : other ≠ id := by
    rcases cases_of_create h with ⟨-, rfl, -⟩ | ⟨hfind, -⟩
    · exact Nat.ne_of_lt hother
    · exact fun heq => hne (heq ▸ hfind)
  exact ⟨node?_create_of_ne h hother', hother'⟩

/-- Whether creating a path makes an empty file of it, and not just opens a device. -/
def Creatable (d : Disk) (path : String) : Prop :=
  ∃ id d', d.create path = .ok (id, d') ∧ d'.node? id = some (.file .empty)

/-- A path that was created is bound to the node that it was created as. -/
theorem find?_create {path : String} {d' : Disk} (h : d.create path = .ok (id, d')) :
    d'.find? path = some id := by
  rcases cases_of_create h with ⟨-, rfl, rfl⟩ | ⟨hfind, ⟨-, rfl⟩ | ⟨-, rfl⟩⟩
  · simp [find?]
  · exact hfind
  · exact hfind

/-- Creating a path leaves the other paths bound to what they were. -/
theorem find?_create_of_ne {path other : String} {d' : Disk} (h : d.create path = .ok (id, d'))
    (hne : other ≠ path) : d'.find? other = d.find? other := by
  rcases cases_of_create h with ⟨-, rfl, rfl⟩ | ⟨-, ⟨-, rfl⟩ | ⟨-, rfl⟩⟩
  · simp [find?, List.lookup_cons, beq_false_of_ne hne]
  · rfl
  · rfl

end Disk

namespace FileWriter

/-- Passes on as many of the bytes that are held back. A writer may do so at any time. -/
def spill (count : Nat) (w : FileWriter) (d : Disk) : FileWriter × Disk :=
  match w.passOn (w.pending.extract 0 count) d with
  | ⟨.ok (), w', d⟩ => ({ w' with pending := w.pending.extract count w.pending.size }, d)
  | ⟨.error _, w', d⟩ => (w', d)

/-- A writer of a file of the disk `d₀` to which the bytes `s` were written: it has passed some of
them on, and nothing else has changed since. -/
structure Wrote (d₀ : Disk) (id : Nat) (s : List UInt8) (w : FileWriter) (d : Disk) : Prop where
  node_eq : w.node = id
  id_lt : id < d₀.nodes.size
  passed : ∃ data, d = d₀.setNode id (.file data) ∧ w.position = data.size ∧
    s = data.data.toList ++ w.pending.data.toList

variable {d₀ d : Disk} {id : Nat} {s : List UInt8} {w : FileWriter}

/-- What a file refuses changes nothing. -/
theorem disk_passOn_of_error {w : FileWriter} {bytes : ByteArray} {d : Disk} {e : Error}
    (h : (w.passOn bytes d).result = .error e) : (w.passOn bytes d).disk = d := by
  rw [passOn] at h ⊢
  split
  · rename_i hwrite
    rw [hwrite] at h
    cases h
  · rfl

/-- A flush that succeeds holds nothing back. -/
theorem pending_of_flush {w : FileWriter} {d : Disk} (h : (w.flush d).result = .ok ()) :
    (w.flush d).state.pending = .empty := by
  rw [flush] at h ⊢
  split
  · rfl
  · rename_i hresult
    rw [hresult] at h
    cases h

/-! ### What a writer does not do -/

/-- Whether a writer goes on at the end of its file. -/
def AtEnd (w : FileWriter) (d : Disk) : Prop :=
  ∀ data, d.node? w.node = some (.file data) → w.position = data.size

/-- What a writer and its disk may become: it does not go back in its file, leaves names and the
other nodes as they are, and adds to the end of its file if it was there. -/
structure Advances (w : FileWriter) (d : Disk) (w' : FileWriter) (d' : Disk) : Prop where
  node_eq : w'.node = w.node
  position_le : w.position ≤ w'.position
  same : ∀ other, other ≠ w.node → d'.node? other = d.node? other
  names_eq : d'.names = d.names
  appended : w.AtEnd d → w'.AtEnd d' ∧ d.Appended d' w.node

theorem Advances.refl (w : FileWriter) (d : Disk) : w.Advances d w d :=
  ⟨rfl, Nat.le_refl _, fun _ _ => rfl, rfl, fun h => ⟨h, .refl ..⟩⟩

theorem Advances.trans {w w' w'' : FileWriter} {d d' d'' : Disk} (h : w.Advances d w' d')
    (h' : w'.Advances d' w'' d'') : w.Advances d w'' d'' where
  node_eq := h'.node_eq.trans h.node_eq
  position_le := Nat.le_trans h.position_le h'.position_le
  same other hne := (h'.same other (by rwa [h.node_eq])).trans (h.same other hne)
  names_eq := h'.names_eq.trans h.names_eq
  appended hend := by
    obtain ⟨hend', happended⟩ := h.appended hend
    obtain ⟨hend'', happended'⟩ := h'.appended hend'
    rw [h.node_eq] at happended'
    exact ⟨hend'', happended.trans happended'⟩

theorem advances_passOn (w : FileWriter) (bytes : ByteArray) (d : Disk) :
    w.Advances d (w.passOn bytes d).state (w.passOn bytes d).disk := by
  rw [passOn]
  split
  case h_1 d' hwrite =>
    refine ⟨rfl, Nat.le_add_right .., fun _ hne => Disk.node?_of_writeAt hwrite hne,
      Disk.names_of_writeAt hwrite, fun hend => ?_⟩
    by_cases hfile : ∃ data, d.node? w.node = some (.file data)
    · obtain ⟨data, hnode⟩ := hfile
      rw [hend data hnode, Disk.writeAt_end hnode] at hwrite
      have hgrown : d'.node? w.node = some (.file (data ++ bytes)) := by
        rw [← Except.ok.inj hwrite, Disk.node?_setNode (Array.getElem?_eq_some_iff.1 hnode).1]
      refine ⟨fun data' hnode' => ?_, .inr ⟨data, bytes, hnode, hgrown⟩⟩
      obtain rfl : data ++ bytes = data' := by simpa [hgrown] using hnode'
      rw [ByteArray.size_append, ← hend data hnode]
    · have hnot : ∀ data, d.node? w.node ≠ some (.file data) := fun data hnode =>
        hfile ⟨data, hnode⟩
      rw [Disk.eq_of_writeAt hwrite hnot]
      exact ⟨fun data hnode => absurd hnode (hnot data), .refl ..⟩
  case h_2 => exact .refl w d

theorem advances_flush (w : FileWriter) (d : Disk) :
    w.Advances d (w.flush d).state (w.flush d).disk := by
  have hpassed := w.advances_passOn w.pending d
  rw [flush]
  split
  · exact ⟨hpassed.node_eq, hpassed.position_le, hpassed.same, hpassed.names_eq, hpassed.appended⟩
  case h_2 e hresult =>
    rw [disk_passOn_of_error hresult]
    exact .refl w d

theorem advances_write (w : FileWriter) (bytes : ByteArray) (d : Disk) :
    w.Advances d (w.write bytes d).state (w.write bytes d).disk := by
  rw [write]
  split
  · exact ⟨rfl, Nat.le_refl _, fun _ _ => rfl, rfl, fun h => ⟨h, .refl ..⟩⟩
  · generalize hroom : (if w.pending.size + bytes.size ≤ blockSize then
        (⟨.ok (), w, d⟩ : Outcome FileWriter Unit) else w.flush d) = room
    have hmade : w.Advances d room.state room.disk := by
      rw [← hroom]
      split
      · exact .refl w d
      · exact w.advances_flush d
    dsimp only
    split
    · exact hmade
    · split
      · exact hmade.trans (advances_passOn ..)
      · exact ⟨hmade.node_eq, hmade.position_le, hmade.same, hmade.names_eq, hmade.appended⟩

/-- What a writer and its disk become by writing and flushing. -/
inductive Through (w : FileWriter) (d : Disk) : FileWriter → Disk → Prop
  | refl : Through w d w d
  | write {w' : FileWriter} {d' : Disk} (bytes : ByteArray) :
      Through w d w' d' → Through w d (w'.write bytes d').state (w'.write bytes d').disk
  | flush {w' : FileWriter} {d' : Disk} :
      Through w d w' d' → Through w d (w'.flush d').state (w'.flush d').disk

theorem Through.trans {w w' w'' : FileWriter} {d d' d'' : Disk} (h : w.Through d w' d')
    (h' : w'.Through d' w'' d'') : w.Through d w'' d'' := by
  induction h' with
  | refl => exact h
  | write bytes _ ih => exact ih.write bytes
  | flush _ ih => exact ih.flush

theorem Through.advances {w w' : FileWriter} {d d' : Disk} (h : w.Through d w' d') :
    w.Advances d w' d' := by
  induction h with
  | refl => exact .refl w d
  | write bytes _ ih => exact ih.trans (advances_write ..)
  | flush _ ih => exact ih.trans (advances_flush ..)

/-! ### The bytes written -/

/-- A writer just started on an empty file. -/
theorem wrote_start (h : d₀.node? id = some (.file .empty)) :
    (start id).Wrote d₀ id [] d₀ where
  node_eq := rfl
  id_lt := (Array.getElem?_eq_some_iff.1 h).1
  passed := ⟨.empty, (Disk.setNode_self h).symm, rfl, rfl⟩

namespace Wrote

/-- Passing on goes behind what was passed on before. -/
private theorem passOn {data : ByteArray} (hnode : w.node = id) (hid : id < d₀.nodes.size)
    (hd : d = d₀.setNode id (.file data)) (hposition : w.position = data.size) (bytes : ByteArray) :
    w.passOn bytes d = ⟨.ok (), { w with position := (data ++ bytes).size },
      d₀.setNode id (.file (data ++ bytes))⟩ := by
  have hfile : d.node? w.node = some (.file data) := by rw [hnode, hd, Disk.node?_setNode hid]
  rw [FileWriter.passOn, hposition, Disk.writeAt_end hfile, hnode, hd, Disk.setNode_setNode]
  simp

/-- A flush passes everything on. -/
theorem flush (h : w.Wrote d₀ id s d) :
    ∃ w', w.flush d = ⟨.ok (), w', d₀.setNode id (.file ⟨s.toArray⟩)⟩ ∧ w'.pending = .empty ∧
      w'.Wrote d₀ id s (d₀.setNode id (.file ⟨s.toArray⟩)) := by
  obtain ⟨hnode, hid, data, hd, hposition, rfl⟩ := h
  have hbytes : (⟨(data.data.toList ++ w.pending.data.toList).toArray⟩ : ByteArray) =
      data ++ w.pending := eq_of_toList_eq (by simp)
  refine ⟨{ w with position := (data ++ w.pending).size, pending := .empty }, ?_, rfl, hnode, hid,
    data ++ w.pending, by rw [hbytes], rfl, by simp⟩
  simp only [FileWriter.flush, passOn hnode hid hd hposition, hbytes]

/-- Writing succeeds, and adds the bytes to those written. -/
theorem write (h : w.Wrote d₀ id s d) (bytes : ByteArray) :
    ∃ w' d', w.write bytes d = ⟨.ok (), w', d'⟩ ∧ w'.Wrote d₀ id (s ++ bytes.data.toList) d' := by
  rw [FileWriter.write]
  by_cases hfits : w.pending.size + bytes.size ≤ blockSize ∧ bytes.size < blockSize
  · obtain ⟨hnode, hid, data, hd, hposition, rfl⟩ := h
    refine ⟨_, _, if_pos hfits, hnode, hid, data, hd, hposition, by simp⟩
  · rw [if_neg hfits]
    -- Nothing is held back any more when the new bytes do not fit beside it.
    obtain ⟨w₁, d₁, hmade, h₁, hempty⟩ : ∃ w₁ d₁,
        (if w.pending.size + bytes.size ≤ blockSize then ⟨.ok (), w, d⟩ else w.flush d) =
          (⟨.ok (), w₁, d₁⟩ : Outcome FileWriter Unit) ∧ w₁.Wrote d₀ id s d₁ ∧
          w₁.pending = .empty := by
      split
      · exact ⟨w, d, rfl, h, eq_of_toList_eq (toList_eq_nil_iff.2 (by omega))⟩
      · obtain ⟨w₁, hflush, hempty, h₁⟩ := h.flush
        exact ⟨w₁, _, hflush, h₁, hempty⟩
    rw [hmade]
    obtain ⟨hnode, hid, data, hd, hposition, rfl⟩ := h₁
    by_cases hlong : blockSize ≤ bytes.size
    · refine ⟨{ w₁ with position := (data ++ bytes).size }, _, ?_, hnode, hid, data ++ bytes, rfl,
        rfl, by simp [hempty]⟩
      simp only [if_pos hlong]
      exact passOn hnode hid hd hposition bytes
    · refine ⟨{ w₁ with pending := w₁.pending ++ bytes }, d₁, ?_, hnode, hid, data, hd, hposition,
        by simp⟩
      simp only [if_neg hlong]

/-- Passing on some of the bytes that are held back changes nothing about the bytes written. -/
theorem spill (h : w.Wrote d₀ id s d) (count : Nat) :
    ∃ w' d', w.spill count d = (w', d') ∧ w.position ≤ w'.position ∧ w'.Wrote d₀ id s d' := by
  obtain ⟨hnode, hid, data, hd, hposition, rfl⟩ := h
  refine ⟨{ w with
      position := (data ++ w.pending.extract 0 count).size
      pending := w.pending.extract count w.pending.size }, _, ?_, ?_, hnode, hid,
    data ++ w.pending.extract 0 count, rfl, rfl, ?_⟩
  · rw [FileWriter.spill, passOn hnode hid hd hposition]
  · rw [hposition, ByteArray.size_append]
    exact Nat.le_add_right ..
  · rw [ByteArray.toList_data_append, List.append_assoc]
    congr 1
    simp [List.take_of_length_le]

/-- Giving the writer up leaves all of the bytes in the file, and nothing else changed. -/
theorem release (h : w.Wrote d₀ id s d) : w.release d = d₀.setNode id (.file ⟨s.toArray⟩) := by
  obtain ⟨w', hflush, -, -⟩ := h.flush
  rw [FileWriter.release, hflush]

end Wrote
end FileWriter
end TraceStore
