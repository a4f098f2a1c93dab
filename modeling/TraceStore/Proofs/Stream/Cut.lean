import TraceStore.Proofs.Gzip.Decoder

/-!
# Reading a gzip file that was cut

A reader of a file that is the beginning of the file of some members knows at its end whether the
file ended with one of them: it is at 100 percent then, and has failed and stays below that
otherwise.
-/
namespace TraceStore

open Gzip

namespace StreamReader

/-- How a reader keeps in mind that its stream has ended. -/
def tailOf : Except StreamFault Unit → Tail
  | .ok () => .clean
  | .error _ => .failed

/-- A reader that has delivered `done`, and promises no more than so many bytes, in a file `F` that
is the beginning of the file of some members. -/
structure InCut (d : Disk) (id : Nat) (ms : List WholeMember) (F done : List UInt8) (promise : Nat)
    (r : StreamReader Decoder) : Prop where
  tail_eq : r.tail = .pending
  stands : Decoder.Stands d id ms F done promise r.decoder

variable {d : Disk} {id : Nat} {ms : List WholeMember} {F done : List UInt8} {promise count : Nat}
  {r : StreamReader Decoder}

theorem InCut.remaining (h : r.InCut d id ms F done promise) :
    r.InCut d id ms F done (StreamDecoder.remaining r.decoder d) :=
  ⟨h.tail_eq, h.stands.remaining⟩

/-- A request gets some of the bytes that are left, or finds out how the file ends. -/
theorem InCut.readSome (h : r.InCut d id ms F done promise) (hcount : 0 < count) :
    (∃ bytes r' promise', r.readSome count d = (.ok bytes, r') ∧ bytes.size ≠ 0 ∧
      bytes.size + promise' ≤ promise ∧ r'.InCut d id ms F (done ++ bytes.data.toList) promise') ∨
    (∃ ending r', r.readSome count d =
      (ending.map (fun _ => ByteArray.empty) |>.mapError StreamFault.toError, r') ∧
      DecodesTo ms F done ending ∧ r'.tail = tailOf ending) := by
  obtain ⟨htail, hstands⟩ := h
  have hfailed : r.tail ≠ .failed := by simp [htail]
  rw [StreamReader.readSome, if_neg (by omega), if_neg hfailed]
  have hanswers := hstands.read hcount
  generalize hread : Decoder.read count r.decoder d = answer at hanswers
  replace hread : StreamDecoder.read count r.decoder d = answer := hread
  rw [hread]
  cases hanswers with
  | @more bytes promise' decoder hsize _ hpromise hstands' =>
      refine .inl ⟨bytes, { r with decoder }, promise', ?_, hsize, hpromise, ⟨htail, hstands'⟩⟩
      dsimp only
      rw [if_neg (mt isEmpty_iff.1 hsize)]
  | @ended decoder hends _ =>
      exact .inr ⟨.ok (), { r with decoder, tail := .clean }, rfl, hends, rfl⟩
  | @truncated decoder hends =>
      exact .inr ⟨.error .truncated, { r with decoder, tail := .failed }, rfl, hends, rfl⟩

/-- What comes of reading to the end. -/
theorem InCut.drains (h : r.InCut d id ms F done promise) (hcount : 0 < count) :
    ∃ bytes ending r', Drains (fun r => r.readSome count d) r bytes
        (ending.mapError StreamFault.toError) r' ∧
      DecodesTo ms F (done ++ bytes) ending ∧ r'.tail = tailOf ending ∧ bytes.length ≤ promise := by
  induction promise using Nat.strongRecOn generalizing r done with
  | _ promise ih =>
      rcases h.readSome hcount with
        ⟨bytes, r₁, promise₁, hread, hsize, hpromise, h₁⟩ | ⟨ending, r', hread, hends, htail⟩
      · obtain ⟨rest, ending, r', hdrains, hends, htail, hlength⟩ := ih promise₁ (by omega) h₁
        refine ⟨bytes.data.toList ++ rest, ending, r', .more hread hsize hdrains, ?_, htail, ?_⟩
        · rwa [← List.append_assoc]
        · rw [List.length_append, length_toList]
          omega
      · refine ⟨[], ending, r', ?_, by rwa [List.append_nil], htail, Nat.zero_le _⟩
        cases ending with
        | ok => exact .ended hread rfl
        | error fault => exact .failed hread

/-- A reader that was just opened. -/
theorem inCut_open (hms : ms ≠ []) (hF : F <+: fileOf ms)
    (hnode : d.node? id = some (.file ⟨F.toArray⟩)) (size : Nat) :
    InCut d id ms F [] ((Decoder.start id d).remaining d)
      ⟨StreamDecoder.start id d, size, .pending⟩ :=
  ⟨rfl, Decoder.stands_start hms hF hnode⟩

end StreamReader

/-! ### Files that were written -/

/-- A file that a handle left which was opened with valid options, asked for some writes and
flushes, and closed. -/
structure Streamed.Written (ε : Type) [StreamEncoder ε] where
  options : WriteOptions
  disk : Disk
  path : String
  requests : List WriteRequest
  file : ByteArray
  valid : options.validate = .ok ()
  creatable : disk.Creatable path
  left :
    let opened := (File.new (new options : Streamed Decoder ε)).open path .write disk
    let ended := WriteRequest.runAll File.perform requests opened.state opened.disk
    (ended.state.close ended.disk).2.contents? path = some file

namespace Streamed.Written

variable {ε : Type} [StreamEncoder ε]

/-- The bytes that were written to a file. -/
def data (w : Written ε) : List UInt8 := WriteRequest.written w.requests

/-- Some files, one after the other. -/
def fileOf (ws : List (Written ε)) : List UInt8 := ws.flatMap (·.file.data.toList)

/-- The bytes that were written to some files. -/
def dataOf (ws : List (Written ε)) : List UInt8 := ws.flatMap data

/-- Whether `F`, which is the beginning of some files one after the other, ends with one of them. -/
def AtEnd (ws : List (Written ε)) (F : List UInt8) : Prop :=
  ∃ past, past <+: ws ∧ past ≠ [] ∧ F = fileOf past

/-- An encoder that writes members has written one. -/
theorem isMember (h : WritesMembers ε) (w : Written ε) : IsMember w.file.data.toList w.data := by
  obtain ⟨o, d, path, requests, file, ho, ⟨id, d₁, hcreate, hnode⟩, hleft⟩ := w
  obtain ⟨e, d₂, F, hrun, hfinish, hmember⟩ := h.member o d₁ id requests ho hnode
  have hid : id < d₁.nodes.size := (Array.getElem?_eq_some_iff.1 hnode).1
  rw [open_new_write, ho, hcreate] at hleft
  dsimp only at hleft
  rw [StreamEncoder.runAll_handle, hrun] at hleft
  replace hleft : (StreamEncoder.finish e d₂).contents? path = some file := hleft
  rw [hfinish, Disk.contents?_setNode (Disk.find?_create hcreate) hid] at hleft
  exact Option.some.inj hleft ▸ hmember

/-- The member that was written. -/
def member (h : WritesMembers ε) (w : Written ε) : WholeMember :=
  ⟨w.file.data.toList, w.data, w.isMember h⟩

variable (h : WritesMembers ε) (ws : List (Written ε))

theorem fileOf_members : Gzip.fileOf (ws.map (member h)) = fileOf ws := List.flatMap_map ..

theorem dataOf_members : Gzip.dataOf (ws.map (member h)) = dataOf ws := List.flatMap_map ..

theorem atEnd_members (F : List UInt8) : Gzip.AtEnd (ws.map (member h)) F ↔ AtEnd ws F := by
  constructor
  · rintro ⟨past, hpast, hne, rfl⟩
    rw [List.prefix_iff_eq_take, ← List.map_take] at hpast
    refine ⟨ws.take past.length, List.take_prefix .., fun hnil => hne ?_, ?_⟩
    · rw [hpast, hnil, List.map_nil]
    · rw [← fileOf_members h, ← hpast]
  · rintro ⟨past, hpast, hne, rfl⟩
    exact ⟨past.map (member h), hpast.map _, by simpa using hne, (fileOf_members h past).symm⟩

end Streamed.Written
end TraceStore
