import TraceStore.Disk.Reader
import TraceStore.Proofs.Bytes

/-!
# What a buffered reader hands out

Whatever a `FileReader` has fetched, and however requests compare with its block size, it hands out
the bytes that lie ahead of it one after the other: `FileReader.Ahead.read`.
-/
namespace TraceStore
namespace Disk

theorem lookup_of_contents {d : Disk} {path : String} {data : ByteArray}
    (h : d.contents? path = some data) :
    ∃ id, d.lookup path = .ok id ∧ d.node? id = some (.file data) := by
  rw [contents?] at h
  cases hid : d.find? path with
  | none => simp [hid] at h
  | some id =>
      refine ⟨id, by simp [lookup, hid], ?_⟩
      rw [hid, Option.bind_some] at h
      split at h
      · simp_all
      · simp at h

theorem find?_of_lookup {d : Disk} {path : String} {id : Nat} (h : d.lookup path = .ok id) :
    d.find? path = some id := by
  rw [lookup] at h
  split at h
  case h_1 hfind => rw [hfind, Except.ok.inj h]
  case h_2 => cases h

theorem readAt_file {d : Disk} {id : Nat} {data : ByteArray} (h : d.node? id = some (.file data))
    (position count : Nat) :
    d.readAt id position count = .ok (data.extract position (position + count)) := by
  simp [readAt, h]

theorem size_file {d : Disk} {id : Nat} {data : ByteArray} (h : d.node? id = some (.file data)) :
    d.size id = data.size := by
  simp [size, h]

end Disk

namespace FileReader

/-- The bytes `s` lie ahead of a reader of a file: those it has fetched, and those of the file
behind them. -/
def Ahead (d : Disk) (r : FileReader) (s : List UInt8) : Prop :=
  ∃ data, d.node? r.node = some (.file data) ∧
    s = r.pending.data.toList ++ data.data.toList.drop r.position

variable {d : Disk} {r : FileReader} {s : List UInt8}

theorem ahead_start {id : Nat} {data : ByteArray} (h : d.node? id = some (.file data))
    (blockSize : Nat) : (start id blockSize).Ahead d data.data.toList :=
  ⟨data, h, by simp [start]⟩

theorem ahead_seek {data : ByteArray} (h : d.node? r.node = some (.file data)) (position : Nat) :
    (r.seek position).Ahead d (data.data.toList.drop position) :=
  ⟨data, h, by simp [seek]⟩

/-- Other nodes can be changed at will. -/
theorem Ahead.frame {d' : Disk} (h : r.Ahead d s) (hsame : d'.node? r.node = d.node? r.node) :
    r.Ahead d' s := by
  obtain ⟨data, hnode, hs⟩ := h
  exact ⟨data, hsame.trans hnode, hs⟩

theorem Ahead.unread_eq (h : r.Ahead d s) : r.unread d = s.length := by
  obtain ⟨data, hnode, rfl⟩ := h
  simp [unread, Disk.size_file hnode]

theorem fetch_eq {data : ByteArray} (hpending : r.pending.isEmpty)
    (h : d.node? r.node = some (.file data)) :
    r.fetch d = .ok { r with
      position := r.position + (data.extract r.position (r.position + r.blockSize)).size
      pending := data.extract r.position (r.position + r.blockSize) } := by
  simp [fetch, hpending, Disk.readAt_file h, Except.map]

/-- A reader stays with its file and its block size, whatever is on the disk. -/
theorem fetch_keeps {r' : FileReader} (h : r.fetch d = .ok r') :
    r'.node = r.node ∧ r'.blockSize = r.blockSize := by
  rw [fetch] at h
  split at h
  · cases hread : d.readAt r.node r.position r.blockSize with
    | error cause => simp [hread, Except.map] at h
    | ok block =>
        rw [hread] at h
        exact Except.ok.inj h ▸ ⟨rfl, rfl⟩
  · exact Except.ok.inj h ▸ ⟨rfl, rfl⟩

theorem read_keeps (r : FileReader) (count : Nat) (d : Disk) :
    (r.read count d).2.node = r.node ∧ (r.read count d).2.blockSize = r.blockSize := by
  rw [FileReader.read]
  split
  · exact ⟨rfl, rfl⟩
  · dsimp only
    split
    · split <;> exact ⟨rfl, rfl⟩
    · split
      · rename_i hfetch
        exact (fetch_keeps hfetch :)
      · exact ⟨rfl, rfl⟩

/-- The first bytes of a file come with the first block of it. -/
theorem read_start {id blockSize count : Nat} {data : ByteArray}
    (h : d.node? id = some (.file data))
    (hpos : 0 < count) (hlt : count < blockSize) :
    let block := data.extract 0 blockSize
    (start id blockSize).read count d =
      (.ok (block.extract 0 count),
        ⟨id, blockSize, block.size, block.extract count block.size⟩) := by
  extract_lets block
  have hfetch := fetch_eq (r := start id blockSize) rfl h
  simp only [start, Nat.zero_add] at hfetch
  simp only [FileReader.read, start, ByteArray.size_empty, Nat.sub_zero, ByteArray.empty_append]
  rw [if_neg (Nat.not_le.2 hpos), if_neg (Nat.not_le.2 hlt), hfetch]

/-- A reader of the file `data` that has fetched nothing from behind its end. -/
structure Within (d : Disk) (data : ByteArray) (r : FileReader) : Prop where
  node_eq : d.node? r.node = some (.file data)
  position_le : r.position ≤ data.size

theorem within_start {id : Nat} {data : ByteArray} (h : d.node? id = some (.file data))
    (blockSize : Nat) : (start id blockSize).Within d data := ⟨h, Nat.zero_le _⟩

theorem Within.read {data : ByteArray} (h : r.Within d data) (count : Nat) :
    (r.read count d).2.Within d data := by
  refine ⟨by rw [(read_keeps r count d).1]; exact h.node_eq, ?_⟩
  have hextract : ∀ count, r.position + (data.extract r.position (r.position + count)).size ≤
      data.size := by
    intro count
    have := h.position_le
    rw [ByteArray.size_extract]
    omega
  rw [FileReader.read]
  split
  · exact h.position_le
  · dsimp only
    split
    · rw [Disk.readAt_file h.node_eq]
      exact hextract _
    · rw [fetch_eq (r := { r with pending := .empty }) rfl h.node_eq]
      exact hextract _

/-- When bytes are added to a file, they lie ahead of its reader behind those that did before. -/
theorem Ahead.grow {d' : Disk} {data data' : ByteArray} {more : List UInt8} (h : r.Ahead d s)
    (hr : r.Within d data) (hnode : d'.node? r.node = some (.file data'))
    (hmore : data'.data.toList = data.data.toList ++ more) : r.Ahead d' (s ++ more) := by
  obtain ⟨_, hsame, rfl⟩ := h
  obtain rfl := Node.file.inj (Option.some.inj (hsame.symm.trans hr.node_eq))
  refine ⟨data', hnode, ?_⟩
  rw [hmore, List.drop_append_of_le_length (by rw [length_toList]; exact hr.position_le),
    List.append_assoc]

/-- A fetch moves bytes of the file into the buffer, which stays empty only if none are left. -/
theorem Ahead.fetch (h : r.Ahead d s) (hblock : 0 < r.blockSize) :
    ∃ r', r.fetch d = .ok r' ∧ r'.Ahead d s ∧ (r'.pending.size = 0 → s = []) := by
  obtain ⟨data, hnode, rfl⟩ := h
  by_cases hpending : r.pending.isEmpty
  · have hnone : r.pending.data.toList = [] := toList_eq_nil_iff.2 (isEmpty_iff.1 hpending)
    have hsplit := toList_drop_eq data r.position r.blockSize
    refine ⟨_, fetch_eq hpending hnode, ⟨data, hnode, by rw [hnone, List.nil_append, hsplit]⟩, ?_⟩
    intro hempty
    rw [ByteArray.size_extract] at hempty
    rw [hnone, List.nil_append, List.drop_of_length_le]
    rw [length_toList]
    omega
  · exact ⟨r, if_neg hpending, ⟨data, hnode, rfl⟩,
      fun hempty => absurd (isEmpty_iff.2 hempty) hpending⟩

/-- A request gets the bytes ahead, or as many as there are, and leaves the others ahead. -/
theorem Ahead.read (h : r.Ahead d s) (count : Nat) :
    ∃ bytes r', r.read count d = (.ok bytes, r') ∧ bytes.data.toList = s.take count ∧
      r'.Ahead d (s.drop count) ∧ r'.node = r.node := by
  obtain ⟨data, hnode, rfl⟩ := h
  rw [FileReader.read]
  split
  case isTrue hfetched =>
    have hlen : count ≤ r.pending.data.toList.length := by simpa using hfetched
    refine ⟨_, _, rfl, ?_, ⟨data, hnode, ?_⟩, rfl⟩
    · simp [List.take_append_of_le_length hlen]
    · rw [List.drop_append_of_le_length hlen]
      simp [List.take_of_length_le]
  case isFalse hfetched =>
    have hlen : r.pending.data.toList.length ≤ count := by
      rw [length_toList]; omega
    -- The request takes what was fetched, and `missing` bytes of the file from its position on.
    have htake : ∀ rest : List UInt8, (r.pending.data.toList ++ rest).take count =
        r.pending.data.toList ++ rest.take (count - r.pending.size) := by
      intro rest
      rw [List.take_append, List.take_of_length_le hlen]
      simp
    have hdrop : ∀ rest : List UInt8, (r.pending.data.toList ++ rest).drop count =
        rest.drop (count - r.pending.size) := by
      intro rest
      rw [List.drop_append, List.drop_of_length_le hlen]
      simp
    rw [htake, hdrop]
    by_cases hdirect : r.blockSize ≤ count - r.pending.size
    · simp only [hdirect, if_true, Disk.readAt_file hnode]
      refine ⟨_, _, rfl, by simp, ⟨data, hnode, ?_⟩, rfl⟩
      simp only [ByteArray.data_empty, ByteArray.size_extract, List.drop_drop, List.nil_append]
      simp
      omega
    · simp only [hdirect, if_false]
      rw [fetch_eq (r := { r with pending := .empty }) rfl hnode]
      -- A block that is shorter than the request is the last one of the file.
      have hblock : count - r.pending.size ≤
            (data.extract r.position (r.position + r.blockSize)).data.toList.length ∨
          data.data.toList.drop (r.position +
            (data.extract r.position (r.position + r.blockSize)).size) = [] := by
        simp
        omega
      have hsplit := toList_drop_eq data r.position r.blockSize
      generalize data.extract r.position (r.position + r.blockSize) = block at hblock hsplit ⊢
      rw [hsplit]
      refine ⟨_, _, rfl, ?_, ⟨data, hnode, ?_⟩, rfl⟩
      · rcases hblock with hlong | hlast
        · simp [List.take_append_of_le_length hlong]
        · simp [hlast]
      · rcases hblock with hlong | hlast
        · simp [List.drop_append_of_le_length hlong, List.take_of_length_le]
        · simp [hlast, List.take_of_length_le]

end FileReader
end TraceStore
