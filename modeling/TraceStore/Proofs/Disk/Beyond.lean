import TraceStore.Proofs.Disk.Reader

/-!
# What a reader still looks at

A `FileReader` looks only at what its file holds from its position on, and goes on from there. If
that is the same on another disk, it gets the same there: `FileReader.Beyond.read_eq`.
-/
namespace TraceStore

/-- Whether two disks hold the same in a node from a position on. -/
structure Disk.AgreeFrom (node position : Nat) (d d' : Disk) : Prop where
  readAt_eq : ∀ {p}, position ≤ p → ∀ count, d'.readAt node p count = d.readAt node p count
  size_eq : ∀ {p}, position ≤ p → d'.size node - p = d.size node - p

namespace Disk

variable {d d' : Disk} {node position : Nat}

theorem AgreeFrom.refl (node position : Nat) (d : Disk) : d.AgreeFrom node position d :=
  ⟨fun _ _ => rfl, fun _ => rfl⟩

theorem agreeFrom_of_node?_eq (h : d'.node? node = d.node? node) (position : Nat) :
    AgreeFrom node position d d' where
  readAt_eq _ count := by simp only [readAt, h]
  size_eq _ := by simp only [size, h]

/-- Behind the ends of two files there is the same. -/
theorem agreeFrom_of_size_le {data data' : ByteArray} (hnode : d.node? node = some (.file data))
    (hnode' : d'.node? node = some (.file data')) (hle : data.size ≤ position)
    (hle' : data'.size ≤ position) : AgreeFrom node position d d' where
  readAt_eq {p} hp count := by
    have hempty {data : ByteArray} (hle : data.size ≤ position) :
        data.extract p (p + count) = .empty := by
      apply eq_of_toList_eq
      rw [toList_eq_nil_iff.2 (by rw [ByteArray.size_extract]; omega)]
      rfl
    rw [readAt_file hnode, readAt_file hnode', hempty hle, hempty hle']
  size_eq {p} hp := by
    rw [size_file hnode, size_file hnode']
    omega

end Disk

namespace FileReader

/-- A reader of a node that has come to a position of it, or beyond. -/
structure Beyond (node position : Nat) (r : FileReader) : Prop where
  node_eq : r.node = node
  le_position : position ≤ r.position

variable {d d' : Disk} {node position : Nat} {r r' : FileReader}

/-- What has been fetched and not handed out does not matter. -/
theorem Beyond.pending (h : r.Beyond node position) (pending : ByteArray) :
    ({ r with pending } : FileReader).Beyond node position := ⟨h.node_eq, h.le_position⟩

theorem Beyond.of_fetch (h : r.Beyond node position) (hfetch : r.fetch d = .ok r') :
    r'.Beyond node position := by
  refine ⟨(fetch_keeps hfetch).1.trans h.node_eq, Nat.le_trans h.le_position ?_⟩
  rw [fetch] at hfetch
  split at hfetch
  · cases hread : d.readAt r.node r.position r.blockSize with
    | error cause => simp [hread, Except.map] at hfetch
    | ok block =>
        rw [hread] at hfetch
        exact Except.ok.inj hfetch ▸ Nat.le_add_right ..
  · exact Except.ok.inj hfetch ▸ Nat.le_refl _

theorem Beyond.read (h : r.Beyond node position) (count : Nat) (d : Disk) :
    (r.read count d).2.Beyond node position := by
  rw [FileReader.read]
  split
  · exact h.pending _
  · dsimp only
    split
    · split
      · exact ⟨h.node_eq, Nat.le_trans h.le_position (Nat.le_add_right ..)⟩
      · exact h.pending _
    · split
      · rename_i hfetch
        exact ((h.pending .empty).of_fetch hfetch).pending _
      · exact h.pending _

section

variable (hd : d.AgreeFrom node position d') (h : r.Beyond node position)

include hd h

theorem Beyond.fetch_eq : r.fetch d' = r.fetch d := by
  rw [fetch, fetch, h.node_eq, hd.readAt_eq h.le_position]

theorem Beyond.read_eq (count : Nat) : r.read count d' = r.read count d := by
  have hfetch := (h.pending .empty).fetch_eq hd
  obtain ⟨rfl, hle⟩ := h
  rw [FileReader.read, FileReader.read]
  simp only [hd.readAt_eq hle, hfetch]

theorem Beyond.unread_eq : r.unread d' = r.unread d := by
  rw [unread, unread, h.node_eq, hd.size_eq h.le_position]

end

/-- A file that is no longer than a block is fetched in full by the first request. -/
theorem beyond_read_start {blockSize count : Nat} {data : ByteArray}
    (hnode : d.node? node = some (.file data)) (hle : data.size ≤ blockSize) (hcount : 0 < count) :
    ((start node blockSize).read count d).2.Beyond node data.size := by
  have hfetch := fetch_eq (r := start node blockSize) rfl hnode
  simp only [start, Nat.zero_add] at hfetch
  simp only [FileReader.read, start, ByteArray.size_empty, Nat.sub_zero]
  rw [if_neg (Nat.not_le.2 hcount)]
  by_cases hdirect : blockSize ≤ count
  · rw [if_pos hdirect, Disk.readAt_file hnode]
    refine ⟨rfl, ?_⟩
    simp only [ByteArray.size_extract]
    omega
  · rw [if_neg hdirect, hfetch]
    refine ⟨rfl, ?_⟩
    simp only [ByteArray.size_extract]
    omega

end FileReader
end TraceStore
