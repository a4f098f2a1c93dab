import TraceStore.Disk.Reader
import TraceStore.Proofs.Bytes

/-!
# Asking until all has come

A buffer answers a request with what it has at hand, or with what one look at the file brings. Who
needs more asks again, until all has come or the file has ended. This loop ends on every node of a
disk, and `FileReader.read` is what it comes to: `FileReader.gathers_iff`.
-/
namespace TraceStore

private theorem extract_eq_empty {data : ByteArray} {start stop : Nat}
    (h : min stop data.size ≤ start) : data.extract start stop = .empty := by
  rw [← ByteArray.size_eq_zero_iff, ByteArray.size_extract]
  omega

namespace Disk

variable {d : Disk} {id position count : Nat} {bytes : ByteArray}

theorem size_le_of_readAt (h : d.readAt id position count = .ok bytes) : bytes.size ≤ count := by
  rw [readAt] at h
  split at h
  · cases h
    rw [ByteArray.size_extract]
    omega
  · cases h
  · cases h
    simp [ByteArray.size]
  · cases h
    exact Nat.zero_le _

/-- Where a node delivers fewer bytes than it was asked for, it has ended. -/
theorem readAt_eq_empty (h : d.readAt id position count = .ok bytes) (hshort : bytes.size < count)
    (more : Nat) : d.readAt id (position + bytes.size) more = .ok .empty := by
  rw [readAt] at h ⊢
  split at h
  · cases h
    rw [ByteArray.size_extract] at hshort
    rw [extract_eq_empty]
    rw [ByteArray.size_extract]
    omega
  · cases h
  · cases h
    simp [ByteArray.size] at hshort
  · rfl

end Disk

namespace FileReader

/-- One request for bytes: some of those fetched, or of a block that is fetched for it. With nothing
fetched, a request for a block or more goes past the buffer. -/
def ask (count : Nat) (r : FileReader) (d : Disk) : Except IoError ByteArray × FileReader :=
  if r.pending.isEmpty ∧ r.blockSize ≤ count then
    match d.readAt r.node r.position count with
    | .ok bytes => (.ok bytes, { r with position := r.position + bytes.size })
    | .error cause => (.error cause, r)
  else
    match r.fetch d with
    | .ok fetched =>
      (.ok (fetched.pending.extract 0 count),
        { fetched with pending := fetched.pending.extract count fetched.pending.size })
    | .error cause => (.error cause, r)

/-- The loop that gathers `count` bytes behind those in `done`: what it comes to, and the reader
that it leaves. -/
inductive Gathers (d : Disk) :
    Nat → ByteArray → FileReader → Except IoError ByteArray → FileReader → Prop
  | full {done r} : Gathers d 0 done r (.ok done) r
  | ended {count done r r'} : 0 < count → r.ask count d = (.ok .empty, r') →
      Gathers d count done r (.ok done) r'
  | failed {count done r cause r'} : 0 < count → r.ask count d = (.error cause, r') →
      Gathers d count done r (.error cause) r'
  | more {count done r bytes r₁ result r'} : 0 < count → r.ask count d = (.ok bytes, r₁) →
      0 < bytes.size → Gathers d (count - bytes.size) (done ++ bytes) r₁ result r' →
      Gathers d count done r result r'

variable {d : Disk} {r r' : FileReader} {count : Nat} {done : ByteArray}

/-- The loop comes to one thing only. -/
theorem Gathers.unique {result result' : Except IoError ByteArray} {r'' : FileReader}
    (h : Gathers d count done r result r') (h' : Gathers d count done r result' r'') :
    result = result' ∧ r' = r'' := by
  induction h with
  | full =>
      cases h' with
      | full => exact ⟨rfl, rfl⟩
      | ended hpos => omega
      | failed hpos => omega
      | more hpos => omega
  | ended hpos hask =>
      cases h' with
      | full => omega
      | ended _ hask' => exact ⟨rfl, (Prod.mk.inj (hask.symm.trans hask')).2⟩
      | failed _ hask' => cases hask.symm.trans hask'
      | more _ hask' hsize =>
          cases hask.symm.trans hask'
          cases hsize
  | failed hpos hask =>
      cases h' with
      | full => omega
      | ended _ hask' => cases hask.symm.trans hask'
      | failed _ hask' =>
          cases hask.symm.trans hask'
          exact ⟨rfl, rfl⟩
      | more _ hask' => cases hask.symm.trans hask'
  | more hpos hask hsize _ ih =>
      cases h' with
      | full => omega
      | ended _ hask' =>
          cases hask.symm.trans hask'
          cases hsize
      | failed _ hask' => cases hask.symm.trans hask'
      | more _ hask' _ hrest =>
          cases hask.symm.trans hask'
          exact ih hrest

/-- With nothing fetched, and nothing left of the file, the loop ends as it is. -/
private theorem gathers_of_ended (hpending : r.pending = .empty)
    (hend : ∀ n, d.readAt r.node r.position n = .ok .empty) (count : Nat) (done : ByteArray) :
    Gathers d count done r (.ok done) r := by
  cases count with
  | zero => exact .full
  | succ count =>
      refine .ended (Nat.succ_pos count) ?_
      obtain ⟨node, blockSize, position, pending⟩ := r
      obtain rfl : pending = .empty := hpending
      rw [ask]
      split
      · simp [hend]
      · simp [fetch, hend, Except.map, ByteArray.isEmpty]

/-- The loop is over with the first look at the file, if that brings all that was asked for or else
finds the end. -/
private theorem gathers_of_look {bytes : ByteArray} (hpos : 0 < count)
    (hask : r.ask count d = (.ok bytes, r')) (hle : bytes.size ≤ count)
    (hend : bytes.size < count →
      r'.pending = .empty ∧ ∀ n, d.readAt r'.node r'.position n = .ok .empty)
    (done : ByteArray) : Gathers d count done r (.ok (done ++ bytes)) r' := by
  by_cases hempty : bytes.size = 0
  · obtain rfl := ByteArray.size_eq_zero_iff.1 hempty
    rw [ByteArray.append_empty]
    exact .ended hpos hask
  · refine .more hpos hask (Nat.pos_of_ne_zero hempty) ?_
    by_cases hshort : bytes.size < count
    · obtain ⟨hpending, hnone⟩ := hend hshort
      exact gathers_of_ended hpending hnone _ _
    · rw [Nat.sub_eq_zero_of_le (Nat.not_lt.1 hshort)]
      exact .full

/-- With nothing fetched, the loop looks at the file once and gathers what that brings. It may look
at it once more, to find that it has ended. -/
private theorem gathers_of_pending_eq (hpending : r.pending = .empty) (hpos : 0 < count)
    (done : ByteArray) :
    Gathers d count done r ((r.read count d).1.map (done ++ ·)) (r.read count d).2 := by
  obtain ⟨node, blockSize, position, pending⟩ := r
  obtain rfl : pending = .empty := hpending
  have hnone : ¬ count ≤ 0 := Nat.not_le.2 hpos
  simp only [FileReader.read, ByteArray.size_empty, if_neg hnone, Nat.sub_zero,
    ByteArray.empty_append]
  by_cases hdirect : blockSize ≤ count
  case pos =>
    rw [if_pos hdirect]
    cases hread : d.readAt node position count with
    | error cause => exact .failed hpos (by simp [ask, hdirect, hread, ByteArray.isEmpty])
    | ok bytes =>
        have hask : ask count ⟨node, blockSize, position, .empty⟩ d =
            (.ok bytes, ⟨node, blockSize, position + bytes.size, .empty⟩) := by
          simp [ask, hdirect, hread, ByteArray.isEmpty]
        exact gathers_of_look hpos hask (Disk.size_le_of_readAt hread)
          (fun hshort => ⟨rfl, Disk.readAt_eq_empty hread hshort⟩) done
  case neg =>
    rw [if_neg hdirect]
    cases hread : d.readAt node position blockSize with
    | error cause =>
        have hfetch : fetch ⟨node, blockSize, position, .empty⟩ d = .error cause := by
          simp [fetch, hread, Except.map, ByteArray.isEmpty]
        rw [hfetch]
        exact .failed hpos (by simp [ask, hdirect, hfetch])
    | ok block =>
        have hfetch : fetch ⟨node, blockSize, position, .empty⟩ d =
            .ok ⟨node, blockSize, position + block.size, block⟩ := by
          simp [fetch, hread, Except.map, ByteArray.isEmpty]
        rw [hfetch]
        have hask : ask count ⟨node, blockSize, position, .empty⟩ d =
            (.ok (block.extract 0 count),
              ⟨node, blockSize, position + block.size, block.extract count block.size⟩) := by
          simp [ask, hdirect, hfetch]
        refine gathers_of_look hpos hask (by rw [ByteArray.size_extract]; omega) (fun hshort => ?_)
          done
        -- A block that is shorter than the request is the last one, and all of it was asked for.
        rw [ByteArray.size_extract] at hshort
        have hend := Disk.readAt_eq_empty hread (by omega)
        exact ⟨extract_eq_empty (by omega), hend⟩

/-- A request for more than has been fetched takes that, and then reads on with nothing fetched. -/
private theorem read_of_size_lt (h : r.pending.size < count) :
    r.read count d = (FileReader.read { r with pending := .empty } (count - r.pending.size) d).map
      (Except.map (r.pending ++ ·)) id := by
  have hmissing : ¬ count - r.pending.size ≤ 0 := by omega
  rw [FileReader.read, FileReader.read, if_neg (by omega)]
  simp only [ByteArray.size_empty, if_neg hmissing, Nat.sub_zero, ByteArray.empty_append]
  split
  · split <;> simp_all [Except.map]
  · split <;> simp_all [Except.map]

/-- Reading is what the loop comes to, whatever the node is and whatever has been fetched. -/
theorem gathers_read (r : FileReader) (count : Nat) (d : Disk) :
    Gathers d count .empty r (r.read count d).1 (r.read count d).2 := by
  have hfetch (hne : r.pending.size ≠ 0) : r.ask count d =
      (.ok (r.pending.extract 0 count),
        { r with pending := r.pending.extract count r.pending.size }) := by
    have hpending : ¬ r.pending.isEmpty = true := fun hempty => hne (isEmpty_iff.1 hempty)
    simp [ask, fetch, hpending]
  by_cases hfetched : count ≤ r.pending.size
  case pos =>
    rw [FileReader.read, if_pos hfetched]
    by_cases hzero : count = 0
    · subst hzero
      have hfull : Gathers d 0 .empty r (.ok .empty) r := .full
      simpa using hfull
    · have hsize : (r.pending.extract 0 count).size = count := by
        rw [ByteArray.size_extract]
        omega
      refine .more (Nat.pos_of_ne_zero hzero) (hfetch (by omega)) (by omega) ?_
      rw [hsize, Nat.sub_self, ByteArray.empty_append]
      exact .full
  case neg =>
    by_cases hnone : r.pending.size = 0
    · have hlook := gathers_of_pending_eq (d := d) (ByteArray.size_eq_zero_iff.1 hnone)
        (show 0 < count by omega) .empty
      cases hread : (r.read count d).1 <;> simpa [hread, Except.map] using hlook
    · rw [read_of_size_lt (by omega)]
      have hall : r.pending.extract 0 count = r.pending := by
        refine eq_of_toList_eq ?_
        rw [← Nat.zero_add count, toList_extract, List.drop_zero, List.take_of_length_le]
        rw [length_toList]
        omega
      have hnothing : r.pending.extract count r.pending.size = .empty := extract_eq_empty (by omega)
      refine .more (by omega) (hfetch hnone) (by rw [hall]; omega) ?_
      rw [hall, hnothing, ByteArray.empty_append]
      exact gathers_of_pending_eq rfl (by omega) r.pending

/-- The loop ends, and comes to what reading does. -/
theorem gathers_iff {result : Except IoError ByteArray} :
    Gathers d count .empty r result r' ↔ (result, r') = r.read count d := by
  constructor
  · intro h
    obtain ⟨rfl, rfl⟩ := h.unique (gathers_read r count d)
    rfl
  · intro h
    obtain ⟨rfl, rfl⟩ := Prod.mk.inj h
    exact gathers_read r count d

end FileReader
end TraceStore
