import TraceStore.Proofs.Disk.Beyond
import TraceStore.Proofs.Gzip.Header

/-!
# What a decoder still looks at

A decoder looks only at what its file holds from the position on that its source has come to. If
that is the same on another disk, it decodes the same there: `Decoder.read_eq`.
-/
namespace TraceStore.Gzip

variable {α β : Type} {d d' : Disk} {node position : Nat} {source : FileReader}

/-! ### Headers -/

/-- What `f` comes to depends only on what is to be found from the position of its source on, and it
goes on from there. -/
structure LooksAhead (f : FileReader → Disk → HeaderStep α) : Prop where
  beyond : ∀ {node position source}, source.Beyond node position → ∀ d,
    (f source d).2.Beyond node position
  eq : ∀ {node position source d d'}, d.AgreeFrom node position d' →
    source.Beyond node position → f source d' = f source d

namespace LooksAhead

variable {f f' field : FileReader → Disk → HeaderStep α}
  {g : α → FileReader → Disk → HeaderStep β}

theorem done (v : α) : LooksAhead fun source _ => (.ok v, source) := ⟨fun h _ => h, fun _ _ => rfl⟩

theorem failed (fault : StreamFault) :
    LooksAhead (fun source _ => (.error fault, source) : FileReader → Disk → HeaderStep α) :=
  ⟨fun h _ => h, fun _ _ => rfl⟩

theorem andThen (hf : LooksAhead f) (hg : ∀ v, LooksAhead (g v)) :
    LooksAhead (Gzip.andThen f g) where
  beyond h d := by
    have hfirst := hf.beyond h d
    rw [Gzip.andThen]
    split <;> rename_i hanswer <;> rw [hanswer] at hfirst
    · exact hfirst
    · exact (hg _).beyond hfirst d
  eq hd h := by
    rename_i source d _
    have hfirst := hf.beyond h d
    rw [Gzip.andThen, Gzip.andThen, hf.eq hd h]
    split <;> rename_i hanswer <;> rw [hanswer] at hfirst
    exact (hg _).eq hd hfirst

theorem ite {p : Prop} [Decidable p] (h : LooksAhead f) (h' : LooksAhead f') :
    LooksAhead fun source d => if p then f source d else f' source d := by
  by_cases hp : p
  · simpa only [if_pos hp] using h
  · simpa only [if_neg hp] using h'

theorem optional {f field : FileReader → Disk → HeaderStep ByteArray} (hf : LooksAhead f)
    (hfield : LooksAhead field) (present : Bool) :
    LooksAhead fun source d => Gzip.optional present field (f source d) d := by
  rw [optional_eq]
  exact hf.andThen fun v => (done v).ite (hfield.andThen fun bytes => done (v ++ bytes))

end LooksAhead

theorem looksAhead_exactly (count : Nat) : LooksAhead (exactly count) where
  beyond h d := by
    have hread := h.read count d
    rw [exactly]
    split <;> rename_i hanswer <;> rw [hanswer] at hread
    · exact hread
    · split <;> exact hread
  eq hd h := by rw [exactly, exactly, h.read_eq hd]

theorem looksAhead_untilZero : LooksAhead untilZero := by
  suffices ∀ fuel done, LooksAhead fun source d => untilZeroWithin d fuel done source from this _ _
  intro fuel
  induction fuel with
  | zero =>
      intro done
      rw [untilZeroWithin_eq]
      exact (looksAhead_exactly 1).andThen fun byte => (LooksAhead.done _).ite (.failed _)
  | succ fuel ih =>
      intro done
      rw [untilZeroWithin_eq]
      exact (looksAhead_exactly 1).andThen fun byte => (LooksAhead.done _).ite (ih _)

theorem looksAhead_extraField : LooksAhead extraField := by
  rw [extraField_eq]
  exact (looksAhead_exactly 2).andThen fun length => (looksAhead_exactly _).andThen fun extra =>
    .done _

/-- What follows the fixed part of a header. -/
private theorem looksAhead_fields (fixed : ByteArray) : LooksAhead fun source d =>
    let flags := HeaderFlags.ofByte (fixed.data.getD 3 0)
    if fixed.data[0]? ≠ some 0x1f ∨ fixed.data[1]? ≠ some 0x8b ∨ fixed.data[2]? ≠ some 8
        ∨ flags.reserved then
      (.error (.io .gzipHeader), source)
    else andThen (fun source d => optional flags.comment untilZero
        (optional flags.name untilZero
          (optional flags.extra extraField (.ok fixed, source) d) d) d)
      (fun header source d => if !flags.check then (.ok (), source)
        else andThen (exactly 2) (fun check source _ =>
          if LittleEndian.decode check.data.toList = (Crc32.compute header).toNat % 65536
          then (.ok (), source) else (.error (.io .gzipChecksum), source)) source d) source d := by
  refine (LooksAhead.failed _).ite (LooksAhead.andThen ?_ fun header => (LooksAhead.done ()).ite ?_)
  · exact (((LooksAhead.done fixed).optional looksAhead_extraField _).optional
      looksAhead_untilZero _).optional looksAhead_untilZero _
  · exact (looksAhead_exactly 2).andThen fun check => (LooksAhead.done ()).ite (.failed _)

theorem looksAhead_readHeader : LooksAhead readHeader := by
  rw [readHeader_eq]
  exact (looksAhead_exactly _).andThen looksAhead_fields

/-- Where a header starts, its fixed part is read at least. -/
theorem beyond_readHeader (h : (source.read fixedHeaderSize d).2.Beyond node position) :
    (readHeader source d).2.Beyond node position := by
  have hfixed : (exactly fixedHeaderSize source d).2.Beyond node position := by
    rw [exactly]
    split <;> rename_i hanswer <;> rw [hanswer] at h
    · exact h
    · split <;> exact h
  rw [readHeader_eq, andThen]
  split <;> rename_i hanswer <;> rw [hanswer] at hfixed
  · exact hfixed
  · exact (looksAhead_fields _).beyond hfixed d

/-! ### Members -/

namespace Member

variable {m : Member}

theorem beyond_round (h : source.Beyond node position) :
    (m.round source).2.2.Beyond node position := by
  rw [round]
  dsimp only
  split
  · exact h.pending _
  · exact h.pending _

theorem beyond_roundsWithin (fuel : Nat) : ∀ count done m {source : FileReader},
    source.Beyond node position →
      (roundsWithin fuel count done m source).2.2.Beyond node position := by
  induction fuel with
  | zero => intro count done m source h; exact h
  | succ fuel ih =>
      intro count done m source h
      have hround := beyond_round (m := m) h
      rw [roundsWithin]
      split <;> rename_i hanswer <;> rw [hanswer] at hround
      · exact hround
      · dsimp only
        split
        · exact hround
        · exact ih _ _ _ hround

theorem beyond_readWithin (count : Nat) (d : Disk) (fuel : Nat) : ∀ m {source : FileReader},
    source.Beyond node position →
      (readWithin count d fuel m source).2.2.Beyond node position := by
  induction fuel with
  | zero => intro m source h; exact h
  | succ fuel ih =>
      intro m source h
      rw [readWithin]
      split
      · exact h
      rename_i hfetch
      have hfetched := h.of_fetch hfetch
      split
      · exact hfetched
      · have hrounds := beyond_roundsWithin (count + 1) count .empty m hfetched
        dsimp only
        split <;> rename_i hanswer <;> rw [hanswer] at hrounds
        · exact hrounds
        · split
          · exact ih _ hrounds
          · exact hrounds

theorem beyond_read (h : source.Beyond node position) (count : Nat) (m : Member) (d : Disk) :
    (m.read count source d).2.2.Beyond node position := beyond_readWithin count d _ m h

theorem readWithin_eq (hd : d.AgreeFrom node position d') (count fuel : Nat) :
    ∀ m {source : FileReader}, source.Beyond node position →
      readWithin count d' fuel m source = readWithin count d fuel m source := by
  induction fuel with
  | zero => intro m source h; rfl
  | succ fuel ih =>
      intro m source h
      rw [readWithin, readWithin, h.fetch_eq hd]
      split
      · rfl
      rename_i hfetch
      have hfetched := h.of_fetch hfetch
      split
      · rfl
      · have hrounds := beyond_roundsWithin (count + 1) count .empty m hfetched
        dsimp only
        split <;> rename_i hanswer <;> rw [hanswer] at hrounds
        rw [ih _ hrounds]

theorem read_eq (hd : d.AgreeFrom node position d') (h : source.Beyond node position) (count : Nat)
    (m : Member) : m.read count source d' = m.read count source d := by
  rw [read, read, h.unread_eq hd, readWithin_eq hd _ _ _ h]

end Member

/-! ### Decoders -/

namespace Decoder

variable {decoder : Decoder}

theorem beyond_nextMember (h : source.Beyond node position) (m : Member) (d : Disk) :
    (nextMember m source d).2.source.Beyond node position := by
  have htrailer := (looksAhead_exactly 8).beyond h d
  rw [nextMember]
  split <;> rename_i hanswer <;> rw [hanswer] at htrailer
  · exact htrailer
  · split
    · exact htrailer
    · split
      · exact htrailer
      · rename_i hfetch
        have hfetched := htrailer.of_fetch hfetch
        split
        · exact hfetched
        · exact looksAhead_readHeader.beyond hfetched d

theorem nextMember_eq (hd : d.AgreeFrom node position d') (h : source.Beyond node position)
    (m : Member) : nextMember m source d' = nextMember m source d := by
  have htrailer := (looksAhead_exactly 8).beyond h d
  rw [nextMember, nextMember, (looksAhead_exactly 8).eq hd h]
  split <;> rename_i hanswer <;> rw [hanswer] at htrailer
  have hfetch := FileReader.Beyond.fetch_eq hd htrailer
  dsimp only at hfetch
  rw [hfetch]
  split
  · rfl
  · split
    · rfl
    · rename_i hfetch
      rw [looksAhead_readHeader.eq hd (htrailer.of_fetch hfetch)]

theorem beyond_readWithin (count : Nat) (d : Disk) (fuel : Nat) : ∀ {decoder : Decoder},
    decoder.source.Beyond node position →
      (readWithin count d fuel decoder).2.source.Beyond node position := by
  induction fuel with
  | zero => intro decoder h; exact h
  | succ fuel ih =>
      intro decoder h
      rw [readWithin]
      split
      · exact h
      · exact h
      rename_i m _
      have hread := Member.beyond_read h count m d
      split <;> rename_i hanswer <;> rw [hanswer] at hread
      · exact hread
      · split
        · exact hread
        · rename_i m' source' _
          have hnext := beyond_nextMember hread m' d
          split <;> rename_i hanswer <;> rw [hanswer] at hnext
          · exact hnext
          · exact ih hnext

theorem beyond_read (h : decoder.source.Beyond node position) (count : Nat) (d : Disk) :
    (decoder.read count d).2.source.Beyond node position := beyond_readWithin count d _ h

theorem readWithin_eq (hd : d.AgreeFrom node position d') (count fuel : Nat) :
    ∀ {decoder : Decoder}, decoder.source.Beyond node position →
      readWithin count d' fuel decoder = readWithin count d fuel decoder := by
  induction fuel with
  | zero => intro decoder h; rfl
  | succ fuel ih =>
      intro decoder h
      rw [readWithin, readWithin]
      split
      · rfl
      · rfl
      rename_i m _
      have hread := Member.beyond_read h count m d
      rw [Member.read_eq hd h]
      split <;> rename_i hanswer <;> rw [hanswer] at hread
      split
      · rfl
      · rename_i m' source' _
        have hnext : (nextMember m' source' d).2.source.Beyond node position :=
          beyond_nextMember hread m' d
        rw [nextMember_eq hd hread]
        generalize nextMember m' source' d = answer at hnext ⊢
        obtain ⟨fault | _, decoder'⟩ := answer
        · rfl
        · exact ih hnext

theorem read_eq (hd : d.AgreeFrom node position d') (h : decoder.source.Beyond node position)
    (count : Nat) : decoder.read count d' = decoder.read count d := by
  rw [read, read, h.unread_eq hd, readWithin_eq hd _ _ h]

theorem remaining_eq (hd : d.AgreeFrom node position d')
    (h : decoder.source.Beyond node position) : decoder.remaining d' = decoder.remaining d := by
  rw [remaining, remaining, h.unread_eq hd]

theorem beyond_start (node : Nat) (d : Disk) : (start node d).source.Beyond node 0 := by
  have hsource : (FileReader.start node blockSize).Beyond node 0 := ⟨rfl, Nat.zero_le _⟩
  exact looksAhead_readHeader.beyond hsource d

/-- A file that is no longer than a block is fetched in full at first. -/
theorem beyond_start_of_size_le {data : ByteArray} (hnode : d.node? node = some (.file data))
    (hle : data.size ≤ blockSize) : (start node d).source.Beyond node data.size :=
  beyond_readHeader (FileReader.beyond_read_start hnode hle (by decide))

end Decoder
end TraceStore.Gzip
