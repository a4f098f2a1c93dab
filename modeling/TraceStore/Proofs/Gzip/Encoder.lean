import TraceStore.Gzip.Encoder
import TraceStore.Proofs.Deflate.Stored
import TraceStore.Proofs.Disk.Writer
import TraceStore.Proofs.Gzip.Member
import TraceStore.Proofs.Stream.Backend

/-!
# Encoding a member of stored blocks

An encoder has written some blocks behind the header and holds back the bytes of the next one:
`Encoder.Holds`. Whatever was requested of it, it leaves a file of one member that holds the bytes
written: `Encoder.Encodes.finish`. That is what is expected of any encoder: `WritesMembers`.
-/
namespace TraceStore.Gzip

open Deflate

/-- Whatever is requested of an encoder, it leaves a member in its file that holds the bytes
written, and it never changes another node. -/
structure WritesMembers (ε : Type) [StreamEncoder ε] : Prop where
  member : ∀ (o : WriteOptions) (d : Disk) (id : Nat) (requests : List WriteRequest),
    o.validate = .ok () → d.node? id = some (.file .empty) → ∃ (e : ε) (d' : Disk) (F : ByteArray),
      WriteRequest.runAll StreamEncoder.perform requests
        (StreamEncoder.start o (FileWriter.start id)) d = ⟨.ok (), e, d'⟩ ∧
      StreamEncoder.finish e d' = d.setNode id (.file F) ∧
      IsMember F.data.toList (WriteRequest.written requests)
  spares : ∀ (o : WriteOptions) (d : Disk) (id other : Nat), other ≠ id →
    WriteRequest.Spares (τ := ε) StreamEncoder.perform other
      (StreamEncoder.start o (FileWriter.start id)) d

namespace Encoder

/-! ### What an encoder does with its file -/

theorem through_put (bytes : ByteArray) (e : Encoder) (d : Disk) :
    e.sink.Through d (e.put bytes d).state.sink (e.put bytes d).disk := .write bytes .refl

theorem through_emit (last : Bool) (e : Encoder) (d : Disk) :
    e.sink.Through d (e.emit last d).state.sink (e.emit last d).disk := through_put ..

theorem through_begin (e : Encoder) (d : Disk) :
    e.sink.Through d (e.begin d).state.sink (e.begin d).disk := by
  rw [begin]
  split
  · exact .refl
  · exact through_put ..

theorem through_writeWithin (bytes : ByteArray) (fuel : Nat) :
    ∀ (start : Nat) (e : Encoder) (d : Disk), e.sink.Through d
      (writeWithin bytes fuel start e d).state.sink (writeWithin bytes fuel start e d).disk := by
  induction fuel with
  | zero => intro start e d; exact .refl
  | succ fuel ih =>
      intro start e d
      rw [writeWithin]
      split
      · exact .refl
      extract_lets stop e₁
      split
      · exact ih stop e₁ d
      · have hemit := through_emit false e₁ d
        split <;> rename_i hnext <;> rw [hnext] at hemit
        · exact hemit
        · exact hemit.trans (ih ..)

theorem through_write (bytes : ByteArray) (e : Encoder) (d : Disk) :
    e.sink.Through d (e.write bytes d).state.sink (e.write bytes d).disk := by
  have hbegin := e.through_begin d
  rw [write]
  split <;> rename_i hnext <;> rw [hnext] at hbegin
  · exact hbegin
  case h_2 e₁ d₁ =>
    exact hbegin.trans (through_writeWithin bytes bytes.size 0
      { e₁ with crc := Crc32.update e₁.crc bytes, length := e₁.length + bytes.size } d₁)

theorem through_flush (e : Encoder) (d : Disk) :
    e.sink.Through d (e.flush d).state.sink (e.flush d).disk := by
  have hbegin := e.through_begin d
  rw [flush]
  split <;> rename_i hnext <;> rw [hnext] at hbegin
  · exact hbegin
  case h_2 e₁ d₁ =>
    generalize hended : (if e₁.block.isEmpty then (⟨.ok (), e₁, d₁⟩ : Outcome Encoder Unit)
      else e₁.emit false d₁) = ended
    have hemit : e₁.sink.Through d₁ ended.state.sink ended.disk := by
      rw [← hended]
      split
      · exact .refl
      · exact through_emit ..
    split
    · exact hbegin.trans hemit
    · exact (hbegin.trans hemit).flush

/-- An encoder writes to its file, flushes it, and gives it up in the end. -/
theorem writesThrough : StreamEncoder.WritesThrough sink where
  start _ _ := rfl
  perform request e d := by
    cases request with
    | write bytes => exact e.through_write bytes d
    | flush => exact e.through_flush d
  finish e d := by
    show ∃ w d', e.sink.Through d w d' ∧ finish e d = w.release d'
    have hblock := (e.through_begin d).trans (through_emit true (e.begin d).state (e.begin d).disk)
    rw [finish]
    generalize (e.begin d).state.emit true (e.begin d).disk = o at hblock
    exact ⟨_, _, hblock.trans (through_put o.state.trailer o.state o.disk), rfl⟩

/-! ### The blocks written -/

theorem toList_storedBlock (last : Bool) (bytes : ByteArray) :
    (storedBlock last bytes).data.toList = Deflate.storedBlock last bytes.data.toList := by
  simp [storedBlock, Deflate.storedBlock, blockHead]

/-- An encoder behind the header and some blocks of a file of the disk `d₀`, which with the block at
hand hold `s`. -/
structure Holds (d₀ : Disk) (id : Nat) (s : List UInt8) (e : Encoder) (d : Disk) : Prop where
  started : e.started = true
  block_le : e.block.size ≤ maxBlockSize
  blocks : ∃ blocks : List (List UInt8), (∀ block ∈ blocks, block.length ≤ maxBlockSize) ∧
    s = blocks.flatten ++ e.block.data.toList ∧
    e.sink.Wrote d₀ id (fixedHeader.data.toList ++ blocks.flatMap (Deflate.storedBlock false)) d

variable {d₀ d : Disk} {id : Nat} {s : List UInt8} {e : Encoder}

/-- A piece of the file is added to those written. -/
theorem put_of_wrote (h : e.sink.Wrote d₀ id s d) (bytes : ByteArray) :
    ∃ sink d', e.put bytes d = ⟨.ok (), { e with sink }, d'⟩ ∧
      sink.Wrote d₀ id (s ++ bytes.data.toList) d' := by
  obtain ⟨sink, d', hwrite, h'⟩ := h.write bytes
  exact ⟨sink, d', by rw [put, hwrite]; rfl, h'⟩

namespace Holds

/-- The block at hand becomes one of those written. -/
theorem emit (h : e.Holds d₀ id s d) :
    ∃ sink d', e.emit false d = ⟨.ok (), { e with block := .empty, sink }, d'⟩ ∧
      Holds d₀ id s { e with block := .empty, sink } d' := by
  obtain ⟨blocks, hblocks, hs, hsink⟩ := h.blocks
  obtain ⟨sink, d', hput, hsink'⟩ := put_of_wrote
    (show ({ e with block := .empty } : Encoder).sink.Wrote d₀ id _ d from hsink)
    (storedBlock false e.block)
  refine ⟨sink, d', hput, h.started, Nat.zero_le _, blocks ++ [e.block.data.toList], ?_, ?_, ?_⟩
  · intro block hblock
    rcases List.mem_append.1 hblock with hold | hnew
    · exact hblocks block hold
    · rw [List.mem_singleton.1 hnew, length_toList]
      exact h.block_le
  · simp [hs]
  · simpa [toList_storedBlock] using hsink'

/-- Bytes that fit are added to the block at hand. -/
theorem fill (h : e.Holds d₀ id s d) (bytes : ByteArray)
    (hfits : e.block.size + bytes.size ≤ maxBlockSize) :
    Holds d₀ id (s ++ bytes.data.toList) { e with block := e.block ++ bytes } d := by
  obtain ⟨blocks, hblocks, hs, hsink⟩ := h.blocks
  refine ⟨h.started, by rwa [ByteArray.size_append], blocks, hblocks, ?_, hsink⟩
  rw [hs, ByteArray.data_append, Array.toList_append, List.append_assoc]

/-- Bytes are taken in up to the end, and every block that gets full is written. -/
theorem writeWithin (bytes : ByteArray) (fuel : Nat) : ∀ (start : Nat) (e : Encoder) (d : Disk),
    bytes.size ≤ fuel + start → start ≤ bytes.size → e.block.size < maxBlockSize →
    e.Holds d₀ id (s ++ bytes.data.toList.take start) d →
    ∃ block sink d',
      Encoder.writeWithin bytes fuel start e d = ⟨.ok (), { e with block, sink }, d'⟩ ∧
      Holds d₀ id (s ++ bytes.data.toList) { e with block, sink } d' ∧
      block.size < maxBlockSize := by
  induction fuel with
  | zero =>
      intro start e d hfuel hstart hblock h
      rw [List.take_of_length_le (by rw [length_toList]; omega)] at h
      exact ⟨e.block, e.sink, d, rfl, h, hblock⟩
  | succ fuel ih =>
      intro start e d hfuel hstart hblock h
      rw [Encoder.writeWithin]
      by_cases hend : bytes.size ≤ start
      · rw [List.take_of_length_le (by rw [length_toList]; omega)] at h
        exact ⟨e.block, e.sink, d, if_pos hend, h, hblock⟩
      rw [if_neg hend]
      generalize hstop : start + min (maxBlockSize - e.block.size) (bytes.size - start) = stop
      have htake : bytes.data.toList.take start ++ (bytes.extract start stop).data.toList =
          bytes.data.toList.take stop := by
        rw [← hstop, toList_extract, ← List.take_add]
      have hsize : (bytes.extract start stop).size =
          min (maxBlockSize - e.block.size) (bytes.size - start) := by
        rw [ByteArray.size_extract]
        omega
      have hfilled := h.fill (bytes.extract start stop) (by omega)
      rw [List.append_assoc, htake] at hfilled
      dsimp only
      by_cases hroom : (e.block ++ bytes.extract start stop).size < maxBlockSize
      · rw [if_pos hroom]
        exact ih stop { e with block := e.block ++ bytes.extract start stop } d (by omega) (by omega)
          hroom hfilled
      · rw [if_neg hroom]
        obtain ⟨sink, d', hemit, hemitted⟩ := hfilled.emit
        rw [hemit]
        exact ih stop { e with block := .empty, sink } d' (by omega) (by omega)
          (by decide : 0 < maxBlockSize) hemitted

end Holds

/-- An encoder that `s` was written to. It may have left the header for later as long as that is
nothing. -/
structure Encodes (d₀ : Disk) (id : Nat) (s : List UInt8) (e : Encoder) (d : Disk) : Prop where
  state : (e.started = false ∧ s = [] ∧ e.block = .empty ∧ e.sink.Wrote d₀ id [] d) ∨
    (e.Holds d₀ id s d ∧ e.block.size < maxBlockSize)
  crc_eq : e.crc = Crc32.compute ⟨s.toArray⟩
  length_eq : e.length = s.length

theorem encodes_start (h : d.node? id = some (.file .empty)) :
    (start (FileWriter.start id)).Encodes d id [] d where
  state := .inl ⟨rfl, rfl, rfl, FileWriter.wrote_start h⟩
  crc_eq := (by decide : (0 : UInt32) = Crc32.compute ⟨[].toArray⟩)
  length_eq := rfl

namespace Encodes

theorem begin (h : e.Encodes d₀ id s d) :
    ∃ sink d', e.begin d = ⟨.ok (), { e with started := true, sink }, d'⟩ ∧
      Holds d₀ id s { e with started := true, sink } d' ∧ e.block.size < maxBlockSize := by
  rcases h.state with ⟨hstarted, rfl, hblock, hsink⟩ | ⟨hholds, hblock⟩
  · obtain ⟨sink, d', hput, hsink'⟩ := put_of_wrote
      (show ({ e with started := true } : Encoder).sink.Wrote d₀ id [] d from hsink) fixedHeader
    have hsize : e.block.size = 0 := by rw [hblock, ByteArray.size_empty]
    refine ⟨sink, d', ?_,
      ⟨rfl, by simp [hsize], [], by simp, by simp [hblock], by simpa using hsink'⟩,
      by rw [hsize]; decide⟩
    rw [Encoder.begin, hstarted]
    exact hput
  · have hself : { e with started := true } = e := by rw [← hholds.started]
    refine ⟨e.sink, d, ?_, ?_, hblock⟩
    · rw [hself, Encoder.begin, if_pos hholds.started]
    · rw [hself]
      exact hholds

theorem write (h : e.Encodes d₀ id s d) (bytes : ByteArray) :
    ∃ e' d', e.write bytes d = ⟨.ok (), e', d'⟩ ∧ e'.Encodes d₀ id (s ++ bytes.data.toList) d' := by
  obtain ⟨sink₁, d₁, hbegin, hheld, hblock⟩ := h.begin
  have hstart : Holds d₀ id (s ++ bytes.data.toList.take 0)
      ⟨sink₁, true, e.block, Crc32.update e.crc bytes, e.length + bytes.size⟩ d₁ := by
    rw [List.take_zero, List.append_nil]
    exact ⟨hheld.started, hheld.block_le, hheld.blocks⟩
  obtain ⟨block, sink₂, d₂, hwrite, hholds, hless⟩ :=
    Holds.writeWithin bytes bytes.size 0
      ⟨sink₁, true, e.block, Crc32.update e.crc bytes, e.length + bytes.size⟩ d₁ (Nat.le_refl _)
      (Nat.zero_le _) hblock hstart
  refine ⟨_, d₂, ?_, .inr ⟨hholds, hless⟩, ?_, ?_⟩
  · rw [Encoder.write, hbegin]
    exact hwrite
  · have hbytes : (⟨s.toArray⟩ ++ bytes : ByteArray) = ⟨(s ++ bytes.data.toList).toArray⟩ :=
      eq_of_toList_eq (by simp)
    rw [← hbytes, Crc32.compute, Crc32.update_append, ← Crc32.compute, ← h.crc_eq]
  · rw [List.length_append, ← h.length_eq, length_toList]

theorem flush (h : e.Encodes d₀ id s d) :
    ∃ e' d', e.flush d = ⟨.ok (), e', d'⟩ ∧ e'.Encodes d₀ id s d' := by
  obtain ⟨sink₁, d₁, hbegin, hheld, hblock⟩ := h.begin
  rw [Encoder.flush, hbegin]
  dsimp only
  -- The block at hand is ended unless there is nothing in it.
  obtain ⟨block, sink₂, d₂, hended, hheld₂, hblock₂⟩ : ∃ block sink d',
      (if e.block.isEmpty then ⟨.ok (), { e with started := true, sink := sink₁ }, d₁⟩
        else emit false { e with started := true, sink := sink₁ } d₁) =
        (⟨.ok (), ⟨sink, true, block, e.crc, e.length⟩, d'⟩ : Outcome Encoder Unit) ∧
        Holds d₀ id s ⟨sink, true, block, e.crc, e.length⟩ d' ∧ block.size < maxBlockSize := by
    by_cases hempty : e.block.isEmpty
    · exact ⟨e.block, sink₁, d₁, if_pos hempty, hheld, hblock⟩
    · obtain ⟨sink₂, d₂, hemit, hheld₂⟩ := hheld.emit
      rw [if_neg hempty]
      exact ⟨.empty, sink₂, d₂, hemit, hheld₂, (by decide : 0 < maxBlockSize)⟩
  rw [hended]
  obtain ⟨blocks, hblocks, hs, hsink⟩ := hheld₂.blocks
  obtain ⟨sink₃, hflush, -, hsink₃⟩ := hsink.flush
  refine ⟨⟨sink₃, true, block, e.crc, e.length⟩, _, ?_,
    .inr ⟨⟨rfl, hheld₂.block_le, blocks, hblocks, hs, hsink₃⟩, hblock₂⟩, h.crc_eq, h.length_eq⟩
  dsimp only
  rw [hflush]
  rfl

theorem perform (s : List UInt8) (e : Encoder) (d : Disk) (h : e.Encodes d₀ id s d)
    (request : WriteRequest) : ∃ e' d', StreamEncoder.perform request e d = ⟨.ok (), e', d'⟩ ∧
      e'.Encodes d₀ id (s ++ request.bytes) d' := by
  cases request with
  | write bytes => exact h.write bytes
  | flush =>
      rw [WriteRequest.bytes, List.append_nil]
      exact h.flush

/-- The file of an encoder that is given up is one member of stored blocks. -/
theorem finish (h : e.Encodes d₀ id s d) :
    ∃ F : ByteArray, e.finish d = d₀.setNode id (.file F) ∧ IsMember F.data.toList s := by
  obtain ⟨sink₁, d₁, hbegin, hheld, hblock⟩ := h.begin
  obtain ⟨blocks, hblocks, hs, hsink₁⟩ := hheld.blocks
  obtain ⟨sink₂, d₂, hemit, hsink₂⟩ := put_of_wrote
    (show (⟨sink₁, true, .empty, e.crc, e.length⟩ : Encoder).sink.Wrote d₀ id _ d₁ from hsink₁)
    (storedBlock true e.block)
  obtain ⟨sink₃, d₃, htrailer, hsink₃⟩ := put_of_wrote
    (show (⟨sink₂, true, .empty, e.crc, e.length⟩ : Encoder).sink.Wrote d₀ id _ d₂ from hsink₂)
    (trailer ⟨sink₂, true, .empty, e.crc, e.length⟩)
  have hfinish : e.finish d = sink₃.release d₃ := by
    have hlast : emit true { e with started := true, sink := sink₁ } d₁ =
        ⟨.ok (), ⟨sink₂, true, .empty, e.crc, e.length⟩, d₂⟩ := hemit
    simp only [Encoder.finish, hbegin, hlast, htrailer]
  have htrailer' : trailer ⟨sink₂, true, .empty, e.crc, e.length⟩ = trailerOf s := by
    rw [trailer, trailerOf, ← h.crc_eq, ← h.length_eq]
  have hholds := Inflate.holds_blocks hblocks hheld.block_le
  rw [← hs] at hholds
  refine ⟨_, by rw [hfinish, hsink₃.release], _, _, plainHeader_fixedHeader, hholds, ?_⟩
  rw [htrailer', toList_storedBlock]
  simp only [List.append_assoc]

end Encodes

theorem writesMembers : WritesMembers Encoder where
  member := by
    intro o d id requests _ hnode
    obtain ⟨e, d', hrun, hencodes⟩ :=
      WriteRequest.runAll_of_invariant (Encodes d id) Encodes.perform requests (encodes_start hnode)
    rw [List.nil_append] at hencodes
    obtain ⟨F, hfinish, hmember⟩ := hencodes.finish
    exact ⟨e, d', F, hrun, hfinish, hmember⟩
  spares o d id other hne := writesThrough.sparesOthers o d id other hne

end Encoder
end TraceStore.Gzip
