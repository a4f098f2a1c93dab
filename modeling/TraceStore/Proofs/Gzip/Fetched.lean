import TraceStore.Proofs.Gzip.Decoder

/-!
# Members that were fetched before the file changed

What a decoder has fetched it delivers even if the file is emptied. If that is some members,
exactly, the decoder takes them for the whole file: `Decoder.stands_start_of_fetched`.
-/
namespace TraceStore.Gzip.Decoder

variable {d d' : Disk} {id : Nat} {ms past : List WholeMember} {F done : List UInt8} {promise : Nat}
  {decoder : Decoder}

/-- A file whose end is fetched can be exchanged for another one that is no longer. -/
theorem Stands.of_fetched {data data' : ByteArray} (h : Stands d id ms F done promise decoder)
    (hnode : d.node? id = some (.file data)) (hle : data.size ≤ decoder.source.position)
    (hnode' : d'.node? id = some (.file data')) (hle' : data'.size ≤ decoder.source.position) :
    Stands d' id ms F done promise decoder := by
  cases h with
  | body hms hF hpast h hsource hpromise =>
      obtain ⟨⟨data₁, hnode₁, hmore⟩, hid, hblock⟩ := hsource
      rw [hid] at hnode₁
      obtain rfl := Node.file.inj (Option.some.inj (hnode₁.symm.trans hnode))
      refine .body hms hF hpast h ⟨⟨data', by rw [hid]; exact hnode', ?_⟩, hid, hblock⟩ hpromise
      rw [hmore, List.drop_of_length_le (by rwa [length_toList]),
        List.drop_of_length_le (by rwa [length_toList])]
  | finished hends => exact .finished hends
  | broken hends => exact .broken hends

/-- A decoder that is opened on a file that starts with a header has fetched the first block of it.
-/
theorem start_eq {header : List UInt8} (hheader : PlainHeader header) {data : ByteArray}
    (hdata : header <+: data.data.toList) (hnode : d.node? id = some (.file data)) :
    let block := data.extract 0 blockSize
    Decoder.start id d =
      ⟨⟨id, blockSize, block.size, block.extract fixedHeaderSize block.size⟩, .body .start⟩ := by
  obtain ⟨rest, hrest⟩ := hdata
  have hsource : Fetches d id (header ++ rest) (FileReader.start id blockSize) :=
    ⟨by rw [hrest]; exact FileReader.ahead_start hnode blockSize, rfl, (by decide : 0 < blockSize)⟩
  rw [Decoder.start, (hheader.readHeader hsource).1,
    FileReader.read_start hnode (by decide) (by decide)]
  rfl

/-- If members take exactly the block that is fetched at first, the rest of the file does not
matter, nor does what becomes of the file later. -/
theorem stands_start_of_fetched (hpast : past ≠ []) (hfull : (fileOf past).length = blockSize)
    (hF : fileOf past <+: F) (hnode : d.node? id = some (.file ⟨F.toArray⟩)) {data' : ByteArray}
    (hnode' : d'.node? id = some (.file data')) (hsmall : data'.size ≤ blockSize) :
    Stands d' id past (fileOf past) [] ((Decoder.start id d).remaining d')
      (Decoder.start id d) := by
  obtain ⟨header, hheader, hbegins⟩ : ∃ header, PlainHeader header ∧ header <+: fileOf past := by
    obtain ⟨cur, future, rfl⟩ := List.exists_cons_of_ne_nil hpast
    obtain ⟨header, stream, hheader, -, hbytes⟩ := cur.isMember
    refine ⟨header, hheader, ?_⟩
    rw [fileOf_cons, hbytes, List.append_assoc]
    exact List.prefix_append ..
  -- The same decoder is opened on a disk where the file ends with the members.
  obtain ⟨d₂, hnode₂⟩ : ∃ d₂ : Disk, d₂.node? id = some (.file ⟨(fileOf past).toArray⟩) :=
    ⟨_, Disk.node?_setNode (Array.getElem?_eq_some_iff.1 hnode).1⟩
  have hstands := stands_start hpast List.prefix_rfl hnode₂
  have hblock : (⟨F.toArray⟩ : ByteArray).extract 0 blockSize =
      (⟨(fileOf past).toArray⟩ : ByteArray).extract 0 blockSize := by
    obtain ⟨lost, rfl⟩ := hF
    apply eq_of_toList_eq
    simp [← hfull]
  have hsame : Decoder.start id d = Decoder.start id d₂ := by
    rw [start_eq hheader (hbegins.trans hF) hnode, start_eq hheader hbegins hnode₂, hblock]
  have hposition : (Decoder.start id d₂).source.position = blockSize := by
    rw [start_eq hheader hbegins hnode₂]
    show (ByteArray.extract ⟨(fileOf past).toArray⟩ 0 blockSize).size = blockSize
    rw [ByteArray.size_extract, ByteArray.size, List.size_toArray, hfull, Nat.min_self,
      Nat.sub_zero]
  rw [hsame]
  refine (hstands.of_fetched hnode₂ ?_ hnode' (by rwa [hposition])).remaining
  rw [hposition]
  exact Nat.le_of_eq hfull

end TraceStore.Gzip.Decoder
