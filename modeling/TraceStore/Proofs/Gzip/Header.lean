import TraceStore.Proofs.Gzip.Rounds

/-!
# Reading headers

A step of reading a header fails, or it takes some bytes off the file and delivers something that
depends on these bytes only: `Parses`. So a header is a piece of a file that is read in the same way
wherever it stands: `parses_readHeader`.
-/
namespace TraceStore.Gzip

variable {α β : Type} {d : Disk} {id : Nat} {source : FileReader} {s rest : List UInt8}

/-- Whatever follows, `f` takes `front` off a file and delivers `v`. -/
def Takes (f : FileReader → Disk → HeaderStep α) (front : List UInt8) (v : α) : Prop :=
  ∀ (d : Disk) (id : Nat) (rest : List UInt8) (source : FileReader),
    Fetches d id (front ++ rest) source →
      ∃ source', f source d = (.ok v, source') ∧ Fetches d id rest source'

/-- On any file, `f` fails or takes something off it. -/
def Parses (f : FileReader → Disk → HeaderStep α) : Prop :=
  ∀ (d : Disk) (id : Nat) (s : List UInt8) (source : FileReader), Fetches d id s source →
    (∃ fault source', f source d = (.error fault, source')) ∨
    ∃ front rest v, s = front ++ rest ∧ Takes f front v

/-- What is read by one step after another. -/
def andThen (f : FileReader → Disk → HeaderStep α) (g : α → FileReader → Disk → HeaderStep β)
    (source : FileReader) (d : Disk) : HeaderStep β :=
  match f source d with
  | (.error fault, source) => (.error fault, source)
  | (.ok v, source) => g v source d

variable {f : FileReader → Disk → HeaderStep α} {g : α → FileReader → Disk → HeaderStep β}

theorem Takes.andThen {front front' : List UInt8} {v : α} {w : β} (hf : Takes f front v)
    (hg : Takes (g v) front' w) : Takes (andThen f g) (front ++ front') w := by
  intro d id rest source h
  rw [List.append_assoc] at h
  obtain ⟨source₁, hfirst, h₁⟩ := hf d id _ source h
  obtain ⟨source₂, hsecond, h₂⟩ := hg d id rest source₁ h₁
  exact ⟨source₂, by rw [Gzip.andThen, hfirst]; exact hsecond, h₂⟩

theorem parses_done (v : α) : Parses fun source _ => (.ok v, source) :=
  fun _ _ s _ _ => .inr ⟨[], s, v, rfl, fun _ _ _ source h => ⟨source, rfl, h⟩⟩

theorem parses_failed (fault : StreamFault) :
    Parses (fun source _ => (.error fault, source) : FileReader → Disk → HeaderStep α) :=
  fun _ _ _ source _ => .inl ⟨fault, source, rfl⟩

theorem Parses.andThen (hf : Parses f) (hg : ∀ v, Parses (g v)) : Parses (andThen f g) := by
  intro d id s source h
  rcases hf d id s source h with ⟨fault, source₁, hfailed⟩ | ⟨front, rest, v, rfl, htakes⟩
  · exact .inl ⟨fault, source₁, by rw [Gzip.andThen, hfailed]⟩
  · obtain ⟨source₁, hfirst, h₁⟩ := htakes d id rest source h
    rcases hg v d id rest source₁ h₁ with ⟨fault, source₂, hfailed⟩ | ⟨front', rest', w, rfl, htakes'⟩
    · exact .inl ⟨fault, source₂, by rw [Gzip.andThen, hfirst]; exact hfailed⟩
    · exact .inr ⟨front ++ front', rest', w, (List.append_assoc ..).symm, htakes.andThen htakes'⟩

theorem Parses.ite {f f' : FileReader → Disk → HeaderStep α} {p : Prop} [Decidable p]
    (h : Parses f) (h' : Parses f') : Parses fun source d => if p then f source d else f' source d := by
  by_cases hp : p
  · simpa only [if_pos hp] using h
  · simpa only [if_neg hp] using h'

/-! ### Fields -/

theorem takes_exactly (bytes : ByteArray) :
    Takes (exactly bytes.size) bytes.data.toList bytes := by
  intro d id rest source h
  exact ⟨_, exactly_of_ahead h⟩

theorem parses_exactly (count : Nat) : Parses (exactly count) := by
  intro d id s source h
  by_cases hshort : s.length < count
  · obtain ⟨source', hread⟩ := exactly_of_short h hshort
    exact .inl ⟨_, source', hread⟩
  · have htakes := takes_exactly ⟨(s.take count).toArray⟩
    have hsize : (⟨(s.take count).toArray⟩ : ByteArray).size = count := by
      rw [ByteArray.size, List.size_toArray, List.length_take]
      omega
    rw [hsize] at htakes
    exact .inr ⟨_, s.drop count, _, (List.take_append_drop count s).symm, htakes⟩

theorem untilZeroWithin_eq (fuel : Nat) (done : ByteArray) :
    (fun source d => untilZeroWithin d fuel done source) = andThen (exactly 1)
      fun byte source d => if byte.data[0]? = some 0 then (.ok (done ++ byte), source)
        else match fuel with
          | 0 => (.error (.io .gzipFieldTooLong), source)
          | fuel + 1 => untilZeroWithin d fuel (done ++ byte) source := by
  funext source d
  rw [andThen]
  cases fuel <;> rw [untilZeroWithin] <;> rcases exactly 1 source d with ⟨_ | byte, source'⟩ <;> rfl

theorem parses_untilZeroWithin (fuel : Nat) : ∀ done : ByteArray,
    Parses fun source d => untilZeroWithin d fuel done source := by
  induction fuel with
  | zero =>
      intro done
      rw [untilZeroWithin_eq]
      exact (parses_exactly 1).andThen fun byte => (parses_done _).ite (parses_failed _)
  | succ fuel ih =>
      intro done
      rw [untilZeroWithin_eq]
      exact (parses_exactly 1).andThen fun byte => (parses_done _).ite (ih _)

theorem parses_untilZero : Parses untilZero := parses_untilZeroWithin maxFieldSize .empty

theorem extraField_eq : extraField = andThen (exactly 2) fun length =>
    andThen (exactly (LittleEndian.decode length.data.toList)) fun extra source _ =>
      (.ok (length ++ extra), source) := by
  funext source d
  rw [extraField, andThen]
  rcases exactly 2 source d with ⟨_ | length, source'⟩
  · rfl
  · dsimp only
    rw [andThen]
    rcases exactly _ source' d with ⟨_ | extra, source''⟩ <;> rfl

theorem parses_extraField : Parses extraField := by
  rw [extraField_eq]
  exact (parses_exactly 2).andThen fun length => (parses_exactly _).andThen fun extra =>
    parses_done _

theorem optional_eq (f field : FileReader → Disk → HeaderStep ByteArray) (present : Bool) :
    (fun source d => optional present field (f source d) d) =
      andThen f fun done source d => if !present then (.ok done, source)
        else andThen field (fun bytes source _ => (.ok (done ++ bytes), source)) source d := by
  funext source d
  rw [andThen]
  rcases f source d with ⟨_ | done, source'⟩
  · rfl
  · simp only [optional, andThen]
    rcases field source' d with ⟨_ | bytes, source''⟩ <;> rfl

/-- A field that may be there, behind what was read before. -/
theorem Parses.optional {f field : FileReader → Disk → HeaderStep ByteArray} (hf : Parses f)
    (hfield : Parses field) (present : Bool) :
    Parses fun source d => Gzip.optional present field (f source d) d := by
  rw [optional_eq]
  exact hf.andThen fun done =>
    (parses_done done).ite (hfield.andThen fun bytes => parses_done (done ++ bytes))

/-- A header is its fixed part, the fields that are there, and a check that may be there. -/
theorem readHeader_eq : readHeader = andThen (exactly fixedHeaderSize) fun fixed source d =>
    let flags := HeaderFlags.ofByte (fixed.data.getD 3 0)
    if fixed.data[0]? ≠ some 0x1f ∨ fixed.data[1]? ≠ some 0x8b ∨ fixed.data[2]? ≠ some 8
        ∨ flags.reserved then
      (.error (.io .gzipHeader), source)
    else andThen (fun source d => optional flags.comment untilZero
        (optional flags.name untilZero
          (optional flags.extra extraField (.ok fixed, source) d) d) d)
      (fun header source d => if !flags.check then (.ok (), source)
        else andThen (exactly 2) (fun check source _ =>
          if LittleEndian.decode check.data.toList = (Crc32.compute header).toNat % 65536
          then (.ok (), source) else (.error (.io .gzipChecksum), source)) source d) source d := by
  funext source d
  rw [readHeader, andThen]
  rcases exactly fixedHeaderSize source d with ⟨_ | fixed, source₁⟩
  · rfl
  dsimp only
  split
  · rfl
  rw [andThen]
  rcases optional _ untilZero _ d with ⟨_ | header, source₂⟩
  · rfl
  dsimp only
  split
  · rfl
  rw [andThen]
  rcases exactly 2 source₂ d with ⟨_ | check, source₃⟩ <;> rfl

theorem parses_readHeader : Parses readHeader := by
  rw [readHeader_eq]
  refine (parses_exactly _).andThen fun fixed => (parses_failed _).ite ?_
  refine Parses.andThen ?_ fun header => (parses_done ()).ite ?_
  · exact (((parses_done fixed).optional parses_extraField _).optional parses_untilZero _).optional
      parses_untilZero _
  · exact (parses_exactly 2).andThen fun check => (parses_done ()).ite (parses_failed _)

end TraceStore.Gzip
