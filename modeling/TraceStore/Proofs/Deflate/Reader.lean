import TraceStore.Deflate.Inflate
import TraceStore.Proofs.Bytes

/-!
# Reading bits from pieces of a stream

Whatever is read of a deflate stream is read from front to back: it does not depend on what lies in
front of it, nor on what follows once the piece at hand suffices: `BitReader.Uses`.
-/
namespace TraceStore

/-! ### Bits of pieces -/

theorem byteAt_append_right (front bytes : ByteArray) (i : Nat) :
    byteAt (front ++ bytes) (front.size + i) = byteAt bytes i := by
  simp only [byteAt, ByteArray.size_append, Nat.add_lt_add_iff_left]
  split
  · rw [ByteArray.getElem_append_right (by omega)]
    simp
  · rfl

theorem byteAt_append_left {bytes : ByteArray} {i : Nat} (h : i < bytes.size) (more : ByteArray) :
    byteAt (bytes ++ more) i = byteAt bytes i := by
  rw [byteAt, byteAt, dif_pos h, dif_pos (by rw [ByteArray.size_append]; omega),
    ByteArray.getElem_append_left h]

theorem wordAt_append_right (front bytes : ByteArray) (width : Nat) : ∀ i,
    wordAt (front ++ bytes) (front.size + i) width = wordAt bytes i width := by
  induction width with
  | zero => intro i; rfl
  | succ width ih =>
      intro i
      rw [wordAt, wordAt, byteAt_append_right, Nat.add_assoc, ih]

theorem wordAt_append_left {bytes : ByteArray} (more : ByteArray) (width : Nat) : ∀ {i},
    i + width ≤ bytes.size → wordAt (bytes ++ more) i width = wordAt bytes i width := by
  induction width with
  | zero => intro i _; rfl
  | succ width ih =>
      intro i h
      rw [wordAt, wordAt, byteAt_append_left (by omega), ih (by omega)]

theorem bitsAt_append_right (front bytes : ByteArray) (start count : Nat) :
    bitsAt (front ++ bytes) (8 * front.size + start) count = bitsAt bytes start count := by
  rw [bitsAt, bitsAt, Nat.mul_add_mod, Nat.mul_add_div (by decide), wordAt_append_right]

theorem bitsAt_append_left {bytes : ByteArray} {start count : Nat} (more : ByteArray)
    (h : start + count ≤ 8 * bytes.size) :
    bitsAt (bytes ++ more) start count = bitsAt bytes start count := by
  by_cases hcount : count = 0
  · rw [bitsAt, bitsAt, hcount, Nat.shiftLeft_zero, Nat.mod_one, Nat.mod_one]
  · rw [bitsAt, bitsAt, wordAt_append_left more _ (by omega)]

namespace LittleEndian

theorem decodeAt_append_right (front bytes : ByteArray) (i width : Nat) :
    decodeAt (front ++ bytes) (front.size + i) width = decodeAt bytes i width := by
  rw [decodeAt, decodeAt, toList_extract, toList_extract, ByteArray.data_append,
    Array.toList_append, ← List.drop_drop, List.drop_left' (length_toList front)]

theorem decodeAt_append_left {bytes : ByteArray} {i width : Nat} (more : ByteArray)
    (h : i + width ≤ bytes.size) : decodeAt (bytes ++ more) i width = decodeAt bytes i width := by
  rw [decodeAt, decodeAt, toList_extract, toList_extract, ByteArray.data_append,
    Array.toList_append, List.drop_append_of_le_length (by rw [length_toList]; omega),
    List.take_append_of_le_length (by rw [List.length_drop, length_toList]; omega)]

end LittleEndian

namespace Deflate

/-! ### Readers -/

/-- Reads something from a bit of a piece of a stream on, and tells the bit behind it. -/
abbrev BitReader (α : Type) := ByteArray → Nat → Except Stop (α × Nat)

namespace BitReader

/-- A reader that uses up `least` bits or more, all of them in the piece at hand. Neither what lies
in front of them counts, nor what follows the piece, as long as that suffices. -/
structure Uses {α : Type} (least : Nat) (f : BitReader α) : Prop where
  within : ∀ {bytes bit v stop}, bit ≤ 8 * bytes.size → f bytes bit = .ok (v, stop) →
    bit + least ≤ stop ∧ stop ≤ 8 * bytes.size
  extend : ∀ {bytes bit} (more : ByteArray), f bytes bit ≠ .error .starved →
    f (bytes ++ more) bit = f bytes bit
  restrict : ∀ {bytes more bit v stop}, bit ≤ 8 * bytes.size →
    f (bytes ++ more) bit = .ok (v, stop) →
    stop ≤ 8 * bytes.size → f bytes bit = .ok (v, stop)
  shift : ∀ (front bytes : ByteArray) (bit : Nat), f (front ++ bytes) (8 * front.size + bit) =
    (f bytes bit).map fun (v, stop) => (v, 8 * front.size + stop)

variable {α β : Type} {least : Nat}

theorem Uses.mono {f : BitReader α} (h : f.Uses least) {fewer : Nat} (hfewer : fewer ≤ least) :
    f.Uses fewer where
  within hbit hread := by
    have := h.within hbit hread
    omega
  extend := h.extend
  restrict := h.restrict
  shift := h.shift

theorem uses_pure (v : α) : Uses 0 (fun _ bit => .ok (v, bit)) where
  within hbit hread := by
    obtain ⟨-, rfl⟩ := Prod.mk.inj (Except.ok.inj hread)
    exact ⟨Nat.le_refl _, hbit⟩
  extend _ _ := rfl
  restrict _ hread _ := hread
  shift _ _ _ := rfl

theorem uses_invalid : Uses least (fun _ _ => .error .invalid : BitReader α) where
  within _ hread := by cases hread
  extend _ _ := rfl
  restrict _ hread _ := hread
  shift _ _ _ := rfl

/-- What is read after something else. -/
theorem Uses.bind {f : BitReader α} {g : ByteArray → α × Nat → Except Stop (β × Nat)}
    (hf : f.Uses least) (hg : ∀ v, Uses 0 fun bytes bit => g bytes (v, bit)) :
    Uses least fun bytes bit => f bytes bit >>= g bytes where
  within {bytes bit v stop} hbit hread := by
    cases hfirst : f bytes bit with
    | error e => simp [hfirst, Bind.bind, Except.bind] at hread
    | ok first =>
        obtain ⟨w, middle⟩ := first
        have hmiddle := hf.within hbit hfirst
        rw [hfirst] at hread
        have hstop := (hg w).within hmiddle.2 hread
        omega
  extend {bytes bit} more hread := by
    have hfirst : f bytes bit ≠ .error .starved := by
      intro hstarved
      rw [hstarved] at hread
      exact hread rfl
    rw [hf.extend more hfirst]
    cases hvalue : f bytes bit with
    | error e => rfl
    | ok first =>
        rw [hvalue] at hread
        exact (hg first.1).extend more hread
  restrict {bytes more bit v stop} hbit hread hstop := by
    have hsize : bytes.size ≤ (bytes ++ more).size := by
      rw [ByteArray.size_append]
      exact Nat.le_add_right ..
    cases hfirst : f (bytes ++ more) bit with
    | error e => simp [hfirst, Bind.bind, Except.bind] at hread
    | ok first =>
        obtain ⟨w, middle⟩ := first
        have hmiddle := hf.within (Nat.le_trans hbit (Nat.mul_le_mul_left 8 hsize)) hfirst
        rw [hfirst] at hread
        have hle := ((hg w).within hmiddle.2 hread).1
        rw [hf.restrict hbit hfirst (by omega)]
        exact (hg w).restrict (by omega) hread hstop
  shift front bytes bit := by
    rw [hf.shift front bytes bit]
    cases f bytes bit with
    | error e => rfl
    | ok first => exact (hg first.1).shift front bytes first.2

theorem Uses.ite {f g : BitReader α} {p : Prop} [Decidable p] (hf : p → f.Uses least)
    (hg : ¬p → g.Uses least) :
    Uses least fun bytes bit => if p then f bytes bit else g bytes bit := by
  by_cases hp : p
  · simpa only [if_pos hp] using hf hp
  · simpa only [if_neg hp] using hg hp

/-- A check of what was read before. -/
theorem Uses.guard {f : BitReader α} {p : Prop} [Decidable p]
    {k : ByteArray → Nat → PUnit → Except Stop (α × Nat)} (hf : ¬p → f.Uses least) :
    Uses least fun bytes bit => if p then throw Stop.invalid >>= k bytes bit else f bytes bit :=
  Uses.ite (fun _ => uses_invalid) hf

theorem uses_number (count : Nat) : Uses count fun bytes bit => Inflate.number bytes bit count where
  within {bytes bit v stop} hbit hread := by
    rw [Inflate.number] at hread
    split at hread
    · cases hread
    · obtain ⟨-, rfl⟩ := Prod.mk.inj (Except.ok.inj hread)
      omega
  extend {bytes bit} more hread := by
    rw [Inflate.number] at hread
    split at hread
    · exact absurd rfl hread
    · rw [Inflate.number, Inflate.number, if_neg (by rw [ByteArray.size_append]; omega),
        if_neg (by assumption), bitsAt_append_left more (by omega)]
  restrict {bytes more bit v stop} hbit hread hstop := by
    rw [Inflate.number] at hread
    split at hread
    · cases hread
    · obtain ⟨rfl, rfl⟩ := Prod.mk.inj (Except.ok.inj hread)
      rw [Inflate.number, if_neg (by omega), bitsAt_append_left more (by omega)]
  shift front bytes bit := by
    rw [Inflate.number, Inflate.number, ByteArray.size_append, bitsAt_append_right]
    by_cases hshort : bytes.size * 8 < bit + count
    · rw [if_pos hshort, if_pos (by omega)]
      rfl
    · rw [if_neg hshort, if_neg (by omega), Nat.add_assoc]
      rfl

end BitReader

open BitReader
namespace Inflate

theorem uses_shortNumbers (count : Nat) : Uses 0 fun bytes bit => shortNumbers bytes count bit := by
  induction count with
  | zero => exact uses_pure []
  | succ count ih =>
      unfold shortNumbers
      refine ((uses_number 3).mono (Nat.zero_le _)).bind fun n => ?_
      exact ih.bind fun rest => uses_pure (n :: rest)

theorem uses_tableNumber (table : Array (Nat × Nat)) (i : Nat) :
    Uses 0 fun bytes bit => tableNumber table i bytes bit := by
  unfold tableNumber
  split
  · exact uses_invalid
  · exact ((uses_number _).mono (Nat.zero_le _)).bind fun n => uses_pure _

/-- What a look finds, as what is read. -/
private def found : Symbol → Except Stop (Nat × Nat)
  | .found symbol bit => .ok (symbol, bit)
  | .starved => .error .starved
  | .unassigned => .error .invalid

/-- Looking for a code takes one bit after the other. -/
private theorem uses_lookWithin (symbols : Array Nat) (counts : List Nat) :
    ∀ first index code : Nat, Uses 1 fun bytes bit =>
      found (PrefixCode.lookWithin symbols bytes counts bit first index code) := by
  induction counts with
  | nil => intro first index code; exact uses_invalid
  | cons count counts ih =>
      intro first index code
      have hround : (fun bytes bit => found
            (PrefixCode.lookWithin symbols bytes (count :: counts) bit first index code)) =
          fun bytes bit => number bytes bit 1 >>= fun x =>
            if 2 * code + x.1 < first + count then
              symbols[index + (2 * code + x.1 - first)]?.elim (.error .invalid)
                fun symbol => .ok (symbol, x.2)
            else found (PrefixCode.lookWithin symbols bytes counts x.2 (2 * (first + count))
              (index + count) (2 * code + x.1)) := by
        funext bytes bit
        by_cases hshort : bytes.size * 8 ≤ bit
        · have hnumber : number bytes bit 1 = .error .starved := if_pos (by omega)
          rw [PrefixCode.lookWithin, if_pos hshort, hnumber]
          rfl
        · have hnumber : number bytes bit 1 = .ok (bitsAt bytes bit 1, bit + 1) := if_neg (by omega)
          rw [PrefixCode.lookWithin, if_neg hshort, hnumber]
          by_cases hcode : 2 * code + bitsAt bytes bit 1 < first + count
          · simp only [Bind.bind, Except.bind, if_pos hcode]
            cases symbols[index + (2 * code + bitsAt bytes bit 1 - first)]? <;> rfl
          · simp only [Bind.bind, Except.bind, if_neg hcode]
      rw [hround]
      refine (uses_number 1).bind fun n => ?_
      refine Uses.ite (p := 2 * code + n < first + count) (fun _ => ?_) fun _ => ?_
      · dsimp only
        cases symbols[index + (2 * code + n - first)]? with
        | none => exact uses_invalid
        | some symbol => exact uses_pure symbol
      · exact (ih (2 * (first + count)) (index + count) (2 * code + n)).mono (Nat.zero_le _)

theorem uses_symbol (code : PrefixCode) : Uses 1 fun bytes bit => symbol code bytes bit := by
  have hfound : (fun bytes bit => symbol code bytes bit) =
      fun bytes bit => found (code.look bytes bit) := by
    funext bytes bit
    rw [symbol]
    cases code.look bytes bit <;> rfl
  rw [hfound]
  exact uses_lookWithin code.symbols code.counts 0 0 0

theorem uses_token (literals distances : PrefixCode) :
    Uses 1 fun bytes bit => token literals distances bytes bit := by
  unfold token
  refine (uses_symbol literals).bind fun literal => ?_
  refine Uses.ite (fun _ => uses_pure _) fun _ => Uses.ite (fun _ => uses_pure _) fun _ => ?_
  refine (uses_tableNumber ..).bind fun length => ?_
  refine ((uses_symbol distances).mono (Nat.zero_le _)).bind fun code => ?_
  exact (uses_tableNumber ..).bind fun distance => uses_pure _

/-- Code lengths that go on with a run of one length. Its number is read behind a base. -/
private def lengthRun (code : PrefixCode) (total fuel : Nat) (done : List Nat)
    (length base extra : Nat) : BitReader (List Nat) := fun bytes bit =>
  number bytes bit extra >>= fun x =>
    codeLengthsWithin code bytes total fuel (List.replicate (base + x.1) length ++ done) x.2

/-- One round of reading code lengths: one length, or a run of the last one or of zeros. -/
private theorem codeLengthsWithin_succ (code : PrefixCode) (total fuel : Nat) (done : List Nat) :
    (fun bytes bit => codeLengthsWithin code bytes total (fuel + 1) done bit) =
      fun bytes bit => if total ≤ done.length then .ok (done, bit) else
        symbol code bytes bit >>= fun x =>
          if x.1 < 16 then codeLengthsWithin code bytes total fuel (x.1 :: done) x.2
          else if x.1 = 16 then done.head?.elim (.error .invalid) fun previous =>
            lengthRun code total fuel done previous 3 2 bytes x.2
          else if x.1 = 17 then lengthRun code total fuel done 0 3 3 bytes x.2
          else lengthRun code total fuel done 0 11 7 bytes x.2 := by
  funext bytes bit
  rw [codeLengthsWithin, symbol]
  cases code.look bytes bit <;> cases done <;> rfl

theorem uses_codeLengthsWithin (code : PrefixCode) (total fuel : Nat) : ∀ done : List Nat,
    Uses 0 fun bytes bit => codeLengthsWithin code bytes total fuel done bit := by
  induction fuel with
  | zero => intro done; exact uses_pure done
  | succ fuel ih =>
      intro done
      have hrun (length base extra : Nat) :
          Uses 0 (lengthRun code total fuel done length base extra) :=
        ((uses_number extra).mono (Nat.zero_le _)).bind fun n =>
          ih (List.replicate (base + n) length ++ done)
      rw [codeLengthsWithin_succ]
      refine Uses.ite (fun _ => uses_pure done) fun _ => ?_
      refine ((uses_symbol code).mono (Nat.zero_le _)).bind fun symbol => ?_
      refine Uses.ite (p := symbol < 16) (fun _ => ih (symbol :: done)) fun _ => ?_
      refine Uses.ite (p := symbol = 16) (fun _ => ?_) fun _ => ?_
      · cases done with
        | nil => exact uses_invalid
        | cons previous done => exact hrun previous 3 2
      · exact Uses.ite (p := symbol = 17) (fun _ => hrun 0 3 3) fun _ => hrun 0 11 7

theorem uses_ownCodes : Uses 0 fun bytes bit => ownCodes bytes bit := by
  unfold ownCodes
  refine ((uses_number 5).mono (Nat.zero_le _)).bind fun literals => ?_
  refine ((uses_number 5).mono (Nat.zero_le _)).bind fun distances => ?_
  refine ((uses_number 4).mono (Nat.zero_le _)).bind fun lengths => ?_
  refine Uses.guard fun _ => (uses_shortNumbers _).bind fun sent => ?_
  refine Uses.guard fun _ => (uses_codeLengthsWithin ..).bind fun done => ?_
  exact Uses.guard fun _ => Uses.guard fun _ => uses_pure _

/-- The length of a stored block and its complement, from the next byte on. -/
def storedLengths : BitReader (Nat × Nat) := fun bytes bit =>
  let start := (bit + 7) / 8
  if bytes.size < start + 4 then .error .starved
  else .ok ((LittleEndian.decodeAt bytes start 2, LittleEndian.decodeAt bytes (start + 2) 2),
    8 * (start + 4))

theorem uses_storedLengths : Uses 0 storedLengths where
  within {bytes bit v stop} hbit hread := by
    simp only [storedLengths] at hread
    split at hread
    · cases hread
    · obtain ⟨-, rfl⟩ := Prod.mk.inj (Except.ok.inj hread)
      omega
  extend {bytes bit} more hread := by
    simp only [storedLengths] at hread ⊢
    split at hread
    · exact absurd rfl hread
    · rw [if_neg (by rw [ByteArray.size_append]; omega), if_neg (by assumption),
        LittleEndian.decodeAt_append_left more (by omega),
        LittleEndian.decodeAt_append_left more (by omega)]
  restrict {bytes more bit v stop} hbit hread hstop := by
    simp only [storedLengths] at hread ⊢
    split at hread
    · cases hread
    · obtain ⟨rfl, rfl⟩ := Prod.mk.inj (Except.ok.inj hread)
      rw [if_neg (by omega), LittleEndian.decodeAt_append_left more (by omega),
        LittleEndian.decodeAt_append_left more (by omega)]
  shift front bytes bit := by
    have hstart : (8 * front.size + bit + 7) / 8 = front.size + (bit + 7) / 8 := by omega
    simp only [storedLengths, hstart, ByteArray.size_append]
    rw [LittleEndian.decodeAt_append_right, Nat.add_assoc front.size _ 2,
      LittleEndian.decodeAt_append_right]
    by_cases hshort : bytes.size < (bit + 7) / 8 + 4
    · rw [if_pos hshort, if_pos (by omega)]
      rfl
    · rw [if_neg hshort, if_neg (by omega)]
      simp only [Except.map, Except.ok.injEq, Prod.mk.injEq, true_and]
      omega

/-- What a header says: how its block goes on, and whether it is the last one. -/
def header : BitReader (Phase × Bool) := fun bytes bit => do
  let (last, bit) ← number bytes bit 1
  let (kind, bit) ← number bytes bit 2
  let last := last == 1
  match kind with
  | 0 =>
    let ((length, complement), bit) ← storedLengths bytes bit
    if length + complement ≠ 65535 then throw .invalid
    return ((if length = 0 then afterBlock last else .stored length, last), bit)
  | 1 => return ((fixedPhase, last), bit)
  | 2 =>
    let (phase, bit) ← ownCodes bytes bit
    return ((phase, last), bit)
  | _ => throw .invalid

theorem blockHeader_eq (s : Inflate) : s.blockHeader =
    (header s.input s.bit).map fun x => { s with phase := x.1.1, last := x.1.2, bit := x.2 } := by
  rw [blockHeader, header]
  cases number s.input s.bit 1 with
  | error e => rfl
  | ok first =>
      obtain ⟨last, bit₁⟩ := first
      simp only [Bind.bind, Except.bind]
      cases number s.input bit₁ 2 with
      | error e => rfl
      | ok second =>
          obtain ⟨kind, bit₂⟩ := second
          simp only
          rcases kind with _ | _ | _ | kind
          · simp only [storedLengths]
            split
            · rfl
            · simp only
              split <;> rfl
          · rfl
          · simp only
            cases ownCodes s.input bit₂ <;> rfl
          · rfl

theorem uses_header : Uses 1 header := by
  unfold header
  refine (uses_number 1).bind fun last => ((uses_number 2).mono (Nat.zero_le _)).bind fun kind => ?_
  dsimp only
  split
  · refine uses_storedLengths.bind fun lengths => ?_
    exact Uses.guard (p := lengths.1 + lengths.2 ≠ 65535) fun _ => uses_pure
      (if lengths.1 = 0 then afterBlock (last == 1) else .stored lengths.1, last == 1)
  · exact uses_pure _
  · exact uses_ownCodes.bind fun phase => uses_pure (phase, last == 1)
  · exact uses_invalid

end Inflate
end Deflate
end TraceStore
