import TraceStore.Proofs.Deflate.Reader

/-!
# Decoding a stream in pieces

A stream holds some bytes if decoding all of it comes to them: `Inflate.Completes`. In whatever
pieces its input comes and wherever the limits of the output lie, a decoder comes to the same bytes,
and stops for want of input only in front of the end: `Inflate.Decodes.run`, `Inflate.Decodes.feed`.
-/
namespace TraceStore

/-! ### Bytes that are added -/

theorem begins_copyBack (distance length : Nat) : ∀ out : ByteArray,
    out.data.toList <+: (copyBack out distance length).data.toList := by
  induction length with
  | zero => intro out; exact List.prefix_rfl
  | succ length ih =>
      intro out
      refine List.IsPrefix.trans ?_ (ih _)
      simp

theorem extract_append_of_le {bytes : ByteArray} {start count : Nat} (h : start + count ≤ bytes.size)
    (more : ByteArray) :
    (bytes ++ more).extract start (start + count) = bytes.extract start (start + count) := by
  apply eq_of_toList_eq
  rw [toList_extract, toList_extract, ByteArray.data_append, Array.toList_append,
    List.drop_append_of_le_length (by rw [length_toList]; omega),
    List.take_append_of_le_length (by rw [List.length_drop, length_toList]; omega)]

namespace Deflate.Inflate

open BitReader

/-! ### Single steps -/

/-- Where decoding stands, apart from its input. -/
structure Spot where
  phase : Phase
  last : Bool
  output : ByteArray

/-- Where a decoder stands. -/
def spot (s : Inflate) : Spot := ⟨s.phase, s.last, s.output⟩

/-- A decoder at another spot, and at another bit of its input. -/
def moveTo (s : Inflate) (spot : Spot) (bit : Nat) : Inflate :=
  { s with phase := spot.phase, last := spot.last, bit, output := spot.output }

/-- The byte at a bit, which is the first one of it. -/
def storedByte : BitReader UInt8 := fun bytes bit =>
  if bit % 8 ≠ 0 then .error .invalid
  else
    match bytes.data[bit / 8]? with
    | none => .error .starved
    | some b => .ok (b, bit + 8)

/-- Decodes a header, a byte of a stored block, or a token. -/
def next (spot : Spot) : BitReader Spot := fun bytes bit =>
  match spot.phase with
  | .finished => throw .invalid
  | .header => do
    let ((phase, last), bit) ← header bytes bit
    return (⟨phase, last, spot.output⟩, bit)
  | .stored 0 => throw .invalid
  | .stored (left + 1) => do
    let (b, bit) ← storedByte bytes bit
    return (⟨if left = 0 then afterBlock spot.last else .stored left, spot.last, spot.output.push b⟩,
      bit)
  | .coded literals distances => do
    let (token, bit) ← token literals distances bytes bit
    match token with
    | .literal b => return ({ spot with output := spot.output.push b }, bit)
    | .endOfBlock => return ({ spot with phase := afterBlock spot.last }, bit)
    | .copy length distance =>
      return ({ spot with output := copyBack spot.output distance length }, bit)

theorem uses_storedByte : Uses 8 storedByte where
  within {bytes bit v stop} hbit hread := by
    simp only [storedByte] at hread
    split at hread
    · cases hread
    · split at hread
      · cases hread
      · rename_i hget
        obtain ⟨hlt, -⟩ := Array.getElem?_eq_some_iff.1 hget
        have hsize : bit / 8 < bytes.size := hlt
        obtain ⟨-, rfl⟩ := Prod.mk.inj (Except.ok.inj hread)
        omega
  extend {bytes bit} more hread := by
    simp only [storedByte] at hread ⊢
    split at hread
    · rw [if_pos (by assumption), if_pos (by assumption)]
    · rw [if_neg (by assumption), if_neg (by assumption)]
      split at hread
      · exact absurd rfl hread
      · rename_i hget
        obtain ⟨hlt, -⟩ := Array.getElem?_eq_some_iff.1 hget
        rw [ByteArray.data_append, Array.getElem?_append_left hlt, hget]
  restrict {bytes more bit v stop} hbit hread hstop := by
    simp only [storedByte] at hread ⊢
    split at hread
    · cases hread
    · rw [if_neg (by assumption)]
      split at hread
      · cases hread
      · rename_i hget
        obtain ⟨rfl, rfl⟩ := Prod.mk.inj (Except.ok.inj hread)
        rw [ByteArray.data_append, Array.getElem?_append_left
          (show bit / 8 < bytes.size by omega)] at hget
        rw [hget]
  shift front bytes bit := by
    have hplace : (8 * front.size + bit) / 8 = front.data.size + bit / 8 := by
      rw [show front.data.size = front.size from rfl]
      omega
    simp only [storedByte, hplace, ByteArray.data_append, Array.getElem?_append_right
      (Nat.le_add_right ..), Nat.add_sub_cancel_left, Nat.mul_add_mod]
    split
    · rfl
    · cases bytes.data[bit / 8]? <;> rfl

theorem uses_next (spot : Spot) : Uses 1 (next spot) := by
  unfold next
  split
  · exact uses_invalid
  · exact uses_header.bind fun x => uses_pure (⟨x.1, x.2, spot.output⟩ : Spot)
  · exact uses_invalid
  · exact (uses_storedByte.mono (by decide)).bind fun b => uses_pure _
  · refine (uses_token _ _).bind fun token => ?_
    cases token with
    | literal b => exact uses_pure _
    | endOfBlock => exact uses_pure _
    | copy length distance => exact uses_pure _

/-- The longest piece that a token stands for. -/
def maxCopyLength : Nat := 258

private theorem tableNumber_le {bytes : ByteArray} {i bit v stop : Nat}
    (h : tableNumber lengthTable i bytes bit = .ok (v, stop)) : v ≤ maxCopyLength := by
  rw [tableNumber] at h
  split at h
  · cases h
  · rename_i base extra hentry
    have htable : ∀ entry ∈ lengthTable, entry.1 + 2 ^ entry.2 ≤ maxCopyLength + 1 := by decide
    have hroom : base + 2 ^ extra ≤ maxCopyLength + 1 := htable _ (Array.mem_of_getElem? hentry)
    cases hnumber : number bytes bit extra with
    | error e => simp [hnumber, Bind.bind, Except.bind] at h
    | ok read =>
        rw [hnumber] at h
        have hv : base + read.1 = v := congrArg Prod.fst (Except.ok.inj h)
        have hlt : read.1 < 2 ^ extra := by
          rw [number] at hnumber
          split at hnumber
          · cases hnumber
          · rw [← Except.ok.inj hnumber]
            exact bitsAt_lt ..
        omega

/-- A copy that a token stands for is not longer than the longest. -/
theorem length_le_of_token {literals distances : PrefixCode} {bytes : ByteArray}
    {bit stop length distance : Nat}
    (h : token literals distances bytes bit = .ok (.copy length distance, stop)) :
    length ≤ maxCopyLength := by
  simp only [token, Bind.bind, Except.bind] at h
  split at h
  · cases h
  split at h
  · cases h
  split at h
  · cases h
  split at h
  · cases h
  rename_i hlength
  split at h
  · cases h
  split at h
  · cases h
  injection h with h
  injection h with htoken
  injection htoken with hvalue
  exact hvalue ▸ tableNumber_le hlength

variable {bytes : ByteArray} {spot spot' : Spot} {bit stop : Nat}

/-- A step adds to the output, and no more than the longest copy. -/
theorem output_of_next (h : next spot bytes bit = .ok (spot', stop)) :
    spot.output.data.toList <+: spot'.output.data.toList ∧
      spot'.output.size ≤ spot.output.size + maxCopyLength := by
  have hpush (b : UInt8) : spot.output.data.toList <+: (spot.output.push b).data.toList ∧
      (spot.output.push b).size ≤ spot.output.size + maxCopyLength := by
    constructor
    · simp
    · rw [ByteArray.size_push]
      exact Nat.add_le_add_left (by decide) _
  have hsame : spot.output.data.toList <+: spot.output.data.toList ∧
      spot.output.size ≤ spot.output.size + maxCopyLength :=
    ⟨List.prefix_rfl, Nat.le_add_right ..⟩
  simp only [next, Bind.bind, Except.bind] at h
  split at h
  · cases h
  · split at h
    · cases h
    · obtain ⟨rfl, -⟩ := Prod.mk.inj (Except.ok.inj h)
      exact hsame
  · cases h
  · split at h
    · cases h
    · obtain ⟨rfl, -⟩ := Prod.mk.inj (Except.ok.inj h)
      exact hpush _
  · split at h
    · cases h
    · rename_i htoken
      split at h
      · obtain ⟨rfl, -⟩ := Prod.mk.inj (Except.ok.inj h)
        exact hpush _
      · obtain ⟨rfl, -⟩ := Prod.mk.inj (Except.ok.inj h)
        exact hsame
      · rename_i length distance hcopy
        obtain ⟨rfl, -⟩ := Prod.mk.inj (Except.ok.inj h)
        refine ⟨begins_copyBack .., ?_⟩
        rw [size_copyBack]
        exact Nat.add_le_add_left (length_le_of_token (htoken.trans (by rw [← hcopy]))) _

/-- From a spot on, at a bit of a stream, decoding comes to an output, and ends at the bit `stop`.
-/
inductive Completes (final : ByteArray) (stop : Nat) (bytes : ByteArray) : Spot → Nat → Prop
  | finished {last} : Completes final stop bytes ⟨.finished, last, final⟩ stop
  | step {spot spot' bit bit'} : next spot bytes bit = .ok (spot', bit') →
      Completes final stop bytes spot' bit' → Completes final stop bytes spot bit

namespace Completes

variable {final : ByteArray}

/-- A step on the way. -/
theorem of_next (h : Completes final stop bytes spot bit) {bit' : Nat}
    (hnext : next spot bytes bit = .ok (spot', bit')) : Completes final stop bytes spot' bit' := by
  cases h with
  | finished => cases hnext
  | step hstep hrest =>
      obtain ⟨rfl, rfl⟩ := Prod.mk.inj (Except.ok.inj (hstep.symm.trans hnext))
      exact hrest

theorem exists_next (h : Completes final stop bytes spot bit) (hphase : spot.phase ≠ .finished) :
    ∃ spot' bit', next spot bytes bit = .ok (spot', bit') ∧
      Completes final stop bytes spot' bit' := by
  cases h with
  | finished => exact absurd rfl hphase
  | step hstep hrest => exact ⟨_, _, hstep, hrest⟩

theorem eq_of_finished (h : Completes final stop bytes spot bit) (hphase : spot.phase = .finished) :
    spot.output = final ∧ bit = stop := by
  cases h with
  | finished => exact ⟨rfl, rfl⟩
  | step hstep _ =>
      rw [next, hphase] at hstep
      cases hstep

/-- What is decoded adds to what was decoded before. -/
theorem begins (h : Completes final stop bytes spot bit) :
    spot.output.data.toList <+: final.data.toList := by
  induction h with
  | finished => exact List.prefix_rfl
  | step hstep _ ih => exact (output_of_next hstep).1.trans ih

theorem bit_le (h : Completes final stop bytes spot bit) (hbit : bit ≤ 8 * bytes.size) :
    bit ≤ stop ∧ stop ≤ 8 * bytes.size := by
  induction h with
  | finished => exact ⟨Nat.le_refl _, hbit⟩
  | step hstep _ ih =>
      have hwithin := (uses_next _).within hbit hstep
      have := ih hwithin.2
      omega

/-- What follows a stream does not count. -/
theorem extend (h : Completes final stop bytes spot bit) (more : ByteArray) :
    Completes final stop (bytes ++ more) spot bit := by
  induction h with
  | finished => exact .finished
  | step hstep _ ih =>
      refine .step ?_ ih
      rw [(uses_next _).extend more (by rw [hstep]; exact nofun), hstep]

/-- Something can lie in front of a stream. -/
theorem shift (h : Completes final stop bytes spot bit) (front : ByteArray) :
    Completes final (8 * front.size + stop) (front ++ bytes) spot (8 * front.size + bit) := by
  induction h with
  | finished => exact .finished
  | step hstep _ ih =>
      refine .step ?_ ih
      rw [(uses_next _).shift, hstep]
      rfl

/-- What lies in front of a stream does not count. -/
theorem of_shift {front : ByteArray} (h : Completes final stop (front ++ bytes) spot bit) :
    ∀ {within : Nat}, bit = 8 * front.size + within →
      ∃ stop', stop = 8 * front.size + stop' ∧ Completes final stop' bytes spot within := by
  induction h with
  | finished =>
      rintro within rfl
      exact ⟨within, rfl, .finished⟩
  | @step spot spot' bit bit' hstep _ ih =>
      rintro within rfl
      rw [(uses_next spot).shift front bytes within] at hstep
      cases hnext : next spot bytes within with
      | error e => simp [hnext, Except.map] at hstep
      | ok read =>
          rw [hnext] at hstep
          obtain ⟨rfl, rfl⟩ := Prod.mk.inj (Except.ok.inj hstep)
          obtain ⟨stop', hstop, hrest⟩ := ih rfl
          exact ⟨stop', hstop, .step hnext hrest⟩

end Completes

/-! ### Stored blocks -/

private theorem push_extract {out : ByteArray} {place : Nat} {b : UInt8}
    (hget : bytes.data[place]? = some b) (count : Nat) :
    out.push b ++ bytes.extract (place + 1) (place + 1 + count) =
      out ++ bytes.extract place (place + (count + 1)) := by
  obtain ⟨hlt, hb⟩ := Array.getElem?_eq_some_iff.1 hget
  apply eq_of_toList_eq
  have hdrop : bytes.data.toList.drop place = b :: bytes.data.toList.drop (place + 1) := by
    rw [List.drop_eq_getElem_cons (by simpa using hlt), ← hb, Array.getElem_toList]
  simp only [ByteArray.data_append, Array.toList_append, toList_extract, hdrop, List.take_succ_cons]
  simp

/-- Within a stored block, a byte of it comes up. -/
theorem Completes.of_stored {final : ByteArray} {left : Nat} {last : Bool} {out : ByteArray}
    (h : Completes final stop bytes ⟨.stored left, last, out⟩ bit) :
    0 < left ∧ bit % 8 = 0 ∧ bit / 8 < bytes.size := by
  obtain ⟨spot', bit', hnext, -⟩ := h.exists_next nofun
  cases left with
  | zero => cases hnext
  | succ left =>
      simp only [next, storedByte, Bind.bind, Except.bind] at hnext
      split at hnext
      · cases hnext
      · rename_i hread
        split at hread
        · cases hread
        · split at hread
          · cases hread
          · rename_i haligned _ _ hget
            obtain ⟨hlt, -⟩ := Array.getElem?_eq_some_iff.1 hget
            exact ⟨Nat.succ_pos _, by omega, hlt⟩

/-- Bytes of a stored block can be taken over at once. -/
theorem completes_stored_iff {final : ByteArray} (count : Nat) : ∀ {left bit : Nat} {last : Bool}
    {out : ByteArray}, 0 < count → count ≤ left → bit % 8 = 0 → bit / 8 + count ≤ bytes.size →
    (Completes final stop bytes ⟨.stored left, last, out⟩ bit ↔
      Completes final stop bytes ⟨if count = left then afterBlock last else .stored (left - count),
        last, out ++ bytes.extract (bit / 8) (bit / 8 + count)⟩ (bit + 8 * count)) := by
  induction count with
  | zero => intro left bit last out hcount; omega
  | succ count ih =>
      intro left bit last out _ hle haligned hfits
      obtain ⟨left, rfl⟩ : ∃ l, left = l + 1 := ⟨left - 1, by omega⟩
      obtain ⟨b, hget⟩ : ∃ b, bytes.data[bit / 8]? = some b :=
        ⟨_, Array.getElem?_eq_getElem (show bit / 8 < bytes.size by omega)⟩
      have hnext : next ⟨.stored (left + 1), last, out⟩ bytes bit =
          .ok (⟨if left = 0 then afterBlock last else .stored left, last, out.push b⟩, bit + 8) := by
        rw [next, storedByte, if_neg (by omega), hget]
        rfl
      have hfirst : Completes final stop bytes ⟨.stored (left + 1), last, out⟩ bit ↔
          Completes final stop bytes
            ⟨if left = 0 then afterBlock last else .stored left, last, out.push b⟩ (bit + 8) :=
        ⟨fun h => h.of_next hnext, .step hnext⟩
      have hplace : (bit + 8) / 8 = bit / 8 + 1 := by omega
      have hbytes : out.push b ++ _ = _ := push_extract hget count
      rw [hfirst]
      by_cases hnone : count = 0
      · subst hnone
        have hsame : out.push b = out ++ bytes.extract (bit / 8) (bit / 8 + (0 + 1)) := by
          rw [← hbytes]
          apply eq_of_toList_eq
          simp
        by_cases hleft : left = 0
        · rw [if_pos hleft, if_pos (by omega), ← hsame]
        · rw [if_neg hleft, if_neg (by omega), ← hsame]
          rfl
      · rw [if_neg (by omega), ih (by omega) (by omega) (by omega) (by omega), hplace, hbytes,
          show left + 1 - (count + 1) = left - count by omega,
          show bit + 8 + 8 * count = bit + 8 * (count + 1) by omega]
        by_cases hall : count = left
        · rw [if_pos hall, if_pos (by omega)]
        · rw [if_neg hall, if_neg (by omega)]

/-! ### Decoders -/

/-- A decoder whose output comes to `written` and which stops in front of `tail`, when `more`
follows the input. -/
structure Decodes (tail written more : List UInt8) (s : Inflate) : Prop where
  bit_le : s.bit ≤ 8 * s.input.size
  completes : ∃ stop, Completes ⟨written.toArray⟩ stop (s.input ++ ⟨more.toArray⟩) s.spot s.bit ∧
    (s.input.data.toList ++ more).drop ((stop + 7) / 8) = tail

variable {tail written more : List UInt8} {s : Inflate}

namespace Decodes

/-- What is decoded is the beginning of what the output comes to. -/
theorem begins (h : s.Decodes tail written more) : s.output.data.toList <+: written := by
  obtain ⟨stop, hcompletes, -⟩ := h.completes
  exact hcompletes.begins

/-- A step beyond the input takes a part of what follows, in front of the tail. -/
private theorem tail_lt (h : s.Decodes tail written more) (hphase : s.phase ≠ .finished)
    (hbeyond : ∀ spot' bit', Inflate.next s.spot (s.input ++ ⟨more.toArray⟩) s.bit =
      .ok (spot', bit') → 8 * s.input.size < bit') : tail.length < more.length := by
  obtain ⟨stop, hcompletes, rfl⟩ := h.completes
  obtain ⟨spot', bit', hnext, hrest⟩ := hcompletes.exists_next hphase
  have hsize : (s.input ++ ⟨more.toArray⟩).size = s.input.size + more.length := by
    rw [ByteArray.size_append]
    rfl
  have hbit := h.bit_le
  have hwithin := (uses_next s.spot).within (by omega) hnext
  have hstop := hrest.bit_le hwithin.2
  have hlt := hbeyond spot' bit' hnext
  rw [List.length_drop, List.length_append, length_toList]
  omega

/-- A step comes about, unless it takes more input. -/
theorem next (h : s.Decodes tail written more) (hphase : s.phase ≠ .finished) :
    (∃ spot' bit', next s.spot s.input s.bit = .ok (spot', bit') ∧
      (s.moveTo spot' bit').Decodes tail written more) ∨
    (Inflate.next s.spot s.input s.bit = .error .starved ∧ tail.length < more.length) := by
  obtain ⟨stop, hcompletes, htail⟩ := h.completes
  obtain ⟨spot', bit', hnext, hrest⟩ := hcompletes.exists_next hphase
  by_cases hstarved : Inflate.next s.spot s.input s.bit = .error .starved
  · refine .inr ⟨hstarved, h.tail_lt hphase fun spot' bit' hnext => ?_⟩
    refine Nat.lt_of_not_le fun hfits => ?_
    rw [(uses_next s.spot).restrict h.bit_le hnext hfits] at hstarved
    cases hstarved
  · rw [(uses_next s.spot).extend _ hstarved] at hnext
    have hwithin := (uses_next s.spot).within h.bit_le hnext
    exact .inl ⟨spot', bit', hnext, hwithin.2, stop, hrest, htail⟩

/-- Some bytes of a stored block are taken over. -/
theorem stored {left step : Nat} (h : s.Decodes tail written more)
    (hphase : s.phase = .stored left) (hpos : 0 < step)
    (hstep : step ≤ min left (s.input.size - s.bit / 8)) :
    Decodes tail written more { s with
      phase := if step = left then afterBlock s.last else .stored (left - step)
      bit := s.bit + 8 * step
      output := s.output ++ s.input.extract (s.bit / 8) (s.bit / 8 + step) } := by
  obtain ⟨stop, hcompletes, htail⟩ := h.completes
  rw [show s.spot = ⟨.stored left, s.last, s.output⟩ by rw [spot, hphase]] at hcompletes
  obtain ⟨-, haligned, -⟩ := hcompletes.of_stored
  have hbit := h.bit_le
  rw [completes_stored_iff step hpos (by omega) haligned (by rw [ByteArray.size_append]; omega),
    extract_append_of_le (by omega)] at hcompletes
  exact ⟨by simp only; omega, stop, hcompletes, htail⟩

theorem pos_of_stored {left : Nat} (h : s.Decodes tail written more)
    (hphase : s.phase = .stored left) : 0 < left := by
  obtain ⟨stop, hcompletes, -⟩ := h.completes
  rw [show s.spot = ⟨.stored left, s.last, s.output⟩ by rw [spot, hphase]] at hcompletes
  exact hcompletes.of_stored.1

/-- A block of which nothing was fetched goes on in what follows. -/
theorem tail_lt_of_stored {left : Nat} (h : s.Decodes tail written more)
    (hphase : s.phase = .stored left) (hnone : s.input.size ≤ s.bit / 8) :
    tail.length < more.length := by
  refine h.tail_lt (by rw [hphase]; exact nofun) fun spot' bit' hnext => ?_
  have hsize : s.input.size ≤ (s.input ++ ⟨more.toArray⟩).size := by
    rw [ByteArray.size_append]
    exact Nat.le_add_right ..
  have hbit := h.bit_le
  have := (uses_next s.spot).within (by omega) hnext
  omega

end Decodes

/-! ### Runs -/

/-- What ended a run: it had come up to the limit, or used up its input before the end of the
stream, or reached that end. -/
def Halted (tail more : List UInt8) (limit : Nat) (s : Inflate) : Halt → Prop
  | .full => limit ≤ s.output.size
  | .starved => tail.length < more.length
  | .invalid => False
  | .finished => s.phase = .finished

/-- A run that came to an end within or behind a stream. Its output has grown by no more than the
bits that it used up can stand for. -/
structure Ran (tail written more : List UInt8) (limit : Nat) (s : Inflate) (halt : Halt)
    (s' : Inflate) : Prop where
  decodes : s'.Decodes tail written more
  input_eq : s'.input = s.input
  bit_le : s.bit ≤ s'.bit
  grows : s.output.size ≤ s'.output.size
  expands : s'.output.size + maxCopyLength * s.bit ≤ s.output.size + maxCopyLength * s'.bit
  halted : s'.Halted tail more limit halt

private theorem Decodes.stay {limit : Nat} {halt : Halt} (h : s.Decodes tail written more)
    (hhalted : s.Halted tail more limit halt) : Ran tail written more limit s halt s :=
  ⟨h, rfl, Nat.le_refl _, Nat.le_refl _, Nat.le_refl _, hhalted⟩

private theorem Ran.after {limit : Nat} {halt : Halt} {s₁ s' : Inflate}
    (h : Ran tail written more limit s₁ halt s') (hinput : s₁.input = s.input)
    (hbit : s.bit ≤ s₁.bit) (hgrows : s.output.size ≤ s₁.output.size)
    (hexpands : s₁.output.size + maxCopyLength * s.bit ≤ s.output.size + maxCopyLength * s₁.bit) :
    Ran tail written more limit s halt s' where
  decodes := h.decodes
  input_eq := h.input_eq.trans hinput
  bit_le := Nat.le_trans hbit h.bit_le
  grows := Nat.le_trans hgrows h.grows
  expands := by
    have := h.expands
    omega
  halted := h.halted

/-- A round outside of stored blocks is a step. -/
theorem runWithin_next {limit : Nat} (hlimit : ¬limit < s.output.size)
    (hfinished : s.phase ≠ .finished) (hstored : ∀ left, s.phase ≠ .stored left) (fuel : Nat) :
    runWithin limit (fuel + 1) s =
      match next s.spot s.input s.bit with
      | .error stop => (.ofStop stop, s)
      | .ok (spot, bit) => runWithin limit fuel (s.moveTo spot bit) := by
  rw [runWithin, if_neg hlimit]
  split
  · exact absurd (by assumption) hfinished
  · rename_i hphase
    rw [blockHeader_eq, next, show s.spot.phase = .header from hphase]
    simp only [Bind.bind, Except.bind]
    cases header s.input s.bit <;> rfl
  · exact absurd (by assumption) (hstored _)
  · rename_i literals distances hphase
    obtain ⟨phase, last, input, bit, output⟩ := s
    obtain rfl : phase = .coded literals distances := hphase
    simp only [next, spot, Bind.bind, Except.bind]
    cases token literals distances input bit with
    | error e => rfl
    | ok read =>
        obtain ⟨token, bit⟩ := read
        cases token with
        | literal b => rfl
        | endOfBlock => rfl
        | copy length distance => rfl

/-- A round that does not end a run uses up a bit of the input. -/
private theorem runWithin_of_decodes (limit : Nat) (fuel : Nat) : ∀ s : Inflate,
    s.Decodes tail written more → 8 * s.input.size < fuel + s.bit →
    ∃ halt s', runWithin limit fuel s = (halt, s') ∧ Ran tail written more limit s halt s' := by
  induction fuel with
  | zero =>
      intro s hs hfuel
      have := hs.bit_le
      omega
  | succ fuel ih =>
      intro s hs hfuel
      by_cases hfull : limit < s.output.size
      · exact ⟨.full, s, by rw [runWithin, if_pos hfull], hs.stay (Nat.le_of_lt hfull)⟩
      by_cases hfinished : s.phase = .finished
      · refine ⟨.finished, s, ?_, hs.stay hfinished⟩
        rw [runWithin, if_neg hfull, hfinished]
      by_cases hstored : ∀ left, s.phase ≠ .stored left
      · rw [runWithin_next hfull hfinished hstored]
        rcases hs.next hfinished with ⟨spot', bit', hnext, hs'⟩ | ⟨hnext, hmore⟩
        · rw [hnext]
          obtain ⟨hbegins, hsize⟩ := output_of_next hnext
          have hbit := ((uses_next s.spot).within hs.bit_le hnext).1
          obtain ⟨halt, s', hrun, hran⟩ := ih (s.moveTo spot' bit') hs' (by
            show 8 * s.input.size < fuel + bit'
            omega)
          refine ⟨halt, s', hrun, hran.after rfl ?_ ?_ ?_⟩
          · show s.bit ≤ bit'
            omega
          · exact hbegins.length_le
          · show spot'.output.size + maxCopyLength * s.bit ≤ s.output.size + maxCopyLength * bit'
            have hsize' : spot'.output.size ≤ s.output.size + maxCopyLength := hsize
            rw [maxCopyLength] at hsize' ⊢
            omega
        · rw [hnext]
          exact ⟨.starved, s, rfl, hs.stay hmore⟩
      · obtain ⟨left, hphase⟩ := Classical.not_forall.1 hstored
        replace hphase : s.phase = .stored left := Classical.not_not.1 hphase
        rw [runWithin, if_neg hfull, hphase]
        dsimp only
        by_cases hend : limit ≤ s.output.size
        · exact ⟨.full, s, if_pos hend, hs.stay hend⟩
        rw [if_neg hend]
        generalize hstep : min left (min (limit - s.output.size) (s.input.size - s.bit / 8)) = step
        by_cases hnone : step = 0
        · refine ⟨.starved, s, if_pos hnone, hs.stay (hs.tail_lt_of_stored hphase ?_)⟩
          have := hs.pos_of_stored hphase
          omega
        · rw [if_neg hnone]
          obtain ⟨halt, s', hrun, hran⟩ :=
            ih _ (hs.stored hphase (Nat.pos_of_ne_zero hnone)
              (Nat.le_trans (Nat.le_of_eq hstep.symm) (by omega))) (by simp only; omega)
          refine ⟨halt, s', hrun, hran.after rfl ?_ ?_ ?_⟩
          · exact Nat.le_add_right ..
          · simp only [ByteArray.size_append]
            omega
          · simp only [ByteArray.size_append, ByteArray.size_extract, maxCopyLength]
            omega

/-- A run comes to a part of what the stream holds, and uses up none of what is behind it. -/
theorem Decodes.run (h : s.Decodes tail written more) (limit : Nat) :
    ∃ halt s', s.run limit = (halt, s') ∧ Ran tail written more limit s halt s' :=
  runWithin_of_decodes limit _ s h (by omega)

/-! ### Input in pieces -/

/-- Only input in front of what is used up is given up when more is taken in. -/
theorem decodes_feed_iff {bytes : ByteArray} (hbit : s.bit ≤ 8 * s.input.size) :
    (s.feed bytes).Decodes tail written more ↔
      s.Decodes tail written (bytes.data.toList ++ more) := by
  generalize hgiven : s.input.extract 0 (s.bit / 8) = front
  have hfront : front.size = s.bit / 8 := by
    rw [← hgiven, ByteArray.size_extract]
    omega
  have hplace : s.bit = 8 * front.size + s.bit % 8 := by omega
  -- The input is that in front of the byte at hand, and the rest.
  have hinput : (s.feed bytes).input.data.toList =
      s.input.data.toList.drop (s.bit / 8) ++ bytes.data.toList := by
    have hrest : (s.input.extract (s.bit / 8) s.input.size).data.toList =
        s.input.data.toList.drop (s.bit / 8) := by
      simp [List.take_of_length_le]
    rw [Inflate.feed, ByteArray.data_append, Array.toList_append, hrest]
  have hlist : s.input.data.toList ++ (bytes.data.toList ++ more) =
      front.data.toList ++ ((s.feed bytes).input.data.toList ++ more) := by
    have htake := toList_extract s.input 0 (s.bit / 8)
    rw [Nat.zero_add, List.drop_zero, hgiven] at htake
    rw [hinput, htake, List.append_assoc, ← List.append_assoc (List.take _ _),
      List.take_append_drop]
  have hsplit : s.input ++ ⟨(bytes.data.toList ++ more).toArray⟩ =
      front ++ ((s.feed bytes).input ++ ⟨more.toArray⟩) :=
    eq_of_toList_eq (by simpa using hlist)
  have hdrop : ∀ stop, (s.input.data.toList ++ (bytes.data.toList ++ more)).drop
      ((8 * front.size + stop + 7) / 8) =
        ((s.feed bytes).input.data.toList ++ more).drop ((stop + 7) / 8) := by
    intro stop
    rw [hlist, show (8 * front.size + stop + 7) / 8 = front.size + (stop + 7) / 8 by omega,
      ← List.drop_drop, List.drop_left' (length_toList front)]
  constructor
  · rintro ⟨-, stop, hcompletes, rfl⟩
    have hshifted := hcompletes.shift front
    rw [← hsplit, show (s.feed bytes).bit = s.bit % 8 from rfl, ← hplace] at hshifted
    exact ⟨hbit, _, hshifted, hdrop stop⟩
  · rintro ⟨-, stop, hcompletes, rfl⟩
    rw [hsplit] at hcompletes
    obtain ⟨stop', rfl, hcompletes'⟩ := hcompletes.of_shift hplace
    refine ⟨?_, stop', hcompletes', (hdrop stop').symm⟩
    show s.bit % 8 ≤ 8 * (s.feed bytes).input.size
    rw [← length_toList, hinput, List.length_append, List.length_drop, length_toList]
    omega

/-- More input is taken in. -/
theorem Decodes.feed {bytes : ByteArray}
    (h : s.Decodes tail written (bytes.data.toList ++ more)) :
    (s.feed bytes).Decodes tail written more :=
  (decodes_feed_iff h.bit_le).2 h

/-- The input with what was given back behind it is that before. -/
theorem append_giveBack (s : Inflate) (more : List UInt8) :
    s.giveBack.2.input.data.toList ++ (s.giveBack.1.data.toList ++ more) =
      s.input.data.toList ++ more := by
  have hfront := toList_extract s.input 0 ((s.bit + 7) / 8)
  have hbehind : (s.input.extract ((s.bit + 7) / 8) s.input.size).data.toList =
      s.input.data.toList.drop ((s.bit + 7) / 8) := by
    simp [List.take_of_length_le]
  rw [Nat.zero_add, List.drop_zero] at hfront
  simp only [Inflate.giveBack, hfront, hbehind]
  rw [← List.append_assoc, List.take_append_drop]

/-- Giving input back makes no difference to the stream. -/
theorem decodes_giveBack_iff (hbit : s.bit ≤ 8 * s.input.size) :
    s.giveBack.2.Decodes tail written (s.giveBack.1.data.toList ++ more) ↔
      s.Decodes tail written more := by
  have hlist := append_giveBack s more
  have hwhole : s.giveBack.2.input ++ ⟨(s.giveBack.1.data.toList ++ more).toArray⟩ =
      s.input ++ ⟨more.toArray⟩ := eq_of_toList_eq (by simpa using hlist)
  have hbit' : s.bit ≤ 8 * s.giveBack.2.input.size := by
    simp only [Inflate.giveBack, ByteArray.size_extract]
    omega
  constructor
  · rintro ⟨-, stop, hcompletes, rfl⟩
    rw [hwhole] at hcompletes
    exact ⟨hbit, stop, hcompletes, by rw [hlist]⟩
  · rintro ⟨-, stop, hcompletes, rfl⟩
    rw [← hwhole] at hcompletes
    exact ⟨hbit', stop, hcompletes, by rw [hlist]⟩

/-- What is given back is all that the stream needs for going on. -/
theorem Decodes.giveBack (h : s.Decodes tail written more) :
    ∃ bytes s', s.giveBack = (bytes, s') ∧ s'.output = s.output ∧ s'.bit = s.bit ∧
      s.input.size = s'.input.size + bytes.size ∧
      s'.Decodes tail written (bytes.data.toList ++ more) ∧
      tail.length ≤ (bytes.data.toList ++ more).length ∧
      (s.phase = .finished →
        bytes.data.toList ++ more = tail ∧ written = s.output.data.toList) := by
  obtain ⟨stop, hcompletes, htail⟩ := h.completes
  have hbit := h.bit_le
  have hstop := hcompletes.bit_le (by rw [ByteArray.size_append]; omega)
  have hlist := append_giveBack s more
  have hfront : s.giveBack.2.input.size = (s.bit + 7) / 8 := by
    simp only [Inflate.giveBack, ByteArray.size_extract]
    omega
  refine ⟨s.giveBack.1, s.giveBack.2, rfl, rfl, rfl, ?_, (decodes_giveBack_iff hbit).2 h, ?_,
    fun hphase => ?_⟩
  · simp only [Inflate.giveBack, ByteArray.size_extract]
    omega
  · rw [← htail, ← hlist, List.length_drop, List.length_append, length_toList, hfront]
    omega
  · obtain ⟨houtput, rfl⟩ := hcompletes.eq_of_finished hphase
    constructor
    · rw [← htail, ← hlist, List.drop_left' (by rw [length_toList, hfront])]
    · exact (congrArg (fun b : ByteArray => b.data.toList) houtput).symm

/-! ### Whole streams -/

/-- A deflate stream that holds some bytes and ends in its last byte. -/
def Holds (data stream : List UInt8) : Prop :=
  ∃ stop, Completes ⟨data.toArray⟩ stop ⟨stream.toArray⟩ ⟨.header, false, .empty⟩ 0 ∧
    (stop + 7) / 8 = stream.length

/-- Decoding a stream can be started, whatever follows. -/
theorem Holds.decodes_start {data stream : List UInt8} (h : Holds data stream)
    (tail : List UInt8) : start.Decodes tail data (stream ++ tail) := by
  obtain ⟨stop, hcompletes, hstop⟩ := h
  refine ⟨Nat.le_refl _, stop, ?_, ?_⟩
  · have hextended := hcompletes.extend ⟨tail.toArray⟩
    rwa [show (⟨stream.toArray⟩ ++ ⟨tail.toArray⟩ : ByteArray) =
      start.input ++ ⟨(stream ++ tail).toArray⟩ from eq_of_toList_eq (by simp [start])] at hextended
  · rw [hstop]
    exact List.drop_left ..

end Deflate.Inflate
end TraceStore
