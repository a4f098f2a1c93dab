import TraceStore.Proofs.Compression

/-!
# Blocks decoded without a limit

`Snappy.Decodes` and `Zstd.Decodes` say what a whole block decodes to, however long that is: one by
the elements of the block, the other by what a reader hands out up to the end. The codecs deliver
that if it is within the limit: `Format.decompress_of_decodes`.
-/
namespace TraceStore

namespace Snappy

variable {block out out' : ByteArray} {length i next : Nat}

/-- The elements of a block from byte `i` on, added to what there is, however much that becomes. -/
inductive Elements (block : ByteArray) : Nat → ByteArray → ByteArray → Prop
  | done {i : Nat} {out : ByteArray} (stop : block.size ≤ i) : Elements block i out out
  | literal {i start count next : Nat} {out out' : ByteArray}
      (found : element block i = some (.literal start count, next))
      (inside : start + count ≤ block.size)
      (rest : Elements block next (out ++ block.extract start (start + count)) out') :
      Elements block i out out'
  | copy {i count distance next : Nat} {out out' : ByteArray}
      (found : element block i = some (.copy count distance, next))
      (pos : 0 < distance) (inside : distance ≤ out.size)
      (rest : Elements block next (copyBack out distance count) out') : Elements block i out out'

/-- What a block decodes to. Its elements come to as many bytes as its header declares. -/
structure Decodes (block out : ByteArray) : Prop where
  pos : 0 < block.size
  elements : ∃ start, declaredLength block = some (out.size, start) ∧
    Elements block start .empty out

/-- An element starts in the block and takes bytes of it. -/
private theorem lt_of_element {e : Element} (h : element block i = some (e, next)) :
    i < block.size ∧ i < next := by
  simp only [element, Option.bind_eq_bind, Option.bind_eq_some_iff] at h
  obtain ⟨tag, htag, h⟩ := h
  refine ⟨(Array.getElem?_eq_some_iff.1 htag).1, ?_⟩
  split at h
  · split at h
    · obtain ⟨-, rfl⟩ := Prod.mk.inj (Option.some.inj h)
      omega
    · obtain ⟨word, -, h⟩ := Option.bind_eq_some_iff.1 h
      obtain ⟨-, rfl⟩ := Prod.mk.inj (Option.some.inj h)
      omega
  all_goals
    obtain ⟨distance, -, h⟩ := Option.bind_eq_some_iff.1 h
    obtain ⟨-, rfl⟩ := Prod.mk.inj (Option.some.inj h)
    omega

theorem Elements.size_le (h : Elements block i out out') : out.size ≤ out'.size := by
  induction h with
  | done => exact Nat.le_refl _
  | literal _ _ _ ih =>
      rw [ByteArray.size_append] at ih
      omega
  | copy _ _ _ _ ih =>
      rw [size_copyBack] at ih
      omega

/-- What the decoder delivers are the elements. Each takes a byte at least, so the fuel lasts up to
the end of the block. -/
private theorem elements_of_decodeElements (fuel : Nat) : ∀ {i : Nat} {out : ByteArray},
    block.size < i + fuel → decodeElements block length fuel i out = some out' →
      Elements block i out out' := by
  induction fuel with
  | zero =>
      intro i out hfuel h
      exact Option.some.inj h ▸ .done (by omega)
  | succ fuel ih =>
      intro i out hfuel h
      rw [decodeElements] at h
      split at h
      case isTrue hstop => exact Option.some.inj h ▸ .done hstop
      case isFalse =>
        split at h
        case h_1 => cases h
        case h_2 start count next hfound =>
          have hnext := (lt_of_element hfound).2
          split at h
          case isTrue => cases h
          case isFalse hfits => exact .literal hfound (by omega) (ih (by omega) h)
        case h_3 count distance next hfound =>
          have hnext := (lt_of_element hfound).2
          split at h
          case isTrue => cases h
          case isFalse hfits => exact .copy hfound (by omega) (by omega) (ih (by omega) h)

/-- The decoder follows the elements. Its check of the length after every element refuses nothing
that is as long in the end as it should be. -/
private theorem Elements.decode (h : Elements block i out out') (hlength : out'.size = length) :
    ∀ fuel, block.size < i + fuel → decodeElements block length fuel i out = some out' := by
  induction h with
  | done stop =>
      intro fuel _
      cases fuel with
      | zero => rfl
      | succ fuel => rw [decodeElements, if_pos stop]
  | literal found inside rest ih =>
      intro fuel hfuel
      obtain ⟨hi, hnext⟩ := lt_of_element found
      obtain ⟨fuel, rfl⟩ := Nat.exists_eq_succ_of_ne_zero (by omega : fuel ≠ 0)
      have hsize := rest.size_le
      rw [ByteArray.size_append, ByteArray.size_extract] at hsize
      rw [decodeElements, if_neg (Nat.not_le.2 hi)]
      simp only [found]
      rw [if_neg (by omega)]
      exact ih hlength fuel (by omega)
  | copy found pos inside rest ih =>
      intro fuel hfuel
      obtain ⟨hi, hnext⟩ := lt_of_element found
      obtain ⟨fuel, rfl⟩ := Nat.exists_eq_succ_of_ne_zero (by omega : fuel ≠ 0)
      have hsize := rest.size_le
      rw [size_copyBack] at hsize
      rw [decodeElements, if_neg (Nat.not_le.2 hi)]
      simp only [found]
      rw [if_neg (by omega)]
      exact ih hlength fuel (by omega)

private theorem decodeBody_iff {start : Nat} : decodeBody block length start = some out ↔
    out.size = length ∧ Elements block start .empty out := by
  rw [decodeBody]
  constructor
  · intro h
    split at h
    case h_2 => cases h
    case h_1 made hmade =>
      split at h
      case isFalse => cases h
      case isTrue hlength =>
        obtain rfl := Option.some.inj h
        exact ⟨hlength, elements_of_decodeElements _ (by omega) hmade⟩
  · rintro ⟨hlength, helements⟩
    rw [helements.decode hlength _ (by omega)]
    exact if_pos hlength

/-- The decoder takes what its elements make of a block. -/
theorem contents?_iff : contents? block = some out ↔ Decodes block out := by
  rw [contents?]
  constructor
  · intro h
    split at h
    case isTrue => cases h
    case isFalse hnonempty =>
      split at h
      case h_2 => cases h
      case h_1 length start hdeclared =>
        obtain ⟨rfl, helements⟩ := decodeBody_iff.1 h
        rw [isEmpty_iff] at hnonempty
        exact ⟨by omega, start, hdeclared, helements⟩
  · rintro ⟨hpos, start, hdeclared, helements⟩
    rw [if_neg (mt isEmpty_iff.1 (by omega)), hdeclared]
    exact decodeBody_iff.2 ⟨rfl, helements⟩

theorem decompress_of_decodes (h : Decodes block out) (hsize : out.size ≤ maxChunkSize) :
    decompress block = .ok out :=
  (decompressWith_eq_ok_iff (decoder_declares block)).2 ⟨contents?_iff.2 h, hsize⟩

end Snappy

namespace Zstd

variable {block out out' : ByteArray} {limit frameStart longest : Nat}

/-- What a block decodes to: what a reader hands out of it, up to the end, to requests with the room
of a buffer that doubles. -/
def Decodes (block out : ByteArray) : Prop :=
  ReadsToEnd Reader.read .doubling [] (.start block) out.data.toList

/-! ### Growing output -/

/-- A sequence adds to the output. -/
private theorem size_le_of_runSequence {codes : SequenceCodes} {literals : ByteArray} {last : Bool}
    {s s' : SequenceState} (h : runSequence codes literals frameStart limit last s = some s') :
    s.out.size ≤ s'.out.size := by
  simp only [runSequence, Option.bind_eq_bind, Option.bind_eq_some_iff] at h
  obtain ⟨_, -, _, -, _, -, ⟨distance, recent⟩, -, h⟩ := h
  split at h
  · cases h
  split at h
  · cases h
  split at h
  · obtain rfl := Option.some.inj h
    simp only [size_copyBack, ByteArray.size_append]
    omega
  · simp only [Option.bind_eq_some_iff] at h
    obtain ⟨_, -, _, -, _, -, h⟩ := h
    obtain rfl := Option.some.inj h
    simp only [size_copyBack, ByteArray.size_append]
    omega

private theorem size_le_of_runSequences {codes : SequenceCodes} {literals : ByteArray}
    (count : Nat) : ∀ {s s' : SequenceState},
    runSequences codes literals frameStart limit count s = some s' → s.out.size ≤ s'.out.size := by
  induction count with
  | zero =>
      intro s s' h
      exact Option.some.inj h ▸ Nat.le_refl _
  | succ count ih =>
      intro s s' h
      simp only [runSequences, Option.bind_eq_bind, Option.bind_eq_some_iff] at h
      obtain ⟨_, hfirst, hrest⟩ := h
      exact Nat.le_trans (size_le_of_runSequence hfirst) (ih hrest)

/-- A compressed block adds to the output. -/
private theorem size_le_of_decodeBlock {block : ByteArray} {memory memory' : BlockMemory}
    (h : decodeBlock block frameStart limit longest memory out = some (memory', out')) :
    out.size ≤ out'.size := by
  simp only [decodeBlock, runSection, Option.bind_eq_bind, Option.bind_eq_some_iff] at h
  obtain ⟨literals, -, ⟨sequences, made⟩, ⟨⟨count, start⟩, -, hsection⟩, h⟩ := h
  obtain ⟨-, rfl⟩ := Prod.mk.inj (Option.some.inj h)
  split at hsection
  · split at hsection
    · cases hsection
    · obtain ⟨-, rfl⟩ := Prod.mk.inj (Option.some.inj hsection)
      simp only [ByteArray.size_append]
      omega
  · simp only [Option.bind_eq_some_iff] at hsection
    obtain ⟨_, -, _, -, _, -, _, -, _, -, s, hrun, hsection⟩ := hsection
    have hsize := size_le_of_runSequences _ hrun
    split at hsection
    · cases hsection
    · obtain ⟨-, rfl⟩ := Prod.mk.inj (Option.some.inj hsection)
      simp only [ByteArray.size_append] at hsize ⊢
      omega

/-- A block adds to the output. -/
private theorem size_le_of_nextBlock {bytes : ByteArray} {s s' : FrameState} {last empty : Bool}
    (h : nextBlock bytes frameStart limit longest s = some (last, empty, s')) :
    s.out.size ≤ s'.out.size := by
  simp only [nextBlock, Option.bind_eq_bind] at h
  split at h
  · cases h
  split at h
  · split at h
    · cases h
    · obtain ⟨-, -, rfl⟩ := Option.some.inj h
      simp only [ByteArray.size_append]
      omega
  · split at h
    · cases h
    · obtain ⟨-, -, rfl⟩ := Option.some.inj h
      simp only [size_pushTimes]
      omega
  · split at h
    · cases h
    · obtain ⟨⟨memory, made⟩, hblock, h⟩ := Option.bind_eq_some_iff.1 h
      have hsize := size_le_of_decodeBlock hblock
      obtain ⟨-, -, rfl⟩ := Option.some.inj h
      exact hsize
  · cases h

/-! ### Smaller requests -/

namespace Reader

/-- A reader has not handed out more than it has decoded, and nothing yet of a frame that it decodes
in one go. -/
private structure Sound (r : Reader) : Prop where
  delivered_le : r.delivered ≤ r.out.size
  whole : ∀ frame, r.stage = .within frame ∨ r.stage = .behind frame → frame.whole = true →
    r.delivered = frame.start

variable {r r' : Reader} {count count' : Nat} {piece : ByteArray}

private theorem size_handOut (h : r.delivered ≤ r.out.size) :
    (r.handOut count).1.size = min count (r.out.size - r.delivered) := by
  rw [handOut, ByteArray.size_extract]
  omega

/-- Nothing is handed out of a frame that is decoded in one go. -/
private theorem ready_of_whole {frame : OpenFrame}
    (hstage : r.stage = .within frame ∨ r.stage = .behind frame) (hwhole : frame.whole = true) :
    r.ready count = false := by
  rcases hstage with hstage | hstage <;> simp [ready, hstage, hwhole]

private theorem Sound.handOut (h : r.Sound) (hready : r.ready count = true) :
    (r.handOut count).2.Sound where
  delivered_le := by
    show r.delivered + (r.handOut count).1.size ≤ r.out.size
    have hle := h.delivered_le
    rw [size_handOut hle]
    omega
  whole frame hstage hwhole := by
    have hnot : r.ready count = false := ready_of_whole hstage hwhole
    rw [hnot] at hready
    cases hready

/-- What a reader does when it begins a frame or passes a skippable one. -/
private theorem beginFrame_cases (h : beginFrame count r = some r') :
    (wordAt r.data r.i 4 = frameMagic ∧ ∃ header, FrameHeader.read? r.data (r.i + 4) = some header ∧
      r' = { r with
        i := r.i + 4 + header.size
        stage := .within ⟨header, header.contentSize.any (· ≤ count), r.out.size, .initial⟩ }) ∨
    (wordAt r.data r.i 4 ≠ frameMagic ∧ ∃ stop, r' = { r with i := stop }) := by
  rw [beginFrame] at h
  split at h
  · cases h
  dsimp only at h
  split at h
  case isTrue hmagic =>
    split at h
    · cases h
    case h_2 header hread =>
      split at h
      · cases h
      · exact .inl ⟨hmagic, header, hread, (Option.some.inj h).symm⟩
  case isFalse hmagic =>
    split at h
    · split at h
      · cases h
      · exact .inr ⟨hmagic, _, (Option.some.inj h).symm⟩
    · cases h

/-- What a reader does with a block of a frame. If that is decoded in one go, it is as long in the end
as its header tells. -/
private theorem decodeBlock_cases {data : ByteArray} {frame : OpenFrame} {delivered : Nat}
    {s : FrameState} (h : decodeBlock data frame delivered s = some r') :
    r'.delivered = delivered ∧ s.out.size ≤ r'.out.size ∧
      ((∃ memory, r'.stage = .within { frame with memory }) ∨
        (r'.stage = .behind frame ∨ r'.stage = .between) ∧
          (frame.whole = true → ∀ told, frame.header.contentSize = some told →
            r'.out.size - frame.start = told)) := by
  rw [decodeBlock] at h
  split at h
  · cases h
  case h_2 last empty s' hnext =>
    have hsize := size_le_of_nextBlock hnext
    dsimp only at h
    split at h
    · cases h
    split at h
    · obtain rfl := Option.some.inj h
      exact ⟨rfl, hsize, .inl ⟨_, rfl⟩⟩
    split at h
    · cases h
    case isFalse hlength =>
      obtain rfl := Option.some.inj h
      refine ⟨rfl, hsize, .inr ⟨?_, fun hwhole told htold => ?_⟩⟩
      · show (if frame.header.checked = true then Stage.behind frame else Stage.between) = _ ∨ _
        cases frame.header.checked with
        | true => exact .inl rfl
        | false => exact .inr rfl
      · rw [htold, Option.getD_some] at hlength
        exact Decidable.byContradiction fun hne => hlength ⟨.inl hwhole, fun h => hne h.symm⟩

/-- A step keeps what was handed out, and adds to the output. -/
private theorem Sound.advance (h : r.Sound) (hready : r.ready count = false)
    (hadvance : r.advance count = some r') :
    r'.Sound ∧ r'.delivered = r.delivered ∧ r.out.size ≤ r'.out.size := by
  have hle := h.delivered_le
  rw [Reader.advance] at hadvance
  split at hadvance
  case h_1 hstage =>
    have hall : r.delivered = r.out.size := by
      simp [ready, hstage] at hready
      omega
    rcases beginFrame_cases hadvance with ⟨-, header, -, rfl⟩ | ⟨-, stop, rfl⟩
    · refine ⟨⟨hle, fun frame hframe _ => ?_⟩, rfl, Nat.le_refl _⟩
      rcases hframe with hframe | hframe
      · cases hframe
        exact hall
      · cases hframe
    · exact ⟨⟨hle, fun frame hframe => h.whole frame hframe⟩, rfl, Nat.le_refl _⟩
  case h_2 frame hstage =>
    obtain ⟨hdelivered, hsize, hstage'⟩ := decodeBlock_cases hadvance
    refine ⟨⟨by rw [hdelivered]; exact Nat.le_trans hle hsize, fun frame' hframe hwhole => ?_⟩,
      hdelivered, hsize⟩
    rw [hdelivered]
    rcases hstage' with ⟨memory, hwithin⟩ | ⟨hbehind | hbetween, -⟩
    · rcases hframe with hframe | hframe
      · obtain rfl := Stage.within.inj (hframe.symm.trans hwithin)
        exact h.whole frame (.inl hstage) hwhole
      · cases hframe.symm.trans hwithin
    · rcases hframe with hframe | hframe
      · cases hframe.symm.trans hbehind
      · obtain rfl := Stage.behind.inj (hframe.symm.trans hbehind)
        exact h.whole frame' (.inl hstage) hwhole
    · rcases hframe with hframe | hframe <;> cases hframe.symm.trans hbetween
  case h_3 frame hstage =>
    rw [check] at hadvance
    split at hadvance
    · cases hadvance
    split at hadvance
    · cases hadvance
    obtain rfl := Option.some.inj hadvance
    refine ⟨⟨hle, fun frame hframe => ?_⟩, rfl, Nat.le_refl _⟩
    rcases hframe with hframe | hframe <;> cases hframe
  case h_4 => cases hadvance

/-- A request gets all that was decoded before, if it asks for that. -/
private theorem Sound.le_size (fuel : Nat) : ∀ {r : Reader}, r.Sound →
    readWithin count fuel r = (.ok piece, r') →
      min count (r.out.size - r.delivered) ≤ piece.size := by
  induction fuel with
  | zero =>
      intro r _ h
      cases h
  | succ fuel ih =>
      intro r hsound h
      rw [readWithin] at h
      split at h
      case isTrue hready =>
        obtain rfl := Except.ok.inj (Prod.mk.inj h).1
        exact Nat.le_of_eq (size_handOut hsound.delivered_le).symm
      case isFalse hready =>
        have hready := eq_false_of_ne_true hready
        split at h
        case isTrue hended =>
          have hall := le_of_ended hended hready
          omega
        case isFalse =>
          split at h
          · cases h
          case h_2 r₁ hadvance =>
            obtain ⟨hsound₁, hdelivered, hsize⟩ := hsound.advance hready hadvance
            have hle := ih hsound₁ h
            omega

/-- A request gets all of a frame that it came to the beginning of, if it asks for that much. -/
private theorem Sound.told_le {told : Nat} (fuel : Nat) : ∀ {r : Reader} {frame : OpenFrame},
    r.Sound → r.stage = .within frame → frame.whole = true →
    frame.header.contentSize = some told → readWithin count fuel r = (.ok piece, r') →
      min count told ≤ piece.size := by
  induction fuel with
  | zero =>
      intro r frame _ _ _ _ h
      cases h
  | succ fuel ih =>
      intro r frame hsound hstage hwhole htold h
      have hready : r.ready count = false := ready_of_whole (.inl hstage) hwhole
      have hended : ¬ r.ended = true := by simp [ended, hstage]
      rw [readWithin, hready, if_neg Bool.false_ne_true, if_neg hended] at h
      split at h
      · cases h
      case h_2 r₁ hadvance =>
        obtain ⟨hsound₁, hdelivered, -⟩ := hsound.advance hready hadvance
        rw [Reader.advance, hstage] at hadvance
        obtain ⟨-, -, ⟨memory, hwithin⟩ | ⟨-, hlength⟩⟩ := decodeBlock_cases hadvance
        · exact ih hsound₁ hwithin hwhole htold h
        · have hle := hsound₁.le_size fuel h
          rwa [hdelivered, hsound.whole frame (.inl hstage) hwhole, hlength hwhole told htold] at hle

/-- With room for fewer bytes a reader goes on as it does with room for more, if no frame fits only
the latter. -/
private theorem beginFrame_eq (h : wordAt r.data r.i 4 = frameMagic → ∀ header,
    FrameHeader.read? r.data (r.i + 4) = some header →
      header.contentSize.any (· ≤ count') = header.contentSize.any (· ≤ count)) :
    beginFrame count' r = beginFrame count r := by
  simp only [beginFrame]
  split
  · rfl
  split
  case isTrue hmagic =>
    cases hread : FrameHeader.read? r.data (r.i + 4) with
    | none => rfl
    | some header =>
        dsimp only
        rw [h hmagic header hread]
  case isFalse => rfl

/-- A step that leads to a piece with room behind it, also in a smaller request, is the same step
there: a frame that did not fit the smaller request would be handed out whole to the larger one. -/
private theorem Sound.advance_eq {fuel : Nat} {r₁ : Reader} (h : r.Sound)
    (hready : r.ready count = false) (hadvance : r.advance count = some r₁)
    (hread : readWithin count fuel r₁ = (.ok piece, r')) (hsize : piece.size < count')
    (hle : count' ≤ count) : r.advance count' = some r₁ := by
  cases hstage : r.stage with
  | between =>
      obtain ⟨hsound₁, -⟩ := h.advance hready hadvance
      rw [Reader.advance, hstage] at hadvance ⊢
      rw [← hadvance]
      refine beginFrame_eq fun hmagic header hheader => ?_
      rcases beginFrame_cases hadvance with ⟨-, header', hheader', rfl⟩ | ⟨hother, -⟩
      · obtain rfl := Option.some.inj (hheader.symm.trans hheader')
        cases htold : header.contentSize with
        | none => rfl
        | some told =>
            by_cases hfits : told ≤ count
            · have hwhole : header.contentSize.any (· ≤ count) = true := by simp [htold, hfits]
              have hlong := hsound₁.told_le fuel rfl hwhole htold hread
              have hsmall : told ≤ count' := by omega
              simp [hfits, hsmall]
            · have hlarge : ¬ told ≤ count' := by omega
              simp [hfits, hlarge]
      · exact absurd hmagic hother
  | within frame => rwa [Reader.advance, hstage] at hadvance ⊢
  | behind frame => rwa [Reader.advance, hstage] at hadvance ⊢
  | failed => rwa [Reader.advance, hstage] at hadvance ⊢

/-- What is handed out is all that is left of a frame, or all of the request. -/
private theorem ready_cases (h : r.ready count = true) :
    (∀ count', r.ready count' = true) ∨ r.delivered + count ≤ r.out.size := by
  cases hstage : r.stage with
  | between => exact .inl fun count' => by simpa [ready, hstage] using h
  | within frame => exact .inr (by simp [ready, hstage] at h; exact h.2)
  | behind frame => exact .inr (by simp [ready, hstage] at h; exact h.2)
  | failed => simp [ready, hstage] at h

/-- Requests for all there is get the same. -/
private theorem handOut_eq (h : r.out.size ≤ r.delivered + count)
    (h' : r.out.size ≤ r.delivered + count') : r.handOut count' = r.handOut count := by
  have hrest {n : Nat} (hn : r.out.size ≤ r.delivered + n) :
      (r.out.extract r.delivered (r.delivered + n)).data.toList =
        r.out.data.toList.drop r.delivered := by
    rw [toList_extract, List.take_of_length_le]
    rw [List.length_drop, length_toList]
    omega
  simp only [handOut, eq_of_toList_eq ((hrest h').trans (hrest h).symm)]

private theorem readWithin_smaller (fuel : Nat) : ∀ {r : Reader}, r.Sound →
    readWithin count fuel r = (.ok piece, r') → piece.size < count' → count' ≤ count →
      readWithin count' fuel r = (.ok piece, r') := by
  induction fuel with
  | zero =>
      intro r _ h
      cases h
  | succ fuel ih =>
      intro r hsound h hsize hle
      have hpending := hsound.le_size (fuel + 1) h
      have hdelivered := hsound.delivered_le
      rw [readWithin] at h ⊢
      cases hready : r.ready count with
      | true =>
          rw [hready, if_pos rfl] at h
          have hpiece : (r.handOut count).1 = piece := Except.ok.inj (Prod.mk.inj h).1
          have hrest : r.out.size ≤ r.delivered + count := by omega
          have hrest' : r.out.size ≤ r.delivered + count' := by omega
          rcases ready_cases hready with hall | hfull
          · rw [hall count', if_pos rfl, ← h, handOut_eq hrest hrest']
          · have hsize' : piece.size = min count (r.out.size - r.delivered) :=
              hpiece ▸ size_handOut hdelivered
            omega
      | false =>
          have hready' : r.ready count' = false := by
            refine eq_false_of_ne_true fun hready' => ?_
            rcases ready_cases hready' with hall | hfull
            · rw [hall count] at hready
              cases hready
            · omega
          rw [hready, if_neg Bool.false_ne_true] at h
          rw [hready', if_neg Bool.false_ne_true]
          split at h
          case isTrue hended => rwa [if_pos hended]
          case isFalse hended =>
            rw [if_neg hended]
            split at h
            · cases h
            case h_2 r₁ hadvance =>
              rw [hsound.advance_eq hready hadvance h hsize hle]
              exact ih (hsound.advance hready hadvance).1 h hsize hle

private theorem Sound.readWithin (fuel : Nat) : ∀ {r : Reader}, r.Sound →
    readWithin count fuel r = (.ok piece, r') → r'.Sound := by
  induction fuel with
  | zero =>
      intro r _ h
      cases h
  | succ fuel ih =>
      intro r hsound h
      rw [Reader.readWithin] at h
      split at h
      case isTrue hready => exact (Prod.mk.inj h).2 ▸ hsound.handOut hready
      case isFalse hready =>
        split at h
        · exact (Prod.mk.inj h).2 ▸ hsound
        · split at h
          · cases h
          case h_2 hadvance => exact ih (hsound.advance (eq_false_of_ne_true hready) hadvance).1 h

/-- A reader does not depend on the sizes of requests as long as they have room behind the piece. -/
private theorem ignoresRoom : IgnoresRoom Reader.read Sound where
  keeps hsound h := hsound.readWithin _ h
  smaller hsound h := readWithin_smaller _ hsound h

end Reader

/-- The codec decodes what a block decodes to without a limit, if it is within the limit. -/
theorem decompress_of_decodes (h : Decodes block out) (hsize : out.size ≤ maxChunkSize) :
    decompress block = .ok out := by
  have hstart : (Reader.start block).Sound := ⟨Nat.le_refl 0, fun frame hframe => by
    rcases hframe with hframe | hframe <;> cases hframe⟩
  have hread := Take.readToEnd_of_readsToEnd Reader.ignoresRoom h hstart (Nat.lt_succ_of_le hsize)
  rw [decompress, decompressWith]
  simp only [decoder, hread]
  exact if_neg (Nat.not_lt.2 hsize)

end Zstd

/-! ### Formats -/

/-- What a block of a chunked format decodes to, however long that is. Gzip files have no blocks. -/
def Format.Decodes : Format → ByteArray → ByteArray → Prop
  | .zlib => fun _ _ => False
  | .snappy => Snappy.Decodes
  | .zstd => Zstd.Decodes

theorem Format.decompress_of_decodes [Compression] {format : Format} {c : Codec Compression.Memory}
    (h : format.codec? = some c) {block out : ByteArray} (hdecodes : format.Decodes block out)
    (hsize : out.size ≤ maxChunkSize) : c.decompress block = .ok out := by
  suffices ∀ block out, format.Decodes block out → out.size ≤ maxChunkSize →
      c.decompress block = .ok out from this block out hdecodes hsize
  exact of_codec? h (fun _ _ => Snappy.decompress_of_decodes) fun _ _ => Zstd.decompress_of_decodes

end TraceStore
