import TraceStore.Proofs.Deflate.Inflate

/-!
# Runs on any input

Whatever its input is, a run takes a decoder from one place of it to another, and adds no more to
the output than the bits in between can stand for. If the decoder stands in a stream afterwards, it
stood in that stream before: `Inflate.Leads`.
-/
namespace TraceStore.Deflate.Inflate

open BitReader

/-- A decoder that has used up no more than its input, and is at the start of a byte within a stored
block. -/
structure Sound (s : Inflate) : Prop where
  bit_le : s.bit ≤ 8 * s.input.size
  stored : ∀ {left}, s.phase = .stored left → 0 < left ∧ s.bit % 8 = 0

theorem sound_start : start.Sound := ⟨Nat.le_refl _, nofun⟩

variable {s s₁ s' : Inflate} {bytes : ByteArray} {spot spot' : Spot} {bit bit' left : Nat}

/-! ### Single steps -/

private theorem afterBlock_ne_stored (last : Bool) : afterBlock last ≠ .stored left := by
  cases last <;> exact nofun

private theorem ownCodes_ne_stored {phase : Phase} (h : ownCodes bytes bit = .ok (phase, bit')) :
    phase ≠ .stored left := by
  simp only [ownCodes, Bind.bind, Except.bind] at h
  repeat' split at h
  all_goals cases h
  all_goals exact nofun

private theorem aligned_of_storedLengths {lengths : Nat × Nat}
    (h : storedLengths bytes bit = .ok (lengths, bit')) : bit' % 8 = 0 := by
  simp only [storedLengths] at h
  split at h
  · cases h
  · obtain ⟨-, rfl⟩ := Prod.mk.inj (Except.ok.inj h)
    exact Nat.mul_mod_right ..

private theorem stored_of_header {kind : Phase × Bool} (h : header bytes bit = .ok (kind, bit'))
    (hphase : kind.1 = .stored left) : 0 < left ∧ bit' % 8 = 0 := by
  simp only [header, Bind.bind, Except.bind] at h
  split at h
  · cases h
  split at h
  · cases h
  split at h
  · split at h
    · cases h
    rename_i hlengths
    split at h
    · simp [throw, throwThe, MonadExceptOf.throw] at h
    · obtain ⟨rfl, rfl⟩ := Prod.mk.inj (Except.ok.inj h)
      dsimp only at hphase
      split at hphase
      · exact absurd hphase (afterBlock_ne_stored _)
      · rename_i hlength
        rw [← Phase.stored.inj hphase]
        exact ⟨Nat.pos_of_ne_zero hlength, aligned_of_storedLengths hlengths⟩
  · obtain ⟨rfl, -⟩ := Prod.mk.inj (Except.ok.inj h)
    cases hphase
  · split at h
    · cases h
    · rename_i hcodes
      obtain ⟨rfl, -⟩ := Prod.mk.inj (Except.ok.inj h)
      exact absurd hphase (ownCodes_ne_stored hcodes)
  · cases h

/-- A step from elsewhere into a stored block ends at the start of a byte. -/
private theorem stored_of_next (h : next spot bytes bit = .ok (spot', bit'))
    (houtside : ∀ n, spot.phase ≠ .stored n) (hphase : spot'.phase = .stored left) :
    0 < left ∧ bit' % 8 = 0 := by
  obtain ⟨phase, last, output⟩ := spot
  cases phase with
  | finished => cases h
  | header =>
      simp only [next, Bind.bind, Except.bind] at h
      split at h
      · cases h
      · rename_i hheader
        obtain ⟨rfl, rfl⟩ := Prod.mk.inj (Except.ok.inj h)
        exact stored_of_header hheader hphase
  | stored n => exact absurd rfl (houtside n)
  | coded literals distances =>
      simp only [next, Bind.bind, Except.bind] at h
      split at h
      · cases h
      · split at h
        · obtain ⟨rfl, -⟩ := Prod.mk.inj (Except.ok.inj h)
          cases hphase
        · obtain ⟨rfl, -⟩ := Prod.mk.inj (Except.ok.inj h)
          exact absurd hphase (afterBlock_ne_stored _)
        · obtain ⟨rfl, -⟩ := Prod.mk.inj (Except.ok.inj h)
          cases hphase

/-! ### Runs -/

/-- Decoding has led from one place of the same input to another. -/
structure Leads (s s' : Inflate) : Prop where
  sound : s'.Sound
  input_eq : s'.input = s.input
  begins : s.output.data.toList <+: s'.output.data.toList
  expands : s'.output.size + maxCopyLength * s.bit ≤ s.output.size + maxCopyLength * s'.bit
  decodes : ∀ {tail written more}, s'.Decodes tail written more → s.Decodes tail written more

theorem Sound.leads (h : s.Sound) : s.Leads s :=
  ⟨h, rfl, List.prefix_rfl, Nat.le_refl _, id⟩

theorem Leads.trans (h : s.Leads s₁) (h' : s₁.Leads s') : s.Leads s' where
  sound := h'.sound
  input_eq := h'.input_eq.trans h.input_eq
  begins := h.begins.trans h'.begins
  expands := by
    have hexpands := h.expands
    have hexpands' := h'.expands
    omega
  decodes := h.decodes ∘ h'.decodes

/-- A step outside of stored blocks. -/
private theorem Sound.leads_next (h : s.Sound) (houtside : ∀ n, s.phase ≠ .stored n)
    (hnext : next s.spot s.input s.bit = .ok (spot', bit')) : s.Leads (s.moveTo spot' bit') where
  sound := ⟨((uses_next s.spot).within h.bit_le hnext).2, stored_of_next hnext houtside⟩
  input_eq := rfl
  begins := (output_of_next hnext).1
  expands := by
    have hsize := (output_of_next hnext).2
    have hbit := ((uses_next s.spot).within h.bit_le hnext).1
    show spot'.output.size + maxCopyLength * s.bit ≤ s.output.size + maxCopyLength * bit'
    replace hsize : spot'.output.size ≤ s.output.size + maxCopyLength := hsize
    rw [maxCopyLength] at hsize ⊢
    omega
  decodes := by
    rintro tail written more ⟨-, stop, hcompletes, htail⟩
    refine ⟨h.bit_le, stop, .step ?_ hcompletes, htail⟩
    rw [(uses_next s.spot).extend _ (by rw [hnext]; simp)]
    exact hnext

/-- Some bytes of a stored block are taken over. -/
private theorem Sound.leads_stored {step : Nat} (h : s.Sound) (hphase : s.phase = .stored left)
    (hpos : 0 < step) (hstep : step ≤ min left (s.input.size - s.bit / 8)) :
    s.Leads { s with
      phase := if step = left then afterBlock s.last else .stored (left - step)
      bit := s.bit + 8 * step
      output := s.output ++ s.input.extract (s.bit / 8) (s.bit / 8 + step) } where
  sound := by
    obtain ⟨-, haligned⟩ := h.stored hphase
    refine ⟨by simp only; omega, fun hrest => ?_⟩
    dsimp only at hrest
    split at hrest
    · exact absurd hrest (afterBlock_ne_stored _)
    · rw [← Phase.stored.inj hrest]
      simp only
      omega
  input_eq := rfl
  begins := by simp
  expands := by
    simp only [ByteArray.size_append, ByteArray.size_extract, maxCopyLength]
    omega
  decodes := by
    rintro tail written more ⟨-, stop, hcompletes, htail⟩
    obtain ⟨-, haligned⟩ := h.stored hphase
    refine ⟨h.bit_le, stop, ?_, htail⟩
    rw [show s.spot = ⟨.stored left, s.last, s.output⟩ by rw [spot, hphase],
      completes_stored_iff step hpos (by omega) haligned (by rw [ByteArray.size_append]; omega),
      extract_append_of_le (by omega)]
    exact hcompletes

/-- A decoder that has no byte of input left over which it could use up by itself. -/
def Tight (s : Inflate) : Prop :=
  s.input.size ≤ (s.bit + 7) / 8 ∨
    (s.phase ≠ .finished ∧ next s.spot s.input s.bit = .error .starved)

/-- The tail of a stream lies behind the input of a decoder that has none left over. -/
theorem Tight.tail_le {tail written more : List UInt8} (h : s.Tight)
    (hdecodes : s.Decodes tail written more) : tail.length ≤ more.length := by
  rcases h with hused | ⟨hphase, hstarved⟩
  · obtain ⟨stop, hcompletes, rfl⟩ := hdecodes.completes
    have hbit := hdecodes.bit_le
    have hstop := hcompletes.bit_le (by rw [ByteArray.size_append]; omega)
    rw [List.length_drop, List.length_append, length_toList]
    omega
  · rcases hdecodes.next hphase with ⟨spot', bit', hnext, -⟩ | ⟨-, hlt⟩
    · rw [hstarved] at hnext
      cases hnext
    · exact Nat.le_of_lt hlt

/-- Where a run ends: at the limit or beyond it, at the end of the stream, or where decoding cannot
go on. -/
def Stopped (limit : Nat) (s : Inflate) : Halt → Prop
  | .full => limit ≤ s.output.size
  | .starved => s.Tight
  | .invalid => True
  | .finished => s.phase = .finished

/-- A run leads to where it ends. -/
theorem Sound.run (h : s.Sound) (limit : Nat) :
    ∃ halt s', s.run limit = (halt, s') ∧ s.Leads s' ∧ s'.Stopped limit halt := by
  suffices ∀ fuel s, s.Sound → 8 * s.input.size < fuel + s.bit → ∃ halt s',
      runWithin limit fuel s = (halt, s') ∧ s.Leads s' ∧ s'.Stopped limit halt from
    this _ s h (by omega)
  intro fuel
  induction fuel with
  | zero =>
      intro s h hfuel
      have := h.bit_le
      omega
  | succ fuel ih =>
      intro s h hfuel
      by_cases hfull : limit < s.output.size
      · exact ⟨.full, s, by rw [runWithin, if_pos hfull], h.leads, Nat.le_of_lt hfull⟩
      by_cases hfinished : s.phase = .finished
      · exact ⟨.finished, s, by rw [runWithin, if_neg hfull, hfinished], h.leads, hfinished⟩
      by_cases hstored : ∃ left, s.phase = .stored left
      · obtain ⟨left, hphase⟩ := hstored
        obtain ⟨hleft, -⟩ := h.stored hphase
        rw [runWithin, if_neg hfull, hphase]
        dsimp only
        by_cases hend : limit ≤ s.output.size
        · exact ⟨.full, s, if_pos hend, h.leads, hend⟩
        rw [if_neg hend]
        generalize hstep : min left (min (limit - s.output.size) (s.input.size - s.bit / 8)) = step
        by_cases hnone : step = 0
        · exact ⟨.starved, s, if_pos hnone, h.leads, .inl (by omega)⟩
        · rw [if_neg hnone]
          have hleads := h.leads_stored hphase (Nat.pos_of_ne_zero hnone) (by omega)
          obtain ⟨halt, s', hrun, hleads', hstopped⟩ := ih _ hleads.sound (by simp only; omega)
          exact ⟨halt, s', hrun, hleads.trans hleads', hstopped⟩
      · have houtside : ∀ left, s.phase ≠ .stored left := fun left hleft => hstored ⟨left, hleft⟩
        rw [runWithin_next hfull hfinished houtside]
        cases hnext : next s.spot s.input s.bit with
        | error stop =>
            refine ⟨.ofStop stop, s, rfl, h.leads, ?_⟩
            cases stop with
            | starved => exact .inr ⟨hfinished, hnext⟩
            | invalid => trivial
        | ok read =>
            have hleads := h.leads_next houtside hnext
            have hbit := ((uses_next s.spot).within h.bit_le hnext).1
            obtain ⟨halt, s', hrun, hleads', hstopped⟩ :=
              ih (s.moveTo read.1 read.2) hleads.sound (by
                show 8 * s.input.size < fuel + read.2
                omega)
            exact ⟨halt, s', hrun, hleads.trans hleads', hstopped⟩

/-! ### Input in pieces -/

theorem Sound.feed (h : s.Sound) (bytes : ByteArray) : (s.feed bytes).Sound where
  bit_le := by
    have hbit := h.bit_le
    simp only [Inflate.feed, ByteArray.size_append, ByteArray.size_extract]
    omega
  stored hphase := by
    obtain ⟨hpos, haligned⟩ := h.stored hphase
    exact ⟨hpos, by show s.bit % 8 % 8 = 0; omega⟩

theorem Sound.giveBack (h : s.Sound) : s.giveBack.2.Sound where
  bit_le := by
    have hbit := h.bit_le
    simp only [Inflate.giveBack, ByteArray.size_extract]
    omega
  stored hphase := h.stored hphase

theorem tight_giveBack (s : Inflate) : s.giveBack.2.Tight := by
  refine .inl ?_
  simp only [Inflate.giveBack, ByteArray.size_extract]
  omega

/-- A decoder at the end of a stream, when it has given back what it did not need, is in front of
that, and its output is what the stream holds. -/
theorem Sound.decodes_of_finished (h : s.Sound) (hphase : s.phase = .finished) (more : List UInt8) :
    s.giveBack.2.Decodes (s.giveBack.1.data.toList ++ more) s.output.data.toList
      (s.giveBack.1.data.toList ++ more) := by
  have hbit := h.bit_le
  have hfront : s.giveBack.2.input.size = (s.bit + 7) / 8 := by
    simp only [Inflate.giveBack, ByteArray.size_extract]
    omega
  refine ⟨h.giveBack.bit_le, s.bit, ?_, ?_⟩
  · rw [show s.giveBack.2.spot = ⟨.finished, s.last, s.output⟩ by rw [← hphase]; rfl]
    exact .finished
  · exact List.drop_left' (by rw [length_toList, hfront])

end TraceStore.Deflate.Inflate
