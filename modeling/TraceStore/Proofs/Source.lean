import TraceStore.Disk.Basic
import TraceStore.Proofs.Delivery

/-!
# Sources of any kind

What a source still delivers can be told before it is asked, also if it is going to fail: `Sources`
are told apart by the stream that they deliver before a clean end, if there is one. Whatever the
sizes of the requests are, that stream is what is drained: `Sources.drains`,
`Sources.yields_of_drains`. A source that reads one node of a disk does not care for what is done to
the others: `SourcesOn`.
-/
namespace TraceStore

variable {ε α β : Type}

/-- Sources of which `Rests` says that no more than so many bytes come from them, and `Yields` that
they deliver a stream and then end cleanly. A source that yields no stream fails. -/
structure Sources (next : Nat → α → Except ε ByteArray × α) (Rests : Nat → α → Prop)
    (Yields : List UInt8 → α → Prop) : Prop where
  failed : ∀ {promise count x x' e}, Rests promise x → 0 < count → next count x = (.error e, x') →
    ∀ s, ¬Yields s x
  answered : ∀ {promise count x x' bytes}, Rests promise x → 0 < count →
    next count x = (.ok bytes, x') →
      (∃ promise', bytes.size + promise' ≤ promise ∧ Rests promise' x') ∧
      (∀ s, Yields s x ↔ ∃ rest, s = bytes.data.toList ++ rest ∧ Yields rest x') ∧
      (bytes.size = 0 → ∀ s, Yields s x' ↔ s = [])

namespace Sources

variable {next : Nat → α → Except ε ByteArray × α} {Rests : Nat → α → Prop}
  {Yields : List UInt8 → α → Prop} {promise count : Nat} {s : List UInt8} {x x' : α}

/-- A source that ends has nothing left to deliver. -/
theorem eq_nil_of_ended (h : Sources next Rests Yields) (hx : Rests promise x) (hcount : 0 < count)
    {bytes : ByteArray} (hnext : next count x = (.ok bytes, x')) (hsize : bytes.size = 0) :
    Yields s x ↔ s = [] := by
  obtain ⟨-, hyields, hended⟩ := h.answered hx hcount hnext
  rw [hyields, toList_eq_nil_iff.2 hsize]
  simp [hended hsize]

/-- What a source yields is drained. -/
theorem drains (h : Sources next Rests Yields) (hcount : 0 < count) (hx : Rests promise x)
    (hs : Yields s x) : ∃ x', Drains (next count) x s (.ok ()) x' := by
  induction promise using Nat.strongRecOn generalizing s x with
  | _ promise ih =>
      obtain ⟨⟨e | bytes, x₁⟩, hnext⟩ : ∃ answer, next count x = answer := ⟨_, rfl⟩
      · exact absurd hs (h.failed hx hcount hnext s)
      by_cases hsize : bytes.size = 0
      · obtain rfl := (h.eq_nil_of_ended hx hcount hnext hsize).1 hs
        exact ⟨x₁, .ended hnext hsize⟩
      · obtain ⟨⟨promise₁, hpromise, hx₁⟩, hyields, -⟩ := h.answered hx hcount hnext
        obtain ⟨rest, rfl, hrest⟩ := (hyields s).1 hs
        obtain ⟨x', hdrains⟩ := ih promise₁ (by omega) hx₁ hrest
        exact ⟨x', .more hnext hsize hdrains⟩

/-- Every source comes to an end, clean or not. -/
theorem exists_drains (h : Sources next Rests Yields) (hcount : 0 < count) (hx : Rests promise x) :
    ∃ bytes ending x', Drains (next count) x bytes ending x' := by
  induction promise using Nat.strongRecOn generalizing x with
  | _ promise ih =>
      obtain ⟨⟨e | bytes, x₁⟩, hnext⟩ : ∃ answer, next count x = answer := ⟨_, rfl⟩
      · exact ⟨[], .error e, x₁, .failed hnext⟩
      by_cases hsize : bytes.size = 0
      · exact ⟨[], .ok (), x₁, .ended hnext hsize⟩
      · obtain ⟨⟨promise₁, hpromise, hx₁⟩, -⟩ := h.answered hx hcount hnext
        obtain ⟨rest, ending, x', hdrains⟩ := ih promise₁ (by omega) hx₁
        exact ⟨_, ending, x', .more hnext hsize hdrains⟩

/-- What is drained up to a clean end is what a source yields. -/
theorem yields_of_drains (h : Sources next Rests Yields) (hcount : 0 < count)
    (hx : Rests promise x) (hdrains : Drains (next count) x s (.ok ()) x') : Yields s x := by
  generalize hending : (.ok () : Except ε Unit) = ending at hdrains
  induction hdrains generalizing promise with
  | failed => cases hending
  | ended hnext hsize => exact (h.eq_nil_of_ended hx hcount hnext hsize).2 rfl
  | more hnext _ _ ih =>
      obtain ⟨⟨promise₁, -, hx₁⟩, hyields, -⟩ := h.answered hx hcount hnext
      exact (hyields _).2 ⟨_, rfl, ih hx₁ hending⟩

/-- No more is drained than is promised, whatever it ends in. -/
theorem length_le_of_drains (h : Sources next Rests Yields) (hcount : 0 < count)
    (hx : Rests promise x) {ending : Except ε Unit} (hdrains : Drains (next count) x s ending x') :
    s.length ≤ promise := by
  induction hdrains generalizing promise with
  | ended => exact Nat.zero_le _
  | failed => exact Nat.zero_le _
  | more hnext _ _ ih =>
      obtain ⟨⟨promise₁, hpromise, hx₁⟩, -⟩ := h.answered hx hcount hnext
      have hle := ih hx₁
      rw [List.length_append, length_toList]
      omega

/-- A source that has handed out bytes is one. -/
theorem rests_of_handsOut (h : Sources next Rests Yields) (hx : Rests promise x)
    {bytes : List UInt8} (hout : HandsOut next x bytes x') : ∃ promise', Rests promise' x' := by
  induction hout generalizing promise with
  | nil => exact ⟨promise, hx⟩
  | cons hcount hnext _ ih =>
      obtain ⟨⟨promise₁, -, hx₁⟩, -⟩ := h.answered hx hcount hnext
      exact ih hx₁

/-- A source that has nothing left to deliver never will have. -/
theorem delivers_nil (h : Sources next Rests Yields) (hx : Rests promise x) (hs : Yields [] x) :
    Delivers next [] x := by
  refine .of_invariant (fun s x => s = [] ∧ ∃ promise, Rests promise x ∧ Yields [] x) ?_
    ⟨rfl, promise, hx, hs⟩
  rintro _ x ⟨rfl, promise, hx, hs⟩ count hcount
  obtain ⟨⟨e | bytes, x'⟩, hnext⟩ : ∃ answer, next count x = answer := ⟨_, rfl⟩
  · exact absurd hs (h.failed hx hcount hnext [])
  obtain ⟨⟨promise', -, hx'⟩, hyields, -⟩ := h.answered hx hcount hnext
  obtain ⟨rest, hnil, hrest⟩ := (hyields []).1 hs
  obtain ⟨hbytes, rfl⟩ := List.append_eq_nil_iff.1 hnil.symm
  refine ⟨bytes, x', [], hnext, hnil, ?_, fun _ => rfl, rfl, promise', hx', hrest⟩
  rw [toList_eq_nil_iff.1 hbytes]
  exact Nat.zero_le count

end Sources

/-- Sources that look at one node of a disk only. Of those that are left at any moment, `remaining`
tells how many bytes they deliver at most. -/
structure SourcesOn (next : Nat → α → Disk → Except ε ByteArray × α) (remaining : α → Disk → Nat)
    (node : Nat) (Rests : Disk → Nat → α → Prop) (Yields : Disk → List UInt8 → α → Prop) : Prop where
  sources : ∀ d, Sources (fun count x => next count x d) (Rests d) (Yields d)
  rests_frame : ∀ {d d' promise x}, Rests d promise x → d'.node? node = d.node? node →
    Rests d' promise x
  yields_frame : ∀ {d d' s x}, Yields d s x → d'.node? node = d.node? node → Yields d' s x
  rests_remaining : ∀ {d promise x}, Rests d promise x → Rests d (remaining x d) x

/-- Sources that stand for others. -/
theorem SourcesOn.map {next : Nat → α → Disk → Except ε ByteArray × α} {remaining : α → Disk → Nat}
    {node : Nat} {Rests : Disk → Nat → α → Prop} {Yields : Disk → List UInt8 → α → Prop}
    {next' : Nat → β → Disk → Except ε ByteArray × β} {remaining' : β → Disk → Nat} {g : α → β}
    (h : SourcesOn next remaining node Rests Yields) (hinj : ∀ {x y}, g x = g y → x = y)
    (hnext : ∀ count x d, next' count (g x) d = (next count x d).map id g)
    (hremaining : ∀ x d, remaining' (g x) d = remaining x d) :
    SourcesOn next' remaining' node (fun d promise y => ∃ x, y = g x ∧ Rests d promise x)
      (fun d s y => ∃ x, y = g x ∧ Yields d s x) where
  sources d := by
    -- What the source that it stands for yields is all that it does.
    have hyields {s x} : (∃ x', g x = g x' ∧ Yields d s x') ↔ Yields d s x :=
      ⟨fun ⟨x', hx, hs⟩ => by rwa [hinj hx], fun hs => ⟨x, rfl, hs⟩⟩
    constructor
    · rintro promise count _ y' e ⟨x, rfl, hx⟩ hcount hanswer s hs
      rw [hnext] at hanswer
      obtain ⟨hfailed, -⟩ := Prod.mk.inj hanswer
      exact (h.sources d).failed hx hcount (Prod.ext hfailed rfl) s (hyields.1 hs)
    · rintro promise count _ y' bytes ⟨x, rfl, hx⟩ hcount hanswer
      rw [hnext] at hanswer
      obtain ⟨hbytes, rfl⟩ := Prod.mk.inj hanswer
      obtain ⟨⟨promise', hpromise, hx'⟩, hsplit, hended⟩ :=
        (h.sources d).answered hx hcount (Prod.ext hbytes rfl)
      simp only [hyields]
      exact ⟨⟨promise', hpromise, _, rfl, hx'⟩, hsplit, hended⟩
  rests_frame := by
    rintro d d' promise _ ⟨x, rfl, hx⟩ hsame
    exact ⟨x, rfl, h.rests_frame hx hsame⟩
  yields_frame := by
    rintro d d' s _ ⟨x, rfl, hs⟩ hsame
    exact ⟨x, rfl, h.yields_frame hs hsame⟩
  rests_remaining := by
    rintro d promise _ ⟨x, rfl, hx⟩
    exact ⟨x, rfl, by rw [hremaining]; exact h.rests_remaining hx⟩

end TraceStore
