import TraceStore.Error
import TraceStore.Proofs.Bytes

/-!
# Reading a stream to its end

A source is asked for some of the next bytes again and again. `Delivers` says that it hands out a
stream in pieces and then ends cleanly and for good, whatever the sizes of the requests are.
`Drains` is one way of asking: with one request until there is nothing or an error. A stream that is
delivered is what is drained, and both are determined by the source: `Delivers.drains`,
`Drains.unique`.
-/
namespace TraceStore

variable {ε α : Type}

/-- Asked up to `rounds` times for a byte or more, the source `x` hands out `s` piece by piece. A
piece is as long as was asked for at most, and is empty only if nothing is left. -/
def DeliversFor (next : Nat → α → Except ε ByteArray × α) : Nat → List UInt8 → α → Prop
  | 0, _, _ => True
  | rounds + 1, s, x => ∀ count, 0 < count → ∃ piece x' rest,
      next count x = (.ok piece, x') ∧ s = piece.data.toList ++ rest ∧ piece.size ≤ count ∧
        (piece.size = 0 → s = []) ∧ DeliversFor next rounds rest x'

/-- However often it is asked, the source `x` hands out `s` piece by piece, then nothing for ever. -/
def Delivers (next : Nat → α → Except ε ByteArray × α) (s : List UInt8) (x : α) : Prop :=
  ∀ rounds, DeliversFor next rounds s x

/-- Asked the same until there is nothing or an error, the source `x` hands out some bytes, ends in
`ending`, and is left as the last argument. -/
inductive Drains (next : α → Except ε ByteArray × α) :
    α → List UInt8 → Except ε Unit → α → Prop
  | ended {x x' piece} : next x = (.ok piece, x') → piece.size = 0 → Drains next x [] (.ok ()) x'
  | failed {x x' e} : next x = (.error e, x') → Drains next x [] (.error e) x'
  | more {x x' x'' piece bytes ending} : next x = (.ok piece, x') → piece.size ≠ 0 →
      Drains next x' bytes ending x'' → Drains next x (piece.data.toList ++ bytes) ending x''

/-- After some requests for a byte or more, none of which failed, the source `x` has handed out some
bytes and is left as the last argument. -/
inductive HandsOut (next : Nat → α → Except ε ByteArray × α) : α → List UInt8 → α → Prop
  | nil {x} : HandsOut next x [] x
  | cons {x x' x'' count piece bytes} : 0 < count → next count x = (.ok piece, x') →
      HandsOut next x' bytes x'' → HandsOut next x (piece.data.toList ++ bytes) x''

variable {next : Nat → α → Except ε ByteArray × α} {s bytes : List UInt8} {x x' : α}

namespace Delivers

/-- A property of sources and streams that every request keeps makes sources deliver streams. -/
theorem of_invariant (Inv : List UInt8 → α → Prop)
    (step : ∀ s x, Inv s x → ∀ count, 0 < count → ∃ piece x' rest,
      next count x = (.ok piece, x') ∧ s = piece.data.toList ++ rest ∧ piece.size ≤ count ∧
        (piece.size = 0 → s = []) ∧ Inv rest x')
    (h : Inv s x) : Delivers next s x := by
  intro rounds
  induction rounds generalizing s x with
  | zero => trivial
  | succ rounds ih =>
      intro count hcount
      obtain ⟨piece, x', rest, hnext, hs, hsize, hend, hinv⟩ := step s x h count hcount
      exact ⟨piece, x', rest, hnext, hs, hsize, hend, ih hinv⟩

/-- One request. -/
theorem step (h : Delivers next s x) {count : Nat} (hcount : 0 < count) :
    ∃ piece x' rest, next count x = (.ok piece, x') ∧ s = piece.data.toList ++ rest ∧
      piece.size ≤ count ∧ (piece.size = 0 → s = []) ∧ Delivers next rest x' := by
  obtain ⟨piece, x', rest, hnext, hs, hsize, hend, -⟩ := h 1 count hcount
  refine ⟨piece, x', rest, hnext, hs, hsize, hend, fun rounds => ?_⟩
  -- The request has one answer, so the rounds that follow start from it for every number of them.
  obtain ⟨piece₂, x₂, rest₂, hnext₂, hs₂, -, -, htail⟩ := h (rounds + 1) count hcount
  obtain ⟨hpiece, rfl⟩ := Prod.mk.inj (hnext.symm.trans hnext₂)
  obtain rfl := Except.ok.inj hpiece
  obtain rfl := List.append_cancel_left (hs.symm.trans hs₂)
  exact htail

/-- A stream that is delivered is drained by requests of any size. -/
theorem drains (h : Delivers next s x) {count : Nat} (hcount : 0 < count) :
    ∃ x', Drains (next count) x s (.ok ()) x' ∧ Delivers next [] x' := by
  induction hn : s.length using Nat.strongRecOn generalizing s x with
  | _ n ih =>
      obtain ⟨piece, x', rest, hnext, rfl, -, hend, htail⟩ := h.step hcount
      by_cases hpiece : piece.size = 0
      · obtain ⟨hnil, rfl⟩ := List.append_eq_nil_iff.1 (hend hpiece)
        exact ⟨x', by rw [hnil]; exact .ended hnext hpiece, htail⟩
      · have hlt : rest.length < n := by
          rw [← hn, List.length_append, length_toList]
          omega
        obtain ⟨x'', hdrains, hnil⟩ := ih rest.length hlt htail rfl
        exact ⟨x'', .more hnext hpiece hdrains, hnil⟩

end Delivers

/-- What every request keeps holds of what is left of a stream. -/
theorem HandsOut.of_invariant (Inv : List UInt8 → α → Prop)
    (step : ∀ s x, Inv s x → ∀ count, 0 < count → ∃ piece x' rest,
      next count x = (.ok piece, x') ∧ s = piece.data.toList ++ rest ∧ piece.size ≤ count ∧
        (piece.size = 0 → s = []) ∧ Inv rest x')
    (h : Inv s x) (hout : HandsOut next x bytes x') : ∃ rest, s = bytes ++ rest ∧ Inv rest x' := by
  induction hout generalizing s with
  | nil => exact ⟨s, rfl, h⟩
  | cons hcount hnext _ ih =>
      obtain ⟨piece, x₁, rest, hfirst, rfl, -, -, h₁⟩ := step _ _ h _ hcount
      obtain ⟨hpiece, rfl⟩ := Prod.mk.inj (hnext.symm.trans hfirst)
      obtain rfl := Except.ok.inj hpiece
      obtain ⟨rest, rfl, hrest⟩ := ih h₁
      exact ⟨rest, by simp, hrest⟩

/-- Requests after each other. -/
theorem HandsOut.trans {bytes' : List UInt8} {x'' : α} (h : HandsOut next x bytes x')
    (h' : HandsOut next x' bytes' x'') : HandsOut next x (bytes ++ bytes') x'' := by
  induction h with
  | nil => exact h'
  | cons hcount hnext _ ih =>
      rw [List.append_assoc]
      exact .cons hcount hnext (ih h')

/-- Draining has one outcome. -/
theorem Drains.unique {next : α → Except ε ByteArray × α} {x x₁ x₂ : α} {bytes₁ bytes₂ : List UInt8}
    {ending₁ ending₂ : Except ε Unit} (h₁ : Drains next x bytes₁ ending₁ x₁)
    (h₂ : Drains next x bytes₂ ending₂ x₂) : bytes₁ = bytes₂ ∧ ending₁ = ending₂ ∧ x₁ = x₂ := by
  induction h₁ generalizing bytes₂ with
  | ended hnext hsize =>
      cases h₂ with
      | ended hnext₂ => simp_all
      | failed hnext₂ => simp_all
      | more hnext₂ => simp_all
  | failed hnext =>
      cases h₂ with
      | ended hnext₂ => simp_all
      | failed hnext₂ => simp_all
      | more hnext₂ => simp_all
  | more hnext hsize _ ih =>
      cases h₂ with
      | ended hnext₂ => simp_all
      | failed hnext₂ => simp_all
      | more hnext₂ hsize₂ htail₂ =>
          obtain ⟨hpiece, rfl⟩ := Prod.mk.inj (hnext.symm.trans hnext₂)
          obtain rfl := Except.ok.inj hpiece
          obtain ⟨rfl, rfl, rfl⟩ := ih htail₂
          exact ⟨rfl, rfl, rfl⟩

/-- The source `x` delivers `s` to requests for some bytes. Wherever these have brought it, a request
for exactly some bytes gets an error if fewer are left. -/
structure Serves (next exact : Nat → α → Except Error ByteArray × α) (s : List UInt8) (x : α) :
    Prop where
  delivers : Delivers next s x
  exact_past_end : ∀ {bytes x'}, HandsOut next x bytes x' → ∀ {count},
    s.length < bytes.length + count → (exact count x').1 = .error .unexpectedEof

/-- A property of sources and streams that every request keeps, and that has requests for more bytes
than are left fail, makes sources serve streams. -/
theorem Serves.of_invariant {next exact : Nat → α → Except Error ByteArray × α}
    (Inv : List UInt8 → α → Prop)
    (step : ∀ s x, Inv s x → ∀ count, 0 < count → ∃ piece x' rest,
      next count x = (.ok piece, x') ∧ s = piece.data.toList ++ rest ∧ piece.size ≤ count ∧
        (piece.size = 0 → s = []) ∧ Inv rest x')
    (past : ∀ s x, Inv s x → ∀ count, s.length < count → (exact count x).1 = .error .unexpectedEof)
    (h : Inv s x) : Serves next exact s x where
  delivers := .of_invariant Inv step h
  exact_past_end := by
    intro bytes x' hout count hlt
    obtain ⟨rest, rfl, hrest⟩ := hout.of_invariant Inv step h
    rw [List.length_append] at hlt
    exact past rest x' hrest count (by omega)

/-! ### Sources that stand for others -/

variable {β : Type} {next' : Nat → β → Except ε ByteArray × β} (g : α → β)

theorem Delivers.map (hg : ∀ count x, next' count (g x) = (next count x).map id g)
    (h : Delivers next s x) : Delivers next' s (g x) := by
  refine .of_invariant (fun s y => ∃ x, y = g x ∧ Delivers next s x) ?_ ⟨x, rfl, h⟩
  rintro s _ ⟨x, rfl, h⟩ count hcount
  obtain ⟨piece, x', rest, hnext, hs, hle, hend, htail⟩ := h.step hcount
  exact ⟨piece, g x', rest, by rw [hg, hnext]; rfl, hs, hle, hend, x', rfl, htail⟩

theorem Drains.map {next : α → Except ε ByteArray × α} {next' : β → Except ε ByteArray × β}
    {ending : Except ε Unit} (hg : ∀ x, next' (g x) = (next x).map id g)
    (h : Drains next x bytes ending x') : Drains next' (g x) bytes ending (g x') := by
  induction h with
  | ended hnext hsize => exact .ended (by rw [hg, hnext]; rfl) hsize
  | failed hnext => exact .failed (by rw [hg, hnext]; rfl)
  | more hnext hsize _ ih => exact .more (by rw [hg, hnext]; rfl) hsize ih

theorem Drains.of_map {next : α → Except ε ByteArray × α} {next' : β → Except ε ByteArray × β}
    {ending : Except ε Unit} (hg : ∀ x, next' (g x) = (next x).map id g) {y : β}
    (h : Drains next' (g x) bytes ending y) : ∃ x', y = g x' ∧ Drains next x bytes ending x' := by
  generalize hx : g x = z at h
  induction h generalizing x with
  | ended hnext hsize =>
      subst hx
      rw [hg] at hnext
      obtain ⟨hpiece, rfl⟩ := Prod.mk.inj hnext
      exact ⟨_, rfl, .ended (Prod.ext hpiece rfl) hsize⟩
  | failed hnext =>
      subst hx
      rw [hg] at hnext
      obtain ⟨hfailed, rfl⟩ := Prod.mk.inj hnext
      exact ⟨_, rfl, .failed (Prod.ext hfailed rfl)⟩
  | more hnext hsize _ ih =>
      subst hx
      rw [hg] at hnext
      obtain ⟨hpiece, rfl⟩ := Prod.mk.inj hnext
      obtain ⟨x', rfl, hrest⟩ := ih rfl
      exact ⟨x', rfl, .more (Prod.ext hpiece rfl) hsize hrest⟩

theorem HandsOut.of_map (hg : ∀ count x, next' count (g x) = (next count x).map id g) {y : β}
    (h : HandsOut next' (g x) bytes y) : ∃ x', y = g x' ∧ HandsOut next x bytes x' := by
  generalize hx : g x = z at h
  induction h generalizing x with
  | nil => exact ⟨x, hx.symm, .nil⟩
  | @cons _ _ _ count _ _ hcount hnext _ ih =>
      subst hx
      rw [hg] at hnext
      obtain ⟨hpiece, rfl⟩ := Prod.mk.inj hnext
      obtain ⟨x', rfl, hrest⟩ := ih rfl
      exact ⟨x', rfl, .cons hcount (Prod.ext hpiece rfl) hrest⟩

theorem Serves.map {next exact : Nat → α → Except Error ByteArray × α}
    {next' exact' : Nat → β → Except Error ByteArray × β}
    (hnext : ∀ count x, next' count (g x) = (next count x).map id g)
    (hexact : ∀ count x, exact' count (g x) = (exact count x).map id g)
    (h : Serves next exact s x) : Serves next' exact' s (g x) where
  delivers := h.delivers.map g hnext
  exact_past_end := by
    intro bytes y hout count hlt
    obtain ⟨x', rfl, hout'⟩ := hout.of_map g hnext
    rw [hexact]
    exact h.exact_past_end hout' hlt

end TraceStore
