import TraceStore.Proofs.Requests

/-!
# Cursors

However a decoded stream is stored, requests for reading it front to back are answered by a position
in it: `Moves` says what one request does to that position and what it is answered with, `Runs` what
requests in a row do. Only the size of a piece that a request for some bytes gets is left to the
source: it is the parameter `cut`.
-/
namespace TraceStore

/-- The step of a cursor over the stream `s` from one position to another, with the request that it
is made for and the answer to that. A request for some bytes gets `k` of them at `p` only if
`cut p count k`. -/
inductive Moves (s : List UInt8) (cut : Nat → Nat → Nat → Prop) :
    Nat → ReadRequest → Answer → Nat → Prop
  | read {p count : Nat} {bytes : ByteArray} : p + count ≤ s.length →
      bytes.data.toList = (s.drop p).take count →
      Moves s cut p (.read count) (.bytes (.ok bytes)) (p + count)
  | readPast {p count : Nat} : s.length < p + count →
      Moves s cut p (.read count) (.bytes (.error .unexpectedEof)) s.length
  | skip {p count p' : Nat} {result : Except Error ByteArray} :
      Moves s cut p (.read count) (.bytes result) p' →
      Moves s cut p (.skip count) (.done (result.map fun _ => ())) p'
  | getc {p : Nat} : Moves s cut p .getc (.byte s[p]?) (min (p + 1) s.length)
  | readSome {p count : Nat} {piece : ByteArray} : p + piece.size ≤ s.length →
      piece.data.toList = (s.drop p).take piece.size → piece.size ≤ count →
      (piece.size = 0 ↔ count = 0 ∨ p = s.length) → cut p count piece.size →
      Moves s cut p (.readSome count) (.bytes (.ok piece)) (p + piece.size)

/-- The steps of a cursor for requests in a row. -/
inductive Runs (s : List UInt8) (cut : Nat → Nat → Nat → Prop) :
    Nat → List ReadRequest → List Answer → Nat → Prop
  | nil {p : Nat} : Runs s cut p [] [] p
  | cons {p p' p'' : Nat} {request : ReadRequest} {requests : List ReadRequest} {answer : Answer}
      {answers : List Answer} : Moves s cut p request answer p' →
      Runs s cut p' requests answers p'' →
      Runs s cut p (request :: requests) (answer :: answers) p''

variable {s : List UInt8} {cut : Nat → Nat → Nat → Prop}

/-- What every request keeps while a cursor moves, requests in a row keep while it runs. -/
theorem Runs.of_invariant {τ : Type} {ask : τ → ReadRequest → Answer × τ} (Inv : Nat → τ → Prop)
    (step : ∀ p x, Inv p x → ∀ request : ReadRequest, request.Sequential →
      ∃ p', Moves s cut p request (ask x request).1 p' ∧ Inv p' (ask x request).2)
    {requests : List ReadRequest} (hrequests : ∀ request ∈ requests, request.Sequential) {p : Nat}
    {x : τ} (h : Inv p x) :
    ∃ p', Runs s cut p requests (ReadRequest.askAll ask requests x).1 p' := by
  induction requests generalizing p x with
  | nil => exact ⟨p, .nil⟩
  | cons request requests ih =>
      obtain ⟨p₁, hmoves, h₁⟩ := step p x h request (hrequests request (by simp))
      obtain ⟨p₂, hruns⟩ := ih (fun other hother => hrequests other (by simp [hother])) h₁
      exact ⟨p₂, .cons hmoves hruns⟩

/-! ### Sources that hand out what is left -/

/-- The answer to a request for exactly `count` bytes where `rest` is left. -/
def ReadsFrom (rest : List UInt8) (count : Nat) (result : Except Error ByteArray) : Prop :=
  (count ≤ rest.length → ∃ bytes, result = .ok bytes ∧ bytes.data.toList = rest.take count) ∧
    (rest.length < count → result = .error .unexpectedEof)

/-- All bytes have been read that were asked for. -/
theorem readsFrom_done (done : ByteArray) (rest : List UInt8) :
    ReadsFrom (done.data.toList ++ rest) done.size (.ok done) :=
  ⟨fun _ => ⟨done, rfl, (List.take_left' (length_toList done)).symm⟩,
    fun hlt => by rw [List.length_append, length_toList] at hlt; omega⟩

/-- Fewer bytes have been read than were asked for, and none are left. -/
theorem readsFrom_past {done : ByteArray} {count : Nat} (hcount : 0 < count) :
    ReadsFrom (done.data.toList ++ []) (done.size + count) (.error .unexpectedEof) :=
  ⟨fun hle => by rw [List.append_nil, length_toList] at hle; omega, fun _ => rfl⟩

/-- A piece has been read, and what is missing after it is read from what is left. -/
theorem ReadsFrom.of_piece {done piece : ByteArray} {rest : List UInt8} {count : Nat}
    {result : Except Error ByteArray} (hle : piece.size ≤ count)
    (h : ReadsFrom ((done ++ piece).data.toList ++ rest)
      ((done ++ piece).size + (count - piece.size)) result) :
    ReadsFrom (done.data.toList ++ (piece.data.toList ++ rest)) (done.size + count) result := by
  rwa [ByteArray.toList_data_append, ByteArray.size_append, List.append_assoc, Nat.add_assoc,
    Nat.add_sub_cancel' hle] at h

/-- Sources that answer every request that reads on from what they have left, which `Rest` tells of
them, and have the rest of that left afterwards. -/
structure ReadsOn {τ : Type} (ask : τ → ReadRequest → Answer × τ) (Rest : List UInt8 → τ → Prop) :
    Prop where
  read : ∀ {s x}, Rest s x → ∀ count, ∃ result x',
    ask x (.read count) = (.bytes result, x') ∧ ReadsFrom s count result ∧ Rest (s.drop count) x'
  skip : ∀ {s x}, Rest s x → ∀ count, ∃ result x',
    ask x (.skip count) = (.done (result.map fun _ => ()), x') ∧ ReadsFrom s count result ∧
      Rest (s.drop count) x'
  getc : ∀ {s x}, Rest s x → ∃ x', ask x .getc = (.byte s.head?, x') ∧ Rest s.tail x'
  readSome_zero : ∀ x, ask x (.readSome 0) = (.bytes (.ok .empty), x)
  readSome : ∀ {s x}, Rest s x → ∀ {count}, 0 < count → ∃ piece x' rest,
    ask x (.readSome count) = (.bytes (.ok piece), x') ∧ s = piece.data.toList ++ rest ∧
      piece.size ≤ count ∧ (piece.size = 0 → s = []) ∧ Rest rest x'

namespace Moves

variable {p : Nat} (hp : p ≤ s.length)

include hp

private theorem of_readsFrom {count : Nat} {result : Except Error ByteArray}
    (h : ReadsFrom (s.drop p) count result) : ∃ p', Moves s cut p (.read count) (.bytes result) p' ∧
      p' ≤ s.length ∧ s.drop p' = (s.drop p).drop count := by
  obtain ⟨henough, hpast⟩ := h
  rw [List.length_drop] at henough hpast
  by_cases hle : p + count ≤ s.length
  · obtain ⟨bytes, rfl, hbytes⟩ := henough (by omega)
    exact ⟨p + count, .read hle hbytes, hle, by rw [List.drop_drop]⟩
  · obtain rfl := hpast (by omega)
    refine ⟨s.length, .readPast (by omega), Nat.le_refl _, ?_⟩
    rw [List.drop_length, List.drop_drop, List.drop_of_length_le (by omega)]

private theorem of_head? : ∃ p', Moves s cut p .getc (.byte (s.drop p).head?) p' ∧ p' ≤ s.length ∧
    s.drop p' = (s.drop p).tail := by
  rw [List.head?_drop]
  refine ⟨_, .getc, Nat.min_le_right .., ?_⟩
  rw [List.tail_drop]
  by_cases hlt : p + 1 ≤ s.length
  · rw [Nat.min_eq_left hlt]
  · rw [Nat.min_eq_right (by omega), List.drop_length, List.drop_of_length_le (by omega)]

private theorem of_piece {count : Nat} {piece : ByteArray} {rest : List UInt8}
    (h : s.drop p = piece.data.toList ++ rest) (hcount : piece.size ≤ count)
    (hzero : piece.size = 0 → count = 0 ∨ s.drop p = []) (hcut : cut p count piece.size) :
    ∃ p', Moves s cut p (.readSome count) (.bytes (.ok piece)) p' ∧ p' ≤ s.length ∧
      s.drop p' = rest := by
  have hlen := congrArg List.length h
  rw [List.length_drop, List.length_append, length_toList] at hlen
  refine ⟨p + piece.size, .readSome (by omega) ?_ hcount ⟨fun hsize => ?_, ?_⟩ hcut, by omega, ?_⟩
  · rw [h, List.take_left' (length_toList _)]
  · refine (hzero hsize).imp_right fun hnil => ?_
    rw [List.drop_eq_nil_iff] at hnil
    omega
  · rintro (hnone | hend) <;> omega
  · rw [← List.drop_drop, h, List.drop_left' (length_toList _)]

end Moves

/-- A source that has left what lies behind a position moves as a cursor there. -/
theorem ReadsOn.moves {τ : Type} {ask : τ → ReadRequest → Answer × τ} {Rest : List UInt8 → τ → Prop}
    (h : ReadsOn ask Rest) {p : Nat} {x : τ} (hp : p ≤ s.length) (hx : Rest (s.drop p) x)
    (hcut : ∀ {count piece}, (ask x (.readSome count)).1 = .bytes (.ok piece) →
      cut p count piece.size) {request : ReadRequest} (hrequest : request.Sequential) :
    ∃ p', Moves s cut p request (ask x request).1 p' ∧ p' ≤ s.length ∧
      Rest (s.drop p') (ask x request).2 := by
  cases request with
  | read count =>
      obtain ⟨result, x', hask, hfrom, hrest⟩ := h.read hx count
      obtain ⟨p', hmoves, hle, hdrop⟩ := Moves.of_readsFrom hp hfrom
      rw [hask]
      rw [← hdrop] at hrest
      exact ⟨p', hmoves, hle, hrest⟩
  | readSome count =>
      by_cases hzero : count = 0
      · subst hzero
        have hask := h.readSome_zero x
        have hsplit : s.drop p = ByteArray.empty.data.toList ++ s.drop p := rfl
        obtain ⟨p', hmoves, hle, hdrop⟩ :=
          Moves.of_piece hp hsplit (Nat.le_refl 0) (fun _ => .inl rfl) (hcut (by rw [hask]))
        rw [hask]
        rw [← hdrop] at hx
        exact ⟨p', hmoves, hle, hx⟩
      · obtain ⟨piece, x', rest, hask, hsplit, hcount, hend, hrest⟩ :=
          h.readSome hx (Nat.pos_of_ne_zero hzero)
        obtain ⟨p', hmoves, hle, rfl⟩ :=
          Moves.of_piece hp hsplit hcount (fun hsize => .inr (hend hsize)) (hcut (by rw [hask]))
        rw [hask]
        exact ⟨p', hmoves, hle, hrest⟩
  | getc =>
      obtain ⟨x', hask, hrest⟩ := h.getc hx
      obtain ⟨p', hmoves, hle, hdrop⟩ := Moves.of_head? hp
      rw [hask]
      rw [← hdrop] at hrest
      exact ⟨p', hmoves, hle, hrest⟩
  | skip count =>
      obtain ⟨result, x', hask, hfrom, hrest⟩ := h.skip hx count
      obtain ⟨p', hmoves, hle, hdrop⟩ := Moves.of_readsFrom hp hfrom
      rw [hask]
      rw [← hdrop] at hrest
      exact ⟨p', .skip hmoves, hle, hrest⟩
  | seek a => exact absurd hrequest id

end TraceStore
