import TraceStore.Bytes.Reading
import TraceStore.Proofs.Delivery

/-!
# Reading up to a limit

What `Take.readToEnd` gathers below its limit is all that its source hands out up to an end of its
own: `Take.handsOut_of_readToEnd`. The other way round it gathers a stream below the limit if its
source delivers that (`Take.readToEnd_of_delivers`), or hands it out without a limit and ignores room
that it does not fill (`Take.readToEnd_of_readsToEnd`).
-/
namespace TraceStore

variable {ε δ : Type} {next : Nat → δ → Except ε ByteArray × δ} {room : Room}

/-- Asked for some bytes, the source says that there are none left. -/
def TellsEnd (next : Nat → δ → Except ε ByteArray × δ) (x : δ) : Prop :=
  ∃ count piece x', 0 < count ∧ next count x = (.ok piece, x') ∧ piece.size = 0

/-- Of a stream that is delivered, everything was handed out when there is none left. -/
theorem Delivers.eq_of_handsOut {s bytes : List UInt8} {x x' : δ} (h : Delivers next s x)
    (hhands : HandsOut next x bytes x') (hends : TellsEnd next x') : s = bytes := by
  obtain ⟨rest, rfl, hrest⟩ := hhands.of_invariant (fun s x => Delivers next s x)
    (fun s x h count hcount => h.step hcount) h
  obtain ⟨count, piece, x'', hcount, hasked, hempty⟩ := hends
  obtain ⟨piece', _, _, hasked', -, -, hend, -⟩ := hrest.step hcount
  obtain rfl := Except.ok.inj (Prod.mk.inj (hasked.symm.trans hasked')).1
  rw [hend hempty, List.append_nil]

/-- Asked with the room of a buffer, in which there are pieces of the given sizes, again and again
without a limit, the source hands out some bytes and then nothing. -/
inductive ReadsToEnd (next : Nat → δ → Except ε ByteArray × δ) (room : Room) :
    List Nat → δ → List UInt8 → Prop
  | ended {sizes x x' piece} (asked : next (room.after sizes) x = (.ok piece, x'))
      (empty : piece.size = 0) : ReadsToEnd next room sizes x []
  | more {sizes x x' piece bytes} (asked : next (room.after sizes) x = (.ok piece, x'))
      (nonempty : piece.size ≠ 0) (rest : ReadsToEnd next room (piece.size :: sizes) x' bytes) :
      ReadsToEnd next room sizes x (piece.data.toList ++ bytes)

/-- A source in a state with `Inv` that hands out a piece hands it out to any smaller request, too,
that still has room behind it. -/
structure IgnoresRoom (next : Nat → δ → Except ε ByteArray × δ) (Inv : δ → Prop) : Prop where
  keeps : ∀ {x x' : δ} {count : Nat} {piece : ByteArray}, Inv x → next count x = (.ok piece, x') →
    Inv x'
  smaller : ∀ {x x' : δ} {count count' : Nat} {piece : ByteArray}, Inv x →
    next count x = (.ok piece, x') → piece.size < count' → count' ≤ count →
    next count' x = (.ok piece, x')

namespace Take

variable {out out' : ByteArray} {x : δ} {limit : Nat}

/-- Reading adds to what there is. -/
private theorem size_le_of_readWithin (fuel : Nat) : ∀ {sizes : List Nat} {out : ByteArray}
    {t : Take δ}, readWithin next room fuel sizes out t = .ok out' → out.size ≤ out'.size := by
  induction fuel with
  | zero =>
      intro sizes out t h
      exact Except.ok.inj h ▸ Nat.le_refl _
  | succ fuel ih =>
      intro sizes out t h
      rw [readWithin] at h
      split at h
      case h_1 => cases h
      case h_2 piece t' _ =>
        split at h
        case isTrue => exact Except.ok.inj h ▸ Nat.le_refl _
        case isFalse =>
          have hsize := ih h
          rw [ByteArray.size_append] at hsize
          omega

/-- A request is passed on as long as the limit is not reached. -/
private theorem read_of_pos {count : Nat} (hlimit : 0 < limit) :
    read next count ⟨x, limit⟩ = match next (min count limit) x with
      | (.ok piece, source) => (.ok piece, ⟨source, limit - piece.size⟩)
      | (.error e, source) => (.error e, ⟨source, limit⟩) :=
  if_neg (Nat.ne_of_gt hlimit)

/-- Below the limit, reading ends where the source does: the limit is the only other end, and the
pieces would come to it. -/
private theorem handsOut_of_readWithin (fuel : Nat) : ∀ {sizes : List Nat} {out : ByteArray}
    {x : δ} {limit : Nat}, limit < fuel →
    readWithin next room fuel sizes out ⟨x, limit⟩ = .ok out' → out'.size < out.size + limit →
      ∃ bytes x', out'.data.toList = out.data.toList ++ bytes ∧ HandsOut next x bytes x' ∧
        TellsEnd next x' := by
  induction fuel with
  | zero => exact fun hfuel => absurd hfuel (Nat.not_lt_zero _)
  | succ fuel ih =>
      intro sizes out x limit hfuel h hbelow
      have hgrows := size_le_of_readWithin (fuel + 1) h
      have hlimit : 0 < limit := by omega
      have hcount : 0 < min (room.after sizes) limit := Nat.lt_min.2 ⟨room.pos _, hlimit⟩
      rw [readWithin, read_of_pos hlimit] at h
      obtain ⟨⟨result, x'⟩, hasked⟩ : ∃ answer, next (min (room.after sizes) limit) x = answer :=
        ⟨_, rfl⟩
      rw [hasked] at h
      cases result with
      | error e => cases h
      | ok piece =>
          dsimp only at h
          split at h
          case isTrue hempty =>
            obtain rfl := Except.ok.inj h
            exact ⟨[], x, (List.append_nil _).symm, .nil,
              ⟨_, piece, x', hcount, hasked, isEmpty_iff.1 hempty⟩⟩
          case isFalse hmore =>
            have hpiece := Nat.pos_of_ne_zero (mt isEmpty_iff.2 hmore)
            have hsize := size_le_of_readWithin fuel h
            rw [ByteArray.size_append] at hsize
            obtain ⟨bytes, x'', hout, hhands, hends⟩ := ih (by omega) h (by
              rw [ByteArray.size_append]
              omega)
            refine ⟨piece.data.toList ++ bytes, x'', ?_, .cons hcount hasked hhands, hends⟩
            rw [hout, ByteArray.toList_data_append, List.append_assoc]

theorem handsOut_of_readToEnd (h : readToEnd next room ⟨x, limit⟩ = .ok out)
    (hbelow : out.size < limit) :
    ∃ x', HandsOut next x out.data.toList x' ∧ TellsEnd next x' := by
  obtain ⟨bytes, x', hout, hhands, hends⟩ :=
    handsOut_of_readWithin _ (Nat.lt_succ_self limit) h (by simpa using hbelow)
  have hall : out.data.toList = bytes := hout
  exact ⟨x', hall ▸ hhands, hends⟩

private theorem readWithin_of_delivers (fuel : Nat) : ∀ (limit : Nat) {sizes : List Nat}
    {out : ByteArray} {x : δ} {s : List UInt8}, limit < fuel → Delivers next s x →
      s.length < limit →
      ∃ out', readWithin next room fuel sizes out ⟨x, limit⟩ = .ok out' ∧
        out'.data.toList = out.data.toList ++ s := by
  induction fuel with
  | zero =>
      intro limit sizes out x s hfuel
      exact absurd hfuel (Nat.not_lt_zero _)
  | succ fuel ih =>
      intro limit sizes out x s hfuel h hbelow
      have hlimit : 0 < limit := by omega
      obtain ⟨piece, x', rest, hasked, rfl, -, hend, hrest⟩ :=
        h.step (Nat.lt_min.2 ⟨room.pos sizes, hlimit⟩)
      rw [List.length_append, length_toList] at hbelow
      rw [readWithin, read_of_pos hlimit, hasked]
      dsimp only
      by_cases hpiece : piece.size = 0
      · rw [if_pos (isEmpty_iff.2 hpiece), hend hpiece, List.append_nil]
        exact ⟨out, rfl, rfl⟩
      · rw [if_neg (mt isEmpty_iff.1 hpiece)]
        obtain ⟨out', hread, hout⟩ := ih (limit - piece.size) (by omega) hrest (by omega)
        exact ⟨out', hread, by rw [hout, ByteArray.toList_data_append, List.append_assoc]⟩

/-- A stream below the limit that is delivered is read to its end. -/
theorem readToEnd_of_delivers (h : Delivers next out.data.toList x) (hbelow : out.size < limit) :
    readToEnd next room ⟨x, limit⟩ = .ok out := by
  obtain ⟨out', hread, hout⟩ :=
    readWithin_of_delivers (limit + 1) limit (Nat.lt_succ_self _) h (by rwa [length_toList])
  rw [readToEnd, hread, eq_of_toList_eq (hout.trans (List.nil_append _))]

private theorem readWithin_of_readsToEnd {Inv : δ → Prop} (hroom : IgnoresRoom next Inv) {x : δ}
    {sizes : List Nat} {s : List UInt8} (h : ReadsToEnd next room sizes x s) (hinv : Inv x) :
    ∀ (fuel limit : Nat) {out : ByteArray}, limit < fuel → s.length < limit →
      ∃ out', readWithin next room fuel sizes out ⟨x, limit⟩ = .ok out' ∧
        out'.data.toList = out.data.toList ++ s := by
  induction h with
  | @ended sizes x x' piece asked empty =>
      intro fuel limit out hfuel hbelow
      obtain ⟨fuel, rfl⟩ := Nat.exists_eq_succ_of_ne_zero (by omega : fuel ≠ 0)
      have hlimit : 0 < limit := by omega
      have hpos := room.pos sizes
      rw [readWithin, read_of_pos hlimit,
        hroom.smaller hinv asked (by omega) (Nat.min_le_left _ limit)]
      exact ⟨out, if_pos (isEmpty_iff.2 empty), (List.append_nil _).symm⟩
  | @more sizes x x' piece bytes asked nonempty rest ih =>
      intro fuel limit out hfuel hbelow
      obtain ⟨fuel, rfl⟩ := Nat.exists_eq_succ_of_ne_zero (by omega : fuel ≠ 0)
      have hlimit : 0 < limit := by omega
      rw [List.length_append, length_toList] at hbelow
      -- With less room than the buffer has, the piece is the same: it does not come to the limit.
      have hsame : next (min (room.after sizes) limit) x = (.ok piece, x') := by
        rcases Nat.le_total (room.after sizes) limit with hle | hle
        · rw [Nat.min_eq_left hle, asked]
        · rw [Nat.min_eq_right hle]
          exact hroom.smaller hinv asked (by omega) hle
      rw [readWithin, read_of_pos hlimit, hsame]
      dsimp only
      rw [if_neg (mt isEmpty_iff.1 nonempty)]
      obtain ⟨out', hread, hout⟩ :=
        ih (hroom.keeps hinv asked) fuel (limit - piece.size) (by omega) (by omega)
      exact ⟨out', hread, by rw [hout, ByteArray.toList_data_append, List.append_assoc]⟩

/-- A stream below the limit that is read to its end without a limit is so with one. -/
theorem readToEnd_of_readsToEnd {Inv : δ → Prop} (hroom : IgnoresRoom next Inv)
    (h : ReadsToEnd next room [] x out.data.toList) (hinv : Inv x) (hbelow : out.size < limit) :
    readToEnd next room ⟨x, limit⟩ = .ok out := by
  obtain ⟨out', hread, hout⟩ := readWithin_of_readsToEnd hroom h hinv (limit + 1) limit
    (Nat.lt_succ_self _) (by rwa [length_toList])
  rw [readToEnd, hread, eq_of_toList_eq (hout.trans (List.nil_append _))]

end Take
end TraceStore
