import TraceStore.Proofs.Gzip.Member
import TraceStore.Stream.Basic

/-!
# Files that were cut

If only the beginning of the file of some members is there, that may end with one of them: `AtEnd`.
How decoding ends depends on that, and on nothing else: `DecodesTo.ok_of_atEnd`,
`DecodesTo.truncated_of_not_atEnd`. All that the members in front of the cut hold has been delivered
by then: `DecodesTo.whole_prefix`.
-/
namespace TraceStore.Gzip

/-- Whether `F`, which is the beginning of the file of some members, ends with one of them. -/
def AtEnd (ms : List WholeMember) (F : List UInt8) : Prop :=
  ∃ past, past <+: ms ∧ past ≠ [] ∧ F = fileOf past

/-- What decoding comes to, all that is delivered and how it ends, in a file `F` that is the
beginning of the file of some members. -/
inductive DecodesTo (ms : List WholeMember) (F : List UInt8) :
    List UInt8 → Except StreamFault Unit → Prop
  | whole {past : List WholeMember} : past <+: ms → past ≠ [] → F = fileOf past →
      DecodesTo ms F (dataOf past) (.ok ())
  | cut {past : List WholeMember} {cur : WholeMember} {done : List UInt8} : past ++ [cur] <+: ms →
      (fileOf past).length ≤ F.length → F.length < (fileOf past).length + cur.bytes.length →
      (F.length = (fileOf past).length → past = []) →
      dataOf past <+: done → done <+: dataOf past ++ cur.data →
      DecodesTo ms F done (.error .truncated)

variable {ms past : List WholeMember} {F done : List UInt8} {ending : Except StreamFault Unit}

/-! ### Members in front of others -/

theorem WholeMember.length_pos (m : WholeMember) : 0 < m.bytes.length := by
  obtain ⟨header, stream, hheader, -, hbytes⟩ := m.isMember
  rw [hbytes, List.length_append, hheader.length_eq]
  exact Nat.lt_of_lt_of_le (by decide : 0 < fixedHeaderSize) (Nat.le_add_right ..)

theorem fileOf_eq_nil (h : fileOf ms = []) : ms = [] := by
  cases ms with
  | nil => rfl
  | cons m ms =>
      have hpos := m.length_pos
      rw [show m.bytes = [] from (List.append_eq_nil_iff.1 h).1] at hpos
      exact absurd hpos (Nat.lt_irrefl _)

theorem dataOf_mono {ms' : List WholeMember} (h : ms <+: ms') : dataOf ms <+: dataOf ms' := by
  obtain ⟨rest, rfl⟩ := h
  rw [dataOf_append]
  exact List.prefix_append ..

theorem fileOf_mono {ms' : List WholeMember} (h : ms <+: ms') : fileOf ms <+: fileOf ms' := by
  obtain ⟨rest, rfl⟩ := h
  rw [fileOf_append]
  exact List.prefix_append ..

/-- Of the members that a file starts with, those that take no more bytes come first. -/
theorem prefix_of_length_le {front : List WholeMember} (hpast : past <+: ms) (hfront : front <+: ms)
    (hle : (fileOf past).length ≤ (fileOf front).length) : past <+: front := by
  rcases List.prefix_or_prefix_of_prefix hpast hfront with h | ⟨rest, rfl⟩
  · exact h
  · rw [fileOf_append, List.length_append] at hle
    obtain rfl := fileOf_eq_nil (List.length_eq_zero_iff.1 (by omega : (fileOf rest).length = 0))
    exact ⟨[], by rw [List.append_nil, List.append_nil]⟩

/-- Members that fit in front of a cut within another member are among those before that one. -/
private theorem prefix_of_lt {front : List WholeMember} {cur : WholeMember} (hpast : past <+: ms)
    (hfront : front ++ [cur] <+: ms)
    (hlt : (fileOf past).length < (fileOf front).length + cur.bytes.length) : past <+: front := by
  have hlength : (fileOf (front ++ [cur])).length =
      (fileOf front).length + cur.bytes.length := by simp
  rcases List.prefix_concat_iff.1 (prefix_of_length_le hpast hfront (by omega)) with rfl | h
  · omega
  · exact h

/-! ### What was delivered, and how it ended -/

namespace DecodesTo

/-- What was delivered is the beginning of what the members hold. -/
theorem prefix_data (h : DecodesTo ms F done ending) : done <+: dataOf ms := by
  cases h with
  | whole hpast => exact dataOf_mono hpast
  | cut hpast _ _ _ _ hdone =>
      refine hdone.trans ?_
      simpa using dataOf_mono hpast

/-- All that the members hold that are there in full was delivered. -/
theorem whole_prefix (h : DecodesTo ms F done ending) (hpast : past <+: ms)
    (hle : (fileOf past).length ≤ F.length) : dataOf past <+: done := by
  cases h with
  | whole hfront _ hF => exact dataOf_mono (prefix_of_length_le hpast hfront (by rwa [← hF]))
  | cut hfront _ hlt _ hdone =>
      exact (dataOf_mono (prefix_of_lt hpast hfront (Nat.lt_of_le_of_lt hle hlt))).trans hdone

theorem ok_of_atEnd (h : DecodesTo ms F done ending) (hend : AtEnd ms F) : ending = .ok () := by
  cases h with
  | whole => rfl
  | @cut front cur _ hfront hle hlt hsame _ _ =>
      obtain ⟨past, hpast, hne, rfl⟩ := hend
      have hbefore := prefix_of_lt hpast hfront hlt
      -- No member ends behind those before the cut, so the file would have to end with them.
      have hlength := Nat.le_antisymm (fileOf_mono hbefore).length_le hle
      rw [hsame hlength] at hbefore
      exact absurd (List.prefix_nil.1 hbefore) hne

theorem truncated_of_not_atEnd (h : DecodesTo ms F done ending) (hend : ¬AtEnd ms F) :
    ending = .error .truncated := by
  cases h with
  | whole hpast hne hF => exact absurd ⟨_, hpast, hne, hF⟩ hend
  | cut => rfl

/-- Of the whole file, all is delivered. -/
theorem eq_of_whole (h : DecodesTo ms (fileOf ms) done ending) :
    done = dataOf ms ∧ ending = .ok () := by
  cases h with
  | whole hpast _ hF =>
      obtain ⟨rest, rfl⟩ := hpast
      rw [fileOf_append, List.append_right_eq_self] at hF
      obtain rfl := fileOf_eq_nil hF
      exact ⟨by rw [List.append_nil], rfl⟩
  | cut hpast _ hlt =>
      have hle := (fileOf_mono hpast).length_le
      rw [fileOf_append, List.length_append, fileOf_cons, fileOf_nil, List.append_nil] at hle
      omega

end DecodesTo
end TraceStore.Gzip
