import TraceStore.Proofs.Gzip.Cut
import TraceStore.Proofs.Gzip.Encoder
import TraceStore.Proofs.Gzip.Rounds

/-!
# Decoding a file of members

The members of a file are delivered as one stream. If a part of the file is missing at its end, what
the members hold is delivered up to there, and the missing part is noticed unless it starts with a
member: `Decoder.Stands.read`.
-/
namespace TraceStore.Gzip

open Deflate

/-- Of two ways to cut a list, the one that cuts first leaves the other's piece. -/
private theorem exists_of_append {α : Type} {a b c d : List α} (h : a ++ b = c ++ d)
    (hle : c.length ≤ a.length) : ∃ rest, a = c ++ rest ∧ rest ++ b = d := by
  refine ⟨a.drop c.length, ?_, ?_⟩
  · have hc : (a ++ b).take c.length = c := by rw [h, List.take_left]
    rw [List.take_append_of_le_length hle] at hc
    exact (List.take_append_drop c.length a).symm.trans (by rw [hc])
  · have hd : (a ++ b).drop c.length = d := by rw [h, List.drop_left]
    rwa [List.drop_append_of_le_length hle] at hd

namespace Decoder

/-- A decoder that has delivered `done`, and promises no more than so many bytes, in a file `F` that
is the beginning of the file of some members. -/
inductive Stands (d : Disk) (id : Nat) (ms : List WholeMember) (F : List UInt8) :
    List UInt8 → Nat → Decoder → Prop
  | body {past cur future m source more lost promise} : ms = past ++ cur :: future →
      F ++ lost = fileOf ms → (fileOf past).length < F.length →
      m.Decodes ((trailerOf cur.data).data.toList ++ fileOf future) cur.data (more ++ lost) →
      Fetches d id more source → m.promise more ≤ promise →
      Stands d id ms F (dataOf past ++ cur.data.take m.delivered) promise ⟨source, .body m⟩
  | finished {source done promise} : DecodesTo ms F done (.ok ()) →
      Stands d id ms F done promise ⟨source, .finished⟩
  | broken {source done promise} : DecodesTo ms F done (.error .truncated) →
      Stands d id ms F done promise ⟨source, .broken .truncated⟩

/-- What a request comes to of a decoder that has delivered `done` and promises no more than so many
bytes: some of the bytes that are left, or none where the file ends with a member, or a failure
where it ends within one. -/
inductive Answers (d : Disk) (id : Nat) (ms : List WholeMember) (F done : List UInt8)
    (promise count : Nat) : Except StreamFault ByteArray × Decoder → Prop
  | more {bytes promise' decoder} : bytes.size ≠ 0 → bytes.size ≤ count →
      bytes.size + promise' ≤ promise →
      Stands d id ms F (done ++ bytes.data.toList) promise' decoder →
      Answers d id ms F done promise count (.ok bytes, decoder)
  | ended {decoder} : DecodesTo ms F done (.ok ()) → Stands d id ms F done promise decoder →
      Answers d id ms F done promise count (.ok .empty, decoder)
  | truncated {decoder} : DecodesTo ms F done (.error .truncated) →
      Answers d id ms F done promise count (.error .truncated, decoder)

variable {d : Disk} {id : Nat} {ms past future : List WholeMember} {cur : WholeMember}
  {F more lost done : List UInt8} {promise count : Nat} {source : FileReader} {m : Member}
  {decoder : Decoder}

theorem Stands.mono {promise' : Nat} (h : Stands d id ms F done promise decoder)
    (hle : promise ≤ promise') : Stands d id ms F done promise' decoder := by
  cases h with
  | body hms hF hpast h hsource hpromise =>
      exact .body hms hF hpast h hsource (Nat.le_trans hpromise hle)
  | finished hends => exact .finished hends
  | broken hends => exact .broken hends

/-- A decoder can tell how many bytes it promises at most. -/
theorem Stands.remaining (h : Stands d id ms F done promise decoder) :
    Stands d id ms F done (decoder.remaining d) decoder := by
  cases h with
  | @body past cur future m source more lost _ hms hF hpast h hsource _ =>
      refine .body hms hF hpast h hsource ?_
      simp only [Member.promise, Decoder.remaining, hsource.ahead.unread_eq, maxExpansion,
        Inflate.maxCopyLength]
      omega
  | finished hends => exact .finished hends
  | broken hends => exact .broken hends

/-- What was delivered is the beginning of what the members hold. -/
theorem Stands.prefix_data (h : Stands d id ms F done promise decoder) : done <+: dataOf ms := by
  cases h with
  | body hms =>
      subst hms
      rw [dataOf_append, dataOf_cons]
      exact (List.prefix_append_right_inj _).2 ((List.take_prefix ..).trans (List.prefix_append ..))
  | finished hends => exact hends.prefix_data
  | broken hends => exact hends.prefix_data

/-- The number of bytes that are there of the file is that of its members without what is missing.
-/
private theorem length_of_cut (hms : ms = past ++ cur :: future) (hF : F ++ lost = fileOf ms) :
    F.length + lost.length =
      (fileOf past).length + (cur.bytes.length + (fileOf future).length) := by
  have hlen := congrArg List.length hF
  rw [hms] at hlen
  simpa using hlen

private theorem prefix_of_eq (hms : ms = past ++ cur :: future) : past ++ [cur] <+: ms :=
  ⟨future, by rw [hms, List.append_assoc, List.singleton_append]⟩

/-- What a decoder comes to that was in front of a member. -/
private theorem stands_afterHeader (hms : ms = past ++ cur :: future) (hF : F ++ lost = fileOf ms)
    (hmore : more ++ lost = cur.bytes ++ fileOf future) (hnone : more = [] → past = [])
    (hsource : Fetches d id more source) :
    (∃ source', readHeader source d = (.ok (), source') ∧ source'.unread d ≤ more.length ∧
      Stands d id ms F (dataOf past) (Inflate.maxCopyLength * (8 * more.length))
        ⟨source', .body .start⟩) ∨
    (∃ source', readHeader source d = (.error .truncated, source') ∧
      DecodesTo ms F (dataOf past) (.error .truncated)) := by
  have hlength := length_of_cut hms hF
  have hrest := congrArg List.length hmore
  rw [List.length_append, List.length_append] at hrest
  obtain ⟨header, stream, hheader, hstream, hbytes⟩ := cur.isMember
  have hsize := hheader.length_eq
  have hten : fixedHeaderSize = 10 := rfl
  rw [hbytes, List.append_assoc] at hmore
  by_cases hshort : more.length < fixedHeaderSize
  · obtain ⟨source', hread⟩ := readHeader_of_short hsource hshort
    have hcur : cur.bytes.length = header.length + (stream.length + 8) := by
      rw [hbytes, List.length_append, List.length_append, length_toList, size_trailerOf]
    refine .inr ⟨source', hread, .cut (prefix_of_eq hms) (by omega) (by omega)
      (fun hsame => hnone ?_) List.prefix_rfl (List.prefix_append ..)⟩
    exact List.length_eq_zero_iff.1 (by omega)
  · obtain ⟨more', rfl, hmore'⟩ := exists_of_append hmore (by omega)
    obtain ⟨hread, hsource'⟩ := hheader.readHeader hsource
    generalize (source.read fixedHeaderSize d).2 = source' at hread hsource'
    rw [List.append_assoc] at hmore'
    have hdecodes := Member.decodes_start hstream ((trailerOf cur.data).data.toList ++ fileOf future)
    rw [← hmore'] at hdecodes
    rw [List.length_append] at hrest hshort
    have hstands : Stands d id ms F (dataOf past ++ cur.data.take Member.start.delivered)
        (Inflate.maxCopyLength * (8 * (header ++ more').length)) ⟨source', .body .start⟩ := by
      refine .body hms hF ?_ hdecodes hsource' ?_
      · omega
      · show 0 + Inflate.maxCopyLength * (8 * (0 + more'.length) - 0) ≤ _
        rw [List.length_append, Inflate.maxCopyLength]
        omega
    rw [show Member.start.delivered = 0 from rfl, List.take_zero, List.append_nil] at hstands
    refine .inl ⟨source', hread, ?_, hstands⟩
    rw [hsource'.ahead.unread_eq, List.length_append]
    omega

/-- What a decoder comes to where the file ends within the trailer of a member, or before it. -/
private theorem nextMember_of_short (hms : ms = past ++ cur :: future) (hF : F ++ lost = fileOf ms)
    (hpast : (fileOf past).length < F.length) (hsource : Fetches d id more source)
    (hshort : more.length < (trailerOf cur.data).size)
    (htail : (trailerOf cur.data).size + (fileOf future).length ≤ more.length + lost.length) :
    ∃ decoder, nextMember m source d = (.error .truncated, decoder) ∧
      DecodesTo ms F (dataOf past ++ cur.data.take m.delivered) (.error .truncated) := by
  have hlength := length_of_cut hms hF
  rw [size_trailerOf] at hshort htail
  obtain ⟨source', hread⟩ := exactly_of_short hsource hshort
  exact ⟨⟨source', .body m⟩, by rw [nextMember, hread], .cut (prefix_of_eq hms) (by omega)
    (by omega) (by omega) (List.prefix_append ..)
    ((List.prefix_append_right_inj _).2 (List.take_prefix ..))⟩

/-- What a decoder comes to behind the stream of a member. -/
private theorem nextMember_of_trailer (hms : ms = past ++ cur :: future)
    (hF : F ++ lost = fileOf ms)
    (h : m.Decodes ((trailerOf cur.data).data.toList ++ fileOf future) cur.data
      (((trailerOf cur.data).data.toList ++ more) ++ lost))
    (hsource : Fetches d id ((trailerOf cur.data).data.toList ++ more) source)
    (hdelivered : m.delivered = cur.data.length) (hmore : more ++ lost = fileOf future) :
    (∃ decoder, nextMember m source d = (.ok (), decoder) ∧
      decoder.source.unread d < ((trailerOf cur.data).data.toList ++ more).length ∧
      Stands d id ms F (dataOf past ++ cur.data.take m.delivered)
        (m.promise ((trailerOf cur.data).data.toList ++ more)) decoder) ∨
    (∃ decoder, nextMember m source d = (.error .truncated, decoder) ∧
      DecodesTo ms F (dataOf past ++ cur.data.take m.delivered) (.error .truncated)) := by
  have htrailer : (trailerOf cur.data).data.toList.length = 8 := by
    rw [length_toList, size_trailerOf]
  obtain ⟨hread, hsource₁⟩ := exactly_of_ahead hsource
  generalize (source.read (trailerOf cur.data).size d).2 = source₁ at hread hsource₁
  obtain ⟨source₂, hfetch, hsource₂, hnone⟩ := hsource₁.fetch
  rw [size_trailerOf] at hread
  have hms' : ms = (past ++ [cur]) ++ future := by rw [hms]; simp
  have hdone : dataOf past ++ cur.data.take m.delivered = dataOf (past ++ [cur]) := by
    rw [hdelivered, List.take_length, dataOf_append, dataOf_cons, dataOf_nil, List.append_nil]
  have hpromise : Inflate.maxCopyLength * (8 * more.length) ≤
      m.promise ((trailerOf cur.data).data.toList ++ more) := by
    have hbit := h.inflate.bit_le
    simp only [Member.promise, Inflate.maxCopyLength, List.length_append, htrailer]
    omega
  rw [hdone, nextMember, hread]
  simp only [h.trailerMatches hdelivered, hfetch]
  by_cases hpending : source₂.pending.isEmpty
  · -- The file ends with the member.
    obtain rfl := hnone (isEmpty_iff.1 hpending)
    have hwhole : F = fileOf (past ++ [cur]) := by
      rw [hms', fileOf_append, ← hmore, List.nil_append] at hF
      exact List.append_cancel_right hF
    refine .inl ⟨⟨source₂, .finished⟩, by simp [hpending], ?_,
      .finished (.whole (prefix_of_eq hms) (by simp) hwhole)⟩
    show source₂.unread d < _
    rw [hsource₂.ahead.unread_eq, List.append_nil, htrailer]
    decide
  · have hsome : more ≠ [] := by
      rintro rfl
      obtain ⟨data, -, hdata⟩ := hsource₂.ahead
      exact hpending (isEmpty_iff.2 (toList_eq_nil_iff.1 (List.append_eq_nil_iff.1 hdata.symm).1))
    cases future with
    | nil => exact absurd (List.append_eq_nil_iff.1 hmore).1 hsome
    | cons next future =>
        rcases stands_afterHeader hms' hF hmore (fun hnil => absurd hnil hsome) hsource₂ with
          ⟨source₃, hheader, hunread, hstands⟩ | ⟨source₃, hheader, hends⟩
        · refine .inl ⟨⟨source₃, .body .start⟩, ?_, ?_, ?_⟩
          · simp [hpending, hheader, afterHeader]
          · show source₃.unread d < _
            rw [List.length_append, htrailer]
            omega
          · exact hstands.mono hpromise
        · exact .inr ⟨⟨source₃, .broken .truncated⟩, by simp [hpending, hheader, afterHeader],
            hends⟩

/-- What a decoder comes to behind the stream of a member, or where the file ends within it. -/
private theorem nextMember_of_decodes (hms : ms = past ++ cur :: future)
    (hF : F ++ lost = fileOf ms) (hpast : (fileOf past).length < F.length)
    (h : m.Decodes ((trailerOf cur.data).data.toList ++ fileOf future) cur.data (more ++ lost))
    (hsource : Fetches d id more source)
    (hend : (m.delivered = cur.data.length ∧
        more ++ lost = (trailerOf cur.data).data.toList ++ fileOf future) ∨
      (more = [] ∧ ((trailerOf cur.data).data.toList ++ fileOf future).length < lost.length)) :
    (∃ decoder, nextMember m source d = (.ok (), decoder) ∧ decoder.source.unread d < more.length ∧
      Stands d id ms F (dataOf past ++ cur.data.take m.delivered) (m.promise more) decoder) ∨
    (∃ decoder, nextMember m source d = (.error .truncated, decoder) ∧
      DecodesTo ms F (dataOf past ++ cur.data.take m.delivered) (.error .truncated)) := by
  have htrailer : (trailerOf cur.data).data.toList.length = (trailerOf cur.data).size :=
    length_toList _
  rcases hend with ⟨hdelivered, hmore⟩ | ⟨rfl, htail⟩
  · by_cases hshort : more.length < (trailerOf cur.data).size
    · have hrest := congrArg List.length hmore
      rw [List.length_append, List.length_append, htrailer] at hrest
      exact .inr (nextMember_of_short hms hF hpast hsource hshort (Nat.le_of_eq hrest.symm))
    · obtain ⟨more, rfl, hmore'⟩ := exists_of_append hmore (by omega)
      exact nextMember_of_trailer hms hF h hsource hdelivered hmore'
  · rw [List.length_append, htrailer] at htail
    refine .inr (nextMember_of_short hms hF hpast hsource ?_ ?_)
    · rw [size_trailerOf]
      decide
    · rw [List.length_nil, Nat.zero_add]
      exact Nat.le_of_lt htail

/-- Every member that holds nothing takes its header and trailer from the file. -/
private theorem readWithin_of_stands (hcount : 0 < count) (fuel : Nat) :
    ∀ (decoder : Decoder) (promise : Nat), decoder.source.unread d < fuel →
      Stands d id ms F done promise decoder →
      Answers d id ms F done promise count (readWithin count d fuel decoder) := by
  induction fuel with
  | zero => intro decoder promise hfuel; omega
  | succ fuel ih =>
      intro decoder promise hfuel h
      cases h with
      | finished hends => exact .ended hends (.finished hends)
      | broken hends => exact .truncated hends
      | @body past cur future m source more lost _ hms hF hpast h hsource hpromise =>
          obtain ⟨bytes, m', source', more', hread, hdelivered, hend⟩ := h.read hsource hcount
          have hpaid := hdelivered.promise_le
          rw [readWithin]
          simp only [hread]
          by_cases hbytes : bytes.size = 0
          · have hsame : cur.data.take m'.delivered = cur.data.take m.delivered := by
              rw [hdelivered.take_eq, toList_eq_nil_iff.2 hbytes, List.append_nil]
            rw [if_neg (by simpa using isEmpty_iff.2 hbytes)]
            have hless' : more'.length ≤ more.length := by
              rcases hend hbytes with ⟨-, hmore⟩ | ⟨rfl, -⟩
              · have htail := h.tail_le
                rw [← hmore, List.length_append, List.length_append] at htail
                omega
              · exact Nat.zero_le _
            have hunread : source.unread d = more.length := hsource.ahead.unread_eq
            replace hfuel : source.unread d < fuel + 1 := hfuel
            rcases nextMember_of_decodes hms hF hpast hdelivered.member hdelivered.source
              (hend hbytes) with ⟨decoder, hnext, hless, hstands⟩ | ⟨decoder, hnext, hends⟩
            · rw [hsame] at hstands
              rw [hnext]
              exact ih decoder promise (by omega) (hstands.mono (by omega))
            · rw [hsame] at hends
              rw [hnext]
              exact .truncated hends
          · rw [if_pos (by rw [Bool.not_eq_true', ← Bool.not_eq_true, isEmpty_iff]; exact hbytes)]
            have hpromise' : bytes.size + m'.promise more' ≤ promise := by omega
            refine .more hbytes hdelivered.size_le hpromise' ?_
            rw [List.append_assoc, ← hdelivered.take_eq]
            exact .body hms hF hpast hdelivered.member hdelivered.source (Nat.le_refl _)

/-- A request gets some of the bytes that are left. If it gets none, the file has ended with a
member, or it ends within one, and then the request fails. -/
theorem Stands.read (h : Stands d id ms F done promise decoder) (hcount : 0 < count) :
    Answers d id ms F done promise count (decoder.read count d) :=
  readWithin_of_stands hcount _ decoder promise (Nat.lt_add_of_pos_right (by decide)) h

/-- Where a decoder stands that is opened on a file. -/
theorem stands_start (hms : ms ≠ []) (hF : F <+: fileOf ms)
    (hnode : d.node? id = some (.file ⟨F.toArray⟩)) :
    Stands d id ms F [] ((Decoder.start id d).remaining d) (Decoder.start id d) := by
  obtain ⟨cur, future, rfl⟩ := List.exists_cons_of_ne_nil hms
  obtain ⟨lost, hF⟩ := hF
  have hsource : Fetches d id F (FileReader.start id blockSize) :=
    ⟨FileReader.ahead_start hnode blockSize, rfl, (by decide : 0 < blockSize)⟩
  rw [Decoder.start]
  rcases stands_afterHeader (rfl : cur :: future = [] ++ cur :: future) hF hF (fun _ => rfl)
    hsource with ⟨source, hread, -, hstands⟩ | ⟨source, hread, hends⟩
  · rw [hread]
    exact hstands.remaining
  · rw [hread]
    exact .broken hends

end Decoder

/-! ### Whole files -/

/-- A member is delivered in full, whatever the sizes of the requests are. -/
theorem WholeMember.delivers (w : WholeMember) {d : Disk} {id : Nat}
    (hnode : d.node? id = some (.file ⟨w.bytes.toArray⟩)) :
    Delivers (fun count decoder => Decoder.read count decoder d) w.data (Decoder.start id d) := by
  have hfile : fileOf [w] = w.bytes := by simp
  have hdata : dataOf [w] = w.data := by simp
  refine .of_invariant (fun rest decoder => ∃ done promise,
    w.data = done ++ rest ∧ Decoder.Stands d id [w] w.bytes done promise decoder) ?_
    ⟨[], _, rfl, Decoder.stands_start (by simp) ⟨[], by rw [hfile, List.append_nil]⟩ hnode⟩
  rintro rest decoder ⟨done, promise, hrest, hstands⟩ count hcount
  have hanswers := hstands.read hcount
  generalize decoder.read count d = answer at hanswers ⊢
  cases hanswers with
  | @more bytes promise' decoder' hsize hle _ hstands' =>
      obtain ⟨rest', hrest'⟩ := hstands'.prefix_data
      rw [hdata, hrest, List.append_assoc] at hrest'
      exact ⟨bytes, decoder', rest', rfl, (List.append_cancel_left hrest').symm, hle,
        fun hnone => absurd hnone hsize, _, _, by rw [hrest, ← hrest', List.append_assoc], hstands'⟩
  | @ended decoder' hends hstands' =>
      rw [← hfile] at hends
      rw [hends.eq_of_whole.1, hdata] at hrest hstands'
      obtain rfl := List.append_right_eq_self.1 hrest.symm
      exact ⟨.empty, decoder', [], rfl, rfl, Nat.zero_le _, fun _ => rfl, _, _, hrest, hstands'⟩
  | truncated hends =>
      rw [← hfile] at hends
      cases hends.eq_of_whole.2

/-- What was requested of an encoder that writes members, a decoder gets back. -/
theorem WritesMembers.lossless {ε : Type} [StreamEncoder ε] (h : WritesMembers ε) :
    StreamLossless Decoder ε := by
  intro o d id requests ho hnode
  obtain ⟨e, d', F, hrun, hfinish, hmember⟩ := h.member o d id requests ho hnode
  exact ⟨e, d', F, hrun, hfinish, hmember.magic, fun d'' id' hnode' =>
    WholeMember.delivers ⟨_, _, hmember⟩ hnode'⟩

theorem lossless : StreamLossless Decoder Encoder := Encoder.writesMembers.lossless

end TraceStore.Gzip
