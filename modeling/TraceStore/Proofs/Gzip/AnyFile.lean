import TraceStore.Proofs.Deflate.Run
import TraceStore.Proofs.Gzip.Header
import TraceStore.Proofs.Source

/-!
# Decoding any file

Whatever a file holds, a decoder on it delivers no more bytes than the bits of the file can stand
for. It delivers a stream and ends cleanly if the rest of the file is that of a member and then of
whole members: `Decoder.Streams`. Otherwise it fails: `Decoder.sources`.
-/
namespace TraceStore.Gzip

open Deflate

variable {d d' : Disk} {id : Nat} {source source' : FileReader} {m m' : Member} {count : Nat}
  {s more more' tail written : List UInt8} {bytes : ByteArray}

theorem Fetches.unique (h : Fetches d id s source) (h' : Fetches d id more source) : s = more := by
  obtain ⟨data, hnode, rfl⟩ := h.ahead
  obtain ⟨data', hnode', rfl⟩ := h'.ahead
  obtain rfl := Node.file.inj (Option.some.inj (hnode.symm.trans hnode'))
  rfl

/-! ### Members -/

namespace Member

/-- A member that decodes whatever its input is. -/
structure Sound (m : Member) : Prop where
  inflate : m.inflate.Sound
  tight : m.inflate.Tight
  delivered_le : m.delivered ≤ m.inflate.output.size
  crc_eq : m.crc = Crc32.compute ⟨m.done.toArray⟩

theorem sound_start : start.Sound := ⟨Inflate.sound_start, .inl (Nat.le_refl _), Nat.le_refl _, rfl⟩

theorem Sound.decodes (h : m.Sound) (hinflate : m.inflate.Decodes tail written more) :
    m.Decodes tail written more where
  inflate := hinflate
  tail_le := h.tight.tail_le hinflate
  delivered_le := h.delivered_le
  crc_eq := by rw [Member.take_delivered hinflate h.delivered_le, h.crc_eq]

/-- A decoder of a member that has come from one place of a file to another and delivered `bytes` on
the way. If it stands in a stream afterwards, it stood in that before. -/
structure Leads (d : Disk) (id count : Nat) (m : Member) (more : List UInt8) (bytes : ByteArray)
    (m' : Member) (source' : FileReader) (more' : List UInt8) : Prop where
  size_le : bytes.size ≤ count
  sound : m'.Sound
  source : Fetches d id more' source'
  done_eq : m'.done = m.done ++ bytes.data.toList
  promise_le : bytes.size + m'.promise more' ≤ m.promise more
  decodes : ∀ {tail written}, m'.inflate.Decodes tail written more' →
    m.inflate.Decodes tail written more

theorem Leads.trans {m₁ : Member} {bytes' : ByteArray} {source₁ : FileReader} {more₁ : List UInt8}
    (h : Leads d id count m more bytes m₁ source₁ more₁)
    (h' : Leads d id (count - bytes.size) m₁ more₁ bytes' m' source' more') :
    Leads d id count m more (bytes ++ bytes') m' source' more' where
  size_le := by
    have hsize := h.size_le
    have hsize' := h'.size_le
    rw [ByteArray.size_append]
    omega
  sound := h'.sound
  source := h'.source
  done_eq := by
    rw [h'.done_eq, h.done_eq, ByteArray.data_append, Array.toList_append, List.append_assoc]
  promise_le := by
    have hpromise := h.promise_le
    have hpromise' := h'.promise_le
    rw [ByteArray.size_append]
    omega
  decodes := h.decodes ∘ h'.decodes

/-- A member whose stream has ended in front of `more`, and of which all has been delivered. -/
structure Ended (m : Member) (more : List UInt8) : Prop where
  decodes : m.inflate.Decodes more m.inflate.output.data.toList more
  delivered_eq : m.delivered = m.inflate.output.size

theorem Sound.deliver (h : m.Sound) (hsource : Fetches d id more source) (count : Nat) :
    ∃ bytes m', m.deliver count = (bytes, m') ∧ bytes.size = min count m.ready ∧
      Leads d id count m more bytes m' source more ∧
      (bytes.size = 0 → m.Ended more → m'.Ended more) := by
  obtain ⟨bytes, m', hdeliver, hsize, hhands⟩ := hands_deliver h.delivered_le count
  have hinflate := hhands.inflate_eq
  refine ⟨bytes, m', hdeliver, hsize, ⟨by omega, ⟨?_, ?_, hhands.delivered_le,
    hhands.crc_eq h.crc_eq⟩, hsource, hhands.done_eq, Nat.le_of_eq (hhands.promise_eq more), ?_⟩,
    fun hnone hended => ⟨?_, ?_⟩⟩
  · rw [hinflate]
    exact h.inflate
  · rw [hinflate]
    exact h.tight
  · rw [hinflate]
    exact fun hafter => hafter
  · rw [hinflate]
    exact hended.decodes
  · rw [hinflate, hhands.delivered_eq, hnone]
    exact hended.delivered_eq

/-- What a round comes to. It takes all of the fetched input in if that does not suffice. -/
theorem Sound.round (h : m.Sound) (hsource : Fetches d id more source) (count : Nat) :
    ∃ halt m' source' more', m.round source = (halt, m', source') ∧
      Leads d id count m more .empty m' source' more' ∧
      match halt with
      | .full => m'.ready ≠ 0
      | .starved => source'.pending.size = 0 ∧ True ∧ more = source.pending.data.toList ++ more'
      | .invalid => True
      | .finished => m'.ready = 0 → m'.Ended more' := by
  obtain ⟨behind, rfl, hexchange⟩ := hsource.exists_behind
  have hbit := h.inflate.bit_le
  obtain ⟨halt, inflate, hrun, hleads, hstopped⟩ :=
    (h.inflate.feed source.pending).run m.nextHorizon
  obtain ⟨m', back, hround, hhalts⟩ := halts_round hrun
  have hgrows : m.inflate.output.size ≤ inflate.output.size := hleads.begins.length_le
  have hdelivered : m.delivered ≤ inflate.output.size := Nat.le_trans h.delivered_le hgrows
  have hdone : m'.done = m.done := by
    obtain ⟨rest, hrest⟩ := hleads.begins
    rw [done, done, hhalts.output_eq, hhalts.delivered_eq, ← hrest]
    exact List.take_append_of_le_length (by rw [length_toList]; exact h.delivered_le)
  have hinflate : m'.inflate.Sound ∧ m'.inflate.Tight ∧
      (∀ {tail written}, m'.inflate.Decodes tail written (back.data.toList ++ behind) →
        inflate.Decodes tail written behind) ∧
      (halt = .finished → m'.inflate.Decodes (back.data.toList ++ behind)
        m'.inflate.output.data.toList (back.data.toList ++ behind)) := by
    rcases hhalts.split with ⟨rfl, hkept, rfl⟩ | ⟨-, hgiven⟩
    · rw [hkept]
      exact ⟨hleads.sound, hstopped, fun hafter => hafter, fun hfinished => by cases hfinished⟩
    · obtain ⟨rfl, hkept⟩ := Prod.mk.inj hgiven
      rw [hkept]
      refine ⟨hleads.sound.giveBack, inflate.tight_giveBack,
        (Inflate.decodes_giveBack_iff hleads.sound.bit_le).1, ?_⟩
      rintro rfl
      exact hleads.sound.decodes_of_finished hstopped _
  obtain ⟨hsound, htight, hback, hfinished⟩ := hinflate
  refine ⟨halt, m', _, back.data.toList ++ behind, hround, ⟨Nat.zero_le _, ⟨hsound, htight, ?_, ?_⟩,
    hexchange back, ?_, ?_, fun hafter => ?_⟩, ?_⟩
  · rw [hhalts.delivered_eq, hhalts.output_eq]
    exact hdelivered
  · rw [hhalts.crc_eq, hdone]
    exact h.crc_eq
  · rw [hdone, ByteArray.data_empty, List.append_nil]
  · rw [ByteArray.size_empty, Nat.zero_add]
    exact hhalts.promise_le hbit h.delivered_le hleads.input_eq hleads.sound.bit_le hgrows
      hleads.expands behind
  · exact (Inflate.decodes_feed_iff hbit).1 (hleads.decodes (hback hafter))
  · cases halt with
    | starved =>
        obtain rfl := hhalts.back_eq
        exact ⟨rfl, trivial, rfl⟩
    | invalid => trivial
    | full => exact hhalts.ready_ne_zero hstopped
    | finished =>
        intro hready
        refine ⟨hfinished rfl, ?_⟩
        rw [hhalts.delivered_eq_size hdelivered hready, hhalts.output_eq]

/-- Any members are read to the ends of their streams or of the file, or fail. -/
theorem reading_sound (d : Disk) (id : Nat) :
    Reading d id (fun m _ => m.Sound) (Leads d id) Ended (fun _ => True) True where
  left h := ⟨h.size_le, h.sound, h.source⟩
  trans := Leads.trans
  deliver := Sound.deliver
  round := Sound.round

/-- A request fails or gets some bytes, and none only at the end of the stream or of the file. -/
theorem Sound.read (h : m.Sound) (hsource : Fetches d id more source) (hcount : 0 < count) :
    (∃ fault m' source', m.read count source d = (.error fault, m', source')) ∨
    ∃ bytes m' source' more', m.read count source d = (.ok bytes, m', source') ∧
      Leads d id count m more bytes m' source' more' ∧
      (bytes.size = 0 → m'.Ended more' ∨ more' = []) := by
  rcases (reading_sound d id).read h hsource hcount with
    ⟨-, hfailed⟩ | ⟨bytes, m', source', more', hread, hleads, hend⟩
  · exact .inl hfailed
  · refine .inr ⟨bytes, m', source', more', hread, hleads, fun hnone => ?_⟩
    exact (hend hnone).imp_right And.left

/-- A trailer that is accepted is that of what was delivered. -/
theorem Sound.eq_trailerOf (h : m.Sound) (hended : m.Ended more) {trailer : ByteArray}
    (hsize : trailer.size = 8) (hmatches : m.trailerMatches trailer = true) :
    trailer = trailerOf m.inflate.output.data.toList := by
  have hdone : m.done = m.inflate.output.data.toList :=
    List.take_of_length_le (Nat.le_of_eq (by rw [length_toList, hended.delivered_eq]))
  have hlength := length_toList trailer
  rw [hsize] at hlength
  rw [trailerMatches, Bool.and_eq_true, beq_iff_eq, beq_iff_eq, LittleEndian.decodeAt,
    LittleEndian.decodeAt, toList_extract, toList_extract, List.drop_zero] at hmatches
  obtain ⟨hcheck, hsame⟩ := hmatches
  have hfront := LittleEndian.encode_decode (trailer.data.toList.take 4)
  rw [List.length_take, hlength, hcheck] at hfront
  have hbehind := LittleEndian.encode_decode (trailer.data.toList.drop 4)
  rw [List.take_of_length_le (Nat.le_of_eq (by rw [List.length_drop, hlength]))] at hsame
  rw [List.length_drop, hlength, hsame, hended.delivered_eq, show 2 ^ 32 = 256 ^ 4 from rfl,
    LittleEndian.encode_mod] at hbehind
  apply eq_of_toList_eq
  rw [← List.take_append_drop 4 trailer.data.toList, ← hfront, ← hbehind, h.crc_eq, hdone]
  simp [trailerOf]

end Member

/-! ### Files -/

/-- The bytes of whole members, and what these hold. -/
inductive Members : List UInt8 → List UInt8 → Prop
  | nil : Members [] []
  | cons {header more data rest s : List UInt8} : Takes readHeader header () →
      Member.start.Decodes ((trailerOf data).data.toList ++ rest) data more → Members rest s →
      Members (header ++ more) (data ++ s)

namespace Decoder

/-- A decoder that has `s` to deliver, from the member at hand and the whole ones behind it, and ends
cleanly after that. -/
inductive Streams (d : Disk) (id : Nat) : List UInt8 → Decoder → Prop
  | body {m : Member} {source : FileReader} {more data rest s : List UInt8} :
      Fetches d id more source →
      m.Decodes ((trailerOf data).data.toList ++ rest) data more → Members rest s →
      Streams d id (data.drop m.delivered ++ s) ⟨source, .body m⟩
  | finished {source : FileReader} : Streams d id [] ⟨source, .finished⟩

/-- A decoder on any file, that delivers no more than so many bytes. -/
inductive Rests (d : Disk) (id : Nat) : Nat → Decoder → Prop
  | body {m : Member} {source : FileReader} {more : List UInt8} {promise : Nat} :
      Fetches d id more source → m.Sound → m.promise more ≤ promise →
      Rests d id promise ⟨source, .body m⟩
  | finished {source : FileReader} {promise : Nat} : Rests d id promise ⟨source, .finished⟩
  | broken {source : FileReader} {fault : StreamFault} {promise : Nat} :
      Rests d id promise ⟨source, .broken fault⟩

variable {promise : Nat} {decoder decoder' : Decoder}

theorem Streams.frame (h : Streams d id s decoder) (hsame : d'.node? id = d.node? id) :
    Streams d' id s decoder := by
  cases h with
  | body hsource hdecodes hrest => exact .body (hsource.frame hsame) hdecodes hrest
  | finished => exact .finished

theorem Rests.frame (h : Rests d id promise decoder) (hsame : d'.node? id = d.node? id) :
    Rests d' id promise decoder := by
  cases h with
  | body hsource hsound hpromise => exact .body (hsource.frame hsame) hsound hpromise
  | finished => exact .finished
  | broken => exact .broken

theorem Rests.mono {promise' : Nat} (h : Rests d id promise decoder) (hle : promise ≤ promise') :
    Rests d id promise' decoder := by
  cases h with
  | body hsource hsound hpromise => exact .body hsource hsound (Nat.le_trans hpromise hle)
  | finished => exact .finished
  | broken => exact .broken

/-- A decoder can tell how many bytes it delivers at most. -/
theorem Rests.remaining (h : Rests d id promise decoder) :
    Rests d id (decoder.remaining d) decoder := by
  cases h with
  | @body m source more _ hsource hsound _ =>
      refine .body hsource hsound ?_
      simp only [Member.promise, Decoder.remaining, hsource.ahead.unread_eq, maxExpansion,
        Inflate.maxCopyLength]
      omega
  | finished => exact .finished
  | broken => exact .broken

/-- Behind a trailer that is accepted, the file ends or the header of another member is read. -/
private theorem nextMember_of_matches {trailer : ByteArray} {rest : List UInt8}
    (hsource : Fetches d id (trailer.data.toList ++ rest) source) (hsize : trailer.size = 8)
    (hmatches : m.trailerMatches trailer = true) :
    ∃ source', Fetches d id rest source' ∧
      ((rest = [] ∧ nextMember m source d = (.ok (), ⟨source', .finished⟩)) ∨
        (rest ≠ [] ∧ nextMember m source d = ((readHeader source' d).1,
          ⟨(readHeader source' d).2, afterHeader (readHeader source' d).1⟩))) := by
  obtain ⟨hread, hsource₁⟩ := exactly_of_ahead hsource
  generalize (source.read trailer.size d).2 = source₁ at hread hsource₁
  rw [hsize] at hread
  obtain ⟨source₂, hfetch, hsource₂, hend⟩ := hsource₁.fetch
  refine ⟨source₂, hsource₂, ?_⟩
  rw [nextMember, hread]
  simp only [hmatches, hfetch]
  by_cases hpending : source₂.pending.isEmpty
  · exact .inl ⟨hend (isEmpty_iff.1 hpending), by simp [hpending]⟩
  · refine .inr ⟨?_, by simp [hpending]⟩
    rintro rfl
    obtain ⟨data, -, hdata⟩ := hsource₂.ahead
    exact hpending (isEmpty_iff.2 (toList_eq_nil_iff.1 (List.append_eq_nil_iff.1 hdata.symm).1))

/-- What follows a member whose stream has ended, or where the file has. -/
private theorem nextMember_of_ended (h : m.Sound) (hsource : Fetches d id more source)
    (hend : m.Ended more ∨ more = []) :
    (∃ fault decoder, nextMember m source d = (.error fault, decoder)) ∨
    ∃ decoder, nextMember m source d = (.ok (), decoder) ∧
      decoder.source.unread d < more.length ∧ Rests d id (m.promise more) decoder ∧
      ∀ s, Streams d id s decoder → Streams d id s ⟨source, .body m⟩ := by
  by_cases hshort : more.length < 8
  · obtain ⟨source', hread⟩ := exactly_of_short hsource hshort
    exact .inl ⟨_, _, by rw [nextMember, hread]⟩
  have hended : m.Ended more := hend.resolve_right (by rintro rfl; exact hshort (by decide))
  obtain ⟨trailer, rest, hsize, rfl⟩ : ∃ (trailer : ByteArray) (rest : List UInt8),
      trailer.size = 8 ∧ more = trailer.data.toList ++ rest := by
    refine ⟨⟨(more.take 8).toArray⟩, more.drop 8, ?_, (List.take_append_drop 8 more).symm⟩
    rw [ByteArray.size, List.size_toArray, List.length_take]
    omega
  cases hmatches : m.trailerMatches trailer with
  | false =>
      obtain ⟨hread, -⟩ := exactly_of_ahead hsource
      rw [hsize] at hread
      exact .inl ⟨_, _, by rw [nextMember, hread]; simp only [hmatches]; rfl⟩
  | true =>
      have htrailer := h.eq_trailerOf hended hsize hmatches
      have hall : m.inflate.output.data.toList.drop m.delivered = [] :=
        List.drop_of_length_le (Nat.le_of_eq (by rw [length_toList, hended.delivered_eq]))
      have hdecodes := h.decodes hended.decodes
      have hbit := h.inflate.bit_le
      rcases nextMember_of_matches hsource hsize hmatches with
        ⟨source', hsource', ⟨rfl, hnext⟩ | ⟨-, hnext⟩⟩
      · refine .inr ⟨_, hnext, ?_, .finished, fun s hs => ?_⟩
        · rw [hsource'.ahead.unread_eq, List.length_append, length_toList, hsize]
          decide
        · cases hs
          rw [htrailer] at hdecodes hsource
          simpa [hall] using Streams.body hsource hdecodes .nil
      · rcases parses_readHeader d id rest source' hsource' with
          ⟨fault, source'', hheader⟩ | ⟨header, rest', _, rfl, htakes⟩
        · rw [hheader] at hnext
          exact .inl ⟨_, _, hnext⟩
        · obtain ⟨source'', hheader, hsource''⟩ := htakes d id rest' source' hsource'
          rw [hheader] at hnext
          refine .inr ⟨_, hnext, ?_, .body hsource'' Member.sound_start ?_, fun s hs => ?_⟩
          · rw [hsource''.ahead.unread_eq, List.length_append, List.length_append, length_toList,
              hsize]
            omega
          · show 0 + Inflate.maxCopyLength * (8 * (0 + rest'.length) - 0) ≤ _
            simp only [Member.promise, Inflate.maxCopyLength, List.length_append]
            omega
          · replace hs : Streams d id s ⟨source'', .body .start⟩ := hs
            cases hs with
            | body hsource₃ hdecodes₃ hrest =>
                obtain rfl := hsource₃.unique hsource''
                rw [htrailer] at hdecodes hsource
                simpa [hall, Member.start] using
                  Streams.body hsource hdecodes (.cons htakes hdecodes₃ hrest)

/-- What follows a member that is whole, where whole ones follow. -/
private theorem nextMember_of_members {data rest : List UInt8}
    (h : m.Decodes tail data more) (hdelivered : m.delivered = data.length)
    (hsource : Fetches d id ((trailerOf data).data.toList ++ rest) source) (hrest : Members rest s) :
    ∃ decoder, nextMember m source d = (.ok (), decoder) ∧
      decoder.source.unread d < ((trailerOf data).data.toList ++ rest).length ∧
      Streams d id s decoder := by
  have htrailer : (trailerOf data).data.toList.length = 8 := by rw [length_toList, size_trailerOf]
  rcases nextMember_of_matches hsource (size_trailerOf data) (h.trailerMatches hdelivered) with
    ⟨source', hsource', ⟨rfl, hnext⟩ | ⟨hne, hnext⟩⟩
  · refine ⟨_, hnext, ?_, ?_⟩
    · rw [hsource'.ahead.unread_eq, List.append_nil, htrailer]
      decide
    · generalize hnil : ([] : List UInt8) = none at hrest
      cases hrest with
      | nil => exact .finished
      | cons _ hdecodes _ =>
          -- There is no room for the trailer of another member.
          have hle := hdecodes.tail_le
          rw [(List.append_eq_nil_iff.1 hnil.symm).2, List.length_append, length_toList,
            size_trailerOf] at hle
          exact absurd hle (by simp)
  · cases hrest with
    | nil => exact absurd rfl hne
    | cons htakes hdecodes hrest =>
        obtain ⟨source'', hheader, hsource''⟩ := htakes d id _ source' hsource'
        rw [hheader] at hnext
        refine ⟨_, hnext, ?_, .body hsource'' hdecodes hrest⟩
        rw [hsource''.ahead.unread_eq, List.length_append, htrailer, List.length_append]
        omega

/-- What is left of a stream behind a piece of it. -/
private theorem drop_of_take {data piece : List UInt8} {p p' : Nat}
    (h : data.take p' = data.take p ++ piece) : data.drop p = piece ++ data.drop p' := by
  have hall : data.take p ++ data.drop p = data.take p ++ (piece ++ data.drop p') := by
    rw [List.take_append_drop, ← List.append_assoc, ← h, List.take_append_drop]
  exact List.append_cancel_left hall

/-- A request gets some bytes of the stream that is left, and none only at its end. -/
theorem Streams.read (h : Streams d id s decoder) (hcount : 0 < count) :
    ∃ bytes decoder' rest, decoder.read count d = (.ok bytes, decoder') ∧
      s = bytes.data.toList ++ rest ∧ Streams d id rest decoder' := by
  suffices ∀ fuel decoder s, decoder.source.unread d < fuel → Streams d id s decoder →
      ∃ bytes decoder' rest, readWithin count d fuel decoder = (.ok bytes, decoder') ∧
        s = bytes.data.toList ++ rest ∧ Streams d id rest decoder' from
    this _ decoder s (Nat.lt_add_of_pos_right (by decide)) h
  intro fuel
  induction fuel with
  | zero => intro decoder s hfuel; omega
  | succ fuel ih =>
      intro decoder s hfuel h
      cases h with
      | @finished source => exact ⟨.empty, _, [], rfl, rfl, .finished⟩
      | @body m source more data rest s hsource h hrest =>
          have hwhole : m.Decodes ((trailerOf data).data.toList ++ rest) data (more ++ []) := by
            rwa [List.append_nil]
          obtain ⟨bytes, m', source', more', hread, hdelivered, hend⟩ := hwhole.read hsource hcount
          have hdrop := drop_of_take hdelivered.take_eq
          have hmember := hdelivered.member
          rw [List.append_nil] at hmember
          rw [readWithin]
          simp only [hread]
          by_cases hbytes : bytes.size = 0
          · obtain ⟨hall, rfl⟩ : m'.delivered = data.length ∧
                more' = (trailerOf data).data.toList ++ rest := by
              simpa using hend hbytes
            rw [if_neg (by simpa using isEmpty_iff.2 hbytes)]
            obtain ⟨decoder, hnext, hunread, hstreams⟩ :=
              nextMember_of_members hmember hall hdelivered.source hrest
            have hle := h.tail_le
            have hsame : source.unread d = more.length := hsource.ahead.unread_eq
            replace hfuel : source.unread d < fuel + 1 := hfuel
            obtain ⟨piece, decoder', rest', hread', rfl, hrest'⟩ := ih decoder s (by omega) hstreams
            refine ⟨piece, decoder', rest', by rw [hnext]; exact hread', ?_, hrest'⟩
            rw [hdrop, toList_eq_nil_iff.2 hbytes, hall, List.drop_length]
            rfl
          · rw [if_pos (by rw [Bool.not_eq_true', ← Bool.not_eq_true, isEmpty_iff]; exact hbytes)]
            refine ⟨bytes, _, data.drop m'.delivered ++ s, rfl, ?_,
              .body hdelivered.source hmember hrest⟩
            rw [hdrop, List.append_assoc]

/-- What a decoder in a member still has to deliver, it had to deliver before, behind the bytes that
it has delivered since. -/
private theorem streams_of_leads (h : m.Sound) (hsource : Fetches d id more source)
    (hleads : Member.Leads d id count m more bytes m' source' more')
    (hs : Streams d id s ⟨source', .body m'⟩) :
    Streams d id (bytes.data.toList ++ s) ⟨source, .body m⟩ := by
  cases hs with
  | @body _ _ more₁ data rest s hsource₁ hdecodes hrest =>
      obtain rfl := hsource₁.unique hleads.source
      have hbefore := h.decodes (hleads.decodes hdecodes.inflate)
      have hdrop : data.drop m.delivered = bytes.data.toList ++ data.drop m'.delivered := by
        apply drop_of_take
        rw [hdecodes.take_delivered, hbefore.take_delivered, hleads.done_eq]
      rw [← List.append_assoc, ← hdrop]
      exact .body hsource hbefore hrest

/-- A request fails or gets some bytes. They are what comes first of a stream that is delivered. -/
private theorem Rests.read (h : Rests d id promise decoder) (hcount : 0 < count) :
    (∃ fault decoder', decoder.read count d = (.error fault, decoder')) ∨
    ∃ bytes decoder' promise', decoder.read count d = (.ok bytes, decoder') ∧
      bytes.size + promise' ≤ promise ∧ Rests d id promise' decoder' ∧
      (bytes.size = 0 → decoder'.stage = .finished) ∧
      ∀ s, Streams d id s decoder' → Streams d id (bytes.data.toList ++ s) decoder := by
  suffices ∀ fuel decoder, decoder.source.unread d < fuel → Rests d id promise decoder →
      (∃ fault decoder', readWithin count d fuel decoder = (.error fault, decoder')) ∨
      ∃ bytes decoder' promise', readWithin count d fuel decoder = (.ok bytes, decoder') ∧
        bytes.size + promise' ≤ promise ∧ Rests d id promise' decoder' ∧
        (bytes.size = 0 → decoder'.stage = .finished) ∧
        ∀ s, Streams d id s decoder' → Streams d id (bytes.data.toList ++ s) decoder from
    this _ decoder (Nat.lt_add_of_pos_right (by decide)) h
  intro fuel
  induction fuel with
  | zero => intro decoder hfuel; omega
  | succ fuel ih =>
      intro decoder hfuel h
      cases h with
      | finished =>
          exact .inr ⟨.empty, _, promise, rfl, by simp, .finished, fun _ => rfl, fun s hs => hs⟩
      | broken => exact .inl ⟨_, _, rfl⟩
      | @body m source more _ hsource h hpromise =>
          rw [readWithin]
          rcases h.read hsource hcount with
            ⟨fault, m', source', hread⟩ | ⟨bytes, m', source', more', hread, hleads, hend⟩
          · exact .inl ⟨fault, ⟨source', .body m'⟩, by simp only [hread]⟩
          simp only [hread]
          have hpaid := hleads.promise_le
          by_cases hbytes : bytes.size = 0
          · rw [if_neg (by simpa using isEmpty_iff.2 hbytes)]
            rcases nextMember_of_ended hleads.sound hleads.source (hend hbytes) with
              ⟨fault, decoder, hnext⟩ | ⟨decoder, hnext, hunread, hrests, hstreams⟩
            · exact .inl ⟨fault, decoder, by rw [hnext]⟩
            have hle : more'.length ≤ more.length := by
              rcases hend hbytes with hended | rfl
              · exact h.tight.tail_le (hleads.decodes hended.decodes)
              · exact Nat.zero_le _
            have hsame : source.unread d = more.length := hsource.ahead.unread_eq
            replace hfuel : source.unread d < fuel + 1 := hfuel
            rw [hnext]
            rcases ih decoder (by omega) (hrests.mono (by omega)) with
              hfailed | ⟨piece, decoder', promise', hread', hpromise', hrests', hended, hstreams'⟩
            · exact .inl hfailed
            · refine .inr ⟨piece, decoder', promise', hread', hpromise', hrests', hended,
                fun s hs => ?_⟩
              have hbefore :=
                streams_of_leads h hsource hleads (hstreams _ (hstreams' s hs))
              rwa [toList_eq_nil_iff.2 hbytes] at hbefore
          · rw [if_pos (by rw [Bool.not_eq_true', ← Bool.not_eq_true, isEmpty_iff]; exact hbytes)]
            exact .inr ⟨bytes, _, m'.promise more', rfl, by omega,
              .body hleads.source hleads.sound (Nat.le_refl _), fun hnone => absurd hnone hbytes,
              fun _ => streams_of_leads h hsource hleads⟩

/-- A request that gets no bytes has come to the end of the last member. -/
theorem Rests.finished_of_read (h : Rests d id promise decoder) (hcount : 0 < count)
    (hread : decoder.read count d = (.ok bytes, decoder')) (hsize : bytes.size = 0) :
    decoder'.stage = .finished := by
  rcases h.read hcount with
    ⟨fault, _, hread'⟩ | ⟨_, _, _, hread', -, -, hended, -⟩
  · cases hread.symm.trans hread'
  · obtain ⟨hbytes, rfl⟩ := Prod.mk.inj (hread.symm.trans hread')
    obtain rfl := Except.ok.inj hbytes
    exact hended hsize

/-- Decoders on any file are sources. -/
theorem sources (d : Disk) (id : Nat) :
    Sources (fun count decoder => Decoder.read count decoder d) (Rests d id) (Streams d id) where
  failed hrests hcount hread s hs := by
    obtain ⟨bytes, decoder', rest, hread', -⟩ := hs.read hcount
    cases hread.symm.trans hread'
  answered {promise count decoder decoder' bytes} hrests hcount hread := by
    rcases hrests.read hcount with
      ⟨fault, _, hread'⟩ | ⟨_, _, promise', hread', hpromise, hrests', hended, hback⟩
    · cases hread.symm.trans hread'
    obtain ⟨hbytes, rfl⟩ := Prod.mk.inj (hread.symm.trans hread')
    obtain rfl := Except.ok.inj hbytes
    refine ⟨⟨promise', hpromise, hrests'⟩, fun s => ⟨fun hs => ?_, ?_⟩, fun hsize s => ?_⟩
    · obtain ⟨_, _, rest, hread₂, rfl, hrest⟩ := hs.read hcount
      obtain ⟨hbytes₂, rfl⟩ := Prod.mk.inj (hread.symm.trans hread₂)
      obtain rfl := Except.ok.inj hbytes₂
      exact ⟨rest, rfl, hrest⟩
    · rintro ⟨rest, rfl, hrest⟩
      exact hback rest hrest
    · obtain ⟨source, stage⟩ := decoder'
      obtain rfl : stage = .finished := hended hsize
      constructor
      · rintro ⟨⟩
        rfl
      · rintro rfl
        exact .finished

theorem sourcesOn (id : Nat) : SourcesOn Decoder.read Decoder.remaining id
    (fun d => Rests d id) (fun d => Streams d id) where
  sources d := sources d id
  rests_frame h hsame := h.frame hsame
  yields_frame h hsame := h.frame hsame
  rests_remaining h := h.remaining

/-- A decoder that is opened on a file is a source. -/
theorem rests_start {data : ByteArray} (hnode : d.node? id = some (.file data)) :
    Rests d id ((Decoder.start id d).remaining d) (Decoder.start id d) := by
  have hsource : Fetches d id data.data.toList (FileReader.start id blockSize) :=
    ⟨FileReader.ahead_start hnode blockSize, rfl, (by decide : 0 < blockSize)⟩
  rw [Decoder.start]
  rcases parses_readHeader d id _ _ hsource with
    ⟨fault, source', hheader⟩ | ⟨header, rest, _, hdata, htakes⟩
  · rw [hheader]
    exact .broken
  · rw [hdata] at hsource
    obtain ⟨source', hheader, hsource'⟩ := htakes d id rest _ hsource
    rw [hheader]
    exact Rests.remaining (.body hsource' Member.sound_start (Nat.le_refl _))

end Decoder
end TraceStore.Gzip
