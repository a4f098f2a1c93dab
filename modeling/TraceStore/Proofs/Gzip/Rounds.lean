import TraceStore.Gzip.Decoder
import TraceStore.Proofs.Disk.Reader
import TraceStore.Proofs.Gzip.Member

/-!
# Decoding a member

However a member lies in the blocks that are fetched and in the windows of the output, what it holds
is delivered from front to back; and if the file ends before its stream does, what was delivered by
then is a beginning of it: `Member.Decodes.read`. That requests go on from one round and one block
to the next is shown for members of any kind: `Member.Reading`.
-/
namespace TraceStore.Gzip

open Deflate

/-! ### Headers -/

/-- A source in the file of a node that goes on with `s`. -/
structure Fetches (d : Disk) (id : Nat) (s : List UInt8) (source : FileReader) : Prop where
  ahead : source.Ahead d s
  node_eq : source.node = id
  block_pos : 0 < source.blockSize

variable {d : Disk} {id : Nat} {source : FileReader} {rest : List UInt8}

/-- Other nodes can be changed at will. -/
theorem Fetches.frame {s : List UInt8} {d' : Disk} (h : Fetches d id s source)
    (hsame : d'.node? id = d.node? id) : Fetches d' id s source :=
  ⟨h.ahead.frame (by rw [h.node_eq]; exact hsame), h.node_eq, h.block_pos⟩

/-- What is fetched and not handed out can be exchanged. -/
theorem Fetches.exists_behind {s : List UInt8} (h : Fetches d id s source) :
    ∃ behind, s = source.pending.data.toList ++ behind ∧
      ∀ pending : ByteArray, Fetches d id (pending.data.toList ++ behind) { source with pending } := by
  obtain ⟨data, hnode, hs⟩ := h.ahead
  exact ⟨_, hs, fun pending => ⟨⟨data, hnode, rfl⟩, h.node_eq, h.block_pos⟩⟩

theorem Fetches.fetch {s : List UInt8} (h : Fetches d id s source) :
    ∃ source', source.fetch d = .ok source' ∧ Fetches d id s source' ∧
      (source'.pending.size = 0 → s = []) := by
  obtain ⟨source', hfetch, hahead, hend⟩ := h.ahead.fetch h.block_pos
  obtain ⟨hnode, hblock⟩ := FileReader.fetch_keeps hfetch
  exact ⟨source', hfetch, ⟨hahead, hnode.trans h.node_eq, by rw [hblock]; exact h.block_pos⟩, hend⟩

theorem Fetches.read {s : List UInt8} (h : Fetches d id s source) (count : Nat) :
    ∃ bytes source', source.read count d = (.ok bytes, source') ∧ bytes.data.toList = s.take count ∧
      Fetches d id (s.drop count) source' := by
  obtain ⟨bytes, source', hread, hbytes, hahead, -⟩ := h.ahead.read count
  obtain ⟨hnode, hblock⟩ := FileReader.read_keeps source count d
  rw [hread] at hnode hblock
  exact ⟨bytes, source', hread, hbytes, hahead, hnode.trans h.node_eq,
    by rw [hblock]; exact h.block_pos⟩

theorem exactly_of_ahead {bytes : ByteArray} (h : Fetches d id (bytes.data.toList ++ rest) source) :
    exactly bytes.size source d = (.ok bytes, (source.read bytes.size d).2) ∧
      Fetches d id rest (source.read bytes.size d).2 := by
  obtain ⟨got, source', hread, hgot, hrest⟩ := h.read bytes.size
  rw [List.take_left' (length_toList bytes)] at hgot
  obtain rfl := eq_of_toList_eq hgot
  rw [List.drop_left' (length_toList got)] at hrest
  refine ⟨?_, by rwa [hread]⟩
  simp only [exactly, hread]
  rw [if_neg (Nat.lt_irrefl _)]

/-- A file that ends too early is found to be cut off. -/
theorem exactly_of_short {s : List UInt8} {count : Nat} (h : Fetches d id s source)
    (hshort : s.length < count) :
    ∃ source', exactly count source d = (.error .truncated, source') := by
  obtain ⟨got, source', hread, hgot, -⟩ := h.read count
  have hsize := congrArg List.length hgot
  rw [length_toList, List.length_take] at hsize
  refine ⟨source', ?_⟩
  simp only [exactly, hread]
  rw [if_pos (by omega)]

/-- A header without optional fields is read to its end. -/
theorem PlainHeader.readHeader {header : List UInt8} (hheader : PlainHeader header)
    (h : Fetches d id (header ++ rest) source) :
    readHeader source d = (.ok (), (source.read fixedHeaderSize d).2) ∧
      Fetches d id rest (source.read fixedHeaderSize d).2 := by
  have hahead : Fetches d id ((⟨header.toArray⟩ : ByteArray).data.toList ++ rest) source := h
  obtain ⟨hread, hrest⟩ := exactly_of_ahead hahead
  rw [show (⟨header.toArray⟩ : ByteArray).size = fixedHeaderSize from hheader.length_eq]
    at hread hrest
  refine ⟨?_, hrest⟩
  obtain ⟨behind, rfl⟩ := hheader.begins
  have hflags : HeaderFlags.ofByte 0 = ⟨false, false, false, false, false⟩ := rfl
  rw [Gzip.readHeader, hread]
  simp [optional, hflags]

/-- A header that is not there in full is found to be cut off. -/
theorem readHeader_of_short {s : List UInt8} (h : Fetches d id s source)
    (hshort : s.length < fixedHeaderSize) :
    ∃ source', readHeader source d = (.error .truncated, source') := by
  obtain ⟨source', hread⟩ := exactly_of_short h hshort
  exact ⟨source', by rw [readHeader, hread]⟩

/-! ### Members -/

namespace Member

/-- A member whose stream holds `written`, if `rest` is what goes on behind its input, and `tail`
what follows the stream. -/
structure Decodes (tail written rest : List UInt8) (m : Member) : Prop where
  inflate : m.inflate.Decodes tail written rest
  tail_le : tail.length ≤ rest.length
  delivered_le : m.delivered ≤ m.inflate.output.size
  crc_eq : m.crc = Crc32.compute ⟨(written.take m.delivered).toArray⟩

variable {tail written rest more more' lost : List UInt8} {m m' : Member} {source' : FileReader}
  {bytes : ByteArray} {count : Nat}

/-- The most that a member can deliver if no more follows its input than `more`. -/
def promise (more : List UInt8) (m : Member) : Nat :=
  (m.inflate.output.size - m.delivered) +
    Inflate.maxCopyLength * (8 * (m.inflate.input.size + more.length) - m.inflate.bit)

/-- What has been delivered of a member. -/
def done (m : Member) : List UInt8 := m.inflate.output.data.toList.take m.delivered

theorem decodes_start {stream : List UInt8} (h : Inflate.Holds written stream)
    (tail : List UInt8) : start.Decodes tail written (stream ++ tail) where
  inflate := h.decodes_start tail
  tail_le := by
    rw [List.length_append]
    exact Nat.le_add_left ..
  delivered_le := Nat.le_refl _
  crc_eq := by
    rw [show start.delivered = 0 from rfl, List.take_zero]
    decide

/-- What has been delivered is the beginning of what the stream holds. -/
theorem take_delivered (hinflate : m.inflate.Decodes tail written rest)
    (hle : m.delivered ≤ m.inflate.output.size) : written.take m.delivered = m.done := by
  obtain ⟨rest, rfl⟩ := hinflate.begins
  exact List.take_append_of_le_length (by rw [length_toList]; exact hle)

theorem Decodes.take_delivered (h : m.Decodes tail written rest) :
    written.take m.delivered = m.done :=
  Member.take_delivered h.inflate h.delivered_le

/-! ### A delivery -/

/-- From one member to the next, `bytes` have been delivered of the output that was ready. -/
structure Hands (m : Member) (bytes : ByteArray) (m' : Member) : Prop where
  inflate_eq : m'.inflate = m.inflate
  delivered_eq : m'.delivered = m.delivered + bytes.size
  delivered_le : m'.delivered ≤ m'.inflate.output.size
  done_eq : m'.done = m.done ++ bytes.data.toList
  crc_eq : m.crc = Crc32.compute ⟨m.done.toArray⟩ → m'.crc = Crc32.compute ⟨m'.done.toArray⟩
  promise_eq : ∀ more, bytes.size + m'.promise more = m.promise more

theorem hands_deliver (hle : m.delivered ≤ m.inflate.output.size) (count : Nat) :
    ∃ bytes m', m.deliver count = (bytes, m') ∧ bytes.size = min count m.ready ∧
      m.Hands bytes m' := by
  generalize hcount : min count m.ready = n
  have hfits : m.delivered + n ≤ m.inflate.output.size := by
    rw [ready] at hcount
    omega
  have hsize : (m.inflate.output.extract m.delivered (m.delivered + n)).size = n := by
    rw [ByteArray.size_extract]
    omega
  have hdone : m.inflate.output.data.toList.take (m.delivered + n) =
      m.done ++ (m.inflate.output.extract m.delivered (m.delivered + n)).data.toList := by
    rw [toList_extract, done, ← List.take_add]
  refine ⟨_, _, rfl, ?_, rfl, ?_, ?_, ?_, fun hcrc => ?_, fun more => ?_⟩
  all_goals simp only [hcount]
  · exact hsize
  · rw [hsize]
  · exact hfits
  · exact hdone
  · rw [hcrc, Crc32.compute, Crc32.compute, ← Crc32.update_append]
    congr 1
    apply eq_of_toList_eq
    rw [ByteArray.data_append, Array.toList_append]
    exact hdone.symm
  · simp only [promise, hsize]
    omega

/-! ### A round -/

theorem delivered_lt_nextHorizon (m : Member) : m.delivered < m.nextHorizon := by
  rw [nextHorizon, windowSize]
  omega

/-- From one member to the next, a round has halted with the decoder `inflate`, and has given `back`
what is not needed of the input. All of it is needed if it does not suffice. -/
structure Halts (m : Member) (halt : Inflate.Halt) (inflate : Inflate) (back : ByteArray)
    (m' : Member) : Prop where
  delivered_eq : m'.delivered = m.delivered
  crc_eq : m'.crc = m.crc
  horizon_eq : m'.horizon = m.nextHorizon
  output_eq : m'.inflate.output = inflate.output
  promise_eq : ∀ behind, m'.promise (back.data.toList ++ behind) =
    (inflate.output.size - m.delivered) +
      Inflate.maxCopyLength * (8 * (inflate.input.size + behind.length) - inflate.bit)
  split : (halt = .starved ∧ m'.inflate = inflate ∧ back = .empty) ∨
    (halt ≠ .starved ∧ (back, m'.inflate) = inflate.giveBack)

theorem halts_round {halt : Inflate.Halt} {inflate : Inflate}
    (hrun : (m.inflate.feed source.pending).run m.nextHorizon = (halt, inflate)) :
    ∃ m' back, m.round source = (halt, m', { source with pending := back }) ∧
      m.Halts halt inflate back m' := by
  unfold Member.round
  simp only [hrun]
  by_cases hstarved : halt = .starved
  · rw [if_pos hstarved]
    exact ⟨_, .empty, rfl, rfl, rfl, rfl, rfl, fun behind => rfl, .inl ⟨hstarved, rfl, rfl⟩⟩
  · rw [if_neg hstarved]
    refine ⟨_, inflate.giveBack.1, rfl, rfl, rfl, rfl, rfl, fun behind => ?_,
      .inr ⟨hstarved, rfl⟩⟩
    simp only [promise, Inflate.giveBack, List.length_append, length_toList, ByteArray.size_extract]
    congr 3
    omega

namespace Halts

variable {halt : Inflate.Halt} {inflate : Inflate} {back : ByteArray}

/-- A round that is starved keeps all of its input. -/
theorem back_eq (h : m.Halts .starved inflate back m') : back = .empty := by
  rcases h.split with ⟨-, -, hback⟩ | ⟨hgoes, -⟩
  · exact hback
  · exact absurd rfl hgoes

/-- A round that is full has output ready, as it goes beyond what was delivered. -/
theorem ready_ne_zero (h : m.Halts halt inflate back m')
    (hfull : m.nextHorizon ≤ inflate.output.size) : m'.ready ≠ 0 := by
  have hhorizon := m.delivered_lt_nextHorizon
  rw [ready, h.output_eq, h.horizon_eq, h.delivered_eq]
  omega

/-- If a round leaves no output ready, all of it has been delivered. -/
theorem delivered_eq_size (h : m.Halts halt inflate back m')
    (hle : m.delivered ≤ inflate.output.size) (hready : m'.ready = 0) :
    m'.delivered = inflate.output.size := by
  have hhorizon := m.delivered_lt_nextHorizon
  rw [ready, h.output_eq, h.horizon_eq, h.delivered_eq] at hready
  rw [h.delivered_eq]
  omega

/-- A round promises no more than its output and the bits that it used up can stand for. -/
theorem promise_le (h : m.Halts halt inflate back m') {pending : ByteArray}
    (hbit : m.inflate.bit ≤ 8 * m.inflate.input.size) (hle : m.delivered ≤ m.inflate.output.size)
    (hinput : inflate.input = (m.inflate.feed pending).input)
    (hbit' : inflate.bit ≤ 8 * inflate.input.size)
    (hgrows : m.inflate.output.size ≤ inflate.output.size)
    (hexpands : inflate.output.size + Inflate.maxCopyLength * (m.inflate.feed pending).bit ≤
      (m.inflate.feed pending).output.size + Inflate.maxCopyLength * inflate.bit)
    (behind : List UInt8) :
    m'.promise (back.data.toList ++ behind) ≤ m.promise (pending.data.toList ++ behind) := by
  have hfed : inflate.input.size = m.inflate.input.size - m.inflate.bit / 8 + pending.size := by
    rw [hinput]
    simp only [Inflate.feed, ByteArray.size_append, ByteArray.size_extract]
    omega
  simp only [Inflate.feed, Inflate.maxCopyLength] at hexpands
  rw [h.promise_eq, promise, List.length_append, length_toList, Inflate.maxCopyLength]
  omega

end Halts

/-! ### Requests -/

/-- How members of some kind are read. From one request to the next, `Step` relates a member that is
in front of some bytes, how many bytes are asked of it, what it delivers, and what is left. A member
can have `Ended`, it can be `Short` of input, and if it is of a `Faulty` kind, it can fail. -/
structure Reading (d : Disk) (id : Nat) (Inv : Member → List UInt8 → Prop)
    (Step : Nat → Member → List UInt8 → ByteArray → Member → FileReader → List UInt8 → Prop)
    (Ended : Member → List UInt8 → Prop) (Short : List UInt8 → Prop) (Faulty : Prop) : Prop where
  left : ∀ {count m more bytes m' source' more'}, Step count m more bytes m' source' more' →
    bytes.size ≤ count ∧ Inv m' more' ∧ Fetches d id more' source'
  trans : ∀ {count m more bytes m₁ source₁ more₁ rest m' source' more'},
    Step count m more bytes m₁ source₁ more₁ →
    Step (count - bytes.size) m₁ more₁ rest m' source' more' →
    Step count m more (bytes ++ rest) m' source' more'
  deliver : ∀ {m more source}, Inv m more → Fetches d id more source → ∀ count,
    ∃ bytes m', m.deliver count = (bytes, m') ∧ bytes.size = min count m.ready ∧
      Step count m more bytes m' source more ∧ (bytes.size = 0 → Ended m more → Ended m' more)
  round : ∀ {m more source}, Inv m more → Fetches d id more source → ∀ count,
    ∃ halt m' source' more', m.round source = (halt, m', source') ∧
      Step count m more .empty m' source' more' ∧
      match halt with
      | .full => m'.ready ≠ 0
      | .starved => source'.pending.size = 0 ∧ Short more' ∧
          more = source.pending.data.toList ++ more'
      | .invalid => Faulty
      | .finished => m'.ready = 0 → Ended m' more'

theorem roundsWithin_succ {halt : Inflate.Halt} {m₁ m₂ : Member} {source₁ : FileReader}
    (hround : m.round source = (halt, m₁, source₁))
    (hhalt : halt ≠ .invalid) (hdeliver : m₁.deliver count = (bytes, m₂)) (fuel : Nat)
    (done : ByteArray) :
    roundsWithin (fuel + 1) count done m source =
      if halt = .finished ∨ source₁.pending.isEmpty ∨ count - bytes.size = 0 ∨ m₂.ready ≠ 0 then
        (.ok (done ++ bytes, halt = .finished), m₂, source₁)
      else roundsWithin fuel (count - bytes.size) (done ++ bytes) m₂ source₁ := by
  rw [roundsWithin, hround]
  cases halt with
  | invalid => exact absurd rfl hhalt
  | full => simp only [hdeliver]
  | starved => simp only [hdeliver]
  | finished => simp only [hdeliver]

namespace Reading

variable {Inv : Member → List UInt8 → Prop}
  {Step : Nat → Member → List UInt8 → ByteArray → Member → FileReader → List UInt8 → Prop}
  {Ended : Member → List UInt8 → Prop} {Short : List UInt8 → Prop} {Faulty : Prop}

/-- What rounds come to. If they deliver nothing, the stream has ended, or there was not enough
input for a byte of it. -/
private theorem roundsWithin (h : Reading d id Inv Step Ended Short Faulty) (fuel : Nat) :
    ∀ (count : Nat) (done : ByteArray) (m : Member) (source : FileReader) (more : List UInt8),
      count < fuel → 0 < count → Inv m more → Fetches d id more source →
      (Faulty ∧ ∃ fault m' source',
        roundsWithin fuel count done m source = (.error fault, m', source')) ∨
      ∃ bytes finished m' source' more',
        roundsWithin fuel count done m source = (.ok (done ++ bytes, finished), m', source') ∧
        Step count m more bytes m' source' more' ∧
        (bytes.size = 0 → if finished then Ended m' more'
          else Short more' ∧ more = source.pending.data.toList ++ more') := by
  induction fuel with
  | zero => intro count done m source more hfuel; omega
  | succ fuel ih =>
      intro count done m source more hfuel hcount hm hsource
      obtain ⟨halt, m₁, source₁, more₁, hround, hstep₁, hhalted⟩ := h.round hm hsource count
      obtain ⟨-, hm₁, hsource₁⟩ := h.left hstep₁
      obtain ⟨bytes, m₂, hdeliver, hsize, hstep₂, hended⟩ := h.deliver hm₁ hsource₁ count
      by_cases hinvalid : halt = .invalid
      · subst hinvalid
        exact .inl ⟨hhalted, _, m₁, source₁, by rw [Member.roundsWithin, hround]⟩
      have hstep : Step count m more (.empty ++ bytes) m₂ source₁ more₁ := h.trans hstep₁ hstep₂
      rw [ByteArray.empty_append] at hstep
      rw [roundsWithin_succ hround hinvalid hdeliver]
      by_cases hstop : halt = .finished ∨ source₁.pending.isEmpty ∨ count - bytes.size = 0 ∨
          m₂.ready ≠ 0
      · refine .inr ⟨bytes, _, m₂, source₁, more₁, if_pos hstop, hstep, fun hnone => ?_⟩
        -- Nothing was delivered, so nothing was ready.
        have hready : m₁.ready = 0 := by omega
        cases halt with
        | invalid => exact absurd rfl hinvalid
        | full => exact absurd hready hhalted
        | starved => exact hhalted.2
        | finished =>
            rw [if_pos (decide_eq_true rfl)]
            exact hended hnone (hhalted hready)
      · rw [if_neg hstop]
        simp only [not_or] at hstop
        obtain ⟨hfinished, hpending, hleft, -⟩ := hstop
        -- Only a full round goes on with another one, and it delivers a byte.
        have hsome : bytes.size ≠ 0 := by
          cases halt with
          | invalid => exact absurd rfl hinvalid
          | finished => exact absurd rfl hfinished
          | starved => exact absurd (isEmpty_iff.2 hhalted.1) hpending
          | full =>
              have hready : m₁.ready ≠ 0 := hhalted
              omega
        obtain ⟨-, hm₂, -⟩ := h.left hstep
        rcases ih (count - bytes.size) (done ++ bytes) m₂ source₁ more₁ (by omega) (by omega) hm₂
          hsource₁ with hfailed | ⟨rest, finished, m', source', more', hrest, hstep', -⟩
        · exact .inl hfailed
        · refine .inr ⟨bytes ++ rest, finished, m', source', more', ?_, h.trans hstep hstep', ?_⟩
          · rw [hrest, ByteArray.append_assoc]
          · rw [ByteArray.size_append]
            omega

/-- Every request that has to go on takes a block of the file in. -/
private theorem readWithin (h : Reading d id Inv Step Ended Short Faulty) (hcount : 0 < count)
    (fuel : Nat) : ∀ (m : Member) (source : FileReader) (more : List UInt8), more.length < fuel →
      Inv m more → Fetches d id more source →
      (Faulty ∧ ∃ fault m' source',
        readWithin count d fuel m source = (.error fault, m', source')) ∨
      ∃ bytes m' source' more', readWithin count d fuel m source = (.ok bytes, m', source') ∧
        Step count m more bytes m' source' more' ∧
        (bytes.size = 0 → Ended m' more' ∨ (more' = [] ∧ Short more')) := by
  induction fuel with
  | zero => intro m source more hfuel; omega
  | succ fuel ih =>
      intro m source more hfuel hm hsource
      obtain ⟨source₁, hfetch, hsource₁, hend⟩ := hsource.fetch
      rw [Member.readWithin, hfetch]
      dsimp only
      by_cases hready : m.ready ≠ 0
      · rw [if_pos hready]
        obtain ⟨bytes, m', hdeliver, hsize, hstep, -⟩ := h.deliver hm hsource₁ count
        rw [hdeliver]
        exact .inr ⟨bytes, m', source₁, more, rfl, hstep, by omega⟩
      rw [if_neg hready]
      rcases h.roundsWithin (count + 1) count .empty m source₁ more (Nat.lt_succ_self _) hcount hm
        hsource₁ with ⟨hfaulty, fault, m₂, source₂, hfailed⟩ |
          ⟨bytes, finished, m₂, source₂, more₂, hrounds, hstep, hnone⟩
      · exact .inl ⟨hfaulty, fault, m₂, source₂, by rw [hfailed]⟩
      rw [ByteArray.empty_append] at hrounds
      rw [hrounds]
      dsimp only
      by_cases hagain : bytes.isEmpty && !source₁.pending.isEmpty && !finished
      · rw [if_pos hagain]
        simp only [Bool.and_eq_true, Bool.not_eq_true'] at hagain
        obtain ⟨⟨hbytes, hpending⟩, rfl⟩ := hagain
        have hempty : bytes.size = 0 := isEmpty_iff.1 hbytes
        have hshorter : more₂.length < fuel := by
          have hblock : source₁.pending.size ≠ 0 := by
            rw [ne_eq, ← isEmpty_iff, hpending]
            exact Bool.false_ne_true
          rw [(hnone hempty).2, List.length_append, length_toList] at hfuel
          omega
        obtain ⟨-, hm₂, hsource₂⟩ := h.left hstep
        obtain rfl : bytes = .empty := eq_of_toList_eq (toList_eq_nil_iff.2 hempty)
        rcases ih m₂ source₂ more₂ hshorter hm₂ hsource₂ with
          hfailed | ⟨rest, m', source', more', hread, hstep', hend'⟩
        · exact .inl hfailed
        · refine .inr ⟨rest, m', source', more', hread, ?_, hend'⟩
          have hboth := h.trans hstep hstep'
          rwa [ByteArray.empty_append] at hboth
      · rw [if_neg hagain]
        refine .inr ⟨bytes, m₂, source₂, more₂, rfl, hstep, fun hempty => ?_⟩
        cases finished with
        | true => exact .inl (hnone hempty)
        | false =>
            -- The file has ended in front of the end of the stream.
            obtain ⟨hshort, hmore⟩ := hnone hempty
            have hpending : source₁.pending.size = 0 := by
              simpa [isEmpty_iff, hempty] using hagain
            rw [hend hpending] at hmore
            exact .inr ⟨(List.append_eq_nil_iff.1 hmore.symm).2, hshort⟩

/-- A request gets some bytes, and none only at the end of the stream, or if the file ends in front
of that. -/
theorem read (h : Reading d id Inv Step Ended Short Faulty) (hm : Inv m more)
    (hsource : Fetches d id more source) (hcount : 0 < count) :
    (Faulty ∧ ∃ fault m' source', m.read count source d = (.error fault, m', source')) ∨
    ∃ bytes m' source' more', m.read count source d = (.ok bytes, m', source') ∧
      Step count m more bytes m' source' more' ∧
      (bytes.size = 0 → Ended m' more' ∨ (more' = [] ∧ Short more')) :=
  h.readWithin hcount _ m source more (by rw [hsource.ahead.unread_eq]; exact Nat.lt_succ_self _) hm
    hsource

end Reading

/-! ### Members that are written -/

/-- From a member in front of `more` and up to `count` bytes asked of it, `bytes` have been
delivered. They came off what is left of the stream, and `m'` is left in front of a source that goes
on with `more'`, behind which `lost` is missing. -/
structure Delivered (d : Disk) (id : Nat) (tail written lost : List UInt8) (count : Nat)
    (m : Member) (more : List UInt8) (bytes : ByteArray) (m' : Member) (source' : FileReader)
    (more' : List UInt8) : Prop where
  size_le : bytes.size ≤ count
  take_eq : written.take m'.delivered = written.take m.delivered ++ bytes.data.toList
  member : m'.Decodes tail written (more' ++ lost)
  source : Fetches d id more' source'
  promise_le : bytes.size + m'.promise more' ≤ m.promise more

/-- What is delivered in two steps. -/
theorem Delivered.trans {m₁ : Member} {rest : ByteArray} {source₁ : FileReader}
    {more₁ : List UInt8}
    (h : Delivered d id tail written lost count m more bytes m₁ source₁ more₁)
    (h' : Delivered d id tail written lost (count - bytes.size) m₁ more₁ rest m' source' more') :
    Delivered d id tail written lost count m more (bytes ++ rest) m' source' more' where
  size_le := by
    have hsize := h.size_le
    have hsize' := h'.size_le
    rw [ByteArray.size_append]
    omega
  take_eq := by
    rw [h'.take_eq, h.take_eq, ByteArray.data_append, Array.toList_append, List.append_assoc]
  member := h'.member
  source := h'.source
  promise_le := by
    have hpromise := h.promise_le
    have hpromise' := h'.promise_le
    rw [ByteArray.size_append]
    omega

/-- What is delivered comes off what is left of the stream. -/
theorem Decodes.hands (h : m.Decodes tail written rest) (hhands : m.Hands bytes m') :
    written.take m'.delivered = written.take m.delivered ++ bytes.data.toList ∧
      m'.Decodes tail written rest := by
  have hinflate : m'.inflate.Decodes tail written rest := by
    rw [hhands.inflate_eq]
    exact h.inflate
  have htake := Member.take_delivered hinflate hhands.delivered_le
  refine ⟨by rw [htake, h.take_delivered, hhands.done_eq], hinflate, h.tail_le, hhands.delivered_le,
    ?_⟩
  rw [htake]
  exact hhands.crc_eq (by rw [← h.take_delivered]; exact h.crc_eq)

/-- What a round comes to within a stream. -/
theorem Decodes.round (h : m.Decodes tail written (more ++ lost))
    (hsource : Fetches d id more source) (count : Nat) :
    ∃ halt m' source' more', m.round source = (halt, m', source') ∧
      Delivered d id tail written lost count m more .empty m' source' more' ∧
      match halt with
      | .full => m'.ready ≠ 0
      | .starved => source'.pending.size = 0 ∧ tail.length < (more' ++ lost).length ∧
          more = source.pending.data.toList ++ more'
      | .invalid => False
      | .finished => m'.ready = 0 → m'.delivered = written.length ∧ more' ++ lost = tail := by
  obtain ⟨behind, rfl, hexchange⟩ := hsource.exists_behind
  have hinflate := h.inflate
  rw [List.append_assoc] at hinflate
  obtain ⟨halt, inflate, hrun, hran⟩ := hinflate.feed.run m.nextHorizon
  obtain ⟨m', back, hround, hhalts⟩ := halts_round hrun
  have hgrows : m.delivered ≤ inflate.output.size := Nat.le_trans h.delivered_le hran.grows
  have hdecodes : m'.inflate.Decodes tail written (back.data.toList ++ (behind ++ lost)) ∧
      tail.length ≤ (back.data.toList ++ (behind ++ lost)).length ∧
      (halt = .finished → back.data.toList ++ (behind ++ lost) = tail ∧
        written = inflate.output.data.toList) := by
    rcases hhalts.split with ⟨rfl, hkept, rfl⟩ | ⟨-, hgiven⟩
    · rw [hkept]
      exact ⟨hran.decodes, Nat.le_of_lt hran.halted, nofun⟩
    · obtain ⟨_, _, hback, -, -, -, hdecodes, htail, hfinished⟩ := hran.decodes.giveBack
      obtain ⟨rfl, rfl⟩ := Prod.mk.inj (hgiven.trans hback)
      refine ⟨hdecodes, htail, ?_⟩
      rintro rfl
      exact hfinished hran.halted
  rw [← List.append_assoc] at hdecodes
  refine ⟨halt, m', _, back.data.toList ++ behind, hround, ⟨Nat.zero_le _, ?_,
    ⟨hdecodes.1, hdecodes.2.1, ?_, ?_⟩, hexchange back, ?_⟩, ?_⟩
  · rw [hhalts.delivered_eq, ByteArray.data_empty, List.append_nil]
  · rw [hhalts.delivered_eq, hhalts.output_eq]
    exact hgrows
  · rw [hhalts.crc_eq, hhalts.delivered_eq]
    exact h.crc_eq
  · rw [ByteArray.size_empty, Nat.zero_add]
    exact hhalts.promise_le h.inflate.bit_le h.delivered_le hran.input_eq hran.decodes.bit_le
      hran.grows hran.expands behind
  · cases halt with
    | starved =>
        obtain rfl := hhalts.back_eq
        exact ⟨rfl, hran.halted, rfl⟩
    | invalid => exact hran.halted
    | full => exact hhalts.ready_ne_zero hran.halted
    | finished =>
        intro hready
        obtain ⟨htail, hwritten⟩ := hdecodes.2.2 rfl
        refine ⟨?_, htail⟩
        rw [hhalts.delivered_eq_size hgrows hready, hwritten, length_toList]

/-- Members that are written are read to the ends of their streams, and do not fail. -/
theorem reading_decodes (d : Disk) (id : Nat) (tail written lost : List UInt8) :
    Reading d id (fun m more => m.Decodes tail written (more ++ lost))
      (Delivered d id tail written lost)
      (fun m more => m.delivered = written.length ∧ more ++ lost = tail)
      (fun more => tail.length < (more ++ lost).length) False where
  left h := ⟨h.size_le, h.member, h.source⟩
  trans := Delivered.trans
  deliver h hsource count := by
    obtain ⟨bytes, m', hdeliver, hsize, hhands⟩ := hands_deliver h.delivered_le count
    obtain ⟨htake, h'⟩ := h.hands hhands
    refine ⟨bytes, m', hdeliver, hsize,
      ⟨by omega, htake, h', hsource, Nat.le_of_eq (hhands.promise_eq _)⟩, fun hnone hended => ?_⟩
    rw [hhands.delivered_eq, hnone]
    exact hended
  round h hsource count := h.round hsource count

/-- A request gets some bytes of what is left of the stream, and none only at its end, or if the
file ends in front of that. -/
theorem Decodes.read (h : m.Decodes tail written (more ++ lost))
    (hsource : Fetches d id more source) (hcount : 0 < count) :
    ∃ bytes m' source' more', m.read count source d = (.ok bytes, m', source') ∧
      Delivered d id tail written lost count m more bytes m' source' more' ∧
      (bytes.size = 0 → (m'.delivered = written.length ∧ more' ++ lost = tail) ∨
        (more' = [] ∧ tail.length < lost.length)) := by
  rcases (reading_decodes d id tail written lost).read h hsource hcount with
    ⟨hfaulty, -⟩ | ⟨bytes, m', source', more', hread, hdelivered, hend⟩
  · exact hfaulty.elim
  · refine ⟨bytes, m', source', more', hread, hdelivered, fun hnone => (hend hnone).imp_right ?_⟩
    rintro ⟨rfl, hshort⟩
    exact ⟨rfl, hshort⟩

/-- The trailer of what the stream holds is accepted behind all of it. -/
theorem Decodes.trailerMatches (h : m.Decodes tail written rest)
    (hend : m.delivered = written.length) : m.trailerMatches (trailerOf written) = true := by
  have htrailer : (trailerOf written).data.toList =
      LittleEndian.encode 4 (Crc32.compute ⟨written.toArray⟩).toNat ++
        LittleEndian.encode 4 written.length := by
    simp [trailerOf]
  have hcheck : LittleEndian.decodeAt (trailerOf written) 0 4 = m.crc.toNat := by
    rw [LittleEndian.decodeAt_of_drop (by rw [List.drop_zero, htrailer]), h.crc_eq, hend,
      List.take_length]
    exact Nat.mod_eq_of_lt (UInt32.toNat_lt _)
  have hbehind : (trailerOf written).data.toList.drop 4 =
      LittleEndian.encode 4 written.length ++ [] := by
    rw [htrailer, List.drop_left' (LittleEndian.length_encode ..), List.append_nil]
  have hlength : LittleEndian.decodeAt (trailerOf written) 4 4 = m.delivered % 2 ^ 32 := by
    rw [LittleEndian.decodeAt_of_drop hbehind, hend, show 256 ^ 4 = 2 ^ 32 from rfl]
  rw [Member.trailerMatches, hcheck, hlength, beq_self_eq_true, beq_self_eq_true]
  rfl

end Member
end TraceStore.Gzip
