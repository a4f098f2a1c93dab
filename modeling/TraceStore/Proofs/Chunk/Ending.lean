import TraceStore.Proofs.Chunk.Course
import TraceStore.Proofs.Chunk.Seek
import TraceStore.Proofs.Disk.Gathering

/-!
# Reading ends

Whatever a file holds behind its magic, every request of a handle that reads it ends, and so does
asking for bytes over and over, on after errors too: `Chunked.reading_ends`. What is left to read
only becomes less. A load takes bytes of the file, also one that fails or brings a chunk that
decodes to nothing, and what is delivered without a load is taken from the cache.
-/
namespace TraceStore

variable {σ : Type}

/-- Whether an answer is an error. -/
def Answer.failed : Answer → Bool
  | .bytes result => !result.isOk
  | .byte _ => false
  | .done result => !result.isOk

namespace ChunkReader

variable {c : Codec σ} {d : Disk} {r r' : ChunkReader} {F : ByteArray}
  {loads : List (Except Error Bool)}

/-! ### Errors are failed loads -/

/-- Filling ends with the first load that fails. -/
theorem Fills.failedLoads_eq {result : Except Error Bool} (h : Fills c d r loads result r') :
    failedLoads loads = if result.isOk then 0 else 1 := by
  induction h with
  | ready => rfl
  | loaded _ _ _ ih =>
      rw [failedLoads, List.countP_cons_of_neg (by simp [Except.isOk, Except.toBool])]
      exact ih
  | @stopped _ _ result _ _ hne => cases result <;> rfl

/-- A request for some bytes fails iff a load fails on the way. -/
theorem Course.failed_eq {count : Nat} {answer : Answer}
    (h : Course c d (.readSome count) r loads answer r') :
    failedLoads loads = if answer.failed then 1 else 0 := by
  cases h with
  | none => rfl
  | some _ hfill => exact hfill.failedLoads_eq
  | someEnded _ hfill => exact hfill.failedLoads_eq
  | someFailed _ hfill => exact hfill.failedLoads_eq

theorem Courses.failed_eq {requests : List ReadRequest} {answers : List Answer} {count : Nat}
    (h : Courses c d requests r loads answers r')
    (hrequests : ∀ request ∈ requests, request = .readSome count) :
    failedLoads loads = answers.countP Answer.failed := by
  induction h with
  | nil => rfl
  | cons hfirst _ ih =>
      obtain ⟨rfl, hothers⟩ := List.forall_mem_cons.1 hrequests
      have hone := hfirst.failed_eq
      have hrest := ih hothers
      simp only [failedLoads] at hone hrest ⊢
      rw [List.countP_append, List.countP_cons, hone, hrest, Nat.add_comm]

/-! ### Asking until nothing comes -/

theorem Fills.pos_lt (h : Fills c d r loads (.ok true) r') : r'.pos < r'.cache.size := by
  generalize hresult : Except.ok true = result at h
  induction h with
  | ready hpos => exact hpos
  | loaded _ _ _ ih => exact ih hresult
  | stopped _ _ hne => exact absurd hresult.symm hne

/-- A request that fills takes bytes of the file, or has what it needs in the cache, or ends the
stream. -/
private theorem Fills.left_lt {result : Except Error Bool} (h : Fills c d r loads result r')
    (hr : r.OnFile d F) :
    (result = .ok true ∧ r' = r) ∨ result = .ok false ∨ r'.left d < r.left d := by
  have hleft := h.left_le hr
  cases h with
  | ready => exact .inl ⟨rfl, rfl⟩
  | loaded =>
      rw [leastTaken_cons, leastTaken_loaded, chunkHeaderSize] at hleft
      exact .inr (.inr (by omega))
  | @stopped _ _ result _ _ hne =>
      cases result with
      | error e =>
          rw [leastTaken_failed] at hleft
          exact .inr (.inr (by omega))
      | ok more =>
          cases more with
          | false => exact .inr (.inl rfl)
          | true => exact absurd rfl hne

/-- What is left to read, in the file and then in the cache, becomes less with every request for
some bytes, up to the one that gets none. -/
private theorem Course.lt {count : Nat} {answer : Answer} (hcount : 0 < count)
    (h : Course c d (.readSome count) r loads answer r') (hr : r.OnFile d F) :
    answer = .bytes (.ok .empty) ∨ answer ≠ .bytes (.ok .empty) ∧
      Prod.Lex (· < ·) (· < ·) (r'.left d, r'.available) (r.left d, r.available) := by
  cases h with
  | none => omega
  | @some _ _ r₁ _ _ hfill =>
      have hsome : 0 < r₁.available := Nat.sub_pos_of_lt hfill.pos_lt
      have hsize := size_take (Nat.min_le_left r₁.available count)
      refine .inr ⟨fun hnone => ?_, ?_⟩
      · rw [Except.ok.inj (Answer.bytes.inj hnone), ByteArray.size_empty] at hsize
        omega
      · rcases hfill.left_lt hr with ⟨-, rfl⟩ | hended | hlt
        · refine .right _ ?_
          simp only [take, available] at hsome ⊢
          omega
        · cases hended
        · exact .left _ _ hlt
  | someEnded => exact .inl rfl
  | someFailed _ hfill =>
      refine .inr ⟨by simp, ?_⟩
      rcases hfill.left_lt hr with ⟨hready, -⟩ | hended | hlt
      · cases hready
      · cases hended
      · exact .left _ _ hlt

/-- Asking for some bytes over and over comes to a request that gets none. -/
theorem exists_last_readSome (c : Codec σ) (hr : r.OnFile d F) (count : Nat) :
    ∃ k,
      let asked := ReadRequest.askAll (fun r => r.ask c d) (List.replicate k (.readSome count)) r
      (∀ answer ∈ asked.1, answer ≠ .bytes (.ok .empty)) ∧
        (asked.2.ask c d (.readSome count)).1 = .bytes (.ok .empty) := by
  by_cases hzero : count = 0
  · subst hzero
    exact ⟨0, by simp [ReadRequest.askAll], rfl⟩
  -- The induction is on what is left in the file, and with that the same, in the cache.
  have hwf := (Prod.lex Nat.lt_wfRel Nat.lt_wfRel).wf
  induction hleft : (r.left d, r.available) using hwf.induction generalizing r with
  | _ left ih =>
      obtain ⟨loads, hcourse⟩ :=
        exists_course c hr (show (ReadRequest.readSome count).Sequential from trivial)
      rcases hcourse.lt (Nat.pos_of_ne_zero hzero) hr with hnone | ⟨hsome, hlt⟩
      · exact ⟨0, by simp [ReadRequest.askAll], hnone⟩
      · obtain ⟨k, hsomes, hlast⟩ := ih _ (hleft ▸ hlt) (hcourse.left_le hr).1 rfl
        refine ⟨k + 1, ?_, hlast⟩
        exact List.forall_mem_cons.2 ⟨hsome, hsomes⟩

/-! ### What is left at the start -/

/-- A reader just opened has all before it but the magic. -/
theorem left_of_open {path : String} (hF : d.contents? path = some F)
    (h : ChunkReader.open c path d = .ok r) : r.left d + 2 = F.size := by
  by_cases hmagic : c.magicBytes.data.toList <+: F.data.toList
  · obtain ⟨body, hbody⟩ := hmagic
    obtain ⟨source, hopen, hahead, -⟩ := open_of_magic hF hbody.symm
    obtain rfl := Except.ok.inj (h.symm.trans hopen)
    rw [left_of_ahead rfl hahead, ← length_toList F, ← hbody, List.length_append, length_toList,
      Codec.size_magicBytes, Nat.add_comm]
  · rw [open_of_not_magic hF hmagic] at h
    cases h

/-- A reader that accepts a position has no more before it than behind the magic. The position may
lie in the magic, but then a header follows. -/
theorem left_of_accepted (hr : r.OnFile d F) (hF : 2 ≤ F.size) {a : Offset}
    (haccepted : r.setCurrentOffset c a d = (.ok (), r')) : r'.left d + 2 ≤ F.size := by
  obtain ⟨-, ⟨hend, hzero⟩ | ⟨chunk, rest, hchunk, hin⟩⟩ := decodable_of_accepted hr haccepted
  · obtain ⟨source, hseek, hahead, -⟩ := setCurrentOffset_end (c := c) hr hend hzero
    cases haccepted.symm.trans hseek
    rw [left_of_ahead rfl hahead]
    exact Nat.le_trans (Nat.le_of_eq (Nat.zero_add 2)) hF
  · obtain ⟨source, hseek, hahead, -⟩ := setCurrentOffset_chunk hr chunk hchunk hin
    cases haccepted.symm.trans hseek
    have hlen := congrArg List.length hchunk
    rw [List.length_drop, length_toList, List.length_append, Chunk.length_frame,
      chunkHeaderSize] at hlen
    rw [left_of_ahead rfl hahead]
    omega

/-- Whatever a reader is asked for, no more is before it than behind the magic. -/
theorem left_ask (hr : r.OnFile d F) (hleft : r.left d + 2 ≤ F.size) (request : ReadRequest) :
    (r.ask c d request).2.left d + 2 ≤ F.size := by
  have hsequential (hrequest : request.Sequential) :
      (r.ask c d request).2.left d + 2 ≤ F.size := by
    obtain ⟨loads, hcourse⟩ := exists_course c hr hrequest
    have hle := (hcourse.left_le hr).2
    omega
  cases request with
  | seek a =>
      rcases setCurrentOffset_cases c d r a with ⟨r', hseek⟩ | ⟨r', hseek⟩
      · rw [ask, hseek]
        exact left_of_accepted hr (by omega) hseek
      · rw [ask, hseek]
        have hpark : r'.park.left d = 0 := rfl
        show r'.park.left d + 2 ≤ F.size
        omega
  | _ => exact hsequential trivial

end ChunkReader

/-! ### Handles -/

variable {c : Codec σ} {d : Disk} {F : ByteArray} {path : String} {f : File (Chunked σ)}

/-- The courses of some requests to a handle that has a reader open. -/
def File.Courses (d : Disk) (requests : List ReadRequest) (f : File (Chunked σ))
    (loads : List (Except Error Bool)) (answers : List Answer) (f' : File (Chunked σ)) : Prop :=
  ∃ (r r' : ChunkReader) (path : String) (b : Chunked σ), f = r.handle path b ∧
    f' = r'.handle path b ∧ r.Courses b.codec d requests loads answers r'

/-- No more is left to read of a file than what lies behind its magic. -/
theorem OpenOn.exists_left_le (h : OpenOn c path d f) (hF : d.contents? path = some F) :
    ∃ (r : ChunkReader) (b : Chunked σ), f = r.handle path b ∧ b.codec = c ∧ r.OnFile d F ∧
      r.left d + 2 ≤ F.size := by
  induction h with
  | opened hcodec hopen =>
      obtain ⟨r, b, hr, hb, rfl⟩ := Chunked.reader_of_open hopen
      rw [hcodec] at hr hb
      exact ⟨r, b, rfl, hb, ChunkReader.onFile_of_open hF hr,
        Nat.le_of_eq (ChunkReader.left_of_open hF hr)⟩
  | asked request _ ih =>
      obtain ⟨r, b, rfl, rfl, hr, hleft⟩ := ih
      rw [ChunkReader.ask_handle]
      exact ⟨_, b, rfl, rfl, hr.of_sameFile (ChunkReader.sameFile_ask r request),
        ChunkReader.left_ask hr hleft request⟩

/-- Requests to a handle that has a reader open have the courses that they have with the reader. -/
theorem File.courses_handle {r : ChunkReader} {b : Chunked σ} {requests : List ReadRequest}
    {loads : List (Except Error Bool)} {answers : List Answer} {f' : File (Chunked σ)} :
    (r.handle path b).Courses d requests loads answers f' ↔
      ∃ r' : ChunkReader, f' = r'.handle path b ∧
        r.Courses b.codec d requests loads answers r' := by
  constructor
  · rintro ⟨r₁, r', path', ⟨codec, memory, o, state⟩, hf, rfl, hcourses⟩
    obtain ⟨codec', memory', o', state'⟩ := b
    simp only [ChunkReader.handle, File.mk.injEq, Chunked.mk.injEq, ChunkState.reading.injEq] at hf
    obtain ⟨rfl, -, -, rfl, rfl, rfl, rfl⟩ := hf
    exact ⟨r', rfl, hcourses⟩
  · rintro ⟨r', rfl, hcourses⟩
    exact ⟨r, r', path, b, rfl, rfl, hcourses⟩

/-- Whatever a file holds behind its magic, a handle opens it, and whatever such a handle was asked
for, every request that reads on has a course, which is the only one, as has the loop that gathers a
header or a block. For requests one after the other, the chunks that are loaded and the loads that
fail are limited by the bytes behind the magic: every chunk takes a header and every failure a byte.
And requests for some bytes come to one that gets none, on after errors too, with no more errors on
the way than there are bytes behind the magic. -/
theorem Chunked.reading_ends (c : Codec σ) (memory : σ) (o : WriteOptions)
    (hF : d.contents? path = some F) (hmagic : c.magicBytes.data.toList <+: F.data.toList) :
    (∃ f, (File.new (Chunked.new c memory o)).open path .read d = ⟨.ok (), f, d⟩ ∧
      OpenOn c path d f) ∧
    (∀ (source source' : FileReader) (count : Nat) (result : Except IoError ByteArray),
      FileReader.Gathers d count .empty source result source' ↔
        (result, source') = source.read count d) ∧
    ∀ f, OpenOn c path d f →
      (∀ requests : List ReadRequest, (∀ request ∈ requests, request.Sequential) →
        ∃ loads,
          (∀ loads' answers f', f.Courses d requests loads' answers f' ↔ loads' = loads ∧
            (answers, f') = ReadRequest.askAll (fun f => f.ask d) requests f) ∧
          4 * chunksLoaded loads + failedLoads loads ≤ F.size - 2) ∧
      ∀ count, ∃ k,
        let asked := ReadRequest.askAll (fun f => f.ask d) (List.replicate k (.readSome count)) f
        (∀ answer ∈ asked.1, answer ≠ .bytes (.ok .empty)) ∧
          (asked.2.ask d (.readSome count)).1 = .bytes (.ok .empty) ∧
          asked.1.countP Answer.failed ≤ F.size - 2 := by
  refine ⟨?_, fun _ _ _ _ => FileReader.gathers_iff, fun f hf => ?_⟩
  · obtain ⟨_, hopen⟩ := Chunked.open_of_magic memory o hF hmagic
    exact ⟨_, hopen, .opened rfl hopen⟩
  obtain ⟨r, b, rfl, rfl, hr, hleft⟩ := hf.exists_left_le hF
  -- Requests of the handle are requests of its reader.
  have hasked (requests : List ReadRequest) :
      ReadRequest.askAll (fun f => f.ask d) requests (r.handle path b) =
        (ReadRequest.askAll (fun r => r.ask b.codec d) requests r).map id (·.handle path b) :=
    ReadRequest.askAll_map (·.handle path b) (fun r => r.ask_handle path b d) requests r
  have hbound {requests : List ReadRequest} {loads : List (Except Error Bool)}
      {answers : List Answer} {r' : ChunkReader}
      (h : r.Courses b.codec d requests loads answers r') : leastTaken loads ≤ F.size - 2 := by
    have hle := (h.left_le hr).2
    omega
  refine ⟨fun requests hrequests => ?_, fun count => ?_⟩
  · obtain ⟨loads, hcourses⟩ := ChunkReader.exists_courses b.codec hr hrequests
    refine ⟨loads, fun loads' answers f' => ?_, hbound hcourses⟩
    rw [hasked, File.courses_handle]
    constructor
    · rintro ⟨r', rfl, hcourses'⟩
      obtain ⟨rfl, hanswers, rfl⟩ := hcourses.unique hcourses'
      exact ⟨rfl, Prod.ext hanswers.symm rfl⟩
    · rintro ⟨rfl, hout⟩
      obtain ⟨rfl, rfl⟩ := Prod.mk.inj hout
      exact ⟨_, rfl, hcourses⟩
  · obtain ⟨k, hsomes, hlast⟩ := ChunkReader.exists_last_readSome b.codec hr count
    refine ⟨k, ?_⟩
    rw [hasked]
    refine ⟨hsomes, ?_, ?_⟩
    · show (((_ : ChunkReader).handle path b).ask d _).1 = _
      rw [ChunkReader.ask_handle]
      exact hlast
    · have hrequests : ∀ request ∈ List.replicate k (.readSome count),
          request = ReadRequest.readSome count := fun _ => List.eq_of_mem_replicate
      obtain ⟨loads, hcourses⟩ := ChunkReader.exists_courses b.codec hr
        fun request hrequest => by rw [hrequests request hrequest]; trivial
      have hle := hbound hcourses
      rw [leastTaken, hcourses.failed_eq hrequests] at hle
      exact Nat.le_trans (Nat.le_add_left ..) hle

theorem Chunked.reading_ends_past_damage :
    let d : Disk := ⟨[("t", 0)], #[.file ⟨#[0x70, 0x6c, 0, 0, 0, 0, 255, 255, 255, 255, 7]⟩]⟩
    ∃ f, OpenOn Codec.plain "t" d f ∧ ∃ k,
      let asked := ReadRequest.askAll (fun f => f.ask d) (List.replicate k (.readSome 1)) f
      (asked.2.ask d (.readSome 1)).1 = .bytes (.ok .empty) ∧
        asked.1.countP Answer.failed ≤ 9 := by
  intro d
  have hF : d.contents? "t" = some ⟨#[0x70, 0x6c, 0, 0, 0, 0, 255, 255, 255, 255, 7]⟩ := rfl
  obtain ⟨⟨f, -, hf⟩, -, hends⟩ := reading_ends Codec.plain () default hF
    ⟨[0, 0, 0, 0, 255, 255, 255, 255, 7], rfl⟩
  obtain ⟨k, -, hlast, hfailed⟩ := (hends f hf).2 1
  exact ⟨f, hf, k, hlast, hfailed⟩

end TraceStore
