import TraceStore.Proofs.Chunk.Position

/-!
# The course of a request

A reader of chunks loads chunks until one holds a byte, and reads and skips over as many of them as
are asked for. These loops have no bound of their own. `ChunkReader.Course` is what a request comes
to by them, together with what each load on the way came to. Every request has one course, as a load
takes bytes of the file whether it succeeds or not: `ChunkReader.exists_course`.
-/
namespace TraceStore

variable {σ : Type}

/-! ### Loads -/

/-- The number of chunks that some loads brought. -/
def chunksLoaded (loads : List (Except Error Bool)) : Nat :=
  loads.countP fun | .ok more => more | .error _ => false

/-- The number of loads that failed. -/
def failedLoads (loads : List (Except Error Bool)) : Nat := loads.countP fun load => !load.isOk

/-- The bytes that some loads take from a file at least: a header for every chunk, and one byte for
a failure. -/
def leastTaken (loads : List (Except Error Bool)) : Nat :=
  chunkHeaderSize * chunksLoaded loads + failedLoads loads

@[simp] theorem leastTaken_cons (load : Except Error Bool) (loads : List (Except Error Bool)) :
    leastTaken (load :: loads) = leastTaken [load] + leastTaken loads := by
  simp only [leastTaken, chunksLoaded, failedLoads, List.countP_cons, List.countP_nil]
  rw [Nat.mul_add, Nat.mul_add]
  omega

@[simp] theorem leastTaken_append (loads more : List (Except Error Bool)) :
    leastTaken (loads ++ more) = leastTaken loads + leastTaken more := by
  simp only [leastTaken, chunksLoaded, failedLoads, List.countP_append]
  rw [Nat.mul_add]
  omega

theorem leastTaken_loaded : leastTaken [.ok true] = chunkHeaderSize := rfl
theorem leastTaken_failed (e : Error) : leastTaken [.error e] = 1 := rfl

namespace ChunkReader

/-! ### Loops -/

/-- The loop that fills: what its loads came to, and what it comes to itself. It goes on until a
byte is available or a load brings no chunk. -/
inductive Fills (c : Codec σ) (d : Disk) :
    ChunkReader → List (Except Error Bool) → Except Error Bool → ChunkReader → Prop
  | ready {r : ChunkReader} : r.pos < r.cache.size → Fills c d r [] (.ok true) r
  | loaded {r r₁ r' : ChunkReader} {loads : List (Except Error Bool)} {result : Except Error Bool} :
      r.cache.size ≤ r.pos → r.loadNext c d = (.ok true, r₁) → Fills c d r₁ loads result r' →
      Fills c d r (.ok true :: loads) result r'
  | stopped {r r' : ChunkReader} {result : Except Error Bool} :
      r.cache.size ≤ r.pos → r.loadNext c d = (result, r') → result ≠ .ok true →
      Fills c d r [result] result r'

/-- The loop that takes `count` more bytes, in every round those of one chunk: the bytes that it
takes, and how it ends. Reading is to return them, and skipping is to pass over them. -/
inductive Takes (c : Codec σ) (d : Disk) : Nat → ChunkReader → List (Except Error Bool) →
    ByteArray → Except Error Unit → ChunkReader → Prop
  | all {r : ChunkReader} : Takes c d 0 r [] .empty (.ok ()) r
  | more {count : Nat} {r r₁ r' : ChunkReader} {loads more : List (Except Error Bool)}
      {bytes : ByteArray} {result : Except Error Unit} : 0 < count →
      Fills c d r loads (.ok true) r₁ →
      Takes c d (count - min r₁.available count) (r₁.take (min r₁.available count)).2 more bytes
        result r' →
      Takes c d count r (loads ++ more) ((r₁.take (min r₁.available count)).1 ++ bytes) result r'
  | ended {count : Nat} {r r' : ChunkReader} {loads : List (Except Error Bool)} : 0 < count →
      Fills c d r loads (.ok false) r' → Takes c d count r loads .empty (.error .unexpectedEof) r'
  | failed {count : Nat} {r r' : ChunkReader} {loads : List (Except Error Bool)} {e : Error} :
      0 < count → Fills c d r loads (.error e) r' → Takes c d count r loads .empty (.error e) r'

/-- The course of a request that reads on: what its loads came to, its answer, and the reader that
it leaves. -/
inductive Course (c : Codec σ) (d : Disk) : ReadRequest → ChunkReader →
    List (Except Error Bool) → Answer → ChunkReader → Prop
  | read {count : Nat} {r r' : ChunkReader} {loads : List (Except Error Bool)} {bytes : ByteArray}
      {result : Except Error Unit} : Takes c d count r loads bytes result r' →
      Course c d (.read count) r loads (.bytes (result.map fun _ => bytes)) r'
  | skip {count : Nat} {r r' : ChunkReader} {loads : List (Except Error Bool)} {bytes : ByteArray}
      {result : Except Error Unit} : Takes c d count r loads bytes result r' →
      Course c d (.skip count) r loads (.done result) r'
  | none {r : ChunkReader} : Course c d (.readSome 0) r [] (.bytes (.ok .empty)) r
  | some {count : Nat} {r r' : ChunkReader} {loads : List (Except Error Bool)} :
      0 < count → Fills c d r loads (.ok true) r' →
      Course c d (.readSome count) r loads
        (.bytes (.ok (r'.take (min r'.available count)).1)) (r'.take (min r'.available count)).2
  | someEnded {count : Nat} {r r' : ChunkReader} {loads : List (Except Error Bool)} :
      0 < count → Fills c d r loads (.ok false) r' →
      Course c d (.readSome count) r loads (.bytes (.ok .empty)) r'
  | someFailed {count : Nat} {r r' : ChunkReader} {loads : List (Except Error Bool)} {e : Error} :
      0 < count → Fills c d r loads (.error e) r' →
      Course c d (.readSome count) r loads (.bytes (.error e)) r'
  | byte {r r' : ChunkReader} {loads : List (Except Error Bool)} : Fills c d r loads (.ok true) r' →
      Course c d .getc r loads (.byte (r'.take 1).1.data[0]?) (r'.take 1).2
  | noByte {r r' : ChunkReader} {loads : List (Except Error Bool)} {result : Except Error Bool} :
      Fills c d r loads result r' → result ≠ .ok true → Course c d .getc r loads (.byte none) r'

/-- The course of some requests one after the other. -/
inductive Courses (c : Codec σ) (d : Disk) : List ReadRequest → ChunkReader →
    List (Except Error Bool) → List Answer → ChunkReader → Prop
  | nil {r : ChunkReader} : Courses c d [] r [] [] r
  | cons {request : ReadRequest} {requests : List ReadRequest} {r r₁ r' : ChunkReader}
      {loads more : List (Except Error Bool)} {answer : Answer} {answers : List Answer} :
      Course c d request r loads answer r₁ → Courses c d requests r₁ more answers r' →
      Courses c d (request :: requests) r (loads ++ more) (answer :: answers) r'

variable {c : Codec σ} {d : Disk} {r r' r'' : ChunkReader} {F : ByteArray}
  {loads loads' : List (Except Error Bool)} {request : ReadRequest} {requests : List ReadRequest}

/-! ### A request has one course at most -/

theorem Fills.unique {result result' : Except Error Bool} (h : Fills c d r loads result r')
    (h' : Fills c d r loads' result' r'') : loads = loads' ∧ result = result' ∧ r' = r'' := by
  induction h generalizing loads' with
  | ready hpos =>
      cases h' with
      | ready => exact ⟨rfl, rfl, rfl⟩
      | loaded hpos' => omega
      | stopped hpos' => omega
  | loaded hpos hload _ ih =>
      cases h' with
      | ready hpos' => omega
      | loaded _ hload' hrest =>
          cases hload.symm.trans hload'
          obtain ⟨rfl, rfl, rfl⟩ := ih hrest
          exact ⟨rfl, rfl, rfl⟩
      | stopped _ hload' hne => exact absurd (Prod.mk.inj (hload.symm.trans hload')).1.symm hne
  | stopped hpos hload hne =>
      cases h' with
      | ready hpos' => omega
      | loaded _ hload' => exact absurd (Prod.mk.inj (hload.symm.trans hload')).1 hne
      | stopped _ hload' =>
          obtain ⟨rfl, rfl⟩ := Prod.mk.inj (hload.symm.trans hload')
          exact ⟨rfl, rfl, rfl⟩

theorem Takes.unique {count : Nat} {bytes bytes' : ByteArray} {result result' : Except Error Unit}
    (h : Takes c d count r loads bytes result r')
    (h' : Takes c d count r loads' bytes' result' r'') :
    loads = loads' ∧ bytes = bytes' ∧ result = result' ∧ r' = r'' := by
  induction h generalizing loads' bytes' with
  | all =>
      cases h' with
      | all => exact ⟨rfl, rfl, rfl, rfl⟩
      | more hpos => omega
      | ended hpos => omega
      | failed hpos => omega
  | more hpos hfill _ ih =>
      cases h' with
      | all => omega
      | more _ hfill' hrest =>
          obtain ⟨rfl, -, rfl⟩ := hfill.unique hfill'
          obtain ⟨rfl, rfl, rfl, rfl⟩ := ih hrest
          exact ⟨rfl, rfl, rfl, rfl⟩
      | ended _ hfill' => cases (hfill.unique hfill').2.1
      | failed _ hfill' => cases (hfill.unique hfill').2.1
  | ended hpos hfill =>
      cases h' with
      | all => omega
      | more _ hfill' => cases (hfill.unique hfill').2.1
      | ended _ hfill' =>
          obtain ⟨rfl, -, rfl⟩ := hfill.unique hfill'
          exact ⟨rfl, rfl, rfl, rfl⟩
      | failed _ hfill' => cases (hfill.unique hfill').2.1
  | failed hpos hfill =>
      cases h' with
      | all => omega
      | more _ hfill' => cases (hfill.unique hfill').2.1
      | ended _ hfill' => cases (hfill.unique hfill').2.1
      | failed _ hfill' =>
          obtain ⟨rfl, hresult, rfl⟩ := hfill.unique hfill'
          cases hresult
          exact ⟨rfl, rfl, rfl, rfl⟩

theorem Course.unique {answer answer' : Answer} (h : Course c d request r loads answer r')
    (h' : Course c d request r loads' answer' r'') :
    loads = loads' ∧ answer = answer' ∧ r' = r'' := by
  cases h with
  | read htakes =>
      cases h' with
      | read htakes' =>
          obtain ⟨rfl, rfl, rfl, rfl⟩ := htakes.unique htakes'
          exact ⟨rfl, rfl, rfl⟩
  | skip htakes =>
      cases h' with
      | skip htakes' =>
          obtain ⟨rfl, -, rfl, rfl⟩ := htakes.unique htakes'
          exact ⟨rfl, rfl, rfl⟩
  | none =>
      cases h' with
      | none => exact ⟨rfl, rfl, rfl⟩
      | some hpos => omega
      | someEnded hpos => omega
      | someFailed hpos => omega
  | some hpos hfill =>
      cases h' with
      | none => omega
      | some _ hfill' =>
          obtain ⟨rfl, -, rfl⟩ := hfill.unique hfill'
          exact ⟨rfl, rfl, rfl⟩
      | someEnded _ hfill' => cases (hfill.unique hfill').2.1
      | someFailed _ hfill' => cases (hfill.unique hfill').2.1
  | someEnded hpos hfill =>
      cases h' with
      | none => omega
      | some _ hfill' => cases (hfill.unique hfill').2.1
      | someEnded _ hfill' =>
          obtain ⟨rfl, -, rfl⟩ := hfill.unique hfill'
          exact ⟨rfl, rfl, rfl⟩
      | someFailed _ hfill' => cases (hfill.unique hfill').2.1
  | someFailed hpos hfill =>
      cases h' with
      | none => omega
      | some _ hfill' => cases (hfill.unique hfill').2.1
      | someEnded _ hfill' => cases (hfill.unique hfill').2.1
      | someFailed _ hfill' =>
          obtain ⟨rfl, hresult, rfl⟩ := hfill.unique hfill'
          cases hresult
          exact ⟨rfl, rfl, rfl⟩
  | byte hfill =>
      cases h' with
      | byte hfill' =>
          obtain ⟨rfl, -, rfl⟩ := hfill.unique hfill'
          exact ⟨rfl, rfl, rfl⟩
      | noByte hfill' hne => exact absurd (hfill.unique hfill').2.1.symm hne
  | noByte hfill hne =>
      cases h' with
      | byte hfill' => exact absurd (hfill.unique hfill').2.1 hne
      | noByte hfill' =>
          obtain ⟨rfl, -, rfl⟩ := hfill.unique hfill'
          exact ⟨rfl, rfl, rfl⟩

theorem Courses.unique {answers answers' : List Answer}
    (h : Courses c d requests r loads answers r')
    (h' : Courses c d requests r loads' answers' r'') :
    loads = loads' ∧ answers = answers' ∧ r' = r'' := by
  induction h generalizing loads' answers' with
  | nil =>
      cases h'
      exact ⟨rfl, rfl, rfl⟩
  | cons hfirst _ ih =>
      cases h' with
      | cons hfirst' hrest =>
          obtain ⟨rfl, rfl, rfl⟩ := hfirst.unique hfirst'
          obtain ⟨rfl, rfl, rfl⟩ := ih hrest
          exact ⟨rfl, rfl, rfl⟩

/-! ### What loads take from the file -/

/-- Bytes of the file that loads can still take. -/
def left (d : Disk) (r : ChunkReader) : Nat := if r.parked then 0 else r.source.unread d

theorem left_of_ahead {s : List UInt8} (hparked : r.parked = false) (h : r.source.Ahead d s) :
    r.left d = s.length := by
  rw [left, hparked]
  exact h.unread_eq

/-- A load takes bytes of the file, whether it succeeds or not. -/
theorem left_loadNext (hr : r.OnFile d F) :
    (r.loadNext c d).2.left d + leastTaken [(r.loadNext c d).1] ≤ r.left d := by
  cases hparked : r.parked with
  | true =>
      rw [loadNext, if_pos hparked]
      exact Nat.le_refl _
  | false =>
      obtain ⟨s, hs⟩ : ∃ s, r.source.Ahead d s := ⟨_, F, hr.node_eq, rfl⟩
      rcases loadNext_cases c hparked hs with ⟨rfl, source, hload, hahead, -⟩ |
        ⟨chunk, rest, source, rfl, hload, hahead, -⟩ | ⟨e, source, rest, hload, hahead, hlt, -⟩
      all_goals simp only [hload, left, hparked, hs.unread_eq, hahead.unread_eq,
        Bool.false_eq_true, if_false]
      · exact Nat.le_refl _
      · rw [leastTaken_loaded, List.length_append, Chunk.length_frame]
        omega
      · rw [leastTaken_failed]
        omega

theorem Fills.onFile {result : Except Error Bool} (h : Fills c d r loads result r')
    (hr : r.OnFile d F) : r'.OnFile d F := by
  induction h with
  | ready => exact hr
  | loaded hpos hload _ ih =>
      have hsame := (kept_sameFile c d _).load (.refl _) hpos
      rw [hload] at hsame
      exact ih (hr.of_sameFile hsame)
  | stopped hpos hload =>
      have hsame := (kept_sameFile c d _).load (.refl _) hpos
      rw [hload] at hsame
      exact hr.of_sameFile hsame

theorem Fills.left_le {result : Except Error Bool} (h : Fills c d r loads result r')
    (hr : r.OnFile d F) : r'.left d + leastTaken loads ≤ r.left d := by
  induction h with
  | ready => exact Nat.le_refl _
  | loaded hpos hload _ ih =>
      have hleft := left_loadNext (c := c) hr
      have hsame := (kept_sameFile c d _).load (.refl _) hpos
      simp only [hload] at hleft hsame
      have hrest := ih (hr.of_sameFile hsame)
      rw [leastTaken_cons]
      omega
  | stopped hpos hload =>
      have hleft := left_loadNext (c := c) hr
      rwa [hload] at hleft

theorem OnFile.take (hr : r.OnFile d F) (count : Nat) : (r.take count).2.OnFile d F :=
  ⟨hr.node_eq, hr.fileSize_eq⟩

theorem Takes.left_le {count : Nat} {bytes : ByteArray} {result : Except Error Unit}
    (h : Takes c d count r loads bytes result r') (hr : r.OnFile d F) :
    r'.OnFile d F ∧ r'.left d + leastTaken loads ≤ r.left d := by
  induction h with
  | all => exact ⟨hr, Nat.le_refl _⟩
  | @more count r r₁ r' loads more bytes result hpos hfill _ ih =>
      have hleft := hfill.left_le hr
      obtain ⟨hr', hrest⟩ := ih ((hfill.onFile hr).take _)
      have hsame : (r₁.take (min r₁.available count)).2.left d = r₁.left d := rfl
      rw [leastTaken_append]
      exact ⟨hr', by omega⟩
  | ended hpos hfill => exact ⟨hfill.onFile hr, hfill.left_le hr⟩
  | failed hpos hfill => exact ⟨hfill.onFile hr, hfill.left_le hr⟩

theorem Course.left_le {answer : Answer} (h : Course c d request r loads answer r')
    (hr : r.OnFile d F) : r'.OnFile d F ∧ r'.left d + leastTaken loads ≤ r.left d := by
  cases h with
  | read htakes => exact htakes.left_le hr
  | skip htakes => exact htakes.left_le hr
  | none => exact ⟨hr, Nat.le_refl _⟩
  | some hpos hfill => exact ⟨(hfill.onFile hr).take _, hfill.left_le hr⟩
  | someEnded hpos hfill => exact ⟨hfill.onFile hr, hfill.left_le hr⟩
  | someFailed hpos hfill => exact ⟨hfill.onFile hr, hfill.left_le hr⟩
  | byte hfill => exact ⟨(hfill.onFile hr).take _, hfill.left_le hr⟩
  | noByte hfill => exact ⟨hfill.onFile hr, hfill.left_le hr⟩

theorem Courses.left_le {answers : List Answer} (h : Courses c d requests r loads answers r')
    (hr : r.OnFile d F) : r'.OnFile d F ∧ r'.left d + leastTaken loads ≤ r.left d := by
  induction h with
  | nil => exact ⟨hr, Nat.le_refl _⟩
  | cons hfirst _ ih =>
      obtain ⟨hr₁, hleft⟩ := hfirst.left_le hr
      obtain ⟨hr', hrest⟩ := ih hr₁
      rw [leastTaken_append]
      exact ⟨hr', by omega⟩

/-! ### Every request has a course -/

theorem exists_fills (c : Codec σ) (hr : r.OnFile d F) :
    ∃ loads, Fills c d r loads (r.fill c d).1 (r.fill c d).2 := by
  suffices ∀ fuel r, OnFile d F r → r.left d < fuel →
      ∃ loads, Fills c d r loads (fillWithin c d fuel r).1 (fillWithin c d fuel r).2 by
    refine this _ r hr ?_
    rw [left]
    split <;> omega
  intro fuel
  induction fuel with
  | zero => intro r _ hfuel; omega
  | succ fuel ih =>
      intro r hr hfuel
      rw [fillWithin]
      split
      case isTrue hpos => exact ⟨[], .ready hpos⟩
      case isFalse hpos =>
        have hpos := Nat.not_lt.1 hpos
        have hsame := (kept_sameFile c d r).load (.refl r) hpos
        have hleft := left_loadNext (c := c) hr
        split <;> rename_i hload <;> simp only [hload] at hsame hleft
        · rw [leastTaken_loaded, chunkHeaderSize] at hleft
          obtain ⟨loads, hfills⟩ := ih _ (hr.of_sameFile hsame) (by omega)
          exact ⟨.ok true :: loads, .loaded hpos hload hfills⟩
        · exact ⟨[.ok false], .stopped hpos hload (by simp)⟩
        · exact ⟨[.error _], .stopped hpos hload (by simp)⟩

/-- Every round takes a byte at least, so as many rounds as bytes are enough. -/
private theorem exists_takes_within (hr : r.OnFile d F) {fuel count : Nat} (hfuel : count ≤ fuel)
    (done : ByteArray) :
    ∃ loads bytes result,
      Takes c d count r loads bytes result (readWithin c d fuel count done r).2 ∧
      (readWithin c d fuel count done r).1 = result.map fun _ => done ++ bytes := by
  induction fuel generalizing r count done with
  | zero =>
      obtain rfl : count = 0 := by omega
      exact ⟨[], .empty, .ok (), .all, by simp [readWithin, Except.map]⟩
  | succ fuel ih =>
      rw [readWithin]
      split
      case isTrue hzero =>
        subst hzero
        exact ⟨[], .empty, .ok (), .all, by simp [Except.map]⟩
      case isFalse hzero =>
        have hpos := Nat.pos_of_ne_zero hzero
        obtain ⟨loads, hfills⟩ := exists_fills c hr
        split <;> rename_i hfill <;> rw [hfill] at hfills
        · exact ⟨loads, .empty, _, .failed hpos hfills, rfl⟩
        · exact ⟨loads, .empty, _, .ended hpos hfills, rfl⟩
        case h_3 r₁ =>
          have hsome := available_of_fill hfill
          obtain ⟨more, bytes, result, htakes, hresult⟩ :=
            ih ((hfills.onFile hr).take (min r₁.available count))
              (show count - min r₁.available count ≤ fuel by omega)
              (done ++ (r₁.take (min r₁.available count)).1)
          refine ⟨_, _, result, .more hpos hfills htakes, ?_⟩
          rw [← ByteArray.append_assoc]
          exact hresult

theorem exists_takes (c : Codec σ) (hr : r.OnFile d F) (count : Nat) :
    ∃ loads bytes result, Takes c d count r loads bytes result (r.read c count d).2 ∧
      (r.read c count d).1 = result.map fun _ => bytes := by
  obtain ⟨loads, bytes, result, htakes, hresult⟩ :=
    exists_takes_within (c := c) hr (Nat.le_refl count) .empty
  exact ⟨loads, bytes, result, htakes, by simpa [read] using hresult⟩

/-- Every request that reads on has a course, whatever the file holds. -/
theorem exists_course (c : Codec σ) (hr : r.OnFile d F) (hrequest : request.Sequential) :
    ∃ loads, Course c d request r loads (r.ask c d request).1 (r.ask c d request).2 := by
  cases request with
  | read count =>
      obtain ⟨loads, bytes, result, htakes, hresult⟩ := exists_takes c hr count
      refine ⟨loads, ?_⟩
      show Course c d _ r loads (.bytes (r.read c count d).1) (r.read c count d).2
      rw [hresult]
      exact .read htakes
  | skip count =>
      obtain ⟨loads, bytes, result, htakes, hresult⟩ := exists_takes c hr count
      refine ⟨loads, ?_⟩
      rw [ask, skip_eq_read]
      show Course c d _ r loads (.done ((r.read c count d).1.map fun _ => ())) (r.read c count d).2
      have hend : (r.read c count d).1.map (fun _ => ()) = result := by
        rw [hresult]
        cases result <;> rfl
      rw [hend]
      exact .skip htakes
  | readSome count =>
      obtain ⟨loads, hfills⟩ := exists_fills c hr
      by_cases hzero : count = 0
      · subst hzero
        exact ⟨[], .none⟩
      · have hpos := Nat.pos_of_ne_zero hzero
        refine ⟨loads, ?_⟩
        rw [ask, readSome, if_neg hzero]
        split <;> rename_i hfill <;> rw [hfill] at hfills
        · exact .someFailed hpos hfills
        · exact .someEnded hpos hfills
        · exact .some hpos hfills
  | getc =>
      obtain ⟨loads, hfills⟩ := exists_fills c hr
      refine ⟨loads, ?_⟩
      rw [ask, getc]
      rcases hfill : r.fill c d with ⟨e | more, r'⟩ <;> rw [hfill] at hfills
      · exact .noByte hfills (by simp)
      · cases more with
        | false => exact .noByte hfills (by simp)
        | true => exact .byte hfills
  | seek a => exact absurd hrequest id

/-- Requests one after the other have a course. -/
theorem exists_courses (c : Codec σ) (hr : r.OnFile d F)
    (hrequests : ∀ request ∈ requests, request.Sequential) :
    let asked := ReadRequest.askAll (fun r => r.ask c d) requests r
    ∃ loads, Courses c d requests r loads asked.1 asked.2 := by
  induction requests generalizing r with
  | nil => exact ⟨[], .nil⟩
  | cons request requests ih =>
      obtain ⟨hrequest, hrequests⟩ := List.forall_mem_cons.1 hrequests
      obtain ⟨loads, hcourse⟩ := exists_course c hr hrequest
      obtain ⟨more, hcourses⟩ := ih (hcourse.left_le hr).1 hrequests
      exact ⟨loads ++ more, .cons hcourse hcourses⟩

end ChunkReader
end TraceStore
