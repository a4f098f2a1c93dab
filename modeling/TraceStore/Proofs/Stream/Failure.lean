import TraceStore.Proofs.Gzip.AnyFile
import TraceStore.Proofs.Operations
import TraceStore.Proofs.Stream.Cursor
import TraceStore.Proofs.Stream.Cut

/-!
# Streams that fail

In the course of a request a decoder may come to the end of its stream, or to a fault, and a reader
keeps in mind which: `StreamReader.ask_of_course`. A fault is kept for good, whatever the decoder
would answer after it, and only a stream that ended without one counts as read in full:
`Streamed.failure_lasts`.
-/
namespace TraceStore

variable {δ ε : Type} [StreamDecoder δ] [StreamEncoder ε]

/-! ### What a decoder comes to -/

namespace StreamDecoder

/-- What comes of asking a decoder for bytes until so many have come, `askedFor missing` of them at
a time: nothing stops it, or the end of the stream does, or a fault. -/
inductive Course (d : Disk) (askedFor : Nat → Nat) :
    Nat → δ → Option (Except StreamFault Unit) → δ → Prop
  | done {x} : Course d askedFor 0 x none x
  | fault {missing x x' fault} : 0 < missing →
      read (askedFor missing) x d = (.error fault, x') →
      Course d askedFor missing x (some (.error fault)) x'
  | ended {missing x x' piece} : 0 < missing → read (askedFor missing) x d = (.ok piece, x') →
      piece.size = 0 → Course d askedFor missing x (some (.ok ())) x'
  | more {missing x x' x'' piece stop} : 0 < missing →
      read (askedFor missing) x d = (.ok piece, x') → piece.size ≠ 0 →
      Course d askedFor (missing - piece.size) x' stop x'' → Course d askedFor missing x stop x''

/-- A decoder that was started on a file and has not failed stays at the end of its stream once it
has come there. -/
def StaysEnded (δ : Type) [StreamDecoder δ] : Prop :=
  ∀ {d : Disk} {node : Nat} {F : ByteArray} {bytes : List UInt8} {x x' : δ} {count : Nat}
    {piece : ByteArray}, d.node? node = some (.file F) →
    HandsOut (fun count x => read count x d) (start node d) bytes x → 0 < count →
    read count x d = (.ok piece, x') → piece.size = 0 →
    Delivers (fun count x => read count x d) [] x'

variable {d : Disk} {askedFor : Nat → Nat} {missing : Nat} {x x' : δ}
  {stop : Option (Except StreamFault Unit)}

/-- Asking comes to something. -/
theorem exists_course (d : Disk) (askedFor : Nat → Nat) (missing : Nat) (x : δ) :
    ∃ stop x', Course d askedFor missing x stop x' := by
  induction missing using Nat.strongRecOn generalizing x with
  | _ missing ih =>
      rcases Nat.eq_zero_or_pos missing with rfl | hmissing
      · exact ⟨none, x, .done⟩
      obtain ⟨⟨fault | piece, x₁⟩, hread⟩ : ∃ answer, read (askedFor missing) x d = answer :=
        ⟨_, rfl⟩
      · exact ⟨_, x₁, .fault hmissing hread⟩
      by_cases hpiece : piece.size = 0
      · exact ⟨_, x₁, .ended hmissing hread hpiece⟩
      · obtain ⟨stop, x', hrest⟩ := ih (missing - piece.size) (by omega) x₁
        exact ⟨stop, x', .more hmissing hread hpiece hrest⟩

/-- Asking comes to one thing. -/
theorem Course.unique {x₁ x₂ : δ} {stop₁ stop₂ : Option (Except StreamFault Unit)}
    (h₁ : Course d askedFor missing x stop₁ x₁) (h₂ : Course d askedFor missing x stop₂ x₂) :
    stop₁ = stop₂ ∧ x₁ = x₂ := by
  induction h₁ generalizing stop₂ x₂ with
  | done =>
      cases h₂ with
      | done => exact ⟨rfl, rfl⟩
      | fault hpos => omega
      | ended hpos => omega
      | more hpos => omega
  | fault hpos hread =>
      cases h₂ with
      | done => omega
      | fault _ hread' => cases hread.symm.trans hread'; exact ⟨rfl, rfl⟩
      | ended _ hread' => cases hread.symm.trans hread'
      | more _ hread' => cases hread.symm.trans hread'
  | ended hpos hread hsize =>
      cases h₂ with
      | done => omega
      | fault _ hread' => cases hread.symm.trans hread'
      | ended _ hread' => cases hread.symm.trans hread'; exact ⟨rfl, rfl⟩
      | more _ hread' hne => cases hread.symm.trans hread'; exact absurd hsize hne
  | more hpos hread hne _ ih =>
      cases h₂ with
      | done => omega
      | fault _ hread' => cases hread.symm.trans hread'
      | ended _ hread' hsize => cases hread.symm.trans hread'; exact absurd hsize hne
      | more _ hread' _ hrest => cases hread.symm.trans hread'; exact ih hrest

/-- Where nothing stops it, a decoder only hands bytes out. -/
theorem Course.handsOut (hasks : ∀ m, 0 < m → m ≤ missing → 0 < askedFor m)
    (h : Course d askedFor missing x none x') :
    ∃ bytes, HandsOut (fun count x => read count x d) x bytes x' := by
  generalize hstop : (none : Option (Except StreamFault Unit)) = stop at h
  induction h with
  | done => exact ⟨[], .nil⟩
  | fault => cases hstop
  | ended => cases hstop
  | more hpos hread _ _ ih =>
      obtain ⟨bytes, hout⟩ := ih (fun m hm hle => hasks m hm (by omega)) hstop
      exact ⟨_, .cons (hasks _ hpos (Nat.le_refl _)) hread hout⟩

/-- Where the end of the stream stops it, a decoder hands bytes out, and then none. -/
theorem Course.handsOut_ended (hasks : ∀ m, 0 < m → m ≤ missing → 0 < askedFor m)
    (h : Course d askedFor missing x (some (.ok ())) x') :
    ∃ bytes x₁ count piece, HandsOut (fun count x => read count x d) x bytes x₁ ∧ 0 < count ∧
      read count x₁ d = (.ok piece, x') ∧ piece.size = 0 := by
  generalize hstop : (some (.ok ()) : Option (Except StreamFault Unit)) = stop at h
  induction h with
  | done => cases hstop
  | fault => cases hstop
  | ended hpos hread hsize => exact ⟨[], _, _, _, .nil, hasks _ hpos (Nat.le_refl _), hread, hsize⟩
  | more hpos hread _ _ ih =>
      obtain ⟨bytes, x₁, count, piece, hout, hlast⟩ :=
        ih (fun m hm hle => hasks m hm (by omega)) hstop
      exact ⟨_, x₁, count, piece, .cons (hasks _ hpos (Nat.le_refl _)) hread hout, hlast⟩

/-- A decoder that has nothing more to deliver comes to the end of the stream, and stays there. -/
theorem Course.of_delivers_nil (hasks : ∀ m, 0 < m → m ≤ missing → 0 < askedFor m)
    (hnil : Delivers (fun count x => read count x d) [] x)
    (h : Course d askedFor missing x stop x') :
    (∀ fault, stop ≠ some (.error fault)) ∧ Delivers (fun count x => read count x d) [] x' := by
  cases h with
  | done => exact ⟨fun fault => by simp, hnil⟩
  | fault hpos hread =>
      obtain ⟨_, _, _, hread', -⟩ := hnil.step (hasks _ hpos (Nat.le_refl _))
      cases hread.symm.trans hread'
  | ended hpos hread =>
      obtain ⟨_, _, rest, hread', hs, -, -, hrest⟩ := hnil.step (hasks _ hpos (Nat.le_refl _))
      cases hread.symm.trans hread'
      obtain ⟨-, rfl⟩ := List.append_eq_nil_iff.1 hs.symm
      exact ⟨fun fault => by simp, hrest⟩
  | more hpos hread hne =>
      obtain ⟨_, _, _, hread', hs, -⟩ := hnil.step (hasks _ hpos (Nat.le_refl _))
      cases hread.symm.trans hread'
      exact absurd (toList_eq_nil_iff.1 (List.append_eq_nil_iff.1 hs.symm).1) hne

end StreamDecoder

/-! ### What a request comes to -/

/-- The error that the end of a stream, or a fault, is to those who need more bytes. -/
def StreamFault.errorOf : Except StreamFault Unit → Error
  | .ok () => .unexpectedEof
  | .error fault => fault.toError

namespace ReadRequest

/-- Bytes that a request needs of a decoder. -/
def needed : ReadRequest → Nat
  | read count | skip count => count
  | readSome count => min count 1
  | getc => 1
  | seek _ => 0

/-- Bytes that a decoder is asked for at a time when so many are missing. -/
def askedFor : ReadRequest → Nat → Nat
  | readSome count, _ => count
  | skip _, missing => min missing StreamReader.skipSize
  | _, missing => missing

/-- The answer to a request in the course of which the stream ends or a fault comes up. -/
def stopped (ending : Except StreamFault Unit) : ReadRequest → Answer
  | readSome _ => .bytes (ending.map (fun _ => .empty) |>.mapError StreamFault.toError)
  | request => request.refused (StreamFault.errorOf ending)

/-- Whether an answer is what was asked for. -/
inductive Fulfilled : ReadRequest → Answer → Prop
  | read {count bytes} : Fulfilled (.read count) (.bytes (.ok bytes))
  | readSome {count piece} : count = 0 ∨ piece.size ≠ 0 →
      Fulfilled (.readSome count) (.bytes (.ok piece))
  | getc {b} : Fulfilled .getc (.byte (some b))
  | skip {count} : Fulfilled (.skip count) (.done (.ok ()))

/-- What a request with a given course is answered with. -/
inductive Answered (request : ReadRequest) : Option (Except StreamFault Unit) → Answer → Prop
  | fulfilled {answer} : request.Fulfilled answer → Answered request none answer
  | stopped {ending} : Answered request (some ending) (request.stopped ending)

theorem Answered.eq_stopped {request : ReadRequest} {ending : Except StreamFault Unit}
    {answer : Answer} (h : request.Answered (some ending) answer) :
    answer = request.stopped ending := by
  cases h
  rfl

theorem askedFor_pos (request : ReadRequest) (missing : Nat) (hpos : 0 < missing)
    (hle : missing ≤ request.needed) : 0 < request.askedFor missing := by
  cases request with
  | readSome count =>
      rw [needed] at hle
      show 0 < count
      omega
  | skip count =>
      show 0 < min missing StreamReader.skipSize
      rw [StreamReader.skipSize]
      omega
  | _ => exact hpos

end ReadRequest

namespace StreamReader

open StreamDecoder

variable {d : Disk} {r : StreamReader δ} {x : δ} {stop : Option (Except StreamFault Unit)}

/-- The reader that is left where its decoder has come to something. -/
def stoppedAt (r : StreamReader δ) (x : δ) : Option (Except StreamFault Unit) → StreamReader δ
  | none => { r with decoder := x }
  | some ending => { r with decoder := x, tail := tailOf ending }

/-- The result of a request that has come to something. -/
private def resultOf {α : Type} (got : α) : Option (Except StreamFault Unit) → Except Error α
  | none => .ok got
  | some ending => .error (StreamFault.errorOf ending)

/-- A request for exactly some bytes. -/
private theorem readWithin_of_course {fuel count : Nat} (hfuel : count ≤ fuel)
    (htail : r.tail ≠ .failed) (h : Course d id count r.decoder stop x) (done : ByteArray) :
    ∃ bytes, readWithin d fuel count done r = (resultOf bytes stop, r.stoppedAt x stop) ∧
      (stop = none → done.size + count ≤ bytes.size) := by
  generalize hx : r.decoder = x₀ at h
  induction h generalizing fuel r done with
  | done =>
      subst hx
      refine ⟨done, ?_, fun _ => Nat.le_refl _⟩
      cases fuel <;> rfl
  | fault hpos hread =>
      subst hx
      obtain ⟨fuel, rfl⟩ := Nat.exists_eq_succ_of_ne_zero (by omega : fuel ≠ 0)
      refine ⟨done, ?_, fun hstop => by cases hstop⟩
      rw [readWithin, if_neg (by omega), readSome, if_neg (by omega), if_neg htail]
      rw [id] at hread
      rw [hread]
      rfl
  | ended hpos hread hsize =>
      subst hx
      obtain ⟨fuel, rfl⟩ := Nat.exists_eq_succ_of_ne_zero (by omega : fuel ≠ 0)
      refine ⟨done, ?_, fun hstop => by cases hstop⟩
      rw [readWithin, if_neg (by omega), readSome, if_neg (by omega), if_neg htail]
      rw [id] at hread
      simp only [hread, isEmpty_iff.2 hsize, if_true]
      rfl
  | @more count x₀ x₁ x' piece stop hpos hread hne _ ih =>
      subst hx
      obtain ⟨fuel, rfl⟩ := Nat.exists_eq_succ_of_ne_zero (by omega : fuel ≠ 0)
      obtain ⟨bytes, hrest, hsize⟩ := ih (r := { r with decoder := x₁ })
        (show count - piece.size ≤ fuel by omega) htail (done ++ piece) rfl
      refine ⟨bytes, ?_, fun hstop => ?_⟩
      · rw [readWithin, if_neg (by omega), readSome, if_neg (by omega), if_neg htail]
        rw [id] at hread
        simp only [hread, mt isEmpty_iff.1 hne, Bool.false_eq_true, if_false]
        rw [hrest]
        cases stop <;> rfl
      · have hle := hsize hstop
        rw [ByteArray.size_append] at hle
        omega

/-- A request to pass over bytes. -/
private theorem skipWithin_of_course {fuel count : Nat} (hfuel : count ≤ fuel)
    (h : Course d (min · skipSize) count r.decoder stop x) :
    skipWithin d fuel count r = (resultOf () stop, r.stoppedAt x stop) := by
  generalize hx : r.decoder = x₀ at h
  induction h generalizing fuel r with
  | done =>
      subst hx
      cases fuel <;> rfl
  | fault hpos hread =>
      subst hx
      obtain ⟨fuel, rfl⟩ := Nat.exists_eq_succ_of_ne_zero (by omega : fuel ≠ 0)
      rw [skipWithin, if_neg (by omega), hread]
      rfl
  | ended hpos hread hsize =>
      subst hx
      obtain ⟨fuel, rfl⟩ := Nat.exists_eq_succ_of_ne_zero (by omega : fuel ≠ 0)
      rw [skipWithin, if_neg (by omega), hread]
      exact if_pos (isEmpty_iff.2 hsize)
  | @more count x₀ x₁ x' piece stop hpos hread hne _ ih =>
      subst hx
      obtain ⟨fuel, rfl⟩ := Nat.exists_eq_succ_of_ne_zero (by omega : fuel ≠ 0)
      have hrest := ih (r := { r with decoder := x₁ }) (show count - piece.size ≤ fuel by omega) rfl
      rw [skipWithin, if_neg (by omega), hread]
      simp only [mt isEmpty_iff.1 hne, Bool.false_eq_true, if_false]
      rw [hrest]
      cases stop <;> rfl

/-- A request for some bytes. -/
private theorem readSome_of_course {count : Nat} (htail : r.tail ≠ .failed)
    (h : Course d (fun _ => count) (min count 1) r.decoder stop x) :
    (ReadRequest.readSome count).Answered stop (.bytes (r.readSome count d).1) ∧
      (r.readSome count d).2 = r.stoppedAt x stop := by
  by_cases hcount : count = 0
  · subst hcount
    cases h with
    | done => exact ⟨.fulfilled (.readSome (.inl rfl)), rfl⟩
    | fault hpos => simp at hpos
    | ended hpos => simp at hpos
    | more hpos => simp at hpos
  rw [Nat.min_eq_right (Nat.pos_of_ne_zero hcount)] at h
  rw [StreamReader.readSome, if_neg hcount, if_neg htail]
  cases h with
  | fault _ hread =>
      rw [hread]
      exact ⟨.stopped, rfl⟩
  | @ended _ _ _ piece _ hread hsize =>
      obtain rfl : piece = .empty := eq_of_toList_eq (toList_eq_nil_iff.2 hsize)
      rw [hread]
      exact ⟨.stopped, rfl⟩
  | more _ hread hne hrest =>
      -- A piece that is not empty has the byte that is needed.
      rw [show 1 - _ = 0 by omega] at hrest
      cases hrest with
      | done =>
          simp only [hread, mt isEmpty_iff.1 hne, Bool.false_eq_true, if_false]
          exact ⟨.fulfilled (.readSome (.inr hne)), rfl⟩
      | fault hpos => omega
      | ended hpos => omega
      | more hpos => omega

/-- What a request comes to is what it is answered with, and what the reader keeps in mind. -/
theorem ask_of_course (htail : r.tail ≠ .failed) {request : ReadRequest}
    (hrequest : request.Sequential)
    (h : Course d request.askedFor request.needed r.decoder stop x) :
    request.Answered stop (r.ask d request).1 ∧ (r.ask d request).2 = r.stoppedAt x stop := by
  cases request with
  | read count =>
      obtain ⟨bytes, hread, -⟩ := readWithin_of_course (Nat.le_refl _) htail h .empty
      rw [ask, StreamReader.read, show readWithin d count count .empty r = _ from hread]
      refine ⟨?_, rfl⟩
      cases stop with
      | none => exact .fulfilled .read
      | some ending => exact .stopped
  | getc =>
      obtain ⟨bytes, hread, hsize⟩ := readWithin_of_course (Nat.le_refl _) htail h .empty
      rw [ask, StreamReader.getc, StreamReader.read,
        show readWithin d 1 1 .empty r = _ from hread]
      cases stop with
      | none =>
          have hpos : 0 < bytes.data.size := by
            have hle := hsize rfl
            rwa [ReadRequest.needed] at hle
          refine ⟨?_, rfl⟩
          simp only [Prod.map, resultOf, Array.getElem?_eq_getElem hpos]
          exact .fulfilled .getc
      | some ending => exact ⟨.stopped, rfl⟩
  | skip count =>
      have hskip := skipWithin_of_course (Nat.le_refl _) h
      rw [ask, StreamReader.skip, if_neg htail, show skipWithin d count count r = _ from hskip]
      refine ⟨?_, rfl⟩
      cases stop with
      | none => exact .fulfilled .skip
      | some ending => exact .stopped
  | readSome count => exact readSome_of_course htail h
  | seek a => exact absurd hrequest id

/-- A reader that has failed refuses every request but those for nothing, and stays as it is. -/
theorem ask_of_failed (htail : r.tail = .failed) (d : Disk) (request : ReadRequest) :
    (r.ask d request).2 = r ∧ (request ≠ .read 0 → request ≠ .readSome 0 →
      ∃ e, (r.ask d request).1 = request.refused e) := by
  have hreadSome (count : Nat) (hcount : 0 < count) :
      r.readSome count d = (.error (.corrupt .failedGzip), r) := by
    rw [StreamReader.readSome, if_neg (by omega), if_pos htail]
  have hread (count : Nat) (hcount : 0 < count) :
      r.read count d = (.error (.corrupt .failedGzip), r) := by
    obtain ⟨count, rfl⟩ := Nat.exists_eq_succ_of_ne_zero (by omega : count ≠ 0)
    rw [StreamReader.read, readWithin, if_neg (by omega), hreadSome _ hcount]
  cases request with
  | read count =>
      rcases Nat.eq_zero_or_pos count with rfl | hcount
      · exact ⟨rfl, fun hne => absurd rfl hne⟩
      · rw [ask, hread count hcount]
        exact ⟨rfl, fun _ _ => ⟨_, rfl⟩⟩
  | readSome count =>
      rcases Nat.eq_zero_or_pos count with rfl | hcount
      · exact ⟨rfl, fun _ hne => absurd rfl hne⟩
      · rw [ask, hreadSome count hcount]
        exact ⟨rfl, fun _ _ => ⟨_, rfl⟩⟩
  | getc =>
      rw [ask, StreamReader.getc, hread 1 Nat.one_pos]
      exact ⟨rfl, fun _ _ => ⟨.corrupt .failedGzip, rfl⟩⟩
  | skip count =>
      rw [ask, StreamReader.skip, if_pos htail]
      exact ⟨rfl, fun _ _ => ⟨_, rfl⟩⟩
  | seek a => exact ⟨rfl, fun _ _ => ⟨_, rfl⟩⟩

/-! ### What a reader has met -/

/-- In the course of a request a reader meets the end of the stream, or a fault. -/
def Meets (d : Disk) (ending : Except StreamFault Unit) (r : StreamReader δ)
    (request : ReadRequest) : Prop :=
  r.tail ≠ .failed ∧
    ∃ x, Course d request.askedFor request.needed r.decoder (some ending) x

/-- What a request comes to is what is met. -/
theorem meets_iff_of_course {request : ReadRequest} (htail : r.tail ≠ .failed)
    (h : Course d request.askedFor request.needed r.decoder stop x)
    {ending : Except StreamFault Unit} : r.Meets d ending request ↔ stop = some ending :=
  ⟨fun ⟨_, _, hx⟩ => (h.unique hx).1, fun hstop => ⟨htail, x, hstop ▸ h⟩⟩

/-- Going to a position meets nothing, and leaves a reader as it is. -/
private theorem not_meets_of_not_sequential {request : ReadRequest} (h : ¬ request.Sequential)
    (d : Disk) (r : StreamReader δ) :
    (r.ask d request).2 = r ∧ ∀ ending, ¬ r.Meets d ending request := by
  cases request with
  | seek a =>
      refine ⟨rfl, fun ending => ?_⟩
      rintro ⟨-, x, hcourse⟩
      generalize hstop : some ending = stop at hcourse
      cases hcourse with
      | done => cases hstop
      | fault hpos => exact absurd hpos (Nat.lt_irrefl 0)
      | ended hpos => exact absurd hpos (Nat.lt_irrefl 0)
      | more hpos => exact absurd hpos (Nat.lt_irrefl 0)
  | _ => exact absurd trivial h

/-- A fault comes up during a request for some bytes just if nothing is handed out, not even no
bytes. -/
theorem meets_fault_readSome_iff (htail : r.tail ≠ .failed) {count : Nat} :
    (∃ fault, r.Meets d (.error fault) (.readSome count)) ↔
      (r.readSome count d).1.toOption = none := by
  obtain ⟨stop, x, hcourse⟩ := exists_course d (ReadRequest.readSome count).askedFor
    (ReadRequest.readSome count).needed r.decoder
  have hmeets (ending) : r.Meets d ending (.readSome count) ↔ stop = some ending :=
    meets_iff_of_course htail hcourse
  obtain ⟨hanswered, -⟩ := readSome_of_course htail hcourse
  simp only [hmeets]
  generalize (r.readSome count d).1 = answer at hanswered
  rcases stop with _ | ending
  · cases hanswered with
    | fulfilled hfulfilled =>
        cases hfulfilled
        simp [Except.toOption]
  · obtain rfl := Answer.bytes.inj hanswered.eq_stopped
    cases ending with
    | error fault => exact ⟨fun _ => rfl, fun _ => ⟨fault, rfl⟩⟩
    | ok =>
        constructor
        · rintro ⟨fault, hsame⟩
          cases hsame
        · intro hnone
          cases hnone

/-- A reader of the file at `node`, and what it has met on the way. -/
inductive Stands (d : Disk) (node : Nat) (Met : Except StreamFault Unit → Prop)
    (r : StreamReader δ) : Prop
  | pending {bytes} : r.tail = .pending → (∀ ending, ¬ Met ending) →
      HandsOut (fun count x => StreamDecoder.read count x d) (start node d) bytes r.decoder →
      Stands d node Met r
  | clean : r.tail = .clean → (∀ fault, ¬ Met (.error fault)) → Met (.ok ()) →
      Delivers (fun count x => StreamDecoder.read count x d) [] r.decoder → Stands d node Met r
  | failed {fault} : r.tail = .failed → Met (.error fault) → Stands d node Met r

variable {node : Nat} {Met : Except StreamFault Unit → Prop} {F : ByteArray}

theorem Stands.tail_eq_failed_iff (h : r.Stands d node Met) :
    r.tail = .failed ↔ ∃ fault, Met (.error fault) := by
  cases h with
  | pending htail hnone => simp [htail, hnone]
  | clean htail hnone => simp [htail, hnone]
  | failed htail hmet => simpa [htail] using ⟨_, hmet⟩

theorem Stands.tail_eq_clean_iff (h : r.Stands d node Met) :
    r.tail = .clean ↔ (∀ fault, ¬ Met (.error fault)) ∧ Met (.ok ()) := by
  cases h with
  | pending htail hnone => simp [htail, hnone]
  | clean htail hnone hmet => simp [htail, hnone, hmet]
  | failed htail hmet => simpa [htail] using fun hnone => absurd hmet (hnone _)

/-- A request adds what it meets. -/
theorem Stands.ask (hends : StaysEnded δ) (hnode : d.node? node = some (.file F))
    (h : r.Stands d node Met) (request : ReadRequest) :
    (r.ask d request).2.Stands d node fun ending => Met ending ∨ r.Meets d ending request := by
  by_cases hrequest : request.Sequential
  case neg =>
    obtain ⟨hsame, hnone⟩ := not_meets_of_not_sequential hrequest d r
    simpa only [hsame, hnone, or_false] using h
  by_cases htail : r.tail = .failed
  · rw [(ask_of_failed htail d request).1]
    obtain ⟨fault, hmet⟩ := h.tail_eq_failed_iff.1 htail
    exact .failed htail (.inl hmet)
  obtain ⟨stop, x, hcourse⟩ := exists_course d request.askedFor request.needed r.decoder
  rw [(ask_of_course htail hrequest hcourse).2]
  simp only [meets_iff_of_course htail hcourse]
  cases h with
  | failed hfailed => exact absurd hfailed htail
  | pending hpending hnone hout =>
      match stop with
      | none =>
          obtain ⟨bytes, hmore⟩ := hcourse.handsOut request.askedFor_pos
          exact .pending hpending (by simpa using hnone) (hout.trans hmore)
      | some (.error fault) => exact .failed rfl (.inr rfl)
      | some (.ok ()) =>
          obtain ⟨bytes, x₁, count, piece, hmore, hcount, hread, hsize⟩ :=
            hcourse.handsOut_ended request.askedFor_pos
          exact .clean rfl (by simpa using fun fault => hnone (.error fault)) (.inr rfl)
            (hends hnode (hout.trans hmore) hcount hread hsize)
  | clean hclean hnone hmet hnil =>
      obtain ⟨hfault, hnil'⟩ := hcourse.of_delivers_nil request.askedFor_pos hnil
      have hclean' : (r.stoppedAt x stop).tail = .clean := by
        match stop with
        | none => exact hclean
        | some (.ok ()) => rfl
        | some (.error fault) => exact absurd rfl (hfault fault)
      have hdecoder : (r.stoppedAt x stop).decoder = x := by cases stop <;> rfl
      refine .clean hclean' (fun fault => ?_) (.inl hmet) (by rwa [hdecoder])
      rintro (hmet | hstop)
      · exact hnone fault hmet
      · exact hfault fault hstop

/-! ### Handles -/

/-- Does whatever leaves a reader open. There is nothing to do for what needs a writer. -/
def run (r : StreamReader δ) (d : Disk) : Operation → Reply × StreamReader δ
  | .ask request => (r.ask d request).map .answer id
  | .currentOffset => (.position default, r)
  | .percentRead => (.share r.percentRead, r)
  | op => (op.refused (.wrongMode .write .read), r)

theorem run_handle (filename : String) (o : WriteOptions) (r : StreamReader δ) (d : Disk)
    {op : Operation} (hopens : ¬ op.Opens) (hclose : op ≠ .close) :
    op.run (r.handle filename o : File (Streamed δ ε)) d =
      ((r.run d op).1, (r.run d op).2.handle filename o, d) := by
  cases op with
  | «open» filename mode => exact absurd trivial hopens
  | openBound => exact absurd trivial hopens
  | ask request =>
      rw [Operation.run, ask_handle]
      rfl
  | perform request => cases request <;> rfl
  | close => exact absurd rfl hclose
  | currentOffset => rfl
  | percentRead => rfl

end StreamReader

namespace Streamed

/-- In the course of an operation an open reader meets the end of the stream, or a fault. -/
def Meets (d : Disk) (ending : Except StreamFault Unit) (f : File (Streamed δ ε)) :
    Operation → Prop
  | .ask request =>
    match f.backend.state with
    | .reading r => r.Meets d ending request
    | _ => False
  | _ => False

/-- In the course of some operations, one after the other, an open reader meets the end of the
stream, or a fault. -/
inductive MeetsDuring (d : Disk) (ending : Except StreamFault Unit) :
    File (Streamed δ ε) → List Operation → Prop
  | now {f op ops} : Meets d ending f op → MeetsDuring d ending f (op :: ops)
  | later {f op ops} : MeetsDuring d ending (op.run f d).2.1 ops →
      MeetsDuring d ending f (op :: ops)

variable {d : Disk} {f g : File (Streamed δ ε)} {path : String} {F : ByteArray}
  {ending : Except StreamFault Unit}

theorem meetsDuring_nil : ¬ MeetsDuring d ending f [] := by rintro ⟨⟩

theorem meetsDuring_cons {op : Operation} {ops : List Operation} :
    MeetsDuring d ending f (op :: ops) ↔
      Meets d ending f op ∨ MeetsDuring d ending (op.run f d).2.1 ops :=
  ⟨fun h => by cases h with
    | now h => exact .inl h
    | later h => exact .inr h,
  fun h => h.elim .now .later⟩

/-- Opening a path for reading with a handle that is closed. -/
private theorem open_closed_read (f : File (Streamed δ ε)) (path : String) (d : Disk) :
    ({ f with opened := false } : File (Streamed δ ε)).open path .read d =
      match StreamReader.open path d with
      | .error e => ⟨.error e, ⟨path, .read, false, f.backend⟩, d⟩
      | .ok r => ⟨.ok (), r.handle path f.backend.options, f.backend.release d⟩ := by
  show (let o := f.backend.acquire path .read d
    (⟨o.result, ⟨path, .read, o.result.isOk, o.state⟩, o.disk⟩ :
      Outcome (File (Streamed δ ε)) Unit)) = _
  rw [acquire]
  cases (StreamReader.open path d : Except Error (StreamReader δ)) <;> rfl

/-- A handle that was opened for reading without a change of the disk has a reader open that is at
the start of its node. -/
theorem reader_of_lookup {node : Nat} (hlookup : d.lookup path = .ok node)
    (h : f.open path .read d = ⟨.ok (), g, d⟩) : ∃ o,
      g = StreamReader.handle path o ⟨StreamDecoder.start node d, d.size node, .pending⟩ := by
  -- Closing changes nothing, or leaves nothing open that opening gives up.
  have hdisk : (f.close d).2 = d ∨ ∀ d', (f.close d).1.backend.release d' = d' := by
    obtain ⟨_, _, opened, ⟨_, state⟩⟩ := f
    cases opened
    · exact .inl rfl
    · exact .inr fun _ => rfl
  rw [File.open_eq_open_close, open_closed_read] at h
  have hclose : (f.close d).2 = d := by
    rcases hdisk with hclose | hrelease
    · exact hclose
    · split at h
      · exact absurd (Outcome.mk.inj h).1 (by simp)
      · rw [hrelease] at h
        exact (Outcome.mk.inj h).2.2
  rw [hclose, StreamReader.open, hlookup] at h
  exact ⟨_, ((Outcome.mk.inj h).2.1).symm⟩

theorem reader_of_open (hF : d.contents? path = some F)
    (h : f.open path .read d = ⟨.ok (), g, d⟩) : ∃ node o, d.node? node = some (.file F) ∧
      g = StreamReader.handle path o ⟨StreamDecoder.start node d, d.size node, .pending⟩ := by
  obtain ⟨node, hlookup, hnode⟩ := Disk.lookup_of_contents hF
  obtain ⟨o, hg⟩ := reader_of_lookup hlookup h
  exact ⟨node, o, hnode, hg⟩

/-- Operations on a handle add what they meet. -/
theorem stands_runAll (hends : StreamDecoder.StaysEnded δ) {node : Nat}
    (hnode : d.node? node = some (.file F)) {Met : Except StreamFault Unit → Prop}
    {filename : String} {o : WriteOptions} {r : StreamReader δ} (h : r.Stands d node Met)
    {ops : List Operation} (hops : ∀ op ∈ ops, ¬ op.Opens ∧ op ≠ .close) :
    ∃ r' : StreamReader δ,
      (Operation.runAll ops (r.handle filename o : File (Streamed δ ε)) d).2.1 =
        r'.handle filename o ∧
      r'.Stands d node fun ending => Met ending ∨
        MeetsDuring d ending (r.handle filename o : File (Streamed δ ε)) ops := by
  induction ops generalizing r Met with
  | nil => exact ⟨r, rfl, by simpa only [meetsDuring_nil, or_false] using h⟩
  | cons op ops ih =>
      obtain ⟨hopens, hclose⟩ := hops op (List.mem_cons_self ..)
      have hstep : (r.run d op).2.Stands d node fun ending => Met ending ∨
          Meets d ending (r.handle filename o : File (Streamed δ ε)) op := by
        cases op with
        | ask request => exact h.ask hends hnode request
        | _ =>
            simp only [Meets, or_false]
            exact h
      obtain ⟨r', hrun, hstands⟩ := ih hstep fun op hop => hops op (List.mem_cons_of_mem _ hop)
      have hnext := StreamReader.run_handle (ε := ε) filename o r d hopens hclose
      refine ⟨r', ?_, ?_⟩
      · rw [Operation.runAll, hnext]
        exact hrun
      · simp only [meetsDuring_cons, hnext]
        simpa only [or_assoc] using hstands

/-- A failed stream stays failed and is never taken for one that was read in full. Whatever is asked
of a handle that was opened on a file: once a fault has come up, it refuses every request but those
for nothing and tells less than 100 percent. It tells 100 percent just if it has come to the end of
the stream, and to no fault. Before a fault, what a request meets is what it is answered with. -/
theorem failure_lasts (hends : StreamDecoder.StaysEnded δ) (hF : d.contents? path = some F)
    (hopen : f.open path .read d = ⟨.ok (), g, d⟩) {ops : List Operation}
    (hops : ∀ op ∈ ops, ¬ op.Opens ∧ op ≠ .close) :
    let h := (Operation.runAll ops g d).2.1
    ((∃ fault, MeetsDuring d (.error fault) g ops) →
      h.percentRead.1 ≤ 99 ∧ ∀ request, request ≠ .read 0 → request ≠ .readSome 0 →
        ∃ e, (h.ask d request).1 = request.refused e) ∧
    (h.percentRead.1 = 100 ↔
      (∀ fault, ¬ MeetsDuring d (.error fault) g ops) ∧ MeetsDuring d (.ok ()) g ops) ∧
    ((∀ fault, ¬ MeetsDuring d (.error fault) g ops) → ∀ request : ReadRequest,
      request.Sequential →
        (∃ ending, Meets d ending h (.ask request) ∧
          (h.ask d request).1 = request.stopped ending) ∨
        ((∀ ending, ¬ Meets d ending h (.ask request)) ∧
          request.Fulfilled (h.ask d request).1)) := by
  obtain ⟨node, o, hnode, rfl⟩ := reader_of_open hF hopen
  have hstart : StreamReader.Stands d node (fun _ => False)
      (⟨StreamDecoder.start node d, d.size node, .pending⟩ : StreamReader δ) :=
    .pending rfl (fun _ => id) .nil
  obtain ⟨r, hrun, hstands⟩ := stands_runAll (ε := ε) hends hnode hstart hops
  simp only [false_or] at hstands
  dsimp only
  rw [hrun]
  have hpercent : (r.handle path o : File (Streamed δ ε)).percentRead.1 = r.percentRead := rfl
  have hmeets (ending) (request : ReadRequest) :
      Meets d ending (r.handle path o : File (Streamed δ ε)) (.ask request) ↔
        r.Meets d ending request := .rfl
  refine ⟨fun hfault => ?_, ?_, fun hnone request hrequest => ?_⟩
  · have htail := hstands.tail_eq_failed_iff.2 hfault
    refine ⟨?_, fun request hread hreadSome => ?_⟩
    · rw [hpercent]
      exact StreamReader.percentRead_le (by simp [htail])
    · rw [StreamReader.ask_handle]
      exact (StreamReader.ask_of_failed htail d request).2 hread hreadSome
  · rw [hpercent, ← hstands.tail_eq_clean_iff]
    refine ⟨fun hall => Decidable.byContradiction fun hclean => ?_,
      StreamReader.percentRead_of_clean⟩
    have hle := StreamReader.percentRead_le hclean
    omega
  · have htail : r.tail ≠ .failed := fun hfailed =>
      let ⟨fault, hmet⟩ := hstands.tail_eq_failed_iff.1 hfailed
      hnone fault hmet
    obtain ⟨stop, x, hcourse⟩ :=
      StreamDecoder.exists_course d request.askedFor request.needed r.decoder
    obtain ⟨hanswered, -⟩ := StreamReader.ask_of_course htail hrequest hcourse
    simp only [hmeets, StreamReader.meets_iff_of_course htail hcourse, StreamReader.ask_handle,
      Prod.map, id]
    generalize (r.ask d request).1 = answer at hanswered
    cases hanswered with
    | fulfilled hfulfilled => exact .inr ⟨by simp, hfulfilled⟩
    | stopped => exact .inl ⟨_, rfl, rfl⟩

end Streamed

/-- Decoders of gzip stay at the end of their stream. -/
theorem Gzip.Decoder.staysEnded : StreamDecoder.StaysEnded Gzip.Decoder := by
  intro d node F bytes x x' count piece hnode hout hcount hread hsize
  have hsources := Gzip.Decoder.sources d node
  obtain ⟨promise, hx⟩ := hsources.rests_of_handsOut (Gzip.Decoder.rests_start hnode) hout
  obtain ⟨⟨promise', -, hx'⟩, -, hended⟩ := hsources.answered hx hcount hread
  exact hsources.delivers_nil hx' ((hended hsize []).2 rfl)

theorem Streamed.failure_lasts_bad_block :
    let d : Disk := ⟨[("a", 0)], #[.file ⟨#[0x1f, 0x8b, 8, 0, 0, 0, 0, 0, 0, 0xff, 7]⟩]⟩
    let g := ((File.new (.new default : Streamed Gzip.Decoder Gzip.Encoder)).open "a" .read d).state
    let h := (Operation.runAll [.ask (.readSome 4)] g d).2.1
    (∃ fault, MeetsDuring d (.error fault) g [.ask (.readSome 4)]) ∧ h.percentRead.1 ≤ 99 ∧
      ∃ e, (h.ask d (.skip 0)).1 = .done (.error e) := by
  intro d g h
  have hopen : (File.new (.new default : Streamed Gzip.Decoder Gzip.Encoder)).open "a" .read d =
      ⟨.ok (), g, d⟩ := rfl
  have hanswer :
      (StreamReader.readSome 4 ⟨Gzip.Decoder.start 0 d, 11, .pending⟩ d).1.toOption = none := by
    decide +kernel
  obtain ⟨fault, hmeets⟩ := (StreamReader.meets_fault_readSome_iff (by simp)).2 hanswer
  replace hmeets : ∃ fault, MeetsDuring d (.error fault) g [.ask (.readSome 4)] :=
    ⟨fault, .now hmeets⟩
  have hops : ∀ op ∈ [Operation.ask (.readSome 4)], ¬op.Opens ∧ op ≠ .close := by
    simp [Operation.Opens]
  obtain ⟨hfailed, -⟩ := failure_lasts Gzip.Decoder.staysEnded rfl hopen hops
  obtain ⟨hpercent, hrefused⟩ := hfailed hmeets
  exact ⟨hmeets, hpercent, hrefused (.skip 0) (by simp) (by simp)⟩

end TraceStore
