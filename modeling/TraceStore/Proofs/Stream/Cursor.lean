import TraceStore.Proofs.Stream.Backend

/-!
# Readers of single streams as cursors

A reader whose decoder delivers a stream is a cursor over it. Its decoder settles how many bytes a
request for some bytes gets: `StreamReader.Streams.runs`.
-/
namespace TraceStore.StreamReader

variable {δ ε : Type} [StreamDecoder δ] [StreamEncoder ε] {d : Disk} {r : StreamReader δ}
  {s : List UInt8} {p : Nat}

/-- A request to pass over bytes is answered as one for these bytes, though the decoder is asked for
them in other pieces. -/
theorem Streams.skip (h : r.Streams d s) (count : Nat) :
    ∃ (result : Except Error ByteArray) (r' : StreamReader δ),
      r.skip count d = (result.map fun _ => (), r') ∧ ReadsFrom s count result ∧
        r'.Streams d (s.drop count) := by
  rw [StreamReader.skip, if_neg h.1]
  -- The bytes that went by are kept in mind, so that they and what is left make up the same stream.
  suffices ∀ fuel count (done : ByteArray) s (r : StreamReader δ), count ≤ fuel → r.Streams d s →
      ∃ (result : Except Error ByteArray) (r' : StreamReader δ),
        skipWithin d fuel count r = (result.map fun _ => (), r') ∧
        ReadsFrom (done.data.toList ++ s) (done.size + count) result ∧
        r'.Streams d (s.drop count) by
    simpa using this count count .empty s r (Nat.le_refl _) h
  intro fuel
  induction fuel with
  | zero =>
      intro count done s r hfuel h
      obtain rfl : count = 0 := by omega
      exact ⟨.ok done, r, rfl, readsFrom_done done s, h⟩
  | succ fuel ih =>
      intro count done s r hfuel h
      by_cases hcount : count = 0
      · subst hcount
        exact ⟨.ok done, r, by rw [skipWithin, if_pos rfl]; rfl, readsFrom_done done s, h⟩
      obtain ⟨piece, decoder, rest, hread, rfl, hsize, hend, hrest⟩ :=
        h.2.step (show 0 < min count skipSize by rw [skipSize]; omega)
      have hle : piece.size ≤ count := Nat.le_trans hsize (Nat.min_le_left ..)
      rw [skipWithin, if_neg hcount, hread]
      by_cases hpiece : piece.size = 0
      · have hnil := hend hpiece
        refine ⟨.error .unexpectedEof, { r with decoder, tail := .clean },
          if_pos (isEmpty_iff.2 hpiece), ?_, by simp, ?_⟩
        · rw [hnil]
          exact readsFrom_past (Nat.pos_of_ne_zero hcount)
        · rw [hnil, List.drop_nil]
          rwa [(List.append_eq_nil_iff.1 hnil).2] at hrest
      · obtain ⟨result, r', hround, hfrom, hkeep⟩ :=
          ih (count - piece.size) (done ++ piece) rest { r with decoder } (by omega) ⟨h.1, hrest⟩
        refine ⟨result, r', ?_, hfrom.of_piece hle, ?_⟩
        · rw [← hround]
          exact if_neg (mt isEmpty_iff.1 hpiece)
        · rwa [drop_toList_append hle]

/-- A request for a byte. -/
theorem Streams.getc (h : r.Streams d s) :
    ∃ r', r.getc d = (s.head?, r') ∧ r'.Streams d s.tail := by
  obtain ⟨result, r', hread, ⟨henough, hpast⟩, hrest⟩ := h.read 1
  rw [List.drop_one] at hrest
  refine ⟨r', ?_, hrest⟩
  rw [StreamReader.getc, hread]
  cases s with
  | nil => rw [hpast Nat.one_pos]; rfl
  | cons b s =>
      obtain ⟨bytes, rfl, hbytes⟩ := henough (by simp)
      dsimp only
      rw [← Array.getElem?_toList, hbytes]
      rfl

/-- Answers a request. -/
def ask (r : StreamReader δ) (d : Disk) : ReadRequest → Answer × StreamReader δ
  | .read count => (r.read count d).map .bytes id
  | .readSome count => (r.readSome count d).map .bytes id
  | .getc => (r.getc d).map .byte id
  | .skip count => (r.skip count d).map .done id
  | .seek _ => (.done (.error .offsetsUnsupported), r)

theorem ask_handle (filename : String) (o : WriteOptions) (r : StreamReader δ) (d : Disk)
    (request : ReadRequest) : (r.handle filename o : File (Streamed δ ε)).ask d request =
      (r.ask d request).map id (handle filename o) := by
  cases request with
  | read count =>
      rw [File.ask, read_handle]
      rfl
  | readSome count =>
      rw [File.ask, readSome_handle]
      rfl
  | _ => rfl

/-- A reader whose decoder delivers a stream reads on from what is left of it. -/
theorem readsOn (d : Disk) : ReadsOn (fun r : StreamReader δ => r.ask d) (Streams d) where
  read h count := by
    obtain ⟨result, r', hread, hfrom, hrest⟩ := h.read count
    exact ⟨result, r', by rw [ask, hread]; rfl, hfrom, hrest⟩
  skip h count := by
    obtain ⟨result, r', hskip, hfrom, hrest⟩ := h.skip count
    exact ⟨result, r', by rw [ask, hskip]; rfl, hfrom, hrest⟩
  getc h := by
    obtain ⟨r', hgetc, hrest⟩ := h.getc
    exact ⟨r', by rw [ask, hgetc]; rfl, hrest⟩
  readSome_zero r := rfl
  readSome := by
    intro s r h count hcount
    obtain ⟨piece, r', rest, hread, hpiece⟩ := readSome_step s r h count hcount
    exact ⟨piece, r', rest, by rw [ask, hread]; rfl, hpiece⟩

/-- Requests that read on run a reader as they run a cursor. -/
theorem Streams.runs (hp : p ≤ s.length) (h : r.Streams d (s.drop p)) {requests : List ReadRequest}
    (hrequests : ∀ request ∈ requests, request.Sequential) :
    ∃ p', Runs s (fun _ _ _ => True) p requests
      (ReadRequest.askAll (fun r => r.ask d) requests r).1 p' := by
  refine Runs.of_invariant (fun p r => p ≤ s.length ∧ Streams d (s.drop p) r) ?_ hrequests ⟨hp, h⟩
  intro p r ⟨hp, h⟩ request hrequest
  exact (readsOn d).moves hp h (fun _ => trivial) hrequest

end TraceStore.StreamReader
