import Mathlib.Order.MinMax
import TraceStore.Proofs.Chunk.Damage
import TraceStore.Proofs.Compression
import TraceStore.Proofs.Gzip.Beyond
import TraceStore.Proofs.Stream.Failure

/-!
# Progress

The share of its file that a handle tells while it reads on never falls, whatever its requests come
to and however the file changes between them, and it is 100 from the moment on that the end of the
trace has been reached: `Operation.shares_rise`. Chunked files tell the place of the next chunk,
which moves forward only. Streams tell how much has been fetched, which is kept below 100 until the
end has been reached cleanly; that depends on decoders that stay there, as those of gzip do.
-/
namespace TraceStore

/-! ### Shares -/

theorem percent_mono {pos pos' : Nat} (h : pos ≤ pos') (len : Nat) :
    percent pos len ≤ percent pos' len := by
  rw [percent, percent]
  split
  · exact Nat.le_refl _
  · exact Nat.div_le_div_right (min_le_min_right _ (Nat.mul_le_mul_right _ (min_le_min_right _ h)))

theorem percent_le (pos len : Nat) : percent pos len ≤ 100 := by
  rw [percent]
  split
  · exact Nat.le_refl _
  · refine Nat.div_le_of_le_mul (Nat.le_trans (Nat.min_le_left ..) ?_)
    exact Nat.mul_le_mul_right _ (Nat.min_le_right ..)

/-- All of a file is 100 percent, as long as its length times 100 does not saturate. -/
theorem percent_of_le {pos len : Nat} (h : len ≤ pos) (hlen : len ≤ (2 ^ 64 - 1) / 100) :
    percent pos len = 100 := by
  rw [percent]
  split
  · rfl
  · rw [Nat.min_eq_right h, Nat.min_eq_left]
    · exact Nat.mul_div_cancel_left _ (by omega)
    · show len * 100 ≤ 2 ^ 64 - 1
      omega

namespace Operation

/-- Whether a handle that reads is left to read on from where it is. -/
def Sequential : Operation → Prop
  | ask request => request.Sequential
  | .open _ _ | openBound | close => False
  | _ => True

theorem Sequential.not_opens {op : Operation} (h : op.Sequential) : ¬ op.Opens ∧ op ≠ .close := by
  cases op <;> simp_all [Sequential, Opens]

variable {β : Type} [Backend β]

/-- Does one thing after the other with a handle that does not change the disk. Each is done on the
disk as it is then, as others may change it in between. -/
def runOn : List (Operation × Disk) → File β → File β
  | [], f => f
  | (op, d) :: ops, f => runOn ops (op.run f d).2.1

/-- The shares that a handle tells, at first and after each of some operations. -/
def shares : List (Operation × Disk) → File β → List Nat
  | [], f => [f.percentRead.1]
  | (op, d) :: ops, f => f.percentRead.1 :: shares ops (op.run f d).2.1

end Operation

namespace File

variable {β : Type} [Backend β] {g : File β} {On : Disk → Prop}

/-- The shares that a handle tells never fall and are no more than 100, whatever is done that reads
on, on disks of which `On` holds. -/
structure Progresses (On : Disk → Prop) (g : File β) : Prop where
  sorted : ∀ ops, (∀ op ∈ ops, op.1.Sequential ∧ On op.2) →
    (Operation.shares ops g).Pairwise (· ≤ ·)
  le_hundred : ∀ ops, (∀ op ∈ ops, op.1.Sequential ∧ On op.2) →
    ∀ n ∈ Operation.shares ops g, n ≤ 100

/-- Once a request for some bytes has come to the end, a handle tells 100 percent and keeps to
that. -/
def TellsEnd (On : Disk → Prop) (g : File β) : Prop :=
  ∀ before count d after, (∀ op ∈ before, op.1.Sequential ∧ On op.2) → 0 < count → On d →
    (∀ op ∈ after, op.1.Sequential ∧ On op.2) →
    ((Operation.runOn before g).ask d (.readSome count)).1 = .bytes (.ok .empty) →
    ∀ n ∈ Operation.shares after ((Operation.runOn before g).ask d (.readSome count)).2, n = 100

/-- Shares never fall if no operation lowers them, as long as they keep what this depends on. -/
theorem progresses_of_steps {P : File β → Prop}
    (step : ∀ f op d, P f → Operation.Sequential op → On d →
      P (op.run f d).2.1 ∧ f.percentRead.1 ≤ (op.run f d).2.1.percentRead.1)
    (le : ∀ f, P f → f.percentRead.1 ≤ 100) (hg : P g) : g.Progresses On := by
  have hshares : ∀ ops f, (∀ op ∈ ops, op.1.Sequential ∧ On op.2) → P f →
      (Operation.shares ops f).Pairwise (· ≤ ·) ∧
      ∀ n ∈ Operation.shares ops f, f.percentRead.1 ≤ n ∧ n ≤ 100 := by
    intro ops
    induction ops with
    | nil =>
        intro f _ hf
        simpa [Operation.shares] using le f hf
    | cons op ops ih =>
        intro f hops hf
        obtain ⟨hop, hops⟩ := List.forall_mem_cons.1 hops
        obtain ⟨hnext, hle⟩ := step f op.1 op.2 hf hop.1 hop.2
        obtain ⟨hsorted, hbounds⟩ := ih _ hops hnext
        rw [Operation.shares, List.pairwise_cons, List.forall_mem_cons]
        exact ⟨⟨fun n hn => Nat.le_trans hle (hbounds n hn).1, hsorted⟩,
          ⟨Nat.le_refl _, le f hf⟩,
          fun n hn => ⟨Nat.le_trans hle (hbounds n hn).1, (hbounds n hn).2⟩⟩
  exact ⟨fun ops hops => (hshares ops g hops hg).1, fun ops hops n hn =>
    ((hshares ops g hops hg).2 n hn).2⟩

/-- What progresses from 100 percent on stays there. -/
theorem Progresses.eq_hundred (h : g.Progresses On) (hall : g.percentRead.1 = 100)
    {ops : List (Operation × Disk)} (hops : ∀ op ∈ ops, op.1.Sequential ∧ On op.2) :
    ∀ n ∈ Operation.shares ops g, n = 100 := by
  intro n hn
  have hle := h.le_hundred ops hops n hn
  have hsorted := h.sorted ops hops
  cases ops with
  | nil => simp_all [Operation.shares]
  | cons op ops =>
      rw [Operation.shares, List.pairwise_cons] at hsorted
      rw [Operation.shares, List.mem_cons] at hn
      rcases hn with rfl | hn
      · exact hall
      · have hge := hsorted.1 n hn
        omega

/-- The end is told if a request that comes to it tells it, in whatever state it is made. -/
theorem tellsEnd_of_steps {P : File β → Prop}
    (step : ∀ f op d, P f → Operation.Sequential op → On d → P (op.run f d).2.1)
    (progresses : ∀ f, P f → f.Progresses On)
    (tells : ∀ f count d, P f → 0 < count → On d →
      (f.ask d (.readSome count)).1 = .bytes (.ok .empty) →
      (f.ask d (.readSome count)).2.percentRead.1 = 100) (hg : P g) : g.TellsEnd On := by
  intro before count d after hbefore hcount hd hafter hread
  have hrun : P (Operation.runOn before g) := by
    clear hread
    induction before generalizing g with
    | nil => exact hg
    | cons op before ih =>
        obtain ⟨⟨hop, hon⟩, hbefore⟩ := List.forall_mem_cons.1 hbefore
        exact ih (step g op.1 op.2 hg hop hon) hbefore
  have hasked : P ((Operation.runOn before g).ask d (.readSome count)).2 :=
    step _ (.ask (.readSome count)) d hrun trivial hd
  exact (progresses _ hasked).eq_hundred (tells _ count d hrun hcount hd hread) hafter

end File

/-! ### Chunked files -/

namespace ChunkReader

variable {σ : Type} {c : Codec σ} {d : Disk} {F : ByteArray} {r r' r'' : ChunkReader}

/-- The reader `r'` comes after `r`: the place of the next chunk has not moved back. -/
structure Forward (r r' : ChunkReader) : Prop where
  parked_eq : r'.parked = r.parked
  fileSize_eq : r'.fileSize = r.fileSize
  nextChunk_le : r.nextChunk ≤ r'.nextChunk

theorem Forward.trans (h : Forward r r') (h' : Forward r' r'') : Forward r r'' :=
  ⟨h'.parked_eq.trans h.parked_eq, h'.fileSize_eq.trans h.fileSize_eq,
    Nat.le_trans h.nextChunk_le h'.nextChunk_le⟩

/-- Loading moves forward, whatever it comes to. -/
private theorem forward_loadNext (c : Codec σ) (d : Disk) (r : ChunkReader) :
    Forward r (r.loadNext c d).2 := by
  have hsame (source : FileReader) : Forward r { r with source } := ⟨rfl, rfl, Nat.le_refl _⟩
  rw [loadNext]
  split
  · exact ⟨rfl, rfl, Nat.le_refl _⟩
  split
  · exact hsame _
  dsimp only
  split
  · exact hsame _
  split
  · exact hsame _
  split
  · exact hsame _
  split
  · exact hsame _
  split
  · exact hsame _
  split
  · exact hsame _
  · exact ⟨rfl, rfl, by dsimp only; omega⟩

theorem kept_forward (c : Codec σ) (d : Disk) (r : ChunkReader) : Kept c d (Forward r) where
  load h _ := h.trans (forward_loadNext c d _)
  pass h _ := h.trans ⟨rfl, rfl, Nat.le_refl _⟩

theorem percentRead_le_hundred (r : ChunkReader) : r.percentRead ≤ 100 := by
  rw [percentRead]
  split
  · exact Nat.le_refl _
  · exact percent_le ..

theorem Forward.percentRead_le (h : Forward r r') : r.percentRead ≤ r'.percentRead := by
  rw [percentRead, percentRead, h.parked_eq, h.fileSize_eq]
  split
  · exact Nat.le_refl _
  · exact percent_mono h.nextChunk_le _

theorem forward_run (c : Codec σ) (d : Disk) (r : ChunkReader) {op : Operation}
    (hop : op.Sequential) : Forward r (r.run c d op).2 := by
  cases op with
  | ask request => exact (kept_forward c d r).ask ⟨rfl, rfl, Nat.le_refl _⟩ hop
  | _ => exact ⟨rfl, rfl, Nat.le_refl _⟩

theorem InStep.run (h : r.InStep c d F) {op : Operation} (hop : op.Sequential) :
    (r.run c d op).2.InStep c d F := by
  cases op with
  | ask request => exact (kept_inStep c d F).ask h hop
  | _ => exact h

/-- Where all chunks decode, nothing is left to load only at the end of the file. -/
private theorem InStep.load (h : r.InStep c d F) {more : Bool}
    (hload : r.loadNext c d = (.ok more, r')) :
    if more then r.nextChunk < r'.nextChunk else r'.nextChunk = F.size := by
  obtain ⟨chunks, hchunks⟩ := h.clean
  have hahead := h.ahead
  rw [hchunks] at hahead
  cases chunks with
  | nil =>
      obtain ⟨source, hload', -, -⟩ := loadNext_nil (c := c) h.parked_eq hahead
      obtain ⟨hmore, rfl⟩ := Prod.mk.inj (hload.symm.trans hload')
      obtain rfl := Except.ok.inj hmore
      have hlen := congrArg List.length hchunks
      rw [List.length_drop, length_toList, Chunk.frames_nil, List.length_nil] at hlen
      have hle := h.nextChunk_le
      show r.nextChunk = F.size
      omega
  | cons chunk chunks =>
      obtain ⟨source, hload', -, -⟩ := loadNext_chunk h.parked_eq chunk hahead
      obtain ⟨hmore, rfl⟩ := Prod.mk.inj (hload.symm.trans hload')
      obtain rfl := Except.ok.inj hmore
      have hpos := chunk.length_frame_pos
      show r.nextChunk < r.nextChunk + chunk.frame.length
      omega

/-- Filling comes to the end of the stream at the end of the file. -/
private theorem InStep.end_of_fill (h : r.InStep c d F) (hfill : r.fill c d = (.ok false, r')) :
    r'.nextChunk = F.size := by
  suffices ∀ fuel r, InStep c d F r → F.size - r.nextChunk < fuel →
      fillWithin c d fuel r = (.ok false, r') → r'.nextChunk = F.size by
    refine this _ r h ?_ hfill
    rw [h.ahead.unread_eq, List.length_drop, length_toList]
    omega
  intro fuel
  induction fuel with
  | zero => intro r _ hfuel; omega
  | succ fuel ih =>
      intro r h hfuel hfill
      rw [fillWithin] at hfill
      split at hfill
      case isTrue => cases hfill
      case isFalse hpos =>
        have hnext := (kept_inStep c d F).load h (Nat.not_lt.1 hpos)
        split at hfill <;> rename_i r₁ hload <;> rw [hload] at hnext
        · have hmoved : r.nextChunk < r₁.nextChunk := h.load hload
          have hle : r₁.nextChunk ≤ F.size := hnext.nextChunk_le
          exact ih r₁ hnext (by omega) hfill
        · obtain ⟨-, rfl⟩ := Prod.mk.inj hfill
          exact h.load hload
        · cases hfill

/-- A request for some bytes that gets none has come to the end of the file. -/
theorem InStep.percentRead_of_end (h : r.InStep c d F) (hF : F.size ≤ (2 ^ 64 - 1) / 100)
    {count : Nat} (hcount : 0 < count) (hread : (r.readSome c count d).1 = .ok .empty) :
    (r.readSome c count d).2.percentRead = 100 := by
  have hkept := (kept_inStep c d F).readSome h count
  rw [readSome, if_neg (by omega)] at hread hkept ⊢
  obtain ⟨⟨e | more, r'⟩, hfill⟩ : ∃ filled, r.fill c d = filled := ⟨_, rfl⟩
  · rw [hfill] at hread
    cases hread
  rw [hfill] at hread hkept ⊢
  cases more with
  | true =>
      -- What filling makes available is delivered.
      have hpos := available_of_fill hfill
      have hsize := size_take (Nat.min_le_left r'.available count)
      obtain hnone : (r'.take (min r'.available count)).1 = .empty := Except.ok.inj hread
      rw [hnone, ByteArray.size_empty] at hsize
      omega
  | false =>
      have hend := h.end_of_fill hfill
      rw [percentRead, hkept.parked_eq, hkept.fileSize_eq]
      exact percent_of_le (Nat.le_of_eq hend.symm) hF

end ChunkReader

namespace Chunked

variable {σ : Type} {c : Codec σ} {f g : File (Chunked σ)} {path : String} {d : Disk}

/-- The shares of a chunked file never fall, whatever becomes of it while it is read. -/
theorem progresses (r : ChunkReader) (b : Chunked σ) (On : Disk → Prop) :
    (r.handle path b).Progresses On := by
  refine File.progresses_of_steps (P := fun f => ∃ r : ChunkReader, f = r.handle path b) ?_ ?_
    ⟨r, rfl⟩
  · rintro _ op d ⟨r, rfl⟩ hop -
    obtain ⟨hopens, hclose⟩ := hop.not_opens
    rw [ChunkReader.run_handle path b r d hopens hclose]
    exact ⟨⟨_, rfl⟩, (ChunkReader.forward_run b.codec d r hop).percentRead_le⟩
  · rintro _ ⟨r, rfl⟩
    exact r.percentRead_le_hundred

/-- The end of a file of chunks that all decode is told. -/
theorem tellsEnd {r : ChunkReader} {b : Chunked σ} {F : ByteArray} (h : r.InStep b.codec d F)
    (hF : F.size ≤ (2 ^ 64 - 1) / 100) : (r.handle path b).TellsEnd (· = d) := by
  refine File.tellsEnd_of_steps (P := fun f => ∃ r : ChunkReader, f = r.handle path b ∧
    r.InStep b.codec d F) ?_ ?_ ?_ ⟨r, rfl, h⟩
  · rintro _ op _ ⟨r, rfl, h⟩ hop rfl
    obtain ⟨hopens, hclose⟩ := hop.not_opens
    rw [ChunkReader.run_handle path b r _ hopens hclose]
    exact ⟨_, rfl, h.run hop⟩
  · rintro _ ⟨r, rfl, -⟩
    exact progresses r b _
  · rintro _ count _ ⟨r, rfl, h⟩ hcount rfl hread
    rw [ChunkReader.ask_handle] at hread ⊢
    exact h.percentRead_of_end hF hcount (Answer.bytes.inj hread)

end Chunked

/-! ### Streams -/

/-- Whether a node is a file. -/
def Disk.IsFile (node : Nat) (d : Disk) : Prop := ∃ F, d.node? node = some (.file F)

namespace StreamDecoder

variable {δ : Type} [StreamDecoder δ] {d d' : Disk} {node count : Nat} {x x' : δ}

/-- A decoder that was started on a file and has not failed, however the file has changed. -/
inductive Asked (node : Nat) : δ → Prop
  | start {d : Disk} : d.IsFile node → Asked node (start node d)
  | read {x x' : δ} {d : Disk} {count : Nat} {bytes : ByteArray} : Asked node x → d.IsFile node →
      0 < count → read count x d = (.ok bytes, x') → Asked node x'

/-- Decoders that never go back in their file, and have nothing more to deliver once they have
delivered nothing. -/
structure Steady (δ : Type) [StreamDecoder δ] : Prop where
  position_le : ∀ (count : Nat) (x : δ) (d : Disk), position x ≤ position (read count x d).2
  ended : ∀ {node count count' : Nat} {x x' : δ} {d d' : Disk} {bytes : ByteArray}, Asked node x →
    d.IsFile node → 0 < count → read count x d = (.ok bytes, x') → bytes.size = 0 →
    d'.IsFile node → 0 < count' → (read count' x' d').1 = .ok .empty

/-- Whether a decoder has nothing more to deliver. -/
def Ended (node : Nat) (x : δ) : Prop :=
  Asked node x ∧ ∀ {count d}, d.IsFile node → 0 < count → (read count x d).1 = .ok .empty

variable (hsteady : Steady δ) {askedFor : Nat → Nat} {missing : Nat}
  {stop : Option (Except StreamFault Unit)}

include hsteady

theorem Steady.ended_of_read (hx : Asked node x) (hd : d.IsFile node) (hcount : 0 < count)
    {bytes : ByteArray} (hread : read count x d = (.ok bytes, x')) (hsize : bytes.size = 0) :
    Ended node x' :=
  ⟨.read hx hd hcount hread, fun hd' hcount' => hsteady.ended hx hd hcount hread hsize hd' hcount'⟩

/-- A decoder goes forward, and unless it fails it can be asked for more. -/
theorem Course.forward (hd : d.IsFile node) (hx : Asked node x)
    (hasks : ∀ m, 0 < m → m ≤ missing → 0 < askedFor m)
    (h : Course d askedFor missing x stop x') :
    position x ≤ position x' ∧ (stop = none → Asked node x') ∧
      (stop = some (.ok ()) → Ended node x') := by
  have hposition {count : Nat} {x x' : δ} {answer} (hread : read count x d = (answer, x')) :
      position x ≤ position x' := by
    have hle := hsteady.position_le count x d
    rwa [hread] at hle
  induction h with
  | done => exact ⟨Nat.le_refl _, fun _ => hx, by simp⟩
  | fault hpos hread => exact ⟨hposition hread, by simp, by simp⟩
  | ended hpos hread hsize =>
      exact ⟨hposition hread, by simp, fun _ =>
        hsteady.ended_of_read hx hd (hasks _ hpos (Nat.le_refl _)) hread hsize⟩
  | more hpos hread _ _ ih =>
      obtain ⟨hle, hasked, hended⟩ := ih (.read hx hd (hasks _ hpos (Nat.le_refl _)) hread)
        fun m hm hmissing => hasks m hm (by omega)
      exact ⟨Nat.le_trans (hposition hread) hle, hasked, hended⟩

/-- A decoder that has ended comes to nothing but the end again. -/
theorem Course.of_ended (hd : d.IsFile node) (hx : Ended node x)
    (hasks : ∀ m, 0 < m → m ≤ missing → 0 < askedFor m)
    (h : Course d askedFor missing x stop x') :
    (stop = none ∨ stop = some (.ok ())) ∧ Ended node x' := by
  have hnone {answer} (hpos : 0 < missing) (hread : read (askedFor missing) x d = (answer, x')) :
      answer = .ok .empty := by
    have hall := hx.2 hd (hasks _ hpos (Nat.le_refl _))
    rwa [hread] at hall
  cases h with
  | done => exact ⟨.inl rfl, hx⟩
  | fault hpos hread => cases hnone hpos hread
  | ended hpos hread hsize =>
      exact ⟨.inr rfl, hsteady.ended_of_read hx.1 hd (hasks _ hpos (Nat.le_refl _)) hread hsize⟩
  | more hpos hread hne =>
      have hall := hx.2 hd (hasks _ hpos (Nat.le_refl _))
      rw [hread] at hall
      obtain rfl := Except.ok.inj hall
      exact absurd rfl hne

end StreamDecoder

namespace StreamReader

open StreamDecoder

variable {δ : Type} [StreamDecoder δ] {d : Disk} {node : Nat} {r r' : StreamReader δ}

/-- What a reader keeps in mind is true of its decoder: it has ended if the reader says so, and it
can be asked for more unless the reader says that it has failed. -/
inductive Going (node : Nat) (r : StreamReader δ) : Prop
  | pending : r.tail = .pending → Asked node r.decoder → Going node r
  | clean : r.tail = .clean → Ended node r.decoder → Going node r
  | failed : r.tail = .failed → Going node r

/-- The reader `r'` comes after `r`: no less of the file has been fetched, and the end has not been
left. -/
structure Forward (r r' : StreamReader δ) : Prop where
  fileSize_eq : r'.fileSize = r.fileSize
  position_le : position r.decoder ≤ position r'.decoder
  clean : r.tail = .clean → r'.tail = .clean

theorem percentRead_le_hundred (r : StreamReader δ) : r.percentRead ≤ 100 := by
  by_cases hclean : r.tail = .clean
  · exact Nat.le_of_eq (percentRead_of_clean hclean)
  · exact Nat.le_trans (percentRead_le hclean) (by decide)

theorem Forward.percentRead_le (h : Forward r r') : r.percentRead ≤ r'.percentRead := by
  by_cases hclean : r'.tail = .clean
  · rw [percentRead_of_clean hclean]
    exact r.percentRead_le_hundred
  · rw [percentRead, if_neg (mt h.clean hclean), percentRead, if_neg hclean, h.fileSize_eq]
    exact min_le_min_right _ (percent_mono h.position_le _)

/-- Whatever is asked of a reader, it goes forward. -/
theorem Going.ask (hsteady : Steady δ) (h : r.Going node) (hd : d.IsFile node)
    {request : ReadRequest} (hrequest : request.Sequential) :
    (r.ask d request).2.Going node ∧ Forward r (r.ask d request).2 := by
  obtain ⟨stop, x, hcourse⟩ := exists_course d request.askedFor request.needed r.decoder
  have hasks := request.askedFor_pos
  cases h with
  | failed htail =>
      rw [(ask_of_failed htail d request).1]
      exact ⟨.failed htail, rfl, Nat.le_refl _, id⟩
  | clean htail hended =>
      rw [(ask_of_course (by simp [htail]) hrequest hcourse).2]
      obtain ⟨hstop, hended'⟩ := hcourse.of_ended hsteady hd hended hasks
      have hle := (hcourse.forward hsteady hd hended.1 hasks).1
      rcases hstop with rfl | rfl
      · exact ⟨.clean htail hended', rfl, hle, id⟩
      · exact ⟨.clean rfl hended', rfl, hle, fun _ => rfl⟩
  | pending htail hasked =>
      rw [(ask_of_course (by simp [htail]) hrequest hcourse).2]
      obtain ⟨hle, hasked', hended⟩ := hcourse.forward hsteady hd hasked hasks
      have hnot : r.tail = .clean → False := by simp [htail]
      cases stop with
      | none => exact ⟨.pending htail (hasked' rfl), rfl, hle, id⟩
      | some ending =>
          cases ending with
          | ok => exact ⟨.clean rfl (hended rfl), rfl, hle, fun _ => rfl⟩
          | error fault => exact ⟨.failed rfl, rfl, hle, fun hclean => (hnot hclean).elim⟩

theorem Going.run (hsteady : Steady δ) (h : r.Going node) (hd : d.IsFile node) {op : Operation}
    (hop : op.Sequential) : (r.run d op).2.Going node ∧ Forward r (r.run d op).2 := by
  cases op with
  | ask request => exact h.ask hsteady hd hop
  | _ => exact ⟨h, rfl, Nat.le_refl _, id⟩

/-- A request for some bytes that gets none has come to the end of the stream. -/
theorem percentRead_of_end {count : Nat} (hcount : 0 < count)
    (hread : (r.readSome count d).1 = .ok .empty) : (r.readSome count d).2.percentRead = 100 := by
  rw [readSome, if_neg (by omega)] at hread ⊢
  split at hread
  case isTrue => cases hread
  case isFalse hfailed =>
    split at hread
    case h_1 => cases hread
    case h_2 hnext =>
      obtain rfl := Except.ok.inj hread
      rw [if_neg hfailed]
      exact percentRead_of_clean rfl

end StreamReader

namespace Streamed

variable {δ ε : Type} [StreamDecoder δ] [StreamEncoder ε] {r : StreamReader δ} {path : String}
  {o : WriteOptions} {node : Nat}

/-- The shares of a stream never fall, whatever becomes of its file while it is read. -/
theorem progresses (hsteady : StreamDecoder.Steady δ) (h : r.Going node) :
    (r.handle path o : File (Streamed δ ε)).Progresses (·.IsFile node) := by
  refine File.progresses_of_steps
    (P := fun f => ∃ r : StreamReader δ, f = r.handle path o ∧ r.Going node) ?_ ?_ ⟨r, rfl, h⟩
  · rintro _ op d ⟨r, rfl, h⟩ hop hd
    obtain ⟨hopens, hclose⟩ := hop.not_opens
    obtain ⟨hgoing, hforward⟩ := h.run hsteady hd hop
    rw [StreamReader.run_handle path o r d hopens hclose]
    exact ⟨⟨_, rfl, hgoing⟩, hforward.percentRead_le⟩
  · rintro _ ⟨r, rfl, -⟩
    exact r.percentRead_le_hundred

/-- The end of a stream is told. -/
theorem tellsEnd (hsteady : StreamDecoder.Steady δ) (h : r.Going node) :
    (r.handle path o : File (Streamed δ ε)).TellsEnd (·.IsFile node) := by
  refine File.tellsEnd_of_steps (P := fun f => ∃ r : StreamReader δ, f = r.handle path o ∧
    r.Going node) ?_ ?_ ?_ ⟨r, rfl, h⟩
  · rintro _ op d ⟨r, rfl, h⟩ hop hd
    obtain ⟨hopens, hclose⟩ := hop.not_opens
    rw [StreamReader.run_handle path o r d hopens hclose]
    exact ⟨_, rfl, (h.run hsteady hd hop).1⟩
  · rintro _ ⟨r, rfl, h⟩
    exact progresses hsteady h
  · rintro _ count d ⟨r, rfl, -⟩ hcount - hread
    rw [StreamReader.ask_handle] at hread ⊢
    exact StreamReader.percentRead_of_end hcount (Answer.bytes.inj hread)

end Streamed

namespace Gzip.Decoder

variable {d d' : Disk} {node : Nat} {decoder : Decoder}

/-- What is said of a decoder on one file, can be said of it on any other one. -/
private theorem Rests.exists_on {promise : Nat} (h : Rests d node promise decoder)
    (hd' : d'.IsFile node) : ∃ promise', Rests d' node promise' decoder := by
  obtain ⟨F, hF⟩ := hd'
  cases h with
  | @body m source more _ hsource hsound _ =>
      have hnode : d'.node? source.node = some (.file F) := by rw [hsource.node_eq, hF]
      have hsource' : Fetches d' node
          (source.pending.data.toList ++ F.data.toList.drop source.position) source :=
        ⟨⟨F, hnode, rfl⟩, hsource.node_eq, hsource.block_pos⟩
      exact ⟨_, .body hsource' hsound (Nat.le_refl _)⟩
  | finished => exact ⟨0, .finished⟩
  | broken => exact ⟨0, .broken⟩

private theorem exists_rests (h : StreamDecoder.Asked node decoder) (hd : d.IsFile node) :
    ∃ promise, Rests d node promise decoder := by
  induction h generalizing d with
  | start hfile =>
      obtain ⟨F, hF⟩ := hfile
      exact (rests_start hF).exists_on hd
  | read _ hfile hcount hread ih =>
      obtain ⟨promise, hrests⟩ := ih hfile
      obtain ⟨⟨promise', -, hrests'⟩, -⟩ := (sources _ node).answered hrests hcount hread
      exact hrests'.exists_on hd

/-- Decoders of gzip go forward, and stay at the end of the last member. -/
theorem steady : StreamDecoder.Steady Decoder where
  position_le count x d := (beyond_read ⟨rfl, Nat.le_refl _⟩ count d).le_position
  ended := by
    intro node count count' x x' d d' bytes hx hd hcount hread hsize hd' hcount'
    obtain ⟨promise, hrests⟩ := exists_rests hx hd
    obtain ⟨source, stage⟩ := x'
    obtain rfl : stage = .finished := hrests.finished_of_read hcount hread hsize
    rfl

end Gzip.Decoder

/-! ### Formats -/

/-- The shares that a handle tells from its opening on never fall and are percentages, whatever is
done that reads on and however the file changes in between. The end of the trace is told as 100
percent, of a chunked file if that is not so long that its length times 100 saturates. -/
theorem Operation.shares_rise [Compression] (hsteady : StreamDecoder.Steady Compression.Decoder) :
    (∀ (format : Format) (c : Codec Compression.Memory), format.codec? = some c →
      ∀ (f g : File (Chunked Compression.Memory)) (path : String) (d : Disk), f.backend.codec = c →
        f.open path .read d = ⟨.ok (), g, d⟩ →
        g.Progresses (fun _ => True) ∧
        ∀ (F : ByteArray) (chunks : List (Chunk c)), d.contents? path = some F →
          F.data.toList = c.magicBytes.data.toList ++ Chunk.frames chunks →
          F.size ≤ (2 ^ 64 - 1) / 100 → g.TellsEnd (· = d)) ∧
    ∀ (f g : File GzipBackend) (path : String) (d : Disk) (node : Nat), d.lookup path = .ok node →
      d.IsFile node → f.open path .read d = ⟨.ok (), g, d⟩ →
      g.Progresses (·.IsFile node) ∧ g.TellsEnd (·.IsFile node) := by
  refine ⟨?_, ?_⟩
  · rintro format c - f g path d rfl hopen
    obtain ⟨r, b, hreader, hcodec, rfl⟩ := Chunked.reader_of_open hopen
    refine ⟨Chunked.progresses r b _, fun F chunks hF hchunks hsize => ?_⟩
    have hstep := ChunkReader.inStep_of_open hF hchunks hreader
    rw [← hcodec] at hstep
    exact Chunked.tellsEnd hstep hsize
  · intro f g path d node hlookup hfile hopen
    obtain ⟨o, rfl⟩ := Streamed.reader_of_lookup hlookup hopen
    have hgoing : StreamReader.Going node
        (⟨StreamDecoder.start node d, d.size node, .pending⟩ : StreamReader Compression.Decoder) :=
      .pending rfl (.start hfile)
    exact ⟨Streamed.progresses hsteady hgoing, Streamed.tellsEnd hsteady hgoing⟩

/-- Two chunks of a byte each, and a stream of one. -/
theorem Operation.shares_rise_stored :
    let d : Disk := ⟨[("t", 0), ("z", 1)],
      #[.file ⟨#[0x61, 0x74, 3, 0, 0, 0, 1, 0, 7, 3, 0, 0, 0, 1, 0, 9]⟩,
        .file ⟨#[0x1f, 0x8b, 8, 0, 0, 0, 0, 0, 0, 0xff, 1, 1, 0, 0xfe, 0xff, 7, 46, 122, 102, 76,
          1, 0, 0, 0]⟩]⟩
    let ops : List (Operation × Disk) := [(.ask (.readSome 9), d), (.ask .getc, d),
      (.ask (.readSome 9), d)]
    let f := ((File.new (Chunked.new Snappy.codec () default)).open "t" .read d).state
    let g := ((File.new (.new default : @GzipBackend .stored)).open "z" .read d).state
    (shares ops f = [12, 56, 100, 100] ∧ f.Progresses (fun _ => True) ∧ f.TellsEnd (· = d)) ∧
      shares ops g = [99, 99, 100, 100] ∧ g.Progresses (·.IsFile 1) ∧ g.TellsEnd (·.IsFile 1) := by
  intro d ops f g
  obtain ⟨hchunked, hgzip⟩ := @shares_rise .stored Gzip.Decoder.steady
  obtain ⟨chunk, hchunk⟩ : ∃ chunk : Chunk Snappy.codec, chunk.frame = [3, 0, 0, 0, 1, 0, 7] :=
    ⟨⟨⟨#[1, 0, 7]⟩, ⟨#[7]⟩, by decide, by decide, rfl⟩, rfl⟩
  obtain ⟨last, hlast⟩ : ∃ chunk : Chunk Snappy.codec, chunk.frame = [3, 0, 0, 0, 1, 0, 9] :=
    ⟨⟨⟨#[1, 0, 9]⟩, ⟨#[9]⟩, by decide, by decide, rfl⟩, rfl⟩
  have hfile : [0x61, 0x74, 3, 0, 0, 0, 1, 0, 7, 3, 0, 0, 0, 1, 0, 9] =
      Snappy.codec.magicBytes.data.toList ++ Chunk.frames [chunk, last] := by
    simp [hchunk, hlast]
    rfl
  obtain ⟨hrises, hends⟩ := hchunked .snappy _ rfl (File.new (.new Snappy.codec () default)) f "t" d
    rfl rfl
  exact ⟨⟨by decide +kernel, hrises, hends _ [chunk, last] rfl hfile (by decide)⟩,
    by decide +kernel, hgzip (File.new (.new default)) g "z" d 1 rfl ⟨_, rfl⟩ rfl⟩

end TraceStore
