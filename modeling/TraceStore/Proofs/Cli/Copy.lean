import TraceStore.Proofs.Cli.Repack
import TraceStore.Proofs.Trace.Beyond

/-!
# Copying what is drained

What is drained of a trace is copied, whatever it ends in, as long as writing the copy changes
nothing that the trace still looks at: `Cli.repack_of_drains`.
-/
namespace TraceStore.Cli

variable [Compression.ForGzip] {d d₀ d₁ : Disk} {node position : Nat} {t t' sink : Trace}
  {bytes : List UInt8} {ending : Except Error Unit}

/-- The failure of a command that an error of its input is. -/
def decodeFailure (e : Error) : Failure := ⟨.decodeInput, .trace e⟩

/-- What is drained from a trace is copied, and what it ends in is what copying ends in. -/
theorem pumpWithin_of_drains (Takes : List UInt8 → Trace → Disk → Prop)
    (hagree : ∀ {rest sink d}, Takes rest sink d → d₀.AgreeFrom node position d)
    (hwrite : ∀ {piece : ByteArray} {rest sink d}, Takes (piece.data.toList ++ rest) sink d →
      ∃ sink' d', sink.write piece d = ⟨.ok (), sink', d'⟩ ∧ Takes rest sink' d')
    (h : Drains (fun t => t.readSome copySize d₀) t bytes ending t') (ht : t.Beyond node position)
    (fuel : Nat) (hfuel : bytes.length < fuel) (hsink : Takes bytes sink d) :
    ∃ sink' d', pumpWithin fuel t sink d = (ending.mapError decodeFailure, sink', d') ∧
      Takes [] sink' d' := by
  induction h generalizing fuel sink d with
  | @ended t t' piece hread hsize =>
      obtain ⟨fuel, rfl⟩ := Nat.exists_eq_succ_of_ne_zero (by omega : fuel ≠ 0)
      refine ⟨sink, d, ?_, hsink⟩
      rw [pumpWithin, ht.readSome_eq (hagree hsink), hread]
      exact if_pos (isEmpty_iff.2 hsize)
  | @failed t t' e hread =>
      obtain ⟨fuel, rfl⟩ := Nat.exists_eq_succ_of_ne_zero (by omega : fuel ≠ 0)
      refine ⟨sink, d, ?_, hsink⟩
      rw [pumpWithin, ht.readSome_eq (hagree hsink), hread]
      rfl
  | @more t t₁ t' piece bytes ending hread hsize _ ih =>
      obtain ⟨fuel, rfl⟩ := Nat.exists_eq_succ_of_ne_zero (by omega : fuel ≠ 0)
      rw [List.length_append, length_toList] at hfuel
      obtain ⟨sink₁, d₁, hpiece, hsink₁⟩ := hwrite hsink
      have ht₁ := ht.readSome copySize d₀
      rw [hread] at ht₁
      obtain ⟨sink', d', hrest, hsink'⟩ := ih ht₁ fuel (by omega) hsink₁
      refine ⟨sink', d', ?_, hsink'⟩
      rw [pumpWithin, ht.readSome_eq (hagree hsink), hread]
      simp only [mt isEmpty_iff.1 hsize, Bool.false_eq_true, if_false, hpiece, hrest]

/-- A sink that has taken `bytes` but for `rest`, in some writes from the one that was opened on. -/
private def Wants (opened : Trace) (d₁ : Disk) (bytes rest : List UInt8) (sink : Trace) (d : Disk) :
    Prop :=
  ∃ writes : List ByteArray, WriteRequest.written (writes.map .write) ++ rest = bytes ∧
    WriteRequest.runAll File.perform (writes.map .write) opened d₁ = ⟨.ok (), sink, d⟩

/-- A sink that takes all writes takes the next piece of what it wants. -/
private theorem Wants.write {opened : Trace} {piece : ByteArray} {rest : List UInt8}
    (h : Wants opened d₁ bytes (piece.data.toList ++ rest) sink d)
    (hruns : ∀ requests, ∃ sink' d',
      WriteRequest.runAll File.perform requests opened d₁ = ⟨.ok (), sink', d'⟩) :
    ∃ sink' d', sink.write piece d = ⟨.ok (), sink', d'⟩ ∧ Wants opened d₁ bytes rest sink' d' := by
  obtain ⟨writes, hbytes, hrun⟩ := h
  obtain ⟨sink', d', hmore⟩ := hruns ((writes ++ [piece]).map .write)
  have hpiece := hmore
  rw [List.map_append, WriteRequest.runAll_append hrun] at hpiece
  refine ⟨sink', d', ?_, writes ++ [piece], ?_, hmore⟩
  · exact (WriteRequest.runAll_singleton ..).symm.trans hpiece
  · rw [← hbytes]
    simp [WriteRequest.bytes]

/-- What is drained of a trace is what repacking it records, if the file that is written is never
changed where the trace still looks at it. -/
theorem repack_of_drains {input output : String} {format : Format} {o : WriteOptions}
    (hlossless : Compression.Lossless) (ho : o.validate = .ok ()) (hpath : d.Creatable output)
    (hopen : Trace.openForRead input d = .ok (t, d))
    (hsink : Trace.openForWrite output format o d = .ok (sink, d₁)) (ht : t.Beyond node position)
    (hagree : ∀ (writes : List ByteArray) (sink' : Trace) (d₂ : Disk),
      WriteRequest.written (writes.map .write) <+: bytes →
      WriteRequest.runAll File.perform (writes.map .write) sink d₁ = ⟨.ok (), sink', d₂⟩ →
      d₀.AgreeFrom node position d₂)
    (hdrains : Drains (fun t => t.readSome copySize d₀) t bytes ending t')
    (hlength : bytes.length ≤ t.backend.remaining d₀) :
    ∃ requests d', WriteRequest.written requests = bytes ∧
      repack input output format o d = (ending.mapError decodeFailure, d') ∧
      File.Records (AnyBackend.ofFormat o format) output d requests d' := by
  have htakes := exists_run_of_openForWrite hlossless ho hpath hsink
  have hruns (requests : List WriteRequest) : ∃ sink' d',
      WriteRequest.runAll File.perform requests sink d₁ = ⟨.ok (), sink', d'⟩ := by
    obtain ⟨sink', d', hrun, -⟩ := htakes requests
    exact ⟨sink', d', hrun⟩
  have hagree' {rest sink' d₂} (h : Wants sink d₁ bytes rest sink' d₂) :
      d₀.AgreeFrom node position d₂ := by
    obtain ⟨writes, rfl, hrun⟩ := h
    exact hagree writes sink' d₂ (List.prefix_append ..) hrun
  have hstart : Wants sink d₁ bytes bytes sink d₁ := ⟨[], rfl, rfl⟩
  obtain ⟨sink', d₂, hpump, writes, hbytes, hrun⟩ := pumpWithin_of_drains (Wants sink d₁ bytes)
    hagree' (·.write hruns) hdrains ht (t.backend.remaining d₁ + 1)
    (by rw [ht.remaining_eq (hagree' hstart)]; exact Nat.lt_succ_of_le hlength) hstart
  rw [List.append_nil] at hbytes
  cases ending with
  | error e =>
      obtain ⟨_, _, hrun', hrecords⟩ := htakes (writes.map .write)
      obtain ⟨-, rfl, rfl⟩ := Outcome.mk.inj (hrun'.symm.trans hrun)
      refine ⟨_, _, hbytes, ?_, hrecords⟩
      rw [repack, hopen]
      dsimp only
      rw [hsink]
      dsimp only
      rw [pump, hpump]
      rfl
  | ok =>
      obtain ⟨sink'', d₃, hflush, hrecords⟩ := htakes (writes.map .write ++ [.flush])
      rw [WriteRequest.runAll_append hrun, WriteRequest.runAll_singleton] at hflush
      refine ⟨_, _, ?_, ?_, hrecords⟩
      · rw [← hbytes]
        simp [WriteRequest.bytes]
      · rw [repack, hopen]
        dsimp only
        rw [hsink]
        dsimp only
        rw [pump, hpump, show (Except.ok ()).mapError decodeFailure = .ok () from rfl]
        dsimp only
        rw [show sink'.flush d₂ = _ from hflush]

end TraceStore.Cli
