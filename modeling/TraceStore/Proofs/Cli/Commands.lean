import TraceStore.Cli.Run
import TraceStore.Proofs.Trace.Spares

/-!
# The info command on traces that fail

The info command sees what draining a trace comes to, `Trace.piecesWithin_of_drains`, and fails if
the trace does not end cleanly.
-/
namespace TraceStore

variable [Compression]

/-! ### Reading in pieces -/

namespace Trace

/-- A position is told without a change of the handle. -/
theorem currentOffset_snd (t : Trace) : t.currentOffset.2 = t := by
  obtain ⟨filename, mode, opened, backend⟩ := t
  cases opened <;> cases backend <;> rfl

/-- Reading in pieces comes to the same as draining. -/
theorem piecesWithin_of_drains {count : Nat} {d : Disk} {t t' : Trace} {bytes : List UInt8}
    {ending : Except Error Unit} (h : Drains (fun t => t.readSome count d) t bytes ending t')
    (fuel : Nat) (hfuel : bytes.length < fuel) :
    ∃ pieces, piecesWithin count d fuel t = (pieces, ending, t') ∧
      pieces.flatMap (·.bytes.data.toList) = bytes := by
  induction h generalizing fuel with
  | ended hread hsize =>
      obtain ⟨fuel, rfl⟩ := Nat.exists_eq_succ_of_ne_zero (by omega : fuel ≠ 0)
      refine ⟨[], ?_, rfl⟩
      rw [piecesWithin, hread]
      exact if_pos (isEmpty_iff.2 hsize)
  | failed hread =>
      obtain ⟨fuel, rfl⟩ := Nat.exists_eq_succ_of_ne_zero (by omega : fuel ≠ 0)
      refine ⟨[], ?_, rfl⟩
      rw [piecesWithin, hread]
  | @more t t₁ t' piece bytes ending hread hsize _ ih =>
      obtain ⟨fuel, rfl⟩ := Nat.exists_eq_succ_of_ne_zero (by omega : fuel ≠ 0)
      rw [List.length_append, length_toList] at hfuel
      obtain ⟨pieces, hrest, rfl⟩ := ih fuel (by omega)
      refine ⟨⟨piece, t₁.currentOffset.1.chunk⟩ :: pieces, ?_, rfl⟩
      rw [piecesWithin, hread]
      simp only [mt isEmpty_iff.1 hsize, Bool.false_eq_true, if_false, currentOffset_snd, hrest]

end Trace

namespace Cli

variable {path : String} {d d' : Disk} {t t' : Trace}

/-! ### The info command -/

theorem info_of_not_opened {e : Error} (hopen : Trace.openForRead path d = .error e)
    (listChunks : Bool) : ∃ failure, info path listChunks d = .error failure := by
  rw [info]
  cases d.lookup path with
  | error cause => exact ⟨_, rfl⟩
  | ok node =>
      rw [hopen]
      exact ⟨_, rfl⟩

/-- A trace that does not end cleanly is not reported on. -/
theorem info_of_drains {e : Error} {bytes : List UInt8}
    (hopen : Trace.openForRead path d = .ok (t, d'))
    (hdrains : Drains (fun t => t.readSome bufferSize d') t bytes (.error e) t')
    (hlength : bytes.length ≤ t.backend.remaining d') (listChunks : Bool) :
    ∃ failure, info path listChunks d = .error failure := by
  obtain ⟨pieces, hpieces, -⟩ := Trace.piecesWithin_of_drains hdrains _ (Nat.lt_succ_of_le hlength)
  rw [info]
  cases d.lookup path with
  | error cause => exact ⟨_, rfl⟩
  | ok node =>
      rw [hopen]
      refine ⟨⟨.decodeInput, .trace e⟩, ?_⟩
      dsimp only [Bind.bind, Except.bind, Pure.pure, Except.pure]
      rw [Trace.pieces, hpieces]

end Cli
end TraceStore
