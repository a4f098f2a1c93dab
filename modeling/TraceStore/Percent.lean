import TraceStore.Instances

/-!
# Progress in percent
-/
namespace TraceStore

/-- Largest value of a 64-bit counter, where products saturate. -/
private def counterMax : Nat := 2 ^ 64 - 1

/-- Share of `len` that lies before `pos`, at most 100. Nothing at all counts as done. -/
def percent (pos len : Nat) : Nat :=
  if len = 0 then 100
  else min (min pos len * 100) counterMax / len

end TraceStore
