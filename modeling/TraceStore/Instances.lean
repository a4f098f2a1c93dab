/-!
# Preferred instances

Other libraries bring powers of numbers and decisions of equality for byte arrays and results of
their own. The ones of the core library are preferred, and for results the one that stands here, so
that a definition here is the same one beside any of them.
-/
namespace TraceStore

@[default_instance 20000]
instance (priority := high) powNat : Pow Nat Nat := instPowNat

@[default_instance 15000]
instance (priority := high) powInt : Pow Int Nat := instPowNat

instance (priority := high) decidableEqByteArray : DecidableEq ByteArray := ByteArray.instDecidableEq

instance (priority := high) decidableEqExcept {ε α : Type} [DecidableEq ε] [DecidableEq α] :
    DecidableEq (Except ε α)
  | .error e, .error e' => decidable_of_iff (e = e') ⟨congrArg _, Except.error.inj⟩
  | .ok a, .ok a' => decidable_of_iff (a = a') ⟨congrArg _, Except.ok.inj⟩
  | .error _, .ok _ => isFalse nofun
  | .ok _, .error _ => isFalse nofun

end TraceStore
