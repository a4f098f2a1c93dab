import TraceStore.File
import TraceStore.Options
import TraceStore.Proofs.Delivery
import TraceStore.Proofs.Disk.Writer

/-!
# Requests

What can be asked of something that is open, as data, so that statements can speak of any number of
requests in any order. Handles answer requests, and so do the readers and writers below them.
-/
namespace TraceStore

/-! ### Reading -/

/-- A request that needs a handle open for reading. -/
inductive ReadRequest
  | read (count : Nat)
  | readSome (count : Nat)
  | getc
  | skip (count : Nat)
  | seek (a : Offset)

/-- What a request for reading is answered with. -/
inductive Answer
  | bytes (result : Except Error ByteArray)
  | byte (result : Option UInt8)
  | done (result : Except Error Unit)
deriving DecidableEq

namespace ReadRequest

variable {τ υ : Type}

/-- Whether a request reads on from where the last one ended. -/
def Sequential : ReadRequest → Prop
  | seek _ => False
  | _ => True

/-- The answer to a request that is refused with an error. -/
def refused (e : Error) : ReadRequest → Answer
  | read _ | readSome _ => .bytes (.error e)
  | getc => .byte none
  | skip _ | seek _ => .done (.error e)

/-- Asks one thing after the other. -/
def askAll (ask : τ → ReadRequest → Answer × τ) : List ReadRequest → τ → List Answer × τ
  | [], x => ([], x)
  | request :: requests, x =>
    let (answer, x) := ask x request
    let (answers, x) := askAll ask requests x
    (answer :: answers, x)

/-- What stands for something else answers as that does. -/
theorem askAll_map {ask : τ → ReadRequest → Answer × τ} {ask' : υ → ReadRequest → Answer × υ}
    (g : τ → υ) (hg : ∀ x request, ask' (g x) request = (ask x request).map id g)
    (requests : List ReadRequest) (x : τ) :
    askAll ask' requests (g x) = (askAll ask requests x).map id g := by
  induction requests generalizing x with
  | nil => rfl
  | cons request requests ih => simp [askAll, hg, ih]

end ReadRequest

/-! ### Writing -/

theorem Outcome.eq_of_result {τ α : Type} {ran : Outcome τ α} {result : Except Error α}
    (h : ran.result = result) : ran = ⟨result, ran.state, ran.disk⟩ := by
  rw [← h]

/-- A request that needs a handle open for writing. -/
inductive WriteRequest
  | write (bytes : ByteArray)
  | flush

namespace WriteRequest

/-- The bytes that a request adds to a trace. -/
def bytes : WriteRequest → List UInt8
  | write bytes => bytes.data.toList
  | flush => []

/-- The bytes that some requests add to a trace. -/
def written (requests : List WriteRequest) : List UInt8 := requests.flatMap bytes

@[simp] theorem written_nil : written [] = [] := rfl
@[simp] theorem written_cons (request : WriteRequest) (requests : List WriteRequest) :
    written (request :: requests) = request.bytes ++ written requests := rfl

@[simp] theorem written_append (requests more : List WriteRequest) :
    written (requests ++ more) = written requests ++ written more := by simp [written]

variable {τ υ : Type}

/-- Performs requests one after the other, up to the first that fails. -/
def runAll (perform : WriteRequest → τ → Disk → Outcome τ Unit) :
    List WriteRequest → τ → Disk → Outcome τ Unit
  | [], x, d => ⟨.ok (), x, d⟩
  | request :: requests, x, d =>
    match perform request x d with
    | ⟨.error e, x, d⟩ => ⟨.error e, x, d⟩
    | ⟨.ok (), x, d⟩ => runAll perform requests x d

variable {perform : WriteRequest → τ → Disk → Outcome τ Unit}

theorem runAll_singleton (request : WriteRequest) (x : τ) (d : Disk) :
    runAll perform [request] x d = perform request x d := by
  rw [runAll]
  split
  · rename_i hperform
    exact hperform.symm
  · rename_i hperform
    exact hperform.symm

/-- Requests behind others that all succeed go on where those end. -/
theorem runAll_append {requests : List WriteRequest} {x x' : τ} {d d' : Disk}
    (h : runAll perform requests x d = ⟨.ok (), x', d'⟩) (more : List WriteRequest) :
    runAll perform (requests ++ more) x d = runAll perform more x' d' := by
  induction requests generalizing x d with
  | nil =>
      obtain ⟨-, rfl, rfl⟩ := Outcome.mk.inj h
      rfl
  | cons request requests ih =>
      rw [runAll] at h
      split at h
      case h_1 => cases (Outcome.mk.inj h).1
      case h_2 hperform =>
        rw [List.cons_append, runAll, hperform]
        exact ih h

/-- What every request keeps, and adds its bytes to, all requests keep, and none of them fails. -/
theorem runAll_of_invariant (Inv : List UInt8 → τ → Disk → Prop)
    (step : ∀ s x d, Inv s x d → ∀ request : WriteRequest, ∃ x' d',
      perform request x d = ⟨.ok (), x', d'⟩ ∧ Inv (s ++ request.bytes) x' d')
    (requests : List WriteRequest) {s : List UInt8} {x : τ} {d : Disk} (h : Inv s x d) :
    ∃ x' d', runAll perform requests x d = ⟨.ok (), x', d'⟩ ∧
      Inv (s ++ written requests) x' d' := by
  induction requests generalizing s x d with
  | nil => exact ⟨x, d, rfl, by simpa using h⟩
  | cons request requests ih =>
      obtain ⟨x₁, d₁, hfirst, h₁⟩ := step s x d h request
      obtain ⟨x₂, d₂, hrest, h₂⟩ := ih h₁
      refine ⟨x₂, d₂, ?_, ?_⟩
      · rw [runAll, hfirst]
        exact hrest
      · rwa [written_cons, ← List.append_assoc]

/-- Requests of something that stands for something else are requests of that. -/
theorem runAll_mapState {perform' : WriteRequest → υ → Disk → Outcome υ Unit} (g : τ → υ)
    (hg : ∀ request x d, perform' request (g x) d = (perform request x d).mapState g)
    (requests : List WriteRequest) (x : τ) (d : Disk) :
    runAll perform' requests (g x) d = (runAll perform requests x d).mapState g := by
  induction requests generalizing x d with
  | nil => rfl
  | cons request requests ih =>
      rw [runAll, runAll, hg]
      obtain ⟨result, x', d'⟩ := perform request x d
      cases result with
      | error e => rfl
      | ok => exact ih x' d'

/-- What every request keeps, all requests keep, whether they succeed or not. -/
theorem runAll_keeps (Inv : τ → Disk → Prop)
    (step : ∀ request x d, Inv x d → Inv (perform request x d).state (perform request x d).disk)
    (requests : List WriteRequest) {x : τ} {d : Disk} (h : Inv x d) :
    Inv (runAll perform requests x d).state (runAll perform requests x d).disk := by
  induction requests generalizing x d with
  | nil => exact h
  | cons request requests ih =>
      have hfirst := step request x d h
      rw [runAll]
      split <;> rename_i hperform <;> rw [hperform] at hfirst
      · exact hfirst
      · exact ih hfirst

/-- Whether a node of the disk stays as it is, whatever is requested. -/
def Spares (perform : WriteRequest → τ → Disk → Outcome τ Unit) (id : Nat) (x : τ) (d : Disk) :
    Prop :=
  ∀ requests, (runAll perform requests x d).disk.node? id = d.node? id

variable {x : τ} {d : Disk} {id : Nat}

theorem Spares.of_perform (h : Spares perform id x d) (request : WriteRequest) {x' : τ} {d' : Disk}
    (hperform : perform request x d = ⟨.ok (), x', d'⟩) :
    d'.node? id = d.node? id ∧ Spares perform id x' d' := by
  have hrun : ∀ requests,
      runAll perform (request :: requests) x d = runAll perform requests x' d' :=
    fun requests => by rw [runAll, hperform]
  have hone : d'.node? id = d.node? id := by
    have hfirst := h [request]
    rwa [hrun, runAll] at hfirst
  refine ⟨hone, fun requests => ?_⟩
  rw [hone, ← hrun]
  exact h (request :: requests)

/-- What writes to one node spares the others. -/
theorem spares_of_advances (sink : τ → FileWriter)
    (hperform : ∀ request x d,
      (sink x).Advances d (sink (perform request x d).state) (perform request x d).disk)
    (hne : id ≠ (sink x).node) : Spares perform id x d := by
  intro requests
  have hadvances := runAll_keeps (fun x' d' => (sink x).Advances d (sink x') d')
    (fun request x' d' h => h.trans (hperform request x' d')) requests (.refl (sink x) d)
  exact hadvances.same id hne

theorem Spares.mapState {perform' : WriteRequest → υ → Disk → Outcome υ Unit} (g : τ → υ)
    (hg : ∀ request x d, perform' request (g x) d = (perform request x d).mapState g)
    (h : Spares perform id x d) : Spares perform' id (g x) d := by
  intro requests
  rw [runAll_mapState g hg]
  exact h requests

end WriteRequest

namespace File

variable {β : Type} [Backend β]

/-- Answers a request for reading. -/
def ask (f : File β) (d : Disk) : ReadRequest → Answer × File β
  | .read count => (f.read count d).map .bytes id
  | .readSome count => (f.readSome count d).map .bytes id
  | .getc => (f.getc d).map .byte id
  | .skip count => (f.skip count d).map .done id
  | .seek a => (f.setCurrentOffset a d).map .done id

/-- Performs a request for writing. -/
def perform : WriteRequest → File β → Disk → Outcome (File β) Unit
  | .write bytes, f, d => f.write bytes d
  | .flush, f, d => f.flush d

/-- Whether a new handle that writes a trace does whatever is requested, and leaves a file that
starts with the magic of a format, and from which a new handle that reads serves the bytes written.
-/
def RoundTrips (new : WriteOptions → β) (format : Format) (o : WriteOptions) (path : String)
    (d : Disk) (requests : List WriteRequest) : Prop :=
  ∃ (f f' : File β) (d₁ d₂ d₃ : Disk) (F : ByteArray),
    (File.new (new o)).open path .write d = ⟨.ok (), f, d₁⟩ ∧
    WriteRequest.runAll perform requests f d₁ = ⟨.ok (), f', d₂⟩ ∧
    (f'.close d₂).2 = d₃ ∧ f'.release d₂ = d₃ ∧
    d₃.contents? path = some F ∧ [format.magic.1, format.magic.2] <+: F.data.toList ∧
    ∀ o, ∃ g : File β, (File.new (new o)).open path .read d₃ = ⟨.ok (), g, d₃⟩ ∧
      g.format = format ∧
      Serves (fun count f => f.readSome count d₃) (fun count f => f.read count d₃)
        (WriteRequest.written requests) g

end File
end TraceStore
