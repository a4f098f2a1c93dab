import TraceStore.Proofs.Json.Literal
import TraceStore.Proofs.Json.Number

/-!
# The grammar of JSON texts

What a text spells is stated apart from the parser. `Spells phrase s` has one rule for each kind of
value, and lists of items and of members are phrases of their own. The tokens are string literals,
numbers, marks and the blanks between them.

* `Spells`, `SpelledBy`: what a piece of a text and a whole text spell.
* `skipBlanks_mark`, `exists_skipBlanks`: how blanks are skipped.
-/
namespace TraceStore.Json

/-- Nothing but blanks. -/
def Blank (s : List Char) : Prop := ∀ c ∈ s, c = ' ' ∨ c = '\n' ∨ c = '\r' ∨ c = '\t'

/-- What a piece of a text can spell: a value, the items of an array that is not empty, or the
members of an object that is not empty. -/
inductive Phrase
  | value (json : Json)
  | items (list : List Json)
  | members (list : List (Option String × Json))

/-- `Spells phrase s`: the characters `s` spell `phrase`, which for a value may have blanks around
it. -/
inductive Spells : Phrase → List Char → Prop
  | null : Spells (.value .null) ['n', 'u', 'l', 'l']
  | true : Spells (.value (.bool true)) ['t', 'r', 'u', 'e']
  | false : Spells (.value (.bool false)) ['f', 'a', 'l', 's', 'e']
  | number {n : JsonNumber} {s : List Char} (h : Unsigned Bool.false n s) :
      Spells (.value (.number n)) s
  | negative {n : JsonNumber} {s : List Char} (h : Unsigned Bool.true n s) :
      Spells (.value (.number n)) ('-' :: s)
  | string {text : Option String} {s : List Char} (h : Literal text s) :
      Spells (.value (.string text)) s
  | emptyArray {s : List Char} (h : Blank s) : Spells (.value (.array [])) ('[' :: s ++ [']'])
  | array {list : List Json} {s : List Char} (h : Spells (.items list) s) :
      Spells (.value (.array list)) ('[' :: s ++ [']'])
  | emptyObject {s : List Char} (h : Blank s) :
      Spells (.value (.object [])) ('\x7b' :: s ++ ['\x7d'])
  | object {list : List (Option String × Json)} {s : List Char} (h : Spells (.members list) s) :
      Spells (.value (.object list)) ('\x7b' :: s ++ ['\x7d'])
  | spaced {json : Json} {before s after : List Char} (hbefore : Blank before)
      (h : Spells (.value json) s) (hafter : Blank after) :
      Spells (.value json) (before ++ s ++ after)
  | item {json : Json} {s : List Char} (h : Spells (.value json) s) : Spells (.items [json]) s
  | items {json : Json} {list : List Json} {s rest : List Char} (h : Spells (.value json) s)
      (hrest : Spells (.items list) rest) : Spells (.items (json :: list)) (s ++ ',' :: rest)
  | member {key : Option String} {json : Json} {before name after s : List Char}
      (hbefore : Blank before) (hname : Literal key name) (hafter : Blank after)
      (h : Spells (.value json) s) :
      Spells (.members [(key, json)]) (before ++ name ++ after ++ ':' :: s)
  | members {key : Option String} {json : Json} {list : List (Option String × Json)}
      {before name after s rest : List Char} (hbefore : Blank before) (hname : Literal key name)
      (hafter : Blank after) (h : Spells (.value json) s) (hrest : Spells (.members list) rest) :
      Spells (.members ((key, json) :: list))
        (before ++ name ++ after ++ ':' :: s ++ ',' :: rest)

/-- The whole text spells the value. -/
def SpelledBy (json : Json) (text : String) : Prop := Spells (.value json) text.toList

/-! ### Blanks -/

theorem isBlank_iff {c : Char} :
    isBlank c = true ↔ c = ' ' ∨ c = '\n' ∨ c = '\r' ∨ c = '\t' := by
  simp only [isBlank, Bool.or_eq_true, decide_eq_true_eq, or_assoc]

theorem blank_nil : Blank [] := by
  simp [Blank]

theorem Blank.append {s t : List Char} (hs : Blank s) (ht : Blank t) : Blank (s ++ t) :=
  fun c hc => (List.mem_append.1 hc).elim (hs c) (ht c)

theorem skipBlanks_append {s : List Char} (h : Blank s) (rest : List Char) :
    skipBlanks (s ++ rest) = skipBlanks rest :=
  List.dropWhile_append_of_pos fun c hc => isBlank_iff.2 (h c hc)

theorem skipBlanks_of_head {c : Char} (h : isBlank c = false) (rest : List Char) :
    skipBlanks (c :: rest) = c :: rest :=
  List.dropWhile_cons_of_neg (by simp [h])

/-- The blanks up to the next mark. -/
theorem skipBlanks_mark {s : List Char} {c : Char} (h : Blank s) (hc : isBlank c = false)
    (rest : List Char) : skipBlanks (s ++ c :: rest) = c :: rest := by
  rw [skipBlanks_append h, skipBlanks_of_head hc]

/-- The blanks that are skipped. -/
theorem exists_skipBlanks (s : List Char) : ∃ before, Blank before ∧ s = before ++ skipBlanks s :=
  ⟨s.takeWhile isBlank, fun _ hc => isBlank_iff.1 (List.mem_takeWhile_imp hc),
    List.takeWhile_append_dropWhile.symm⟩

/-! ### What is behind a value -/

/-- What may follow a value: nothing, a blank, or what separates and closes. -/
def Stops (rest : List Char) : Prop :=
  ∀ c ∈ rest.head?, isBlank c = true ∨ c = ',' ∨ c = ']' ∨ c = '\x7d'

theorem stops_nil : Stops [] := by
  simp [Stops]

theorem stops_cons {c : Char} (h : isBlank c = true ∨ c = ',' ∨ c = ']' ∨ c = '\x7d')
    (rest : List Char) : Stops (c :: rest) := by
  simpa [Stops] using h

theorem Stops.append {s rest : List Char} (hs : Blank s) (h : Stops rest) : Stops (s ++ rest) := by
  cases s with
  | nil => exact h
  | cons c s => exact stops_cons (.inl (isBlank_iff.2 (hs c List.mem_cons_self))) _

/-- No number goes on with what may follow a value. -/
theorem Stops.ends {rest : List Char} (h : Stops rest) : Ends rest := by
  intro c hc
  have hstop := h c hc
  rw [isBlank_iff] at hstop
  rcases hstop with (rfl | rfl | rfl | rfl) | rfl | rfl | rfl <;> decide

end TraceStore.Json
