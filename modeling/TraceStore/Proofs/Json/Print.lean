import TraceStore.Proofs.Json.Parser
import Mathlib.Data.List.Basic

/-!
# A printed value is read back

The print of a value follows the grammar, on one line or over several, so it spells the value.
Strings are escaped character by character, and integers are written without leading zeros. The value
must be one that a text can spell: half a surrogate pair and a number that is none have no print.

* `spells_compact`, `parse_compact`: the print on one line spells its value and is read back.
* `spells_prettyAt`, `parse_pretty`: so does the print over several lines, whatever the blanks behind
  it.
-/
namespace TraceStore.Json

/-! ### Strings -/

/-- Every character has a spelling. Only control characters need four digits. -/
theorem spelling_escape (c : Char) : Spelling c.toNat (escape c) := by
  unfold escape
  iterate 7
    split
    · subst_vars
      exact .short (by simp [shortEscapes])
  split
  · next hcontrol =>
    have hzero : HexDigit '0' 0 := ⟨by decide, .inl rfl⟩
    have hhigh : HexDigit (Nat.digitChar (c.toNat / 16)) (c.toNat / 16) := ⟨by omega, .inl rfl⟩
    have hlow : HexDigit (Nat.digitChar (c.toNat % 16)) (c.toNat % 16) := ⟨by omega, .inl rfl⟩
    have hhex := Spelling.hex hzero hzero hhigh hlow
    rwa [show ((0 * 16 + 0) * 16 + c.toNat / 16) * 16 + c.toNat % 16 = c.toNat by omega] at hhex
  · next hquote hslash _ _ _ _ _ hcontrol => exact .plain (by omega) hquote hslash

theorem codes_escape (s : List Char) : Codes (s.map Char.toNat) (s.flatMap escape) := by
  induction s with
  | nil => exact .nil
  | cons c s ih => exact .cons (spelling_escape c) ih

theorem joins_self (s : List Char) : Joins (s.map Char.toNat) s := by
  induction s with
  | nil => exact .nil
  | cons c s ih => exact .cons ih

theorem literal_quote (s : String) : Literal (some s) (quote s).toList := by
  have h := Literal.text (codes_escape s.toList) (joins_self s.toList)
  rw [String.ofList_toList] at h
  rwa [quote, String.toList_ofList]

/-! ### Integers -/

theorem digits_natDigits (n : Nat) : Digits (natDigits n) :=
  ⟨Nat.toDigits_ne_nil, fun _ hc => Nat.isDigit_of_mem_toDigits (by omega) (by omega) hc⟩

theorem ofDigitChars_natDigits (n : Nat) : Nat.ofDigitChars 10 (natDigits n) 0 = n :=
  Nat.ofDigitChars_toDigits (by omega) (by omega)

/-- Only zero is written with a zero in front. -/
theorem head_natDigits {n : Nat} (hn : n ≠ 0) : (natDigits n).head? ≠ some '0' := by
  induction n using Nat.strongRecOn with
  | ind n ih =>
      rw [natDigits, Nat.toDigits_eq_if (by omega)]
      split
      · next hlt =>
        have hdigit : ∀ d < 10, d ≠ 0 → Nat.digitChar d ≠ '0' := by decide
        simpa using hdigit n hlt hn
      · next hge =>
        rw [List.head?_append_of_ne_nil _ Nat.toDigits_ne_nil]
        exact ih (n / 10) (by omega) (by omega)

theorem whole_natDigits (n : Nat) : Whole (natDigits n) where
  toDigits := digits_natDigits n
  eq_zero h := by
    by_cases hn : n = 0
    · subst hn
      rfl
    · exact absurd h (head_natDigits hn)

theorem spells_intText (n : Int) : Spells (.value (.number (.integer n))) (intText n).toList := by
  rw [intText, String.toList_ofList]
  have hwhole := whole_natDigits n.natAbs
  have hvalue := ofDigitChars_natDigits n.natAbs
  split
  · next hnegative =>
    have h : Unsigned true _ _ := .integer hwhole (by rw [hvalue]; omega)
    rw [hvalue, if_pos rfl, show -(n.natAbs : Int) = n by omega] at h
    exact .negative h
  · next hpositive =>
    have h : Unsigned false _ _ := .integer hwhole (by simp)
    rw [hvalue, if_neg (by simp), show (n.natAbs : Int) = n by omega] at h
    exact .number h

/-! ### Values -/

mutual

/-- A value that has a print: its strings are texts, and its numbers are numbers. -/
def Printable : Json → Prop
  | .number (.other literal) => Spells (.value (.number (.other literal))) literal.toList
  | .string text => text.isSome
  | .array items => PrintableItems items
  | .object members => PrintableMembers members
  | _ => True

/-- Items that have prints. -/
def PrintableItems : List Json → Prop
  | [] => True
  | item :: rest => item.Printable ∧ PrintableItems rest

/-- Members that have prints. -/
def PrintableMembers : List (Option String × Json) → Prop
  | [] => True
  | (key, value) :: rest => key.isSome ∧ value.Printable ∧ PrintableMembers rest

end

theorem literal_quoteText {text : Option String} (h : text.isSome) :
    Literal text (quoteText text).toList := by
  obtain ⟨s, rfl⟩ := Option.isSome_iff_exists.1 h
  exact literal_quote s

mutual

/-- The print of a value follows the grammar, by induction on the value. -/
theorem spells_compact : ∀ json : Json, json.Printable → Spells (.value json) json.compact.toList
  | .null, _ => .null
  | .bool true, _ => .true
  | .bool false, _ => .false
  | .number (.integer n), _ => spells_intText n
  | .number (.other _), h => h
  | .string _, h => .string (literal_quoteText h)
  | .array [], _ => .emptyArray blank_nil
  | .array (item :: rest), h => by
      have hitems := Spells.array (spells_compactItems (item :: rest) h (by simp))
      rw [compact, String.toList_append, String.toList_append]
      exact hitems
  | .object [], _ => .emptyObject blank_nil
  | .object (member :: rest), h => by
      have hmembers := Spells.object (spells_compactMembers (member :: rest) h (by simp))
      rw [compact, String.toList_append, String.toList_append]
      exact hmembers

theorem spells_compactItems : ∀ list : List Json, PrintableItems list → list ≠ [] →
    Spells (.items list) (compactItems list).toList
  | [], _, h => absurd rfl h
  | [item], h, _ => .item (spells_compact item h.1)
  | item :: next :: rest, h, _ => by
      have hitem := spells_compact item h.1
      have hrest := spells_compactItems (next :: rest) h.2 (by simp)
      rw [compactItems, String.toList_append, String.toList_append, List.append_assoc]
      · exact .items hitem hrest
      · simp

theorem spells_compactMembers : ∀ list : List (Option String × Json), PrintableMembers list →
    list ≠ [] → Spells (.members list) (compactMembers list).toList
  | [], _, h => absurd rfl h
  | [(key, value)], h, _ => by
      have hmember := Spells.member blank_nil (literal_quoteText h.1) blank_nil
        (spells_compact value h.2.1)
      rw [compactMembers, String.toList_append, String.toList_append]
      simpa using hmember
  | (key, value) :: next :: rest, h, _ => by
      have hrest := spells_compactMembers (next :: rest) h.2.2 (by simp)
      have hmembers := Spells.members blank_nil (literal_quoteText h.1) blank_nil
        (spells_compact value h.2.1) hrest
      rw [compactMembers]
      · simpa [String.toList_append] using hmembers
      · simp

end

theorem parse_compact {json : Json} (h : json.Printable) : parse json.compact = some json :=
  parse_eq_some_iff.2 (spells_compact json h)

/-! ### Values over several lines -/

theorem blank_space : Blank [' '] := by
  simp [Blank]

theorem blank_newline (level : Nat) : Blank (newline level).toList := by
  intro c hc
  simp only [newline, String.toList_append, String.toList_ofList, List.mem_append] at hc
  rcases hc with hc | hc
  · exact .inr (.inl (by simpa using hc))
  · exact .inl (List.eq_of_mem_replicate hc)

mutual

/-- The print over several lines differs from that on one line in blanks only, which the grammar
allows around values and before names. -/
theorem spells_prettyAt : ∀ (json : Json) (level : Nat), json.Printable →
    Spells (.value json) (prettyAt level json).toList
  | .null, _, _ => by rw [prettyAt]; exact .null
  | .bool true, _, _ => by rw [prettyAt]; exact .true
  | .bool false, _, _ => by rw [prettyAt]; exact .false
  | .number (.integer n), _, _ => by rw [prettyAt]; exact spells_intText n
  | .number (.other _), _, h => by rw [prettyAt]; exact h
  | .string _, _, h => by rw [prettyAt]; exact .string (literal_quoteText h)
  | .array [], _, _ => by rw [prettyAt]; exact .emptyArray blank_nil
  | .array (item :: rest), level, h => by
      have hitems := Spells.array
        (spells_prettyItems (item :: rest) (level + 1) h (by simp) (blank_newline level))
      simpa [prettyAt] using hitems
  | .object [], _, _ => by rw [prettyAt]; exact .emptyObject blank_nil
  | .object (member :: rest), level, h => by
      have hmembers := Spells.object
        (spells_prettyMembers (member :: rest) (level + 1) h (by simp) (blank_newline level))
      simpa [prettyAt] using hmembers

theorem spells_prettyItems : ∀ (list : List Json) (level : Nat), PrintableItems list → list ≠ [] →
    ∀ {after : List Char}, Blank after →
      Spells (.items list) ((prettyItems level list).toList ++ after)
  | [], _, _, h => absurd rfl h
  | [item], level, h, _ => fun hafter => by
      have hitem := Spells.spaced (blank_newline level) (spells_prettyAt item level h.1) hafter
      simpa [prettyItems] using Spells.item hitem
  | item :: next :: rest, level, h, _ => fun hafter => by
      have hitem := Spells.spaced (blank_newline level) (spells_prettyAt item level h.1) blank_nil
      have hrest := spells_prettyItems (next :: rest) level h.2 (by simp) hafter
      rw [prettyItems]
      · simpa using Spells.items hitem hrest
      · simp

theorem spells_prettyMembers : ∀ (list : List (Option String × Json)) (level : Nat),
    PrintableMembers list → list ≠ [] → ∀ {after : List Char}, Blank after →
      Spells (.members list) ((prettyMembers level list).toList ++ after)
  | [], _, _, h => absurd rfl h
  | [(key, value)], level, h, _ => fun hafter => by
      have hvalue := Spells.spaced blank_space (spells_prettyAt value level h.2.1) hafter
      have hmember := Spells.member (blank_newline level) (literal_quoteText h.1) blank_nil hvalue
      simpa [prettyMembers] using hmember
  | (key, value) :: next :: rest, level, h, _ => fun hafter => by
      have hvalue := Spells.spaced blank_space (spells_prettyAt value level h.2.1) blank_nil
      have hrest := spells_prettyMembers (next :: rest) level h.2.2 (by simp) hafter
      have hmembers := Spells.members (blank_newline level) (literal_quoteText h.1) blank_nil hvalue
        hrest
      rw [prettyMembers]
      · simpa using hmembers
      · simp

end

/-- A value that was printed over several lines is read back, whatever blanks are behind it. -/
theorem parse_pretty {json : Json} (h : json.Printable) {after : String}
    (hafter : Blank after.toList) : parse (json.pretty ++ after) = some json := by
  refine parse_eq_some_iff.2 ?_
  rw [SpelledBy, String.toList_append]
  exact .spaced blank_nil (spells_prettyAt json 0 h) hafter

end TraceStore.Json
