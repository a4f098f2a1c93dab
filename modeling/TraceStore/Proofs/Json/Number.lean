import TraceStore.Json.Parser
import Mathlib.Data.List.TakeWhile

/-!
# Numbers

A number is a sign, the digits in front of the point, a fraction and an exponent, of which only the
digits must be there. It is an integer if there are only digits and a sign, but for a negative zero.
A number ends where it cannot go on, so what is read depends on the character behind it.

* `Unsigned`: a number behind its sign.
* `unsignedNumber_append`, `exists_of_unsignedNumber`: numbers, and nothing else, are read.
-/
namespace TraceStore.Json

/-! ### The grammar -/

/-- Decimal digits, and at least one. -/
structure Digits (s : List Char) : Prop where
  ne_nil : s ≠ []
  isDigit : ∀ c ∈ s, c.isDigit = true

/-- The digits in front of the point. A zero stands there alone only. -/
structure Whole (s : List Char) : Prop extends Digits s where
  eq_zero : s.head? = some '0' → s = ['0']

/-- A point and digits, or nothing. -/
inductive Fraction : List Char → Prop
  | absent : Fraction []
  | present {digits : List Char} (h : Digits digits) : Fraction ('.' :: digits)

/-- A letter, a sign or none, and digits, or nothing at all. -/
inductive Exponent : List Char → Prop
  | absent : Exponent []
  | present {e : Char} {sign digits : List Char} (he : e = 'e' ∨ e = 'E')
      (hsign : sign = [] ∨ sign = ['+'] ∨ sign = ['-']) (h : Digits digits) :
      Exponent (e :: (sign ++ digits))

/-- A number behind its sign. It is an integer if it has neither fraction nor exponent and is not
a negative zero, which is kept by its text as a fraction is. -/
inductive Unsigned (negative : Bool) : JsonNumber → List Char → Prop
  | integer {digits : List Char} (h : Whole digits)
      (hzero : negative = true → Nat.ofDigitChars 10 digits 0 ≠ 0) :
      Unsigned negative (.integer (if negative then -Nat.ofDigitChars 10 digits 0
        else Nat.ofDigitChars 10 digits 0)) digits
  | other {digits fraction exponent : List Char} (h : Whole digits) (hfraction : Fraction fraction)
      (hexponent : Exponent exponent)
      (hother : fraction ≠ [] ∨ exponent ≠ [] ∨
        negative = true ∧ Nat.ofDigitChars 10 digits 0 = 0) :
      Unsigned negative (.other (String.ofList
        ((if negative then ['-'] else []) ++ digits ++ fraction ++ exponent)))
        (digits ++ fraction ++ exponent)

/-! ### Reading numbers -/

/-- No number can go on with what is behind it. -/
def Ends (rest : List Char) : Prop :=
  ∀ c ∈ rest.head?, c.isDigit = false ∧ c ≠ '.' ∧ c ≠ 'e' ∧ c ≠ 'E'

/-- A text that does not start with a digit. -/
def NoDigit (s : List Char) : Prop := ∀ c ∈ s.head?, c.isDigit = false

theorem Digits.takeWhile_append {digits rest : List Char} (h : Digits digits)
    (hrest : NoDigit rest) : (digits ++ rest).takeWhile Char.isDigit = digits := by
  rw [List.takeWhile_append_of_pos h.isDigit]
  cases rest with
  | nil => simp
  | cons c rest => rw [List.takeWhile_cons_of_neg (by simp [hrest c rfl]), List.append_nil]

theorem Digits.dropWhile_append {digits rest : List Char} (h : Digits digits)
    (hrest : NoDigit rest) : (digits ++ rest).dropWhile Char.isDigit = rest := by
  rw [List.dropWhile_append_of_pos h.isDigit]
  cases rest with
  | nil => simp
  | cons c rest => rw [List.dropWhile_cons_of_neg (by simp [hrest c rfl])]

theorem Digits.isEmpty {digits : List Char} (h : Digits digits) : digits.isEmpty = false := by
  simpa using h.ne_nil

theorem Ends.noDigit {rest : List Char} (h : Ends rest) : NoDigit rest := by
  cases rest with
  | nil => simp [NoDigit]
  | cons c rest => simpa [NoDigit] using (h c rfl).1

theorem Exponent.noDigit_append {s rest : List Char} (h : Exponent s) (hrest : Ends rest) :
    NoDigit (s ++ rest) := by
  cases h with
  | absent => exact hrest.noDigit
  | present he => rcases he with rfl | rfl <;> simp [NoDigit]

theorem Fraction.noDigit_append {s rest : List Char} (h : Fraction s) (hrest : NoDigit rest) :
    NoDigit (s ++ rest) := by
  cases h with
  | absent => exact hrest
  | present => simp [NoDigit]

/-- Neither a sign nor a point starts a run of digits. -/
theorem Digits.not_cons {digits rest : List Char} {c : Char} (h : Digits digits)
    (hc : c.isDigit = false) (tail : List Char) : digits ++ rest ≠ c :: tail := by
  obtain ⟨d, digits, rfl⟩ := List.exists_cons_of_ne_nil h.ne_nil
  rintro heq
  obtain ⟨rfl, -⟩ := List.cons.inj heq
  simp [h.isDigit d List.mem_cons_self] at hc

theorem exponent_append {s rest : List Char} (h : Exponent s) (hrest : Ends rest) :
    exponent (s ++ rest) = some (s, rest) := by
  cases h with
  | absent =>
      cases rest with
      | nil => rfl
      | cons c rest =>
          obtain ⟨-, -, he, hE⟩ := hrest c rfl
          rw [List.nil_append, exponent.eq_def]
          exact if_neg (by simp [he, hE])
  | @present e sign digits he hsign h =>
      have htake := h.takeWhile_append hrest.noDigit
      have hdrop := h.dropWhile_append hrest.noDigit
      rcases hsign with rfl | rfl | rfl
      · rw [List.nil_append, List.cons_append, exponent.eq_3, if_pos he, htake, hdrop]
        · simp [h.ne_nil]
        · exact fun tail => h.not_cons rfl tail
        · exact fun tail => h.not_cons rfl tail
      · simp only [List.cons_append, List.nil_append, exponent.eq_1]
        rw [if_pos he, htake, hdrop]
        simp [h.ne_nil]
      · simp only [List.cons_append, List.nil_append, exponent.eq_2]
        rw [if_pos he, htake, hdrop]
        simp [h.ne_nil]

theorem fraction_append {s rest : List Char} (h : Fraction s) (hdigit : NoDigit rest)
    (hpoint : ∀ tail, rest ≠ '.' :: tail) : fraction (s ++ rest) = some (s, rest) := by
  cases h with
  | absent =>
      rw [List.nil_append, fraction]
      exact hpoint
  | @present digits h =>
      rw [List.cons_append, fraction]
      simp [h.takeWhile_append hdigit, h.dropWhile_append hdigit, h.ne_nil]

/-- An exponent does not start with a point, nor does what may follow a number. -/
theorem Exponent.append_ne_point {s rest : List Char} (h : Exponent s) (hrest : Ends rest)
    (tail : List Char) : s ++ rest ≠ '.' :: tail := by
  cases h with
  | absent =>
      rintro rfl
      exact (hrest '.' rfl).2.1 rfl
  | present he => rcases he with rfl | rfl <;> simp

/-- The parts of a number are read as such. -/
theorem unsignedNumber_parts {negative : Bool} {digits f e rest : List Char} (h : Whole digits)
    (hf : Fraction f) (he : Exponent e) (hrest : Ends rest) :
    unsignedNumber negative (digits ++ f ++ e ++ rest) =
      if f.isEmpty ∧ e.isEmpty ∧ ¬(negative = true ∧ Nat.ofDigitChars 10 digits 0 = 0) then
        some (.integer (if negative then -Nat.ofDigitChars 10 digits 0
          else Nat.ofDigitChars 10 digits 0), rest)
      else
        some (.other (String.ofList
          ((if negative then ['-'] else []) ++ digits ++ f ++ e)), rest) := by
  have hbehind : NoDigit (e ++ rest) := he.noDigit_append hrest
  have hnodigit : NoDigit (f ++ (e ++ rest)) := hf.noDigit_append hbehind
  have hzero : ¬(digits.isEmpty = true ∨ digits.head? = some '0' ∧ digits ≠ ['0']) := by
    rw [h.toDigits.isEmpty]
    rintro (hempty | ⟨hhead, hne⟩)
    · exact Bool.false_ne_true hempty
    · exact hne (h.eq_zero hhead)
  simp only [List.append_assoc, unsignedNumber, h.toDigits.takeWhile_append hnodigit,
    h.toDigits.dropWhile_append hnodigit, if_neg hzero]
  simp only [fraction_append hf hbehind (he.append_ne_point hrest), exponent_append he hrest,
    Option.bind_eq_bind, Option.bind_some, Option.pure_def]

theorem unsignedNumber_append {negative : Bool} {n : JsonNumber} {s rest : List Char}
    (h : Unsigned negative n s) (hrest : Ends rest) :
    unsignedNumber negative (s ++ rest) = some (n, rest) := by
  cases h with
  | integer h hzero =>
      have hparts := @unsignedNumber_parts negative _ _ _ _ h .absent .absent hrest
      rw [List.append_nil, List.append_nil, if_pos] at hparts
      · exact hparts
      · exact ⟨rfl, rfl, fun ⟨hnegative, h0⟩ => hzero hnegative h0⟩
  | other h hf he hother =>
      rw [unsignedNumber_parts h hf he hrest, if_neg]
      rintro ⟨hnof, hnoe, hplain⟩
      rcases hother with hf | he | hzero
      · exact hf (List.isEmpty_iff.1 hnof)
      · exact he (List.isEmpty_iff.1 hnoe)
      · exact hplain hzero

/-- Digits, as many as there are, and what is behind them. -/
private theorem exists_digits {s : List Char}
    (h : (s.takeWhile Char.isDigit).isEmpty = false) :
    ∃ digits, Digits digits ∧ s.takeWhile Char.isDigit = digits ∧
      s = digits ++ s.dropWhile Char.isDigit :=
  ⟨_, ⟨by simpa using h, fun _ hc => List.mem_takeWhile_imp hc⟩, rfl,
    List.takeWhile_append_dropWhile.symm⟩

theorem of_fraction {s f rest : List Char} (h : fraction s = some (f, rest)) :
    Fraction f ∧ s = f ++ rest := by
  rw [fraction.eq_def] at h
  split at h
  · next behind =>
    dsimp only at h
    split at h
    · simp at h
    · next hempty =>
        obtain ⟨digits, hdigits, htake, hsplit⟩ := exists_digits (by simpa using hempty)
        obtain ⟨rfl, rfl⟩ := Prod.mk.inj (Option.some.inj h)
        rw [htake]
        exact ⟨.present hdigits, by rw [List.cons_append, ← hsplit]⟩
  · obtain ⟨rfl, rfl⟩ := Prod.mk.inj (Option.some.inj h)
    exact ⟨.absent, rfl⟩

/-- The digits of an exponent with its sign. -/
private theorem of_signedDigits {e : Char} {sign s f rest : List Char} (he : e = 'e' ∨ e = 'E')
    (hsign : sign = [] ∨ sign = ['+'] ∨ sign = ['-'])
    (h : (if (s.takeWhile Char.isDigit).isEmpty then none
      else some (e :: sign ++ s.takeWhile Char.isDigit, s.dropWhile Char.isDigit)) =
        some (f, rest)) :
    Exponent f ∧ e :: (sign ++ s) = f ++ rest := by
  split at h
  · simp at h
  · next hempty =>
      obtain ⟨digits, hdigits, htake, hsplit⟩ := exists_digits (by simpa using hempty)
      obtain ⟨rfl, rfl⟩ := Prod.mk.inj (Option.some.inj h)
      rw [htake]
      refine ⟨.present he hsign hdigits, ?_⟩
      rw [List.cons_append, List.cons_append, List.append_assoc, ← hsplit]

theorem of_exponent {s f rest : List Char} (h : exponent s = some (f, rest)) :
    Exponent f ∧ s = f ++ rest := by
  rw [exponent.eq_def] at h
  split at h
  · next e behind =>
    split at h
    · next he =>
        split at h
        next sign digits hsign =>
        have hparts : (sign = [] ∨ sign = ['+'] ∨ sign = ['-']) ∧ behind = sign ++ digits := by
          split at hsign
          all_goals
            obtain ⟨rfl, rfl⟩ := Prod.mk.inj hsign
            simp
        rw [hparts.2]
        exact of_signedDigits he hparts.1 h
    · obtain ⟨rfl, rfl⟩ := Prod.mk.inj (Option.some.inj h)
      exact ⟨.absent, rfl⟩
  · obtain ⟨rfl, rfl⟩ := Prod.mk.inj (Option.some.inj h)
    exact ⟨.absent, rfl⟩

/-- A number without its sign starts with a digit. -/
theorem Unsigned.exists_cons {negative : Bool} {n : JsonNumber} {s : List Char}
    (h : Unsigned negative n s) : ∃ d tail, s = d :: tail ∧ d.isDigit = true := by
  have hdigits {digits : List Char} (h : Whole digits) :
      ∃ d tail, digits = d :: tail ∧ d.isDigit = true := by
    obtain ⟨d, tail, rfl⟩ := List.exists_cons_of_ne_nil h.ne_nil
    exact ⟨d, tail, rfl, h.isDigit d List.mem_cons_self⟩
  cases h with
  | integer h => exact hdigits h
  | other h =>
      obtain ⟨d, tail, rfl, hd⟩ := hdigits h
      exact ⟨d, _, by rw [List.append_assoc, List.cons_append], hd⟩

/-- Whatever is read as a number is one. -/
theorem exists_of_unsignedNumber {negative : Bool} {s rest : List Char} {n : JsonNumber}
    (h : unsignedNumber negative s = some (n, rest)) :
    ∃ body, Unsigned negative n body ∧ s = body ++ rest := by
  simp only [unsignedNumber] at h
  split at h
  · simp at h
  · next hdigits =>
    rw [not_or, not_and_not_right] at hdigits
    obtain ⟨digits, hrun, htake, hsplit⟩ := exists_digits (by simpa using hdigits.1)
    have hwhole : Whole digits := ⟨hrun, htake ▸ hdigits.2⟩
    obtain ⟨⟨f, behind⟩, hf, h⟩ := Option.bind_eq_some_iff.1 h
    obtain ⟨⟨e, behind'⟩, he, h⟩ := Option.bind_eq_some_iff.1 h
    obtain ⟨hfraction, hbehind⟩ := of_fraction hf
    obtain ⟨hexponent, rfl⟩ := of_exponent he
    rw [hsplit, hbehind, ← List.append_assoc, ← List.append_assoc]
    simp only [htake] at h
    split at h
    · next hplain =>
      obtain ⟨rfl, rfl⟩ := Prod.mk.inj (Option.some.inj h)
      obtain ⟨hnof, hnoe, hzero⟩ := hplain
      rw [List.isEmpty_iff.1 hnof, List.isEmpty_iff.1 hnoe, List.append_nil, List.append_nil]
      exact ⟨digits, .integer hwhole fun hnegative h0 => hzero ⟨hnegative, h0⟩, rfl⟩
    · next hother =>
      obtain ⟨rfl, rfl⟩ := Prod.mk.inj (Option.some.inj h)
      refine ⟨digits ++ f ++ e, .other hwhole hfraction hexponent ?_, rfl⟩
      by_contra hnone
      simp only [not_or, not_not] at hnone
      exact hother ⟨by simp [hnone.1], by simp [hnone.2.1], hnone.2.2⟩

end TraceStore.Json
