import TraceStore.Json.Value

/-!
# Reading JSON

`Json.parse` reads a whole text as one value. It follows the grammar of JSON without additions:
no comments, no trailing commas, no leading zeros, no control characters in strings, and only
blanks, tabs and line ends around tokens.
-/
namespace TraceStore.Json

/-- Blanks that may stand between tokens. -/
def isBlank (c : Char) : Bool := c = ' ' || c = '\n' || c = '\r' || c = '\t'

/-- A text without the blanks that it starts with. -/
def skipBlanks (s : List Char) : List Char := s.dropWhile isBlank

/-- Value of a hexadecimal digit. -/
def hexDigit? (c : Char) : Option Nat :=
  if c.isDigit then some (c.toNat - '0'.toNat)
  else if 'a' ≤ c ∧ c ≤ 'f' then some (c.toNat - 'a'.toNat + 10)
  else if 'A' ≤ c ∧ c ≤ 'F' then some (c.toNat - 'A'.toNat + 10)
  else none

/-- Value of four hexadecimal digits. -/
def hexDigits? (a b c d : Char) : Option Nat := do
  let a ← hexDigit? a
  let b ← hexDigit? b
  let c ← hexDigit? c
  let d ← hexDigit? d
  return ((a * 16 + b) * 16 + c) * 16 + d

/-- Character that a one-letter escape stands for. -/
def shortEscape? (c : Char) : Option Char :=
  if c = '"' ∨ c = '\\' ∨ c = '/' then some c
  else if c = 'b' then some '\x08'
  else if c = 'f' then some '\x0c'
  else if c = 'n' then some '\n'
  else if c = 'r' then some '\r'
  else if c = 't' then some '\t'
  else none

/-- Numbers of the characters of a string literal up to its closing quote, and what follows. An
escape with four digits gives its number even if that is half a surrogate pair. -/
def stringCodes : List Char → Option (List Nat × List Char)
  | [] => none
  | '"' :: rest => some ([], rest)
  | '\\' :: 'u' :: a :: b :: c :: d :: rest => do
    let code ← hexDigits? a b c d
    let (codes, rest) ← stringCodes rest
    return (code :: codes, rest)
  | '\\' :: c :: rest => do
    let c ← shortEscape? c
    let (codes, rest) ← stringCodes rest
    return (c.toNat :: codes, rest)
  | c :: rest =>
    if c.toNat < 32 then none
    else do
      let (codes, rest) ← stringCodes rest
      return (c.toNat :: codes, rest)

/-- Characters with the given numbers, joining surrogate pairs. Half a pair has no character. -/
def joinSurrogates : List Nat → Option (List Char)
  | [] => some []
  | [code] => if 0xD800 ≤ code ∧ code < 0xE000 then none else some [Char.ofNat code]
  | high :: low :: rest =>
    if 0xD800 ≤ high ∧ high < 0xDC00 then
      if 0xDC00 ≤ low ∧ low < 0xE000 then
        (joinSurrogates rest).map
          (Char.ofNat (0x10000 + (high - 0xD800) * 0x400 + (low - 0xDC00)) :: ·)
      else none
    else if 0xDC00 ≤ high ∧ high < 0xE000 then none
    else (joinSurrogates (low :: rest)).map (Char.ofNat high :: ·)

/-- The text of a string literal whose opening quote has been read, and what follows it. -/
def stringLiteral (s : List Char) : Option (Option String × List Char) :=
  (stringCodes s).map fun (codes, rest) => ((joinSurrogates codes).map String.ofList, rest)

/-- A fraction, if one follows: a point and at least one digit. -/
def fraction : List Char → Option (List Char × List Char)
  | '.' :: rest =>
    let digits := rest.takeWhile Char.isDigit
    if digits.isEmpty then none else some ('.' :: digits, rest.dropWhile Char.isDigit)
  | rest => some ([], rest)

/-- An exponent, if one follows: a letter, a sign or none, and at least one digit. -/
def exponent : List Char → Option (List Char × List Char)
  | c :: rest =>
    if c = 'e' ∨ c = 'E' then
      let (sign, rest) := match rest with
        | '+' :: rest => (['+'], rest)
        | '-' :: rest => (['-'], rest)
        | rest => ([], rest)
      let digits := rest.takeWhile Char.isDigit
      if digits.isEmpty then none
      else some (c :: sign ++ digits, rest.dropWhile Char.isDigit)
    else some ([], c :: rest)
  | [] => some ([], [])

/-- A number without its sign, and what follows it. -/
def unsignedNumber (negative : Bool) (s : List Char) : Option (JsonNumber × List Char) := do
  let digits := s.takeWhile Char.isDigit
  if digits.isEmpty ∨ (digits.head? = some '0' ∧ digits ≠ ['0']) then none
  let (fractionText, rest) ← fraction (s.dropWhile Char.isDigit)
  let (exponentText, rest) ← exponent rest
  let n := Nat.ofDigitChars 10 digits 0
  if fractionText.isEmpty ∧ exponentText.isEmpty ∧ ¬(negative ∧ n = 0) then
    return (.integer (if negative then -n else n), rest)
  else
    let sign := if negative then ['-'] else []
    return (.other (String.ofList (sign ++ digits ++ fractionText ++ exponentText)), rest)

mutual

/-- A value and what follows it. The first argument bounds the depth of the recursion. -/
def value : Nat → List Char → Option (Json × List Char)
  | 0, _ => none
  | fuel + 1, s =>
    match skipBlanks s with
    | 'n' :: 'u' :: 'l' :: 'l' :: rest => some (null, rest)
    | 't' :: 'r' :: 'u' :: 'e' :: rest => some (bool true, rest)
    | 'f' :: 'a' :: 'l' :: 's' :: 'e' :: rest => some (bool false, rest)
    | '"' :: rest => (stringLiteral rest).map fun (text, rest) => (string text, rest)
    | '[' :: rest =>
      match skipBlanks rest with
      | ']' :: rest => some (array [], rest)
      | rest => (items fuel rest).map fun (list, rest) => (array list, rest)
    | '\x7b' :: rest =>
      match skipBlanks rest with
      | '\x7d' :: rest => some (object [], rest)
      | rest => (members fuel rest).map fun (list, rest) => (object list, rest)
    | '-' :: rest => (unsignedNumber true rest).map fun (n, rest) => (number n, rest)
    | rest => (unsignedNumber false rest).map fun (n, rest) => (number n, rest)

/-- Items of an array up to its closing bracket. -/
def items : Nat → List Char → Option (List Json × List Char)
  | 0, _ => none
  | fuel + 1, s => do
    let (item, rest) ← value fuel s
    match skipBlanks rest with
    | ']' :: rest => return ([item], rest)
    | ',' :: rest =>
      let (list, rest) ← items fuel rest
      return (item :: list, rest)
    | _ => none

/-- Members of an object up to its closing brace. -/
def members : Nat → List Char → Option (List (Option String × Json) × List Char)
  | 0, _ => none
  | fuel + 1, s =>
    match skipBlanks s with
    | '"' :: rest => do
      let (key, rest) ← stringLiteral rest
      match skipBlanks rest with
      | ':' :: rest =>
        let (item, rest) ← value fuel rest
        match skipBlanks rest with
        | '\x7d' :: rest => return ([(key, item)], rest)
        | ',' :: rest =>
          let (list, rest) ← members fuel rest
          return ((key, item) :: list, rest)
        | _ => none
      | _ => none
    | _ => none

end

/-- The value that a whole text spells, if it is JSON. -/
def parse (text : String) : Option Json :=
  let s := text.toList
  match value (2 * s.length + 2) s with
  | some (json, rest) => if (skipBlanks rest).isEmpty then some json else none
  | none => none

end TraceStore.Json
