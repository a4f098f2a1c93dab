import TraceStore.Instances

/-!
# JSON values and their text

`Json` holds what a JSON text says, as far as this library asks: plain integers exactly, and all
other numbers by their text. `Json.compact` writes a value on one line and `Json.pretty` with one
member a line, indented by two blanks.
-/
namespace TraceStore

/-- A number of a JSON text. -/
inductive JsonNumber
  /-- A plain integer, written without fraction and exponent and not as a negative zero. -/
  | integer (n : Int)
  /-- Any other number, by its text. -/
  | other (literal : String)
deriving DecidableEq, Repr

/-- A JSON value. The text of a string is missing if an escape names half a surrogate pair. -/
inductive Json
  | null
  | bool (b : Bool)
  | number (n : JsonNumber)
  | string (text : Option String)
  | array (items : List Json)
  | object (members : List (Option String × Json))

namespace Json

/-- A JSON string with the given text. -/
def ofString (s : String) : Json := string (some s)

/-- A JSON integer. -/
def ofNat (n : Nat) : Json := number (.integer n)

/-- A JSON object with the given members, in order. -/
def ofMembers (members : List (String × Json)) : Json :=
  object (members.map fun (key, value) => (some key, value))

/-- Decimal digits of a natural number. -/
def natDigits (n : Nat) : List Char := Nat.toDigits 10 n

/-- An integer in decimal. -/
def intText (n : Int) : String :=
  String.ofList <| if n < 0 then '-' :: natDigits n.natAbs else natDigits n.natAbs

/-- A character inside a string literal. Control characters have short escapes or four hexadecimal
digits; everything above them but the quote and the backslash stands for itself. -/
def escape (c : Char) : List Char :=
  if c = '"' then ['\\', '"']
  else if c = '\\' then ['\\', '\\']
  else if c = '\n' then ['\\', 'n']
  else if c = '\r' then ['\\', 'r']
  else if c = '\t' then ['\\', 't']
  else if c = '\x08' then ['\\', 'b']
  else if c = '\x0c' then ['\\', 'f']
  else if c.toNat < 32 then
    ['\\', 'u', '0', '0', Nat.digitChar (c.toNat / 16), Nat.digitChar (c.toNat % 16)]
  else [c]

/-- A string literal. -/
def quote (s : String) : String :=
  String.ofList ('"' :: s.toList.flatMap escape ++ ['"'])

/-- Literal of a string whose text may be missing. -/
def quoteText (text : Option String) : String :=
  quote (text.getD "\ufffd")

mutual

/-- A value on one line, without blanks. -/
def compact : Json → String
  | null => "null"
  | bool b => if b then "true" else "false"
  | number (.integer n) => intText n
  | number (.other literal) => literal
  | string text => quoteText text
  | array items => "[" ++ compactItems items ++ "]"
  | object members => "\x7b" ++ compactMembers members ++ "\x7d"

/-- Items of an array, with commas between them. -/
def compactItems : List Json → String
  | [] => ""
  | [item] => compact item
  | item :: rest => compact item ++ "," ++ compactItems rest

/-- Members of an object, with commas between them. -/
def compactMembers : List (Option String × Json) → String
  | [] => ""
  | [(key, value)] => quoteText key ++ ":" ++ compact value
  | (key, value) :: rest => quoteText key ++ ":" ++ compact value ++ "," ++ compactMembers rest

end

/-- A new line indented by two blanks a level. -/
def newline (level : Nat) : String :=
  "\n" ++ String.ofList (List.replicate (2 * level) ' ')

mutual

/-- A value that starts at a level of indentation. Empty arrays and objects stay on one line. -/
def prettyAt (level : Nat) : Json → String
  | array (item :: rest) =>
    "[" ++ prettyItems (level + 1) (item :: rest) ++ newline level ++ "]"
  | object (member :: rest) =>
    "\x7b" ++ prettyMembers (level + 1) (member :: rest) ++ newline level ++ "\x7d"
  | array [] => "[]"
  | object [] => "\x7b\x7d"
  | null => "null"
  | bool b => if b then "true" else "false"
  | number (.integer n) => intText n
  | number (.other literal) => literal
  | string text => quoteText text

/-- Items of an array, each on a line of its own. -/
def prettyItems (level : Nat) : List Json → String
  | [] => ""
  | [item] => newline level ++ prettyAt level item
  | item :: rest => newline level ++ prettyAt level item ++ "," ++ prettyItems level rest

/-- Members of an object, each on a line of its own. -/
def prettyMembers (level : Nat) : List (Option String × Json) → String
  | [] => ""
  | [(key, value)] => newline level ++ quoteText key ++ ": " ++ prettyAt level value
  | (key, value) :: rest =>
    newline level ++ quoteText key ++ ": " ++ prettyAt level value ++ ","
      ++ prettyMembers level rest

end

/-- A value over several lines. -/
def pretty (value : Json) : String := prettyAt 0 value

end Json
end TraceStore
