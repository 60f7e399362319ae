/-!
# Generics.Json: indented JSON text

The part of JSON that reports need: natural numbers, strings, arrays and objects whose fields keep
their order.  The text puts every item on a line of its own, indented by two blanks a level.
-/

namespace Generics

/-- A JSON value. -/
inductive Json where
  | number (n : Nat)
  | string (s : String)
  | array (items : List Json)
  | object (fields : List (String × Json))
  deriving Inhabited

namespace Json

/-- A number in hexadecimal, with four digits at least. -/
def fourHexDigits (n : Nat) : String :=
  let digits := Nat.toDigits 16 n
  String.ofList (List.replicate (4 - digits.length) '0' ++ digits)

/-- A character inside a JSON string. -/
def escape (c : Char) : String :=
  if c = '"' then "\\\""
  else if c = '\\' then "\\\\"
  else if c = '\n' then "\\n"
  else if c = '\r' then "\\r"
  else if c = '\t' then "\\t"
  else if c = '\x08' then "\\b"
  else if c = '\x0c' then "\\f"
  else if c.toNat < 32 then "\\u" ++ fourHexDigits c.toNat
  else c.toString

/-- A string between quotes. -/
def quote (s : String) : String := "\"" ++ String.join (s.toList.map escape) ++ "\""

/-- A line break and the indentation of a level. -/
def lineAt (level : Nat) : String := "\n" ++ String.join (List.replicate level "  ")

/-- Items between brackets, one a line; the brackets alone if there are none. -/
def enclose (opening closing : String) (level : Nat) (items : List String) : String :=
  if items.isEmpty then opening ++ closing
  else
    opening ++ lineAt (level + 1) ++ ("," ++ lineAt (level + 1)).intercalate items ++
      lineAt level ++ closing

mutual

/-- The text of a value whose first line stands at a level of indentation. -/
def renderAt (level : Nat) : Json → String
  | number n => n.repr
  | string s => quote s
  | array items => enclose "[" "]" level (renderItems (level + 1) items)
  | object fields => enclose "\x7b" "\x7d" level (renderFields (level + 1) fields)

/-- The texts of the items of an array. -/
def renderItems (level : Nat) : List Json → List String
  | [] => []
  | item :: items => renderAt level item :: renderItems level items

/-- The texts of the fields of an object. -/
def renderFields (level : Nat) : List (String × Json) → List String
  | [] => []
  | (name, value) :: fields =>
    (quote name ++ ": " ++ renderAt level value) :: renderFields level fields

end

/-- The text of a value. -/
def render (j : Json) : String := renderAt 0 j

end Json

end Generics
