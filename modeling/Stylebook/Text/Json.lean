import Stylebook.Number.Spelling

/-!
# JSON

The JSON values that the program writes, and their compact text. Objects
keep the order of their members. A string is quoted with the shortest
escapes: `\"`, `\\`, the five letters for control characters that have one,
and four hexadecimal digits for the others. No other character is escaped.
-/

namespace Stylebook

/-- **A JSON value.** -/
inductive Json where
  | null
  | bool (value : Bool)
  | number (value : Number)
  | str (text : String)
  | array (elements : List Json)
  | object (members : List (String × Json))

namespace Json

/-- A hexadecimal digit. -/
def hexDigit (n : Nat) : Char := if n < 10 then Char.ofNat (48 + n) else Char.ofNat (87 + n)

/-- A character as it stands in a quoted string. -/
def escapeChar (c : Char) : List Char :=
  if c = '"' then ['\\', '"']
  else if c = '\\' then ['\\', '\\']
  else if c = '\x08' then ['\\', 'b']
  else if c = '\x0c' then ['\\', 'f']
  else if c = '\n' then ['\\', 'n']
  else if c = '\r' then ['\\', 'r']
  else if c = '\t' then ['\\', 't']
  else if c.toNat < 0x20 then
    ['\\', 'u', '0', '0', hexDigit (c.toNat / 16), hexDigit (c.toNat % 16)]
  else [c]

/-- **A quoted string.** -/
def quote (s : String) : List Char := '"' :: (s.toList.flatMap escapeChar ++ ['"'])

mutual
/-- The text of a value, without white space. -/
def chars : Json → List Char
  | .null => ['n', 'u', 'l', 'l']
  | .bool b => if b then ['t', 'r', 'u', 'e'] else ['f', 'a', 'l', 's', 'e']
  | .number n => n.spell.toList
  | .str s => quote s
  | .array [] => ['[', ']']
  | .array (e :: es) => '[' :: (chars e ++ elementChars es ++ [']'])
  | .object [] => ['{', '}']
  | .object ((name, v) :: ms) =>
    '{' :: (quote name ++ ':' :: (chars v ++ memberChars ms ++ ['}']))

/-- The text of further elements. -/
def elementChars : List Json → List Char
  | [] => []
  | e :: es => ',' :: (chars e ++ elementChars es)

/-- The text of further members. -/
def memberChars : List (String × Json) → List Char
  | [] => []
  | (name, v) :: ms => ',' :: (quote name ++ ':' :: (chars v ++ memberChars ms))
end

/-- **The compact text of a value.** -/
def render (j : Json) : String := String.ofList j.chars

end Json

end Stylebook
