import Stylebook.Text.Blank
import Stylebook.Css.Token

/-!
# Reading tokens

`scan c cs` reads the token that starts with the character `c` when `cs`
follows it, and says how many characters of `cs` belong to it. A token
therefore always takes at least one character, and reading a whole text
(`lex`) ends without any further argument. That nothing is lost, `text_lex`,
is read off the definition: every lexeme keeps what it took.

Every scanner below works in the same way: it answers with a value and with
the number of characters that the value was read from.
-/

namespace Stylebook.Css

/-- White space of the stylesheet grammar. -/
def isSpace (c : Char) : Bool :=
  c = ' ' || c = '\t' || c = '\n' || c = '\r' || c = '\x0c'

/-- A line break of the stylesheet grammar. -/
def isLineBreak (c : Char) : Bool :=
  c = '\n' || c = '\r' || c = '\x0c'

/-- Whether the text starts with a line break. -/
def startsLineBreak : List Char → Bool
  | c :: _ => isLineBreak c
  | [] => false

/-- The number of characters of a line break; a carriage return takes the
line feed after it along. -/
def lineBreakLength : List Char → Nat
  | '\r' :: '\n' :: _ => 2
  | c :: _ => if isLineBreak c then 1 else 0
  | [] => 0

/-- Stands for what cannot be represented: NUL, and an escape of no
character. -/
def replacement : Char := '\ufffd'

/-- The value of a hexadecimal digit. -/
def hexDigit? (c : Char) : Option Nat :=
  if '0' ≤ c && c ≤ '9' then some (c.toNat - 48)
  else if 'a' ≤ c && c ≤ 'f' then some (c.toNat - 87)
  else if 'A' ≤ c && c ≤ 'F' then some (c.toNat - 55)
  else none

/-- The leading hexadecimal digits, at most `limit` of them: their value,
with `value` in front, and their number. -/
def hexDigits : (limit value : Nat) → List Char → Nat × Nat
  | limit + 1, value, c :: cs =>
    match hexDigit? c with
    | some d =>
      let (v, n) := hexDigits limit (16 * value + d) cs
      (v, n + 1)
    | none => (value, 0)
  | _, value, _ => (value, 0)

/-- The character of a code point; no character has the code point zero or
that of half a surrogate pair. -/
def ofCodePoint (n : Nat) : Char :=
  if n = 0 || (0xD800 ≤ n && n ≤ 0xDFFF) || 0x10FFFF < n then replacement else Char.ofNat n

/-- **An escape**, after its backslash: up to six hexadecimal digits and one
white space, or any character for itself. -/
def escape : List Char → Char × Nat
  | [] => (replacement, 0)
  | c :: cs =>
    if (hexDigit? c).isSome then
      let (v, n) := hexDigits 6 0 (c :: cs)
      let rest := (c :: cs).drop n
      let space := match rest with
        | d :: _ => if d = ' ' || d = '\t' then 1 else lineBreakLength rest
        | [] => 0
      (ofCodePoint v, n + space)
    else if c = '\x00' then (replacement, 1)
    else (c, 1)

/-- A character beyond ASCII. -/
def isWide (c : Char) : Bool := 0x80 ≤ c.toNat

/-- A character that continues a name. -/
def isNameChar (c : Char) : Bool :=
  c.isAlphanum || c = '_' || c = '-' || isWide c

/-- A character that starts a name by itself. -/
def isNameStart (c : Char) : Bool :=
  c.isAlpha || c = '_' || c = '\x00' || isWide c

/-- Whether an identifier starts here. -/
def startsIdent : List Char → Bool
  | '-' :: c :: _ => isNameStart c || c = '-' || c = '\\'
  | '\\' :: cs => !startsLineBreak cs
  | c :: _ => isNameStart c
  | [] => false

/-- **A name**, escapes undone and NUL replaced. -/
def name : List Char → List Char × Nat
  | [] => ([], 0)
  | c :: cs =>
    if isNameChar c then
      let (v, n) := name cs
      (c :: v, n + 1)
    else if c = '\x00' then
      let (v, n) := name cs
      (replacement :: v, n + 1)
    else if c = '\\' && !startsLineBreak cs then
      let (d, k) := escape cs
      let (v, n) := name (cs.drop k)
      (d :: v, n + k + 1)
    else ([], 0)
termination_by cs => cs.length
decreasing_by all_goals (simp only [List.length_cons, List.length_drop]; omega)

/-- **The inside of a string** after its opening quote, up to and with the
closing quote. The answer is `none` for a string that a line break cuts off;
the line break is not taken. A string that the text cuts off is a string. -/
def quoted (quote : Char) : List Char → Option (List Char) × Nat
  | [] => (some [], 0)
  | c :: cs =>
    if c = quote then (some [], 1)
    else if isLineBreak c then (none, 0)
    else if c = '\\' then
      if cs.isEmpty then (some [], 1)
      else if startsLineBreak cs then
        let k := lineBreakLength cs
        let (v, n) := quoted quote (cs.drop k)
        (v, n + k + 1)
      else
        let (d, k) := escape cs
        let (v, n) := quoted quote (cs.drop k)
        (v.map (d :: ·), n + k + 1)
    else
      let (v, n) := quoted quote cs
      (v.map ((if c = '\x00' then replacement else c) :: ·), n + 1)
termination_by cs => cs.length
decreasing_by all_goals (simp only [List.length_cons, List.length_drop]; omega)

/-- The length of a comment after its opening mark; an open comment runs to
the end. -/
def commentLength : List Char → Nat
  | '*' :: '/' :: _ => 2
  | _ :: cs => commentLength cs + 1
  | [] => 0

/-- The number of leading decimal digits. -/
def digitsLength (cs : List Char) : Nat := (cs.takeWhile Char.isDigit).length

/-- Whether a decimal digit comes next. -/
def startsDigit : List Char → Bool
  | c :: _ => c.isDigit
  | [] => false

/-- The length of a point with the digits after it. -/
def fractionLength : List Char → Nat
  | '.' :: cs => if startsDigit cs then digitsLength cs + 1 else 0
  | _ => 0

/-- The length of a decimal exponent. -/
def exponentLength : List Char → Nat
  | e :: cs =>
    if e = 'e' || e = 'E' then
      match cs with
      | c :: ds =>
        if c.isDigit then digitsLength cs + 1
        else if (c = '+' || c = '-') && startsDigit ds then digitsLength ds + 2
        else 0
      | [] => 0
    else 0
  | [] => 0

/-- Whether a number starts here: a digit, with a sign, a point or both in
front. -/
def startsNumber : List Char → Bool
  | c :: cs =>
    if c = '+' || c = '-' then
      match cs with
      | '.' :: ds => startsDigit ds
      | _ => startsDigit cs
    else if c = '.' then startsDigit cs
    else c.isDigit
  | [] => false

/-- The length of what continues a number after its first character. -/
def numberLength (first : Char) (cs : List Char) : Nat :=
  let digits := digitsLength cs
  let fraction := if first = '.' then 0 else fractionLength (cs.drop digits)
  digits + fraction + exponentLength (cs.drop (digits + fraction))

/-- **A number with what is attached to it**: `%`, a unit or nothing. -/
def numeric (first : Char) (cs : List Char) : Token × Nat :=
  let n := numberLength first cs
  let rest := cs.drop n
  match rest with
  | '%' :: _ => (.percentage, n + 1)
  | _ =>
    if startsIdent rest then
      let (unit, k) := name rest
      (.dimension (String.ofList unit), n + k)
    else (.number, n)

/-- The rest of a malformed `url(…)`, up to and with its parenthesis. -/
def badUrlLength : List Char → Nat
  | [] => 0
  | ')' :: _ => 1
  | '\\' :: c :: cs =>
    if c = ')' || c = '\\' then badUrlLength cs + 2 else badUrlLength (c :: cs) + 1
  | _ :: cs => badUrlLength cs + 1
termination_by cs => cs.length

/-- A character that may not stand in an unquoted address. -/
def isUnfitForUrl (c : Char) : Bool :=
  let n := c.toNat
  (0x01 ≤ n && n ≤ 0x08) || n = 0x0B || (0x0E ≤ n && n ≤ 0x1F) || n = 0x7F ||
    c = '"' || c = '\'' || c = '('

/-- The end of an unquoted address after its white space: a parenthesis, or
the end of the text. The answer is the length, and whether the address is
well formed. -/
def urlEnd (cs : List Char) : Bool × Nat :=
  let spaces := (cs.takeWhile isSpace).length
  match cs.drop spaces with
  | [] => (true, spaces)
  | ')' :: _ => (true, spaces + 1)
  | _ :: rest => (false, spaces + 1 + badUrlLength rest)

/-- **The inside of an unquoted `url(…)`**, white space in front already
taken; `none` for a malformed one. -/
def urlAddress : List Char → Option (List Char) × Nat
  | [] => (some [], 0)
  | c :: cs =>
    if isSpace c then
      let (fine, n) := urlEnd (c :: cs)
      (if fine then some [] else none, n)
    else if c = ')' then (some [], 1)
    else if isUnfitForUrl c then (none, badUrlLength cs + 1)
    else if c = '\\' then
      if startsLineBreak cs then (none, badUrlLength cs + 1)
      else
        let (d, k) := escape cs
        let (v, n) := urlAddress (cs.drop k)
        (v.map (d :: ·), n + k + 1)
    else
      let (v, n) := urlAddress cs
      (v.map ((if c = '\x00' then replacement else c) :: ·), n + 1)
termination_by cs => cs.length
decreasing_by all_goals (simp only [List.length_cons, List.length_drop]; omega)

/-- What follows `url(`. A quoted address makes `url` an ordinary function,
and nothing is taken. -/
def afterUrl (function : String) (cs : List Char) : Token × Nat :=
  let spaces := (cs.takeWhile isSpace).length
  match cs.drop spaces with
  | [] => (.url "", spaces)
  | c :: rest =>
    if c = '"' || c = '\'' then (.function function, 0)
    else
      match urlAddress (c :: rest) with
      | (some address, n) => (.url (String.ofList address), spaces + n)
      | (none, n) => (.badUrl, spaces + n)

/-- **An identifier, or the function or address that it opens.** The whole
text is given; the answer counts its characters without the first. -/
def identLike (cs : List Char) : Token × Nat :=
  let (v, n) := name cs
  let ident := String.ofList v
  match cs.drop n with
  | '(' :: rest =>
    if Text.lower ident = "url" then
      let (t, k) := afterUrl ident rest
      (t, n + k)
    else (.function ident, n)
  | _ => (.ident ident, n - 1)

/-- A mark of one character, or of two when `=` follows. -/
def attributeMark (c : Char) : List Char → Token × Nat
  | '=' :: _ => (.attributeMatch, 1)
  | _ => (.delim c, 0)

/-- What a punctuation character is by itself. -/
def punctuation (c : Char) : Token :=
  match c with
  | '(' => .opening .paren
  | '[' => .opening .square
  | '{' => .opening .curly
  | ')' => .closing .paren
  | ']' => .closing .square
  | '}' => .closing .curly
  | ',' => .comma
  | ':' => .colon
  | ';' => .semicolon
  | _ => .delim c

/-- **The token that starts with `c` when `cs` follows**, and the number of
characters of `cs` that it takes. -/
def scan (c : Char) (cs : List Char) : Token × Nat :=
  if isSpace c then (.blank, (cs.takeWhile isSpace).length)
  else if c = '"' || c = '\'' then
    match quoted c cs with
    | (some text, n) => (.str (String.ofList text), n)
    | (none, n) => (.badStr, n)
  else if c = '#' then
    if startsIdent cs || startsDigit cs || cs.head? = some '-' then
      let (v, n) := name cs
      (.hash (String.ofList v), n)
    else (.delim '#', 0)
  else if c = '@' then
    if startsIdent cs then
      let (v, n) := name cs
      (.atKeyword (String.ofList v), n)
    else (.delim '@', 0)
  else if startsNumber (c :: cs) then numeric c cs
  else if c = '-' && (Text.dropFront? ['-', '>'] cs).isSome then (.embedMark, 2)
  else if c = '<' && (Text.dropFront? ['!', '-', '-'] cs).isSome then (.embedMark, 3)
  else if c = '/' && cs.head? = some '*' then (.comment, commentLength (cs.drop 1) + 1)
  else if startsIdent (c :: cs) then identLike (c :: cs)
  else if c = '$' || c = '*' || c = '^' || c = '|' || c = '~' then attributeMark c cs
  else (punctuation c, 0)

/-- **The lexemes of a text.** -/
def lex : List Char → List Lexeme
  | [] => []
  | c :: cs =>
    let (t, n) := scan c cs
    ⟨t, c :: cs.take n⟩ :: lex (cs.drop n)
termination_by cs => cs.length
decreasing_by simp only [List.length_cons, List.length_drop]; omega

/-- **Nothing is lost**: the lexemes of a text concatenate to it. -/
theorem text_lex (cs : List Char) : (lex cs).flatMap Lexeme.text = cs := by
  fun_induction lex cs with
  | case1 => rfl
  | case2 c cs t n _ ih => simp [ih]

end Stylebook.Css
