import Stylebook.Css.Lexer
import Stylebook.Number.Spelling
import Stylebook.Toml.Table

/-!
# Reading TOML statements

A document is a list of statements: headers, and keys with values. This
module reads the statements; what they amount to together is for
`Stylebook.Toml.Document`.

A reader takes characters off the front of the text and answers with what
they stand for and the rest. A fault knows how many characters were left
where it was found. Places are measured in the same way, from the end of the
text, until the whole length is known.

A fault is a *miss* where nothing had been recognised yet. Inside of
brackets a miss means that the closing bracket was to come, and that is what
is complained about.
-/

namespace Stylebook.Toml

/-- **Why the text cannot be read on**, and how many characters were left. -/
structure Fault where
  left : Nat
  message : String
  /-- Whether nothing had been recognised yet. -/
  missed : Bool := false
  deriving DecidableEq, Repr

/-- What was read, and the rest of the text. -/
abbrev Parsed (α : Type) := α × List Char

/-- A fault in front of the rest of the text. -/
def faultAt {α : Type} (rest : List Char) (message : String) : Except Fault (Parsed α) :=
  .error { left := rest.length, message }

/-- A miss in front of the rest of the text. -/
def missAt {α : Type} (rest : List Char) (message : String) : Except Fault (Parsed α) :=
  .error { left := rest.length, message, missed := true }

/-- Space within a line. -/
def isSpace (c : Char) : Bool := c = ' ' || c = '\t'

/-- A character that may stand in a comment or a string. -/
def isPrintable (c : Char) : Bool := c = '\t' || (0x20 ≤ c.toNat && c.toNat ≠ 0x7F)

/-- A character of a key without quotes. -/
def isBare (c : Char) : Bool := c.isAlphanum || c = '_' || c = '-'

/-- The rest after a line break. -/
def afterLineBreak? : List Char → Option (List Char)
  | '\n' :: cs => some cs
  | '\r' :: '\n' :: cs => some cs
  | _ => none

/-- The rest after a comment, if one starts here. -/
def skipComment : List Char → List Char
  | '#' :: cs => cs.dropWhile isPrintable
  | cs => cs

/-- The end of a line: space, a comment, and a line break or the end of the
text. -/
def lineEnd (complaint : String) (cs : List Char) : Except Fault (Parsed Unit) :=
  let rest := skipComment (cs.dropWhile isSpace)
  match rest, afterLineBreak? rest with
  | [], _ => .ok ((), [])
  | _, some after => .ok ((), after)
  | _, none => faultAt rest complaint

/-- What a letter after a backslash stands for, if it stands for one
character. -/
def letterEscape? : Char → Option Char
  | 'b' => some '\x08'
  | 'f' => some '\x0c'
  | 'n' => some '\n'
  | 'r' => some '\r'
  | 't' => some '\t'
  | '\\' => some '\\'
  | '"' => some '"'
  | _ => none

/-- A code point of `count` hexadecimal digits. -/
def codePoint (count : Nat) (cs : List Char) : Except Fault (Parsed Char) :=
  let (value, n) := Css.hexDigits count 0 cs
  if n < count then
    faultAt cs ("invalid unicode " ++ toString count ++ "-digit hex code")
  else if (0xD800 ≤ value && value ≤ 0xDFFF) || 0x10FFFF < value then
    faultAt cs ("invalid unicode " ++ toString count ++ "-digit hex code\nvalue is out of range")
  else .ok (Char.ofNat value, cs.drop n)

/-- An escape, after its backslash. -/
def escape : List Char → Except Fault (Parsed Char)
  | 'u' :: cs => codePoint 4 cs
  | 'U' :: cs => codePoint 8 cs
  | c :: cs =>
    match letterEscape? c with
    | some d => .ok (d, cs)
    | none =>
      faultAt cs ("invalid escape sequence\nexpected `b`, `f`, `n`, `r`, `t`, `u`, `U`, " ++
        "`\\`, `\"`")
  | [] => faultAt [] "invalid escape sequence"

/-- The inside of a string in double quotes, with its closing quote; `read`
holds what was read of it, last character first. -/
def basicString :
    (fuel : Nat) → (read : List Char) → List Char → Except Fault (Parsed (List Char))
  | 0, _, cs => faultAt cs "invalid basic string"
  | fuel + 1, read, cs =>
    match cs with
    | '"' :: rest => .ok (read.reverse, rest)
    | ['\\'] => faultAt cs "invalid basic string"
    | '\\' :: rest => do
      let (c, rest) ← escape rest
      basicString fuel (c :: read) rest
    | c :: rest =>
      if isPrintable c then basicString fuel (c :: read) rest
      else faultAt cs "invalid basic string"
    | [] => faultAt [] "invalid basic string"

/-- The inside of a string in single quotes, with its closing quote. -/
def literalString (cs : List Char) : Except Fault (Parsed (List Char)) :=
  let text := cs.takeWhile fun c => isPrintable c && c ≠ '\''
  match cs.dropWhile fun c => isPrintable c && c ≠ '\'' with
  | '\'' :: rest => .ok (text, rest)
  | rest => faultAt rest "invalid literal string"

/-- The rest after space and line breaks. -/
def skipSpaceAndBreaks : List Char → List Char
  | '\r' :: '\n' :: cs => skipSpaceAndBreaks cs
  | c :: cs => if isSpace c || c = '\n' then skipSpaceAndBreaks cs else c :: cs
  | [] => []

/-- The rest after a line break that a backslash takes out of a string,
together with all space and line breaks that follow. -/
def afterHiddenBreak? (cs : List Char) : Option (List Char) :=
  (afterLineBreak? (cs.dropWhile isSpace)).map skipSpaceAndBreaks

/-- The end of a string in triple quotes, when `quotes` quotes stand
together: how many of them belong to the string and how many are taken off.
Fewer than three end nothing. -/
def tripleEnd (quotes : Nat) : Option (Nat × Nat) :=
  if quotes < 3 then none else some (min 2 (quotes - 3), min 5 quotes)

/-- The inside of a string in triple quotes, with its closing quotes. A line
break is a line feed in any case; escapes count in double quotes only. -/
def tripleString (quote : Char) (label : String) :
    (fuel : Nat) → (read : List Char) → List Char → Except Fault (Parsed (List Char))
  | 0, _, cs => faultAt cs label
  | fuel + 1, read, cs =>
    match afterLineBreak? cs with
    | some rest => tripleString quote label fuel ('\n' :: read) rest
    | none =>
      match cs with
      | [] => faultAt [] label
      | c :: rest =>
        if c = quote then
          match tripleEnd (cs.takeWhile (· = quote)).length with
          | some (kept, taken) => .ok (read.reverse ++ List.replicate kept quote, cs.drop taken)
          | none => tripleString quote label fuel (c :: read) rest
        else if c = '\\' && quote = '"' && !rest.isEmpty then
          match afterHiddenBreak? rest with
          | some rest => tripleString quote label fuel read rest
          | none => do
            let (d, rest) ← escape rest
            tripleString quote label fuel (d :: read) rest
        else if isPrintable c && !(c = '\\' && quote = '"') then
          tripleString quote label fuel (c :: read) rest
        else faultAt cs label

/-- The rest after the line break that may follow opening triple quotes. -/
def skipFirstBreak (cs : List Char) : List Char := (afterLineBreak? cs).getD cs

/-- **A string** of any of the four forms. -/
def string (cs : List Char) : Except Fault (Parsed (List Char)) :=
  match cs with
  | '"' :: '"' :: '"' :: rest =>
    tripleString '"' "invalid multiline basic string" cs.length [] (skipFirstBreak rest)
  | '\'' :: '\'' :: '\'' :: rest =>
    tripleString '\'' "invalid multiline literal string" cs.length [] (skipFirstBreak rest)
  | '"' :: rest => basicString cs.length [] rest
  | '\'' :: rest => literalString rest
  | _ => missAt cs "invalid string\nexpected `\"`, `'`"

/-- **One part of a key.** -/
def keyPart (cs : List Char) : Except Fault (Parsed String) :=
  match cs with
  | '"' :: rest => do
    let (s, rest) ← basicString cs.length [] rest
    return (String.ofList s, rest)
  | '\'' :: rest => do
    let (s, rest) ← literalString rest
    return (String.ofList s, rest)
  | _ =>
    let name := cs.takeWhile isBare
    if name.isEmpty then missAt cs "invalid key"
    else .ok (String.ofList name, cs.dropWhile isBare)

/-- The further parts of a dotted key, each after its point. A point that no
part follows is left where it is. -/
def moreKeyParts : (fuel : Nat) → List Char → Except Fault (Parsed (List String))
  | fuel + 1, '.' :: cs =>
    match keyPart (cs.dropWhile isSpace) with
    | .ok (part, rest) => do
      let (parts, rest) ← moreKeyParts fuel (rest.dropWhile isSpace)
      return (part :: parts, rest)
    | .error e =>
      if e.missed then .ok ([], '.' :: cs) else .error e
  | _, cs => .ok ([], cs)

/-- The greatest number of arrays, tables or key parts inside of each other. -/
def nestingLimit : Nat := 80

/-- **A key**: parts with points between them, and space around each. -/
def key (cs : List Char) : Except Fault (Parsed (List String)) := do
  let (part, rest) ← keyPart (cs.dropWhile isSpace)
  let (parts, rest) ← moreKeyParts cs.length (rest.dropWhile isSpace)
  if nestingLimit ≤ parts.length + 1 then missAt cs "recursion limit exceeded"
  else return (part :: parts, rest)

/-- **Leading digits** with single underscores between them, none where
another character comes first. The complaint is about an underscore that no
digit follows. -/
def digitGroups (complaint : String) (isDigit : Char → Bool) (cs : List Char) :
    Except Fault (Parsed (List Char)) :=
  go cs.length [] cs
where
  /-- The digits after those that were read. -/
  go : (fuel : Nat) → (read : List Char) → List Char → Except Fault (Parsed (List Char))
    | fuel + 1, read, c :: cs =>
      if isDigit c then go fuel (c :: read) cs
      else if c = '_' && !read.isEmpty then
        match cs with
        | d :: ds => if isDigit d then go fuel (d :: read) ds else faultAt cs complaint
        | [] => faultAt cs complaint
      else .ok (read.reverse, c :: cs)
    | _, read, cs => .ok (read.reverse, cs)

/-- A number of exactly `count` digits from `least` to `greatest`. -/
def digitField (complaint : String) (count least greatest : Nat) (cs : List Char) :
    Except Fault (Parsed Nat) :=
  let digits := cs.take count
  let n := Number.natOfDigits digits
  if digits.length < count || !digits.all Char.isDigit then missAt cs complaint
  else if least ≤ n && n ≤ greatest then .ok (n, cs.drop count)
  else missAt cs (complaint ++ "\nvalue is out of range")

/-- The days of a month. -/
def daysIn (year month : Nat) : Nat :=
  if month = 2 then
    if year % 4 = 0 && (year % 100 ≠ 0 || year % 400 = 0) then 29 else 28
  else if month = 4 || month = 6 || month = 9 || month = 11 then 30
  else 31

/-- The rest after one character. -/
def expectChar (complaint : String) (c : Char) : List Char → Except Fault (Parsed Unit)
  | d :: cs => if c = d then .ok ((), cs) else missAt (d :: cs) complaint
  | [] => missAt [] complaint

/-- What follows makes a fault final: nothing else could stand here. -/
def committed {α : Type} (reading : Except Fault (Parsed α)) : Except Fault (Parsed α) :=
  reading.mapError fun e => { e with missed := false }

/-- The hours of a time and their colon. Without them, no time starts here. -/
def hour (complaint : String) (cs : List Char) : Except Fault (Parsed Unit) := do
  let (_, cs) ← digitField complaint 2 0 23 cs
  expectChar complaint ':' cs

/-- The minutes and seconds of a time, after the hours and their colon. -/
def timeTail (complaint : String) (cs : List Char) : Except Fault (Parsed Unit) :=
  committed do
    let (_, cs) ← digitField complaint 2 0 59 cs
    let (_, cs) ← expectChar complaint ':' cs
    let (_, cs) ← digitField complaint 2 0 60 cs
    match cs with
    | '.' :: c :: ds => return ((), if c.isDigit then ds.dropWhile Char.isDigit else cs)
    | _ => return ((), cs)

/-- The distance of a time from universal time, if there is one. -/
def offset (cs : List Char) : Except Fault (Parsed Unit) :=
  match cs with
  | c :: rest =>
    if c = 'Z' || c = 'z' then .ok ((), rest)
    else if c = '+' || c = '-' then
      committed do
        let (_, rest) ← hour "invalid time offset" rest
        let (_, rest) ← digitField "invalid time offset" 2 0 59 rest
        return ((), rest)
    else .ok ((), cs)
  | [] => .ok ((), [])

/-- What may follow a date: a time with or without an offset. -/
def afterDate (cs : List Char) : Except Fault (Parsed Unit) :=
  match cs with
  | c :: rest =>
    if c = 'T' || c = 't' || c = ' ' then
      match hour "invalid date-time" rest with
      | .ok (_, minutes) => do
        let (_, rest) ← timeTail "invalid date-time" minutes
        offset rest
      | .error _ => .ok ((), cs)
    else .ok ((), cs)
  | [] => .ok ((), [])

/-- The month and the day of a date, after the year and its hyphen. -/
def monthAndDay (year : Nat) (cs : List Char) : Except Fault (Parsed Unit) :=
  committed do
    let (month, cs) ← digitField "invalid date-time" 2 1 12 cs
    let (_, cs) ← expectChar "invalid date-time" '-' cs
    let (_, cs) ← digitField "invalid date-time" 2 1 (daysIn year month) cs
    return ((), cs)

/-- The year of a date and its hyphen. Without them, no date starts here. -/
def year (cs : List Char) : Except Fault (Parsed Nat) := do
  let (year, cs) ← digitField "invalid date-time" 4 0 9999 cs
  let (_, cs) ← expectChar "invalid date-time" '-' cs
  return (year, cs)

/-- **A date or a time**, if one starts here. -/
def date? (cs : List Char) : Option (Except Fault (Parsed Unit)) :=
  match year cs, hour "invalid time" cs with
  | .ok (year, rest), _ => some do
    let (_, rest) ← monthAndDay year rest
    afterDate rest
  | _, .ok (_, minutes) => some (timeTail "invalid time" minutes)
  | _, _ => none

/-- The value of a whole number in another base, after its mark; `start` is
where the mark stands. -/
def basedInteger (base : Nat) (label : String) (isDigit : Char → Bool) (start cs : List Char) :
    Except Fault (Parsed Int) := do
  let (digits, rest) ← digitGroups ("invalid " ++ label ++ "\nexpected digit") isDigit cs
  let value := digits.foldl (fun n c => base * n + (Css.hexDigit? c).getD 0) 0
  if digits.isEmpty then faultAt cs ("invalid " ++ label)
  else if Nat.pow 2 63 ≤ value then faultAt start "number too large to fit in target type"
  else return (value, rest)

/-- The decimal digits of a whole number: no zero in front of others. -/
def integerDigits (cs : List Char) : Except Fault (Parsed (List Char)) :=
  match cs with
  | '0' :: rest => .ok (['0'], rest)
  | _ => do
    let (digits, rest) ← digitGroups "invalid integer\nexpected digit" Char.isDigit cs
    if digits.isEmpty then missAt cs "invalid integer" else return (digits, rest)

/-- The digits after a point. -/
def fractionDigits (cs : List Char) : Except Fault (Parsed (List Char)) := do
  let (digits, rest) ←
    digitGroups "invalid floating-point number\nexpected digit, digit" Char.isDigit cs
  if digits.isEmpty then faultAt cs "invalid floating-point number\nexpected digit"
  else return (digits, rest)

/-- The digits of an exponent. -/
def exponentDigits (cs : List Char) : Except Fault (Parsed (List Char)) := do
  let (digits, rest) ←
    digitGroups "invalid floating-point number\nexpected digit" Char.isDigit cs
  if digits.isEmpty then faultAt cs "invalid floating-point number"
  else return (digits, rest)

/-- The exponent of a number, if there is one. -/
def exponent? (cs : List Char) : Option (Except Fault (Parsed (List Char))) :=
  match cs with
  | c :: rest =>
    if c = 'e' || c = 'E' then
      let (sign, rest) := match rest with
        | '-' :: more => (['-'], more)
        | '+' :: more => ([], more)
        | _ => ([], rest)
      some ((exponentDigits rest).map fun (ds, rest) => ('e' :: (sign ++ ds), rest))
    else none
  | [] => none

/-- What may follow the digits of a whole number: a point with digits, an
exponent, or both. -/
def fraction? (cs : List Char) : Option (Except Fault (Parsed (List Char))) :=
  match cs with
  | '.' :: rest => some do
    let (ds, rest) ← fractionDigits rest
    match exponent? rest with
    | some more =>
      let (es, rest) ← more
      return ('.' :: ds ++ es, rest)
    | none => return ('.' :: ds, rest)
  | _ => exponent? cs

/-- A place from one point of the text to a later one, still measured from
the end. -/
def placeBetween (start stop : List Char) : Place :=
  ⟨start.length, Text.byteLength (start.take (start.length - stop.length))⟩

/-- **The double nearest to a numeral** of digits and a tail, which is its
fraction and its exponent; `none` beyond the greatest double. Only a numeral
that has about as many digits as some double has is worked out. -/
def double? (negative : Bool) (digits tail : List Char) : Option Double :=
  let (fraction, mark) := Number.takeFraction tail
  let significant := (digits ++ fraction).dropWhile (· = '0')
  let power := (Number.exponentOfChars? mark).getD 0 - fraction.length
  let size := significant.length + power
  if significant.isEmpty || size < -330 then some (Double.zero negative)
  else if 309 < size then none
  else Double.ofDecimal? negative (Number.natOfDigits significant) power

/-- A decimal number, after its sign. Only a negative one may be beyond all
doubles. -/
def decimal (start sign cs : List Char) : Except Fault (Parsed Item) := do
  let (digits, rest) ← integerDigits cs
  match fraction? rest with
  | some more =>
    let (tail, rest) ← more
    match double? (!sign.isEmpty) digits tail with
    | some x => return (.float (placeBetween start rest) (x.spell DoubleFormat.positional), rest)
    | none =>
      if sign.isEmpty then faultAt start "invalid floating-point number"
      else return (.float (placeBetween start rest) "-inf", rest)
  | none =>
    match Number.wholeOfChars? (sign ++ digits) with
    | some n => return (.int (placeBetween start rest) n, rest)
    | none =>
      let size := if sign.isEmpty then "large" else "small"
      faultAt start ("number too " ++ size ++ " to fit in target type")

/-- A number with or without a sign. -/
def number (cs : List Char) : Except Fault (Parsed Item) :=
  match cs with
  | '0' :: 'x' :: rest =>
    based (basedInteger 16 "hexadecimal integer" (fun c => (Css.hexDigit? c).isSome) cs rest)
  | '0' :: 'o' :: rest =>
    based (basedInteger 8 "octal integer" (fun c => '0' ≤ c && c ≤ '7') cs rest)
  | '0' :: 'b' :: rest =>
    based (basedInteger 2 "binary integer" (fun c => c = '0' || c = '1') cs rest)
  | '-' :: rest => signed ['-'] rest
  | '+' :: rest => signed [] rest
  | _ => decimal cs [] cs
where
  /-- A number in another base, with its place. -/
  based (reading : Except Fault (Parsed Int)) : Except Fault (Parsed Item) := do
    let (value, after) ← reading
    return (.int (placeBetween cs after) value, after)
  /-- A number with a sign: digits, `inf` or `nan`. -/
  signed (sign rest : List Char) : Except Fault (Parsed Item) :=
    match rest with
    | 'i' :: 'n' :: 'f' :: after =>
      .ok (.float (placeBetween cs after) (String.ofList (sign ++ ['i', 'n', 'f'])), after)
    | 'n' :: 'a' :: 'n' :: after => .ok (.float (placeBetween cs after) "NaN", after)
    | _ => decimal cs sign rest

/-- The complaint about something that is no value. -/
def noValue : String := "invalid string\nexpected `\"`, `'`"

/-- A word with a fixed meaning, if it stands here. -/
def word? (spelling : String) (make : Place → Item) (cs : List Char) :
    Option (Parsed Item) :=
  (Text.dropFront? spelling.toList cs).map fun rest => (make (placeBetween cs rest), rest)

/-- **A value that is neither an array nor a table.** Only a truth value is
known by its first letter. -/
def scalar (cs : List Char) : Except Fault (Parsed Item) :=
  match cs with
  | c :: _ =>
    if c = '"' || c = '\'' then do
      let (s, rest) ← string cs
      return (.str (placeBetween cs rest) (String.ofList s), rest)
    else if c = '+' || c = '-' || c.isDigit then
      match date? cs with
      | some reading => do
        let (_, rest) ← reading
        return (.date (placeBetween cs rest), rest)
      | none => number cs
    else if c = '_' then missAt cs "invalid integer\nexpected leading digit"
    else if c = '.' then missAt cs "invalid floating-point number\nexpected leading digit"
    else
      match word? "true" (.bool · true) cs, word? "false" (.bool · false) cs,
        word? "inf" (.float · "inf") cs, word? "nan" (.float · "NaN") cs with
      | some r, _, _, _ => .ok r
      | _, some r, _, _ => .ok r
      | _, _, some r, _ => .ok r
      | _, _, _, some r => .ok r
      | _, _, _, _ => if c = 't' || c = 'f' then faultAt cs noValue else missAt cs noValue
  | [] => missAt [] ""

/-- The rest after space, line breaks and comments. -/
def skipFiller : (fuel : Nat) → List Char → List Char
  | 0, cs => cs
  | fuel + 1, cs =>
    let rest := skipSpaceAndBreaks cs
    match rest with
    | '#' :: _ =>
      match afterLineBreak? (skipComment rest) with
      | some after => skipFiller fuel after
      | none => rest
    | _ => rest

/-- The fault where an array should go on or end. A comment and a carriage
return that no line feed follows are faults of their own. -/
def arrayFault {α : Type} (rest : List Char) : Except Fault (Parsed α) :=
  match rest with
  | '#' :: _ => faultAt (skipComment rest) ""
  | '\r' :: after => faultAt after ""
  | _ => faultAt rest "invalid array\nexpected `]`"

mutual
/-- **A value**, with at most `depth` arrays and tables inside of each
other. -/
def value : (fuel depth : Nat) → List Char → Except Fault (Parsed Item)
  | 0, _, cs => faultAt cs "recursion limit exceeded"
  | fuel + 1, depth, cs =>
    match cs with
    | '[' :: rest =>
      if depth = 0 then faultAt cs "recursion limit exceeded"
      else do
        let (elements, after) ← elements fuel (depth - 1) rest
        return (.array (placeBetween cs after) elements, after)
    | '{' :: rest =>
      if depth = 0 then faultAt cs "recursion limit exceeded"
      else
        match rest.dropWhile isSpace with
        | '}' :: after => .ok (.table (placeBetween cs after) .inlined [], after)
        | start => do
          let (pairs, after) ← pairs fuel (depth - 1) start rest
          match Entries.ofPairs pairs [], after with
          | .error c, _ => faultAt rest c.message
          | .ok es, '}' :: after => return (.table (placeBetween cs after) .inlined es, after)
          | .ok _, _ => faultAt after "invalid inline table\nexpected `\x7d`"
    | _ => scalar cs

/-- The elements of an array, with its closing bracket. -/
def elements : (fuel depth : Nat) → List Char → Except Fault (Parsed (List Item))
  | 0, _, cs => faultAt cs "recursion limit exceeded"
  | fuel + 1, depth, cs =>
    match skipFiller cs.length cs with
    | ']' :: after => .ok ([], after)
    | start =>
      match value fuel depth start with
      | .error e => if e.missed then arrayFault start else .error e
      | .ok (v, rest) =>
        match skipFiller rest.length rest with
        | ']' :: after => .ok ([v], after)
        | ',' :: more => do
          let (vs, after) ← elements fuel depth more
          return (v :: vs, after)
        | rest => arrayFault rest

/-- The pairs of a table in curly brackets, up to where its closing bracket
is to come. That is `stop` if no pair comes. -/
def pairs : (fuel depth : Nat) → (stop : List Char) → List Char →
    Except Fault (Parsed (List (List String × Item)))
  | 0, _, _, cs => faultAt cs "recursion limit exceeded"
  | fuel + 1, depth, stop, cs =>
    match key cs with
    | .error e => if e.missed then .ok ([], stop) else .error e
    | .ok (k, rest) =>
      match rest with
      | '=' :: rest => do
        let (v, rest) ← committed (value fuel depth (rest.dropWhile isSpace))
        let rest := rest.dropWhile isSpace
        match rest with
        | ',' :: more =>
          let (ps, after) ← pairs fuel depth rest more
          return ((k, v) :: ps, after)
        | _ => return ([(k, v)], rest)
      | _ => faultAt rest "expected `.`, `=`"
end

/-- **A statement of a document.** The place is still measured from the end. -/
inductive Statement where
  /-- A header of a table, in single brackets. -/
  | header (place : Place) (path : List String)
  /-- A header of one of several tables, in double brackets. -/
  | arrayHeader (place : Place) (path : List String)
  | assignment (place : Place) (key : List String) (value : Item)
  deriving Inhabited

/-- The end of the line of a header. -/
def headerEnd (cs : List Char) : Except Fault (Parsed Unit) :=
  lineEnd "invalid table header\nexpected newline, `#`" cs

/-- A header. -/
def header (cs : List Char) : Except Fault (Parsed Statement) := do
  match cs with
  | '[' :: '[' :: rest =>
    let (path, rest) ← key rest
    match rest with
    | ']' :: ']' :: rest =>
      let place := placeBetween cs rest
      let (_, rest) ← headerEnd rest
      return (.arrayHeader place path, rest)
    | _ => faultAt rest "invalid table header\nexpected `.`, `]]`"
  | '[' :: c :: rest =>
    let (path, rest) ← key (c :: rest)
    match rest with
    | ']' :: rest =>
      let place := placeBetween cs rest
      let (_, rest) ← headerEnd rest
      return (.header place path, rest)
    | _ => faultAt rest "invalid table header\nexpected `.`, `]`"
  | _ => faultAt cs "invalid table header"

/-- A key with its value. -/
def assignment (cs : List Char) : Except Fault (Parsed Statement) := do
  let (k, rest) ← key cs
  match rest with
  | '=' :: rest =>
    let (v, rest) ← value cs.length (nestingLimit - 1) (rest.dropWhile isSpace)
    let place := placeBetween cs rest
    let (_, rest) ← lineEnd "expected newline, `#`" rest
    return (.assignment place k v, rest)
  | _ => faultAt rest "expected `.`, `=`"

/-- The statement at the start of a line. A carriage return that no line
feed follows starts none. -/
def statement (cs : List Char) : Except Fault (Parsed Statement) :=
  match cs with
  | '[' :: _ => header cs
  | '\r' :: _ => faultAt cs ""
  | _ => assignment cs

/-- **The statements of a text**, up to the first fault. -/
def statements : (fuel : Nat) → List Char → List Statement × Option Fault
  | 0, _ => ([], none)
  | fuel + 1, cs =>
    let start := cs.dropWhile isSpace
    match start, afterLineBreak? start with
    | [], _ => ([], none)
    | _, some rest => statements fuel rest
    | '#' :: _, none =>
      match lineEnd "" start with
      | .ok (_, rest) => statements fuel rest
      | .error e => ([], some e)
    | _, none =>
      match statement start with
      | .ok (s, rest) =>
        let (ss, fault) := statements fuel rest
        (s :: ss, fault)
      | .error e => ([], some e)

end Stylebook.Toml
