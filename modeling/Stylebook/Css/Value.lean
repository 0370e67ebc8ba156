import Stylebook.Css.Component

/-!
# Values

A `Value` is one element of the value of a declaration or of the prelude of
an at-rule. Numbers are kept as text.

Where a number or an unclassified token stands, its text is everything from
the end of the element before it. A comment in front of a number is
therefore part of the number's text, and so is the inside of a bracket block
in front of it: a block that is no function counts only with its opening
bracket, and its inside is text that nothing has used yet.
`Value.ofComponents` carries that text along as `unread`.
-/

namespace Stylebook.Css

/-- **One element of a value.** -/
inductive Value where
  | ident (name : String)
  /-- A number with its unit. -/
  | dimension (number unit : String)
  | number (text : String)
  /-- A percentage without its sign. -/
  | percentage (text : String)
  /-- What follows `#`. -/
  | hash (digits : String)
  /-- A string without its quotes. -/
  | str (text : String)
  | function (name : String) (arguments : List Value)
  | url (address : String)
  /-- A comma or another single character. -/
  | operator (symbol : String)
  | blank
  /-- Anything else, by its text. -/
  | other (text : String)
  deriving Repr, Inhabited

namespace Value

/-- The characters without the last `bytes` bytes of their text, where that
many bytes are a whole number of characters. -/
def dropBytes? (bytes : Nat) (cs : List Char) : Option (List Char) :=
  go cs.reverse bytes
where
  /-- Takes bytes off a text whose last character comes first. -/
  go : List Char → Nat → Option (List Char)
    | cs, 0 => some cs.reverse
    | [], _ => some []
    | c :: cs, n => if c.utf8Size ≤ n then go cs (n - c.utf8Size) else none

/-- The number in the text of a dimension: the text without as many bytes as
the unit has once its escapes are undone, or all of it where such a cut
would split a character. -/
def numberOfDimension (text : List Char) (unit : String) : List Char :=
  (dropBytes? unit.utf8ByteSize text).getD text

/-- A text without the percent signs at its end. -/
def withoutPercent (text : List Char) : List Char :=
  (text.reverse.dropWhile (· = '%')).reverse

/-- The value that a token by itself stands for, when `text` is the text up
to its end. -/
def ofToken (text : List Char) : Token → Value
  | .ident n => .ident n
  | .number => .number (String.ofList text)
  | .percentage => .percentage (String.ofList (withoutPercent text))
  | .dimension unit => .dimension (String.ofList (numberOfDimension text unit)) unit
  | .hash n => .hash n
  | .str s => .str s
  | .url address => .url address
  | .blank => .blank
  | .comma => .operator ","
  | .delim c => .operator (String.singleton c)
  | _ => .other (String.ofList text)

/-- The first string among values. -/
def firstString : List Value → Option String
  | [] => none
  | .str s :: _ => some s
  | _ :: vs => firstString vs

/-- The value of a function. One named `url` is the address that its first
string gives. -/
def ofFunction (name : String) (arguments : List Value) : Value :=
  if Text.sameIgnoringCase name "url" then .url ((firstString arguments).getD "")
  else .function name arguments

mutual
/-- The value of one component, if it is not a comment, and the text that is
left unread after it, where `unread` is the text between the last value and
the component. -/
def ofComponent (unread : List Char) : Component → Option Value × List Char
  | .leaf l =>
    match l.token with
    | .comment => (none, unread ++ l.text)
    | t => (some (ofToken (unread ++ l.text) t), [])
  | .block o body closer =>
    match o.token with
    | .function name => (some (ofFunction name (ofComponents [] body)), [])
    | t => (some (ofToken (unread ++ o.text) t), Component.bodyText body ++ closer)

/-- **The values of a list of components**, where `unread` is the text
between the last value and the list. -/
def ofComponents (unread : List Char) : List Component → List Value
  | [] => []
  | c :: cs =>
    let (value, rest) := ofComponent unread c
    value.toList ++ ofComponents rest cs
end

/-- White space between the elements of a value. -/
def isBlank : Value → Bool
  | .blank => true
  | _ => false

/-- The operator `!`. -/
def isBang : Value → Bool
  | .operator s => s = "!"
  | _ => false

/-- The word `important`, in any case. -/
def isImportant : Value → Bool
  | .ident n => Text.sameIgnoringCase n "important"
  | _ => false

/-- The values, last first, without an `! important` in front. -/
def dropImportantReversed (vs : List Value) : List Value :=
  match vs.dropWhile isBlank with
  | word :: rest =>
    match rest.dropWhile isBlank with
    | bang :: front => if word.isImportant && bang.isBang then front else vs
    | [] => vs
  | [] => vs

/-- **The values without an `! important` at their end.** White space in
front of the mark stays. -/
def dropImportant (vs : List Value) : List Value :=
  (dropImportantReversed vs.reverse).reverse

mutual
/-- Whether two values have the same parts. -/
def same : Value → Value → Bool
  | .ident a, .ident b => a = b
  | .dimension a u, .dimension b v => a = b && u = v
  | .number a, .number b => a = b
  | .percentage a, .percentage b => a = b
  | .hash a, .hash b => a = b
  | .str a, .str b => a = b
  | .function a as, .function b bs => a = b && sameAll as bs
  | .url a, .url b => a = b
  | .operator a, .operator b => a = b
  | .blank, .blank => true
  | .other a, .other b => a = b
  | _, _ => false

/-- Whether two lists have the same values. -/
def sameAll : List Value → List Value → Bool
  | [], [] => true
  | v :: vs, w :: ws => same v w && sameAll vs ws
  | _, _ => false
end

mutual
theorem same_iff : (v w : Value) → (same v w = true ↔ v = w)
  | .ident _, w => by cases w <;> simp [same]
  | .dimension _ _, w => by cases w <;> simp [same]
  | .number _, w => by cases w <;> simp [same]
  | .percentage _, w => by cases w <;> simp [same]
  | .hash _, w => by cases w <;> simp [same]
  | .str _, w => by cases w <;> simp [same]
  | .function _ as, w => by cases w <;> simp [same, sameAll_iff as]
  | .url _, w => by cases w <;> simp [same]
  | .operator _, w => by cases w <;> simp [same]
  | .blank, w => by cases w <;> simp [same]
  | .other _, w => by cases w <;> simp [same]

theorem sameAll_iff : (vs ws : List Value) → (sameAll vs ws = true ↔ vs = ws)
  | [], ws => by cases ws <;> simp [sameAll]
  | v :: vs, ws => by cases ws <;> simp [sameAll, same_iff v, sameAll_iff vs]
end

instance : DecidableEq Value := fun v w => decidable_of_iff _ (same_iff v w)

end Value

end Stylebook.Css
