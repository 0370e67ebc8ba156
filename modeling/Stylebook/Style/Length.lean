import Stylebook.Text.Blank
import Stylebook.Number.Spelling

/-!
# Numbers and lengths in values

A length is a number and a unit. `splitNumber?` cuts a token after its
number; the unit is everything behind. A number by itself is a length in the
default unit.
-/

namespace Stylebook.Style

/-- The units that a length may have, in small letters. -/
def lengthUnits : List String := ["px", "pt", "em", "rem", "%", "vw", "vh", "vmin", "vmax"]

/-- The number of characters of a numeral without a sign: digits with at
most one point. -/
def numeralLength : (seenPoint : Bool) → List Char → Nat
  | seenPoint, c :: cs =>
    if c.isDigit then numeralLength seenPoint cs + 1
    else if c = '.' && !seenPoint then numeralLength true cs + 1
    else 0
  | _, [] => 0

/-- The number of characters of a numeral with an optional sign. -/
def signedLength : List Char → Nat
  | c :: cs =>
    if c = '+' || c = '-' then numeralLength false cs + 1 else numeralLength false (c :: cs)
  | [] => 0

/-- **A token cut after the number in front**, if that has a digit. -/
def splitNumber? (cs : List Char) : Option (List Char × List Char) :=
  let n := signedLength cs
  if (cs.take n).any Char.isDigit then some (cs.take n, cs.drop n) else none

/-- **The length that a token gives.** A bare number gets the default unit,
and `auto` is a length where `auto` is allowed. -/
def length? (allowsAuto : Bool) (defaultUnit token : String) : Option String :=
  if allowsAuto && Text.sameIgnoringCase token "auto" then some "auto"
  else
    match splitNumber? token.toList with
    | none => none
    | some (number, unit) =>
      if unit.isEmpty then some (String.ofList number ++ defaultUnit)
      else if lengthUnits.contains (Text.lower (String.ofList unit)) then some token
      else none

/-- **The number that a token gives**: a whole number of 64 bits, or else
the double nearest to its numeral. -/
def number? (token : String) : Option Number :=
  match Number.wholeOfChars? token.toList with
  | some n => some (.whole n)
  | none =>
    match splitNumber? token.toList with
    | some (number, []) => (Number.doubleOfChars? number).map .real
    | _ => none

/-- Whether a token is a number without a unit that is not zero. -/
def isNonzeroMultiplier (token : String) : Bool :=
  match splitNumber? token.toList with
  | some (number, []) =>
    match Number.doubleOfChars? number with
    | some x => !x.isZero
    | none => true
  | _ => false

end Stylebook.Style
