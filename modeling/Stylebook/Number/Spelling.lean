import Stylebook.Number.Double

/-!
# Numbers and their spelling

A number in a style is a whole number or a double, and a style module spells
each in one way. Whole numbers are spelled plainly. A double is spelled with
its shortest digits, in positional notation from 10⁻⁵ up to below 10¹⁶ and
else with an exponent that always has a sign. It never looks like a whole
number: it has a point or an exponent.
-/

namespace Stylebook

/-- **A number in a style.** -/
inductive Number where
  | whole (value : Int)
  | real (value : Double)
  deriving DecidableEq, Repr

/-- When and how doubles are written with an exponent. -/
structure DoubleFormat where
  /-- The least decimal exponent in positional notation. -/
  leastPositional : Int
  /-- The least decimal exponent above positional notation. -/
  endPositional : Int
  /-- What stands for a positive exponent's sign. -/
  plus : String
  deriving Repr

/-- **The number format of style modules.** -/
def DoubleFormat.module : DoubleFormat := ⟨-5, 16, "+"⟩

/-- The format without exponents: no double is as small or as great as its
bounds. -/
def DoubleFormat.positional : DoubleFormat := ⟨-400, 400, ""⟩

namespace Double

/-- The digits of a natural number. -/
def decimalDigits (n : Nat) : List Char := Nat.toDigits 10 n

/-- Digits in positional notation, when the first one counts units of `10 ^
top`; there is always a digit on either side of the point. -/
def positional (digits : List Char) (top : Int) : List Char :=
  if top < 0 then
    '0' :: '.' :: (List.replicate (-top - 1).toNat '0' ++ digits)
  else
    let whole := top.toNat + 1
    let padded := digits ++ List.replicate (whole - digits.length) '0'
    let fraction := padded.drop whole
    padded.take whole ++ '.' :: (if fraction.isEmpty then ['0'] else fraction)

/-- Digits with an exponent. -/
def scientific (format : DoubleFormat) (digits : List Char) (top : Int) : List Char :=
  let fraction := digits.drop 1
  digits.take 1 ++ (if fraction.isEmpty then [] else '.' :: fraction) ++ ['e'] ++
    (if top < 0 then ['-'] else format.plus.toList) ++ decimalDigits top.natAbs

/-- **The spelling of a double.** -/
def spell (format : DoubleFormat) (x : Double) : String :=
  let sign := if x.negative then ['-'] else []
  if x.isZero then String.ofList (sign ++ ['0', '.', '0'])
  else
    let (n, power) := x.digits
    let ds := decimalDigits n
    let top := power + (ds.length - 1 : Nat)
    let body :=
      if format.leastPositional ≤ top && top < format.endPositional then positional ds top
      else scientific format ds top
    String.ofList (sign ++ body)

end Double

namespace Number

/-- **The spelling of a number in a style module.** -/
def spell : Number → String
  | .whole n => toString n
  | .real x => x.spell DoubleFormat.module

/-- The value of decimal digits, most significant first. -/
def natOfDigits (cs : List Char) : Nat := cs.foldl (fun n c => 10 * n + (c.toNat - 48)) 0

/-- The sign in front of a numeral, and the rest. -/
def takeSign : List Char → Bool × List Char
  | '-' :: cs => (true, cs)
  | '+' :: cs => (false, cs)
  | cs => (false, cs)

/-- **A whole number of 64 bits**: an optional sign and digits. -/
def wholeOfChars? (cs : List Char) : Option Int :=
  let (negative, digits) := takeSign cs
  if digits.isEmpty || !digits.all Char.isDigit then none
  else
    let n : Int := natOfDigits digits
    let value := if negative then -n else n
    if -Int.pow 2 63 ≤ value && value < Int.pow 2 63 then some value else none

/-- **The double nearest to a positional numeral**: an optional sign, and
digits with at most one point; `none` beyond the greatest double. The form
of the numeral is not checked. -/
def doubleOfChars? (cs : List Char) : Option Double :=
  let (negative, body) := takeSign cs
  let fraction := (body.dropWhile (· ≠ '.')).drop 1
  let whole := body.takeWhile (· ≠ '.')
  Double.ofDecimal? negative (natOfDigits (whole ++ fraction)) (-(fraction.length : Int))

/-- The exponent at the end of a numeral: nothing, or `e` with a whole
number. -/
def exponentOfChars? : List Char → Option Int
  | [] => some 0
  | e :: cs =>
    if e = 'e' || e = 'E' then
      let (negative, digits) := takeSign cs
      if digits.isEmpty || !digits.all Char.isDigit then none
      else
        let n : Int := natOfDigits digits
        some (if negative then -n else n)
    else none

/-- The point with the digits after it, if there is one, and the rest. -/
def takeFraction : List Char → List Char × List Char
  | '.' :: cs => (cs.takeWhile Char.isDigit, cs.dropWhile Char.isDigit)
  | cs => ([], cs)

/-- **The number that a spelling stands for.** Digits by themselves are a
whole number where 64 bits hold it; a numeral with a point or an exponent is
a double, and so is `-0`. -/
def ofSpelling? (s : String) : Option Number :=
  let (negative, body) := takeSign s.toList
  let whole := body.takeWhile Char.isDigit
  let rest := body.dropWhile Char.isDigit
  let (fraction, tail) := takeFraction rest
  let n : Int := natOfDigits whole
  let value := if negative then -n else n
  if whole.isEmpty then none
  else if rest.isEmpty && -Int.pow 2 63 ≤ value && value < Int.pow 2 64 && !(negative && n = 0) then
    some (.whole value)
  else
    match exponentOfChars? tail with
    | none => none
    | some e =>
      (Double.ofDecimal? negative (natOfDigits (whole ++ fraction)) (e - fraction.length)).map .real

end Number

end Stylebook
