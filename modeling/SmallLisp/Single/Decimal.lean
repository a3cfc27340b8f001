import SmallLisp.Single.Basic

/-! Decimal texts of numbers: an optional sign, then digits with at most one
point among or around them and an optional exponent, or one of the words
`inf`, `infinity` and `nan` in any case. A decimal denotes the number nearest
to it, so it may overflow to infinity and underflow to zero. -/

namespace SmallLisp.Single

/-- The magnitude nearest to `coefficient * 10 ^ exponent`. Far out of range on
either side the power itself is never computed. -/
def ofDecimal (coefficient : Nat) (exponent : Int) : Code :=
  if coefficient = 0 then .zero
  else if 39 ≤ exponent then Fin.last infiniteCode
  else if exponent + (Nat.toDigits 10 coefficient).length ≤ -46 then .zero
  else match exponent with
    | .ofNat k => nearest (coefficient * Nat.pow 10 k * one) 1
    | .negSucc k => nearest (coefficient * one) (Nat.pow 10 (k + 1))

/-- The number that a run of decimal digits writes. -/
def digitsValue (cs : List Char) : Nat :=
  cs.foldl (fun n c => 10 * n + (c.toNat - '0'.toNat)) 0

/-- Splits off an optional sign; says whether it is a minus. -/
def splitSign : List Char → Bool × List Char
  | '-' :: cs => (true, cs)
  | '+' :: cs => (false, cs)
  | cs => (false, cs)

/-- What follows the `e` of an exponent: an optional sign and at least one digit. -/
def readExponentDigits (cs : List Char) : Option Int :=
  let (negative, ds) := splitSign cs
  if ds ≠ [] ∧ ds.all Char.isDigit then
    some (if negative then -(digitsValue ds : Int) else digitsValue ds)
  else none

/-- The end of a decimal: nothing, or an exponent. -/
def readExponent : List Char → Option Int
  | [] => some 0
  | c :: cs => if c = 'e' ∨ c = 'E' then readExponentDigits cs else none

/-- Splits off a point and the digits after it, if the text starts with a point. -/
def splitFraction : List Char → List Char × List Char
  | '.' :: cs => (cs.takeWhile Char.isDigit, cs.dropWhile Char.isDigit)
  | cs => ([], cs)

/-- Reads a decimal without sign. -/
def readMagnitude (cs : List Char) : Option Code :=
  let whole := cs.takeWhile Char.isDigit
  let (fraction, rest) := splitFraction (cs.dropWhile Char.isDigit)
  if whole = [] ∧ fraction = [] then none
  else (readExponent rest).map fun exponent =>
    ofDecimal (digitsValue (whole ++ fraction)) (exponent - fraction.length)

/-- Reads the text of a number. -/
def read? (cs : List Char) : Option Single :=
  let (negative, body) := splitSign cs
  let word := body.map Char.toLower
  if word = ['n', 'a', 'n'] then some nan
  else if word = ['i', 'n', 'f'] ∨ word = ['i', 'n', 'f', 'i', 'n', 'i', 't', 'y'] then
    some (infinity negative)
  else (readMagnitude body).map (signed negative)

def ofText? (text : String) : Option Single := read? text.toList

end SmallLisp.Single
