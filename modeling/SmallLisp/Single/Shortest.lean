import SmallLisp.Single.Decimal

/-! The text of a number: the fewest digits that read back as that number. On
the grid of decimals with a given number of digits only the two neighbours of
the exact value can be the nearest that reads back, so those two are tried, on
grids of one digit, two digits, and so on. -/

namespace SmallLisp.Single

/-- A decimal `coefficient * 10 ^ exponent`. -/
structure Decimal where
  coefficient : Nat
  exponent : Int

/-- A magnitude of `units` units over `10 ^ exponent`, as a fraction. -/
def overPower (units : Nat) : Int → Nat × Nat
  | .ofNat k => (units, one * Nat.pow 10 k)
  | .negSucc k => (units * Nat.pow 10 (k + 1), one)

/-- The whole numbers on both sides of a fraction, the nearer one first; half
way between them the larger one comes first. -/
def neighbours (num den : Nat) : List Nat :=
  let q := num / den
  if 2 * (num % den) < den then [q, q + 1] else [q + 1, q]

/-- The least power of ten above a magnitude of `units` units. Multiplied by
`10 ^ 60` every magnitude is above one, so that its digits can be counted. -/
def pointPosition (units : Nat) : Int :=
  (Nat.toDigits 10 (units * Nat.pow 10 60 / one)).length - 60

/-- The decimal on the grid of `10 ^ exponent` that reads back as `code`, if there is one. -/
def readsBackOn (code : Code) (exponent : Int) : Option Decimal :=
  let ratio := overPower (units code.val) exponent
  ((neighbours ratio.1 ratio.2).find? fun d => ofDecimal d exponent = code).map (⟨·, exponent⟩)

/-- The decimal of `count` digits that reads back as `code`, if there is one. -/
def readsBackWith (code : Code) (count : Nat) : Option Decimal :=
  readsBackOn code (pointPosition (units code.val) - count)

/-- The exact value as a decimal: one unit is `5 ^ 149 * 10 ^ -149`. -/
def exactDecimal (code : Code) : Decimal := ⟨units code.val * Nat.pow 5 149, -149⟩

/-- The shortest decimal that reads back as a finite magnitude. Nine digits are
always enough; the exact value stands at the end of the search. -/
def shortest (code : Code) : Decimal :=
  ((List.range' 1 9).findSome? (readsBackWith code)).getD (exactDecimal code)

/-- The digits without the zeros at their end. -/
def dropTrailingZeros (ds : List Char) : List Char :=
  (ds.reverse.dropWhile (· == '0')).reverse

/-- A decimal point after `point` digits, with at least one digit on each side. -/
def positional (ds : List Char) (point : Int) : List Char :=
  if point ≤ 0 then '0' :: '.' :: (List.replicate (-point).toNat '0' ++ ds)
  else
    let n := point.toNat
    let fraction := if ds.length ≤ n then ['0'] else ds.drop n
    ds.take n ++ List.replicate (n - ds.length) '0' ++ '.' :: fraction

/-- One digit, the others after a point if there are any, and the exponent
without padding. -/
def scientific (ds : List Char) (point : Int) : List Char :=
  let tail := ds.drop 1
  ds.take 1 ++ (if tail = [] then [] else '.' :: tail) ++ 'e' :: (toString (point - 1)).toList

/-- From `10 ^ -4` up to, but not including, `10 ^ 16` a number is written
positionally, and with an exponent elsewhere. -/
def Decimal.chars (d : Decimal) : List Char :=
  let ds := Nat.toDigits 10 d.coefficient
  let point := ds.length + d.exponent
  let ds := dropTrailingZeros ds
  if -4 < point ∧ point ≤ 16 then positional ds point else scientific ds point

/-- The text of a magnitude. -/
def magnitudeChars (code : Code) : List Char :=
  if code.val = infiniteCode then ['i', 'n', 'f']
  else if code.val = 0 then ['0', '.', '0']
  else (shortest code).chars

/-- The text of a number; a NaN has no sign. -/
def chars : Single → List Char
  | nan => ['N', 'a', 'N']
  | signed negative code => (if negative then ['-'] else []) ++ magnitudeChars code

def text (x : Single) : String := String.ofList x.chars

end SmallLisp.Single
