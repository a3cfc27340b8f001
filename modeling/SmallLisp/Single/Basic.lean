/-! Binary floating-point numbers of 32 bits as exact data. A number other than
the one NaN is a sign and a code; the codes list the magnitudes in order of
size, from zero through the subnormal and the normal ones to infinity. Every
operation computes its exact result in whole numbers and rounds once, to the
nearest magnitude, of two equally near to the one of even code. -/

namespace SmallLisp

namespace Single

/-- The code of infinity, the largest. -/
def infiniteCode : Nat := 0x7F800000

/-- Magnitudes, in order of size. -/
abbrev Code := Fin (infiniteCode + 1)

/-- The magnitude of zero. -/
def Code.zero : Code := 0

/-- The magnitude of a code, in units of the smallest positive one, `2 ^ -149`.
The first `2 ^ 24` codes count units; from there on the step doubles every
`2 ^ 23` codes. Infinity stands for the first magnitude out of range. -/
def units (code : Nat) : Nat :=
  let doublings := code / 0x800000 - 1
  (code - doublings * 0x800000) <<< doublings

/-- One, in units. -/
def one : Nat := 1 <<< 149

/-- The nearest whole number to a quotient, of two equally near the even one. -/
def roundDiv (num den : Nat) : Nat :=
  let q := num / den
  let r := num % den
  if 2 * r < den ∨ (2 * r = den ∧ q % 2 = 0) then q else q + 1

/-- The magnitude nearest to `num / den` units. -/
def nearest (num den : Nat) : Code :=
  let doublings := Nat.log2 (num / den) - 23
  let code := roundDiv num (den <<< doublings) + doublings * 0x800000
  ⟨min code infiniteCode, by omega⟩

end Single

/-- A binary floating-point number of 32 bits; all NaNs are one. -/
inductive Single where
  | nan
  | signed (negative : Bool) (code : Single.Code)
  deriving DecidableEq

namespace Single

def zero (negative : Bool) : Single := signed negative .zero

def infinity (negative : Bool) : Single := signed negative (Fin.last infiniteCode)

def IsFinite : Single → Prop
  | nan => False
  | signed _ code => code.val < infiniteCode

instance : DecidablePred IsFinite
  | nan => .isFalse id
  | signed _ code => inferInstanceAs (Decidable (code.val < infiniteCode))

/-- Equality of numbers: a NaN differs from everything, and the two zeros are equal. -/
def equals : Single → Single → Bool
  | signed s a, signed t b => a == b && (s == t || a == 0)
  | _, _ => false

/-- The exact value of a finite number, in units. -/
def signedUnits (negative : Bool) (code : Code) : Int :=
  if negative then -(units code.val : Int) else units code.val

def neg : Single → Single
  | nan => nan
  | signed s a => signed (!s) a

/-- A sum that is exactly zero is negative only if both terms are. -/
def add : Single → Single → Single
  | signed s a, signed t b =>
    if a.val = infiniteCode then
      if b.val = infiniteCode ∧ s ≠ t then nan else signed s a
    else if b.val = infiniteCode then signed t b
    else
      let sum := signedUnits s a + signedUnits t b
      if sum = 0 then zero (s && t) else signed (decide (sum < 0)) (nearest sum.natAbs 1)
  | _, _ => nan

def sub (x y : Single) : Single := add x (neg y)

def mul : Single → Single → Single
  | signed s a, signed t b =>
    if a.val = infiniteCode ∨ b.val = infiniteCode then
      if a.val = 0 ∨ b.val = 0 then nan else infinity (s ^^ t)
    else signed (s ^^ t) (nearest (units a.val * units b.val) one)
  | _, _ => nan

/-- A finite number other than zero over zero is infinite; zero over zero and
infinity over infinity are NaN. -/
def div : Single → Single → Single
  | signed s a, signed t b =>
    if a.val = infiniteCode then
      if b.val = infiniteCode then nan else infinity (s ^^ t)
    else if b.val = infiniteCode then zero (s ^^ t)
    else if b.val = 0 then
      if a.val = 0 then nan else infinity (s ^^ t)
    else signed (s ^^ t) (nearest (units a.val * one) (units b.val))
  | _, _ => nan

end Single

end SmallLisp
