/-! Lines of a text. A line ends after a line feed, a carriage return, both in
this order, or one of five other separators; at the end of the text a separator
starts no new line. -/

namespace SmallLisp.Text

def isLineSeparator (c : Char) : Bool :=
  let n := c.toNat
  (10 ≤ n && n ≤ 13) || n == 0x85 || n == 0x2028 || n == 0x2029

/-- Whether a new line starts between a character and what follows it. -/
def endsLine (c : Char) (rest : List Char) : Bool :=
  isLineSeparator c && !rest.isEmpty && !(c == '\r' && rest.head? == some '\n')

/-- A place in a text: the line and the character of the line, counted from one. -/
structure Position where
  line : Nat
  column : Nat
  deriving DecidableEq

def Position.next (p : Position) (newLine : Bool) : Position :=
  if newLine then ⟨p.line + 1, 1⟩ else ⟨p.line, p.column + 1⟩

/-- The place `count` characters further on. -/
def advance (p : Position) : List Char → Nat → Position
  | c :: cs, count + 1 => advance (p.next (endsLine c cs)) cs count
  | _, _ => p

/-- The place of the character with a given index. -/
def positionOf (text : List Char) (index : Nat) : Position := advance ⟨1, 1⟩ text index

end SmallLisp.Text
