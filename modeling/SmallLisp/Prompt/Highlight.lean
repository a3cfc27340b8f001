import SmallLisp.Prompt.Scanner
import SmallLisp.Text.Edit

/-! Colours of a line. Strings are green; brackets that do not match are red;
the pair of which one stands just before the cursor is blue. Of a coloured pair
the opening bracket is bold. What an opening bracket looks like is settled by its
partner, so it is written plain first and painted anew in its place later. -/

namespace SmallLisp.Prompt

inductive Colour where
  | green | red | blue
  deriving DecidableEq

def Colour.code : Colour → String
  | green => "32"
  | red => "31"
  | blue => "34"

structure Style where
  colour : Colour
  bold : Bool
  deriving DecidableEq

/-- What sets a style on a terminal. -/
def Style.sequence (s : Style) : List Char :=
  ("\x1b[" ++ (if s.bold then "1;" else "") ++ s.colour.code ++ "m").toList

/-- What puts an end to every style. -/
def resetSequence : List Char := "\x1b[0m".toList

/-- A character in a style, between the escape sequences for a terminal. -/
def paint (style : Option Style) (c : Char) : List Char :=
  match style with
  | none => [c]
  | some s => s.sequence ++ c :: resetSequence

/-- Whether the cursor stands just behind the character at a byte. -/
def isBefore (cursor offset : Nat) : Bool := offset + 1 == cursor

/-- The colour of an opening bracket and of a closing one at a byte that takes it
for its partner. -/
def pairColour? (cursor : Nat) (opened : Opened) (closing : Bracket) (offset : Nat) :
    Option Colour :=
  if opened.bracket ≠ closing then some .red
  else if isBefore cursor opened.offset || isBefore cursor offset then some .blue
  else none

/-- An open bracket, and the byte of the painted text at which it was written. -/
structure Recorded extends Opened where
  place : Nat

/-- How far a line has been painted: the mode, the open brackets, innermost first,
and the painted text. -/
structure Painter where
  mode : Mode
  stack : List Recorded
  output : List Char

namespace Painter

def start : Painter := ⟨.code, [], []⟩

/-- Writes a character at the end. -/
def write (p : Painter) (style : Option Style) (c : Char) : Painter :=
  { p with output := p.output ++ paint style c }

/-- Paints an opening bracket anew where it was written. -/
def repaint? (p : Painter) (r : Recorded) (style : Style) : Option Painter := do
  let output ← Text.replaceBytes? r.place 1 (paint (some style) r.bracket.opening) p.output
  return { p with output }

/-- Writes an opening bracket, and where it stands. -/
def opening (p : Painter) (offset : Nat) (b : Bracket) : Painter :=
  { p with stack := ⟨⟨b, offset⟩, Text.byteLength p.output⟩ :: p.stack }.write none b.opening

/-- Writes a closing bracket, and settles what its partner looks like. -/
def closing? (p : Painter) (cursor offset : Nat) (b : Bracket) : Option Painter :=
  match p.stack with
  | [] => some (p.write (some ⟨.red, false⟩) b.closing)
  | r :: stack =>
    let p := { p with stack }
    match pairColour? cursor r.toOpened b offset with
    | none => some (p.write none b.closing)
    | some colour => (p.write (some ⟨colour, false⟩) b.closing).repaint? r ⟨colour, true⟩

/-- Reads the character at a byte and writes it. -/
def step? (p : Painter) (cursor offset : Nat) (c : Char) : Option Painter :=
  let green : Option Style := some ⟨.green, false⟩
  match p.mode with
  | .escape => some ({ p with mode := .string }.write green c)
  | .string =>
    let mode := if c = '\\' then .escape else if c = '"' then .code else .string
    some ({ p with mode }.write green c)
  | .code =>
    if c = '"' then some ({ p with mode := .string }.write green c)
    else match TokenKind.ofBracket? c with
      | some (.opening b) => some (p.opening offset b)
      | some (.closing b) => p.closing? cursor offset b
      | _ => some (p.write none c)

/-- Reads and writes a text that starts at a byte. -/
def read? (p : Painter) (cursor offset : Nat) : List Char → Option Painter
  | [] => some p
  | c :: cs => do (← p.step? cursor offset c).read? cursor (offset + c.utf8Size) cs

end Painter

/-- The line in colours, for a cursor at a byte, if every edit finds its place. -/
def highlight? (line : String) (cursor : Nat) : Option String :=
  (Painter.start.read? cursor 0 line.toList).map fun p => String.ofList p.output

/-- The line in colours, for a cursor at a byte. -/
def highlight (line : String) (cursor : Nat) : String := (highlight? line cursor).getD ""

end SmallLisp.Prompt
