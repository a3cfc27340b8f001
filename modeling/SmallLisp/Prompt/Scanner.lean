import SmallLisp.Token

/-! A line read character by character, with the brackets that are open. Inside
a string a backslash takes the next character with it, and brackets do not
count. -/

namespace SmallLisp.Prompt

/-- An opening bracket and the byte at which it stands. -/
structure Opened where
  bracket : Bracket
  offset : Nat
  deriving DecidableEq

inductive Mode where
  | code | string | escape
  deriving DecidableEq

/-- What has been read: the mode, and the open brackets, innermost first. -/
structure Scanner where
  mode : Mode
  stack : List Opened
  deriving DecidableEq

/-- What a character is. A closing bracket takes the innermost open bracket for
its partner, whether that is of its kind or not. -/
inductive Role where
  | plain
  | string
  | opening (bracket : Bracket)
  | closing (bracket : Bracket) (partner : Option Opened)
  deriving DecidableEq

/-- Whether a character closes a bracket that is not open. -/
def Role.isMismatch : Role → Bool
  | closing b (some o) => o.bracket != b
  | closing _ none => true
  | _ => false

namespace Scanner

def start : Scanner := ⟨.code, []⟩

/-- Nothing is left open. -/
def isComplete (s : Scanner) : Bool := s.mode == .code && s.stack.isEmpty

/-- Reads the character at a byte. -/
def step (s : Scanner) (offset : Nat) (c : Char) : Role × Scanner :=
  match s.mode with
  | .escape => (.string, { s with mode := .string })
  | .string =>
    (.string, { s with mode := if c = '\\' then .escape else if c = '"' then .code else .string })
  | .code =>
    if c = '"' then (.string, { s with mode := .string })
    else match TokenKind.ofBracket? c with
      | some (.opening b) => (.opening b, { s with stack := ⟨b, offset⟩ :: s.stack })
      | some (.closing b) => (.closing b s.stack.head?, { s with stack := s.stack.tail })
      | _ => (.plain, s)

end Scanner

/-- A character of a line with its place and role. -/
structure Mark where
  offset : Nat
  char : Char
  role : Role

/-- The marks of a text that starts at a byte. -/
def marksFrom (s : Scanner) (offset : Nat) : List Char → List Mark
  | [] => []
  | c :: cs =>
    let (role, s) := s.step offset c
    ⟨offset, c, role⟩ :: marksFrom s (offset + c.utf8Size) cs

def marks (text : String) : List Mark := marksFrom .start 0 text.toList

end SmallLisp.Prompt
