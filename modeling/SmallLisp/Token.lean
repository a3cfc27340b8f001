import SmallLisp.Span
import SmallLisp.Single.Decimal
import SmallLisp.Text.Lowercase

/-! Tokens: brackets of two kinds, quoted strings, and words. A word is a
number, a boolean, a keyword or an identifier, by its text alone. -/

namespace SmallLisp

inductive Bracket where
  | round | square
  deriving DecidableEq

namespace Bracket

def opening : Bracket → Char
  | round => '('
  | square => '['

def closing : Bracket → Char
  | round => ')'
  | square => ']'

end Bracket

/-- The words that open a special form. -/
inductive Keyword where
  | letForm | ifForm | funForm
  deriving DecidableEq

namespace Keyword

def all : List Keyword := [letForm, ifForm, funForm]

def name : Keyword → String
  | letForm => "let"
  | ifForm => "if"
  | funForm => "fun"

end Keyword

inductive TokenKind where
  | opening (bracket : Bracket)
  | closing (bracket : Bracket)
  | number | string | boolean | identifier
  | keyword (word : Keyword)
  deriving DecidableEq

namespace TokenKind

/-- How the kind is named in a sentence. -/
def describe : TokenKind → String
  | opening b => String.ofList ['\'', b.opening, '\'']
  | closing b => String.ofList ['\'', b.closing, '\'']
  | number => "number"
  | string => "string"
  | boolean => "boolean"
  | identifier => "identifier"
  | keyword k => "keyword '" ++ k.name ++ "'"

def isKeyword : TokenKind → Bool
  | keyword _ => true
  | _ => false

/-- The kind of a bracket character. -/
def ofBracket? : Char → Option TokenKind
  | '(' => some (opening .round)
  | ')' => some (closing .round)
  | '[' => some (opening .square)
  | ']' => some (closing .square)
  | _ => none

/-- The kind of a word. A number needs a digit, so that the words for infinity
and NaN are identifiers. -/
def ofWord (word : String) : TokenKind :=
  if word.toList.any Char.isDigit && (Single.ofText? word).isSome then number
  else match Keyword.all.find? (Text.equalsIgnoringCase word ·.name) with
    | some k => keyword k
    | none =>
      if Text.equalsIgnoringCase word "true" || Text.equalsIgnoringCase word "false" then boolean
      else identifier

end TokenKind

/-- A token with its text as written, quotes and escapes included. -/
structure Token where
  kind : TokenKind
  text : String
  span : Span
  deriving DecidableEq

end SmallLisp
