import SmallLisp.Token.Lexer
import SmallLisp.Node.Parser
import SmallLisp.Eval.EvalError

/-! Everything that can go wrong from the text of a program to its value. -/

namespace SmallLisp

inductive Error where
  | lex (e : LexError)
  | parse (e : ParseError)
  | eval (e : EvalError)

namespace Error

def span? : Error → Option Span
  | lex e => some e.span
  | parse e => e.span?
  | eval e => some e.span

def message : Error → String
  | lex e => e.message
  | parse e => e.message
  | eval e => e.message

end Error

/-- The forms of a text. -/
def parseText (source : String) : Except Error (List Node) :=
  match tokenize source with
  | .error e => .error (.lex e)
  | .ok tokens => (parse tokens).mapError .parse

end SmallLisp
