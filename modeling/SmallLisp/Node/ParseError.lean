import SmallLisp.Token
import SmallLisp.Node.Printer

/-! What can be wrong with a list of tokens, and the wording of it. -/

namespace SmallLisp

/-- What the grammar asks for at some place. -/
inductive Expected where
  | form | argument | listElement | number
  | parenthesis | endOfExpression | head
  | bindingList | binding | bindingName | bindingValue | bindingEnd
  | expression
  deriving DecidableEq

def Expected.describe : Expected → String
  | form => "a top-level form"
  | argument => "an argument"
  | listElement => "a list element"
  | number => "a number"
  | parenthesis => "'('"
  | endOfExpression => "end of expression"
  | head => "an identifier, keyword or '(' in head position"
  | bindingList => "'(' opening the binding list"
  | binding => "'(' opening a binding"
  | bindingName => "a binding name"
  | bindingValue => "a binding value"
  | bindingEnd => "')' closing the binding"
  | expression => "an expression"

/-- Why the parts of a special form do not make that form. -/
inductive FormFault where
  | partsOfIf (found : Nat)
  | partsOfFunction (found : Nat)
  | functionName (found : Node)
  | parameterList (found : Node)
  | parameterForm (found : Node)
  | parameter (found : Node)
  | emptyLet
  | noValue (name : String)
  | partsOfBody (found : Nat)

def FormFault.describe : FormFault → String
  | partsOfIf n =>
    "expected a predicate, a true branch and a false branch, found " ++ toString n ++ " parts"
  | partsOfFunction n =>
    "expected a name, an optional parameter list and a body, found " ++ toString n ++ " parts"
  | functionName x => "function name must be a symbol, found " ++ x.typeName
  | parameterList x => "expected a parameter list, found " ++ x.typeName
  | parameterForm x => "parameter list may only contain symbols, found '" ++ x.text ++ "'"
  | parameter x => "parameter list may only contain symbols, found " ++ x.typeName
  | emptyLet => "expected a binding list and a body"
  | noValue name => "binding '" ++ name ++ "' has no value"
  | partsOfBody n => "expected exactly one body expression, found " ++ toString n

inductive ParseError where
  | unexpectedToken (found : Token) (expected : Expected)
  | unexpectedEnd (expected : Expected)
  | unclosed (opening : Token)
  | emptyExpression (span : Span)
  | malformed (form : Keyword) (fault : FormFault) (span : Span)

namespace ParseError

/-- The source that is to blame; the end of input has no extent. -/
def span? : ParseError → Option Span
  | unexpectedToken t _ | unclosed t => some t.span
  | unexpectedEnd _ => none
  | emptyExpression s | malformed _ _ s => some s

def message : ParseError → String
  | unexpectedToken t e =>
    "Parse Error [at " ++ t.span.render ++ "]: Unexpected token '" ++ t.text ++ "', expected " ++
      e.describe
  | unexpectedEnd e => "Parse Error: Unexpected end of input. Expected " ++ e.describe
  | unclosed t => "Parse Error [at " ++ t.span.render ++ "]: '" ++ t.text ++ "' is never closed"
  | emptyExpression s => "Parse Error [at " ++ s.render ++ "]: Empty expression '()'"
  | malformed k f s =>
    "Parse Error [at " ++ s.render ++ "]: Malformed '" ++ k.name ++ "' form: " ++ f.describe

end ParseError

end SmallLisp
