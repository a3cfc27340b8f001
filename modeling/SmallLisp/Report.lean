import SmallLisp.Error
import SmallLisp.Text.Line

/-! Reports of errors: a title, a label for the source that is to blame, and the
line and column where that source begins. -/

namespace SmallLisp

/-- What is shown of an error. -/
structure Report where
  title : String
  label : String
  span : Span

namespace Report

def ofLexError (e : LexError) : Report := ⟨"Lexer Error", e.reason, e.span⟩

/-- The end of input is reported at the end of the source. -/
def ofParseError (source : String) : ParseError → Report
  | .unexpectedToken t e => ⟨"Unexpected token: " ++ t.text, "Expected " ++ e.describe, t.span⟩
  | .unexpectedEnd e =>
    ⟨"Unexpected EOF", "Expected " ++ e.describe, ⟨source.utf8ByteSize, source.utf8ByteSize⟩⟩
  | .unclosed t => ⟨"Unclosed '" ++ t.text ++ "'", "This delimiter is never closed", t.span⟩
  | .emptyExpression span => ⟨"Empty expression", "An expression needs a head", span⟩
  | .malformed form fault span => ⟨"Invalid '" ++ form.name ++ "' form", fault.describe, span⟩

def ofEvalError : EvalError → Report
  | .unbound name span =>
    ⟨"Unbound symbol `" ++ name ++ "`", "This symbol is not defined in the current scope", span⟩
  | .notAFunction found span =>
    ⟨"Not a function: " ++ found.text,
      "This evaluates to a " ++ found.typeName ++ ", which cannot be called", span⟩
  | .conditionNotBoolean found span =>
    ⟨"Type mismatch in if predicate", "Expected boolean, found " ++ found.typeName, span⟩
  | .arity name expected found span =>
    ⟨"Wrong number of arguments to `" ++ name ++ "`",
      "Expected " ++ toString expected ++ " arguments, got " ++ toString found, span⟩
  | .invalidArguments fault span => ⟨"Invalid arguments:", fault.message, span⟩
  | .sinkFull span => ⟨"Output error", "sink full", span⟩

/-- The report of an error in a source. -/
def ofError (source : String) : Error → Report
  | .lex e => ofLexError e
  | .parse e => ofParseError source e
  | .eval e => ofEvalError e

/-- The place where the span of a report begins. The ends of the span are taken
as indices of characters; a span that leaves the text has no place. -/
def position? (r : Report) (source : String) : Option Text.Position :=
  let text := source.toList
  if text.length < r.span.start then none
  else if r.span.start < r.span.stop ∧ text.length < r.span.stop - 1 then none
  else some (Text.positionOf text r.span.start)

/-- The place of a report in a source with a name, as `name:line:column`. -/
def location? (r : Report) (name source : String) : Option String :=
  (r.position? source).map fun p => name ++ ":" ++ toString p.line ++ ":" ++ toString p.column

/-- The first line of a report as it is displayed. -/
def headline (r : Report) : String :=
  "Error: " ++ String.ofList (r.title.toList.takeWhile (· != '\n'))

/-- The whole text of a report. -/
def display (r : Report) (name source : String) : String :=
  "Error: " ++ r.title ++ "\n  " ++ ((r.location? name source).getD name) ++ ": " ++ r.label ++ "\n"

end Report

end SmallLisp
