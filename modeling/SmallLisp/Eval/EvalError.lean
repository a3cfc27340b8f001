import SmallLisp.Primitive.Result

/-! What can go wrong in an evaluation, each with the span of source to blame. -/

namespace SmallLisp

inductive EvalError where
  | unbound (name : String) (span : Span)
  | notAFunction (found : Value) (span : Span)
  | conditionNotBoolean (found : Value) (span : Span)
  | arity (name : String) (expected found : Nat) (span : Span)
  | invalidArguments (fault : ArgumentError) (span : Span)
  | sinkFull (span : Span)

namespace EvalError

def span : EvalError → Span
  | unbound _ s | notAFunction _ s | conditionNotBoolean _ s | arity _ _ _ s
  | invalidArguments _ s | sinkFull s => s

def message : EvalError → String
  | unbound name _ => "Unbound symbol: '" ++ name ++ "'"
  | notAFunction found _ => "Evaluation Error: Expected a function, but got: " ++ found.text
  | conditionNotBoolean found _ =>
    "Evaluation Error: if predicate must be a boolean, but got " ++ found.typeName
  | arity name expected found _ =>
    "Evaluation Error: Function '" ++ name ++ "' expects " ++ toString expected ++
      " arguments, got " ++ toString found
  | invalidArguments fault _ => "Evaluation Error: Invalid arguments - " ++ fault.message
  | sinkFull _ => "Evaluation Error: Could not write output - sink full"

end EvalError

end SmallLisp
