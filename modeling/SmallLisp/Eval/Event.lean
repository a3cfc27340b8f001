import SmallLisp.Token

/-! The event log of a run: one line for each program, special form, function
definition and call of a closure. -/

namespace SmallLisp

inductive Event where
  | program (forms : Nat)
  | specialForm (form : Keyword) (span : Span)
  | definition (name : String) (params : Nat)
  | call (name : String) (args : Nat)

/-- How much of the log is asked for; `trace` includes `debug`. -/
inductive LogLevel where
  | debug | trace
  deriving DecidableEq

/-- The level that a log filter asks for. -/
def LogLevel.ofFilter? : String → Option LogLevel
  | "klisp=debug" => some debug
  | "klisp=trace" => some trace
  | _ => none

namespace Event

def level : Event → LogLevel
  | program _ => .debug
  | specialForm .. | definition .. | call .. => .trace

def isShownAt (e : Event) : LogLevel → Bool
  | .trace => true
  | .debug => e.level == .debug

def message : Event → String
  | program forms => "evaluating program forms=" ++ toString forms
  | specialForm form span =>
    "special form form=\"" ++ form.name ++ "\" span=" ++ span.render
  | definition name params => "fun name=" ++ name ++ " params=" ++ toString params
  | call name args => "calling closure name=" ++ name ++ " args=" ++ toString args

/-- The line of the log, without the time. -/
def line (e : Event) : String :=
  (match e.level with
    | .debug => "DEBUG"
    | .trace => "TRACE") ++ " klisp::evaluator: " ++ e.message

end Event

end SmallLisp
