import SmallLisp.Eval
import SmallLisp.Report

/-! Whole programs: all forms of a text are parsed before the first one is
evaluated, and the value of the last one is the value of the program. A program
file is run in a global scope of its own. -/

namespace SmallLisp

/-- The value of a list of forms, which must not be empty. -/
def lastValue (values : List Value) : Except Error Value :=
  match values.getLast? with
  | some v => .ok v
  | none => .error (.parse (.unexpectedEnd .expression))

/-- Evaluates the forms of a program in order. -/
def evaluateForms (fuel : Nat) (scope : ScopeId) (forms : List Node) (s : State) :
    Option (Except Error Value × State) :=
  ((Node.evalAll fuel scope forms).outcome s).map fun (result, s) =>
    match result with
    | .error e => (.error (.eval e), s)
    | .ok values => (lastValue values, s)

/-- Evaluates the text of a program in a scope. -/
def evaluate (fuel : Nat) (scope : ScopeId) (source : String) (s : State) :
    Option (Except Error Value × State) :=
  match parseText source with
  | .error e => some (.error e, s)
  | .ok forms => evaluateForms fuel scope forms (s.log (.program forms.length))

/-- Why the text of a program file cannot be had. -/
inductive FileError where
  | missing
  | notText
  deriving DecidableEq

def FileError.message : FileError → String
  | missing => "No such file or directory (os error 2)"
  | notText => "stream did not contain valid UTF-8"

/-- What can be seen of the run of a program file: the exit code, what went to
the standard output, the first line of the report if there was one, and the log. -/
structure FileRun where
  code : Nat
  output : String
  diagnostic : String
  events : Array Event

namespace FileRun

def ofFileError (e : FileError) : FileRun := ⟨1, "", "klisp: " ++ e.message, #[]⟩

def ofOutcome (source : String) (result : Except Error Value) (s : State) : FileRun :=
  match result with
  | .ok v => ⟨0, s.sink.text ++ v.text ++ "\n", "", s.events⟩
  | .error e => ⟨1, s.sink.text, (Report.ofError source e).headline, s.events⟩

/-- Runs a program in a fresh global scope. -/
def ofSource (fuel : Nat) (source : String) : Option FileRun :=
  (evaluate fuel 0 source (.fresh none)).map fun (result, s) => ofOutcome source result s

/-- Runs the program that a file holds. -/
def ofBytes (fuel : Nat) (bytes : Array UInt8) : Option FileRun :=
  match Text.decode? bytes with
  | some source => ofSource fuel source
  | none => some (ofFileError .notText)

/-- The lines of the log down to a level. -/
def logLines (r : FileRun) (level : LogLevel) : List String :=
  (r.events.toList.filter (·.isShownAt level)).map Event.line

end FileRun

end SmallLisp
