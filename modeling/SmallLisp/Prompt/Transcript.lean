import SmallLisp.Program
import SmallLisp.Prompt.Reader
import SmallLisp.Prompt.Settings
import SmallLisp.Text.Blank

/-! Interactive sessions: inputs are read, evaluated in one global scope, and
answered. A transcript is what such a session shows for given lines. -/

namespace SmallLisp.Prompt

/-- The lines shown at the start. -/
def banner : String :=
  "klisp REPL v0.1.0\nType 'exit' or press Ctrl-D to quit.\nNo previous history.\n"

/-- What is shown when the lines end. -/
def farewell : String := "\nExiting.\n"

/-- What is done with an input: nothing if it is blank; one word ends the session. -/
inductive Command where
  | skip
  | exit
  | evaluate (source : String)

def Command.ofInput (input : List Char) : Command :=
  let source := String.ofList (Text.trimBlanks input)
  if source = "" then skip
  else if Text.equalsIgnoringCase source "exit" then exit
  else evaluate source

/-- What a session shows: the standard output, the first lines of the reports,
and the complaints about refused texts. -/
structure Transcript where
  output : String
  errors : List String
  complaints : List String

namespace Transcript

def empty : Transcript := ⟨"", [], []⟩

def append (t u : Transcript) : Transcript :=
  ⟨t.output ++ u.output, t.errors ++ u.errors, t.complaints ++ u.complaints⟩

instance : Append Transcript := ⟨append⟩

/-- The answer to an evaluated input: what it printed, then its value or a report. -/
def ofResult (source : String) (result : Except Error Value) (s : State) : Transcript :=
  match result with
  | .ok v => ⟨s.sink.text ++ v.text ++ "\n", [], []⟩
  | .error e => ⟨s.sink.text, [(Report.ofError source e).headline], []⟩

/-- Evaluates an input in the scope of the session, with a sink of its own. -/
def respond (fuel : Nat) (source : String) (s : State) : Option (Transcript × State) :=
  (evaluate fuel 0 source (s.redirect none)).map fun (result, s) => (ofResult source result s, s)

/-- What is shown for the lines that are left, with some text pending. -/
def ofLines (fuel : Nat) (s : State) (pending : List Char) :
    List (List Char) → Option Transcript
  | [] => some ⟨farewell, [], []⟩
  | line :: lines =>
    match readLine pending line with
    | .pending text complaint => do
      return ⟨"", [], complaint.toList⟩ ++ (← ofLines fuel s text lines)
    | .input text =>
      match Command.ofInput text with
      | .skip => ofLines fuel s [] lines
      | .exit => some empty
      | .evaluate source => do
        let (answer, s) ← respond fuel source s
        return answer ++ (← ofLines fuel s [] lines)

/-- The transcript of a session with a text for its input. Wrong settings are
reported and replaced by the default ones, which are as good here. -/
def ofText (fuel : Nat) (environment : String → Option String) (text : String) :
    Option Transcript := do
  let errors := match Settings.read environment with
    | .ok _ => []
    | .error e => [e.message]
  return ⟨banner, errors, []⟩ ++ (← ofLines fuel (.fresh none) [] (splitLines text.toList))

end Transcript

end SmallLisp.Prompt
