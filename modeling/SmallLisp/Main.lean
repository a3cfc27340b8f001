import SmallLisp.Program
import SmallLisp.Prompt.Transcript

/-! The command line. A program file is run and its value printed; under the
name `repl` the executable holds an interactive session instead. -/

namespace SmallLisp

/-- A bound that no evaluation reaches. -/
def unbounded : Nat := 1000000000000

namespace Main

def logVariable : String := "KLISP_LOG"

/-- The name under which a source is reported, and its bytes. -/
def readSource : List String → IO (String × ByteArray)
  | [] | "-" :: _ => return ("<stdin>", ← (← IO.getStdin).readBinToEnd)
  | path :: _ => return (path, ← IO.FS.readBinFile path)

def showLog (events : Array Event) (seen : Nat) : IO Unit := do
  match (← IO.getEnv logVariable).bind LogLevel.ofFilter? with
  | none => return
  | some level =>
    for e in events.toList.drop seen do
      if e.isShownAt level then IO.eprintln e.line

/-- Shows what an evaluation printed, and its value or the report of its error. -/
def showOutcome (name source : String) (result : Except Error Value) (s : State) : IO UInt32 := do
  IO.print s.sink.text
  match result with
  | .ok v =>
    IO.println v.text
    return 0
  | .error e =>
    IO.eprint ((Report.ofError source e).display name source)
    return 1

def refuse (message : String) : IO UInt32 := do
  IO.eprintln ("klisp: " ++ message)
  return 1

def runFile (args : List String) : IO UInt32 := do
  match ← (readSource args).toBaseIO with
  | .error (.noFileOrDirectory ..) => refuse FileError.missing.message
  | .error e => refuse (toString e)
  | .ok (name, bytes) =>
    match Text.decode? bytes.data with
    | none => refuse FileError.notText.message
    | some source =>
      match evaluate unbounded 0 source (.fresh none) with
      | none => refuse "evaluation too deep"
      | some (result, s) =>
        showLog s.events 0
        showOutcome name source result s

open Prompt in
/-- Reads, evaluates and answers inputs until the lines end. -/
partial def interact (prompt : String) (s : State) (pending : List Char) : IO Unit := do
  let input ← IO.getStdin
  if ← input.isTty then
    IO.print prompt
    (← IO.getStdout).flush
  let line ← input.getLine
  if line.isEmpty then
    IO.print farewell
    return
  match readLine pending line.toList with
  | .pending text complaint => do
    if let some c := complaint then IO.eprintln ("  - " ++ c)
    interact prompt s text
  | .input text =>
    match Command.ofInput text with
    | .skip => interact prompt s []
    | .exit => return
    | .evaluate source =>
      match evaluate unbounded 0 source (s.redirect none) with
      | none => return
      | some (result, next) =>
        showLog next.events s.events.size
        discard (showOutcome "repl" source result next)
        interact prompt next []

open Prompt in
def runSession : IO UInt32 := do
  IO.print banner
  let names := [Settings.historyVariable, Settings.editModeVariable, Settings.promptVariable]
  let values ← names.mapM fun name => return (name, ← IO.getEnv name)
  let settings ← match Settings.read fun name => (values.lookup name).join with
    | .ok settings => pure settings
    | .error e => do
      IO.eprintln e.message
      pure Settings.default
  interact settings.prompt (.fresh none) []
  return 0

end Main

end SmallLisp

open SmallLisp.Main in
def main (args : List String) : IO UInt32 := do
  if (← IO.appPath).fileName = some "repl" then runSession else runFile args
