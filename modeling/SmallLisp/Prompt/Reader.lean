import SmallLisp.Prompt.Verdict

/-! Reading inputs from lines that arrive one after the other. A pending text
grows by a line until it can be evaluated. A text that is past help stays
pending, without its line end. -/

namespace SmallLisp.Prompt

/-- The lines of a text, each with its line feed. -/
def splitLines : List Char → List (List Char)
  | [] => []
  | c :: cs =>
    if c = '\n' then [c] :: splitLines cs
    else match splitLines cs with
      | [] => [[c]]
      | line :: lines => (c :: line) :: lines

/-- Splits off the line end of a text: a line feed, and a carriage return before
it. -/
def splitLineEnd (cs : List Char) : List Char × List Char :=
  match cs.reverse with
  | '\n' :: '\r' :: rest => (rest.reverse, ['\r', '\n'])
  | '\n' :: rest => (rest.reverse, ['\n'])
  | _ => (cs, [])

/-- What comes of a line: an input, or a pending text, with the complaint about
it if it was refused. -/
inductive Reading where
  | input (text : List Char)
  | pending (text : List Char) (complaint : Option String)

/-- Adds a line to a pending text. -/
def readLine (pending line : List Char) : Reading :=
  let (text, ending) := splitLineEnd (pending ++ line)
  match Verdict.ofChars text with
  | .valid => .input text
  | .incomplete => .pending (text ++ ending) none
  | v => .pending text v.complaint?

end SmallLisp.Prompt
