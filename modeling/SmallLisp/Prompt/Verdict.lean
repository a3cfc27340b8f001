import SmallLisp.Prompt.Scanner

/-! Whether a text can be handed over for evaluation: it may want more lines,
and it is past help once a bracket closes what is not open. -/

namespace SmallLisp.Prompt

inductive Verdict where
  | valid
  | incomplete
  | invalid (bracket : Char) (offset : Nat)
  deriving DecidableEq

namespace Verdict

/-- The verdict on a text that starts at a byte, after what has been read. -/
def after (s : Scanner) (offset : Nat) : List Char → Verdict
  | [] => if s.isComplete then valid else incomplete
  | c :: cs =>
    let (role, next) := s.step offset c
    if role.isMismatch then invalid c offset else after next (offset + c.utf8Size) cs

def ofChars (cs : List Char) : Verdict := after .start 0 cs

def of (text : String) : Verdict := ofChars text.toList

/-- What an invalid text is told. -/
def complaint? : Verdict → Option String
  | invalid bracket offset =>
    some ("Unmatched '" ++ String.singleton bracket ++ "' at position " ++ toString offset)
  | _ => none

/-- The complaint as it is displayed. -/
def message? (v : Verdict) : Option String := v.complaint?.map ("  - " ++ ·)

end Verdict

end SmallLisp.Prompt
