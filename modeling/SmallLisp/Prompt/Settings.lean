import SmallLisp.Text.Lowercase

/-! Settings of an interactive session, from variables of the environment. A
variable that is empty counts as not set. -/

namespace SmallLisp.Prompt

inductive EditMode where
  | emacs | vi
  deriving DecidableEq

namespace EditMode

def name : EditMode → String
  | emacs => "emacs"
  | vi => "vi"

def ofName? (name : String) : Option EditMode :=
  [vi, emacs].find? (Text.equalsIgnoringCase name ·.name)

end EditMode

structure Settings where
  historyFile : String
  editMode : EditMode
  prompt : String
  deriving DecidableEq

namespace Settings

def default : Settings := ⟨"klisp_history.txt", .emacs, "klisp> "⟩

def historyVariable : String := "KLISP_HISTORY"

def editModeVariable : String := "KLISP_EDIT_MODE"

def promptVariable : String := "KLISP_PROMPT"

/-- The one way in which settings can be wrong: an edit mode that does not exist. -/
structure UnknownEditMode where
  value : String
  deriving DecidableEq

def UnknownEditMode.message (e : UnknownEditMode) : String :=
  editModeVariable ++ ": unknown edit mode '" ++ e.value ++ "', expected 'vi' or 'emacs'"

/-- The settings that the variables of an environment ask for. -/
def read (environment : String → Option String) : Except UnknownEditMode Settings :=
  let get (name : String) := (environment name).filter (· ≠ "")
  let settings (mode : EditMode) : Settings :=
    { historyFile := (get historyVariable).getD default.historyFile
      editMode := mode
      prompt := (get promptVariable).getD default.prompt }
  match get editModeVariable with
  | none => .ok (settings default.editMode)
  | some value =>
    match EditMode.ofName? value with
    | some mode => .ok (settings mode)
    | none => .error ⟨value⟩

end Settings

end SmallLisp.Prompt
