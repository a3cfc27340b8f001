import SmallLisp.Token.Lexer
import SmallLisp.Text.Order

/-! Completion of the word before the cursor: what is missing of every name that
continues it. -/

namespace SmallLisp.Prompt

/-- What follows a beginning in a text. -/
def restAfter? : List Char → List Char → Option (List Char)
  | [], text => some text
  | c :: cs, d :: ds => if c = d then restAfter? cs ds else none
  | _ :: _, [] => none

/-- The word that ends a text at a byte, if a name or a keyword can continue it. -/
def lastWord? (text : String) (stop : Nat) : Option String :=
  match tokenize text with
  | .error _ => none
  | .ok tokens =>
    tokens.getLast?.bind fun t =>
      if t.span.stop = stop ∧ (t.kind = .identifier ∨ t.kind.isKeyword) then some t.text else none

/-- The rests of the names and keywords that continue the word before the cursor,
in order. -/
def completions (names : List String) (line : String) (cursor : Nat) : List String :=
  match lastWord? (String.ofList (Text.takeBytes cursor line.toList)) cursor with
  | none => []
  | some word =>
    let start := (Text.lowercase word).toList
    let rests := (names ++ Keyword.all.map Keyword.name).eraseDups.filterMap fun name =>
      restAfter? start name.toList
    Text.sort ((rests.filter (· ≠ [])).map String.ofList)

end SmallLisp.Prompt
