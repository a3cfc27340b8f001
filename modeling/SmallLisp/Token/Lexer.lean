import SmallLisp.Token
import SmallLisp.Text.Bytes

/-! The cut of a text into tokens, from left to right. Separators lie between
tokens and are dropped; a word reaches as far as it can; the only way to fail is
a quote without its partner. -/

namespace SmallLisp

/-- The characters that separate tokens. -/
def isSeparator (c : Char) : Bool :=
  c == ' ' || c == '\t' || c == '\n' || c == '\r' || c == '\x0c'

def isWordChar (c : Char) : Bool :=
  !isSeparator c && (TokenKind.ofBracket? c).isNone && c != '"'

/-- A quote is opened at the start of the span and not closed; the span ends
where reading on was impossible. -/
structure LexError where
  span : Span
  deriving DecidableEq

namespace LexError

def reason (_ : LexError) : String := "Unterminated string literal"

def message (e : LexError) : String := "Lexer Error: " ++ e.reason

end LexError

namespace Token

/-- What follows an opening quote: the rest of the string with its closing
quote, or as much of it as can be read. -/
inductive StringRest where
  | closed (body rest : List Char)
  | unterminated (body : List Char)

namespace StringRest

def push (cs : List Char) : StringRest → StringRest
  | closed body rest => closed (cs ++ body) rest
  | unterminated body => unterminated (cs ++ body)

/-- A backslash takes the next character with it, whatever that is, except a
line feed. -/
def split : List Char → StringRest
  | [] => unterminated []
  | '"' :: cs => closed ['"'] cs
  | ['\\'] => unterminated []
  | '\\' :: c :: cs => if c = '\n' then unterminated [] else (split cs).push ['\\', c]
  | c :: cs => (split cs).push [c]

theorem split_length {cs body rest : List Char} (h : split cs = closed body rest) :
    rest.length < cs.length := by
  fun_induction split cs generalizing body with
  | case2 cs => cases h; simp
  | case5 c cs _ ih | case6 c cs _ _ _ ih =>
    cases hs : split cs with
    | unterminated _ => simp [hs, push] at h
    | closed b r =>
      simp only [hs, push, closed.injEq] at h
      have := ih (h.2 ▸ hs)
      simp only [List.length_cons]
      omega
  | case1 | case3 | case4 => simp at h

end StringRest

/-- The token of a kind that lies at byte `start`. -/
def startingAt (start : Nat) (kind : TokenKind) (cs : List Char) : Token :=
  ⟨kind, String.ofList cs, ⟨start, start + Text.byteLength cs⟩⟩

/-- The tokens of a text that starts at byte `start` of its source. -/
def scanFrom (start : Nat) : List Char → Except LexError (List Token)
  | [] => .ok []
  | c :: cs =>
    if isSeparator c then scanFrom (start + c.utf8Size) cs
    else match TokenKind.ofBracket? c with
    | some kind => do
      let token := Token.startingAt start kind [c]
      return token :: (← scanFrom token.span.stop cs)
    | none =>
      if c = '"' then
        match h : StringRest.split cs with
        | .unterminated body => .error ⟨start, start + Text.byteLength (c :: body)⟩
        | .closed body rest => do
          have := StringRest.split_length h
          let token := Token.startingAt start .string (c :: body)
          return token :: (← scanFrom token.span.stop rest)
      else do
        let word := c :: cs.takeWhile isWordChar
        have := (List.dropWhile_suffix (l := cs) isWordChar).length_le
        let token := Token.startingAt start (.ofWord (String.ofList word)) word
        return token :: (← scanFrom token.span.stop (cs.dropWhile isWordChar))
termination_by cs => cs.length
decreasing_by all_goals simp_wf <;> omega

end Token

/-- The tokens of a text. -/
def tokenize (source : String) : Except LexError (List Token) := Token.scanFrom 0 source.toList

end SmallLisp
