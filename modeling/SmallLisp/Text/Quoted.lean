/-! Quoted strings. Between the quotes a backslash starts one of five escapes;
before any other character, and at the end, it stands for itself. -/

namespace SmallLisp.Text.Quoted

/-- How a character is written between quotes. -/
def encodeChar : Char → List Char
  | '"' => ['\\', '"']
  | '\\' => ['\\', '\\']
  | '\n' => ['\\', 'n']
  | '\r' => ['\\', 'r']
  | '\t' => ['\\', 't']
  | c => [c]

/-- The quoted form of a text. -/
def encode (cs : List Char) : List Char := '"' :: (cs.flatMap encodeChar ++ ['"'])

/-- What a backslash together with the next character stands for. -/
def decodeEscape : Char → List Char
  | 'n' => ['\n']
  | 'r' => ['\r']
  | 't' => ['\t']
  | '\\' => ['\\']
  | '"' => ['"']
  | c => ['\\', c]

/-- The text that stands between quotes. -/
def decodeBody : List Char → List Char
  | '\\' :: c :: cs => decodeEscape c ++ decodeBody cs
  | c :: cs => c :: decodeBody cs
  | [] => []

/-- The text between the first and the last character if both are quotes, and
the whole text otherwise. -/
def unquote : List Char → List Char
  | '"' :: cs => if cs.getLast? = some '"' then cs.dropLast else '"' :: cs
  | cs => cs

/-- The text that a quoted form stands for. -/
def decode (cs : List Char) : List Char := decodeBody (unquote cs)

theorem decodeBody_encodeChar (c : Char) (cs : List Char) :
    decodeBody (encodeChar c ++ cs) = c :: decodeBody cs := by
  unfold encodeChar
  split <;> try rfl
  next _ h _ _ _ =>
    rw [List.singleton_append, decodeBody]
    intro _ _ hc
    exact absurd hc h

theorem decodeBody_flatMap_encodeChar (cs : List Char) :
    decodeBody (cs.flatMap encodeChar) = cs := by
  induction cs with
  | nil => rfl
  | cons c cs ih => rw [List.flatMap_cons, decodeBody_encodeChar, ih]

/-- A quoted form stands for the text it was made from. -/
theorem decode_encode (cs : List Char) : decode (encode cs) = cs := by
  simp [decode, encode, unquote, decodeBody_flatMap_encodeChar]

end SmallLisp.Text.Quoted
