import SmallLisp.Node.ParseError

/-! Trees from tokens. A bracketed part is first cut out at the bracket that
balances its opening one, counting brackets of that kind only, and then its
inside is read; whatever crosses a bracket of the other kind is found there.
Every part is read from fewer tokens than the one around it. -/

namespace SmallLisp

/-- The tokens after an opening bracket, cut at the bracket that closes it. -/
structure Enclosed where
  inside : List Token
  closer : Token
  rest : List Token

namespace Enclosed

def push (t : Token) (e : Enclosed) : Enclosed := { e with inside := t :: e.inside }

/-- Cuts at the closing bracket of kind `b` that balances one opening bracket;
`depth` further ones are open. -/
def cut (b : Bracket) : Nat → List Token → Option Enclosed
  | _, [] => none
  | depth, t :: ts =>
    if t.kind = .opening b then (cut b (depth + 1) ts).map (push t)
    else if t.kind = .closing b then
      match depth with
      | 0 => some ⟨[], t, ts⟩
      | depth + 1 => (cut b depth ts).map (push t)
    else (cut b depth ts).map (push t)

/-- A cut loses no token. -/
theorem cut_eq_append {b : Bracket} {depth : Nat} {ts : List Token} {e : Enclosed}
    (h : cut b depth ts = some e) : ts = e.inside ++ e.closer :: e.rest := by
  fun_induction cut b depth ts generalizing e with
  | case1 => simp at h
  | case3 => cases h; rfl
  | case2 _ t _ _ ih | case4 t _ _ _ _ ih | case5 _ t _ _ _ ih =>
    obtain ⟨e, he, rfl⟩ := Option.map_eq_some_iff.1 h
    exact congrArg (t :: ·) (ih he)

theorem cut_length {b : Bracket} {depth : Nat} {ts : List Token} {e : Enclosed}
    (h : cut b depth ts = some e) : e.inside.length + e.rest.length + 1 = ts.length := by
  simp [cut_eq_append h, Nat.add_assoc]

end Enclosed

/-- The tokens of one part: a single one, or a bracket with all it encloses. -/
inductive Piece where
  | atom (token : Token)
  | group (bracket : Bracket) (opening : Token) (inside : List Token) (closer : Token)

namespace Piece

def size : Piece → Nat
  | atom _ => 1
  | group _ _ inside _ => inside.length + 2

theorem size_pos (p : Piece) : 0 < p.size := by cases p <;> simp [size]

/-- Takes the first piece off a list of tokens. -/
def take (expected : Expected) (t : Token) (ts : List Token) :
    Except ParseError (Piece × List Token) :=
  match t.kind with
  | .opening b =>
    match Enclosed.cut b 0 ts with
    | some e => .ok (group b t e.inside e.closer, e.rest)
    | none => .error (.unclosed t)
  | .closing _ | .keyword _ => .error (.unexpectedToken t expected)
  | .number | .string | .boolean | .identifier => .ok (atom t, ts)

theorem take_length {expected : Expected} {t : Token} {ts rest : List Token} {p : Piece}
    (h : take expected t ts = .ok (p, rest)) : p.size + rest.length = ts.length + 1 := by
  unfold take at h
  split at h
  · split at h
    · next he =>
      cases h
      have := Enclosed.cut_length he
      simp only [size]
      omega
    · simp at h
  · simp at h
  · simp at h
  all_goals cases h; simp only [size]; omega

end Piece

/-! ### Atoms and special forms -/

/-- The tree of a token that is neither bracket nor keyword. -/
def parseAtom (t : Token) : Except ParseError Node :=
  match t.kind with
  | .number =>
    match Single.ofText? t.text with
    | some x => .ok (.number x t.span)
    | none => .error (.unexpectedToken t .number)
  | .string => .ok (.string (String.ofList (Text.Quoted.decode t.text.toList)) t.span)
  | .boolean => .ok (.boolean (Text.equalsIgnoringCase t.text "true") t.span)
  | _ => .ok (.symbol t.text t.span)

def conditionalOf (span : Span) : List Node → Except ParseError Node
  | [test, yes, no] => .ok (.conditional test yes (some no) span)
  | parts => .error (.malformed .ifForm (.partsOfIf parts.length) span)

def parameterName (x : Node) : Except ParseError String :=
  match x with
  | .symbol name _ => .ok name
  | _ => .error (.malformed .funForm (.parameter x) x.span)

/-- The names in a parameter list. Round brackets make it a call to begin with,
whose head and arguments are then the names. -/
def parameterNames (x : Node) : Except ParseError (List String) :=
  match x with
  | .list items _ => items.mapM parameterName
  | .call head args _ => (head :: args).mapM parameterName
  | .letIn .. | .conditional .. | .function .. =>
    .error (.malformed .funForm (.parameterForm x) x.span)
  | _ => .error (.malformed .funForm (.parameterList x) x.span)

def functionName (x : Node) : Except ParseError String :=
  match x with
  | .symbol name _ => .ok name
  | _ => .error (.malformed .funForm (.functionName x) x.span)

def functionOf (span : Span) : List Node → Except ParseError Node
  | [name, body] => do return .function (← functionName name) [] body span
  | [name, params, body] => do
    return .function (← functionName name) (← parameterNames params) body span
  | parts => .error (.malformed .funForm (.partsOfFunction parts.length) span)

/-! ### Parts -/

mutual

def parsePiece : Piece → Except ParseError Node
  | .atom t => parseAtom t
  | .group .square opening inside closer => do
    return .list (← parseMany .listElement inside) (opening.span.merge closer.span)
  | .group .round opening inside closer => parseForm (opening.span.merge closer.span) inside
termination_by p => 2 * p.size
decreasing_by all_goals simp only [Piece.size]; omega

/-- All parts of a list of tokens. -/
def parseMany (expected : Expected) : List Token → Except ParseError (List Node)
  | [] => .ok []
  | t :: ts =>
    match h : Piece.take expected t ts with
    | .error e => .error e
    | .ok (p, rest) => do
      have := Piece.take_length h
      have := p.size_pos
      return (← parsePiece p) :: (← parseMany expected rest)
termination_by ts => 2 * ts.length + 1
decreasing_by all_goals simp only [List.length_cons]; omega

/-- The form that a pair of round brackets encloses. -/
def parseForm (span : Span) : List Token → Except ParseError Node
  | [] => .error (.emptyExpression span)
  | t :: ts =>
    match t.kind with
    | .keyword .letForm => parseLet span ts
    | .keyword .ifForm => do conditionalOf span (← parseMany .argument ts)
    | .keyword .funForm => do functionOf span (← parseMany .argument ts)
    | .identifier | .opening .round =>
      match h : Piece.take .head t ts with
      | .error e => .error e
      | .ok (p, rest) => do
        have := Piece.take_length h
        have := p.size_pos
        return .call (← parsePiece p) (← parseMany .argument rest) span
    | _ => .error (.unexpectedToken t .head)
termination_by ts => 2 * ts.length + 1
decreasing_by all_goals simp only [List.length_cons]; omega

/-- What follows the keyword of a let form. -/
def parseLet (span : Span) : List Token → Except ParseError Node
  | [] => .error (.malformed .letForm .emptyLet span)
  | t :: ts =>
    if t.kind = .opening .round then
      match h : Enclosed.cut .round 0 ts with
      | none => .error (.unclosed t)
      | some e => do
        have := Enclosed.cut_length h
        let bindings ← parseBindings e.inside
        match ← parseMany .argument e.rest with
        | [body] => .ok (.letIn bindings body span)
        | bodies => .error (.malformed .letForm (.partsOfBody bodies.length) span)
    else .error (.unexpectedToken t .bindingList)
termination_by ts => 2 * ts.length + 1
decreasing_by all_goals simp only [List.length_cons]; omega

def parseBindings : List Token → Except ParseError (List (String × Node))
  | [] => .ok []
  | t :: ts =>
    if t.kind = .opening .round then
      match h : Enclosed.cut .round 0 ts with
      | none => .error (.unclosed t)
      | some e => do
        have := Enclosed.cut_length h
        return (← parseBinding (t.span.merge e.closer.span) e.inside) :: (← parseBindings e.rest)
    else .error (.unexpectedToken t .binding)
termination_by ts => 2 * ts.length + 1
decreasing_by all_goals simp only [List.length_cons]; omega

/-- The name and the value that a pair of round brackets encloses. -/
def parseBinding (span : Span) : List Token → Except ParseError (String × Node)
  | [] => .error (.emptyExpression span)
  | name :: values =>
    if name.kind = .identifier then
      match values with
      | [] => .error (.malformed .letForm (.noValue name.text) span)
      | t :: ts =>
        match h : Piece.take .bindingValue t ts with
        | .error e => .error e
        | .ok (p, rest) => do
          have := Piece.take_length h
          have := p.size_pos
          let value ← parsePiece p
          match rest with
          | [] => .ok (name.text, value)
          | extra :: _ => .error (.unexpectedToken extra .bindingEnd)
    else .error (.unexpectedToken name .bindingName)
termination_by ts => 2 * ts.length + 1
decreasing_by all_goals simp only [List.length_cons]; omega

end

/-- The forms of a program. -/
def parse (ts : List Token) : Except ParseError (List Node) := parseMany .form ts

/-- A single form in round brackets that takes up all tokens. -/
def parseSingle : List Token → Except ParseError Node
  | [] => .error (.unexpectedEnd .parenthesis)
  | t :: ts =>
    if t.kind = .opening .round then
      match Enclosed.cut .round 0 ts with
      | none => .error (.unclosed t)
      | some ⟨inside, closer, []⟩ => parseForm (t.span.merge closer.span) inside
      | some ⟨_, _, extra :: _⟩ => .error (.unexpectedToken extra .endOfExpression)
    else .error (.unexpectedToken t .parenthesis)

end SmallLisp
