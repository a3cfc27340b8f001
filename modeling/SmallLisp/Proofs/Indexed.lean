import SmallLisp.Node.Parser

/-! The parser as a reading of tokens by their positions. Brackets are matched by counting,
and what a parser reads is cut out of the tokens from one position to another. Every access
is checked: to a position that is not there, to a stretch that ends too late or before it
begins, and below zero in a count. So is every loop for progress, and every form for having
fewer tokens than the form around it, which is why the reading ends; and so is every branch
that should never be come to. A check that fails is a crash, not an error in the syntax. -/

namespace SmallLisp

/-- What a reading by positions must not do. -/
inductive Crash where
  | outOfRange | underflow
  | noProgress | notSmaller
  | unreachable
  deriving DecidableEq

/-- Readings that may find an error in the syntax, or crash. -/
abbrev Checked := ExceptT ParseError (Except Crash)

namespace Checked

variable {α : Type}

def crash (c : Crash) : Checked α := ExceptT.mk (.error c)

/-- A reading without a crash. -/
def settled (r : Except ParseError α) : Checked α := ExceptT.mk (.ok r)

/-- The token at a position. -/
def token (ts : List Token) (i : Nat) : Checked Token :=
  match ts[i]? with
  | some t => pure t
  | none => crash .outOfRange

/-- The tokens from one position up to another. -/
def slice (ts : List Token) (start stop : Nat) : Checked (List Token) :=
  if start ≤ stop ∧ stop ≤ ts.length then pure ((ts.take stop).drop start) else crash .outOfRange

def decrement : Nat → Checked Nat
  | 0 => crash .underflow
  | n + 1 => pure n

/-- The tokens, if there are fewer than a bound. -/
def shorter (c : Crash) (bound : Nat) (ts : List Token) :
    Checked { us : List Token // us.length < bound } :=
  if h : ts.length < bound then pure ⟨ts, h⟩ else crash c

end Checked

namespace Indexed

open Checked (crash settled token slice decrement shorter)

/-! ### Brackets and atoms -/

/-- The position of the bracket that closes the last of `balance` open ones; the tokens
begin at a position. -/
def findEnd (b : Bracket) (balance position : Nat) : List Token → Checked (Option Nat)
  | [] => pure none
  | t :: ts =>
    if t.kind = .opening b then findEnd b (balance + 1) (position + 1) ts
    else if t.kind = .closing b then do
      let balance ← decrement balance
      if balance = 0 then return some position else findEnd b balance (position + 1) ts
    else findEnd b balance (position + 1) ts

/-- The position of the bracket that closes the one which the tokens begin with. -/
def matchingEnd (b : Bracket) (ts : List Token) : Checked Nat := do
  match ← findEnd b 1 1 (ts.drop 1) with
  | some position => return position
  | none => throw (.unclosed (← token ts 0))

/-- The span from the first token to the last. -/
def spanOf (ts : List Token) : Span :=
  match ts.head?, ts.getLast? with
  | some first, some last => first.span.merge last.span
  | _, _ => ⟨0, 0⟩

def atom (t : Token) : Checked Node :=
  match t.kind with
  | .number | .string | .boolean | .identifier => settled (parseAtom t)
  | .opening _ | .closing _ | .keyword _ => crash .unreachable

/-! ### Function forms -/

/-- A function form from its parts, which are taken off at the end. -/
def functionFrom (span : Span) (name params body : Option Node) : Checked Node :=
  match name, body with
  | some name, some body => do
    let name ← settled (functionName name)
    let params ← params.elim (pure []) fun x => settled (parameterNames x)
    return .function name params body span
  | _, _ => crash .unreachable

def function (span : Span) (parts : List Node) : Checked Node :=
  if parts.length = 2 then
    functionFrom span parts.dropLast.getLast? none parts.getLast?
  else if parts.length = 3 then
    functionFrom span parts.dropLast.dropLast.getLast? parts.dropLast.getLast? parts.getLast?
  else throw (.malformed .funForm (.partsOfFunction parts.length) span)

/-! ### Parts -/

mutual

/-- The part that the tokens begin with, and the number of its tokens. The form around it
has `around` tokens. -/
def part (around : Nat) (expected : Expected) (ts : List Token) : Checked (Node × Nat) :=
  match ts.head? with
  | none => crash .unreachable
  | some t =>
    match t.kind with
    | .opening b => do
      let stop ← matchingEnd b ts
      let group ← shorter .notSmaller around (← slice ts 0 (stop + 1))
      let x ← match b with
        | .round => single group
        | .square => list group
      return (x, stop + 1)
    | .number | .string | .boolean | .identifier => do
      let _ ← shorter .notSmaller around [t]
      return (← atom t, 1)
    | .closing _ | .keyword _ => throw (.unexpectedToken t expected)
termination_by (around, 0, 0)
decreasing_by all_goals exact Prod.Lex.left _ _ group.property

/-- All parts of the tokens. -/
def many (around : Nat) (expected : Expected) (ts : List Token) : Checked (List Node) :=
  if ts.isEmpty then return []
  else do
    let (x, consumed) ← part around expected ts
    let rest ← shorter .noProgress ts.length (← slice ts consumed ts.length)
    return x :: (← many around expected rest)
termination_by (around, 1, ts.length)
decreasing_by
  · exact Prod.Lex.right _ (Prod.Lex.left _ _ Nat.zero_lt_one)
  · exact Prod.Lex.right _ (Prod.Lex.right _ rest.property)

/-- A form in round brackets that takes up all tokens. -/
def single (ts : List Token) : Checked Node :=
  match ts.head? with
  | none => throw (.unexpectedEnd .parenthesis)
  | some t =>
    if t.kind = .opening .round then do
      let stop ← matchingEnd .round ts
      match ts[stop + 1]? with
      | some extra => throw (.unexpectedToken extra .endOfExpression)
      | none => content ts.length (spanOf ts) (← slice ts 1 stop)
    else throw (.unexpectedToken t .parenthesis)
termination_by (ts.length, 4, 0)

/-- The form that a pair of round brackets encloses. -/
def content (around : Nat) (span : Span) (ts : List Token) : Checked Node :=
  match ts.head? with
  | none => throw (.emptyExpression span)
  | some t =>
    match t.kind with
    | .keyword .letForm => do letForm around span (← slice ts 1 ts.length)
    | .keyword .ifForm => do
      let parts ← many around .argument (← slice ts 1 ts.length)
      settled (conditionalOf span parts)
    | .keyword .funForm => do
      let parts ← many around .argument (← slice ts 1 ts.length)
      function span parts
    | .identifier | .opening .round => do
      let (head, consumed) ← part around .head ts
      let args ← many around .argument (← slice ts consumed ts.length)
      return .call head args span
    | _ => throw (.unexpectedToken t .head)
termination_by (around, 3, 0)

/-- A list in square brackets that takes up all tokens. -/
def list (ts : List Token) : Checked Node := do
  let last ← decrement ts.length
  return .list (← many ts.length .listElement (← slice ts 1 last)) (spanOf ts)
termination_by (ts.length, 4, 0)

/-- What follows the keyword of a let form. -/
def letForm (around : Nat) (span : Span) (ts : List Token) : Checked Node :=
  match ts.head? with
  | none => throw (.malformed .letForm .emptyLet span)
  | some t =>
    if t.kind = .opening .round then do
      let stop ← matchingEnd .round ts
      let bound ← bindings around (← slice ts 1 stop)
      let bodies ← many around .argument (← slice ts (stop + 1) ts.length)
      if bodies.length = 1 then
        match bodies[0]? with
        | some body => return .letIn bound body span
        | none => crash .outOfRange
      else throw (.malformed .letForm (.partsOfBody bodies.length) span)
    else throw (.unexpectedToken t .bindingList)
termination_by (around, 2, 0)

def bindings (around : Nat) (ts : List Token) : Checked (List (String × Node)) :=
  match ts.head? with
  | none => return []
  | some t =>
    if t.kind = .opening .round then do
      let stop ← matchingEnd .round ts
      let group ← shorter .notSmaller around (← slice ts 0 (stop + 1))
      let first ← binding group
      let rest ← shorter .noProgress ts.length (← slice ts (stop + 1) ts.length)
      return first :: (← bindings around rest)
    else throw (.unexpectedToken t .binding)
termination_by (around, 1, ts.length)
decreasing_by
  · exact Prod.Lex.left _ _ group.property
  · exact Prod.Lex.right _ (Prod.Lex.right _ rest.property)

/-- A binding in round brackets that takes up all tokens. -/
def binding (ts : List Token) : Checked (String × Node) := do
  let last ← decrement ts.length
  match ← slice ts 1 last with
  | [] => throw (.emptyExpression (spanOf ts))
  | name :: rest =>
    if name.kind = .identifier then
      let values ← slice (name :: rest) 1 (rest.length + 1)
      if values.isEmpty then throw (.malformed .letForm (.noValue name.text) (spanOf ts))
      else
        let (value, consumed) ← part ts.length .bindingValue values
        match values[consumed]? with
        | some extra => throw (.unexpectedToken extra .bindingEnd)
        | none => return (name.text, value)
    else throw (.unexpectedToken name .bindingName)
termination_by (ts.length, 4, 0)

end

/-- The forms of a program. -/
def parse (ts : List Token) : Checked (List Node) := many (ts.length + 1) .form ts

end Indexed

end SmallLisp
