import SmallLisp.Value

/-! The results of primitives. A result depends on the arguments alone; all of
them are checked before anything is computed, so a boolean operation fails on a
later argument even when an earlier one has decided it. -/

namespace SmallLisp

/-- Why a primitive refuses its arguments. Positions are counted from one. -/
inductive ArgumentError where
  | wrongCount (primitive : Primitive) (expected found : Nat)
  | noArguments (primitive : Primitive)
  | wrongType (primitive : Primitive) (expected : ValueType) (position : Nat) (found : ValueType)
  | emptyList (primitive : Primitive)
  deriving DecidableEq

def ArgumentError.message : ArgumentError → String
  | wrongCount p expected found =>
    "Primitive '" ++ p.name ++ "' expects exactly " ++ toString expected ++ " arguments, got " ++
      toString found
  | noArguments p => "Primitive '" ++ p.name ++ "' expects at least 1 arguments, got 0"
  | wrongType p expected position found =>
    "Primitive '" ++ p.name ++ "' expects a " ++ expected.name ++ " for argument " ++
      toString position ++ ", got " ++ found.name
  | emptyList p => "Primitive '" ++ p.name ++ "' expects a non-empty list"

namespace Primitive

variable {α : Type}

/-- What all the arguments contain, if every one of them is of the type that
`content?` reads; `position` is that of the first. -/
def contents (p : Primitive) (type : ValueType) (content? : Value → Option α)
    (position : Nat) : List Value → Except ArgumentError (List α)
  | [] => .ok []
  | v :: vs =>
    match content? v with
    | some a => do return a :: (← contents p type content? (position + 1) vs)
    | none => .error (.wrongType p type position v.type)

/-- The arguments combined from the left; a single one stands as it is. -/
def combine (p : Primitive) (type : ValueType) (content? : Value → Option α) (f : α → α → α)
    (args : List Value) : Except ArgumentError α := do
  match ← contents p type content? 1 args with
  | [] => .error (.noArguments p)
  | a :: as => .ok (as.foldl f a)

def combineNumbers (p : Primitive) (f : Single → Single → Single) (args : List Value) :
    Except ArgumentError Value :=
  Value.number <$> combine p .number Value.number? f args

def combineBooleans (p : Primitive) (f : Bool → Bool → Bool) (args : List Value) :
    Except ArgumentError Value :=
  Value.boolean <$> combine p .boolean Value.boolean? f args

/-- The first element of a list and the others, if there are any. -/
def splitList (p : Primitive) : Value → Except ArgumentError (Value × List Value)
  | .list (v :: vs) => .ok (v, vs)
  | .list [] => .error (.emptyList p)
  | v => .error (.wrongType p .list 1 v.type)

/-- The line that `print` shows, without its end. -/
def printedLine (args : List Value) : Except ArgumentError String := do
  match ← contents print .string Value.string? 1 args with
  | [] => .error (.noArguments print)
  | parts => .ok (String.ofList (spaced (parts.map String.toList)))

/-- The value of a primitive applied to arguments. A new element goes to the end
of a list. -/
def result (p : Primitive) (args : List Value) : Except ArgumentError Value :=
  match p with
  | add => combineNumbers p Single.add args
  | sub => combineNumbers p Single.sub args
  | mul => combineNumbers p Single.mul args
  | div => combineNumbers p Single.div args
  | and => combineBooleans p Bool.and args
  | or => combineBooleans p Bool.or args
  | not =>
    match args with
    | [.boolean b] => .ok (.boolean !b)
    | [v] => .error (.wrongType p .boolean 1 v.type)
    | _ => .error (.wrongCount p 1 args.length)
  | eq =>
    match args with
    | [v, w] => .ok (.boolean (v.equals w))
    | _ => .error (.wrongCount p 2 args.length)
  | neq =>
    match args with
    | [v, w] => .ok (.boolean !v.equals w)
    | _ => .error (.wrongCount p 2 args.length)
  | car =>
    match args with
    | [v] => (fun parts => parts.1) <$> splitList p v
    | _ => .error (.wrongCount p 1 args.length)
  | cdr =>
    match args with
    | [v] => (fun parts => Value.list parts.2) <$> splitList p v
    | _ => .error (.wrongCount p 1 args.length)
  | cons =>
    match args with
    | [.list vs, w] => .ok (.list (vs ++ [w]))
    | [v, _] => .error (.wrongType p .list 1 v.type)
    | _ => .error (.wrongCount p 2 args.length)
  | print => Value.string <$> printedLine args

end Primitive

end SmallLisp
