import SmallLisp.Eval.Run

/-! Evaluation of trees. The head of a call comes first, then the arguments from
left to right; a primitive's name in head position always means the primitive.
The scope of a let form is made first and filled as its values come; but they are
computed outside it, so its bindings do not see one another. A function body runs
in a scope of its own inside the scope of the definition, and falls back to the
scope that made the call. -/

namespace SmallLisp

/-- What a primitive writes when it returns a value: `print` its value and a line
feed, the others nothing. -/
def Primitive.output? (p : Primitive) (v : Value) : Option String :=
  match p, v with
  | .print, .string line => some (line ++ "\n")
  | _, _ => none

def Primitive.apply (p : Primitive) (args : List Value) (span : Span) : Run Value :=
  match p.result args with
  | .error fault => Run.fail (.invalidArguments fault span)
  | .ok v => do
    match p.output? v with
    | some text => Run.write text span
    | none => pure ()
    return v

/-- Applies a function to values, where `body` evaluates the body of a closure
in its scope. -/
def Function.applyWith (body : ScopeId → Node → Run Value) (f : Function) (args : List Value)
    (span : Span) (site : ScopeId) : Run Value :=
  match f with
  | .primitive p => p.apply args span
  | .closure c =>
    if args.length = c.params.length then do
      Run.log (.call c.name args.length)
      let frame ← Run.enter (some c.scope) (some site) (c.params.zip args)
      body frame c.body
    else Run.fail (.arity c.name c.params.length args.length span)

/-- Computes values one after the other, and binds each in a scope as soon as it is there. -/
def Run.fill {α : Type} (frame : ScopeId) (value : α → Run Value) : List (String × α) → Run Unit
  | [] => return ()
  | b :: bindings => do
    Run.define frame b.1 (← value b.2)
    fill frame value bindings

namespace Node

/-- The primitive that a tree names when it stands at the head of a call. -/
def primitive? (x : Node) : Option Primitive :=
  x.symbol?.bind fun name => Primitive.ofName? (Text.lowercase name)

/-- The value of a tree in a scope. -/
def eval : Nat → ScopeId → Node → Run Value
  | 0, _, _ => Run.outOfFuel
  | fuel + 1, scope, node =>
    match node with
    | .number x _ => return .number x
    | .string s _ => return .string s
    | .boolean b _ => return .boolean b
    | .symbol name span => Run.lookup scope name span
    | .list items _ => return .list (← items.mapM (eval fuel scope))
    | .call head args span => do
      let f ← match head.primitive? with
        | some p => pure (Function.primitive p)
        | none => do
          match ← eval fuel scope head with
          | .function f => pure f
          | found => Run.fail (.notAFunction found head.span)
      let values ← args.mapM (eval fuel scope)
      f.applyWith (eval fuel) values span scope
    | .letIn bindings body span => do
      Run.log (.specialForm .letForm span)
      let frame ← Run.enter (some scope) none []
      Run.fill frame (eval fuel scope) bindings
      eval fuel frame body
    | .conditional test yes no span => do
      Run.log (.specialForm .ifForm span)
      match ← eval fuel scope test with
      | .boolean true => eval fuel scope yes
      | .boolean false =>
        match no with
        | some x => eval fuel scope x
        | none => return .boolean false
      | found => Run.fail (.conditionNotBoolean found test.span)
    | .function name params body span => do
      Run.log (.specialForm .funForm span)
      Run.log (.definition name params.length)
      let f := Value.function (.closure (← Run.makeClosure name params body scope))
      Run.define scope name f
      return f

/-- The values of trees, one after the other in the same scope. -/
def evalAll (fuel : Nat) (scope : ScopeId) (xs : List Node) : Run (List Value) :=
  xs.mapM (eval fuel scope)

end Node

/-- Applies a function to values; `site` is the scope that the call is made from. -/
def Function.apply (fuel : Nat) (f : Function) (args : List Value) (span : Span)
    (site : ScopeId) : Run Value :=
  f.applyWith (Node.eval fuel) args span site

end SmallLisp
