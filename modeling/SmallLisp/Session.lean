import SmallLisp.Program
import SmallLisp.Prompt.Completion

/-! Sessions in which scopes and values have names and are used one step at a
time. A step that refers to something unknown is refused and changes nothing. -/

namespace SmallLisp

structure Session where
  scopes : List (String × ScopeId)
  values : List (String × Value)
  state : State

/-- One use of a session. Where a step yields a value, `store` names it if it is
to be kept. -/
inductive Step where
  | global (name : String)
  | enclose (name outer : String)
  | frame (name defining caller : String)
  | define (scope symbol value : String)
  | get (scope symbol : String) (span : Span) (store : Option String)
  | eval (scope source : String) (limit : Option Nat) (store : Option String)
  | apply (function : String) (args : List String) (scope : String) (span : Span)
      (limit : Option Nat) (store : Option String)
  | compare (first second : String)
  | names (scope : String)
  | inspect (scope : String)
  | complete (scope line : String) (cursor : Nat)

/-- Why a step is refused. -/
inductive Refusal where
  | noSuchScope
  | noSuchValue
  | notAFunction
  | noSuchStep (name : String)
  deriving DecidableEq

def Refusal.message : Refusal → String
  | noSuchScope => "no such scope"
  | noSuchValue => "no such value"
  | notAFunction => "not a function handle"
  | noSuchStep name => "unknown step '" ++ name ++ "'"

inductive Reply where
  | done
  | found (result : Except Error Value)
  | evaluated (result : Except Error Value) (output : String)
  | compared (equal identical : Bool)
  | names (names : List String)
  | inspected (text : String)
  | completions (cursor : Nat) (rests : List String)

namespace Session

def initial : Session := ⟨[], [], .initial none⟩

def scope (s : Session) (name : String) : Except Refusal ScopeId :=
  match s.scopes.lookup name with
  | some id => .ok id
  | none => .error .noSuchScope

def value (s : Session) (name : String) : Except Refusal Value :=
  match s.values.lookup name with
  | some v => .ok v
  | none => .error .noSuchValue

def function (s : Session) (name : String) : Except Refusal Function := do
  match ← s.value name with
  | .function f => .ok f
  | _ => .error .notAFunction

/-- Adds a scope under a name. -/
def createScope (s : Session) (name : String) (outer caller : Option ScopeId) : Session :=
  { s with
    scopes := (name, s.state.scopes.next) :: s.scopes
    state := { s.state with scopes := s.state.scopes.create ⟨outer, caller, .empty⟩ } }

/-- Keeps a value under a name if there are both. -/
def keep (s : Session) (store : Option String) (result : Except Error Value) : Session :=
  match store, result with
  | some name, .ok v => { s with values := (name, v) :: s.values }
  | _, _ => s

/-- The reply to an evaluation, and the session after it. -/
def conclude (s : Session) (store : Option String) (result : Except Error Value)
    (state : State) : Reply × Session :=
  (.evaluated result state.sink.text, { s with state := state }.keep store result)

/-- What a scope itself binds, and which links it has. -/
def describe (s : Session) (id : ScopeId) : String :=
  let quoted := (Text.sort (s.state.scopes.bindings id).keys).map fun key =>
    String.ofList (Text.Quoted.encode key.toList)
  let has (link : Frame → Option ScopeId) : String :=
    toString (s.state.scopes.frames[id]?.any fun f => (link f).isSome)
  "Scope \x7b bindings: [" ++ ", ".intercalate quoted ++ "], has_outer: " ++ has Frame.outer ++
    ", has_caller: " ++ has Frame.caller ++ " \x7d"

/-- Takes a step. There is no outcome if the evaluation in it runs out of fuel. -/
def step (fuel : Nat) (s : Session) : Step → Except Refusal (Option (Reply × Session))
  | .global name => .ok (some (.done, s.createScope name none none))
  | .enclose name outer => do
    return some (.done, s.createScope name (some (← s.scope outer)) none)
  | .frame name defining caller => do
    let defining ← s.scope defining
    return some (.done, s.createScope name (some defining) (some (← s.scope caller)))
  | .define scope symbol value => do
    let v ← s.value value
    let id ← s.scope scope
    let scopes := s.state.scopes.define id symbol v
    return some (.done, { s with state := { s.state with scopes := scopes } })
  | .get scope symbol span store => do
    let id ← s.scope scope
    let result := match s.state.scopes.resolve? id symbol with
      | some v => .ok v
      | none => .error (.eval (.unbound symbol span))
    return some (.found result, s.keep store result)
  | .eval scope source limit store => do
    let id ← s.scope scope
    return (evaluate fuel id source (s.state.redirect limit)).map fun (result, state) =>
      s.conclude store result state
  | .apply function args scope span limit store => do
    let f ← s.function function
    let values ← args.mapM s.value
    let site ← s.scope scope
    return ((f.apply fuel values span site).outcome (s.state.redirect limit)).map
      fun (result, state) => s.conclude store (result.mapError .eval) state
  | .compare first second => do
    let v ← s.value first
    let w ← s.value second
    return some (.compared (v.equals w) (v.identical w), s)
  | .names scope => do
    let id ← s.scope scope
    return some (.names (Text.sort (s.state.scopes.names id)), s)
  | .inspect scope => do
    let id ← s.scope scope
    return some (.inspected (s.describe id), s)
  | .complete scope line cursor => do
    let id ← s.scope scope
    return some (.completions cursor (Prompt.completions (s.state.scopes.names id) line cursor), s)

end Session

end SmallLisp
