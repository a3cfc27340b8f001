import SmallLisp.Scope
import SmallLisp.Eval.Sink
import SmallLisp.Eval.Event
import SmallLisp.Eval.EvalError

/-! Runs: computations that change the scopes, write to the sink and may fail.
What was changed and written before a failure stays. A run has a bound on the
depth of its evaluation and has no outcome at all when that is used up. -/

namespace SmallLisp

/-- Everything that evaluation can change. `closures` is the number of closures
made so far; `events` is the log. -/
structure State where
  scopes : Scopes
  closures : Nat
  sink : Sink
  events : Array Event

namespace State

/-- No scope yet. -/
def initial (limit : Option Nat) : State := ⟨.empty, 0, .empty limit, #[]⟩

/-- Adds a scope that is linked to no other. -/
def createGlobal (s : State) : ScopeId × State :=
  (s.scopes.next, { s with scopes := s.scopes.create ⟨none, none, .empty⟩ })

/-- One global scope, which is the scope `0`. -/
def fresh (limit : Option Nat) : State := (initial limit).createGlobal.2

def log (s : State) (e : Event) : State := { s with events := s.events.push e }

/-- Another sink in the place of the present one. -/
def redirect (s : State) (limit : Option Nat) : State := { s with sink := .empty limit }

end State

abbrev Run := ExceptT EvalError (StateT State Option)

namespace Run

variable {α : Type}

/-- What becomes of a run that starts in a given state. -/
def outcome (x : Run α) (s : State) : Option (Except EvalError α × State) := x s

def outOfFuel : Run α := fun _ => none

def fail (e : EvalError) : Run α := throw e

def log (e : Event) : Run Unit := modify (·.log e)

/-- The value of a symbol. -/
def lookup (scope : ScopeId) (name : String) (span : Span) : Run Value := do
  match (← get).scopes.resolve? scope name with
  | some v => pure v
  | none => fail (.unbound name span)

def define (scope : ScopeId) (name : String) (v : Value) : Run Unit :=
  modify fun s => { s with scopes := s.scopes.define scope name v }

/-- A new scope that binds the given names. -/
def enter (outer caller : Option ScopeId) (pairs : List (String × Value)) : Run ScopeId := do
  let id := (← get).scopes.next
  modify fun s => { s with scopes := s.scopes.create ⟨outer, caller, .ofPairs pairs⟩ }
  return id

/-- A new closure, different from every other. -/
def makeClosure (name : String) (params : List String) (body : Node) (scope : ScopeId) :
    Run Closure := do
  let id := (← get).closures
  modify fun s => { s with closures := id + 1 }
  return ⟨id, name, params, body, scope⟩

/-- Writes to the sink, and fails if not everything fits. -/
def write (text : String) (span : Span) : Run Unit := do
  let bytes := Text.encode text
  let fits := (← get).sink.fits bytes.size
  modify fun s => { s with sink := s.sink.write bytes }
  if fits then return () else fail (.sinkFull span)

end Run

end SmallLisp
