import Mathlib.Logic.Relation
import SmallLisp.Proofs.Runs

/-! The evaluations that an evaluation is made of. It starts others for the parts
of its tree, one after the other, and for the body of the closure that it calls;
each starts from the state in which those before it have ended. So the state is
known in which a run gets to any place of a program, however deep. -/

namespace SmallLisp

/-- The state in which a new scope has been entered. -/
def State.entered (s : State) (outer caller : Option ScopeId) (pairs : List (String × Value)) :
    State :=
  { s with scopes := s.scopes.create ⟨outer, caller, .ofPairs pairs⟩ }

/-- The state in which a let form has made its scope, and nothing is bound there yet. -/
def State.opened (s : State) (scope : ScopeId) (span : Span) : State :=
  (s.log (.specialForm .letForm span)).entered (some scope) none []

theorem Node.outcome_eval_letIn (fuel : Nat) (scope : ScopeId) (bindings : List (String × Node))
    (body : Node) (span : Span) (s : State) :
    (eval (fuel + 1) scope (.letIn bindings body span)).outcome s =
      (do
        Run.fill s.scopes.next (eval fuel scope) bindings
        eval fuel s.scopes.next body).outcome (s.opened scope span) := rfl

/-- One evaluation of a tree: in which scope, from which state, and how deep it may go. -/
structure Activation where
  fuel : Nat
  scope : ScopeId
  node : Node
  state : State

namespace Activation

open Node (eval evalHead)

/-- An evaluation starts another one, which it waits for. -/
inductive Starts : Activation → Activation → Prop
  | item {fuel : Nat} {scope : ScopeId} {before after : List Node} {x : Node} {span : Span}
    {s t : State} {vs : List Value}
    (hv : (before.mapM (eval fuel scope)).outcome s = some (.ok vs, t)) :
    Starts ⟨fuel + 1, scope, .list (before ++ x :: after) span, s⟩ ⟨fuel, scope, x, t⟩
  | head {fuel : Nat} {scope : ScopeId} {head : Node} {args : List Node} {span : Span} {s : State}
    (hp : head.primitive? = none) :
    Starts ⟨fuel + 1, scope, .call head args span, s⟩ ⟨fuel, scope, head, s⟩
  | argument {fuel : Nat} {scope : ScopeId} {head x : Node} {before after : List Node} {span : Span}
    {s t u : State} {f : Function} {vs : List Value}
    (hf : (evalHead fuel scope head).outcome s = some (.ok f, t))
    (hv : (before.mapM (eval fuel scope)).outcome t = some (.ok vs, u)) :
    Starts ⟨fuel + 1, scope, .call head (before ++ x :: after) span, s⟩ ⟨fuel, scope, x, u⟩
  | closure {fuel : Nat} {scope : ScopeId} {head : Node} {args : List Node} {span : Span}
    {s t u : State} {c : Closure} {vs : List Value}
    (hf : (evalHead fuel scope head).outcome s = some (.ok (.closure c), t))
    (hv : (args.mapM (eval fuel scope)).outcome t = some (.ok vs, u))
    (hl : vs.length = c.params.length) :
    Starts ⟨fuel + 1, scope, .call head args span, s⟩
      ⟨fuel, u.scopes.next, c.body,
        (u.log (.call c.name vs.length)).entered (some c.scope) (some scope) (c.params.zip vs)⟩
  | value {fuel : Nat} {scope : ScopeId} {before after : List (String × Node)} {b : String × Node}
    {body : Node} {span : Span} {s t : State}
    (hv : (Run.fill s.scopes.next (eval fuel scope) before).outcome (s.opened scope span) =
      some (.ok (), t)) :
    Starts ⟨fuel + 1, scope, .letIn (before ++ b :: after) body span, s⟩ ⟨fuel, scope, b.2, t⟩
  | body {fuel : Nat} {scope : ScopeId} {bindings : List (String × Node)} {body : Node}
    {span : Span} {s t : State}
    (hv : (Run.fill s.scopes.next (eval fuel scope) bindings).outcome (s.opened scope span) =
      some (.ok (), t)) :
    Starts ⟨fuel + 1, scope, .letIn bindings body span, s⟩ ⟨fuel, s.scopes.next, body, t⟩
  | test {fuel : Nat} {scope : ScopeId} {test yes : Node} {no : Option Node} {span : Span}
    {s : State} :
    Starts ⟨fuel + 1, scope, .conditional test yes no span, s⟩
      ⟨fuel, scope, test, s.log (.specialForm .ifForm span)⟩
  | yes {fuel : Nat} {scope : ScopeId} {test yes : Node} {no : Option Node} {span : Span}
    {s t : State}
    (ht : (eval fuel scope test).outcome (s.log (.specialForm .ifForm span)) =
      some (.ok (.boolean true), t)) :
    Starts ⟨fuel + 1, scope, .conditional test yes no span, s⟩ ⟨fuel, scope, yes, t⟩
  | no {fuel : Nat} {scope : ScopeId} {test yes no : Node} {span : Span} {s t : State}
    (ht : (eval fuel scope test).outcome (s.log (.specialForm .ifForm span)) =
      some (.ok (.boolean false), t)) :
    Starts ⟨fuel + 1, scope, .conditional test yes (some no) span, s⟩ ⟨fuel, scope, no, t⟩

end Activation

end SmallLisp
