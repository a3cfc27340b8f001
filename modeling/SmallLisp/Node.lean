import SmallLisp.Span
import SmallLisp.Single.Basic

/-! Syntax trees. Every node carries the span of source it was read from; the
equality of trees ignores spans and compares numbers as numbers. -/

namespace SmallLisp

/-- A piece of program. A special form is a node of its own, so keywords never
stand in a tree as symbols. A conditional may lack its second branch, although
the grammar always asks for it. -/
inductive Node where
  | number (value : Single) (span : Span)
  | string (value : String) (span : Span)
  | boolean (value : Bool) (span : Span)
  | symbol (name : String) (span : Span)
  | list (items : List Node) (span : Span)
  | call (head : Node) (args : List Node) (span : Span)
  | letIn (bindings : List (String × Node)) (body : Node) (span : Span)
  | conditional (test yes : Node) (no : Option Node) (span : Span)
  | function (name : String) (params : List String) (body : Node) (span : Span)

namespace Node

def span : Node → Span
  | number _ s | string _ s | boolean _ s | symbol _ s | list _ s | call _ _ s
  | letIn _ _ s | conditional _ _ _ s | function _ _ _ s => s

def symbol? : Node → Option String
  | symbol name _ => some name
  | _ => none

def typeName : Node → String
  | number .. => "number"
  | string .. => "string"
  | boolean .. => "boolean"
  | symbol .. => "symbol"
  | list .. => "list"
  | call .. | letIn .. | conditional .. | function .. => "expression"

mutual

/-- Equality of trees, whatever their spans. -/
def same : Node → Node → Bool
  | number x _, number y _ => x.equals y
  | string s _, string t _ => s == t
  | boolean a _, boolean b _ => a == b
  | symbol x _, symbol y _ => x == y
  | list xs _, list ys _ => sameAll xs ys
  | call f xs _, call g ys _ => same f g && sameAll xs ys
  | letIn bs x _, letIn cs y _ => sameBindings bs cs && same x y
  | conditional p x e _, conditional q y f _ => same p q && same x y && sameOptional e f
  | function f ps x _, function g qs y _ => f == g && ps == qs && same x y
  | _, _ => false

/-- Equality of trees one by one, in lists of equal length. -/
def sameAll : List Node → List Node → Bool
  | [], [] => true
  | x :: xs, y :: ys => same x y && sameAll xs ys
  | _, _ => false

/-- Equality of bindings: equal names, and equal trees. -/
def sameBindings : List (String × Node) → List (String × Node) → Bool
  | [], [] => true
  | (m, x) :: bs, (n, y) :: cs => m == n && same x y && sameBindings bs cs
  | _, _ => false

/-- Equality of trees that may both be missing. -/
def sameOptional : Option Node → Option Node → Bool
  | none, none => true
  | some x, some y => same x y
  | _, _ => false

end

end Node

end SmallLisp
