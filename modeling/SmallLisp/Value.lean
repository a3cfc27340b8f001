import SmallLisp.Node.Printer
import SmallLisp.Primitive
import SmallLisp.Text.Lowercase

/-! What evaluation produces. Functions are compared by name, whatever they do;
a stricter comparison tells closures apart by their identity. -/

namespace SmallLisp

/-- The number of a scope, in order of creation. -/
abbrev ScopeId := Nat

/-- A function defined by a program. No two closures of a run have the same
`id`; `scope` is where the definition was evaluated. -/
structure Closure where
  id : Nat
  name : String
  params : List String
  body : Node
  scope : ScopeId

inductive Function where
  | primitive (primitive : Primitive)
  | closure (closure : Closure)

namespace Function

/-- The name as it was written in the definition. -/
def name : Function → String
  | primitive p => p.name
  | closure c => c.name

def chars : Function → List Char
  | primitive p => ("(fun " ++ p.name ++ " <primitive>)").toList
  | closure c => (Node.function c.name c.params c.body ⟨0, 0⟩).chars

/-- A short form for inspection: what kind of function, its name, and the number
of parameters of a closure. -/
def describe : Function → String
  | primitive p => "Primitive(" ++ p.name ++ ")"
  | closure c => "Closure(" ++ c.name ++ "/" ++ toString c.params.length ++ ")"

/-- Functions are equal if their names are, up to case. -/
def equals (f g : Function) : Bool := Text.lowercase f.name == Text.lowercase g.name

end Function

inductive ValueType where
  | string | number | boolean | function | list
  deriving DecidableEq

def ValueType.name : ValueType → String
  | string => "string"
  | number => "number"
  | boolean => "boolean"
  | function => "function"
  | list => "list"

inductive Value where
  | string (value : String)
  | number (value : Single)
  | boolean (value : Bool)
  | function (value : Function)
  | list (items : List Value)

namespace Value

def type : Value → ValueType
  | string _ => .string
  | number _ => .number
  | boolean _ => .boolean
  | function _ => .function
  | list _ => .list

def typeName (v : Value) : String := v.type.name

def string? : Value → Option String
  | string s => some s
  | _ => none

def number? : Value → Option Single
  | number x => some x
  | _ => none

def boolean? : Value → Option Bool
  | boolean b => some b
  | _ => none

mutual

/-- The equality of the language. -/
def equals : Value → Value → Bool
  | string s, string t => s == t
  | number x, number y => x.equals y
  | boolean a, boolean b => a == b
  | function f, function g => f.equals g
  | list xs, list ys => equalsAll xs ys
  | _, _ => false

def equalsAll : List Value → List Value → Bool
  | [], [] => true
  | x :: xs, y :: ys => equals x y && equalsAll xs ys
  | _, _ => false

end

mutual

/-- Equality that takes two closures for the same only if they come from one
evaluation of one definition. -/
def identical : Value → Value → Bool
  | function (.closure c), function (.closure d) => c.id == d.id
  | list xs, list ys => identicalAll xs ys
  | v, w => v.equals w

def identicalAll : List Value → List Value → Bool
  | [], [] => true
  | x :: xs, y :: ys => identical x y && identicalAll xs ys
  | _, _ => false

end

mutual

/-- The written form of a value. -/
def chars : Value → List Char
  | string s => Text.Quoted.encode s.toList
  | number x => x.chars
  | boolean b => booleanChars b
  | function f => f.chars
  | list items => '[' :: (spaced (charsAll items) ++ [']'])

def charsAll : List Value → List (List Char)
  | [] => []
  | v :: vs => v.chars :: charsAll vs

end

theorem charsAll_eq_map (vs : List Value) : charsAll vs = vs.map chars := by
  induction vs with
  | nil => rfl
  | cons v vs ih => rw [charsAll, ih, List.map_cons]

def text (v : Value) : String := String.ofList v.chars

end Value

end SmallLisp
