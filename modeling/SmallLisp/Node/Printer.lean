import SmallLisp.Node
import SmallLisp.Single.Shortest
import SmallLisp.Text.Quoted

/-! The written form of a tree: one space between parts, a bracket round every
list and every form, parameter lists in square brackets. -/

namespace SmallLisp

/-- Texts with one space between them. -/
def spaced : List (List Char) → List Char := List.intercalate [' ']

def booleanChars (b : Bool) : List Char := (if b then "true" else "false").toList

namespace Node

mutual

def chars : Node → List Char
  | number x _ => x.chars
  | string s _ => Text.Quoted.encode s.toList
  | boolean b _ => booleanChars b
  | symbol name _ => name.toList
  | list items _ => '[' :: (spaced (charsAll items) ++ [']'])
  | call head args _ => '(' :: (spaced (head.chars :: charsAll args) ++ [')'])
  | letIn bindings body _ =>
    "(let (".toList ++ spaced (charsBindings bindings) ++ ") ".toList ++ body.chars ++ [')']
  | conditional test yes no _ =>
    "(if ".toList ++ spaced (test.chars :: yes.chars :: charsOptional no) ++ [')']
  | function name params body _ =>
    "(fun ".toList ++ name.toList ++ " [".toList ++ spaced (params.map String.toList) ++
      "] ".toList ++ body.chars ++ [')']

def charsAll : List Node → List (List Char)
  | [] => []
  | x :: xs => x.chars :: charsAll xs

def charsBindings : List (String × Node) → List (List Char)
  | [] => []
  | (name, x) :: bs =>
    ('(' :: (name.toList ++ ' ' :: (x.chars ++ [')']))) :: charsBindings bs

def charsOptional : Option Node → List (List Char)
  | none => []
  | some x => [x.chars]

end

theorem charsAll_eq_map (xs : List Node) : charsAll xs = xs.map chars := by
  induction xs with
  | nil => rfl
  | cons x xs ih => rw [charsAll, ih, List.map_cons]

theorem charsBindings_eq_map (bs : List (String × Node)) :
    charsBindings bs = bs.map fun b => '(' :: (b.1.toList ++ ' ' :: (b.2.chars ++ [')'])) := by
  induction bs with
  | nil => rfl
  | cons b bs ih => rw [charsBindings, ih, List.map_cons]

/-- The written form of a tree. -/
def text (x : Node) : String := String.ofList x.chars

/-- The written form of a program: its forms with one space between them. -/
def programText (forms : List Node) : String := String.ofList (spaced (forms.map chars))

end Node

end SmallLisp
