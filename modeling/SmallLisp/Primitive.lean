/-! The names of the built-in procedures. -/

namespace SmallLisp

inductive Primitive where
  | add | sub | mul | div
  | and | or | not
  | eq | neq
  | car | cdr | cons
  | print
  deriving DecidableEq

namespace Primitive

/-- All primitives, in the order in which they are listed. -/
def all : List Primitive := [add, sub, mul, div, and, or, not, eq, neq, car, cdr, cons, print]

def name : Primitive → String
  | add => "+"
  | sub => "-"
  | mul => "*"
  | div => "/"
  | and => "and"
  | or => "or"
  | not => "not"
  | eq => "eq"
  | neq => "neq"
  | car => "car"
  | cdr => "cdr"
  | cons => "cons"
  | print => "print"

/-- The primitive of a lowercase name. -/
def ofName? (name : String) : Option Primitive := all.find? (·.name == name)

theorem mem_all (p : Primitive) : p ∈ all := by cases p <;> decide

theorem ofName?_name (p : Primitive) : ofName? p.name = some p := by cases p <;> decide

end Primitive

end SmallLisp
