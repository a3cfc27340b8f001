import SmallLisp.Primitive.Result
import SmallLisp.Proofs.Identity

/-! The equality of the language. It is symmetric and transitive, and what keeps a value
from being equal to itself is a NaN in it, at whatever depth. Two lists are equal if both
are empty, or if their first elements are equal and so is what is left of them. The list
primitives cannot tell equal arguments apart: they give equal results, or refuse both for
the same reason. -/

namespace SmallLisp

theorem Single.equals_self_iff {x : Single} : x.equals x ↔ x ≠ .nan := by
  cases x <;> simp [equals]

namespace Value

/-- A value is equal to itself unless a NaN stands at some place in it. -/
theorem equals_self_iff {v : Value} :
    v.equals v ↔ ∀ place, v.part? place ≠ some (.number .nan) := by
  constructor
  · intro h place hnan
    -- the NaN would have to be equal to what stands at its own place
    obtain ⟨y, hy, hequal⟩ := exists_part?_of_equals h hnan
    obtain rfl : number .nan = y := Option.some.inj (hnan.symm.trans hy)
    simp [equals, Single.equals] at hequal
  · intro h
    induction v using Value.induction with
    | string s => simp [equals]
    | boolean b => simp [equals]
    | function f => simp [equals, Function.equals]
    | number x =>
      refine Single.equals_self_iff.2 ?_
      rintro rfl
      exact h [] rfl
    | list vs ih =>
      refine equals_iff.2 (.list rfl fun i v w hv hw => ?_)
      obtain rfl : v = w := Option.some.inj (hv.symm.trans hw)
      refine ih v (List.mem_of_getElem? hv) fun place hnan => ?_
      exact h (i :: place) (part?_cons.2 ⟨vs, v, rfl, hv, hnan⟩)

/-! ### Lists -/

variable {v w : Value} {vs ws : List Value}

@[simp] theorem equals_list_nil_cons : (list []).equals (list (w :: ws)) = false := by
  simp [equals, equalsAll]

@[simp] theorem equals_list_cons_nil : (list (v :: vs)).equals (list []) = false := by
  simp [equals, equalsAll]

@[simp] theorem equals_list_cons :
    (list (v :: vs)).equals (list (w :: ws)) ↔ v.equals w ∧ (list vs).equals (list ws) := by
  simp [equals, equalsAll]

theorem equals_list_append {xs ys : List Value} (h : (list vs).equals (list ws))
    (k : (list xs).equals (list ys)) : (list (vs ++ xs)).equals (list (ws ++ ys)) := by
  simp only [equals, equalsAll_iff] at h k ⊢
  exact List.rel_append h k

end Value

namespace Primitive

variable {v w : Value} {vs ws : List Value}

/-- The first element and the rest of a list, as the primitives give them. -/
theorem car_cdr_eq_ok_iff {first rest : Value} :
    (car.result [.list vs] = .ok first ∧ cdr.result [.list vs] = .ok rest) ↔
      ∃ others, vs = first :: others ∧ rest = .list others := by
  cases vs with
  | nil => simp [result, splitList]
  | cons u us => simp [result, splitList, eq_comm]

theorem splitList_equals (p : Primitive) (h : v.equals w) :
    ResultRel Eq (fun x y => x.1.equals y.1 ∧ (Value.list x.2).equals (Value.list y.2))
      (splitList p v) (splitList p w) := by
  cases Value.equals_iff.1 h with
  | string s => exact .error rfl
  | number hxy => exact .error rfl
  | boolean b => exact .error rfl
  | function hname => exact .error rfl
  | @list vs ws hlen hitems =>
    match vs, ws with
    | [], [] => exact .error rfl
    | v :: vs, w :: ws => exact .ok (Value.equals_list_cons.1 h)

theorem car_equals (h : v.equals w) :
    ResultRel Eq (fun a b => a.equals b) (car.result [v]) (car.result [w]) :=
  (splitList_equals car h).map fun _ _ hp => hp.1

theorem cdr_equals (h : v.equals w) :
    ResultRel Eq (fun a b => a.equals b) (cdr.result [v]) (cdr.result [w]) :=
  (splitList_equals cdr h).map fun _ _ hp => hp.2

theorem cons_equals {x y : Value} (h : v.equals w) (k : x.equals y) :
    ResultRel Eq (fun a b => a.equals b) (cons.result [v, x]) (cons.result [w, y]) := by
  cases Value.equals_iff.1 h with
  | string s => exact .error rfl
  | number hxy => exact .error rfl
  | boolean b => exact .error rfl
  | function hname => exact .error rfl
  | list =>
    have hlast : (Value.list [x]).equals (Value.list [y]) :=
      Value.equals_list_cons.2 ⟨k, rfl⟩
    exact .ok (Value.equals_list_append h hlast)

end Primitive

/-- Equality is symmetric and transitive, and holds of a value and itself exactly if no NaN
stands in it; `eq` gives it and `neq` its negation, whatever the arguments are. Lists are
equal if both are empty, or both have a first element and a rest and these are equal. For
equal arguments `car`, `cdr` and `cons` give equal values or none. -/
theorem Value.equals_partial_equivalence :
    (∀ a b : Value, a.equals b = b.equals a) ∧
    (∀ a b c : Value, a.equals b → b.equals c → a.equals c) ∧
    (∀ a : Value, a.equals a ↔ ∀ place, a.part? place ≠ some (.number .nan)) ∧
    (∀ a b : Value, Primitive.eq.result [a, b] = .ok (.boolean (a.equals b)) ∧
      Primitive.neq.result [a, b] = .ok (.boolean !a.equals b)) ∧
    (∀ vs ws : List Value, (list vs).equals (list ws) ↔ vs = [] ∧ ws = [] ∨
      ∃ v v' w w', (Primitive.car.result [list vs] = .ok v ∧
          Primitive.cdr.result [list vs] = .ok v') ∧
        (Primitive.car.result [list ws] = .ok w ∧ Primitive.cdr.result [list ws] = .ok w') ∧
        v.equals w ∧ v'.equals w') ∧
    ∀ a b : Value, a.equals b →
      ResultRel Eq (fun v w => v.equals w) (Primitive.car.result [a]) (Primitive.car.result [b]) ∧
      ResultRel Eq (fun v w => v.equals w) (Primitive.cdr.result [a]) (Primitive.cdr.result [b]) ∧
      ∀ c d : Value, c.equals d → ResultRel Eq (fun v w => v.equals w)
        (Primitive.cons.result [a, c]) (Primitive.cons.result [b, d]) := by
  refine ⟨equals_comm, fun a b c => equals_trans, fun a => equals_self_iff,
    fun a b => ⟨rfl, rfl⟩, fun vs ws => ?_, fun a b h => ?_⟩
  · simp only [Primitive.car_cdr_eq_ok_iff]
    match vs, ws with
    | [], [] => simp [equals, equalsAll]
    | [], w :: ws => simp
    | v :: vs, [] => simp
    | v :: vs, w :: ws => simp
  · exact ⟨Primitive.car_equals h, Primitive.cdr_equals h, fun c d k => Primitive.cons_equals h k⟩

end SmallLisp
