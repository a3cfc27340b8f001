import SmallLisp.Program
import SmallLisp.Proofs.Simulation

/-! Evaluations of whole programs that end. A program that parses ends as the list
of its forms does: with the first error, or else with the value of the last form,
of which there is one unless the program is empty. -/

namespace SmallLisp

/-- The evaluation of the text ends, with this result and in this state. -/
def Evaluates (scope : ScopeId) (source : String) (s : State) (r : Except Error Value)
    (t : State) : Prop :=
  ∃ fuel, evaluate fuel scope source s = some (r, t)

/-- The result of a program whose forms had these values. -/
def finalResult : Except EvalError (List Value) → Except Error Value
  | .error e => .error (.eval e)
  | .ok values => lastValue values

theorem getLast?_of_lastValue {vs : List Value} {v : Value} (h : lastValue vs = .ok v) :
    vs.getLast? = some v := by
  unfold lastValue at h
  split at h
  · next hlast => rw [hlast, Except.ok.inj h]
  · cases h

theorem evaluateForms_eq (fuel : Nat) (scope : ScopeId) (xs : List Node) (s : State) :
    evaluateForms fuel scope xs s =
      ((Node.evalAll fuel scope xs).outcome s).map fun p => (finalResult p.1, p.2) := by
  rw [evaluateForms]
  congr 1
  funext ⟨q, t⟩
  cases q <;> rfl

theorem evaluate_of_parse {source : String} {xs : List Node} (h : parseText source = .ok xs)
    (fuel : Nat) (scope : ScopeId) (s : State) :
    evaluate fuel scope source s =
      ((Node.evalAll fuel scope xs).outcome (s.log (.program xs.length))).map
        fun p => (finalResult p.1, p.2) := by
  rw [evaluate, h]
  exact evaluateForms_eq ..

theorem evaluates_iff {source : String} {xs : List Node} (h : parseText source = .ok xs)
    {scope : ScopeId} {s t : State} {r : Except Error Value} :
    Evaluates scope source s r t ↔ ∃ fuel q,
      (Node.evalAll fuel scope xs).outcome (s.log (.program xs.length)) = some (q, t) ∧
        finalResult q = r := by
  refine exists_congr fun fuel => ?_
  simp only [evaluate_of_parse h, Option.map_eq_some_iff, Prod.exists, Prod.mk.injEq]
  constructor
  · rintro ⟨q, t, ho, hr, rfl⟩
    exact ⟨q, ho, hr⟩
  · rintro ⟨q, ho, hr⟩
    exact ⟨q, t, ho, hr, rfl⟩

/-- A program that succeeds has the value of its last form. -/
theorem exists_values_of_evaluate {source : String} {xs : List Node}
    (h : parseText source = .ok xs) {fuel : Nat} {scope : ScopeId} {s t : State} {v : Value}
    (he : evaluate fuel scope source s = some (.ok v, t)) :
    ∃ values, (Node.evalAll fuel scope xs).outcome (s.log (.program xs.length)) =
      some (.ok values, t) ∧ values.getLast? = some v := by
  rw [evaluate_of_parse h, Option.map_eq_some_iff] at he
  obtain ⟨⟨q, u⟩, ho, heq⟩ := he
  obtain ⟨hq, rfl⟩ := Prod.mk.inj heq
  cases q with
  | error e => cases hq
  | ok values => exact ⟨values, ho, getLast?_of_lastValue hq⟩

/-- There are as many values as forms. -/
theorem Node.length_of_evalAll {fuel : Nat} {scope : ScopeId} {xs : List Node} {s t : State}
    {vs : List Value} (h : (evalAll fuel scope xs).outcome s = some (.ok vs, t)) :
    vs.length = xs.length :=
  Run.length_of_mapM h

/-- Forms that end have failed, or the last of them has a value. -/
theorem finalResult_of_evalAll {q : Except EvalError (List Value)} {xs : List Node} {fuel : Nat}
    {scope : ScopeId} {s t : State} (h : (Node.evalAll fuel scope xs).outcome s = some (q, t))
    (hne : xs ≠ []) :
    (∃ e, q = .error e) ∨ ∃ vs v, q = .ok vs ∧ vs.getLast? = some v ∧ finalResult q = .ok v := by
  cases q with
  | error e => exact .inl ⟨e, rfl⟩
  | ok vs =>
    have hl := Node.length_of_evalAll h
    have hvs : vs ≠ [] := by
      rintro rfl
      exact hne (List.eq_nil_of_length_eq_zero hl.symm)
    have hlast := List.getLast?_eq_some_getLast hvs
    refine .inr ⟨vs, vs.getLast hvs, rfl, hlast, ?_⟩
    rw [finalResult, lastValue, hlast]

theorem getLast?_rel {α β : Type} {R : α → β → Prop} {as : List α} {bs : List β}
    (h : List.Forall₂ R as bs) : Option.Rel R as.getLast? bs.getLast? := by
  induction h with
  | nil => exact .none
  | cons h hs ih =>
    cases hs with
    | nil => exact .some h
    | cons =>
      rw [List.getLast?_cons_cons, List.getLast?_cons_cons]
      exact ih

/-- Programs have related results if their forms do. -/
theorem finalResult_rel {E : EvalError → EvalError → Prop} {V : Value → Value → Prop}
    {F : Error → Error → Prop} {q q' : Except EvalError (List Value)}
    (h : ResultRel E (List.Forall₂ V) q q') (hE : ∀ e f, E e f → F (.eval e) (.eval f))
    (hF : ∀ e, F e e) : ResultRel F V (finalResult q) (finalResult q') := by
  cases h with
  | error h => exact .error (hE _ _ h)
  | @ok vs ws h =>
    have hlast := getLast?_rel h
    rw [finalResult, finalResult, lastValue, lastValue]
    generalize vs.getLast? = v at hlast ⊢
    generalize ws.getLast? = w at hlast ⊢
    cases hlast with
    | none => exact .error (hF _)
    | some hv => exact .ok hv

end SmallLisp
