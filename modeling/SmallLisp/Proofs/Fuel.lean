import SmallLisp.Proofs.Runs

/-! How deep an evaluation may go makes no difference to one that ends: it ends the
same if it may go deeper. So the end of an evaluation can be spoken of without its
fuel, and there is at most one. -/

namespace SmallLisp

namespace Run

variable {α β : Type}

/-- Whatever outcome the first run has, the second has it too. -/
def Refines (x y : Run α) : Prop := ∀ s p, x.outcome s = some p → y.outcome s = some p

namespace Refines

theorem refl (x : Run α) : Refines x x := fun _ _ h => h

theorem outOfFuel (y : Run α) : Refines Run.outOfFuel y := fun _ _ h => nomatch h

theorem bind {x y : Run α} {f g : α → Run β} (hx : Refines x y) (hf : ∀ a, Refines (f a) (g a)) :
    Refines (x >>= f) (y >>= g) := by
  rintro s ⟨r, u⟩ h
  rcases outcome_bind_eq_some h with ⟨e, he, rfl⟩ | ⟨a, t, ha, hu⟩
  · rw [outcome_bind, hx s _ he]
  · rw [outcome_bind, hx s _ ha]
    exact hf a t _ hu

theorem mapM {f g : α → Run β} (h : ∀ a, Refines (f a) (g a)) (as : List α) :
    Refines (as.mapM f) (as.mapM g) := by
  induction as with
  | nil => exact refl _
  | cons a as ih =>
    rw [List.mapM_cons, List.mapM_cons]
    exact bind (h a) fun b => bind ih fun bs => refl _

theorem fill {value value' : α → Run Value} (h : ∀ a, Refines (value a) (value' a))
    (frame : ScopeId) (bs : List (String × α)) :
    Refines (fill frame value bs) (fill frame value' bs) := by
  induction bs with
  | nil => exact refl _
  | cons b bs ih => exact bind (h b.2) fun v => bind (refl _) fun _ => ih

end Refines

end Run

open Run (Refines)

theorem Function.refines_applyWith {body body' : ScopeId → Node → Run Value}
    (h : ∀ frame x, Refines (body frame x) (body' frame x)) (f : Function) (args : List Value)
    (span : Span) (site : ScopeId) :
    Refines (f.applyWith body args span site) (f.applyWith body' args span site) := by
  cases f with
  | primitive p => exact .refl _
  | closure c =>
    simp only [Function.applyWith]
    split
    · exact .bind (.refl _) fun _ => .bind (.refl _) fun frame => h frame c.body
    · exact .refl _

namespace Node

/-- An evaluation that ends does the same with more fuel. -/
theorem eval_refines {fuel fuel' : Nat} (hle : fuel ≤ fuel') (scope : ScopeId) (x : Node) :
    Refines (x.eval fuel scope) (x.eval fuel' scope) := by
  induction fuel generalizing fuel' scope x with
  | zero => exact .outOfFuel _
  | succ fuel ih =>
    cases fuel' with
    | zero => exact absurd hle (Nat.not_succ_le_zero fuel)
    | succ fuel' =>
      have ih (scope : ScopeId) (x : Node) : Refines (x.eval fuel scope) (x.eval fuel' scope) :=
        ih (Nat.le_of_succ_le_succ hle) scope x
      cases x with
      | number | string | boolean | symbol | function => exact .refl _
      | list items span => exact .bind (.mapM (ih scope) items) fun _ => .refl _
      | call head args span =>
        have hhead : Refines (evalHead fuel scope head) (evalHead fuel' scope head) := by
          unfold evalHead
          split
          · exact .refl _
          · exact .bind (ih scope head) fun _ => .refl _
        rw [eval_call, eval_call]
        exact .bind hhead fun f => .bind (.mapM (ih scope) args) fun vs =>
          Function.refines_applyWith ih f vs span scope
      | letIn bindings body span =>
        exact .bind (.refl _) fun _ => .bind (.refl _) fun frame =>
          .bind (.fill (ih scope) frame bindings) fun _ => ih frame body
      | conditional test yes no span =>
        rw [eval_conditional, eval_conditional]
        refine .bind (.refl _) fun _ => .bind (ih scope test) fun v => ?_
        match v, no with
        | .boolean true, _ => exact ih scope yes
        | .boolean false, some no => exact ih scope no
        | .boolean false, none => exact .refl _
        | .number _, _ | .string _, _ | .function _, _ | .list _, _ => exact .refl _

/-- The evaluation of the tree ends, with this result and in this state. -/
def Ends (x : Node) (scope : ScopeId) (s : State) (r : Except EvalError Value) (t : State) : Prop :=
  ∃ fuel, (x.eval fuel scope).outcome s = some (r, t)

variable {x : Node} {scope : ScopeId} {s t u : State} {r q : Except EvalError Value}

/-- An evaluation has one end. -/
theorem Ends.unique (h : x.Ends scope s r t) (k : x.Ends scope s q u) : r = q ∧ t = u := by
  obtain ⟨fuel, h⟩ := h
  obtain ⟨fuel', k⟩ := k
  have h' := eval_refines (Nat.le_max_left fuel fuel') scope x s _ h
  have k' := eval_refines (Nat.le_max_right fuel fuel') scope x s _ k
  cases h'.symm.trans k'
  exact ⟨rfl, rfl⟩

end Node

end SmallLisp
