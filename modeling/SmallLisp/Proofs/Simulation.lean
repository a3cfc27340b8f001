import Mathlib.Data.List.Forall2
import SmallLisp.Proofs.Runs

/-! Runs that do the same on states that are related: whenever the first of them
ends so does the second, both in success or both in failure, with results and
states that are related again. A sequence of runs simulates another as soon as
its parts do. -/

namespace SmallLisp

/-- Two results of which both are values, related by `V`, or both errors,
related by `E`. -/
inductive ResultRel {ε ε' α β : Type} (E : ε → ε' → Prop) (V : α → β → Prop) :
    Except ε α → Except ε' β → Prop
  | ok {a : α} {b : β} (h : V a b) : ResultRel E V (.ok a) (.ok b)
  | error {e : ε} {f : ε'} (h : E e f) : ResultRel E V (.error e) (.error f)

namespace ResultRel

variable {ε ε' α β γ δ : Type} {E : ε → ε' → Prop} {V : α → β → Prop} {W : γ → δ → Prop}

theorem map {x : Except ε α} {y : Except ε' β} (h : ResultRel E V x y) {f : α → γ} {g : β → δ}
    (hf : ∀ a b, V a b → W (f a) (g b)) : ResultRel E W (f <$> x) (g <$> y) := by
  cases h with
  | ok h => exact .ok (hf _ _ h)
  | error h => exact .error h

theorem bind {x : Except ε α} {y : Except ε' β} (h : ResultRel E V x y) {f : α → Except ε γ}
    {g : β → Except ε' δ} (hf : ∀ a b, x = .ok a → V a b → ResultRel E W (f a) (g b)) :
    ResultRel E W (x >>= f) (y >>= g) := by
  cases h with
  | ok h => exact hf _ _ rfl h
  | error h => exact .error h

theorem imp {E' : ε → ε' → Prop} {V' : α → β → Prop} {x : Except ε α} {y : Except ε' β}
    (h : ResultRel E V x y) (he : ∀ e f, E e f → E' e f) (hv : ∀ a b, V a b → V' a b) :
    ResultRel E' V' x y := by
  cases h with
  | ok h => exact .ok (hv _ _ h)
  | error h => exact .error (he _ _ h)

theorem symm {E' : ε' → ε → Prop} {V' : β → α → Prop} {x : Except ε α} {y : Except ε' β}
    (h : ResultRel E V x y) (he : ∀ e f, E e f → E' f e) (hv : ∀ a b, V a b → V' b a) :
    ResultRel E' V' y x := by
  cases h with
  | ok h => exact .ok (hv _ _ h)
  | error h => exact .error (he _ _ h)

theorem trans {ε'' : Type} {F : ε' → ε'' → Prop} {G : ε → ε'' → Prop} {W : β → γ → Prop}
    {U : α → γ → Prop} {x : Except ε α} {y : Except ε' β} {z : Except ε'' γ}
    (h : ResultRel E V x y) (k : ResultRel F W y z) (he : ∀ d e f, E d e → F e f → G d f)
    (hv : ∀ a b c, V a b → W b c → U a c) : ResultRel G U x z := by
  cases h with
  | ok h =>
    cases k with
    | ok k => exact .ok (hv _ _ _ h k)
  | error h =>
    cases k with
    | error k => exact .error (he _ _ _ h k)

theorem refl {E : ε → ε → Prop} {V : α → α → Prop} (he : ∀ e, E e e) (hv : ∀ a, V a a)
    (x : Except ε α) : ResultRel E V x x := by
  cases x with
  | ok a => exact .ok (hv a)
  | error e => exact .error (he e)

theorem eq {x y : Except ε α} (h : ResultRel Eq Eq x y) : x = y := by
  cases h with
  | ok h => exact congrArg Except.ok h
  | error h => exact congrArg Except.error h

end ResultRel

namespace Run

variable {α β γ δ : Type}

/-- Whenever `x` ends, so does `y` from a related state, and in the same way. -/
def Simulates (Q : State → State → Prop) (E : EvalError → EvalError → Prop) (V : α → β → Prop)
    (x : Run α) (y : Run β) : Prop :=
  ∀ s t, Q s t → ∀ r s', x.outcome s = some (r, s') →
    ∃ q t', y.outcome t = some (q, t') ∧ ResultRel E V r q ∧ Q s' t'

namespace Simulates

variable {Q : State → State → Prop} {E : EvalError → EvalError → Prop} {V : α → β → Prop}
  {W : γ → δ → Prop}

/-- Operations that always end, with outcomes that are known. -/
theorem of_outcome {x : Run α} {y : Run β} {f : State → Except EvalError α × State}
    {g : State → Except EvalError β × State} (hx : ∀ s, x.outcome s = some (f s))
    (hy : ∀ t, y.outcome t = some (g t))
    (h : ∀ s t, Q s t → ResultRel E V (f s).1 (g t).1 ∧ Q (f s).2 (g t).2) :
    Simulates Q E V x y := by
  intro s t hq r s' hr
  rw [hx] at hr
  have hf : f s = (r, s') := Option.some.inj hr
  have hrel := h s t hq
  rw [hf] at hrel
  exact ⟨(g t).1, (g t).2, hy t, hrel.1, hrel.2⟩

theorem pure {a : α} {b : β} (h : V a b) : Simulates Q E V (pure a) (pure b) :=
  of_outcome (outcome_pure a) (outcome_pure b) fun _ _ hq => ⟨.ok h, hq⟩

theorem fail {e f : EvalError} (h : E e f) :
    Simulates Q E V (fail e : Run α) (fail f : Run β) :=
  of_outcome (outcome_fail e) (outcome_fail f) fun _ _ hq => ⟨.error h, hq⟩

theorem outOfFuel (y : Run β) : Simulates Q E V (outOfFuel : Run α) y := by
  intro s t hq r s' hr
  cases hr

theorem bind {x : Run α} {y : Run β} {f : α → Run γ} {g : β → Run δ} (hx : Simulates Q E V x y)
    (hf : ∀ a b, V a b → Simulates Q E W (f a) (g b)) :
    Simulates Q E W (x >>= f) (y >>= g) := by
  intro s t hq r u hr
  rcases outcome_bind_eq_some hr with ⟨e, he, rfl⟩ | ⟨a, s', ha, hu⟩
  · obtain ⟨q, t', hy, hrel, hq'⟩ := hx s t hq _ u he
    cases hrel with
    | error h => exact ⟨.error _, t', by rw [outcome_bind, hy], .error h, hq'⟩
  · obtain ⟨q, t', hy, hrel, hq'⟩ := hx s t hq _ s' ha
    cases hrel with
    | ok h =>
      obtain ⟨p, u', hg, hrel, hu'⟩ := hf a _ h s' t' hq' r u hu
      exact ⟨p, u', by rw [outcome_bind, hy]; exact hg, hrel, hu'⟩

theorem mapM {f : α → Run γ} {g : β → Run δ} {as : List α} {bs : List β}
    (hab : List.Forall₂ V as bs) (h : ∀ a b, V a b → Simulates Q E W (f a) (g b)) :
    Simulates Q E (List.Forall₂ W) (as.mapM f) (bs.mapM g) := by
  induction hab with
  | nil => exact pure .nil
  | cons hv _ ih =>
    rw [List.mapM_cons, List.mapM_cons]
    refine bind (h _ _ hv) fun c d hcd => ?_
    refine bind ih fun cs ds hcds => ?_
    exact pure (.cons hcd hcds)

theorem imp {E' : EvalError → EvalError → Prop} {V' : α → β → Prop} {x : Run α} {y : Run β}
    (h : Simulates Q E V x y) (he : ∀ e f, E e f → E' e f) (hv : ∀ a b, V a b → V' a b) :
    Simulates Q E' V' x y := by
  intro s t hq r s' hr
  obtain ⟨q, t', hy, hrel, hq'⟩ := h s t hq r s' hr
  exact ⟨q, t', hy, hrel.imp he hv, hq'⟩

/-- A run beside itself. -/
theorem self {Q : State → State → Prop} {V : α → α → Prop} {x : Run α} (h : Simulates Q E V x x)
    {s t : State} (hq : Q s s) {r : Except EvalError α} (ho : x.outcome s = some (r, t)) :
    ResultRel E V r r ∧ Q t t := by
  obtain ⟨q, u, hu, hrel, hq'⟩ := h s s hq r t ho
  cases ho.symm.trans hu
  exact ⟨hrel, hq'⟩

section Log

variable {x : Run α} {y : Run β} {e : Event}

theorem log_left (h : Simulates Q E V x y) (hQ : ∀ s t, Q s t → Q (s.log e) t) :
    Simulates Q E V (do log e; x) y := by
  intro s t hq r s' hr
  rw [outcome_bind, outcome_log] at hr
  exact h (s.log e) t (hQ s t hq) r s' hr

theorem log_right (h : Simulates Q E V x y) (hQ : ∀ s t, Q s t → Q s (t.log e)) :
    Simulates Q E V x (do log e; y) := by
  intro s t hq r s' hr
  rw [outcome_bind, outcome_log]
  exact h s (t.log e) (hQ s t hq) r s' hr

end Log

end Simulates

end Run

end SmallLisp
