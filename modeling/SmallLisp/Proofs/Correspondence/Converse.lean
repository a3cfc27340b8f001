import SmallLisp.Proofs.Correspondence
import SmallLisp.Proofs.Correspondence.Scopes

/-! Correspondences from the other side. What stands for each other does so in both
directions, so with the same fuel either both evaluations end or neither does. -/

namespace SmallLisp

theorem Node.Layer.flip {L : Likeness} {T : Node → Node → Prop} {x y : Node} (h : x.Layer L T y) :
    y.Layer L.flip (fun a b => T b a) x := by
  cases h with
  | number x hs => exact .number x hs
  | string s hs => exact .string s hs
  | boolean b hs => exact .boolean b hs
  | symbol hn hs => exact .symbol hn hs
  | list hx hs => exact .list hx.flip hs
  | call hp hf hx hs => exact .call hp.symm (fun h => hf (hp.trans h)) hx.flip hs
  | letIn hn hv hx hs => exact .letIn (List.Forall₂.flip (R := L.flip.name) hn) hv.flip hx hs
  | conditional ht hx hn hs => exact .conditional ht hx (optionRel_symm hn fun _ _ h => h) hs
  | function hn hs => exact .function hn hs

/-- The same correspondence, seen from the other side. -/
def Correspondence.flip (C : Correspondence) : Correspondence where
  toLikeness := C.toLikeness.flip
  tree x y := C.tree y x
  scope i j := C.scope j i
  closure c d := C.closure d c
  state s t := C.state t s
  layer h := (C.layer h).flip
  closure_name h := C.closure_name h
  closure_params h := List.Forall₂.flip (R := C.toLikeness.flip.name) (C.closure_params h)
  closure_body h := C.closure_body h
  closure_scope h := C.closure_scope h
  resolve? hs hi hx := optionRel_symm (C.resolve? hs hi hx) fun _ _ h => h.symm fun _ _ h => h
  close hs hi hx := C.close hs hi hx
  define hs hi hn hv := C.define hs hi hn (hv.symm fun _ _ h => h)
  enter hs ho hc hn hv := C.enter hs (optionRel_symm ho fun _ _ h => h)
    (optionRel_symm hc fun _ _ h => h) hn.flip (forall₂_symm_of_mem hv fun _ _ _ h =>
      h.symm fun _ _ h => h)
  log d e h := C.log e d h
  sink_eq h := (C.sink_eq h).symm
  write k h := C.write k h

namespace Run

variable {α β γ δ : Type}

/-- Two runs are both out of fuel, or both end, and in the same way: `V` relates their
values and last states, or `E` their errors and last states. -/
inductive Together (E : EvalError → State → EvalError → State → Prop)
    (V : α → State → β → State → Prop) :
    Option (Except EvalError α × State) → Option (Except EvalError β × State) → Prop
  | outOfFuel : Together E V none none
  | error {e f : EvalError} {s t : State} (h : E e s f t) :
    Together E V (some (.error e, s)) (some (.error f, t))
  | ok {a : α} {b : β} {s t : State} (h : V a s b t) :
    Together E V (some (.ok a, s)) (some (.ok b, t))

namespace Together

variable {E E' : EvalError → State → EvalError → State → Prop}
  {V V' : α → State → β → State → Prop} {W : γ → State → δ → State → Prop} {x : Run α}
  {y : Run β} {s t : State}

theorem bind (h : Together E V (x.outcome s) (y.outcome t))
    (he : ∀ e s' f t', E e s' f t' → E' e s' f t') {f : α → Run γ} {g : β → Run δ}
    (hf : ∀ a s' b t', x.outcome s = some (.ok a, s') → y.outcome t = some (.ok b, t') →
      V a s' b t' → Together E' W ((f a).outcome s') ((g b).outcome t')) :
    Together E' W ((x >>= f).outcome s) ((y >>= g).outcome t) := by
  rw [outcome_bind, outcome_bind]
  generalize hx : x.outcome s = p at h
  generalize hy : y.outcome t = q at h
  cases h with
  | outOfFuel => exact .outOfFuel
  | error h => exact .error (he _ _ _ _ h)
  | ok h => exact hf _ _ _ _ hx hy h

theorem imp (h : Together E V (x.outcome s) (y.outcome t))
    (he : ∀ e s' f t', E e s' f t' → E' e s' f t') (hv : ∀ a s' b t', V a s' b t' → V' a s' b t') :
    Together E' V' (x.outcome s) (y.outcome t) := by
  generalize x.outcome s = p at h ⊢
  generalize y.outcome t = q at h ⊢
  cases h with
  | outOfFuel => exact .outOfFuel
  | error h => exact .error (he _ _ _ _ h)
  | ok h => exact .ok (hv _ _ _ _ h)

theorem of_ok {p : Option (Except EvalError α × State)} {q : Option (Except EvalError β × State)}
    {a : α} (h : Together E V p q) (hp : p = some (.ok a, s)) :
    ∃ b t, q = some (.ok b, t) ∧ V a s b t := by
  subst hp
  cases h with
  | ok h => exact ⟨_, _, rfl, h⟩

section Rel

variable {R : Except EvalError γ × State → Except EvalError δ × State → Prop}

theorem rel {p : Option (Except EvalError γ × State)} {q : Option (Except EvalError δ × State)}
    {E : EvalError → State → EvalError → State → Prop} (h : Together E W p q)
    (he : ∀ e s f t, E e s f t → R (.error e, s) (.error f, t))
    (hw : ∀ c s d t, W c s d t → R (.ok c, s) (.ok d, t)) : Option.Rel R p q := by
  cases h with
  | outOfFuel => exact .none
  | error h => exact .some (he _ _ _ _ h)
  | ok h => exact .some (hw _ _ _ _ h)

theorem bind_rel (h : Together E V (x.outcome s) (y.outcome t))
    (he : ∀ e s' f t', E e s' f t' → R (.error e, s') (.error f, t'))
    {f : α → Run γ} {g : β → Run δ}
    (hf : ∀ a s' b t', V a s' b t' → Option.Rel R ((f a).outcome s') ((g b).outcome t')) :
    Option.Rel R ((x >>= f).outcome s) ((y >>= g).outcome t) := by
  rw [outcome_bind, outcome_bind]
  generalize x.outcome s = p at h
  generalize y.outcome t = q at h
  cases h with
  | outOfFuel => exact .none
  | error h => exact .some (he _ _ _ _ h)
  | ok h => exact hf _ _ _ _ h

end Rel

end Together

end Run

/-- Trees that stand for each other are evaluated alike, and with the same fuel. -/
theorem Correspondence.together_eval (C : Correspondence) {i j : ScopeId} (hi : C.scope i j)
    {x y : Node} (hx : C.tree x y) {s t : State} (hst : C.state s t) (fuel : Nat) :
    Run.Together (fun e s' f t' => C.error e f ∧ C.state s' t')
      (fun v s' w t' => C.value v w ∧ C.state s' t')
      ((x.eval fuel i).outcome s) ((y.eval fuel j).outcome t) := by
  cases h : (x.eval fuel i).outcome s with
  | some p =>
    obtain ⟨q, t', hq, hr, hst'⟩ :=
      Correspondence.simulates_eval (Nat.le_refl fuel) hi hx s t hst p.1 p.2 h
    obtain ⟨r, s'⟩ := p
    rw [hq]
    cases hr with
    | ok hv => exact .ok ⟨hv, hst'⟩
    | error he => exact .error ⟨he, hst'⟩
  | none =>
    cases k : (y.eval fuel j).outcome t with
    | none => exact .outOfFuel
    | some q =>
      obtain ⟨_, _, hp, -⟩ :=
        Correspondence.simulates_eval (C := C.flip) (Nat.le_refl fuel) hi hx t s hst q.1 q.2 k
      cases h.symm.trans hp

end SmallLisp
