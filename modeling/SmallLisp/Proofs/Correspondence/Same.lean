import SmallLisp.Proofs.Correspondence
import SmallLisp.Proofs.Correspondence.Scopes

/-! Evaluation from states that differ in what it does not read. If everything that an
evaluation reads is the same in two states, and stays so whatever it does to both, then
the same tree has the same value or error from both. -/

namespace SmallLisp

/-- What is read of related states is the same, and what an evaluation does to both of
them keeps them related. -/
structure State.Indistinct (R : State → State → Prop) : Prop where
  resolve?_eq {s t : State} : R s t →
    ∀ id name, s.scopes.resolve? id name = t.scopes.resolve? id name
  next_eq {s t : State} : R s t → s.scopes.next = t.scopes.next
  closures_eq {s t : State} : R s t → s.closures = t.closures
  sink_eq {s t : State} : R s t → s.sink = t.sink
  close {s t : State} : R s t →
    R { s with closures := s.closures + 1 } { t with closures := t.closures + 1 }
  define {s t : State} : R s t → ∀ id name v,
    R { s with scopes := s.scopes.define id name v } { t with scopes := t.scopes.define id name v }
  create {s t : State} : R s t → ∀ f,
    R { s with scopes := s.scopes.create f } { t with scopes := t.scopes.create f }
  log {s t : State} : R s t → ∀ d e, R (s.log d) (t.log e)
  write {s t : State} : R s t → ∀ k, R { s with sink := k } { t with sink := k }

section

variable {R : State → State → Prop} (hR : State.Indistinct R)

/-- Everything stands for itself. -/
def Correspondence.same : Correspondence where
  toLikeness := .ofSpans Eq
  tree := Eq
  scope := Eq
  closure := Eq
  state := R
  layer := Node.layer_of_eq
  closure_name h := congrArg Closure.name h
  closure_params h := h ▸ List.forall₂_same.2 fun _ _ => rfl
  closure_body h := congrArg Closure.body h
  closure_scope h := congrArg Closure.scope h
  resolve? := by
    rintro s t i _ f g p q h rfl hx
    cases hx
    rw [hR.resolve?_eq h]
    exact optionRel_refl (Value.rel_refl fun _ => rfl) _
  close := by
    rintro s t i _ f g ps qs x y p q h rfl hx
    cases hx
    exact ⟨by rw [hR.closures_eq h], hR.close h⟩
  define := by
    rintro s t i _ f _ v w h rfl rfl hv
    obtain rfl := hv.eq fun _ _ h => h
    exact hR.define h i f v
  enter := by
    intro s t o o' c c' fs gs vs ws h ho hc hn hv
    obtain rfl := optionRel_eq ho
    obtain rfl := optionRel_eq hc
    have hnames : List.Forall₂ (· = ·) fs gs := hn
    have hvalues : List.Forall₂ (· = ·) vs ws := hv.imp fun _ _ h => h.eq fun _ _ h => h
    rw [List.forall₂_eq_eq_eq] at hnames hvalues
    subst hnames hvalues
    exact ⟨hR.next_eq h, hR.create h _⟩
  log d e h := hR.log h d e
  sink_eq := hR.sink_eq
  write k h := hR.write h k

variable {fuel fuel' : Nat} (hle : fuel ≤ fuel') (scope : ScopeId)
include hR hle

theorem Node.eval_same (x : Node) :
    Run.Simulates R Eq Eq (x.eval fuel scope) (x.eval fuel' scope) :=
  have hx : (Correspondence.same hR).Simulates _ (x.eval fuel scope) (x.eval fuel' scope) :=
    Correspondence.simulates_eval hle rfl rfl
  hx.imp (fun _ _ h => h.eq id id fun h => h.eq fun _ _ h => h) fun _ _ h => h.eq fun _ _ h => h

theorem Node.evalAll_same (xs : List Node) :
    Run.Simulates R Eq Eq (evalAll fuel scope xs) (evalAll fuel' scope xs) := by
  have hxs : List.Forall₂ Eq xs xs := List.forall₂_same.2 fun _ _ => rfl
  have hvalues : Run.Simulates R Eq (List.Forall₂ Eq) (evalAll fuel scope xs)
      (evalAll fuel' scope xs) := .mapM hxs fun x _ hxy => hxy ▸ eval_same hR hle scope x
  exact hvalues.imp (fun _ _ h => h) fun vs ws h => by rwa [List.forall₂_eq_eq_eq] at h

end

end SmallLisp
