import SmallLisp.Proofs.Correspondence
import SmallLisp.Proofs.Correspondence.Scopes
import SmallLisp.Proofs.Programs

/-! Properties of trees that evaluation hands on. If a tree obeys a discipline, so
do its operands and, if it is a function form, its body, and it looks up none but
the keys of the discipline. Two runs of a tree are alike if the tree obeys a
discipline and the scopes agree about its keys. For one run beside itself this is
an invariant: all closures that it meets were made by forms that obey. -/

namespace SmallLisp

structure Discipline where
  tree : Node → Prop
  key : String → Prop
  symbol {name : String} {span : Span} : tree (.symbol name span) → key (Text.lowercase name)
  operand {x y : Node} : tree x → y ∈ x.operands → tree y
  body {name : String} {params : List String} {body : Node} {span : Span} :
    tree (.function name params body span) → tree body

variable {D : Discipline}

/-- Two closures of one definition in one scope, made by a form that obeys the discipline. -/
structure Closure.Twin (D : Discipline) (c d : Closure) : Prop where
  name_eq : c.name = d.name
  params_eq : c.params = d.params
  body_eq : c.body = d.body
  scope_eq : c.scope = d.scope
  form : ∃ span, D.tree (.function c.name c.params c.body span)

namespace Closure.Twin

variable {c d : Closure} (h : c.Twin D d)
include h

theorem symm : d.Twin D c where
  name_eq := h.name_eq.symm
  params_eq := h.params_eq.symm
  body_eq := h.body_eq.symm
  scope_eq := h.scope_eq.symm
  form := h.name_eq ▸ h.params_eq ▸ h.body_eq ▸ h.form

theorem chars_eq : (Function.closure c).chars = (Function.closure d).chars := by
  rw [Function.chars, Function.chars, h.name_eq, h.params_eq, h.body_eq]

end Closure.Twin

/-- The same value, but for the identity of closures, all of them made by forms
that obey the discipline. -/
abbrev Value.Twin (D : Discipline) : Value → Value → Prop := Value.Rel (Closure.Twin D)

/-- The same bytes written, and the same bindings under all keys of the
discipline, but for the identity of closures. -/
structure State.Twin (D : Discipline) (s t : State) : Prop where
  scopes : s.scopes.RelOn D.key (Value.Twin D) t.scopes
  sink_eq : s.sink = t.sink

namespace State.Twin

variable {s t : State}

theorem symm (h : s.Twin D t) : t.Twin D s :=
  ⟨h.scopes.symm fun _ _ hv => hv.symm fun _ _ hc => hc.symm, h.sink_eq.symm⟩

theorem log (h : s.Twin D t) (d e : Event) : (s.log d).Twin D (t.log e) := ⟨h.scopes, h.sink_eq⟩

end State.Twin

theorem State.twin_fresh (limit : Option Nat) : (fresh limit).Twin D (fresh limit) := by
  refine ⟨Scopes.relOn_self _ fun id key v _ hv => ?_, rfl⟩
  cases id with
  | zero => cases hv
  | succ id => cases hv

namespace Correspondence

/-- Trees that obey a discipline, on states that agree about its keys. -/
def twin (D : Discipline) : Correspondence where
  toLikeness := .ofSpans Eq
  tree x y := x = y ∧ D.tree x
  scope := Eq
  closure := Closure.Twin D
  state := State.Twin D
  layer := by
    rintro x _ ⟨rfl, hx⟩
    exact Node.layer_self (fun _ _ => rfl) rfl fun y hy => ⟨rfl, D.operand hx hy⟩
  closure_name h := h.name_eq
  closure_params h := h.params_eq ▸ List.forall₂_same.2 fun _ _ => rfl
  closure_body h :=
    have ⟨_, hform⟩ := h.form
    ⟨h.body_eq, D.body hform⟩
  closure_scope h := h.scope_eq
  resolve? := by
    rintro s t i _ f g p q h rfl ⟨hx, hf⟩
    cases hx
    exact h.scopes.resolve? (fun p => .function (.primitive p)) i rfl (D.symbol hf)
  close := by
    rintro s t i _ f g ps qs x y p q h rfl ⟨hx, hform⟩
    cases hx
    exact ⟨⟨rfl, rfl, rfl, rfl, p, hform⟩, h.scopes, h.sink_eq⟩
  define := by
    rintro s t i _ f _ v w h rfl rfl hv
    exact ⟨h.scopes.define i rfl hv, h.sink_eq⟩
  enter := by
    intro s t o o' c c' fs gs vs ws h ho hc hn hv
    obtain rfl := optionRel_eq ho
    obtain rfl := optionRel_eq hc
    refine ⟨h.scopes.next_eq, h.scopes.create ⟨rfl, rfl, ?_⟩, h.sink_eq⟩
    exact Bindings.relOn_empty.foldl_define (fun _ _ => congrArg Text.lowercase) hn hv
  log d e h := h.log d e
  sink_eq h := h.sink_eq
  write _ h := ⟨h.scopes, rfl⟩

end Correspondence

/-- A program whose forms stand for themselves ends alike on states that stand for
each other. -/
theorem Correspondence.exists_evaluate {C : Correspondence} {F : Error → Error → Prop}
    (hE : ∀ e f, C.error e f → F (.eval e) (.eval f)) (hF : ∀ e, F e e) {fuel : Nat}
    {i j : ScopeId} (hi : C.scope i j) {source : String}
    (hforms : ∀ forms, parseText source = .ok forms → ∀ x ∈ forms, C.tree x x) {s t u : State}
    (hst : C.state s t) {r : Except Error Value} (h : evaluate fuel i source s = some (r, u)) :
    ∃ q w, evaluate fuel j source t = some (q, w) ∧ ResultRel F C.value r q ∧ C.state u w := by
  cases hp : parseText source with
  | error e =>
    rw [evaluate, hp] at h
    cases h
    exact ⟨.error e, t, by rw [evaluate, hp], .error (hF e), hst⟩
  | ok forms =>
    rw [evaluate_of_parse hp] at h
    obtain ⟨⟨p, v⟩, ho, hr⟩ := Option.map_eq_some_iff.1 h
    cases hr
    have hall : List.Forall₂ C.tree forms forms := List.forall₂_same.2 (hforms forms hp)
    obtain ⟨q, w, ho', hq, huw⟩ :=
      simulates_evalAll (Nat.le_refl fuel) hi hall _ _ (C.log _ _ hst) p v ho
    refine ⟨finalResult q, w, ?_, finalResult_rel hq hE hF, huw⟩
    rw [evaluate_of_parse hp, ho']
    rfl

/-- A program whose forms obey the discipline ends alike on states that agree
about its keys. -/
theorem evaluate_twin {F : Error → Error → Prop}
    (hE : ∀ e f, (Correspondence.twin D).error e f → F (.eval e) (.eval f)) (hF : ∀ e, F e e)
    {fuel : Nat} {scope : ScopeId} {source : String}
    (hforms : ∀ forms, parseText source = .ok forms → ∀ x ∈ forms, D.tree x) {s t u : State}
    (hst : s.Twin D t) {r : Except Error Value} (h : evaluate fuel scope source s = some (r, u)) :
    ∃ q w, evaluate fuel scope source t = some (q, w) ∧ ResultRel F (Value.Twin D) r q ∧
      u.Twin D w :=
  Correspondence.exists_evaluate (C := .twin D) hE hF (rfl : scope = scope)
    (fun forms hp x hx => ⟨rfl, hforms forms hp x hx⟩) hst h

end SmallLisp
