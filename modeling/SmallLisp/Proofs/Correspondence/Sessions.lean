import SmallLisp.Proofs.Correspondence.Discipline
import SmallLisp.Proofs.Sessions

/-! Sessions of programs that obey a discipline. Every closure that such a session
binds, keeps under a name or replies with was made by a form that obeys it,
whatever steps lead there. -/

namespace SmallLisp

variable {D : Discipline}

/-- All closures in the value were made by forms that obey the discipline. -/
def Value.Obeys (D : Discipline) (v : Value) : Prop := v.Twin D v

/-- All closures that are bound under keys of the discipline obey it. -/
def State.Obeys (D : Discipline) (s : State) : Prop := s.Twin D s

theorem evaluate_obeys {fuel : Nat} {scope : ScopeId} {source : String}
    (hforms : ∀ forms, parseText source = .ok forms → ∀ x ∈ forms, D.tree x) {s t : State}
    (hs : s.Obeys D) {r : Except Error Value} (h : evaluate fuel scope source s = some (r, t)) :
    t.Obeys D ∧ ∀ v, r = .ok v → v.Obeys D := by
  obtain ⟨q, u, hu, hrel, htu⟩ := evaluate_twin (F := fun _ _ => True) (fun _ _ _ => trivial)
    (fun _ => trivial) hforms hs h
  cases h.symm.trans hu
  refine ⟨htu, fun v hv => ?_⟩
  subst hv
  cases hrel with
  | ok hv => exact hv

theorem Function.apply_obeys {fuel : Nat} {f : Function} {args : List Value} {span : Span}
    {site : ScopeId} (hf : (Value.function f).Obeys D) (hargs : ∀ v ∈ args, v.Obeys D)
    {s t : State} (hs : s.Obeys D) {r : Except EvalError Value}
    (h : (f.apply fuel args span site).outcome s = some (r, t)) :
    t.Obeys D ∧ ∀ v, r = .ok v → v.Obeys D := by
  cases hf with
  | function hf =>
    have hrun : (Correspondence.twin D).Simulates (Value.Twin D) (f.apply fuel args span site)
        (f.apply fuel args span site) :=
      Correspondence.simulates_applyWith (Correspondence.simulates_eval (Nat.le_refl fuel)) hf
        (List.forall₂_same.2 hargs) rfl rfl
    obtain ⟨hrel, ht⟩ := hrun.self hs h
    refine ⟨ht, fun v hv => ?_⟩
    subst hv
    cases hrel with
    | ok hv => exact hv

namespace Session

/-- All that the session holds obeys the discipline. -/
structure Obeys (D : Discipline) (S : Session) : Prop where
  state : S.state.Obeys D
  values : ∀ v, S.Has v → v.Obeys D

variable {S T : Session}

theorem obeys_initial : initial.Obeys D where
  state := ⟨fun _ => .none, rfl⟩
  values := by
    rintro v ⟨p, hp, -⟩
    cases hp

namespace Obeys

theorem keep (h : S.Obeys D) {r : Except Error Value} (hr : ∀ v, r = .ok v → v.Obeys D)
    (store : Option String) : (S.keep store r).Obeys D where
  state := by
    rw [state_keep]
    exact h.state
  values v hv := (has_of_keep hv).elim (h.values v) (hr v)

theorem conclude (h : S.Obeys D) {t : State} (ht : t.Obeys D) {r : Except Error Value}
    (hr : ∀ v, r = .ok v → v.Obeys D) (store : Option String) :
    (S.conclude store r t).2.Obeys D ∧
      ∀ v, (S.conclude store r t).1.value? = some v → v.Obeys D := by
  have hS : { S with state := t }.Obeys D := ⟨ht, h.values⟩
  refine ⟨hS.keep hr store, fun v hv => hr v ?_⟩
  cases r <;> cases hv
  rfl

/-- A step hands the discipline on, if the source that it evaluates obeys it. -/
theorem took (h : S.Obeys D) (hkey : ∀ key, D.key key) {fuel : Nat} {action : Step}
    (hforms : ∀ source ∈ action.source?, ∀ forms, parseText source = .ok forms →
      ∀ x ∈ forms, D.tree x) {p : Reply × Session} (hp : S.Took fuel action p) :
    p.2.Obeys D ∧ ∀ v, p.1.value? = some v → v.Obeys D := by
  have hredirect (limit : Option Nat) : (S.state.redirect limit).Obeys D := ⟨h.state.scopes, rfl⟩
  have hcreate (name : String) (outer caller : Option ScopeId) :
      (S.createScope name outer caller).Obeys D :=
    ⟨⟨h.state.scopes.create ⟨rfl, rfl, Bindings.relOn_empty⟩, rfl⟩, h.values⟩
  cases hp with
  | global name => exact ⟨hcreate name none none, nofun⟩
  | enclose name => exact ⟨hcreate name _ none, nofun⟩
  | frame name => exact ⟨hcreate name _ _, nofun⟩
  | @define scope value symbol v id hv =>
    have hdefined := h.state.scopes.define id (g := symbol) rfl (h.values v (has_of_value hv))
    exact ⟨⟨⟨hdefined, rfl⟩, h.values⟩, nofun⟩
  | @get scope symbol span store id =>
    have hv (v : Value) (hv : S.sought id symbol span = .ok v) : v.Obeys D := by
      have hr := h.state.scopes.resolve? (fun p => .function (.primitive p)) id (rfl : _ = _)
        (hkey (Text.lowercase symbol))
      rw [sought_eq_ok hv] at hr
      cases hr with
      | some hv => exact hv
    refine ⟨h.keep hv store, fun v hr => hv v ?_⟩
    dsimp only at hr
    generalize S.sought id symbol span = r at hr
    cases r <;> cases hr
    rfl
  | eval store hid heval =>
    obtain ⟨ht, hr⟩ := evaluate_obeys (hforms _ rfl) (hredirect _) heval
    exact h.conclude ht hr store
  | @apply name scope args span limit store f vs site r t hf hvs hsite hrun =>
    obtain ⟨ht, hr⟩ := Function.apply_obeys (h.values _ (has_of_function hf))
      (fun v hv => h.values v (has_of_mapM_value hvs v hv)) (hredirect limit) hrun
    refine h.conclude ht (fun v hv => hr v ?_) store
    cases r <;> cases hv
    rfl
  | compare | names | inspect | complete => exact ⟨h, nofun⟩

end Obeys

/-- A session obeys a discipline if all sources that were evaluated in it do. -/
theorem Reached.obeys (hkey : ∀ key, D.key key) {sources : List String} (h : Reached sources S)
    (hforms : ∀ source ∈ sources, ∀ forms, parseText source = .ok forms →
      ∀ x ∈ forms, D.tree x) : S.Obeys D := by
  induction h with
  | initial => exact obeys_initial
  | step _ hstep ih =>
    have hS := ih fun source hs => hforms source (List.mem_append_right _ hs)
    refine (hS.took hkey (fun source hs => ?_) (took_of_step hstep)).1
    exact hforms source (List.mem_append_left _ (Option.mem_toList.2 hs))

end Session

end SmallLisp
