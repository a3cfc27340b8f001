import SmallLisp.Proofs.Correspondence
import SmallLisp.Proofs.Correspondence.Scopes

/-! Evaluation of what is alike. Trees that are alike, evaluated on states that
are alike, end alike: the same bytes are written, alike values are bound under
the same keys of the same scopes, and the values or errors are alike. Likeness is
a correspondence in which scopes stand for themselves. -/

namespace SmallLisp

variable {L : Likeness}

/-! ### Scopes -/

/-- Values that are alike under every key, or none in both. -/
def Bindings.Alike (L : Likeness) (b c : Bindings) : Prop :=
  ∀ key, Option.Rel (Value.Alike L) (b.find? key) (c.find? key)

structure Frame.Alike (L : Likeness) (f g : Frame) : Prop where
  outer_eq : f.outer = g.outer
  caller_eq : f.caller = g.caller
  bindings : f.bindings.Alike L g.bindings

/-- The same scopes, with the same links and bindings that are alike. -/
def Scopes.Alike (L : Likeness) (s t : Scopes) : Prop :=
  ∀ id : ScopeId, Option.Rel (Frame.Alike L) s.frames[id]? t.frames[id]?

/-- Every key counts. -/
abbrev EveryKey (_ : String) : Prop := True

theorem Frame.alike_iff_relOn {f g : Frame} :
    f.Alike L g ↔ f.RelOn EveryKey (Value.Alike L) g :=
  ⟨fun h => ⟨h.outer_eq, h.caller_eq, fun key _ => h.bindings key⟩,
    fun h => ⟨h.outer_eq, h.caller_eq, fun key => h.bindings key trivial⟩⟩

theorem Scopes.alike_iff_relOn {s t : Scopes} :
    s.Alike L t ↔ s.RelOn EveryKey (Value.Alike L) t := by
  have hframe : Frame.Alike L = Frame.RelOn EveryKey (Value.Alike L) :=
    funext fun _ => funext fun _ => propext Frame.alike_iff_relOn
  rw [Alike, RelOn, hframe]

theorem Scopes.Alike.symm {s t : Scopes} (h : s.Alike L t) : t.Alike L.flip s :=
  alike_iff_relOn.2 ((alike_iff_relOn.1 h).symm fun _ _ hv => hv.symm)

/-! ### Errors and states -/

inductive EvalError.Alike (L : Likeness) : EvalError → EvalError → Prop
  | unbound {f g : String} {p q : Span} (hn : L.name f g) (hs : L.span p q) :
    Alike L (.unbound f p) (.unbound g q)
  | notAFunction {v w : Value} {p q : Span} (hv : v.Alike L w) (hs : L.span p q) :
    Alike L (.notAFunction v p) (.notAFunction w q)
  | conditionNotBoolean {v w : Value} {p q : Span} (hv : v.Alike L w) (hs : L.span p q) :
    Alike L (.conditionNotBoolean v p) (.conditionNotBoolean w q)
  | arity {f g : String} (expected found : Nat) {p q : Span} (hn : L.name f g) (hs : L.span p q) :
    Alike L (.arity f expected found p) (.arity g expected found q)
  | invalidArguments (fault : ArgumentError) {p q : Span} (hs : L.span p q) :
    Alike L (.invalidArguments fault p) (.invalidArguments fault q)
  | sinkFull {p q : Span} (hs : L.span p q) : Alike L (.sinkFull p) (.sinkFull q)

theorem EvalError.alike_iff_rel {e f : EvalError} :
    e.Alike L f ↔ e.Rel L (Value.Rel L.closure) f := by
  rw [← Value.alike_eq_rel]
  constructor
  all_goals
    intro h
    cases h with
    | unbound hn hs => exact .unbound hn hs
    | notAFunction hv hs => exact .notAFunction hv hs
    | conditionNotBoolean hv hs => exact .conditionNotBoolean hv hs
    | arity expected found hn hs => exact .arity expected found hn hs
    | invalidArguments fault hs => exact .invalidArguments fault hs
    | sinkFull hs => exact .sinkFull hs

theorem EvalError.Alike.symm {e f : EvalError} (h : e.Alike L f) : f.Alike L.flip e := by
  cases h with
  | unbound hn hs => exact .unbound hn hs
  | notAFunction hv hs => exact .notAFunction hv.symm hs
  | conditionNotBoolean hv hs => exact .conditionNotBoolean hv.symm hs
  | arity expected found hn hs => exact .arity expected found hn hs
  | invalidArguments fault hs => exact .invalidArguments fault hs
  | sinkFull hs => exact .sinkFull hs

theorem EvalError.Alike.message_eq (hL : ∀ {f g : String}, L.name f g → f = g) {e f : EvalError}
    (h : e.Alike L f) : e.message = f.message :=
  (EvalError.alike_iff_rel.1 h).message_eq hL fun hv =>
    ⟨hv.text_eq (L.chars_eq_of_closure hL), hv.type_eq⟩

/-- Scopes that are alike, as many closures made, and the same bytes written.
The logs may differ. -/
structure State.Alike (L : Likeness) (s t : State) : Prop where
  scopes : s.scopes.Alike L t.scopes
  closures_eq : s.closures = t.closures
  sink_eq : s.sink = t.sink

theorem State.Alike.symm {s t : State} (h : s.Alike L t) : t.Alike L.flip s :=
  ⟨h.scopes.symm, h.closures_eq.symm, h.sink_eq.symm⟩

/-- What was logged makes no difference. -/
theorem State.Alike.log_left {s t : State} (h : s.Alike L t) (e : Event) : (s.log e).Alike L t :=
  ⟨h.scopes, h.closures_eq, h.sink_eq⟩

theorem State.Alike.log_right {s t : State} (h : s.Alike L t) (e : Event) : s.Alike L (t.log e) :=
  ⟨h.scopes, h.closures_eq, h.sink_eq⟩

/-- A state is like itself if the spans bound in it and all names may stand for
themselves. -/
theorem State.alike_self (hn : ∀ name, L.name name name) (s : State)
    (h : ∀ p, s.HasSpan p → L.span p p) : s.Alike L s := by
  refine ⟨fun id => ?_, rfl, rfl⟩
  cases hf : s.scopes.frames[id]? with
  | none => exact .none
  | some f =>
    refine .some ⟨rfl, rfl, fun key => ?_⟩
    cases hv : f.bindings.find? key with
    | none => exact .none
    | some v =>
      refine .some (v.alike_self hn fun p hp => h p ⟨id, key, v, ?_, hp⟩)
      rw [Scopes.bindings, hf]
      exact hv

/-! ### Trees -/

theorem Node.Alike.layer {x y : Node} (h : x.Alike L y) : x.Layer L (Node.Alike L) y := by
  cases h with
  | number x hs => exact .number x hs
  | string s hs => exact .string s hs
  | boolean b hs => exact .boolean b hs
  | symbol hn hs => exact .symbol hn hs
  | list hx hs => exact .list hx hs
  | call hf hx hs => exact .call hf.primitive?_eq (fun _ => hf) hx hs
  | letIn hn hv hx hs => exact .letIn hn hv hx hs
  | conditional ht hx hn hs => exact .conditional ht hx hn hs
  | function hn hp hx hs => exact .function hn hs

/-- Things that are alike stand for each other, and scopes for themselves. -/
def Correspondence.alike (L : Likeness) : Correspondence where
  toLikeness := L
  tree := Node.Alike L
  scope := Eq
  closure := L.closure
  state := State.Alike L
  layer := Node.Alike.layer
  closure_name h := by cases h with | closure hi hn hp hb hs => exact hn
  closure_params h := by cases h with | closure hi hn hp hb hs => exact hp
  closure_body h := by cases h with | closure hi hn hp hb hs => exact hb
  closure_scope h := by cases h with | closure hi hn hp hb hs => exact hs
  resolve? := by
    rintro s t i _ f g p q h rfl hx
    rw [← Value.alike_eq_rel]
    cases hx with
    | symbol hn hs =>
      exact (Scopes.alike_iff_relOn.1 h.scopes).resolve? (fun p => .function (.primitive p)) i
        (L.lowercase_eq hn) trivial
  close := by
    rintro s t i _ f g ps qs x y p q h rfl hx
    cases hx with
    | function hn hp hx hs =>
      exact ⟨.closure h.closures_eq hn hp hx rfl,
        h.scopes, congrArg (· + 1) h.closures_eq, h.sink_eq⟩
  define := by
    rintro s t i _ f g v w h rfl hn hv
    rw [← Value.alike_eq_rel] at hv
    have hscopes := (Scopes.alike_iff_relOn.1 h.scopes).define i (L.lowercase_eq hn) hv
    exact ⟨Scopes.alike_iff_relOn.2 hscopes, h.closures_eq, h.sink_eq⟩
  enter := by
    intro s t o o' c c' fs gs vs ws h ho hc hn hv
    obtain rfl := optionRel_eq ho
    obtain rfl := optionRel_eq hc
    rw [← Value.alike_eq_rel] at hv
    have hscopes := Scopes.alike_iff_relOn.1 h.scopes
    refine ⟨hscopes.next_eq, Scopes.alike_iff_relOn.2 (hscopes.create ⟨rfl, rfl, ?_⟩),
      h.closures_eq, h.sink_eq⟩
    exact Bindings.relOn_empty.foldl_define (fun _ _ => L.lowercase_eq) hn hv
  log _ _ h := (h.log_left _).log_right _
  sink_eq h := h.sink_eq
  write _ h := ⟨h.scopes, h.closures_eq, rfl⟩

/-- Runs that do the same on states that are alike. -/
abbrev Run.SimulatesAlike {α β : Type} (L : Likeness) (V : α → β → Prop) (x : Run α) (y : Run β) :
    Prop :=
  Run.Simulates (State.Alike L) (EvalError.Alike L) V x y

namespace Node

/-- What is alike is evaluated alike, with as much fuel or with more. -/
theorem eval_alike {fuel : Nat} : ∀ {fuel' : Nat}, fuel ≤ fuel' → ∀ (scope : ScopeId) {x y : Node},
    x.Alike L y →
    Run.SimulatesAlike L (Value.Alike L) (eval fuel scope x) (eval fuel' scope y) := by
  intro fuel' hle scope x y h
  have hx : (Correspondence.alike L).Simulates (Value.Rel L.closure) (eval fuel scope x)
      (eval fuel' scope y) := Correspondence.simulates_eval hle rfl h
  exact hx.imp (fun _ _ => EvalError.alike_iff_rel.2) fun _ _ => Value.alike_iff_rel.2

theorem evalAll_alike {fuel fuel' : Nat} (hle : fuel ≤ fuel') (scope : ScopeId) {xs ys : List Node}
    (h : List.Forall₂ (Alike L) xs ys) :
    Run.SimulatesAlike L (List.Forall₂ (Value.Alike L)) (evalAll fuel scope xs)
      (evalAll fuel' scope ys) :=
  .mapM h fun _ _ hx => eval_alike hle scope hx

end Node

end SmallLisp
