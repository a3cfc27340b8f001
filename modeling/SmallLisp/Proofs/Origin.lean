import SmallLisp.Proofs.Bound

/-! Where errors point. Every tree that is evaluated stands in a program that was
read: the forms of the program and their parts do, and so do the bodies of the
closures in scopes and values, since they were parts of a program when the
closures were made. Evaluation keeps it so, and the span of an error is therefore
the span of a tree in a program. -/

namespace SmallLisp

/-! ### Trees in a program -/

namespace Node

/-- The trees that a tree is made of directly. -/
def parts : Node → List Node
  | number .. | string .. | boolean .. | symbol .. => []
  | list items _ => items
  | call head args _ => head :: args
  | letIn bindings body _ => bindings.map (·.2) ++ [body]
  | conditional test yes no _ => test :: yes :: no.toList
  | function _ _ body _ => [body]

/-- The tree is one of the forms, or stands somewhere in one of them. -/
inductive StandsIn (forms : List Node) : Node → Prop
  | form {x : Node} : x ∈ forms → StandsIn forms x
  | part {x y : Node} : StandsIn forms x → y ∈ x.parts → StandsIn forms y

theorem StandsIn.trans {forms : List Node} {x y : Node} (h : x.StandsIn [y])
    (hy : y.StandsIn forms) : x.StandsIn forms := by
  induction h with
  | form hx => exact List.mem_singleton.1 hx ▸ hy
  | part _ hx ih => exact ih.part hx

/-- The tree stands in one of the programs that were read. -/
def Known (read : List Node → Prop) (x : Node) : Prop := ∃ forms, read forms ∧ x.StandsIn forms

theorem Known.part {read : List Node → Prop} {x y : Node} (h : x.Known read) (hy : y ∈ x.parts) :
    y.Known read := by
  obtain ⟨forms, hforms, hx⟩ := h
  exact ⟨forms, hforms, hx.part hy⟩

end Node

namespace EvalError

/-- What a tree in a program has to be for an error to point at it. -/
def Concerns (forms : List Node) (x : Node) : EvalError → Prop
  | unbound name _ => x.symbol? = some name
  | notAFunction .. => ∃ args span, (Node.call x args span).StandsIn forms
  | conditionNotBoolean .. => ∃ yes no span, (Node.conditional x yes no span).StandsIn forms
  | arity _ expected found _ =>
    found ≠ expected ∧ ∃ head args span, x = .call head args span ∧ args.length = found
  | invalidArguments .. | sinkFull _ => ∃ head args span, x = .call head args span

/-- The span of the error is that of a tree in the program that the error is about. -/
def PointsInto (forms : List Node) (e : EvalError) : Prop :=
  ∃ x : Node, x.StandsIn forms ∧ x.span = e.span ∧ e.Concerns forms x

/-- The error points into one of the programs that were read. -/
def Known (read : List Node → Prop) (e : EvalError) : Prop :=
  ∃ forms, read forms ∧ e.PointsInto forms

/-- The errors that a call ends with before it evaluates the body of a closure. -/
inductive OfCall (span : Span) (count : Nat) : EvalError → Prop
  | arity {name : String} {expected : Nat} :
    count ≠ expected → OfCall span count (.arity name expected count span)
  | invalidArguments {fault : ArgumentError} : OfCall span count (.invalidArguments fault span)
  | sinkFull : OfCall span count (.sinkFull span)

end EvalError

section

variable {read : List Node → Prop}

theorem EvalError.OfCall.known {head : Node} {args : List Node} {span : Span} {e : EvalError}
    (h : e.OfCall span args.length) (hx : (Node.call head args span).Known read) :
    e.Known read := by
  obtain ⟨forms, hforms, hin⟩ := hx
  cases h with
  | arity hne => exact ⟨forms, hforms, _, hin, rfl, hne, head, args, span, rfl, rfl⟩
  | invalidArguments => exact ⟨forms, hforms, _, hin, rfl, head, args, span, rfl⟩
  | sinkFull => exact ⟨forms, hforms, _, hin, rfl, head, args, span, rfl⟩

theorem EvalError.known_unbound {name : String} {span : Span}
    (h : (Node.symbol name span).Known read) : (EvalError.unbound name span).Known read := by
  obtain ⟨forms, hforms, hin⟩ := h
  exact ⟨forms, hforms, _, hin, rfl, rfl⟩

theorem EvalError.known_notAFunction {head : Node} {args : List Node} {span : Span}
    (h : (Node.call head args span).Known read) (found : Value) :
    (EvalError.notAFunction found head.span).Known read := by
  obtain ⟨forms, hforms, hin⟩ := h
  exact ⟨forms, hforms, head, hin.part List.mem_cons_self, rfl, args, span, hin⟩

theorem EvalError.known_conditionNotBoolean {test yes : Node} {no : Option Node} {span : Span}
    (h : (Node.conditional test yes no span).Known read) (found : Value) :
    (EvalError.conditionNotBoolean found test.span).Known read := by
  obtain ⟨forms, hforms, hin⟩ := h
  exact ⟨forms, hforms, test, hin.part List.mem_cons_self, rfl, yes, no, span, hin⟩

end

/-! ### Values from programs -/

/-- Every closure in the value belongs to a scope that exists, and its body stands
in a program that was read. -/
def Value.Known (read : List Node → Prop) (s : Scopes) (v : Value) : Prop :=
  ∀ c ∈ v.closures, c.scope < s.next ∧ c.body.Known read

/-- All that is bound is known. -/
def Scopes.Known (read : List Node → Prop) (s : Scopes) : Prop :=
  ∀ id key v, (s.bindings id).find? key = some v → v.Known read s

/-- Scopes have only been added, and all that is bound is known. -/
structure Advances (read : List Node → Prop) (s t : State) : Prop where
  next_le : s.scopes.next ≤ t.scopes.next
  known : t.scopes.Known read

section

variable {read : List Node → Prop} {s t u : State}

theorem Value.Known.mono {v : Value} {s t : Scopes} (h : v.Known read s) (hle : s.next ≤ t.next) :
    v.Known read t :=
  fun c hc => ⟨Nat.lt_of_lt_of_le (h c hc).1 hle, (h c hc).2⟩

theorem Value.known_list {vs : List Value} {s : Scopes} (h : ∀ v ∈ vs, v.Known read s) :
    (Value.list vs).Known read s := by
  intro c hc
  obtain ⟨v, hv, hcv⟩ := Value.mem_closuresAll.1 hc
  exact h v hv c hcv

theorem Primitive.known_result {p : Primitive} {args : List Value} {v : Value} {s : Scopes}
    (h : p.result args = .ok v) (hargs : ∀ a ∈ args, a.Known read s) : v.Known read s := by
  intro c hc
  obtain ⟨a, ha, hca⟩ := Value.mem_closuresAll.1 (Primitive.mem_closures_of_result h hc)
  exact hargs a ha c hca

namespace Scopes

variable {s : Scopes}

/-- Nothing is bound in a fresh scope. -/
theorem known_fresh (limit : Option Nat) : (State.fresh limit).scopes.Known read := by
  intro id key v hv
  cases id <;> cases hv

theorem Known.create (h : s.Known read) {f : Frame}
    (hf : ∀ key v, f.bindings.find? key = some v → v.Known read s) :
    (s.create f).Known read := by
  have hle : s.next ≤ (s.create f).next := by
    rw [next_create]
    exact Nat.le_succ _
  intro id key v hv
  rcases find?_bindings_create hv with ⟨-, hv⟩ | hv
  · exact (hf key v hv).mono hle
  · exact (h id key v hv).mono hle

theorem Known.define (h : s.Known read) {v : Value} (hv : v.Known read s) (scope : ScopeId)
    (name : String) : (s.define scope name v).Known read := by
  have hle : s.next ≤ (s.define scope name v).next := Nat.le_of_eq (next_define s scope name v).symm
  intro id key w hw
  rcases find?_bindings_define hw with ⟨-, -, rfl⟩ | hw
  · exact hv.mono hle
  · exact (h id key w hw).mono hle

theorem Known.resolve? (h : s.Known read) {id : ScopeId} {name : String} {v : Value}
    (hv : s.resolve? id name = some v) : v.Known read s := by
  simp only [Scopes.resolve?, Option.orElse_eq_orElse, Option.orElse_eq_or,
    Option.or_eq_some_iff] at hv
  rcases hv with hv | ⟨-, hv⟩
  · obtain ⟨o, ho⟩ := exists_bound_of_find? hv
    exact h o _ v ho
  · obtain ⟨p, -, rfl⟩ := Option.map_eq_some_iff.1 hv
    exact fun c hc => absurd hc List.not_mem_nil

end Scopes

namespace Advances

/-- A state with the same scopes. -/
theorem of_eq (h : s.scopes.Known read) (heq : t.scopes = s.scopes) : Advances read s t :=
  ⟨Nat.le_of_eq (congrArg Scopes.next heq.symm), heq ▸ h⟩

theorem refl (h : s.scopes.Known read) : Advances read s s := of_eq h rfl

theorem trans (s t u : State) (h : Advances read s t) (k : Advances read t u) :
    Advances read s u :=
  ⟨Nat.le_trans h.next_le k.next_le, k.known⟩

theorem right (s t : State) (h : Advances read s t) : Advances read t t := refl h.known

end Advances

end

/-! ### Evaluation -/

open Run (Ensures)

section Runs

variable {read : List Node → Prop} {E : EvalError → Prop} {s : State}

/-- The value is known in the state. -/
def State.Holds (read : List Node → Prop) (s : State) (v : Value) : Prop := v.Known read s.scopes

open State (Holds)

theorem State.Holds.keep (t u : State) (v : Value) (h : Advances read t u) (hv : Holds read t v) :
    Holds read u v :=
  hv.mono h.next_le

theorem ensures_log (hs : s.scopes.Known read) (e : Event) :
    Ensures (Advances read) (fun _ _ => True) E s (Run.log e) := by
  intro r t ho
  cases ho
  exact ⟨.of_eq hs rfl, fun _ _ => trivial, nofun⟩

theorem ensures_write (hs : s.scopes.Known read) (text : String) {span : Span}
    (hE : E (.sinkFull span)) :
    Ensures (Advances read) (fun _ _ => True) E s (Run.write text span) := by
  intro r t ho
  rw [Run.outcome_write] at ho
  cases ho
  refine ⟨.of_eq hs rfl, fun _ _ => trivial, fun e he => ?_⟩
  split at he
  · cases he
  · exact Except.error.inj he ▸ hE

theorem ensures_enter (hs : s.scopes.Known read) {outer caller : Option ScopeId}
    {names : List String} {vs : List Value} (hvs : ∀ v ∈ vs, Holds read s v) :
    Ensures (Advances read) (fun t frame => frame < t.scopes.next) E s
      (Run.enter outer caller (names.zip vs)) := by
  intro r t ho
  rw [Run.outcome_enter] at ho
  cases ho
  refine ⟨⟨?_, hs.create fun key v hv => hvs v (Bindings.mem_of_find?_ofPairs hv).1⟩, ?_, nofun⟩
  · exact Nat.le_trans (Nat.le_succ _) (Nat.le_of_eq (Scopes.next_create ..).symm)
  · intro frame hframe
    cases hframe
    exact Nat.lt_of_lt_of_eq (Nat.lt_succ_self _) (Scopes.next_create ..).symm

/-- A scope that is filled with the values of known trees. -/
theorem ensures_fill (hs : s.scopes.Known read) {α : Type} {f : α → Run Value}
    {bs : List (String × α)} (frame : ScopeId)
    (hf : ∀ b ∈ bs, ∀ t, Advances read s t → Ensures (Advances read) (Holds read) E t (f b.2)) :
    Ensures (Advances read) (fun _ _ => True) E s (Run.fill frame f bs) := by
  refine .fill Advances.trans Advances.right (.refl hs) hf fun b _ t v hst hv r u ho => ?_
  rw [Run.outcome_define] at ho
  cases ho
  have hle := Nat.le_of_eq (Scopes.next_define t.scopes frame b.1 v).symm
  exact ⟨⟨hle, hst.known.define hv frame b.1⟩, fun _ _ => trivial, nofun⟩

theorem ensures_lookup (hs : s.scopes.Known read) {scope : ScopeId} {name : String} {span : Span}
    (hx : (Node.symbol name span).Known read) :
    Ensures (Advances read) (Holds read) (EvalError.Known read) s (Run.lookup scope name span) := by
  intro r t ho
  rw [Run.outcome_lookup] at ho
  cases ho
  refine ⟨.refl hs, fun v hv => ?_, fun e he => ?_⟩
  · cases hr : s.scopes.resolve? scope name with
    | none => simp [hr] at hv
    | some w =>
      rw [hr] at hv
      cases hv
      exact hs.resolve? hr
  · cases hr : s.scopes.resolve? scope name with
    | none =>
      rw [hr] at he
      cases he
      exact EvalError.known_unbound hx
    | some w => simp [hr] at he

theorem ensures_define (hs : s.scopes.Known read) {scope : ScopeId} (hscope : scope < s.scopes.next)
    (name : String) (params : List String) {body : Node} (hbody : body.Known read) :
    Ensures (Advances read) (Holds read) E s (do
      let f := Value.function (.closure (← Run.makeClosure name params body scope))
      Run.define scope name f
      return f) := by
  intro r t ho
  rw [Run.outcome_bind, Run.outcome_makeClosure] at ho
  dsimp only at ho
  rw [Run.outcome_bind, Run.outcome_define] at ho
  cases ho
  have hv : (Value.function (.closure ⟨s.closures, name, params, body, scope⟩)).Known read
      s.scopes := by
    intro c hc
    obtain rfl := List.mem_singleton.1 hc
    exact ⟨hscope, hbody⟩
  have hle := Nat.le_of_eq (Scopes.next_define s.scopes scope name
    (.function (.closure ⟨s.closures, name, params, body, scope⟩))).symm
  refine ⟨⟨hle, hs.define hv scope name⟩, fun v h => ?_, nofun⟩
  cases h
  exact hv.mono hle

theorem Primitive.ensures_apply (hs : s.scopes.Known read) {args : List Value}
    (hargs : ∀ a ∈ args, Holds read s a) {span : Span}
    (hE : ∀ e, e.OfCall span args.length → E e) (p : Primitive) :
    Ensures (Advances read) (Holds read) E s (p.apply args span) := by
  unfold Primitive.apply
  cases hv : p.result args with
  | error fault => exact .fail (.refl hs) (hE _ .invalidArguments)
  | ok v =>
    have hknown := Primitive.known_result hv hargs
    dsimp only
    cases p.output? v with
    | none => exact .pure (.refl hs) hknown
    | some text =>
      refine .bind Advances.trans (ensures_write hs text (hE _ .sinkFull)) fun _ t hst _ => ?_
      exact .pure (.refl hst.known) (hknown.mono hst.next_le)

/-- A call ends with an error of its own or with one of the body of a closure. -/
theorem Function.ensures_applyWith {body : ScopeId → Node → Run Value}
    (hbody : ∀ frame x t, t.scopes.Known read → frame < t.scopes.next → x.Known read →
      Ensures (Advances read) (Holds read) E t (body frame x))
    (hs : s.scopes.Known read) {f : Function} (hf : Holds read s (.function f)) {args : List Value}
    (hargs : ∀ a ∈ args, Holds read s a) (span : Span)
    (hE : ∀ e, e.OfCall span args.length → E e) (site : ScopeId) :
    Ensures (Advances read) (Holds read) E s (f.applyWith body args span site) := by
  cases f with
  | primitive p => exact Primitive.ensures_apply hs hargs hE p
  | closure c =>
    have hc := hf c (List.mem_singleton_self c)
    simp only [Function.applyWith]
    split
    · refine .bind Advances.trans (ensures_log hs _) fun _ t hst _ => ?_
      have hargs' (a : Value) (ha : a ∈ args) : Holds read t a := (hargs a ha).mono hst.next_le
      refine .bind Advances.trans (ensures_enter hst.known hargs') fun frame u htu hframe => ?_
      exact hbody frame c.body u htu.known hframe hc.2
    · next hne => exact .fail (.refl hs) (hE _ (.arity hne))

/-- Evaluation of a known tree gives a known value, or an error that points into a
program that was read. -/
theorem Node.ensures_eval (fuel : Nat) {scope : ScopeId} {node : Node}
    (hs : s.scopes.Known read) (hscope : scope < s.scopes.next) (hx : node.Known read) :
    Ensures (Advances read) (Holds read) (EvalError.Known read) s (node.eval fuel scope) := by
  induction fuel generalizing s scope node with
  | zero => exact .outOfFuel
  | succ fuel ih =>
    -- after some steps in the same scope
    have later {t : State} (hst : Advances read s t) {x : Node} (hx : x.Known read) :
        Ensures (Advances read) (Holds read) (EvalError.Known read) t (x.eval fuel scope) :=
      ih hst.known (Nat.lt_of_lt_of_le hscope hst.next_le) hx
    cases node with
    | number x _ | string x _ | boolean x _ =>
      exact .pure (.refl hs) fun c hc => absurd hc List.not_mem_nil
    | symbol name span => exact ensures_lookup hs hx
    | list items _ =>
      refine .bind Advances.trans (.mapM Advances.trans Advances.right Holds.keep (.refl hs)
        fun x hi t hst => later hst (hx.part hi)) fun vs t hst hvs => ?_
      exact .pure (.refl hst.known) (Value.known_list hvs.2)
    | call head args span =>
      have hhead : Ensures (Advances read) (fun t f => Holds read t (.function f))
          (EvalError.Known read) s (evalHead fuel scope head) := by
        unfold evalHead
        split
        · exact .pure (.refl hs) fun c hc => absurd hc List.not_mem_nil
        · refine .bind Advances.trans (later (.refl hs) (hx.part List.mem_cons_self))
            fun v t hst hv => ?_
          cases v with
          | function f => exact .pure (.refl hst.known) hv
          | number _ | string _ | boolean _ | list _ =>
            exact .fail (.refl hst.known) (EvalError.known_notAFunction hx _)
      rw [eval_call]
      refine .bind Advances.trans hhead fun f t hst hf => ?_
      refine .bind Advances.trans (.mapM Advances.trans Advances.right Holds.keep
        (.refl hst.known) fun x hi u htu => later (hst.trans _ _ _ htu)
          (hx.part (List.mem_cons_of_mem _ hi))) fun vs u htu hvs => ?_
      refine Function.ensures_applyWith (fun _ _ _ => ih) htu.known (hf.mono htu.next_le) hvs.2
        span (fun e he => ?_) scope
      rw [hvs.1] at he
      exact he.known hx
    | letIn bindings body span =>
      refine .bind Advances.trans (ensures_log hs _) fun _ t hst _ => ?_
      have henter : Ensures (Advances read) (fun u frame => frame < u.scopes.next)
          (EvalError.Known read) t (Run.enter (some scope) none (([] : List String).zip [])) :=
        ensures_enter hst.known fun v hv => absurd hv List.not_mem_nil
      refine .bind Advances.trans henter fun frame u htu hframe => ?_
      have hsu := hst.trans _ _ _ htu
      refine .bind Advances.trans (ensures_fill htu.known frame fun b hb w huw =>
        later (hsu.trans _ _ _ huw) (hx.part (List.mem_append_left _ (List.mem_map_of_mem hb))))
        fun _ w huw _ => ?_
      exact ih huw.known (Nat.lt_of_lt_of_le hframe huw.next_le)
        (hx.part (List.mem_append_right _ (List.mem_singleton_self body)))
    | conditional test yes no span =>
      rw [eval_conditional]
      refine .bind Advances.trans (ensures_log hs _) fun _ t hst _ => ?_
      refine .bind Advances.trans (later hst (hx.part List.mem_cons_self)) fun v u htu _ => ?_
      have hsu := hst.trans _ _ _ htu
      match v, no with
      | .boolean true, _ =>
        exact later hsu (hx.part (List.mem_cons_of_mem _ List.mem_cons_self))
      | .boolean false, some no =>
        refine later hsu (hx.part (List.mem_cons_of_mem _ (List.mem_cons_of_mem _ ?_)))
        exact List.mem_singleton_self no
      | .boolean false, none =>
        exact .pure (.refl hsu.known) fun c hc => absurd hc List.not_mem_nil
      | .number _, _ | .string _, _ | .function _, _ | .list _, _ =>
        exact .fail (.refl hsu.known) (EvalError.known_conditionNotBoolean hx _)
    | function name params body span =>
      refine .bind Advances.trans (ensures_log hs _) fun _ t hst _ => ?_
      refine .bind Advances.trans (ensures_log hst.known _) fun _ u htu _ => ?_
      exact ensures_define htu.known
        (Nat.lt_of_lt_of_le hscope (Nat.le_trans hst.next_le htu.next_le)) name params
        (hx.part (List.mem_singleton_self body))

end Runs

end SmallLisp
