import SmallLisp.Proofs.Correspondence.Same
import SmallLisp.Proofs.Filling

/-! Immediate application. A function form that is called on the spot does what a
let form does that pairs its parameters with the arguments. The scope of the call
is made when the arguments are there, and that of the let form before its values; but
a let form could as well make its scope late. Then the scope of the call has two
links where the other has one, but both lead to the same scope, and a link that
repeats another shows nothing new: without such links the states of the two
evaluations are the same all along. -/

namespace SmallLisp

/-! ### Repeated links -/

/-- The frame without its link to the caller, if that repeats the other link. -/
def Frame.pruned (f : Frame) : Frame := if f.caller = f.outer then { f with caller := none } else f

theorem Frame.bindings_pruned (f : Frame) : f.pruned.bindings = f.bindings := by
  unfold pruned
  split <;> rfl

theorem Frame.outer_pruned (f : Frame) : f.pruned.outer = f.outer := by
  unfold pruned
  split <;> rfl

theorem Frame.pruned_repeated (scope : ScopeId) (b : Bindings) :
    (Frame.mk (some scope) (some scope) b).pruned = (Frame.mk (some scope) none b).pruned :=
  if_pos rfl

namespace Scopes

def pruned (s : Scopes) : Scopes := ⟨s.frames.map Frame.pruned⟩

variable (s : Scopes)

theorem frames_pruned (id : ScopeId) : s.pruned.frames[id]? = s.frames[id]?.map Frame.pruned :=
  Array.getElem?_map

theorem next_pruned : s.pruned.next = s.next := Array.size_map

theorem bindings_pruned (id : ScopeId) : s.pruned.bindings id = s.bindings id := by
  rw [bindings, bindings, frames_pruned]
  cases s.frames[id]? with
  | none => rfl
  | some f => exact f.bindings_pruned

theorem pruned_create (f : Frame) : (s.create f).pruned = s.pruned.create f.pruned :=
  congrArg Scopes.mk Array.map_push

theorem pruned_define (id : ScopeId) (name : String) (v : Value) :
    (s.define id name v).pruned = s.pruned.define id name v := by
  refine congrArg Scopes.mk (Array.ext_getElem? fun o => ?_)
  simp only [define, pruned, Array.getElem?_map, Array.getElem?_modify]
  split
  · cases s.frames[o]? with
    | none => rfl
    | some f =>
      refine congrArg some ?_
      simp only [Frame.pruned]
      split <;> rfl
  · rfl

/-- A repeated link leads a search where it has been before. -/
theorem find?_pruned (id : ScopeId) (key : String) : s.pruned.find? id key = s.find? id key := by
  induction id using Nat.strongRecOn with
  | ind id ih =>
    have hlinked (link : Option ScopeId) : s.pruned.linked? id link key = s.linked? id link key :=
      Option.bind_congr fun ⟨o, ho⟩ _ => ih o ho
    cases hf : s.frames[id]? with
    | none => rw [find?, find?, frames_pruned, hf, Option.map_none]
    | some f =>
      have hp : s.pruned.frames[id]? = some f.pruned := by rw [frames_pruned, hf, Option.map_some]
      rw [find?_of_frame hp, find?_of_frame hf, f.bindings_pruned, f.outer_pruned, hlinked, hlinked]
      unfold Frame.pruned
      split
      · next h =>
        rw [h, Option.or_self]
        exact congrArg _ Option.or_none
      · rfl

theorem resolve?_pruned (id : ScopeId) (name : String) :
    s.pruned.resolve? id name = s.resolve? id name := by
  rw [resolve?, resolve?, find?_pruned]

end Scopes

/-- States that differ in nothing but their logs and in links that are repeated. -/
structure State.SamePruned (s t : State) : Prop where
  scopes_eq : s.scopes.pruned = t.scopes.pruned
  closures_eq : s.closures = t.closures
  sink_eq : s.sink = t.sink

namespace State.SamePruned

variable {s t : State}

theorem refl (s : State) : s.SamePruned s := ⟨rfl, rfl, rfl⟩

theorem symm (h : s.SamePruned t) : t.SamePruned s :=
  ⟨h.scopes_eq.symm, h.closures_eq.symm, h.sink_eq.symm⟩

theorem log_left (h : s.SamePruned t) {e : Event} : (s.log e).SamePruned t :=
  ⟨h.scopes_eq, h.closures_eq, h.sink_eq⟩

theorem log_right (h : s.SamePruned t) {e : Event} : s.SamePruned (t.log e) :=
  ⟨h.scopes_eq, h.closures_eq, h.sink_eq⟩

theorem next_eq (h : s.SamePruned t) : s.scopes.next = t.scopes.next := by
  rw [← s.scopes.next_pruned, h.scopes_eq, t.scopes.next_pruned]

theorem bindings_eq (h : s.SamePruned t) (id : ScopeId) :
    s.scopes.bindings id = t.scopes.bindings id := by
  rw [← s.scopes.bindings_pruned, h.scopes_eq, t.scopes.bindings_pruned]

theorem resolve?_eq (h : s.SamePruned t) (id : ScopeId) (name : String) :
    s.scopes.resolve? id name = t.scopes.resolve? id name := by
  rw [← s.scopes.resolve?_pruned, h.scopes_eq, t.scopes.resolve?_pruned]

theorem define (h : s.SamePruned t) (id : ScopeId) (name : String) (v : Value) :
    State.SamePruned { s with scopes := s.scopes.define id name v }
      { t with scopes := t.scopes.define id name v } :=
  ⟨by rw [Scopes.pruned_define, h.scopes_eq, Scopes.pruned_define], h.closures_eq, h.sink_eq⟩

/-- Frames may be entered that differ in a repeated link. -/
theorem create (h : s.SamePruned t) {f g : Frame} (hf : f.pruned = g.pruned) :
    State.SamePruned { s with scopes := s.scopes.create f }
      { t with scopes := t.scopes.create g } :=
  ⟨by rw [Scopes.pruned_create, h.scopes_eq, hf, Scopes.pruned_create], h.closures_eq, h.sink_eq⟩

end State.SamePruned

/-! ### Evaluation does not see repeated links -/

theorem State.SamePruned.indistinct : State.Indistinct State.SamePruned where
  resolve?_eq h := h.resolve?_eq
  next_eq h := h.next_eq
  closures_eq h := h.closures_eq
  sink_eq h := h.sink_eq
  close h := ⟨h.scopes_eq, congrArg (· + 1) h.closures_eq, h.sink_eq⟩
  define h := h.define
  create h _ := h.create rfl
  log h _ _ := h.log_left.log_right
  write h _ := ⟨h.scopes_eq, h.closures_eq, rfl⟩

/-- Runs with equal results, from states that differ in repeated links. -/
abbrev Run.SimulatesPruned {α : Type} (x y : Run α) : Prop :=
  Run.Simulates State.SamePruned Eq Eq x y

/-! ### Arguments and bodies -/

namespace Node

section Parts

variable {fuel fuel' : Nat} (hle : fuel ≤ fuel') (scope : ScopeId)
include hle

theorem evalArguments_pruned (args : List Node) {g g' : List Value → Run Value}
    (hg : ∀ vs, Run.SimulatesPruned (g vs) (g' vs)) :
    Run.SimulatesPruned (args.mapM (eval fuel scope) >>= g) (args.mapM (eval fuel' scope) >>= g') :=
  .bind (evalAll_same State.SamePruned.indistinct hle scope args) fun vs _ h => h ▸ hg vs

/-- A body in a scope inside the present one, whatever is called from where. -/
theorem evalBody_pruned {caller caller' : Option ScopeId}
    (hc : ∀ b, (Frame.mk (some scope) caller b).pruned = (Frame.mk (some scope) caller' b).pruned)
    (pairs : List (String × Value)) (body : Node) :
    Run.SimulatesPruned (Run.enter (some scope) caller pairs >>= fun frame => eval fuel frame body)
      (Run.enter (some scope) caller' pairs >>= fun frame => eval fuel' frame body) := by
  have henter : Run.SimulatesPruned (Run.enter (some scope) caller pairs)
      (Run.enter (some scope) caller' pairs) :=
    .of_outcome (Run.outcome_enter _ _ pairs) (Run.outcome_enter _ _ pairs) fun _ _ h =>
      ⟨.ok h.next_eq, h.create (hc _)⟩
  exact .bind henter fun frame _ h => h ▸ eval_same State.SamePruned.indistinct hle frame body

end Parts

end Node

/-! ### Calls from the scope of the definition -/

/-- The call of a closure from the scope of its definition, on arguments that are
still to be evaluated. -/
def Closure.callHere (fuel : Nat) (c : Closure) (args : List Node) (span : Span) : Run Value := do
  let values ← args.mapM (Node.eval fuel c.scope)
  (Function.closure c).applyWith (Node.eval fuel) values span c.scope

namespace Closure

section Length

variable (fuel : Nat) (c : Closure) {args : List Node} (span : Span)

theorem callHere_eq (h : c.params.length = args.length) :
    c.callHere fuel args span = (do
      let values ← args.mapM (Node.eval fuel c.scope)
      Run.log (.call c.name values.length)
      let frame ← Run.enter (some c.scope) (some c.scope) (c.params.zip values)
      Node.eval fuel frame c.body) :=
  Run.mapM_bind_congr fun _ hvs => if_pos (hvs.trans h.symm)

/-- With the wrong number of arguments the body is not evaluated. -/
theorem callHere_of_ne (h : c.params.length ≠ args.length) :
    c.callHere fuel args span = (do
      let _ ← Node.evalAll fuel c.scope args
      Run.fail (.arity c.name c.params.length args.length span)) := by
  refine Run.mapM_bind_congr fun values hvs => ?_
  rw [Function.applyWith, if_neg (hvs ▸ Ne.symm h), hvs]

theorem evalLetLate_zip (h : c.params.length = args.length) :
    Node.evalLetLate fuel c.scope (c.params.zip args) c.body span = (do
      Run.log (.specialForm .letForm span)
      let values ← args.mapM (Node.eval fuel c.scope)
      let frame ← Run.enter (some c.scope) none (c.params.zip values)
      Node.eval fuel frame c.body) := by
  have hvalues : ((c.params.zip args).mapM fun b => Node.eval fuel c.scope b.2) =
      args.mapM (Node.eval fuel c.scope) := by
    conv_rhs => rw [← List.map_snd_zip (Nat.le_of_eq h.symm), List.mapM_map]
    rfl
  rw [Node.evalLetLate, hvalues, List.map_fst_zip (Nat.le_of_eq h)]

end Length

variable {c : Closure} {args : List Node} (h : c.params.length = args.length) (p q : Span)
  {fuel fuel' : Nat} (hle : fuel ≤ fuel')
include h hle

theorem callHere_simulates_late :
    Run.SimulatesPruned (c.callHere fuel args p)
      (Node.evalLetLate fuel' c.scope (c.params.zip args) c.body q) := by
  rw [c.callHere_eq fuel p h, c.evalLetLate_zip fuel' q h]
  refine .log_right (Node.evalArguments_pruned hle c.scope args fun vs => ?_)
    fun _ _ h => h.log_right
  refine .log_left (Node.evalBody_pruned hle c.scope (fun b => ?_) _ c.body)
    fun _ _ h => h.log_left
  exact Frame.pruned_repeated c.scope b

theorem late_simulates_callHere :
    Run.SimulatesPruned (Node.evalLetLate fuel c.scope (c.params.zip args) c.body q)
      (c.callHere fuel' args p) := by
  rw [c.callHere_eq fuel' p h, c.evalLetLate_zip fuel q h]
  refine .log_left (Node.evalArguments_pruned hle c.scope args fun vs => ?_)
    fun _ _ h => h.log_left
  refine .log_right (Node.evalBody_pruned hle c.scope (fun b => ?_) _ c.body)
    fun _ _ h => h.log_right
  exact (Frame.pruned_repeated c.scope b).symm

variable {s t u : State} {r r' : Except EvalError Value} (hs : s.Orderly)
  (hscope : c.scope < s.scopes.next)
include hs hscope

theorem letIn_of_callHere (hcall : (c.callHere fuel args p).outcome s = some (r, t)) :
    ∃ r' u, ((Node.letIn (c.params.zip args) c.body q).eval (fuel' + 1) c.scope).outcome s =
        some (r', u) ∧
      ∃ t', t.SamePruned t' ∧ Run.SameUpToScopes s (r, t') (r', u) := by
  obtain ⟨_, t', hlate, hr, htt⟩ := callHere_simulates_late h p q hle _ _ (.refl s) r t hcall
  obtain rfl := hr.eq
  obtain ⟨⟨r', u⟩, hu, hru⟩ :=
    optionRel_some_left (Node.eval_letIn_late hs hscope fuel' _ c.body q) hlate
  exact ⟨r', u, hu, t', htt, hru⟩

theorem callHere_of_letIn
    (hlet : ((Node.letIn (c.params.zip args) c.body q).eval (fuel + 1) c.scope).outcome s =
      some (r', u)) :
    ∃ r t, (c.callHere fuel' args p).outcome s = some (r, t) ∧
      ∃ t', t.SamePruned t' ∧ Run.SameUpToScopes s (r, t') (r', u) := by
  obtain ⟨⟨r, t'⟩, hlate, hru⟩ :=
    optionRel_some_right (Node.eval_letIn_late hs hscope fuel _ c.body q) hlet
  obtain ⟨_, t, ht, hr, htt⟩ := late_simulates_callHere h p q hle _ _ (.refl s) r t' hlate
  obtain rfl := hr.eq
  exact ⟨r, t, ht, t', htt.symm, hru⟩

end Closure

/-! ### Function forms called on the spot -/

/-- States that a program cannot tell apart, but for the numbers of scopes: every scope
of the first is one of the second, which binds the same and from which the same is seen. -/
structure State.Agrees (ρ : Renumbering) (s t : State) : Prop where
  sink_eq : s.sink = t.sink
  closures_eq : s.closures = t.closures
  bindings : ∀ id, (s.scopes.bindings id).RelOn EveryKey (Value.Renumbered ρ)
    (t.scopes.bindings (ρ.scope id))
  resolve? : ∀ id name, Option.Rel (Value.Renumbered ρ) (s.scopes.resolve? id name)
    (t.scopes.resolve? (ρ.scope id) name)

/-- Two evaluations that start from one state end the same: with the same bytes written
and the same bindings in every scope that existed before, and with the same value or
error but for the numbers of the scopes that were created. -/
structure SameUpToFrames (s : State) (r : Except EvalError Value) (t : State)
    (q : Except EvalError Value) (u : State) : Prop where
  written_eq : t.sink = u.sink
  bindings : ∀ id < s.scopes.next, ∀ key,
    (t.scopes.bindings id).find? key = (u.scopes.bindings id).find? key
  agrees : ∃ ρ : Renumbering, ρ.Fixes s ∧ ρ.closure = id ∧ t.Agrees ρ u ∧
    ResultRel (EvalError.Rel (.ofSpans Eq) (Value.Renumbered ρ)) (Value.Renumbered ρ) r q

section

variable {ρ : Renumbering} {s t u : State} {r q : Except EvalError Value}

theorem State.SamePruned.agrees {t' : State} (h : t.SamePruned t') (k : t'.Renumbered ρ u)
    (hclosure : ρ.closure = id) : t.Agrees ρ u where
  sink_eq := h.sink_eq.trans k.sink_eq
  closures_eq := by
    have hnext := k.closures 0
    rw [hclosure] at hnext
    exact h.closures_eq.trans hnext
  bindings id := h.bindings_eq id ▸ k.bindings id
  resolve? id name := h.resolve?_eq id name ▸ k.resolve? id name

/-- The bindings of the scopes that there were are the same to the number: what is bound
there is a closure of that scope, or was bound there before. -/
theorem SameUpToFrames.of_pruned {scope : ScopeId} {x : Node} {t' : State} (hs : s.Orderly)
    (hscope : scope < s.scopes.next) (hx : x.Ends scope s r t) (h : t.SamePruned t')
    (k : Run.SameUpToScopes s (r, t') (q, u)) : SameUpToFrames s r t q u := by
  obtain ⟨ρ, hfixes, hclosure, ht, hr⟩ := k
  have hagrees := h.agrees ht hclosure
  refine ⟨hagrees.sink_eq, fun id hid key => ?_, ρ, hfixes, hclosure, hagrees, hr⟩
  have hkey := hagrees.bindings id key trivial
  rw [hfixes.scope id hid] at hkey
  refine optionRel_eq (optionRel_imp_of_eq hkey fun v w hv hvw => ?_)
  exact hvw.eq_of_fixed fun c hc => ⟨congrFun hclosure c.id,
    hfixes.scope c.scope (hs.scope_lt_of_ends hscope hx hid hv c hc)⟩

end

namespace Node

variable (scope : ScopeId) (name : String) (params : List String) (body : Node)
  (args : List Node) (p q span : Span) (s : State)

theorem outcome_call_function (fuel : Nat) :
    (eval (fuel + 2) scope (.call (.function name params body p) args span)).outcome s =
      ((closureMade s scope name params body).callHere (fuel + 1) args span).outcome
        (stateMade s scope name params body p) := by
  rw [eval_call, Run.outcome_bind]
  rfl

/-- A function form that is called on the spot agrees with the form followed by
the let form that pairs its parameters with the arguments: the one ends if the
other does, and it ends the same, but for the numbers of the scopes created. If there
are not as many arguments as parameters, the form and the arguments are evaluated,
and then the call fails. -/
theorem call_function_iff_letIn (hs : s.Reachable) (hscope : scope < s.scopes.next) :
    (params.length = args.length →
      (∀ fuel r t,
        (eval fuel scope (.call (.function name params body p) args span)).outcome s =
          some (r, t) →
        ∃ fuel' q' u,
          (do
            let _ ← eval fuel' scope (.function name params body p)
            eval fuel' scope (.letIn (params.zip args) body q)).outcome s = some (q', u) ∧
          SameUpToFrames s r t q' u) ∧
      ∀ fuel q' u,
        (do
          let _ ← eval fuel scope (.function name params body p)
          eval fuel scope (.letIn (params.zip args) body q)).outcome s = some (q', u) →
        ∃ fuel' r t,
          (eval fuel' scope (.call (.function name params body p) args span)).outcome s =
            some (r, t) ∧ SameUpToFrames s r t q' u) ∧
    (params.length ≠ args.length → ∀ fuel,
      eval (fuel + 1) scope (.call (.function name params body p) args span) = (do
        let _ ← eval fuel scope (.function name params body p)
        let _ ← evalAll fuel scope args
        Run.fail (.arity name params.length args.length span))) := by
  have hdef (fuel : Nat) := outcome_eval_function fuel scope name params body p s
  have hcall := outcome_call_function scope name params body args p span s
  -- where both go on once the closure has been made
  have hmade := (hs.orderly.of_ends hscope ⟨1, hdef 0⟩).1
  have hnext : (stateMade s scope name params body p).scopes.next = s.scopes.next :=
    Scopes.next_define ..
  have hscope' := hnext ▸ hscope
  have hsame {r t q' u} (hends : (Node.call (.function name params body p) args span).Ends scope s
      r t) (hlate : ∃ t', t.SamePruned t' ∧
        Run.SameUpToScopes (stateMade s scope name params body p) (r, t') (q', u)) :
      SameUpToFrames s r t q' u := by
    obtain ⟨t', htt, h⟩ := hlate
    exact .of_pruned hs.orderly hscope hends htt (h.of_le (Nat.le_of_eq hnext.symm) (Nat.le_succ _))
  refine ⟨fun h => ⟨fun fuel r t ho => ?_, fun fuel q' u ho => ?_⟩, fun h fuel => ?_⟩
  · match fuel with
    | 0 | 1 => cases ho
    | fuel + 2 =>
      obtain ⟨q', u, hu, hlate⟩ := Closure.letIn_of_callHere h span q (Nat.le_refl _) hmade hscope'
        ((hcall fuel).symm.trans ho)
      refine ⟨fuel + 2, q', u, ?_, hsame ⟨_, ho⟩ hlate⟩
      rw [Run.outcome_bind_of_ok (hdef _)]
      exact hu
  · match fuel with
    | 0 => cases ho
    | fuel + 1 =>
      rw [Run.outcome_bind_of_ok (hdef _)] at ho
      obtain ⟨r, t, ht, hlate⟩ :=
        Closure.callHere_of_letIn (c := closureMade s scope name params body) h span q
          (Nat.le_succ fuel) hmade hscope' ho
      have hends := (hcall fuel).trans ht
      exact ⟨fuel + 2, r, t, hends, hsame ⟨_, hends⟩ hlate⟩
  · match fuel with
    | 0 => rfl
    | fuel + 1 =>
      refine Run.ext fun s => ?_
      rw [outcome_call_function, Run.outcome_bind_of_ok (outcome_eval_function ..),
        Closure.callHere_of_ne _ _ _ h]
      rfl

/-- Of two parameters with one name the last argument is seen, in a let form too. It is a
closure of a scope that comes before the scope of the call, but after that of the let form. -/
theorem call_function_iff_letIn_duplicate :
    let z : Span := ⟨0, 0⟩
    let s := (Session.initial.createScope "g" none none).state
    let f := Node.function "f" ["x", "X"] (.call (.symbol "x" z) [] z) z
    let args := [Node.boolean false z, .letIn [] (.function "h" [] (.boolean true z) z) z]
    s.Reachable ∧ 0 < s.scopes.next ∧
    ∃ t, (eval 5 0 (.call f args z)).outcome s = some (.ok (.boolean true), t) ∧
      ∃ fuel q u, (do
          let _ ← f.eval fuel 0
          eval fuel 0 (.letIn (["x", "X"].zip args) (.call (.symbol "x" z) [] z) z)).outcome s =
        some (q, u) ∧ SameUpToFrames s (.ok (.boolean true)) t q u := by
  intro z s f args
  have hs : s.Reachable :=
    ⟨[], _, @Session.Reached.step [] Session.initial _ 0 (.global "g") .done .initial rfl, .inl rfl⟩
  have hrun : ((eval 5 0 (.call f args z)).outcome s).map (fun p =>
      p.1.toOption.bind Value.boolean?) = some (some true) := by decide +kernel
  obtain ⟨⟨r, t⟩, ho, hr⟩ := Option.map_eq_some_iff.1 hrun
  obtain rfl : r = .ok (.boolean true) := by
    match r, hr with
    | .ok (.boolean _), rfl => rfl
  obtain ⟨hends, -⟩ := (call_function_iff_letIn 0 "f" ["x", "X"] (.call (.symbol "x" z) [] z) args
    z z z s hs Nat.one_pos).1 rfl
  exact ⟨hs, Nat.one_pos, t, ho, hends 5 _ t ho⟩

end Node

end SmallLisp
