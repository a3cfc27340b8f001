import SmallLisp.Proofs.Likeness
import SmallLisp.Proofs.Correspondence.Values

/-! Two evaluations side by side. A correspondence says which trees, scopes,
closures and states stand for each other, and that each operation of the
evaluator takes what corresponds to what corresponds. Then so does evaluation as
a whole: it ends alike, with the same bytes written. A correspondence in which
things stand only for themselves is an invariant of one evaluation. -/

namespace SmallLisp

/-- Trees of the same form, with names and spans that are alike and parts that
`T` relates. The head of a call is no part if it names a primitive. The body of
a function form is none either, because it is not evaluated with the form. -/
inductive Node.Layer (L : Likeness) (T : Node → Node → Prop) : Node → Node → Prop
  | number (x : Single) {p q : Span} (hs : L.span p q) : Layer L T (.number x p) (.number x q)
  | string (s : String) {p q : Span} (hs : L.span p q) : Layer L T (.string s p) (.string s q)
  | boolean (b : Bool) {p q : Span} (hs : L.span p q) : Layer L T (.boolean b p) (.boolean b q)
  | symbol {f g : String} {p q : Span} (hn : L.name f g) (hs : L.span p q) :
    Layer L T (.symbol f p) (.symbol g q)
  | list {xs ys : List Node} {p q : Span} (hx : List.Forall₂ T xs ys) (hs : L.span p q) :
    Layer L T (.list xs p) (.list ys q)
  | call {f g : Node} {xs ys : List Node} {p q : Span} (hp : f.primitive? = g.primitive?)
    (hf : f.primitive? = none → T f g) (hx : List.Forall₂ T xs ys) (hs : L.span p q) :
    Layer L T (.call f xs p) (.call g ys q)
  | letIn {bs cs : List (String × Node)} {x y : Node} {p q : Span}
    (hn : List.Forall₂ L.name (bs.map (·.1)) (cs.map (·.1)))
    (hv : List.Forall₂ T (bs.map (·.2)) (cs.map (·.2))) (hx : T x y) (hs : L.span p q) :
    Layer L T (.letIn bs x p) (.letIn cs y q)
  | conditional {a b x y : Node} {no no' : Option Node} {p q : Span} (ht : T a b) (hx : T x y)
    (hn : Option.Rel T no no') (hs : L.span p q) :
    Layer L T (.conditional a x no p) (.conditional b y no' q)
  | function {f g : String} {ps qs : List String} {x y : Node} {p q : Span} (hn : L.name f g)
    (hs : L.span p q) : Layer L T (.function f ps x p) (.function g qs y q)

theorem Node.Layer.span {L : Likeness} {T : Node → Node → Prop} {x y : Node} (h : x.Layer L T y) :
    L.span x.span y.span := by
  cases h <;> assumption

/-- The parts that a tree has in its layer. -/
def Node.operands : Node → List Node
  | number .. | string .. | boolean .. | symbol .. | function .. => []
  | list items _ => items
  | call head args _ => (if head.primitive?.isSome then [] else [head]) ++ args
  | letIn bindings body _ => bindings.map (·.2) ++ [body]
  | conditional test yes no _ => test :: yes :: no.toList

/-- The names that a tree has in its layer. -/
def Node.names : Node → List String
  | symbol name _ | function name _ _ _ => [name]
  | letIn bindings _ _ => bindings.map (·.1)
  | number .. | string .. | boolean .. | list .. | call .. | conditional .. => []

/-- A tree stands for itself if its names, its span and its operands do. -/
theorem Node.layer_self {L : Likeness} {T : Node → Node → Prop} {x : Node}
    (hn : ∀ name ∈ x.names, L.name name name) (hs : L.span x.span x.span)
    (h : ∀ y ∈ x.operands, T y y) : x.Layer L T x := by
  have same {R : Node → Node → Prop} {xs : List Node} (h : ∀ x ∈ xs, R x x) :
      List.Forall₂ R xs xs :=
    List.forall₂_same.2 h
  cases x with
  | number x s => exact .number x hs
  | string x s => exact .string x hs
  | boolean b s => exact .boolean b hs
  | symbol name s => exact .symbol (hn name (List.mem_singleton_self name)) hs
  | list items s => exact .list (same h) hs
  | call head args s =>
    obtain ⟨hf, ha⟩ := List.forall_mem_append.1 h
    refine .call rfl (fun hp => hf head ?_) (same ha) hs
    rw [hp]
    exact List.mem_singleton_self head
  | letIn bindings body s =>
    obtain ⟨hb, hx⟩ := List.forall_mem_append.1 h
    exact .letIn (List.forall₂_same.2 hn) (same hb)
      (hx body (List.mem_singleton_self body)) hs
  | conditional test yes no s =>
    obtain ⟨ht, hrest⟩ := List.forall_mem_cons.1 h
    obtain ⟨hy, hno⟩ := List.forall_mem_cons.1 hrest
    refine .conditional ht hy ?_ hs
    cases no with
    | none => exact .none
    | some x => exact .some (hno x (List.mem_singleton_self x))
  | function name params body s => exact .function (hn name (List.mem_singleton_self name)) hs

/-- Equal trees are alike. -/
theorem Node.layer_of_eq {x y : Node} (h : x = y) : x.Layer (.ofSpans Eq) Eq y :=
  h ▸ layer_self (fun _ _ => rfl) rfl fun _ _ => rfl

/-- Errors of one kind, with names, spans and values that stand for each other. -/
inductive EvalError.Rel (L : Likeness) (V : Value → Value → Prop) : EvalError → EvalError → Prop
  | unbound {f g : String} {p q : Span} (hn : L.name f g) (hs : L.span p q) :
    Rel L V (.unbound f p) (.unbound g q)
  | notAFunction {v w : Value} {p q : Span} (hv : V v w) (hs : L.span p q) :
    Rel L V (.notAFunction v p) (.notAFunction w q)
  | conditionNotBoolean {v w : Value} {p q : Span} (hv : V v w) (hs : L.span p q) :
    Rel L V (.conditionNotBoolean v p) (.conditionNotBoolean w q)
  | arity {f g : String} (expected found : Nat) {p q : Span} (hn : L.name f g) (hs : L.span p q) :
    Rel L V (.arity f expected found p) (.arity g expected found q)
  | invalidArguments (fault : ArgumentError) {p q : Span} (hs : L.span p q) :
    Rel L V (.invalidArguments fault p) (.invalidArguments fault q)
  | sinkFull {p q : Span} (hs : L.span p q) : Rel L V (.sinkFull p) (.sinkFull q)

section Errors

variable {L : Likeness} {V : Value → Value → Prop} {e f : EvalError}

theorem EvalError.Rel.span (h : e.Rel L V f) : L.span e.span f.span := by
  cases h <;> assumption

theorem EvalError.Rel.message_eq (hn : ∀ {f g : String}, L.name f g → f = g)
    (hv : ∀ {v w : Value}, V v w → v.text = w.text ∧ v.type = w.type) (h : e.Rel L V f) :
    e.message = f.message := by
  cases h with
  | unbound h => exact congrArg (fun name => "Unbound symbol: '" ++ name ++ "'") (hn h)
  | notAFunction h =>
    exact congrArg ("Evaluation Error: Expected a function, but got: " ++ ·) (hv h).1
  | conditionNotBoolean h =>
    exact congrArg (fun type => "Evaluation Error: if predicate must be a boolean, but got " ++
      ValueType.name type) (hv h).2
  | arity expected found h =>
    exact congrArg (fun name => message (.arity name expected found ⟨0, 0⟩)) (hn h)
  | invalidArguments | sinkFull => rfl

theorem EvalError.Rel.eq (hs : ∀ {p q : Span}, L.span p q → p = q)
    (hn : ∀ {f g : String}, L.name f g → f = g) (hv : ∀ {v w : Value}, V v w → v = w)
    (h : e.Rel L V f) : e = f := by
  cases h with
  | unbound h k => rw [hn h, hs k]
  | notAFunction h k => rw [hv h, hs k]
  | conditionNotBoolean h k => rw [hv h, hs k]
  | arity expected found h k => rw [hn h, hs k]
  | invalidArguments fault k => rw [hs k]
  | sinkFull k => rw [hs k]

end Errors

/-- What stands for what in two evaluations, and what every step of them keeps. -/
structure Correspondence extends Likeness where
  tree : Node → Node → Prop
  scope : ScopeId → ScopeId → Prop
  closure : Closure → Closure → Prop
  state : State → State → Prop
  layer {x y : Node} : tree x y → x.Layer toLikeness tree y
  closure_name {c d : Closure} : closure c d → name c.name d.name
  closure_params {c d : Closure} : closure c d → List.Forall₂ name c.params d.params
  closure_body {c d : Closure} : closure c d → tree c.body d.body
  closure_scope {c d : Closure} : closure c d → scope c.scope d.scope
  /-- A symbol means the same from scopes that stand for each other. -/
  resolve? {s t : State} {i j : ScopeId} {f g : String} {p q : Span} :
    state s t → scope i j → tree (.symbol f p) (.symbol g q) →
    Option.Rel (Value.Rel closure) (s.scopes.resolve? i f) (t.scopes.resolve? j g)
  /-- A function form makes a closure. -/
  close {s t : State} {i j : ScopeId} {f g : String} {ps qs : List String} {x y : Node}
    {p q : Span} :
    state s t → scope i j → tree (.function f ps x p) (.function g qs y q) →
    closure ⟨s.closures, f, ps, x, i⟩ ⟨t.closures, g, qs, y, j⟩ ∧
      state { s with closures := s.closures + 1 } { t with closures := t.closures + 1 }
  define {s t : State} {i j : ScopeId} {f g : String} {v w : Value} :
    state s t → scope i j → name f g → v.Rel closure w →
    state { s with scopes := s.scopes.define i f v } { t with scopes := t.scopes.define j g w }
  enter {s t : State} {o o' c c' : Option ScopeId} {fs gs : List String} {vs ws : List Value} :
    state s t → Option.Rel scope o o' → Option.Rel scope c c' → List.Forall₂ name fs gs →
    List.Forall₂ (Value.Rel closure) vs ws →
    scope s.scopes.next t.scopes.next ∧
      state { s with scopes := s.scopes.create ⟨o, c, .ofPairs (fs.zip vs)⟩ }
        { t with scopes := t.scopes.create ⟨o', c', .ofPairs (gs.zip ws)⟩ }
  log {s t : State} (d e : Event) : state s t → state (s.log d) (t.log e)
  sink_eq {s t : State} : state s t → s.sink = t.sink
  write {s t : State} (k : Sink) : state s t → state { s with sink := k } { t with sink := k }

namespace Correspondence

variable (C : Correspondence)

def value : Value → Value → Prop := Value.Rel C.closure

def error : EvalError → EvalError → Prop := EvalError.Rel C.toLikeness C.value

/-- Runs that end alike from states that stand for each other. -/
abbrev Simulates {α β : Type} (V : α → β → Prop) (x : Run α) (y : Run β) : Prop :=
  Run.Simulates C.state C.error V x y

variable {C}

theorem closure_lowercase_eq (c d : Closure) (h : C.closure c d) :
    Text.lowercase c.name = Text.lowercase d.name :=
  C.lowercase_eq (C.closure_name h)

/-! ### Operations -/

theorem simulates_log (d e : Event) : C.Simulates Eq (Run.log d) (Run.log e) :=
  .of_outcome (Run.outcome_log d) (Run.outcome_log e) fun _ _ h => ⟨.ok rfl, C.log d e h⟩

theorem simulates_lookup {i j : ScopeId} (hi : C.scope i j) {f g : String} {p q : Span}
    (hx : C.tree (.symbol f p) (.symbol g q)) :
    C.Simulates C.value (Run.lookup i f p) (Run.lookup j g q) := by
  refine .of_outcome (Run.outcome_lookup i f p) (Run.outcome_lookup j g q) fun s t h => ⟨?_, h⟩
  have hr := C.resolve? h hi hx
  dsimp only
  generalize s.scopes.resolve? i f = a at hr ⊢
  generalize t.scopes.resolve? j g = b at hr ⊢
  cases hr with
  | none =>
    cases C.layer hx with
    | symbol hn hs => exact .error (.unbound hn hs)
  | some hv => exact .ok hv

theorem simulates_close {i j : ScopeId} (hi : C.scope i j) {f g : String} {ps qs : List String}
    {x y : Node} {p q : Span} (hx : C.tree (.function f ps x p) (.function g qs y q)) :
    C.Simulates C.closure (Run.makeClosure f ps x i) (Run.makeClosure g qs y j) :=
  .of_outcome (Run.outcome_makeClosure f ps x i) (Run.outcome_makeClosure g qs y j) fun _ _ h =>
    have hc := C.close h hi hx
    ⟨.ok hc.1, hc.2⟩

theorem simulates_define {i j : ScopeId} (hi : C.scope i j) {f g : String} (hn : C.name f g)
    {v w : Value} (hv : C.value v w) : C.Simulates Eq (Run.define i f v) (Run.define j g w) :=
  .of_outcome (Run.outcome_define i f v) (Run.outcome_define j g w) fun _ _ h =>
    ⟨.ok rfl, C.define h hi hn hv⟩

theorem simulates_enter {o o' c c' : Option ScopeId} (ho : Option.Rel C.scope o o')
    (hc : Option.Rel C.scope c c') {fs gs : List String} (hn : List.Forall₂ C.name fs gs)
    {vs ws : List Value} (hv : List.Forall₂ C.value vs ws) :
    C.Simulates C.scope (Run.enter o c (fs.zip vs)) (Run.enter o' c' (gs.zip ws)) :=
  .of_outcome (Run.outcome_enter o c _) (Run.outcome_enter o' c' _) fun _ _ h =>
    have he := C.enter h ho hc hn hv
    ⟨.ok he.1, he.2⟩

/-- Scopes that are filled with the values of corresponding bindings. -/
theorem simulates_fill {i j : ScopeId} (hi : C.scope i j) {α β : Type} {f : α → Run Value}
    {g : β → Run Value} {bs : List (String × α)} {cs : List (String × β)}
    (hn : List.Forall₂ C.name (bs.map (·.1)) (cs.map (·.1)))
    (hv : List.Forall₂ (fun b c => C.Simulates C.value (f b) (g c)) (bs.map (·.2))
      (cs.map (·.2))) :
    C.Simulates Eq (Run.fill i f bs) (Run.fill j g cs) := by
  induction bs generalizing cs with
  | nil =>
    obtain rfl := List.map_eq_nil_iff.1 (List.forall₂_nil_left_iff.1 hn)
    exact .pure rfl
  | cons b bs ih =>
    match cs with
    | [] => cases hn
    | c :: cs =>
      obtain ⟨hname, hn⟩ := List.forall₂_cons.1 hn
      obtain ⟨hvalue, hv⟩ := List.forall₂_cons.1 hv
      rw [Run.fill_cons, Run.fill_cons]
      refine .bind hvalue fun v w hvw => ?_
      exact .bind (simulates_define hi hname hvw) fun _ _ _ => ih hn hv

theorem simulates_write (text : String) {p q : Span} (hs : C.span p q) :
    C.Simulates Eq (Run.write text p) (Run.write text q) := by
  refine .of_outcome (Run.outcome_write text p) (Run.outcome_write text q) fun s t h => ?_
  have hk := C.sink_eq h
  refine ⟨?_, by rw [hk]; exact C.write _ h⟩
  dsimp only
  rw [hk]
  split
  · exact .ok rfl
  · exact .error (.sinkFull hs)

/-! ### Calls -/

theorem output?_eq (p : Primitive) {v w : Value} (h : C.value v w) : p.output? v = p.output? w := by
  cases h with
  | string | number | boolean => rfl
  | function | list => cases p <;> rfl

theorem simulates_primitive (p : Primitive) {vs ws : List Value}
    (hv : List.Forall₂ C.value vs ws) {a b : Span} (hs : C.span a b) :
    C.Simulates C.value (p.apply vs a) (p.apply ws b) := by
  have hr := Primitive.result_rel hv C.closure_lowercase_eq p
  rw [Primitive.apply, Primitive.apply]
  generalize p.result vs = x at hr ⊢
  generalize p.result ws = y at hr ⊢
  cases hr with
  | error h =>
    subst h
    exact .fail (.invalidArguments _ hs)
  | @ok v w h =>
    dsimp only
    rw [output?_eq p h]
    cases p.output? w with
    | none => exact .pure h
    | some text => exact .bind (simulates_write text hs) fun _ _ _ => .pure h

/-- Functions applied to arguments, if their bodies are evaluated alike. -/
theorem simulates_applyWith {body body' : ScopeId → Node → Run Value}
    (hb : ∀ {i j : ScopeId} {x y : Node}, C.scope i j → C.tree x y →
      C.Simulates C.value (body i x) (body' j y))
    {f g : Function} (hf : f.Rel C.closure g) {vs ws : List Value}
    (hv : List.Forall₂ C.value vs ws) {p q : Span} (hs : C.span p q) {i j : ScopeId}
    (hi : C.scope i j) :
    C.Simulates C.value (f.applyWith body vs p i) (g.applyWith body' ws q j) := by
  cases hf with
  | primitive r => exact simulates_primitive r hv hs
  | @closure c d h =>
    have hp := C.closure_params h
    rw [Function.applyWith, Function.applyWith, hv.length_eq, hp.length_eq]
    split
    · refine .bind (simulates_log _ _) fun _ _ _ => ?_
      have hscope : Option.Rel C.scope (some c.scope) (some d.scope) := .some (C.closure_scope h)
      refine .bind (simulates_enter hscope (.some hi) hp hv) fun frame frame' hframe => ?_
      exact hb hframe (C.closure_body h)
    · exact .fail (.arity _ _ (C.closure_name h) hs)

/-! ### Trees -/

section Parts

variable {fuel fuel' : Nat} (ih : ∀ {i j : ScopeId} {x y : Node}, C.scope i j → C.tree x y →
    C.Simulates C.value (Node.eval fuel i x) (Node.eval fuel' j y))
  {i j : ScopeId} (hi : C.scope i j)
include ih hi

theorem simulates_evalHead {x y : Node} (hp : x.primitive? = y.primitive?)
    (h : x.primitive? = none → C.tree x y) :
    C.Simulates (Function.Rel C.closure) (Node.evalHead fuel i x) (Node.evalHead fuel' j y) := by
  rw [Node.evalHead, Node.evalHead, ← hp]
  cases hx : x.primitive? with
  | some p => exact .pure (.primitive p)
  | none =>
    have h := h hx
    have hs := (C.layer h).span
    refine .bind (ih hi h) fun v w hvw => ?_
    cases hvw with
    | function hf => exact .pure hf
    | string s => exact .fail (.notAFunction (.string s) hs)
    | number x => exact .fail (.notAFunction (.number x) hs)
    | boolean b => exact .fail (.notAFunction (.boolean b) hs)
    | list hv => exact .fail (.notAFunction (.list hv) hs)

theorem simulates_evalBranch {test test' yes yes' : Node} {no no' : Option Node}
    (ht : C.tree test test') (hy : C.tree yes yes') (hn : Option.Rel C.tree no no') {v w : Value}
    (hv : C.value v w) :
    C.Simulates C.value (Node.evalBranch fuel i test yes no v)
      (Node.evalBranch fuel' j test' yes' no' w) := by
  have hs := (C.layer ht).span
  cases hv with
  | boolean b =>
    cases b with
    | true => exact ih hi hy
    | false =>
      cases hn with
      | none => exact .pure (.boolean false)
      | some hn => exact ih hi hn
  | string s => exact .fail (.conditionNotBoolean (.string s) hs)
  | number x => exact .fail (.conditionNotBoolean (.number x) hs)
  | function hf => exact .fail (.conditionNotBoolean (.function hf) hs)
  | list hv => exact .fail (.conditionNotBoolean (.list hv) hs)

end Parts

/-- What corresponds is evaluated alike, with as much fuel or with more. -/
theorem simulates_eval {fuel : Nat} : ∀ {fuel' : Nat}, fuel ≤ fuel' → ∀ {i j : ScopeId}
    {x y : Node}, C.scope i j → C.tree x y →
    C.Simulates C.value (Node.eval fuel i x) (Node.eval fuel' j y) := by
  induction fuel with
  | zero => exact fun _ _ _ _ _ _ _ => .outOfFuel _
  | succ fuel ih =>
    intro fuel' hle i j x y hi h
    cases fuel' with
    | zero => exact absurd hle (Nat.not_succ_le_zero fuel)
    | succ fuel' =>
      have ih {i j : ScopeId} {x y : Node} := @ih fuel' (Nat.le_of_succ_le_succ hle) i j x y
      cases C.layer h with
      | number x => exact .pure (.number x)
      | string s => exact .pure (.string s)
      | boolean b => exact .pure (.boolean b)
      | symbol hn hs => exact simulates_lookup hi h
      | list hx hs =>
        refine .bind (.mapM hx fun _ _ h => ih hi h) fun vs ws hv => ?_
        exact .pure (.list hv)
      | call hp hf hx hs =>
        rw [Node.eval_call, Node.eval_call]
        refine .bind (simulates_evalHead ih hi hp hf) fun f g hfg => ?_
        refine .bind (.mapM hx fun _ _ h => ih hi h) fun vs ws hv => ?_
        exact simulates_applyWith ih hfg hv hs hi
      | @letIn bs cs body body' p q hn hv hx hs =>
        refine .bind (simulates_log _ _) fun _ _ _ => ?_
        have hopen : C.Simulates C.scope (Run.enter (some i) none [])
            (Run.enter (some j) none []) :=
          simulates_enter (.some hi) .none .nil .nil
        refine .bind hopen fun frame frame' hframe => ?_
        have hvalues := simulates_fill hframe hn (hv.imp fun _ _ h => ih hi h)
        exact .bind hvalues fun _ _ _ => ih hframe hx
      | conditional ht hx hn hs =>
        rw [Node.eval_conditional, Node.eval_conditional]
        refine .bind (simulates_log _ _) fun _ _ _ => ?_
        exact .bind (ih hi ht) fun v w hv => simulates_evalBranch ih hi ht hx hn hv
      | function hn hs =>
        refine .bind (simulates_log _ _) fun _ _ _ => ?_
        refine .bind (simulates_log _ _) fun _ _ _ => ?_
        refine .bind (simulates_close hi h) fun c d hcd => ?_
        refine .bind (simulates_define hi hn (.function (.closure hcd))) fun _ _ _ => ?_
        exact .pure (.function (.closure hcd))

theorem simulates_evalAll {fuel fuel' : Nat} (hle : fuel ≤ fuel') {i j : ScopeId}
    (hi : C.scope i j) {xs ys : List Node} (h : List.Forall₂ C.tree xs ys) :
    C.Simulates (List.Forall₂ C.value) (Node.evalAll fuel i xs) (Node.evalAll fuel' j ys) :=
  .mapM h fun _ _ hx => simulates_eval hle hi hx

end Correspondence

end SmallLisp
