import SmallLisp.Proofs.Correspondence.Discipline
import SmallLisp.Proofs.Isolation
import SmallLisp.Proofs.Reprinting

/-! Definitions that a program cannot notice. Two runs of a program are followed
whose scopes bind the same under all names that the program looks up, and may
differ under others. No name but those in the program is ever looked up, in a
closure either, because all closures that can be reached by such names were read
from it. So functions whose names the program does not look up make no
difference, and a primitive at the head of a call is not looked up. -/

namespace SmallLisp

/-! ### Names that are looked up -/

namespace Node

mutual

/-- The symbols of a tree in lowercase, in its functions too, without the names of
primitives at the heads of calls. -/
def symbols : Node → List String
  | number .. | string .. | boolean .. => []
  | symbol name _ => [Text.lowercase name]
  | list items _ => symbolsAll items
  | call head args _ => (if head.primitive?.isSome then [] else head.symbols) ++ symbolsAll args
  | letIn bindings body _ => symbolsBindings bindings ++ body.symbols
  | conditional test yes no _ => test.symbols ++ (yes.symbols ++ symbolsOptional no)
  | function _ _ body _ => body.symbols

def symbolsAll : List Node → List String
  | [] => []
  | x :: xs => x.symbols ++ symbolsAll xs

def symbolsBindings : List (String × Node) → List String
  | [] => []
  | (_, x) :: bs => x.symbols ++ symbolsBindings bs

def symbolsOptional : Option Node → List String
  | none => []
  | some x => x.symbols

end

theorem symbolsAll_eq_flatMap (xs : List Node) : symbolsAll xs = xs.flatMap symbols := by
  induction xs with
  | nil => rfl
  | cons x xs ih => rw [symbolsAll, ih, List.flatMap_cons]

theorem symbolsBindings_eq_flatMap (bs : List (String × Node)) :
    symbolsBindings bs = (bs.map (·.2)).flatMap symbols := by
  induction bs with
  | nil => rfl
  | cons b bs ih => rw [symbolsBindings, ih, List.map_cons, List.flatMap_cons]

theorem symbols_subset_of_operand {x y : Node} (h : y ∈ x.operands) : y.symbols ⊆ x.symbols := by
  have all {xs : List Node} (h : y ∈ xs) : y.symbols ⊆ xs.flatMap symbols :=
    fun _ hk => List.mem_flatMap.2 ⟨y, h, hk⟩
  cases x with
  | number | string | boolean | symbol | function => cases h
  | list items s =>
    rw [symbols, symbolsAll_eq_flatMap]
    exact all h
  | call head args s =>
    rw [symbols, symbolsAll_eq_flatMap]
    rcases List.mem_append.1 h with h | h
    · split at h
      · cases h
      · next hp =>
        obtain rfl := List.mem_singleton.1 h
        rw [if_neg hp]
        exact List.subset_append_left _ _
    · exact List.subset_append_of_subset_right _ (all h)
  | letIn bindings body s =>
    rw [symbols, symbolsBindings_eq_flatMap]
    rcases List.mem_append.1 h with h | h
    · exact List.subset_append_of_subset_left _ (all h)
    · obtain rfl := List.mem_singleton.1 h
      exact List.subset_append_right _ _
  | conditional test yes no s =>
    rw [symbols]
    rcases List.mem_cons.1 h with rfl | h
    · exact List.subset_append_left _ _
    rcases List.mem_cons.1 h with rfl | h
    · exact List.subset_append_of_subset_right _ (List.subset_append_left _ _)
    · cases no with
      | none => cases h
      | some x =>
        obtain rfl := List.mem_singleton.1 h
        exact List.subset_append_of_subset_right _ (List.subset_append_right _ _)

/-- The tree looks up nothing but keys that count. -/
def SeeksOnly (K : String → Prop) (x : Node) : Prop := ∀ key ∈ x.symbols, K key

end Node

variable {K : String → Prop}

/-- Trees that look up nothing but keys that count. -/
def Discipline.seeksOnly (K : String → Prop) : Discipline where
  tree := Node.SeeksOnly K
  key := K
  symbol h := h _ (List.mem_singleton_self _)
  operand h hy key hk := h key (Node.symbols_subset_of_operand hy hk)
  body h := h

/-! ### Programs -/

/-- Errors of one kind, with one message, at one place. -/
def Error.SameError (e f : Error) : Prop :=
  e.kind = f.kind ∧ e.message = f.message ∧ e.span? = f.span?

theorem Correspondence.sameError {D : Discipline} {e f : EvalError} (h : (twin D).error e f) :
    Error.SameError (.eval e) (.eval f) :=
  ⟨h.kind_eq, h.message_eq id fun hv => ⟨hv.text_eq fun _ _ => Closure.Twin.chars_eq, hv.type_eq⟩,
    congrArg some h.span⟩

/-- Two programs end with the same bytes written, and with values that are written
the same or with the same error. -/
structure SameEnd (r : Except Error Value) (t : State) (q : Except Error Value) (u : State) :
    Prop where
  written_eq : t.sink = u.sink
  result : ResultRel Error.SameError (fun v w => v.text = w.text) r q

theorem SameEnd.symm {r q : Except Error Value} {t u : State} (h : SameEnd r t q u) :
    SameEnd q u r t where
  written_eq := h.written_eq.symm
  result :=
    h.result.symm (fun _ _ he => ⟨he.1.symm, he.2.1.symm, he.2.2.symm⟩) fun _ _ hv => hv.symm

/-- A program ends the same on states that agree about all names that it looks up. -/
theorem evaluates_seeksOnly {source : String}
    (hseeks : ∀ forms, parseText source = .ok forms → ∀ key ∈ Node.symbolsAll forms, K key)
    {s t u : State} (hst : s.Twin (.seeksOnly K) t) {scope : ScopeId} {r : Except Error Value}
    (h : Evaluates scope source s r u) :
    ∃ q w, Evaluates scope source t q w ∧ SameEnd r u q w := by
  obtain ⟨fuel, h⟩ := h
  have hforms (forms : List Node) (hp : parseText source = .ok forms) (x : Node) (hx : x ∈ forms) :
      x.SeeksOnly K := fun key hk => hseeks forms hp key <| by
    rw [Node.symbolsAll_eq_flatMap]
    exact List.mem_flatMap.2 ⟨x, hx, hk⟩
  obtain ⟨q, w, ho, hr, huw⟩ :=
    evaluate_twin (fun _ _ => Correspondence.sameError) (fun _ => ⟨rfl, rfl, rfl⟩) hforms hst h
  refine ⟨q, w, ⟨fuel, ho⟩, huw.sink_eq, hr.imp (fun _ _ he => he) fun _ _ hv => ?_⟩
  exact hv.text_eq fun _ _ => Closure.Twin.chars_eq

/-! ### Definitions -/

namespace Node

def isDefinition : Node → Bool
  | function .. => true
  | _ => false

variable {ds : List Node} (hd : ∀ d ∈ ds, d.isDefinition) (scope : ScopeId)
include hd

theorem exists_outcome_definitions (s : State) :
    ∃ vs t, (evalAll 1 scope ds).outcome s = some (.ok vs, t) := by
  induction ds generalizing s with
  | nil => exact ⟨[], s, rfl⟩
  | cons d ds ih =>
    obtain ⟨hfirst, hrest⟩ := List.forall_mem_cons.1 hd
    cases d with
    | function name params body span =>
      obtain ⟨vs, t, ho⟩ := ih hrest (stateMade s scope name params body span)
      refine ⟨.function (.closure (closureMade s scope name params body)) :: vs, t, ?_⟩
      rw [evalAll, List.mapM_cons, Run.outcome_bind_of_ok (outcome_eval_function ..)]
      exact Run.outcome_bind_of_ok ho _
    | number | string | boolean | symbol | list | call | letIn | conditional => cases hfirst

/-- Definitions under keys that do not count change nothing that does. -/
theorem follows_definitions (hK : ∀ d ∈ definitionsAll ds, ¬K (Text.lowercase d.name))
    (fuel : Nat) :
    Run.Follows (fun s u => ∀ t, s.Twin (.seeksOnly K) t → u.Twin (.seeksOnly K) t)
      (evalAll fuel scope ds) := by
  refine .mapM (fun _ _ _ h k v hv => k v (h v hv)) (fun _ _ h => h) fun d hm => ?_
  have hname := definitions_subset_all hm
  cases d with
  | function name params body span =>
    cases fuel with
    | zero => exact .outOfFuel
    | succ fuel =>
      intro s r u ho t h
      rw [outcome_eval_function] at ho
      cases ho
      exact ⟨h.scopes.define_left scope (hK _ (hname (List.mem_singleton_self _))) _, h.sink_eq⟩
  | number | string | boolean | symbol | list | call | letIn | conditional => cases hd _ hm

end Node

/-- Functions whose names a program does not look up, defined before it, make no
difference to it: it ends if it does without them, with the same bytes written
and the same text of its value or the same error. A primitive's name at the head
of a call is not looked up. -/
theorem evaluate_after_definitions {definitions program : String} {ds : List Node}
    (hp : parseText definitions = .ok ds) (hd : ∀ d ∈ ds, d.isDefinition)
    (hseeks : ∀ forms, parseText program = .ok forms →
      ∀ d ∈ Node.definitionsAll ds, Text.lowercase d.name ∉ Node.symbolsAll forms)
    (limit : Option Nat) :
    (∀ r₀ s r t, Evaluates 0 definitions (.fresh limit) r₀ s → Evaluates 0 program s r t →
      ∃ q u, Evaluates 0 program (.fresh limit) q u ∧ SameEnd r t q u) ∧
    ∀ q u, Evaluates 0 program (.fresh limit) q u →
      ∃ r₀ s r t, Evaluates 0 definitions (.fresh limit) r₀ s ∧ Evaluates 0 program s r t ∧
        SameEnd r t q u := by
  -- the names that count are all but those that are defined
  let K (key : String) : Prop := ∀ d ∈ Node.definitionsAll ds, Text.lowercase d.name ≠ key
  have hK (d : Definition) (hdm : d ∈ Node.definitionsAll ds) : ¬K (Text.lowercase d.name) :=
    fun h => h d hdm rfl
  have hprogram (forms : List Node) (hf : parseText program = .ok forms) (key : String)
      (hk : key ∈ Node.symbolsAll forms) : K key := by
    rintro d hdm rfl
    exact hseeks forms hf d hdm hk
  have hsame {r₀ : Except Error Value} {s : State}
      (h : Evaluates 0 definitions (.fresh limit) r₀ s) :
      s.Twin (.seeksOnly K) (.fresh limit) := by
    obtain ⟨fuel, q, ho, -⟩ := (evaluates_iff hp).1 h
    have hstart : State.Twin (.seeksOnly K) _ _ :=
      (State.twin_fresh limit).log (.program ds.length) (.program 0)
    have hends := Node.follows_definitions hd 0 hK fuel _ _ _ ho _ hstart
    exact ⟨hends.scopes, hends.sink_eq⟩
  constructor
  · intro r₀ s r t hs h
    exact evaluates_seeksOnly hprogram (hsame hs) h
  · intro q u h
    obtain ⟨vs, s, ho⟩ := Node.exists_outcome_definitions hd 0
      ((State.fresh limit).log (.program ds.length))
    have hs := (evaluates_iff hp).2 ⟨1, _, ho, rfl⟩
    obtain ⟨r, t, hr, hend⟩ := evaluates_seeksOnly hprogram (hsame hs).symm h
    exact ⟨_, s, r, t, hs, hr, hend.symm⟩

/-- A program that adds and prints, after definitions of functions named `+` and `PRINT`. -/
theorem evaluate_after_definitions_primitive :
    let definitions := "(fun + [x y] x) (fun PRINT [x] 0)"
    let program := "(fun f [x] (print x)) (f \"a\") (+ 1 2)"
    ∃ r₀ s r t, Evaluates 0 definitions (.fresh none) r₀ s ∧ Evaluates 0 program s r t ∧
      r.toOption.map Value.text = some "3.0" ∧ t.sink.written = Text.encode "a\n" := by
  intro definitions program
  have hchecks : ((parseText definitions).toOption.bind fun ds =>
      (parseText program).toOption.map fun forms => ds.all Node.isDefinition &&
        (Node.definitionsAll ds).all fun d =>
          !(Node.symbolsAll forms).contains (Text.lowercase d.name)) = some true := by
    decide +kernel
  have hrun : (evaluate 4 0 program (.fresh none)).map (fun p =>
      (p.1.toOption.map Value.text, p.2.sink.written)) =
        some (some "3.0", Text.encode "a\n") := by decide +kernel
  obtain ⟨⟨q, u⟩, ho, hq⟩ := Option.map_eq_some_iff.1 hrun
  obtain ⟨htext, hwritten⟩ := Prod.mk.inj hq
  obtain ⟨ds, hds, hchecks⟩ := Option.bind_eq_some_iff.1 hchecks
  obtain ⟨forms, hforms, hchecks⟩ := Option.map_eq_some_iff.1 hchecks
  obtain ⟨hd, hn⟩ := Bool.and_eq_true_iff.1 hchecks
  obtain ⟨-, hends⟩ := evaluate_after_definitions (eq_ok_of_toOption hds) (List.all_eq_true.1 hd)
    (fun forms' hf d hm => by
      obtain rfl := Except.ok.inj (hf.symm.trans (eq_ok_of_toOption hforms))
      simpa using List.all_eq_true.1 hn d hm) none
  obtain ⟨r₀, s, r, t, hdefined, hr, hsame⟩ := hends q u ⟨4, ho⟩
  refine ⟨r₀, s, r, t, hdefined, hr, ?_, hsame.written_eq ▸ hwritten⟩
  cases hsame.result with
  | error => cases htext
  | ok hv => exact (congrArg some hv).trans htext

end SmallLisp
