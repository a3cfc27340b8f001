import SmallLisp.Proofs.Correspondence.Sessions
import SmallLisp.Proofs.RoundTrip

/-! Values that are read back from their text. The closures of a session come from
forms that were parsed, so that a closure is written as a function form of its
name, whatever becomes of the numbers in its body; a primitive is written as if a
form had defined it. The text of a value is therefore a form that evaluates to an
equal value wherever it stands, if all numbers outside of closures are finite, and
it binds nothing but the names of the functions in the value. -/

namespace SmallLisp

open Token

/-! ### Parts of values -/

mutual

/-- The values in a value that are not lists, at any depth of its lists. -/
def Value.leaves : Value → List Value
  | .list items => Value.leavesAll items
  | .string s => [.string s]
  | .number x => [.number x]
  | .boolean b => [.boolean b]
  | .function f => [.function f]

def Value.leavesAll : List Value → List Value
  | [] => []
  | v :: vs => v.leaves ++ Value.leavesAll vs

end

theorem Value.leavesAll_eq_flatMap (vs : List Value) : leavesAll vs = vs.flatMap leaves := by
  induction vs with
  | nil => rfl
  | cons v vs ih => rw [leavesAll, ih, List.flatMap_cons]

theorem Value.mem_leaves_list {v w : Value} {items : List Value} (hv : v ∈ items)
    (hw : w ∈ v.leaves) : w ∈ (Value.list items).leaves := by
  rw [leaves, leavesAll_eq_flatMap]
  exact List.mem_flatMap.2 ⟨v, hv, hw⟩

/-! ### Trees that denote values -/

/-- The tree is a literal of the value, in which every function is defined anew,
under its name. -/
inductive Node.Denotes : Node → Value → Prop
  | string (s : String) (p : Span) : Denotes (.string s p) (.string s)
  | number {x : Single} (h : x.IsFinite) (p : Span) : Denotes (.number x p) (.number x)
  | boolean (b : Bool) (p : Span) : Denotes (.boolean b p) (.boolean b)
  | function {name : String} {f : Function} (h : Text.lowercase name = Text.lowercase f.name)
    (params : List String) (body : Node) (p : Span) :
    Denotes (.function name params body p) (.function f)
  | list {xs : List Node} {vs : List Value} (h : List.Forall₂ Denotes xs vs) (p : Span) :
    Denotes (.list xs p) (.list vs)

/-- The run succeeds from every state, with a value equal to `v`, and writes nothing. -/
def Run.Yields (x : Run Value) (v : Value) : Prop :=
  ∀ s, ∃ w t, x.outcome s = some (.ok w, t) ∧ w.equals v ∧ t.sink = s.sink

theorem Run.yields_pure {v w : Value} (h : w.equals v) : Yields (pure w) v :=
  fun s => ⟨w, s, rfl, h, rfl⟩

theorem Run.yields_list {α : Type} {f : α → Run Value} {as : List α} {vs : List Value}
    (h : List.Forall₂ (fun a v => Yields (f a) v) as vs) :
    Yields (do return .list (← as.mapM f)) (.list vs) := by
  have hall (s : State) : ∃ ws t, (as.mapM f).outcome s = some (.ok ws, t) ∧
      Value.equalsAll ws vs ∧ t.sink = s.sink := by
    induction h generalizing s with
    | nil => exact ⟨[], s, rfl, rfl, rfl⟩
    | cons ha _ ih =>
      obtain ⟨w, t, hw, he, ht⟩ := ha s
      obtain ⟨ws, u, hws, hes, hu⟩ := ih t
      refine ⟨w :: ws, u, ?_, ?_, hu.trans ht⟩
      · rw [List.mapM_cons, outcome_bind_of_ok hw, outcome_bind_of_ok hws]
        rfl
      · rw [Value.equalsAll, he, hes]
        rfl
  intro s
  obtain ⟨ws, t, hws, he, ht⟩ := hall s
  exact ⟨.list ws, t, by rw [outcome_bind_of_ok hws]; rfl, he, ht⟩

/-- What holds of each pair from some number on holds of all pairs from some number on. -/
theorem exists_forall₂_of_le {α β : Type} {P : Nat → α → β → Prop} {as : List α} {bs : List β}
    (h : List.Forall₂ (fun a b => ∃ n, ∀ m, n ≤ m → P m a b) as bs) :
    ∃ n, ∀ m, n ≤ m → List.Forall₂ (P m) as bs := by
  induction h with
  | nil => exact ⟨0, fun _ _ => .nil⟩
  | cons hab _ ih =>
    obtain ⟨n, hn⟩ := hab
    obtain ⟨k, hk⟩ := ih
    refine ⟨max n k, fun m hm => .cons (hn m ?_) (hk m ?_)⟩
    · exact Nat.le_trans (Nat.le_max_left n k) hm
    · exact Nat.le_trans (Nat.le_max_right n k) hm

namespace Node.Denotes

/-- What holds of literals and their values may be shown along the lists in them. -/
@[elab_as_elim]
theorem induction {P : Node → Value → Prop} (string : ∀ s p, P (.string s p) (.string s))
    (number : ∀ x p, x.IsFinite → P (.number x p) (.number x))
    (boolean : ∀ b p, P (.boolean b p) (.boolean b))
    (function : ∀ name params body p f, Text.lowercase name = Text.lowercase f.name →
      P (.function name params body p) (.function f))
    (list : ∀ xs vs p, List.Forall₂ P xs vs → P (.list xs p) (.list vs)) {x : Node} {v : Value}
    (h : x.Denotes v) : P x v :=
  @Denotes.rec (fun x v _ => P x v) (fun xs vs _ => List.Forall₂ P xs vs) string
    (fun h p => number _ p h) boolean (fun h params body p => function _ params body p _ h)
    (fun _ p h => list _ _ p h) .nil (fun _ _ h hs => .cons h hs) x v h

/-- A literal is evaluated to an equal value, given enough fuel. -/
theorem exists_yields {x : Node} {v : Value} (h : x.Denotes v) :
    ∃ n, ∀ fuel, n ≤ fuel → ∀ scope, Run.Yields (x.eval fuel scope) v := by
  have later {P : Nat → Prop} (h : ∃ n, ∀ fuel, n ≤ fuel → P (fuel + 1)) :
      ∃ n, ∀ fuel, n ≤ fuel → P fuel := by
    obtain ⟨n, hn⟩ := h
    refine ⟨n + 1, fun fuel hle => ?_⟩
    obtain ⟨m, rfl⟩ := Nat.exists_eq_add_of_le' hle
    exact hn (m + n) (Nat.le_add_left n m)
  refine induction ?string ?number ?boolean ?function ?list h
  case string =>
    intro s p
    exact later ⟨0, fun _ _ _ => Run.yields_pure (beq_self_eq_true s)⟩
  case number =>
    intro a p ha
    exact later ⟨0, fun _ _ _ => Run.yields_pure (Single.equals_self ha)⟩
  case boolean =>
    intro b p
    exact later ⟨0, fun _ _ _ => Run.yields_pure (beq_self_eq_true b)⟩
  case function =>
    intro name params body p f hf
    refine later ⟨0, fun fuel _ scope s => ?_⟩
    exact ⟨_, _, outcome_eval_function .., beq_iff_eq.2 hf, rfl⟩
  case list =>
    intro xs vs p ih
    obtain ⟨n, hn⟩ := exists_forall₂_of_le ih
    refine later ⟨n, fun fuel hle scope => Run.yields_list ?_⟩
    exact (hn fuel hle).imp fun _ _ hx => hx scope

/-- A literal defines functions of the names that occur in the value, and no others. -/
theorem exists_function_of_definition {x : Node} {v : Value} (h : x.Denotes v) :
    ∀ d ∈ x.definitions, ∃ f, .function f ∈ v.leaves ∧
      Text.lowercase d.name = Text.lowercase f.name := by
  refine induction ?string ?number ?boolean ?function ?list h
  case string | number | boolean =>
    intros
    contradiction
  case function =>
    intro name params body p f hf d hd
    obtain rfl := List.mem_singleton.1 hd
    exact ⟨f, List.mem_singleton_self _, hf⟩
  case list =>
    intro xs vs p ih
    show ∀ d ∈ definitionsAll xs, ∃ f, .function f ∈ Value.leavesAll vs ∧ _
    induction ih with
    | nil => exact fun d hd => absurd hd List.not_mem_nil
    | cons hx _ ih =>
      intro d hd
      rcases List.mem_append.1 hd with hd | hd
      · obtain ⟨f, hf, hname⟩ := hx d hd
        exact ⟨f, List.mem_append_left _ hf, hname⟩
      · obtain ⟨f, hf, hname⟩ := ih d hd
        exact ⟨f, List.mem_append_right _ hf, hname⟩

end Node.Denotes

/-! ### The text of a value -/

/-- Trees that can be written down. -/
def Discipline.wellFormed : Discipline where
  tree := Node.WellFormedWith fun _ => True
  key _ := True
  symbol _ := trivial
  operand := by
    intro x y h hy
    cases x with
    | number | string | boolean | symbol | function => cases hy
    | list items p => exact Node.wellFormedAll_iff.1 h y hy
    | call head args p =>
      obtain ⟨-, hh, ha⟩ := h
      rcases List.mem_append.1 hy with hy | hy
      · split at hy
        · cases hy
        · exact List.mem_singleton.1 hy ▸ hh
      · exact Node.wellFormedAll_iff.1 ha y hy
    | letIn bindings body p =>
      obtain ⟨hb, hx⟩ := h
      rcases List.mem_append.1 hy with hy | hy
      · obtain ⟨b, hm, rfl⟩ := List.mem_map.1 hy
        exact (Node.wellFormedBindings_iff.1 hb b hm).2
      · exact List.mem_singleton.1 hy ▸ hx
    | conditional test yes no p =>
      obtain ⟨ht, hyes, hn⟩ := h
      cases no with
      | none => exact hn.elim
      | some no =>
        rcases hy with _ | ⟨_, _ | ⟨_, _ | ⟨_, hy⟩⟩⟩
        · exact ht
        · exact hyes
        · exact hn
        · cases hy
  body h := h.2.2

theorem isName_primitive (p : Primitive) : IsName p.name :=
  isName_iff_cut.2 (by cases p <;> exact cut_of_ofWord (List.cons_ne_nil _ _) rfl rfl)

/-- A primitive is written as if a form with a body of one symbol had defined it. -/
theorem exists_denoting_primitive (p : Primitive) (start : Nat) :
    ∃ f : Form, Reads start (Function.primitive p).chars f.tokens ∧
      f.node.Denotes (.function (.primitive p)) := by
  have hword : IsName "<primitive>" :=
    isName_iff_cut.2 (cut_of_ofWord (List.cons_ne_nil _ _) rfl rfl)
  obtain ⟨body, hbody, -⟩ := exists_name hword (start + 1 +
    Text.byteLength Keyword.funForm.name.toList + Text.byteLength (' ' :: p.name.toList) + 1)
  obtain ⟨q, word, t, hq, ht⟩ := Reads.definition (isName_primitive p) none (.atom (.symbol body))
    hbody.space (delimited_cons.2 rfl)
  have hchars : (Function.primitive p).chars = '(' :: (Keyword.funForm.name.toList ++
      (' ' :: p.name.toList ++ (' ' :: "<primitive>".toList)) ++ [')']) := by
    simp [Function.chars, Keyword.name]
  exact ⟨.round q (.function word t none (.atom (.symbol body))), hchars ▸ hq,
    .function (congrArg Text.lowercase ht) _ _ _⟩

/-- A closure is written as a form of its name. -/
theorem exists_denoting_closure {c : Closure} (h : c.Twin .wellFormed c) (start : Nat) :
    ∃ f : Form, Reads start (Function.closure c).chars f.tokens ∧
      f.node.Denotes (.function (.closure c)) := by
  obtain ⟨span, hn, hps, hx⟩ := h.form
  obtain ⟨p, content, f, hr, hnode, -⟩ :=
    Node.exists_function ⟨0, 0⟩ hn hps (Node.exists_written hx) start
  refine ⟨.round p content, hr, ?_⟩
  rw [Form.node, hnode]
  exact .function (f := .closure c) rfl _ _ _

/-- A tree that can be read back, if all trees like it denote the value. -/
theorem exists_denoting_of_written {x : Node} {v : Value} {start : Nat}
    (hw : ∃ f, x.Written start f) (hx : x.WellFormed)
    (hd : ∀ y : Node, y.Alike .anySpans x → y.Denotes v) :
    ∃ f : Form, Reads start x.chars f.tokens ∧ f.node.Denotes v := by
  obtain ⟨f, hf⟩ := hw
  exact ⟨f, hf.reads, hd f.node (hf.alike hx)⟩

/-- A value whose closures come from trees that can be written down is written as
a form that denotes it, if its numbers are finite. -/
theorem exists_denoting {v : Value} (hv : v.Obeys .wellFormed)
    (hfinite : ∀ x, .number x ∈ v.leaves → x.IsFinite) (start : Nat) :
    ∃ f : Form, Reads start v.chars f.tokens ∧ f.node.Denotes v := by
  induction v using Value.induction generalizing start with
  | string s =>
    refine exists_denoting_of_written (Node.exists_written_string s ⟨0, 0⟩ start) trivial ?_
    rintro _ (_ | _)
    exact .string s _
  | number x =>
    have hx := hfinite x (List.mem_singleton_self _)
    refine exists_denoting_of_written (Node.exists_written_number x ⟨0, 0⟩ start) hx ?_
    rintro _ (_ | _)
    exact .number hx _
  | boolean b =>
    refine exists_denoting_of_written (Node.exists_written_boolean b ⟨0, 0⟩ start) trivial ?_
    rintro _ (_ | _)
    exact .boolean b _
  | function f =>
    cases hv with
    | function hf =>
      cases hf with
      | primitive p => exact exists_denoting_primitive p start
      | closure hc => exact exists_denoting_closure hc start
  | list items ih =>
    cases hv with
    | list hitems =>
      have hparts (v : Value) (hm : v ∈ items) := ih v hm (List.forall₂_same.1 hitems v hm)
        fun x hx => hfinite x (Value.mem_leaves_list hm hx)
      obtain ⟨fs, hr, hfs⟩ := Reads.exists_spaced hparts (start + 1)
      rw [← Value.charsAll_eq_map, ← Form.tokensAll_eq_flatMap] at hr
      obtain ⟨p, hp⟩ := hr.around .square
      refine ⟨.list p fs, hp, .list ?_ _⟩
      rw [Form.nodes_eq_map, List.forall₂_map_left_iff]
      exact hfs.flip

/-! ### Reading back -/

/-- The text of a value that a session yields is evaluated to an equal value, in
every scope that exists, if the numbers in the value are finite, those in the
bodies of its closures aside. Nothing is written, and nothing is bound in the scope
but names of functions in the value. -/
theorem Session.Reached.evaluates_text {sources : List String} {S T : Session}
    (hS : Reached sources S) {fuel : Nat} {action : Step} {reply : Reply}
    (hstep : S.step fuel action = .ok (some (reply, T))) {v : Value} (hv : reply.value? = some v)
    (hfinite : ∀ x, .number x ∈ v.leaves → x.IsFinite) (s : State) {scope : ScopeId}
    (hscope : scope < s.scopes.next) :
    ∃ w t, Evaluates scope v.text s (.ok w) t ∧ w.equals v ∧ t.sink = s.sink ∧
      ∀ key, (t.scopes.bindings scope).find? key = (s.scopes.bindings scope).find? key ∨
        ∃ f, .function f ∈ v.leaves ∧ key = Text.lowercase f.name := by
  have hforms (source : String) (forms : List Node) (hp : parseText source = .ok forms) :
      ∀ x ∈ forms, Discipline.wellFormed.tree x := wellFormed_of_parseText hp
  have hobeys := (hS.obeys (fun _ => trivial) fun source _ => hforms source).took
    (fun _ => trivial) (fun source _ => hforms source) (took_of_step hstep)
  obtain ⟨f, hr, hf⟩ := exists_denoting (hobeys.2 v hv) hfinite 0
  obtain ⟨n, hn⟩ := hf.exists_yields
  obtain ⟨w, t, ho, hw, ht⟩ := hn n (Nat.le_refl n) scope (s.log (.program 1))
  have hall : (Node.evalAll n scope [f.node]).outcome (s.log (.program 1)) = some (.ok [w], t) := by
    rw [Node.evalAll, List.mapM_cons, Run.outcome_bind_of_ok ho]
    rfl
  have hone : Reads 0 v.chars (Form.tokensAll [f]) := by
    rwa [Form.tokensAll, Form.tokensAll, List.append_nil]
  have hparse : parseText v.text = .ok [f.node] := parseText_of_reads hone
  have heval := (evaluates_iff hparse).2 ⟨n, .ok [w], hall, rfl⟩
  refine ⟨w, t, heval, hw, ht, fun key => ?_⟩
  refine ((Node.follows_eval n scope f.node _ _ _ ho).binding hscope key).imp_right ?_
  rintro ⟨d, hd, hkey, -⟩
  obtain ⟨g, hg, hname⟩ := hf.exists_function_of_definition d hd
  exact ⟨g, hg, hkey.trans hname⟩

/-- A closure with an overflowed number in its body, a primitive and a list, read
back where not a single byte may be written. -/
theorem Session.Reached.evaluates_text_list :
    let S := Session.initial.createScope "g" none none
    let source := "[(fun Big [x] (+ x 1e39)) CAR [-0.5 \"a\\n\"]]"
    ∃ T v output, Reached [] S ∧
      S.step 3 (.eval "g" source none none) = .ok (some (.evaluated (.ok v) output, T)) ∧
      v.text = "[(fun Big [x] (+ x inf)) (fun car <primitive>) [-0.5 \"a\\n\"]]" ∧
      ∃ w t, Evaluates 0 v.text (.fresh (some 0)) (.ok w) t ∧ w.equals v ∧
        t.sink = .empty (some 0) := by
  intro S source
  have hrun : ((S.step 3 (.eval "g" source none none)).toOption.join.bind fun p =>
      p.1.value?.map fun v =>
        (v.text, (v.leaves.filterMap Value.number?).all fun x => decide x.IsFinite)) =
      some ("[(fun Big [x] (+ x inf)) (fun car <primitive>) [-0.5 \"a\\n\"]]", true) := by
    decide +kernel
  obtain ⟨⟨reply, T⟩, hstep, hrun⟩ := Option.bind_eq_some_iff.1 hrun
  obtain ⟨v, hv, hrun⟩ := Option.map_eq_some_iff.1 hrun
  obtain ⟨htext, hnumbers⟩ := Prod.mk.inj hrun
  have hok : S.step 3 (.eval "g" source none none) = .ok (some (reply, T)) :=
    eq_ok_of_toOption (Option.join_eq_some_iff.1 hstep)
  have hS : Reached [] S :=
    @Reached.step [] Session.initial _ 0 (.global "g") .done .initial rfl
  have hfinite (x : Single) (hx : .number x ∈ v.leaves) : x.IsFinite :=
    of_decide_eq_true (List.all_eq_true.1 hnumbers x (List.mem_filterMap.2 ⟨_, hx, rfl⟩))
  obtain ⟨w, t, heval, hw, ht, -⟩ :=
    evaluates_text hS hok hv hfinite (.fresh (some 0)) (Nat.zero_lt_one)
  obtain ⟨id, r, u, -, -, hc⟩ := step_eval hok
  obtain ⟨rfl, rfl⟩ := Prod.mk.inj hc
  cases r <;> cases hv
  exact ⟨_, v, _, hS, hok, htext, w, t, heval, hw, ht⟩

end SmallLisp
