import Mathlib.Data.List.Nodup
import SmallLisp.Proofs.Interference

/-! Definitions in another order. A function form binds its name in a scope that the
function refers to and does not copy, so a function finds the definitions that come
after its own as well. Functions with different names may therefore be defined in any
order: the scope binds the same names to the same functions, but for the identity
of closures, which no program can see. -/

namespace SmallLisp

/-- The key under which the function is bound. -/
def Definition.key (d : Definition) : String := Text.lowercase d.name

/-! ### What definitions leave behind -/

/-- No key becomes unbound. -/
theorem Confined.isSome {scope : ScopeId} {defs : List Definition} {s t : State}
    (h : Confined scope defs s t) (hs : scope < s.scopes.next) {key : String}
    (hkey : ((s.scopes.bindings scope).find? key).isSome) :
    ((t.scopes.bindings scope).find? key).isSome := by
  rcases h.binding hs key with he | ⟨_, _, _, _, _, _, hv⟩
  · rwa [he]
  · rw [hv]
    rfl

namespace Node

/-- The keys under which the functions that are defined in trees are bound. -/
def definedKeys (ds : List Node) : List String := (definitionsAll ds).map Definition.key

theorem definitionsAll_eq_flatMap (ds : List Node) :
    definitionsAll ds = ds.flatMap definitions := by
  induction ds with
  | nil => rfl
  | cons d ds ih => rw [definitionsAll, ih, List.flatMap_cons]

theorem definitionsAll_perm {ds es : List Node} (h : ds.Perm es) :
    (definitionsAll ds).Perm (definitionsAll es) := by
  rw [definitionsAll_eq_flatMap, definitionsAll_eq_flatMap]
  exact h.flatMap_right definitions

theorem definedKeys_perm {ds es : List Node} (h : ds.Perm es) :
    (definedKeys ds).Perm (definedKeys es) :=
  (definitionsAll_perm h).map Definition.key

theorem follows_evalAll (fuel : Nat) (scope : ScopeId) (ds : List Node) :
    Run.Follows (Confined scope (definitionsAll ds)) (evalAll fuel scope ds) :=
  .mapM Confined.trans Confined.refl fun d hd =>
    .mono (fun _ _ => .mono (definitions_subset_all hd)) (follows_eval fuel scope d)

variable {ds : List Node} {scope : ScopeId} {s t : State}

/-- Definitions create no scope and write nothing. -/
theorem scopes_of_definitions (hd : ∀ d ∈ ds, d.isDefinition) (fuel : Nat) :
    Run.Follows (fun s t => t.scopes.next = s.scopes.next ∧ t.sink = s.sink)
      (evalAll fuel scope ds) := by
  refine .mapM (fun _ _ _ h k => ⟨k.1.trans h.1, k.2.trans h.2⟩) (fun _ => ⟨rfl, rfl⟩)
    fun d hm => ?_
  cases d with
  | function name params body span =>
    cases fuel with
    | zero => exact .outOfFuel
    | succ fuel =>
      intro s r t ho
      rw [outcome_eval_function] at ho
      cases ho
      exact ⟨Scopes.next_define .., rfl⟩
  | number | string | boolean | symbol | list | call | letIn | conditional => cases hd _ hm

/-- Definitions that end do not fail. -/
theorem ok_of_definitions (hd : ∀ d ∈ ds, d.isDefinition) {fuel : Nat}
    {r : Except EvalError (List Value)} (h : (evalAll fuel scope ds).outcome s = some (r, t)) :
    ∃ vs, r = .ok vs := by
  have hnone (d : Node) (hm : d ∈ ds) (u : State) :
      Run.Ensures (fun _ _ => True) (fun _ _ => True) (fun _ => False) u (eval fuel scope d) := by
    cases d with
    | function name params body span =>
      cases fuel with
      | zero => exact .outOfFuel
      | succ fuel =>
        intro r t ho
        rw [outcome_eval_function] at ho
        cases ho
        exact ⟨trivial, fun _ _ => trivial, nofun⟩
    | number | string | boolean | symbol | list | call | letIn | conditional => cases hd _ hm
  have hall := Run.Ensures.mapM (s := s) (fun _ _ _ _ => id) (fun _ _ => id) (fun _ _ _ _ => id)
    trivial fun d hm u _ => hnone d hm u
  cases r with
  | ok vs => exact ⟨vs, rfl⟩
  | error e => exact absurd rfl ((hall _ _ h).2.2 e)

/-- The names of all functions that were defined are bound. -/
theorem isSome_of_definitions (hd : ∀ d ∈ ds, d.isDefinition) {fuel : Nat} {vs : List Value}
    (hs : scope < s.scopes.next) (h : (evalAll fuel scope ds).outcome s = some (.ok vs, t)) :
    ∀ key ∈ definedKeys ds, ((t.scopes.bindings scope).find? key).isSome := by
  induction ds generalizing s vs with
  | nil => exact fun key hk => absurd hk List.not_mem_nil
  | cons d ds ih =>
    obtain ⟨hfirst, hrest⟩ := List.forall_mem_cons.1 hd
    rw [evalAll, List.mapM_cons] at h
    obtain ⟨_, -, he⟩ | ⟨v, u, hv, h⟩ := Run.outcome_bind_eq_some h
    · cases he
    obtain ⟨_, -, he⟩ | ⟨ws, w, hws, h⟩ := Run.outcome_bind_eq_some h
    · cases he
    cases h
    cases d with
    | function name params body span =>
      cases fuel with
      | zero => cases hv
      | succ fuel =>
        rw [outcome_eval_function] at hv
        cases hv
        have hnext : scope < (stateMade s scope name params body span).scopes.next := by
          rwa [stateMade, Scopes.next_define]
        intro key hk
        rcases List.mem_cons.1 hk with rfl | hk
        · refine Confined.isSome (follows_evalAll _ scope ds _ _ _ hws) hnext ?_
          rw [stateMade, Definition.key, Scopes.find?_bindings_define_self _ _ hs]
          rfl
        · exact ih hrest hnext hws key hk
    | number | string | boolean | symbol | list | call | letIn | conditional => cases hfirst

end Node

/-- Scopes with the same links that bind related values. -/
theorem Scopes.relOn_of_links {K : String → Prop} {V : Value → Value → Prop} {s t : Scopes}
    (hlinks : ∀ id, s.links id = t.links id)
    (hbindings : ∀ id, (s.bindings id).RelOn K V (t.bindings id)) : s.RelOn K V t := by
  intro id
  have hl := hlinks id
  have hb := hbindings id
  rw [links, links] at hl
  rw [bindings, bindings] at hb
  generalize s.frames[id]? = f at hl hb ⊢
  generalize t.frames[id]? = g at hl hb ⊢
  cases f with
  | none =>
    cases g with
    | none => exact .none
    | some g => cases hl
  | some f =>
    cases g with
    | none => cases hl
    | some g =>
      obtain ⟨ho, hc⟩ := Prod.mk.inj (Option.some.inj hl)
      exact .some ⟨ho, hc, hb⟩

namespace Scopes

variable {s : Scopes} {id : ScopeId}

theorem links_of_next_le (h : s.next ≤ id) : s.links id = none := by
  rw [links, Array.getElem?_eq_none h]
  rfl

theorem bindings_of_next_le (h : s.next ≤ id) : s.bindings id = .empty := by
  rw [bindings, Array.getElem?_eq_none h]

end Scopes

/-! ### The same definitions in another order -/

/-- Trees of any kind, and all keys. -/
def Discipline.any : Discipline where
  tree _ := True
  key _ := True
  symbol _ := trivial
  operand _ _ := trivial
  body _ := trivial

/-- One global scope, which is the scope `0`, after these events. -/
def State.freshAfter (log : Array Event) (limit : Option Nat) : State :=
  { fresh limit with events := log }

section Permuted

variable {ds es : List Node} {limit : Option Nat} {log log' : Array Event} {s t : State}

theorem Definition.eq_of_key_eq (hkeys : (Node.definedKeys ds).Nodup) {d e : Definition}
    (hd : d ∈ Node.definitionsAll ds) (he : e ∈ Node.definitionsAll ds) (h : d.key = e.key) :
    d = e :=
  List.inj_on_of_nodup_map hkeys hd he h

/-- After definitions the global scope binds their keys, each to a closure of its
definition, and no others. -/
theorem bound_of_definitions (hd : ∀ d ∈ ds, d.isDefinition) {fuel : Nat} {vs : List Value}
    (h : (Node.evalAll fuel 0 ds).outcome (.freshAfter log limit) = some (.ok vs, s))
    (key : String) :
    (key ∉ Node.definedKeys ds ∧ (s.scopes.bindings 0).find? key = none) ∨
      ∃ d ∈ Node.definitionsAll ds, key = d.key ∧ ∃ id,
        (s.scopes.bindings 0).find? key =
          some (.function (.closure ⟨id, d.name, d.params, d.body, 0⟩)) := by
  have hzero : 0 < (State.freshAfter log limit).scopes.next := Nat.zero_lt_one
  rcases (Node.follows_evalAll fuel 0 ds _ _ _ h).binding hzero key with hnone | hmade
  · refine .inl ⟨fun hkey => ?_, hnone⟩
    have hsome := Node.isSome_of_definitions hd hzero h key hkey
    rw [hnone] at hsome
    cases hsome
  · obtain ⟨d, hm, hkey, id, -, -, hv⟩ := hmade
    exact .inr ⟨d, hm, hkey, id, hv⟩

/-- Definitions with different keys leave the same scope behind in any order, but for
the identity of closures. -/
theorem twin_of_perm (hd : ∀ d ∈ ds, d.isDefinition) (hkeys : (Node.definedKeys ds).Nodup)
    (hperm : ds.Perm es) {fuel fuel' : Nat} {vs ws : List Value}
    (hs : (Node.evalAll fuel 0 ds).outcome (.freshAfter log limit) = some (.ok vs, s))
    (ht : (Node.evalAll fuel' 0 es).outcome (.freshAfter log' limit) = some (.ok ws, t)) :
    s.Twin .any t := by
  have hd' : ∀ d ∈ es, d.isDefinition := fun d hm => hd d (hperm.mem_iff.2 hm)
  have hdefs := Node.definitionsAll_perm hperm
  have hmem (key : String) : key ∈ Node.definedKeys ds ↔ key ∈ Node.definedKeys es :=
    (Node.definedKeys_perm hperm).mem_iff
  obtain ⟨hsnext, hssink⟩ := Node.scopes_of_definitions hd fuel _ _ _ hs
  obtain ⟨htnext, htsink⟩ := Node.scopes_of_definitions hd' fuel' _ _ _ ht
  have hslinks := (Node.follows_evalAll fuel 0 ds _ _ _ hs).links Nat.zero_lt_one
  have htlinks := (Node.follows_evalAll fuel' 0 es _ _ _ ht).links Nat.zero_lt_one
  have hbound (key : String) : Option.Rel (Value.Twin .any) ((s.scopes.bindings 0).find? key)
      ((t.scopes.bindings 0).find? key) := by
    rcases bound_of_definitions hd hs key with ⟨hkey, hv⟩ | ⟨d, hm, hkey, id, hv⟩ <;>
      rcases bound_of_definitions hd' ht key with ⟨hkey', hw⟩ | ⟨e, hm', hkey', id', hw⟩
    · rw [hv, hw]
      exact .none
    · exact absurd ((hmem key).2 (hkey' ▸ List.mem_map_of_mem hm')) hkey
    · exact absurd ((hmem key).1 (hkey ▸ List.mem_map_of_mem hm)) hkey'
    · obtain rfl := Definition.eq_of_key_eq hkeys hm (hdefs.mem_iff.2 hm') (hkey.symm.trans hkey')
      rw [hv, hw]
      exact .some (.function (.closure ⟨rfl, rfl, rfl, rfl, ⟨0, 0⟩, trivial⟩))
  have hsle (id : ScopeId) : s.scopes.next ≤ id + 1 := hsnext ▸ Nat.le_add_left 1 id
  have htle (id : ScopeId) : t.scopes.next ≤ id + 1 := htnext ▸ Nat.le_add_left 1 id
  refine ⟨Scopes.relOn_of_links (fun id => ?_) (fun id => ?_), hssink.trans htsink.symm⟩
  · cases id with
    | zero => exact hslinks.trans htlinks.symm
    | succ id => rw [Scopes.links_of_next_le (hsle id), Scopes.links_of_next_le (htle id)]
  · cases id with
    | zero => exact fun key _ => hbound key
    | succ id =>
      rw [Scopes.bindings_of_next_le (hsle id), Scopes.bindings_of_next_le (htle id)]
      exact Bindings.relOn_empty

end Permuted

/-! ### Programs after definitions -/

/-- States that are the same under all keys, but for the identity of closures,
look alike. -/
theorem looksAlike_of_twin {D : Discipline} (hkey : ∀ key, D.key key) {r q : Except Error Value}
    {t u : State} (hr : ResultRel (fun e f => e.kind = f.kind ∧ e.message = f.message)
      (Value.Twin D) r q) (h : t.Twin D u) : LooksAlike r t q u where
  written_eq := h.sink_eq
  result := hr.imp (fun _ _ he => he) fun _ _ hv => hv.text_eq fun _ _ => Closure.Twin.chars_eq
  bindings id key := optionRel_map_eq (h.scopes.bindings id key (hkey key)) fun _ _ hv =>
    hv.text_eq fun _ _ => Closure.Twin.chars_eq

/-- The trees of the one list in the order of the other, and maybe with other spans. -/
def Node.Reordered (ds es : List Node) : Prop :=
  ∃ ordered, ds.Perm ordered ∧ List.Forall₂ (Alike .anySpans) ordered es

theorem Node.Reordered.isDefinition {ds es : List Node} (h : Reordered ds es)
    (hd : ∀ d ∈ ds, d.isDefinition) : ∀ e ∈ es, e.isDefinition := by
  obtain ⟨ordered, hperm, hx⟩ := h
  have hd' : ∀ d ∈ ordered, d.isDefinition := fun d hm => hd d (hperm.mem_iff.2 hm)
  clear hperm
  induction hx with
  | nil => exact fun e he => absurd he List.not_mem_nil
  | cons h _ ih =>
    obtain ⟨hfirst, hrest⟩ := List.forall_mem_cons.1 hd'
    refine List.forall_mem_cons.2 ⟨?_, ih hrest⟩
    cases h with
    | function => rfl
    | number | string | boolean | symbol | list | call | letIn | conditional => cases hfirst

/-- From this state the definitions are evaluated in the scope `0` and after them
the program, which ends with this result and in this state. -/
def EndsAfter (start : State) (ds : List Node) (program : String) (r : Except Error Value)
    (t : State) : Prop :=
  ∃ fuel vs s, (Node.evalAll fuel 0 ds).outcome start = some (.ok vs, s) ∧
    Evaluates 0 program s r t

namespace EndsAfter

variable {ds es : List Node} {limit : Option Nat} {log log' : Array Event} {program : String}
  {r : Except Error Value} {t : State}

theorem perm (hd : ∀ d ∈ ds, d.isDefinition) (hkeys : (Node.definedKeys ds).Nodup)
    (hperm : ds.Perm es) (h : EndsAfter (.freshAfter log limit) ds program r t) :
    ∃ q u, EndsAfter (.freshAfter log' limit) es program q u ∧ LooksAlike r t q u := by
  obtain ⟨fuel, vs, s, hs, fuel', hr⟩ := h
  obtain ⟨ws, s', hs'⟩ := Node.exists_outcome_definitions (fun d hm => hd d (hperm.mem_iff.2 hm))
    0 (.freshAfter log' limit)
  obtain ⟨q, u, ho, hq, htu⟩ := evaluate_twin
    (F := fun e f => e.kind = f.kind ∧ e.message = f.message)
    (fun e f he => ⟨he.kind_eq, (Correspondence.sameError he).2.1⟩) (fun _ => ⟨rfl, rfl⟩)
    (fun _ _ _ _ => trivial) (twin_of_perm hd hkeys hperm hs hs') hr
  exact ⟨q, u, ⟨1, ws, s', hs', fuel', ho⟩, looksAlike_of_twin (fun _ => trivial) hq htu⟩

theorem alike {start : State} (hx : List.Forall₂ (Node.Alike .anySpans) ds es)
    (h : EndsAfter start ds program r t) :
    ∃ q u, EndsAfter start es program q u ∧ LooksAlike r t q u := by
  obtain ⟨fuel, vs, s, hs, hr⟩ := h
  have hstart : start.Alike .anySpans start := start.alike_self (fun _ => rfl) fun _ _ => trivial
  obtain ⟨q', s', hs', hq, hst⟩ := Node.evalAll_alike (Nat.le_refl fuel) 0 hx _ _ hstart _ _ hs
  cases hq with
  | ok hq =>
    obtain ⟨q, u, ho, hlooks⟩ := evaluates_alike_self hst hr
    exact ⟨q, u, ⟨fuel, _, s', hs', ho⟩, hlooks⟩

/-- What comes after definitions of different names does not depend on their order. -/
theorem reordered (hd : ∀ d ∈ ds, d.isDefinition) (hkeys : (Node.definedKeys ds).Nodup)
    (hes : Node.Reordered ds es) (log log' : Array Event) (limit : Option Nat) (program : String) :
    (∀ r t, EndsAfter (.freshAfter log limit) ds program r t →
      ∃ q u, EndsAfter (.freshAfter log' limit) es program q u ∧ LooksAlike r t q u) ∧
    ∀ q u, EndsAfter (.freshAfter log' limit) es program q u →
      ∃ r t, EndsAfter (.freshAfter log limit) ds program r t ∧ LooksAlike r t q u := by
  obtain ⟨ordered, hperm, hx⟩ := hes
  constructor
  · intro r t h
    obtain ⟨q, u, ho, hlooks⟩ := h.perm hd hkeys hperm
    obtain ⟨q', u', ho', hlooks'⟩ := ho.alike hx
    exact ⟨q', u', ho', hlooks.trans hlooks'⟩
  · intro q u h
    have hd' : ∀ d ∈ ordered, d.isDefinition := fun d hm => hd d (hperm.mem_iff.2 hm)
    have hkeys' : (Node.definedKeys ordered).Nodup :=
      ((Node.definedKeys_perm hperm).nodup_iff).1 hkeys
    have hx' : List.Forall₂ (Node.Alike .anySpans) es ordered :=
      forall₂_symm_of_mem hx fun _ _ _ h => Likeness.flip_anySpans ▸ h.symm
    obtain ⟨q', u', ho', hlooks'⟩ := h.alike hx'
    obtain ⟨r, t, ho, hlooks⟩ := ho'.perm hd' hkeys' hperm.symm
    exact ⟨r, t, ho, (hlooks'.trans hlooks).symm⟩

end EndsAfter

/-- A text of definitions ends as its trees do. -/
theorem endsAfter_iff {definitions program : String} {ds : List Node}
    (hp : parseText definitions = .ok ds) (hd : ∀ d ∈ ds, d.isDefinition) {start : State}
    {r : Except Error Value} {t : State} :
    EndsAfter (start.log (.program ds.length)) ds program r t ↔
      ∃ r₀ s, Evaluates 0 definitions start r₀ s ∧ Evaluates 0 program s r t := by
  constructor
  · rintro ⟨fuel, vs, s, hs, hr⟩
    exact ⟨_, s, (evaluates_iff hp).2 ⟨fuel, _, hs, rfl⟩, hr⟩
  · rintro ⟨r₀, s, hs, hr⟩
    obtain ⟨fuel, q, ho, -⟩ := (evaluates_iff hp).1 hs
    obtain ⟨vs, rfl⟩ := Node.ok_of_definitions hd ho
    exact ⟨fuel, vs, s, ho, hr⟩

/-- Functions whose names are different up to case may be defined in any order,
also if they call one another: a program that is evaluated after them ends if it
does after the other order, with the same bytes written, the same text of its
value or the same kind and message of its error, and what looks the same bound
in every scope. -/
theorem evaluate_after_reordered {definitions definitions' program : String} {ds es : List Node}
    (hp : parseText definitions = .ok ds) (hp' : parseText definitions' = .ok es)
    (hd : ∀ d ∈ ds, d.isDefinition) (hkeys : (Node.definedKeys ds).Nodup)
    (hes : Node.Reordered ds es) (limit : Option Nat) :
    (∀ r₀ s r t, Evaluates 0 definitions (.fresh limit) r₀ s → Evaluates 0 program s r t →
      ∃ q₀ u q v, Evaluates 0 definitions' (.fresh limit) q₀ u ∧ Evaluates 0 program u q v ∧
        LooksAlike r t q v) ∧
    ∀ q₀ u q v, Evaluates 0 definitions' (.fresh limit) q₀ u → Evaluates 0 program u q v →
      ∃ r₀ s r t, Evaluates 0 definitions (.fresh limit) r₀ s ∧ Evaluates 0 program s r t ∧
        LooksAlike r t q v := by
  have hd' : ∀ e ∈ es, e.isDefinition := hes.isDefinition hd
  obtain ⟨hforward, hbackward⟩ := EndsAfter.reordered hd hkeys hes #[.program ds.length]
    #[.program es.length] limit program
  constructor
  · intro r₀ s r t hs hr
    obtain ⟨q, v, ho, hlooks⟩ := hforward r t ((endsAfter_iff hp hd).2 ⟨r₀, s, hs, hr⟩)
    obtain ⟨q₀, u, hu, hq⟩ := (endsAfter_iff hp' hd').1 ho
    exact ⟨q₀, u, q, v, hu, hq, hlooks⟩
  · intro q₀ u q v hu hq
    obtain ⟨r, t, ho, hlooks⟩ := hbackward q v ((endsAfter_iff hp' hd').2 ⟨q₀, u, hu, hq⟩)
    obtain ⟨r₀, s, hs, hr⟩ := (endsAfter_iff hp hd).1 ho
    exact ⟨r₀, s, r, t, hs, hr, hlooks⟩

/-- Two functions that call each other, the second of which is named in another
case where it is called. -/
theorem evaluate_after_reordered_mutual :
    ∃ q₀ u q v, Evaluates 0 "(fun g [] (f false)) (fun F [x] (if x (g) x))" (.fresh none) q₀ u ∧
      Evaluates 0 "(f true)" u q v ∧ q.toOption.map Value.text = some "false" := by
  let f (o : Nat) : Node := .function "F" ["x"] (.conditional (.symbol "x" ⟨o + 15, o + 16⟩)
    (.call (.symbol "g" ⟨o + 18, o + 19⟩) [] ⟨o + 17, o + 20⟩)
    (some (.symbol "x" ⟨o + 21, o + 22⟩)) ⟨o + 11, o + 23⟩) ⟨o, o + 24⟩
  let g (o : Nat) : Node := .function "g" [] (.call (.symbol "f" ⟨o + 11, o + 12⟩)
    [.boolean false ⟨o + 13, o + 18⟩] ⟨o + 10, o + 19⟩) ⟨o, o + 20⟩
  have hp : parseText "(fun F [x] (if x (g) x)) (fun g [] (f false))" = .ok [f 0, g 25] := by
    with_unfolding_all rfl
  have hp' : parseText "(fun g [] (f false)) (fun F [x] (if x (g) x))" = .ok [g 0, f 21] := by
    with_unfolding_all rfl
  have hf : (f 0).Alike .anySpans (f 21) :=
    .function rfl (.cons rfl .nil) (.conditional (.symbol rfl trivial)
      (.call (.symbol rfl trivial) .nil trivial) (.some (.symbol rfl trivial)) trivial) trivial
  have hg : (g 25).Alike .anySpans (g 0) :=
    .function rfl .nil (.call (.symbol rfl trivial) (.cons (.boolean false trivial) .nil) trivial)
      trivial
  have hrun : (evaluate 1 0 "(fun F [x] (if x (g) x)) (fun g [] (f false))" (.fresh none)).bind
      (fun p => (evaluate 9 0 "(f true)" p.2).map fun p => p.1.toOption.map Value.text) =
        some (some "false") := by decide +kernel
  obtain ⟨⟨r₀, s⟩, hs, hr⟩ := Option.bind_eq_some_iff.1 hrun
  obtain ⟨⟨r, t⟩, ho, htext⟩ := Option.map_eq_some_iff.1 hr
  obtain ⟨hforward, -⟩ := evaluate_after_reordered hp hp' (by simp [f, g, Node.isDefinition])
    (by decide +kernel) ⟨[g 25, f 0], .swap _ _ _, .cons hg (.cons hf .nil)⟩ none
  obtain ⟨q₀, u, q, v, hu, hq, hlooks⟩ := hforward r₀ s r t ⟨1, hs⟩ ⟨9, ho⟩
  refine ⟨q₀, u, q, v, hu, hq, ?_⟩
  cases hlooks.result with
  | error => cases htext
  | ok hv => exact (congrArg some hv.symm).trans htext

end SmallLisp
