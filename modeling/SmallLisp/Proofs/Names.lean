import SmallLisp.Proofs.Correspondence.Sessions
import SmallLisp.Proofs.ReadBack
import SmallLisp.Proofs.SearchOrder

/-! The names that scopes bind. Trees that come from a text have names that are
identifiers, so programs bind nothing but lowercase forms of identifiers, in whatever
scopes they and the functions that they leave behind are evaluated. -/

namespace SmallLisp

open Text (lowercase)

/-! ### Scopes -/

/-- The key under which some identifier is bound. -/
def IsKey (key : String) : Prop := ∃ name, IsName name ∧ key = lowercase name

/-- Everything is bound under the key of an identifier. -/
def Bindings.Named (b : Bindings) : Prop := ∀ key v, b.find? key = some v → IsKey key

/-- All scopes bind nothing but keys of identifiers. -/
def Scopes.Named (s : Scopes) : Prop := ∀ id, (s.bindings id).Named

namespace Bindings

theorem named_empty : empty.Named := fun _ _ h => nomatch h

theorem named_ofPairs {names : List String} (h : ∀ name ∈ names, IsName name) (vs : List Value) :
    (ofPairs (names.zip vs)).Named := by
  intro key v hv
  obtain ⟨-, name, hname, hkey⟩ := mem_of_find?_ofPairs hv
  exact ⟨name, h name hname, hkey⟩

end Bindings

namespace Scopes

variable {s : Scopes}

theorem named_empty : empty.Named := fun _ => Bindings.named_empty

theorem Named.create (h : s.Named) {f : Frame} (hf : f.bindings.Named) : (s.create f).Named := by
  intro id key v hv
  rcases find?_bindings_create hv with ⟨-, hv⟩ | hv
  · exact hf key v hv
  · exact h id key v hv

theorem Named.define (h : s.Named) (id : ScopeId) {name : String} (hn : IsName name) (v : Value) :
    (s.define id name v).Named := by
  intro id key v hv
  rcases find?_bindings_define hv with ⟨-, hkey, -⟩ | hv
  · exact ⟨name, hn, hkey⟩
  · exact h id key v hv

/-- The names that are seen from a scope are keys of identifiers, those of primitives included. -/
theorem Named.isKey_of_mem_names (h : s.Named) {id : ScopeId} {key : String}
    (hkey : key ∈ s.names id) : IsKey key := by
  rw [names, List.mem_eraseDups, List.mem_append, List.mem_flatMap, List.mem_map] at hkey
  rcases hkey with ⟨o, -, hkey⟩ | ⟨p, -, rfl⟩
  · obtain ⟨v, hv⟩ := Option.isSome_iff_exists.1 (Bindings.mem_keys.1 hkey)
    exact h o key v hv
  · exact ⟨p.name, isName_primitive p, p.lowercase_name.symm⟩

end Scopes

/-! ### Trees -/

theorem Node.isName_of_mem_names {P : Single → Prop} {x : Node} (h : x.WellFormedWith P) :
    ∀ name ∈ x.names, IsName name := by
  cases x with
  | number | string | boolean | list | call | conditional =>
    exact fun name hname => absurd hname List.not_mem_nil
  | symbol name span => exact List.forall_mem_singleton.2 h
  | letIn bindings body span =>
    intro name hname
    obtain ⟨b, hb, rfl⟩ := List.mem_map.1 hname
    exact (wellFormedBindings_iff.1 h.1 b hb).1
  | function name params body span => exact List.forall_mem_singleton.2 h.1

namespace Correspondence

/-- Trees that can be written down, on states that bind nothing but keys of identifiers. -/
def named : Correspondence where
  span := Eq
  name f g := IsName f ∧ f = g
  lowercase_eq h := congrArg lowercase h.2
  tree := (twin .wellFormed).tree
  scope := Eq
  closure := Closure.Twin .wellFormed
  state s t := s.Twin .wellFormed t ∧ s.scopes.Named
  layer := by
    rintro x _ ⟨rfl, hx⟩
    exact Node.layer_self (fun name hname => ⟨Node.isName_of_mem_names hx name hname, rfl⟩) rfl
      fun y hy => ⟨rfl, Discipline.wellFormed.operand hx hy⟩
  closure_name h :=
    have ⟨_, hn, _⟩ := h.form
    ⟨hn, h.name_eq⟩
  closure_params h :=
    have ⟨_, _, hps, _⟩ := h.form
    h.params_eq ▸ List.forall₂_same.2 fun p hp => ⟨hps p hp, rfl⟩
  closure_body := (twin .wellFormed).closure_body
  closure_scope h := h.scope_eq
  resolve? h := (twin .wellFormed).resolve? h.1
  close h hi hx :=
    have hc := (twin .wellFormed).close h.1 hi hx
    ⟨hc.1, hc.2, h.2⟩
  define h hi hn hv := ⟨(twin .wellFormed).define h.1 hi hn.2 hv, h.2.define _ hn.1 _⟩
  enter h ho hc hn hv :=
    have ⟨hnames, hn⟩ := (List.forall₂_and_left _ _).1 hn
    have he := (twin .wellFormed).enter h.1 ho hc hn hv
    ⟨he.1, he.2, h.2.create (Bindings.named_ofPairs hnames _)⟩
  log d e h := ⟨h.1.log d e, h.2⟩
  sink_eq h := h.1.sink_eq
  write k h := ⟨(twin .wellFormed).write k h.1, h.2⟩

end Correspondence

theorem evaluate_named {fuel : Nat} {scope : ScopeId} {source : String} {s t : State}
    (hs : s.Obeys .wellFormed) (hnamed : s.scopes.Named) {r : Except Error Value}
    (h : evaluate fuel scope source s = some (r, t)) : t.scopes.Named := by
  have hforms (forms : List Node) (hp : parseText source = .ok forms) (x : Node) (hx : x ∈ forms) :
      Correspondence.named.tree x x := ⟨rfl, wellFormed_of_parseText hp x hx⟩
  obtain ⟨q, u, hu, -, hstate⟩ := Correspondence.exists_evaluate (C := .named)
    (F := fun _ _ => True) (fun _ _ _ => trivial) (fun _ => trivial) (rfl : scope = scope) hforms
    ⟨hs, hnamed⟩ h
  exact hstate.2

theorem Function.apply_named {fuel : Nat} {f : Function} {args : List Value} {span : Span}
    {site : ScopeId} (hf : (Value.function f).Obeys .wellFormed)
    (hargs : ∀ v ∈ args, v.Obeys .wellFormed) {s t : State} (hs : s.Obeys .wellFormed)
    (hnamed : s.scopes.Named) {r : Except EvalError Value}
    (h : (f.apply fuel args span site).outcome s = some (r, t)) : t.scopes.Named := by
  cases hf with
  | function hf =>
    have hrun : Correspondence.named.Simulates Correspondence.named.value
        (f.apply fuel args span site) (f.apply fuel args span site) :=
      Correspondence.simulates_applyWith (Correspondence.simulates_eval (Nat.le_refl fuel)) hf
        (List.forall₂_same.2 hargs) rfl rfl
    exact (hrun.self ⟨hs, hnamed⟩ h).2.2

/-! ### Sessions -/

/-- The name that a step binds by itself. -/
def Step.bound? : Step → Option String
  | .define _ symbol _ => some symbol
  | _ => none

namespace Session

variable {S T : Session}

/-- The sessions in which programs bind names, and steps bind none but such as programs
could bind. -/
inductive Programmed : Session → Prop
  | initial : Programmed initial
  | step {S T : Session} {fuel : Nat} {action : Step} {reply : Reply} :
    Programmed S → (∀ name ∈ action.bound?, IsName name) →
    S.step fuel action = .ok (some (reply, T)) → Programmed T

theorem Programmed.reached (h : S.Programmed) : ∃ sources, Reached sources S := by
  induction h with
  | initial => exact ⟨[], .initial⟩
  | step _ _ hstep ih =>
    obtain ⟨sources, hS⟩ := ih
    exact ⟨_, hS.step hstep⟩

/-- A step leaves nothing bound but keys of identifiers, if there was nothing else before. -/
theorem named_of_took (hS : S.Obeys .wellFormed) (hnamed : S.state.scopes.Named) {fuel : Nat}
    {action : Step} (hname : ∀ name ∈ action.bound?, IsName name) {p : Reply × Session}
    (hp : S.Took fuel action p) : p.2.state.scopes.Named := by
  have hredirect (limit : Option Nat) : (S.state.redirect limit).Obeys .wellFormed :=
    ⟨hS.state.scopes, rfl⟩
  have hkeep (T : Session) (store : Option String) (r : Except Error Value)
      (hT : T.state.scopes.Named) : (T.keep store r).state.scopes.Named := by
    rwa [state_keep]
  cases hp with
  | global | enclose | frame => exact hnamed.create Bindings.named_empty
  | define symbol => exact hnamed.define _ (hname symbol rfl) _
  | get => exact hkeep S _ _ hnamed
  | eval store hid heval =>
    exact hkeep _ _ _ (evaluate_named (hredirect _) hnamed heval)
  | apply store hf hvs hsite hrun =>
    exact hkeep _ _ _ (Function.apply_named (hS.values _ (has_of_function hf))
      (fun v hv => hS.values v (has_of_mapM_value hvs v hv)) (hredirect _) hnamed hrun)
  | compare | names | inspect | complete => exact hnamed

/-- Programs bind nothing but keys of identifiers. -/
theorem Programmed.named (h : S.Programmed) : S.state.scopes.Named := by
  induction h with
  | initial => exact Scopes.named_empty
  | step hS hname hstep ih =>
    obtain ⟨sources, hreached⟩ := hS.reached
    have hobeys := hreached.obeys (D := .wellFormed) (fun _ => trivial) fun source _ forms hp =>
      wellFormed_of_parseText hp
    exact named_of_took hobeys ih hname (took_of_step hstep)

end Session

end SmallLisp
