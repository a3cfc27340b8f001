import SmallLisp.Proofs.Origin
import SmallLisp.Proofs.Parsing
import SmallLisp.Proofs.Programs
import SmallLisp.Session

/-! Sessions that steps lead to. All that a session holds, bound in its scopes or
kept under a name, comes from the sources that were evaluated in it, and every
scope that something refers to exists. So an evaluation that fails points at a
tree of its own source or of an earlier one, where the error has its cause. -/

namespace SmallLisp

open State (Holds)

variable {read : List Node → Prop}

/-- The list of forms is what one of the sources reads as. -/
def ReadFrom (sources : List String) (forms : List Node) : Prop :=
  ∃ source ∈ sources, parseText source = .ok forms

/-! ### More programs -/

section More

variable {wider : List Node → Prop} (hwider : ∀ forms, read forms → wider forms)
include hwider

theorem Node.Known.more {x : Node} (h : x.Known read) : x.Known wider := by
  obtain ⟨forms, hforms, hx⟩ := h
  exact ⟨forms, hwider forms hforms, hx⟩

theorem Value.Known.more {v : Value} {s : Scopes} (h : v.Known read s) : v.Known wider s :=
  fun c hc => ⟨(h c hc).1, (h c hc).2.more hwider⟩

theorem Scopes.Known.more {s : Scopes} (h : s.Known read) : s.Known wider :=
  fun id key v hv => (h id key v hv).more hwider

end More

/-! ### Whole programs -/

theorem parseText_ne_eval {source : String} {e : EvalError} :
    parseText source ≠ .error (.eval e) := by
  unfold parseText
  split
  · exact nofun
  · next tokens _ =>
    cases parse tokens with
    | error e => exact nofun
    | ok forms => exact nofun

theorem known_of_lastValue {s : State} {vs : List Value} {v : Value}
    (hvs : ∀ w ∈ vs, Holds read s w) (h : lastValue vs = .ok v) : Holds read s v := by
  unfold lastValue at h
  split at h
  · next hlast =>
    cases h
    exact hvs _ (List.mem_of_getLast? hlast)
  · cases h

theorem lastValue_ne_eval {vs : List Value} {e : EvalError} : lastValue vs ≠ .error (.eval e) := by
  unfold lastValue
  split <;> exact nofun

/-- The evaluation of a program that counts as read. -/
theorem evaluate_known {fuel : Nat} {scope : ScopeId} {source : String} {s t : State}
    {r : Except Error Value} (hread : ∀ forms, parseText source = .ok forms → read forms)
    (hs : s.scopes.Known read) (hscope : scope < s.scopes.next)
    (h : evaluate fuel scope source s = some (r, t)) :
    Advances read s t ∧ (∀ v, r = .ok v → Holds read t v) ∧
      ∀ e, r = .error (.eval e) → e.Known read := by
  cases hp : parseText source with
  | error e =>
    rw [evaluate, hp] at h
    cases h
    refine ⟨.refl hs, fun _ hv => (by cases hv), fun f hf => ?_⟩
    cases hf
    exact absurd hp parseText_ne_eval
  | ok forms =>
    rw [evaluate_of_parse hp] at h
    obtain ⟨⟨q, u⟩, hrun, hq⟩ := Option.map_eq_some_iff.1 h
    cases hq
    have hforms (x : Node) (hx : x ∈ forms) : x.Known read := ⟨forms, hread forms hp, .form hx⟩
    have hall : Run.Ensures (Advances read) (fun t vs => vs.length = forms.length ∧
        ∀ v ∈ vs, Holds read t v) (EvalError.Known read) (s.log (.program forms.length))
        (Node.evalAll fuel scope forms) :=
      .mapM Advances.trans Advances.right Holds.keep (.of_eq hs rfl) fun x hx t hst =>
        Node.ensures_eval fuel hst.known (Nat.lt_of_lt_of_le hscope hst.next_le) (hforms x hx)
    obtain ⟨hadv, hok, herr⟩ := hall q u hrun
    refine ⟨⟨hadv.next_le, hadv.known⟩, ?_⟩
    cases q with
    | error e =>
      refine ⟨fun _ hv => (by cases hv), fun f hf => ?_⟩
      cases hf
      exact herr e rfl
    | ok vs =>
      exact ⟨fun v hv => known_of_lastValue (hok vs rfl).2 hv,
        fun e he => absurd he lastValue_ne_eval⟩

/-! ### Steps -/

/-- The source that a step evaluates. -/
def Step.source? : Step → Option String
  | .eval _ source _ _ => some source
  | _ => none

/-- The value that a step yields. -/
def Reply.value? : Reply → Option Value
  | .found (.ok v) | .evaluated (.ok v) _ => some v
  | _ => none

namespace Session

/-- The sessions that steps lead to from the initial one, each with the sources
that were evaluated on the way, the last one first. -/
inductive Reached : List String → Session → Prop
  | initial : Reached [] initial
  | step {sources : List String} {S T : Session} {fuel : Nat} {action : Step} {reply : Reply} :
    Reached sources S → S.step fuel action = .ok (some (reply, T)) →
    Reached (action.source?.toList ++ sources) T

/-! ### Kept values -/

/-- The session keeps the value under some name. -/
def Has (S : Session) (v : Value) : Prop := ∃ p ∈ S.values, p.2 = v

section Values

variable {S : Session}

theorem has_of_value {name : String} {v : Value} (h : S.value name = .ok v) : S.Has v := by
  unfold Session.value at h
  split at h
  · next hl =>
    cases h
    exact ⟨_, mem_of_lookup hl, rfl⟩
  · cases h

theorem has_of_mapM_value {names : List String} {vs : List Value}
    (h : names.mapM S.value = .ok vs) : ∀ v ∈ vs, S.Has v := by
  induction names generalizing vs with
  | nil =>
    cases h
    exact fun v hv => absurd hv List.not_mem_nil
  | cons name names ih =>
    rw [List.mapM_cons, bind_eq_ok] at h
    obtain ⟨v, hv, h⟩ := h
    obtain ⟨ws, hws, h⟩ := bind_eq_ok.1 h
    cases h
    exact List.forall_mem_cons.2 ⟨has_of_value hv, ih hws⟩

theorem has_of_function {name : String} {f : Function} (h : S.function name = .ok f) :
    S.Has (.function f) := by
  obtain ⟨v, hv, h⟩ := bind_eq_ok.1 h
  cases v with
  | function g =>
    cases h
    exact has_of_value hv
  | string _ | number _ | boolean _ | list _ => cases h

theorem has_of_keep {store : Option String} {result : Except Error Value} {v : Value}
    (h : (S.keep store result).Has v) : S.Has v ∨ result = .ok v := by
  unfold Session.keep at h
  split at h
  · obtain ⟨p, hp, hv⟩ := h
    rcases List.mem_cons.1 hp with rfl | hp
    · exact .inr (congrArg Except.ok hv)
    · exact .inl ⟨p, hp, hv⟩
  · exact .inl h

theorem state_keep (store : Option String) (result : Except Error Value) :
    (S.keep store result).state = S.state := by
  unfold Session.keep
  split <;> rfl

end Values

/-- All that the session holds is known, and its scopes exist. -/
structure Known (read : List Node → Prop) (S : Session) : Prop where
  bound : S.state.scopes.Known read
  values : ∀ p ∈ S.values, p.2.Known read S.state.scopes
  scopes : ∀ p ∈ S.scopes, p.2 < S.state.scopes.next

variable {S T : Session}

theorem known_initial : Known read initial :=
  ⟨fun _ _ _ h => (nomatch h), fun _ h => (nomatch h), fun _ h => (nomatch h)⟩

namespace Known

theorem more {wider : List Node → Prop} (hwider : ∀ forms, read forms → wider forms)
    (h : S.Known read) : S.Known wider :=
  ⟨h.bound.more hwider, fun p hp => (h.values p hp).more hwider, h.scopes⟩

theorem scope_lt (h : S.Known read) {name : String} {id : ScopeId} (hid : S.scope name = .ok id) :
    id < S.state.scopes.next := by
  unfold Session.scope at hid
  split at hid
  · next hl =>
    cases hid
    exact h.scopes _ (mem_of_lookup hl)
  · cases hid

theorem has (h : S.Known read) {v : Value} (hv : S.Has v) : v.Known read S.state.scopes := by
  obtain ⟨p, hp, rfl⟩ := hv
  exact h.values p hp

theorem createScope (h : S.Known read) (name : String) (outer caller : Option ScopeId) :
    (S.createScope name outer caller).Known read := by
  have hnext : (S.createScope name outer caller).state.scopes.next = S.state.scopes.next + 1 :=
    Scopes.next_create ..
  refine ⟨h.bound.create fun _ _ hv => (nomatch hv), fun p hp => ?_, fun p hp => ?_⟩
  · exact (h.values p hp).mono (hnext ▸ Nat.le_succ _)
  · rw [hnext]
    rcases List.mem_cons.1 hp with rfl | hp
    · exact Nat.lt_succ_self _
    · exact Nat.lt_succ_of_lt (h.scopes p hp)

theorem keep (h : S.Known read) {result : Except Error Value}
    (hr : ∀ v, result = .ok v → v.Known read S.state.scopes) (store : Option String) :
    (S.keep store result).Known read := by
  unfold Session.keep
  split
  · next v =>
    refine ⟨h.bound, fun p hp => ?_, h.scopes⟩
    rcases List.mem_cons.1 hp with rfl | hp
    · exact hr v rfl
    · exact h.values p hp
  · exact h

theorem advance (h : S.Known read) {t : State} (ht : Advances read S.state t) :
    { S with state := t }.Known read :=
  ⟨ht.known, fun p hp => (h.values p hp).mono ht.next_le,
    fun p hp => Nat.lt_of_lt_of_le (h.scopes p hp) ht.next_le⟩

theorem conclude (h : S.Known read) {t : State} (ht : Advances read S.state t)
    {result : Except Error Value} (hr : ∀ v, result = .ok v → Holds read t v)
    (store : Option String) : (S.conclude store result t).2.Known read :=
  (h.advance ht).keep hr store

end Known

/-! ### What steps do -/

/-- What the value of a symbol is reported as. -/
def sought (S : Session) (id : ScopeId) (symbol : String) (span : Span) : Except Error Value :=
  match S.state.scopes.resolve? id symbol with
  | some v => .ok v
  | none => .error (.eval (.unbound symbol span))

/-- What a step does that is not refused and ends: the reply to it, and the
session after it. -/
inductive Took (S : Session) (fuel : Nat) : Step → Reply × Session → Prop
  | global (name : String) : Took S fuel (.global name) (.done, S.createScope name none none)
  | enclose (name : String) {outer : String} {id : ScopeId} (hid : S.scope outer = .ok id) :
    Took S fuel (.enclose name outer) (.done, S.createScope name (some id) none)
  | frame (name : String) {defining caller : String} {id site : ScopeId}
    (hid : S.scope defining = .ok id) (hsite : S.scope caller = .ok site) :
    Took S fuel (.frame name defining caller) (.done, S.createScope name (some id) (some site))
  | define {scope value : String} (symbol : String) {v : Value} {id : ScopeId}
    (hv : S.value value = .ok v) (hid : S.scope scope = .ok id) :
    Took S fuel (.define scope symbol value)
      (.done, { S with state := { S.state with scopes := S.state.scopes.define id symbol v } })
  | get {scope : String} (symbol : String) (span : Span) (store : Option String) {id : ScopeId}
    (hid : S.scope scope = .ok id) :
    Took S fuel (.get scope symbol span store)
      (.found (S.sought id symbol span), S.keep store (S.sought id symbol span))
  | eval {scope source : String} {limit : Option Nat} (store : Option String) {id : ScopeId}
    {r : Except Error Value} {t : State} (hid : S.scope scope = .ok id)
    (h : evaluate fuel id source (S.state.redirect limit) = some (r, t)) :
    Took S fuel (.eval scope source limit store) (S.conclude store r t)
  | apply {function scope : String} {args : List String} {span : Span} {limit : Option Nat}
    (store : Option String) {f : Function} {vs : List Value} {site : ScopeId}
    {r : Except EvalError Value} {t : State} (hf : S.function function = .ok f)
    (hvs : args.mapM S.value = .ok vs) (hsite : S.scope scope = .ok site)
    (h : (f.apply fuel vs span site).outcome (S.state.redirect limit) = some (r, t)) :
    Took S fuel (.apply function args scope span limit store)
      (S.conclude store (r.mapError .eval) t)
  | compare {first second : String} {v w : Value} (hv : S.value first = .ok v)
    (hw : S.value second = .ok w) :
    Took S fuel (.compare first second) (.compared (v.equals w) (v.identical w), S)
  | names {scope : String} {id : ScopeId} (hid : S.scope scope = .ok id) :
    Took S fuel (.names scope) (.names (Text.sort (S.state.scopes.names id)), S)
  | inspect {scope : String} {id : ScopeId} (hid : S.scope scope = .ok id) :
    Took S fuel (.inspect scope) (.inspected (S.describe id), S)
  | complete {scope : String} (line : String) (cursor : Nat) {id : ScopeId}
    (hid : S.scope scope = .ok id) :
    Took S fuel (.complete scope line cursor)
      (.completions cursor (Prompt.completions (S.state.scopes.names id) line cursor), S)

theorem sought_eq_ok {id : ScopeId} {symbol : String} {span : Span} {v : Value}
    (h : S.sought id symbol span = .ok v) : S.state.scopes.resolve? id symbol = some v := by
  unfold sought at h
  split at h
  · next hr =>
    cases h
    exact hr
  · cases h

theorem took_of_step {fuel : Nat} {action : Step} {p : Reply × Session}
    (h : S.step fuel action = .ok (some p)) : S.Took fuel action p := by
  cases action with
  | global name =>
    cases h
    exact .global name
  | enclose name outer =>
    obtain ⟨id, hid, h⟩ := bind_eq_ok.1 h
    cases h
    exact .enclose name hid
  | frame name defining caller =>
    obtain ⟨id, hid, h⟩ := bind_eq_ok.1 h
    obtain ⟨site, hsite, h⟩ := bind_eq_ok.1 h
    cases h
    exact .frame name hid hsite
  | define scope symbol value =>
    obtain ⟨v, hv, h⟩ := bind_eq_ok.1 h
    obtain ⟨id, hid, h⟩ := bind_eq_ok.1 h
    cases h
    exact .define symbol hv hid
  | get scope symbol span store =>
    obtain ⟨id, hid, h⟩ := bind_eq_ok.1 h
    cases h
    exact .get symbol span store hid
  | eval scope source limit store =>
    obtain ⟨id, hid, h⟩ := bind_eq_ok.1 h
    obtain ⟨⟨r, t⟩, heval, h⟩ := Option.map_eq_some_iff.1 (pure_eq_ok.1 h)
    cases h
    exact .eval store hid heval
  | apply function args scope span limit store =>
    obtain ⟨f, hf, h⟩ := bind_eq_ok.1 h
    obtain ⟨vs, hvs, h⟩ := bind_eq_ok.1 h
    obtain ⟨site, hsite, h⟩ := bind_eq_ok.1 h
    obtain ⟨⟨r, t⟩, hrun, h⟩ := Option.map_eq_some_iff.1 (pure_eq_ok.1 h)
    cases h
    exact .apply store hf hvs hsite hrun
  | compare first second =>
    obtain ⟨v, hv, h⟩ := bind_eq_ok.1 h
    obtain ⟨w, hw, h⟩ := bind_eq_ok.1 h
    cases h
    exact .compare hv hw
  | names scope =>
    obtain ⟨id, hid, h⟩ := bind_eq_ok.1 h
    cases h
    exact .names hid
  | inspect scope =>
    obtain ⟨id, hid, h⟩ := bind_eq_ok.1 h
    cases h
    exact .inspect hid
  | complete scope line cursor =>
    obtain ⟨id, hid, h⟩ := bind_eq_ok.1 h
    cases h
    exact .complete line cursor hid

theorem step_eval {fuel : Nat} {scope source : String} {limit : Option Nat} {store : Option String}
    {reply : Reply} (h : S.step fuel (.eval scope source limit store) = .ok (some (reply, T))) :
    ∃ id r t, S.scope scope = .ok id ∧
      evaluate fuel id source (S.state.redirect limit) = some (r, t) ∧
      S.conclude store r t = (reply, T) := by
  cases took_of_step h with
  | eval _ hid heval => exact ⟨_, _, _, hid, heval, rfl⟩

/-- A step keeps what is known, if the source that it evaluates counts as read. -/
theorem Known.step (h : S.Known read) {fuel : Nat} {action : Step} {reply : Reply}
    (hread : ∀ source ∈ action.source?, ∀ forms, parseText source = .ok forms → read forms)
    (hstep : S.step fuel action = .ok (some (reply, T))) : T.Known read := by
  cases took_of_step hstep with
  | global name => exact h.createScope name none none
  | enclose name => exact h.createScope name _ none
  | frame name => exact h.createScope name _ _
  | define symbol hv =>
    refine h.advance ⟨?_, h.bound.define (h.has (has_of_value hv)) _ symbol⟩
    exact Nat.le_of_eq (Scopes.next_define ..).symm
  | get symbol span store => exact h.keep (fun v hv => h.bound.resolve? (sought_eq_ok hv)) store
  | @eval scope source limit store id r t hid heval =>
    obtain ⟨ht, hr, -⟩ := evaluate_known (s := S.state.redirect limit) (hread source rfl) h.bound
      (h.scope_lt hid) heval
    exact h.conclude ⟨ht.next_le, ht.known⟩ hr store
  | @apply name scope args span limit store f vs site r t hf hvs hsite hrun =>
    -- an error may point at the step itself, and nothing is said of it here
    have hcall := Function.ensures_applyWith (s := S.state.redirect limit) (E := fun _ => True)
      (fun frame x u hu hframe hx => (Node.ensures_eval fuel hu hframe hx).mono
        (fun _ k => k) (fun _ _ _ k => k) fun _ _ => trivial)
      h.bound (h.has (has_of_function hf)) (fun v hv => h.has (has_of_mapM_value hvs v hv)) span
      (fun _ _ => trivial) site
    obtain ⟨ht, hr, -⟩ := hcall r t hrun
    refine h.conclude ⟨ht.next_le, ht.known⟩ (fun v hv => hr v ?_) store
    cases r <;> cases hv
    rfl
  | compare | names | inspect | complete => exact h

/-- All that a session holds comes from the sources that were evaluated in it. -/
theorem Reached.known {sources : List String} (h : Reached sources S) :
    S.Known (ReadFrom sources) := by
  induction h with
  | initial => exact known_initial
  | @step sources S T fuel action reply _ hstep ih =>
    refine (ih.more ?_).step ?_ hstep
    · rintro forms ⟨source, hsource, hp⟩
      exact ⟨source, List.mem_append_right _ hsource, hp⟩
    · intro source hsource forms hp
      exact ⟨source, List.mem_append_left _ (Option.mem_toList.2 hsource), hp⟩

/-- When an evaluation in a session fails, the error points into the source that
was evaluated or into an earlier one. -/
theorem eval_error_pointsInto {sources : List String} (hS : Reached sources S) {fuel : Nat}
    {scope source : String} {limit : Option Nat} {store : Option String} {e : EvalError}
    {output : String} (h : S.step fuel (.eval scope source limit store) =
      .ok (some (.evaluated (.error (.eval e)) output, T))) :
    ∃ origin ∈ source :: sources, ∃ forms, parseText origin = .ok forms ∧ e.PointsInto forms := by
  obtain ⟨id, r, t, hid, heval, hc⟩ := step_eval h
  have hknown : S.Known (ReadFrom (source :: sources)) := by
    refine hS.known.more ?_
    rintro forms ⟨origin, horigin, hp⟩
    exact ⟨origin, List.mem_cons_of_mem source horigin, hp⟩
  have hread (forms : List Node) (hp : parseText source = .ok forms) :
      ReadFrom (source :: sources) forms := ⟨source, List.mem_cons_self, hp⟩
  obtain ⟨-, -, herr⟩ := evaluate_known (s := S.state.redirect limit) hread hknown.bound
    (hknown.scope_lt hid) heval
  cases hc
  obtain ⟨forms, ⟨origin, horigin, hp⟩, he⟩ := herr e rfl
  exact ⟨origin, horigin, forms, hp, he⟩

/-- The body of a function, from an earlier source, is to blame when a call of the
function fails in a later one. -/
theorem eval_error_pointsInto_body :
    let definition := "(fun f [] y)"
    let e := EvalError.unbound "y" ⟨10, 11⟩
    ∃ S T output, Reached [definition] S ∧
      S.step 4 (.eval "g" "(f)" none none) =
        .ok (some (.evaluated (.error (.eval e)) output, T)) ∧
      ∃ origin ∈ ["(f)", definition], ∃ forms, parseText origin = .ok forms ∧
        e.PointsInto forms := by
  let unbound : Reply → Option (String × Span)
    | .evaluated (.error (.eval (.unbound name span))) _ => some (name, span)
    | _ => none
  have hrun : ((initial.createScope "g" none none).step 4
      (.eval "g" "(fun f [] y)" none none)).toOption.join.bind (fun p =>
        (p.2.step 4 (.eval "g" "(f)" none none)).toOption.join.bind fun q => unbound q.1) =
      some ("y", ⟨10, 11⟩) := by decide +kernel
  have hok {α : Type} {x : Except Refusal (Option α)} {a : α} (h : x.toOption.join = some a) :
      x = .ok (some a) := by
    cases x with
    | error e => cases h
    | ok o => exact congrArg Except.ok h
  obtain ⟨⟨reply, S⟩, hfirst, hrun⟩ := Option.bind_eq_some_iff.1 hrun
  obtain ⟨⟨answer, T⟩, hsecond, hanswer⟩ := Option.bind_eq_some_iff.1 hrun
  have hglobal : Reached [] (initial.createScope "g" none none) :=
    @Reached.step [] initial _ 0 (.global "g") .done .initial rfl
  have hS : Reached ["(fun f [] y)"] S := .step hglobal (hok hfirst)
  obtain ⟨output, rfl⟩ : ∃ output,
      answer = .evaluated (.error (.eval (.unbound "y" ⟨10, 11⟩))) output := by
    dsimp only [unbound] at hanswer
    split at hanswer
    · next name span output =>
      cases hanswer
      exact ⟨output, rfl⟩
    · cases hanswer
  exact ⟨S, T, output, hS, hok hsecond, eval_error_pointsInto hS (hok hsecond)⟩

end Session

end SmallLisp
