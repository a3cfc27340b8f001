import SmallLisp.Eval

/-! What runs do, one step after the other. Every operation has an outcome that
can be read off, and the outcome of a sequence is that of its parts. A relation
between the states before and after that is reflexive and transitive holds of a
run as soon as it holds of each operation in it, whether the run succeeds or
fails midway. -/

namespace SmallLisp

namespace Run

variable {α β : Type}

/-! ### Outcomes -/

theorem ext {x y : Run α} (h : ∀ s, x.outcome s = y.outcome s) : x = y := funext h

theorem outcome_pure (a : α) (s : State) : (pure a : Run α).outcome s = some (.ok a, s) := rfl

theorem outcome_fail (e : EvalError) (s : State) :
    (fail e : Run α).outcome s = some (.error e, s) := rfl

theorem outcome_get (s : State) : (get : Run State).outcome s = some (.ok s, s) := rfl

theorem outcome_modify (f : State → State) (s : State) :
    (modify f : Run PUnit).outcome s = some (.ok ⟨⟩, f s) := rfl

theorem outcome_bind (x : Run α) (f : α → Run β) (s : State) :
    (x >>= f).outcome s =
      match x.outcome s with
      | none => none
      | some (.error e, t) => some (.error e, t)
      | some (.ok a, t) => (f a).outcome t := by
  have h : (x >>= f).outcome s = (x.outcome s).bind fun p =>
      ExceptT.bindCont (m := StateT State Option) f p.1 p.2 := rfl
  rw [h]
  match x.outcome s with
  | none => rfl
  | some (.error e, t) => rfl
  | some (.ok a, t) => rfl

theorem outcome_bind_of_ok {x : Run α} {s t : State} {a : α} (h : x.outcome s = some (.ok a, t))
    (f : α → Run β) : (x >>= f).outcome s = (f a).outcome t := by
  rw [outcome_bind, h]

theorem outcome_bind_of_error {x : Run α} {s t : State} {e : EvalError}
    (h : x.outcome s = some (.error e, t)) (f : α → Run β) :
    (x >>= f).outcome s = some (.error e, t) := by
  rw [outcome_bind, h]

theorem outcome_log (e : Event) (s : State) : (log e).outcome s = some (.ok (), s.log e) := rfl

theorem outcome_define (scope : ScopeId) (name : String) (v : Value) (s : State) :
    (define scope name v).outcome s =
      some (.ok (), { s with scopes := s.scopes.define scope name v }) := rfl

theorem outcome_enter (outer caller : Option ScopeId) (pairs : List (String × Value)) (s : State) :
    (enter outer caller pairs).outcome s =
      some (.ok s.scopes.next,
        { s with scopes := s.scopes.create ⟨outer, caller, .ofPairs pairs⟩ }) := rfl

theorem outcome_makeClosure (name : String) (params : List String) (body : Node)
    (scope : ScopeId) (s : State) :
    (makeClosure name params body scope).outcome s =
      some (.ok ⟨s.closures, name, params, body, scope⟩, { s with closures := s.closures + 1 }) :=
  rfl

theorem outcome_lookup (scope : ScopeId) (name : String) (span : Span) (s : State) :
    (lookup scope name span).outcome s =
      some (match s.scopes.resolve? scope name with
        | some v => .ok v
        | none => .error (.unbound name span), s) := by
  rw [lookup, outcome_bind, outcome_get]
  dsimp only
  cases s.scopes.resolve? scope name <;> rfl

theorem outcome_write (text : String) (span : Span) (s : State) :
    (write text span).outcome s =
      some (if s.sink.fits (Text.encode text).size then .ok () else .error (.sinkFull span),
        { s with sink := s.sink.write (Text.encode text) }) := by
  rw [write, outcome_bind, outcome_get]
  simp only [outcome_bind, outcome_modify]
  split <;> rfl

theorem outcome_bind_eq_some {x : Run α} {f : α → Run β} {s u : State} {r : Except EvalError β}
    (h : (x >>= f).outcome s = some (r, u)) :
    (∃ e, x.outcome s = some (.error e, u) ∧ r = .error e) ∨
      ∃ a t, x.outcome s = some (.ok a, t) ∧ (f a).outcome t = some (r, u) := by
  rw [outcome_bind] at h
  match hx : x.outcome s with
  | none => simp [hx] at h
  | some (.error e, t) =>
    rw [hx] at h
    cases h
    exact .inl ⟨e, rfl, rfl⟩
  | some (.ok a, t) =>
    rw [hx] at h
    exact .inr ⟨a, t, rfl, h⟩

theorem length_of_mapM {f : α → Run β} {as : List α} {s t : State} {bs : List β}
    (h : (as.mapM f).outcome s = some (.ok bs, t)) : bs.length = as.length := by
  induction as generalizing s bs with
  | nil =>
    cases h
    rfl
  | cons a as ih =>
    rw [List.mapM_cons] at h
    obtain ⟨e, -, he⟩ | ⟨b, u, -, h⟩ := outcome_bind_eq_some h
    · cases he
    obtain ⟨e, -, he⟩ | ⟨cs, v, hcs, h⟩ := outcome_bind_eq_some h
    · cases he
    cases h
    exact congrArg (· + 1) (ih hcs)

/-- What follows a list of runs may count on their number. -/
theorem mapM_bind_congr {γ : Type} {f : α → Run β} {as : List α} {g h : List β → Run γ}
    (hgh : ∀ bs, bs.length = as.length → g bs = h bs) : as.mapM f >>= g = as.mapM f >>= h := by
  refine ext fun s => ?_
  rw [outcome_bind, outcome_bind]
  match hx : (as.mapM f).outcome s with
  | none => rfl
  | some (.error e, t) => rfl
  | some (.ok bs, t) => exact congrArg (fun x => x.outcome t) (hgh bs (length_of_mapM hx))

theorem fill_cons (frame : ScopeId) (value : α → Run Value) (b : String × α)
    (bs : List (String × α)) :
    fill frame value (b :: bs) = (do
      let v ← value b.2
      define frame b.1 v
      fill frame value bs) := rfl

/-! ### Relations between the states before and after -/

/-- Whenever the run ends, in success or failure, `R` relates the first state to the last. -/
def Follows (R : State → State → Prop) (x : Run α) : Prop :=
  ∀ s r t, x.outcome s = some (r, t) → R s t

namespace Follows

variable {R Q : State → State → Prop}

theorem mono (h : ∀ s t, R s t → Q s t) {x : Run α} (hx : Follows R x) : Follows Q x :=
  fun s r t ho => h s t (hx s r t ho)

section Reflexive

variable (refl : ∀ s, R s s)
include refl

theorem pure (a : α) : Follows R (pure a : Run α) := by
  intro s r t h
  cases h
  exact refl s

theorem fail (e : EvalError) : Follows R (fail e : Run α) := by
  intro s r t h
  cases h
  exact refl s

theorem lookup (scope : ScopeId) (name : String) (span : Span) :
    Follows R (lookup scope name span) := by
  intro s r t h
  rw [outcome_lookup] at h
  cases h
  exact refl s

end Reflexive

theorem outOfFuel : Follows R (outOfFuel : Run α) := by
  intro s r t h
  cases h

section Transitive

variable (trans : ∀ s t u, R s t → R t u → R s u)
include trans

theorem bind {x : Run α} {f : α → Run β} (hx : Follows R x) (hf : ∀ a, Follows R (f a)) :
    Follows R (x >>= f) := by
  intro s r u h
  rcases outcome_bind_eq_some h with ⟨e, he, -⟩ | ⟨a, t, ha, hu⟩
  · exact hx s _ u he
  · exact trans s t u (hx s _ t ha) (hf a t r u hu)

theorem mapM (refl : ∀ s, R s s) {f : α → Run β} {as : List α} (h : ∀ a ∈ as, Follows R (f a)) :
    Follows R (as.mapM f) := by
  induction as with
  | nil => exact pure refl []
  | cons a as ih =>
    rw [List.mapM_cons]
    refine bind trans (h a List.mem_cons_self) fun b => ?_
    refine bind trans (ih fun c hc => h c (List.mem_cons_of_mem a hc)) fun bs => ?_
    exact pure refl (b :: bs)

/-- A scope is filled by computing values and defining names in it. -/
theorem fill (refl : ∀ s, R s s) {frame : ScopeId}
    (hdefine : ∀ name v, Follows R (define frame name v)) {value : α → Run Value}
    {bs : List (String × α)} (h : ∀ b ∈ bs, Follows R (value b.2)) :
    Follows R (fill frame value bs) := by
  induction bs with
  | nil => exact pure refl ()
  | cons b bs ih =>
    rw [fill_cons]
    refine bind trans (h b List.mem_cons_self) fun v => bind trans (hdefine b.1 v) fun _ => ?_
    exact ih fun c hc => h c (List.mem_cons_of_mem b hc)

end Transitive

end Follows

/-! ### Results together with the states after -/

/-- Whenever the run ends that starts in `s`, `R` relates `s` to the last state,
and in that state `V` holds of the value, or else `E` holds of the error. -/
def Ensures (R : State → State → Prop) (V : State → α → Prop) (E : EvalError → Prop) (s : State)
    (x : Run α) : Prop :=
  ∀ r t, x.outcome s = some (r, t) →
    R s t ∧ (∀ a, r = .ok a → V t a) ∧ ∀ e, r = .error e → E e

namespace Ensures

variable {R : State → State → Prop} {V : State → α → Prop} {W : State → β → Prop}
  {E : EvalError → Prop} {s : State}

theorem pure {a : α} (h : R s s) (hv : V s a) : Ensures R V E s (pure a : Run α) := by
  intro r t ho
  cases ho
  exact ⟨h, fun b hb => Except.ok.inj hb ▸ hv, nofun⟩

theorem fail {e : EvalError} (h : R s s) (he : E e) : Ensures R V E s (fail e : Run α) := by
  intro r t ho
  cases ho
  exact ⟨h, nofun, fun f hf => Except.error.inj hf ▸ he⟩

theorem outOfFuel : Ensures R V E s (outOfFuel : Run α) := by
  intro r t ho
  cases ho

theorem mono {x : Run α} (hx : Ensures R V E s x) {R' : State → State → Prop}
    {V' : State → α → Prop} {E' : EvalError → Prop} (hr : ∀ t, R s t → R' s t)
    (hv : ∀ t a, R s t → V t a → V' t a) (he : ∀ e, E e → E' e) : Ensures R' V' E' s x := by
  intro r t ho
  obtain ⟨h, hok, herr⟩ := hx r t ho
  exact ⟨hr t h, fun a ha => hv t a h (hok a ha), fun e h => he e (herr e h)⟩

section Transitive

variable (trans : ∀ s t u, R s t → R t u → R s u)
include trans

theorem bind {x : Run α} {f : α → Run β} (hx : Ensures R V E s x)
    (hf : ∀ a t, R s t → V t a → Ensures R W E t (f a)) : Ensures R W E s (x >>= f) := by
  intro r u ho
  rcases outcome_bind_eq_some ho with ⟨e, he, rfl⟩ | ⟨a, t, ha, hu⟩
  · obtain ⟨h, -, herr⟩ := hx _ u he
    exact ⟨h, nofun, fun f hf => Except.error.inj hf ▸ herr e rfl⟩
  · obtain ⟨h, hok, -⟩ := hx _ t ha
    obtain ⟨k, hw, herr⟩ := hf a t h (hok a rfl) r u hu
    exact ⟨trans s t u h k, hw, herr⟩

/-- A run that does from the state what another does from a later one. -/
theorem of_later {x y : Run α} {t : State} (h : R s t) (hx : Ensures R V E t x)
    (ho : y.outcome s = x.outcome t) : Ensures R V E s y := by
  intro r u hr
  obtain ⟨k, hok, herr⟩ := hx r u (ho ▸ hr)
  exact ⟨trans s t u h k, hok, herr⟩

/-- What holds of each value when it has been computed still holds when all have been. -/
theorem mapM (refl : ∀ s t, R s t → R t t) (keep : ∀ t u b, R t u → W t b → W u b)
    {f : α → Run β} {as : List α} (h : R s s)
    (hf : ∀ a ∈ as, ∀ t, R s t → Ensures R W E t (f a)) :
    Ensures R (fun t bs => bs.length = as.length ∧ ∀ b ∈ bs, W t b) E s (as.mapM f) := by
  induction as generalizing s with
  | nil => exact pure h ⟨rfl, fun b hb => absurd hb List.not_mem_nil⟩
  | cons a as ih =>
    rw [List.mapM_cons]
    refine bind trans (hf a List.mem_cons_self s h) fun b t hst hb => ?_
    have htail := ih (refl s t hst) fun c hc u htu =>
      hf c (List.mem_cons_of_mem a hc) u (trans s t u hst htu)
    refine bind trans htail fun bs u htu hbs => ?_
    refine pure (refl t u htu) ⟨congrArg (· + 1) hbs.1, ?_⟩
    exact List.forall_mem_cons.2 ⟨keep t u b htu hb, hbs.2⟩

/-- A scope is filled by computing values and defining names in it. -/
theorem fill (refl : ∀ s t, R s t → R t t) {X : State → Value → Prop} {frame : ScopeId}
    {value : α → Run Value} {bs : List (String × α)} (h : R s s)
    (hf : ∀ b ∈ bs, ∀ t, R s t → Ensures R X E t (value b.2))
    (hdefine : ∀ b ∈ bs, ∀ t v, R s t → X t v →
      Ensures R (fun _ _ => True) E t (define frame b.1 v)) :
    Ensures R (fun _ _ => True) E s (fill frame value bs) := by
  induction bs generalizing s with
  | nil => exact pure h trivial
  | cons b bs ih =>
    rw [fill_cons]
    refine bind trans (hf b List.mem_cons_self s h) fun v t hst hv => ?_
    refine bind trans (hdefine b List.mem_cons_self t v hst hv) fun _ u htu _ => ?_
    have hsu := trans s t u hst htu
    refine ih (refl s u hsu) (fun c hc w huw => ?_) fun c hc w v huw => ?_
    · exact hf c (List.mem_cons_of_mem b hc) w (trans s u w hsu huw)
    · exact hdefine c (List.mem_cons_of_mem b hc) w v (trans s u w hsu huw)

end Transitive

end Ensures

end Run

/-! ### Evaluation, form by form -/

namespace Node

/-- The function that stands at the head of a call. -/
def evalHead (fuel : Nat) (scope : ScopeId) (head : Node) : Run Function :=
  match head.primitive? with
  | some p => pure (.primitive p)
  | none => do
    match ← eval fuel scope head with
    | .function f => pure f
    | found => Run.fail (.notAFunction found head.span)

variable (fuel : Nat) (scope : ScopeId)

theorem eval_call (head : Node) (args : List Node) (span : Span) :
    eval (fuel + 1) scope (.call head args span) = (do
      let f ← evalHead fuel scope head
      let values ← args.mapM (eval fuel scope)
      f.applyWith (eval fuel) values span scope) := by
  rw [eval.eq_def (fuel + 1), evalHead]
  dsimp only
  cases head.primitive? with
  | some p => rfl
  | none =>
    rw [bind_assoc]
    refine bind_congr fun v => ?_
    cases v <;> rfl

/-- What follows the test of a conditional. -/
def evalBranch (fuel : Nat) (scope : ScopeId) (test yes : Node) (no : Option Node) :
    Value → Run Value
  | .boolean true => eval fuel scope yes
  | .boolean false => no.elim (pure (.boolean false)) (eval fuel scope)
  | found => Run.fail (.conditionNotBoolean found test.span)

theorem eval_conditional (test yes : Node) (no : Option Node) (span : Span) :
    eval (fuel + 1) scope (.conditional test yes no span) = (do
      Run.log (.specialForm .ifForm span)
      let v ← eval fuel scope test
      evalBranch fuel scope test yes no v) := by
  rw [eval.eq_def (fuel + 1)]
  refine bind_congr fun _ => bind_congr fun v => ?_
  match v with
  | .boolean true => rfl
  | .boolean false => cases no <;> rfl
  | .number _ | .string _ | .function _ | .list _ => rfl

/-- The closure that a function form makes. -/
def closureMade (s : State) (scope : ScopeId) (name : String) (params : List String)
    (body : Node) : Closure :=
  ⟨s.closures, name, params, body, scope⟩

/-- The state that a function form leaves. -/
def stateMade (s : State) (scope : ScopeId) (name : String) (params : List String) (body : Node)
    (span : Span) : State :=
  let c := closureMade s scope name params body
  { (s.log (.specialForm .funForm span)).log (.definition name params.length) with
    closures := s.closures + 1
    scopes := s.scopes.define scope name (.function (.closure c)) }

theorem outcome_eval_function (name : String) (params : List String) (body : Node) (span : Span)
    (s : State) :
    (eval (fuel + 1) scope (.function name params body span)).outcome s =
      some (.ok (.function (.closure (closureMade s scope name params body))),
        stateMade s scope name params body span) := rfl

end Node

end SmallLisp
