import SmallLisp.Proofs.Activations
import SmallLisp.Proofs.Origin
import SmallLisp.Proofs.Programs

/-! What the log tells of a run. It begins with the program and then goes on by
steps of three kinds: a special form of the program, the definition of a function
together with its form, and the call of a function whose definition has been told
of. The last holds because every closure in a scope or value was made by a
definition of this run. So it is at every moment, however the run ends and even if
it never does. -/

namespace SmallLisp

/-- The keyword that a special form begins with. -/
def Node.keyword? : Node → Option Keyword
  | letIn .. => some .letForm
  | conditional .. => some .ifForm
  | function .. => some .funForm
  | number .. | string .. | boolean .. | symbol .. | list .. | call .. => none

/-! ### Logs -/

/-- The logs that a run of these forms may have. -/
inductive Chronicle (forms : List Node) : List Event → Prop
  | program : Chronicle forms [.program forms.length]
  | specialForm {log : List Event} {x : Node} {form : Keyword} : Chronicle forms log →
    x.StandsIn forms → x.keyword? = some form → form ≠ .funForm →
    Chronicle forms (log ++ [.specialForm form x.span])
  | definition {log : List Event} {name : String} {params : List String} {body : Node}
    {span : Span} : Chronicle forms log → (Node.function name params body span).StandsIn forms →
    Chronicle forms (log ++ [.specialForm .funForm span, .definition name params.length])
  | call {log : List Event} {name : String} {args : Nat} : Chronicle forms log →
    Event.definition name args ∈ log → Chronicle forms (log ++ [.call name args])

/-- A faithful account of a run of these forms. The first event tells how many there
are, and no other is of its level; every special form is one of the program; a form
that defines a function is followed at once by the definition, and no definition
stands elsewhere; a call comes after a definition of that name with as many
parameters as there are arguments. -/
structure FaithfulLog (forms : List Node) (log : List Event) : Prop where
  first : log.head? = some (.program forms.length)
  trace : ∀ e ∈ log.tail, e.level = .trace
  specialForm : ∀ form span, .specialForm form span ∈ log →
    ∃ x : Node, x.StandsIn forms ∧ x.keyword? = some form ∧ x.span = span
  defines : ∀ (i : Nat) span, log[i]? = some (.specialForm .funForm span) →
    ∃ name params body, (Node.function name params body span).StandsIn forms ∧
      log[i + 1]? = some (.definition name params.length)
  defined : ∀ (i : Nat) name params, log[i]? = some (.definition name params) →
    ∃ j span, i = j + 1 ∧ log[j]? = some (.specialForm .funForm span)
  call : ∀ (i : Nat) name args, log[i]? = some (.call name args) →
    ∃ j < i, log[j]? = some (.definition name args)

section

variable {forms : List Node} {log more : List Event}

theorem getElem?_append_of_eq_some {α : Type} {as : List α} {a : α} {i : Nat} (h : as[i]? = some a)
    (bs : List α) : (as ++ bs)[i]? = some a := by
  rw [List.getElem?_append_left (List.getElem?_eq_some_iff.1 h).1, h]

theorem getElem?_append_eq_some {α : Type} {as bs : List α} {a : α} {i : Nat}
    (h : (as ++ bs)[i]? = some a) : as[i]? = some a ∨ ∃ k, i = as.length + k ∧ bs[k]? = some a := by
  rcases Nat.lt_or_ge i as.length with hlt | hle
  · rw [List.getElem?_append_left hlt] at h
    exact .inl h
  · rw [List.getElem?_append_right hle] at h
    exact .inr ⟨i - as.length, (Nat.add_sub_cancel' hle).symm, h⟩

namespace FaithfulLog

theorem ne_nil (h : FaithfulLog forms log) : log ≠ [] := by
  rintro rfl
  cases h.first

theorem program : FaithfulLog forms [.program forms.length] where
  first := rfl
  trace _ he := absurd he List.not_mem_nil
  specialForm _ _ h := by cases List.mem_singleton.1 h
  defines i _ h := by cases i <;> cases h
  defined i _ _ h := by cases i <;> cases h
  call i _ _ h := by cases i <;> cases h

/-- More events, among which each definition stands with its form, and which call
nothing but what was defined before them. -/
theorem append (h : FaithfulLog forms log) (htrace : ∀ e ∈ more, e.level = .trace)
    (hforms : ∀ form span, .specialForm form span ∈ more →
      ∃ x : Node, x.StandsIn forms ∧ x.keyword? = some form ∧ x.span = span)
    (hdefines : ∀ (k : Nat) span, more[k]? = some (.specialForm .funForm span) →
      ∃ name params body, (Node.function name params body span).StandsIn forms ∧
        more[k + 1]? = some (.definition name params.length))
    (hdefined : ∀ (k : Nat) name params, more[k]? = some (.definition name params) →
      ∃ j span, k = j + 1 ∧ more[j]? = some (.specialForm .funForm span))
    (hcall : ∀ name args, .call name args ∈ more → .definition name args ∈ log) :
    FaithfulLog forms (log ++ more) where
  first := by
    rw [List.head?_append_of_ne_nil _ h.ne_nil]
    exact h.first
  trace e he := by
    rw [List.tail_append_of_ne_nil h.ne_nil] at he
    exact (List.mem_append.1 he).elim (h.trace e) (htrace e)
  specialForm form span he :=
    (List.mem_append.1 he).elim (h.specialForm form span) (hforms form span)
  defines i span hi := by
    rcases getElem?_append_eq_some hi with hi | ⟨k, rfl, hk⟩
    · obtain ⟨name, params, body, hx, hnext⟩ := h.defines i span hi
      exact ⟨name, params, body, hx, getElem?_append_of_eq_some hnext more⟩
    · obtain ⟨name, params, body, hx, hnext⟩ := hdefines k span hk
      refine ⟨name, params, body, hx, ?_⟩
      rwa [Nat.add_assoc, List.getElem?_append_right (Nat.le_add_right _ _),
        Nat.add_sub_cancel_left]
  defined i name params hi := by
    rcases getElem?_append_eq_some hi with hi | ⟨k, rfl, hk⟩
    · obtain ⟨j, span, hij, hj⟩ := h.defined i name params hi
      exact ⟨j, span, hij, getElem?_append_of_eq_some hj more⟩
    · obtain ⟨j, span, rfl, hj⟩ := hdefined k name params hk
      refine ⟨log.length + j, span, rfl, ?_⟩
      rwa [List.getElem?_append_right (Nat.le_add_right _ _), Nat.add_sub_cancel_left]
  call i name args hi := by
    rcases getElem?_append_eq_some hi with hi | ⟨k, rfl, hk⟩
    · obtain ⟨j, hlt, hj⟩ := h.call i name args hi
      exact ⟨j, hlt, getElem?_append_of_eq_some hj more⟩
    · obtain ⟨j, hj⟩ := List.mem_iff_getElem?.1 (hcall name args (List.mem_of_getElem? hk))
      have hlt := (List.getElem?_eq_some_iff.1 hj).1
      exact ⟨j, Nat.lt_add_right k hlt, getElem?_append_of_eq_some hj more⟩

end FaithfulLog

/-- What a log tells step by step is a faithful account. -/
theorem Chronicle.faithful (h : Chronicle forms log) : FaithfulLog forms log := by
  induction h with
  | program => exact .program
  | @specialForm log x form _ hx hform hne ih =>
    refine ih.append (List.forall_mem_singleton.2 rfl) (fun form' span he => ?_)
      (fun k span hk => ?_) (fun k name params hk => ?_) fun name args he => ?_
    · cases List.mem_singleton.1 he
      exact ⟨x, hx, hform, rfl⟩
    · cases k with
      | zero =>
        cases hk
        exact absurd rfl hne
      | succ k => cases hk
    · cases k <;> cases hk
    · cases List.mem_singleton.1 he
  | @definition log name params body span _ hx ih =>
    refine ih.append (List.forall_mem_cons.2 ⟨rfl, List.forall_mem_singleton.2 rfl⟩)
      (fun form' span' he => ?_) (fun k span' hk => ?_) (fun k name' params' hk => ?_)
      fun name' args he => ?_
    · rcases List.mem_cons.1 he with he | he
      · cases he
        exact ⟨_, hx, rfl, rfl⟩
      · cases List.mem_singleton.1 he
    · match k with
      | 0 =>
        cases hk
        exact ⟨name, params, body, hx, rfl⟩
      | 1 => cases hk
      | k + 2 => cases hk
    · match k with
      | 0 => cases hk
      | 1 => exact ⟨0, span, rfl, rfl⟩
      | k + 2 => cases hk
    · simp at he
  | @call log name args _ hm ih =>
    refine ih.append (List.forall_mem_singleton.2 rfl) (fun form span he => ?_)
      (fun k span hk => ?_) (fun k name params hk => ?_) fun name' args' he => ?_
    · cases List.mem_singleton.1 he
    · cases k <;> cases hk
    · cases k <;> cases hk
    · cases List.mem_singleton.1 he
      exact hm

end

/-! ### Closures that the log has told of -/

/-- Every closure in the value was made by a definition in the program, and the log
tells of one with its name and as many parameters. -/
def Value.Announced (forms : List Node) (log : List Event) (v : Value) : Prop :=
  ∀ c ∈ v.closures, c.body.StandsIn forms ∧ Event.definition c.name c.params.length ∈ log

/-- The log is one of these forms, and it tells of all closures that are bound. -/
structure State.Tells (forms : List Node) (s : State) : Prop where
  log : Chronicle forms s.events.toList
  bound : ∀ id key v, (s.scopes.bindings id).find? key = some v →
    v.Announced forms s.events.toList

/-- The log has only been added to, and still is one of these forms. -/
structure Narrates (forms : List Node) (s t : State) : Prop where
  log_le : s.events.toList <+: t.events.toList
  tells : t.Tells forms

section

variable {forms : List Node} {told more : List Event} {s t u : State}

theorem Value.Announced.mono {v : Value} (h : v.Announced forms told) (hle : told <+: more) :
    v.Announced forms more :=
  fun c hc => ⟨(h c hc).1, hle.subset (h c hc).2⟩

theorem Value.announced_list {vs : List Value} (h : ∀ v ∈ vs, v.Announced forms told) :
    (Value.list vs).Announced forms told := by
  intro c hc
  obtain ⟨v, hv, hcv⟩ := Value.mem_closuresAll.1 hc
  exact h v hv c hcv

theorem Primitive.announced_result {p : Primitive} {args : List Value} {v : Value}
    (h : p.result args = .ok v) (hargs : ∀ a ∈ args, a.Announced forms told) :
    v.Announced forms told := by
  intro c hc
  obtain ⟨a, ha, hca⟩ := Value.mem_closuresAll.1 (Primitive.mem_closures_of_result h hc)
  exact hargs a ha c hca

theorem State.Tells.resolve? (hs : s.Tells forms) {id : ScopeId} {name : String} {v : Value}
    (h : s.scopes.resolve? id name = some v) : v.Announced forms s.events.toList := by
  simp only [Scopes.resolve?, Option.orElse_eq_orElse, Option.orElse_eq_or,
    Option.or_eq_some_iff] at h
  rcases h with h | ⟨-, h⟩
  · obtain ⟨o, ho⟩ := Scopes.exists_bound_of_find? h
    exact hs.bound o _ v ho
  · obtain ⟨p, -, rfl⟩ := Option.map_eq_some_iff.1 h
    exact fun c hc => absurd hc List.not_mem_nil

theorem State.events_log (e : Event) : (s.log e).events.toList = s.events.toList ++ [e] :=
  Array.toList_push

namespace Narrates

/-- A state with the same scopes and the same log. -/
theorem of_eq (hs : s.Tells forms) (hscopes : t.scopes = s.scopes) (hevents : t.events = s.events) :
    Narrates forms s t :=
  ⟨hevents ▸ List.prefix_rfl, hevents ▸ hs.log, hevents ▸ hscopes ▸ hs.bound⟩

theorem refl (hs : s.Tells forms) : Narrates forms s s := of_eq hs rfl rfl

theorem trans (s t u : State) (h : Narrates forms s t) (k : Narrates forms t u) :
    Narrates forms s u :=
  ⟨h.log_le.trans k.log_le, k.tells⟩

theorem right (s t : State) (h : Narrates forms s t) : Narrates forms t t := refl h.tells

/-- One more value is bound, or none, after more has been told. -/
theorem of_bound (hs : s.Tells forms) (hle : s.events.toList <+: t.events.toList)
    (ht : Chronicle forms t.events.toList)
    (hbound : ∀ id key v, (t.scopes.bindings id).find? key = some v →
      v.Announced forms t.events.toList ∨ ∃ id, (s.scopes.bindings id).find? key = some v) :
    Narrates forms s t where
  log_le := hle
  tells := ⟨ht, fun id key v hv => (hbound id key v hv).elim (fun h => h) fun ⟨o, ho⟩ =>
    (hs.bound o key v ho).mono hle⟩

theorem log (hs : s.Tells forms) {e : Event} (he : Chronicle forms (s.events.toList ++ [e])) :
    Narrates forms s (s.log e) :=
  .of_bound hs (State.events_log e ▸ List.prefix_append _ _) (State.events_log e ▸ he)
    fun id _ _ hv => .inr ⟨id, hv⟩

theorem entered (hs : s.Tells forms) (outer caller : Option ScopeId) {names : List String}
    {vs : List Value} (hvs : ∀ v ∈ vs, v.Announced forms s.events.toList) :
    Narrates forms s (s.entered outer caller (names.zip vs)) :=
  .of_bound hs List.prefix_rfl hs.log fun id key v hv => by
    rcases Scopes.find?_bindings_create hv with ⟨-, hv⟩ | hv
    · exact .inl (hvs v (Bindings.mem_of_find?_ofPairs hv).1)
    · exact .inr ⟨id, hv⟩

theorem opened (hs : s.Tells forms) {span : Span}
    (he : Chronicle forms (s.events.toList ++ [.specialForm .letForm span])) (scope : ScopeId) :
    Narrates forms s (s.opened scope span) := by
  have hlog := log hs he
  refine hlog.trans _ _ _
    (.of_bound hlog.tells List.prefix_rfl hlog.tells.log fun id key v hv => ?_)
  rcases Scopes.find?_bindings_create hv with ⟨-, hv⟩ | hv
  · cases hv
  · exact .inr ⟨id, hv⟩

theorem define (hs : s.Tells forms) {v : Value} (hv : v.Announced forms s.events.toList)
    (scope : ScopeId) (name : String) :
    Narrates forms s { s with scopes := s.scopes.define scope name v } :=
  .of_bound hs List.prefix_rfl hs.log fun id key w hw => by
    rcases Scopes.find?_bindings_define hw with ⟨-, -, rfl⟩ | hw
    · exact .inl hv
    · exact .inr ⟨id, hw⟩

/-- A definition is told of before its closure is bound. -/
theorem stateMade (hs : s.Tells forms) (scope : ScopeId) {name : String} {params : List String}
    {body : Node} {span : Span} (hx : (Node.function name params body span).StandsIn forms) :
    Narrates forms s (Node.stateMade s scope name params body span) ∧
      (Value.function (.closure (Node.closureMade s scope name params body))).Announced forms
        (Node.stateMade s scope name params body span).events.toList := by
  have hlog : (Node.stateMade s scope name params body span).events.toList =
      s.events.toList ++ [.specialForm .funForm span, .definition name params.length] := by
    rw [Node.stateMade]
    simp [State.log]
  have hv : (Value.function (.closure (Node.closureMade s scope name params body))).Announced forms
      (Node.stateMade s scope name params body span).events.toList := by
    intro c hc
    obtain rfl := List.mem_singleton.1 hc
    refine ⟨hx.part (List.mem_singleton_self body), ?_⟩
    rw [hlog]
    exact List.mem_append_right _ (List.mem_cons_of_mem _ (List.mem_singleton_self _))
  refine ⟨.of_bound hs (hlog ▸ List.prefix_append _ _) (hlog ▸ .definition hs.log hx)
    fun id key w hw => ?_, hv⟩
  rcases Scopes.find?_bindings_define hw with ⟨-, -, rfl⟩ | hw
  · exact .inl hv
  · exact .inr ⟨id, hw⟩

end Narrates

end

/-! ### Evaluation -/

section Runs

variable {forms : List Node} {s : State}

/-- The log tells of the closures in the value. -/
def State.Announces (forms : List Node) (s : State) (v : Value) : Prop :=
  v.Announced forms s.events.toList

open State (Announces)

theorem State.Announces.keep (t u : State) (v : Value) (h : Narrates forms t u)
    (hv : Announces forms t v) : Announces forms u v :=
  Value.Announced.mono hv h.log_le

/-- Whatever a run has done when it ends, the log tells of it. -/
abbrev Run.Tells {α : Type} (forms : List Node) (V : State → α → Prop) (s : State) (x : Run α) :
    Prop :=
  Run.Ensures (Narrates forms) V (fun _ => True) s x

namespace Run.Tells

theorem log (hs : s.Tells forms) {e : Event} (he : Chronicle forms (s.events.toList ++ [e])) :
    Run.Tells forms (fun t _ => t = s.log e) s (Run.log e) := by
  intro r t ho
  cases ho
  exact ⟨.log hs he, fun _ _ => rfl, nofun⟩

theorem write (hs : s.Tells forms) (text : String) (span : Span) :
    Run.Tells forms (fun _ _ => True) s (Run.write text span) := by
  intro r t ho
  rw [Run.outcome_write] at ho
  cases ho
  exact ⟨.of_eq hs rfl rfl, fun _ _ => trivial, fun _ _ => trivial⟩

theorem lookup (hs : s.Tells forms) (scope : ScopeId) (name : String) (span : Span) :
    Run.Tells forms (Announces forms) s (Run.lookup scope name span) := by
  intro r t ho
  rw [Run.outcome_lookup] at ho
  cases ho
  refine ⟨.refl hs, fun v hv => ?_, fun _ _ => trivial⟩
  cases hr : s.scopes.resolve? scope name with
  | none => simp [hr] at hv
  | some w =>
    rw [hr] at hv
    cases hv
    exact hs.resolve? hr

theorem enter (hs : s.Tells forms) (outer caller : Option ScopeId) {names : List String}
    {vs : List Value} (hvs : ∀ v ∈ vs, Announces forms s v) :
    Run.Tells forms (fun _ _ => True) s (Run.enter outer caller (names.zip vs)) := by
  intro r t ho
  rw [Run.outcome_enter] at ho
  cases ho
  exact ⟨.entered hs outer caller hvs, fun _ _ => trivial, nofun⟩

end Run.Tells

theorem Primitive.tells_apply (hs : s.Tells forms) {args : List Value}
    (hargs : ∀ a ∈ args, Announces forms s a) (span : Span) (p : Primitive) :
    Run.Tells forms (Announces forms) s (p.apply args span) := by
  unfold Primitive.apply
  cases hv : p.result args with
  | error fault => exact .fail (.refl hs) trivial
  | ok v =>
    have hresult := Primitive.announced_result hv hargs
    dsimp only
    cases p.output? v with
    | none => exact .pure (.refl hs) hresult
    | some text =>
      refine .bind Narrates.trans (Run.Tells.write hs text span) fun _ t hst _ => ?_
      exact .pure (.refl hst.tells) (hresult.mono hst.log_le)

theorem Function.tells_applyWith {body : ScopeId → Node → Run Value}
    (hbody : ∀ frame x t, t.Tells forms → x.StandsIn forms →
      Run.Tells forms (Announces forms) t (body frame x))
    (hs : s.Tells forms) {f : Function} (hf : Announces forms s (.function f)) {args : List Value}
    (hargs : ∀ a ∈ args, Announces forms s a) (span : Span) (site : ScopeId) :
    Run.Tells forms (Announces forms) s (f.applyWith body args span site) := by
  cases f with
  | primitive p => exact p.tells_apply hs hargs span
  | closure c =>
    obtain ⟨hx, hdefined⟩ := hf c (List.mem_singleton_self c)
    simp only [Function.applyWith]
    split
    · next hlength =>
      have hcall := Chronicle.call hs.log (hlength ▸ hdefined)
      refine .bind Narrates.trans (Run.Tells.log hs hcall) fun _ t hst _ => ?_
      have hargs' (a : Value) (ha : a ∈ args) : Announces forms t a := (hargs a ha).mono hst.log_le
      refine .bind Narrates.trans (Run.Tells.enter hst.tells _ _ hargs') fun frame u htu _ => ?_
      exact hbody frame c.body u htu.tells hx
    · exact .fail (.refl hs) trivial

theorem Node.tells_evalHead {fuel : Nat} {scope : ScopeId} {head : Node} (hs : s.Tells forms)
    (h : Run.Tells forms (Announces forms) s (head.eval fuel scope)) :
    Run.Tells forms (fun t f => Announces forms t (.function f)) s (evalHead fuel scope head) := by
  unfold evalHead
  split
  · exact .pure (.refl hs) fun c hc => absurd hc List.not_mem_nil
  · refine .bind Narrates.trans h fun v t hst hv => ?_
    cases v with
    | function f => exact .pure (.refl hst.tells) hv
    | number _ | string _ | boolean _ | list _ => exact .fail (.refl hst.tells) trivial

/-- The values of a list of trees or of bindings, one after the other. -/
theorem Run.Tells.mapM {α : Type} {as : List α} {f : α → Run Value} (hs : s.Tells forms)
    (hf : ∀ a ∈ as, ∀ t, t.Tells forms → Run.Tells forms (Announces forms) t (f a)) :
    Run.Tells forms (fun t vs => ∀ v ∈ vs, Announces forms t v) s (as.mapM f) :=
  .mono (.mapM Narrates.trans Narrates.right Announces.keep (.refl hs) fun a ha t hst =>
    hf a ha t hst.tells) (fun _ => id) (fun _ _ _ h => h.2) fun _ => id

/-- The values of bindings, one after the other. -/
theorem Run.Tells.fill {α : Type} {bs : List (String × α)} {f : α → Run Value} (hs : s.Tells forms)
    (frame : ScopeId)
    (hf : ∀ b ∈ bs, ∀ t, t.Tells forms → Run.Tells forms (Announces forms) t (f b.2)) :
    Run.Tells forms (fun _ _ => True) s (Run.fill frame f bs) := by
  refine Run.Ensures.fill Narrates.trans Narrates.right (.refl hs)
    (fun b hb t hst => hf b hb t hst.tells) fun b _ t v hst hv r u ho => ?_
  rw [Run.outcome_define] at ho
  cases ho
  exact ⟨.define hst.tells hv frame b.1, fun _ _ => trivial, fun _ _ => trivial⟩

/-- Evaluation of a tree in the program adds to the log what it does. -/
theorem Node.tells_eval (fuel : Nat) {scope : ScopeId} {node : Node} (hs : s.Tells forms)
    (hx : node.StandsIn forms) : Run.Tells forms (Announces forms) s (node.eval fuel scope) := by
  induction fuel generalizing s scope node with
  | zero => exact .outOfFuel
  | succ fuel ih =>
    cases node with
    | number x _ | string x _ | boolean x _ =>
      exact .pure (.refl hs) fun c hc => absurd hc List.not_mem_nil
    | symbol name span => exact Run.Tells.lookup hs scope name span
    | list items _ =>
      refine .bind Narrates.trans (Run.Tells.mapM hs fun x hi t ht => ih ht (hx.part hi))
        fun vs t hst hvs => ?_
      exact .pure (.refl hst.tells) (Value.announced_list hvs)
    | call head args span =>
      rw [eval_call]
      refine .bind Narrates.trans (tells_evalHead hs (ih hs (hx.part List.mem_cons_self)))
        fun f t hst hf => ?_
      refine .bind Narrates.trans (Run.Tells.mapM hst.tells fun x hi u hu =>
        ih hu (hx.part (List.mem_cons_of_mem _ hi))) fun vs u htu hvs => ?_
      exact Function.tells_applyWith (fun _ _ _ => ih) htu.tells (hf.mono htu.log_le) hvs span scope
    | letIn bindings body span =>
      have hlog : Chronicle forms (s.events.toList ++ [.specialForm .letForm span]) :=
        .specialForm hs.log hx rfl nofun
      have hopened := Narrates.opened hs hlog scope
      refine .of_later Narrates.trans hopened ?_ (outcome_eval_letIn ..)
      refine .bind Narrates.trans (Run.Tells.fill hopened.tells _ fun b hb u hu =>
        ih hu (hx.part (List.mem_append_left _ (List.mem_map_of_mem hb)))) fun _ u hu _ => ?_
      exact ih hu.tells (hx.part (List.mem_append_right _ (List.mem_singleton_self body)))
    | conditional test yes no span =>
      rw [eval_conditional]
      have hlog : Chronicle forms (s.events.toList ++ [.specialForm .ifForm span]) :=
        .specialForm hs.log hx rfl nofun
      refine .bind Narrates.trans (Run.Tells.log hs hlog) fun _ t hst _ => ?_
      refine .bind Narrates.trans (ih hst.tells (hx.part List.mem_cons_self)) fun v u htu _ => ?_
      match v, no with
      | .boolean true, _ =>
        exact ih htu.tells (hx.part (List.mem_cons_of_mem _ List.mem_cons_self))
      | .boolean false, some no =>
        refine ih htu.tells (hx.part (List.mem_cons_of_mem _ (List.mem_cons_of_mem _ ?_)))
        exact List.mem_singleton_self no
      | .boolean false, none =>
        exact .pure (.refl htu.tells) fun c hc => absurd hc List.not_mem_nil
      | .number _, _ | .string _, _ | .function _, _ | .list _, _ =>
        exact .fail (.refl htu.tells) trivial
    | function name params body span =>
      intro r t ho
      rw [outcome_eval_function] at ho
      cases ho
      obtain ⟨hst, hv⟩ := Narrates.stateMade hs scope hx
      exact ⟨hst, fun v h => Except.ok.inj h ▸ hv, nofun⟩

theorem Node.tells_evalAll (fuel : Nat) {scope : ScopeId} {xs : List Node} (hs : s.Tells forms)
    (hx : ∀ x ∈ xs, x.StandsIn forms) :
    Run.Tells forms (fun t vs => ∀ v ∈ vs, Announces forms t v) s (evalAll fuel scope xs) :=
  Run.Tells.mapM hs fun x hm _ ht => tells_eval fuel ht (hx x hm)

/-- Whatever an evaluation starts, the log tells of all that went before. -/
theorem Activation.Starts.narrates {a b : Activation} (h : a.Starts b) (ha : a.state.Tells forms)
    (hx : a.node.StandsIn forms) : Narrates forms a.state b.state ∧ b.node.StandsIn forms := by
  cases h with
  | item hv =>
    have hrun := Node.tells_evalAll _ ha
      (fun y hy => hx.part (List.mem_append_left _ hy)) _ _ hv
    exact ⟨hrun.1, hx.part (List.mem_append_right _ List.mem_cons_self)⟩
  | head => exact ⟨.refl ha, hx.part List.mem_cons_self⟩
  | argument hf hv =>
    have hhead := Node.tells_evalHead ha (Node.tells_eval _ ha (hx.part List.mem_cons_self)) _ _ hf
    have hrun := Node.tells_evalAll _ hhead.1.tells
      (fun y hy => hx.part (List.mem_cons_of_mem _ (List.mem_append_left _ hy))) _ _ hv
    exact ⟨hhead.1.trans _ _ _ hrun.1,
      hx.part (List.mem_cons_of_mem _ (List.mem_append_right _ List.mem_cons_self))⟩
  | @closure fuel scope head args span s t u c vs hf hv hl =>
    obtain ⟨hst, hc, -⟩ :=
      Node.tells_evalHead ha (Node.tells_eval _ ha (hx.part List.mem_cons_self)) _ _ hf
    obtain ⟨htu, hvs, -⟩ := Node.tells_evalAll _ hst.tells
      (fun y hy => hx.part (List.mem_cons_of_mem _ hy)) _ _ hv
    obtain ⟨hbody, hdefined⟩ := (hc _ rfl).mono htu.log_le c (List.mem_singleton_self c)
    have hcall : Narrates forms u (u.log (.call c.name vs.length)) :=
      .log htu.tells (.call htu.tells.log (hl ▸ hdefined))
    have henter : Narrates forms _ ((u.log (.call c.name vs.length)).entered (some c.scope)
        (some scope) (c.params.zip vs)) :=
      .entered hcall.tells _ _ fun v hv => (hvs vs rfl v hv).mono hcall.log_le
    exact ⟨(hst.trans _ _ _ htu).trans _ _ _ (hcall.trans _ _ _ henter), hbody⟩
  | @value fuel scope before after b body span s t hv =>
    have hopened : Narrates forms s (s.opened scope span) :=
      .opened ha (.specialForm ha.log hx rfl nofun) scope
    obtain ⟨hst, -⟩ := Run.Tells.fill hopened.tells _ (fun c hc _ ht => Node.tells_eval fuel ht
      (hx.part (List.mem_append_left _ (List.mem_map_of_mem (List.mem_append_left _ hc))))) _ _ hv
    refine ⟨hopened.trans _ _ _ hst, hx.part (List.mem_append_left _ (List.mem_map_of_mem ?_))⟩
    exact List.mem_append_right _ List.mem_cons_self
  | @body fuel scope bindings body span s t hv =>
    have hopened : Narrates forms s (s.opened scope span) :=
      .opened ha (.specialForm ha.log hx rfl nofun) scope
    obtain ⟨hst, -⟩ := Run.Tells.fill hopened.tells _ (fun c hc _ ht => Node.tells_eval fuel ht
      (hx.part (List.mem_append_left _ (List.mem_map_of_mem hc)))) _ _ hv
    exact ⟨hopened.trans _ _ _ hst,
      hx.part (List.mem_append_right _ (List.mem_singleton_self body))⟩
  | test =>
    exact ⟨.log ha (.specialForm ha.log hx rfl nofun), hx.part List.mem_cons_self⟩
  | @yes fuel scope test yes no span s t ht =>
    have hlog : Narrates forms s (s.log (.specialForm .ifForm span)) :=
      .log ha (.specialForm ha.log hx rfl nofun)
    have hrun := Node.tells_eval _ hlog.tells (hx.part List.mem_cons_self) _ _ ht
    exact ⟨hlog.trans _ _ _ hrun.1, hx.part (List.mem_cons_of_mem _ List.mem_cons_self)⟩
  | @no fuel scope test yes no span s t ht =>
    have hlog : Narrates forms s (s.log (.specialForm .ifForm span)) :=
      .log ha (.specialForm ha.log hx rfl nofun)
    have hrun := Node.tells_eval _ hlog.tells (hx.part List.mem_cons_self) _ _ ht
    exact ⟨hlog.trans _ _ _ hrun.1,
      hx.part (List.mem_cons_of_mem _ (List.mem_cons_of_mem _ (List.mem_singleton_self no)))⟩

/-- All that an evaluation starts, however deep, is told of. -/
theorem narrates_of_starts {a b : Activation} (h : Relation.ReflTransGen Activation.Starts a b)
    (ha : a.state.Tells forms) (hx : a.node.StandsIn forms) :
    Narrates forms a.state b.state ∧ b.node.StandsIn forms := by
  induction h with
  | refl => exact ⟨.refl ha, hx⟩
  | tail _ hstarts ih =>
    obtain ⟨hab, hb⟩ := ih
    obtain ⟨hbc, hc⟩ := hstarts.narrates hab.tells hb
    exact ⟨hab.trans _ _ _ hbc, hc⟩

end Runs

/-! ### Programs -/

/-- In the run of these forms in a fresh global scope an evaluation is about to begin:
that of one of the forms or one that it starts, however deep. -/
def Begun (forms : List Node) (limit : Option Nat) (b : Activation) : Prop :=
  ∃ before x after fuel vs t, forms = before ++ x :: after ∧
    (Node.evalAll fuel 0 before).outcome ((State.fresh limit).log (.program forms.length)) =
      some (.ok vs, t) ∧
    Relation.ReflTransGen Activation.Starts ⟨fuel, 0, x, t⟩ b

theorem State.tells_fresh (forms : List Node) (limit : Option Nat) :
    ((fresh limit).log (.program forms.length)).Tells forms := by
  refine ⟨.program, fun id key v hv => ?_⟩
  cases id <;> cases hv

/-- The log of a program that is evaluated in a fresh global scope is a faithful
account of the run, whether that succeeds or fails, and so it is at every moment
of a run that may never end. A text that does not parse logs nothing. -/
theorem evaluate_log_faithful (source : String) (limit : Option Nat) :
    (∀ e, parseText source = .error e → ∀ fuel r t,
      evaluate fuel 0 source (.fresh limit) = some (r, t) → r = .error e ∧ t.events = #[]) ∧
    ∀ forms, parseText source = .ok forms →
      (∀ fuel r t, evaluate fuel 0 source (.fresh limit) = some (r, t) →
        FaithfulLog forms t.events.toList) ∧
      ∀ b, Begun forms limit b → FaithfulLog forms b.state.events.toList := by
  refine ⟨fun e hp fuel r t h => ?_, fun forms hp => ⟨fun fuel r t h => ?_, ?_⟩⟩
  · rw [evaluate, hp] at h
    cases h
    exact ⟨rfl, rfl⟩
  · rw [evaluate_of_parse hp] at h
    obtain ⟨⟨q, u⟩, hrun, hq⟩ := Option.map_eq_some_iff.1 h
    cases hq
    obtain ⟨hends, -⟩ := Node.tells_evalAll fuel (State.tells_fresh forms limit)
      (fun x hx => .form hx) _ _ hrun
    exact hends.tells.log.faithful
  · rintro b ⟨before, x, after, fuel, vs, t, rfl, hv, hstarts⟩
    obtain ⟨hbefore, -⟩ := Node.tells_evalAll fuel (State.tells_fresh _ limit)
      (fun y hy => .form (List.mem_append_left _ hy)) _ _ hv
    obtain ⟨hb, -⟩ := narrates_of_starts hstarts hbefore.tells
      (.form (List.mem_append_right _ List.mem_cons_self))
    exact hb.tells.log.faithful

/-- The log of a program that defines a function and calls it, which calls itself
and then fails. -/
theorem evaluate_log_faithful_recursive :
    ∃ forms r t, parseText "(fun f [x] (if x (car x) (f true))) (f false)" = .ok forms ∧
      evaluate 9 0 "(fun f [x] (if x (car x) (f true))) (f false)" (.fresh none) = some (r, t) ∧
      t.events.toList.map Event.message = ["evaluating program forms=2",
        "special form form=\"fun\" span=0..35", "fun name=f params=1",
        "calling closure name=f args=1", "special form form=\"if\" span=11..34",
        "calling closure name=f args=1", "special form form=\"if\" span=11..34"] ∧
      FaithfulLog forms t.events.toList := by
  have hp : ((parseText "(fun f [x] (if x (car x) (f true))) (f false)").toOption.map
      List.length) = some 2 := by decide +kernel
  have hrun : (evaluate 9 0 "(fun f [x] (if x (car x) (f true))) (f false)" (.fresh none)).map
      (fun p => p.2.events.toList.map Event.message) = some ["evaluating program forms=2",
        "special form form=\"fun\" span=0..35", "fun name=f params=1",
        "calling closure name=f args=1", "special form form=\"if\" span=11..34",
        "calling closure name=f args=1", "special form form=\"if\" span=11..34"] := by
    decide +kernel
  obtain ⟨forms, hforms, -⟩ := Option.map_eq_some_iff.1 hp
  obtain ⟨⟨r, t⟩, ht, hlog⟩ := Option.map_eq_some_iff.1 hrun
  have hparse := eq_ok_of_toOption hforms
  obtain ⟨-, hfaithful⟩ :=
    evaluate_log_faithful "(fun f [x] (if x (car x) (f true))) (f false)" none
  exact ⟨forms, r, t, hparse, ht, hlog, (hfaithful forms hparse).1 9 r t ht⟩

end SmallLisp
