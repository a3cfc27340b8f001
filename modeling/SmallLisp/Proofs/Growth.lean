import SmallLisp.Proofs.Activations
import SmallLisp.Proofs.SearchOrder
import SmallLisp.Proofs.Sessions

/-! What comes about while programs are evaluated. Closures are made one after the
other, each in a scope that exists and with the number of those before it as its
identity; scopes are created with links to scopes that exist. So it is at every
moment of an evaluation, also of one that fails or never ends, and in every session.
Hence all searches end, although a closure that is bound leads back to the scope that
binds it, and closures of the same identity are the same. -/

namespace SmallLisp

theorem forall_mem_none {α : Type} {P : α → Prop} : ∀ a ∈ (none : Option α), P a :=
  fun a h => absurd h (Option.not_mem_none a)

theorem forall_mem_some {α : Type} {P : α → Prop} {a : α} (h : P a) : ∀ b ∈ some a, P b :=
  fun _ hb => Option.some.inj hb ▸ h

/-! ### Closures that have been made -/

/-- The closures in the value are among those made so far, each at the place of its identity. -/
def Value.Made (made : List Closure) (v : Value) : Prop := ∀ c ∈ v.closures, made[c.id]? = some c

/-- These closures have been made so far, in this order. They belong to scopes that
exist, and no others are bound. -/
structure State.Made (made : List Closure) (s : State) : Prop where
  count : s.closures = made.length
  scope : ∀ c ∈ made, c.scope < s.scopes.next
  bound : ∀ id key v, (s.scopes.bindings id).find? key = some v → v.Made made

/-- From one state to another more closures have been made and more scopes created. -/
structure Growth (made : List Closure) (s : State) (later : List Closure) (t : State) : Prop where
  le : made <+: later
  scopes : s.scopes.Becomes t.scopes
  made : t.Made later

section

variable {made later : List Closure} {s t u : State}

theorem Value.Made.mono {v : Value} (h : v.Made made) (hle : made <+: later) : v.Made later := by
  obtain ⟨more, rfl⟩ := hle
  intro c hc
  have hlt := (List.getElem?_eq_some_iff.1 (h c hc)).1
  rw [List.getElem?_append_left hlt, h c hc]

theorem Value.made_list {vs : List Value} (h : ∀ v ∈ vs, v.Made made) :
    (Value.list vs).Made made := by
  intro c hc
  obtain ⟨v, hv, hcv⟩ := Value.mem_closuresAll.1 hc
  exact h v hv c hcv

theorem Primitive.made_result {p : Primitive} {args : List Value} {v : Value}
    (h : p.result args = .ok v) (hargs : ∀ a ∈ args, a.Made made) : v.Made made := by
  intro c hc
  obtain ⟨a, ha, hca⟩ := Value.mem_closuresAll.1 (Primitive.mem_closures_of_result h hc)
  exact hargs a ha c hca

theorem State.Made.scope_lt (hs : s.Made made) {c : Closure}
    (hc : (Value.function (.closure c)).Made made) : c.scope < s.scopes.next :=
  hs.scope c (List.mem_of_getElem? (hc c (List.mem_singleton_self c)))

theorem State.Made.resolve? (hs : s.Made made) {id : ScopeId} {name : String} {v : Value}
    (h : s.scopes.resolve? id name = some v) : v.Made made := by
  simp only [Scopes.resolve?, Option.orElse_eq_orElse, Option.orElse_eq_or,
    Option.or_eq_some_iff] at h
  rcases h with h | ⟨-, h⟩
  · obtain ⟨o, ho⟩ := Scopes.exists_bound_of_find? h
    exact hs.bound o _ v ho
  · obtain ⟨p, -, rfl⟩ := Option.map_eq_some_iff.1 h
    exact fun c hc => absurd hc List.not_mem_nil

theorem State.next_lt_entered {outer caller : Option ScopeId} {pairs : List (String × Value)} :
    s.scopes.next < (s.entered outer caller pairs).scopes.next :=
  Nat.lt_of_lt_of_eq (Nat.lt_succ_self _) (Scopes.next_create ..).symm

namespace Growth

/-- A state with the same scopes and closures. -/
theorem of_eq (hs : s.Made made) (hscopes : t.scopes = s.scopes)
    (hclosures : t.closures = s.closures) : Growth made s made t where
  le := List.prefix_rfl
  scopes := hscopes ▸ .refl
  made := ⟨hclosures.trans hs.count, hscopes ▸ hs.scope, hscopes ▸ hs.bound⟩

theorem refl (hs : s.Made made) : Growth made s made s := of_eq hs rfl rfl

theorem log (hs : s.Made made) (e : Event) : Growth made s made (s.log e) := of_eq hs rfl rfl

theorem redirect (hs : s.Made made) (limit : Option Nat) : Growth made s made (s.redirect limit) :=
  of_eq hs rfl rfl

theorem trans {latest : List Closure} (h : Growth made s later t) (k : Growth later t latest u) :
    Growth made s latest u :=
  ⟨h.le.trans k.le, h.scopes.trans k.scopes, k.made⟩

theorem lt_next (h : Growth made s later t) {id : ScopeId} (hid : id < s.scopes.next) :
    id < t.scopes.next :=
  Nat.lt_of_lt_of_le hid h.scopes.next_le

theorem create (hs : s.Made made) {f : Frame} (houter : ∀ o ∈ f.outer, o < s.scopes.next)
    (hcaller : ∀ o ∈ f.caller, o < s.scopes.next)
    (hf : ∀ key v, f.bindings.find? key = some v → v.Made made) :
    Growth made s made { s with scopes := s.scopes.create f } where
  le := List.prefix_rfl
  scopes := .create .refl houter hcaller
  made := by
    refine ⟨hs.count, fun c hc => ?_, fun id key v hv => ?_⟩
    · rw [Scopes.next_create]
      exact Nat.lt_succ_of_lt (hs.scope c hc)
    · rcases Scopes.find?_bindings_create hv with ⟨-, hv⟩ | hv
      · exact hf key v hv
      · exact hs.bound id key v hv

theorem entered (hs : s.Made made) {outer caller : Option ScopeId}
    (houter : ∀ o ∈ outer, o < s.scopes.next) (hcaller : ∀ o ∈ caller, o < s.scopes.next)
    (names : List String) {vs : List Value} (hvs : ∀ v ∈ vs, v.Made made) :
    Growth made s made (s.entered outer caller (names.zip vs)) :=
  create hs houter hcaller fun _ v hv => hvs v (Bindings.mem_of_find?_ofPairs hv).1

theorem opened (hs : s.Made made) {scope : ScopeId} (hscope : scope < s.scopes.next)
    (span : Span) : Growth made s made (s.opened scope span) :=
  (log hs _).trans (create (log hs _).made (forall_mem_some hscope) forall_mem_none
    fun _ _ hv => nomatch hv)

theorem define (hs : s.Made made) {v : Value} (hv : v.Made made) (scope : ScopeId) (name : String) :
    Growth made s made { s with scopes := s.scopes.define scope name v } where
  le := List.prefix_rfl
  scopes := .define .refl scope name v
  made := by
    refine ⟨hs.count, fun c hc => ?_, fun id key w hw => ?_⟩
    · rw [Scopes.next_define]
      exact hs.scope c hc
    · rcases Scopes.find?_bindings_define hw with ⟨-, -, rfl⟩ | hw
      · exact hv
      · exact hs.bound id key w hw

/-- A closure that is made is the next in order. -/
theorem makeClosure (hs : s.Made made) {c : Closure} (hid : c.id = s.closures)
    (hscope : c.scope < s.scopes.next) :
    Growth made s (made ++ [c]) { s with closures := s.closures + 1 } ∧
      (Value.function (.closure c)).Made (made ++ [c]) := by
  have hle : made <+: made ++ [c] := List.prefix_append made [c]
  refine ⟨⟨hle, .refl, ?_, ?_, fun id key v hv => (hs.bound id key v hv).mono hle⟩, ?_⟩
  · rw [List.length_append, ← hs.count]
    rfl
  · intro d hd
    rcases List.mem_append.1 hd with hd | hd
    · exact hs.scope d hd
    · exact List.mem_singleton.1 hd ▸ hscope
  · intro d hd
    obtain rfl := List.mem_singleton.1 hd
    rw [hid, hs.count, List.getElem?_concat_length]

end Growth

end

/-! ### Runs -/

namespace Run

/-- Whenever the run ends that starts where these closures have been made, more have
been made and more scopes created, and then `V` holds of the value if there is one. -/
def Grows {α : Type} (V : List Closure → α → Prop) (made : List Closure) (s : State) (x : Run α) :
    Prop :=
  ∀ r t, x.outcome s = some (r, t) →
    ∃ later, Growth made s later t ∧ ∀ a, r = .ok a → V later a

namespace Grows

variable {α β : Type} {V : List Closure → α → Prop} {W : List Closure → β → Prop}
  {made : List Closure} {s : State}

theorem pure (hs : s.Made made) {a : α} (ha : V made a) : Grows V made s (pure a : Run α) := by
  intro r t h
  cases h
  exact ⟨made, .refl hs, fun b hb => Except.ok.inj hb ▸ ha⟩

theorem fail (hs : s.Made made) (e : EvalError) : Grows V made s (fail e : Run α) := by
  intro r t h
  cases h
  exact ⟨made, .refl hs, nofun⟩

theorem outOfFuel : Grows V made s (outOfFuel : Run α) := by
  intro r t h
  cases h

theorem bind {x : Run α} {f : α → Run β} (hx : Grows V made s x)
    (hf : ∀ later t a, Growth made s later t → V later a → Grows W later t (f a)) :
    Grows W made s (x >>= f) := by
  intro r u h
  rcases outcome_bind_eq_some h with ⟨e, he, rfl⟩ | ⟨a, t, ha, hu⟩
  · obtain ⟨later, hst, -⟩ := hx _ u he
    exact ⟨later, hst, nofun⟩
  · obtain ⟨later, hst, hv⟩ := hx _ t ha
    obtain ⟨latest, htu, hw⟩ := hf later t a hst (hv a rfl) r u hu
    exact ⟨latest, hst.trans htu, hw⟩

theorem log (hs : s.Made made) (e : Event) : Grows (fun _ _ => True) made s (log e) := by
  intro r t h
  cases h
  exact ⟨made, .log hs e, fun _ _ => trivial⟩

theorem write (hs : s.Made made) (text : String) (span : Span) :
    Grows (fun _ _ => True) made s (write text span) := by
  intro r t h
  rw [outcome_write] at h
  cases h
  exact ⟨made, .of_eq hs rfl rfl, fun _ _ => trivial⟩

theorem lookup (hs : s.Made made) (scope : ScopeId) (name : String) (span : Span) :
    Grows (fun later v => v.Made later) made s (lookup scope name span) := by
  intro r t h
  rw [outcome_lookup] at h
  cases h
  refine ⟨made, .refl hs, fun v hv => ?_⟩
  cases hr : s.scopes.resolve? scope name with
  | none => simp [hr] at hv
  | some w =>
    rw [hr] at hv
    cases hv
    exact hs.resolve? hr

/-- What is computed in a new scope is computed in one that exists. -/
theorem enter (hs : s.Made made) {outer caller : Option ScopeId}
    (houter : ∀ o ∈ outer, o < s.scopes.next) (hcaller : ∀ o ∈ caller, o < s.scopes.next)
    {names : List String} {vs : List Value} (hvs : ∀ v ∈ vs, v.Made made) {body : ScopeId → Run α}
    (hbody : ∀ frame t, t.Made made → frame < t.scopes.next → Grows V made t (body frame)) :
    Grows V made s (enter outer caller (names.zip vs) >>= body) := by
  intro r t h
  rw [outcome_bind, outcome_enter] at h
  have hgrowth := Growth.entered hs houter hcaller names hvs
  obtain ⟨later, hst, hv⟩ := hbody _ _ hgrowth.made State.next_lt_entered r t h
  exact ⟨later, hgrowth.trans hst, hv⟩

theorem mapM (hs : s.Made made) {f : α → Run Value} {as : List α}
    (hf : ∀ a ∈ as, ∀ later t, Growth made s later t →
      Grows (fun latest v => v.Made latest) later t (f a)) :
    Grows (fun later vs => ∀ v ∈ vs, v.Made later) made s (as.mapM f) := by
  induction as generalizing made s with
  | nil => exact pure hs fun v hv => absurd hv List.not_mem_nil
  | cons a as ih =>
    rw [List.mapM_cons]
    refine bind (hf a List.mem_cons_self made s (.refl hs)) fun later t v hst hv => ?_
    have htail := ih hst.made fun b hb latest u htu =>
      hf b (List.mem_cons_of_mem a hb) latest u (hst.trans htu)
    refine bind htail fun latest u vs htu hvs => ?_
    exact pure htu.made (List.forall_mem_cons.2 ⟨hv.mono htu.le, hvs⟩)

theorem define (hs : s.Made made) {v : Value} (hv : v.Made made) (scope : ScopeId) (name : String) :
    Grows (fun _ _ => True) made s (define scope name v) := by
  intro r t h
  cases h
  exact ⟨made, .define hs hv scope name, fun _ _ => trivial⟩

theorem fill (hs : s.Made made) {f : α → Run Value} {bs : List (String × α)} (frame : ScopeId)
    (hf : ∀ b ∈ bs, ∀ later t, Growth made s later t →
      Grows (fun latest v => v.Made latest) later t (f b.2)) :
    Grows (fun _ _ => True) made s (fill frame f bs) := by
  induction bs generalizing made s with
  | nil => exact pure hs trivial
  | cons b bs ih =>
    rw [fill_cons]
    refine bind (hf b List.mem_cons_self made s (.refl hs)) fun later t v hst hv => ?_
    refine bind (define hst.made hv frame b.1) fun latest u _ htu _ => ?_
    exact ih htu.made fun c hc last w huw =>
      hf c (List.mem_cons_of_mem b hc) last w ((hst.trans htu).trans huw)

end Grows

end Run

/-! ### Evaluation -/

section Eval

open Run (Grows)

variable {made : List Closure} {s : State}

/-- The value of a run is built of closures that have been made. -/
abbrev Run.GrowsValue (made : List Closure) (s : State) (x : Run Value) : Prop :=
  Grows (fun later v => v.Made later) made s x

theorem Primitive.grows_apply (hs : s.Made made) {args : List Value}
    (hargs : ∀ a ∈ args, a.Made made) (span : Span) (p : Primitive) :
    Run.GrowsValue made s (p.apply args span) := by
  unfold Primitive.apply
  cases hv : p.result args with
  | error fault => exact .fail hs _
  | ok v =>
    have hmade := Primitive.made_result hv hargs
    dsimp only
    cases p.output? v with
    | none => exact .pure hs hmade
    | some text =>
      exact .bind (.write hs text span) fun later t _ hst _ => .pure hst.made (hmade.mono hst.le)

theorem Function.grows_applyWith {body : ScopeId → Node → Run Value}
    (hbody : ∀ made frame x t, t.Made made → frame < t.scopes.next →
      Run.GrowsValue made t (body frame x))
    (hs : s.Made made) {f : Function} (hf : (Value.function f).Made made) {args : List Value}
    (hargs : ∀ a ∈ args, a.Made made) (span : Span) {site : ScopeId}
    (hsite : site < s.scopes.next) : Run.GrowsValue made s (f.applyWith body args span site) := by
  cases f with
  | primitive p => exact p.grows_apply hs hargs span
  | closure c =>
    simp only [Function.applyWith]
    split
    · refine .bind (.log hs _) fun later t _ hst _ => ?_
      have hscope := hst.made.scope_lt (hf.mono hst.le)
      exact .enter hst.made (forall_mem_some hscope) (forall_mem_some (hst.lt_next hsite))
        (fun v hv => (hargs v hv).mono hst.le) fun frame u hu hframe => hbody _ _ _ u hu hframe
    · exact .fail hs _

theorem Node.grows_evalHead {fuel : Nat} {scope : ScopeId} {head : Node} (hs : s.Made made)
    (h : Run.GrowsValue made s (head.eval fuel scope)) :
    Grows (fun later f => (Value.function f).Made later) made s (evalHead fuel scope head) := by
  unfold evalHead
  split
  · exact .pure hs fun c hc => absurd hc List.not_mem_nil
  · refine .bind h fun later t v hst hv => ?_
    cases v with
    | function f => exact .pure hst.made hv
    | number _ | string _ | boolean _ | list _ => exact .fail hst.made _

/-- An evaluation makes closures and creates scopes, and its value is built of such closures. -/
theorem Node.grows_eval (fuel : Nat) {scope : ScopeId} (node : Node) (hs : s.Made made)
    (hscope : scope < s.scopes.next) : Run.GrowsValue made s (node.eval fuel scope) := by
  induction fuel generalizing made s scope node with
  | zero => exact .outOfFuel
  | succ fuel ih =>
    -- after some steps in the same scope
    have later {made' : List Closure} {t : State} (hst : Growth made s made' t) (x : Node) :
        Run.GrowsValue made' t (x.eval fuel scope) := ih x hst.made (hst.lt_next hscope)
    cases node with
    | number x _ | string x _ | boolean x _ => exact .pure hs fun c hc => absurd hc List.not_mem_nil
    | symbol name span => exact .lookup hs scope name span
    | list items _ =>
      refine .bind (.mapM hs fun x _ _ t hst => later hst x) fun made' t vs hst hvs => ?_
      exact .pure hst.made (Value.made_list hvs)
    | call head args span =>
      rw [eval_call]
      refine .bind (grows_evalHead hs (later (.refl hs) head)) fun made₁ t f hst hf => ?_
      refine .bind (.mapM hst.made fun x _ _ u htu => later (hst.trans htu) x)
        fun made₂ u vs htu hvs => ?_
      exact Function.grows_applyWith (fun _ _ x t ht hframe => ih x ht hframe) htu.made
        (hf.mono htu.le) hvs span ((hst.trans htu).lt_next hscope)
    | letIn bindings body span =>
      have hopened := Growth.opened hs hscope span
      have hfill : Grows (fun _ _ => True) made (s.opened scope span)
          (Run.fill s.scopes.next (eval fuel scope) bindings) :=
        .fill hopened.made _ fun b _ _ u hu => later (hopened.trans hu) b.2
      have hrun := hfill.bind fun _ u _ hu _ => ih body hu.made (hu.lt_next State.next_lt_entered)
      intro r t h
      rw [outcome_eval_letIn] at h
      obtain ⟨made', hst, hv⟩ := hrun r t h
      exact ⟨made', hopened.trans hst, hv⟩
    | conditional test yes no span =>
      rw [eval_conditional]
      refine .bind (.log hs _) fun made₁ t _ hst _ => ?_
      refine .bind (later hst test) fun made₂ u v htu _ => ?_
      match v, no with
      | .boolean true, _ => exact later (hst.trans htu) yes
      | .boolean false, some no => exact later (hst.trans htu) no
      | .boolean false, none => exact .pure htu.made fun c hc => absurd hc List.not_mem_nil
      | .number _, _ | .string _, _ | .function _, _ | .list _, _ => exact .fail htu.made _
    | function name params body span =>
      intro r t h
      rw [outcome_eval_function] at h
      cases h
      obtain ⟨hmake, hv⟩ :=
        Growth.makeClosure hs (c := closureMade s scope name params body) rfl hscope
      have hdefine := Growth.define hmake.made hv scope name
      have hlog : Growth _ _ _ (stateMade s scope name params body span) :=
        .of_eq hdefine.made rfl rfl
      exact ⟨_, (hmake.trans hdefine).trans hlog, fun v h => Except.ok.inj h ▸ hv⟩

/-- The values of trees, one after the other in the same scope. -/
theorem Node.growth_of_evalAll {fuel : Nat} {scope : ScopeId} {xs : List Node} {t : State}
    {vs : List Value} (hs : s.Made made) (hscope : scope < s.scopes.next)
    (h : (evalAll fuel scope xs).outcome s = some (.ok vs, t)) :
    ∃ later, Growth made s later t ∧ ∀ v ∈ vs, v.Made later := by
  obtain ⟨later, hst, hvs⟩ := Grows.mapM hs (fun x _ _ u hsu =>
    grows_eval fuel x hsu.made (hsu.lt_next hscope)) _ t h
  exact ⟨later, hst, hvs vs rfl⟩

/-- A let form up to some value of its own. -/
theorem Node.growth_of_fill {fuel : Nat} {scope : ScopeId} {bs : List (String × Node)}
    {span : Span} {t : State} (hs : s.Made made) (hscope : scope < s.scopes.next)
    (h : (Run.fill s.scopes.next (eval fuel scope) bs).outcome (s.opened scope span) =
      some (.ok (), t)) :
    ∃ later, Growth made s later t ∧ s.scopes.next < t.scopes.next := by
  have hopened := Growth.opened hs hscope span
  obtain ⟨later, hst, -⟩ := Grows.fill hopened.made s.scopes.next (fun b _ _ u hu =>
    grows_eval fuel b.2 hu.made (hu.lt_next (hopened.lt_next hscope))) _ t h
  exact ⟨later, hopened.trans hst, hst.lt_next State.next_lt_entered⟩

/-- Whatever an evaluation starts, it starts in a scope that exists, after making
closures and creating scopes. -/
theorem Activation.Starts.growth {a b : Activation} (h : a.Starts b) (ha : a.state.Made made)
    (hscope : a.scope < a.state.scopes.next) :
    ∃ later, Growth made a.state later b.state ∧ b.scope < b.state.scopes.next := by
  cases h with
  | item hv =>
    obtain ⟨later, hst, -⟩ := Node.growth_of_evalAll ha hscope hv
    exact ⟨later, hst, hst.lt_next hscope⟩
  | head => exact ⟨made, .refl ha, hscope⟩
  | argument hf hv =>
    obtain ⟨made₁, hst, -⟩ := Node.grows_evalHead ha (Node.grows_eval _ _ ha hscope) _ _ hf
    obtain ⟨made₂, htu, -⟩ := Node.growth_of_evalAll hst.made (hst.lt_next hscope) hv
    exact ⟨made₂, hst.trans htu, (hst.trans htu).lt_next hscope⟩
  | @closure fuel scope head args span s t u c vs hf hv hl =>
    obtain ⟨made₁, hst, hc⟩ := Node.grows_evalHead ha (Node.grows_eval _ _ ha hscope) _ _ hf
    obtain ⟨made₂, htu, hvs⟩ := Node.growth_of_evalAll hst.made (hst.lt_next hscope) hv
    have hlog := Growth.log htu.made (.call c.name vs.length)
    have hclosure := htu.made.scope_lt ((hc _ rfl).mono htu.le)
    have hsite := (hst.trans htu).lt_next hscope
    have henter := Growth.entered hlog.made (forall_mem_some hclosure) (forall_mem_some hsite)
      c.params hvs
    exact ⟨made₂, (hst.trans htu).trans (hlog.trans henter), State.next_lt_entered⟩
  | value hv =>
    obtain ⟨later, hst, -⟩ := Node.growth_of_fill ha hscope hv
    exact ⟨later, hst, hst.lt_next hscope⟩
  | body hv => exact Node.growth_of_fill ha hscope hv
  | test => exact ⟨made, .log ha _, hscope⟩
  | yes ht | no ht =>
    obtain ⟨later, hst, -⟩ := Node.grows_eval _ _ (Growth.log ha _).made hscope _ _ ht
    exact ⟨later, (Growth.log ha _).trans hst, hst.lt_next hscope⟩

end Eval

/-! ### Programs -/

theorem mem_of_lastValue {vs : List Value} {v : Value} (h : lastValue vs = .ok v) : v ∈ vs :=
  List.mem_of_getLast? (getLast?_of_lastValue h)

section Programs

variable {made : List Closure} {s t : State} {fuel : Nat} {scope : ScopeId}

theorem growth_of_evaluate {source : String} {r : Except Error Value} (hs : s.Made made)
    (hscope : scope < s.scopes.next) (h : evaluate fuel scope source s = some (r, t)) :
    ∃ later, Growth made s later t ∧ ∀ v, r = .ok v → v.Made later := by
  cases hp : parseText source with
  | error e =>
    rw [evaluate, hp] at h
    cases h
    refine ⟨made, .refl hs, fun v hv => ?_⟩
    cases hv
  | ok forms =>
    rw [evaluate_of_parse hp] at h
    obtain ⟨⟨q, u⟩, hrun, hq⟩ := Option.map_eq_some_iff.1 h
    cases hq
    have hlog := Growth.log hs (.program forms.length)
    obtain ⟨later, hst, hvs⟩ := Run.Grows.mapM hlog.made (fun x _ _ w hsw =>
      Node.grows_eval fuel x hsw.made (hsw.lt_next hscope)) q u hrun
    refine ⟨later, hlog.trans hst, fun v hv => ?_⟩
    cases q with
    | error e => cases hv
    | ok vs => exact hvs vs rfl v (mem_of_lastValue hv)

theorem growth_of_apply {f : Function} {args : List Value} {span : Span}
    {r : Except EvalError Value} (hs : s.Made made) (hf : (Value.function f).Made made)
    (hargs : ∀ a ∈ args, a.Made made) (hscope : scope < s.scopes.next)
    (h : (f.apply fuel args span scope).outcome s = some (r, t)) :
    ∃ later, Growth made s later t ∧ ∀ v, r = .ok v → v.Made later :=
  Function.grows_applyWith (fun _ _ x _ ht hframe => Node.grows_eval fuel x ht hframe) hs hf hargs
    span hscope r t h

end Programs

/-! ### Sessions -/

namespace Session

/-- All closures that the session holds are among those made so far. -/
structure Made (made : List Closure) (S : Session) : Prop where
  state : S.state.Made made
  values : ∀ v, S.Has v → v.Made made

variable {made : List Closure} {S T : Session}

namespace Made

theorem keep (h : S.Made made) {result : Except Error Value}
    (hr : ∀ v, result = .ok v → v.Made made) (store : Option String) :
    (S.keep store result).Made made where
  state := by
    rw [state_keep]
    exact h.state
  values v hv := (has_of_keep hv).elim (h.values v) (hr v)

theorem advance (h : S.Made made) {later : List Closure} {t : State}
    (ht : Growth made S.state later t) : { S with state := t }.Made later :=
  ⟨ht.made, fun v hv => (h.values v hv).mono ht.le⟩

theorem createScope (h : S.Made made) (name : String) {outer caller : Option ScopeId}
    (houter : ∀ o ∈ outer, o < S.state.scopes.next)
    (hcaller : ∀ o ∈ caller, o < S.state.scopes.next) :
    Growth made S.state made (S.createScope name outer caller).state ∧
      (S.createScope name outer caller).Made made :=
  have hgrowth := Growth.create h.state (f := ⟨outer, caller, .empty⟩) houter hcaller nofun
  ⟨hgrowth, hgrowth.made, h.values⟩

theorem conclude (h : S.Made made) {limit : Option Nat} {later : List Closure} {t : State}
    (ht : Growth made (S.state.redirect limit) later t) {result : Except Error Value}
    (hr : ∀ v, result = .ok v → v.Made later) (store : Option String) :
    Growth made S.state later (S.conclude store result t).2.state ∧
      (S.conclude store result t).2.Made later := by
  have hst := (Growth.redirect h.state limit).trans ht
  have hkeep := (h.advance hst).keep hr store
  refine ⟨?_, hkeep⟩
  rw [Session.conclude, state_keep]
  exact hst

end Made

/-- A step makes closures and creates scopes. -/
theorem Took.growth {fuel : Nat} {action : Step} {p : Reply × Session} (h : S.Took fuel action p)
    (hS : S.Made made)
    (hscopes : ∀ name id, S.scope name = .ok id → id < S.state.scopes.next) :
    ∃ later, Growth made S.state later p.2.state ∧ p.2.Made later := by
  have hsome {name : String} {id : ScopeId} (hid : S.scope name = .ok id) :
      ∀ o ∈ some id, o < S.state.scopes.next := forall_mem_some (hscopes name id hid)
  have hredirect (limit : Option Nat) : (S.state.redirect limit).Made made :=
    (Growth.redirect hS.state limit).made
  cases h with
  | global name => exact ⟨made, hS.createScope name forall_mem_none forall_mem_none⟩
  | enclose name hid => exact ⟨made, hS.createScope name (hsome hid) forall_mem_none⟩
  | frame name hid hsite => exact ⟨made, hS.createScope name (hsome hid) (hsome hsite)⟩
  | @define scope value symbol v id hv hid =>
    have hdefine := Growth.define hS.state (hS.values v (has_of_value hv)) id symbol
    exact ⟨made, hdefine, hS.advance hdefine⟩
  | get symbol span store hid =>
    refine ⟨made, ?_, hS.keep (fun v hv => hS.state.resolve? (sought_eq_ok hv)) store⟩
    rw [state_keep]
    exact .refl hS.state
  | eval store hid heval =>
    obtain ⟨later, ht, hr⟩ := growth_of_evaluate (hredirect _) (hscopes _ _ hid) heval
    exact ⟨later, hS.conclude ht hr store⟩
  | @apply name scope args span limit store f vs site r t hf hvs hsite hrun =>
    obtain ⟨later, ht, hr⟩ := growth_of_apply (hredirect limit) (hS.values _ (has_of_function hf))
      (fun v hv => hS.values v (has_of_mapM_value hvs v hv)) (hscopes _ _ hsite) hrun
    refine ⟨later, hS.conclude ht (fun v hv => hr v ?_) store⟩
    cases r <;> cases hv
    rfl
  | compare | names | inspect | complete => exact ⟨made, .refl hS.state, hS⟩

theorem made_initial : initial.Made [] where
  state := ⟨rfl, nofun, nofun⟩
  values := by
    rintro v ⟨p, hp, -⟩
    cases hp

/-- In every session there are the closures that have been made, from the first on. -/
theorem Reached.exists_made {sources : List String} (h : Reached sources S) :
    ∃ made, Growth [] Session.initial.state made S.state ∧ S.Made made := by
  induction h with
  | initial => exact ⟨[], .refl made_initial.state, made_initial⟩
  | step hS hstep ih =>
    obtain ⟨made, hgrowth, hmade⟩ := ih
    obtain ⟨later, hst, hT⟩ :=
      (took_of_step hstep).growth hmade fun _ _ hid => hS.known.scope_lt hid
    exact ⟨later, hgrowth.trans hst, hT⟩

/-- The evaluations that a step begins with, which are those of the forms of a program,
one after the other, or that of the body of the closure that is applied. -/
inductive Begins (S : Session) (fuel : Nat) : Step → Activation → Prop
  | form {scope source : String} {limit : Option Nat} {store : Option String} {id : ScopeId}
    {before after : List Node} {x : Node} {vs : List Value} {t : State}
    (hid : S.scope scope = .ok id) (hp : parseText source = .ok (before ++ x :: after))
    (hv : (Node.evalAll fuel id before).outcome ((S.state.redirect limit).log
      (.program (before ++ x :: after).length)) = some (.ok vs, t)) :
    Begins S fuel (.eval scope source limit store) ⟨fuel, id, x, t⟩
  | body {function scope : String} {args : List String} {span : Span} {limit : Option Nat}
    {store : Option String} {c : Closure} {vs : List Value} {site : ScopeId}
    (hf : S.function function = .ok (.closure c)) (hvs : args.mapM S.value = .ok vs)
    (hsite : S.scope scope = .ok site) (hl : vs.length = c.params.length) :
    Begins S fuel (.apply function args scope span limit store)
      ⟨fuel, S.state.scopes.next, c.body, ((S.state.redirect limit).log
        (.call c.name vs.length)).entered (some c.scope) (some site) (c.params.zip vs)⟩

theorem Begins.growth {fuel : Nat} {action : Step} {a : Activation} (h : S.Begins fuel action a)
    (hS : S.Made made)
    (hscopes : ∀ name id, S.scope name = .ok id → id < S.state.scopes.next) :
    ∃ later, Growth made S.state later a.state ∧ a.scope < a.state.scopes.next := by
  cases h with
  | @form scope source limit store root before after x vs t hid hp hv =>
    have hredirect := Growth.redirect hS.state limit
    have hlog := hredirect.trans (.log hredirect.made (.program (before ++ x :: after).length))
    have hlt := hlog.lt_next (hscopes _ _ hid)
    obtain ⟨later, hst, -⟩ := Node.growth_of_evalAll hlog.made hlt hv
    exact ⟨later, hlog.trans hst, hst.lt_next hlt⟩
  | @body function scope args span limit store c vs site hf hvs hsite hl =>
    have hredirect := Growth.redirect hS.state limit
    have hlog := hredirect.trans (.log hredirect.made (.call c.name vs.length))
    have hc := (hS.values _ (has_of_function hf)).mono hlog.le
    have hlt := hlog.lt_next (hscopes _ _ hsite)
    have henter := Growth.entered hlog.made (forall_mem_some (hlog.made.scope_lt hc))
      (forall_mem_some hlt) c.params fun v hv => hS.values v (has_of_mapM_value hvs v hv)
    exact ⟨made, hlog.trans henter, State.next_lt_entered⟩

/-- All that an evaluation starts, however deep, comes after more closures and scopes. -/
theorem growth_of_starts {a b : Activation} (h : Relation.ReflTransGen Activation.Starts a b)
    (ha : a.state.Made made) (hscope : a.scope < a.state.scopes.next) :
    ∃ later, Growth made a.state later b.state ∧ b.scope < b.state.scopes.next := by
  induction h with
  | refl => exact ⟨made, .refl ha, hscope⟩
  | tail _ hstarts ih =>
    obtain ⟨later, hgrowth, hlt⟩ := ih
    obtain ⟨latest, hst, hlt⟩ := hstarts.growth hgrowth.made hlt
    exact ⟨latest, hgrowth.trans hst, hlt⟩

/-- In every session all searches end, because all links lead to scopes that were
created earlier. No step changes a link that exists. And so it is wherever an
evaluation is that a step begins, even if the step itself never ends. -/
theorem Reached.searches_end {sources : List String} (h : Reached sources S) :
    S.state.scopes.Searchable ∧
    (∀ fuel action reply T, S.step fuel action = .ok (some (reply, T)) →
      S.state.scopes.next ≤ T.state.scopes.next ∧
      ∀ id < S.state.scopes.next, T.state.scopes.links id = S.state.scopes.links id) ∧
    ∀ fuel action a b, S.Begins fuel action a → Relation.ReflTransGen Activation.Starts a b →
      b.state.scopes.Searchable ∧ S.state.scopes.next ≤ b.state.scopes.next ∧
      ∀ id < S.state.scopes.next, b.state.scopes.links id = S.state.scopes.links id := by
  obtain ⟨made, hgrowth, hS⟩ := h.exists_made
  have hordered := hgrowth.scopes.ordered Scopes.ordered_empty
  have hscopes (name : String) (id : ScopeId) (hid : S.scope name = .ok id) :
      id < S.state.scopes.next := h.known.scope_lt hid
  refine ⟨hordered.searchable, fun fuel action reply T hstep => ?_, fun fuel action a b ha hb => ?_⟩
  · obtain ⟨later, hst, -⟩ := (took_of_step hstep).growth hS hscopes
    exact ⟨hst.scopes.next_le, fun id hid => hst.scopes.links_eq hid⟩
  · obtain ⟨later, hsa, hlt⟩ := ha.growth hS hscopes
    obtain ⟨latest, hab, -⟩ := growth_of_starts hb hsa.made hlt
    have hsb := (hsa.trans hab).scopes
    exact ⟨(hsb.ordered hordered).searchable, hsb.next_le, fun id hid => hsb.links_eq hid⟩

/-- A function that calls itself is bound in the scope that it belongs to, and a call of
it does not end; but the searches do. -/
theorem Reached.searches_end_recursive :
    let call := Step.eval "g" "(f)" none none
    ∃ S c a, Reached ["(fun f [] (f))"] S ∧
      (S.state.scopes.bindings 0).find? "f" = some (.function (.closure c)) ∧ c.scope = 0 ∧
      S.state.scopes.Searchable ∧ S.step 9 call = .ok none ∧ S.Begins 9 call a ∧
      a.state.scopes.Searchable := by
  intro call
  let probe (S : Session) : Option (ValueType × List ScopeId × Option Bool × Option ScopeId) :=
    ((S.state.scopes.bindings 0).find? "f").map fun v =>
      (v.type, v.closures.map (·.scope), (S.step 9 call).toOption.map Option.isNone,
        (S.scope "g").toOption)
  have hrun : ((Session.initial.createScope "g" none none).step 4
      (.eval "g" "(fun f [] (f))" none none)).toOption.join.bind (fun p => probe p.2) =
      some (.function, [0], some true, some 0) := by decide +kernel
  obtain ⟨⟨reply, S⟩, hstep, hprobe⟩ := Option.bind_eq_some_iff.1 hrun
  obtain ⟨v, hv, hprobe⟩ := Option.map_eq_some_iff.1 hprobe
  simp only [Prod.mk.injEq] at hprobe
  obtain ⟨htype, hclosures, hcall, hg⟩ := hprobe
  obtain ⟨c, rest, hc, hscope, -⟩ := List.map_eq_cons_iff.1 hclosures
  obtain ⟨o, hend, hnone⟩ := Option.map_eq_some_iff.1 hcall
  obtain rfl := Option.isNone_iff_eq_none.1 hnone
  obtain rfl : v = .function (.closure c) := by
    cases v with
    | function f =>
      cases f <;> cases hc
      rfl
    | string _ | number _ | boolean _ | list _ => cases htype
  have hglobal : Reached [] (Session.initial.createScope "g" none none) :=
    @Reached.step [] Session.initial _ 0 (.global "g") .done .initial rfl
  have hS : Reached ["(fun f [] (f))"] S :=
    .step hglobal (eq_ok_of_toOption (Option.join_eq_some_iff.1 hstep))
  obtain ⟨x, hp⟩ : ∃ x, parseText "(f)" = .ok [x] := ⟨_, by with_unfolding_all rfl⟩
  have hbegins : S.Begins 9 call _ :=
    @Begins.form S 9 "g" "(f)" none none 0 [] [] x [] _ (eq_ok_of_toOption hg) hp rfl
  have hends := hS.searches_end
  exact ⟨S, c, _, hS, hv, hscope, hends.1, eq_ok_of_toOption hend, hbegins,
    (hends.2.2 9 call _ _ hbegins .refl).1⟩

end Session

end SmallLisp
