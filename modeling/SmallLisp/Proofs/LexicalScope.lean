import SmallLisp.Proofs.Visibility

/-! Calls of closed closures do not depend on where they are made. The scope of a
call falls back to the call site only for names that are found neither in it nor
from the definition, and a closed closure uses no such name. As long as a run
finds closed closures only, those that it makes are closed as well, so the whole
run is the same from every call site. -/

namespace SmallLisp

/-- The same state but for the call site of one scope. -/
def State.setCaller (s : State) (id site : ScopeId) : State :=
  { s with scopes := s.scopes.setCaller id site }

/-! ### Runs from another call site -/

namespace Run

variable {α β : Type} {id site : ScopeId} {s : State}

/-- With another call site of the scope the run ends in the same way, in the same
state but for the call site. -/
def Oblivious (id site : ScopeId) (s : State) (x : Run α) : Prop :=
  x.outcome (s.setCaller id site) = (x.outcome s).map fun p => (p.1, p.2.setCaller id site)

theorem Oblivious.bind {x : Run α} {f : α → Run β} (hx : Oblivious id site s x)
    (hf : ∀ a t, x.outcome s = some (.ok a, t) → Oblivious id site t (f a)) :
    Oblivious id site s (x >>= f) := by
  rw [Oblivious, outcome_bind, outcome_bind, hx]
  match ho : x.outcome s with
  | none => rfl
  | some (.error e, t) => rfl
  | some (.ok a, t) => exact hf a t ho

end Run

namespace Region

variable {α β : Type} {A : Region} {site : ScopeId} {s t u : State}

/-- The state that a run has come to from another one. -/
structure Continues (A : Region) (s t : State) : Prop where
  grows : A.Grows s.scopes t.scopes
  safe : A.Safe t.scopes

/-- The value is closed in the state. -/
def Holds (A : Region) (s : State) (v : Value) : Prop := A.Closed s.scopes v

/-- The run does not depend on the call site of the first scope of the region, and
`V` holds of its value. -/
structure Lexical (A : Region) (site : ScopeId) (V : State → α → Prop) (s : State)
    (x : Run α) : Prop where
  oblivious : x.Oblivious A.start site s
  ensures : x.Ensures A.Continues V (fun _ => True) s

theorem Continues.refl (hs : A.Safe s.scopes) : A.Continues s s := ⟨.refl _, hs⟩

theorem Continues.trans (s t u : State) (h : A.Continues s t) (k : A.Continues t u) :
    A.Continues s u :=
  ⟨h.grows.trans k.grows, k.safe⟩

namespace Lexical

variable {V : State → α → Prop} {W : State → β → Prop}

theorem pure {a : α} (hs : A.Safe s.scopes) (hv : V s a) : A.Lexical site V s (pure a) :=
  ⟨rfl, .pure (.refl hs) hv⟩

theorem fail (hs : A.Safe s.scopes) (e : EvalError) : A.Lexical site V s (Run.fail e) :=
  ⟨rfl, .fail (.refl hs) trivial⟩

theorem outOfFuel : A.Lexical site V s Run.outOfFuel := ⟨rfl, .outOfFuel⟩

theorem bind {x : Run α} {f : α → Run β} (hx : A.Lexical site V s x)
    (hf : ∀ a t, A.Continues s t → V t a → A.Lexical site W t (f a)) :
    A.Lexical site W s (x >>= f) where
  oblivious := hx.oblivious.bind fun a t ho =>
    have ⟨hst, hv, _⟩ := hx.ensures _ t ho
    (hf a t hst (hv a rfl)).oblivious
  ensures := hx.ensures.bind Continues.trans fun a t hst hv => (hf a t hst hv).ensures

theorem mapM {f : β → Run Value} {as : List β} (hs : A.Safe s.scopes)
    (hf : ∀ a ∈ as, ∀ t, A.Continues s t → A.Lexical site A.Holds t (f a)) :
    A.Lexical site (fun t vs => vs.length = as.length ∧ ∀ v ∈ vs, A.Holds t v) s (as.mapM f) := by
  refine ⟨?_, .mapM Continues.trans (fun _ _ h => .refl h.safe) (fun _ _ _ h hv => hv.grow h.grows)
    (.refl hs) fun a ha t hst => (hf a ha t hst).ensures⟩
  induction as generalizing s with
  | nil => rfl
  | cons a as ih =>
    rw [List.mapM_cons]
    have hhead := hf a List.mem_cons_self s (.refl hs)
    refine hhead.oblivious.bind fun v t ho => ?_
    obtain ⟨hst, -⟩ := hhead.ensures _ t ho
    refine (ih hst.safe fun b hb u htu => ?_).bind fun vs u _ => rfl
    exact hf b (List.mem_cons_of_mem a hb) u (hst.trans _ _ _ htu)

theorem imp {V' : State → α → Prop} {x : Run α} (hx : A.Lexical site V s x)
    (h : ∀ t a, A.Continues s t → V t a → V' t a) : A.Lexical site V' s x :=
  ⟨hx.oblivious, hx.ensures.mono (fun _ => id) h fun _ => id⟩

end Lexical

/-! ### Operations -/

theorem lexical_log (hs : A.Safe s.scopes) (e : Event) :
    A.Lexical site (fun _ _ => True) s (Run.log e) := by
  refine ⟨rfl, fun r t ho => ?_⟩
  cases ho
  exact ⟨⟨.refl _, hs⟩, fun _ _ => trivial, nofun⟩

theorem lexical_write (hs : A.Safe s.scopes) (text : String) (span : Span) :
    A.Lexical site (fun _ _ => True) s (Run.write text span) := by
  refine ⟨?_, fun r t ho => ?_⟩
  · rw [Run.Oblivious, Run.outcome_write, Run.outcome_write]
    rfl
  · rw [Run.outcome_write] at ho
    cases ho
    exact ⟨⟨.refl _, hs⟩, fun _ _ => trivial, fun _ _ => trivial⟩

theorem lexical_lookup (hs : A.Safe s.scopes) {scope : ScopeId} (hscope : A.Has scope)
    {name : String} (h : A.Sees s.scopes (Text.lowercase name) scope) (span : Span) :
    A.Lexical site A.Holds s (Run.lookup scope name span) := by
  obtain ⟨v, hv⟩ := Option.isSome_iff_exists.1 h.isSome
  have hresolve : s.scopes.resolve? scope name = some v := by
    simp [Scopes.resolve?, hv]
  have hcaller : (s.setCaller A.start site).scopes.resolve? scope name = some v := by
    simp [Scopes.resolve?, State.setCaller, h.find?_setCaller site, hv]
  refine ⟨?_, fun r t ho => ?_⟩
  · rw [Run.Oblivious, Run.outcome_lookup, Run.outcome_lookup, hresolve, hcaller]
    rfl
  · rw [Run.outcome_lookup, hresolve] at ho
    cases ho
    refine ⟨.refl hs, fun w hw => ?_, nofun⟩
    cases hw
    exact hs.closed_of_sees h hscope hv

/-- A new scope sees the names that it binds and those that its outer scope sees. -/
def Opens (A : Region) (names : List String) (outer : ScopeId) (s : State) (frame : ScopeId) :
    Prop :=
  A.start ≤ frame ∧ frame < s.scopes.next ∧
    ∀ key, key ∈ names.map Text.lowercase ∨ A.Sees s.scopes key outer → A.Sees s.scopes key frame

theorem ensures_enter (hs : A.Safe s.scopes) (hstart : A.start ≤ s.scopes.next) {outer : ScopeId}
    (houter : A.Has outer) (caller : Option ScopeId) {names : List String} {vs : List Value}
    (hlength : vs.length = names.length) (hvs : ∀ v ∈ vs, A.Holds s v) :
    Run.Ensures A.Continues (A.Opens names outer) (fun _ => True) s
      (Run.enter (some outer) caller (names.zip vs)) := by
  intro r t ho
  rw [Run.outcome_enter] at ho
  cases ho
  let f : Frame := ⟨some outer, caller, .ofPairs (names.zip vs)⟩
  have hf : (s.scopes.create f).frames[s.scopes.next]? = some f := Scopes.frames_create_self ..
  have hnext : (s.scopes.create f).next = s.scopes.next + 1 := Scopes.next_create ..
  have hsafe : A.Safe (s.scopes.create f) :=
    hs.create hstart (fun o h => Option.some.inj h ▸ houter)
      fun key v hv => hvs v (Bindings.mem_of_find?_ofPairs hv).1
  refine ⟨⟨.create hstart f, hsafe⟩, fun frame h => ?_, nofun⟩
  cases h
  refine ⟨hstart, Nat.lt_of_lt_of_eq (Nat.lt_succ_self _) hnext.symm, ?_⟩
  rintro key (hkey | hsees)
  · refine .own ?_
    rw [Scopes.bindings, hf]
    exact Bindings.isSome_find?_ofPairs hlength hkey
  · have hlt : outer < s.scopes.next + 1 := hnext ▸ Scopes.lt_next_of_isSome hsees.isSome
    rcases Nat.lt_or_eq_of_le (Nat.le_of_lt_succ hlt) with hlt | rfl
    · have hlinks : (s.scopes.create f).links s.scopes.next = some (some outer, caller) := by
        rw [Scopes.links, hf, Option.map_some]
      exact .outer hlinks hlt hsees
    · exact hsees

theorem lexical_enter (hs : A.Safe s.scopes) (hstart : A.start < s.scopes.next) {outer : ScopeId}
    (houter : A.Has outer) (caller : Option ScopeId) {names : List String} {vs : List Value}
    (hlength : vs.length = names.length) (hvs : ∀ v ∈ vs, A.Holds s v) :
    A.Lexical site (A.Opens names outer) s (Run.enter (some outer) caller (names.zip vs)) := by
  refine ⟨?_, ensures_enter hs (Nat.le_of_lt hstart) houter caller hlength hvs⟩
  rw [Run.Oblivious, Run.outcome_enter, Run.outcome_enter, Option.map_some, State.setCaller,
    State.setCaller, Scopes.next_setCaller, Scopes.setCaller_create hstart]

theorem lexical_bind (hs : A.Safe s.scopes) {scope : ScopeId} (hscope : A.start ≤ scope)
    (hlt : scope < s.scopes.next) (name : String) {v : Value} (hv : A.Holds s v) :
    A.Lexical site (fun t _ => A.Sees t.scopes (Text.lowercase name) scope) s
      (Run.define scope name v) := by
  refine ⟨?_, fun r t ho => ?_⟩
  · rw [Run.Oblivious, Run.outcome_define, Run.outcome_define, Option.map_some, State.setCaller,
      State.setCaller, Scopes.setCaller_define]
  · rw [Run.outcome_define] at ho
    cases ho
    refine ⟨⟨.define hscope name v, hs.define hscope hv name⟩, fun _ _ => .own ?_, nofun⟩
    rw [Scopes.find?_bindings_define_self name v hlt]
    rfl

/-- A scope that has been filled sees the names that it was filled with. -/
theorem lexical_fill {f : α → Run Value} {bs : List (String × α)} {frame : ScopeId}
    (hs : A.Safe s.scopes) (hframe : A.start ≤ frame) (hlt : frame < s.scopes.next)
    (hf : ∀ b ∈ bs, ∀ t, A.Continues s t → A.Lexical site A.Holds t (f b.2)) :
    A.Lexical site (fun t _ => ∀ b ∈ bs, A.Sees t.scopes (Text.lowercase b.1) frame) s
      (Run.fill frame f bs) := by
  induction bs generalizing s with
  | nil => exact .pure hs fun b hb => absurd hb List.not_mem_nil
  | cons b bs ih =>
    rw [Run.fill_cons]
    refine .bind (hf b List.mem_cons_self s (.refl hs)) fun v t hst hv => ?_
    have hlt' := Nat.lt_of_lt_of_le hlt hst.grows.next_le
    refine .bind (lexical_bind hst.safe hframe hlt' b.1 hv) fun _ u htu hsees => ?_
    have hrest := ih htu.safe (Nat.lt_of_lt_of_le hlt' htu.grows.next_le) fun c hc w huw =>
      hf c (List.mem_cons_of_mem b hc) w ((hst.trans _ _ _ htu).trans _ _ _ huw)
    exact hrest.imp fun w _ huw hbs => List.forall_mem_cons.2 ⟨hsees.grow huw.grows, hbs⟩

theorem lexical_define (hs : A.Safe s.scopes) {scope : ScopeId} (hscope : A.start ≤ scope)
    (name : String) {params : List String} {body : Node}
    (hfree : ∀ key ∈ body.free, key ∈ params.map Text.lowercase ∨ A.Sees s.scopes key scope) :
    A.Lexical site A.Holds s (do
      let f := Value.function (.closure (← Run.makeClosure name params body scope))
      Run.define scope name f
      return f) := by
  let v := Value.function (.closure ⟨s.closures, name, params, body, scope⟩)
  have houtcome (s' : State) (hc : s'.closures = s.closures) : (do
      let f := Value.function (.closure (← Run.makeClosure name params body scope))
      Run.define scope name f
      return f : Run Value).outcome s' =
        some (.ok v, ⟨s'.scopes.define scope name v, s.closures + 1, s'.sink, s'.events⟩) := by
    rw [Run.outcome_bind, Run.outcome_makeClosure, hc]
    dsimp only
    rw [Run.outcome_bind, Run.outcome_define]
    rfl
  have hv : A.Closed s.scopes v := by
    intro c hc
    obtain rfl := List.mem_singleton.1 hc
    exact ⟨.inl hscope, hfree⟩
  have hgrows : A.Grows s.scopes (s.scopes.define scope name v) := .define hscope name v
  refine ⟨?_, fun r t ho => ?_⟩
  · rw [Run.Oblivious, houtcome (s.setCaller A.start site) rfl, houtcome s rfl, Option.map_some,
      State.setCaller, State.setCaller, Scopes.setCaller_define]
  · rw [houtcome s rfl] at ho
    cases ho
    refine ⟨⟨hgrows, hs.define hscope hv name⟩, fun w hw => ?_, nofun⟩
    cases hw
    exact hv.grow hgrows

theorem lexical_primitive (hs : A.Safe s.scopes) (p : Primitive) {args : List Value}
    (hargs : ∀ v ∈ args, A.Holds s v) (span : Span) :
    A.Lexical site A.Holds s (p.apply args span) := by
  unfold Primitive.apply
  cases hv : p.result args with
  | error fault => exact .fail hs _
  | ok v =>
    have hclosed : A.Holds s v := closed_result hv hargs
    dsimp only
    cases p.output? v with
    | none => exact .pure hs hclosed
    | some text =>
      refine .bind (lexical_write hs text span) fun _ t hst _ => ?_
      exact .pure hst.safe (hclosed.grow hst.grows)

/-! ### Evaluation -/

/-- The scope belongs to the run and sees every name that the tree uses. -/
structure Covers (A : Region) (s : State) (scope : ScopeId) (x : Node) : Prop where
  start_le : A.start ≤ scope
  lt_next : scope < s.scopes.next
  sees : ∀ key ∈ x.free, A.Sees s.scopes key scope

theorem Covers.continue {scope : ScopeId} {x y : Node} (h : A.Covers s scope x)
    (hst : A.Continues s t) (hy : y.free ⊆ x.free) : A.Covers t scope y :=
  ⟨h.start_le, Nat.lt_of_lt_of_le h.lt_next hst.grows.next_le,
    fun key hkey => (h.sees key (hy hkey)).grow hst.grows⟩

/-- A call of a closed function, if evaluation in a scope of the run does not
depend on the call site. -/
theorem lexical_applyWith {body : ScopeId → Node → Run Value}
    (hbody : ∀ frame x t, A.Safe t.scopes → A.Covers t frame x →
      A.Lexical site A.Holds t (body frame x))
    (hs : A.Safe s.scopes) (hstart : A.start < s.scopes.next) {f : Function}
    (hf : A.Holds s (.function f)) {args : List Value} (hargs : ∀ v ∈ args, A.Holds s v)
    (span : Span) (caller : ScopeId) :
    A.Lexical site A.Holds s (f.applyWith body args span caller) := by
  cases f with
  | primitive p => exact lexical_primitive hs p hargs span
  | closure c =>
    obtain ⟨hhas, hfree⟩ := hf c (List.mem_singleton_self c)
    simp only [Function.applyWith]
    split
    · next hlength =>
      refine .bind (lexical_log hs _) fun _ t hst _ => ?_
      have hargs' (v : Value) (hv : v ∈ args) : A.Holds t v := (hargs v hv).grow hst.grows
      have hstart' := Nat.lt_of_lt_of_le hstart hst.grows.next_le
      refine .bind (lexical_enter hst.safe hstart' hhas _ hlength hargs')
        fun frame u htu hopens => ?_
      obtain ⟨hle, hlt, hsees⟩ := hopens
      refine hbody frame c.body u htu.safe ⟨hle, hlt, fun key hkey => hsees key ?_⟩
      exact (hfree key hkey).imp_right fun h => (h.grow hst.grows).grow htu.grows
    · exact .fail hs _

end Region

/-- Evaluation in a scope that sees all names of the tree does not depend on the
call site of the run. -/
theorem Node.lexical_eval {A : Region} (site : ScopeId) (fuel : Nat) {scope : ScopeId} {node : Node}
    {s : State} (hs : A.Safe s.scopes) (hx : A.Covers s scope node) :
    A.Lexical site A.Holds s (node.eval fuel scope) := by
  induction fuel generalizing s scope node with
  | zero => exact .outOfFuel
  | succ fuel ih =>
    -- after some steps in the same scope
    have later {t : State} (hst : A.Continues s t) {y : Node} (hy : y.free ⊆ node.free) :
        A.Lexical site A.Holds t (y.eval fuel scope) :=
      ih hst.safe (hx.continue hst hy)
    have hstart := Nat.lt_of_le_of_lt hx.start_le hx.lt_next
    cases node with
    | number x _ | string x _ | boolean x _ =>
      exact .pure hs fun c hc => absurd hc List.not_mem_nil
    | symbol name span =>
      exact Region.lexical_lookup hs (.inl hx.start_le) (hx.sees _ (List.mem_singleton_self _)) span
    | list items _ =>
      refine .bind (.mapM hs fun x hi t hst => later hst (free_subset_all hi))
        fun vs t hst hvs => ?_
      exact .pure hst.safe (Region.closed_list hvs.2)
    | call head args span =>
      have hhead : A.Lexical site (fun t f => A.Holds t (.function f)) s
          (evalHead fuel scope head) := by
        unfold evalHead
        split
        · exact .pure hs fun c hc => absurd hc List.not_mem_nil
        · next hp =>
          have hfree : head.free ⊆ (call head args span).free := by
            rw [free, hp]
            exact List.subset_append_left _ _
          refine .bind (later (.refl hs) hfree) fun v t hst hv => ?_
          cases v with
          | function f => exact .pure hst.safe hv
          | number _ | string _ | boolean _ | list _ => exact .fail hst.safe _
      rw [eval_call]
      refine .bind hhead fun f t hst hf => ?_
      refine .bind (.mapM hst.safe fun x hi u htu => later (hst.trans _ _ _ htu)
        fun key hkey => List.mem_append_right _ (free_subset_all hi hkey)) fun vs u htu hvs => ?_
      exact Region.lexical_applyWith (fun _ _ _ => ih) htu.safe
        (Nat.lt_of_lt_of_le hstart (Nat.le_trans hst.grows.next_le htu.grows.next_le))
        (hf.grow htu.grows) hvs.2 span scope
    | letIn bindings body span =>
      refine .bind (Region.lexical_log hs _) fun _ t hst _ => ?_
      have henter : A.Lexical site (A.Opens [] scope) t
          (Run.enter (some scope) none (([] : List String).zip [])) :=
        Region.lexical_enter hst.safe (Nat.lt_of_lt_of_le hstart hst.grows.next_le)
          (.inl hx.start_le) none rfl fun v hv => absurd hv List.not_mem_nil
      refine .bind henter fun frame u htu hopens => ?_
      obtain ⟨hle, hlt, hsees⟩ := hopens
      have hsu := hst.trans _ _ _ htu
      refine .bind (Region.lexical_fill htu.safe hle hlt fun b hb w huw =>
        later (hsu.trans _ _ _ huw) fun key hkey =>
          List.mem_append_left _ (free_subset_bindings hb hkey)) fun _ w huw hbound => ?_
      refine ih huw.safe ⟨hle, Nat.lt_of_lt_of_le hlt huw.grows.next_le, fun key hkey => ?_⟩
      by_cases hkey' : key ∈ bindings.map fun b => Text.lowercase b.1
      · obtain ⟨b, hb, rfl⟩ := List.mem_map.1 hkey'
        exact hbound b hb
      · refine (hsees key (.inr ((hx.sees key (List.mem_append_right _ ?_)).grow hsu.grows))).grow
          huw.grows
        exact List.mem_filter.2 ⟨hkey, decide_eq_true hkey'⟩
    | conditional test yes no span =>
      rw [eval_conditional]
      refine .bind (Region.lexical_log hs _) fun _ t hst _ => ?_
      refine .bind (later hst (List.subset_append_left _ _)) fun v u htu _ => ?_
      have hsu := hst.trans _ _ _ htu
      match v, no with
      | .boolean true, _ =>
        exact later hsu fun key hkey => List.mem_append_right _ (List.mem_append_left _ hkey)
      | .boolean false, some no =>
        exact later hsu fun key hkey => List.mem_append_right _ (List.mem_append_right _ hkey)
      | .boolean false, none => exact .pure hsu.safe fun c hc => absurd hc List.not_mem_nil
      | .number _, _ | .string _, _ | .function _, _ | .list _, _ => exact .fail hsu.safe _
    | function name params body span =>
      refine .bind (Region.lexical_log hs _) fun _ t hst _ => ?_
      refine .bind (Region.lexical_log hst.safe _) fun _ u htu _ => ?_
      have hsu := hst.trans _ _ _ htu
      refine Region.lexical_define htu.safe hx.start_le name fun key hkey => ?_
      by_cases hparam : key ∈ params.map Text.lowercase
      · exact .inl hparam
      · refine .inr ((hx.sees key ?_).grow hsu.grows)
        exact List.mem_filter.2 ⟨hkey, decide_eq_true hparam⟩

/-! ### Calls of closed closures -/

/-- The scopes that can be reached from the first ones, through links and through
the closures that are bound on the way. -/
inductive Scopes.Reaches (s : Scopes) (first : ScopeId → Prop) : ScopeId → Prop
  | first {id : ScopeId} : first id → Reaches s first id
  | outer {id o : ScopeId} {caller : Option ScopeId} :
    Reaches s first id → s.links id = some (some o, caller) → Reaches s first o
  | caller {id o : ScopeId} {outer : Option ScopeId} :
    Reaches s first id → s.links id = some (outer, some o) → Reaches s first o
  | definition {id : ScopeId} {key : String} {v : Value} {c : Closure} :
    Reaches s first id → (s.bindings id).find? key = some v → c ∈ v.closures →
    Reaches s first c.scope

/-- The first scopes of a call: those in which its function and the closures in its
arguments were defined. -/
def Closure.FirstScope (c : Closure) (args : List Value) (id : ScopeId) : Prop :=
  ∃ d ∈ c :: Value.closuresAll args, d.scope = id

theorem Closure.IsClosed.sees {s : Scopes} {c : Closure} (h : c.IsClosed s)
    (earlier : ScopeId → Prop) : ∀ key ∈ c.body.free,
      key ∈ c.params.map Text.lowercase ∨ (Region.mk s.next earlier).Sees s key c.scope :=
  fun key hkey => (h key hkey).imp_right fun hsome =>
    .earlier (Scopes.lt_next_of_isSome hsome) hsome

/-- All closures that can be reached from the first scopes of a call are closed, so
the region of the call is safe. -/
theorem Region.safe_of_reaches {s : Scopes} {first : ScopeId → Prop}
    (hreach : ∀ id, s.Reaches first id → ∀ key v, (s.bindings id).find? key = some v →
      ∀ d ∈ v.closures, d.IsClosed s) : (Region.mk s.next (s.Reaches first)).Safe s := by
  have reaches {id : ScopeId} (hlt : id < s.next)
      (h : (Region.mk s.next (s.Reaches first)).Has id) : s.Reaches first id :=
    h.resolve_left (Nat.not_le_of_lt hlt)
  refine ⟨fun id hid key v hv d hd => ?_, fun id hid o caller h => ?_, fun id _ hid outer o h => ?_⟩
  · have hlt : id < s.next := Scopes.lt_next_of_bound (Option.isSome_of_eq_some hv)
    have hid' := reaches hlt hid
    exact ⟨.inr (.definition hid' hv hd), (hreach id hid' key v hv d hd).sees _⟩
  · exact .inr (.outer (reaches (Scopes.lt_next_of_links h) hid) h)
  · exact .inr (.caller (reaches (Scopes.lt_next_of_links h) hid) h)

/-- If the function of a call, the closures in its arguments and all closures that
are bound where these lead to are closed, then the call site makes no difference:
the call ends from both sites or from none, with the same result and in the same
state but for the call site of its own scope. -/
theorem Function.apply_setCaller (fuel : Nat) {c : Closure} {args : List Value} {s : State}
    (hcall : ∀ d ∈ c :: Value.closuresAll args, d.IsClosed s.scopes)
    (hreach : ∀ id, s.scopes.Reaches (c.FirstScope args) id → ∀ key v,
      (s.scopes.bindings id).find? key = some v → ∀ d ∈ v.closures, d.IsClosed s.scopes)
    (span : Span) (site site' : ScopeId) :
    (Function.apply fuel (.closure c) args span site').outcome s =
      ((Function.apply fuel (.closure c) args span site).outcome s).map fun (result, t) =>
        (result, t.setCaller s.scopes.next site') := by
  let A : Region := ⟨s.scopes.next, s.scopes.Reaches (c.FirstScope args)⟩
  have hs : A.Safe s.scopes := Region.safe_of_reaches hreach
  have hclosed (d : Closure) (hd : d ∈ c :: Value.closuresAll args) : A.Has d.scope ∧
      ∀ key ∈ d.body.free, key ∈ d.params.map Text.lowercase ∨ A.Sees s.scopes key d.scope :=
    ⟨.inr (.first ⟨d, hd, rfl⟩), (hcall d hd).sees _⟩
  have hargs (v : Value) (hv : v ∈ args) : A.Closed s.scopes v := fun d hd =>
    hclosed d (List.mem_cons_of_mem c (Value.mem_closuresAll.2 ⟨v, hv, hd⟩))
  obtain ⟨hhas, hfree⟩ := hclosed c List.mem_cons_self
  simp only [Function.apply, Function.applyWith]
  split
  · next hlength =>
    -- up to its first scope the call is the same from both sites
    let s' := s.log (.call c.name args.length)
    let entered (caller : ScopeId) : State :=
      { s' with scopes :=
          s'.scopes.create ⟨some c.scope, some caller, .ofPairs (c.params.zip args)⟩ }
    have hsites : (entered site).setCaller s.scopes.next site' = entered site' :=
      congrArg (fun scopes => { s' with scopes := scopes }) (Scopes.setCaller_create_self _)
    have henter := Region.ensures_enter (s := s') hs (Nat.le_refl _) hhas (some site) hlength hargs
    obtain ⟨hst, hopens, -⟩ := henter _ (entered site) (Run.outcome_enter ..)
    obtain ⟨hle, hlt, hsees⟩ := hopens _ rfl
    have hcovers : A.Covers (entered site) s.scopes.next c.body :=
      ⟨hle, hlt, fun key hkey => hsees key ((hfree key hkey).imp_right fun h => h.grow hst.grows)⟩
    have hbody := (Node.lexical_eval site' fuel hst.safe hcovers).oblivious
    rw [Run.Oblivious, hsites] at hbody
    simp only [Run.outcome_bind, Run.outcome_log, Run.outcome_enter]
    exact hbody
  · rw [Run.outcome_fail, Option.map_some, State.setCaller, Scopes.setCaller_of_le (Nat.le_refl _)]

/-- The function of `(let ((y false)) (fun f [x] ((fun g [z] [x Y z]) true)))` and
the one that it defines find `y` in the let form, although the first call site
binds it to a function and the other one to `true`. -/
theorem Function.apply_setCaller_shadowed :
    let g := Node.function "g" ["z"]
      (.list [.symbol "x" ⟨41, 42⟩, .symbol "Y" ⟨43, 44⟩, .symbol "z" ⟨45, 46⟩] ⟨40, 47⟩) ⟨29, 48⟩
    let c : Closure := ⟨1, "f", ["x"], .call g [.boolean true ⟨49, 53⟩] ⟨28, 54⟩, 1⟩
    let y : Value := .function (.closure ⟨0, "y", [], .boolean true ⟨0, 4⟩, 0⟩)
    let s : State := ⟨⟨#[⟨none, none, .ofPairs [("y", y)]⟩,
      ⟨some 0, none, .ofPairs [("y", .boolean false), ("f", .function (.closure c))]⟩,
      ⟨none, none, .ofPairs [("y", .boolean true)]⟩]⟩, 2, .empty none, #[]⟩
    ∃ v t, (Function.apply 4 (.closure c) [.boolean true] ⟨0, 0⟩ 0).outcome s = some (.ok v, t) ∧
      v.text = "[true false true]" ∧
      (Function.apply 4 (.closure c) [.boolean true] ⟨0, 0⟩ 2).outcome s =
        some (.ok v, t.setCaller 3 2) := by
  intro g c y s
  have hcall : ∀ d ∈ c :: Value.closuresAll [.boolean true], d.IsClosed s.scopes := by
    unfold Closure.IsClosed
    decide +kernel
  have hentries : ∀ f ∈ s.scopes.frames, ∀ p ∈ f.bindings.entries, ∀ d ∈ p.2.closures,
      d.IsClosed s.scopes := by
    unfold Closure.IsClosed
    decide +kernel
  have hvalue : ((Function.apply 4 (.closure c) [.boolean true] ⟨0, 0⟩ 0).outcome s).map
      (fun p => p.1.toOption.map Value.text) = some (some "[true false true]") := by
    decide +kernel
  have hsites := Function.apply_setCaller 4 hcall (fun id _ key v hv d hd => by
    obtain ⟨f, hf, p, hp, rfl⟩ := Scopes.exists_entry_of_bound hv
    exact hentries f hf p hp d hd) ⟨0, 0⟩ 0 2
  obtain ⟨⟨result, t⟩, hrun, htext⟩ := Option.map_eq_some_iff.1 hvalue
  cases result with
  | error e => cases htext
  | ok v => exact ⟨v, t, hrun, Option.some.inj htext, by rw [hsites, hrun]; rfl⟩

end SmallLisp
