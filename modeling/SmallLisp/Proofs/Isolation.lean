import SmallLisp.Proofs.Runs

/-! Which bindings an evaluation can change. A scope is written to only by the
function definitions that are evaluated in it, and those stand in the tree
outside the bodies of let forms and of functions: these bodies run in scopes of
their own, made after everything that existed before. So an evaluation leaves
all existing scopes but its own as they were, and a call leaves all of them as
they were, also if it fails. -/

namespace SmallLisp

/-! ### Definitions in a tree -/

/-- A function definition as it stands in a program. -/
structure Definition where
  name : String
  params : List String
  body : Node

namespace Node

mutual

/-- The function definitions that are evaluated in the scope of the tree itself:
those that stand neither in the body of a let form nor in that of a function. -/
def definitions : Node → List Definition
  | number .. | string .. | boolean .. | symbol .. => []
  | list items _ => definitionsAll items
  | call head args _ => head.definitions ++ definitionsAll args
  | letIn bindings _ _ => definitionsBindings bindings
  | conditional test yes no _ => test.definitions ++ (yes.definitions ++ definitionsOptional no)
  | function name params body _ => [⟨name, params, body⟩]

def definitionsAll : List Node → List Definition
  | [] => []
  | x :: xs => x.definitions ++ definitionsAll xs

def definitionsBindings : List (String × Node) → List Definition
  | [] => []
  | (_, x) :: bs => x.definitions ++ definitionsBindings bs

def definitionsOptional : Option Node → List Definition
  | none => []
  | some x => x.definitions

end

theorem definitions_subset_all {x : Node} {xs : List Node} (h : x ∈ xs) :
    x.definitions ⊆ definitionsAll xs := by
  induction h with
  | head xs => exact List.subset_append_left _ _
  | tail y _ ih => exact fun d hd => List.mem_append_right _ (ih hd)

theorem definitions_subset_bindings {b : String × Node} {bs : List (String × Node)} (h : b ∈ bs) :
    b.2.definitions ⊆ definitionsBindings bs := by
  induction h with
  | head bs => exact List.subset_append_left _ _
  | tail c _ ih => exact fun d hd => List.mem_append_right _ (ih hd)

theorem definitionsBindings_eq_nil {bs : List (String × Node)}
    (h : ∀ b ∈ bs, b.2.definitions = []) : definitionsBindings bs = [] := by
  induction bs with
  | nil => rfl
  | cons b bs ih =>
    rw [definitionsBindings, h b List.mem_cons_self,
      ih fun c hc => h c (List.mem_cons_of_mem b hc), List.nil_append]

end Node

/-! ### Scopes -/

namespace Scopes

/-- The links of a scope that exists. -/
def links (s : Scopes) (id : ScopeId) : Option (Option ScopeId × Option ScopeId) :=
  s.frames[id]?.map fun f => (f.outer, f.caller)

theorem next_create (s : Scopes) (f : Frame) : (s.create f).next = s.next + 1 :=
  Array.size_push f

theorem frames_create_of_lt {s : Scopes} {id : ScopeId} (h : id < s.next) (f : Frame) :
    (s.create f).frames[id]? = s.frames[id]? := by
  have hne : id ≠ s.frames.size := Nat.ne_of_lt h
  rw [create, Array.getElem?_push, if_neg hne]

theorem next_define (s : Scopes) (id : ScopeId) (name : String) (v : Value) :
    (s.define id name v).next = s.next :=
  Array.size_modify

theorem frames_define_of_ne {s : Scopes} {id other : ScopeId} (h : other ≠ id) (name : String)
    (v : Value) : (s.define id name v).frames[other]? = s.frames[other]? := by
  rw [define, Array.getElem?_modify, if_neg (Ne.symm h)]

theorem links_define (s : Scopes) (id : ScopeId) (name : String) (v : Value) (other : ScopeId) :
    (s.define id name v).links other = s.links other := by
  rw [links, define, Array.getElem?_modify]
  split
  · rw [Option.map_map]
    rfl
  · rfl

theorem bindings_define {s : Scopes} {id : ScopeId} (h : id < s.next) (name : String) (v : Value) :
    (s.define id name v).bindings id = (s.bindings id).define name v := by
  obtain ⟨f, hf⟩ : ∃ f, s.frames[id]? = some f := ⟨_, Array.getElem?_eq_getElem h⟩
  rw [bindings, bindings, define, Array.getElem?_modify, if_pos rfl, hf]
  rfl

theorem find?_bindings_define_self {s : Scopes} {id : ScopeId} (name : String) (v : Value)
    (h : id < s.next) :
    ((s.define id name v).bindings id).find? (Text.lowercase name) = some v := by
  rw [bindings_define h, Bindings.define, Bindings.find?_insert_self]

end Scopes

/-! ### What may change -/

/-- Nothing that existed has changed: scopes and closures may only have been added. -/
structure Keeps (s t : State) : Prop where
  next_le : s.scopes.next ≤ t.scopes.next
  closures_le : s.closures ≤ t.closures
  frames : ∀ id < s.scopes.next, t.scopes.frames[id]? = s.scopes.frames[id]?

/-- A closure that was made from one of the definitions, between two states, and
is bound under the key of its name. -/
def MadeFrom (scope : ScopeId) (defs : List Definition) (s t : State) (key : String)
    (v : Option Value) : Prop :=
  ∃ d ∈ defs, key = Text.lowercase d.name ∧ ∃ id, s.closures ≤ id ∧ id < t.closures ∧
    v = some (.function (.closure ⟨id, d.name, d.params, d.body, scope⟩))

/-- Of the scopes with numbers below `n` only the bindings of one have changed, and a key
of it only if it was bound to a closure made from one of the definitions. -/
structure ConfinedBelow (n : Nat) (scope : ScopeId) (defs : List Definition) (s t : State) :
    Prop where
  next_le : s.scopes.next ≤ t.scopes.next
  closures_le : s.closures ≤ t.closures
  frames : ∀ id < n, id ≠ scope → t.scopes.frames[id]? = s.scopes.frames[id]?
  links : scope < n → t.scopes.links scope = s.scopes.links scope
  binding : scope < n → ∀ key,
    (t.scopes.bindings scope).find? key = (s.scopes.bindings scope).find? key ∨
      MadeFrom scope defs s t key ((t.scopes.bindings scope).find? key)

/-- Of what existed only the bindings of one scope have changed, by the definitions. -/
abbrev Confined (scope : ScopeId) (defs : List Definition) (s t : State) : Prop :=
  ConfinedBelow s.scopes.next scope defs s t

namespace ConfinedBelow

variable {n m : Nat} {scope : ScopeId} {defs : List Definition} {s t : State}

theorem of_frames (hnext : s.scopes.next ≤ t.scopes.next) (hclosures : s.closures ≤ t.closures)
    (h : ∀ id < n, t.scopes.frames[id]? = s.scopes.frames[id]?) :
    ConfinedBelow n scope defs s t where
  next_le := hnext
  closures_le := hclosures
  frames id hid _ := h id hid
  links hs := by rw [Scopes.links, h scope hs, Scopes.links]
  binding hs key := .inl (by rw [Scopes.bindings, h scope hs, Scopes.bindings])

theorem mono {defs' : List Definition} (hd : defs ⊆ defs') (h : ConfinedBelow n scope defs s t) :
    ConfinedBelow n scope defs' s t where
  next_le := h.next_le
  closures_le := h.closures_le
  frames := h.frames
  links := h.links
  binding hs key := (h.binding hs key).imp_right fun ⟨d, hm, hk⟩ => ⟨d, hd hm, hk⟩

theorem of_le (h : ConfinedBelow n scope defs s t) (hm : m ≤ n) :
    ConfinedBelow m scope defs s t where
  next_le := h.next_le
  closures_le := h.closures_le
  frames id hid := h.frames id (Nat.lt_of_lt_of_le hid hm)
  links hs := h.links (Nat.lt_of_lt_of_le hs hm)
  binding hs := h.binding (Nat.lt_of_lt_of_le hs hm)

theorem trans {u : State} (h : ConfinedBelow n scope defs s t)
    (k : ConfinedBelow n scope defs t u) : ConfinedBelow n scope defs s u where
  next_le := Nat.le_trans h.next_le k.next_le
  closures_le := Nat.le_trans h.closures_le k.closures_le
  frames id hid hne := (k.frames id hid hne).trans (h.frames id hid hne)
  links hs := (k.links hs).trans (h.links hs)
  binding hs key := by
    rcases k.binding hs key with hk | ⟨d, hd, hk, id, hle, hlt, hv⟩
    · rw [hk]
      refine (h.binding hs key).imp_right ?_
      rintro ⟨d, hd, hk, id, hle, hlt, hv⟩
      exact ⟨d, hd, hk, id, hle, Nat.lt_of_lt_of_le hlt k.closures_le, hv⟩
    · exact .inr ⟨d, hd, hk, id, Nat.le_trans h.closures_le hle, hlt, hv⟩

/-- What a scope does to itself changes none with a lower number. -/
theorem of_confined {frame : ScopeId} {defs' : List Definition} (h : Confined frame defs' s t)
    (hn : n ≤ s.scopes.next) (hframe : n ≤ frame) : ConfinedBelow n scope defs s t :=
  .of_frames h.next_le h.closures_le fun id hid =>
    h.frames id (Nat.lt_of_lt_of_le hid hn) (Nat.ne_of_lt (Nat.lt_of_lt_of_le hid hframe))

end ConfinedBelow

/-- From `n` scopes on, none of these has changed but by the definitions. -/
def ConfinedSince (n : Nat) (scope : ScopeId) (defs : List Definition) (s t : State) : Prop :=
  n ≤ s.scopes.next → ConfinedBelow n scope defs s t

namespace ConfinedSince

variable {n : Nat} {scope : ScopeId} {defs : List Definition}

theorem refl (s : State) : ConfinedSince n scope defs s s :=
  fun _ => .of_frames (Nat.le_refl _) (Nat.le_refl _) fun _ _ => rfl

theorem trans (s t u : State) (h : ConfinedSince n scope defs s t)
    (k : ConfinedSince n scope defs t u) : ConfinedSince n scope defs s u := fun hn =>
  (h hn).trans (k (Nat.le_trans hn (h hn).next_le))

end ConfinedSince

namespace Keeps

theorem refl (s : State) : Keeps s s := ⟨Nat.le_refl _, Nat.le_refl _, fun _ _ => rfl⟩

theorem trans (s t u : State) (h : Keeps s t) (k : Keeps t u) : Keeps s u where
  next_le := Nat.le_trans h.next_le k.next_le
  closures_le := Nat.le_trans h.closures_le k.closures_le
  frames id hid := (k.frames id (Nat.lt_of_lt_of_le hid h.next_le)).trans (h.frames id hid)

/-- A state that differs in neither scopes nor closures. -/
theorem of_eq {s t : State} (hs : t.scopes = s.scopes) (hc : t.closures = s.closures) :
    Keeps s t :=
  ⟨Nat.le_of_eq (congrArg Scopes.next hs.symm), Nat.le_of_eq hc.symm, fun _ _ => by rw [hs]⟩

theorem confined {s t : State} (h : Keeps s t) (scope : ScopeId) (defs : List Definition) :
    Confined scope defs s t := .of_frames h.next_le h.closures_le h.frames

end Keeps

namespace Confined

variable {scope : ScopeId} {defs : List Definition}

theorem refl (s : State) : Confined scope defs s s := (Keeps.refl s).confined scope defs

theorem trans (s t u : State) (h : Confined scope defs s t) (k : Confined scope defs t u) :
    Confined scope defs s u := ConfinedBelow.trans h (k.of_le h.next_le)

end Confined

/-! ### What runs change -/

open Run (Follows)

theorem follows_log (e : Event) : Follows Keeps (Run.log e) := by
  intro s r t h
  rw [Run.outcome_log] at h
  cases h
  exact Keeps.of_eq rfl rfl

theorem follows_write (text : String) (span : Span) : Follows Keeps (Run.write text span) := by
  intro s r t h
  rw [Run.outcome_write] at h
  cases h
  exact Keeps.of_eq rfl rfl

/-- What a run does in a new scope changes nothing that existed before the scope. -/
theorem follows_enter {α : Type} {outer caller : Option ScopeId} {pairs : List (String × Value)}
    {body : ScopeId → Run α} {defs : List Definition}
    (h : ∀ frame, Follows (Confined frame defs) (body frame)) :
    Follows Keeps (Run.enter outer caller pairs >>= body) := by
  intro s r t ho
  rw [Run.outcome_bind, Run.outcome_enter] at ho
  have k := h s.scopes.next _ r t ho
  have hlt : s.scopes.next < (s.scopes.create ⟨outer, caller, .ofPairs pairs⟩).next := by
    rw [Scopes.next_create]
    exact Nat.lt_succ_self _
  refine ⟨Nat.le_trans (Nat.le_of_lt hlt) k.next_le, k.closures_le, fun id hid => ?_⟩
  rw [k.frames id (Nat.lt_trans hid hlt) (Nat.ne_of_lt hid), Scopes.frames_create_of_lt hid]

theorem follows_bound {n : Nat} {scope frame : ScopeId} {defs : List Definition} (hn : n ≤ frame)
    (name : String) (v : Value) :
    Follows (ConfinedSince n scope defs) (Run.define frame name v) := by
  intro s r t ho _
  rw [Run.outcome_define] at ho
  cases ho
  exact .of_frames (Nat.le_of_eq (Scopes.next_define ..).symm) (Nat.le_refl _) fun id hid =>
    Scopes.frames_define_of_ne (Nat.ne_of_lt (Nat.lt_of_lt_of_le hid hn)) name v

/-- A scope that is made and filled and used changes no more of what existed before than
the values that it is filled with. -/
theorem follows_fill {scope : ScopeId} {outer caller : Option ScopeId} {α β : Type}
    {value : α → Run Value} {bs : List (String × α)} {body : ScopeId → Run β}
    {defs defs' : List Definition} (hvalue : ∀ b ∈ bs, Follows (Confined scope defs) (value b.2))
    (hbody : ∀ frame, Follows (Confined frame defs') (body frame)) :
    Follows (Confined scope defs) (do
      let frame ← Run.enter outer caller []
      Run.fill frame value bs
      body frame) := by
  intro s r u ho
  rw [Run.outcome_bind_of_ok (Run.outcome_enter ..)] at ho
  have hfill : Follows (ConfinedSince s.scopes.next scope defs)
      (Run.fill s.scopes.next value bs) :=
    .fill ConfinedSince.trans ConfinedSince.refl
      (follows_bound (Nat.le_refl _)) fun b hb => .mono (fun _ _ h hn => h.of_le hn) (hvalue b hb)
  have hrest : Follows (ConfinedSince s.scopes.next scope defs)
      (Run.fill s.scopes.next value bs >>= fun _ => body s.scopes.next) :=
    .bind ConfinedSince.trans hfill fun _ =>
      .mono (fun _ _ h hn => .of_confined h hn (Nat.le_refl _)) (hbody _)
  have henter : s.scopes.next ≤ (s.scopes.create ⟨outer, caller, .ofPairs []⟩).next := by
    rw [Scopes.next_create]
    exact Nat.le_succ _
  have hopened : ConfinedBelow s.scopes.next scope defs s
      { s with scopes := s.scopes.create ⟨outer, caller, .ofPairs []⟩ } :=
    .of_frames henter (Nat.le_refl _) fun id hid => Scopes.frames_create_of_lt hid _
  exact hopened.trans (hrest _ _ _ ho henter)

theorem follows_define (scope : ScopeId) (name : String) (params : List String) (body : Node) :
    Follows (Confined scope [⟨name, params, body⟩]) (do
      let f := Value.function (.closure (← Run.makeClosure name params body scope))
      Run.define scope name f
      return f) := by
  intro s r t ho
  rw [Run.outcome_bind, Run.outcome_makeClosure] at ho
  dsimp only at ho
  rw [Run.outcome_bind, Run.outcome_define] at ho
  cases ho
  refine ⟨Nat.le_of_eq (Scopes.next_define ..).symm, Nat.le_succ _, fun id hid hne => ?_,
    fun hs => Scopes.links_define .., fun hs key => ?_⟩
  · exact Scopes.frames_define_of_ne hne _ _
  · rw [Scopes.bindings_define hs, Bindings.define]
    by_cases hk : key = Text.lowercase name
    · subst hk
      rw [Bindings.find?_insert_self]
      exact .inr ⟨_, List.mem_singleton_self _, rfl, s.closures, Nat.le_refl _,
        Nat.lt_succ_self _, rfl⟩
    · exact .inl (Bindings.find?_insert_of_ne _ _ hk)

theorem Primitive.follows_apply (p : Primitive) (args : List Value) (span : Span) :
    Follows Keeps (p.apply args span) := by
  unfold Primitive.apply
  split
  · exact .fail Keeps.refl _
  · next v hv =>
    dsimp only
    split
    · exact .bind Keeps.trans (follows_write _ _) fun _ => .pure Keeps.refl v
    · exact .pure Keeps.refl v

/-- A call keeps all scopes, if the body of a closure changes only its own. -/
theorem Function.follows_applyWith {body : ScopeId → Node → Run Value}
    (h : ∀ frame x, Follows (Confined frame x.definitions) (body frame x)) (f : Function)
    (args : List Value) (span : Span) (site : ScopeId) :
    Follows Keeps (f.applyWith body args span site) := by
  unfold Function.applyWith
  split
  · exact Primitive.follows_apply _ args span
  · next c =>
    split
    · exact .bind Keeps.trans (follows_log _) fun _ => follows_enter fun frame => h frame c.body
    · exact .fail Keeps.refl _

section Eval

variable {scope : ScopeId}

theorem Run.Follows.confined {α : Type} {x : Run α} (h : Follows Keeps x) (defs : List Definition) :
    Follows (Confined scope defs) x :=
  .mono (fun _ _ k => k.confined scope defs) h

theorem Node.follows_eval (fuel : Nat) (scope : ScopeId) (node : Node) :
    Follows (Confined scope node.definitions) (node.eval fuel scope) := by
  induction fuel generalizing scope node with
  | zero => exact .outOfFuel
  | succ fuel ih =>
    cases node with
    | number x _ | string s _ | boolean b _ => exact .pure Confined.refl _
    | symbol name span => exact .lookup Confined.refl scope name span
    | list items _ =>
      refine .bind Confined.trans (.mapM Confined.trans Confined.refl fun x hx => ?_) fun vs => ?_
      · exact .mono (fun _ _ => .mono (definitions_subset_all hx)) (ih scope x)
      · exact .pure Confined.refl _
    | call head args span =>
      rw [eval_call]
      refine .bind Confined.trans ?_ fun f => ?_
      · unfold evalHead
        split
        · exact .pure Confined.refl _
        · refine .bind Confined.trans ?_ fun v => ?_
          · exact .mono (fun _ _ => .mono (List.subset_append_left _ _)) (ih scope head)
          · cases v <;> first | exact .pure Confined.refl _ | exact .fail Confined.refl _
      refine .bind Confined.trans (.mapM Confined.trans Confined.refl fun x hx => ?_) fun vs => ?_
      · exact .mono (fun _ _ => .mono (List.subset_append_of_subset_right _
          (definitions_subset_all hx))) (ih scope x)
      · exact (Function.follows_applyWith ih f vs span scope).confined _
    | letIn bindings body span =>
      refine .bind Confined.trans ((follows_log _).confined _) fun _ => ?_
      refine follows_fill (fun b hb => ?_) fun frame => ih frame body
      exact .mono (fun _ _ => .mono (definitions_subset_bindings hb)) (ih scope b.2)
    | conditional test yes no span =>
      rw [eval_conditional]
      refine .bind Confined.trans ((follows_log _).confined _) fun _ => ?_
      refine .bind Confined.trans ?_ fun v => ?_
      · exact .mono (fun _ _ => .mono (List.subset_append_left _ _)) (ih scope test)
      match v, no with
      | .boolean true, _ =>
        refine .mono (fun _ _ => .mono fun d hd => ?_) (ih scope yes)
        exact List.mem_append_right _ (List.mem_append_left _ hd)
      | .boolean false, some no =>
        refine .mono (fun _ _ => .mono fun d hd => ?_) (ih scope no)
        exact List.mem_append_right _ (List.mem_append_right _ hd)
      | .boolean false, none => exact .pure Confined.refl _
      | .number _, _ | .string _, _ | .function _, _ | .list _, _ => exact .fail Confined.refl _
    | function name params body span =>
      refine .bind Confined.trans ((follows_log _).confined _) fun _ => ?_
      refine .bind Confined.trans ((follows_log _).confined _) fun _ => ?_
      exact follows_define scope name params body

end Eval

/-! ### Isolation -/

/-- The effect of an evaluation on the scopes that existed before it: the other
scopes are as they were, no link has changed, no key of its own scope has become
unbound, and a key that is bound differently is bound to a closure made from a
definition in the tree. -/
structure Isolated (scope : ScopeId) (node : Node) (s t : State) : Prop where
  others : ∀ id < s.scopes.next, id ≠ scope → t.scopes.bindings id = s.scopes.bindings id
  links : ∀ id < s.scopes.next, t.scopes.links id = s.scopes.links id
  bound : ∀ key, (s.scopes.bindings scope).find? key ≠ none →
    (t.scopes.bindings scope).find? key ≠ none
  changed : ∀ key, (t.scopes.bindings scope).find? key ≠ (s.scopes.bindings scope).find? key →
    MadeFrom scope node.definitions s t key ((t.scopes.bindings scope).find? key)

theorem MadeFrom.ne_none {scope : ScopeId} {defs : List Definition} {s t : State} {key : String}
    {v : Option Value} (h : MadeFrom scope defs s t key v) : v ≠ none := by
  obtain ⟨_, _, _, _, _, _, rfl⟩ := h
  exact Option.some_ne_none _

theorem Confined.isolated {scope : ScopeId} {node : Node} {s t : State}
    (h : Confined scope node.definitions s t) (hs : scope < s.scopes.next) :
    Isolated scope node s t where
  others id hid hne := by rw [Scopes.bindings, h.frames id hid hne, Scopes.bindings]
  links id hid := by
    by_cases hne : id = scope
    · exact hne ▸ h.links hs
    · rw [Scopes.links, h.frames id hid hne, Scopes.links]
  bound key hk := by
    rcases h.binding hs key with he | hm
    · rwa [he]
    · exact hm.ne_none
  changed key hk := (h.binding hs key).resolve_left hk

/-- An evaluation changes the bindings of no scope but its own, and there only
those of the functions that the tree defines outside the bodies of let forms and
functions. A call changes no scope, and a let form whose values define nothing
changes no binding, whatever its body defines. -/
theorem scopes_isolated (fuel : Nat) :
    (∀ scope node s r t, scope < s.scopes.next →
      (Node.eval fuel scope node).outcome s = some (r, t) → Isolated scope node s t) ∧
    (∀ f args span site s r t,
      (Function.apply fuel f args span site).outcome s = some (r, t) →
      ∀ id < s.scopes.next, t.scopes.frames[id]? = s.scopes.frames[id]?) ∧
    (∀ scope bindings body span s r t, scope < s.scopes.next →
      (∀ b ∈ bindings, b.2.definitions = []) →
      (Node.eval fuel scope (.letIn bindings body span)).outcome s = some (r, t) →
      ∀ id < s.scopes.next, t.scopes.links id = s.scopes.links id ∧
        ∀ key, (t.scopes.bindings id).find? key = (s.scopes.bindings id).find? key) := by
  have heval (scope : ScopeId) (node : Node) := Node.follows_eval fuel scope node
  refine ⟨?_, ?_, ?_⟩
  · intro scope node s r t hs h
    exact (heval scope node s r t h).isolated hs
  · intro f args span site s r t h
    exact (f.follows_applyWith heval args span site s r t h).frames
  · intro scope bindings body span s r t hs hb h id hid
    have hi := (heval scope (.letIn bindings body span) s r t h).isolated hs
    refine ⟨hi.links id hid, fun key => ?_⟩
    by_cases hne : id = scope
    · subst hne
      refine Classical.byContradiction fun hk => ?_
      obtain ⟨d, hm, -⟩ := hi.changed key hk
      rw [Node.definitions, Node.definitionsBindings_eq_nil hb] at hm
      exact absurd hm List.not_mem_nil
    · rw [hi.others id hid hne]

/-- Of the two definitions in `(let ((x (fun f [a] a))) (fun g [] x))` only the
one in the value of the binding reaches the scope of the form. -/
theorem scopes_isolated_letIn :
    let f := Node.function "f" ["a"] (.symbol "a" ⟨19, 20⟩) ⟨9, 21⟩
    let g := Node.function "g" [] (.symbol "x" ⟨34, 35⟩) ⟨24, 36⟩
    let node := Node.letIn [("x", f)] g ⟨0, 37⟩
    ∃ v t, (Node.eval 3 0 node).outcome (.fresh none) = some (.ok v, t) ∧
      (t.scopes.bindings 0).keys = ["f"] ∧ (t.scopes.bindings 1).keys = ["g", "x"] ∧
      Isolated 0 node (.fresh none) t :=
  ⟨_, _, rfl, by decide, by decide, (scopes_isolated 3).1 0 _ (.fresh none) _ _ (by decide) rfl⟩

end SmallLisp
