import Mathlib.Logic.Function.Basic
import SmallLisp.Proofs.Bound
import SmallLisp.Proofs.Likeness.Evaluation

/-! Runs in which scopes and closures have other numbers. The number of a scope or
closure is the count of those before it, so it depends on what else was evaluated;
but a program sees no number. If the state of one run is that of another with its
scopes and closures renumbered, then both do the same from there on, and so it
stays: what they create next is renumbered alike. -/

namespace SmallLisp

/-- Other numbers for scopes and closures, different ones for different numbers. -/
structure Renumbering where
  scope : ScopeId → ScopeId
  closure : Nat → Nat
  scope_injective : Function.Injective scope
  closure_injective : Function.Injective closure

namespace Renumbering

/-- No change. -/
def refl : Renumbering := ⟨id, id, Function.injective_id, Function.injective_id⟩

/-- One renumbering after another. -/
def trans (ρ σ : Renumbering) : Renumbering where
  scope := σ.scope ∘ ρ.scope
  closure := σ.closure ∘ ρ.closure
  scope_injective := σ.scope_injective.comp ρ.scope_injective
  closure_injective := σ.closure_injective.comp ρ.closure_injective

/-- Every number is the new number of one that there was. -/
structure Onto (ρ : Renumbering) : Prop where
  scope : Function.Surjective ρ.scope
  closure : Function.Surjective ρ.closure

/-- Everything that exists in the state keeps its number. -/
structure Fixes (ρ : Renumbering) (s : State) : Prop where
  scope : ∀ id < s.scopes.next, ρ.scope id = id
  closure : ∀ id < s.closures, ρ.closure id = id

/-- The numbers that there were, if every number is a new one. -/
noncomputable def symm (ρ : Renumbering) (h : ρ.Onto) : Renumbering :=
  ⟨Function.surjInv h.scope, Function.surjInv h.closure, Function.injective_surjInv h.scope,
    Function.injective_surjInv h.closure⟩

variable {ρ σ : Renumbering} {s t : State}

theorem onto_refl : refl.Onto := ⟨Function.surjective_id, Function.surjective_id⟩

theorem Onto.trans (h : ρ.Onto) (k : σ.Onto) : (ρ.trans σ).Onto :=
  ⟨k.scope.comp h.scope, k.closure.comp h.closure⟩

section Symm

variable (h : ρ.Onto)

theorem scope_symm (id : ScopeId) : (ρ.symm h).scope (ρ.scope id) = id :=
  Function.leftInverse_surjInv ⟨ρ.scope_injective, h.scope⟩ id

theorem closure_symm (id : Nat) : (ρ.symm h).closure (ρ.closure id) = id :=
  Function.leftInverse_surjInv ⟨ρ.closure_injective, h.closure⟩ id

theorem onto_symm : (ρ.symm h).Onto where
  scope id := ⟨ρ.scope id, scope_symm h id⟩
  closure id := ⟨ρ.closure id, closure_symm h id⟩

theorem Fixes.symm (hs : ρ.Fixes s) : (ρ.symm h).Fixes s where
  scope id hid := (congrArg _ (hs.scope id hid)).symm.trans (scope_symm h id)
  closure id hid := (congrArg _ (hs.closure id hid)).symm.trans (closure_symm h id)

end Symm

theorem fixes_refl (s : State) : refl.Fixes s := ⟨fun _ _ => rfl, fun _ _ => rfl⟩

theorem Fixes.trans (h : ρ.Fixes s) (k : σ.Fixes s) : (ρ.trans σ).Fixes s where
  scope id hid := (congrArg σ.scope (h.scope id hid)).trans (k.scope id hid)
  closure id hid := (congrArg σ.closure (h.closure id hid)).trans (k.closure id hid)

/-- What is fixed later was fixed before. -/
theorem Fixes.of_le (h : ρ.Fixes t) (hscopes : s.scopes.next ≤ t.scopes.next)
    (hclosures : s.closures ≤ t.closures) : ρ.Fixes s where
  scope id hid := h.scope id (Nat.lt_of_lt_of_le hid hscopes)
  closure id hid := h.closure id (Nat.lt_of_lt_of_le hid hclosures)

end Renumbering

variable {ρ σ : Renumbering}

/-! ### Values -/

/-- The same closure with its numbers changed. -/
structure Closure.Renumbered (ρ : Renumbering) (c d : Closure) : Prop where
  name_eq : c.name = d.name
  params_eq : c.params = d.params
  body_eq : c.body = d.body
  id_eq : ρ.closure c.id = d.id
  scope_eq : ρ.scope c.scope = d.scope

theorem Closure.Renumbered.trans {c d e : Closure} (h : c.Renumbered ρ d) (k : d.Renumbered σ e) :
    c.Renumbered (ρ.trans σ) e where
  name_eq := h.name_eq.trans k.name_eq
  params_eq := h.params_eq.trans k.params_eq
  body_eq := h.body_eq.trans k.body_eq
  id_eq := (congrArg σ.closure h.id_eq).trans k.id_eq
  scope_eq := (congrArg σ.scope h.scope_eq).trans k.scope_eq

/-- The same value with the numbers of its closures changed. -/
abbrev Value.Renumbered (ρ : Renumbering) : Value → Value → Prop := Value.Rel (Closure.Renumbered ρ)

section Closures

variable {R S T : Closure → Closure → Prop} {P : Closure → Prop} {v w x : Value}

/-- What holds of the closures in a value may be used where the value is compared. -/
theorem Value.Rel.and_left (h : v.Rel R w) (hP : ∀ c ∈ v.closures, P c) :
    v.Rel (fun c d => P c ∧ R c d) w := by
  revert hP
  refine induction (P := fun v w => (∀ c ∈ v.closures, P c) → v.Rel (fun c d => P c ∧ R c d) w)
    (fun s _ => .string s) (fun x _ => .number x) (fun b _ => .boolean b) (fun f g hf hP => ?_)
    (fun vs ws hv hP => .list ?_) h
  · cases hf with
    | primitive p => exact .function (.primitive p)
    | @closure c d hc => exact .function (.closure ⟨hP c (List.mem_singleton_self c), hc⟩)
  · induction hv with
    | nil => exact .nil
    | cons hv _ ih =>
      obtain ⟨hfirst, hrest⟩ := List.forall_mem_append.1 hP
      exact .cons (hv hfirst) (ih hrest)

theorem Value.Rel.imp (h : v.Rel R w) (hRS : ∀ c d, R c d → S c d) : v.Rel S w := by
  refine induction (P := fun v w => v.Rel S w) .string .number .boolean (fun f g hf => ?_)
    (fun vs ws hv => .list hv) h
  cases hf with
  | primitive p => exact .function (.primitive p)
  | closure hc => exact .function (.closure (hRS _ _ hc))

theorem Value.Rel.trans (h : v.Rel R w) (k : w.Rel S x) (hRS : ∀ c d e, R c d → S d e → T c e) :
    v.Rel T x := by
  revert x
  refine induction (P := fun v w => ∀ {x : Value}, w.Rel S x → v.Rel T x) ?string ?number ?boolean
    ?function ?list h
  case string | number | boolean =>
    intro a x k
    cases k
    constructor
  case function =>
    intro f g hf x k
    cases k with
    | function hg =>
      cases hf with
      | primitive p =>
        cases hg
        exact .function (.primitive p)
      | closure hc =>
        cases hg with
        | closure hd => exact .function (.closure (hRS _ _ _ hc hd))
  case list =>
    intro vs ws hv x k
    cases k with
    | @list ws xs hw =>
      refine .list ?_
      induction hv generalizing xs with
      | nil =>
        cases hw
        exact .nil
      | cons hv _ ih =>
        cases hw with
        | cons hw hws => exact .cons (hv hw) (ih hws)

/-- A value is related to itself if its closures are. -/
theorem Value.rel_self (v : Value) (h : ∀ c ∈ v.closures, R c c) : v.Rel R v :=
  ((Value.rel_refl (R := Eq) (fun _ => rfl) v).and_left h).imp fun _ _ hc => hc.2 ▸ hc.1

end Closures

/-- All closures in the value exist in the state, and so do their scopes. -/
def Value.Within (s : State) (v : Value) : Prop :=
  ∀ c ∈ v.closures, c.scope < s.scopes.next ∧ c.id < s.closures

theorem optionRel_trans {α β γ : Type} {R : α → β → Prop} {S : β → γ → Prop} {T : α → γ → Prop}
    {a : Option α} {b : Option β} {c : Option γ} (h : Option.Rel R a b) (k : Option.Rel S b c)
    (hRS : ∀ x y z, R x y → S y z → T x z) : Option.Rel T a c := by
  cases h with
  | none =>
    cases k
    exact .none
  | some h =>
    cases k with
    | some k => exact .some (hRS _ _ _ h k)

/-! ### States -/

/-- The same frame with the numbers changed. The new numbers of its links tell the
older scopes from others. -/
structure Frame.Renumbered (ρ : Renumbering) (id : ScopeId) (f g : Frame) : Prop where
  outer_eq : f.outer.map ρ.scope = g.outer
  caller_eq : f.caller.map ρ.scope = g.caller
  older_iff : ∀ o, f.outer = some o ∨ f.caller = some o → (ρ.scope o < ρ.scope id ↔ o < id)
  bindings : f.bindings.RelOn EveryKey (Value.Renumbered ρ) g.bindings

/-- The same state with the numbers changed, also the numbers of what is created
next. There may be other scopes in the second. -/
structure State.Renumbered (ρ : Renumbering) (s t : State) : Prop where
  frames : ∀ id, Option.Rel (Frame.Renumbered ρ id) s.scopes.frames[id]?
    t.scopes.frames[ρ.scope id]?
  next : ∀ k, ρ.scope (s.scopes.next + k) = t.scopes.next + k
  closures : ∀ k, ρ.closure (s.closures + k) = t.closures + k
  sink_eq : s.sink = t.sink

namespace State.Renumbered

variable {s t : State} (h : s.Renumbered ρ t)
include h

theorem links (id : ScopeId) : t.scopes.links (ρ.scope id) =
    (s.scopes.links id).map fun l => (l.1.map ρ.scope, l.2.map ρ.scope) := by
  have hid := h.frames id
  rw [Scopes.links, Scopes.links]
  generalize s.scopes.frames[id]? = f at hid ⊢
  generalize t.scopes.frames[ρ.scope id]? = g at hid ⊢
  cases hid with
  | none => rfl
  | some hf => exact congrArg some (Prod.ext hf.outer_eq.symm hf.caller_eq.symm)

theorem older_iff {id o : ScopeId} {l : Option ScopeId × Option ScopeId}
    (hl : s.scopes.links id = some l) (ho : l.1 = some o ∨ l.2 = some o) :
    ρ.scope o < ρ.scope id ↔ o < id := by
  have hid := h.frames id
  rw [Scopes.links] at hl
  generalize s.scopes.frames[id]? = f at hid hl
  generalize t.scopes.frames[ρ.scope id]? = g at hid
  cases hid with
  | none => cases hl
  | some hf =>
    cases hl
    exact hf.older_iff o ho

theorem bindings (id : ScopeId) : (s.scopes.bindings id).RelOn EveryKey (Value.Renumbered ρ)
    (t.scopes.bindings (ρ.scope id)) := by
  have hid := h.frames id
  rw [Scopes.bindings, Scopes.bindings]
  generalize s.scopes.frames[id]? = f at hid ⊢
  generalize t.scopes.frames[ρ.scope id]? = g at hid ⊢
  cases hid with
  | none => exact Bindings.relOn_empty
  | some hf => exact hf.bindings

theorem lt_next_iff (id : ScopeId) : ρ.scope id < t.scopes.next ↔ id < s.scopes.next := by
  constructor
  · intro hlt
    refine Nat.lt_of_not_le fun hle => ?_
    obtain ⟨k, rfl⟩ := Nat.exists_eq_add_of_le hle
    rw [h.next k] at hlt
    exact absurd hlt (Nat.not_lt.2 (Nat.le_add_right _ k))
  · intro hlt
    refine Nat.lt_of_not_le fun hle => ?_
    obtain ⟨k, hk⟩ := Nat.exists_eq_add_of_le hle
    obtain rfl := ρ.scope_injective (hk.trans (h.next k).symm)
    exact absurd hlt (Nat.not_lt.2 (Nat.le_add_right _ k))

theorem find? (id : ScopeId) (key : String) :
    Option.Rel (Value.Renumbered ρ) (s.scopes.find? id key) (t.scopes.find? (ρ.scope id) key) := by
  induction id using Nat.strongRecOn with
  | ind id ih =>
    have link (o : Option ScopeId) (ho : ∀ p, o = some p → (ρ.scope p < ρ.scope id ↔ p < id)) :
        Option.Rel (Value.Renumbered ρ) (s.scopes.linked? id o key)
          (t.scopes.linked? (ρ.scope id) (o.map ρ.scope) key) := by
      cases o with
      | none => exact .none
      | some p =>
        by_cases hlt : p < id
        · rw [Scopes.linked?_of_lt hlt, Option.map_some, Scopes.linked?_of_lt ((ho p rfl).2 hlt)]
          exact ih p hlt
        · have hlt' : ¬ρ.scope p < ρ.scope id := fun hp => hlt ((ho p rfl).1 hp)
          simp only [Scopes.linked?, Scopes.older, Option.map_some, Option.bind_some, dif_neg hlt,
            dif_neg hlt', Option.bind_none]
          exact .none
    have hid := h.frames id
    rw [Scopes.find?, Scopes.find?]
    generalize s.scopes.frames[id]? = f at hid ⊢
    generalize t.scopes.frames[ρ.scope id]? = g at hid ⊢
    cases hid with
    | none => exact .none
    | @some f g hf =>
      dsimp only
      rw [← hf.outer_eq, ← hf.caller_eq]
      exact optionRel_orElse (hf.bindings key trivial)
        (optionRel_orElse (link f.outer fun p hp => hf.older_iff p (.inl hp))
          (link f.caller fun p hp => hf.older_iff p (.inr hp)))

theorem resolve? (id : ScopeId) (name : String) :
    Option.Rel (Value.Renumbered ρ) (s.scopes.resolve? id name)
      (t.scopes.resolve? (ρ.scope id) name) := by
  rw [Scopes.resolve?, Scopes.resolve?]
  refine optionRel_orElse (h.find? id _) ?_
  cases Primitive.ofName? (Text.lowercase name) with
  | none => exact .none
  | some p => exact .some (.function (.primitive p))

theorem define (id : ScopeId) (name : String) {v w : Value} (hv : v.Renumbered ρ w) :
    { s with scopes := s.scopes.define id name v }.Renumbered ρ
      { t with scopes := t.scopes.define (ρ.scope id) name w } where
  frames i := by
    have hi := h.frames i
    dsimp only
    rw [Scopes.define, Scopes.define, Array.getElem?_modify, Array.getElem?_modify]
    by_cases hid : id = i
    · subst hid
      rw [if_pos rfl, if_pos rfl]
      generalize s.scopes.frames[id]? = f at hi ⊢
      generalize t.scopes.frames[ρ.scope id]? = g at hi ⊢
      cases hi with
      | none => exact .none
      | some hf =>
        exact .some ⟨hf.outer_eq, hf.caller_eq, hf.older_iff, hf.bindings.define rfl hv⟩
    · rw [if_neg hid, if_neg (ρ.scope_injective.ne hid)]
      exact hi
  next k := by
    rw [Scopes.next_define, Scopes.next_define]
    exact h.next k
  closures := h.closures
  sink_eq := h.sink_eq

/-- A new scope on both sides. -/
theorem create (outer caller : Option ScopeId) {b c : Bindings}
    (hb : b.RelOn EveryKey (Value.Renumbered ρ) c) :
    { s with scopes := s.scopes.create ⟨outer, caller, b⟩ }.Renumbered ρ
      { t with scopes := t.scopes.create ⟨outer.map ρ.scope, caller.map ρ.scope, c⟩ } where
  frames i := by
    have hnew : ρ.scope s.scopes.frames.size = t.scopes.frames.size := h.next 0
    dsimp only
    rw [Scopes.create, Scopes.create, Array.getElem?_push, Array.getElem?_push]
    by_cases hi : i = s.scopes.frames.size
    · subst hi
      rw [if_pos rfl, if_pos hnew]
      refine .some ⟨rfl, rfl, fun o _ => ?_, hb⟩
      rw [hnew]
      exact h.lt_next_iff o
    · rw [if_neg hi, if_neg (hnew ▸ ρ.scope_injective.ne hi)]
      exact h.frames i
  next k := by
    rw [Scopes.next_create, Scopes.next_create, Nat.add_assoc, Nat.add_assoc]
    exact h.next (1 + k)
  closures := h.closures
  sink_eq := h.sink_eq

end State.Renumbered

/-- Frames are renumbered if their links and bindings are. -/
theorem Scopes.renumbered_of_links {s t : Scopes} {id : ScopeId}
    (hlinks : t.links (ρ.scope id) =
      (s.links id).map fun l => (l.1.map ρ.scope, l.2.map ρ.scope))
    (holder : ∀ l o, s.links id = some l → l.1 = some o ∨ l.2 = some o →
      (ρ.scope o < ρ.scope id ↔ o < id))
    (hbindings : (s.bindings id).RelOn EveryKey (Value.Renumbered ρ) (t.bindings (ρ.scope id))) :
    Option.Rel (Frame.Renumbered ρ id) s.frames[id]? t.frames[ρ.scope id]? := by
  rw [links, links] at hlinks
  rw [links] at holder
  rw [bindings, bindings] at hbindings
  generalize s.frames[id]? = f at hlinks holder hbindings ⊢
  generalize t.frames[ρ.scope id]? = g at hlinks hbindings ⊢
  cases f with
  | none =>
    cases g with
    | none => exact .none
    | some g => cases hlinks
  | some f =>
    cases g with
    | none => cases hlinks
    | some g =>
      obtain ⟨houter, hcaller⟩ := Prod.mk.inj (Option.some.inj hlinks)
      exact .some ⟨houter.symm, hcaller.symm, fun o ho => holder _ o rfl ho, hbindings⟩

theorem State.Renumbered.refl (s : State) : s.Renumbered .refl s where
  frames _ := optionRel_refl (fun _ => ⟨congrFun Option.map_id _, congrFun Option.map_id _,
    fun _ _ => .rfl,
    fun _ _ => optionRel_refl (Value.rel_refl fun _ => ⟨rfl, rfl, rfl, rfl, rfl⟩) _⟩) _
  next _ := rfl
  closures _ := rfl
  sink_eq := rfl

theorem Value.Rel.renumbered_trans {v w x : Value} (h : v.Renumbered ρ w) (k : w.Renumbered σ x) :
    v.Renumbered (ρ.trans σ) x :=
  h.trans k fun _ _ _ => Closure.Renumbered.trans

theorem State.Renumbered.trans {s t u : State} (h : s.Renumbered ρ t) (k : t.Renumbered σ u) :
    s.Renumbered (ρ.trans σ) u where
  frames id := by
    refine Scopes.renumbered_of_links ?_ (fun l o hl ho => ?_) fun key _ => ?_
    · show u.scopes.links (σ.scope (ρ.scope id)) = _
      rw [k.links, h.links, Option.map_map]
      simp only [Function.comp_def, Option.map_map]
      rfl
    · have hl' := h.links id
      rw [hl, Option.map_some] at hl'
      refine (k.older_iff hl' ?_).trans (h.older_iff hl ho)
      exact ho.imp (congrArg (Option.map ρ.scope)) (congrArg (Option.map ρ.scope))
    · exact optionRel_trans (h.bindings id key trivial) (k.bindings (ρ.scope id) key trivial)
        fun _ _ _ => Value.Rel.renumbered_trans
  next n := (congrArg σ.scope (h.next n)).trans (k.next n)
  closures n := (congrArg σ.closure (h.closures n)).trans (k.closures n)
  sink_eq := h.sink_eq.trans k.sink_eq

theorem Frame.Renumbered.symm {id : ScopeId} {f g : Frame} (h : ρ.Onto)
    (hfg : f.Renumbered ρ id g) : g.Renumbered (ρ.symm h) (ρ.scope id) f := by
  have hback (o : Option ScopeId) : (o.map ρ.scope).map (ρ.symm h).scope = o := by
    simp only [Option.map_map, Function.comp_def, Renumbering.scope_symm, Option.map_id']
  refine ⟨hfg.outer_eq ▸ hback f.outer, hfg.caller_eq ▸ hback f.caller, fun o ho => ?_,
    fun key _ => ?_⟩
  · rw [← hfg.outer_eq, ← hfg.caller_eq, Option.map_eq_some_iff, Option.map_eq_some_iff] at ho
    obtain ⟨p, hp, rfl⟩ : ∃ p, (f.outer = some p ∨ f.caller = some p) ∧ ρ.scope p = o :=
      ho.elim (fun ⟨p, hp, ho⟩ => ⟨p, .inl hp, ho⟩) fun ⟨p, hp, ho⟩ => ⟨p, .inr hp, ho⟩
    rw [Renumbering.scope_symm, Renumbering.scope_symm]
    exact (hfg.older_iff p hp).symm
  · exact optionRel_symm (hfg.bindings key trivial) fun _ _ hv => hv.symm fun _ _ hc =>
      ⟨hc.name_eq.symm, hc.params_eq.symm, hc.body_eq.symm,
        hc.id_eq ▸ Renumbering.closure_symm h _, hc.scope_eq ▸ Renumbering.scope_symm h _⟩

theorem State.Renumbered.symm {s t : State} (h : ρ.Onto) (hst : s.Renumbered ρ t) :
    t.Renumbered (ρ.symm h) s where
  frames id := by
    obtain ⟨id, rfl⟩ := h.scope id
    rw [Renumbering.scope_symm]
    exact optionRel_symm (hst.frames id) fun _ _ hf => hf.symm h
  next k := by
    rw [← hst.next k]
    exact Renumbering.scope_symm h _
  closures k := by
    rw [← hst.closures k]
    exact Renumbering.closure_symm h _
  sink_eq := hst.sink_eq.symm

/-- Things stand for what they are with other numbers. -/
def Correspondence.renumbered (ρ : Renumbering) : Correspondence where
  toLikeness := .ofSpans Eq
  tree := Eq
  scope i j := ρ.scope i = j
  closure := Closure.Renumbered ρ
  state := State.Renumbered ρ
  layer := Node.layer_of_eq
  closure_name h := h.name_eq
  closure_params h := h.params_eq ▸ List.forall₂_same.2 fun _ _ => rfl
  closure_body h := h.body_eq
  closure_scope h := h.scope_eq
  resolve? := by
    rintro s t i _ f g p q h rfl hx
    cases hx
    exact h.resolve? i f
  close := by
    rintro s t i _ f g ps qs x y p q h rfl hx
    cases hx
    refine ⟨⟨rfl, rfl, rfl, h.closures 0, rfl⟩, h.frames, h.next, fun k => ?_, h.sink_eq⟩
    rw [Nat.add_assoc, Nat.add_assoc]
    exact h.closures (1 + k)
  define := by
    rintro s t i _ f _ v w h rfl rfl hv
    exact h.define i f hv
  enter := by
    intro s t o o' c c' fs gs vs ws h ho hc hn hv
    obtain rfl : o.map ρ.scope = o' := by
      simpa using optionRel_map_eq (g := id) ho fun _ _ h => h
    obtain rfl : c.map ρ.scope = c' := by
      simpa using optionRel_map_eq (g := id) hc fun _ _ h => h
    refine ⟨h.next 0, h.create o c ?_⟩
    exact Bindings.relOn_empty.foldl_define (fun _ _ => congrArg Text.lowercase) hn hv
  log d e h := ⟨h.frames, h.next, h.closures, h.sink_eq⟩
  sink_eq h := h.sink_eq
  write _ h := ⟨h.frames, h.next, h.closures, rfl⟩

end SmallLisp
