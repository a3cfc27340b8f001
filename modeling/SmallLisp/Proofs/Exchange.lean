import Mathlib.Tactic.SplitIfs
import SmallLisp.Proofs.Correspondence.Renumbering
import SmallLisp.Proofs.Fuel
import SmallLisp.Proofs.Growth

/-! Evaluations in exchanged order. A tree that defines nothing outside the bodies of
let forms and functions leaves all that exists as it was, so what is evaluated after
it finds the same as before, only with room in between. Two such trees may therefore
change places: what the first creates and what the second creates change places
with them, and that is all. -/

namespace SmallLisp

/-! ### Numbers -/

/-- From `n` on the numbers make room for `a` others. -/
def shiftFrom (n a i : Nat) : Nat := if i < n then i else i + a

/-- From `n` on there come `a` numbers and then `b`, which change places. -/
def exchangeFrom (n a b i : Nat) : Nat :=
  if i < n then i else if i < n + a then i + b else if i < n + a + b then i - a else i

section Numbers

variable {n a b i : Nat}

theorem shiftFrom_of_lt (h : i < n) : shiftFrom n a i = i := if_pos h

theorem shiftFrom_of_le (h : n ≤ i) : shiftFrom n a i = i + a := if_neg (Nat.not_lt.2 h)

theorem shiftFrom_injective (n a : Nat) : Function.Injective (shiftFrom n a) := by
  intro i j h
  unfold shiftFrom at h
  split_ifs at h <;> omega

theorem exchangeFrom_of_lt (h : i < n + a) : exchangeFrom n a b i = shiftFrom n b i := by
  unfold exchangeFrom shiftFrom
  split_ifs <;> omega

theorem exchangeFrom_of_le (h : n + a + b ≤ i) : exchangeFrom n a b i = i := by
  unfold exchangeFrom
  split_ifs <;> omega

theorem exchangeFrom_shiftFrom (h : i < n + b) : exchangeFrom n a b (shiftFrom n a i) = i := by
  unfold exchangeFrom shiftFrom
  split_ifs <;> omega

theorem exchangeFrom_exchangeFrom (n a b i : Nat) :
    exchangeFrom n b a (exchangeFrom n a b i) = i := by
  unfold exchangeFrom
  split_ifs <;> omega

theorem exchangeFrom_zero (n a i : Nat) : exchangeFrom n a 0 i = i := by
  unfold exchangeFrom
  split_ifs <;> omega

theorem ne_shiftFrom_one (n i : Nat) : n ≠ shiftFrom n 1 i := by
  unfold shiftFrom
  split_ifs <;> omega

theorem exchangeFrom_last (n a : Nat) : exchangeFrom n a 1 (n + a) = n := by
  unfold exchangeFrom
  split_ifs <;> omega

theorem exists_shiftFrom (h : n + a ≤ i) (h' : i < n + a + b) :
    ∃ j < n + b, shiftFrom n a j = i := by
  refine ⟨i - a, by omega, ?_⟩
  rw [shiftFrom_of_le (by omega), Nat.sub_add_cancel (by omega)]

end Numbers

namespace Renumbering

/-- Room for `a` scopes from `n` on, and for `c` closures from `m` on. -/
def shift (n a m c : Nat) : Renumbering :=
  ⟨shiftFrom n a, shiftFrom m c, shiftFrom_injective n a, shiftFrom_injective m c⟩

/-- From `n` on `a` scopes change places with `b`, and from `m` on `c` closures with `d`. -/
def exchange (n a b m c d : Nat) : Renumbering where
  scope := exchangeFrom n a b
  closure := exchangeFrom m c d
  scope_injective := Function.LeftInverse.injective (exchangeFrom_exchangeFrom n a b)
  closure_injective := Function.LeftInverse.injective (exchangeFrom_exchangeFrom m c d)

theorem onto_exchange (n a b m c d : Nat) : (exchange n a b m c d).Onto where
  scope i := ⟨_, exchangeFrom_exchangeFrom n b a i⟩
  closure i := ⟨_, exchangeFrom_exchangeFrom m d c i⟩

theorem fixes_shift (s : State) (a c : Nat) : (shift s.scopes.next a s.closures c).Fixes s :=
  ⟨fun _ => shiftFrom_of_lt, fun _ => shiftFrom_of_lt⟩

theorem fixes_exchange (s : State) (a b c d : Nat) :
    (exchange s.scopes.next a b s.closures c d).Fixes s where
  scope _ h := (exchangeFrom_of_lt (Nat.lt_add_right a h)).trans (shiftFrom_of_lt h)
  closure _ h := (exchangeFrom_of_lt (Nat.lt_add_right c h)).trans (shiftFrom_of_lt h)

theorem closure_shift_zero (n a m : Nat) : (shift n a m 0).closure = id :=
  funext fun _ => ite_self _

theorem closure_exchange_zero (n a b m c : Nat) : (exchange n a b m c 0).closure = id :=
  funext fun _ => exchangeFrom_zero ..

/-- Everything that exists in the state gets the same new numbers. -/
structure Agrees (ρ σ : Renumbering) (s : State) : Prop where
  scope : ∀ id < s.scopes.next, ρ.scope id = σ.scope id
  closure : ∀ id < s.closures, ρ.closure id = σ.closure id

/-- Everything that exists in the state gets its old number back. -/
structure Undoes (σ ρ : Renumbering) (s : State) : Prop where
  scope : ∀ id < s.scopes.next, σ.scope (ρ.scope id) = id
  closure : ∀ id < s.closures, σ.closure (ρ.closure id) = id

end Renumbering

section Values

variable {ρ σ : Renumbering} {s : State} {v w : Value}

theorem Value.Rel.renumbered_of_agrees (h : v.Renumbered ρ w) (hv : v.Within s)
    (hρ : ρ.Agrees σ s) : v.Renumbered σ w :=
  (h.and_left hv).imp fun _ _ ⟨hlt, hc⟩ => ⟨hc.name_eq, hc.params_eq, hc.body_eq,
    (hρ.closure _ hlt.2).symm.trans hc.id_eq, (hρ.scope _ hlt.1).symm.trans hc.scope_eq⟩

theorem Value.Rel.renumbered_of_undoes (h : v.Renumbered ρ w) (hv : v.Within s)
    (hσ : σ.Undoes ρ s) : w.Renumbered σ v :=
  (h.and_left hv).symm fun _ _ ⟨hlt, hc⟩ => ⟨hc.name_eq.symm, hc.params_eq.symm, hc.body_eq.symm,
    hc.id_eq ▸ hσ.closure _ hlt.2, hc.scope_eq ▸ hσ.scope _ hlt.1⟩

theorem Value.Rel.eq_of_fixed (h : v.Renumbered ρ w)
    (hv : ∀ c ∈ v.closures, ρ.closure c.id = c.id ∧ ρ.scope c.scope = c.scope) : v = w := by
  refine (h.and_left hv).eq fun c d ⟨hfixed, hc⟩ => ?_
  have hid : c.id = d.id := hfixed.1.symm.trans hc.id_eq
  have hscope : c.scope = d.scope := hfixed.2.symm.trans hc.scope_eq
  cases c
  cases d
  exact Closure.mk.injEq .. ▸ ⟨hid, hc.name_eq, hc.params_eq, hc.body_eq, hscope⟩

theorem Value.Within.renumbered_self (hv : v.Within s) (hρ : ρ.Fixes s) : v.Renumbered ρ v :=
  v.rel_self fun c hc => ⟨rfl, rfl, rfl, hρ.closure _ (hv c hc).2, hρ.scope _ (hv c hc).1⟩

theorem Value.Within.mono {t : State} (hv : v.Within s) (hscopes : s.scopes.next ≤ t.scopes.next)
    (hclosures : s.closures ≤ t.closures) : v.Within t := fun c hc =>
  ⟨Nat.lt_of_lt_of_le (hv c hc).1 hscopes, Nat.lt_of_lt_of_le (hv c hc).2 hclosures⟩

end Values

/-! ### States -/

/-- What exists in the first state exists in the second with the same links and
bindings. -/
structure State.Extends (s t : State) : Prop where
  next_le : s.scopes.next ≤ t.scopes.next
  closures_le : s.closures ≤ t.closures
  links : ∀ id < s.scopes.next, t.scopes.links id = s.scopes.links id
  bindings : ∀ id < s.scopes.next, ∀ key,
    (t.scopes.bindings id).find? key = (s.scopes.bindings id).find? key

/-- Links lead to older scopes, and all closures that are bound have been made. -/
structure State.Orderly (s : State) : Prop where
  ordered : s.scopes.Ordered
  made : ∃ made, s.Made made

section

variable {s t u : State} {scope : ScopeId} {x : Node} {r : Except EvalError Value}

namespace State.Extends

theorem refl (s : State) : s.Extends s :=
  ⟨Nat.le_refl _, Nat.le_refl _, fun _ _ => rfl, fun _ _ _ => rfl⟩

theorem log (s : State) (e : Event) : s.Extends (s.log e) :=
  ⟨Nat.le_refl _, Nat.le_refl _, fun _ _ => rfl, fun _ _ _ => rfl⟩

theorem entered (s : State) (outer caller : Option ScopeId) (pairs : List (String × Value)) :
    s.Extends (s.entered outer caller pairs) where
  next_le := Nat.le_of_lt State.next_lt_entered
  closures_le := Nat.le_refl _
  links id hid := by
    rw [State.entered, Scopes.links, Scopes.frames_create_of_lt hid, Scopes.links]
  bindings id hid key := by
    rw [State.entered, Scopes.bindings, Scopes.frames_create_of_lt hid, Scopes.bindings]

/-- Evaluation of a tree that defines nothing. -/
theorem of_ends (hx : x.definitions = []) (hscope : scope < s.scopes.next)
    (h : x.Ends scope s r t) : s.Extends t := by
  obtain ⟨fuel, h⟩ := h
  have k := Node.follows_eval fuel scope x s r t h
  rw [hx] at k
  refine ⟨k.next_le, k.closures_le, fun id hid => ?_, fun id hid key => ?_⟩
  · by_cases hne : id = scope
    · exact hne ▸ k.links hscope
    · rw [Scopes.links, k.frames id hid hne, Scopes.links]
  · by_cases hne : id = scope
    · rcases k.binding hscope key with hb | ⟨d, hd, -⟩
      · rw [hne, hb]
      · exact absurd hd List.not_mem_nil
    · rw [Scopes.bindings, k.frames id hid hne, Scopes.bindings]

end State.Extends

theorem State.Made.within {made : List Closure} {v : Value} (hs : s.Made made)
    (hv : v.Made made) : v.Within s := by
  intro c hc
  have hid := hv c hc
  exact ⟨hs.scope c (List.mem_of_getElem? hid), hs.count ▸ (List.getElem?_eq_some_iff.1 hid).1⟩

namespace State.Orderly

theorem within (hs : s.Orderly) {id : ScopeId} {key : String} {v : Value}
    (hv : (s.scopes.bindings id).find? key = some v) : v.Within s := by
  obtain ⟨made, hmade⟩ := hs.made
  exact hmade.within (hmade.bound id key v hv)

theorem log (hs : s.Orderly) (e : Event) : (s.log e).Orderly :=
  ⟨hs.ordered, hs.made.imp fun _ h => (Growth.log h e).made⟩

theorem of_ends (hs : s.Orderly) (hscope : scope < s.scopes.next) (h : x.Ends scope s r t) :
    t.Orderly ∧ ∀ v, r = .ok v → v.Within t := by
  obtain ⟨made, hmade⟩ := hs.made
  obtain ⟨fuel, h⟩ := h
  obtain ⟨later, hst, hv⟩ := Node.grows_eval fuel x hmade hscope r t h
  exact ⟨⟨hst.scopes.ordered hs.ordered, later, hst.made⟩, fun v hr => hst.made.within (hv v hr)⟩

/-- What is bound in the scopes that there were are closures of these scopes, also when
it has been bound since. -/
theorem scope_lt_of_ends (hs : s.Orderly) (hscope : scope < s.scopes.next)
    (h : x.Ends scope s r t) {id : ScopeId} (hid : id < s.scopes.next) {key : String} {v : Value}
    (hv : (t.scopes.bindings id).find? key = some v) :
    ∀ c ∈ v.closures, c.scope < s.scopes.next := by
  obtain ⟨fuel, h⟩ := h
  have hconfined := Node.follows_eval fuel scope x s r t h
  by_cases hne : id = scope
  · subst hne
    rcases hconfined.binding hscope key with hkey | ⟨_, _, _, _, _, _, hkey⟩
    · exact fun c hc => (hs.within (hkey ▸ hv) c hc).1
    · obtain rfl := Option.some.inj (hv.symm.trans hkey)
      intro c hc
      obtain rfl := List.mem_singleton.1 hc
      exact hscope
  · rw [Scopes.bindings, hconfined.frames id hid hne] at hv
    exact fun c hc => (hs.within hv c hc).1

theorem older (hs : s.Orderly) {id o : ScopeId} {l : Option ScopeId × Option ScopeId}
    (hl : s.scopes.links id = some l) (ho : l.1 = some o ∨ l.2 = some o) : o < id :=
  hs.ordered id l.1 l.2 hl o ho

end State.Orderly

end

/-! ### Reachable states -/

/-- The state comes about in a session, between its steps or at any moment of one. -/
def State.Reachable (s : State) : Prop :=
  ∃ sources S, Session.Reached sources S ∧ (s = S.state ∨ ∃ fuel action a b,
    S.Begins fuel action a ∧ Relation.ReflTransGen Activation.Starts a b ∧ s = b.state)

theorem State.Reachable.orderly {s : State} (h : s.Reachable) : s.Orderly := by
  obtain ⟨sources, S, hS, hs⟩ := h
  obtain ⟨made, hgrowth, hmade⟩ := hS.exists_made
  have hordered := hgrowth.scopes.ordered Scopes.ordered_empty
  obtain rfl | ⟨fuel, action, a, b, ha, hb, rfl⟩ := hs
  · exact ⟨hordered, made, hmade.state⟩
  · obtain ⟨later, hsa, hlt⟩ := ha.growth hmade fun _ _ hid => hS.known.scope_lt hid
    obtain ⟨latest, hab, -⟩ := Session.growth_of_starts hb hsa.made hlt
    exact ⟨(hsa.trans hab).scopes.ordered hordered, latest, hab.made⟩

/-! ### Renumbered states -/

section

variable {s t s₁ s₂ t₁ t₂ : State}

theorem mapLinks_congr {f g : ScopeId → ScopeId} {l : Option ScopeId × Option ScopeId}
    (h : ∀ o, l.1 = some o ∨ l.2 = some o → f o = g o) :
    (l.1.map f, l.2.map f) = (l.1.map g, l.2.map g) :=
  Prod.ext (Option.map_congr fun o ho => h o (.inl ho)) (Option.map_congr fun o ho => h o (.inr ho))

theorem mapLinks_eq_self {f : ScopeId → ScopeId} {l : Option ScopeId × Option ScopeId}
    (h : ∀ o, l.1 = some o ∨ l.2 = some o → f o = o) : (l.1.map f, l.2.map f) = l := by
  rw [mapLinks_congr h]
  simp only [Option.map_id']

theorem optionRel_imp_of_eq {α β : Type} {R S : α → β → Prop} {a : Option α} {b : Option β}
    (h : Option.Rel R a b) (hRS : ∀ x y, a = some x → R x y → S x y) : Option.Rel S a b := by
  cases h with
  | none => exact .none
  | some h => exact .some (hRS _ _ rfl h)

/-- What exists keeps its number, and what is created next gets out of the way of
what has been created since. -/
theorem State.Extends.renumbered (h : s.Extends t) (hs : s.Orderly) (hsink : s.sink = t.sink)
    {a c : Nat} (ha : t.scopes.next = s.scopes.next + a) (hc : t.closures = s.closures + c) :
    s.Renumbered (.shift s.scopes.next a s.closures c) t where
  frames id := by
    rcases Nat.lt_or_ge id s.scopes.next with hlt | hle
    · have hid : (Renumbering.shift s.scopes.next a s.closures c).scope id = id :=
        shiftFrom_of_lt hlt
      have hfixed (o : ScopeId) (ho : o < id) :
          (Renumbering.shift s.scopes.next a s.closures c).scope o = o :=
        shiftFrom_of_lt (Nat.lt_trans ho hlt)
      refine Scopes.renumbered_of_links ?_ (fun l o hl ho => ?_) fun key _ => ?_
      · rw [hid, h.links id hlt]
        cases hl : s.scopes.links id with
        | none => rfl
        | some l =>
          exact congrArg some (mapLinks_eq_self fun o ho => hfixed o (hs.older hl ho)).symm
      · rw [hid, hfixed o (hs.older hl ho)]
      · rw [hid, h.bindings id hlt key]
        cases hv : (s.scopes.bindings id).find? key with
        | none => exact .none
        | some v =>
          exact .some ((hs.within hv).renumbered_self (Renumbering.fixes_shift s a c))
    · have hid : (Renumbering.shift s.scopes.next a s.closures c).scope id = id + a :=
        shiftFrom_of_le hle
      rw [hid, Array.getElem?_eq_none hle,
        Array.getElem?_eq_none (Nat.le_trans (Nat.le_of_eq ha) (Nat.add_le_add_right hle a))]
      exact .none
  next k := by
    rw [ha, Nat.add_right_comm]
    exact shiftFrom_of_le (Nat.le_add_right _ _)
  closures k := by
    rw [hc, Nat.add_right_comm]
    exact shiftFrom_of_le (Nat.le_add_right _ _)
  sink_eq := hsink

namespace State.Renumbered

theorem next_of_shift {n a m c : Nat} (h : s.Renumbered (.shift n a m c) t)
    (hn : n ≤ s.scopes.next) : t.scopes.next = s.scopes.next + a :=
  (h.next 0).symm.trans (shiftFrom_of_le hn)

theorem closures_of_shift {n a m c : Nat} (h : s.Renumbered (.shift n a m c) t)
    (hm : m ≤ s.closures) : t.closures = s.closures + c :=
  (h.closures 0).symm.trans (shiftFrom_of_le hm)

/-- What stays as it is may be given the numbers that it was given before. -/
theorem frames_of_agrees {ρ σ : Renumbering} (h : s₁.Renumbered ρ t₂) (hs₁ : s₁.Orderly)
    (hs : s₁.Extends s₂) (hρ : ρ.Agrees σ s₁) {id : ScopeId} (hlt : id < s₁.scopes.next) :
    Option.Rel (Frame.Renumbered σ id) s₂.scopes.frames[id]? t₂.scopes.frames[σ.scope id]? := by
  have hid := hρ.scope id hlt
  refine Scopes.renumbered_of_links ?_ (fun l o hl ho => ?_) fun key _ => ?_
  · rw [← hid, h.links id, hs.links id hlt]
    cases hl : s₁.scopes.links id with
    | none => rfl
    | some l =>
      refine congrArg some (mapLinks_congr fun o ho => ?_)
      exact hρ.scope o (Nat.lt_trans (hs₁.older hl ho) hlt)
  · rw [hs.links id hlt] at hl
    rw [← hid, ← hρ.scope o (Nat.lt_trans (hs₁.older hl ho) hlt)]
    exact h.older_iff hl ho
  · rw [← hid, hs.bindings id hlt key]
    exact optionRel_imp_of_eq (h.bindings id key trivial) fun v w hv hw =>
      hw.renumbered_of_agrees (hs₁.within hv) hρ

/-- What stays as it is may be given its old numbers back. -/
theorem frames_of_undoes {ρ σ : Renumbering} (h : t₁.Renumbered ρ s₂) (ht₁ : t₁.Orderly)
    (ht : t₁.Extends t₂) (hσ : σ.Undoes ρ t₁) {j : ScopeId} (hj : j < t₁.scopes.next) :
    Option.Rel (Frame.Renumbered σ (ρ.scope j)) s₂.scopes.frames[ρ.scope j]?
      t₂.scopes.frames[σ.scope (ρ.scope j)]? := by
  have hlinks := h.links j
  refine Scopes.renumbered_of_links ?_ (fun l' o hl' ho => ?_) fun key _ => ?_
  · rw [hσ.scope j hj, ht.links j hj, hlinks]
    cases hl : t₁.scopes.links j with
    | none => rfl
    | some l =>
      simp only [Option.map_some, Option.map_map]
      exact congrArg some (mapLinks_eq_self fun o ho =>
        hσ.scope o (Nat.lt_trans (ht₁.older hl ho) hj)).symm
  · rw [hlinks] at hl'
    obtain ⟨l, hl, rfl⟩ := Option.map_eq_some_iff.1 hl'
    obtain ⟨p, hp, rfl⟩ : ∃ p, (l.1 = some p ∨ l.2 = some p) ∧ ρ.scope p = o := by
      rcases ho with ho | ho
      · obtain ⟨p, hp, ho⟩ := Option.map_eq_some_iff.1 ho
        exact ⟨p, .inl hp, ho⟩
      · obtain ⟨p, hp, ho⟩ := Option.map_eq_some_iff.1 ho
        exact ⟨p, .inr hp, ho⟩
    rw [hσ.scope j hj, hσ.scope p (Nat.lt_trans (ht₁.older hl hp) hj)]
    exact (h.older_iff hl hp).symm
  · rw [hσ.scope j hj, ht.bindings j hj key]
    have hkey := optionRel_imp_of_eq (h.bindings j key trivial) fun v w hv hw =>
      And.intro (ht₁.within hv) hw
    exact optionRel_symm hkey fun v w ⟨hv, hw⟩ => hw.renumbered_of_undoes hv hσ

/-- After `a` scopes and then `b` have been created it is as after `b` and then `a`, if
each come about as if the others were not there, and leave the others as they are. -/
theorem exchange {n a b m c d : Nat} (hs₁ : s₁.Orderly) (ht₁ : t₁.Orderly)
    (hs : s₁.Extends s₂) (ht : t₁.Extends t₂) (hs₁next : s₁.scopes.next = n + a)
    (ht₁next : t₁.scopes.next = n + b) (hs₁closures : s₁.closures = m + c)
    (ht₁closures : t₁.closures = m + d) (hst : s₁.Renumbered (.shift n b m d) t₂)
    (hts : t₁.Renumbered (.shift n a m c) s₂) (hsink : s₂.sink = t₂.sink) :
    (Renumbering.shift n b m d).Agrees (.exchange n a b m c d) s₁ ∧
      (Renumbering.exchange n a b m c d).Undoes (.shift n a m c) t₁ ∧
      s₂.Renumbered (.exchange n a b m c d) t₂ := by
  have hs₂next : s₂.scopes.next = n + a + b := by
    rw [hts.next_of_shift (ht₁next ▸ Nat.le_add_right n b), ht₁next, Nat.add_right_comm]
  have ht₂next : t₂.scopes.next = n + a + b := by
    rw [hst.next_of_shift (hs₁next ▸ Nat.le_add_right n a), hs₁next]
  have hs₂closures : s₂.closures = m + c + d := by
    rw [hts.closures_of_shift (ht₁closures ▸ Nat.le_add_right m d), ht₁closures, Nat.add_right_comm]
  have ht₂closures : t₂.closures = m + c + d := by
    rw [hst.closures_of_shift (hs₁closures ▸ Nat.le_add_right m c), hs₁closures]
  -- what was created first on the left is where it was put second on the right
  have hagrees : (Renumbering.shift n b m d).Agrees (.exchange n a b m c d) s₁ :=
    ⟨fun id hid => (exchangeFrom_of_lt (hs₁next ▸ hid)).symm,
      fun id hid => (exchangeFrom_of_lt (hs₁closures ▸ hid)).symm⟩
  -- and what was put second on the left is where it was created first on the right
  have hundoes : (Renumbering.exchange n a b m c d).Undoes (.shift n a m c) t₁ :=
    ⟨fun id hid => exchangeFrom_shiftFrom (ht₁next ▸ hid),
      fun id hid => exchangeFrom_shiftFrom (ht₁closures ▸ hid)⟩
  refine ⟨hagrees, hundoes, fun id => ?_, fun k => ?_, fun k => ?_, hsink⟩
  · rcases Nat.lt_or_ge id (n + a) with hlt | hle
    · exact hst.frames_of_agrees hs₁ hs hagrees (hs₁next ▸ hlt)
    rcases Nat.lt_or_ge id (n + a + b) with hlt | hle'
    · obtain ⟨j, hj, rfl⟩ := exists_shiftFrom hle hlt
      exact hts.frames_of_undoes ht₁ ht hundoes (ht₁next ▸ hj)
    · have hid : (Renumbering.exchange n a b m c d).scope id = id := exchangeFrom_of_le hle'
      rw [hid, Array.getElem?_eq_none (Nat.le_trans (Nat.le_of_eq hs₂next) hle'),
        Array.getElem?_eq_none (Nat.le_trans (Nat.le_of_eq ht₂next) hle')]
      exact .none
  · rw [hs₂next, ht₂next]
    exact exchangeFrom_of_le (Nat.le_add_right _ k)
  · rw [hs₂closures, ht₂closures]
    exact exchangeFrom_of_le (Nat.le_add_right _ k)

end State.Renumbered

end

/-! ### Evaluations -/

section

variable {ρ : Renumbering} {s t : State} {scope : ScopeId} {x y : Node}

/-- A run on a renumbered state ends alike. -/
theorem Node.Ends.renumbered {r : Except EvalError Value} {s' : State} (h : x.Ends scope s r s')
    (hst : s.Renumbered ρ t) :
    ∃ q t', x.Ends (ρ.scope scope) t q t' ∧ s'.Renumbered ρ t' ∧
      ResultRel (Correspondence.renumbered ρ).error (Value.Renumbered ρ) r q := by
  obtain ⟨fuel, h⟩ := h
  obtain ⟨q, t', ho, hr, ht⟩ := Correspondence.simulates_eval (C := Correspondence.renumbered ρ)
    (Nat.le_refl fuel) (rfl : ρ.scope scope = ρ.scope scope) (rfl : x = x) s t hst r s' h
  exact ⟨q, t', ⟨fuel, ho⟩, ht, hr⟩

/-- The tree defines nothing in the scope, and its evaluation there succeeds without
writing anything. -/
def Node.Quiet (x : Node) (scope : ScopeId) (s : State) : Prop :=
  x.definitions = [] ∧ ∃ v t, x.Ends scope s (.ok v) t ∧ t.sink = s.sink

/-- What is quiet stays so after evaluations that leave all that existed as it was. -/
theorem Node.Quiet.of_extends (h : x.Quiet scope s) (hs : s.Orderly)
    (hscope : scope < s.scopes.next) (hst : s.Extends t) (hsink : s.sink = t.sink) :
    x.Quiet scope t := by
  obtain ⟨hx, v, s', hends, hs'⟩ := h
  obtain ⟨a, ha⟩ := Nat.exists_eq_add_of_le hst.next_le
  obtain ⟨c, hc⟩ := Nat.exists_eq_add_of_le hst.closures_le
  obtain ⟨q, t', ho, ht, hr⟩ := hends.renumbered (hst.renumbered hs hsink ha hc)
  rw [show (Renumbering.shift _ a _ c).scope scope = scope from shiftFrom_of_lt hscope] at ho
  cases hr with
  | ok hv => exact ⟨hx, _, t', ho, ht.sink_eq.symm.trans (hs'.trans hsink)⟩

/-- Two quiet trees may be evaluated in either order: each gives the same value as in
the other order, and the states are the same, but for the numbers of what was created. -/
theorem Node.Quiet.exchange (hx : x.Quiet scope s) (hy : y.Quiet scope s) (hs : s.Orderly)
    (hscope : scope < s.scopes.next) {v w : Value} {s₁ s₂ : State}
    (hv : x.Ends scope s (.ok v) s₁) (hw : y.Ends scope s₁ (.ok w) s₂) :
    ∃ w' t₁ v' t₂, y.Ends scope s (.ok w') t₁ ∧ x.Ends scope t₁ (.ok v') t₂ ∧
      ∃ ρ : Renumbering, ρ.Fixes s ∧ ρ.Onto ∧ s₂.Renumbered ρ t₂ ∧
        v.Renumbered ρ v' ∧ w.Renumbered ρ w' := by
  obtain ⟨hxd, v₀, s₁', hv₀, hsink⟩ := hx
  obtain ⟨hv_eq, rfl⟩ := hv.unique hv₀
  obtain ⟨hyd, w', t₁, hw', tsink⟩ := hy
  have hs₁ := State.Extends.of_ends hxd hscope hv
  have ht₁ := State.Extends.of_ends hyd hscope hw'
  obtain ⟨horder₁, hvwithin⟩ := hs.of_ends hscope hv
  obtain ⟨torder₁, hwwithin⟩ := hs.of_ends hscope hw'
  obtain ⟨a, ha⟩ := Nat.exists_eq_add_of_le hs₁.next_le
  obtain ⟨c, hc⟩ := Nat.exists_eq_add_of_le hs₁.closures_le
  obtain ⟨b, hb⟩ := Nat.exists_eq_add_of_le ht₁.next_le
  obtain ⟨d, hd⟩ := Nat.exists_eq_add_of_le ht₁.closures_le
  -- each of the two is evaluated after the other as it is from the start
  obtain ⟨q, s₂', hq, hts, hwq⟩ := hw'.renumbered (hs₁.renumbered hs hsink.symm ha hc)
  obtain ⟨p, t₂, hp, hst, hvp⟩ := hv.renumbered (ht₁.renumbered hs tsink.symm hb hd)
  rw [show (Renumbering.shift _ a _ c).scope scope = scope from shiftFrom_of_lt hscope] at hq
  rw [show (Renumbering.shift _ b _ d).scope scope = scope from shiftFrom_of_lt hscope] at hp
  obtain ⟨rfl, rfl⟩ := hw.unique hq
  have hs₁next : scope < s₁.scopes.next := Nat.lt_of_lt_of_le hscope hs₁.next_le
  have ht₁next : scope < t₁.scopes.next := Nat.lt_of_lt_of_le hscope ht₁.next_le
  have hsink₂ : s₂.sink = t₂.sink := by
    rw [← hts.sink_eq, ← hst.sink_eq, tsink, hsink]
  obtain ⟨hagrees, hundoes, hrenumbered⟩ := State.Renumbered.exchange horder₁ torder₁
    (.of_ends hyd hs₁next hw) (.of_ends hxd ht₁next hp) ha hb hc hd hst hts hsink₂
  cases hvp with
  | @ok _ v' hvp =>
    cases hwq with
    | ok hwq =>
      exact ⟨w', t₁, v', t₂, hw', hp, _, Renumbering.fixes_exchange s a b c d,
        Renumbering.onto_exchange .., hrenumbered,
        hvp.renumbered_of_agrees (hvwithin v rfl) hagrees,
        hwq.renumbered_of_undoes (hwwithin w' rfl) hundoes⟩

end

end SmallLisp
