import SmallLisp.Proofs.Exchange
import SmallLisp.Proofs.Correspondence.Converse

/-! Scopes that are filled while values are computed. The scope of a let form is made
before its values, and binds each of them as soon as it is there. Nothing that is
evaluated in the meantime can reach the scope, since no link and no closure leads to
it; so the form does what it would do if all values were computed first and the scope
were made with them, and the scope only has another number. -/

namespace SmallLisp

/-- A let form whose scope is made when all its values are there, and binds them all
at once. -/
def Node.evalLetLate (fuel : Nat) (scope : ScopeId) (bindings : List (String × Node))
    (body : Node) (span : Span) : Run Value := do
  Run.log (.specialForm .letForm span)
  let values ← bindings.mapM fun b => b.2.eval fuel scope
  let frame ← Run.enter (some scope) none ((bindings.map (·.1)).zip values)
  body.eval fuel frame

/-- Another number for each scope and closure, and in the second state a scope that has
none in the first: it has the given links and binds what `b` does. -/
structure State.Filling (ρ : Renumbering) (frame : ScopeId)
    (links : Option ScopeId × Option ScopeId) (b : Bindings) (s t : State) : Prop where
  orderly : s.Orderly
  renumbered : s.Renumbered ρ t
  apart : ∀ id, frame ≠ ρ.scope id
  lt_next : frame < t.scopes.next
  links_eq : t.scopes.links frame = some links
  within : ∀ key v, b.find? key = some v → v.Within s
  bindings : b.RelOn EveryKey (Value.Renumbered ρ) (t.scopes.bindings frame)

section

variable {ρ : Renumbering} {frame scope : ScopeId} {links : Option ScopeId × Option ScopeId}
  {b : Bindings} {s s' t t' : State} {fuel : Nat} {r q : Except EvalError Value}

/-- What is bound in a scope that has no number in the first state changes nothing. -/
theorem State.Renumbered.define_apart (h : s.Renumbered ρ t) (hframe : ∀ id, frame ≠ ρ.scope id)
    (name : String) (w : Value) :
    s.Renumbered ρ { t with scopes := t.scopes.define frame name w } where
  frames id := by
    dsimp only
    rw [Scopes.frames_define_of_ne (hframe id).symm]
    exact h.frames id
  next k := by
    rw [Scopes.next_define]
    exact h.next k
  closures := h.closures
  sink_eq := h.sink_eq

/-- A new scope, of which nothing knows yet. -/
theorem State.Orderly.filling (h : s.Orderly) (scope : ScopeId) :
    Filling (.shift s.scopes.next 1 s.closures 0) s.scopes.next (some scope, none) .empty s
      (s.entered (some scope) none []) where
  orderly := h
  renumbered := (State.Extends.entered s _ _ _).renumbered h rfl (Scopes.next_create ..) rfl
  apart id := ne_shiftFrom_one s.scopes.next id
  lt_next := State.next_lt_entered
  links_eq := (Scopes.links_create ..).trans (if_pos rfl)
  within key v hv := nomatch hv
  bindings := by
    rw [State.entered, Scopes.bindings, Scopes.frames_create_self]
    exact Bindings.relOn_empty

namespace State.Filling

/-- An evaluation neither changes the scope nor sees it. -/
theorem evaluated (h : Filling ρ frame links b s t) (hscope : scope < s.scopes.next)
    (hsame : ρ.scope scope = scope) {x : Node} (hs : x.Ends scope s r s')
    (ht : x.Ends scope t q t') (hst : s'.Renumbered ρ t') :
    Filling ρ frame links b s' t' := by
  obtain ⟨horder, -⟩ := h.orderly.of_ends hscope hs
  obtain ⟨fuel, hs⟩ := hs
  obtain ⟨fuel', ht⟩ := ht
  have hgrow := Node.follows_eval fuel scope x s r s' hs
  have hkeep := Node.follows_eval fuel' scope x t q t' ht
  have hframe := hkeep.frames frame h.lt_next (hsame ▸ h.apart scope)
  refine ⟨horder, hst, h.apart, Nat.lt_of_lt_of_le h.lt_next hkeep.next_le, ?_,
    fun key v hv => ?_, ?_⟩
  · rw [Scopes.links, hframe]
    exact h.links_eq
  · exact (h.within key v hv).mono hgrow.next_le hgrow.closures_le
  · rw [Scopes.bindings, hframe]
    exact h.bindings

/-- One more name is bound in the scope. -/
theorem define (h : Filling ρ frame links b s t) {v w : Value} (hv : v.Within s)
    (hvw : v.Renumbered ρ w) (name : String) :
    Filling ρ frame links (b.define name v) s
      { t with scopes := t.scopes.define frame name w } where
  orderly := h.orderly
  renumbered := h.renumbered.define_apart h.apart name w
  apart := h.apart
  lt_next := Nat.lt_of_lt_of_eq h.lt_next (Scopes.next_define ..).symm
  links_eq := (Scopes.links_define ..).trans h.links_eq
  within key x hx := by
    rw [Bindings.define] at hx
    by_cases hkey : key = Text.lowercase name
    · subst hkey
      rw [Bindings.find?_insert_self] at hx
      exact Option.some.inj hx ▸ hv
    · rw [Bindings.find?_insert_of_ne _ _ hkey] at hx
      exact h.within key x hx
  bindings := by
    rw [Scopes.bindings_define h.lt_next]
    exact h.bindings.define rfl hvw

/-- When all values have been computed, the scope binds each to its name. -/
theorem fill (h : Filling ρ frame links b s t) (hscope : scope < s.scopes.next)
    (hsame : ρ.scope scope = scope) (fuel : Nat) (bs : List (String × Node)) :
    Run.Together
      (fun e s' f t' => (Correspondence.renumbered ρ).error e f ∧ s'.Renumbered ρ t')
      (fun vs s' _ t' => s.scopes.next ≤ s'.scopes.next ∧ s.closures ≤ s'.closures ∧
        Filling ρ frame links (((bs.map (·.1)).zip vs).foldl (fun b p => b.define p.1 p.2) b) s' t')
      ((bs.mapM fun b => Node.eval fuel scope b.2).outcome s)
      ((Run.fill frame (Node.eval fuel scope) bs).outcome t) := by
  induction bs generalizing b s t with
  | nil => exact .ok ⟨Nat.le_refl _, Nat.le_refl _, h⟩
  | cons binding bs ih =>
    have hvalue := Correspondence.together_eval (.renumbered ρ) hsame (rfl : binding.2 = binding.2)
      h.renumbered fuel
    rw [List.mapM_cons, Run.fill_cons]
    refine hvalue.bind (fun _ _ _ _ h => h) fun v s₁ w t₁ hs₁ ht₁ hvalues => ?_
    obtain ⟨hvw, hst₁⟩ := hvalues
    have hgrow := Node.follows_eval fuel scope binding.2 s (.ok v) s₁ hs₁
    have hfilling := (h.evaluated hscope hsame ⟨fuel, hs₁⟩ ⟨fuel, ht₁⟩ hst₁).define
      ((h.orderly.of_ends hscope ⟨fuel, hs₁⟩).2 v rfl) hvw binding.1
    rw [Run.outcome_bind_of_ok (Run.outcome_define ..)]
    have hrest := ih hfilling (Nat.lt_of_lt_of_le hscope hgrow.next_le)
    rw [← bind_pure (Run.fill frame _ bs)]
    refine hrest.bind (fun _ _ _ _ h => h) fun vs s₂ _ t₂ _ _ h => .ok ?_
    obtain ⟨hscopes, hclosures, h₂⟩ := h
    exact ⟨Nat.le_trans hgrow.next_le hscopes, Nat.le_trans hgrow.closures_le hclosures, h₂⟩

/-- A scope that is made at the start is one that is made at the end, with the number
that comes before all that was created since. -/
theorem renumbered_created {n a m c : Nat}
    (h : Filling (.shift n 1 m 0) n (some scope, none) b s t) (hscope : scope < n)
    (hnext : s.scopes.next = n + a) (hclosures : s.closures = m + c) :
    { s with scopes := s.scopes.create ⟨some scope, none, b⟩ }.Renumbered
      (.exchange n a 1 m c 0) t where
  frames id := by
    have hagrees : (Renumbering.shift n 1 m 0).Agrees (.exchange n a 1 m c 0) s :=
      ⟨fun id hid => (exchangeFrom_of_lt (hnext ▸ hid)).symm,
        fun id hid => (exchangeFrom_of_lt (hclosures ▸ hid)).symm⟩
    have htnext := h.renumbered.next_of_shift (hnext ▸ Nat.le_add_right n a)
    dsimp only
    rcases Nat.lt_trichotomy id s.scopes.next with hlt | rfl | hlt
    · rw [Scopes.frames_create_of_lt hlt]
      exact h.renumbered.frames_of_agrees h.orderly (.refl s) hagrees hlt
    · -- the new scope on the left is the scope that was filled on the right
      have hid : (Renumbering.exchange n a 1 m c 0).scope s.scopes.next = n :=
        hnext ▸ exchangeFrom_last n a
      have hscope' : (Renumbering.exchange n a 1 m c 0).scope scope = scope :=
        (exchangeFrom_of_lt (Nat.lt_add_right a hscope)).trans (shiftFrom_of_lt hscope)
      refine Scopes.renumbered_of_links ?_ (fun l o hl ho => ?_) fun key _ => ?_
      · rw [hid, h.links_eq, Scopes.links_create, if_pos rfl, Option.map_some, Option.map_some,
          hscope', Option.map_none]
      · rw [Scopes.links_create, if_pos rfl] at hl
        cases hl
        obtain rfl : scope = o := by simpa using ho
        rw [hid, hscope', hnext]
        exact iff_of_true hscope (Nat.lt_add_right a hscope)
      · rw [hid, Scopes.bindings, Scopes.frames_create_self]
        exact optionRel_imp_of_eq (h.bindings key trivial) fun v w hv hvw =>
          hvw.renumbered_of_agrees (h.within key v hv) hagrees
    · have hlast : (Renumbering.exchange n a 1 m c 0).scope id = id :=
        exchangeFrom_of_le (hnext ▸ hlt)
      rw [hlast, Array.getElem?_eq_none (Nat.le_trans (Nat.le_of_eq (Scopes.next_create ..)) hlt),
        Array.getElem?_eq_none (Nat.le_trans (Nat.le_of_eq htnext) hlt)]
      exact .none
  next k := by
    rw [Scopes.next_create, h.renumbered.next_of_shift (hnext ▸ Nat.le_add_right n a), hnext]
    exact exchangeFrom_of_le (Nat.le_add_right _ k)
  closures k := by
    rw [h.renumbered.closures_of_shift (hclosures ▸ Nat.le_add_right m c), hclosures]
    exact exchangeFrom_of_le (Nat.le_add_right _ k)
  sink_eq := h.renumbered.sink_eq

end State.Filling

end

/-- The values of a let form are computed in its own order as they are when its scope is
not yet there; and when they are all there, the scope is the one that is made of them,
with a number from before. -/
theorem State.Orderly.fill {s : State} (hs : s.Orderly) {scope : ScopeId}
    (hscope : scope < s.scopes.next) (fuel : Nat) (bs : List (String × Node)) (span : Span) :
    Run.Together
      (fun e t f t' => ∃ ρ : Renumbering, ρ.Fixes s ∧ ρ.closure = id ∧ t.Renumbered ρ t' ∧
        (Correspondence.renumbered ρ).error e f)
      (fun vs t _ t' => ∃ ρ : Renumbering, ρ.Fixes s ∧ ρ.closure = id ∧ ρ.Onto ∧
        ρ.scope t.scopes.next = s.scopes.next ∧
        (t.entered (some scope) none ((bs.map (·.1)).zip vs)).Renumbered ρ t')
      ((bs.mapM fun b => Node.eval fuel scope b.2).outcome (s.log (.specialForm .letForm span)))
      ((Run.fill s.scopes.next (Node.eval fuel scope) bs).outcome (s.opened scope span)) := by
  have hfilling := (hs.log (.specialForm .letForm span)).filling scope
  have hfilled := hfilling.fill hscope (shiftFrom_of_lt hscope) fuel bs
  refine hfilled.imp (fun e t f t' h => ?_) fun vs t _ t' h => ?_
  · exact ⟨_, Renumbering.fixes_shift s 1 0, Renumbering.closure_shift_zero .., h.2, h.1⟩
  · obtain ⟨hscopes, hclosures, h⟩ := h
    obtain ⟨a, ha⟩ := Nat.exists_eq_add_of_le hscopes
    obtain ⟨c, hc⟩ := Nat.exists_eq_add_of_le hclosures
    exact ⟨_, Renumbering.fixes_exchange s a 1 c 0, Renumbering.closure_exchange_zero ..,
      Renumbering.onto_exchange .., ha ▸ exchangeFrom_last _ a, h.renumbered_created hscope ha hc⟩

/-- Two evaluations from one state have ended alike, but for the numbers of scopes that
were not there. The second may have made more of them. -/
def Run.SameUpToScopes (s : State) (p q : Except EvalError Value × State) : Prop :=
  ∃ ρ : Renumbering, ρ.Fixes s ∧ ρ.closure = id ∧ p.2.Renumbered ρ q.2 ∧
    ResultRel (Correspondence.renumbered ρ).error (Value.Renumbered ρ) p.1 q.1

theorem Run.SameUpToScopes.of_le {s t : State} {p q : Except EvalError Value × State}
    (h : SameUpToScopes t p q) (hscopes : s.scopes.next ≤ t.scopes.next)
    (hclosures : s.closures ≤ t.closures) : SameUpToScopes s p q :=
  h.imp fun _ h => ⟨h.1.of_le hscopes hclosures, h.2⟩

/-- It makes no difference to a let form whether its scope is made after the values or
before them, and filled while they are computed. The values may define and write what
they like, and the names need not be different. -/
theorem Node.eval_letIn_late {s : State} (hs : s.Orderly) {scope : ScopeId}
    (hscope : scope < s.scopes.next) (fuel : Nat) (bindings : List (String × Node)) (body : Node)
    (span : Span) :
    Option.Rel (Run.SameUpToScopes s) ((evalLetLate fuel scope bindings body span).outcome s)
      (((Node.letIn bindings body span).eval (fuel + 1) scope).outcome s) := by
  rw [outcome_eval_letIn, evalLetLate, Run.outcome_bind_of_ok (Run.outcome_log ..)]
  refine (hs.fill hscope fuel bindings span).bind_rel (fun e t f t' h => ?_) fun vs t _ t' h => ?_
  · obtain ⟨ρ, hfixes, hclosure, ht, he⟩ := h
    exact ⟨ρ, hfixes, hclosure, ht, .error he⟩
  · obtain ⟨ρ, hfixes, hclosure, -, hnumber, ht⟩ := h
    rw [Run.outcome_bind_of_ok (Run.outcome_enter ..)]
    have hbody := Correspondence.together_eval (.renumbered ρ) hnumber (rfl : body = body) ht fuel
    exact hbody.rel (fun _ _ _ _ h => ⟨ρ, hfixes, hclosure, h.2, .error h.1⟩) fun _ _ _ _ h =>
      ⟨ρ, hfixes, hclosure, h.2, .ok h.1⟩

end SmallLisp
