import Mathlib.Data.List.Nodup
import SmallLisp.Proofs.Filling

/-! Let bindings are simultaneous. Their values are computed one after the other, but
each outside the scope that binds them; and if they are quiet, none of them can tell
what was computed before it. So the bindings of a let form may stand in any order:
its scope binds the same, but for the numbers of the scopes and closures created on
the way. -/

namespace SmallLisp

/-! ### Values of bindings -/

/-- The values of bindings, computed one after the other in the same scope. -/
inductive Computes (scope : ScopeId) :
    List (String × Node) → State → List (String × Value) → State → Prop
  | nil {s : State} : Computes scope [] s [] s
  | cons {b : String × Node} {bs : List (String × Node)} {s t u : State} {v : Value}
    {ps : List (String × Value)} (hv : b.2.Ends scope s (.ok v) t) (h : Computes scope bs t ps u) :
    Computes scope (b :: bs) s ((b.1, v) :: ps) u

/-- Two lists bind the same names, to values that differ in numbers only. -/
structure Matches (ρ : Renumbering) (ps qs : List (String × Value)) : Prop where
  left : ∀ p ∈ ps, ∃ q ∈ qs, p.1 = q.1 ∧ p.2.Renumbered ρ q.2
  right : ∀ q ∈ qs, ∃ p ∈ ps, p.1 = q.1 ∧ p.2.Renumbered ρ q.2

/-- The keys that names bind. -/
def keysOf {α : Type} (pairs : List (String × α)) : List String :=
  pairs.map fun p => Text.lowercase p.1

section

variable {ρ σ : Renumbering} {scope : ScopeId} {bs cs : List (String × Node)}
  {ps qs rs : List (String × Value)} {s t u : State}

namespace Matches

theorem trans (h : Matches ρ ps qs) (k : Matches σ qs rs) : Matches (ρ.trans σ) ps rs where
  left p hp := by
    obtain ⟨q, hq, hpq, hv⟩ := h.left p hp
    obtain ⟨r, hr, hqr, hw⟩ := k.left q hq
    exact ⟨r, hr, hpq.trans hqr, hv.renumbered_trans hw⟩
  right r hr := by
    obtain ⟨q, hq, hqr, hw⟩ := k.right r hr
    obtain ⟨p, hp, hpq, hv⟩ := h.right q hq
    exact ⟨p, hp, hpq.trans hqr, hv.renumbered_trans hw⟩

theorem cons (h : Matches ρ ps qs) (name : String) {v w : Value} (hv : v.Renumbered ρ w) :
    Matches ρ ((name, v) :: ps) ((name, w) :: qs) where
  left p hp := by
    rcases List.mem_cons.1 hp with rfl | hp
    · exact ⟨(name, w), List.mem_cons_self, rfl, hv⟩
    · obtain ⟨q, hq, hpq⟩ := h.left p hp
      exact ⟨q, List.mem_cons_of_mem _ hq, hpq⟩
  right q hq := by
    rcases List.mem_cons.1 hq with rfl | hq
    · exact ⟨(name, v), List.mem_cons_self, rfl, hv⟩
    · obtain ⟨p, hp, hpq⟩ := h.right q hq
      exact ⟨p, List.mem_cons_of_mem _ hp, hpq⟩

theorem perm (h : Matches ρ ps qs) (hq : qs.Perm rs) : Matches ρ ps rs where
  left p hp := by
    obtain ⟨q, hm, hpq⟩ := h.left p hp
    exact ⟨q, hq.mem_iff.1 hm, hpq⟩
  right r hr := h.right r (hq.mem_iff.2 hr)

end Matches

namespace Computes

theorem names_eq (h : Computes scope bs s ps t) : ps.map (·.1) = bs.map (·.1) := by
  induction h with
  | nil => rfl
  | cons _ _ ih => exact congrArg (_ :: ·) ih

theorem keysOf_eq (h : Computes scope bs s ps t) : keysOf ps = keysOf bs := by
  have hnames := congrArg (List.map Text.lowercase) h.names_eq
  rwa [List.map_map, List.map_map] at hnames

theorem exists_fuel (h : Computes scope bs s ps t) :
    ∃ fuel, (bs.mapM fun b => Node.eval fuel scope b.2).outcome s =
      some (.ok (ps.map (·.2)), t) := by
  induction h with
  | nil => exact ⟨0, rfl⟩
  | @cons b bs s t u v ps hv _ ih =>
    obtain ⟨fuel, hv⟩ := hv
    obtain ⟨fuel', hps⟩ := ih
    have hv' := Node.eval_refines (Nat.le_max_left fuel fuel') scope b.2 s _ hv
    have hps' := Run.Refines.mapM (fun b : String × Node =>
      Node.eval_refines (Nat.le_max_right fuel fuel') scope b.2) bs t _ hps
    refine ⟨max fuel fuel', ?_⟩
    rw [List.mapM_cons, Run.outcome_bind_of_ok hv', Run.outcome_bind_of_ok hps']
    rfl

/-- On a renumbered state the values are the same, but for the numbers. -/
theorem renumbered (h : Computes scope bs s ps t) (hs : s.Renumbered ρ u) :
    ∃ qs w, Computes (ρ.scope scope) bs u qs w ∧ t.Renumbered ρ w ∧ Matches ρ ps qs := by
  induction h generalizing u with
  | nil => exact ⟨[], u, .nil, hs, nofun, nofun⟩
  | cons hv _ ih =>
    obtain ⟨q, u₁, hq, hu₁, hr⟩ := hv.renumbered hs
    cases hr with
    | ok hvq =>
      obtain ⟨qs, w, hqs, hw, hmatches⟩ := ih hu₁
      exact ⟨_, w, .cons hq hqs, hw, hmatches.cons _ hvq⟩

/-- The values of quiet trees can all be computed. -/
theorem exists_of_quiet (hs : s.Orderly) (hscope : scope < s.scopes.next)
    (hquiet : ∀ b ∈ bs, b.2.Quiet scope s) : ∃ ps t, Computes scope bs s ps t := by
  induction bs generalizing s with
  | nil => exact ⟨[], s, .nil⟩
  | cons b bs ih =>
    obtain ⟨⟨hd, v, s₁, hv, hsink⟩, hrest⟩ := List.forall_mem_cons.1 hquiet
    have hs₁ := State.Extends.of_ends hd hscope hv
    obtain ⟨ps, t, hps⟩ := ih (hs.of_ends hscope hv).1 (Nat.lt_of_lt_of_le hscope hs₁.next_le)
      fun c hc => (hrest c hc).of_extends hs hscope hs₁ hsink.symm
    exact ⟨_, t, .cons hv hps⟩

/-- The values of quiet trees are the same in every order, but for the numbers of what
is created on the way. -/
theorem perm (hperm : bs.Perm cs) (hs : s.Orderly) (hscope : scope < s.scopes.next)
    (hquiet : ∀ b ∈ bs, b.2.Quiet scope s) (h : Computes scope bs s ps t) :
    ∃ qs u, Computes scope cs s qs u ∧
      ∃ ρ : Renumbering, ρ.Fixes s ∧ ρ.Onto ∧ t.Renumbered ρ u ∧ Matches ρ ps qs := by
  induction hperm generalizing s ps t with
  | nil =>
    cases h
    exact ⟨[], s, .nil, .refl, Renumbering.fixes_refl s, Renumbering.onto_refl, .refl s, nofun,
      nofun⟩
  | cons b _ ih =>
    cases h with
    | @cons _ _ _ s₁ _ v ps hv hps =>
      obtain ⟨⟨hd, v', s₁', hv', hsink⟩, hrest⟩ := List.forall_mem_cons.1 hquiet
      obtain ⟨-, rfl⟩ := hv.unique hv'
      have hs₁ := State.Extends.of_ends hd hscope hv
      obtain ⟨horder, hwithin⟩ := hs.of_ends hscope hv
      obtain ⟨qs, u, hqs, ρ, hfixes, honto, htu, hmatches⟩ :=
        ih horder (Nat.lt_of_lt_of_le hscope hs₁.next_le)
          (fun c hc => (hrest c hc).of_extends hs hscope hs₁ hsink.symm) hps
      exact ⟨_, u, .cons hv hqs, ρ, hfixes.of_le hs₁.next_le hs₁.closures_le, honto, htu,
        hmatches.cons b.1 ((hwithin v rfl).renumbered_self hfixes)⟩
  | swap c b rest =>
    cases h with
    | @cons _ _ _ s₁ _ v ps hv hps =>
      cases hps with
      | @cons _ _ _ s₂ _ w ps hw hps =>
        obtain ⟨hb, hrest⟩ := List.forall_mem_cons.1 hquiet
        obtain ⟨hc, -⟩ := List.forall_mem_cons.1 hrest
        obtain ⟨w', t₁, v', t₂, hw', hv', ρ, hfixes, honto, hst, hvv, hww⟩ :=
          hb.exchange hc hs hscope hv hw
        obtain ⟨qs, u, hqs, htu, hmatches⟩ := hps.renumbered hst
        rw [hfixes.scope scope hscope] at hqs
        have hboth : Matches ρ ((b.1, v) :: (c.1, w) :: ps) ((b.1, v') :: (c.1, w') :: qs) :=
          (hmatches.cons c.1 hww).cons b.1 hvv
        exact ⟨_, u, .cons hw' (.cons hv' hqs), ρ, hfixes, honto, htu, hboth.perm (.swap _ _ _)⟩
  | trans hbs _ ih ih' =>
    obtain ⟨qs, u, hqs, ρ, hρ, hρonto, htu, hpq⟩ := ih hs hscope hquiet h
    obtain ⟨rs, w, hrs, σ, hσ, hσonto, huw, hqr⟩ :=
      ih' hs hscope (fun c hc => hquiet c (hbs.mem_iff.2 hc)) hqs
    exact ⟨rs, w, hrs, ρ.trans σ, hρ.trans hσ, hρonto.trans hσonto, htu.trans huw, hpq.trans hqr⟩

end Computes

/-! ### Scopes with different names -/

namespace Bindings

theorem find?_foldl_define {b : Bindings} {key : String} {v : Value} (hkeys : (keysOf ps).Nodup) :
    (ps.foldl (fun b p => b.define p.1 p.2) b).find? key = some v ↔
      (∃ p ∈ ps, Text.lowercase p.1 = key ∧ p.2 = v) ∨ key ∉ keysOf ps ∧ b.find? key = some v := by
  induction ps generalizing b with
  | nil => simp [keysOf]
  | cons p ps ih =>
    obtain ⟨hp, hps⟩ := List.nodup_cons.1 hkeys
    rw [List.foldl_cons, ih hps]
    by_cases hk : key = Text.lowercase p.1
    · subst hk
      have hnone : ¬∃ q ∈ ps, Text.lowercase q.1 = Text.lowercase p.1 ∧ q.2 = v := by
        rintro ⟨q, hq, hname, -⟩
        exact hp (List.mem_map.2 ⟨q, hq, hname⟩)
      rw [define, find?_insert_self]
      constructor
      · rintro (h | ⟨-, h⟩)
        · exact absurd h hnone
        · exact .inl ⟨p, List.mem_cons_self, rfl, Option.some.inj h⟩
      · rintro (⟨q, hq, hname, rfl⟩ | ⟨h, -⟩)
        · rcases List.mem_cons.1 hq with rfl | hq
          · exact .inr ⟨hp, rfl⟩
          · exact absurd ⟨q, hq, hname, rfl⟩ hnone
        · exact absurd List.mem_cons_self h
    · rw [define, find?_insert_of_ne _ _ hk]
      refine or_congr ⟨?_, ?_⟩ (and_congr_left fun _ => ?_)
      · rintro ⟨q, hq, h⟩
        exact ⟨q, List.mem_cons_of_mem _ hq, h⟩
      · rintro ⟨q, hq, hname, hv⟩
        rcases List.mem_cons.1 hq with rfl | hq
        · exact absurd hname.symm hk
        · exact ⟨q, hq, hname, hv⟩
      · exact ⟨fun h hm => (List.mem_cons.1 hm).elim hk h,
          fun h hm => h (List.mem_cons_of_mem _ hm)⟩

theorem find?_ofPairs {key : String} {v : Value} (hkeys : (keysOf ps).Nodup) :
    (ofPairs ps).find? key = some v ↔ ∃ p ∈ ps, Text.lowercase p.1 = key ∧ p.2 = v := by
  rw [ofPairs, find?_foldl_define hkeys]
  exact ⟨fun h => h.resolve_right (fun h => nomatch h.2), .inl⟩

end Bindings

/-- A scope whose names are all different binds the same in whatever order they are. -/
theorem Matches.relOn (h : Matches ρ ps qs) (hps : (keysOf ps).Nodup) (hqs : (keysOf qs).Nodup) :
    (Bindings.ofPairs ps).RelOn EveryKey (Value.Renumbered ρ) (Bindings.ofPairs qs) := by
  intro key _
  cases hp : (Bindings.ofPairs ps).find? key with
  | some v =>
    obtain ⟨p, hm, hkey, rfl⟩ := (Bindings.find?_ofPairs hps).1 hp
    obtain ⟨q, hm', hname, hv⟩ := h.left p hm
    rw [(Bindings.find?_ofPairs hqs).2 ⟨q, hm', hname ▸ hkey, rfl⟩]
    exact .some hv
  | none =>
    cases hq : (Bindings.ofPairs qs).find? key with
    | none => exact .none
    | some w =>
      obtain ⟨q, hm, hkey, rfl⟩ := (Bindings.find?_ofPairs hqs).1 hq
      obtain ⟨p, hm', hname, -⟩ := h.right q hm
      have hfound := (Bindings.find?_ofPairs hps).2 ⟨p, hm', hname ▸ hkey, rfl⟩
      rw [hp] at hfound
      cases hfound

end

/-! ### Let forms -/

section

variable {scope : ScopeId} {bs cs : List (String × Node)} {body : Node} {span : Span}
  {s t u : State} {r : Except EvalError Value} {ps : List (String × Value)}

/-- If the values of a let form can be computed, then its scope is filled with them, and
it ends as its body does in this scope. -/
theorem Computes.exists_filled (hs : s.Orderly) (hscope : scope < s.scopes.next)
    (h : Computes scope bs (s.log (.specialForm .letForm span)) ps t) :
    ∃ (ρ : Renumbering) (t' : State), ρ.Fixes s ∧ ρ.Onto ∧ ρ.scope t.scopes.next = s.scopes.next ∧
      (t.entered (some scope) none ps).Renumbered ρ t' ∧
      ∀ body r u, (Node.letIn bs body span).Ends scope s r u ↔ body.Ends s.scopes.next t' r u := by
  have hps : (bs.map (·.1)).zip (ps.map (·.2)) = ps := by
    rw [← h.names_eq, List.zip_map', List.map_id']
  obtain ⟨fuel, hvalues⟩ := h.exists_fuel
  obtain ⟨_, t', hfill, ρ, hfixes, -, honto, hnumber, hframe⟩ :=
    (hs.fill hscope fuel bs span).of_ok hvalues
  refine ⟨ρ, t', hfixes, honto, hnumber, hps ▸ hframe, fun body r u => ?_⟩
  -- from some fuel on a let form does the same as its body
  have heval {fuel' : Nat} (hle : fuel ≤ fuel') :
      ((Node.letIn bs body span).eval (fuel' + 1) scope).outcome s =
        (body.eval fuel' s.scopes.next).outcome t' := by
    have hfill' := Run.Refines.fill (fun x => Node.eval_refines hle scope x) _ bs _ _ hfill
    rw [Node.outcome_eval_letIn, Run.outcome_bind_of_ok hfill']
  constructor
  · rintro ⟨fuel', hends⟩
    have hle : fuel' ≤ max fuel fuel' + 1 := Nat.le_succ_of_le (Nat.le_max_right fuel fuel')
    have hmore := Node.eval_refines hle scope _ s _ hends
    rw [heval (Nat.le_max_left fuel fuel')] at hmore
    exact ⟨_, hmore⟩
  · rintro ⟨fuel', hends⟩
    have hmore := Node.eval_refines (Nat.le_max_right fuel fuel') _ body _ _ hends
    rw [← heval (Nat.le_max_left fuel fuel')] at hmore
    exact ⟨_, hmore⟩

/-- Two evaluations that start from one state end the same: with the same bytes written
and the same bindings in every scope that existed before, and with the same value or
error but for the numbers of the scopes and closures that were created. -/
structure SameUpToNumbers (s : State) (r : Except EvalError Value) (t : State)
    (q : Except EvalError Value) (u : State) : Prop where
  written_eq : t.sink = u.sink
  bindings : ∀ id < s.scopes.next, ∀ key,
    (t.scopes.bindings id).find? key = (u.scopes.bindings id).find? key
  renumbered : ∃ ρ : Renumbering, ρ.Fixes s ∧ ρ.Onto ∧ t.Renumbered ρ u ∧
    ResultRel (EvalError.Rel (.ofSpans Eq) (Value.Renumbered ρ)) (Value.Renumbered ρ) r q

/-- A let form with quiet values ends the same with its bindings in another order. -/
theorem Node.Ends.letIn_perm (hperm : bs.Perm cs) (hs : s.Orderly) (hscope : scope < s.scopes.next)
    (hkeys : (keysOf bs).Nodup) (hquiet : ∀ b ∈ bs, b.2.Quiet scope s)
    (h : (Node.letIn bs body span).Ends scope s r u) :
    ∃ q w, (Node.letIn cs body span).Ends scope s q w ∧ SameUpToNumbers s r u q w := by
  have horder := hs.log (.specialForm .letForm span)
  have hquiet' (b : String × Node) (hb : b ∈ bs) :=
    (hquiet b hb).of_extends hs hscope (.log s (.specialForm .letForm span)) rfl
  have hcs : (keysOf cs).Nodup := ((hperm.map _).nodup_iff).1 hkeys
  obtain ⟨ps, t, hps⟩ := Computes.exists_of_quiet horder hscope hquiet'
  obtain ⟨qs, t', hqs, ρ, hfixes, honto, htt, hmatches⟩ := hps.perm hperm horder hscope hquiet'
  obtain ⟨ρ₁, t₁, hfixes₁, honto₁, hnumber₁, ht₁, hbody⟩ := hps.exists_filled hs hscope
  obtain ⟨ρ₂, t₂, hfixes₂, honto₂, hnumber₂, ht₂, hbody'⟩ := hqs.exists_filled hs hscope
  -- the two bodies are evaluated in scopes that bind the same
  have hframe := htt.create (some scope) none (hmatches.relOn (hps.keysOf_eq ▸ hkeys)
    (hqs.keysOf_eq ▸ hcs))
  rw [Option.map_some, hfixes.scope scope hscope] at hframe
  have hfilled := ((ht₁.symm honto₁).trans hframe).trans ht₂
  have hnumber : (((ρ₁.symm honto₁).trans ρ).trans ρ₂).scope s.scopes.next = s.scopes.next := by
    calc ρ₂.scope (ρ.scope ((ρ₁.symm honto₁).scope s.scopes.next))
      _ = ρ₂.scope (ρ.scope t.scopes.next) := by rw [← hnumber₁, Renumbering.scope_symm]
      _ = ρ₂.scope t'.scopes.next := congrArg ρ₂.scope (htt.next 0)
      _ = s.scopes.next := hnumber₂
  obtain ⟨q, w, hq, huw, hrq⟩ := ((hbody body r u).1 h).renumbered hfilled
  rw [hnumber] at hq
  have hends := (hbody' body q w).2 hq
  have hbs : (Node.letIn bs body span).definitions = [] :=
    Node.definitionsBindings_eq_nil fun b hb => (hquiet b hb).1
  have hcs' : (Node.letIn cs body span).definitions = [] :=
    Node.definitionsBindings_eq_nil fun b hb => (hquiet b (hperm.mem_iff.2 hb)).1
  have hu := State.Extends.of_ends hbs hscope h
  have hw := State.Extends.of_ends hcs' hscope hends
  exact ⟨q, w, hends, huw.sink_eq, fun id hid key =>
    (hu.bindings id hid key).trans (hw.bindings id hid key).symm, _,
    ((hfixes₁.symm honto₁).trans ⟨hfixes.scope, hfixes.closure⟩).trans hfixes₂,
    ((Renumbering.onto_symm honto₁).trans honto).trans honto₂, huw, hrq⟩

end

/-- Let bindings are simultaneous. If their names are different up to case, and their
values define nothing in the scope and can each be computed there without writing,
then the form ends if it does with its bindings in any other order, and it ends the
same. The values may call any closures, and the body may do anything. -/
theorem eval_letIn_perm {s : State} (hs : s.Reachable) {scope : ScopeId}
    (hscope : scope < s.scopes.next) {bindings bindings' : List (String × Node)}
    (hperm : bindings.Perm bindings') (hkeys : (bindings.map fun b => Text.lowercase b.1).Nodup)
    (hdefinitions : ∀ b ∈ bindings, b.2.definitions = [])
    (hvalues : ∀ b ∈ bindings, ∃ v t, b.2.Ends scope s (.ok v) t ∧ t.sink = s.sink) (body : Node)
    (span : Span) :
    (∀ r t, (Node.letIn bindings body span).Ends scope s r t →
      ∃ q u, (Node.letIn bindings' body span).Ends scope s q u ∧ SameUpToNumbers s r t q u) ∧
    ∀ q u, (Node.letIn bindings' body span).Ends scope s q u →
      ∃ r t, (Node.letIn bindings body span).Ends scope s r t ∧ SameUpToNumbers s q u r t := by
  have hquiet (b : String × Node) (hb : b ∈ bindings) : b.2.Quiet scope s :=
    ⟨hdefinitions b hb, hvalues b hb⟩
  have hkeys' : (keysOf bindings').Nodup := ((hperm.map _).nodup_iff).1 hkeys
  exact ⟨fun r t h => h.letIn_perm hperm hs.orderly hscope hkeys hquiet,
    fun q u h => h.letIn_perm hperm.symm hs.orderly hscope hkeys' fun b hb =>
      hquiet b (hperm.mem_iff.2 hb)⟩

/-- A closure is made by the one value and another is called by the other, and the form
returns the first. -/
theorem eval_letIn_perm_closures :
    let s := (Session.initial.createScope "g" none none).state
    let identity : Node := .function "f" ["x"] (.symbol "x" ⟨16, 17⟩) ⟨7, 18⟩
    let constant : Node := .function "h" [] (.boolean true ⟨35, 39⟩) ⟨26, 40⟩
    let bs := [("f", Node.letIn [] identity ⟨0, 19⟩),
      ("b", Node.call (.letIn [] constant ⟨19, 41⟩) [] ⟨18, 42⟩)]
    let body : Node := .symbol "F" ⟨43, 44⟩
    ∃ r t q u, (Node.letIn bs body ⟨0, 45⟩).Ends 0 s r t ∧ s.Reachable ∧ 0 < s.scopes.next ∧
      bs.Perm bs.reverse ∧ (bs.map fun b => Text.lowercase b.1).Nodup ∧
      (∀ b ∈ bs, b.2.definitions = []) ∧
      (∀ b ∈ bs, ∃ v t, b.2.Ends 0 s (.ok v) t ∧ t.sink = s.sink) ∧
      (Node.letIn bs.reverse body ⟨0, 45⟩).Ends 0 s q u ∧ SameUpToNumbers s r t q u := by
  intro s identity constant bs body
  have hs : s.Reachable :=
    ⟨[], _, @Session.Reached.step [] Session.initial _ 0 (.global "g") .done .initial rfl, .inl rfl⟩
  have hkeys : (bs.map fun b => Text.lowercase b.1).Nodup := by decide +kernel
  have hdefinitions : ∀ b ∈ bs, b.2.definitions = [] :=
    List.forall_mem_cons.2 ⟨rfl, List.forall_mem_singleton.2 rfl⟩
  have hvalues : ∀ b ∈ bs, ∃ v t, b.2.Ends 0 s (.ok v) t ∧ t.sink = s.sink :=
    List.forall_mem_cons.2 ⟨⟨_, _, ⟨4, rfl⟩, rfl⟩,
      List.forall_mem_singleton.2 ⟨_, _, ⟨4, rfl⟩, rfl⟩⟩
  have hends : (((Node.letIn bs body ⟨0, 45⟩).eval 5 0).outcome s).isSome := by decide +kernel
  obtain ⟨⟨r, t⟩, hrt⟩ := Option.isSome_iff_exists.1 hends
  have hrt : (Node.letIn bs body ⟨0, 45⟩).Ends 0 s r t := ⟨5, hrt⟩
  have hperm := (List.reverse_perm bs).symm
  obtain ⟨q, u, hqu, hsame⟩ :=
    (eval_letIn_perm hs Nat.one_pos hperm hkeys hdefinitions hvalues body ⟨0, 45⟩).1 r t hrt
  exact ⟨r, t, q, u, hrt, hs, Nat.one_pos, hperm, hkeys, hdefinitions, hvalues, hqu, hsame⟩

end SmallLisp
