import Mathlib.Data.Finset.Range
import SmallLisp.Proofs.Bound
import SmallLisp.Proofs.Correspondence.Same
import SmallLisp.Proofs.Fuel
import SmallLisp.Proofs.Likeness.Evaluation
import SmallLisp.Proofs.Programs
import SmallLisp.Proofs.Shift.Parsing

/-! Programs in two pieces. A program that begins with a text which parses by
itself may be evaluated in two steps, that text first and what follows it then,
in the same scope: it ends exactly if they do and has the same effects and the
same result, except that the spans of the second piece are further on. Only
errors of syntax are different, since all of a program is parsed before any of
it is evaluated. -/

namespace SmallLisp

/-! ### Forms that are evaluated one after the other -/

/-- The evaluation of forms ends, with this result and in this state. -/
def EvaluatesForms (scope : ScopeId) (xs : List Node) (s : State) (r : Except Error Value)
    (t : State) : Prop :=
  ∃ fuel, evaluateForms fuel scope xs s = some (r, t)

/-- The evaluation of one text and then, if that succeeds, of another in the same
scope, ends with this result and in this state. -/
inductive EvaluatesBoth (scope : ScopeId) (a b : String) (s : State) :
    Except Error Value → State → Prop
  | failed {e : Error} {t : State} (h : Evaluates scope a s (.error e) t) :
    EvaluatesBoth scope a b s (.error e) t
  | succeeded {v : Value} {t u : State} {r : Except Error Value}
    (ha : Evaluates scope a s (.ok v) t) (hb : Evaluates scope b t r u) :
    EvaluatesBoth scope a b s r u

/-- States that differ in nothing but their logs. -/
structure State.SameButLog (s t : State) : Prop where
  scopes_eq : s.scopes = t.scopes
  closures_eq : s.closures = t.closures
  sink_eq : s.sink = t.sink

theorem State.SameButLog.symm {s t : State} (h : s.SameButLog t) : t.SameButLog s :=
  ⟨h.scopes_eq.symm, h.closures_eq.symm, h.sink_eq.symm⟩

theorem State.SameButLog.log_right (s : State) (e : Event) : s.SameButLog (s.log e) :=
  ⟨rfl, rfl, rfl⟩

theorem State.SameButLog.log (s : State) (d e : Event) : (s.log d).SameButLog (s.log e) :=
  ⟨rfl, rfl, rfl⟩

/-- Evaluation does not read the log. -/
theorem State.SameButLog.indistinct : State.Indistinct State.SameButLog where
  resolve?_eq h id name := congrArg (fun scopes : Scopes => scopes.resolve? id name) h.scopes_eq
  next_eq h := congrArg Scopes.next h.scopes_eq
  closures_eq h := h.closures_eq
  sink_eq h := h.sink_eq
  close h := ⟨h.scopes_eq, congrArg (· + 1) h.closures_eq, h.sink_eq⟩
  define h id name v :=
    ⟨congrArg (Scopes.define · id name v) h.scopes_eq, h.closures_eq, h.sink_eq⟩
  create h f := ⟨congrArg (Scopes.create · f) h.scopes_eq, h.closures_eq, h.sink_eq⟩
  log h _ _ := ⟨h.scopes_eq, h.closures_eq, h.sink_eq⟩
  write h _ := ⟨h.scopes_eq, h.closures_eq, rfl⟩

theorem evaluates_iff_forms {source : String} {xs : List Node} (h : parseText source = .ok xs)
    {scope : ScopeId} {s t : State} {r : Except Error Value} :
    Evaluates scope source s r t ↔ EvaluatesForms scope xs (s.log (.program xs.length)) r t := by
  refine exists_congr fun fuel => ?_
  rw [evaluate, h]

section Forms

variable {scope : ScopeId} {xs ys : List Node} {s s' t : State} {r : Except Error Value}

theorem evaluatesForms_iff : EvaluatesForms scope xs s r t ↔ ∃ fuel q,
    (Node.evalAll fuel scope xs).outcome s = some (q, t) ∧ finalResult q = r := by
  refine exists_congr fun fuel => ?_
  simp only [evaluateForms_eq, Option.map_eq_some_iff, Prod.exists, Prod.mk.injEq]
  constructor
  · rintro ⟨q, _, ho, hr, rfl⟩
    exact ⟨q, ho, hr⟩
  · rintro ⟨q, ho, hr⟩
    exact ⟨q, t, ho, hr, rfl⟩

theorem finalResult_append (vs : List Value) {ws : List Value} (h : ws ≠ []) :
    finalResult (.ok (vs ++ ws)) = finalResult (.ok ws) := by
  rw [finalResult, finalResult, lastValue, lastValue, List.getLast?_append,
    List.getLast?_eq_some_getLast h, Option.some_or]

theorem Node.evalAll_append (fuel : Nat) (scope : ScopeId) (xs ys : List Node) :
    evalAll fuel scope (xs ++ ys) = (do
      let vs ← evalAll fuel scope xs
      let ws ← evalAll fuel scope ys
      return vs ++ ws) :=
  List.mapM_append

theorem Node.evalAll_refines {fuel fuel' : Nat} (hle : fuel ≤ fuel') (scope : ScopeId)
    (xs : List Node) : Run.Refines (evalAll fuel scope xs) (evalAll fuel' scope xs) :=
  Run.Refines.mapM (eval_refines hle scope) xs

/-- Forms that follow others are evaluated in the state that these leave, unless they fail. -/
theorem evaluatesForms_append (hxs : xs ≠ []) (hys : ys ≠ []) :
    EvaluatesForms scope (xs ++ ys) s r t ↔
      (∃ e, r = .error e ∧ EvaluatesForms scope xs s (.error e) t) ∨
        ∃ v u, EvaluatesForms scope xs s (.ok v) u ∧ EvaluatesForms scope ys u r t := by
  have hvalues {fuel : Nat} {u w : State} {ws : List Value}
      (h : (Node.evalAll fuel scope ys).outcome u = some (.ok ws, w)) : ws ≠ [] := by
    rintro rfl
    exact hys (List.eq_nil_of_length_eq_zero (Node.length_of_evalAll h).symm)
  constructor
  · intro h
    obtain ⟨fuel, q, ho, rfl⟩ := evaluatesForms_iff.1 h
    rw [Node.evalAll_append] at ho
    rcases Run.outcome_bind_eq_some ho with ⟨e, he, rfl⟩ | ⟨vs, u, hvs, ho⟩
    · exact .inl ⟨_, rfl, evaluatesForms_iff.2 ⟨fuel, _, he, rfl⟩⟩
    obtain ⟨_, h⟩ | ⟨_, v, -, -, hv⟩ := finalResult_of_evalAll hvs hxs
    · cases h
    refine .inr ⟨v, u, evaluatesForms_iff.2 ⟨fuel, _, hvs, hv⟩, evaluatesForms_iff.2 ?_⟩
    rcases Run.outcome_bind_eq_some ho with ⟨e, he, rfl⟩ | ⟨ws, w, hws, ho⟩
    · exact ⟨fuel, _, he, rfl⟩
    · cases ho
      exact ⟨fuel, _, hws, (finalResult_append vs (hvalues hws)).symm⟩
  · rintro (⟨e, rfl, h⟩ | ⟨v, u, hx, hy⟩)
    · obtain ⟨fuel, q, ho, hq⟩ := evaluatesForms_iff.1 h
      obtain ⟨e', rfl⟩ | ⟨_, v, -, -, hv⟩ := finalResult_of_evalAll ho hxs
      · refine evaluatesForms_iff.2 ⟨fuel, .error e', ?_, hq⟩
        rw [Node.evalAll_append, Run.outcome_bind_of_error ho]
      · cases hv.symm.trans hq
    · obtain ⟨f, q, ho, hq⟩ := evaluatesForms_iff.1 hx
      obtain ⟨g, q', ho', rfl⟩ := evaluatesForms_iff.1 hy
      have hfirst := Node.evalAll_refines (Nat.le_max_left f g) scope xs _ _ ho
      have hsecond := Node.evalAll_refines (Nat.le_max_right f g) scope ys _ _ ho'
      rw [evaluatesForms_iff]
      cases q with
      | error e => cases hq
      | ok vs =>
        cases q' with
        | error e =>
          refine ⟨max f g, .error e, ?_, rfl⟩
          rw [Node.evalAll_append, Run.outcome_bind_of_ok hfirst, Run.outcome_bind_of_error hsecond]
        | ok ws =>
          refine ⟨max f g, .ok (vs ++ ws), ?_, finalResult_append vs (hvalues hsecond)⟩
          rw [Node.evalAll_append, Run.outcome_bind_of_ok hfirst, Run.outcome_bind_of_ok hsecond]
          rfl

theorem evaluatesForms_unbound {name : String} {p : Span}
    (h : s.scopes.resolve? scope name = none) :
    EvaluatesForms scope [.symbol name p] s r t ↔ r = .error (.eval (.unbound name p)) ∧ t = s := by
  have hends (fuel : Nat) : (Node.evalAll (fuel + 1) scope [.symbol name p]).outcome s =
      some (.error (.unbound name p), s) := by
    have hlookup := Run.outcome_lookup scope name p s
    rw [h] at hlookup
    rw [Node.evalAll, List.mapM_cons]
    exact Run.outcome_bind_of_error hlookup _
  rw [evaluatesForms_iff]
  constructor
  · rintro ⟨fuel, q, ho, rfl⟩
    match fuel with
    | 0 => cases ho
    | fuel + 1 =>
      cases (hends fuel).symm.trans ho
      exact ⟨rfl, rfl⟩
  · rintro ⟨rfl, rfl⟩
    exact ⟨1, _, hends 0, rfl⟩

/-- What was logged makes no difference. -/
theorem EvaluatesForms.sameButLog (h : EvaluatesForms scope xs s r t) (hs : s.SameButLog s') :
    ∃ t', EvaluatesForms scope xs s' r t' ∧ t.SameButLog t' := by
  obtain ⟨fuel, q, ho, rfl⟩ := evaluatesForms_iff.1 h
  obtain ⟨q', t', ho', hq, ht⟩ :=
    Node.evalAll_same State.SameButLog.indistinct (Nat.le_refl fuel) scope xs s s' hs q t ho
  obtain rfl := hq.eq
  exact ⟨t', evaluatesForms_iff.2 ⟨fuel, q, ho', rfl⟩, ht⟩

end Forms

/-! ### Forms that are alike -/

inductive Error.Alike (L : Likeness) : Error → Error → Prop
  | eval {e f : EvalError} (h : e.Alike L f) : Alike L (.eval e) (.eval f)

/-- What a result looks like: the written form of a value, or the message of an error. -/
def resultText : Except Error Value → String
  | .ok v => v.text
  | .error e => e.message

/-- Two evaluations end alike: with the same bytes written, bindings that are the
same up to their spans, and results that are the same up to their spans and look
the same. -/
structure EndAlike (S : Span → Span → Prop) (r : Except Error Value) (t : State)
    (r' : Except Error Value) (t' : State) : Prop where
  state : t.Alike (.ofSpans S) t'
  result : ResultRel (Error.Alike (.ofSpans S)) (Value.Alike (.ofSpans S)) r r'
  text_eq : resultText r = resultText r'

theorem EndAlike.of_alike {S : Span → Span → Prop} {r r' : Except Error Value} {t t' : State}
    (ht : t.Alike (.ofSpans S) t')
    (hr : ResultRel (Error.Alike (.ofSpans S)) (Value.Alike (.ofSpans S)) r r') :
    EndAlike S r t r' t' := by
  refine ⟨ht, hr, ?_⟩
  cases hr with
  | ok hv => exact hv.text_eq id
  | error he =>
    cases he with
    | eval he => exact he.message_eq id

theorem Error.Alike.symm {L : Likeness} {e f : Error} (h : e.Alike L f) : f.Alike L.flip e := by
  cases h with
  | eval h => exact .eval h.symm

/-- Forms that are alike, evaluated in states that are alike, end alike. -/
theorem EvaluatesForms.alike {L : Likeness} {scope : ScopeId} {xs ys : List Node} {s s' t : State}
    {r : Except Error Value} (h : EvaluatesForms scope xs s r t) (hxs : xs ≠ [])
    (hs : s.Alike L s') (hx : List.Forall₂ (Node.Alike L) xs ys) :
    ∃ r' t', EvaluatesForms scope ys s' r' t' ∧ t.Alike L t' ∧
      ResultRel (Error.Alike L) (Value.Alike L) r r' := by
  obtain ⟨fuel, q, ho, rfl⟩ := evaluatesForms_iff.1 h
  obtain ⟨q', t', ho', hq, ht⟩ := Node.evalAll_alike (Nat.le_refl fuel) scope hx s s' hs q t ho
  refine ⟨finalResult q', t', evaluatesForms_iff.2 ⟨fuel, q', ho', rfl⟩, ht, ?_⟩
  cases hq with
  | error he => exact .error (.eval he)
  | @ok vs ws hv =>
    obtain ⟨_, h⟩ | ⟨vs, v, h, hlast, hr⟩ := finalResult_of_evalAll ho hxs
    · cases h
    cases h
    obtain ⟨w, hlast', hvw⟩ := optionRel_some_left (getLast?_rel hv) hlast
    rw [hr, finalResult, lastValue, hlast']
    exact .ok hvw

theorem State.SameButLog.alike {L : Likeness} {s t : State} (h : s.SameButLog t)
    (hs : s.Alike L s) : s.Alike L t :=
  ⟨h.scopes_eq ▸ hs.scopes, h.closures_eq, h.sink_eq⟩

theorem State.SameButLog.alike_anySpans {s t : State} (h : s.SameButLog t) : s.Alike .anySpans t :=
  h.alike (s.alike_self (fun _ => rfl) fun _ _ => trivial)

theorem Node.forall₂_shift_anySpans (n : Nat) (ys : List Node) :
    List.Forall₂ (Node.Alike .anySpans) (ys.map (shift n)) ys := by
  refine List.forall₂_map_left_iff.2 (List.forall₂_same.2 fun y _ => ?_)
  have hy : y.Alike .anySpans (y.shift n) := y.alike_mapSpans (fun _ => rfl) fun _ _ => trivial
  have hflip := hy.symm
  rwa [Likeness.flip_anySpans] at hflip

/-! ### Spans of the second piece -/

/-- Where a span belongs when a piece begins at `n`, if the spans of the piece are
those from `K` on. -/
def Span.placed (K n : Nat) (p : Span) : Span :=
  if p.start < K then p else ⟨p.start - K + n, p.stop - K + n⟩

theorem Span.placed_of_lt {K : Nat} {p : Span} (h : p.start < K) (n : Nat) : p.placed K n = p :=
  if_pos h

theorem Span.placed_shift (K n : Nat) (p : Span) : (p.shift K).placed K n = p.shift n := by
  have hle : ¬p.start + K < K := Nat.not_lt.2 (Nat.le_add_left K p.start)
  simp only [placed, shift, if_neg hle, Nat.add_sub_cancel]

theorem Node.mapSpans_placed_shift (K n : Nat) (x : Node) :
    (x.shift K).mapSpans (Span.placed K n) = x.shift n := by
  rw [shift, mapSpans_mapSpans]
  exact congrArg (mapSpans · x) (funext fun p => p.placed_shift K n)

theorem Node.shift_zero (x : Node) : x.shift 0 = x := x.mapSpans_id

/-- The spans that are bound in a state begin before some place. -/
theorem State.exists_start_lt (s : State) : ∃ K, ∀ p, s.HasSpan p → p.start < K := by
  let spans := s.scopes.frames.toList.flatMap fun f => f.bindings.entries.flatMap fun e => e.2.spans
  obtain ⟨K, hK⟩ := Finset.exists_nat_subset_range (spans.map Span.start).toFinset
  refine ⟨K, fun p ⟨id, key, v, hv, hp⟩ => Finset.mem_range.1 (hK (List.mem_toFinset.2 ?_))⟩
  obtain ⟨f, hf, e, he, rfl⟩ := Scopes.exists_entry_of_bound hv
  exact List.mem_map_of_mem (List.mem_flatMap.2 ⟨f, Array.mem_toList_iff.2 hf,
    List.mem_flatMap.2 ⟨e, he, hp⟩⟩)

/-- How the second of two pieces, with the forms `ys`, ends by itself in `t` and how it
ends in the whole, where it begins at `n`. Its spans are told from those that are bound
in `t` by evaluating it with its spans beyond all of these, from some `K` on. By itself it
ends alike, but with these spans at `0`, and in the whole with these spans at `n`; all
other spans stay where they are. -/
def EndPlaced (scope : ScopeId) (ys : List Node) (n : Nat) (t : State) (r : Except Error Value)
    (u : State) (r' : Except Error Value) (u' : State) : Prop :=
  ∃ K, (∀ p, t.HasSpan p → p.start < K) ∧ ∃ r₀ u₀,
    EvaluatesForms scope (ys.map (Node.shift K)) t r₀ u₀ ∧
    EndAlike (fun p q => p.placed K 0 = q) r₀ u₀ r u ∧
    EndAlike (fun p q => p.placed K n = q) r₀ u₀ r' u'

section Placed

variable {scope : ScopeId} {ys : List Node} {t t' : State} {K : Nat}

theorem State.alike_placed (hK : ∀ p, t.HasSpan p → p.start < K) (n : Nat) (h : t.SameButLog t') :
    t.Alike (.ofSpans fun p q => p.placed K n = q) t' :=
  h.alike (t.alike_self (fun _ => rfl) fun p hp => p.placed_of_lt (hK p hp) n)

theorem Node.forall₂_alike_placed (ys : List Node) (K n : Nat) :
    List.Forall₂ (Node.Alike (.ofSpans fun p q => p.placed K n = q)) (ys.map (Node.shift K))
      (ys.map (Node.shift n)) := by
  refine List.forall₂_map_left_iff.2 (List.forall₂_map_right_iff.2 (List.forall₂_same.2 ?_))
  intro y _
  rw [← mapSpans_placed_shift K n y]
  exact alike_mapSpans (fun _ => rfl) _ fun _ _ => rfl

theorem EvaluatesForms.placed {r : Except Error Value} {u : State} {e : Event}
    (h : EvaluatesForms scope ys (t.log e) r u) (hys : ys ≠ []) (n : Nat) (htt : t.SameButLog t') :
    ∃ r' u', EvaluatesForms scope (ys.map (Node.shift n)) t' r' u' ∧
      EndPlaced scope ys n t r u r' u' := by
  obtain ⟨K, hK⟩ := t.exists_start_lt
  have hshift : ys.map (Node.shift 0) = ys := by
    rw [List.map_congr_left fun y _ => y.shift_zero, List.map_id']
  have hforms := Node.forall₂_alike_placed ys K 0
  rw [hshift] at hforms
  have hlog := State.alike_placed hK 0 (.log_right t e)
  obtain ⟨r₀, u₀, h₀, hu, hr⟩ :=
    h.alike hys hlog.symm (forall₂_symm_of_mem hforms fun _ _ _ h => h.symm)
  obtain ⟨r', u', h', hu', hr'⟩ := h₀.alike (fun hnil => hys (List.map_eq_nil_iff.1 hnil))
    (State.alike_placed hK n htt) (Node.forall₂_alike_placed ys K n)
  exact ⟨r', u', h', K, hK, r₀, u₀, h₀,
    .of_alike hu.symm (hr.symm (fun _ _ => Error.Alike.symm) fun _ _ => Value.Alike.symm),
    .of_alike hu' hr'⟩

end Placed

/-! ### Both pieces and the whole -/

section Whole

variable {scope : ScopeId} {a b c : String} {xs ys : List Node} {n : Nat} {s t u : State}
  {r : Except Error Value} (ha : parseText a = .ok xs) (hb : parseText b = .ok ys)
  (hc : parseText c = .ok (xs ++ ys.map (Node.shift n))) (hxs : xs ≠ []) (hys : ys ≠ [])

include hc hxs hys in
theorem evaluates_whole_iff : Evaluates scope c s r u ↔
    (∃ e, r = .error e ∧ EvaluatesForms scope xs (s.log (.program (xs.length + ys.length)))
        (.error e) u) ∨
      ∃ v t, EvaluatesForms scope xs (s.log (.program (xs.length + ys.length))) (.ok v) t ∧
        EvaluatesForms scope (ys.map (Node.shift n)) t r u := by
  have hlength : (xs ++ ys.map (Node.shift n)).length = xs.length + ys.length := by
    rw [List.length_append, List.length_map]
  rw [evaluates_iff_forms hc, hlength]
  exact evaluatesForms_append hxs fun h => hys (List.map_eq_nil_iff.1 h)

include ha in
/-- The first piece by itself logs another number of forms. -/
theorem Evaluates.first (h : Evaluates scope a s r t) (n : Nat) :
    ∃ u, EvaluatesForms scope xs (s.log (.program n)) r u ∧ t.SameButLog u :=
  ((evaluates_iff_forms ha).1 h).sameButLog (.log s _ _)

include ha in
theorem EvaluatesForms.first (h : EvaluatesForms scope xs (s.log (.program n)) r t) :
    ∃ u, Evaluates scope a s r u ∧ t.SameButLog u := by
  obtain ⟨u, hu, htu⟩ := h.sameButLog (.log s _ (.program xs.length))
  exact ⟨u, (evaluates_iff_forms ha).2 hu, htu⟩

include ha hc hxs hys in
theorem Evaluates.whole_of_error {e : Error} (h : Evaluates scope a s (.error e) t) :
    ∃ u, Evaluates scope c s (.error e) u ∧ t.SameButLog u := by
  obtain ⟨u, hu, htu⟩ := h.first ha (xs.length + ys.length)
  exact ⟨u, (evaluates_whole_iff hc hxs hys).2 (.inl ⟨e, rfl, hu⟩), htu⟩

include ha hb hc hxs hys in
theorem Evaluates.whole_of_ok {v : Value} (hx : Evaluates scope a s (.ok v) t)
    (hy : Evaluates scope b t r u) :
    ∃ r' u', Evaluates scope c s r' u' ∧ EndPlaced scope ys n t r u r' u' := by
  obtain ⟨t', ht', htt⟩ := hx.first ha (xs.length + ys.length)
  obtain ⟨r', u', h', hend⟩ := ((evaluates_iff_forms hb).1 hy).placed hys n htt
  exact ⟨r', u', (evaluates_whole_iff hc hxs hys).2 (.inr ⟨v, t', ht', h'⟩), hend⟩

include ha hb hc hxs hys in
/-- If the whole ends, then so do the pieces. -/
theorem Evaluates.exists_both (h : Evaluates scope c s r u) :
    ∃ r u, EvaluatesBoth scope a b s r u := by
  rcases (evaluates_whole_iff hc hxs hys).1 h with ⟨e, rfl, hx⟩ | ⟨v, t', hx, hy⟩
  · obtain ⟨t, ht, -⟩ := hx.first ha
    exact ⟨_, t, .failed ht⟩
  · obtain ⟨t, ht, htt⟩ := hx.first ha
    obtain ⟨r', u', h', -⟩ := hy.alike (fun h => hys (List.map_eq_nil_iff.1 h))
      (htt.alike_anySpans.log_right (.program ys.length)) (Node.forall₂_shift_anySpans _ ys)
    exact ⟨r', u', .succeeded ht ((evaluates_iff_forms hb).2 h')⟩

end Whole

/-- A program may be cut at any separator after a text that parses to at least
one form. If what follows does not parse, nothing is evaluated and the error is
that of the second piece, further on. If it parses to at least one form, then the
whole ends exactly if the pieces do that are evaluated one after the other: with the
error of the first piece if it fails, and otherwise like the second piece, with its
spans further on. -/
theorem evaluate_append_separator {a : String} {xs : List Node} (ha : parseText a = .ok xs)
    (hxs : xs ≠ []) {w : Char} (hw : isSeparator w) (b : String) (scope : ScopeId) (s : State) :
    (∀ e, parseText b = .error e → ∀ fuel,
      evaluate fuel scope (a ++ String.singleton w ++ b) s =
        some (.error (e.shift (a.utf8ByteSize + 1)), s)) ∧
    ∀ ys, parseText b = .ok ys → ys ≠ [] →
      ((∃ r u, EvaluatesBoth scope a b s r u) ↔
        ∃ r u, Evaluates scope (a ++ String.singleton w ++ b) s r u) ∧
      (∀ e t, Evaluates scope a s (.error e) t →
        ∃ u, Evaluates scope (a ++ String.singleton w ++ b) s (.error e) u ∧ t.SameButLog u) ∧
      ∀ v t r u, Evaluates scope a s (.ok v) t → Evaluates scope b t r u →
        ∃ r' u', Evaluates scope (a ++ String.singleton w ++ b) s r' u' ∧
          EndPlaced scope ys (a.utf8ByteSize + 1) t r u r' u' := by
  have hwhole := parseText_append ha hw b
  constructor
  · intro e he fuel
    rw [evaluate, hwhole, he]
    rfl
  · intro ys hb hys
    rw [hb] at hwhole
    refine ⟨⟨?_, ?_⟩, fun e t h => h.whole_of_error ha hwhole hxs hys,
      fun v t r u hx hy => hx.whole_of_ok ha hb hwhole hxs hys hy⟩
    · rintro ⟨r, u, h⟩
      cases h with
      | failed hx =>
        obtain ⟨u, hu, -⟩ := hx.whole_of_error ha hwhole hxs hys
        exact ⟨_, u, hu⟩
      | succeeded hx hy =>
        obtain ⟨r', u', h', -⟩ := hx.whole_of_ok ha hb hwhole hxs hys hy
        exact ⟨r', u', h'⟩
    · rintro ⟨r, u, h⟩
      exact h.exists_both ha hb hwhole hxs hys

/-- The body of a closure that is bound by the first piece stands at the same place as a
name in the second that is not bound. The name is blamed where it stands in the whole,
and the body stays where it is. -/
theorem evaluates_append_unbound :
    let f : Value := .function (.closure ⟨0, "f", [], .symbol "y" ⟨10, 11⟩, 0⟩)
    parseText "(fun f [] y)" = .ok [.function "f" [] (.symbol "y" ⟨10, 11⟩) ⟨0, 12⟩] ∧
      parseText "          y" = .ok [.symbol "y" ⟨10, 11⟩] ∧
      ∃ t u, Evaluates 0 "(fun f [] y)" (.fresh none) (.ok f) t ∧
        Evaluates 0 "          y" t (.error (.eval (.unbound "y" ⟨10, 11⟩))) u ∧
        ∃ u', Evaluates 0 ("(fun f [] y)" ++ String.singleton ' ' ++ "          y") (.fresh none)
            (.error (.eval (.unbound "y" ⟨23, 24⟩))) u' ∧
          (u'.scopes.bindings 0).find? "f" = some f := by
  intro f
  have ha : parseText "(fun f [] y)" = .ok [.function "f" [] (.symbol "y" ⟨10, 11⟩) ⟨0, 12⟩] := by
    with_unfolding_all rfl
  have hb : parseText "          y" = .ok [.symbol "y" ⟨10, 11⟩] := by with_unfolding_all rfl
  let s := (State.fresh none).log (.program 1)
  let t := Node.stateMade s 0 "f" [] (.symbol "y" ⟨10, 11⟩) ⟨0, 12⟩
  have hx : Evaluates 0 "(fun f [] y)" (.fresh none) (.ok f) t :=
    (evaluates_iff_forms ha).2 (evaluatesForms_iff.2 ⟨1, .ok [f], rfl, rfl⟩)
  have hnone : t.scopes.resolve? 0 "y" = none := Option.isNone_iff_eq_none.1 (by decide +kernel)
  have hlogged : (t.log (.program 1)).scopes.resolve? 0 "y" = none := hnone
  have hy : Evaluates 0 "          y" t (.error (.eval (.unbound "y" ⟨10, 11⟩)))
      (t.log (.program 1)) :=
    (evaluates_iff_forms hb).2 ((evaluatesForms_unbound hlogged).2 ⟨rfl, rfl⟩)
  obtain ⟨-, -, hsucceeded⟩ := (evaluate_append_separator ha (List.cons_ne_nil _ _) (w := ' ') rfl
    "          y" 0 (.fresh none)).2 _ hb (List.cons_ne_nil _ _)
  obtain ⟨r', u', h', K, hK, r₀, u₀, h₀, -, hend⟩ := hsucceeded f t _ _ hx hy
  obtain ⟨rfl, rfl⟩ := (evaluatesForms_unbound hnone).1 h₀
  -- the body of the closure stands before the place from which the second piece is marked
  have hf : (t.scopes.bindings 0).find? "f" = some f := by
    have hkey : Text.lowercase "f" = "f" := by decide +kernel
    have hfound := s.scopes.find?_bindings_define_self "f" f Nat.one_pos
    rwa [hkey] at hfound
  have hlt : 10 < K := hK ⟨10, 11⟩ ⟨0, "f", f, hf, List.mem_singleton_self _⟩
  refine ⟨ha, hb, t, _, hx, hy, u', ?_, ?_⟩
  · have hres := hend.result
    cases hres with
    | error h =>
      cases h with
      | eval h =>
        cases h with
        | unbound hname hplace =>
          obtain rfl : "y" = _ := hname
          obtain rfl := (Span.placed_shift ..).symm.trans hplace
          exact h'
  · have hbindings := (Scopes.alike_iff_relOn.1 hend.state.scopes).bindings 0
    obtain ⟨w, hw, hfw⟩ := optionRel_some_left (hbindings "f" trivial) hf
    rw [hw]
    dsimp only [f] at hfw ⊢
    cases hfw with
    | function hfun =>
      cases hfun with
      | @closure _ d hid hname hparams hbody hscope =>
        obtain ⟨id, name, params, body, scope⟩ := d
        cases hid
        cases hname
        cases hparams
        cases hscope
        cases hbody with
        | symbol hname hplace =>
          cases hname
          cases (Span.placed_of_lt hlt _).symm.trans hplace
          rfl

end SmallLisp
