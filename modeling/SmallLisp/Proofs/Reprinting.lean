import SmallLisp.Proofs.Likeness.Evaluation
import SmallLisp.Proofs.Programs
import SmallLisp.Proofs.RoundTrip

/-! The meaning of a printed program. A program in which no number overflows and
its written form have trees that differ in nothing but their spans, down to the
sign of zero, and what differs in spans only is evaluated alike. So a program and
its written form end or do not end together, write the same, and leave behind
what looks the same. -/

namespace SmallLisp

/-! ### What can be seen of the end of a program -/

/-- The kind of an error, without anything that tells errors of that kind apart. -/
inductive ErrorKind where
  | unterminatedString
  | unexpectedToken | unexpectedEnd | unclosed | emptyExpression | malformed
  | unbound | notAFunction | conditionNotBoolean | arity | invalidArguments | sinkFull
  deriving DecidableEq

def EvalError.kind : EvalError → ErrorKind
  | unbound .. => .unbound
  | notAFunction .. => .notAFunction
  | conditionNotBoolean .. => .conditionNotBoolean
  | arity .. => .arity
  | invalidArguments .. => .invalidArguments
  | sinkFull _ => .sinkFull

def ParseError.kind : ParseError → ErrorKind
  | unexpectedToken .. => .unexpectedToken
  | unexpectedEnd _ => .unexpectedEnd
  | unclosed _ => .unclosed
  | emptyExpression _ => .emptyExpression
  | malformed .. => .malformed

def Error.kind : Error → ErrorKind
  | lex _ => .unterminatedString
  | parse e => e.kind
  | eval e => e.kind

/-- Two evaluations end with the same bytes written, with values that are written
the same or errors of one kind with one message, and with the same names bound in
each scope, to values that are written the same. -/
structure LooksAlike (r : Except Error Value) (t : State) (r' : Except Error Value) (t' : State) :
    Prop where
  written_eq : t.sink = t'.sink
  result : ResultRel (fun e f => e.kind = f.kind ∧ e.message = f.message)
    (fun v w => v.text = w.text) r r'
  bindings : ∀ id key, ((t.scopes.bindings id).find? key).map Value.text =
    ((t'.scopes.bindings id).find? key).map Value.text

theorem LooksAlike.symm {r r' : Except Error Value} {t t' : State} (h : LooksAlike r t r' t') :
    LooksAlike r' t' r t where
  written_eq := h.written_eq.symm
  result := h.result.symm (fun _ _ he => ⟨he.1.symm, he.2.symm⟩) fun _ _ hv => hv.symm
  bindings id key := (h.bindings id key).symm

theorem LooksAlike.trans {r r' r'' : Except Error Value} {t t' t'' : State}
    (h : LooksAlike r t r' t') (k : LooksAlike r' t' r'' t'') : LooksAlike r t r'' t'' where
  written_eq := h.written_eq.trans k.written_eq
  result := h.result.trans k.result (fun _ _ _ he hf => ⟨he.1.trans hf.1, he.2.trans hf.2⟩)
    fun _ _ _ => Eq.trans
  bindings id key := (h.bindings id key).trans (k.bindings id key)

/-! ### Ends that differ in spans only -/

theorem EvalError.Rel.kind_eq {L : Likeness} {V : Value → Value → Prop} {e f : EvalError}
    (h : e.Rel L V f) : e.kind = f.kind := by
  cases h <;> rfl

theorem EvalError.Alike.kind_eq {L : Likeness} {e f : EvalError} (h : e.Alike L f) :
    e.kind = f.kind :=
  (EvalError.alike_iff_rel.1 h).kind_eq

section Ends

variable {L : Likeness} (hL : ∀ {f g : String}, L.name f g → f = g)
include hL

theorem Scopes.Alike.text_bindings_eq {s t : Scopes} (h : s.Alike L t) (id : ScopeId)
    (key : String) :
    ((s.bindings id).find? key).map Value.text = ((t.bindings id).find? key).map Value.text :=
  optionRel_map_eq ((alike_iff_relOn.1 h).bindings id key trivial) fun _ _ hv => hv.text_eq hL

theorem looksAlike_finalResult {q q' : Except EvalError (List Value)} {t t' : State}
    (hq : ResultRel (EvalError.Alike L) (List.Forall₂ (Value.Alike L)) q q')
    (ht : t.Alike L t') : LooksAlike (finalResult q) t (finalResult q') t' := by
  refine ⟨ht.sink_eq, ?_, ht.scopes.text_bindings_eq hL⟩
  have hresult := finalResult_rel (F := fun e f => e.kind = f.kind ∧ e.message = f.message) hq
    (fun _ _ h => ⟨h.kind_eq, h.message_eq hL⟩) fun _ => ⟨rfl, rfl⟩
  exact hresult.imp (fun _ _ h => h) fun _ _ hv => hv.text_eq hL

/-- A program whose trees are those of another but for their spans ends if the
other does, and what can be seen of it is the same. -/
theorem evaluates_of_alike {a b : String} {xs ys : List Node} (ha : parseText a = .ok xs)
    (hb : parseText b = .ok ys) (hx : List.Forall₂ (Node.Alike L) xs ys) {s s' : State}
    (hs : s.Alike L s') {scope : ScopeId} {r : Except Error Value} {t : State}
    (h : Evaluates scope a s r t) :
    ∃ r' t', Evaluates scope b s' r' t' ∧ LooksAlike r t r' t' := by
  obtain ⟨fuel, q, ho, rfl⟩ := (evaluates_iff ha).1 h
  have hlog := (hs.log_left (.program xs.length)).log_right (.program ys.length)
  obtain ⟨q', t', ho', hq, ht⟩ :=
    Node.evalAll_alike (Nat.le_refl fuel) scope hx _ _ hlog q t ho
  exact ⟨finalResult q', t', (evaluates_iff hb).2 ⟨fuel, q', ho', rfl⟩,
    looksAlike_finalResult hL hq ht⟩

end Ends

/-- A program ends the same on states that differ in nothing but spans. -/
theorem evaluates_alike_self {source : String} {scope : ScopeId} {s s' t : State}
    (hs : s.Alike .anySpans s') {r : Except Error Value} (h : Evaluates scope source s r t) :
    ∃ r' t', Evaluates scope source s' r' t' ∧ LooksAlike r t r' t' := by
  cases hp : parseText source with
  | error e =>
    obtain ⟨fuel, h⟩ := h
    rw [evaluate, hp] at h
    cases h
    refine ⟨.error e, s', ⟨fuel, by rw [evaluate, hp]⟩, hs.sink_eq, .error ⟨rfl, rfl⟩, ?_⟩
    exact hs.scopes.text_bindings_eq id
  | ok forms =>
    refine evaluates_of_alike id hp hp (List.forall₂_same.2 fun x _ => ?_) hs h
    exact Node.alike_self (fun _ => rfl) x fun _ _ => trivial

/-! ### Programs and their written forms -/

/-- A program that parses and in which no number overflows is evaluated like its
written form: whenever one of the two ends so does the other, and what can be
seen of their ends is the same. -/
theorem evaluate_programText {source : String} {tokens : List Token} {forms : List Node}
    (ht : tokenize source = .ok tokens) (hp : parse tokens = .ok forms)
    (hfinite : ∀ t ∈ tokens, t.kind = .number →
      ∀ negative, Single.ofText? t.text ≠ some (.infinity negative))
    (scope : ScopeId) (s : State) :
    (∀ r t, Evaluates scope source s r t →
      ∃ r' t', Evaluates scope (Node.programText forms) s r' t' ∧ LooksAlike r t r' t') ∧
    ∀ r' t', Evaluates scope (Node.programText forms) s r' t' →
      ∃ r t, Evaluates scope source s r t ∧ LooksAlike r t r' t' := by
  have hsource : parseText source = .ok forms := parseText_eq_ok.2 ⟨tokens, ht, hp⟩
  obtain ⟨fs, rfl, rfl, hscanned⟩ := exists_forms_of_parse ht hp
  have hwell : Node.WellFormedAll Single.IsFinite (Form.nodes fs) :=
    (Form.wellFormedAll_iff fs hscanned).2 ((numbers_isFinite_iff hscanned).2 hfinite)
  obtain ⟨gs, hprinted, -, halike⟩ :=
    exists_parseText_programText (Node.WellFormedAll.mono (fun _ _ => trivial) _ hwell)
  have hnodes := halike hwell
  have hnodes' := forall₂_symm_of_mem hnodes fun _ _ _ h => h.symm
  have hs : s.Alike .anySpans s := s.alike_self (fun _ => rfl) fun _ _ => trivial
  constructor
  · intro r t h
    exact evaluates_of_alike Eq.symm hsource hprinted hnodes' hs.symm h
  · intro r' t' h
    obtain ⟨r, t, hr, hlooks⟩ := evaluates_of_alike id hprinted hsource hnodes hs h
    exact ⟨r, t, hr, hlooks.symm⟩

/-- The sign of zero, which equality of trees ignores, is kept: it decides the
sign of the quotient. -/
theorem evaluates_programText_negative_zero :
    ∃ tokens forms, tokenize "(/ 1 -0)" = .ok tokens ∧ parse tokens = .ok forms ∧
      Node.programText forms = "(/ 1.0 -0.0)" ∧
      ∃ v t, Evaluates 0 "(/ 1.0 -0.0)" (.fresh none) (.ok v) t ∧ v.text = "-inf" := by
  let tokens : List Token := [⟨.opening .round, "(", ⟨0, 1⟩⟩, ⟨.identifier, "/", ⟨1, 2⟩⟩,
    ⟨.number, "1", ⟨3, 4⟩⟩, ⟨.number, "-0", ⟨5, 7⟩⟩, ⟨.closing .round, ")", ⟨7, 8⟩⟩]
  have ht : tokenize "(/ 1 -0)" = .ok tokens := by decide +kernel
  have hfinite : ∀ t ∈ tokens, t.kind = .number →
      ∀ negative, Single.ofText? t.text ≠ some (.infinity negative) := by decide +kernel
  have hprint : (parse tokens).toOption.map Node.programText = some "(/ 1.0 -0.0)" := by
    decide +kernel
  have hvalue : (evaluate 3 0 "(/ 1 -0)" (.fresh none)).map (fun p => p.1.toOption.map Value.text) =
      some (some "-inf") := by decide +kernel
  cases hp : parse tokens with
  | error e =>
    rw [hp] at hprint
    cases hprint
  | ok forms =>
    rw [hp] at hprint
    have htext : Node.programText forms = "(/ 1.0 -0.0)" := Option.some.inj hprint
    obtain ⟨⟨r, t⟩, heval, hr⟩ := Option.map_eq_some_iff.1 hvalue
    obtain ⟨hforward, -⟩ := evaluate_programText ht hp hfinite 0 (.fresh none)
    obtain ⟨r', t', heval', hlooks⟩ := hforward r t ⟨3, heval⟩
    cases hlooks.result with
    | error => cases hr
    | ok hv =>
      refine ⟨tokens, forms, ht, hp, htext, _, t', htext ▸ heval', ?_⟩
      exact hv.symm.trans (Option.some.inj hr)

end SmallLisp
