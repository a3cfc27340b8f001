import SmallLisp.Proofs.Parsing
import SmallLisp.Proofs.Grammar.Nesting

/-! The parser reads every derivation: from the tokens of forms it makes their
trees, and goes on with whatever follows as if the forms had not been there. -/

namespace SmallLisp

namespace Form

/-- The piece that a form is for the parser. -/
def piece : Form → Piece
  | .atom a => .atom a.token
  | .list p items => .group .square p.opener.val (tokensAll items) p.closer.val
  | .round p c => .group .round p.opener.val c.tokens p.closer.val

/-- The first piece of the tokens that begin with a form is that form. -/
theorem take_tokens (f : Form) (expected : Expected) (us : List Token) :
    ∃ t ts, f.tokens = t :: ts ∧ Piece.take expected t (ts ++ us) = .ok (f.piece, us) := by
  cases f with
  | atom a =>
    refine ⟨a.token, [], rfl, ?_⟩
    rcases a.kind_token with h | h | h | h <;> simp [Piece.take, h, piece]
  | list p items =>
    refine ⟨p.opener.val, _, rfl, ?_⟩
    have hc := Enclosed.cut_of_nested (nested_tokensAll items) p.closer us
    simp [Piece.take, p.opener.property, hc, piece]
  | round p c =>
    refine ⟨p.opener.val, _, rfl, ?_⟩
    have hc := Enclosed.cut_of_nested c.nested_tokens p.closer us
    simp [Piece.take, p.opener.property, hc, piece]

end Form

theorem parseMany_tokens {f : Form} (h : parsePiece f.piece = .ok f.node) (expected : Expected)
    (us : List Token) :
    parseMany expected (f.tokens ++ us) = (f.node :: ·) <$> parseMany expected us := by
  obtain ⟨t, ts, ht, hp⟩ := f.take_tokens expected us
  rw [ht, List.cons_append, parseMany_cons, hp]
  show (do return (← parsePiece f.piece) :: (← parseMany expected us)) = _
  rw [h]
  rfl

theorem parseMany_tokensAll {fs : List Form} (h : ∀ f ∈ fs, parsePiece f.piece = .ok f.node)
    (expected : Expected) (us : List Token) :
    parseMany expected (Form.tokensAll fs ++ us) =
      (Form.nodes fs ++ ·) <$> parseMany expected us := by
  induction fs with
  | nil => exact (id_map _).symm
  | cons f fs ih =>
    rw [Form.tokensAll, List.append_assoc, parseMany_tokens (h f (by simp)),
      ih fun g hg => h g (by simp [hg])]
    cases parseMany expected us <;> rfl

theorem parseMany_forms {fs : List Form} (h : ∀ f ∈ fs, parsePiece f.piece = .ok f.node)
    (expected : Expected) : parseMany expected (Form.tokensAll fs) = .ok (Form.nodes fs) := by
  have hm := parseMany_tokensAll h expected []
  rw [List.append_nil, parseMany] at hm
  rw [hm]
  exact congrArg Except.ok (List.append_nil _)

/-! ### Brackets -/

theorem cutRound_around (p : Brackets .round) {inside : List Token} (h : Nested inside)
    (ts : List Token) :
    cutRound p.opener.val (inside ++ p.closer.val :: ts) = .ok ⟨inside, p.closer.val, ts⟩ := by
  rw [cutRound, Enclosed.cut_of_nested h p.closer ts]

theorem parseLet_around (span : Span) (p : Brackets .round) {inside : List Token}
    (h : Nested inside) (ts : List Token) :
    parseLet span (p.around inside ++ ts) = (do
      letOf span (← parseBindings inside) (← parseMany .argument ts)) := by
  rw [Brackets.around_append, parseLet_cons _ _ p.opener.property, cutRound_around p h]
  rfl

theorem parseBindings_around (p : Brackets .round) {inside : List Token} (h : Nested inside)
    (ts : List Token) :
    parseBindings (p.around inside ++ ts) = do
      return (← parseBinding p.span inside) :: (← parseBindings ts) := by
  rw [Brackets.around_append, parseBindings_cons _ p.opener.property, cutRound_around p h]
  rfl

theorem parseBinding_form (span : Span) (name : Terminal .identifier) {value : Form}
    (h : parsePiece value.piece = .ok value.node) :
    parseBinding span (name.val :: value.tokens) = .ok (name.val.text, value.node) := by
  obtain ⟨t, ts, ht, hp⟩ := value.take_tokens .bindingValue []
  rw [List.append_nil] at hp
  rw [ht, parseBinding_cons _ _ name.property, hp]
  show parsePiece value.piece >>= (bindingOf name.val.text · []) = _
  rw [h]
  rfl

/-! ### Whole derivations -/

theorem parseAtom_token (a : Atom) : parseAtom a.token = .ok a.node := by
  cases a with
  | number t x hx => simp [parseAtom, Atom.token, Atom.node, t.property, hx]
  | string t | boolean t | symbol t => simp [parseAtom, Atom.token, Atom.node, t.property]

theorem parsePiece_atom (a : Atom) : parsePiece (.atom a.token) = .ok a.node := by
  rw [parsePiece, parseAtom_token]

theorem parseMany_name (name : Terminal .identifier) (expected : Expected) (us : List Token) :
    parseMany expected (name.val :: us) =
      (.symbol name.val.text name.val.span :: ·) <$> parseMany expected us :=
  parseMany_tokens (f := .atom (.symbol name)) (parsePiece_atom _) expected us

theorem parsePiece_list (p : Brackets .square) {items : List Form}
    (h : ∀ f ∈ items, parsePiece f.piece = .ok f.node) :
    parsePiece (Form.list p items).piece = .ok (Form.list p items).node := by
  rw [Form.piece, parsePiece, parseMany_forms h, Form.node]
  rfl

theorem parsePiece_round {p : Brackets .round} {c : Content}
    (h : parseForm p.span c.tokens = .ok (c.node p.span)) :
    parsePiece (Form.round p c).piece = .ok (Form.round p c).node := by
  rw [Form.piece, parsePiece, Form.node, ← h]
  rfl

theorem parseForm_call (span : Span) (head : Terminal .identifier) {args : List Form}
    (h : ∀ f ∈ args, parsePiece f.piece = .ok f.node) :
    parseForm span (Content.call head args).tokens = .ok ((Content.call head args).node span) := by
  have ht : Piece.take .head head.val (Form.tokensAll args) =
      .ok (.atom (Atom.symbol head).token, Form.tokensAll args) := by
    simp [Piece.take, head.property, Atom.token]
  rw [Content.tokens, parseForm_head _ _ (.inl head.property), ht]
  show (do
    let f ← parsePiece (.atom (Atom.symbol head).token)
    return Node.call f (← parseMany .argument (Form.tokensAll args)) span) = _
  rw [parsePiece_atom, parseMany_forms h]
  rfl

theorem mapM_parameterName (names : List (Terminal .identifier)) :
    (Form.nodes (names.map fun n => .atom (.symbol n))).mapM parameterName =
      .ok (names.map (·.val.text)) := by
  induction names with
  | nil => rfl
  | cons n names ih =>
    have hn : parameterName (Form.atom (.symbol n)).node = .ok n.val.text := rfl
    rw [List.map_cons, Form.nodes, List.mapM_cons, hn, ih]
    rfl

theorem parameterNames_form (p : Params) :
    parameterNames p.form.node = .ok (p.names.map (·.val.text)) := by
  cases p with
  | square p names => exact mapM_parameterName names
  | round p first others => exact mapM_parameterName (first :: others)

/-- The symbols of a parameter list are read as they stand. -/
theorem parsePiece_params (p : Params) : parsePiece p.form.piece = .ok p.form.node := by
  have hs (names : List (Terminal .identifier)) :
      ∀ f ∈ names.map (fun n => Form.atom (.symbol n)), parsePiece f.piece = .ok f.node := by
    simp only [List.mem_map]
    rintro f ⟨n, -, rfl⟩
    exact parsePiece_atom (.symbol n)
  cases p with
  | square p names => exact parsePiece_list p (hs names)
  | round p first others => exact parsePiece_round (parseForm_call p.span first (hs others))

mutual

theorem Form.parsePiece_piece : (f : Form) → parsePiece f.piece = .ok f.node
  | .atom a => parsePiece_atom a
  | .list p items => parsePiece_list p (Form.parsePiece_pieces items)
  | .round p c => parsePiece_round (Content.parseForm_tokens c p.span)

theorem Content.parseForm_tokens : (c : Content) → (span : Span) →
    parseForm span c.tokens = .ok (c.node span)
  | .call head args, span => parseForm_call span head (Form.parsePiece_pieces args)
  | .apply p head args, span => by
    have hc := Enclosed.cut_of_nested head.nested_tokens p.closer (Form.tokensAll args)
    have ht : Piece.take .head p.opener.val (head.tokens ++ p.closer.val :: Form.tokensAll args) =
        .ok ((Form.round p head).piece, Form.tokensAll args) := by
      simp [Piece.take, p.opener.property, hc, Form.piece]
    rw [Content.tokens, Brackets.around_append, parseForm_head _ _ (.inr p.opener.property), ht]
    show (do
      let f ← parsePiece (Form.round p head).piece
      return Node.call f (← parseMany .argument (Form.tokensAll args)) span) = _
    rw [parsePiece_round (Content.parseForm_tokens head p.span),
      parseMany_forms (Form.parsePiece_pieces args)]
    rfl
  | .letIn word p bindings body, span => by
    have hm := parseMany_tokens (Form.parsePiece_piece body) .argument []
    rw [List.append_nil, parseMany] at hm
    rw [Content.tokens, parseForm_letForm _ _ word.property,
      parseLet_around span p (Form.nested_bindingTokens bindings),
      Form.parseBindings_tokens bindings, hm]
    rfl
  | .conditional word test yes no, span => by
    have hm : parseMany .argument (test.tokens ++ (yes.tokens ++ (no.tokens ++ []))) =
        .ok [test.node, yes.node, no.node] := by
      rw [parseMany_tokens (Form.parsePiece_piece test),
        parseMany_tokens (Form.parsePiece_piece yes), parseMany_tokens (Form.parsePiece_piece no),
        parseMany]
      rfl
    rw [List.append_nil] at hm
    rw [Content.tokens, parseForm_ifForm _ _ word.property, hm]
    rfl
  | .function word name params body, span => by
    have hb := parseMany_tokens (Form.parsePiece_piece body) .argument []
    rw [List.append_nil, parseMany] at hb
    rw [Content.tokens, parseForm_funForm _ _ word.property, parseMany_name]
    cases params with
    | none =>
      rw [Option.elim_none, List.nil_append, hb]
      rfl
    | some p =>
      rw [Option.elim_some, ← p.tokens_form, parseMany_tokens (parsePiece_params p), hb]
      change functionOf span [.symbol name.val.text name.val.span, p.form.node, body.node] = _
      rw [functionOf, parameterNames_form]
      rfl

theorem Form.parsePiece_pieces : (fs : List Form) → ∀ f ∈ fs, parsePiece f.piece = .ok f.node
  | [] => by simp
  | f :: fs => List.forall_mem_cons.2 ⟨Form.parsePiece_piece f, Form.parsePiece_pieces fs⟩

theorem Form.parseBindings_tokens : (bs : List (Bound Form)) →
    parseBindings (Form.bindingTokens bs) = .ok (Form.bindingNodes bs)
  | [] => by rw [Form.bindingTokens, parseBindings]; rfl
  | ⟨p, name, value⟩ :: bs => by
    rw [Form.bindingTokens, parseBindings_around p (Form.nested_named name value),
      parseBinding_form _ name (Form.parsePiece_piece value), Form.parseBindings_tokens bs]
    rfl

end

end SmallLisp
