import SmallLisp.Proofs.Grammar.Soundness

/-! What the parser blames. Every parser reads the tokens from left to right and
goes on with what is inside of a bracket or beyond the one that closes it, and
where it gives up it blames the token before it or the brackets round nothing.
So an error arises in the tokens at a place that such steps lead to. Where the
brackets of both kinds nest they still nest at every such place, and no bracket
is to blame. -/

namespace SmallLisp

/-! ### Places -/

/-- The tokens that a parser may be at when it has some tokens to read. -/
inductive Reaches : List Token → List Token → Prop
  | here (ts : List Token) : Reaches ts ts
  | past {t : Token} {ts us : List Token} (hk : ∀ stack, t.kind.track stack = some stack)
    (h : Reaches ts us) : Reaches (t :: ts) us
  | inside {b : Bracket} {t : Token} {ts us : List Token} {e : Enclosed}
    (hk : t.kind = .opening b) (hc : Enclosed.cut b 0 ts = some e) (h : Reaches e.inside us) :
    Reaches (t :: ts) us
  | beyond {b : Bracket} {t : Token} {ts us : List Token} {e : Enclosed}
    (hk : t.kind = .opening b) (hc : Enclosed.cut b 0 ts = some e) (h : Reaches e.rest us) :
    Reaches (t :: ts) us

/-- What can be wrong with the tokens before a parser. A number is asked for only where
the text of one cannot be read. -/
inductive ParseError.Starts : ParseError → List Token → Prop
  | unexpected (t : Token) (ts : List Token) {expected : Expected}
    (hn : expected = .number → t.kind = .number ∧ Single.ofText? t.text = none) :
    Starts (.unexpectedToken t expected) (t :: ts)
  | unclosed {b : Bracket} {t : Token} {ts : List Token} (hk : t.kind = .opening b)
    (hc : Enclosed.cut b 0 ts = none) : Starts (.unclosed t) (t :: ts)
  | empty {t u : Token} (hk : t.kind = .opening .round) (hc : u.kind = .closing .round)
    (ts : List Token) : Starts (.emptyExpression (t.span.merge u.span)) (t :: u :: ts)
  | malformed (form : Keyword) (fault : FormFault) (span : Span) (ts : List Token) :
    Starts (.malformed form fault span) ts

/-- The error is about a place in the tokens. -/
def ParseError.ArisesIn (e : ParseError) (ts : List Token) : Prop :=
  ∃ us, Reaches ts us ∧ e.Starts us

namespace ParseError.ArisesIn

variable {e : ParseError} {b : Bracket} {t : Token} {ts : List Token} {d : Enclosed}

theorem here (h : e.Starts ts) : e.ArisesIn ts := ⟨ts, .here ts, h⟩

theorem past (hk : ∀ stack, t.kind.track stack = some stack) (h : e.ArisesIn ts) :
    e.ArisesIn (t :: ts) :=
  let ⟨us, hr, hs⟩ := h
  ⟨us, .past hk hr, hs⟩

theorem inside (hk : t.kind = .opening b) (hc : Enclosed.cut b 0 ts = some d)
    (h : e.ArisesIn d.inside) : e.ArisesIn (t :: ts) :=
  let ⟨us, hr, hs⟩ := h
  ⟨us, .inside hk hc hr, hs⟩

theorem beyond (hk : t.kind = .opening b) (hc : Enclosed.cut b 0 ts = some d)
    (h : e.ArisesIn d.rest) : e.ArisesIn (t :: ts) :=
  let ⟨us, hr, hs⟩ := h
  ⟨us, .beyond hk hc hr, hs⟩

theorem malformed (form : Keyword) (fault : FormFault) (span : Span) (ts : List Token) :
    ArisesIn (.malformed form fault span) ts := here (.malformed form fault span ts)

/-- A token where something other than a number is asked for. -/
theorem unexpected (t : Token) (ts : List Token) {expected : Expected}
    (hn : expected ≠ .number) : ArisesIn (.unexpectedToken t expected) (t :: ts) :=
  here (.unexpected t ts fun he => absurd he hn)

end ParseError.ArisesIn

/-! ### Pieces -/

section Pieces

variable {expected : Expected} {e : ParseError} {t : Token} {ts rest : List Token}

theorem Piece.arises_of_take (h : take expected t ts = .error e) (hn : expected ≠ .number) :
    e.ArisesIn (t :: ts) := by
  unfold take at h
  split at h
  · next b hk =>
    split at h
    · simp at h
    · next hc =>
      cases h
      exact .here (.unclosed hk hc)
  · cases h
    exact .unexpected t ts hn
  · cases h
    exact .unexpected t ts hn
  all_goals simp at h

theorem Piece.take_eq_ok {p : Piece} (h : take expected t ts = .ok (p, rest)) :
    (p = .atom t ∧ rest = ts ∧ ∀ stack, t.kind.track stack = some stack) ∨
    ∃ b d, t.kind = .opening b ∧ Enclosed.cut b 0 ts = some d ∧
      p = .group b t d.inside d.closer ∧ rest = d.rest := by
  unfold take at h
  split at h
  · next b hk =>
    split at h
    · next d hc =>
      cases h
      exact .inr ⟨b, d, hk, hc, rfl, rfl⟩
    · simp at h
  · simp at h
  · simp at h
  all_goals
    next hk =>
      cases h
      exact .inl ⟨rfl, rfl, fun stack => by rw [hk]; rfl⟩

/-- What is wrong after a piece is wrong with the tokens that the piece is taken off. -/
theorem ParseError.ArisesIn.after_take {p : Piece} (h : Piece.take expected t ts = .ok (p, rest))
    (he : e.ArisesIn rest) : e.ArisesIn (t :: ts) := by
  obtain ⟨rfl, rfl, hk⟩ | ⟨b, d, hk, hc, rfl, rfl⟩ := Piece.take_eq_ok h
  · exact he.past hk
  · exact he.beyond hk hc

theorem parseAtom_arises (h : parseAtom t = .error e) : e.ArisesIn (t :: ts) := by
  unfold parseAtom at h
  split at h
  · next hk =>
    split at h
    · cases h
    · next hx =>
      cases h
      exact .here (.unexpected t ts fun _ => ⟨hk, hx⟩)
  all_goals cases h

end Pieces

/-! ### Special forms -/

section Forms

variable {span : Span} {e : ParseError} {x : Node} {xs : List Node} (ts : List Token)

theorem conditionalOf_arises (h : conditionalOf span xs = .error e) : e.ArisesIn ts := by
  unfold conditionalOf at h
  split at h
  · cases h
  · cases h
    exact .malformed ..

theorem letOf_arises {bindings : List (String × Node)} (h : letOf span bindings xs = .error e) :
    e.ArisesIn ts := by
  unfold letOf at h
  split at h
  · cases h
  · cases h
    exact .malformed ..

theorem functionName_arises (h : functionName x = .error e) : e.ArisesIn ts := by
  unfold functionName at h
  split at h
  · cases h
  · cases h
    exact .malformed ..

theorem mapM_parameterName_arises (h : xs.mapM parameterName = .error e) : e.ArisesIn ts := by
  induction xs with
  | nil => cases h
  | cons x xs ih =>
    rw [List.mapM_cons, bind_eq_error] at h
    rcases h with h | ⟨name, -, h⟩
    · unfold parameterName at h
      split at h
      · cases h
      · cases h
        exact .malformed ..
    · rcases bind_eq_error.1 h with h | ⟨names, -, h⟩
      · exact ih h
      · cases h

theorem parameterNames_arises (h : parameterNames x = .error e) : e.ArisesIn ts := by
  unfold parameterNames at h
  split at h
  · exact mapM_parameterName_arises ts h
  · exact mapM_parameterName_arises ts h
  all_goals
    cases h
    exact .malformed ..

theorem functionOf_arises (h : functionOf span xs = .error e) : e.ArisesIn ts := by
  unfold functionOf at h
  split at h
  · rcases bind_eq_error.1 h with h | ⟨name, -, h⟩
    · exact functionName_arises ts h
    · cases h
  · rcases bind_eq_error.1 h with h | ⟨name, -, h⟩
    · exact functionName_arises ts h
    · rcases bind_eq_error.1 h with h | ⟨params, -, h⟩
      · exact parameterNames_arises ts h
      · cases h
  · cases h
    exact .malformed ..

theorem bindingOf_arises {name : String} (h : bindingOf name x ts = .error e) :
    e.ArisesIn ts := by
  cases ts with
  | nil => cases h
  | cons extra us =>
    cases h
    exact .unexpected extra us (by decide)

end Forms

/-! ### The parser -/

theorem cutRound_arises {e : ParseError} {t : Token} {ts : List Token}
    (hk : t.kind = .opening .round) (h : cutRound t ts = .error e) : e.ArisesIn (t :: ts) := by
  unfold cutRound at h
  split at h
  · cases h
  · next hc =>
    cases h
    exact .here (.unclosed hk hc)

/-- What is wrong with the tokens inside of round brackets, or with there being none. -/
theorem ParseError.ArisesIn.round {e : ParseError} {t : Token} {ts : List Token} {d : Enclosed}
    (hk : t.kind = .opening .round) (hc : Enclosed.cut .round 0 ts = some d)
    (h : (d.inside = [] ∧ e = .emptyExpression (t.span.merge d.closer.span)) ∨
      e.ArisesIn d.inside) : e.ArisesIn (t :: ts) := by
  rcases h with ⟨hi, rfl⟩ | h
  · have ht := Enclosed.cut_eq_append hc
    rw [hi, List.nil_append] at ht
    exact ht ▸ .here (.empty hk (Enclosed.cut_closer hc) d.rest)
  · exact h.inside hk hc

mutual

theorem parsePiece_arises {expected : Expected} {t : Token} {ts rest : List Token} :
    (p : Piece) → Piece.take expected t ts = .ok (p, rest) → {e : ParseError} →
    parsePiece p = .error e → e.ArisesIn (t :: ts)
  | .atom u, ht, e, h => by
    obtain ⟨hp, rfl, hk⟩ | ⟨b, d, -, -, hp, -⟩ := Piece.take_eq_ok ht
    · cases hp
      rw [parsePiece] at h
      exact parseAtom_arises h
    · cases hp
  | .group b u inside closer, ht, e, h => by
    obtain ⟨hp, -⟩ | ⟨b, d, hk, hc, hp, rfl⟩ := Piece.take_eq_ok ht
    · cases hp
    obtain ⟨rfl, rfl, hi, rfl⟩ := Piece.group.inj hp
    cases b with
    | square =>
      rw [parsePiece] at h
      rcases bind_eq_error.1 h with h | ⟨items, -, h⟩
      · exact .inside hk hc (hi ▸ parseMany_arises .listElement (by decide) inside h)
      · cases h
    | round =>
      rw [parsePiece] at h
      exact .round hk hc (hi ▸ parseForm_arises _ inside h)
termination_by p => 2 * p.size
decreasing_by all_goals simp only [Piece.size]; omega

theorem parseMany_arises (expected : Expected) (hn : expected ≠ .number) : (ts : List Token) →
    {e : ParseError} → parseMany expected ts = .error e → e.ArisesIn ts
  | [], e, h => by simp [parseMany] at h
  | t :: ts, e, h => by
    rw [parseMany_cons] at h
    rcases bind_eq_error.1 h with h | ⟨⟨p, rest⟩, ht, h⟩
    · exact Piece.arises_of_take h hn
    have := Piece.take_length ht
    have := p.size_pos
    rcases bind_eq_error.1 h with h | ⟨x, -, h⟩
    · exact parsePiece_arises p ht h
    rcases bind_eq_error.1 h with h | ⟨xs, -, h⟩
    · exact (parseMany_arises expected hn rest h).after_take ht
    · cases h
termination_by ts => 2 * ts.length + 1
decreasing_by all_goals simp only [List.length_cons]; omega

theorem parseForm_arises (span : Span) : (ts : List Token) → {e : ParseError} →
    parseForm span ts = .error e → (ts = [] ∧ e = .emptyExpression span) ∨ e.ArisesIn ts
  | [], e, h => by
    rw [parseForm] at h
    exact .inl ⟨rfl, (Except.error.inj h).symm⟩
  | t :: ts, e, h => by
    refine .inr ?_
    by_cases hh : t.kind = .identifier ∨ t.kind = .opening .round
    · rw [parseForm_head span ts hh] at h
      rcases bind_eq_error.1 h with h | ⟨⟨p, rest⟩, ht, h⟩
      · exact Piece.arises_of_take h (by decide)
      have := Piece.take_length ht
      have := p.size_pos
      rcases bind_eq_error.1 h with h | ⟨x, -, h⟩
      · exact parsePiece_arises p ht h
      rcases bind_eq_error.1 h with h | ⟨xs, -, h⟩
      · exact (parseMany_arises .argument (by decide) rest h).after_take ht
      · cases h
    obtain ⟨hi, ho⟩ := not_or.1 hh
    have word {k : Keyword} (hk : t.kind = .keyword k) (stack : List Bracket) :
        t.kind.track stack = some stack := by rw [hk]; rfl
    by_cases hl : t.kind = .keyword .letForm
    · rw [parseForm_letForm span ts hl] at h
      exact (parseLet_arises span ts h).past (word hl)
    by_cases hc : t.kind = .keyword .ifForm
    · rw [parseForm_ifForm span ts hc] at h
      rcases bind_eq_error.1 h with h | ⟨xs, -, h⟩
      · exact (parseMany_arises .argument (by decide) ts h).past (word hc)
      · exact conditionalOf_arises _ h
    by_cases hf : t.kind = .keyword .funForm
    · rw [parseForm_funForm span ts hf] at h
      rcases bind_eq_error.1 h with h | ⟨xs, -, h⟩
      · exact (parseMany_arises .argument (by decide) ts h).past (word hf)
      · exact functionOf_arises _ h
    · have hk (k : Keyword) : t.kind ≠ .keyword k := by cases k <;> assumption
      rw [parseForm_unexpected span ts hk hi ho] at h
      cases h
      exact .unexpected t ts (by decide)
termination_by ts => 2 * ts.length + 1
decreasing_by all_goals simp only [List.length_cons]; omega

theorem parseLet_arises (span : Span) : (ts : List Token) → {e : ParseError} →
    parseLet span ts = .error e → e.ArisesIn ts
  | [], e, h => by
    rw [parseLet] at h
    cases h
    exact .malformed ..
  | t :: ts, e, h => by
    by_cases hk : t.kind = .opening .round
    · rw [parseLet_cons ts span hk] at h
      rcases bind_eq_error.1 h with h | ⟨d, hd, h⟩
      · exact cutRound_arises hk h
      have hc := cutRound_eq_ok.1 hd
      have := Enclosed.cut_length hc
      rcases bind_eq_error.1 h with h | ⟨bindings, -, h⟩
      · exact (parseBindings_arises d.inside h).inside hk hc
      rcases bind_eq_error.1 h with h | ⟨bodies, -, h⟩
      · exact (parseMany_arises .argument (by decide) d.rest h).beyond hk hc
      · exact letOf_arises _ h
    · rw [parseLet, if_neg hk] at h
      cases h
      exact .unexpected t ts (by decide)
termination_by ts => 2 * ts.length + 1
decreasing_by all_goals simp only [List.length_cons]; omega

theorem parseBindings_arises : (ts : List Token) → {e : ParseError} →
    parseBindings ts = .error e → e.ArisesIn ts
  | [], e, h => by simp [parseBindings] at h
  | t :: ts, e, h => by
    by_cases hk : t.kind = .opening .round
    · rw [parseBindings_cons ts hk] at h
      rcases bind_eq_error.1 h with h | ⟨d, hd, h⟩
      · exact cutRound_arises hk h
      have hc := cutRound_eq_ok.1 hd
      have := Enclosed.cut_length hc
      rcases bind_eq_error.1 h with h | ⟨b, -, h⟩
      · exact .round hk hc (parseBinding_arises _ d.inside h)
      rcases bind_eq_error.1 h with h | ⟨bs, -, h⟩
      · exact (parseBindings_arises d.rest h).beyond hk hc
      · cases h
    · rw [parseBindings, if_neg hk] at h
      cases h
      exact .unexpected t ts (by decide)
termination_by ts => 2 * ts.length + 1
decreasing_by all_goals simp only [List.length_cons]; omega

theorem parseBinding_arises (span : Span) : (ts : List Token) → {e : ParseError} →
    parseBinding span ts = .error e → (ts = [] ∧ e = .emptyExpression span) ∨ e.ArisesIn ts
  | [], e, h => by
    rw [parseBinding] at h
    exact .inl ⟨rfl, (Except.error.inj h).symm⟩
  | [name], e, h => by
    refine .inr ?_
    rw [parseBinding] at h
    split at h
    · cases h
      exact .malformed ..
    · cases h
      exact .unexpected name [] (by decide)
  | name :: t :: ts, e, h => by
    refine .inr ?_
    by_cases hk : name.kind = .identifier
    · rw [parseBinding_cons ts span hk] at h
      refine .past (fun stack => by rw [hk]; rfl) ?_
      rcases bind_eq_error.1 h with h | ⟨⟨p, rest⟩, ht, h⟩
      · exact Piece.arises_of_take h (by decide)
      have := Piece.take_length ht
      have := p.size_pos
      rcases bind_eq_error.1 h with h | ⟨x, -, h⟩
      · exact parsePiece_arises p ht h
      · exact (bindingOf_arises rest h).after_take ht
    · rw [parseBinding, if_neg hk] at h
      cases h
      exact .unexpected name _ (by decide)
termination_by ts => 2 * ts.length + 1
decreasing_by all_goals simp only [List.length_cons]; omega

end

theorem parse_arises {ts : List Token} {e : ParseError} (h : parse ts = .error e) :
    e.ArisesIn ts := parseMany_arises .form (by decide) ts h

/-- A single form has its faults among the tokens too, but for their absence. -/
theorem parseSingle_arises {ts : List Token} {e : ParseError} (h : parseSingle ts = .error e) :
    (ts = [] ∧ e = .unexpectedEnd .parenthesis) ∨ e.ArisesIn ts := by
  cases ts with
  | nil => exact .inl ⟨rfl, (Except.error.inj h).symm⟩
  | cons t ts =>
    refine .inr ?_
    rw [parseSingle] at h
    split at h
    · next hk =>
      split at h
      · next hc =>
        cases h
        exact .here (.unclosed hk hc)
      · next inside closer hc => exact .round hk hc (parseForm_arises _ inside h)
      · next inside closer extra more hc =>
        cases h
        exact .beyond hk hc (.unexpected extra more (by decide))
    · cases h
      exact .unexpected t ts (by decide)

/-! ### Nesting -/

/-- A bracket that is open at first and not in the end has a partner, up to which the
brackets that were opened after it are closed. -/
theorem exists_partner {b : Bracket} {inner outer final : List Bracket} {ts : List Token}
    (h : openAfter (inner ++ b :: outer) ts = some final) (hl : final.length ≤ outer.length) :
    ∃ (us : List Token) (c : Terminal (.closing b)) (vs : List Token), ts = us ++ c.val :: vs ∧
      openAfter inner us = some [] ∧ openAfter outer vs = some final := by
  induction ts generalizing inner with
  | nil =>
    obtain rfl := Option.some.inj h
    simp only [List.length_append, List.length_cons] at hl
    omega
  | cons t ts ih =>
    -- one more token before the partner, which leaves `next` of the inner brackets open
    have step {next : List Bracket} (hk : t.kind.track inner = some next)
        (hn : openAfter (next ++ b :: outer) ts = some final) :
        ∃ (us : List Token) (c : Terminal (.closing b)) (vs : List Token),
          t :: ts = us ++ c.val :: vs ∧ openAfter inner us = some [] ∧
            openAfter outer vs = some final := by
      obtain ⟨us, c, vs, rfl, hu, hv⟩ := ih hn
      exact ⟨t :: us, c, vs, rfl, by rw [openAfter, hk, Option.bind_some, hu], hv⟩
    rw [openAfter] at h
    cases hk : t.kind with
    | opening c =>
      rw [hk] at h
      exact @step (c :: inner) (by rw [hk]; rfl) h
    | closing c =>
      rw [hk] at h
      cases inner with
      | nil =>
        by_cases hc : c = b
        · obtain rfl := hc
          simp only [List.nil_append, TokenKind.track, if_true, Option.bind_some] at h
          exact ⟨[], ⟨t, hk⟩, ts, rfl, rfl, h⟩
        · simp [TokenKind.track, hc] at h
      | cons d inner =>
        by_cases hc : c = d
        · simp only [List.cons_append, TokenKind.track, if_pos hc, Option.bind_some] at h
          exact step (by rw [hk, TokenKind.track, if_pos hc]) h
        · simp [TokenKind.track, hc] at h
    | number | string | boolean | identifier | keyword =>
      rw [hk] at h
      exact step (by rw [hk]; rfl) h

/-- Where brackets nest, an opening one is closed, and they nest inside and beyond. -/
theorem Nested.cut {b : Bracket} {t : Token} {ts : List Token} (h : Nested (t :: ts))
    (hk : t.kind = .opening b) :
    ∃ d, Enclosed.cut b 0 ts = some d ∧ Nested d.inside ∧ Nested d.rest := by
  rw [Nested, openAfter_opening [] ts ⟨t, hk⟩] at h
  obtain ⟨us, c, vs, rfl, hu, hv⟩ := @exists_partner b [] [] [] _ h (Nat.le_refl _)
  exact ⟨⟨us, c.val, vs⟩, Enclosed.cut_of_nested hu c vs, hu, hv⟩

/-- Brackets that nest do so wherever a parser goes. -/
theorem Nested.of_reaches {ts us : List Token} (hr : Reaches ts us) (h : Nested ts) :
    Nested us := by
  induction hr with
  | here => exact h
  | @past t ts us hk _ ih =>
    rw [Nested, openAfter, hk, Option.bind_some] at h
    exact ih h
  | inside hk hc _ ih =>
    obtain ⟨d, hd, hi, -⟩ := h.cut hk
    cases hd.symm.trans hc
    exact ih hi
  | beyond hk hc _ ih =>
    obtain ⟨d, hd, -, hr⟩ := h.cut hk
    cases hd.symm.trans hc
    exact ih hr

namespace ParseError

/-- The error is that a bracket is not closed, or that there is a closing one. -/
def BlamesBracket : ParseError → Prop
  | unexpectedToken t _ => ∃ b, t.kind = .closing b
  | unclosed _ => True
  | _ => False

/-- Where brackets nest, nothing that is wrong is the fault of a bracket. -/
theorem ArisesIn.not_blamesBracket {e : ParseError} {ts : List Token} (h : e.ArisesIn ts)
    (hn : Nested ts) : ¬e.BlamesBracket := by
  obtain ⟨us, hr, hs⟩ := h
  have hu : Nested us := hn.of_reaches hr
  cases hs with
  | unexpected t us =>
    rintro ⟨b, hb⟩
    simp [Nested, openAfter, hb, TokenKind.track] at hu
  | unclosed hk hc =>
    obtain ⟨d, hd, -⟩ := hu.cut hk
    cases hd.symm.trans hc
  | empty | malformed => exact id

end ParseError

/-- Where brackets nest, whatever else is wrong, no parser complains that one is not
closed or that there is a closing one. -/
theorem not_blamesBracket_of_nested {ts : List Token} (h : Nested ts) {e : ParseError}
    (he : parse ts = .error e ∨ parseSingle ts = .error e) : ¬e.BlamesBracket := by
  rcases he with he | he
  · exact (parse_arises he).not_blamesBracket h
  · rcases parseSingle_arises he with ⟨-, rfl⟩ | ha
    · exact id
    · exact ha.not_blamesBracket h

/-- In `(let ([x]) y)` an opening bracket stands where another one should, and in
`(f x) [y]` one stands where nothing should. -/
theorem not_blamesBracket_of_nested_let :
    let token (kind : TokenKind) (text : String) (start : Nat) : Token :=
      ⟨kind, text, ⟨start, start + text.utf8ByteSize⟩⟩
    let square := token (.opening .square) "[" 6
    let binding := [token (.opening .round) "(" 0, token (.keyword .letForm) "let" 1,
      token (.opening .round) "(" 5, square, token .identifier "x" 7,
      token (.closing .square) "]" 8, token (.closing .round) ")" 9, token .identifier "y" 11,
      token (.closing .round) ")" 12]
    let extra := [token (.opening .round) "(" 0, token .identifier "f" 1, token .identifier "x" 3,
      token (.closing .round) ")" 4, square, token .identifier "y" 7,
      token (.closing .square) "]" 8]
    (Nested binding ∧ parse binding = .error (.unexpectedToken square .binding) ∧
      ¬(ParseError.unexpectedToken square .binding).BlamesBracket) ∧
    (Nested extra ∧ parseSingle extra = .error (.unexpectedToken square .endOfExpression) ∧
      ¬(ParseError.unexpectedToken square .endOfExpression).BlamesBracket) := by
  intro token square binding extra
  have hb : Nested binding := by decide
  have he : Nested extra := by decide
  have hparse : parse binding = .error (.unexpectedToken square .binding) := by
    with_unfolding_all rfl
  have hsingle : parseSingle extra = .error (.unexpectedToken square .endOfExpression) := by
    with_unfolding_all rfl
  exact ⟨⟨hb, hparse, not_blamesBracket_of_nested hb (.inl hparse)⟩,
    ⟨he, hsingle, not_blamesBracket_of_nested he (.inr hsingle)⟩⟩

/-! ### What is blamed -/

/-- A parser goes to tokens that stand together. -/
theorem Reaches.infix {ts us : List Token} (h : Reaches ts us) : us <:+: ts := by
  induction h with
  | here => exact List.infix_rfl
  | past _ _ ih => exact ih.trans (List.suffix_cons _ _).isInfix
  | @inside b t ts us e _ hc _ ih =>
    rw [Enclosed.cut_eq_append hc]
    exact ih.trans ⟨[t], e.closer :: e.rest, rfl⟩
  | @beyond b t ts us e _ hc _ ih =>
    rw [Enclosed.cut_eq_append hc]
    exact ih.trans ⟨t :: (e.inside ++ [e.closer]), [], by simp⟩

namespace ParseError

/-- What an error blames is there among the tokens. -/
def Blames (ts : List Token) : ParseError → Prop
  | unexpectedToken t _ => t ∈ ts
  | unexpectedEnd _ => False
  | unclosed t => t ∈ ts ∧ ∃ b, t.kind = .opening b
  | emptyExpression s => ∃ before t u after, ts = before ++ t :: u :: after ∧
      t.kind = .opening .round ∧ u.kind = .closing .round ∧ s = t.span.merge u.span
  | malformed .. => True

theorem ArisesIn.blames {e : ParseError} {ts : List Token} (h : e.ArisesIn ts) : e.Blames ts := by
  obtain ⟨us, hr, hs⟩ := h
  obtain ⟨before, after, rfl⟩ := hr.infix
  cases hs with
  | unexpected => simp [Blames]
  | @unclosed b _ _ hk => exact ⟨by simp, b, hk⟩
  | @empty t u hk hc us => exact ⟨before, t, u, us ++ after, by simp, hk, hc, rfl⟩
  | malformed => trivial

/-- A number is asked for in the place of a token that should be one and cannot be read. -/
theorem ArisesIn.unread {t : Token} {ts : List Token}
    (h : ArisesIn (.unexpectedToken t .number) ts) :
    t ∈ ts ∧ t.kind = .number ∧ Single.ofText? t.text = none := by
  refine ⟨h.blames, ?_⟩
  obtain ⟨us, -, hs⟩ := h
  cases hs with
  | unexpected _ _ hn => exact hn rfl

end ParseError

end SmallLisp
