import SmallLisp.Proofs.Grammar.Completeness

/-! The parser reads nothing but derivations: whatever it accepts are the tokens
of forms, each used once, and what it makes of them are the trees of the forms. -/

namespace SmallLisp

/-! ### Pieces -/

theorem Enclosed.cut_closer {b : Bracket} {depth : Nat} {ts : List Token} {e : Enclosed}
    (h : cut b depth ts = some e) : e.closer.kind = .closing b := by
  fun_induction cut b depth ts generalizing e with
  | case1 => simp at h
  | case3 t ts _ hk => cases h; exact hk
  | case2 _ t _ _ ih | case4 t _ _ _ _ ih | case5 _ t _ _ _ ih =>
    obtain ⟨d, hd, rfl⟩ := Option.map_eq_some_iff.1 h
    have hc : d.closer.kind = .closing b := ih hd
    exact hc

/-- The brackets that a cut is made at. -/
theorem Enclosed.cut_brackets {b : Bracket} {t : Token} {ts : List Token} {e : Enclosed}
    (hk : t.kind = .opening b) (h : cut b 0 ts = some e) :
    ∃ p : Brackets b, p.opener.val = t ∧ p.closer.val = e.closer ∧
      t :: ts = p.around e.inside ++ e.rest := by
  refine ⟨⟨⟨t, hk⟩, ⟨e.closer, cut_closer h⟩⟩, rfl, rfl, ?_⟩
  rw [Brackets.around_append]
  exact congrArg (t :: ·) (cut_eq_append h)

namespace Piece

/-- What the first piece of some tokens is made of. -/
inductive Proper : Piece → Prop where
  | atom {t : Token} (h : t.kind = .number ∨ t.kind = .string ∨ t.kind = .boolean ∨
      t.kind = .identifier) : Proper (.atom t)
  | group {b : Bracket} (p : Brackets b) (inside : List Token) :
      Proper (.group b p.opener.val inside p.closer.val)

def tokens : Piece → List Token
  | .atom t => [t]
  | .group _ opener inside closer => opener :: (inside ++ [closer])

theorem proper_of_take {expected : Expected} {t : Token} {ts rest : List Token} {p : Piece}
    (h : take expected t ts = .ok (p, rest)) : p.Proper ∧ t :: ts = p.tokens ++ rest := by
  unfold take at h
  split at h
  · next b hk =>
    split at h
    · next e he =>
      cases h
      obtain ⟨q, ho, hc, ht⟩ := Enclosed.cut_brackets hk he
      rw [ht, ← ho, ← hc]
      exact ⟨.group q e.inside, rfl⟩
    · simp at h
  · simp at h
  · simp at h
  all_goals
    next hk =>
      cases h
      exact ⟨.atom (by simp [hk]), rfl⟩

end Piece

theorem Form.tokens_piece (f : Form) : f.piece.tokens = f.tokens := by
  cases f <;> rfl

/-! ### Parts of a form -/

theorem parseAtom_sound {t : Token} {x : Node}
    (hk : t.kind = .number ∨ t.kind = .string ∨ t.kind = .boolean ∨ t.kind = .identifier)
    (h : parseAtom t = .ok x) : ∃ a : Atom, a.token = t ∧ a.node = x := by
  unfold parseAtom at h
  rcases hk with hk | hk | hk | hk <;> simp only [hk] at h
  · cases hx : Single.ofText? t.text with
    | none => simp [hx] at h
    | some y =>
      rw [hx] at h
      exact ⟨.number ⟨t, hk⟩ y hx, rfl, Except.ok.inj h⟩
  · exact ⟨.string ⟨t, hk⟩, rfl, Except.ok.inj h⟩
  · exact ⟨.boolean ⟨t, hk⟩, rfl, Except.ok.inj h⟩
  · exact ⟨.symbol ⟨t, hk⟩, rfl, Except.ok.inj h⟩

/-- A form whose tree is a symbol is an identifier. -/
theorem Form.eq_symbol_of_node {f : Form} {name : String} {span : Span}
    (h : f.node = .symbol name span) :
    ∃ t : Terminal .identifier, f = .atom (.symbol t) ∧ t.val.text = name := by
  cases f with
  | atom a =>
    cases a with
    | symbol t => exact ⟨t, rfl, (Node.symbol.inj h).1⟩
    | number | string | boolean => simp [node, Atom.node] at h
  | list p items => simp [node] at h
  | round p c => cases c <;> simp [node, Content.node] at h

theorem functionName_sound {f : Form} {name : String} (h : functionName f.node = .ok name) :
    ∃ t : Terminal .identifier, f = .atom (.symbol t) ∧ t.val.text = name := by
  unfold functionName at h
  split at h
  · next hf => exact Except.ok.inj h ▸ Form.eq_symbol_of_node hf
  · simp at h

theorem parameterName_sound {f : Form} {name : String} (h : parameterName f.node = .ok name) :
    ∃ t : Terminal .identifier, f = .atom (.symbol t) ∧ t.val.text = name := by
  unfold parameterName at h
  split at h
  · next hf => exact Except.ok.inj h ▸ Form.eq_symbol_of_node hf
  · simp at h

theorem mapM_parameterName_sound {fs : List Form} {names : List String}
    (h : (Form.nodes fs).mapM parameterName = .ok names) :
    ∃ ts : List (Terminal .identifier), fs = ts.map (fun t => .atom (.symbol t)) ∧
      ts.map (·.val.text) = names := by
  induction fs generalizing names with
  | nil => exact ⟨[], rfl, pure_eq_ok.1 h⟩
  | cons f fs ih =>
    simp only [Form.nodes, List.mapM_cons, bind_eq_ok, pure_eq_ok] at h
    obtain ⟨n, hn, ns, hns, rfl⟩ := h
    obtain ⟨t, rfl, rfl⟩ := parameterName_sound hn
    obtain ⟨ts, rfl, rfl⟩ := ih hns
    exact ⟨t :: ts, rfl, rfl⟩

theorem parameterNames_sound {f : Form} {names : List String}
    (h : parameterNames f.node = .ok names) :
    ∃ p : Params, p.form = f ∧ p.names.map (·.val.text) = names := by
  cases f with
  | atom a => cases a <;> simp [Form.node, Atom.node, parameterNames] at h
  | list p items =>
    obtain ⟨ts, rfl, hn⟩ := mapM_parameterName_sound h
    exact ⟨.square p ts, rfl, hn⟩
  | round p c =>
    cases c with
    | call head args =>
      have hm : (Form.nodes (.atom (.symbol head) :: args)).mapM parameterName = .ok names := h
      simp only [Form.nodes, List.mapM_cons, bind_eq_ok, pure_eq_ok] at hm
      obtain ⟨n, hn, ns, hns, rfl⟩ := hm
      obtain rfl : head.val.text = n := Except.ok.inj hn
      obtain ⟨ts, rfl, rfl⟩ := mapM_parameterName_sound hns
      exact ⟨.round p head ts, rfl, rfl⟩
    | apply q head args =>
      have hm : (Form.nodes (.round q head :: args)).mapM parameterName = .ok names := h
      simp only [Form.nodes, List.mapM_cons, bind_eq_ok] at hm
      obtain ⟨n, hn, -⟩ := hm
      obtain ⟨_, hf, -⟩ := parameterName_sound hn
      simp at hf
    | letIn | conditional | function => simp [Form.node, Content.node, parameterNames] at h

theorem conditionalOf_sound {fs : List Form} {span : Span} {x : Node}
    (h : conditionalOf span (Form.nodes fs) = .ok x) :
    ∃ test yes no, fs = [test, yes, no] ∧
      x = .conditional test.node yes.node (some no.node) span := by
  match fs with
  | [test, yes, no] => exact ⟨test, yes, no, rfl, (Except.ok.inj h).symm⟩
  | [] | [_] | [_, _] | _ :: _ :: _ :: _ :: _ => simp [Form.nodes, conditionalOf] at h

/-- What follows the keyword of a function form. -/
theorem functionOf_sound {fs : List Form} {span : Span} {x : Node}
    (h : functionOf span (Form.nodes fs) = .ok x) :
    ∃ (name : Terminal .identifier) (params : Option Params) (body : Form),
      Form.tokensAll fs = name.val :: (params.elim [] Params.tokens ++ body.tokens) ∧
      x = .function name.val.text ((params.elim [] Params.names).map (·.val.text)) body.node
        span := by
  match fs with
  | [f, body] =>
    simp only [Form.nodes, functionOf, bind_eq_ok, pure_eq_ok] at h
    obtain ⟨_, hn, rfl⟩ := h
    obtain ⟨t, rfl, rfl⟩ := functionName_sound hn
    exact ⟨t, none, body, by simp [Form.tokensAll, Form.tokens, Atom.token], rfl⟩
  | [f, g, body] =>
    simp only [Form.nodes, functionOf, bind_eq_ok, pure_eq_ok] at h
    obtain ⟨_, hn, _, hp, rfl⟩ := h
    obtain ⟨t, rfl, rfl⟩ := functionName_sound hn
    obtain ⟨p, rfl, rfl⟩ := parameterNames_sound hp
    exact ⟨t, some p, body,
      by simp [Form.tokensAll, Form.tokens, Atom.token, p.tokens_form], rfl⟩
  | [] | [_] | _ :: _ :: _ :: _ :: _ => simp [Form.nodes, functionOf] at h

/-- A form that begins with an identifier or a round bracket may be the head of a call. -/
theorem Content.exists_call {t : Token} {ts : List Token} {f : Form} {args : List Form}
    (hk : t.kind = .identifier ∨ t.kind = .opening .round)
    (h : t :: ts = f.tokens ++ Form.tokensAll args) :
    ∃ c : Content, c.tokens = t :: ts ∧
      ∀ span, c.node span = .call f.node (Form.nodes args) span := by
  rcases hk with hk | hk
  · obtain ⟨rfl, rfl⟩ := f.eq_atom_of_tokens (a := .symbol ⟨t, hk⟩) h
    exact ⟨.call ⟨t, hk⟩ args, rfl, fun _ => rfl⟩
  · obtain ⟨p, c, rfl, -, -⟩ := f.eq_round_of_tokens (o := ⟨t, hk⟩) h
    exact ⟨.apply p c args, h.symm, fun _ => rfl⟩

/-! ### The parser -/

mutual

theorem parsePiece_sound : (p : Piece) → p.Proper → {x : Node} → parsePiece p = .ok x →
    ∃ f : Form, f.piece = p ∧ f.node = x
  | .atom t, .atom hk, x, h => by
    rw [parsePiece] at h
    obtain ⟨a, rfl, rfl⟩ := parseAtom_sound hk h
    exact ⟨.atom a, rfl, rfl⟩
  | .group .square _ inside _, .group p _, x, h => by
    rw [parsePiece, bind_eq_ok] at h
    obtain ⟨xs, hi, hx⟩ := h
    obtain ⟨items, rfl, rfl⟩ := parseMany_sound _ _ hi
    exact ⟨.list p items, rfl, pure_eq_ok.1 hx⟩
  | .group .round _ inside _, .group p _, x, h => by
    rw [parsePiece] at h
    obtain ⟨c, rfl, rfl⟩ := parseForm_sound _ _ h
    exact ⟨.round p c, rfl, rfl⟩
termination_by p => 2 * p.size
decreasing_by all_goals simp only [Piece.size]; omega

theorem parseMany_sound (expected : Expected) : (ts : List Token) → {xs : List Node} →
    parseMany expected ts = .ok xs → ∃ fs, Form.tokensAll fs = ts ∧ Form.nodes fs = xs
  | [], xs, h => by
    rw [parseMany] at h
    exact ⟨[], rfl, Except.ok.inj h⟩
  | t :: ts, xs, h => by
    simp only [parseMany_cons, bind_eq_ok, pure_eq_ok, Prod.exists] at h
    obtain ⟨p, rest, ht, y, hy, ys, hys, rfl⟩ := h
    have := Piece.take_length ht
    have := p.size_pos
    obtain ⟨hp, htokens⟩ := Piece.proper_of_take ht
    obtain ⟨f, rfl, rfl⟩ := parsePiece_sound p hp hy
    obtain ⟨fs, rfl, rfl⟩ := parseMany_sound expected rest hys
    exact ⟨f :: fs, by rw [htokens, f.tokens_piece, Form.tokensAll], rfl⟩
termination_by ts => 2 * ts.length + 1
decreasing_by all_goals simp only [List.length_cons]; omega

theorem parseForm_sound (span : Span) : (ts : List Token) → {x : Node} →
    parseForm span ts = .ok x → ∃ c : Content, c.tokens = ts ∧ c.node span = x
  | [], x, h => by simp [parseForm] at h
  | t :: ts, x, h => by
    by_cases hh : t.kind = .identifier ∨ t.kind = .opening .round
    · simp only [parseForm_head span ts hh, bind_eq_ok, pure_eq_ok, Prod.exists] at h
      obtain ⟨p, rest, ht, y, hy, args, hargs, rfl⟩ := h
      have := Piece.take_length ht
      have := p.size_pos
      obtain ⟨hp, htokens⟩ := Piece.proper_of_take ht
      obtain ⟨f, rfl, rfl⟩ := parsePiece_sound p hp hy
      obtain ⟨fs, rfl, rfl⟩ := parseMany_sound .argument rest hargs
      obtain ⟨c, hc, hn⟩ := Content.exists_call hh (f.tokens_piece ▸ htokens)
      exact ⟨c, hc, hn span⟩
    obtain ⟨hi, ho⟩ := not_or.1 hh
    by_cases hl : t.kind = .keyword .letForm
    · rw [parseForm_letForm span ts hl] at h
      obtain ⟨p, bindings, body, rfl, rfl⟩ := parseLet_sound span ts h
      exact ⟨.letIn ⟨t, hl⟩ p bindings body, rfl, rfl⟩
    by_cases hc : t.kind = .keyword .ifForm
    · rw [parseForm_ifForm span ts hc] at h
      obtain ⟨xs, hm, hx⟩ := bind_eq_ok.1 h
      obtain ⟨fs, rfl, rfl⟩ := parseMany_sound .argument ts hm
      obtain ⟨test, yes, no, rfl, rfl⟩ := conditionalOf_sound hx
      exact ⟨.conditional ⟨t, hc⟩ test yes no, by simp [Content.tokens, Form.tokensAll], rfl⟩
    by_cases hf : t.kind = .keyword .funForm
    · rw [parseForm_funForm span ts hf] at h
      obtain ⟨xs, hm, hx⟩ := bind_eq_ok.1 h
      obtain ⟨fs, rfl, rfl⟩ := parseMany_sound .argument ts hm
      obtain ⟨name, params, body, ht, rfl⟩ := functionOf_sound hx
      exact ⟨.function ⟨t, hf⟩ name params body, by rw [ht, Content.tokens], rfl⟩
    · have hk (word : Keyword) : t.kind ≠ .keyword word := by cases word <;> assumption
      rw [parseForm_unexpected span ts hk hi ho] at h
      cases h
termination_by ts => 2 * ts.length + 1
decreasing_by all_goals simp only [List.length_cons]; omega

theorem parseLet_sound (span : Span) : (ts : List Token) → {x : Node} →
    parseLet span ts = .ok x → ∃ (p : Brackets .round) (bindings : List (Bound Form)) (body : Form),
      p.around (Form.bindingTokens bindings) ++ body.tokens = ts ∧
      x = .letIn (Form.bindingNodes bindings) body.node span
  | [], x, h => by simp [parseLet] at h
  | t :: ts, x, h => by
    by_cases hk : t.kind = .opening .round
    · simp only [parseLet_cons ts span hk, bind_eq_ok, cutRound_eq_ok] at h
      obtain ⟨e, he, bs, hbs, xs, hxs, h⟩ := h
      have := Enclosed.cut_length he
      obtain ⟨bindings, hbt, rfl⟩ := parseBindings_sound e.inside hbs
      obtain ⟨fs, hft, rfl⟩ := parseMany_sound .argument e.rest hxs
      obtain ⟨p, -, -, ht⟩ := Enclosed.cut_brackets hk he
      match fs with
      | [body] =>
        refine ⟨p, bindings, body, ?_, (Except.ok.inj h).symm⟩
        rw [ht, hbt, ← hft, Form.tokensAll, Form.tokensAll, List.append_nil]
      | [] | _ :: _ :: _ => simp [Form.nodes, letOf] at h
    · rw [parseLet, if_neg hk] at h
      cases h
termination_by ts => 2 * ts.length + 1
decreasing_by all_goals simp only [List.length_cons]; omega

theorem parseBindings_sound : (ts : List Token) → {bs : List (String × Node)} →
    parseBindings ts = .ok bs →
    ∃ bindings, Form.bindingTokens bindings = ts ∧ Form.bindingNodes bindings = bs
  | [], bs, h => by
    rw [parseBindings] at h
    exact ⟨[], rfl, Except.ok.inj h⟩
  | t :: ts, bs, h => by
    by_cases hk : t.kind = .opening .round
    · simp only [parseBindings_cons ts hk, bind_eq_ok, pure_eq_ok, cutRound_eq_ok] at h
      obtain ⟨e, he, b, hb, cs, hcs, rfl⟩ := h
      have := Enclosed.cut_length he
      obtain ⟨name, value, hn, rfl⟩ := parseBinding_sound _ e.inside hb
      obtain ⟨bindings, hbt, rfl⟩ := parseBindings_sound e.rest hcs
      obtain ⟨p, -, -, ht⟩ := Enclosed.cut_brackets hk he
      exact ⟨⟨p, name, value⟩ :: bindings, by rw [Form.bindingTokens, hn, hbt, ht], rfl⟩
    · rw [parseBindings, if_neg hk] at h
      cases h
termination_by ts => 2 * ts.length + 1
decreasing_by all_goals simp only [List.length_cons]; omega

theorem parseBinding_sound (span : Span) : (ts : List Token) → {b : String × Node} →
    parseBinding span ts = .ok b →
    ∃ (name : Terminal .identifier) (value : Form),
      name.val :: value.tokens = ts ∧ b = (name.val.text, value.node)
  | [], b, h => by simp [parseBinding] at h
  | [name], b, h => by
    rw [parseBinding] at h
    split at h <;> simp at h
  | name :: t :: ts, b, h => by
    by_cases hk : name.kind = .identifier
    · simp only [parseBinding_cons ts span hk, bind_eq_ok, Prod.exists] at h
      obtain ⟨p, rest, ht, y, hy, hr⟩ := h
      have := Piece.take_length ht
      have := p.size_pos
      obtain ⟨hp, htokens⟩ := Piece.proper_of_take ht
      obtain ⟨f, rfl, rfl⟩ := parsePiece_sound p hp hy
      cases rest with
      | nil =>
        refine ⟨⟨name, hk⟩, f, ?_, (Except.ok.inj hr).symm⟩
        rw [htokens, f.tokens_piece, List.append_nil]
      | cons extra us => cases hr
    · rw [parseBinding, if_neg hk] at h
      cases h
termination_by ts => 2 * ts.length + 1
decreasing_by all_goals simp only [List.length_cons]; omega

end

/-! ### Acceptance -/

theorem parse_tokensAll (fs : List Form) : parse (Form.tokensAll fs) = .ok (Form.nodes fs) :=
  parseMany_forms (Form.parsePiece_pieces fs) .form

/-- Programs are the texts that are cut into the tokens of forms. -/
theorem parseText_eq_ok_iff_forms {source : String} {xs : List Node} :
    parseText source = .ok xs ↔
      ∃ fs, tokenize source = .ok (Form.tokensAll fs) ∧ Form.nodes fs = xs := by
  rw [parseText_eq_ok]
  constructor
  · rintro ⟨ts, ht, hp⟩
    obtain ⟨fs, rfl, hfs⟩ := parseMany_sound .form ts hp
    exact ⟨fs, ht, hfs⟩
  · rintro ⟨fs, ht, rfl⟩
    exact ⟨_, ht, parse_tokensAll fs⟩

/-- Only a text without tokens is a program without forms. -/
theorem parseText_eq_nil {source : String} :
    parseText source = .ok [] ↔ tokenize source = .ok [] := by
  rw [parseText_eq_ok_iff_forms]
  constructor
  · rintro ⟨fs, ht, hfs⟩
    cases fs with
    | nil => exact ht
    | cons f fs => cases hfs
  · exact fun ht => ⟨[], ht, rfl⟩

theorem parseSingle_tokens (p : Brackets .round) (c : Content) :
    parseSingle (Form.round p c).tokens = .ok (Form.round p c).node := by
  have hc := Enclosed.cut_of_nested c.nested_tokens p.closer []
  rw [Form.tokens, Brackets.around, parseSingle, if_pos p.opener.property, hc]
  exact c.parseForm_tokens p.span

theorem parseSingle_sound {ts : List Token} {x : Node} (h : parseSingle ts = .ok x) :
    ∃ p c, (Form.round p c).tokens = ts ∧ (Form.round p c).node = x := by
  unfold parseSingle at h
  split at h
  · simp at h
  · split at h
    · next hk =>
      split at h
      · simp at h
      · next inside closer he =>
        obtain ⟨c, rfl, rfl⟩ := parseForm_sound _ inside h
        obtain ⟨p, rfl, rfl, ht⟩ := Enclosed.cut_brackets hk he
        exact ⟨p, c, by rw [ht, Form.tokens, List.append_nil], rfl⟩
      · simp at h
    · simp at h

/-- The parser accepts exactly the tokens of forms, and gives the trees of the
one derivation that they have; brackets of both kinds then nest. A single form
is accepted if it is the whole list and stands in round brackets. -/
theorem parse_eq_ok_iff_derivation (ts : List Token) :
    (∀ xs, parse ts = .ok xs ↔
      Nested ts ∧ ∃ fs, Form.nodes fs = xs ∧ ∀ gs, Form.tokensAll gs = ts ↔ gs = fs) ∧
    (∀ x, parseSingle ts = .ok x ↔
      ∃ p c, (Form.round p c).node = x ∧ ∀ gs, Form.tokensAll gs = ts ↔ gs = [.round p c]) := by
  constructor
  · intro xs
    constructor
    · intro h
      obtain ⟨fs, rfl, rfl⟩ := parseMany_sound .form ts h
      refine ⟨Form.nested_tokensAll fs, fs, rfl, fun gs => ⟨Form.tokensAll_injective, ?_⟩⟩
      rintro rfl
      rfl
    · rintro ⟨-, fs, rfl, hfs⟩
      rw [← (hfs fs).2 rfl, parse_tokensAll]
  · have single (f : Form) : Form.tokensAll [f] = f.tokens := List.append_nil _
    intro x
    constructor
    · intro h
      obtain ⟨p, c, rfl, rfl⟩ := parseSingle_sound h
      refine ⟨p, c, rfl, fun gs => ?_⟩
      rw [← single]
      exact ⟨Form.tokensAll_injective, fun e => e ▸ rfl⟩
    · rintro ⟨p, c, rfl, hgs⟩
      rw [← (hgs _).2 rfl, single, parseSingle_tokens]

end SmallLisp
