import SmallLisp.Proofs.Grammar

/-! The grammar is unambiguous. No form begins with a closing bracket, so a list
of forms reaches up to the first one; with that the tokens of a derivation
determine it from left to right, and every list of tokens has at most one. -/

namespace SmallLisp

/-- The end of the input or a closing bracket: what follows the last form of a list. -/
def Stops (ts : List Token) : Prop := ∀ t ∈ ts.head?, ∃ b, t.kind = .closing b

theorem Stops.nil : Stops [] := by simp [Stops]

theorem Stops.cons {b : Bracket} (t : Terminal (.closing b)) (ts : List Token) :
    Stops (t.val :: ts) := by
  intro u hu
  obtain rfl : t.val = u := by simpa using hu
  exact ⟨b, t.property⟩

/-- A token of one kind is not a token of another. -/
theorem Terminal.ne {k l : TokenKind} (t : Terminal k) (u : Terminal l) (h : k ≠ l) :
    t.val ≠ u.val := fun e => h (t.property ▸ u.property ▸ congrArg Token.kind e)

theorem Brackets.around_append {b : Bracket} (p : Brackets b) (ts us : List Token) :
    p.around ts ++ us = p.opener.val :: (ts ++ p.closer.val :: us) := by
  simp [around]

theorem Brackets.eq_of_val {b : Bracket} {p q : Brackets b} (ho : p.opener.val = q.opener.val)
    (hc : p.closer.val = q.closer.val) : p = q := by
  cases p; cases q
  simp only [mk.injEq]
  exact ⟨Subtype.ext ho, Subtype.ext hc⟩

theorem Atom.kind_token (a : Atom) :
    a.token.kind = .number ∨ a.token.kind = .string ∨ a.token.kind = .boolean ∨
      a.token.kind = .identifier := by
  cases a with
  | number t _ _ => exact .inl t.property
  | string t => exact .inr (.inl t.property)
  | boolean t => exact .inr (.inr (.inl t.property))
  | symbol t => exact .inr (.inr (.inr t.property))

theorem Atom.token_injective {a b : Atom} (h : a.token = b.token) : a = b := by
  cases a with
  | number t x hx =>
    cases b with
    | number u y hy =>
      obtain rfl : t = u := Subtype.ext h
      obtain rfl : x = y := Option.some.inj (hx.symm.trans hy)
      rfl
    | string u | boolean u | symbol u => exact absurd h (t.ne u (by simp))
  | string t =>
    cases b with
    | string u => exact congrArg _ (Subtype.ext h)
    | number u _ _ | boolean u | symbol u => exact absurd h (t.ne u (by simp))
  | boolean t =>
    cases b with
    | boolean u => exact congrArg _ (Subtype.ext h)
    | number u _ _ | string u | symbol u => exact absurd h (t.ne u (by simp))
  | symbol t =>
    cases b with
    | symbol u => exact congrArg _ (Subtype.ext h)
    | number u _ _ | string u | boolean u => exact absurd h (t.ne u (by simp))

namespace Form

theorem not_stops (f : Form) (ts : List Token) : ¬ Stops (f.tokens ++ ts) := by
  intro h
  cases f with
  | atom a =>
    obtain ⟨b, hb⟩ := h a.token (by simp [tokens])
    rcases a.kind_token with hk | hk | hk | hk <;> simp [hk] at hb
  | list p items =>
    obtain ⟨b, hb⟩ := h p.opener.val (by simp [tokens, Brackets.around])
    simp [p.opener.property] at hb
  | round p c =>
    obtain ⟨b, hb⟩ := h p.opener.val (by simp [tokens, Brackets.around])
    simp [p.opener.property] at hb

theorem bindings_not_stops (b : Bound Form) (bs : List (Bound Form)) (ts : List Token) :
    ¬ Stops (bindingTokens (b :: bs) ++ ts) := by
  intro h
  obtain ⟨p, name, value⟩ := b
  obtain ⟨b, hb⟩ := h p.opener.val (by simp [bindingTokens, Brackets.around])
  simp [p.opener.property] at hb

/-- A form that begins with the token of an atom is that atom. -/
theorem eq_atom_of_tokens (g : Form) {a : Atom} {ts us : List Token}
    (h : a.token :: ts = g.tokens ++ us) : g = .atom a ∧ ts = us := by
  have opener {b : Bracket} (t : Terminal (.opening b)) : a.token ≠ t.val := by
    intro e
    have hk := e ▸ a.kind_token
    simp [t.property] at hk
  cases g with
  | atom b =>
    obtain ⟨hb, ht⟩ : a.token = b.token ∧ ts = us := by simpa [tokens] using h
    exact ⟨congrArg atom (Atom.token_injective hb.symm), ht⟩
  | list p items =>
    rw [tokens, Brackets.around_append] at h
    exact absurd (List.cons.inj h).1 (opener p.opener)
  | round p c =>
    rw [tokens, Brackets.around_append] at h
    exact absurd (List.cons.inj h).1 (opener p.opener)

/-- A form that begins with a square bracket is a list. -/
theorem eq_list_of_tokens (g : Form) {o : Terminal (.opening .square)} {ts us : List Token}
    (h : o.val :: ts = g.tokens ++ us) :
    ∃ q items, g = .list q items ∧ o.val = q.opener.val ∧
      ts = tokensAll items ++ q.closer.val :: us := by
  cases g with
  | atom a =>
    have hk := congrArg Token.kind (List.cons.inj h).1 ▸ a.kind_token
    simp [o.property] at hk
  | list q items =>
    rw [tokens, Brackets.around_append] at h
    exact ⟨q, items, rfl, List.cons.inj h⟩
  | round q c =>
    rw [tokens, Brackets.around_append] at h
    exact absurd (List.cons.inj h).1 (o.ne q.opener (by simp))

/-- A form that begins with a round bracket is a form in round brackets. -/
theorem eq_round_of_tokens (g : Form) {o : Terminal (.opening .round)} {ts us : List Token}
    (h : o.val :: ts = g.tokens ++ us) :
    ∃ q c, g = .round q c ∧ o.val = q.opener.val ∧
      ts = c.tokens ++ q.closer.val :: us := by
  cases g with
  | atom a =>
    have hk := congrArg Token.kind (List.cons.inj h).1 ▸ a.kind_token
    simp [o.property] at hk
  | list q items =>
    rw [tokens, Brackets.around_append] at h
    exact absurd (List.cons.inj h).1 (o.ne q.opener (by simp))
  | round q c =>
    rw [tokens, Brackets.around_append] at h
    exact ⟨q, c, rfl, List.cons.inj h⟩

/-- Identifiers up to the end of a list of forms are its symbols. -/
theorem eq_symbols_of_tokens (names : List (Terminal .identifier)) :
    ∀ {fs : List Form} {us vs : List Token}, Stops us → Stops vs →
      names.map Subtype.val ++ us = tokensAll fs ++ vs →
      fs = names.map (fun n => .atom (.symbol n)) ∧ us = vs := by
  induction names with
  | nil =>
    intro fs us vs hu _ h
    cases fs with
    | nil => simpa [tokensAll] using h
    | cons f fs =>
      obtain rfl : us = f.tokens ++ (tokensAll fs ++ vs) := by simpa [tokensAll] using h
      exact absurd hu (f.not_stops _)
  | cons n names ih =>
    intro fs us vs hu hv h
    cases fs with
    | nil =>
      obtain ⟨b, hb⟩ := hv n.val (by simp [← show _ = vs from h])
      simp [n.property] at hb
    | cons f fs =>
      rw [tokensAll, List.append_assoc, List.map_cons, List.cons_append] at h
      obtain ⟨rfl, hr⟩ := f.eq_atom_of_tokens (a := .symbol n) h
      obtain ⟨rfl, rfl⟩ := ih hu hv hr
      exact ⟨rfl, rfl⟩

end Form

namespace Params

/-- A parameter list is itself a form: a list, or a call. -/
def form : Params → Form
  | square p names => .list p (names.map fun n => .atom (.symbol n))
  | round p first others => .round p (.call first (others.map fun n => .atom (.symbol n)))

theorem tokensAll_symbols (names : List (Terminal .identifier)) :
    Form.tokensAll (names.map fun n => .atom (.symbol n)) = names.map Subtype.val := by
  induction names with
  | nil => rfl
  | cons n names ih => simp [Form.tokensAll, Form.tokens, Atom.token, ih]

theorem tokens_form (p : Params) : p.form.tokens = p.tokens := by
  cases p <;> simp [form, tokens, Form.tokens, Content.tokens, tokensAll_symbols]

theorem form_injective {p q : Params} (h : p.form = q.form) : p = q := by
  have hs : ∀ m n : Terminal .identifier, Form.atom (.symbol m) = .atom (.symbol n) → m = n := by
    simp
  cases p <;> cases q <;> simp_all [form, List.map_inj_right hs]

/-- The only form with the tokens of a parameter list is that list. -/
theorem eq_form_of_tokens (p : Params) (g : Form) {us vs : List Token}
    (h : p.tokens ++ us = g.tokens ++ vs) : g = p.form ∧ us = vs := by
  cases p with
  | square p names =>
    rw [tokens, Brackets.around_append] at h
    obtain ⟨q, items, rfl, ho, hi⟩ := g.eq_list_of_tokens h
    obtain ⟨rfl, hr⟩ := Form.eq_symbols_of_tokens names (Stops.cons _ _) (Stops.cons _ _) hi
    obtain ⟨hc, rfl⟩ := List.cons.inj hr
    obtain rfl := Brackets.eq_of_val ho hc
    exact ⟨rfl, rfl⟩
  | round p first others =>
    rw [tokens, Brackets.around_append] at h
    obtain ⟨q, c, rfl, ho, hi⟩ := g.eq_round_of_tokens h
    cases c with
    | call head args =>
      obtain ⟨hn, ha⟩ := List.cons.inj hi
      obtain ⟨rfl, hr⟩ := Form.eq_symbols_of_tokens others (Stops.cons _ _) (Stops.cons _ _) ha
      obtain ⟨hc, rfl⟩ := List.cons.inj hr
      obtain rfl := Brackets.eq_of_val ho hc
      obtain rfl := Subtype.ext hn
      exact ⟨rfl, rfl⟩
    | apply r head args =>
      exact absurd (List.cons.inj hi).1 (first.ne r.opener (by simp))
    | letIn word | conditional word | function word =>
      exact absurd (List.cons.inj hi).1 (first.ne word (by simp))

/-- A parameter list may only be missing where none can be read: it is a form
too, and then nothing would be left for the body. -/
theorem optional_eq_of_tokens {p q : Option Params} {f g : Form} {us vs : List Token}
    (hu : Stops us) (hv : Stops vs)
    (h : p.elim [] tokens ++ (f.tokens ++ us) = q.elim [] tokens ++ (g.tokens ++ vs)) :
    p = q ∧ f.tokens ++ us = g.tokens ++ vs := by
  cases p with
  | none =>
    cases q with
    | none => exact ⟨rfl, h⟩
    | some q =>
      obtain ⟨_, hr⟩ := q.eq_form_of_tokens f h.symm
      exact absurd (hr ▸ hu) (g.not_stops vs)
  | some p =>
    cases q with
    | none =>
      obtain ⟨_, hr⟩ := p.eq_form_of_tokens g h
      exact absurd (hr ▸ hv) (f.not_stops us)
    | some q =>
      have hf : p.tokens ++ (f.tokens ++ us) = q.form.tokens ++ (g.tokens ++ vs) := by
        rw [tokens_form]
        exact h
      obtain ⟨hq, hr⟩ := p.eq_form_of_tokens q.form hf
      exact ⟨congrArg some (form_injective hq.symm), hr⟩

end Params

/-! ### Reading a derivation from left to right -/

namespace Content

/-- The kind of the first token, which is different for every constructor. -/
def lead : Content → TokenKind
  | call .. => .identifier
  | apply .. => .opening .round
  | letIn .. => .keyword .letForm
  | conditional .. => .keyword .ifForm
  | function .. => .keyword .funForm

theorem tokens_eq_cons (c : Content) : ∃ t ts, c.tokens = t :: ts ∧ t.kind = c.lead := by
  cases c with
  | call head args => exact ⟨_, _, by rw [tokens], head.property⟩
  | apply p head args => exact ⟨_, _, by rw [tokens, Brackets.around_append], p.opener.property⟩
  | letIn word | conditional word | function word => exact ⟨_, _, by rw [tokens], word.property⟩

theorem lead_eq_of_tokens {c d : Content} {ts us : List Token}
    (h : c.tokens ++ ts = d.tokens ++ us) : c.lead = d.lead := by
  obtain ⟨t, _, hc, hct⟩ := c.tokens_eq_cons
  obtain ⟨u, _, hd, hdu⟩ := d.tokens_eq_cons
  rw [hc, hd] at h
  rw [← hct, ← hdu, (List.cons.inj h).1]

end Content

mutual

/-- A derivation is determined by its tokens, whatever follows them. -/
theorem Form.eq_of_tokens : (f g : Form) → {us vs : List Token} →
    f.tokens ++ us = g.tokens ++ vs → f = g ∧ us = vs
  | .atom a, g, us, vs, h => by
    obtain ⟨rfl, rfl⟩ := g.eq_atom_of_tokens h
    exact ⟨rfl, rfl⟩
  | .list p items, g, us, vs, h => by
    rw [Form.tokens, Brackets.around_append] at h
    obtain ⟨q, others, rfl, ho, hi⟩ := g.eq_list_of_tokens h
    obtain ⟨rfl, hr⟩ := Form.all_eq_of_tokens items others (Stops.cons _ _) (Stops.cons _ _) hi
    obtain ⟨hc, rfl⟩ := List.cons.inj hr
    obtain rfl := Brackets.eq_of_val ho hc
    exact ⟨rfl, rfl⟩
  | .round p c, g, us, vs, h => by
    rw [Form.tokens, Brackets.around_append] at h
    obtain ⟨q, d, rfl, ho, hi⟩ := g.eq_round_of_tokens h
    obtain ⟨rfl, hr⟩ := Content.eq_of_tokens c d (Stops.cons _ _) (Stops.cons _ _) hi
    obtain ⟨hc, rfl⟩ := List.cons.inj hr
    obtain rfl := Brackets.eq_of_val ho hc
    exact ⟨rfl, rfl⟩

theorem Content.eq_of_tokens : (c d : Content) → {us vs : List Token} → Stops us → Stops vs →
    c.tokens ++ us = d.tokens ++ vs → c = d ∧ us = vs
  | .call head args, d, us, vs, hu, hv, h => by
    have hl := Content.lead_eq_of_tokens h
    cases d with
    | call head' args' =>
      obtain ⟨hn, ha⟩ := List.cons.inj h
      obtain ⟨rfl, rfl⟩ := Form.all_eq_of_tokens args args' hu hv ha
      obtain rfl := Subtype.ext hn
      exact ⟨rfl, rfl⟩
    | _ => simp [Content.lead] at hl
  | .apply p head args, d, us, vs, hu, hv, h => by
    have hl := Content.lead_eq_of_tokens h
    cases d with
    | apply q head' args' =>
      rw [Content.tokens, Content.tokens, List.append_assoc, List.append_assoc,
        Brackets.around_append, Brackets.around_append] at h
      obtain ⟨ho, hi⟩ := List.cons.inj h
      obtain ⟨rfl, hr⟩ := Content.eq_of_tokens head head' (Stops.cons _ _) (Stops.cons _ _) hi
      obtain ⟨hc, ha⟩ := List.cons.inj hr
      obtain ⟨rfl, rfl⟩ := Form.all_eq_of_tokens args args' hu hv ha
      obtain rfl := Brackets.eq_of_val ho hc
      exact ⟨rfl, rfl⟩
    | _ => simp [Content.lead] at hl
  | .letIn word p bindings body, d, us, vs, hu, hv, h => by
    have hl := Content.lead_eq_of_tokens h
    cases d with
    | letIn word' q bindings' body' =>
      simp only [Content.tokens, List.cons_append, List.append_assoc, Brackets.around_append] at h
      obtain ⟨hw, hb⟩ := List.cons.inj h
      obtain ⟨ho, hi⟩ := List.cons.inj hb
      obtain ⟨rfl, hr⟩ :=
        Form.bindings_eq_of_tokens bindings bindings' (Stops.cons _ _) (Stops.cons _ _) hi
      obtain ⟨hc, hx⟩ := List.cons.inj hr
      obtain ⟨rfl, rfl⟩ := Form.eq_of_tokens body body' hx
      obtain rfl := Brackets.eq_of_val ho hc
      obtain rfl := Subtype.ext hw
      exact ⟨rfl, rfl⟩
    | _ => simp [Content.lead] at hl
  | .conditional word test yes no, d, us, vs, hu, hv, h => by
    have hl := Content.lead_eq_of_tokens h
    cases d with
    | conditional word' test' yes' no' =>
      simp only [Content.tokens, List.cons_append, List.append_assoc] at h
      obtain ⟨hw, ht⟩ := List.cons.inj h
      obtain ⟨rfl, hy⟩ := Form.eq_of_tokens test test' ht
      obtain ⟨rfl, hn⟩ := Form.eq_of_tokens yes yes' hy
      obtain ⟨rfl, rfl⟩ := Form.eq_of_tokens no no' hn
      obtain rfl := Subtype.ext hw
      exact ⟨rfl, rfl⟩
    | _ => simp [Content.lead] at hl
  | .function word name params body, d, us, vs, hu, hv, h => by
    have hl := Content.lead_eq_of_tokens h
    cases d with
    | function word' name' params' body' =>
      simp only [Content.tokens, List.cons_append, List.append_assoc] at h
      obtain ⟨hw, hr⟩ := List.cons.inj h
      obtain ⟨hn, hp⟩ := List.cons.inj hr
      obtain ⟨rfl, hb⟩ := Params.optional_eq_of_tokens hu hv hp
      obtain ⟨rfl, rfl⟩ := Form.eq_of_tokens body body' hb
      obtain rfl := Subtype.ext hw
      obtain rfl := Subtype.ext hn
      exact ⟨rfl, rfl⟩
    | _ => simp [Content.lead] at hl

theorem Form.all_eq_of_tokens : (fs gs : List Form) → {us vs : List Token} → Stops us → Stops vs →
    Form.tokensAll fs ++ us = Form.tokensAll gs ++ vs → fs = gs ∧ us = vs
  | [], [], us, vs, _, _, h => ⟨rfl, h⟩
  | [], g :: gs, us, vs, hu, _, h => by
    obtain rfl : us = g.tokens ++ (Form.tokensAll gs ++ vs) := by simpa [Form.tokensAll] using h
    exact absurd hu (g.not_stops _)
  | f :: fs, [], us, vs, _, hv, h => by
    obtain rfl : f.tokens ++ (Form.tokensAll fs ++ us) = vs := by simpa [Form.tokensAll] using h
    exact absurd hv (f.not_stops _)
  | f :: fs, g :: gs, us, vs, hu, hv, h => by
    simp only [Form.tokensAll, List.append_assoc] at h
    obtain ⟨rfl, hr⟩ := Form.eq_of_tokens f g h
    obtain ⟨rfl, rfl⟩ := Form.all_eq_of_tokens fs gs hu hv hr
    exact ⟨rfl, rfl⟩

theorem Form.bindings_eq_of_tokens : (bs cs : List (Bound Form)) → {us vs : List Token} →
    Stops us → Stops vs → Form.bindingTokens bs ++ us = Form.bindingTokens cs ++ vs →
    bs = cs ∧ us = vs
  | [], [], us, vs, _, _, h => ⟨rfl, h⟩
  | [], c :: cs, us, vs, hu, _, h => absurd (h ▸ hu) (Form.bindings_not_stops c cs vs)
  | b :: bs, [], us, vs, _, hv, h => absurd (h ▸ hv) (Form.bindings_not_stops b bs us)
  | ⟨p, m, x⟩ :: bs, ⟨q, n, y⟩ :: cs, us, vs, hu, hv, h => by
    simp only [Form.bindingTokens, List.append_assoc, List.cons_append, Brackets.around_append] at h
    obtain ⟨ho, hi⟩ := List.cons.inj h
    obtain ⟨hn, hx⟩ := List.cons.inj hi
    obtain ⟨rfl, hr⟩ := Form.eq_of_tokens x y hx
    obtain ⟨hc, hb⟩ := List.cons.inj hr
    obtain ⟨rfl, rfl⟩ := Form.bindings_eq_of_tokens bs cs hu hv hb
    obtain rfl := Brackets.eq_of_val ho hc
    obtain rfl := Subtype.ext hn
    exact ⟨rfl, rfl⟩

end

/-- No list of tokens has two derivations. -/
theorem Form.tokensAll_injective {fs gs : List Form} (h : tokensAll fs = tokensAll gs) :
    fs = gs :=
  (all_eq_of_tokens fs gs Stops.nil Stops.nil (by rw [h])).1

end SmallLisp
