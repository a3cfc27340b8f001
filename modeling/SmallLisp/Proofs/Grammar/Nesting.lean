import SmallLisp.Proofs.Grammar.Unambiguous

/-! Nesting of brackets. A stack of open brackets follows the tokens from left to
right; every closing bracket has to match the innermost open one. The tokens of
a form leave any stack as it is. A parser that counts the brackets of one kind
finds the same partner, because its count is that of the kind on the stack. -/

namespace SmallLisp

/-- The open brackets, innermost first, after one more token. -/
def TokenKind.track (stack : List Bracket) : TokenKind → Option (List Bracket)
  | opening b => some (b :: stack)
  | closing b =>
    match stack with
    | c :: outer => if b = c then some outer else none
    | [] => none
  | _ => some stack

/-- The open brackets after some tokens, if every closing bracket among them has
closed the innermost open one. -/
def openAfter (stack : List Bracket) : List Token → Option (List Bracket)
  | [] => some stack
  | t :: ts => (t.kind.track stack).bind (openAfter · ts)

/-- The brackets of both kinds, taken in order, are balanced and properly nested. -/
def Nested (ts : List Token) : Prop := openAfter [] ts = some []

instance (ts : List Token) : Decidable (Nested ts) :=
  inferInstanceAs (Decidable (openAfter [] ts = some []))

section Steps

variable (stack : List Bracket) (ts : List Token)

theorem openAfter_opening {b : Bracket} (t : Terminal (.opening b)) :
    openAfter stack (t.val :: ts) = openAfter (b :: stack) ts := by
  simp [openAfter, t.property, TokenKind.track]

theorem openAfter_closing {b : Bracket} (t : Terminal (.closing b)) :
    openAfter (b :: stack) (t.val :: ts) = openAfter stack ts := by
  simp [openAfter, t.property, TokenKind.track]

theorem openAfter_word {k : Keyword} (t : Terminal (.keyword k)) :
    openAfter stack (t.val :: ts) = openAfter stack ts := by
  simp [openAfter, t.property, TokenKind.track]

theorem openAfter_name (t : Terminal .identifier) :
    openAfter stack (t.val :: ts) = openAfter stack ts := by
  simp [openAfter, t.property, TokenKind.track]

theorem openAfter_atom (a : Atom) : openAfter stack (a.token :: ts) = openAfter stack ts := by
  rcases a.kind_token with h | h | h | h <;> simp [openAfter, h, TokenKind.track]

theorem openAfter_around {b : Bracket} (p : Brackets b) {inside : List Token}
    (h : ∀ stack ts, openAfter stack (inside ++ ts) = openAfter stack ts) :
    openAfter stack (p.around inside ++ ts) = openAfter stack ts := by
  rw [Brackets.around_append, openAfter_opening, h, openAfter_closing]

end Steps

theorem openAfter_names (names : List (Terminal .identifier)) (stack : List Bracket)
    (ts : List Token) :
    openAfter stack (names.map Subtype.val ++ ts) = openAfter stack ts := by
  induction names with
  | nil => rfl
  | cons n names ih =>
    rw [List.map_cons, List.cons_append, openAfter_name _ _ n, ih]

theorem openAfter_params (p : Option Params) (stack : List Bracket) (ts : List Token) :
    openAfter stack (p.elim [] Params.tokens ++ ts) = openAfter stack ts := by
  cases p with
  | none => rfl
  | some p =>
    cases p with
    | square q names => exact openAfter_around _ _ q (openAfter_names names)
    | round q first others =>
      refine openAfter_around _ _ q fun stack ts => ?_
      rw [List.cons_append, openAfter_name _ _ first, openAfter_names]

mutual

/-- The tokens of a form leave all open brackets open and open no others. -/
theorem Form.openAfter_tokens : (f : Form) → (stack : List Bracket) → (ts : List Token) →
    openAfter stack (f.tokens ++ ts) = openAfter stack ts
  | .atom a, stack, ts => openAfter_atom stack ts a
  | .list p items, stack, ts => openAfter_around stack ts p (Form.openAfter_tokensAll items)
  | .round p c, stack, ts => openAfter_around stack ts p (Content.openAfter_tokens c)

theorem Content.openAfter_tokens : (c : Content) → (stack : List Bracket) → (ts : List Token) →
    openAfter stack (c.tokens ++ ts) = openAfter stack ts
  | .call head args, stack, ts => by
    rw [Content.tokens, List.cons_append, openAfter_name _ _ head,
      Form.openAfter_tokensAll args]
  | .apply p head args, stack, ts => by
    rw [Content.tokens, List.append_assoc, openAfter_around _ _ p (Content.openAfter_tokens head),
      Form.openAfter_tokensAll args]
  | .letIn word p bindings body, stack, ts => by
    rw [Content.tokens, List.cons_append, openAfter_word _ _ word,
      List.append_assoc, openAfter_around _ _ p (Form.openAfter_bindingTokens bindings),
      Form.openAfter_tokens body]
  | .conditional word test yes no, stack, ts => by
    rw [Content.tokens, List.cons_append, openAfter_word _ _ word,
      List.append_assoc, List.append_assoc, Form.openAfter_tokens test, Form.openAfter_tokens yes,
      Form.openAfter_tokens no]
  | .function word name params body, stack, ts => by
    rw [Content.tokens, List.cons_append, openAfter_word _ _ word,
      List.cons_append, openAfter_name _ _ name, List.append_assoc,
      openAfter_params, Form.openAfter_tokens body]

theorem Form.openAfter_tokensAll : (fs : List Form) → (stack : List Bracket) → (ts : List Token) →
    openAfter stack (Form.tokensAll fs ++ ts) = openAfter stack ts
  | [], _, _ => rfl
  | f :: fs, stack, ts => by
    rw [Form.tokensAll, List.append_assoc, Form.openAfter_tokens f, Form.openAfter_tokensAll fs]

theorem Form.openAfter_bindingTokens : (bs : List (Bound Form)) → (stack : List Bracket) →
    (ts : List Token) → openAfter stack (Form.bindingTokens bs ++ ts) = openAfter stack ts
  | [], _, _ => rfl
  | ⟨p, name, value⟩ :: bs, stack, ts => by
    rw [Form.bindingTokens, List.append_assoc, openAfter_around _ _ p,
      Form.openAfter_bindingTokens bs]
    intro stack ts
    rw [List.cons_append, openAfter_name _ _ name,
      Form.openAfter_tokens value]

end

/-- Tokens that leave the open brackets as they are nest. -/
theorem nested_of_openAfter {ts : List Token}
    (h : ∀ stack us, openAfter stack (ts ++ us) = openAfter stack us) : Nested ts := by
  have := h [] []
  rwa [List.append_nil] at this

theorem Form.nested_tokensAll (fs : List Form) : Nested (tokensAll fs) :=
  nested_of_openAfter (openAfter_tokensAll fs)

theorem Form.nested_bindingTokens (bs : List (Bound Form)) : Nested (bindingTokens bs) :=
  nested_of_openAfter (openAfter_bindingTokens bs)

theorem Form.nested_named (name : Terminal .identifier) (value : Form) :
    Nested (name.val :: value.tokens) := by
  refine nested_of_openAfter fun stack us => ?_
  rw [List.cons_append, openAfter_name, value.openAfter_tokens]

theorem Content.nested_tokens (c : Content) : Nested c.tokens :=
  nested_of_openAfter c.openAfter_tokens

/-! ### Counting brackets of one kind -/

namespace Enclosed

def prepend (ts : List Token) (e : Enclosed) : Enclosed := { e with inside := ts ++ e.inside }

section Cut

variable {b : Bracket} {t : Token} (depth : Nat) (ts : List Token)

theorem cut_opening (h : t.kind = .opening b) :
    cut b depth (t :: ts) = (cut b (depth + 1) ts).map (push t) := by
  simp [cut.eq_def b depth, h]

theorem cut_closing_zero (h : t.kind = .closing b) : cut b 0 (t :: ts) = some ⟨[], t, ts⟩ := by
  simp [cut, h]

theorem cut_closing_succ (h : t.kind = .closing b) :
    cut b (depth + 1) (t :: ts) = (cut b depth ts).map (push t) := by
  simp [cut, h]

theorem cut_other (ho : t.kind ≠ .opening b) (hc : t.kind ≠ .closing b) :
    cut b depth (t :: ts) = (cut b depth ts).map (push t) := by
  simp [cut.eq_def b depth (t :: ts), ho, hc]

end Cut

/-- While the brackets nest, the count of open brackets of one kind is right: a
cut passes over the tokens as the stack does. -/
theorem cut_append_of_openAfter {b : Bracket} {stack stack' : List Bracket} {ts : List Token}
    (h : openAfter stack ts = some stack') (depth : Nat) (us : List Token) :
    cut b (depth + stack.count b) (ts ++ us) =
      (cut b (depth + stack'.count b) us).map (prepend ts) := by
  induction ts generalizing stack with
  | nil =>
    obtain rfl : stack = stack' := by simpa [openAfter] using h
    exact Option.map_id'.symm
  | cons t ts ih =>
    obtain ⟨next, hn, hts⟩ := Option.bind_eq_some_iff.1 h
    -- one more token in front of what the cut passes over
    suffices hs : cut b (depth + stack.count b) (t :: (ts ++ us)) =
        (cut b (depth + next.count b) (ts ++ us)).map (push t) by
      rw [List.cons_append, hs, ih hts, Option.map_map]
      rfl
    cases hk : t.kind with
    | opening c =>
      obtain rfl : c :: stack = next := by simpa [hk, TokenKind.track] using hn
      by_cases hc : c = b
      · rw [cut_opening _ _ (hc ▸ hk), hc, List.count_cons_self, Nat.add_assoc]
      · rw [cut_other _ _ (by simpa [hk] using hc) (by simp [hk]), List.count_cons_of_ne hc]
    | closing c =>
      cases stack with
      | nil => simp [hk, TokenKind.track] at hn
      | cons d outer =>
        obtain ⟨rfl, rfl⟩ : c = d ∧ outer = next := by simpa [hk, TokenKind.track] using hn
        by_cases hc : c = b
        · rw [hc, List.count_cons_self, ← Nat.add_assoc, cut_closing_succ _ _ (hc ▸ hk)]
        · rw [cut_other _ _ (by simp [hk]) (by simpa [hk] using hc), List.count_cons_of_ne hc]
    | number | string | boolean | identifier | keyword _ =>
      obtain rfl : stack = next := by simpa [hk, TokenKind.track] using hn
      rw [cut_other _ _ (by simp [hk]) (by simp [hk])]

/-- The cut after the tokens of a bracketed part is at the bracket that closes it. -/
theorem cut_of_nested {b : Bracket} {inside : List Token} (h : Nested inside)
    (c : Terminal (.closing b)) (us : List Token) :
    cut b 0 (inside ++ c.val :: us) = some ⟨inside, c.val, us⟩ := by
  have hc := cut_append_of_openAfter (b := b) h 0 (c.val :: us)
  simpa [cut, c.property, prepend] using hc

end Enclosed

end SmallLisp
