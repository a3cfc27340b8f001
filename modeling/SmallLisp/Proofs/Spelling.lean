import SmallLisp.Proofs.Likeness.Parsing
import SmallLisp.Proofs.Reprinting

/-! A program in another spelling. Tokens that differ only in the case of their
words are read to trees that differ only in the case of their names, or are
refused at the same place for the same reason. Names count by their lowercase form
wherever they are looked up, bound or compared, so such trees are evaluated alike:
they end together, with the same bytes written and with values or errors that
differ in nothing but the case of names. -/

namespace SmallLisp

/-- The same spans, and names that differ at most in case. -/
def Likeness.upToCase : Likeness := ⟨Eq, fun x y => Text.lowercase x = Text.lowercase y, id⟩

/-! ### Tokens -/

/-- Tokens of one kind at one place. Identifiers have the same lowercase form,
booleans are equal but for the case of ASCII letters, keywords may be written in
any way, and all other texts are equal. -/
abbrev Token.SameUpToCase : Token → Token → Prop := Token.Alike .upToCase

instance : (k : TokenKind) → (x y : String) → Decidable (k.TextAlike .upToCase x y)
  | .identifier, x, y => inferInstanceAs (Decidable (Text.lowercase x = Text.lowercase y))
  | .boolean, x, y => inferInstanceAs (Decidable (Text.equalsIgnoringCase x y))
  | .keyword _, _, _ => inferInstanceAs (Decidable True)
  | .opening _, x, y | .closing _, x, y | .number, x, y | .string, x, y =>
    inferInstanceAs (Decidable (x = y))

instance (t u : Token) : Decidable (t.SameUpToCase u) :=
  decidable_of_iff (t.kind = u.kind ∧ t.span = u.span ∧ t.kind.TextAlike .upToCase t.text u.text)
    ⟨fun ⟨hk, hs, ht⟩ => ⟨hk, hs, ht⟩, fun ⟨hk, hs, ht⟩ => ⟨hk, hs, ht⟩⟩

/-- Errors of one kind with one span. -/
def ParseError.SameAt (e f : ParseError) : Prop := e.kind = f.kind ∧ e.span? = f.span?

/-- Errors of one kind with one span. -/
def EvalError.SameAt (e f : EvalError) : Prop := e.kind = f.kind ∧ e.span = f.span

theorem ParseError.Alike.sameAt {e f : ParseError} (h : e.Alike .upToCase f) : e.SameAt f := by
  obtain ⟨p, q, he, hf, hpq⟩ := h.span
  have hspan : p = q := hpq
  refine ⟨?_, he.trans (hspan ▸ hf.symm)⟩
  cases h <;> rfl

theorem EvalError.Alike.sameAt {e f : EvalError} (h : e.Alike .upToCase f) : e.SameAt f := by
  refine ⟨h.kind_eq, ?_⟩
  cases h <;> assumption

/-- Trees with the same spans and with names that differ at most in case. -/
abbrev Node.SameUpToCase : Node → Node → Prop := Node.Alike .upToCase

/-- Whether brackets match does not depend on any text. -/
theorem tokensAlike_upToCase {ts us : List Token} (h : List.Forall₂ Token.SameUpToCase ts us) :
    TokensAlike .upToCase ts us :=
  .of_merge (fun hp hq => congrArg₂ Span.merge hp hq) h

/-! ### Programs -/

/-- Two ends of forms that were evaluated in order: the same bytes are written, the
scopes bind the same but for the case of names, and either all forms have values,
the same but for the case of names in functions, or both end with an error, of one
kind and with one span. -/
structure EndsUpToCase (p q : Except EvalError (List Value) × State) : Prop where
  written_eq : p.2.sink.written = q.2.sink.written
  scopes : p.2.scopes.Alike .upToCase q.2.scopes
  result : ResultRel EvalError.SameAt (List.Forall₂ (Value.Alike .upToCase)) p.1 q.1

theorem Node.evalAll_upToCase {xs ys : List Node} (h : List.Forall₂ Node.SameUpToCase xs ys)
    (fuel : Nat) (limit : Option Nat) :
    Option.Rel EndsUpToCase ((evalAll fuel 0 xs).outcome (.fresh limit))
      ((evalAll fuel 0 ys).outcome (.fresh limit)) := by
  have hs : (State.fresh limit).Alike .upToCase (.fresh limit) :=
    State.alike_self (fun _ => rfl) _ fun _ _ => rfl
  cases hx : (evalAll fuel 0 xs).outcome (.fresh limit) with
  | some p =>
    obtain ⟨q, t, hy, hrel, ht⟩ := evalAll_alike (Nat.le_refl fuel) 0 h _ _ hs p.1 p.2 hx
    rw [hy]
    have hresult := hrel.imp (fun _ _ he => EvalError.Alike.sameAt he) fun _ _ hv => hv
    exact .some ⟨congrArg Sink.written ht.sink_eq, ht.scopes, hresult⟩
  | none =>
    cases hy : (evalAll fuel 0 ys).outcome (.fresh limit) with
    | none => exact .none
    | some q =>
      have hflip := forall₂_symm_of_mem h fun _ _ _ hxy => hxy.symm
      obtain ⟨p, t, hp, -⟩ := evalAll_alike (Nat.le_refl fuel) 0 hflip _ _ hs.symm q.1 q.2 hy
      rw [hx] at hp
      cases hp

/-- Tokens that are the same up to case are both refused, by errors of one kind
with one span, or both read; then, however much fuel there is and however much
the sink takes, the forms of both end or neither, and they end the same up to case. -/
theorem parse_evalAll_upToCase {ts us : List Token} (h : List.Forall₂ Token.SameUpToCase ts us) :
    ResultRel ParseError.SameAt
      (fun xs ys => List.Forall₂ Node.SameUpToCase xs ys ∧ ∀ fuel limit,
        Option.Rel EndsUpToCase ((Node.evalAll fuel 0 xs).outcome (.fresh limit))
          ((Node.evalAll fuel 0 ys).outcome (.fresh limit)))
      (parse ts) (parse us) := by
  have hparse := parseMany_alike .form (tokensAlike_upToCase h)
  exact hparse.imp (fun _ _ he => he.sameAt) fun _ _ hx => ⟨hx, Node.evalAll_upToCase hx⟩

/-- Two parameters that differ only in case are one name in any spelling, and the
second argument is the one that counts. -/
theorem parse_evalAll_upToCase_parameters :
    ∃ ts us, tokenize "(fun F [ÄB äb] Äb) (f 1 2)" = .ok ts ∧
      tokenize "(FUN f [äB Äb] ÄB) (F 1 2)" = .ok us ∧
      List.Forall₂ Token.SameUpToCase ts us ∧
      ∃ xs ys vs ws t u, parse ts = .ok xs ∧ parse us = .ok ys ∧
        (Node.evalAll 3 0 xs).outcome (.fresh none) = some (.ok vs, t) ∧
        (Node.evalAll 3 0 ys).outcome (.fresh none) = some (.ok ws, u) ∧
        vs.map Value.text = ["(fun F [ÄB äb] Äb)", "2.0"] ∧
        List.Forall₂ (Value.Alike .upToCase) vs ws := by
  let ts := (tokenize "(fun F [ÄB äb] Äb) (f 1 2)").toOption.getD []
  let us := (tokenize "(FUN f [äB Äb] ÄB) (F 1 2)").toOption.getD []
  have hts : tokenize "(fun F [ÄB äb] Äb) (f 1 2)" = .ok ts := by decide +kernel
  have hus : tokenize "(FUN f [äB Äb] ÄB) (F 1 2)" = .ok us := by decide +kernel
  have hsame : List.Forall₂ Token.SameUpToCase ts us := by decide +kernel
  have hvalues : ((parse ts).toOption.bind fun xs =>
      (Node.evalAll 3 0 xs).outcome (.fresh none)).map
        (fun p => p.1.toOption.map (·.map Value.text)) =
      some (some ["(fun F [ÄB äb] Äb)", "2.0"]) := by decide +kernel
  refine ⟨ts, us, hts, hus, hsame, ?_⟩
  have hparse := parse_evalAll_upToCase hsame
  generalize parse ts = x at hvalues hparse ⊢
  generalize parse us = y at hparse ⊢
  cases hparse with
  | error => cases hvalues
  | @ok xs ys h =>
    have hends := h.2 3 none
    obtain ⟨⟨r, t⟩, hrun, hr⟩ := Option.map_eq_some_iff.1 hvalues
    rw [show (Node.evalAll 3 0 xs).outcome (.fresh none) = some (r, t) from hrun] at hends
    generalize ho : (Node.evalAll 3 0 ys).outcome (.fresh none) = o at hends
    rcases o with - | ⟨q, u⟩
    · cases hends
    obtain ⟨-, -, hresult⟩ := Option.rel_some_some.1 hends
    cases r with
    | error e => cases hr
    | ok vs =>
      cases q with
      | error e => cases hresult
      | ok ws =>
        cases hresult with
        | ok hv => exact ⟨xs, ys, vs, ws, t, u, rfl, rfl, hrun, ho, Option.some.inj hr, hv⟩

end SmallLisp
