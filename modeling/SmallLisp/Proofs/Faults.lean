import SmallLisp.Proofs.Grammar.Blame
import SmallLisp.Proofs.Slices
import SmallLisp.Proofs.Verdicts

/-! What is blamed for a text that is not a program. Every error of syntax has a
span of the text. At that span stands the token that was not expected, or the
bracket that is not closed, or a pair of round brackets round nothing. That the
text ends too early is said of no program but the empty one. -/

namespace SmallLisp

/-! ### The texts of brackets -/

/-- The lexeme of a bracket is that bracket. -/
theorem Lexeme.eq_bracket {text : List Char} {kind : TokenKind} (h : Lexeme text kind)
    (b : Bracket) :
    (kind = .opening b → text = [b.opening]) ∧ (kind = .closing b → text = [b.closing]) := by
  cases h with
  | bracket hc =>
    obtain ⟨c, ⟨rfl, rfl⟩ | ⟨rfl, rfl⟩⟩ := TokenKind.ofBracket?_eq_some hc
    · exact ⟨fun h => TokenKind.opening.inj h ▸ rfl, nofun⟩
    · exact ⟨nofun, fun h => TokenKind.closing.inj h ▸ rfl⟩
  | string => exact ⟨nofun, nofun⟩
  | word =>
    have ht := TokenKind.track_ofWord (String.ofList text) []
    constructor <;> intro h <;> rw [h] at ht <;> cases ht

section Tokens

variable {source : String} {ts : List Token} {t : Token} {b : Bracket}

theorem Token.text_of_opening (h : tokenize source = .ok ts) (ht : t ∈ ts)
    (hk : t.kind = .opening b) : t.text.toList = [b.opening] :=
  ((cut_iff_lexeme.1 (cut_of_mem_scanFrom h ht)).1.eq_bracket b).1 hk

theorem Token.text_of_closing (h : tokenize source = .ok ts) (ht : t ∈ ts)
    (hk : t.kind = .closing b) : t.text.toList = [b.closing] :=
  ((cut_iff_lexeme.1 (cut_of_mem_scanFrom h ht)).1.eq_bracket b).2 hk

end Tokens

/-! ### Errors of the parser -/

namespace ParseError

/-- What stands in the text at the span of the error. -/
def MarksIn (cs : List Char) : ParseError → Prop
  | unexpectedToken t _ => t.span.Covers cs t.text.toList
  | unexpectedEnd _ => False
  | unclosed t => t.span.Covers cs t.text.toList ∧ ∃ b, t.kind = .opening b ∧
      t.text.toList = [b.opening]
  | emptyExpression p => ∃ gap, (∀ c ∈ gap, isSeparator c) ∧ p.Covers cs ('(' :: (gap ++ [')']))
  | malformed _ _ p => p.Fits cs

theorem MarksIn.fits {cs : List Char} {e : ParseError} (h : e.MarksIn cs) :
    ∃ p, e.span? = some p ∧ p.Fits cs := by
  cases e with
  | unexpectedToken t expected => exact ⟨t.span, rfl, Span.Covers.fits h⟩
  | unexpectedEnd => exact h.elim
  | unclosed t => exact ⟨t.span, rfl, h.1.fits⟩
  | emptyExpression p =>
    obtain ⟨gap, -, hp⟩ := h
    exact ⟨p, rfl, hp.fits⟩
  | malformed form fault p => exact ⟨p, rfl, h⟩

/-- What is blamed among the tokens of a text is marked in the text. -/
theorem Blames.marksIn {source : String} {ts : List Token} {e : ParseError} (h : e.Blames ts)
    (ht : tokenize source = .ok ts) (hp : parse ts = .error e) : e.MarksIn source.toList := by
  cases e with
  | unexpectedToken t expected => exact Token.covers_of_tokenize ht h
  | unexpectedEnd => exact h
  | unclosed t =>
    obtain ⟨hmem, b, hk⟩ := h
    exact ⟨Token.covers_of_tokenize ht hmem, b, hk, Token.text_of_opening ht hmem hk⟩
  | emptyExpression p =>
    obtain ⟨before, t, u, after, rfl, hk, hc, rfl⟩ := h
    obtain ⟨gap, hgap, hcovers⟩ := Token.covers_merge_of_tokenize ht
    rw [Token.text_of_opening ht (by simp) hk, Token.text_of_closing ht (by simp) hc] at hcovers
    exact ⟨gap, hgap, hcovers⟩
  | malformed form fault p =>
    have htext : parseText source = .error (.parse (.malformed form fault p)) := by
      rw [parseText, ht]
      dsimp only
      rw [hp]
      rfl
    obtain ⟨q, hq, hconstruct⟩ := construct_of_parseText htext
    exact Option.some.inj hq ▸ hconstruct.fits

end ParseError

/-! ### Texts -/

theorem parseText_eq_error {source : String} {e : Error} (h : parseText source = .error e) :
    (∃ f, tokenize source = .error f ∧ e = .lex f) ∨
    ∃ ts f, tokenize source = .ok ts ∧ parse ts = .error f ∧ e = .parse f := by
  unfold parseText at h
  cases ht : tokenize source with
  | error f =>
    rw [ht] at h
    exact .inl ⟨f, rfl, (Except.error.inj h).symm⟩
  | ok ts =>
    rw [ht] at h
    dsimp only at h
    cases hp : parse ts with
    | error f =>
      rw [hp] at h
      exact .inr ⟨ts, f, rfl, hp, (Except.error.inj h).symm⟩
    | ok xs =>
      rw [hp] at h
      cases h

/-- An error of syntax other than of an open string marks what it blames. -/
theorem marksIn_of_parseText {source : String} {e : ParseError}
    (h : parseText source = .error (.parse e)) : e.MarksIn source.toList := by
  obtain ⟨f, -, hf⟩ | ⟨ts, f, ht, hp, hf⟩ := parseText_eq_error h
  · cases hf
  · cases hf
    exact (parse_arises hp).blames.marksIn ht hp

/-- A program ends too early exactly if it is empty, and then nothing but the log changes. -/
theorem evaluates_unexpectedEnd_iff {source : String} {scope : ScopeId} {s t : State}
    {expected : Expected} :
    Evaluates scope source s (.error (.parse (.unexpectedEnd expected))) t ↔
      tokenize source = .ok [] ∧ expected = .expression ∧ t = s.log (.program 0) := by
  rw [← parseText_eq_nil]
  constructor
  · intro h
    cases hp : parseText source with
    | error e =>
      obtain ⟨fuel, h⟩ := h
      rw [evaluate, hp] at h
      cases h
      exact (marksIn_of_parseText hp).elim
    | ok forms =>
      obtain ⟨fuel, q, hq, hr⟩ := (evaluates_iff hp).1 h
      cases forms with
      | nil =>
        cases hq
        cases hr
        exact ⟨rfl, rfl, rfl⟩
      | cons x xs =>
        obtain ⟨e, rfl⟩ | ⟨vs, v, rfl, -, hv⟩ := finalResult_of_evalAll hq (List.cons_ne_nil x xs)
        · cases hr
        · cases hv.symm.trans hr
  · rintro ⟨hp, rfl, rfl⟩
    exact (evaluates_iff hp).2 ⟨0, .ok [], rfl, rfl⟩

/-- Every error of syntax has a span in the text, between characters of it. At that of
an unexpected token stands the token, at that of a bracket that is not closed an
opening bracket, and at that of an empty expression round brackets with a gap between
them. No program ends too early except for the empty one, and there nothing is
written and no scope changes. -/
theorem syntax_errors_located (source : String) :
    (∀ e, parseText source = .error e →
      (∃ p, e.span? = some p ∧ p.Fits source.toList ∧ p.stop ≤ source.utf8ByteSize) ∧
      ∀ f, e = .parse f → f.MarksIn source.toList) ∧
    ∀ scope s t expected,
      Evaluates scope source s (.error (.parse (.unexpectedEnd expected))) t ↔
        tokenize source = .ok [] ∧ expected = .expression ∧ t = s.log (.program 0) := by
  refine ⟨fun e h => ⟨?_, ?_⟩, fun scope s t expected => evaluates_unexpectedEnd_iff⟩
  · obtain ⟨p, hp, hconstruct⟩ := construct_of_parseText h
    refine ⟨p, hp, hconstruct.fits, ?_⟩
    rw [← Text.byteLength_toList]
    exact hconstruct.fits.stop.le
  · rintro f rfl
    exact marksIn_of_parseText h

end SmallLisp
