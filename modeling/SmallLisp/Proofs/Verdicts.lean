import SmallLisp.Prompt.Verdict
import SmallLisp.Proofs.Grammar.Soundness
import SmallLisp.Proofs.Segmentation

/-! The verdict on a text that can be cut into tokens. The prompt reads
characters and keeps its own account of strings and escapes; the language cuts
tokens off. On each token the two agree about the open brackets, so the verdict
says whether the brackets among the tokens nest. Those of a program do. -/

namespace SmallLisp

namespace TokenKind

theorem ofBracket?_eq_some {c : Char} {kind : TokenKind} (h : ofBracket? c = some kind) :
    ∃ b : Bracket, (c = b.opening ∧ kind = opening b) ∨ (c = b.closing ∧ kind = closing b) := by
  unfold ofBracket? at h
  split at h <;> simp only [Option.some.injEq, reduceCtorEq] at h <;> subst h
  · exact ⟨.round, .inl ⟨rfl, rfl⟩⟩
  · exact ⟨.round, .inr ⟨rfl, rfl⟩⟩
  · exact ⟨.square, .inl ⟨rfl, rfl⟩⟩
  · exact ⟨.square, .inr ⟨rfl, rfl⟩⟩

/-- No word is a bracket. -/
theorem track_ofWord (word : String) (stack : List Bracket) :
    (ofWord word).track stack = some stack := by
  unfold ofWord
  split
  · rfl
  · split
    · rfl
    · split <;> rfl

end TokenKind

namespace Prompt

open Token (scanFrom Cut)

/-- Neither a quote nor a bracket. -/
structure Plain (c : Char) : Prop where
  ne_quote : c ≠ '"'
  ofBracket?_eq : TokenKind.ofBracket? c = none

/-- What holds of no quote and no bracket holds of plain characters only. -/
theorem Plain.of_pred {p : Char → Bool} {c : Char} (hc : p c)
    (h : ['"', '(', ')', '[', ']'].any p = false) : Plain c := by
  have hne : ∀ d ∈ ['"', '(', ')', '[', ']'], c ≠ d := by
    rintro d hd rfl
    exact List.any_eq_false.1 h c hd hc
  simp only [List.forall_mem_cons] at hne
  obtain ⟨hq, ho, hc, ho', hc', -⟩ := hne
  refine ⟨hq, ?_⟩
  unfold TokenKind.ofBracket?
  split <;> first | rfl | contradiction

theorem plain_or (c : Char) :
    c = '"' ∨ (∃ b : Bracket, c = b.opening) ∨ (∃ b : Bracket, c = b.closing) ∨ Plain c := by
  by_cases hq : c = '"'
  · exact .inl hq
  · cases hk : TokenKind.ofBracket? c with
    | none => exact .inr (.inr (.inr ⟨hq, hk⟩))
    | some kind =>
      obtain ⟨b, ⟨hc, -⟩ | ⟨hc, -⟩⟩ := TokenKind.ofBracket?_eq_some hk
      · exact .inr (.inl ⟨b, hc⟩)
      · exact .inr (.inr (.inl ⟨b, hc⟩))

namespace Scanner

variable (stack : List Opened) (offset : Nat)

@[simp] theorem step_string (c : Char) : step ⟨.string, stack⟩ offset c =
    (.string, ⟨if c = '\\' then .escape else if c = '"' then .code else .string, stack⟩) := rfl

@[simp] theorem step_quote : step ⟨.code, stack⟩ offset '"' = (.string, ⟨.string, stack⟩) := rfl

@[simp] theorem step_opening (b : Bracket) : step ⟨.code, stack⟩ offset b.opening =
    (.opening b, ⟨.code, ⟨b, offset⟩ :: stack⟩) := by
  cases b <;> rfl

@[simp] theorem step_closing (b : Bracket) : step ⟨.code, stack⟩ offset b.closing =
    (.closing b stack.head?, ⟨.code, stack.tail⟩) := by
  cases b <;> rfl

theorem step_plain {c : Char} (hc : Plain c) :
    step ⟨.code, stack⟩ offset c = (.plain, ⟨.code, stack⟩) := by
  simp [step, hc.ne_quote, hc.ofBracket?_eq]

theorem step_stringChar {c : Char} (hq : c ≠ '"') (hb : c ≠ '\\') :
    step ⟨.string, stack⟩ offset c = (.string, ⟨.string, stack⟩) := by
  rw [step_string, if_neg hb, if_neg hq]

end Scanner

namespace Verdict

/-- What is to be said about tokens by the brackets that they leave open, if
they leave any sensible ones. -/
inductive Fits : Verdict → Option (List Bracket) → Prop
  | valid : Fits .valid (some [])
  | incomplete (b : Bracket) (outer : List Bracket) : Fits .incomplete (some (b :: outer))
  | invalid (c : Char) (offset : Nat) : Fits (.invalid c offset) none

theorem Fits.eq_valid_iff {v : Verdict} {stack : Option (List Bracket)} (h : Fits v stack) :
    v = .valid ↔ stack = some [] := by
  cases h <;> simp

variable {s : Scanner} {stack : List Opened} {c : Char} {offset : Nat}

/-! ### One character -/

theorem after_cons (h : (s.step offset c).1.isMismatch = false) (cs : List Char) :
    after s offset (c :: cs) = after (s.step offset c).2 (offset + c.utf8Size) cs := by
  simp [after, h]

theorem after_quote (cs : List Char) :
    after ⟨.code, stack⟩ offset ('"' :: cs) = after ⟨.string, stack⟩ (offset + 1) cs :=
  after_cons rfl cs

theorem after_closingQuote (cs : List Char) :
    after ⟨.string, stack⟩ offset ('"' :: cs) = after ⟨.code, stack⟩ (offset + 1) cs :=
  after_cons rfl cs

/-- Outside of strings a character counts only as a quote or a bracket. -/
theorem after_plain (hc : Plain c) (cs : List Char) :
    after ⟨.code, stack⟩ offset (c :: cs) = after ⟨.code, stack⟩ (offset + c.utf8Size) cs := by
  have hs := Scanner.step_plain stack offset hc
  rw [after_cons (by rw [hs]; rfl), hs]

theorem after_plainText {cs : List Char} (h : ∀ c ∈ cs, Plain c) (offset : Nat) (ds : List Char) :
    after ⟨.code, stack⟩ offset (cs ++ ds) =
      after ⟨.code, stack⟩ (offset + Text.byteLength cs) ds := by
  induction cs generalizing offset with
  | nil => rfl
  | cons c cs ih =>
    obtain ⟨hc, hcs⟩ := List.forall_mem_cons.1 h
    rw [List.cons_append, after_plain hc, ih hcs, Text.byteLength_cons, Nat.add_assoc]

/-! ### One token -/

/-- The prompt stays inside a string as long as the body of one goes on. -/
theorem after_stringBody {body : List Char} (h : StringBody body) (offset : Nat)
    (cs : List Char) :
    after ⟨.string, stack⟩ offset (body ++ cs) =
      after ⟨.string, stack⟩ (offset + Text.byteLength body) cs := by
  induction h generalizing offset with
  | nil => rfl
  | @plain c body hq hb _ ih =>
    have hs := Scanner.step_stringChar stack offset hq hb
    rw [List.cons_append, after_cons (by rw [hs]; rfl), hs, ih, Text.byteLength_cons,
      Nat.add_assoc]
  | @escaped c body _ _ ih =>
    -- the backslash, and then whatever it takes with it
    rw [List.cons_append, List.cons_append, after_cons rfl, after_cons rfl, Text.byteLength_cons,
      Text.byteLength_cons, ← Nat.add_assoc, ← Nat.add_assoc]
    exact ih _

theorem after_word {word : List Char} (h : ∀ c ∈ word, isWordChar c) (offset : Nat)
    (cs : List Char) :
    after ⟨.code, stack⟩ offset (word ++ cs) =
      after ⟨.code, stack⟩ (offset + Text.byteLength word) cs :=
  after_plainText (fun c hc => .of_pred (h c hc) rfl) offset cs

theorem after_opening (b : Bracket) (cs : List Char) :
    after ⟨.code, stack⟩ offset (b.opening :: cs) =
      after ⟨.code, ⟨b, offset⟩ :: stack⟩ (offset + b.opening.utf8Size) cs := by
  cases b <;> exact after_cons rfl cs

theorem after_closing (o : Opened) (cs : List Char) :
    after ⟨.code, o :: stack⟩ offset (o.bracket.closing :: cs) =
      after ⟨.code, stack⟩ (offset + o.bracket.closing.utf8Size) cs := by
  obtain ⟨b, at_⟩ := o
  cases b <;> exact after_cons rfl cs

theorem after_mismatch {b : Bracket} (h : ∀ o ∈ stack.head?, o.bracket ≠ b) (cs : List Char) :
    after ⟨.code, stack⟩ offset (b.closing :: cs) = .invalid b.closing offset := by
  have hs := Scanner.step_closing stack offset b
  have hr : (Role.closing b stack.head?).isMismatch = true := by
    cases stack with
    | nil => rfl
    | cons o stack => exact bne_iff_ne.2 (h o rfl)
  simp [after, hs, hr]

/-- The scanner of characters takes a lexeme as the tracking of tokens takes its
kind: either both go on, with the same brackets open, or both give up. -/
theorem after_lexeme {text : List Char} {kind : TokenKind} (h : Lexeme text kind) (offset : Nat)
    (stack : List Opened) (cs : List Char) :
    (∃ stack' : List Opened,
      kind.track (stack.map Opened.bracket) = some (stack'.map Opened.bracket) ∧
      after ⟨.code, stack⟩ offset (text ++ cs) =
        after ⟨.code, stack'⟩ (offset + Text.byteLength text) cs) ∨
    (kind.track (stack.map Opened.bracket) = none ∧
      ∃ c, after ⟨.code, stack⟩ offset (text ++ cs) = .invalid c offset) := by
  cases h with
  | bracket hc =>
    obtain ⟨b, ⟨rfl, rfl⟩ | ⟨rfl, rfl⟩⟩ := TokenKind.ofBracket?_eq_some hc
    · exact .inl ⟨_, rfl, after_opening b cs⟩
    · cases stack with
      | nil => exact .inr ⟨rfl, _, after_mismatch (by simp) cs⟩
      | cons o stack =>
        by_cases ho : b = o.bracket
        · subst ho
          exact .inl ⟨stack, by simp [TokenKind.track], after_closing o cs⟩
        · exact .inr ⟨by simp [TokenKind.track, ho], _,
            after_mismatch (by simpa using Ne.symm ho) cs⟩
  | string hb =>
    refine .inl ⟨stack, rfl, ?_⟩
    rw [List.cons_append, List.append_assoc, after_quote, after_stringBody hb,
      List.singleton_append, after_closingQuote, Text.byteLength_cons, Text.byteLength_append,
      ← Nat.add_assoc, ← Nat.add_assoc]
    rfl
  | word _ hw => exact .inl ⟨stack, TokenKind.track_ofWord _ _, after_word hw offset cs⟩

/-! ### Whole texts -/

/-- The verdict on a text that starts with some brackets open says what its
tokens do to them. -/
theorem fits_after {start : Nat} {cs : List Char} {ts : List Token}
    (h : scanFrom start cs = .ok ts) (offset : Nat) (stack : List Opened) :
    Fits (after ⟨.code, stack⟩ offset cs) (openAfter (stack.map Opened.bracket) ts) := by
  induction cs using Token.scan_induction generalizing start offset stack ts with
  | nil =>
    rw [Token.scanFrom_nil] at h
    cases h
    cases stack with
    | nil => exact .valid
    | cons o stack => exact .incomplete _ _
  | separator c cs hc ih =>
    rw [Token.scanFrom_separator hc] at h
    rw [after_plain (.of_pred hc rfl)]
    exact ih h _ _
  | token text kind rest hcut ih =>
    rw [hcut.scanFrom_append] at h
    cases hr : scanFrom (start + Text.byteLength text) rest with
    | error e =>
      rw [hr, except_map_error] at h
      cases h
    | ok us =>
      rw [hr, except_map_ok] at h
      cases h
      obtain ⟨stack', ht, ha⟩ | ⟨ht, c, ha⟩ :=
        after_lexeme (cut_iff_lexeme.1 hcut).1 offset stack rest
      · rw [openAfter, Token.startingAt, ht, ha]
        exact ih hr _ _
      · rw [openAfter, Token.startingAt, ht, ha]
        exact .invalid c offset
  | unterminated cs body hu =>
    rw [Token.scanFrom_unterminated hu] at h
    cases h

/-- A text that can be cut into tokens is ready exactly if their brackets nest. -/
theorem of_eq_valid_iff_nested {source : String} {ts : List Token}
    (h : tokenize source = .ok ts) : of source = .valid ↔ Nested ts :=
  (fits_after h 0 []).eq_valid_iff

/-- The prompt never asks for more of a program, nor rejects it. -/
theorem of_eq_valid_of_parseText {source : String} {forms : List Node}
    (h : parseText source = .ok forms) : of source = .valid := by
  obtain ⟨ts, ht, hp⟩ := parseText_eq_ok.1 h
  obtain ⟨fs, rfl, -⟩ := parseMany_sound .form ts hp
  exact (of_eq_valid_iff_nested ht).2 (Form.nested_tokensAll fs)

/-- Closing brackets in a string count for neither, and an escaped quote does not end it. -/
theorem of_eq_valid_string :
    let source := "(print \"\\\")]\\\\\")\n[1 (+ 2 3)]"
    (parseText source).toOption.map List.length = some 2 ∧ of source = .valid := by
  intro source
  have hp : (parseText source).toOption.map List.length = some 2 := by decide +kernel
  obtain ⟨forms, hforms, -⟩ := Option.map_eq_some_iff.1 hp
  exact ⟨hp, of_eq_valid_of_parseText (eq_ok_of_toOption hforms)⟩

end Verdict

end Prompt

end SmallLisp
