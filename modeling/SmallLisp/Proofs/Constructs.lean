import SmallLisp.Proofs.Likeness.Parsing
import SmallLisp.Proofs.Segmentation
import SmallLisp.Proofs.Sessions

/-! What the spans of a source mark. Every span that a tree or an error of a source
has is that of a token, of a bracket with all up to the one that closes it, or of a
string that is not closed, and it begins and ends between characters of the source.
This follows from the parser giving alike results for alike tokens: tokens are like
themselves as spans of the source, so the trees and the errors they lead to are. -/

namespace SmallLisp

/-! ### Spans that fit a text -/

/-- So many bytes from the start of the text, a character ends or begins. -/
def Text.IsBoundary (cs : List Char) (n : Nat) : Prop :=
  ∃ before after, cs = before ++ after ∧ byteLength before = n

theorem Text.IsBoundary.le {cs : List Char} {n : Nat} (h : IsBoundary cs n) :
    n ≤ byteLength cs := by
  obtain ⟨before, after, rfl, rfl⟩ := h
  rw [byteLength_append]
  exact Nat.le_add_right ..

/-- The span begins and ends between characters of the text. -/
structure Span.Fits (p : Span) (cs : List Char) : Prop where
  start : Text.IsBoundary cs p.start
  stop : Text.IsBoundary cs p.stop
  start_le : p.start ≤ p.stop

namespace Span

theorem Fits.merge {p q : Span} {cs : List Char} (hp : p.Fits cs) (hq : q.Fits cs) :
    (p.merge q).Fits cs where
  start := by
    show Text.IsBoundary cs (min p.start q.start)
    rcases Nat.le_total p.start q.start with h | h
    · rw [Nat.min_eq_left h]
      exact hp.start
    · rw [Nat.min_eq_right h]
      exact hq.start
  stop := by
    show Text.IsBoundary cs (max p.stop q.stop)
    rcases Nat.le_total p.stop q.stop with h | h
    · rw [Nat.max_eq_right h]
      exact hq.stop
    · rw [Nat.max_eq_left h]
      exact hp.stop
  start_le := Nat.le_trans (Nat.min_le_left ..) (Nat.le_trans hp.start_le (Nat.le_max_left ..))

/-- The span of a text that stands between two others. -/
theorem fits_between (before text after : List Char) :
    (⟨Text.byteLength before, Text.byteLength before + Text.byteLength text⟩ : Span).Fits
      (before ++ (text ++ after)) where
  start := ⟨before, text ++ after, rfl, rfl⟩
  stop := ⟨before ++ text, after, (List.append_assoc ..).symm, Text.byteLength_append ..⟩
  start_le := Nat.le_add_right ..

end Span

theorem Segment.fits_of_mem_tokensFrom {ss : List Segment} {before last : List Char} {t : Token}
    (h : t ∈ tokensFrom (Text.byteLength before) ss) :
    t.span.Fits (before ++ (textAll ss ++ last)) := by
  induction ss generalizing before with
  | nil => cases h
  | cons s ss ih =>
    have htext : before ++ (textAll (s :: ss) ++ last) =
        (before ++ s.gap) ++ (s.lexeme ++ (textAll ss ++ last)) := by
      simp [textAll, text]
    rw [tokensFrom, ← Text.byteLength_append] at h
    rw [htext]
    rcases List.mem_cons.1 h with rfl | h
    · exact Span.fits_between ..
    · have hstop : Text.byteLength (before ++ s.gap) + Text.byteLength s.lexeme =
          Text.byteLength ((before ++ s.gap) ++ s.lexeme) := (Text.byteLength_append ..).symm
      rw [Token.startingAt, hstop] at h
      rw [← List.append_assoc]
      exact ih h

/-! ### Constructs -/

/-- The stretches of a source that are something: a token, a bracket with all up
to the one that closes it, and as much as can be read of a string that is not closed. -/
inductive Construct (source : String) : Span → Prop
  | token {ts : List Token} {t : Token} (ht : tokenize source = .ok ts) (hm : t ∈ ts) :
    Construct source t.span
  | brackets {before after : List Token} {t : Token} {b : Bracket} {e : Enclosed}
    (ht : tokenize source = .ok (before ++ t :: after)) (hk : t.kind = .opening b)
    (he : Enclosed.cut b 0 after = some e) : Construct source (t.span.merge e.closer.span)
  | unclosedString {before body : List Char} (h : StuckAfter source.toList before body) :
    Construct source ⟨Text.byteLength before, Text.byteLength (before ++ '"' :: body)⟩

theorem Token.fits_of_tokenize {source : String} {ts : List Token} {t : Token}
    (h : tokenize source = .ok ts) (ht : t ∈ ts) : t.span.Fits source.toList := by
  rcases exists_cuts_or_stuck source.toList with ⟨g, hg⟩ | ⟨before, body, hstuck⟩
  · cases hg.tokenize_eq.symm.trans h
    rw [← hg.text_eq]
    exact @Segment.fits_of_mem_tokensFrom g.segments [] g.last t ht
  · cases hstuck.tokenize_eq.symm.trans h

theorem Construct.fits {source : String} {p : Span} (h : Construct source p) :
    p.Fits source.toList := by
  cases h with
  | token ht hm => exact Token.fits_of_tokenize ht hm
  | brackets ht hk he =>
    rw [Enclosed.cut_eq_append he] at ht
    exact (Token.fits_of_tokenize ht (by simp)).merge (Token.fits_of_tokenize ht (by simp))
  | unclosedString h =>
    obtain ⟨-, -, rest, -, htext⟩ := h
    rw [htext, Text.byteLength_append, ← List.cons_append]
    exact Span.fits_between ..

/-! ### Trees and errors of a source -/

/-- No difference at all, and only spans of a certain sort. -/
def Likeness.within (P : Span → Prop) : Likeness :=
  ⟨fun p q => p = q ∧ P p, Eq, congrArg Text.lowercase⟩

section

variable {source : String}

theorem tokensAlike_construct {ts : List Token} (h : tokenize source = .ok ts) :
    TokensAlike (.within (Construct source)) ts ts := by
  suffices hsuffix : ∀ before after, ts = before ++ after →
      TokensAlike (.within (Construct source)) after after from hsuffix [] ts rfl
  intro before after
  induction after generalizing before with
  | nil => exact fun _ => .nil
  | cons t after ih =>
    rintro rfl
    have ht : Construct source t.span := .token h (by simp)
    refine .cons (t.alike_self (fun _ => rfl) ⟨rfl, ht⟩) (fun b d e hk hd he => ?_)
      (ih (before ++ [t]) (List.append_cons before t after))
    cases hd.symm.trans he
    exact ⟨rfl, .brackets h hk hd⟩

theorem Node.Alike.of_mem_parts {L : Likeness} {x y : Node} (h : x.Alike L x) (hy : y ∈ x.parts) :
    y.Alike L y := by
  cases h with
  | number | string | boolean | symbol => cases hy
  | list hx => exact List.forall₂_same.1 hx y hy
  | call hf hx =>
    rcases List.mem_cons.1 hy with rfl | hy
    · exact hf
    · exact List.forall₂_same.1 hx y hy
  | letIn _ hv hx =>
    rcases List.mem_append.1 hy with hy | hy
    · exact List.forall₂_same.1 hv y hy
    · exact List.mem_singleton.1 hy ▸ hx
  | conditional ht hx hn =>
    rcases List.mem_cons.1 hy with rfl | hy
    · exact ht
    rcases List.mem_cons.1 hy with rfl | hy
    · exact hx
    · obtain rfl := Option.mem_toList.1 hy
      exact Option.rel_some_some.1 hn
  | function _ _ hx => exact List.mem_singleton.1 hy ▸ hx

/-- Every tree in a program has the span of a construct of the source. -/
theorem construct_of_standsIn {forms : List Node} (h : parseText source = .ok forms) {x : Node}
    (hx : x.StandsIn forms) : Construct source x.span := by
  obtain ⟨ts, ht, hp⟩ := parseText_eq_ok.1 h
  have hparse := parseMany_alike .form (tokensAlike_construct ht)
  rw [show parseMany .form ts = .ok forms from hp] at hparse
  obtain hforms | - := hparse
  have halike : x.Alike (.within (Construct source)) x := by
    induction hx with
    | form hx => exact List.forall₂_same.1 hforms _ hx
    | part _ hy ih => exact ih.of_mem_parts hy
  exact halike.span.2

/-- An error of syntax has the span of a construct of the source. -/
theorem construct_of_parseText {e : Error} (h : parseText source = .error e) :
    ∃ p, e.span? = some p ∧ Construct source p := by
  unfold parseText at h
  cases ht : tokenize source with
  | error f =>
    rw [ht] at h
    cases h
    rcases exists_cuts_or_stuck source.toList with ⟨g, hg⟩ | ⟨before, body, hstuck⟩
    · cases hg.tokenize_eq.symm.trans ht
    · cases hstuck.tokenize_eq.symm.trans ht
      exact ⟨_, rfl, .unclosedString hstuck⟩
  | ok ts =>
    have hparse := parseMany_alike .form (tokensAlike_construct ht)
    rw [ht] at h
    dsimp only [parse] at h
    generalize parseMany .form ts = x at h hparse
    obtain - | hf := hparse
    · cases h
    · cases h
      obtain ⟨p, q, hp, -, -, hconstruct⟩ := hf.span
      exact ⟨p, hp, hconstruct⟩

/-- An evaluation that fails blames a construct of its source, or else it is an error
of evaluation and blames a tree in a program that counts as read. -/
theorem evaluate_blames {read : List Node → Prop} {fuel : Nat} {scope : ScopeId} {s t : State}
    {e : Error} (hread : ∀ forms, parseText source = .ok forms → read forms)
    (hs : s.scopes.Known read) (hscope : scope < s.scopes.next)
    (h : evaluate fuel scope source s = some (.error e, t)) {p : Span} (hp : e.span? = some p) :
    (Construct source p ∧ ∀ f, e ≠ .eval f) ∨ ∃ f, e = .eval f ∧ f.Known read := by
  cases e with
  | eval f =>
    obtain ⟨-, -, herr⟩ := evaluate_known hread hs hscope h
    exact .inr ⟨f, rfl, herr f rfl⟩
  | lex f | parse f =>
    refine .inl ⟨?_, fun _ hf => (by cases hf)⟩
    cases hparse : parseText source with
    | error g =>
      rw [evaluate, hparse] at h
      cases h
      obtain ⟨q, hq, hconstruct⟩ := construct_of_parseText hparse
      cases hq.symm.trans hp
      exact hconstruct
    | ok forms =>
      rw [evaluate_of_parse hparse] at h
      obtain ⟨⟨q, u⟩, -, hq⟩ := Option.map_eq_some_iff.1 h
      obtain ⟨hq, -⟩ := Prod.mk.inj hq
      cases q with
      | error g => cases hq
      | ok vs =>
        dsimp only [finalResult, lastValue] at hq
        split at hq
        · cases hq
        · cases hq <;> cases hp

end

end SmallLisp
