import SmallLisp.Proofs.Grammar.Nesting
import SmallLisp.Proofs.Likeness
import SmallLisp.Proofs.Parsing

/-! Parsing of what is alike. No parser looks at the names and the places of its
tokens: it passes them on to trees and errors, a place alone or merged with that
of a closing bracket. So tokens that are alike, each by itself and each bracket
together with the one that closes it, are read to trees that are alike, or refused
for the same reason at places that may stand for each other. -/

namespace SmallLisp

variable {L : Likeness}

/-! ### Tokens -/

/-- Two texts which tokens of this kind may have to be alike. The word of a keyword
is in its kind, and a boolean may be written in any case. -/
def TokenKind.TextAlike (L : Likeness) : TokenKind → String → String → Prop
  | identifier, x, y => L.name x y
  | boolean, x, y => Text.equalsIgnoringCase x y
  | keyword _, _, _ => True
  | opening _, x, y | closing _, x, y | number, x, y | string, x, y => x = y

structure Token.Alike (L : Likeness) (t u : Token) : Prop where
  kind_eq : t.kind = u.kind
  span : L.span t.span u.span
  text : t.kind.TextAlike L t.text u.text

theorem Token.alike_self (hn : ∀ name, L.name name name) (t : Token) (h : L.span t.span t.span) :
    t.Alike L t := by
  refine ⟨rfl, h, ?_⟩
  cases t.kind with
  | identifier => exact hn t.text
  | boolean => exact beq_self_eq_true _
  | keyword => trivial
  | opening | closing | number | string => rfl

/-- Tokens that are alike one by one, and so that the same may stand for the
stretches from each opening bracket to the one that closes it. -/
inductive TokensAlike (L : Likeness) : List Token → List Token → Prop
  | nil : TokensAlike L [] []
  | cons {t u : Token} {ts us : List Token} (h : t.Alike L u)
    (hb : ∀ b d e, t.kind = .opening b → Enclosed.cut b 0 ts = some d →
      Enclosed.cut b 0 us = some e →
      L.span (t.span.merge d.closer.span) (u.span.merge e.closer.span))
    (hs : TokensAlike L ts us) : TokensAlike L (t :: ts) (u :: us)

/-! ### Pieces -/

namespace Enclosed

/-- What is cut off is the same when more tokens follow. -/
theorem cut_append {b : Bracket} {depth : Nat} {ts : List Token} {e : Enclosed}
    (h : cut b depth ts = some e) (us : List Token) :
    cut b depth (ts ++ us) = some { e with rest := e.rest ++ us } := by
  induction ts generalizing depth e with
  | nil => cases h
  | cons t ts ih =>
    have push {depth : Nat} (hd : (cut b depth ts).map (Enclosed.push t) = some e) :
        (cut b depth (ts ++ us)).map (Enclosed.push t) =
          some { e with rest := e.rest ++ us } := by
      obtain ⟨d, hcut, rfl⟩ := Option.map_eq_some_iff.1 hd
      rw [ih hcut]
      rfl
    rw [List.cons_append]
    by_cases ho : t.kind = .opening b
    · rw [cut_opening depth ts ho] at h
      rw [cut_opening depth _ ho]
      exact push h
    by_cases hc : t.kind = .closing b
    · cases depth with
      | zero =>
        rw [cut_closing_zero ts hc] at h
        cases h
        exact cut_closing_zero _ hc
      | succ depth =>
        rw [cut_closing_succ depth ts hc] at h
        rw [cut_closing_succ depth _ hc]
        exact push h
    · rw [cut_other depth ts ho hc] at h
      rw [cut_other depth _ ho hc]
      exact push h

/-- Cuts at the same place, with closing brackets that are alike. -/
structure Matches (L : Likeness) (d e : Enclosed) : Prop where
  length_eq : d.inside.length = e.inside.length
  closer : d.closer.Alike L e.closer

theorem cut_matches (b : Bracket) {ts us : List Token} (h : List.Forall₂ (Token.Alike L) ts us)
    (depth : Nat) : Option.Rel (Matches L) (cut b depth ts) (cut b depth us) := by
  have push {t u : Token} {d e : Option Enclosed} (hd : Option.Rel (Matches L) d e) :
      Option.Rel (Matches L) (d.map (push t)) (e.map (push u)) := by
    cases hd with
    | none => exact .none
    | some hd => exact .some ⟨congrArg (· + 1) hd.length_eq, hd.closer⟩
  induction h generalizing depth with
  | nil => exact .none
  | @cons t u ts us ht _ ih =>
    by_cases ho : t.kind = .opening b
    · rw [cut_opening depth ts ho, cut_opening depth us (ht.kind_eq ▸ ho)]
      exact push (ih _)
    by_cases hc : t.kind = .closing b
    · cases depth with
      | zero =>
        rw [cut_closing_zero ts hc, cut_closing_zero us (ht.kind_eq ▸ hc)]
        exact .some ⟨rfl, ht⟩
      | succ depth =>
        rw [cut_closing_succ depth ts hc, cut_closing_succ depth us (ht.kind_eq ▸ hc)]
        exact push (ih _)
    · rw [cut_other depth ts ho hc, cut_other depth us (ht.kind_eq ▸ ho) (ht.kind_eq ▸ hc)]
      exact push (ih _)

end Enclosed

namespace TokensAlike

/-- Tokens that are alike one by one, if spans may be merged. -/
theorem of_merge (hm : ∀ {p q p' q'}, L.span p q → L.span p' q' → L.span (p.merge p') (q.merge q'))
    {ts us : List Token} (h : List.Forall₂ (Token.Alike L) ts us) : TokensAlike L ts us := by
  induction h with
  | nil => exact .nil
  | @cons t u ts us ht hs ih =>
    refine .cons ht (fun b d e _ hd he => ?_) ih
    have hcut := Enclosed.cut_matches b hs 0
    rw [hd, he] at hcut
    exact hm ht.span (Option.rel_some_some.1 hcut).closer.span

theorem tokens {ts us : List Token} (h : TokensAlike L ts us) :
    List.Forall₂ (Token.Alike L) ts us := by
  induction h with
  | nil => exact .nil
  | cons h _ _ ih => exact .cons h ih

theorem head {t u : Token} {ts us : List Token} (h : TokensAlike L (t :: ts) (u :: us)) :
    t.Alike L u := by
  cases h with
  | cons h _ _ => exact h

theorem tail {t u : Token} {ts us : List Token} (h : TokensAlike L (t :: ts) (u :: us)) :
    TokensAlike L ts us := by
  cases h with
  | cons _ _ hs => exact hs

theorem of_append {as bs cs ds : List Token} (h : TokensAlike L (as ++ cs) (bs ++ ds))
    (hl : as.length = bs.length) : TokensAlike L as bs ∧ TokensAlike L cs ds := by
  induction as generalizing bs with
  | nil =>
    obtain rfl := List.eq_nil_of_length_eq_zero hl.symm
    exact ⟨.nil, h⟩
  | cons a as ih =>
    cases bs with
    | nil => cases hl
    | cons b bs =>
      cases h with
      | cons ha hb hs =>
        obtain ⟨hi, hr⟩ := ih hs (Nat.succ.inj hl)
        refine ⟨.cons ha (fun k d e hk hd he => ?_) hi, hr⟩
        have hspan := hb k _ _ hk (Enclosed.cut_append hd cs) (Enclosed.cut_append he ds)
        exact hspan

end TokensAlike

/-- What is enclosed and what follows are alike. -/
structure Enclosed.Alike (L : Likeness) (d e : Enclosed) : Prop where
  inside : TokensAlike L d.inside e.inside
  rest : TokensAlike L d.rest e.rest

theorem optionRel_imp {α β : Type} {R S : α → β → Prop} {a : Option α} {b : Option β}
    (h : Option.Rel R a b) (hs : ∀ x y, a = some x → b = some y → R x y → S x y) :
    Option.Rel S a b := by
  cases h with
  | none => exact .none
  | some h => exact .some (hs _ _ rfl rfl h)

/-- Two opening brackets that are alike are closed alike. -/
theorem TokensAlike.cut {t u : Token} {ts us : List Token}
    (h : TokensAlike L (t :: ts) (u :: us)) {b : Bracket} (hk : t.kind = .opening b) :
    Option.Rel (fun d e => d.Alike L e ∧
      L.span (t.span.merge d.closer.span) (u.span.merge e.closer.span))
      (Enclosed.cut b 0 ts) (Enclosed.cut b 0 us) := by
  obtain - | ⟨-, hb, hs⟩ := h
  refine optionRel_imp (Enclosed.cut_matches b hs.tokens 0) fun d e hd he hm => ?_
  rw [Enclosed.cut_eq_append hd, Enclosed.cut_eq_append he] at hs
  obtain ⟨hinside, hrest⟩ := hs.of_append hm.length_eq
  cases hrest with
  | cons _ _ hrest => exact ⟨⟨hinside, hrest⟩, hb b d e hk hd he⟩

/-- Pieces that are alike: tokens that are no brackets or keywords, or what two
pairs of brackets enclose, together with the stretches from one bracket to the other. -/
inductive Piece.Alike (L : Likeness) : Piece → Piece → Prop
  | atom {t u : Token} (h : t.Alike L u) (hk : t.kind = .number ∨ t.kind = .string ∨
    t.kind = .boolean ∨ t.kind = .identifier) : Alike L (.atom t) (.atom u)
  | group (b : Bracket) {opener opener' : Token} {inside inside' : List Token}
    {closer closer' : Token} (hi : TokensAlike L inside inside')
    (hs : L.span (opener.span.merge closer.span) (opener'.span.merge closer'.span)) :
    Alike L (.group b opener inside closer) (.group b opener' inside' closer')

/-- Errors of one kind at places that may stand for each other. What is wrong with a
form is described alike, and that is not said here. -/
inductive ParseError.Alike (L : Likeness) : ParseError → ParseError → Prop
  | unexpectedToken {t u : Token} (h : t.Alike L u) (expected : Expected) :
    Alike L (.unexpectedToken t expected) (.unexpectedToken u expected)
  | unclosed {t u : Token} (h : t.Alike L u) : Alike L (.unclosed t) (.unclosed u)
  | emptyExpression {p q : Span} (hs : L.span p q) :
    Alike L (.emptyExpression p) (.emptyExpression q)
  | malformed (form : Keyword) (fault fault' : FormFault) {p q : Span} (hs : L.span p q) :
    Alike L (.malformed form fault p) (.malformed form fault' q)

theorem ParseError.Alike.span {e f : ParseError} (h : e.Alike L f) :
    ∃ p q, e.span? = some p ∧ f.span? = some q ∧ L.span p q := by
  cases h with
  | unexpectedToken h | unclosed h => exact ⟨_, _, rfl, rfl, h.span⟩
  | emptyExpression hs | malformed _ _ _ hs => exact ⟨_, _, rfl, rfl, hs⟩

/-- Results of a parser that are alike: errors that are, or what is related by `V`. -/
abbrev ParsedAlike {α β : Type} (L : Likeness) (V : α → β → Prop) (x : Except ParseError α)
    (y : Except ParseError β) : Prop :=
  ResultRel (ParseError.Alike L) V x y

theorem Piece.take_alike (expected : Expected) {t u : Token} {ts us : List Token}
    (h : TokensAlike L (t :: ts) (u :: us)) :
    ParsedAlike L (fun p q => p.1.Alike L q.1 ∧ TokensAlike L p.2 q.2) (take expected t ts)
      (take expected u us) := by
  have ht : t.Alike L u := h.head
  unfold take
  rw [← ht.kind_eq]
  cases hk : t.kind with
  | opening b =>
    have hcut := h.cut hk
    dsimp only
    generalize Enclosed.cut b 0 ts = d at hcut ⊢
    generalize Enclosed.cut b 0 us = e at hcut ⊢
    cases hcut with
    | none => exact .error (.unclosed ht)
    | some hcut => exact .ok ⟨.group b hcut.1.inside hcut.2, hcut.1.rest⟩
  | closing | keyword => exact .error (.unexpectedToken ht expected)
  | number | string | boolean | identifier => exact .ok ⟨.atom ht (by simp [hk]), h.tail⟩

theorem cutRound_alike {t u : Token} {ts us : List Token}
    (h : TokensAlike L (t :: ts) (u :: us)) (hk : t.kind = .opening .round) :
    ParsedAlike L (fun d e => d.Alike L e ∧
      L.span (t.span.merge d.closer.span) (u.span.merge e.closer.span)) (cutRound t ts)
      (cutRound u us) := by
  have hcut := h.cut hk
  rw [cutRound, cutRound]
  generalize Enclosed.cut .round 0 ts = d at hcut ⊢
  generalize Enclosed.cut .round 0 us = e at hcut ⊢
  cases hcut with
  | none => exact .error (.unclosed h.head)
  | some hcut => exact .ok hcut

/-! ### Atoms and special forms -/

theorem Text.equalsIgnoringCase_congr {x y : String} (h : equalsIgnoringCase x y) (z : String) :
    equalsIgnoringCase x z = equalsIgnoringCase y z := by
  rw [equalsIgnoringCase, equalsIgnoringCase, eq_of_beq h]

theorem parseAtom_alike {t u : Token} (h : t.Alike L u) (hk : t.kind = .number ∨
    t.kind = .string ∨ t.kind = .boolean ∨ t.kind = .identifier) :
    ParsedAlike L (Node.Alike L) (parseAtom t) (parseAtom u) := by
  have htext := h.text
  unfold parseAtom
  rw [← h.kind_eq]
  rcases hk with hk | hk | hk | hk <;> rw [hk] at htext ⊢ <;> dsimp only
  · rw [show t.text = u.text from htext]
    cases Single.ofText? u.text with
    | none => exact .error (.unexpectedToken h .number)
    | some x => exact .ok (.number x h.span)
  · rw [show t.text = u.text from htext]
    exact .ok (.string _ h.span)
  · rw [Text.equalsIgnoringCase_congr htext]
    exact .ok (.boolean _ h.span)
  · exact .ok (.symbol htext h.span)

section Forms

variable {p q : Span} (hs : L.span p q) {xs ys : List Node}
  (hx : List.Forall₂ (Node.Alike L) xs ys)
include hs hx

theorem conditionalOf_alike :
    ParsedAlike L (Node.Alike L) (conditionalOf p xs) (conditionalOf q ys) :=
  match xs, ys, hx with
  | _, _, .nil | _, _, .cons _ .nil | _, _, .cons _ (.cons _ .nil)
  | _, _, .cons _ (.cons _ (.cons _ (.cons _ _))) => .error (.malformed .ifForm _ _ hs)
  | _, _, .cons ht (.cons hy (.cons hn .nil)) => .ok (.conditional ht hy (.some hn) hs)

/-- Bindings of names that are alike to trees that are alike. -/
def BindingAlike (L : Likeness) (b c : String × Node) : Prop := L.name b.1 c.1 ∧ b.2.Alike L c.2

theorem letOf_alike {bs cs : List (String × Node)} (hb : List.Forall₂ (BindingAlike L) bs cs) :
    ParsedAlike L (Node.Alike L) (letOf p bs xs) (letOf q cs ys) := by
  match xs, ys, hx with
  | _, _, .nil | _, _, .cons _ (.cons _ _) => exact .error (.malformed .letForm _ _ hs)
  | _, _, .cons hx .nil =>
    have names : List.Forall₂ L.name (bs.map (·.1)) (cs.map (·.1)) :=
      List.forall₂_map_left_iff.2 (List.forall₂_map_right_iff.2 (hb.imp fun _ _ h => h.1))
    have values : List.Forall₂ (Node.Alike L) (bs.map (·.2)) (cs.map (·.2)) :=
      List.forall₂_map_left_iff.2 (List.forall₂_map_right_iff.2 (hb.imp fun _ _ h => h.2))
    exact .ok (.letIn names values hx hs)

end Forms

theorem parameterName_alike {x y : Node} (h : x.Alike L y) :
    ParsedAlike L L.name (parameterName x) (parameterName y) := by
  have hs := h.span
  cases h with
  | symbol hn => exact .ok hn
  | number | string | boolean | list | call | letIn | conditional | function =>
    exact .error (.malformed .funForm _ _ hs)

theorem mapM_parameterName_alike {xs ys : List Node} (h : List.Forall₂ (Node.Alike L) xs ys) :
    ParsedAlike L (List.Forall₂ L.name) (xs.mapM parameterName) (ys.mapM parameterName) := by
  induction h with
  | nil => exact .ok .nil
  | cons hx _ ih =>
    rw [List.mapM_cons, List.mapM_cons]
    refine (parameterName_alike hx).bind fun f g _ hn => ?_
    exact ih.bind fun fs gs _ hns => .ok (.cons hn hns)

theorem parameterNames_alike {x y : Node} (h : x.Alike L y) :
    ParsedAlike L (List.Forall₂ L.name) (parameterNames x) (parameterNames y) := by
  have hs := h.span
  cases h with
  | list hx => exact mapM_parameterName_alike hx
  | call hf hx => exact mapM_parameterName_alike (.cons hf hx)
  | number | string | boolean | symbol | letIn | conditional | function =>
    exact .error (.malformed .funForm _ _ hs)

theorem functionName_alike {x y : Node} (h : x.Alike L y) :
    ParsedAlike L L.name (functionName x) (functionName y) := by
  have hs := h.span
  cases h with
  | symbol hn => exact .ok hn
  | number | string | boolean | list | call | letIn | conditional | function =>
    exact .error (.malformed .funForm _ _ hs)

theorem functionOf_alike {p q : Span} (hs : L.span p q) {xs ys : List Node}
    (h : List.Forall₂ (Node.Alike L) xs ys) :
    ParsedAlike L (Node.Alike L) (functionOf p xs) (functionOf q ys) := by
  match xs, ys, h with
  | _, _, .nil | _, _, .cons _ .nil | _, _, .cons _ (.cons _ (.cons _ (.cons _ _))) =>
    exact .error (.malformed .funForm _ _ hs)
  | _, _, .cons hf (.cons hb .nil) =>
    exact (functionName_alike hf).bind fun f g _ hn => .ok (.function hn .nil hb hs)
  | _, _, .cons hf (.cons hp (.cons hb .nil)) =>
    refine (functionName_alike hf).bind fun f g _ hn => ?_
    exact (parameterNames_alike hp).bind fun ps qs _ hps => .ok (.function hn hps hb hs)

theorem bindingOf_alike {f g : String} (hn : L.name f g) {x y : Node} (hx : x.Alike L y)
    {ts us : List Token} (h : TokensAlike L ts us) :
    ParsedAlike L (BindingAlike L) (bindingOf f x ts) (bindingOf g y us) := by
  cases h with
  | nil => exact .ok ⟨hn, hx⟩
  | cons ht => exact .error (.unexpectedToken ht .bindingEnd)

/-! ### Parts -/

mutual

theorem parsePiece_alike : {p q : Piece} → p.Alike L q →
    ParsedAlike L (Node.Alike L) (parsePiece p) (parsePiece q)
  | .atom _, _, .atom h hk => by
    rw [parsePiece, parsePiece]
    exact parseAtom_alike h hk
  | .group .square opener inside closer, _, .group _ hi hs => by
    rw [parsePiece, parsePiece]
    exact (parseMany_alike .listElement hi).bind fun xs ys _ hx => .ok (.list hx hs)
  | .group .round opener inside closer, _, .group _ hi hs => by
    rw [parsePiece, parsePiece]
    exact parseForm_alike hs hi
termination_by p => 2 * p.size
decreasing_by all_goals simp only [Piece.size]; omega

theorem parseMany_alike (expected : Expected) : {ts us : List Token} → TokensAlike L ts us →
    ParsedAlike L (List.Forall₂ (Node.Alike L)) (parseMany expected ts) (parseMany expected us)
  | [], _, .nil => by
    rw [parseMany]
    exact .ok .nil
  | t :: ts, u :: us, h => by
    rw [parseMany_cons, parseMany_cons]
    refine (Piece.take_alike expected h).bind fun (p, rest) (q, rest') ht hp => ?_
    have := Piece.take_length ht
    have := p.size_pos
    refine (parsePiece_alike hp.1).bind fun x y _ hx => ?_
    exact (parseMany_alike expected hp.2).bind fun xs ys _ hxs => .ok (.cons hx hxs)
termination_by ts => 2 * ts.length + 1
decreasing_by all_goals simp only [List.length_cons]; omega

theorem parseForm_alike {p q : Span} (hpq : L.span p q) : {ts us : List Token} →
    TokensAlike L ts us → ParsedAlike L (Node.Alike L) (parseForm p ts) (parseForm q us)
  | [], _, .nil => by
    rw [parseForm, parseForm]
    exact .error (.emptyExpression hpq)
  | t :: ts, u :: us, h => by
    have hkind := h.head.kind_eq
    by_cases hh : t.kind = .identifier ∨ t.kind = .opening .round
    · rw [parseForm_head p ts hh, parseForm_head q us (hkind ▸ hh)]
      refine (Piece.take_alike .head h).bind fun (p, rest) (q, rest') ht hp => ?_
      have := Piece.take_length ht
      have := p.size_pos
      refine (parsePiece_alike hp.1).bind fun x y _ hx => ?_
      exact (parseMany_alike .argument hp.2).bind fun xs ys _ hxs => .ok (.call hx hxs hpq)
    obtain ⟨hi, ho⟩ := not_or.1 hh
    by_cases hl : t.kind = .keyword .letForm
    · rw [parseForm_letForm p ts hl, parseForm_letForm q us (hkind ▸ hl)]
      exact parseLet_alike hpq h.tail
    by_cases hc : t.kind = .keyword .ifForm
    · rw [parseForm_ifForm p ts hc, parseForm_ifForm q us (hkind ▸ hc)]
      exact (parseMany_alike .argument h.tail).bind fun xs ys _ hx => conditionalOf_alike hpq hx
    by_cases hf : t.kind = .keyword .funForm
    · rw [parseForm_funForm p ts hf, parseForm_funForm q us (hkind ▸ hf)]
      exact (parseMany_alike .argument h.tail).bind fun xs ys _ hx => functionOf_alike hpq hx
    · have hk (word : Keyword) : t.kind ≠ .keyword word := by cases word <;> assumption
      rw [parseForm_unexpected p ts hk hi ho,
        parseForm_unexpected q us (hkind ▸ hk) (hkind ▸ hi) (hkind ▸ ho)]
      exact .error (.unexpectedToken h.head .head)
termination_by ts => 2 * ts.length + 1
decreasing_by all_goals simp only [List.length_cons]; omega

theorem parseLet_alike {p q : Span} (hpq : L.span p q) : {ts us : List Token} →
    TokensAlike L ts us → ParsedAlike L (Node.Alike L) (parseLet p ts) (parseLet q us)
  | [], _, .nil => by
    rw [parseLet, parseLet]
    exact .error (.malformed .letForm _ _ hpq)
  | t :: ts, u :: us, h => by
    by_cases hk : t.kind = .opening .round
    · rw [parseLet_cons ts p hk, parseLet_cons us q (h.head.kind_eq ▸ hk)]
      refine (cutRound_alike h hk).bind fun d e hd hde => ?_
      have := Enclosed.cut_length (cutRound_eq_ok.1 hd)
      refine (parseBindings_alike hde.1.inside).bind fun bs cs _ hb => ?_
      exact (parseMany_alike .argument hde.1.rest).bind fun xs ys _ hx => letOf_alike hpq hx hb
    · rw [parseLet, parseLet, if_neg hk, if_neg (h.head.kind_eq ▸ hk)]
      exact .error (.unexpectedToken h.head .bindingList)
termination_by ts => 2 * ts.length + 1
decreasing_by all_goals simp only [List.length_cons]; omega

theorem parseBindings_alike : {ts us : List Token} → TokensAlike L ts us →
    ParsedAlike L (List.Forall₂ (BindingAlike L)) (parseBindings ts) (parseBindings us)
  | [], _, .nil => by
    rw [parseBindings]
    exact .ok .nil
  | t :: ts, u :: us, h => by
    by_cases hk : t.kind = .opening .round
    · rw [parseBindings_cons ts hk, parseBindings_cons us (h.head.kind_eq ▸ hk)]
      refine (cutRound_alike h hk).bind fun d e hd hde => ?_
      have := Enclosed.cut_length (cutRound_eq_ok.1 hd)
      refine (parseBinding_alike hde.2 hde.1.inside).bind fun b c _ hb => ?_
      exact (parseBindings_alike hde.1.rest).bind fun bs cs _ hbs => .ok (.cons hb hbs)
    · rw [parseBindings, parseBindings, if_neg hk, if_neg (h.head.kind_eq ▸ hk)]
      exact .error (.unexpectedToken h.head .binding)
termination_by ts => 2 * ts.length + 1
decreasing_by all_goals simp only [List.length_cons]; omega

theorem parseBinding_alike {p q : Span} (hpq : L.span p q) : {ts us : List Token} →
    TokensAlike L ts us → ParsedAlike L (BindingAlike L) (parseBinding p ts) (parseBinding q us)
  | [], _, .nil => by
    rw [parseBinding, parseBinding]
    exact .error (.emptyExpression hpq)
  | [t], [u], .cons ht _ .nil => by
    rw [parseBinding, parseBinding]
    by_cases hk : t.kind = .identifier
    · rw [if_pos hk, if_pos (ht.kind_eq ▸ hk)]
      exact .error (.malformed .letForm _ _ hpq)
    · rw [if_neg hk, if_neg (ht.kind_eq ▸ hk)]
      exact .error (.unexpectedToken ht .bindingName)
  | t :: t' :: ts, u :: u' :: us, .cons ht _ hs => by
    by_cases hk : t.kind = .identifier
    · have hn := ht.text
      rw [hk] at hn
      rw [parseBinding_cons ts p hk, parseBinding_cons us q (ht.kind_eq ▸ hk)]
      refine (Piece.take_alike .bindingValue hs).bind fun (p, rest) (q, rest') ht hp => ?_
      have := Piece.take_length ht
      have := p.size_pos
      refine (parsePiece_alike hp.1).bind fun x y _ hx => ?_
      exact bindingOf_alike hn hx hp.2
    · rw [parseBinding, parseBinding, if_neg hk, if_neg (ht.kind_eq ▸ hk)]
      exact .error (.unexpectedToken ht .bindingName)
termination_by ts => 2 * ts.length + 1
decreasing_by all_goals simp only [List.length_cons]; omega

end

end SmallLisp
