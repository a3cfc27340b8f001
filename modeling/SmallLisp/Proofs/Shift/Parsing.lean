import SmallLisp.Proofs.Shift
import SmallLisp.Proofs.Grammar.Soundness

/-! Trees of a text that stands further on. No parser looks at the places of its
tokens: it only passes them on, alone or merged, to trees and errors. So each of
them gives for moved tokens what it gives for the tokens themselves, moved. A
text that parses is then read as before when a separator and more text follow it,
and that text is read as if it stood alone. -/

namespace SmallLisp

variable (n : Nat)

/-! ### Pieces -/

def Enclosed.shift (e : Enclosed) : Enclosed :=
  ⟨e.inside.map (Token.shift n), e.closer.shift n, e.rest.map (Token.shift n)⟩

theorem Enclosed.cut_shift (b : Bracket) (depth : Nat) (ts : List Token) :
    cut b depth (ts.map (Token.shift n)) = (cut b depth ts).map (shift n) := by
  have push (t : Token) (d : Option Enclosed) :
      (d.map (shift n)).map (push (t.shift n)) = (d.map (push t)).map (shift n) := by
    cases d <;> rfl
  induction ts generalizing depth with
  | nil => rfl
  | cons t ts ih =>
    rw [List.map_cons]
    by_cases ho : t.kind = .opening b
    · rw [cut_opening depth ts ho, cut_opening depth _ (t := t.shift n) ho, ih, push]
    by_cases hc : t.kind = .closing b
    · cases depth with
      | zero =>
        rw [cut_closing_zero ts hc, cut_closing_zero _ (t := t.shift n) hc]
        rfl
      | succ depth =>
        rw [cut_closing_succ depth ts hc, cut_closing_succ depth _ (t := t.shift n) hc, ih, push]
    · rw [cut_other depth ts ho hc, cut_other depth _ (t := t.shift n) ho hc, ih, push]

def Piece.shift : Piece → Piece
  | atom t => atom (t.shift n)
  | group b opener inside closer =>
    group b (opener.shift n) (inside.map (Token.shift n)) (closer.shift n)

theorem Piece.take_shift (expected : Expected) (t : Token) (ts : List Token) :
    take expected (t.shift n) (ts.map (Token.shift n)) =
      bimap (ParseError.shift n) (Prod.map (shift n) (List.map (Token.shift n)))
        (take expected t ts) := by
  have hk : (t.shift n).kind = t.kind := rfl
  unfold take
  rw [hk]
  cases t.kind with
  | opening b =>
    dsimp only
    rw [Enclosed.cut_shift]
    cases Enclosed.cut b 0 ts <;> rfl
  | closing | number | string | boolean | identifier | keyword => rfl

theorem cutRound_shift (t : Token) (ts : List Token) :
    cutRound (t.shift n) (ts.map (Token.shift n)) =
      bimap (ParseError.shift n) (Enclosed.shift n) (cutRound t ts) := by
  rw [cutRound, cutRound, Enclosed.cut_shift]
  cases Enclosed.cut .round 0 ts <;> rfl

/-! ### Atoms and special forms -/

theorem parseAtom_shift (t : Token) :
    parseAtom (t.shift n) = bimap (ParseError.shift n) (Node.shift n) (parseAtom t) := by
  have hk : (t.shift n).kind = t.kind := rfl
  have hx : (t.shift n).text = t.text := rfl
  unfold parseAtom
  rw [hk, hx]
  cases t.kind with
  | number => cases Single.ofText? t.text <;> rfl
  | opening | closing | string | boolean | identifier | keyword => rfl

theorem conditionalOf_shift (span : Span) (parts : List Node) :
    conditionalOf (span.shift n) (parts.map (Node.shift n)) =
      bimap (ParseError.shift n) (Node.shift n) (conditionalOf span parts) := by
  match parts with
  | [] | [_] | [_, _] | [_, _, _] => rfl
  | a :: b :: c :: d :: rest =>
    show Except.error (ParseError.malformed .ifForm
      (.partsOfIf ((a :: b :: c :: d :: rest).map (Node.shift n)).length) (span.shift n)) = _
    rw [List.length_map]
    rfl

theorem parameterName_shift (x : Node) :
    parameterName (x.shift n) = bimap (ParseError.shift n) id (parameterName x) := by
  cases x <;> rfl

theorem functionName_shift (x : Node) :
    functionName (x.shift n) = bimap (ParseError.shift n) id (functionName x) := by
  cases x <;> rfl

theorem mapM_parameterName_shift (xs : List Node) :
    (xs.map (Node.shift n)).mapM parameterName =
      bimap (ParseError.shift n) id (xs.mapM parameterName) := by
  induction xs with
  | nil => rfl
  | cons x xs ih =>
    rw [List.map_cons, List.mapM_cons, List.mapM_cons, parameterName_shift, ih]
    exact bimap_bind fun name _ => bimap_bind fun names _ => rfl

theorem parameterNames_shift (x : Node) :
    parameterNames (x.shift n) = bimap (ParseError.shift n) id (parameterNames x) := by
  cases x with
  | list items s =>
    rw [Node.shift_list]
    exact mapM_parameterName_shift n items
  | call head args s =>
    rw [Node.shift_call]
    exact mapM_parameterName_shift n (head :: args)
  | number | string | boolean | symbol | letIn | conditional | function => rfl

theorem functionOf_shift (span : Span) (parts : List Node) :
    functionOf (span.shift n) (parts.map (Node.shift n)) =
      bimap (ParseError.shift n) (Node.shift n) (functionOf span parts) := by
  match parts with
  | [] | [_] => rfl
  | [name, body] =>
    simp only [List.map_cons, List.map_nil, functionOf, functionName_shift]
    exact bimap_bind fun name _ => rfl
  | [name, params, body] =>
    simp only [List.map_cons, List.map_nil, functionOf, functionName_shift, parameterNames_shift]
    exact bimap_bind fun name _ => bimap_bind fun params _ => rfl
  | a :: b :: c :: d :: rest =>
    show Except.error (ParseError.malformed .funForm
      (.partsOfFunction ((a :: b :: c :: d :: rest).map (Node.shift n)).length) (span.shift n)) = _
    rw [List.length_map]
    rfl

theorem letOf_shift (span : Span) (bindings : List (String × Node)) (bodies : List Node) :
    letOf (span.shift n) (bindings.map (Prod.map id (Node.shift n))) (bodies.map (Node.shift n)) =
      bimap (ParseError.shift n) (Node.shift n) (letOf span bindings bodies) := by
  match bodies with
  | [] => rfl
  | [body] => exact congrArg Except.ok (Node.shift_letIn n bindings body span).symm
  | a :: b :: rest =>
    show Except.error (ParseError.malformed .letForm
      (.partsOfBody ((a :: b :: rest).map (Node.shift n)).length) (span.shift n)) = _
    rw [List.length_map]
    rfl

theorem bindingOf_shift (name : String) (value : Node) (rest : List Token) :
    bindingOf name (value.shift n) (rest.map (Token.shift n)) =
      bimap (ParseError.shift n) (Prod.map id (Node.shift n)) (bindingOf name value rest) := by
  cases rest <;> rfl

/-! ### Parts -/

mutual

theorem parsePiece_shift : (p : Piece) →
    parsePiece (p.shift n) = bimap (ParseError.shift n) (Node.shift n) (parsePiece p)
  | .atom t => by rw [Piece.shift, parsePiece, parsePiece, parseAtom_shift]
  | .group .square opener inside closer => by
    rw [Piece.shift, parsePiece, parsePiece, parseMany_shift .listElement inside]
    refine bimap_bind fun items _ => ?_
    have hs : (opener.shift n).span.merge (closer.shift n).span =
        (opener.span.merge closer.span).shift n := Span.merge_shift n _ _
    rw [hs, ← Node.shift_list]
    rfl
  | .group .round opener inside closer => by
    rw [Piece.shift, parsePiece, parsePiece, ← parseForm_shift _ inside, ← Span.merge_shift]
    rfl
termination_by p => 2 * p.size
decreasing_by all_goals simp only [Piece.size]; omega

theorem parseMany_shift (expected : Expected) : (ts : List Token) →
    parseMany expected (ts.map (Token.shift n)) =
      bimap (ParseError.shift n) (List.map (Node.shift n)) (parseMany expected ts)
  | [] => by
    rw [List.map_nil, parseMany]
    rfl
  | t :: ts => by
    rw [List.map_cons, parseMany_cons, parseMany_cons, Piece.take_shift]
    refine bimap_bind fun (p, rest) ht => ?_
    have := Piece.take_length ht
    have := p.size_pos
    dsimp only [Prod.map]
    rw [parsePiece_shift p, parseMany_shift expected rest]
    exact bimap_bind fun x _ => bimap_bind fun xs _ => rfl
termination_by ts => 2 * ts.length + 1
decreasing_by all_goals simp only [List.length_cons]; omega

theorem parseForm_shift (span : Span) : (ts : List Token) →
    parseForm (span.shift n) (ts.map (Token.shift n)) =
      bimap (ParseError.shift n) (Node.shift n) (parseForm span ts)
  | [] => by
    rw [List.map_nil, parseForm, parseForm]
    rfl
  | t :: ts => by
    rw [List.map_cons]
    by_cases hh : t.kind = .identifier ∨ t.kind = .opening .round
    · rw [parseForm_head _ _ (t := t.shift n) hh, parseForm_head span ts hh, Piece.take_shift]
      refine bimap_bind fun (p, rest) ht => ?_
      have := Piece.take_length ht
      have := p.size_pos
      dsimp only [Prod.map]
      rw [parsePiece_shift p, parseMany_shift .argument rest]
      refine bimap_bind fun x _ => bimap_bind fun xs _ => ?_
      exact congrArg Except.ok (Node.shift_call n x xs span).symm
    obtain ⟨hi, ho⟩ := not_or.1 hh
    by_cases hl : t.kind = .keyword .letForm
    · rw [parseForm_letForm _ _ (t := t.shift n) hl, parseForm_letForm span ts hl]
      exact parseLet_shift span ts
    by_cases hc : t.kind = .keyword .ifForm
    · rw [parseForm_ifForm _ _ (t := t.shift n) hc, parseForm_ifForm span ts hc,
        parseMany_shift .argument ts]
      exact bimap_bind fun parts _ => conditionalOf_shift n span parts
    by_cases hf : t.kind = .keyword .funForm
    · rw [parseForm_funForm _ _ (t := t.shift n) hf, parseForm_funForm span ts hf,
        parseMany_shift .argument ts]
      exact bimap_bind fun parts _ => functionOf_shift n span parts
    · have hk (word : Keyword) : t.kind ≠ .keyword word := by cases word <;> assumption
      rw [parseForm_unexpected _ _ (t := t.shift n) hk hi ho, parseForm_unexpected span ts hk hi ho]
      rfl
termination_by ts => 2 * ts.length + 1
decreasing_by all_goals simp only [List.length_cons]; omega

theorem parseLet_shift (span : Span) : (ts : List Token) →
    parseLet (span.shift n) (ts.map (Token.shift n)) =
      bimap (ParseError.shift n) (Node.shift n) (parseLet span ts)
  | [] => by
    rw [List.map_nil, parseLet, parseLet]
    rfl
  | t :: ts => by
    rw [List.map_cons]
    by_cases hk : t.kind = .opening .round
    · rw [parseLet_cons _ (t := t.shift n) _ hk, parseLet_cons ts span hk, cutRound_shift]
      refine bimap_bind fun e he => ?_
      have := Enclosed.cut_length (cutRound_eq_ok.1 he)
      rw [Enclosed.shift, parseBindings_shift e.inside, parseMany_shift .argument e.rest]
      refine bimap_bind fun bindings _ => bimap_bind fun bodies _ => ?_
      exact letOf_shift n span bindings bodies
    · rw [parseLet, parseLet, if_neg hk, if_neg (show ¬(t.shift n).kind = .opening .round from hk)]
      rfl
termination_by ts => 2 * ts.length + 1
decreasing_by all_goals simp only [List.length_cons]; omega

theorem parseBindings_shift : (ts : List Token) →
    parseBindings (ts.map (Token.shift n)) =
      bimap (ParseError.shift n) (List.map (Prod.map id (Node.shift n))) (parseBindings ts)
  | [] => by
    rw [List.map_nil, parseBindings]
    rfl
  | t :: ts => by
    rw [List.map_cons]
    by_cases hk : t.kind = .opening .round
    · rw [parseBindings_cons _ (t := t.shift n) hk, parseBindings_cons ts hk, cutRound_shift]
      refine bimap_bind fun e he => ?_
      have := Enclosed.cut_length (cutRound_eq_ok.1 he)
      have hs : (t.shift n).span.merge (e.shift n).closer.span =
          (t.span.merge e.closer.span).shift n := Span.merge_shift n _ _
      rw [hs, Enclosed.shift, parseBinding_shift _ e.inside, parseBindings_shift e.rest]
      exact bimap_bind fun b _ => bimap_bind fun bs _ => rfl
    · rw [parseBindings, parseBindings, if_neg hk,
        if_neg (show ¬(t.shift n).kind = .opening .round from hk)]
      rfl
termination_by ts => 2 * ts.length + 1
decreasing_by all_goals simp only [List.length_cons]; omega

theorem parseBinding_shift (span : Span) : (ts : List Token) →
    parseBinding (span.shift n) (ts.map (Token.shift n)) =
      bimap (ParseError.shift n) (Prod.map id (Node.shift n)) (parseBinding span ts)
  | [] => by
    rw [List.map_nil, parseBinding, parseBinding]
    rfl
  | [t] => by
    rw [List.map_singleton, parseBinding, parseBinding]
    by_cases hk : t.kind = .identifier
    · rw [if_pos hk, if_pos (show (t.shift n).kind = .identifier from hk)]
      rfl
    · rw [if_neg hk, if_neg (show ¬(t.shift n).kind = .identifier from hk)]
      rfl
  | t :: u :: ts => by
    rw [List.map_cons, List.map_cons]
    by_cases hk : t.kind = .identifier
    · rw [parseBinding_cons _ (t := t.shift n) _ hk, parseBinding_cons ts span hk, Piece.take_shift]
      refine bimap_bind fun (p, rest) ht => ?_
      have := Piece.take_length ht
      have := p.size_pos
      dsimp only [Prod.map]
      rw [parsePiece_shift p]
      exact bimap_bind fun value _ => bindingOf_shift n t.text value rest
    · rw [parseBinding, parseBinding, if_neg hk,
        if_neg (show ¬(t.shift n).kind = .identifier from hk)]
      rfl
termination_by ts => 2 * ts.length + 1
decreasing_by all_goals simp only [List.length_cons]; omega

end

/-! ### Texts -/

theorem tokenize_append {a : String} {ts : List Token} (h : tokenize a = .ok ts) {w : Char}
    (hw : isSeparator w) (b : String) :
    tokenize (a ++ String.singleton w ++ b) =
      bimap (LexError.shift (a.utf8ByteSize + 1))
        (fun us => ts ++ us.map (Token.shift (a.utf8ByteSize + 1))) (tokenize b) := by
  have hs : 0 + Text.byteLength a.toList + w.utf8Size = 0 + (a.utf8ByteSize + 1) := by
    rw [Text.byteLength_toList, utf8Size_of_isSeparator hw, Nat.add_assoc]
  rw [tokenize, String.toList_append, String.toList_append, String.toList_singleton,
    List.append_assoc, List.singleton_append, Token.scanFrom_append h hw, hs, Token.scanFrom_add,
    tokenize]
  cases Token.scanFrom 0 b.toList <;> rfl

/-- What comes after a program that parses is parsed by itself. -/
theorem parseText_append {a : String} {xs : List Node} (h : parseText a = .ok xs) {w : Char}
    (hw : isSeparator w) (b : String) :
    parseText (a ++ String.singleton w ++ b) =
      bimap (Error.shift (a.utf8ByteSize + 1))
        (fun ys => xs ++ ys.map (Node.shift (a.utf8ByteSize + 1))) (parseText b) := by
  obtain ⟨ts, ht, hp⟩ := parseText_eq_ok.1 h
  obtain ⟨fs, rfl, rfl⟩ := parseMany_sound .form ts hp
  unfold parseText
  rw [tokenize_append ht hw]
  cases tokenize b with
  | error e => rfl
  | ok us =>
    dsimp only [bimap]
    rw [parse, parseMany_tokensAll (Form.parsePiece_pieces fs), parseMany_shift, parse]
    cases parseMany .form us <;> rfl

end SmallLisp
