import SmallLisp.Error
import SmallLisp.Proofs.Printing

/-! Printing and parsing again. What the parser makes of the tokens of any text
can be written down; a tree that is equal to one that was parsed can be written
down too; and what is written is read as a form of the same tree, unless a number
in it is not finite. So a program survives printing and parsing exactly if its
trees are well formed, and a program that was parsed does so exactly if none of
its number literals overflows. -/

namespace SmallLisp

open Token

/-! ### The trees of scanned tokens -/

/-- Each of the tokens is the text of one token. -/
def Scanned (ts : List Token) : Prop := ∀ t ∈ ts, Cut t.text.toList t.kind []

/-- Every number among the tokens satisfies `P`. -/
def Numbers (P : Single → Prop) (ts : List Token) : Prop :=
  ∀ t ∈ ts, t.kind = .number → ∀ x, Single.ofText? t.text = some x → P x

section Tokens

variable {P : Single → Prop} {t : Token} {ts us : List Token}

theorem scanned_append : Scanned (ts ++ us) ↔ Scanned ts ∧ Scanned us := by
  simp only [Scanned, List.mem_append, or_imp, forall_and]

theorem scanned_cons : Scanned (t :: ts) ↔ Cut t.text.toList t.kind [] ∧ Scanned ts := by
  simp only [Scanned, List.mem_cons, forall_eq_or_imp]

theorem isName_of_cut {t : Terminal .identifier} (h : Cut t.val.text.toList t.val.kind []) :
    IsName t.val.text := by
  rw [t.property] at h
  exact isName_iff_cut.2 h

theorem numbers_append : Numbers P (ts ++ us) ↔ Numbers P ts ∧ Numbers P us := by
  simp only [Numbers, List.mem_append, or_imp, forall_and]

/-- A token of another kind is passed over. -/
theorem numbers_cons_of_ne (h : t.kind ≠ .number) : Numbers P (t :: ts) ↔ Numbers P ts := by
  simp [Numbers, h]

theorem numbers_around {b : Bracket} (p : Brackets b) : Numbers P (p.around ts) ↔ Numbers P ts := by
  have ho : p.opener.val.kind ≠ .number := by simp [p.opener.property]
  have hc : p.closer.val.kind ≠ .number := by simp [p.closer.property]
  rw [Brackets.around, numbers_cons_of_ne ho, numbers_append, numbers_cons_of_ne hc]
  exact and_iff_left (fun _ h => absurd h List.not_mem_nil)

theorem scanned_around {b : Bracket} {p : Brackets b} (h : Scanned (p.around ts)) : Scanned ts :=
  (scanned_append.1 (scanned_cons.1 h).2).1

theorem numbers_identifiers (ids : List (Terminal .identifier)) :
    Numbers P (ids.map Subtype.val) := by
  intro t ht hk
  obtain ⟨id, _, rfl⟩ := List.mem_map.1 ht
  rw [id.property] at hk
  cases hk

theorem numbers_params (params : Option Params) :
    Numbers P (params.elim [] Params.tokens) := by
  cases params with
  | none => exact fun _ h => absurd h List.not_mem_nil
  | some p =>
    cases p with
    | square p names => exact (numbers_around p).2 (numbers_identifiers names)
    | round p first others => exact (numbers_around p).2 (numbers_identifiers (first :: others))

theorem isName_of_scanned {ids : List (Terminal .identifier)} (h : Scanned (ids.map Subtype.val)) :
    ∀ name ∈ ids.map (·.val.text), IsName name := by
  intro name hn
  obtain ⟨id, hid, rfl⟩ := List.mem_map.1 hn
  exact isName_of_cut (h id.val (List.mem_map_of_mem hid))

theorem isName_of_params {params : Option Params} (h : Scanned (params.elim [] Params.tokens)) :
    ∀ name ∈ (params.elim [] Params.names).map (·.val.text), IsName name := by
  cases params with
  | none => exact fun _ h => absurd h List.not_mem_nil
  | some p =>
    cases p with
    | square p names => exact isName_of_scanned (scanned_around h)
    | round p first others =>
      have hs : Scanned ((first :: others).map Subtype.val) := scanned_around h
      exact isName_of_scanned hs

end Tokens

section Trees

variable {P : Single → Prop}

theorem Atom.wellFormedWith_iff (a : Atom) (h : Scanned [a.token]) :
    a.node.WellFormedWith P ↔ Numbers P [a.token] := by
  cases a with
  | number t x hr =>
    refine ⟨fun hx u hu _ y hy => ?_, fun hn => hn t.val List.mem_cons_self t.property x hr⟩
    obtain rfl := List.mem_singleton.1 hu
    exact Option.some.inj (hr.symm.trans hy) ▸ hx
  | string t | boolean t =>
    have hk : t.val.kind ≠ .number := by simp [t.property]
    exact ⟨fun _ => (numbers_cons_of_ne hk).2 fun _ h => absurd h List.not_mem_nil,
      fun _ => trivial⟩
  | symbol t =>
    exact ⟨fun _ => numbers_identifiers [t], fun _ => isName_of_cut (scanned_cons.1 h).1⟩

theorem Content.isOperator_node (c : Content) (span : Span) : (c.node span).IsOperator := by
  cases c <;> exact trivial

mutual

/-- A tree made from scanned tokens can be written down, its numbers are those of the tokens. -/
theorem Form.wellFormedWith_iff : (f : Form) → Scanned f.tokens →
    (f.node.WellFormedWith P ↔ Numbers P f.tokens)
  | .atom a, h => a.wellFormedWith_iff h
  | .list p items, h => by
    rw [Form.tokens, numbers_around]
    exact Form.wellFormedAll_iff items (scanned_around h)
  | .round p c, h => by
    rw [Form.tokens, numbers_around]
    exact c.wellFormedWith_iff p.span (scanned_around h)

theorem Content.wellFormedWith_iff (span : Span) : (c : Content) → Scanned c.tokens →
    ((c.node span).WellFormedWith P ↔ Numbers P c.tokens)
  | .call head args, h => by
    obtain ⟨hh, ha⟩ := scanned_cons.1 h
    have hk : head.val.kind ≠ .number := by simp [head.property]
    rw [Content.tokens, numbers_cons_of_ne hk, ← Form.wellFormedAll_iff args ha]
    exact ⟨fun hw => hw.2.2, fun hw => ⟨trivial, isName_of_cut hh, hw⟩⟩
  | .apply p head args, h => by
    obtain ⟨hh, ha⟩ := scanned_append.1 h
    rw [Content.tokens, numbers_append, numbers_around, ← Form.wellFormedAll_iff args ha,
      ← head.wellFormedWith_iff p.span (scanned_around hh)]
    exact and_iff_right (head.isOperator_node p.span)
  | .letIn word p bindings body, h => by
    obtain ⟨_, h⟩ := scanned_cons.1 h
    obtain ⟨hb, hx⟩ := scanned_append.1 h
    have hk : word.val.kind ≠ .number := by simp [word.property]
    rw [Content.tokens, numbers_cons_of_ne hk, numbers_append, numbers_around,
      ← Form.wellFormedBindings_iff bindings (scanned_around hb), ← body.wellFormedWith_iff hx]
    exact Iff.rfl
  | .conditional word test yes no, h => by
    obtain ⟨_, h⟩ := scanned_cons.1 h
    obtain ⟨ht, h⟩ := scanned_append.1 h
    obtain ⟨hy, hn⟩ := scanned_append.1 h
    have hk : word.val.kind ≠ .number := by simp [word.property]
    rw [Content.tokens, numbers_cons_of_ne hk, numbers_append, numbers_append,
      ← test.wellFormedWith_iff ht, ← yes.wellFormedWith_iff hy, ← no.wellFormedWith_iff hn]
    exact Iff.rfl
  | .function word name params body, h => by
    obtain ⟨_, h⟩ := scanned_cons.1 h
    obtain ⟨hn, h⟩ := scanned_cons.1 h
    obtain ⟨hp, hx⟩ := scanned_append.1 h
    have hk : word.val.kind ≠ .number := by simp [word.property]
    have hk' : name.val.kind ≠ .number := by simp [name.property]
    rw [Content.tokens, numbers_cons_of_ne hk, numbers_cons_of_ne hk', numbers_append,
      ← body.wellFormedWith_iff hx]
    exact ⟨fun hw => ⟨numbers_params params, hw.2.2⟩,
      fun hw => ⟨isName_of_cut hn, isName_of_params hp, hw.2⟩⟩

theorem Form.wellFormedAll_iff : (fs : List Form) → Scanned (Form.tokensAll fs) →
    (Node.WellFormedAll P (Form.nodes fs) ↔ Numbers P (Form.tokensAll fs))
  | [], _ => ⟨fun _ _ h => absurd h List.not_mem_nil, fun _ => trivial⟩
  | f :: fs, h => by
    obtain ⟨hf, hfs⟩ := scanned_append.1 h
    rw [Form.tokensAll, numbers_append, ← f.wellFormedWith_iff hf, ← Form.wellFormedAll_iff fs hfs]
    exact Iff.rfl

theorem Form.wellFormedBindings_iff : (bs : List (Bound Form)) → Scanned (Form.bindingTokens bs) →
    (Node.WellFormedBindings P (Form.bindingNodes bs) ↔ Numbers P (Form.bindingTokens bs))
  | [], _ => ⟨fun _ _ h => absurd h List.not_mem_nil, fun _ => trivial⟩
  | ⟨p, name, value⟩ :: bs, h => by
    obtain ⟨hb, hbs⟩ := scanned_append.1 h
    obtain ⟨hn, hv⟩ := scanned_cons.1 (scanned_around hb)
    have hk : name.val.kind ≠ .number := by simp [name.property]
    rw [Form.bindingTokens, numbers_append, numbers_around, numbers_cons_of_ne hk,
      ← value.wellFormedWith_iff hv, ← Form.wellFormedBindings_iff bs hbs]
    exact and_iff_right (isName_of_cut hn)

end

end Trees

/-! ### Equal trees -/

namespace Node

theorem isOperator_of_same {x y : Node} (h : same x y) (hx : x.IsOperator) : y.IsOperator := by
  cases x <;> cases y <;> first | exact trivial | exact hx.elim | simp [same] at h

mutual

/-- A tree equal to one that can be written down can be written down. -/
theorem wellFormed_of_same : (x y : Node) → same x y → x.WellFormedWith (fun _ => True) →
    y.WellFormedWith (fun _ => True)
  | .number .., y, h, _ | .string .., y, h, _ | .boolean .., y, h, _ => by
    cases y <;> first | exact trivial | simp [same] at h
  | .symbol name _, y, h, hx => by
    cases y
    case symbol =>
      simp only [same, beq_iff_eq] at h
      exact h ▸ hx
    all_goals simp [same] at h
  | .list xs _, y, h, hx => by
    cases y
    case list ys _ =>
      rw [same] at h
      exact wellFormedAll_of_same xs ys h hx
    all_goals simp [same] at h
  | .call f xs _, y, h, hx => by
    cases y
    case call g ys _ =>
      rw [same, Bool.and_eq_true] at h
      exact ⟨isOperator_of_same h.1 hx.1, wellFormed_of_same f g h.1 hx.2.1,
        wellFormedAll_of_same xs ys h.2 hx.2.2⟩
    all_goals simp [same] at h
  | .letIn bs x _, y, h, hx => by
    cases y
    case letIn cs y _ =>
      rw [same, Bool.and_eq_true] at h
      exact ⟨wellFormedBindings_of_same bs cs h.1 hx.1, wellFormed_of_same x y h.2 hx.2⟩
    all_goals simp [same] at h
  | .conditional p x none _, _, _, hx => hx.2.2.elim
  | .conditional p x (some e) _, y, h, hx => by
    cases y
    case conditional q y f _ =>
      cases f with
      | none => simp [same, sameOptional] at h
      | some f =>
        rw [same, sameOptional, Bool.and_eq_true, Bool.and_eq_true] at h
        exact ⟨wellFormed_of_same p q h.1.1 hx.1, wellFormed_of_same x y h.1.2 hx.2.1,
          wellFormed_of_same e f h.2 hx.2.2⟩
    all_goals simp [same] at h
  | .function f ps x _, y, h, hx => by
    cases y
    case function g qs y _ =>
      simp only [same, Bool.and_eq_true, beq_iff_eq] at h
      obtain ⟨⟨rfl, rfl⟩, h⟩ := h
      exact ⟨hx.1, hx.2.1, wellFormed_of_same x y h hx.2.2⟩
    all_goals simp [same] at h

theorem wellFormedAll_of_same : (xs ys : List Node) → sameAll xs ys →
    WellFormedAll (fun _ => True) xs → WellFormedAll (fun _ => True) ys
  | [], [], _, _ => trivial
  | [], _ :: _, h, _ | _ :: _, [], h, _ => by simp [sameAll] at h
  | x :: xs, y :: ys, h, hx => by
    rw [sameAll, Bool.and_eq_true] at h
    exact ⟨wellFormed_of_same x y h.1 hx.1, wellFormedAll_of_same xs ys h.2 hx.2⟩

theorem wellFormedBindings_of_same : (bs cs : List (String × Node)) → sameBindings bs cs →
    WellFormedBindings (fun _ => True) bs → WellFormedBindings (fun _ => True) cs
  | [], [], _, _ => trivial
  | [], _ :: _, h, _ | _ :: _, [], h, _ => by simp [sameBindings] at h
  | (m, x) :: bs, (n, y) :: cs, h, hx => by
    simp only [sameBindings, Bool.and_eq_true, beq_iff_eq] at h
    obtain ⟨⟨rfl, h⟩, hs⟩ := h
    exact ⟨hx.1, wellFormed_of_same x y h hx.2.1, wellFormedBindings_of_same bs cs hs hx.2.2⟩

end

end Node

/-! ### Numbers that are read -/

/-- A text with a digit in it is not the word for NaN. -/
theorem Single.read?_ne_nan {cs : List Char} (h : cs.any Char.isDigit) : read? cs ≠ some nan := by
  intro hn
  have hw : (splitSign cs).2.map Char.toLower = ['n', 'a', 'n'] := by
    simp only [read?] at hn
    split at hn
    · assumption
    split at hn
    · cases hn
    · simp at hn
  have hs : cs.any Char.isDigit = (splitSign cs).2.any Char.isDigit := by
    unfold splitSign
    split <;> rfl
  rw [hs] at h
  obtain ⟨c, hc, hd⟩ := List.any_eq_true.1 h
  have hl := List.mem_map_of_mem (f := Char.toLower) hc
  rw [hw, toLower_of_isDigit hd] at hl
  simp only [List.mem_cons, List.not_mem_nil, or_false] at hl
  rcases hl with rfl | rfl | rfl <;> exact absurd hd (by decide)

/-- The text of a number has a digit and can be read. -/
theorem readable_of_cut {cs : List Char} (h : Cut cs .number []) :
    cs.any Char.isDigit ∧ (Single.ofText? (String.ofList cs)).isSome := by
  generalize hk : TokenKind.number = kind at h
  cases h with
  | bracket hb =>
    subst hk
    unfold TokenKind.ofBracket? at hb
    split at hb <;> simp at hb
  | string => cases hk
  | word hne hw hr =>
    unfold TokenKind.ofWord at hk
    split at hk
    · next hd =>
      rwa [String.toList_ofList, Bool.and_eq_true] at hd
    · split at hk
      · cases hk
      · split at hk <;> cases hk

theorem any_isDigit_of_cut {cs : List Char} (h : Cut cs .number []) : cs.any Char.isDigit :=
  (readable_of_cut h).1

/-- Among scanned tokens a number that is not finite has overflowed. -/
theorem numbers_isFinite_iff {ts : List Token} (h : Scanned ts) :
    Numbers Single.IsFinite ts ↔
      ∀ t ∈ ts, t.kind = .number →
        ∀ negative, Single.ofText? t.text ≠ some (.infinity negative) := by
  constructor
  · intro hf t ht hk negative hi
    exact absurd (hf t ht hk _ hi) (Nat.lt_irrefl _)
  · intro hi t ht hk x hx
    cases x with
    | nan => exact absurd hx (Single.read?_ne_nan (any_isDigit_of_cut (hk ▸ h t ht)))
    | signed negative code =>
      refine Nat.lt_of_le_of_ne (Nat.le_of_lt_succ code.isLt) fun hc => ?_
      exact hi t ht hk negative (hx.trans (congrArg (some ∘ Single.signed negative) (Fin.ext hc)))

/-! ### Printing and parsing again -/

/-- The text of the program parses, to trees equal to its own. -/
def RoundTrips (forms : List Node) : Prop :=
  ∃ parsed, parseText (Node.programText forms) = .ok parsed ∧ Node.sameAll parsed forms

theorem exists_forms_of_parse {source : String} {ts : List Token} {xs : List Node}
    (ht : tokenize source = .ok ts) (hp : parse ts = .ok xs) :
    ∃ fs, Form.tokensAll fs = ts ∧ Form.nodes fs = xs ∧ Scanned (Form.tokensAll fs) := by
  obtain ⟨fs, rfl, hn⟩ := parseMany_sound .form ts hp
  exact ⟨fs, rfl, hn, fun t h => cut_of_mem_scanFrom ht h⟩

/-- What is parsed can be written down. -/
theorem wellFormed_of_parseText {source : String} {forms : List Node}
    (h : parseText source = .ok forms) : ∀ x ∈ forms, x.WellFormedWith fun _ => True := by
  obtain ⟨ts, ht, hp⟩ := parseText_eq_ok.1 h
  obtain ⟨fs, rfl, rfl, hs⟩ := exists_forms_of_parse ht hp
  exact Node.wellFormedAll_iff.1 ((Form.wellFormedAll_iff fs hs).2 fun _ _ _ _ _ => trivial)

theorem parseText_of_reads {cs : List Char} {fs : List Form}
    (h : Reads 0 cs (Form.tokensAll fs)) :
    parseText (String.ofList cs) = .ok (Form.nodes fs) := by
  refine parseText_eq_ok.2 ⟨_, ?_, parse_tokensAll fs⟩
  rw [tokenize, String.toList_ofList]
  exact h.scanFrom_eq

/-- Trees that can be written down are read as forms of the same trees, up to
the numbers that are not finite. -/
theorem exists_parseText_programText {forms : List Node}
    (h : Node.WellFormedAll (fun _ => True) forms) :
    ∃ fs, parseText (Node.programText forms) = .ok (Form.nodes fs) ∧
      (Node.sameAll (Form.nodes fs) forms ↔ Node.WellFormedAll Single.IsFinite forms) ∧
      (Node.WellFormedAll Single.IsFinite forms →
        List.Forall₂ (Node.Alike .anySpans) (Form.nodes fs) forms) := by
  obtain ⟨fs, hr, hs⟩ := Node.exists_forms h 0
  rw [Node.charsAll_eq_map] at hr
  exact ⟨fs, parseText_of_reads hr, hs⟩

theorem roundTrips_iff_wellFormedAll (forms : List Node) :
    RoundTrips forms ↔ Node.WellFormedAll Single.IsFinite forms := by
  constructor
  · rintro ⟨parsed, hp, hs⟩
    have hw := Node.wellFormedAll_iff.2 (wellFormed_of_parseText hp)
    obtain ⟨fs, hf, hiff, -⟩ := exists_parseText_programText (Node.wellFormedAll_of_same _ _ hs hw)
    rw [hp] at hf
    exact hiff.1 (Except.ok.inj hf ▸ hs)
  · intro h
    obtain ⟨fs, hf, hiff, -⟩ :=
      exists_parseText_programText (Node.WellFormedAll.mono (fun _ _ => trivial) forms h)
    exact ⟨_, hf, hiff.2 h⟩

/-- Printing and parsing again gives an equal program exactly if its trees are
well formed, which for a program that was parsed means that no number literal
overflows. -/
theorem roundTrips_iff :
    (∀ forms, RoundTrips forms ↔ ∀ x ∈ forms, x.WellFormed) ∧
    (∀ source tokens forms, tokenize source = .ok tokens → parse tokens = .ok forms →
      (RoundTrips forms ↔ ∀ t ∈ tokens, t.kind = .number →
        ∀ negative, Single.ofText? t.text ≠ some (.infinity negative))) := by
  constructor
  · intro forms
    rw [roundTrips_iff_wellFormedAll, Node.wellFormedAll_iff]
    exact Iff.rfl
  · intro source tokens forms ht hp
    obtain ⟨fs, rfl, rfl, hs⟩ := exists_forms_of_parse ht hp
    rw [roundTrips_iff_wellFormedAll, Form.wellFormedAll_iff fs hs, numbers_isFinite_iff hs]

/-- A literal that overflows is read as infinity, which is printed as a name. -/
theorem not_roundTrips_overflow :
    tokenize "1e39" = .ok [⟨.number, "1e39", ⟨0, 4⟩⟩] ∧
    parse [⟨.number, "1e39", ⟨0, 4⟩⟩] = .ok [.number (.infinity false) ⟨0, 4⟩] ∧
    ¬ RoundTrips [.number (.infinity false) ⟨0, 4⟩] := by
  have ht : tokenize "1e39" = .ok [⟨.number, "1e39", ⟨0, 4⟩⟩] := by with_unfolding_all rfl
  have hp : parse [⟨.number, "1e39", ⟨0, 4⟩⟩] = .ok [.number (.infinity false) ⟨0, 4⟩] := by
    with_unfolding_all rfl
  have hi : Single.ofText? "1e39" = some (.infinity false) := by with_unfolding_all rfl
  refine ⟨ht, hp, fun h => ?_⟩
  exact (roundTrips_iff.2 _ _ _ ht hp).1 h _ List.mem_cons_self rfl false hi

end SmallLisp
