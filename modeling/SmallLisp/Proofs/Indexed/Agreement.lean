import SmallLisp.Proofs.Indexed
import SmallLisp.Proofs.Grammar.Blame
import SmallLisp.Proofs.RoundTrip

/-! The reading by positions gives what the parser gives, and never crashes. One step is
right if every form with fewer tokens than the one around it is read right, and from that
all forms are, by their number of tokens. The checks succeed for what was cut before: a
closing bracket that was found stands at its position, with something in front of it and
everything else behind it. -/

namespace SmallLisp

namespace Checked

variable {α β : Type}

theorem settled_bind (r : Except ParseError α) (f : α → Except ParseError β) :
    settled (r >>= f) = settled r >>= fun a => settled (f a) := by
  cases r <;> rfl

theorem bind_eq_settled_ok {x : Checked α} {f : α → Checked β} {b : β} :
    x >>= f = settled (.ok b) ↔ ∃ a, x = settled (.ok a) ∧ f a = settled (.ok b) := by
  constructor
  · intro h
    match x with
    | .error c => cases h
    | .ok (.error e) => cases h
    | .ok (.ok a) => exact ⟨a, rfl, h⟩
  · rintro ⟨a, rfl, h⟩
    exact h

theorem settled_ok_inj {a b : α} (h : settled (.ok a) = settled (.ok b)) : a = b :=
  Except.ok.inj (Except.ok.inj h)

/-! ### Checks that succeed -/

/-- A stretch that begins and ends where it should. -/
theorem slice_between (before part after : List Token) {start stop : Nat}
    (hstart : start = before.length) (hstop : stop = before.length + part.length) :
    slice (before ++ (part ++ after)) start stop = pure part := by
  have hfits : start ≤ stop ∧ stop ≤ (before ++ (part ++ after)).length := by
    simp only [List.length_append]
    omega
  rw [slice, if_pos hfits, hstop, ← List.append_assoc, ← List.length_append, List.take_left,
    hstart, List.drop_left]

/-- A stretch that goes on to the end. -/
theorem slice_from (before after : List Token) {start : Nat} (hstart : start = before.length) :
    slice (before ++ after) start (before ++ after).length = pure after := by
  have h := slice_between before after [] hstart rfl
  rwa [List.append_nil, ← List.length_append] at h

theorem slice_tail (t : Token) (ts : List Token) :
    slice (t :: ts) 1 (t :: ts).length = pure ts := slice_from [t] ts rfl

theorem shorter_eq (c : Crash) {bound : Nat} {ts : List Token} (h : ts.length < bound) :
    shorter c bound ts = pure ⟨ts, h⟩ := dif_pos h

end Checked

namespace Indexed

open Checked

/-! ### Brackets -/

theorem findEnd_eq (b : Bracket) (depth position : Nat) (ts : List Token) :
    findEnd b (depth + 1) position ts =
      pure ((Enclosed.cut b depth ts).map fun e => position + e.inside.length) := by
  induction ts generalizing depth position with
  | nil => rfl
  | cons t ts ih =>
    have hpush (d : Option Enclosed) :
        (d.map (Enclosed.push t)).map (fun e => position + e.inside.length) =
          d.map fun e => position + 1 + e.inside.length := by
      rw [Option.map_map]
      congr 1
      funext e
      simp only [Function.comp, Enclosed.push, List.length_cons]
      omega
    rw [findEnd]
    by_cases ho : t.kind = .opening b
    · rw [if_pos ho, ih, Enclosed.cut_opening depth ts ho, hpush]
    rw [if_neg ho]
    by_cases hc : t.kind = .closing b
    · rw [if_pos hc, decrement, pure_bind]
      cases depth with
      | zero =>
        rw [if_pos rfl, Enclosed.cut_closing_zero ts hc]
        rfl
      | succ depth =>
        rw [if_neg (Nat.succ_ne_zero depth), ih, Enclosed.cut_closing_succ depth ts hc, hpush]
    · rw [if_neg hc, ih, Enclosed.cut_other depth ts ho hc, hpush]

theorem matchingEnd_of_cut {b : Bracket} {t : Token} {ts : List Token} {e : Enclosed}
    (h : Enclosed.cut b 0 ts = some e) :
    matchingEnd b (t :: ts) = pure (e.inside.length + 1) := by
  rw [matchingEnd, List.drop_one, List.tail_cons, findEnd_eq, h, Nat.add_comm]
  rfl

theorem matchingEnd_of_cut_none {b : Bracket} {t : Token} {ts : List Token}
    (h : Enclosed.cut b 0 ts = none) : matchingEnd b (t :: ts) = throw (.unclosed t) := by
  rw [matchingEnd, List.drop_one, List.tail_cons, findEnd_eq, h]
  rfl

theorem spanOf_bracketed (o c : Token) (ts : List Token) :
    spanOf (o :: (ts ++ [c])) = o.span.merge c.span := by
  rw [spanOf, ← List.cons_append, List.getLast?_concat]
  rfl

theorem atom_eq {t : Token} (h : t.kind = .number ∨ t.kind = .string ∨ t.kind = .boolean ∨
    t.kind = .identifier) : atom t = settled (parseAtom t) := by
  rcases h with h | h | h | h <;> rw [atom, h]

theorem function_eq (span : Span) (parts : List Node) :
    function span parts = settled (functionOf span parts) := by
  match parts with
  | [] | [_] => rfl
  | [name, body] =>
    rw [functionOf]
    show functionFrom span (some name) none (some body) = _
    rw [functionFrom]
    cases functionName name <;> rfl
  | [name, params, body] =>
    rw [functionOf]
    show functionFrom span (some name) (some params) (some body) = _
    rw [functionFrom, Option.elim_some]
    cases functionName name with
    | error e => rfl
    | ok name => cases parameterNames params <;> rfl
  | _ :: _ :: _ :: _ :: _ => rfl

/-! ### What brackets enclose -/

section Enclosed

variable {b : Bracket} {t : Token} {ts : List Token} {e : Enclosed}

/-- The brackets with what they enclose are cut at the same place. -/
theorem cut_concat {depth : Nat} (h : Enclosed.cut b depth ts = some e) :
    Enclosed.cut b depth (e.inside ++ [e.closer]) = some ⟨e.inside, e.closer, []⟩ := by
  induction ts generalizing depth e with
  | nil => cases h
  | cons t ts ih =>
    have hpush {inner outer : Nat}
        (hd : (Enclosed.cut b inner ts).map (Enclosed.push t) = some e)
        (hcut : ∀ us, Enclosed.cut b outer (t :: us) =
          (Enclosed.cut b inner us).map (Enclosed.push t)) :
        Enclosed.cut b outer (e.inside ++ [e.closer]) = some ⟨e.inside, e.closer, []⟩ := by
      obtain ⟨d, hinner, rfl⟩ := Option.map_eq_some_iff.1 hd
      rw [Enclosed.push, List.cons_append, hcut, ih hinner]
      rfl
    by_cases ho : t.kind = .opening b
    · exact hpush (Enclosed.cut_opening depth ts ho ▸ h) fun us => Enclosed.cut_opening depth us ho
    by_cases hc : t.kind = .closing b
    · cases depth with
      | zero =>
        rw [Enclosed.cut_closing_zero ts hc] at h
        cases h
        exact Enclosed.cut_closing_zero [] hc
      | succ depth =>
        exact hpush (Enclosed.cut_closing_succ depth ts hc ▸ h) fun us =>
          Enclosed.cut_closing_succ depth us hc
    · exact hpush (Enclosed.cut_other depth ts ho hc ▸ h) fun us =>
        Enclosed.cut_other depth us ho hc

theorem cons_eq_group_append (h : Enclosed.cut b 0 ts = some e) :
    t :: ts = t :: (e.inside ++ [e.closer]) ++ e.rest := by
  simp [Enclosed.cut_eq_append h]

theorem slice_group (h : Enclosed.cut b 0 ts = some e) :
    slice (t :: ts) 0 (e.inside.length + 1 + 1) = pure (t :: (e.inside ++ [e.closer])) := by
  rw [cons_eq_group_append h]
  exact slice_between [] (t :: (e.inside ++ [e.closer])) e.rest rfl (by simp)

theorem slice_between_brackets (o c : Token) (inside rest : List Token) :
    slice (o :: (inside ++ c :: rest)) 1 (inside.length + 1) = pure inside :=
  slice_between [o] inside (c :: rest) rfl (Nat.add_comm _ 1)

theorem slice_inside (h : Enclosed.cut b 0 ts = some e) :
    slice (t :: ts) 1 (e.inside.length + 1) = pure e.inside := by
  rw [Enclosed.cut_eq_append h]
  exact slice_between_brackets t e.closer e.inside e.rest

theorem slice_rest (h : Enclosed.cut b 0 ts = some e) :
    slice (t :: ts) (e.inside.length + 1 + 1) (t :: ts).length = pure e.rest := by
  rw [cons_eq_group_append h]
  exact slice_from (t :: (e.inside ++ [e.closer])) e.rest (by simp)

theorem getElem?_after_group (h : Enclosed.cut b 0 ts = some e) :
    (t :: ts)[e.inside.length + 1 + 1]? = e.rest.head? := by
  rw [cons_eq_group_append h, List.getElem?_append_right (by simp), List.head?_eq_getElem?]
  simp

theorem parseSingle_group (hk : t.kind = .opening .round)
    (h : Enclosed.cut .round 0 ts = some e) :
    parseSingle (t :: (e.inside ++ [e.closer])) =
      parseForm (t.span.merge e.closer.span) e.inside := by
  rw [parseSingle, if_pos hk, cut_concat h]

theorem take_opening (expected : Expected) (hk : t.kind = .opening b) :
    Piece.take expected t ts = match Enclosed.cut b 0 ts with
      | some e => .ok (.group b t e.inside e.closer, e.rest)
      | none => .error (.unclosed t) := by
  cases hc : Enclosed.cut b 0 ts <;> simp only [Piece.take, hk, hc]

end Enclosed

theorem length_tokens (p : Piece) : p.tokens.length = p.size := by
  cases p <;> simp [Piece.tokens, Piece.size]

/-- What is left when the first piece has been taken off. -/
theorem slice_after_take {expected : Expected} {t : Token} {ts rest : List Token} {p : Piece}
    (h : Piece.take expected t ts = .ok (p, rest)) :
    slice (t :: ts) p.size (t :: ts).length = pure rest := by
  obtain ⟨-, hts⟩ := Piece.proper_of_take h
  rw [hts, ← length_tokens]
  exact slice_from p.tokens rest rfl

theorem getElem?_after_take {expected : Expected} {t : Token} {ts rest : List Token} {p : Piece}
    (h : Piece.take expected t ts = .ok (p, rest)) : (t :: ts)[p.size]? = rest.head? := by
  obtain ⟨-, hts⟩ := Piece.proper_of_take h
  rw [hts, ← length_tokens, List.getElem?_append_right (Nat.le_refl _), Nat.sub_self,
    List.head?_eq_getElem?]

/-! ### One step -/

/-- The reading of forms with fewer than `n` tokens, and of lists and bindings. -/
structure Agrees (n : Nat) : Prop where
  single {ts : List Token} (h : ts.length < n) : single ts = settled (parseSingle ts)
  list (o c : Token) {ts : List Token} (h : ts.length + 2 < n) :
    list (o :: (ts ++ [c])) = settled (do
      return .list (← parseMany .listElement ts) (o.span.merge c.span))
  binding (o c : Token) {ts : List Token} (h : ts.length + 2 < n) :
    binding (o :: (ts ++ [c])) = settled (parseBinding (o.span.merge c.span) ts)

section Step

variable {around : Nat} (ih : Agrees around) {ts : List Token}
include ih

theorem part_eq (expected : Expected) (t : Token) (h : (t :: ts).length < around) :
    part around expected (t :: ts) = settled (do
      let (p, _) ← Piece.take expected t ts
      return (← parsePiece p, p.size)) := by
  rw [part]
  simp only [List.head?_cons]
  cases hk : t.kind with
  | opening b =>
    dsimp only
    rw [take_opening expected hk]
    cases hc : Enclosed.cut b 0 ts with
    | none =>
      rw [matchingEnd_of_cut_none hc]
      rfl
    | some e =>
      have hlength := Enclosed.cut_length hc
      have hgroup : (t :: (e.inside ++ [e.closer])).length < around := by
        simp only [List.length_cons, List.length_append, List.length_nil] at h ⊢
        omega
      rw [matchingEnd_of_cut hc, pure_bind, slice_group hc, pure_bind, shorter_eq _ hgroup,
        pure_bind]
      cases b with
      | round =>
        dsimp only
        have hp : parsePiece (.group .round t e.inside e.closer) =
            parseForm (t.span.merge e.closer.span) e.inside := by rw [parsePiece]
        rw [ih.single hgroup, parseSingle_group hk hc, ← hp]
        exact (settled_bind _ fun x => .ok (x, e.inside.length + 2)).symm
      | square =>
        dsimp only
        have hp : parsePiece (.group .square t e.inside e.closer) = do
            return .list (← parseMany .listElement e.inside) (t.span.merge e.closer.span) := by
          rw [parsePiece]
        rw [ih.list t e.closer (by simpa using hgroup), ← hp]
        exact (settled_bind _ fun x => .ok (x, e.inside.length + 2)).symm
  | closing b =>
    rw [Piece.take, hk]
    rfl
  | keyword word =>
    rw [Piece.take, hk]
    rfl
  | number | string | boolean | identifier =>
    have hone : [t].length < around := by
      simp only [List.length_cons, List.length_nil] at h ⊢
      omega
    dsimp only
    have hp : parsePiece (.atom t) = parseAtom t := by rw [parsePiece]
    rw [shorter_eq _ hone, pure_bind, atom_eq (by simp [hk]), Piece.take, hk, ← hp]
    exact (settled_bind _ fun x => .ok (x, 1)).symm

/-- What is done with the first part and with the number of its tokens. -/
theorem part_bind {α : Type} {expected : Expected} {t : Token} (h : (t :: ts).length < around)
    {f : Node × Nat → Checked α} {g : Node → List Token → Except ParseError α}
    (hf : ∀ p rest x, Piece.take expected t ts = .ok (p, rest) →
      f (x, p.size) = settled (g x rest)) :
    part around expected (t :: ts) >>= f = settled (do
      let (p, rest) ← Piece.take expected t ts
      g (← parsePiece p) rest) := by
  rw [part_eq ih expected t h]
  cases ht : Piece.take expected t ts with
  | error e => rfl
  | ok taken =>
    obtain ⟨p, rest⟩ := taken
    show settled (do return (← parsePiece p, p.size)) >>= f =
      settled (do g (← parsePiece p) rest)
    cases parsePiece p with
    | error e => rfl
    | ok x => exact hf p rest x ht

theorem many_eq (expected : Expected) (ts : List Token) (h : ts.length < around) :
    many around expected ts = settled (parseMany expected ts) := by
  induction hn : ts.length using Nat.strongRecOn generalizing ts with
  | ind n ihn =>
    subst hn
    cases ts with
    | nil =>
      rw [many, parseMany]
      rfl
    | cons t ts =>
      rw [many, parseMany_cons, if_neg (by simp)]
      refine part_bind ih h (g := fun x rest => do return x :: (← parseMany expected rest))
        fun p rest x ht => ?_
      have hsize := Piece.take_length ht
      have hpos := p.size_pos
      have hrest : rest.length < (t :: ts).length := by
        rw [List.length_cons]
        omega
      dsimp only
      rw [slice_after_take ht, pure_bind, shorter_eq _ hrest, pure_bind,
        ihn _ hrest rest (Nat.lt_trans hrest h) rfl]
      exact (settled_bind _ fun xs => .ok (x :: xs)).symm

theorem bindings_eq (ts : List Token) (h : ts.length < around) :
    bindings around ts = settled (parseBindings ts) := by
  induction hn : ts.length using Nat.strongRecOn generalizing ts with
  | ind n ihn =>
    subst hn
    cases ts with
    | nil =>
      rw [bindings, parseBindings]
      rfl
    | cons t ts =>
      rw [bindings]
      simp only [List.head?_cons]
      by_cases hk : t.kind = .opening .round
      · rw [if_pos hk, parseBindings_cons ts hk, cutRound]
        cases hc : Enclosed.cut .round 0 ts with
        | none =>
          rw [matchingEnd_of_cut_none hc]
          rfl
        | some e =>
          have hlength := Enclosed.cut_length hc
          have hrest : e.rest.length < (t :: ts).length := by
            rw [List.length_cons]
            omega
          have hgroup : (t :: (e.inside ++ [e.closer])).length < around := by
            simp only [List.length_cons, List.length_append, List.length_nil] at h ⊢
            omega
          rw [matchingEnd_of_cut hc, pure_bind, slice_group hc, pure_bind, shorter_eq _ hgroup,
            pure_bind, ih.binding t e.closer (by simpa using hgroup)]
          show _ = settled (do
            return (← parseBinding (t.span.merge e.closer.span) e.inside) ::
              (← parseBindings e.rest))
          rw [settled_bind]
          refine bind_congr fun first => ?_
          rw [slice_rest hc, pure_bind, shorter_eq _ hrest, pure_bind,
            ihn _ hrest e.rest (Nat.lt_trans hrest h) rfl]
          exact (settled_bind _ fun bs => .ok (first :: bs)).symm
      · rw [if_neg hk, parseBindings, if_neg hk]
        rfl

theorem letForm_eq (span : Span) (ts : List Token) (h : ts.length < around) :
    letForm around span ts = settled (parseLet span ts) := by
  cases ts with
  | nil =>
    rw [letForm, parseLet]
    rfl
  | cons t ts =>
    rw [letForm]
    simp only [List.head?_cons]
    by_cases hk : t.kind = .opening .round
    · rw [if_pos hk, parseLet_cons ts span hk, cutRound]
      cases hc : Enclosed.cut .round 0 ts with
      | none =>
        rw [matchingEnd_of_cut_none hc]
        rfl
      | some e =>
        have hlength := Enclosed.cut_length hc
        rw [List.length_cons] at h
        rw [matchingEnd_of_cut hc, pure_bind, slice_inside hc, pure_bind,
          bindings_eq ih e.inside (by omega)]
        show _ = settled (do
          letOf span (← parseBindings e.inside) (← parseMany .argument e.rest))
        rw [settled_bind]
        refine bind_congr fun bound => ?_
        rw [slice_rest hc, pure_bind, many_eq ih .argument e.rest (by omega), settled_bind]
        refine bind_congr fun bodies => ?_
        match bodies with
        | [] | [_] | _ :: _ :: _ => rfl
    · rw [if_neg hk, parseLet, if_neg hk]
      rfl

/-- A form that begins with the part to call. -/
theorem call_eq (span : Span) {t : Token} (hk : t.kind = .identifier ∨ t.kind = .opening .round)
    (h : (t :: ts).length < around) : (do
      let (head, consumed) ← part around .head (t :: ts)
      let args ← many around .argument (← slice (t :: ts) consumed (t :: ts).length)
      return Node.call head args span) = settled (parseForm span (t :: ts)) := by
  rw [parseForm_head span ts hk]
  refine part_bind ih h
    (g := fun x rest => do return Node.call x (← parseMany .argument rest) span)
    fun p rest x ht => ?_
  have hsize := Piece.take_length ht
  have hpos := p.size_pos
  have hrest : rest.length < around := by
    rw [List.length_cons] at h
    omega
  dsimp only
  rw [slice_after_take ht, pure_bind, many_eq ih .argument rest hrest]
  exact (settled_bind _ fun args => .ok (Node.call x args span)).symm

theorem content_eq (span : Span) (ts : List Token) (h : ts.length < around) :
    content around span ts = settled (parseForm span ts) := by
  cases ts with
  | nil =>
    rw [content, parseForm]
    rfl
  | cons t ts =>
    have htail : ts.length < around := Nat.lt_of_succ_lt h
    rw [content]
    simp only [List.head?_cons]
    cases hk : t.kind with
    | keyword word =>
      cases word with
      | letForm =>
        dsimp only
        rw [parseForm_letForm span ts hk, slice_tail, pure_bind, letForm_eq ih span ts htail]
      | ifForm =>
        dsimp only
        rw [parseForm_ifForm span ts hk, slice_tail, pure_bind, many_eq ih .argument ts htail,
          settled_bind]
      | funForm =>
        dsimp only
        rw [parseForm_funForm span ts hk, slice_tail, pure_bind, many_eq ih .argument ts htail,
          settled_bind]
        exact bind_congr fun parts => function_eq span parts
    | identifier => exact call_eq ih span (.inl hk) h
    | opening b =>
      cases b with
      | round => exact call_eq ih span (.inr hk) h
      | square =>
        rw [parseForm_unexpected span ts (by simp [hk]) (by simp [hk]) (by simp [hk])]
        rfl
    | closing | number | string | boolean =>
      rw [parseForm_unexpected span ts (by simp [hk]) (by simp [hk]) (by simp [hk])]
      rfl

end Step

/-! ### Every step -/

theorem single_eq {ts : List Token} (ih : Agrees ts.length) :
    single ts = settled (parseSingle ts) := by
  cases ts with
  | nil =>
    rw [single]
    rfl
  | cons t ts =>
    rw [single, parseSingle]
    simp only [List.head?_cons]
    by_cases hk : t.kind = .opening .round
    · rw [if_pos hk, if_pos hk]
      cases hc : Enclosed.cut .round 0 ts with
      | none =>
        rw [matchingEnd_of_cut_none hc]
        rfl
      | some e =>
        rw [matchingEnd_of_cut hc, pure_bind, getElem?_after_group hc]
        obtain ⟨inside, closer, rest⟩ := e
        cases rest with
        | nil =>
          have hts : ts = inside ++ [closer] := Enclosed.cut_eq_append hc
          have hinside : inside.length < (t :: ts).length := by
            rw [hts, List.length_cons, List.length_append]
            omega
          rw [slice_inside hc]
          show content (t :: ts).length (spanOf (t :: ts)) inside = _
          rw [content_eq ih _ inside hinside, hts, spanOf_bracketed]
        | cons extra more => rfl
    · rw [if_neg hk, if_neg hk]
      rfl

theorem list_eq (o c : Token) {ts : List Token} (ih : Agrees (ts.length + 2)) :
    list (o :: (ts ++ [c])) = settled (do
      return .list (← parseMany .listElement ts) (o.span.merge c.span)) := by
  have hlength : (o :: (ts ++ [c])).length = ts.length + 2 := by simp
  rw [list, hlength, decrement, pure_bind, slice_between_brackets, pure_bind,
    many_eq ih .listElement ts (by omega), spanOf_bracketed]
  exact (settled_bind _ fun items => .ok (Node.list items (o.span.merge c.span))).symm

theorem binding_eq (o c : Token) {ts : List Token} (ih : Agrees (ts.length + 2)) :
    binding (o :: (ts ++ [c])) = settled (parseBinding (o.span.merge c.span) ts) := by
  have hlength : (o :: (ts ++ [c])).length = ts.length + 2 := by simp
  rw [binding, hlength, decrement, pure_bind, slice_between_brackets, pure_bind, spanOf_bracketed]
  match ts with
  | [] =>
    rw [parseBinding]
    rfl
  | [name] =>
    dsimp only
    rw [parseBinding]
    by_cases hk : name.kind = .identifier
    · rw [if_pos hk, if_pos hk]
      rfl
    · rw [if_neg hk, if_neg hk]
      rfl
  | name :: t :: ts =>
    dsimp only
    by_cases hk : name.kind = .identifier
    · rw [if_pos hk, parseBinding_cons ts _ hk]
      rw [show slice (name :: t :: ts) 1 ((t :: ts).length + 1) = pure (t :: ts) from
        slice_tail name (t :: ts), pure_bind]
      refine part_bind ih (by simp) (g := bindingOf name.text) fun p rest x ht => ?_
      dsimp only
      rw [getElem?_after_take ht]
      cases rest <;> rfl
    · rw [if_neg hk, parseBinding, if_neg hk]
      rfl

theorem agrees (n : Nat) : Agrees n := by
  induction n using Nat.strongRecOn with
  | ind n ih =>
    exact ⟨fun h => single_eq (ih _ h), fun o c _ h => list_eq o c (ih _ h),
      fun o c _ h => binding_eq o c (ih _ h)⟩

/-- A part takes one token at least, and no more than there are. -/
theorem part_consumes {around : Nat} {expected : Expected} {ts : List Token} {x : Node} {n : Nat}
    (h : part around expected ts = settled (.ok (x, n))) : 0 < n ∧ n ≤ ts.length := by
  cases ts with
  | nil =>
    rw [part] at h
    cases h
  | cons t ts =>
    rw [part] at h
    simp only [List.head?_cons] at h
    cases hk : t.kind with
    | opening b =>
      simp only [hk] at h
      cases hc : Enclosed.cut b 0 ts with
      | none =>
        rw [matchingEnd_of_cut_none hc] at h
        cases h
      | some e =>
        rw [matchingEnd_of_cut hc, pure_bind, slice_group hc, pure_bind] at h
        obtain ⟨group, -, h⟩ := bind_eq_settled_ok.1 h
        have hn : e.inside.length + 1 + 1 = n := by
          cases b with
          | round | square =>
            obtain ⟨y, -, h⟩ := bind_eq_settled_ok.1 h
            exact congrArg Prod.snd (settled_ok_inj h)
        have hlength := Enclosed.cut_length hc
        rw [List.length_cons]
        omega
    | closing | keyword =>
      simp only [hk] at h
      cases h
    | number | string | boolean | identifier =>
      simp only [hk] at h
      obtain ⟨one, -, h⟩ := bind_eq_settled_ok.1 h
      obtain ⟨y, -, h⟩ := bind_eq_settled_ok.1 h
      have hn : 1 = n := congrArg Prod.snd (settled_ok_inj h)
      rw [List.length_cons]
      omega

end Indexed

/-- Among scanned tokens no number is asked for, because every number can be read. -/
theorem not_asks_number {source : String} {ts : List Token} (h : tokenize source = .ok ts)
    {e : ParseError} (he : parse ts = .error e ∨ parseSingle ts = .error e) (t : Token) :
    e ≠ .unexpectedToken t .number := by
  rintro rfl
  have harises : ParseError.ArisesIn (.unexpectedToken t .number) ts := by
    rcases he with he | he
    · exact parse_arises he
    · rcases parseSingle_arises he with ⟨-, he⟩ | harises
      · cases he
      · exact harises
  obtain ⟨ht, hk, hx⟩ := harises.unread
  have hread := (readable_of_cut (hk ▸ Token.cut_of_mem_scanFrom h ht)).2
  rw [String.ofList_toList, hx] at hread
  cases hread

/-- The parser on any tokens, as a reading by positions. It never crashes, and its answer
is the one that the parser gives: every position is in range, no count goes below zero, every
loop makes progress and every form has fewer tokens than the form around it, and no branch
is come to that is held for impossible. A part that is read has one token at least, and
no more than there are. Nor is a number asked for among tokens that were scanned. -/
theorem Indexed.parse_safe (ts : List Token) :
    Indexed.parse ts = Checked.settled (SmallLisp.parse ts) ∧
    Indexed.single ts = Checked.settled (parseSingle ts) ∧
    (∀ around expected us x n, Indexed.part around expected us = Checked.settled (.ok (x, n)) →
      0 < n ∧ n ≤ us.length) ∧
    ∀ source t, tokenize source = .ok ts →
      SmallLisp.parse ts ≠ .error (.unexpectedToken t .number) ∧
        parseSingle ts ≠ .error (.unexpectedToken t .number) := by
  refine ⟨many_eq (agrees _) .form ts (Nat.lt_succ_self _), single_eq (agrees _),
    fun _ _ _ _ _ => part_consumes, fun source t h => ⟨fun he => ?_, fun he => ?_⟩⟩
  · exact not_asks_number h (.inl he) t rfl
  · exact not_asks_number h (.inr he) t rfl

end SmallLisp
