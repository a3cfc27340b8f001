import SmallLisp.Proofs.Extents

/-! The parameters of a function between brackets of either kind. If there is one at least,
the two spellings are read as the same tree, at the same place. Between round brackets the
parameters are read as a call before they are taken for names, and a call without a head is
refused; so an empty list of parameters stands in square brackets or is left out. -/

namespace SmallLisp

open Token

/-! ### Spellings -/

theorem Text.byteLength_space (cs : List Char) : byteLength (' ' :: cs) = byteLength cs + 1 :=
  Nat.add_comm 1 _

theorem Text.byteLength_bracketed (b : Bracket) (cs : List Char) :
    byteLength (b.opening :: (cs ++ [b.closing])) = byteLength cs + 2 := by
  rw [byteLength_cons, byteLength_append, byteLength_cons, byteLength_nil, b.utf8Size_opening,
    b.utf8Size_closing, Nat.add_comm]

section Spelling

variable (b : Bracket) (name : String) (params : List String) (body : String)

/-- A function form with its parameters in brackets of a kind. -/
def definitionText : String :=
  "(fun " ++ name ++ " " ++ String.singleton b.opening ++
    String.ofList (spaced (params.map String.toList)) ++ String.singleton b.closing ++ " " ++
    body ++ ")"

/-- The number of bytes before the body. -/
def bodyStart : Nat := name.utf8ByteSize + 9 + Text.byteLength (spaced (params.map String.toList))

theorem toList_definitionText :
    (definitionText b name params body).toList =
      Bracket.round.opening :: (Keyword.funForm.name.toList ++ (' ' :: name.toList ++
        (' ' :: b.opening :: (spaced (params.map String.toList) ++ [b.closing]) ++
          (' ' :: body.toList))) ++ [Bracket.round.closing]) := by
  simp [definitionText, Keyword.name, Bracket.opening, Bracket.closing]

theorem utf8ByteSize_definitionText :
    (definitionText b name params body).utf8ByteSize =
      bodyStart name params + body.utf8ByteSize + 1 := by
  have hword : Text.byteLength Keyword.funForm.name.toList = 3 := rfl
  rw [← Text.byteLength_toList, toList_definitionText, Text.byteLength_bracketed,
    Text.byteLength_append, hword, Text.byteLength_append, Text.byteLength_space,
    Text.byteLength_append, Text.byteLength_space, Text.byteLength_bracketed,
    Text.byteLength_space, Text.byteLength_toList, Text.byteLength_toList, bodyStart]
  omega

end Spelling

theorem Reads.of_scanFrom {start : Nat} {cs : List Char} {ts : List Token}
    (h : scanFrom start cs = .ok ts) : Reads start cs ts :=
  fun _ hr => scanFrom_append_of_delimited h hr

/-- The tokens of the form, from those of the parameters and those of the body. -/
theorem exists_reads_definition (b : Bracket) {name body : String} {params : List String}
    (hn : IsName name) {ts us : List Token}
    (hts : Reads (name.utf8ByteSize + 7) (spaced (params.map String.toList)) ts)
    (hus : Reads (bodyStart name params) body.toList us) :
    ∃ (p : Brackets .round) (word : Terminal (.keyword .funForm)) (t : Terminal .identifier)
      (q : Brackets b),
      Reads 0 (definitionText b name params body).toList
        (p.around (word.val :: t.val :: (q.around ts ++ us))) ∧
      p.span = ⟨0, (definitionText b name params body).utf8ByteSize⟩ ∧ t.val.text = name ∧
      q.span.start = name.utf8ByteSize + 6 ∧
      q.span.stop =
        name.utf8ByteSize + 8 + Text.byteLength (spaced (params.map String.toList)) := by
  obtain ⟨word, hword⟩ : ∃ word : Terminal (.keyword .funForm),
      Reads 1 Keyword.funForm.name.toList [word.val] := ⟨⟨_, rfl⟩, .token (cut_keyword .funForm)⟩
  obtain ⟨t, ht, hname⟩ := exists_name hn 5
  obtain ⟨q, hq, hqspan⟩ := hts.enclosed b
  have hnameStop : 4 + Text.byteLength (' ' :: name.toList) = name.utf8ByteSize + 5 := by
    rw [Text.byteLength_space, Text.byteLength_toList]
    omega
  have hparamsStop : name.utf8ByteSize + 5 + Text.byteLength (' ' :: b.opening ::
      (spaced (params.map String.toList) ++ [b.closing])) + 1 = bodyStart name params := by
    rw [Text.byteLength_space, Text.byteLength_bracketed, bodyStart]
    omega
  have hrest : Reads (name.utf8ByteSize + 5) _ (q.around ts ++ us) :=
    hq.after_cons (Reads.space (hparamsStop.symm ▸ hus)) (delimited_cons.2 rfl)
  have hnamed : Reads 4 _ (t.val :: (q.around ts ++ us)) :=
    ht.after_cons (hnameStop.symm ▸ hrest) (delimited_cons.2 rfl)
  have hinside : Reads (0 + 1) _ (word.val :: t.val :: (q.around ts ++ us)) :=
    hword.append hnamed (delimited_cons.2 rfl)
  obtain ⟨p, hp, hpspan⟩ := hinside.enclosed .round
  refine ⟨p, word, t, q, ?_, ?_, hname, ?_⟩
  · rw [toList_definitionText]
    exact hp
  · rw [← Text.byteLength_toList, toList_definitionText, ← Nat.zero_add (Text.byteLength _)]
    exact hpspan
  · rw [hqspan, Text.byteLength_bracketed]
    exact ⟨rfl, by dsimp only; omega⟩

theorem exists_parseText_of_length {source : String}
    (h : (parseText source).toOption.map List.length = some 1) :
    ∃ x, parseText source = .ok [x] := by
  obtain ⟨forms, hforms, hlength⟩ := Option.map_eq_some_iff.1 h
  obtain ⟨x, rfl⟩ := List.length_eq_one_iff.1 hlength
  exact ⟨x, eq_ok_of_toOption hforms⟩

/-- The form that a text is read as, further on in a source. -/
theorem exists_reads_of_parseText {source : String} {x : Node} (h : parseText source = .ok [x])
    (n : Nat) : ∃ f : Form, Reads n source.toList f.tokens ∧ f.node = x.shift n := by
  obtain ⟨ts, ht, hp⟩ := parseText_eq_ok.1 h
  have hscan : scanFrom n source.toList = .ok (ts.map (Token.shift n)) := by
    rw [← Nat.zero_add n, scanFrom_add, Nat.zero_add]
    exact congrArg (bimap _ _) ht
  have hparse : parseMany .form (ts.map (Token.shift n)) = .ok [x.shift n] := by
    rw [parseMany_shift]
    exact congrArg (bimap _ _) hp
  obtain ⟨fs, hfs, hnodes⟩ := parseMany_sound .form _ hparse
  rw [Form.nodes_eq_map] at hnodes
  obtain ⟨f, rfl, hf⟩ := List.map_eq_singleton_iff.1 hnodes
  refine ⟨f, ?_, hf⟩
  rw [Form.tokensAll, Form.tokensAll, List.append_nil] at hfs
  exact hfs ▸ .of_scanFrom hscan

/-! ### With parameters -/

theorem Params.exists_around {b : Bracket} (q : Brackets b) {names : List (Terminal .identifier)}
    (h : b = .round → names ≠ []) :
    ∃ ps : Params, ps.tokens = q.around (names.map Subtype.val) ∧ ps.names = names := by
  cases b with
  | square => exact ⟨.square q names, rfl, rfl⟩
  | round =>
    obtain ⟨first, others, rfl⟩ := List.exists_cons_of_ne_nil (h rfl)
    exact ⟨.round q first others, rfl, rfl⟩

section Reading

variable {name body : String} {params : List String} {x : Node} (hn : IsName name)
  (hx : parseText body = .ok [x])
include hn hx

theorem parseText_definitionText {b : Bracket} (hps : ∀ p ∈ params, IsName p)
    (hb : b = .round → params ≠ []) :
    parseText (definitionText b name params body) =
      .ok [.function name params (x.shift (bodyStart name params))
        ⟨0, (definitionText b name params body).utf8ByteSize⟩] := by
  obtain ⟨names, hnames, hparams⟩ := exists_names hps (name.utf8ByteSize + 7)
  obtain ⟨f, hf, hnode⟩ := exists_reads_of_parseText hx (bodyStart name params)
  obtain ⟨p, word, t, q, hreads, hspan, hname, -⟩ := exists_reads_definition b hn hnames hf
  have hnonempty (h : b = .round) : names ≠ [] := by
    rintro rfl
    exact hb h hparams.symm
  obtain ⟨ps, htokens, hpsnames⟩ := Params.exists_around q hnonempty
  have hform : p.around (word.val :: t.val :: (q.around (names.map Subtype.val) ++ f.tokens)) =
      Form.tokensAll [.round p (.function word t (some ps) f)] := by
    rw [Form.tokensAll, Form.tokensAll, List.append_nil, Form.tokens, Content.tokens, ← htokens]
    rfl
  have hparse := parseText_of_reads (hform ▸ hreads)
  rw [String.ofList_toList] at hparse
  rw [hparse, Form.nodes, Form.nodes, Form.node, Content.node, hspan, hname, hnode]
  rw [Option.elim_some, hpsnames, hparams]

end Reading

/-! ### Without parameters -/

/-- A form in round brackets is read from what they enclose. -/
theorem parseMany_round (expected : Expected) (p : Brackets .round) {inside : List Token}
    (h : Nested inside) (us : List Token) :
    parseMany expected (p.around inside ++ us) = do
      return (← parseForm p.span inside) :: (← parseMany expected us) := by
  have ht : Piece.take expected p.opener.val (inside ++ p.closer.val :: us) =
      .ok (.group .round p.opener.val inside p.closer.val, us) := by
    simp [Piece.take, p.opener.property, Enclosed.cut_of_nested h p.closer us]
  rw [Brackets.around_append, parseMany_cons, ht]
  show (do return (← parsePiece (.group .round p.opener.val inside p.closer.val)) ::
    (← parseMany expected us)) = _
  rw [parsePiece]
  rfl

/-- The parser does not get past an empty list of parameters between round brackets. -/
theorem parse_definition_nil (p q : Brackets .round) (word : Terminal (.keyword .funForm))
    (t : Terminal .identifier) (f : Form) :
    parse (p.around (word.val :: t.val :: (q.around [] ++ f.tokens))) =
      .error (.emptyExpression q.span) := by
  have hinside : Nested (word.val :: t.val :: (q.around [] ++ f.tokens)) := by
    refine nested_of_openAfter fun stack us => ?_
    rw [List.cons_append, openAfter_word, List.cons_append, openAfter_name, List.append_assoc,
      openAfter_around _ _ q fun _ _ => rfl, f.openAfter_tokens]
  have harguments : parseMany .argument (t.val :: (q.around [] ++ f.tokens)) =
      .error (.emptyExpression q.span) := by
    rw [parseMany_name, parseMany_round .argument q (show Nested [] from rfl), parseForm]
    rfl
  rw [parse, ← List.append_nil (p.around _), parseMany_round .form p hinside,
    parseForm_funForm _ _ word.property, harguments]
  rfl

theorem parseText_definitionText_nil {name body : String} {x : Node} (hn : IsName name)
    (hx : parseText body = .ok [x]) :
    parseText (definitionText .round name [] body) =
      .error (.parse (.emptyExpression ⟨name.utf8ByteSize + 6, name.utf8ByteSize + 8⟩)) := by
  obtain ⟨f, hf, -⟩ := exists_reads_of_parseText hx (bodyStart name [])
  have hnone : Reads (name.utf8ByteSize + 7) (spaced (([] : List String).map String.toList)) [] :=
    .nil
  obtain ⟨p, word, t, q, hreads, -, -, hstart, hstop⟩ :=
    exists_reads_definition .round hn hnone hf
  have hspan : q.span = ⟨name.utf8ByteSize + 6, name.utf8ByteSize + 8⟩ := by
    rw [← hstart, show name.utf8ByteSize + 8 = q.span.stop from hstop.symm]
  rw [parseText, tokenize, hreads.scanFrom_eq]
  dsimp only
  rw [parse_definition_nil, hspan]
  rfl

/-- The two spellings of a parameter list, before any body. With square brackets the form is
read as what it says. With round ones it is read as the very same tree, unless there are no
parameters: then the brackets are taken for an empty call, and refused. -/
theorem parseText_definition_spellings {name body : String} {params : List String} {x : Node}
    (hn : IsName name) (hps : ∀ p ∈ params, IsName p) (hx : parseText body = .ok [x]) :
    let form := Node.function name params (x.shift (bodyStart name params))
      ⟨0, (definitionText .square name params body).utf8ByteSize⟩
    form.same form ∧
    parseText (definitionText .square name params body) = .ok [form] ∧
    parseText (definitionText .round name params body) =
      if params = [] then
        .error (.parse (.emptyExpression ⟨name.utf8ByteSize + 6, name.utf8ByteSize + 8⟩))
      else .ok [form] := by
  intro form
  have hsquare : parseText (definitionText .square name params body) = .ok [form] :=
    parseText_definitionText hn hx hps nofun
  have hself := equals_self_of_parseText hsquare form List.mem_cons_self
  refine ⟨?_, hsquare, ?_⟩
  · have hsame := Node.same_mapSpans id form hself
    rwa [Node.mapSpans_id] at hsame
  · by_cases hnil : params = []
    · subst hnil
      rw [if_pos rfl]
      exact parseText_definitionText_nil hn hx
    · rw [if_neg hnil, parseText_definitionText hn hx hps fun _ => hnil]
      have hsize : (definitionText .round name params body).utf8ByteSize =
          (definitionText .square name params body).utf8ByteSize := by
        rw [utf8ByteSize_definitionText, utf8ByteSize_definitionText]
      rw [hsize]

/-- Two parameters, in brackets of either kind. -/
theorem parseText_definition_spellings_two :
    ∃ x, parseText "(+ a 1)" = .ok [x] ∧
      parseText "(fun f [a b] (+ a 1))" = .ok [.function "f" ["a", "b"] (x.shift 13) ⟨0, 21⟩] ∧
      parseText "(fun f (a b) (+ a 1))" = .ok [.function "f" ["a", "b"] (x.shift 13) ⟨0, 21⟩] := by
  have hf : IsName "f" := by with_unfolding_all rfl
  have hps : ∀ p ∈ ["a", "b"], IsName p := by
    refine List.forall_mem_cons.2 ⟨?_, List.forall_mem_singleton.2 ?_⟩ <;> with_unfolding_all rfl
  obtain ⟨x, hx⟩ : ∃ x, parseText "(+ a 1)" = .ok [x] :=
    exists_parseText_of_length (by decide +kernel)
  obtain ⟨-, hsquare, hround⟩ := parseText_definition_spellings hf hps hx
  exact ⟨x, hx, hsquare, hround⟩

/-- A function without parameters cannot be spelled with round brackets. -/
theorem not_parseText_definition_round :
    definitionText .round "f" [] "1" = "(fun f () 1)" ∧ IsName "f" ∧
      (∃ x, parseText "1" = .ok [x]) ∧ ¬∃ form, parseText "(fun f () 1)" = .ok [form] := by
  refine ⟨by decide +kernel, by with_unfolding_all rfl,
    exists_parseText_of_length (by decide +kernel), ?_⟩
  rintro ⟨form, hform⟩
  have hrefused : (parseText "(fun f () 1)").toOption.isSome = false := by decide +kernel
  rw [hform] at hrefused
  cases hrefused

end SmallLisp
