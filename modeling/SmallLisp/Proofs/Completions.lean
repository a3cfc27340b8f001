import SmallLisp.Prompt.Completion
import SmallLisp.Proofs.Names
import SmallLisp.Proofs.Segmentation
import SmallLisp.Proofs.Words
import SmallLisp.Text.Edit

/-! Completion of the word before the cursor. What is offered continues a name or a
keyword, and the text with it has the same tokens but for the last, which is the word
and its rest. The name that was meant is the lowercase form of that word, unless the
rest comes behind a capital sigma that ended the word: then it is another name. -/

namespace SmallLisp

open Token (scanFrom startingAt Cut)
open Text (lowercase SplitsSigma)

/-! ### A text that goes on -/

theorem Token.Cut.append_of_ne_nil {cs rest : List Char} {kind : TokenKind} (h : Cut cs kind rest)
    (hrest : rest ≠ []) (ds : List Char) : Cut cs kind (rest ++ ds) := by
  obtain ⟨hlex, hdel⟩ := cut_iff_lexeme.1 h
  refine cut_iff_lexeme.2 ⟨hlex, fun hw => ?_⟩
  obtain ⟨c, cs, rfl⟩ := List.exists_cons_of_ne_nil hrest
  exact delimited_cons.2 (delimited_cons.1 (hdel hw))

/-- A word at the end of a text grows with the text, and what is before it stays. -/
theorem Cutting.extend {ss : List Segment} {gap word cs ds : List Char} {kind : TokenKind}
    (h : Cutting (ss ++ [⟨gap, word, kind⟩]) [] cs) (hw : ∀ c ∈ word ++ ds, isWordChar c) :
    Cutting (ss ++ [⟨gap, word ++ ds, .ofWord (String.ofList (word ++ ds))⟩]) [] (cs ++ ds) := by
  induction ss generalizing cs with
  | nil =>
    cases h with
    | segment hg hc hlast =>
      cases hlast
      have hne : word ++ ds ≠ [] :=
        List.append_ne_nil_of_left_ne_nil (cut_iff_lexeme.1 hc).1.ne_nil _
      have hnone : ∀ c ∈ ([] : List Char), isSeparator c := fun c hc => absurd hc List.not_mem_nil
      simpa using Cutting.segment hg (.word hne hw delimited_nil) (.last hnone)
  | cons s ss ih =>
    cases h with
    | @segment gap' text _ rest _ _ hg hc h =>
      have hrest : rest ≠ [] := by
        rintro rfl
        have hne := (h.lexeme _ (List.mem_append_right ss List.mem_cons_self)).ne_nil
        have htext : Segment.textAll (ss ++ [⟨gap, word, kind⟩]) ++ [] = [] := h.text_eq
        simp only [Segment.textAll, Segment.text, List.flatMap_append, List.flatMap_singleton,
          List.append_eq_nil_iff] at htext
        exact hne htext.1.2.2
      rw [List.append_assoc, List.append_assoc]
      exact .segment hg (hc.append_of_ne_nil hrest ds) (ih h)

theorem Segment.tokensFrom_append (start : Nat) (ss ts : List Segment) :
    tokensFrom start (ss ++ ts) =
      tokensFrom start ss ++ tokensFrom (start + Text.byteLength (textAll ss)) ts := by
  induction ss generalizing start with
  | nil => rfl
  | cons s ss ih =>
    have hstop : (startingAt (start + Text.byteLength s.gap) s.kind s.lexeme).span.stop +
        Text.byteLength (textAll ss) = start + Text.byteLength (textAll (s :: ss)) := by
      simp only [startingAt, textAll, List.flatMap_cons, text, Text.byteLength_append,
        Nat.add_assoc]
    rw [List.cons_append, tokensFrom, tokensFrom, ih, hstop, List.cons_append]

/-- A token that is a name or a keyword is a word. -/
theorem Lexeme.isWord {cs : List Char} {kind : TokenKind} (h : Lexeme cs kind)
    (hkind : kind = .identifier ∨ kind.isKeyword) :
    (∀ c ∈ cs, isWordChar c) ∧ kind = .ofWord (String.ofList cs) := by
  cases h with
  | bracket hb =>
    unfold TokenKind.ofBracket? at hb
    split at hb <;> cases hb <;> simp [TokenKind.isKeyword] at hkind
  | string hb => simp [TokenKind.isKeyword] at hkind
  | word hne hw => exact ⟨hw, rfl⟩

/-- The last token of a text that ends with it. -/
theorem exists_cutting_of_tokenize {source : String} {tokens : List Token} {kind : TokenKind}
    {word : String} {start : Nat}
    (h : tokenize source = .ok (tokens ++ [⟨kind, word, ⟨start, source.utf8ByteSize⟩⟩])) :
    ∃ ss gap, Cutting (ss ++ [⟨gap, word.toList, kind⟩]) [] source.toList ∧
      tokens = Segment.tokensFrom 0 ss ∧
      start = Text.byteLength (Segment.textAll ss) + Text.byteLength gap := by
  rcases exists_cuts_or_stuck source.toList with ⟨⟨segments, last⟩, hg⟩ | ⟨before, body, hstuck⟩
  · have hcut := Segmentation.cuts_iff_cutting.1 hg
    have htokens : Segment.tokensFrom 0 segments = _ := Except.ok.inj (hg.tokenize_eq.symm.trans h)
    rcases List.eq_nil_or_concat' segments with rfl | ⟨ss, ⟨gap, lexeme, kind'⟩, rfl⟩
    · exact absurd htokens.symm (List.append_ne_nil_of_right_ne_nil _ (List.cons_ne_nil _ _))
    · rw [Segment.tokensFrom_append, Segment.tokensFrom, Segment.tokensFrom, Nat.zero_add]
        at htokens
      obtain ⟨rfl, htoken⟩ := List.append_inj' htokens rfl
      obtain ⟨rfl, hword, hspan⟩ := Token.mk.inj (List.cons.inj htoken).1
      obtain ⟨rfl, hstop⟩ := Span.mk.inj hspan
      subst hword
      have hlength : Text.byteLength (Segment.textAll (ss ++ [⟨gap, lexeme, kind'⟩])) =
          Text.byteLength source.toList := by
        simpa [Segment.textAll, Segment.text, Text.byteLength_toList, Nat.add_assoc] using hstop
      obtain ⟨-, rfl⟩ := append_inj_of_byteLength
        (hcut.text_eq.trans (List.append_nil _).symm) hlength
      refine ⟨ss, gap, ?_, rfl, rfl⟩
      rwa [String.toList_ofList]
  · cases hstuck.tokenize_eq.symm.trans h

/-- A text that ends in a name or a keyword has the same tokens when more of a word
follows, but for the last, which is then the longer word. -/
theorem tokenize_extend {before r : String} {tokens : List Token} {kind : TokenKind}
    {word : String} {start : Nat}
    (h : tokenize before = .ok (tokens ++ [⟨kind, word, ⟨start, before.utf8ByteSize⟩⟩]))
    (hkind : kind = .identifier ∨ kind.isKeyword) (hr : ∀ c ∈ r.toList, isWordChar c) :
    tokenize (before ++ r) = .ok (tokens ++
      [⟨.ofWord (word ++ r), word ++ r, ⟨start, (before ++ r).utf8ByteSize⟩⟩]) := by
  obtain ⟨ss, gap, hcut, rfl, rfl⟩ := exists_cutting_of_tokenize h
  have hlexeme := hcut.lexeme _ (List.mem_append_right ss List.mem_cons_self)
  have hmore := hcut.extend (List.forall_mem_append.2 ⟨(hlexeme.isWord hkind).1, hr⟩)
  have hscan := hmore.scanFrom_eq 0
  rw [← String.toList_append, ← String.toList_append, String.ofList_toList,
    Segment.tokensFrom_append, Segment.tokensFrom, Segment.tokensFrom, Nat.zero_add] at hscan
  have hsize : Text.byteLength (Segment.textAll ss) + Text.byteLength gap +
      Text.byteLength (word ++ r).toList = (before ++ r).utf8ByteSize := by
    rw [← Text.byteLength_toList, String.toList_append, String.toList_append, ← hcut.text_eq]
    simp [Segment.textAll, Segment.text, Nat.add_assoc]
  rw [tokenize, hscan, startingAt, String.ofList_toList, hsize]

/-! ### What is offered -/

namespace Prompt

theorem restAfter?_eq_some {cs text rest : List Char} :
    restAfter? cs text = some rest ↔ text = cs ++ rest := by
  induction cs generalizing text with
  | nil => rw [restAfter?, Option.some_inj, List.nil_append]
  | cons c cs ih =>
    cases text with
    | nil => simp [restAfter?]
    | cons d ds =>
      rw [restAfter?, List.cons_append, List.cons.injEq]
      split
      · next h => rw [ih, and_iff_right h.symm]
      · next h => exact iff_of_false nofun fun hd => h hd.1.symm

/-- The word that a text ends with is the text of its last token. -/
theorem lastWord?_eq_some {text word : String} {stop : Nat} :
    lastWord? text stop = some word ↔ ∃ tokens kind start,
      tokenize text = .ok (tokens ++ [⟨kind, word, ⟨start, stop⟩⟩]) ∧
        (kind = .identifier ∨ kind.isKeyword) := by
  unfold lastWord?
  constructor
  · intro h
    split at h
    · cases h
    · next tokens ht =>
      obtain ⟨⟨kind, w, start, stop'⟩, hlast, hif⟩ := Option.bind_eq_some_iff.1 h
      obtain ⟨ts, rfl⟩ := List.getLast?_eq_some_iff.1 hlast
      split at hif
      · next hcond =>
        obtain ⟨rfl, hkind⟩ := hcond
        cases hif
        exact ⟨ts, kind, start, ht, hkind⟩
      · cases hif
  · rintro ⟨tokens, kind, start, ht, hkind⟩
    rw [ht]
    simp [hkind]

/-- The rests of all names and keywords that the word before the cursor begins. -/
theorem mem_completions {names : List String} {before after r : String} :
    r ∈ completions names (before ++ after) before.utf8ByteSize ↔
      r ≠ "" ∧ ∃ word, lastWord? before before.utf8ByteSize = some word ∧
        lowercase word ++ r ∈ names ++ Keyword.all.map Keyword.name := by
  have hbefore : String.ofList (Text.takeBytes before.utf8ByteSize (before ++ after).toList) =
      before := by
    rw [String.toList_append, ← Text.byteLength_toList, Text.takeBytes_append, String.ofList_toList]
  rw [completions, hbefore]
  cases lastWord? before before.utf8ByteSize with
  | none => simp
  | some word =>
    have hrest (name : String) (rest : List Char) :
        restAfter? (lowercase word).toList name.toList = some rest ↔
          name = lowercase word ++ String.ofList rest := by
      rw [restAfter?_eq_some, ← String.toList_inj, String.toList_append, String.toList_ofList]
    simp only [Text.sort, List.mem_mergeSort, List.mem_map, List.mem_filter, List.mem_filterMap,
      List.mem_eraseDups, hrest, decide_eq_true_eq, Option.some_inj, exists_eq_left']
    constructor
    · rintro ⟨rest, ⟨⟨name, hname, rfl⟩, hne⟩, rfl⟩
      exact ⟨fun h => hne (by rw [← String.toList_ofList (l := rest), h]; rfl), hname⟩
    · rintro ⟨hne, hname⟩
      refine ⟨r.toList, ⟨⟨_, hname, ?_⟩, fun h => hne ?_⟩, String.ofList_toList⟩
      · rw [String.ofList_toList]
      · rw [← String.ofList_toList (s := r), h]

/-- A word that is offered as a whole: the lowercase form of a keyword or of a name. -/
theorem exists_word_of_mem {names : List String} (h : ∀ key ∈ names, IsKey key) {key : String}
    (hkey : key ∈ names ++ Keyword.all.map Keyword.name) :
    ∃ word, key = lowercase word ∧ (∀ c ∈ word.toList, isWordChar c) ∧
      ((TokenKind.ofWord word).isKeyword ∨ TokenKind.ofWord word = .identifier ∧ key ∈ names) := by
  have hword {word : String} {kind : TokenKind} (hcut : Cut word.toList kind [])
      (hkind : kind = .identifier ∨ kind.isKeyword) :
      (∀ c ∈ word.toList, isWordChar c) ∧ kind = .ofWord word := by
    have hlex := (cut_iff_lexeme.1 hcut).1.isWord hkind
    rwa [String.ofList_toList] at hlex
  rcases List.mem_append.1 hkey with hname | hkeyword
  · obtain ⟨name, hn, rfl⟩ := h key hname
    obtain ⟨hchars, hkind⟩ := hword (isName_iff_cut.1 hn) (.inl rfl)
    exact ⟨name, rfl, hchars, .inr ⟨hkind.symm, hname⟩⟩
  · obtain ⟨k, -, rfl⟩ := List.mem_map.1 hkeyword
    obtain ⟨hchars, hkind⟩ := hword (cut_keyword k) (.inr rfl)
    exact ⟨k.name, by cases k <;> decide +kernel, hchars, .inl (hkind ▸ rfl)⟩

end Prompt

/-- What is offered for the word before the cursor gives a longer word, which is a
keyword or a name; everything before it stays. A name can be resolved, unless the rest
separates a capital sigma from the end of the word, and just then the lowercase form
of the longer word is not the one that was offered. -/
theorem Session.Programmed.completions_usable {S : Session} (hS : S.Programmed) (id : ScopeId)
    {before after r : String}
    (hr : r ∈ Prompt.completions (S.state.scopes.names id) (before ++ after)
      before.utf8ByteSize) :
    ∃ tokens word start kind kind',
      tokenize before = .ok (tokens ++ [⟨kind, word, ⟨start, before.utf8ByteSize⟩⟩]) ∧
      (kind = .identifier ∨ kind.isKeyword) ∧
      tokenize (before ++ r) =
        .ok (tokens ++ [⟨kind', word ++ r, ⟨start, (before ++ r).utf8ByteSize⟩⟩]) ∧
      (kind'.isKeyword ∨ kind' = .identifier ∧ (SplitsSigma [] word.toList r.toList ∨
        (S.state.scopes.resolve? id (word ++ r)).isSome)) ∧
      (lowercase (word ++ r) = lowercase word ++ r ↔ ¬SplitsSigma [] word.toList r.toList) := by
  obtain ⟨-, word, hword, hmem⟩ := Prompt.mem_completions.1 hr
  obtain ⟨tokens, kind, start, htokens, hkind⟩ := Prompt.lastWord?_eq_some.1 hword
  obtain ⟨whole, hwhole, hchars, hkey⟩ :=
    Prompt.exists_word_of_mem (fun key => hS.named.isKey_of_mem_names) hmem
  have hsub : ∀ c ∈ r.toList, c ∈ (lowercase whole).toList := by
    rw [← hwhole, String.toList_append]
    exact fun c hc => List.mem_append_right _ hc
  have hlower := Text.lowercase_append_eq_iff (s := word) fun c hc =>
    Text.isLower_of_mem_lowercase (hsub c hc)
  have hextend := tokenize_extend htokens hkind fun c hc =>
    isWordChar_of_mem_lowercase hchars c (hsub c hc)
  refine ⟨tokens, word, start, kind, _, htokens, hkind, hextend, ?_, hlower⟩
  by_cases hsplit : SplitsSigma [] word.toList r.toList
  · have hsigma : 'Σ' ∈ (word ++ r).toList := by
      obtain ⟨us, vs, hus, -⟩ := hsplit
      rw [String.toList_append, hus]
      simp
    exact .inr ⟨TokenKind.ofWord_eq_identifier hsigma (by decide), .inl hsplit⟩
  · have heq := hlower.2 hsplit
    have hsame : TokenKind.ofWord (word ++ r) = .ofWord whole := by
      rw [← TokenKind.ofWord_lowercase, heq, hwhole, TokenKind.ofWord_lowercase]
    rw [hsame]
    rcases hkey with hkeyword | ⟨hidentifier, hname⟩
    · exact .inl hkeyword
    · rw [← heq] at hname
      exact .inr ⟨hidentifier, .inr (Scopes.lowercase_mem_names.1 hname)⟩

namespace Session

/-- A session in which one program was evaluated. -/
theorem Programmed.of_eval {fuel : Nat} {source : String} {reply : Reply} {S : Session}
    (h : ((Session.initial.createScope "g" none none).step fuel (.eval "g" source none none)) =
      .ok (some (reply, S))) : S.Programmed := by
  have hg := @Programmed.step Session.initial _ 0 (.global "g") .done .initial
    (fun _ hname => nomatch hname) rfl
  refine hg.step ?_ h
  exact fun _ hname => nomatch hname

/-- A name in capital letters, before the end of a line. -/
theorem Programmed.completions_usable_capitals :
    ∃ S : Session, S.Programmed ∧
      "aße" ∈ Prompt.completions (S.state.scopes.names 0) ("(STR" ++ " 1)") 4 ∧
      ∃ tokens word start kind kind',
        tokenize "(STR" = .ok (tokens ++ [⟨kind, word, ⟨start, 4⟩⟩]) ∧
        (kind = .identifier ∨ kind.isKeyword) ∧
        tokenize "(STRaße" = .ok (tokens ++ [⟨kind', word ++ "aße", ⟨start, 8⟩⟩]) ∧
        (kind'.isKeyword ∨ kind' = .identifier ∧ (SplitsSigma [] word.toList "aße".toList ∨
          (S.state.scopes.resolve? 0 (word ++ "aße")).isSome)) ∧
        (lowercase (word ++ "aße") = lowercase word ++ "aße" ↔
          ¬SplitsSigma [] word.toList "aße".toList) := by
  have hrun : ((Session.initial.createScope "g" none none).step 4
      (.eval "g" "(fun Straße [] 1)" none none)).toOption.join.map (fun p =>
        Prompt.completions (p.2.state.scopes.names 0) "(STR 1)" 4) = some ["aße"] := by
    decide +kernel
  obtain ⟨⟨reply, S⟩, hstep, hoffered⟩ := Option.map_eq_some_iff.1 hrun
  have hS : S.Programmed := .of_eval (eq_ok_of_toOption (Option.join_eq_some_iff.1 hstep))
  have hmem : "aße" ∈ Prompt.completions (S.state.scopes.names 0) ("(STR" ++ " 1)") 4 :=
    hoffered ▸ List.mem_singleton_self _
  exact ⟨S, hS, hmem, hS.completions_usable 0 hmem⟩

/-- The rest of a name is offered behind a capital sigma that it keeps from ending the
word, and the longer word is unbound. -/
theorem Programmed.completions_unbound :
    ∃ S : Session, S.Programmed ∧
      Prompt.completions (S.state.scopes.names 0) "aΣ" 3 = ["b"] ∧
      tokenize "aΣ" = .ok [⟨.identifier, "aΣ", ⟨0, 3⟩⟩] ∧
      tokenize "aΣb" = .ok [⟨.identifier, "aΣb", ⟨0, 4⟩⟩] ∧
      S.state.scopes.resolve? 0 "aΣb" = none := by
  have hrun : ((Session.initial.createScope "g" none none).step 4
      (.eval "g" "(fun aςb [] 1)" none none)).toOption.join.map (fun p =>
        (Prompt.completions (p.2.state.scopes.names 0) "aΣ" 3,
          (p.2.state.scopes.resolve? 0 "aΣb").isNone)) = some (["b"], true) := by
    decide +kernel
  obtain ⟨⟨reply, S⟩, hstep, hprobe⟩ := Option.map_eq_some_iff.1 hrun
  obtain ⟨hoffered, hnone⟩ := Prod.mk.inj hprobe
  exact ⟨S, .of_eval (eq_ok_of_toOption (Option.join_eq_some_iff.1 hstep)), hoffered,
    by decide +kernel, by decide +kernel, Option.isNone_iff_eq_none.1 hnone⟩

end Session

end SmallLisp
