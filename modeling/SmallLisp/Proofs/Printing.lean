import SmallLisp.Node.Printer
import SmallLisp.Proofs.Grammar.Soundness
import SmallLisp.Proofs.Likeness
import SmallLisp.Proofs.Scanning
import SmallLisp.Proofs.Single.Reading

/-! The written form of a tree is cut into the tokens of a form, wherever it
stands. A text reads as tokens if the scanner finds them in front of everything
that does not continue a word; such texts are put together from left to right,
with something between them that ends a word. A number that is not finite is
written like a name, so the tree of the form is the tree that was written only
if all its numbers are finite. -/

namespace SmallLisp

open Token

/-! ### Texts and their tokens -/

/-- The text is cut into these tokens, also where more text follows. -/
def Reads (start : Nat) (cs : List Char) (ts : List Token) : Prop :=
  ∀ rest, Delimited rest →
    scanFrom start (cs ++ rest) = (ts ++ ·) <$> scanFrom (start + Text.byteLength cs) rest

namespace Reads

variable {start : Nat} {cs ds : List Char} {ts us : List Token}

theorem nil : Reads start [] [] := fun _ _ => (id_map _).symm

theorem token {kind : TokenKind} (h : Cut cs kind []) :
    Reads start cs [startingAt start kind cs] :=
  fun _ hr => (h.append hr).scanFrom_append start

theorem append (hc : Reads start cs ts) (hd : Reads (start + Text.byteLength cs) ds us)
    (h : Delimited ds) : Reads start (cs ++ ds) (ts ++ us) := by
  intro rest hr
  rw [List.append_assoc, hc _ (h.append hr), hd _ hr, Text.byteLength_append, Nat.add_assoc,
    ← comp_map]
  exact congrArg (· <$> _) (funext fun vs => (List.append_assoc ts us vs).symm)

theorem space (h : Reads (start + 1) cs ts) : Reads start (' ' :: cs) ts := by
  intro rest hr
  rw [List.cons_append, scanFrom_separator (by decide), Text.byteLength_cons, ← Nat.add_assoc]
  exact h rest hr

/-- A bracket is a token whatever follows it. -/
theorem bracket {c : Char} {kind : TokenKind} (hb : TokenKind.ofBracket? c = some kind)
    (h : Reads (start + c.utf8Size) cs ts) :
    Reads start (c :: cs) (startingAt start kind [c] :: ts) := by
  intro rest hr
  rw [List.cons_append, ← List.singleton_append, (Cut.bracket hb _).scanFrom_append,
    Text.byteLength_cons c cs, ← Nat.add_assoc]
  exact (congrArg _ (h rest hr)).trans (comp_map _ _ _).symm

/-- The tokens of a whole text. -/
theorem scanFrom_eq (h : Reads start cs ts) : scanFrom start cs = .ok ts := by
  have hs := h [] delimited_nil
  rwa [List.append_nil, scanFrom_nil, except_map_ok, List.append_nil] at hs

end Reads

/-! ### The tokens of names, words and strings -/

/-- A text that is a single identifier. -/
def IsName (name : String) : Prop :=
  tokenize name = .ok [⟨.identifier, name, ⟨0, name.utf8ByteSize⟩⟩]

theorem isName_iff_cut {name : String} : IsName name ↔ Cut name.toList .identifier [] := by
  constructor
  · intro h
    exact cut_of_mem_scanFrom h (List.mem_singleton_self _)
  · intro h
    have hs := scanFrom_of_cut h 0
    rwa [startingAt, String.ofList_toList, Nat.zero_add, Text.byteLength_toList] at hs

theorem split_encodeChar (c : Char) (cs : List Char) :
    StringRest.split (Text.Quoted.encodeChar c ++ cs) =
      (StringRest.split cs).push (Text.Quoted.encodeChar c) := by
  unfold Text.Quoted.encodeChar
  split
  case h_6 hq hb _ _ _ => exact StringRest.split_cons hq hb
  all_goals rfl

theorem cut_encode (cs : List Char) : Cut (Text.Quoted.encode cs) .string [] := by
  refine .string (fun us => ?_) []
  induction cs with
  | nil => rfl
  | cons c cs ih =>
    rw [List.flatMap_cons, List.append_assoc, List.append_assoc, split_encodeChar,
      ← List.append_assoc, ih, StringRest.push, List.append_assoc]

theorem cut_of_ofWord {cs : List Char} {kind : TokenKind} (hne : cs ≠ [])
    (hw : cs.all isWordChar) (hk : TokenKind.ofWord (String.ofList cs) = kind) : Cut cs kind [] :=
  hk ▸ .word hne (List.all_eq_true.1 hw) delimited_nil

theorem cut_booleanChars (b : Bool) : Cut (booleanChars b) .boolean [] := by
  cases b <;> exact cut_of_ofWord (List.cons_ne_nil _ _) rfl rfl

theorem cut_keyword (k : Keyword) : Cut k.name.toList (.keyword k) [] := by
  cases k <;> exact cut_of_ofWord (List.cons_ne_nil _ _) rfl rfl

/-! ### The tokens of numbers -/

theorem isWordChar_of_isNumeral {c : Char} (h : Single.IsNumeral c) : isWordChar c := by
  rcases h with h | rfl | rfl | rfl
  · have hne (d : Char) (hd : d.isDigit = false) : c ≠ d := by
      rintro rfl
      rw [h] at hd
      cases hd
    have hb : TokenKind.ofBracket? c = none := by
      unfold TokenKind.ofBracket?
      split <;> first | rfl | exact absurd h (by decide)
    simp [isWordChar, isSeparator, hb, hne ' ' rfl, hne '\t' rfl, hne '\n' rfl, hne '\r' rfl,
      hne '\x0c' rfl, hne '"' rfl]
  all_goals rfl

theorem cut_chars_of_isFinite {x : Single} (h : x.IsFinite) : Cut x.chars .number [] := by
  have hd := Single.any_isDigit_chars h
  have hne : x.chars ≠ [] := by
    intro hn
    simp [hn] at hd
  have hw : x.chars.all isWordChar := List.all_eq_true.2 fun c hc =>
    isWordChar_of_isNumeral (Single.isNumeral_of_mem_chars h c hc)
  have hk : TokenKind.ofWord (String.ofList x.chars) = .number := by
    simp [TokenKind.ofWord, hd, Single.ofText?, Single.read?_chars h]
  exact cut_of_ofWord hne hw hk

theorem Single.equals_self {x : Single} (h : x.IsFinite) : x.equals x := by
  cases x with
  | nan => exact absurd h id
  | signed => simp [equals]

/-- A number that is not finite is written like a name. -/
theorem cut_chars_of_not_isFinite {x : Single} (h : ¬ x.IsFinite) :
    Cut x.chars .identifier [] := by
  cases x with
  | nan => exact cut_of_ofWord (List.cons_ne_nil _ _) rfl rfl
  | signed negative code =>
    have hc : code.val = Single.infiniteCode :=
      Nat.le_antisymm (Nat.le_of_lt_succ code.isLt) (Nat.le_of_not_lt h)
    rw [Single.chars, Single.magnitudeChars, if_pos hc]
    cases negative <;> exact cut_of_ofWord (List.cons_ne_nil _ _) rfl rfl

/-! ### Well-formed trees -/

namespace Node

/-- What may stand at the head of a call. -/
def IsOperator : Node → Prop
  | symbol .. | call .. | letIn .. | conditional .. | function .. => True
  | number .. | string .. | boolean .. | list .. => False

section

variable (P : Single → Prop)

mutual

/-- Trees that can be written down, with numbers that satisfy `P`. -/
def WellFormedWith : Node → Prop
  | number x _ => P x
  | string .. | boolean .. => True
  | symbol name _ => IsName name
  | list items _ => WellFormedAll items
  | call head args _ => head.IsOperator ∧ head.WellFormedWith ∧ WellFormedAll args
  | letIn bindings body _ => WellFormedBindings bindings ∧ body.WellFormedWith
  | conditional test yes no _ =>
    test.WellFormedWith ∧ yes.WellFormedWith ∧ WellFormedOptional no
  | function name params body _ => IsName name ∧ (∀ p ∈ params, IsName p) ∧ body.WellFormedWith

def WellFormedAll : List Node → Prop
  | [] => True
  | x :: xs => x.WellFormedWith ∧ WellFormedAll xs

def WellFormedBindings : List (String × Node) → Prop
  | [] => True
  | (name, x) :: bs => IsName name ∧ x.WellFormedWith ∧ WellFormedBindings bs

def WellFormedOptional : Option Node → Prop
  | none => False
  | some x => x.WellFormedWith

end

end

mutual

theorem WellFormedWith.mono {P Q : Single → Prop} (hpq : ∀ x, P x → Q x) :
    (x : Node) → x.WellFormedWith P → x.WellFormedWith Q
  | .number x _, h => hpq x h
  | .string .., _ | .boolean .., _ => trivial
  | .symbol .., h => h
  | .list items _, h => WellFormedAll.mono hpq items h
  | .call head args _, ⟨ho, hh, ha⟩ =>
    ⟨ho, WellFormedWith.mono hpq head hh, WellFormedAll.mono hpq args ha⟩
  | .letIn bindings body _, ⟨hb, hx⟩ =>
    ⟨WellFormedBindings.mono hpq bindings hb, WellFormedWith.mono hpq body hx⟩
  | .conditional test yes (some no) _, ⟨ht, hy, hn⟩ =>
    ⟨WellFormedWith.mono hpq test ht, WellFormedWith.mono hpq yes hy,
      WellFormedWith.mono hpq no hn⟩
  | .conditional _ _ none _, ⟨_, _, hn⟩ => hn.elim
  | .function _ _ body _, ⟨hn, hp, hx⟩ => ⟨hn, hp, WellFormedWith.mono hpq body hx⟩

theorem WellFormedAll.mono {P Q : Single → Prop} (hpq : ∀ x, P x → Q x) :
    (xs : List Node) → WellFormedAll P xs → WellFormedAll Q xs
  | [], _ => trivial
  | x :: xs, ⟨hx, hxs⟩ => ⟨WellFormedWith.mono hpq x hx, WellFormedAll.mono hpq xs hxs⟩

theorem WellFormedBindings.mono {P Q : Single → Prop} (hpq : ∀ x, P x → Q x) :
    (bs : List (String × Node)) → WellFormedBindings P bs → WellFormedBindings Q bs
  | [], _ => trivial
  | (_, x) :: bs, ⟨hn, hx, hbs⟩ =>
    ⟨hn, WellFormedWith.mono hpq x hx, WellFormedBindings.mono hpq bs hbs⟩

end

/-- Trees that can be written down and read back. -/
def WellFormed (x : Node) : Prop := x.WellFormedWith Single.IsFinite

theorem wellFormedAll_iff {P : Single → Prop} {xs : List Node} :
    WellFormedAll P xs ↔ ∀ x ∈ xs, x.WellFormedWith P := by
  induction xs with
  | nil => simp [WellFormedAll]
  | cons x xs ih => simp [WellFormedAll, ih]

theorem wellFormedBindings_iff {P : Single → Prop} {bs : List (String × Node)} :
    WellFormedBindings P bs ↔ ∀ b ∈ bs, IsName b.1 ∧ b.2.WellFormedWith P := by
  induction bs with
  | nil => simp [WellFormedBindings]
  | cons b bs ih => simp [WellFormedBindings, ih, and_assoc]

end Node

/-! ### Written parts -/

theorem spaced_cons (cs : List Char) (parts : List (List Char)) :
    spaced (cs :: parts) = cs ++ parts.flatMap (' ' :: ·) := by
  induction parts generalizing cs with
  | nil => simp [spaced, List.intercalate]
  | cons ds parts ih =>
    have h := ih ds
    simp only [spaced, List.intercalate] at h ⊢
    simp [List.intersperse, h]

theorem delimited_after (parts : List (List Char)) : Delimited (parts.flatMap (' ' :: ·)) := by
  cases parts with
  | nil => exact delimited_nil
  | cons cs parts => exact delimited_cons.2 rfl

@[simp] theorem Bracket.utf8Size_opening (b : Bracket) : b.opening.utf8Size = 1 := by
  cases b <;> rfl

@[simp] theorem Bracket.utf8Size_closing (b : Bracket) : b.closing.utf8Size = 1 := by
  cases b <;> rfl

/-- Brackets round a text become brackets round its tokens, from the first byte to the last. -/
theorem Reads.enclosed (b : Bracket) {start : Nat} {cs : List Char} {ts : List Token}
    (h : Reads (start + 1) cs ts) :
    ∃ p : Brackets b, Reads start (b.opening :: (cs ++ [b.closing])) (p.around ts) ∧
      p.span = ⟨start, start + Text.byteLength (b.opening :: (cs ++ [b.closing]))⟩ := by
  have ho : TokenKind.ofBracket? b.opening = some (.opening b) := by cases b <;> rfl
  have hc : TokenKind.ofBracket? b.closing = some (.closing b) := by cases b <;> rfl
  have hd : Delimited [b.closing] := delimited_cons.2 (isWordChar_of_ofBracket? hc)
  refine ⟨⟨⟨startingAt start (.opening b) [b.opening], rfl⟩,
    ⟨startingAt (start + 1 + Text.byteLength cs) (.closing b) [b.closing], rfl⟩⟩, ?_, ?_⟩
  · exact bracket ho (b.utf8Size_opening ▸ h.append (token (.bracket hc [])) hd)
  · simp only [Brackets.span, startingAt, Span.merge, Text.byteLength_cons, Text.byteLength_append,
      Text.byteLength_nil, Bracket.utf8Size_opening, Bracket.utf8Size_closing, Span.mk.injEq]
    omega

theorem Reads.around (b : Bracket) {start : Nat} {cs : List Char} {ts : List Token}
    (h : Reads (start + 1) cs ts) :
    ∃ p : Brackets b, Reads start (b.opening :: (cs ++ [b.closing])) (p.around ts) :=
  (h.enclosed b).imp fun _ hp => hp.1

theorem Reads.after_cons {start : Nat} {cs ds : List Char} {ts us : List Token}
    (hc : Reads (start + 1) cs ts) (hd : Reads (start + Text.byteLength (' ' :: cs)) ds us)
    (h : Delimited ds) : Reads start (' ' :: cs ++ ds) (ts ++ us) :=
  hc.space.append hd h

section Parts

variable {α β : Type} {chars : α → List Char} {tokens : β → List Token} {R : α → β → Prop}
  {as : List α} (h : ∀ a ∈ as, ∀ start, ∃ b, Reads start (chars a) (tokens b) ∧ R a b)
include h

/-- Parts that can be read wherever they stand are read one after the other, with
a space before each. -/
theorem Reads.exists_after (start : Nat) :
    ∃ bs, Reads start ((as.map chars).flatMap (' ' :: ·)) (bs.flatMap tokens) ∧
      List.Forall₂ R as bs := by
  induction as generalizing start with
  | nil => exact ⟨[], .nil, .nil⟩
  | cons a as ih =>
    obtain ⟨ha, has⟩ := List.forall_mem_cons.1 h
    obtain ⟨b, hb, hab⟩ := ha (start + 1)
    obtain ⟨bs, hbs, habs⟩ := ih has (start + Text.byteLength (' ' :: chars a))
    exact ⟨b :: bs, hb.after_cons hbs (delimited_after _), .cons hab habs⟩

theorem Reads.exists_spaced (start : Nat) :
    ∃ bs, Reads start (spaced (as.map chars)) (bs.flatMap tokens) ∧ List.Forall₂ R as bs := by
  cases as with
  | nil => exact ⟨[], .nil, .nil⟩
  | cons a as =>
    obtain ⟨ha, has⟩ := List.forall_mem_cons.1 h
    obtain ⟨b, hb, hab⟩ := ha start
    obtain ⟨bs, hbs, habs⟩ := exists_after has (start + Text.byteLength (chars a))
    refine ⟨b :: bs, ?_, .cons hab habs⟩
    rw [List.map_cons, spaced_cons]
    exact hb.append hbs (delimited_after _)

end Parts

theorem exists_name {name : String} (h : IsName name) (start : Nat) :
    ∃ t : Terminal .identifier, Reads start name.toList [t.val] ∧ t.val.text = name :=
  ⟨⟨startingAt start .identifier name.toList, rfl⟩, .token (isName_iff_cut.1 h),
    String.ofList_toList⟩

theorem exists_names {names : List String} (h : ∀ n ∈ names, IsName n) (start : Nat) :
    ∃ ts : List (Terminal .identifier),
      Reads start (spaced (names.map String.toList)) (ts.map Subtype.val) ∧
      ts.map (·.val.text) = names := by
  obtain ⟨ts, hr, ht⟩ := Reads.exists_spaced (fun name hn => exists_name (h name hn)) start
  have hts : ts.map Subtype.val = ts.flatMap fun t => [t.val] := List.map_eq_flatMap
  refine ⟨ts, hts ▸ hr, ?_⟩
  rw [← List.forall₂_eq_eq_eq, List.forall₂_map_left_iff]
  exact ht.flip

/-- What stands between round brackets after a keyword. -/
theorem Reads.special (k : Keyword) {start : Nat} {cs : List Char} {ts : List Token}
    (h : Reads (start + 1 + Text.byteLength k.name.toList) cs ts) (hd : Delimited cs) :
    ∃ (p : Brackets .round) (word : Terminal (.keyword k)),
      Reads start ('(' :: (k.name.toList ++ cs ++ [')'])) (p.around (word.val :: ts)) := by
  have hk : Reads (start + 1) k.name.toList
      [startingAt (start + 1) (.keyword k) k.name.toList] := .token (cut_keyword k)
  obtain ⟨p, hp⟩ := (hk.append h hd).around .round
  exact ⟨p, ⟨startingAt (start + 1) (.keyword k) k.name.toList, rfl⟩, hp⟩

/-- A function form, whatever follows its name. -/
theorem Reads.definition {name : String} (hn : IsName name) (params : Option Params) (f : Form)
    {start : Nat} {cs : List Char}
    (h : Reads (start + 1 + Text.byteLength Keyword.funForm.name.toList +
      Text.byteLength (' ' :: name.toList)) cs (params.elim [] Params.tokens ++ f.tokens))
    (hd : Delimited cs) :
    ∃ p word t, Reads start
        ('(' :: (Keyword.funForm.name.toList ++ (' ' :: name.toList ++ cs) ++ [')']))
        (Form.round p (.function word t params f)).tokens ∧ t.val.text = name := by
  obtain ⟨t, ht, hname⟩ :=
    exists_name hn (start + 1 + Text.byteLength Keyword.funForm.name.toList + 1)
  obtain ⟨p, word, hp⟩ := Reads.special .funForm (ht.after_cons h hd) (delimited_cons.2 rfl)
  exact ⟨p, word, t, hp, hname⟩

namespace Node

theorem chars_call (head : Node) (args : List Node) (span : Span) :
    (call head args span).chars =
      '(' :: (head.chars ++ (charsAll args).flatMap (' ' :: ·) ++ [')']) := by
  rw [← spaced_cons]
  rfl

theorem chars_letIn (bindings : List (String × Node)) (body : Node) (span : Span) :
    (letIn bindings body span).chars =
      '(' :: (Keyword.letForm.name.toList ++
        (' ' :: ('(' :: (spaced (charsBindings bindings) ++ [')'])) ++ (' ' :: body.chars)) ++
        [')']) := by
  calc (letIn bindings body span).chars =
        "(let (".toList ++ spaced (charsBindings bindings) ++ ") ".toList ++ body.chars ++
          [')'] := rfl
    _ = _ := by simp [Keyword.name]

theorem chars_conditional (test yes : Node) (no : Option Node) (span : Span) :
    (conditional test yes no span).chars =
      '(' :: (Keyword.ifForm.name.toList ++
        (test.chars :: yes.chars :: charsOptional no).flatMap (' ' :: ·) ++ [')']) := by
  calc (conditional test yes no span).chars =
        "(if ".toList ++ spaced (test.chars :: yes.chars :: charsOptional no) ++ [')'] := rfl
    _ = _ := by simp [Keyword.name, spaced_cons]

theorem chars_function (name : String) (params : List String) (body : Node) (span : Span) :
    (function name params body span).chars =
      '(' :: (Keyword.funForm.name.toList ++ (' ' :: name.toList ++
        (' ' :: ('[' :: (spaced (params.map String.toList) ++ [']'])) ++ (' ' :: body.chars))) ++
        [')']) := by
  calc (function name params body span).chars =
        "(fun ".toList ++ name.toList ++ " [".toList ++ spaced (params.map String.toList) ++
          "] ".toList ++ body.chars ++ [')'] := rfl
    _ = _ := by simp [Keyword.name]

/-- The tree is written as the tokens of the form, which is a form of that tree
if all numbers in it are finite; an operator is written as an operator. -/
structure Written (x : Node) (start : Nat) (f : Form) : Prop where
  reads : Reads start x.chars f.tokens
  same_iff : same f.node x ↔ x.WellFormed
  alike : x.WellFormed → f.node.Alike .anySpans x
  operator : x.IsOperator →
    ∃ t ts, f.tokens = t :: ts ∧ (t.kind = .identifier ∨ t.kind = .opening .round)

theorem exists_written_number (x : Single) (span : Span) (start : Nat) :
    ∃ f, Written (number x span) start f := by
  by_cases h : x.IsFinite
  · have hr : Single.ofText? (startingAt start .number x.chars).text = some x := by
      rw [startingAt, Single.ofText?, String.toList_ofList, Single.read?_chars h]
    refine ⟨.atom (.number ⟨startingAt start .number x.chars, rfl⟩ x hr),
      .token (cut_chars_of_isFinite h), ⟨fun _ => h, fun _ => ?_⟩, fun _ => .number x trivial,
      False.elim⟩
    simp [Form.node, Atom.node, same, Single.equals_self h]
  · refine ⟨.atom (.symbol ⟨startingAt start .identifier x.chars, rfl⟩),
      .token (cut_chars_of_not_isFinite h), ⟨fun hs => ?_, fun hw => absurd hw h⟩,
      fun hw => absurd hw h, False.elim⟩
    simp [Form.node, Atom.node, same] at hs

theorem exists_written_string (s : String) (span : Span) (start : Nat) :
    ∃ f, Written (string s span) start f := by
  refine ⟨.atom (.string ⟨startingAt start .string (Text.Quoted.encode s.toList), rfl⟩),
    .token (cut_encode s.toList), ⟨fun _ => trivial, fun _ => ?_⟩, fun _ => ?_, False.elim⟩
  · simp [Form.node, Atom.node, startingAt, same, Text.Quoted.decode_encode]
  · simp only [Form.node, Atom.node, startingAt, String.toList_ofList, Text.Quoted.decode_encode,
      String.ofList_toList]
    exact .string s trivial

theorem exists_written_boolean (b : Bool) (span : Span) (start : Nat) :
    ∃ f, Written (boolean b span) start f := by
  have hb : Text.equalsIgnoringCase (String.ofList (booleanChars b)) "true" = b := by
    cases b <;> rfl
  refine ⟨.atom (.boolean ⟨startingAt start .boolean (booleanChars b), rfl⟩),
    .token (cut_booleanChars b), ⟨fun _ => trivial, fun _ => ?_⟩, fun _ => ?_, False.elim⟩
  · simp [Form.node, Atom.node, startingAt, same, hb]
  · simp only [Form.node, Atom.node, startingAt, hb]
    exact .boolean b trivial

theorem exists_written_symbol {name : String} (h : IsName name) (span : Span) (start : Nat) :
    ∃ f, Written (symbol name span) start f := by
  refine ⟨.atom (.symbol ⟨startingAt start .identifier name.toList, rfl⟩),
    .token (isName_iff_cut.1 h), ⟨fun _ => h, fun _ => ?_⟩,
    fun _ => .symbol String.ofList_toList trivial, fun _ => ⟨_, [], rfl, .inl rfl⟩⟩
  simp [Form.node, Atom.node, startingAt, same]

/-! ### Every tree is written as a form -/

section Parts

variable {xs : List Node} {fs : List Form} {bs : List (String × Node)} {cs : List (Bound Form)}

/-- What each tree of a list is written as, if the trees can be written down. -/
theorem forall_written
    (h : ∀ x ∈ xs, x.WellFormedWith (fun _ => True) → ∀ start, ∃ f, Written x start f)
    (hw : WellFormedAll (fun _ => True) xs) :
    ∀ x ∈ xs, ∀ start, ∃ f : Form, Reads start x.chars f.tokens ∧ ∃ start, Written x start f := by
  intro x hx start
  obtain ⟨f, hf⟩ := h x hx (wellFormedAll_iff.1 hw x hx) start
  exact ⟨f, hf.reads, start, hf⟩

theorem sameAll_iff_of_written (h : List.Forall₂ (fun x f => ∃ start, Written x start f) xs fs) :
    sameAll (Form.nodes fs) xs ↔ WellFormedAll Single.IsFinite xs := by
  induction h with
  | nil => simp [Form.nodes, sameAll, WellFormedAll]
  | cons hx _ ih =>
    obtain ⟨_, hf⟩ := hx
    simp only [Form.nodes, sameAll, Bool.and_eq_true, hf.same_iff, ih, WellFormedAll, WellFormed]

theorem alikeAll_of_written (h : List.Forall₂ (fun x f => ∃ start, Written x start f) xs fs)
    (hw : WellFormedAll Single.IsFinite xs) :
    List.Forall₂ (Alike .anySpans) (Form.nodes fs) xs := by
  induction h with
  | nil => exact .nil
  | cons hx _ ih =>
    obtain ⟨_, hf⟩ := hx
    exact .cons (hf.alike hw.1) (ih hw.2)

/-- The name and the value of a binding, as they are written. -/
def WrittenBinding (b : String × Node) (c : Bound Form) : Prop :=
  IsName b.1 ∧ c.name.val.text = b.1 ∧ ∃ start, Written b.2 start c.value

theorem sameBindings_iff_of_written (h : List.Forall₂ WrittenBinding bs cs) :
    sameBindings (Form.bindingNodes cs) bs ↔ WellFormedBindings Single.IsFinite bs := by
  induction h with
  | nil => simp [Form.bindingNodes, sameBindings, WellFormedBindings]
  | @cons b _ _ _ hb _ ih =>
    obtain ⟨name, x⟩ := b
    obtain ⟨hn, ht, _, hf⟩ := hb
    simp [Form.bindingNodes, sameBindings, WellFormedBindings, hn, ht, hf.same_iff, ih, WellFormed]

theorem names_of_writtenBinding (h : List.Forall₂ WrittenBinding bs cs) :
    List.Forall₂ Eq ((Form.bindingNodes cs).map (·.1)) (bs.map (·.1)) := by
  induction h with
  | nil => exact .nil
  | cons hb _ ih => exact .cons hb.2.1 ih

theorem alikeBindings_of_written (h : List.Forall₂ WrittenBinding bs cs)
    (hw : WellFormedBindings Single.IsFinite bs) :
    List.Forall₂ (Alike .anySpans) ((Form.bindingNodes cs).map (·.2)) (bs.map (·.2)) := by
  induction h with
  | nil => exact .nil
  | cons hb _ ih =>
    obtain ⟨_, _, _, hf⟩ := hb
    exact .cons (hf.alike hw.2.1) (ih hw.2.2)

theorem exists_writtenBinding {b : String × Node} (hn : IsName b.1)
    (hx : ∀ start, ∃ f, Written b.2 start f) (start : Nat) :
    ∃ c : Bound Form, Reads start ('(' :: (b.1.toList ++ ' ' :: (b.2.chars ++ [')'])))
      (c.brackets.around (c.name.val :: c.value.tokens)) ∧ WrittenBinding b c := by
  obtain ⟨t, ht, hname⟩ := exists_name hn (start + 1)
  obtain ⟨f, hf⟩ := hx (start + 1 + Text.byteLength b.1.toList + 1)
  obtain ⟨p, hp⟩ := (ht.append hf.reads.space (delimited_cons.2 rfl)).around .round
  rw [List.append_assoc] at hp
  exact ⟨⟨p, t, f⟩, hp, hn, hname, _, hf⟩

/-- The reading of a function form, if its body can be read. -/
theorem exists_function {name : String} {params : List String} {body : Node} (span : Span)
    (hn : IsName name) (hps : ∀ p ∈ params, IsName p) (hx : ∀ start, ∃ f, Written body start f)
    (start : Nat) :
    ∃ (p : Brackets .round) (c : Content) (f : Form),
      Reads start (function name params body span).chars (Form.round p c).tokens ∧
      c.node p.span = .function name params f.node p.span ∧ ∃ start, Written body start f := by
  let stop := start + 1 + Text.byteLength Keyword.funForm.name.toList +
    Text.byteLength (' ' :: name.toList)
  obtain ⟨ts, hts, hnames⟩ := exists_names hps (stop + 1 + 1)
  obtain ⟨q, hq⟩ := hts.around .square
  obtain ⟨f, hf⟩ := hx (stop +
    Text.byteLength (' ' :: ('[' :: (spaced (params.map String.toList) ++ [']']))) + 1)
  obtain ⟨p, word, t, hp, ht⟩ := Reads.definition hn (some (.square q ts)) f
    (hq.after_cons hf.reads.space (delimited_cons.2 rfl)) (delimited_cons.2 rfl)
  refine ⟨p, .function word t (some (.square q ts)) f, f, ?_, ?_, _, hf⟩
  · rw [chars_function]
    exact hp
  · have hparams : ((some (Params.square q ts)).elim [] Params.names).map (·.val.text) = params :=
      hnames
    rw [Content.node, ht, hparams]

end Parts

/-- A tree is written as the tokens of a form, wherever it stands. -/
theorem exists_written {x : Node} (h : x.WellFormedWith fun _ => True) (start : Nat) :
    ∃ f, Written x start f := by
  induction x using Node.induction generalizing start with
  | number x span => exact exists_written_number x span start
  | string s span => exact exists_written_string s span start
  | boolean b span => exact exists_written_boolean b span start
  | symbol name span => exact exists_written_symbol h span start
  | list items span ih =>
    obtain ⟨fs, hr, hfs⟩ := Reads.exists_spaced (forall_written ih h) (start + 1)
    rw [← charsAll_eq_map, ← Form.tokensAll_eq_flatMap] at hr
    obtain ⟨p, hp⟩ := hr.around .square
    refine ⟨.list p fs, hp, ?_, fun hw => .list (alikeAll_of_written hfs hw) trivial, False.elim⟩
    rw [Form.node, same]
    exact sameAll_iff_of_written hfs
  | call head args span ihf ih =>
    obtain ⟨ho, hh, ha⟩ := h
    obtain ⟨f, hf⟩ := ihf hh (start + 1)
    obtain ⟨fs, hr, hfs⟩ :=
      Reads.exists_after (forall_written ih ha) (start + 1 + Text.byteLength head.chars)
    rw [← charsAll_eq_map, ← Form.tokensAll_eq_flatMap] at hr
    obtain ⟨t, ts, ht, hk⟩ := hf.operator ho
    have hts : t :: (ts ++ Form.tokensAll fs) = f.tokens ++ Form.tokensAll fs := by
      rw [ht, List.cons_append]
    obtain ⟨c, hc, hn⟩ := Content.exists_call hk hts
    have hcs := hf.reads.append hr (delimited_after _)
    rw [← hts, ← hc] at hcs
    obtain ⟨p, hp⟩ := hcs.around .round
    refine ⟨.round p c, ?_, ?_, fun hw => ?_, fun _ => ⟨_, _, rfl, .inr p.opener.property⟩⟩
    · rw [chars_call]
      exact hp
    · rw [Form.node, hn, same, Bool.and_eq_true, hf.same_iff, sameAll_iff_of_written hfs]
      exact (and_iff_right ho).symm
    · rw [Form.node, hn]
      exact .call (hf.alike hw.2.1) (alikeAll_of_written hfs hw.2.2) trivial
  | letIn bindings body span ih ihb =>
    obtain ⟨hb, hx⟩ := h
    let inner := start + 1 + Text.byteLength Keyword.letForm.name.toList
    have hbs (b : String × Node) (hm : b ∈ bindings) :=
      have hw := wellFormedBindings_iff.1 hb b hm
      exists_writtenBinding hw.1 (ih b hm hw.2)
    obtain ⟨cs, hcs, hwritten⟩ := Reads.exists_spaced hbs (inner + 1 + 1)
    rw [← charsBindings_eq_map, ← Form.bindingTokens_eq_flatMap] at hcs
    obtain ⟨q, hq⟩ := hcs.around .round
    obtain ⟨f, hf⟩ := ihb hx (inner +
      Text.byteLength (' ' :: ('(' :: (spaced (charsBindings bindings) ++ [')']))) + 1)
    obtain ⟨p, word, hp⟩ := Reads.special .letForm
      (hq.after_cons hf.reads.space (delimited_cons.2 rfl)) (delimited_cons.2 rfl)
    refine ⟨.round p (.letIn word q cs f), ?_, ?_, fun hw => ?_,
      fun _ => ⟨_, _, rfl, .inr p.opener.property⟩⟩
    · rw [chars_letIn]
      exact hp
    · rw [Form.node, Content.node, same, Bool.and_eq_true, hf.same_iff,
        sameBindings_iff_of_written hwritten]
      exact Iff.rfl
    · exact .letIn (names_of_writtenBinding hwritten) (alikeBindings_of_written hwritten hw.1)
        (hf.alike hw.2) trivial
  | conditional test yes no span iht ihy ihn =>
    obtain ⟨ht, hy, hn⟩ := h
    cases no with
    | none => exact hn.elim
    | some no =>
      let inner := start + 1 + Text.byteLength Keyword.ifForm.name.toList
      let second := inner + Text.byteLength (' ' :: test.chars)
      obtain ⟨f, hf⟩ := iht ht (inner + 1)
      obtain ⟨g, hg⟩ := ihy hy (second + 1)
      obtain ⟨k, hk⟩ := ihn no rfl hn (second + Text.byteLength (' ' :: yes.chars) + 1)
      obtain ⟨p, word, hp⟩ := Reads.special .ifForm
        (hf.reads.after_cons (hg.reads.after_cons hk.reads.space (delimited_cons.2 rfl))
          (delimited_cons.2 rfl)) (delimited_cons.2 rfl)
      refine ⟨.round p (.conditional word f g k), ?_, ?_,
        fun hw => .conditional (hf.alike hw.1) (hg.alike hw.2.1) (.some (hk.alike hw.2.2)) trivial,
        fun _ => ⟨_, _, rfl, .inr p.opener.property⟩⟩
      · rw [chars_conditional, List.flatMap_cons, List.flatMap_cons, charsOptional,
          List.flatMap_singleton]
        exact hp
      · rw [Form.node, Content.node, same, sameOptional, Bool.and_eq_true, Bool.and_eq_true,
          hf.same_iff, hg.same_iff, hk.same_iff, and_assoc]
        exact Iff.rfl
  | function name params body span ih =>
    obtain ⟨hn, hps, hx⟩ := h
    obtain ⟨p, c, f, hr, hnode, _, hf⟩ := exists_function span hn hps (ih hx) start
    refine ⟨.round p c, hr, ?_, fun hw => ?_, fun _ => ⟨_, _, rfl, .inr p.opener.property⟩⟩
    · rw [Form.node, hnode, same]
      simp only [beq_self_eq_true, Bool.true_and, hf.same_iff]
      exact ⟨fun hw => ⟨hn, hps, hw⟩, fun hw => hw.2.2⟩
    · rw [Form.node, hnode]
      exact .function rfl (List.forall₂_same.2 fun _ _ => rfl) (hf.alike hw.2.2) trivial

/-- Trees with one space between them are written as the tokens of forms. -/
theorem exists_forms {xs : List Node} (h : WellFormedAll (fun _ => True) xs) (start : Nat) :
    ∃ fs, Reads start (spaced (charsAll xs)) (Form.tokensAll fs) ∧
      (sameAll (Form.nodes fs) xs ↔ WellFormedAll Single.IsFinite xs) ∧
      (WellFormedAll Single.IsFinite xs → List.Forall₂ (Alike .anySpans) (Form.nodes fs) xs) := by
  obtain ⟨fs, hr, hfs⟩ :=
    Reads.exists_spaced (forall_written (fun _ _ => exists_written) h) start
  rw [← charsAll_eq_map, ← Form.tokensAll_eq_flatMap] at hr
  exact ⟨fs, hr, sameAll_iff_of_written hfs, alikeAll_of_written hfs⟩

end Node

end SmallLisp
