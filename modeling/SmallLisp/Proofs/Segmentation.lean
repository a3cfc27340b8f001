import SmallLisp.Proofs.Scanning

/-! The cut of a text into gaps and lexemes, described by what its pieces look
like and not by how they are found. A text has at most one such cut; if it has
one, the scanner finds it, and every lexeme in it is the longest text that any
pattern allows at its place. If it has none, there is a cut up to some quote
from which no closing quote can be reached, and the scanner says how far a
string can be read there. -/

namespace SmallLisp

open Token (startingAt scanFrom Cut StringRest)

/-! ### Lexemes -/

/-- What may stand between the quotes of a string: no quote, and no backslash
but one that takes the next character with it, which is not a line feed. -/
inductive StringBody : List Char → Prop
  | nil : StringBody []
  | plain {c : Char} {cs : List Char} (hq : c ≠ '"') (hb : c ≠ '\\') (h : StringBody cs) :
    StringBody (c :: cs)
  | escaped {c : Char} {cs : List Char} (hc : c ≠ '\n') (h : StringBody cs) :
    StringBody ('\\' :: c :: cs)

/-- The texts of lexemes, with the kinds of the tokens that they are. -/
inductive Lexeme : List Char → TokenKind → Prop
  | bracket {c : Char} {kind : TokenKind} (h : TokenKind.ofBracket? c = some kind) :
    Lexeme [c] kind
  | string {body : List Char} (h : StringBody body) : Lexeme ('"' :: (body ++ ['"'])) .string
  | word {cs : List Char} (hne : cs ≠ []) (hw : ∀ c ∈ cs, isWordChar c) :
    Lexeme cs (.ofWord (String.ofList cs))

/-- The patterns that a scanner has to choose from: gaps, lexemes, and strings
without their closing quote. -/
inductive Pattern : List Char → Prop
  | gap {cs : List Char} (hne : cs ≠ []) (h : ∀ c ∈ cs, isSeparator c) : Pattern cs
  | lexeme {cs : List Char} {kind : TokenKind} (h : Lexeme cs kind) : Pattern cs
  | unclosed {body : List Char} (h : StringBody body) : Pattern ('"' :: body)

/-- No pattern matches more of the text that begins with `cs` and goes on with `rest`. -/
def Longest (cs rest : List Char) : Prop :=
  ∀ p, Pattern p → p <+: cs ++ rest → p.length ≤ cs.length

/-- Where a string can be read no further although it is not closed: at the end
of the text, and before a backslash at the end of the text or of a line. -/
inductive Blocked : List Char → Prop
  | atEnd : Blocked []
  | backslash : Blocked ['\\']
  | lineFeed (cs : List Char) : Blocked ('\\' :: '\n' :: cs)

/-! ### Cuts -/

/-- A lexeme with the gap before it, which may be empty. -/
structure Segment where
  gap : List Char
  lexeme : List Char
  kind : TokenKind

namespace Segment

def text (s : Segment) : List Char := s.gap ++ s.lexeme

def textAll (ss : List Segment) : List Char := ss.flatMap text

/-- The tokens of segments that start at byte `start`. -/
def tokensFrom (start : Nat) : List Segment → List Token
  | [] => []
  | s :: ss =>
    let token := startingAt (start + Text.byteLength s.gap) s.kind s.lexeme
    token :: tokensFrom token.span.stop ss

end Segment

/-- Lexemes with the gaps before them, and a gap after the last one. -/
structure Segmentation where
  segments : List Segment
  last : List Char

/-- A word that stands after the text does not begin further to the left. -/
def Ended (cs : List Char) : Prop := ∀ c ∈ cs.getLast?, isWordChar c = false

namespace Segmentation

def tokens (g : Segmentation) : List Token := Segment.tokensFrom 0 g.segments

/-- The pieces make up the text, each is what it should be, and no word has a
word character next to it. -/
structure Cuts (g : Segmentation) (cs : List Char) : Prop where
  text_eq : Segment.textAll g.segments ++ g.last = cs
  gaps : ∀ s ∈ g.segments, ∀ c ∈ s.gap, isSeparator c
  last : ∀ c ∈ g.last, isSeparator c
  lexemes : ∀ s ∈ g.segments, Lexeme s.lexeme s.kind
  words : ∀ before s after, g.segments = before ++ s :: after → (∀ c ∈ s.lexeme, isWordChar c) →
    Ended (Segment.textAll before ++ s.gap) ∧ Delimited (Segment.textAll after ++ g.last)

end Segmentation

/-- The text has a cut up to a quote, after which `body` is all that can be read
of a string. -/
structure StuckAfter (cs before body : List Char) : Prop where
  cut : ∃ g : Segmentation, g.Cuts before
  string : StringBody body
  text_eq : ∃ rest, Blocked rest ∧ cs = before ++ '"' :: (body ++ rest)

/-! ### Strings -/

namespace Token.StringRest

theorem push_nil (r : StringRest) : r.push [] = r := by cases r <;> rfl

theorem push_push (r : StringRest) (cs ds : List Char) :
    (r.push ds).push cs = r.push (cs ++ ds) := by
  cases r <;> simp [push]

/-- The part of a string that was read. -/
def read : StringRest → List Char
  | closed body _ => body
  | unterminated body => body

theorem read_push (r : StringRest) (cs : List Char) : (r.push cs).read = cs ++ r.read := by
  cases r <;> rfl

theorem split_append {body : List Char} (h : StringBody body) (cs : List Char) :
    split (body ++ cs) = (split cs).push body := by
  induction h with
  | nil => rw [List.nil_append, push_nil]
  | plain hq hb _ ih =>
    rw [List.cons_append, split_cons hq hb, ih, push_push, List.singleton_append]
  | escaped hc _ ih =>
    rw [List.cons_append, List.cons_append, split, if_neg hc, ih, push_push]
    rfl

theorem split_blocked {cs : List Char} (h : Blocked cs) : split cs = unterminated [] := by
  cases h with
  | atEnd => rw [split]
  | backslash => rw [split]
  | lineFeed cs => rw [split, if_pos rfl]

theorem split_closed {body : List Char} (h : StringBody body) (rest : List Char) :
    split (body ++ '"' :: rest) = closed (body ++ ['"']) rest := by
  rw [split_append h, split, push]

theorem split_unterminated {body rest : List Char} (h : StringBody body) (hr : Blocked rest) :
    split (body ++ rest) = unterminated body := by
  rw [split_append h, split_blocked hr, push, List.append_nil]

/-- A string is read up to a quote or up to where it can be read no further. -/
theorem exists_stringBody (cs : List Char) :
    ∃ body rest, StringBody body ∧ cs = body ++ rest ∧
      ((∃ ds, rest = '"' :: ds) ∨ Blocked rest) := by
  fun_induction split cs with
  | case1 => exact ⟨[], [], .nil, rfl, .inr .atEnd⟩
  | case2 cs => exact ⟨[], '"' :: cs, .nil, rfl, .inl ⟨cs, rfl⟩⟩
  | case3 => exact ⟨[], ['\\'], .nil, rfl, .inr .backslash⟩
  | case4 cs => exact ⟨[], '\\' :: '\n' :: cs, .nil, rfl, .inr (.lineFeed cs)⟩
  | case5 c cs hc ih =>
    obtain ⟨body, rest, hb, rfl, hr⟩ := ih
    exact ⟨'\\' :: c :: body, rest, .escaped hc hb, rfl, hr⟩
  | case6 c cs hq hn hc ih =>
    obtain ⟨body, rest, hb, rfl, hr⟩ := ih
    refine ⟨c :: body, rest, .plain hq ?_ hb, rfl, hr⟩
    rintro rfl
    cases hcs : body ++ rest with
    | nil => exact hn rfl hcs
    | cons d ds => exact hc d ds rfl hcs

end Token.StringRest

/-! ### Lexemes and what the scanner cuts off -/

/-- A lexeme that ends with a word character is a word. -/
theorem Lexeme.forall_isWordChar {cs : List Char} {kind : TokenKind} (h : Lexeme cs kind)
    (hl : ¬ Ended cs) : ∀ c ∈ cs, isWordChar c := by
  cases h with
  | bracket hb => exact absurd (by simp [Ended, isWordChar_of_ofBracket? hb]) hl
  | string hb =>
    refine absurd (fun c hc => ?_) hl
    rw [← List.cons_append, List.getLast?_concat] at hc
    cases hc
    rfl
  | word hne hw => exact hw

theorem Lexeme.ne_nil {cs : List Char} {kind : TokenKind} (h : Lexeme cs kind) : cs ≠ [] := by
  cases h with
  | bracket | string => exact List.cons_ne_nil _ _
  | word hne => exact hne

theorem cut_iff_lexeme {cs rest : List Char} {kind : TokenKind} :
    Cut cs kind rest ↔ Lexeme cs kind ∧ ((∀ c ∈ cs, isWordChar c) → Delimited rest) := by
  constructor
  · intro h
    cases h with
    | @bracket c _ hb =>
      refine ⟨.bracket hb, fun hw => ?_⟩
      have hc := hw c List.mem_cons_self
      rw [isWordChar_of_ofBracket? hb] at hc
      cases hc
    | @string body hs =>
      refine ⟨?_, fun hw => nomatch hw '"' List.mem_cons_self⟩
      obtain ⟨body', rest', hb, hbody, ⟨ds, rfl⟩ | hr⟩ := StringRest.exists_stringBody body
      · have heq := hs []
        rw [List.append_nil, hbody, StringRest.split_closed hb] at heq
        obtain ⟨hb', rfl⟩ := StringRest.closed.inj heq
        rw [hbody]
        exact .string hb
      · have heq := hs []
        rw [List.append_nil, hbody, StringRest.split_unterminated hb hr] at heq
        cases heq
    | word hne hw hr => exact ⟨.word hne hw, fun _ => hr⟩
  · rintro ⟨h, hr⟩
    cases h with
    | bracket hb => exact .bracket hb rest
    | string hb =>
      refine .string (fun us => ?_) rest
      rw [List.append_assoc, List.singleton_append, StringRest.split_closed hb]
    | word hne hw => exact .word hne hw (hr hw)

/-! ### Cuts from left to right -/

/-- The pieces of a text, each judged by what follows it alone. -/
inductive Cutting : List Segment → List Char → List Char → Prop
  | last {gap : List Char} (hg : ∀ c ∈ gap, isSeparator c) : Cutting [] gap gap
  | segment {gap text last rest : List Char} {kind : TokenKind} {ss : List Segment}
    (hg : ∀ c ∈ gap, isSeparator c) (hc : Cut text kind rest) (h : Cutting ss last rest) :
    Cutting (⟨gap, text, kind⟩ :: ss) last (gap ++ (text ++ rest))

theorem ended_append {cs ds : List Char} (hd : ds ≠ []) : Ended (cs ++ ds) ↔ Ended ds := by
  rw [Ended, Ended, List.getLast?_append, List.getLast?_eq_some_getLast hd, Option.some_or]

theorem Ended.of_append {cs ds : List Char} (h : Ended (cs ++ ds)) : Ended ds := by
  by_cases hd : ds = []
  · simp [Ended, hd]
  · exact (ended_append hd).1 h

theorem ended_of_isSeparator {cs : List Char} (h : ∀ c ∈ cs, isSeparator c) : Ended cs :=
  fun c hc => isWordChar_of_isSeparator (h c (List.mem_of_getLast? hc))

namespace Cutting

variable {ss : List Segment} {last cs : List Char}

theorem text_eq (h : Cutting ss last cs) : Segment.textAll ss ++ last = cs := by
  induction h with
  | last => rfl
  | segment _ _ _ ih =>
    rw [Segment.textAll, List.flatMap_cons, Segment.text, List.append_assoc, List.append_assoc,
      ← ih, Segment.textAll]

theorem isSeparator_last (h : Cutting ss last cs) : ∀ c ∈ last, isSeparator c := by
  induction h with
  | last hg => exact hg
  | segment _ _ _ ih => exact ih

theorem isSeparator_gap (h : Cutting ss last cs) : ∀ s ∈ ss, ∀ c ∈ s.gap, isSeparator c := by
  induction h with
  | last => exact fun s hs => absurd hs List.not_mem_nil
  | segment hg _ _ ih => exact List.forall_mem_cons.2 ⟨hg, ih⟩

theorem lexeme (h : Cutting ss last cs) : ∀ s ∈ ss, Lexeme s.lexeme s.kind := by
  induction h with
  | last => exact fun s hs => absurd hs List.not_mem_nil
  | segment _ hc _ ih => exact List.forall_mem_cons.2 ⟨(cut_iff_lexeme.1 hc).1, ih⟩

/-- What follows a segment is where its lexeme is cut off. -/
theorem cut (h : Cutting ss last cs) {before after : List Segment} {s : Segment}
    (hs : ss = before ++ s :: after) : Cut s.lexeme s.kind (Segment.textAll after ++ last) := by
  induction h generalizing before with
  | last => simp at hs
  | segment hg hc h ih =>
    cases before with
    | nil =>
      cases hs
      rwa [h.text_eq]
    | cons b before => exact ih (List.cons.inj hs).2

/-- A word has no word character before it, since the lexeme there would reach further. -/
theorem ended (h : Cutting ss last cs) {before after : List Segment} {s : Segment}
    (hs : ss = before ++ s :: after) (hw : ∀ c ∈ s.lexeme, isWordChar c) :
    Ended (Segment.textAll before ++ s.gap) := by
  induction h generalizing before with
  | last => simp at hs
  | @segment gap text last rest kind ss hg hc h ih =>
    cases before with
    | nil =>
      cases hs
      exact ended_of_isSeparator hg
    | cons b before =>
      rw [List.cons_append, List.cons.injEq] at hs
      obtain ⟨rfl, rfl⟩ := hs
      have htext : Segment.textAll (⟨gap, text, kind⟩ :: before) ++ s.gap =
          gap ++ text ++ (Segment.textAll before ++ s.gap) := by
        rw [Segment.textAll, List.flatMap_cons, Segment.text, List.append_assoc, Segment.textAll]
      rw [htext]
      by_cases hne : Segment.textAll before ++ s.gap = []
      · obtain ⟨hlex, hdel⟩ := cut_iff_lexeme.1 hc
        rw [hne, List.append_nil, ended_append hlex.ne_nil]
        refine Classical.byContradiction fun hended => ?_
        obtain ⟨c, ds, hds⟩ := List.exists_cons_of_ne_nil
          (h.lexeme s (List.mem_append_right before List.mem_cons_self)).ne_nil
        have hrest : rest = c :: (ds ++ (Segment.textAll after ++ last)) := by
          rw [← h.text_eq, Segment.textAll, List.flatMap_append, List.flatMap_cons, Segment.text,
            ← List.append_assoc, ← List.append_assoc, ← Segment.textAll, hne, hds]
          simp [Segment.textAll]
        have hc := delimited_cons.1 (hrest ▸ hdel (hlex.forall_isWordChar hended))
        rw [hw c (hds ▸ List.mem_cons_self)] at hc
        cases hc
      · rw [ended_append hne]
        exact ih rfl

end Cutting

theorem Segmentation.cuts_iff_cutting {g : Segmentation} {cs : List Char} :
    g.Cuts cs ↔ Cutting g.segments g.last cs := by
  constructor
  · obtain ⟨ss, last⟩ := g
    rintro ⟨rfl, hgaps, hlast, hlex, hwords⟩
    dsimp only at hgaps hlast hlex hwords ⊢
    induction ss with
    | nil => exact .last hlast
    | cons s ss ih =>
      obtain ⟨hg, hgaps⟩ := List.forall_mem_cons.1 hgaps
      obtain ⟨hl, hlex⟩ := List.forall_mem_cons.1 hlex
      have hcut := cut_iff_lexeme.2 ⟨hl, fun hw => (hwords [] s ss rfl hw).2⟩
      have htext : Segment.textAll (s :: ss) ++ last =
          s.gap ++ (s.lexeme ++ (Segment.textAll ss ++ last)) := by
        simp [Segment.textAll, Segment.text]
      rw [htext]
      refine .segment hg hcut (ih hgaps hlex fun before t after hss ht => ?_)
      obtain ⟨hended, hdel⟩ := hwords (s :: before) t after (congrArg (s :: ·) hss) ht
      rw [Segment.textAll, List.flatMap_cons, List.append_assoc] at hended
      exact ⟨hended.of_append, hdel⟩
  · intro h
    refine ⟨h.text_eq, h.isSeparator_gap, h.isSeparator_last, h.lexeme, ?_⟩
    intro before s after hs hw
    exact ⟨h.ended hs hw, (cut_iff_lexeme.1 (h.cut hs)).2 hw⟩

/-! ### What the scanner finds -/

theorem scanFrom_gap {gap : List Char} (h : ∀ c ∈ gap, isSeparator c) (start : Nat)
    (cs : List Char) : scanFrom start (gap ++ cs) = scanFrom (start + Text.byteLength gap) cs := by
  induction gap generalizing start with
  | nil => rfl
  | cons c gap ih =>
    obtain ⟨hc, hgap⟩ := List.forall_mem_cons.1 h
    rw [List.cons_append, Token.scanFrom_separator hc, ih hgap, Text.byteLength_cons,
      Nat.add_assoc]

namespace Cutting

variable {ss : List Segment} {last cs : List Char}

/-- The scanner finds the lexemes of a text, also if more follows that does not continue a word. -/
theorem scanFrom_append (h : Cutting ss last cs) {ds : List Char} (hd : Delimited ds)
    (start : Nat) :
    scanFrom start (cs ++ ds) =
      (Segment.tokensFrom start ss ++ ·) <$> scanFrom (start + Text.byteLength cs) ds := by
  induction h generalizing start with
  | last hg => rw [scanFrom_gap hg]; exact (id_map _).symm
  | segment hg hc _ ih =>
    rw [List.append_assoc, scanFrom_gap hg, List.append_assoc, (hc.append hd).scanFrom_append, ih,
      Text.byteLength_append, Text.byteLength_append, ← Nat.add_assoc, ← Nat.add_assoc, ← comp_map]
    rfl

theorem scanFrom_eq (h : Cutting ss last cs) (start : Nat) :
    scanFrom start cs = .ok (Segment.tokensFrom start ss) := by
  have hs := h.scanFrom_append delimited_nil start
  rwa [List.append_nil, Token.scanFrom_nil, except_map_ok, List.append_nil] at hs

theorem separator (h : Cutting ss last cs) {c : Char} (hc : isSeparator c) :
    ∃ ss last, Cutting ss last (c :: cs) := by
  cases h with
  | last hg => exact ⟨[], _, .last (List.forall_mem_cons.2 ⟨hc, hg⟩)⟩
  | segment hg hcut h =>
    exact ⟨_, _, .segment (List.forall_mem_cons.2 ⟨hc, hg⟩) hcut h⟩

end Cutting

/-- Two texts that begin alike and are equally long in bytes are equal. -/
theorem append_inj_of_byteLength {as bs cs ds : List Char} (h : as ++ bs = cs ++ ds)
    (hl : Text.byteLength as = Text.byteLength cs) : as = cs ∧ bs = ds := by
  induction as generalizing cs with
  | nil =>
    cases cs with
    | nil => exact ⟨rfl, h⟩
    | cons c cs =>
      have := c.utf8Size_pos
      rw [Text.byteLength_nil, Text.byteLength_cons] at hl
      omega
  | cons a as ih =>
    cases cs with
    | nil =>
      have := a.utf8Size_pos
      rw [Text.byteLength_nil, Text.byteLength_cons] at hl
      omega
    | cons c cs =>
      rw [List.cons_append, List.cons_append, List.cons.injEq] at h
      obtain ⟨rfl, htail⟩ := h
      obtain ⟨rfl, rfl⟩ := ih htail (Nat.add_left_cancel hl)
      exact ⟨rfl, rfl⟩

/-- Segments can be told from their tokens and the text that they are made from. -/
theorem Segment.eq_of_tokensFrom {ss ts : List Segment} {last last' : List Char} {start : Nat}
    (h : tokensFrom start ss = tokensFrom start ts)
    (ht : textAll ss ++ last = textAll ts ++ last') :
    ss = ts ∧ last = last' := by
  induction ss generalizing ts start with
  | nil =>
    cases ts with
    | nil => exact ⟨rfl, ht⟩
    | cons t ts => cases h
  | cons s ss ih =>
    cases ts with
    | nil => cases h
    | cons t ts =>
      obtain ⟨gap, lexeme, kind⟩ := s
      obtain ⟨gap', lexeme', kind'⟩ := t
      obtain ⟨htoken, htail⟩ := List.cons.inj h
      obtain ⟨rfl, hlexeme, hspan⟩ := Token.mk.inj htoken
      obtain rfl := String.ofList_injective hlexeme
      have htext : gap ++ (lexeme ++ (textAll ss ++ last)) =
          gap' ++ (lexeme ++ (textAll ts ++ last')) := by
        simpa [textAll, text] using ht
      have hgap := Nat.add_left_cancel (Span.mk.inj hspan).1
      obtain ⟨rfl, hrest⟩ := append_inj_of_byteLength htext hgap
      obtain ⟨rfl, rfl⟩ := ih htail (List.append_cancel_left hrest)
      exact ⟨rfl, rfl⟩

/-- A text is cut in one way only. -/
theorem Cutting.unique {ss ts : List Segment} {last last' cs : List Char} (h : Cutting ss last cs)
    (k : Cutting ts last' cs) : ss = ts ∧ last = last' :=
  Segment.eq_of_tokensFrom (Except.ok.inj ((h.scanFrom_eq 0).symm.trans (k.scanFrom_eq 0)))
    (h.text_eq.trans k.text_eq.symm)

/-- Every text can be cut, as a whole or up to a quote that is never closed. -/
theorem exists_cutting (cs : List Char) :
    (∃ ss last, Cutting ss last cs) ∨
      ∃ before body rest, cs = before ++ '"' :: (body ++ rest) ∧ StringBody body ∧ Blocked rest ∧
        ∃ ss last, Cutting ss last before := by
  induction cs using Token.scan_induction with
  | nil => exact .inl ⟨[], [], .last fun c hc => absurd hc List.not_mem_nil⟩
  | separator c cs hc ih =>
    rcases ih with ⟨ss, last, h⟩ | ⟨before, body, rest, rfl, hb, hr, ss, last, h⟩
    · exact .inl (h.separator hc)
    · exact .inr ⟨c :: before, body, rest, rfl, hb, hr, h.separator hc⟩
  | token text kind rest hcut ih =>
    have nogap : ∀ c ∈ ([] : List Char), isSeparator c := fun c hc => absurd hc List.not_mem_nil
    rcases ih with ⟨ss, last, h⟩ | ⟨before, body, rest, rfl, hb, hr, ss, last, h⟩
    · exact .inl ⟨_, _, .segment nogap hcut h⟩
    · obtain ⟨hlex, hdel⟩ := cut_iff_lexeme.1 hcut
      refine .inr ⟨text ++ before, body, rest, (List.append_assoc ..).symm, hb, hr, _, _,
        .segment nogap (cut_iff_lexeme.2 ⟨hlex, fun hw => ?_⟩) h⟩
      cases before with
      | nil => exact delimited_nil
      | cons c before => exact delimited_cons.2 (delimited_cons.1 (hdel hw))
  | unterminated cs body hu =>
    obtain ⟨body', rest, hb, rfl, ⟨ds, rfl⟩ | hr⟩ := StringRest.exists_stringBody cs
    · rw [StringRest.split_closed hb] at hu
      cases hu
    · have hgap : ∀ c ∈ ([] : List Char), isSeparator c := fun c hc => absurd hc List.not_mem_nil
      exact .inr ⟨[], body', rest, rfl, hb, hr, [], [], .last hgap⟩

/-- At a quote that is never closed the scanner stops and blames the string up
to where it can be read. -/
theorem StuckAfter.scanFrom_eq {cs before body : List Char} (h : StuckAfter cs before body)
    (start : Nat) :
    scanFrom start cs = .error ⟨start + Text.byteLength before,
      start + Text.byteLength (before ++ '"' :: body)⟩ := by
  obtain ⟨⟨g, hg⟩, hb, rest, hr, rfl⟩ := h
  have hd : Delimited ('"' :: (body ++ rest)) := delimited_cons.2 rfl
  rw [(Segmentation.cuts_iff_cutting.1 hg).scanFrom_append hd,
    Token.scanFrom_unterminated (StringRest.split_unterminated hb hr), except_map_error,
    Text.byteLength_append, Nat.add_assoc]

/-! ### The longest match -/

theorem pattern_singleton (c : Char) : Pattern [c] := by
  have single {P : Char → Prop} (h : P c) : ∀ d ∈ [c], P d :=
    fun d hd => List.mem_singleton.1 hd ▸ h
  by_cases hs : isSeparator c
  · exact .gap (List.cons_ne_nil c []) (single hs)
  cases hb : TokenKind.ofBracket? c with
  | some kind => exact .lexeme (.bracket hb)
  | none =>
    by_cases hq : c = '"'
    · exact hq ▸ .unclosed .nil
    · have hw : isWordChar c := by simp [isWordChar, hs, hb, hq]
      exact .lexeme (.word (List.cons_ne_nil c []) (single hw))

namespace Pattern

variable {c : Char} {cs : List Char}

theorem eq_nil_of_ofBracket? {kind : TokenKind} (hb : TokenKind.ofBracket? c = some kind)
    (h : Pattern (c :: cs)) : cs = [] := by
  have hq : c ≠ '"' := by
    rintro rfl
    cases hb
  cases h with
  | gap _ h =>
    have hs := h c List.mem_cons_self
    rw [isSeparator_of_ofBracket? hb] at hs
    cases hs
  | lexeme h =>
    generalize hcs : c :: cs = text at h
    cases h with
    | bracket => exact (List.cons.inj hcs).2
    | string => exact absurd (List.cons.inj hcs).1 hq
    | word _ hw =>
      have hc := hw c (hcs ▸ List.mem_cons_self)
      rw [isWordChar_of_ofBracket? hb] at hc
      cases hc
  | unclosed => exact absurd rfl hq

theorem forall_isWordChar (hc : isWordChar c) (h : Pattern (c :: cs)) :
    ∀ d ∈ c :: cs, isWordChar d := by
  have hq : c ≠ '"' := by
    rintro rfl
    cases hc
  cases h with
  | gap _ h =>
    rw [isWordChar_of_isSeparator (h c List.mem_cons_self)] at hc
    cases hc
  | lexeme h =>
    generalize hcs : c :: cs = text at h
    cases h with
    | bracket hb =>
      rw [(List.cons.inj hcs).1, isWordChar_of_ofBracket? hb] at hc
      cases hc
    | string => exact absurd (List.cons.inj hcs).1 hq
    | word _ hw => exact hw
  | unclosed => exact absurd rfl hq

theorem of_quote (h : Pattern ('"' :: cs)) :
    StringBody cs ∨ ∃ body, StringBody body ∧ cs = body ++ ['"'] := by
  generalize hcs : '"' :: cs = text at h
  cases h with
  | gap _ h => exact nomatch h '"' (hcs ▸ List.mem_cons_self)
  | lexeme h =>
    cases h with
    | bracket hb =>
      obtain ⟨rfl, -⟩ := List.cons.inj hcs
      cases hb
    | string hb => exact .inr ⟨_, hb, (List.cons.inj hcs).2⟩
    | word _ hw => exact nomatch hw '"' (hcs ▸ List.mem_cons_self)
  | unclosed hb => exact .inl ((List.cons.inj hcs).2 ▸ hb)

end Pattern

/-- The scanner reads at least as much of a string as any pattern allows. -/
theorem Pattern.length_le_read {cs : List Char} (h : Pattern ('"' :: cs)) (ds : List Char) :
    cs.length ≤ (StringRest.split (cs ++ ds)).read.length := by
  rcases h.of_quote with hb | ⟨body, hb, rfl⟩
  · rw [StringRest.split_append hb, StringRest.read_push, List.length_append]
    exact Nat.le_add_right ..
  · rw [List.append_assoc, List.singleton_append, StringRest.split_closed hb]
    exact Nat.le_refl _

theorem longest_of_split {body rest : List Char}
    (h : (StringRest.split (body ++ rest)).read = body) :
    Longest ('"' :: body) rest := by
  intro p hp hpre
  cases p with
  | nil => exact Nat.zero_le _
  | cons d p =>
    obtain ⟨ds, hds⟩ := hpre
    rw [List.cons_append, List.cons_append, List.cons.injEq] at hds
    obtain ⟨rfl, hds⟩ := hds
    have hle := hp.length_le_read ds
    rw [hds, h] at hle
    exact Nat.succ_le_succ hle

theorem longest_of_forall_isWordChar {cs rest : List Char} (hne : cs ≠ [])
    (hw : ∀ c ∈ cs, isWordChar c) (hr : Delimited rest) : Longest cs rest := by
  intro p hp ⟨ds, hds⟩
  rcases List.append_eq_append_iff.1 hds with ⟨as, rfl, -⟩ | ⟨as, rfl, rfl⟩
  · rw [List.length_append]
    exact Nat.le_add_right ..
  · obtain ⟨c, cs, rfl⟩ := List.exists_cons_of_ne_nil hne
    cases as with
    | nil => exact Nat.le_of_eq (congrArg List.length (List.append_nil _))
    | cons a as =>
      have ha := hp.forall_isWordChar (hw c List.mem_cons_self) a
        (List.mem_append_right (c :: cs) List.mem_cons_self)
      rw [delimited_cons.1 hr] at ha
      cases ha

theorem Token.Cut.longest {cs rest : List Char} {kind : TokenKind} (h : Cut cs kind rest) :
    Longest cs rest := by
  cases h with
  | @bracket c _ hb =>
    intro p hp ⟨ds, hds⟩
    cases p with
    | nil => exact Nat.zero_le _
    | cons d p =>
      obtain rfl : d = c := (List.cons.inj hds).1
      obtain rfl := hp.eq_nil_of_ofBracket? hb
      exact Nat.le_refl 1
  | string hs => exact longest_of_split (congrArg StringRest.read (hs rest))
  | word hne hw hr => exact longest_of_forall_isWordChar hne hw hr

/-! ### Maximal munch -/

/-- Every text is cut, or stuck at a quote. -/
theorem exists_cuts_or_stuck (cs : List Char) :
    (∃ g : Segmentation, g.Cuts cs) ∨ ∃ before body, StuckAfter cs before body := by
  rcases exists_cutting cs with ⟨ss, last, h⟩ | ⟨before, body, rest, rfl, hb, hr, ss, last, h⟩
  · exact .inl ⟨⟨ss, last⟩, Segmentation.cuts_iff_cutting.2 h⟩
  · exact .inr ⟨before, body, ⟨⟨ss, last⟩, Segmentation.cuts_iff_cutting.2 h⟩, hb, rest, hr, rfl⟩

theorem Segmentation.Cuts.tokenize_eq {g : Segmentation} {source : String}
    (h : g.Cuts source.toList) : tokenize source = .ok g.tokens :=
  (cuts_iff_cutting.1 h).scanFrom_eq 0

theorem StuckAfter.tokenize_eq {source : String} {before body : List Char}
    (h : StuckAfter source.toList before body) :
    tokenize source =
      .error ⟨Text.byteLength before, Text.byteLength (before ++ '"' :: body)⟩ := by
  rw [tokenize, h.scanFrom_eq, Nat.zero_add, Nat.zero_add]

/-- The scanner cuts a text into gaps and lexemes. There is at most one such cut
of a text, its lexemes are the tokens, and each is the longest text that any
pattern allows at its place. A text that cannot be cut is cut up to a quote from
which no closing quote can be reached; the error blames what can be read of the
string, which is then the longest text that any pattern allows. There is no
character for which there is no pattern. -/
theorem tokenize_maximal_munch (source : String) :
    (∀ ts, tokenize source = .ok ts ↔ ∃ g : Segmentation, g.Cuts source.toList ∧ g.tokens = ts) ∧
    (∀ g h : Segmentation, g.Cuts source.toList → h.Cuts source.toList → g = h) ∧
    (∀ (g : Segmentation) before s after, g.Cuts source.toList →
      g.segments = before ++ s :: after → Longest s.lexeme (Segment.textAll after ++ g.last)) ∧
    (∀ e, tokenize source = .error e ↔ ∃ before body, StuckAfter source.toList before body ∧
      e.span = ⟨Text.byteLength before, Text.byteLength (before ++ '"' :: body)⟩) ∧
    (∀ before body rest, StuckAfter source.toList before body →
      source.toList = before ++ '"' :: (body ++ rest) → Longest ('"' :: body) rest) ∧
    ∀ c ∈ source.toList, Pattern [c] := by
  refine ⟨fun ts => ⟨fun h => ?_, ?_⟩, fun g h hg hh => ?_, fun g before s after hg hs => ?_,
    fun e => ⟨fun h => ?_, ?_⟩, fun before body rest h htext => ?_, fun c _ => pattern_singleton c⟩
  · rcases exists_cuts_or_stuck source.toList with ⟨g, hg⟩ | ⟨before, body, hstuck⟩
    · exact ⟨g, hg, Except.ok.inj (hg.tokenize_eq.symm.trans h)⟩
    · cases hstuck.tokenize_eq.symm.trans h
  · rintro ⟨g, hg, rfl⟩
    exact hg.tokenize_eq
  · obtain ⟨hss, hlast⟩ := (Segmentation.cuts_iff_cutting.1 hg).unique
      (Segmentation.cuts_iff_cutting.1 hh)
    cases g
    cases h
    cases hss
    cases hlast
    rfl
  · exact ((Segmentation.cuts_iff_cutting.1 hg).cut hs).longest
  · rcases exists_cuts_or_stuck source.toList with ⟨g, hg⟩ | ⟨before, body, hstuck⟩
    · cases hg.tokenize_eq.symm.trans h
    · cases hstuck.tokenize_eq.symm.trans h
      exact ⟨before, body, hstuck, rfl⟩
  · rintro ⟨before, body, hstuck, hspan⟩
    rw [hstuck.tokenize_eq, ← hspan]
  · obtain ⟨-, hb, rest', hr, htext'⟩ := h
    obtain rfl : rest = rest' := by simpa using htext.symm.trans htext'
    exact longest_of_split (congrArg StringRest.read (StringRest.split_unterminated hb hr))

/-- A backslash before a line feed pairs with nothing, so the string stops before it. -/
example : tokenize "a \"b\\\n\"" = .error ⟨2, 4⟩ := by cbv

end SmallLisp
