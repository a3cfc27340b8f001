import SmallLisp.Proofs.Constructs

/-! Stretches of a text from one token to another. Cutting a text before a token
or after one does not change how the pieces are cut into tokens, so the tokens
from one to another are those of the stretch between them. Tokens stand in the
order of their list, with nothing but separators between neighbours. -/

namespace SmallLisp

theorem Text.byteLength_pos {cs : List Char} (h : cs ≠ []) : 0 < byteLength cs := by
  obtain ⟨c, cs, rfl⟩ := List.exists_cons_of_ne_nil h
  exact Nat.add_pos_left c.utf8Size_pos _

/-! ### What a span marks -/

/-- The stretch of the text at the span is `part`. -/
def Span.Covers (p : Span) (cs part : List Char) : Prop :=
  ∃ before after, cs = before ++ (part ++ after) ∧
    p = ⟨Text.byteLength before, Text.byteLength before + Text.byteLength part⟩

namespace Span.Covers

variable {p : Span} {cs part part' : List Char}

theorem fits (h : p.Covers cs part) : p.Fits cs := by
  obtain ⟨before, after, rfl, rfl⟩ := h
  exact Span.fits_between before part after

theorem unique (h : p.Covers cs part) (h' : p.Covers cs part') : part = part' := by
  obtain ⟨before, after, rfl, rfl⟩ := h
  obtain ⟨before', after', heq, hp⟩ := h'
  obtain ⟨hstart, hstop⟩ := Span.mk.inj hp
  obtain ⟨rfl, hrest⟩ := append_inj_of_byteLength heq hstart
  exact (append_inj_of_byteLength hrest (Nat.add_left_cancel hstop)).1

end Span.Covers

namespace Token

/-! ### Cutting a text at a token -/

theorem Cut.of_append {cs rest ds : List Char} {kind : TokenKind} (h : Cut cs kind (rest ++ ds)) :
    Cut cs kind rest := by
  cases h with
  | bracket hb => exact .bracket hb rest
  | string hs => exact .string hs rest
  | word hne hw hr =>
    refine .word hne hw ?_
    cases rest with
    | nil => exact delimited_nil
    | cons c rest => exact delimited_cons.2 (delimited_cons.1 hr)

theorem Cut.scanFrom_eq_ok {cs rest : List Char} {kind : TokenKind} (hc : Cut cs kind rest)
    {start : Nat} {ts : List Token} :
    scanFrom start (cs ++ rest) = .ok ts ↔
      ∃ us, scanFrom (start + Text.byteLength cs) rest = .ok us ∧
        startingAt start kind cs :: us = ts := by
  rw [hc.scanFrom_append, map_eq_ok]

/-- The text with the tokens `us`, `t` and `vs` falls into what stands before `t`,
the text of `t` and what follows it. -/
structure Splits (start : Nat) (cs : List Char) (us : List Token) (t : Token) (vs : List Token)
    (before after : List Char) : Prop where
  text_eq : cs = before ++ (t.text.toList ++ after)
  span_eq : t.span = ⟨start + Text.byteLength before,
    start + Text.byteLength before + Text.byteLength t.text.toList⟩
  scan_before : scanFrom start before = .ok us
  scan_through : scanFrom start (before ++ t.text.toList) = .ok (us ++ [t])
  scan_from : scanFrom (start + Text.byteLength before) (t.text.toList ++ after) = .ok (t :: vs)
  scan_after : scanFrom (start + Text.byteLength before + Text.byteLength t.text.toList) after =
    .ok vs

theorem exists_splits {start : Nat} {cs : List Char} {us vs : List Token} {t : Token}
    (h : scanFrom start cs = .ok (us ++ t :: vs)) :
    ∃ before after, Splits start cs us t vs before after := by
  induction cs using scan_induction generalizing start us with
  | nil =>
    rw [scanFrom_nil, Except.ok.injEq] at h
    cases us <;> cases h
  | separator c cs hc ih =>
    rw [scanFrom_separator hc] at h
    obtain ⟨before, after, hs⟩ := ih h
    refine ⟨c :: before, after, congrArg (c :: ·) hs.text_eq, ?_, ?_, ?_, ?_, ?_⟩
    · rw [hs.span_eq, Text.byteLength_cons, Nat.add_assoc start]
    · rw [scanFrom_separator hc, hs.scan_before]
    · rw [List.cons_append, scanFrom_separator hc, hs.scan_through]
    · rw [Text.byteLength_cons, ← Nat.add_assoc, hs.scan_from]
    · rw [Text.byteLength_cons, ← Nat.add_assoc, hs.scan_after]
  | token text kind rest hcut ih =>
    obtain ⟨ws, hws, heq⟩ := hcut.scanFrom_eq_ok.1 h
    cases us with
    | nil =>
      obtain ⟨rfl, rfl⟩ := List.cons.inj heq
      have htext : (startingAt start kind text).text.toList = text := String.toList_ofList
      refine ⟨[], rest, ?_, ?_, scanFrom_nil start, ?_, ?_, ?_⟩
      · rw [htext, List.nil_append]
      · rw [htext]
        rfl
      · rw [htext]
        exact scanFrom_of_cut hcut.alone start
      · rw [htext]
        exact h
      · rw [htext]
        exact hws
    | cons u us =>
      obtain ⟨rfl, rfl⟩ := List.cons.inj heq
      obtain ⟨before, after, hs⟩ := ih hws
      rw [hs.text_eq] at hcut
      refine ⟨text ++ before, after, ?_, ?_, ?_, ?_, ?_, ?_⟩
      · rw [hs.text_eq, List.append_assoc]
      · rw [hs.span_eq, Text.byteLength_append, Nat.add_assoc start]
      · exact hcut.of_append.scanFrom_eq_ok.2 ⟨us, hs.scan_before, rfl⟩
      · rw [← List.append_assoc] at hcut
        rw [List.append_assoc]
        exact hcut.of_append.scanFrom_eq_ok.2 ⟨_, hs.scan_through, rfl⟩
      · rw [Text.byteLength_append, ← Nat.add_assoc, hs.scan_from]
      · rw [Text.byteLength_append, ← Nat.add_assoc, hs.scan_after]
  | unterminated cs body hu =>
    rw [scanFrom_unterminated hu] at h
    cases h

section Order

variable {start : Nat} {cs : List Char} {ts : List Token} {t : Token}

theorem bounds_of_scanFrom (h : scanFrom start cs = .ok ts) (ht : t ∈ ts) :
    start ≤ t.span.start ∧ t.span.stop ≤ start + Text.byteLength cs := by
  obtain ⟨us, vs, rfl⟩ := List.append_of_mem ht
  obtain ⟨before, after, hs⟩ := exists_splits h
  rw [hs.span_eq, hs.text_eq, Text.byteLength_append, Text.byteLength_append]
  constructor <;> dsimp only <;> omega

/-- Every token ends before the next ones start. -/
theorem pairwise_of_scanFrom (h : scanFrom start cs = .ok ts) :
    ts.Pairwise fun t u => t.span.stop ≤ u.span.start := by
  induction cs using scan_induction generalizing start ts with
  | nil =>
    rw [scanFrom_nil] at h
    cases h
    exact .nil
  | separator c cs hc ih =>
    rw [scanFrom_separator hc] at h
    exact ih h
  | token text kind rest hcut ih =>
    obtain ⟨us, hu, rfl⟩ := hcut.scanFrom_eq_ok.1 h
    exact .cons (fun u hmem => (bounds_of_scanFrom hu hmem).1) (ih hu)
  | unterminated cs body hu =>
    rw [scanFrom_unterminated hu] at h
    cases h

end Order

/-! ### From one token to another -/

/-- The tokens from `t` to `u` are those of the stretch of text that begins with the
one and ends with the other. -/
theorem exists_slice {start : Nat} {cs : List Char} {us ts ws : List Token} {t u : Token}
    (h : scanFrom start cs = .ok (us ++ (ts ++ ws))) (ht : ts.head? = some t)
    (hu : ts.getLast? = some u) :
    ∃ before part after, cs = before ++ (part ++ after) ∧
      scanFrom (start + Text.byteLength before) part = .ok ts ∧
      t.span.start = start + Text.byteLength before ∧
      u.span.stop = start + Text.byteLength before + Text.byteLength part := by
  obtain ⟨vs, rfl⟩ := List.head?_eq_some_iff.1 ht
  obtain ⟨before, after, hs⟩ := exists_splits h
  obtain ⟨vs', hvs⟩ := List.getLast?_eq_some_iff.1 hu
  have hrest : t :: (vs ++ ws) = vs' ++ u :: ws := by
    rw [← List.cons_append, hvs, List.append_assoc, List.singleton_append]
  obtain ⟨first, last, hl⟩ := exists_splits (hs.scan_from.trans (congrArg Except.ok hrest))
  refine ⟨before, first ++ u.text.toList, last, ?_, ?_, ?_, ?_⟩
  · rw [hs.text_eq, hl.text_eq, List.append_assoc]
  · rw [hvs]
    exact hl.scan_through
  · rw [hs.span_eq]
  · rw [hl.span_eq, Text.byteLength_append, ← Nat.add_assoc]

/-- A token stands at its span. -/
theorem covers_of_tokenize {source : String} {ts : List Token} {t : Token}
    (h : tokenize source = .ok ts) (ht : t ∈ ts) : t.span.Covers source.toList t.text.toList := by
  obtain ⟨us, vs, rfl⟩ := List.append_of_mem ht
  obtain ⟨before, after, hs⟩ := exists_splits h
  refine ⟨before, after, hs.text_eq, ?_⟩
  rw [hs.span_eq, Nat.zero_add]

/-- Neighbouring tokens stand with a gap between them at their spans taken together. -/
theorem covers_merge_of_tokenize {source : String} {us vs : List Token} {t u : Token}
    (h : tokenize source = .ok (us ++ t :: u :: vs)) :
    ∃ gap, (∀ c ∈ gap, isSeparator c) ∧
      (t.span.merge u.span).Covers source.toList (t.text.toList ++ (gap ++ u.text.toList)) := by
  obtain ⟨before, after, hs⟩ := exists_splits h
  obtain ⟨first, last, hu⟩ := @exists_splits _ _ [t] _ _ hs.scan_from
  obtain ⟨lead, gap, hg⟩ := @exists_splits _ _ [] _ _ hu.scan_before
  -- nothing stands before `t` in the stretch that begins with it
  obtain rfl : lead = [] := by
    refine Classical.byContradiction fun hne => ?_
    have := Text.byteLength_pos hne
    have := (Span.mk.inj (hs.span_eq.symm.trans hg.span_eq)).1
    omega
  refine ⟨gap, isSeparator_of_scanFrom hg.scan_after, before, last, ?_, ?_⟩
  · rw [hs.text_eq, hu.text_eq, hg.text_eq]
    simp
  · rw [hs.span_eq, hu.span_eq, hg.text_eq]
    simp only [Span.merge, List.nil_append, Text.byteLength_append, Nat.zero_add, Span.mk.injEq]
    omega

end Token

end SmallLisp
