import SmallLisp.Proofs.Grammar.Blame
import SmallLisp.Proofs.Verdicts

/-! What can still be wrong with a text that the prompt hands over. Outside of
strings the prompt and the scanner see the same brackets, so that no bracket is
to blame for what the parser finds. In a string they differ about a backslash
before a line feed: the prompt lets it take the line feed with it, and the
scanner can read no further. There, and nowhere else, a text is handed over that
cannot be cut into tokens. -/

namespace SmallLisp.Prompt.Verdict

/-- Separators change nothing while no string is open. -/
theorem after_gap {gap : List Char} (h : ∀ c ∈ gap, isSeparator c) (stack : List Opened)
    (offset : Nat) (cs : List Char) :
    after ⟨.code, stack⟩ offset (gap ++ cs) =
      after ⟨.code, stack⟩ (offset + Text.byteLength gap) cs :=
  after_plainText (fun c hc => .of_pred (h c hc) rfl) offset cs

/-- After a text that is cut into tokens the prompt is outside of strings, unless
it has given up. -/
theorem after_cutting {ss : List Segment} {last cs : List Char} (h : Cutting ss last cs)
    (stack : List Opened) (offset : Nat) (ds : List Char) :
    (∃ stack', after ⟨.code, stack⟩ offset (cs ++ ds) =
      after ⟨.code, stack'⟩ (offset + Text.byteLength cs) ds) ∨
    ∃ c place, after ⟨.code, stack⟩ offset (cs ++ ds) = .invalid c place := by
  induction h generalizing stack offset with
  | last hg => exact .inl ⟨stack, after_gap hg stack offset ds⟩
  | segment hg hc _ ih =>
    rw [List.append_assoc, after_gap hg, List.append_assoc, Text.byteLength_append,
      Text.byteLength_append, ← Nat.add_assoc, ← Nat.add_assoc]
    obtain ⟨stack', -, ha⟩ | ⟨-, c, ha⟩ := after_lexeme (cut_iff_lexeme.1 hc).1 _ stack _
    · rw [ha]
      exact ih stack' _
    · exact .inr ⟨c, _, ha⟩

/-- A text with an open string is handed over only if a backslash stands before a
line feed where the string can be read no further. -/
theorem blocked_of_eq_valid {cs before body rest : List Char}
    (hcut : ∃ g : Segmentation, g.Cuts before) (hb : StringBody body) (hr : Blocked rest)
    (htext : cs = before ++ '"' :: (body ++ rest)) (h : ofChars cs = .valid) :
    ∃ more, rest = '\\' :: '\n' :: more := by
  obtain ⟨g, hg⟩ := hcut
  rw [ofChars, htext] at h
  obtain ⟨stack, ha⟩ | ⟨c, place, ha⟩ := after_cutting (Segmentation.cuts_iff_cutting.1 hg) []
    0 ('"' :: (body ++ rest))
  · rw [Scanner.start, ha, after_quote, after_stringBody hb] at h
    cases hr with
    | atEnd | backslash => cases h
    | lineFeed more => exact ⟨more, rfl⟩
  · rw [Scanner.start, ha] at h
    cases h

/-- What is handed over is not cut into tokens exactly if some string in it has a
backslash before a line feed, which the error then ends at. If it is cut, then
whatever the parser finds wrong with it is not that a bracket is not closed or
that there is a closing one. -/
theorem wrong_of_eq_valid {source : String} (h : of source = .valid) :
    (∀ e, tokenize source = .error e ↔ ∃ before body rest,
      source.toList = before ++ '"' :: (body ++ '\\' :: '\n' :: rest) ∧
      (∃ g : Segmentation, g.Cuts before) ∧ StringBody body ∧
      e.span = ⟨Text.byteLength before, Text.byteLength (before ++ '"' :: body)⟩) ∧
    ∀ ts e, tokenize source = .ok ts → parse ts = .error e → ¬e.BlamesBracket := by
  refine ⟨fun e => ⟨fun he => ?_, ?_⟩, fun ts e ht he => ?_⟩
  · rcases exists_cuts_or_stuck source.toList with ⟨g, hg⟩ | ⟨before, body, hstuck⟩
    · cases hg.tokenize_eq.symm.trans he
    · cases hstuck.tokenize_eq.symm.trans he
      obtain ⟨hcut, hb, rest, hr, htext⟩ := hstuck
      obtain ⟨more, rfl⟩ := blocked_of_eq_valid hcut hb hr htext h
      exact ⟨before, body, more, htext, hcut, hb, rfl⟩
  · rintro ⟨before, body, rest, htext, hcut, hb, hspan⟩
    have hstuck : StuckAfter source.toList before body :=
      ⟨hcut, hb, _, .lineFeed rest, htext⟩
    rw [hstuck.tokenize_eq, ← hspan]
  · exact (parse_arises he).not_blamesBracket ((of_eq_valid_iff_nested ht).1 h)

/-- In a let form without its binding list the word in its place is to blame. -/
theorem wrong_of_eq_valid_let :
    let source := "(let x)"
    of source = .valid ∧ ∃ ts e, tokenize source = .ok ts ∧ parse ts = .error e ∧
      ¬e.BlamesBracket := by
  intro source
  have hv : of source = .valid := by decide +kernel
  have hfails : (tokenize source).toOption.map (fun ts => (parse ts).toOption.isNone) =
      some true := by decide +kernel
  obtain ⟨ts, ht, hnone⟩ := Option.map_eq_some_iff.1 hfails
  have ht := eq_ok_of_toOption ht
  cases hp : parse ts with
  | error e => exact ⟨hv, ts, e, ht, hp, (wrong_of_eq_valid hv).2 ts e ht hp⟩
  | ok xs =>
    rw [hp] at hnone
    cases hnone

/-- The prompt hands over a string with a backslash at the end of a line, and the
scanner reports that it is not closed. -/
theorem not_tokenize_of_eq_valid :
    of "\"\\\n\"" = .valid ∧ tokenize "\"\\\n\"" = .error ⟨⟨0, 1⟩⟩ := by
  have hv : of "\"\\\n\"" = .valid := by decide +kernel
  exact ⟨hv, by with_unfolding_all rfl⟩

end SmallLisp.Prompt.Verdict
