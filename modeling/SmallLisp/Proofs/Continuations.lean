import SmallLisp.Proofs.Beginnings

/-! What can still become of a text, by the verdict on it. A text that wants more
can always be completed: close the string, if one is open, and then the brackets
from the inside out. A text that is past help stays so whatever follows it, and
has been so from the bracket on that the complaint names. -/

namespace SmallLisp.Prompt

/-- What closes all that has been left open. -/
def Scanner.completion (s : Scanner) : List Char :=
  let brackets := s.stack.map fun o => o.bracket.closing
  match s.mode with
  | .code => brackets
  | .string => '"' :: brackets
  | .escape => '"' :: '"' :: brackets

namespace Verdict

/-- Some bracket closes what is not open. -/
def IsInvalid (v : Verdict) : Prop := ∃ c place, v = invalid c place

theorem not_isInvalid_valid : ¬IsInvalid valid := nofun

theorem not_isInvalid_incomplete : ¬IsInvalid incomplete := nofun

theorem message?_invalid (c : Char) (place : Nat) : (invalid c place).message? =
    some ("  - Unmatched '" ++ String.singleton c ++ "' at position " ++ toString place) := by
  have hlead : "  - Unmatched '" = "  - " ++ "Unmatched '" := rfl
  simp only [message?, complaint?, Option.map_some, hlead, String.append_assoc]

/-! ### Completing a text -/

theorem after_brackets (stack : List Opened) (offset : Nat) :
    after ⟨.code, stack⟩ offset (stack.map fun o => o.bracket.closing) = valid := by
  induction stack generalizing offset with
  | nil => rfl
  | cons o stack ih =>
    rw [List.map_cons, after_closing]
    exact ih _

theorem after_completion (s : Scanner) (offset : Nat) : after s offset s.completion = valid := by
  obtain ⟨mode, stack⟩ := s
  cases mode with
  | code => exact after_brackets stack offset
  | string => exact (after_closingQuote _).trans (after_brackets stack _)
  | escape =>
    -- the first quote is taken by the backslash before it
    exact (after_cons rfl _).trans ((after_closingQuote _).trans (after_brackets stack _))

/-! ### Texts that go on -/

variable {cs : List Char}

theorem ofChars_append (cs : List Char) :
    (∃ c place, ∀ ds, ofChars (cs ++ ds) = invalid c place) ∨
    ∃ s : Scanner, ∀ ds, ofChars (cs ++ ds) = after s (Text.byteLength cs) ds := by
  rcases after_append .start 0 cs with h | ⟨s, hs⟩
  · exact .inl h
  · rw [Nat.zero_add] at hs
    exact .inr ⟨s, hs⟩

/-- What follows a text that is past help makes no difference. -/
theorem IsInvalid.append (h : (ofChars cs).IsInvalid) (ds : List Char) :
    ofChars (cs ++ ds) = ofChars cs := by
  rcases ofChars_append cs with ⟨c, place, hall⟩ | ⟨s, hs⟩
  · have hcs := hall []
    rw [List.append_nil] at hcs
    rw [hall ds, hcs]
  · have hcs := hs []
    rw [List.append_nil, after] at hcs
    rw [hcs] at h
    split at h
    · exact absurd h not_isInvalid_valid
    · exact absurd h not_isInvalid_incomplete

theorem exists_valid_append (h : ¬(ofChars cs).IsInvalid) : ∃ ds, ofChars (cs ++ ds) = valid := by
  rcases ofChars_append cs with ⟨c, place, hall⟩ | ⟨s, hs⟩
  · refine absurd ⟨c, place, ?_⟩ h
    rw [← hall [], List.append_nil]
  · exact ⟨s.completion, (hs _).trans (after_completion s _)⟩

theorem isInvalid_iff : (ofChars cs).IsInvalid ↔ ∀ ds, ofChars (cs ++ ds) ≠ valid := by
  constructor
  · intro h ds hv
    rw [h.append ds] at hv
    exact not_isInvalid_valid (hv ▸ h)
  · intro h
    by_contra hi
    obtain ⟨ds, hds⟩ := exists_valid_append hi
    exact h ds hds

theorem eq_incomplete_iff :
    ofChars cs = incomplete ↔ ofChars cs ≠ valid ∧ ∃ ds, ofChars (cs ++ ds) = valid := by
  constructor
  · intro h
    exact ⟨by rw [h]; exact nofun, exists_valid_append (h ▸ not_isInvalid_incomplete)⟩
  · rintro ⟨hv, ds, hds⟩
    cases h : ofChars cs with
    | valid => exact absurd h hv
    | incomplete => rfl
    | invalid c place => exact absurd hds (isInvalid_iff.1 ⟨c, place, h⟩ ds)

/-! ### The bracket that the complaint names -/

/-- The text is past help from the bracket at the named place on, and not before. -/
theorem exists_offending {s : Scanner} {offset : Nat} {c : Char} {place : Nat}
    (h : after s offset cs = invalid c place) :
    ∃ before rest, cs = before ++ c :: rest ∧ place = offset + Text.byteLength before ∧
      ¬(after s offset before).IsInvalid ∧ after s offset (before ++ [c]) = invalid c place := by
  induction cs generalizing s offset with
  | nil =>
    rw [after] at h
    split at h <;> cases h
  | cons d cs ih =>
    by_cases hm : (s.step offset d).1.isMismatch
    · have hd (ds : List Char) : after s offset (d :: ds) = invalid d offset := by
        simp [after, hm]
      obtain ⟨rfl, rfl⟩ := Verdict.invalid.inj ((hd cs).symm.trans h)
      refine ⟨[], cs, rfl, rfl, ?_, hd []⟩
      rw [after]
      split
      · exact not_isInvalid_valid
      · exact not_isInvalid_incomplete
    · have hd := after_cons (Bool.eq_false_iff.2 hm)
      rw [hd] at h
      obtain ⟨before, rest, rfl, hplace, hbefore, hthrough⟩ := ih h
      refine ⟨d :: before, rest, rfl, ?_, ?_, ?_⟩
      · rw [hplace, Text.byteLength_cons, Nat.add_assoc]
      · rw [hd]
        exact hbefore
      · rw [List.cons_append, hd]
        exact hthrough

/-- The beginnings of a text that are past help are those that contain the bracket
which the complaint names. -/
theorem exists_shortest {c : Char} {place : Nat} (h : ofChars cs = invalid c place) :
    ∃ before rest, cs = before ++ c :: rest ∧ place = Text.byteLength before ∧
      ∀ p, p <+: cs → ((ofChars p).IsInvalid ↔ before ++ [c] <+: p) := by
  obtain ⟨before, rest, rfl, hplace, hbefore, hthrough⟩ := exists_offending h
  refine ⟨before, rest, rfl, hplace.trans (Nat.zero_add _), fun p hp => ⟨fun hi => ?_, ?_⟩⟩
  · have hwhole : before ++ [c] <+: before ++ c :: rest := ⟨rest, by simp⟩
    rcases List.prefix_or_prefix_of_prefix hp hwhole with hshort | hlong
    · -- a shorter beginning would make `before` invalid as well
      rcases List.prefix_concat_iff.1 hshort with rfl | ⟨ds, rfl⟩
      · exact List.prefix_rfl
      · refine absurd ?_ hbefore
        show (ofChars (p ++ ds)).IsInvalid
        rw [hi.append ds]
        exact hi
    · exact hlong
  · rintro ⟨ds, rfl⟩
    have hi : (ofChars (before ++ [c])).IsInvalid := ⟨c, place, hthrough⟩
    rw [hi.append ds]
    exact hi

/-! ### What the three answers mean -/

/-- A text is invalid exactly if nothing that follows it makes it valid, and
incomplete exactly if it is not valid but something that follows it makes it so.
The message about an invalid text names the last character of its shortest
beginning that is invalid, and the byte at which this character stands. -/
theorem of_decides_continuations (text : String) :
    ((of text).IsInvalid ↔ ∀ more, of (text ++ more) ≠ valid) ∧
    (of text = incomplete ↔ of text ≠ valid ∧ ∃ more, of (text ++ more) = valid) ∧
    ((of text).IsInvalid ↔ ∃ before c rest, text.toList = before ++ c :: rest ∧
      (of text).message? = some ("  - Unmatched '" ++ String.singleton c ++ "' at position " ++
        toString (Text.byteLength before)) ∧
      ∀ p, p <+: text.toList → ((ofChars p).IsInvalid ↔ before ++ [c] <+: p)) := by
  have hmore : (∃ more, of (text ++ more) = valid) ↔
      ∃ ds, ofChars (text.toList ++ ds) = valid := by
    simp only [of, String.toList_append]
    constructor
    · rintro ⟨more, h⟩
      exact ⟨more.toList, h⟩
    · rintro ⟨ds, h⟩
      refine ⟨String.ofList ds, ?_⟩
      rwa [String.toList_ofList]
  refine ⟨?_, ?_, ?_⟩
  · simp only [ne_eq, ← not_exists, hmore]
    rw [of, isInvalid_iff, ← not_exists]
  · rw [hmore]
    exact eq_incomplete_iff
  · constructor
    · rintro ⟨c, place, h⟩
      obtain ⟨before, rest, htext, rfl, hp⟩ := exists_shortest h
      exact ⟨before, c, rest, htext, h ▸ message?_invalid .., hp⟩
    · rintro ⟨before, c, rest, htext, -, hp⟩
      refine (hp _ List.prefix_rfl).2 ⟨rest, ?_⟩
      rw [htext, List.append_assoc, List.singleton_append]

end Verdict

end SmallLisp.Prompt
