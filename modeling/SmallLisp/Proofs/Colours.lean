import SmallLisp.Proofs.Painting
import SmallLisp.Proofs.Continuations

/-! What the colours of a line say. Red closing brackets are those that the verdict
on the line finds fault with, and the first one is the one that its message names. A
red opening bracket is the partner of a red closing one. Blue is at most one pair,
which matches and of which one bracket stands just before the cursor, and green is
what belongs to a string. -/

namespace SmallLisp.Prompt

/-! ### Strings -/

/-- What may stand behind an opening quote, through the closing quote. A backslash
takes the next character with it. -/
inductive Literal : List Char → Prop
  | quote : Literal ['"']
  | plain {c : Char} {cs : List Char} (hq : c ≠ '"') (hb : c ≠ '\\') (h : Literal cs) :
    Literal (c :: cs)
  | escaped {c : Char} {cs : List Char} (h : Literal cs) : Literal ('\\' :: c :: cs)

/-- A text that ends outside of strings: it is made of whole strings and of
characters that are no quotes. -/
inductive Outside : List Char → Prop
  | nil : Outside []
  | char {c : Char} {cs : List Char} (hc : c ≠ '"') (h : Outside cs) : Outside (c :: cs)
  | string {literal cs : List Char} (hl : Literal literal) (h : Outside cs) :
    Outside ('"' :: (literal ++ cs))

namespace Scanner

variable {stack : List Opened} {offset : Nat}

/-- A scanner in code stays there, unless it reads a quote. -/
theorem exists_step_code {c : Char} (hc : c ≠ '"') (stack : List Opened) (offset : Nat) :
    ∃ stack', (step ⟨.code, stack⟩ offset c).2 = ⟨.code, stack'⟩ := by
  rcases plain_or c with rfl | ⟨b, rfl⟩ | ⟨b, rfl⟩ | hc
  · exact absurd rfl hc
  · exact ⟨_, congrArg Prod.snd (step_opening ..)⟩
  · exact ⟨_, congrArg Prod.snd (step_closing ..)⟩
  · exact ⟨_, congrArg Prod.snd (step_plain _ _ hc)⟩

theorem read_literal {literal : List Char} (h : Literal literal) (stack : List Opened)
    (offset : Nat) (cs : List Char) :
    read ⟨.string, stack⟩ offset (literal ++ cs) =
      read ⟨.code, stack⟩ (offset + Text.byteLength literal) cs := by
  induction h generalizing offset with
  | quote => rfl
  | @plain c literal hq hb _ ih =>
    rw [List.cons_append, read, step_stringChar _ _ hq hb, ih, Text.byteLength_cons,
      Nat.add_assoc]
  | @escaped c literal _ ih =>
    rw [List.cons_append, List.cons_append, read, read, Text.byteLength_cons,
      Text.byteLength_cons, ← Nat.add_assoc, ← Nat.add_assoc]
    exact ih _

theorem mode_read_of_outside {cs : List Char} (h : Outside cs) (stack : List Opened)
    (offset : Nat) : (read ⟨.code, stack⟩ offset cs).mode = .code := by
  induction h generalizing stack offset with
  | nil => rfl
  | char hc _ ih =>
    obtain ⟨stack', hstep⟩ := exists_step_code hc stack offset
    rw [read, hstep]
    exact ih ..
  | string hl _ ih =>
    rw [read, step_quote, read_literal hl]
    exact ih ..

/-- What is read from a mode on, if nothing but code is left at the end. -/
def Ends : Mode → List Char → Prop
  | .code, cs => Outside cs
  | .string, cs => ∃ literal rest, Literal literal ∧ Outside rest ∧ cs = literal ++ rest
  | .escape, cs => ∃ c literal rest, Literal literal ∧ Outside rest ∧ cs = c :: (literal ++ rest)

theorem ends_of_mode_read {s : Scanner} {cs : List Char}
    (h : (s.read offset cs).mode = .code) : Ends s.mode cs := by
  induction cs generalizing s offset with
  | nil =>
    have hcode : s.mode = .code := h
    rw [hcode]
    exact .nil
  | cons c cs ih =>
    obtain ⟨mode, stack⟩ := s
    have hnext := ih h
    cases mode with
    | escape =>
      obtain ⟨literal, rest, hl, hr, rfl⟩ := hnext
      exact ⟨c, literal, rest, hl, hr, rfl⟩
    | string =>
      rw [step_string] at hnext
      by_cases hb : c = '\\'
      · subst hb
        obtain ⟨c, literal, rest, hl, hr, rfl⟩ := hnext
        exact ⟨'\\' :: c :: literal, rest, .escaped hl, hr, rfl⟩
      · rw [if_neg hb] at hnext
        by_cases hq : c = '"'
        · rw [if_pos hq] at hnext
          exact ⟨['"'], cs, .quote, hnext, by rw [hq]; rfl⟩
        · rw [if_neg hq] at hnext
          obtain ⟨literal, rest, hl, hr, rfl⟩ := hnext
          exact ⟨c :: literal, rest, .plain hq hb hl, hr, rfl⟩
    | code =>
      by_cases hq : c = '"'
      · subst hq
        obtain ⟨literal, rest, hl, hr, rfl⟩ := hnext
        exact .string hl hr
      · obtain ⟨stack', hstep⟩ := exists_step_code hq stack offset
        rw [hstep] at hnext
        exact .char hq hnext

/-- A scanner is in code when the text that it has read ends outside of strings. -/
theorem mode_read_start_eq_code_iff {cs : List Char} :
    (start.read 0 cs).mode = .code ↔ Outside cs :=
  ⟨ends_of_mode_read, fun h => mode_read_of_outside h [] 0⟩

/-- A character counts as part of a string if it is a quote, or if it stands behind
the opening quote of a string that has not been closed. -/
theorem step_eq_string_iff {s : Scanner} {c : Char} :
    (s.step offset c).1 = .string ↔ c = '"' ∨ s.mode ≠ .code := by
  obtain ⟨mode, stack⟩ := s
  cases mode with
  | escape | string => exact ⟨fun _ => .inr nofun, fun _ => rfl⟩
  | code =>
    rcases plain_or c with rfl | ⟨b, rfl⟩ | ⟨b, rfl⟩ | hc
    · exact ⟨fun _ => .inl rfl, fun _ => rfl⟩
    · rw [step_opening]
      cases b <;> simp [Bracket.opening]
    · rw [step_closing]
      cases b <;> simp [Bracket.closing]
    · rw [step_plain _ _ hc]
      simp [hc.ne_quote]

end Scanner

/-! ### Colours -/

def Mark.IsClosing (m : Mark) : Prop := ∃ b partner, m.role = .closing b partner

theorem Mark.partner?_eq_some_iff {m : Mark} {o : Opened} :
    m.partner? = some o ↔ ∃ b, m.role = .closing b (some o) := by
  cases h : m.role <;> simp [partner?, h]

theorem Mark.isClosing_of_partner? {m : Mark} {o : Opened} (h : m.partner? = some o) :
    m.IsClosing :=
  let ⟨b, hr⟩ := partner?_eq_some_iff.1 h
  ⟨b, some o, hr⟩

section Colour

variable {ms : List Mark} {cursor stop : Nat} {stack : List Opened} {m n : Mark} {o : Opened}

theorem colour?_of_isClosing (h : m.IsClosing) :
    colour? ms cursor m = closerColour? cursor m := by
  obtain ⟨b, partner, h⟩ := h
  rw [colour?, h]

theorem pairColour?_eq_red_iff {b : Bracket} {offset : Nat} :
    pairColour? cursor o b offset = some .red ↔ o.bracket ≠ b := by
  unfold pairColour?
  split
  · next h => exact ⟨fun _ => h, fun _ => rfl⟩
  · next h => split <;> simp [h]

theorem pairColour?_eq_blue_iff {b : Bracket} {offset : Nat} :
    pairColour? cursor o b offset = some .blue ↔
      o.bracket = b ∧ (o.offset + 1 = cursor ∨ offset + 1 = cursor) := by
  unfold pairColour?
  split
  · next h => simp [h]
  · next h => simp [isBefore, not_not.1 h, or_iff_not_imp_left]

/-- A closing bracket is red if it closes what is not open. -/
theorem isMismatch_iff : m.role.isMismatch ↔ m.IsClosing ∧ colour? ms cursor m = some .red := by
  cases h : m.role with
  | plain | string | opening => simp [Role.isMismatch, Mark.IsClosing, h]
  | closing b partner =>
    have hc : m.IsClosing := ⟨b, partner, h⟩
    rw [colour?_of_isClosing hc, closerColour?, h]
    cases partner with
    | none => exact ⟨fun _ => ⟨hc, rfl⟩, fun _ => rfl⟩
    | some o => simp [Role.isMismatch, pairColour?_eq_red_iff, hc]

theorem colour?_eq_blue_iff (hm : m.partner? = some o) : colour? ms cursor m = some .blue ↔
    m.role = .closing o.bracket (some o) ∧ (o.offset + 1 = cursor ∨ m.offset + 1 = cursor) := by
  obtain ⟨b, h⟩ := Mark.partner?_eq_some_iff.1 hm
  rw [colour?_of_isClosing ⟨b, _, h⟩, closerColour?, h]
  dsimp only
  rw [pairColour?_eq_blue_iff, Role.closing.injEq, and_iff_left rfl, @eq_comm _ b]

/-- Only a closing bracket that has a partner is blue. -/
theorem exists_partner_of_blue (hm : m.IsClosing) (h : colour? ms cursor m = some .blue) :
    ∃ o, m.partner? = some o := by
  obtain ⟨b, _ | o, hr⟩ := id hm
  · rw [colour?_of_isClosing hm, closerColour?, hr] at h
    cases h
  · exact ⟨o, Mark.partner?_eq_some_iff.2 ⟨b, hr⟩⟩

end Colour

namespace Tracks

variable {ms : List Mark} {stop cursor : Nat} {stack : List Opened} {m n : Mark} {o : Opened}

theorem eq_of_offset_eq (h : Tracks ms stop stack) (hm : m ∈ ms) (hn : n ∈ ms)
    (heq : m.offset = n.offset) : m = n := by
  obtain ⟨l, l', hms⟩ := List.append_of_mem hm
  rw [hms] at hn
  rcases List.mem_append.1 hn with hn | hn
  · exact absurd heq (Nat.ne_of_gt (h.lt_of_eq_append hms hn))
  · rcases List.mem_cons.1 hn with rfl | hn
    · rfl
    · exact absurd heq (Nat.ne_of_lt (h.gt_of_eq_append hms hn))

/-- The two brackets of a pair have one colour. -/
theorem colour?_partner (h : Tracks ms stop stack) (hm : m ∈ ms) (ho : m.partner? = some o)
    (cursor : Nat) : colour? ms cursor o.mark = colour? ms cursor m := by
  have hcloser : closerOf? ms o.offset = some m := by
    have hpred : m.partner?.any (·.offset == o.offset) := by simp [ho]
    cases hc : closerOf? ms o.offset with
    | none => exact absurd hpred (List.find?_eq_none.1 hc m hm)
    | some n =>
      obtain ⟨hn, p, hp, hoffset⟩ := closerOf?_eq_some hc
      rw [h.unique m hm n hn o p ho hp hoffset.symm]
  rw [colour?_mark, hcloser, colour?_of_isClosing (Mark.isClosing_of_partner? ho)]
  rfl

/-- An opening bracket that has a colour is the partner of one of this colour. -/
theorem exists_closing_of_opening (h : Tracks ms stop stack) (hn : n ∈ ms) {b : Bracket}
    (hr : n.role = .opening b) {colour : Colour} (hc : colour? ms cursor n = some colour) :
    ∃ m ∈ ms, ∃ o, m.partner? = some o ∧ o.mark = n ∧ colour? ms cursor m = some colour := by
  rw [colour?, hr] at hc
  obtain ⟨m, hcloser, hcolour⟩ := Option.bind_eq_some_iff.1 hc
  obtain ⟨hm, o, ho, hoffset⟩ := closerOf?_eq_some hcloser
  refine ⟨m, hm, o, ho, h.eq_of_offset_eq (h.paired m hm o ho).1 hn hoffset, ?_⟩
  rw [colour?_of_isClosing (Mark.isClosing_of_partner? ho), hcolour]

/-- What is blue is one of the brackets of a blue pair. -/
theorem exists_pair_of_blue (h : Tracks ms stop stack) (hn : n ∈ ms)
    (hb : colour? ms cursor n = some .blue) :
    ∃ m ∈ ms, ∃ o, m.partner? = some o ∧ colour? ms cursor m = some .blue ∧
      (n = m ∨ n = o.mark) := by
  cases hr : n.role with
  | plain | string => simp [colour?, hr] at hb
  | opening b =>
    obtain ⟨m, hm, o, ho, hmark, hc⟩ := h.exists_closing_of_opening hn hr hb
    exact ⟨m, hm, o, ho, hc, .inr hmark.symm⟩
  | closing b partner =>
    obtain ⟨o, ho⟩ := exists_partner_of_blue ⟨b, partner, hr⟩ hb
    exact ⟨n, hn, o, ho, hb, .inl rfl⟩

/-- There is one character before the cursor, and it belongs to one pair. -/
theorem eq_of_blue {p : Opened} (h : Tracks ms stop stack) (hm : m ∈ ms) (hn : n ∈ ms)
    (ho : m.partner? = some o) (hp : n.partner? = some p)
    (hmb : colour? ms cursor m = some .blue) (hnb : colour? ms cursor n = some .blue) :
    m = n := by
  obtain ⟨hmr, hmc⟩ := (colour?_eq_blue_iff ho).1 hmb
  obtain ⟨hnr, hnc⟩ := (colour?_eq_blue_iff hp).1 hnb
  have homem := (h.paired m hm o ho).1
  have hpmem := (h.paired n hn p hp).1
  rcases hmc with hmc | hmc <;> rcases hnc with hnc | hnc
  · exact h.unique m hm n hn o p ho hp (Nat.succ.inj (hmc.trans hnc.symm))
  · -- the opening bracket of the one would be the closing bracket of the other
    have hsame : o.mark = n := h.eq_of_offset_eq homem hn (Nat.succ.inj (hmc.trans hnc.symm))
    rw [← hsame] at hnr
    cases hnr
  · have hsame : p.mark = m := h.eq_of_offset_eq hpmem hm (Nat.succ.inj (hnc.trans hmc.symm))
    rw [← hsame] at hmr
    cases hmr
  · exact h.eq_of_offset_eq hm hn (Nat.succ.inj (hmc.trans hnc.symm))

end Tracks

theorem green_iff {line : String} {cursor : Nat} {m : Mark} {before after : List Mark}
    (h : marks line = before ++ m :: after) :
    colour? (marks line) cursor m = some .green ↔
      m.char = '"' ∨ ¬Outside (before.map Mark.char) := by
  rw [colour?_eq_green_iff, ← Scanner.mode_read_start_eq_code_iff,
    congrArg Mark.role (eq_of_marksFrom h)]
  exact Scanner.step_eq_string_iff

/-! ### The verdict -/

section Verdict

variable {line : String} {m : Mark} {before after : List Mark}

theorem isInvalid_iff_exists_mismatch (line : String) :
    (Verdict.of line).IsInvalid ↔ ∃ m ∈ marks line, m.role.isMismatch := by
  have hverdict : Verdict.of line = _ := Verdict.after_eq .start 0 line.toList
  rw [hverdict]
  cases hf : (marksFrom .start 0 line.toList).find? (·.role.isMismatch) with
  | some m =>
    have hmismatch := List.find?_some hf
    exact ⟨fun _ => ⟨m, List.mem_of_find?_eq_some hf, hmismatch⟩, fun _ => ⟨_, _, rfl⟩⟩
  | none =>
    constructor
    · intro h
      dsimp only at h
      split at h
      · exact absurd h Verdict.not_isInvalid_valid
      · exact absurd h Verdict.not_isInvalid_incomplete
    · rintro ⟨m, hm, hmismatch⟩
      exact absurd hmismatch (List.find?_eq_none.1 hf m hm)

/-- The verdict names the first mark that closes what is not open. -/
theorem of_eq_invalid (hsplit : marks line = before ++ m :: after) (hm : m.role.isMismatch)
    (hbefore : ∀ n ∈ before, ¬n.role.isMismatch) :
    Verdict.of line = .invalid m.char (Text.byteLength (before.map Mark.char)) := by
  have hverdict : Verdict.of line = _ := Verdict.after_eq .start 0 line.toList
  have hfind : (marksFrom .start 0 line.toList).find? (·.role.isMismatch) = some m :=
    List.find?_eq_some_iff_append.2 ⟨hm, before, after, hsplit, by simpa using hbefore⟩
  have hoffset := congrArg Mark.offset (eq_of_marksFrom hsplit)
  rw [hverdict, hfind]
  dsimp only
  rw [hoffset, Nat.zero_add]

end Verdict

/-- What the colours of a line say about it. -/
structure Agrees (line : String) (cursor : Nat) : Prop where
  /-- Some closing bracket is red exactly if the line is refused. -/
  red_iff : (∃ m ∈ marks line, m.IsClosing ∧ colour? (marks line) cursor m = some .red) ↔
    (Verdict.of line).IsInvalid
  /-- The message names the first one, and the byte at which it stands. -/
  first_red : ∀ before m after, marks line = before ++ m :: after →
    m.IsClosing → colour? (marks line) cursor m = some .red →
    (∀ n ∈ before, n.IsClosing → colour? (marks line) cursor n ≠ some .red) →
    (Verdict.of line).message? = some ("  - Unmatched '" ++ String.singleton m.char ++
      "' at position " ++ toString (Text.byteLength (before.map Mark.char)))
  /-- The two brackets of a pair stand in the line in this order and have one colour. -/
  pair : ∀ m ∈ marks line, ∀ o, m.partner? = some o →
    o.mark ∈ marks line ∧ o.offset < m.offset ∧
      colour? (marks line) cursor o.mark = colour? (marks line) cursor m
  /-- A red opening bracket is the partner of a red closing one. -/
  red_opening : ∀ n ∈ marks line, ∀ b, n.role = .opening b →
    colour? (marks line) cursor n = some .red →
    ∃ m ∈ marks line, m.IsClosing ∧ colour? (marks line) cursor m = some .red ∧
      ∃ o, m.partner? = some o ∧ o.mark = n
  /-- A pair is blue exactly if it matches and the cursor stands just behind one of
  its brackets. -/
  blue_iff : ∀ m ∈ marks line, ∀ o, m.partner? = some o →
    (colour? (marks line) cursor m = some .blue ↔
      m.char = o.bracket.closing ∧ (o.offset + 1 = cursor ∨ m.offset + 1 = cursor))
  /-- Nothing but the brackets of a pair is blue. -/
  blue : ∀ n ∈ marks line, colour? (marks line) cursor n = some .blue →
    ∃ m ∈ marks line, ∃ o, m.partner? = some o ∧
      colour? (marks line) cursor m = some .blue ∧ (n = m ∨ n = o.mark)
  /-- At most one pair is blue. -/
  blue_unique : ∀ m ∈ marks line, ∀ n ∈ marks line, m.IsClosing → n.IsClosing →
    colour? (marks line) cursor m = some .blue → colour? (marks line) cursor n = some .blue →
    m = n
  /-- Green is what belongs to a string: the quotes, and what stands behind the
  opening quote of a string that has not been closed. -/
  green_iff : ∀ before m after, marks line = before ++ m :: after →
    (colour? (marks line) cursor m = some .green ↔
      m.char = '"' ∨ ¬Outside (before.map Mark.char))

theorem agrees (line : String) (cursor : Nat) : Agrees line cursor := by
  have htracks : Tracks (marks line) _ _ := Tracks.nil.read (s := .start) line.toList
  constructor
  case red_iff =>
    rw [isInvalid_iff_exists_mismatch]
    exact exists_congr fun m => and_congr_right' isMismatch_iff.symm
  case first_red =>
    intro before m after hsplit hm hred hbefore
    rw [of_eq_invalid hsplit (isMismatch_iff.2 ⟨hm, hred⟩) fun n hn hmismatch =>
      have ⟨hc, hr⟩ := isMismatch_iff.1 hmismatch
      hbefore n hn hc hr]
    exact Verdict.message?_invalid ..
  case pair =>
    intro m hm o ho
    obtain ⟨hmem, hlt⟩ := htracks.paired m hm o ho
    exact ⟨hmem, hlt, htracks.colour?_partner hm ho cursor⟩
  case red_opening =>
    intro n hn b hr hred
    obtain ⟨m, hm, o, ho, hmark, hcolour⟩ := htracks.exists_closing_of_opening hn hr hred
    exact ⟨m, hm, Mark.isClosing_of_partner? ho, hcolour, o, ho, hmark⟩
  case blue_iff =>
    intro m hm o ho
    rw [colour?_eq_blue_iff ho]
    refine and_congr_left' ⟨char_of_closing hm, fun hchar => ?_⟩
    obtain ⟨b, hr⟩ := Mark.partner?_eq_some_iff.1 ho
    rw [hr, Bracket.closing_inj.1 ((char_of_closing hm hr).symm.trans hchar)]
  case blue => exact fun n hn hb => htracks.exists_pair_of_blue hn hb
  case blue_unique =>
    intro m hm n hn hmc hnc hmb hnb
    obtain ⟨o, ho⟩ := exists_partner_of_blue hmc hmb
    obtain ⟨p, hp⟩ := exists_partner_of_blue hnc hnb
    exact htracks.eq_of_blue hm hn ho hp hmb hnb
  case green_iff => exact fun before m after hsplit => green_iff hsplit

/-- What is written for a character of a line: the character between the escape sequences
that set its colour and end it. An opening bracket is bold if it has a colour. -/
structure Painted (ms : List Mark) (cursor : Nat) (m : Mark) : Prop where
  plain : colour? ms cursor m = none → ink ms cursor m = [m.char]
  green : colour? ms cursor m = some .green →
    ink ms cursor m = "\x1b[32m".toList ++ m.char :: "\x1b[0m".toList
  red : colour? ms cursor m = some .red →
    ink ms cursor m = (if m.role.isOpening then "\x1b[1;31m" else "\x1b[31m").toList ++
      m.char :: "\x1b[0m".toList
  blue : colour? ms cursor m = some .blue →
    ink ms cursor m = (if m.role.isOpening then "\x1b[1;34m" else "\x1b[34m").toList ++
      m.char :: "\x1b[0m".toList

theorem ink_eq {ms : List Mark} {cursor : Nat} {m : Mark} {colour : Colour}
    (h : colour? ms cursor m = some colour) :
    ink ms cursor m = Style.sequence ⟨colour, m.role.isOpening⟩ ++ m.char :: resetSequence := by
  rw [ink, style?, h]
  rfl

theorem painted (ms : List Mark) (cursor : Nat) (m : Mark) : Painted ms cursor m where
  plain h := by
    rw [ink, style?, h]
    rfl
  green h := by
    rw [ink_eq h, colour?_eq_green_iff.1 h]
    rfl
  red h := by
    rw [ink_eq h]
    cases m.role.isOpening <;> rfl
  blue h := by
    rw [ink_eq h]
    cases m.role.isOpening <;> rfl

/-- The colours tell what the verdict tells. The painted text is the characters of
the line, one by one and each in the colour of its mark, and these colours agree
with the verdict, the pairs of brackets, the cursor and the strings. -/
theorem highlight_agrees_with_verdict (line : String) (cursor : Nat) :
    highlight? line cursor =
      some (String.ofList ((marks line).flatMap (ink (marks line) cursor))) ∧
    (∀ m ∈ marks line, Painted (marks line) cursor m) ∧
    (marks line).map Mark.char = line.toList ∧ Agrees line cursor :=
  ⟨highlight?_eq line cursor, fun m _ => painted (marks line) cursor m, map_char_marksFrom ..,
    agrees line cursor⟩

end SmallLisp.Prompt
