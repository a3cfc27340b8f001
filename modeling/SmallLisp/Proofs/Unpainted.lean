import SmallLisp.Proofs.Painting

/-! The painted text without its colours. As long as the line has no escape
character of its own, taking the escape sequences out of the painted text gives the
line back, and so it is at every moment of the painting: the brackets that are open
stand in the line and in the painted text alike, and painting one of them anew puts
its sequences around it and nowhere else. -/

namespace SmallLisp.Prompt

/-- The escape sequences in which a line is painted. -/
def sequences : List (List Char) :=
  ["\x1b[32m", "\x1b[31m", "\x1b[1;31m", "\x1b[34m", "\x1b[1;34m", "\x1b[0m"].map String.toList

/-- A text without the escape sequences that occur in it. -/
def unpainted : List Char → List Char
  | [] => []
  | c :: cs =>
    match sequences.find? (·.isPrefixOf (c :: cs)) with
    | some sequence => unpainted (cs.drop (sequence.length - 1))
    | none => c :: unpainted cs
  termination_by cs => cs.length

section Sequences

variable {c : Char} {cs : List Char}

@[simp] theorem unpainted_nil : unpainted [] = [] := by rw [unpainted]

theorem unpainted_cons (hc : c ≠ '\x1b') (cs : List Char) :
    unpainted (c :: cs) = c :: unpainted cs := by
  have hnone : sequences.find? (·.isPrefixOf (c :: cs)) = none := by
    simp [sequences, List.isPrefixOf, hc.symm]
  rw [unpainted, hnone]

theorem unpainted_sequence {sequence : List Char} (h : sequence ∈ sequences) (cs : List Char) :
    unpainted (sequence ++ cs) = unpainted cs := by
  have hlist : sequences = [['\x1b', '[', '3', '2', 'm'], ['\x1b', '[', '3', '1', 'm'],
      ['\x1b', '[', '1', ';', '3', '1', 'm'], ['\x1b', '[', '3', '4', 'm'],
      ['\x1b', '[', '1', ';', '3', '4', 'm'], ['\x1b', '[', '0', 'm']] := by decide +kernel
  -- none of them is a beginning of another
  have hfind : sequences.find? (·.isPrefixOf (sequence ++ cs)) = some sequence := by
    rw [hlist] at h ⊢
    simp only [List.mem_cons, List.not_mem_nil, or_false] at h
    rcases h with rfl | rfl | rfl | rfl | rfl | rfl <;> simp [List.isPrefixOf]
  cases sequence with
  | nil => rw [hlist] at h; simp at h
  | cons d ds =>
    rw [List.cons_append] at hfind ⊢
    rw [unpainted, hfind]
    simp only [List.length_cons, Nat.add_sub_cancel, List.drop_left]

theorem resetSequence_mem : resetSequence ∈ sequences := by decide +kernel

/-- Every style but one, which is never used. -/
theorem Style.sequence_mem {s : Style} (h : s ≠ ⟨.green, true⟩) : s.sequence ∈ sequences := by
  obtain ⟨colour, bold⟩ := s
  cases colour <;> cases bold <;> first | decide +kernel | exact absurd rfl h

theorem unpainted_paint {style : Option Style} (hs : style ≠ some ⟨.green, true⟩)
    (hc : c ≠ '\x1b') (cs : List Char) : unpainted (paint style c ++ cs) = c :: unpainted cs := by
  cases style with
  | none => exact unpainted_cons hc cs
  | some s =>
    have hs' : s ≠ ⟨.green, true⟩ := fun h => hs (congrArg some h)
    rw [paint, List.append_assoc, unpainted_sequence (Style.sequence_mem hs'), List.cons_append,
      unpainted_cons hc, unpainted_sequence resetSequence_mem]

end Sequences

section Marks

variable {ms l : List Mark} {cursor : Nat} {m : Mark}

theorem style?_ne (ms : List Mark) (cursor : Nat) (m : Mark) :
    style? ms cursor m ≠ some ⟨.green, true⟩ := by
  intro h
  obtain ⟨colour, hc, hs⟩ := Option.map_eq_some_iff.1 h
  obtain ⟨rfl, hbold⟩ := Style.mk.inj hs
  rw [colour?_eq_green_iff.1 hc] at hbold
  cases hbold

/-- The marks without their colours are their characters. -/
theorem unpainted_flatMap_ink (h : '\x1b' ∉ l.map Mark.char) (ms : List Mark) (cursor : Nat) :
    unpainted (l.flatMap (ink ms cursor)) = l.map Mark.char := by
  induction l with
  | nil => exact unpainted_nil
  | cons m l ih =>
    rw [List.map_cons, List.mem_cons, not_or] at h
    rw [List.flatMap_cons, ink, unpainted_paint (style?_ne ms cursor m) (Ne.symm h.1), ih h.2,
      List.map_cons]

end Marks

/-- A record leads to its bracket: at its byte in the text that has been read, and at
its place in what has been painted. Around the bracket the two are the same but for
the colours. If it is painted anew, whatever has been written in the meantime, then
exactly this bracket gives way to itself in another style. -/
def Recorded.LeadsToBracket (r : Recorded) (text : List Char) (p : Painter) : Prop :=
  ∃ before behind left right,
    text = before ++ r.bracket.opening :: behind ∧
    p.output = left ++ r.bracket.opening :: right ∧
    Text.byteLength before = r.offset ∧ Text.byteLength left = r.place ∧
    unpainted left = before ∧ unpainted right = behind ∧
    ∀ style more, { p with output := p.output ++ more }.repaint? r style =
      some { p with
        output := left ++ (paint (some style) r.bracket.opening ++ (right ++ more)) }

section Read

variable {text : List Char} {cursor : Nat} {p : Painter}

theorem Paints.leadsToBracket (h : '\x1b' ∉ text)
    (hpaint : Paints cursor (marksFrom .start 0 text) (Scanner.start.read 0 text) p)
    {r : Recorded} (hr : r ∈ p.stack) : r.LeadsToBracket text p := by
  have htracks : Tracks (marksFrom .start 0 text) _ _ := Tracks.nil.read (s := .start) text
  obtain ⟨l, l', hms, hplace, hout⟩ := hpaint.exists_split htracks hr
  have htext : text = l.map Mark.char ++ r.bracket.opening :: l'.map Mark.char := by
    rw [← map_char_marksFrom .start 0 text, hms, List.map_append]
    rfl
  have hoffset : r.offset = 0 + Text.byteLength (l.map Mark.char) :=
    congrArg Mark.offset (eq_of_marksFrom hms)
  rw [htext, List.mem_append, List.mem_cons, not_or, not_or] at h
  obtain ⟨hl, -, hl'⟩ := h
  refine ⟨_, _, _, _, htext, hout, ?_, hplace.symm, unpainted_flatMap_ink hl _ _,
    unpainted_flatMap_ink hl' _ _, fun style more => Painter.repaint?_eq ?_ hplace style⟩
  · rw [hoffset, Nat.zero_add]
  · rw [hout, List.append_assoc, List.cons_append]

/-- What has been painted of a text is the text, and the open brackets are found. -/
theorem exists_read (h : '\x1b' ∉ text) (cursor : Nat) :
    ∃ p, Painter.start.read? cursor 0 text = some p ∧ unpainted p.output = text ∧
      ∀ r ∈ p.stack, r.LeadsToBracket text p := by
  obtain ⟨p, hp, hpaint⟩ := (Paints.start cursor).read .nil text
  rw [List.nil_append] at hpaint
  have hchars : (marksFrom .start 0 text).map Mark.char = text := map_char_marksFrom ..
  refine ⟨p, hp, ?_, fun r hr => hpaint.leadsToBracket h hr⟩
  rw [hpaint.output, unpainted_flatMap_ink (by rwa [hchars]), hchars]

end Read

/-- Painting only adds colour. Without the escape sequences the painted text is the
line, for every cursor; after each part of the line, what has been painted is this
part, and the brackets that are still open are where their records lead. -/
theorem highlight_adds_colour_only (line : String) (cursor : Nat) (h : '\x1b' ∉ line.toList) :
    highlight? line cursor = some (highlight line cursor) ∧
    unpainted (highlight line cursor).toList = line.toList ∧
    ∀ text rest, line.toList = text ++ rest →
      ∃ p, Painter.start.read? cursor 0 text = some p ∧ unpainted p.output = text ∧
        ∀ r ∈ p.stack, r.LeadsToBracket text p := by
  obtain ⟨p, hp, hout, -⟩ := exists_read h cursor
  have hwhole : highlight? line cursor = some (String.ofList p.output) := by
    rw [highlight?, hp, Option.map_some]
  refine ⟨?_, ?_, fun text rest htext => exists_read ?_ cursor⟩
  · rw [highlight, hwhole, Option.getD_some]
  · rw [highlight, hwhole, Option.getD_some, String.toList_ofList, hout]
  · exact fun hmem => h (htext ▸ List.mem_append_left rest hmem)

theorem highlight_adds_colour_only_nested :
    '\x1b' ∉ "[(λ \"]\"])".toList ∧
    unpainted (highlight "[(λ \"]\"])" 1).toList = "[(λ \"]\"])".toList :=
  ⟨by decide, (highlight_adds_colour_only _ 1 (by decide)).2.1⟩

example : highlight "[(λ])" 1 = "\x1b[1;31m[\x1b[0m\x1b[1;31m(\x1b[0mλ" ++
    "\x1b[31m]\x1b[0m\x1b[31m)\x1b[0m" := by
  decide +kernel

end SmallLisp.Prompt
