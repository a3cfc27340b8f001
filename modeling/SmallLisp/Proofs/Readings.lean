import Mathlib.Data.List.DropRight
import SmallLisp.Prompt.Transcript
import SmallLisp.Proofs.Beginnings

/-! How a program that arrives line by line falls into inputs. As long as a text
wants more lines, nothing in it is lost, line ends included; as soon as it is
ready it is an input, which is a program by itself. So the inputs are pieces of
the program, one after the other, and their forms are those of the program. -/

namespace SmallLisp

/-! ### Blanks at the ends of a text -/

namespace Text

theorem exists_trimBlanks (cs : List Char) :
    ∃ lead trail, cs = lead ++ (trimBlanks cs ++ trail) ∧ (∀ c ∈ lead, isBlank c) ∧
      ∀ c ∈ trail, isBlank c := by
  refine ⟨cs.takeWhile isBlank, ((cs.dropWhile isBlank).reverse.takeWhile isBlank).reverse, ?_,
    List.all_eq_true.1 List.all_takeWhile, fun c hc => ?_⟩
  · rw [trimBlanks, ← List.reverse_append, List.takeWhile_append_dropWhile, List.reverse_reverse,
      List.takeWhile_append_dropWhile]
  · exact List.all_eq_true.1 List.all_takeWhile c (List.mem_reverse.1 hc)

theorem isBlank_of_isSeparator {c : Char} (h : isSeparator c) : isBlank c := by
  simp only [isSeparator, Bool.or_eq_true, beq_iff_eq] at h
  rcases h with (((rfl | rfl) | rfl) | rfl) | rfl <;> rfl

theorem trimBlanks_append {gap : List Char} (h : ∀ c ∈ gap, isBlank c) (cs : List Char) :
    trimBlanks (cs ++ gap) = trimBlanks cs := by
  have hr : gap.reverse.dropWhile isBlank = [] :=
    List.dropWhile_eq_nil_iff.2 fun c hc => h c (List.mem_reverse.1 hc)
  rw [trimBlanks, trimBlanks, List.dropWhile_append]
  split
  · next he =>
    rw [List.isEmpty_iff.1 he, List.dropWhile_eq_nil_iff.2 h]
  · rw [List.reverse_append, List.dropWhile_append, hr]
    rfl

/-- A text that is left over does not end with a blank. -/
theorem trimBlanks_eq_nil {cs : List Char} (h : ∀ c ∈ trimBlanks cs, isBlank c) :
    trimBlanks cs = [] := by
  by_contra hne
  exact List.rdropWhile_last_not isBlank (cs.dropWhile isBlank) hne (h _ (List.getLast_mem hne))

end Text

namespace Prompt

open Token (scanFrom)

/-! ### Lines and their ends -/

theorem flatten_splitLines (cs : List Char) : (splitLines cs).flatten = cs := by
  induction cs with
  | nil => rfl
  | cons c cs ih =>
    rw [splitLines]
    split
    · rw [List.flatten_cons, ih, List.singleton_append]
    · split
      · next h =>
        rw [← ih, h]
        rfl
      · next h =>
        rw [← ih, h, List.flatten_cons, List.flatten_cons, List.cons_append]

/-- Every line but the last one ends with a line feed. -/
theorem getLast?_of_mem_splitLines {cs line : List Char} (h : line ∈ (splitLines cs).dropLast) :
    line.getLast? = some '\n' := by
  induction cs generalizing line with
  | nil => cases h
  | cons c cs ih =>
    rw [splitLines] at h
    split at h
    · next hc =>
      cases hs : splitLines cs with
      | nil =>
        rw [hs] at h
        cases h
      | cons next lines =>
        rw [hs, List.dropLast_cons_cons] at h
        rcases List.mem_cons.1 h with rfl | h
        · rw [hc]
          rfl
        · exact ih (hs ▸ h)
    · cases hs : splitLines cs with
      | nil =>
        rw [hs] at h
        cases h
      | cons first lines =>
        rw [hs] at h ih
        cases lines with
        | nil => cases h
        | cons next lines =>
          rw [List.dropLast_cons_cons] at h ih
          rcases List.mem_cons.1 h with rfl | h
          · have hf := ih List.mem_cons_self
            rw [List.getLast?_cons, hf]
            rfl
          · exact ih (List.mem_cons_of_mem _ h)

theorem splitLineEnd_append (cs : List Char) :
    (splitLineEnd cs).1 ++ (splitLineEnd cs).2 = cs := by
  unfold splitLineEnd
  split
  · next h => rw [List.reverse_eq_iff.1 h, List.reverse_cons, List.reverse_cons, List.append_assoc,
      List.singleton_append]
  · next h => rw [List.reverse_eq_iff.1 h, List.reverse_cons]
  · exact List.append_nil cs

theorem isSeparator_of_mem_lineEnd {cs : List Char} : ∀ c ∈ (splitLineEnd cs).2, isSeparator c := by
  unfold splitLineEnd
  split
  · exact List.all_eq_true.1 rfl
  · exact List.all_eq_true.1 rfl
  · exact fun c hc => absurd hc List.not_mem_nil

theorem lineEnd_ne_nil {cs : List Char} (h : cs.getLast? = some '\n') :
    (splitLineEnd cs).2 ≠ [] := by
  rw [← List.head?_reverse] at h
  unfold splitLineEnd
  split
  · exact List.cons_ne_nil _ _
  · exact List.cons_ne_nil _ _
  · next hne =>
    obtain ⟨rest, hr⟩ := List.head?_eq_some_iff.1 h
    exact absurd hr (hne rest)

section ReadLine

variable {pending line : List Char}

theorem readLine_of_valid (h : Verdict.ofChars (splitLineEnd (pending ++ line)).1 = .valid) :
    readLine pending line = .input (splitLineEnd (pending ++ line)).1 := by
  rw [readLine]
  dsimp only
  rw [h]

theorem readLine_of_incomplete
    (h : Verdict.ofChars (splitLineEnd (pending ++ line)).1 = .incomplete) :
    readLine pending line = .pending (pending ++ line) none := by
  rw [readLine]
  dsimp only
  rw [h]
  exact congrArg (Reading.pending · none) (splitLineEnd_append _)

end ReadLine

/-! ### What is read of a program -/

theorem Verdict.ofChars_eq_valid_of_parseText {cs : List Char} {forms : List Node}
    (h : parseText (String.ofList cs) = .ok forms) : ofChars cs = .valid := by
  obtain ⟨fs, ht, -⟩ := parseText_eq_ok_iff_forms.1 h
  rw [← String.toList_ofList (l := cs)]
  exact (of_eq_valid_iff_nested ht).2 (Form.nested_tokensAll fs)

/-- Without the blanks at its ends a program is the same program, from another place on. -/
theorem exists_parseText_trimBlanks {cs : List Char} {forms : List Node}
    (hs : ∀ c ∈ cs, Text.isBlank c → isSeparator c)
    (h : parseText (String.ofList cs) = .ok forms) :
    ∃ xs n, parseText (String.ofList (Text.trimBlanks cs)) = .ok xs ∧
      xs.map (Node.shift n) = forms := by
  obtain ⟨lead, trail, hcs, hlead, htrail⟩ := Text.exists_trimBlanks cs
  generalize Text.trimBlanks cs = middle at hcs ⊢
  subst hcs
  obtain ⟨hl, hr⟩ := List.forall_mem_append.1 hs
  obtain ⟨-, ht⟩ := List.forall_mem_append.1 hr
  have hgap : ∀ c ∈ trail, isSeparator c := fun c hc => ht c hc (htrail c hc)
  obtain ⟨ys, n, hy, rfl⟩ := exists_parseText_of_gap (fun c hc => hl c hc (hlead c hc)) h
  have hv := Verdict.of_append_gap hgap (Verdict.ofChars_eq_valid_of_parseText hy)
  rw [← List.append_nil trail] at hy
  obtain ⟨xs, zs, m, hx, hz, rfl⟩ := exists_parseText_append hgap hv (fun _ => rfl) hy
  cases hz.symm.trans parseText_nil
  exact ⟨xs, n, hx, by rw [List.map_nil, List.append_nil]⟩

theorem trimBlanks_splitLineEnd (cs : List Char) :
    Text.trimBlanks (splitLineEnd cs).1 = Text.trimBlanks cs := by
  have hends := fun c hc => Text.isBlank_of_isSeparator (@isSeparator_of_mem_lineEnd cs c hc)
  have htrim := Text.trimBlanks_append hends (splitLineEnd cs).1
  rw [splitLineEnd_append] at htrim
  exact htrim.symm

/-! ### Inputs -/

/-- What ends a session, with blanks around it. -/
def IsExit (cs : List Char) : Prop :=
  Text.equalsIgnoringCase (String.ofList (Text.trimBlanks cs)) "exit"

theorem IsExit.plain {cs : List Char} (h : IsExit cs) : ∀ c ∈ cs, Plain c := by
  obtain ⟨lead, trail, hcs, hlead, htrail⟩ := Text.exists_trimBlanks cs
  rw [IsExit, Text.equalsIgnoringCase, String.toList_ofList, beq_iff_eq] at h
  have hexit : ∀ c ∈ Text.trimBlanks cs, Plain c := by
    intro c hc
    have hl : c.toLower ∈ ("exit".toList.map Char.toLower) := h ▸ List.mem_map_of_mem hc
    exact .of_pred (p := fun c => c.toLower ∈ "exit".toList.map Char.toLower)
      (decide_eq_true hl) rfl
  rw [hcs]
  simp only [List.forall_mem_append]
  exact ⟨fun c hc => .of_pred (hlead c hc) rfl, hexit,
    fun c hc => .of_pred (htrail c hc) rfl⟩

/-- A text that may be pending: no text, or one that wants more lines. -/
def Waiting (pending : List Char) : Prop :=
  pending = [] ∨ Verdict.ofChars (splitLineEnd pending).1 = .incomplete

theorem not_isExit_append {pending line : List Char} (hp : Waiting pending) (hl : ¬IsExit line) :
    ¬IsExit (pending ++ line) := by
  intro h
  rcases hp with rfl | hp
  · exact hl h
  · have hplain : ∀ c ∈ (splitLineEnd pending).1, Plain c := by
      intro c hc
      refine h.plain c (List.mem_append_left _ ?_)
      rw [← splitLineEnd_append pending]
      exact List.mem_append_left _ hc
    have hv : Verdict.ofChars (splitLineEnd pending).1 = .valid := by
      rw [Verdict.ofChars, ← List.append_nil (splitLineEnd pending).1]
      exact Verdict.after_plainText hplain 0 []
    cases hp.symm.trans hv

/-- A piece of a program that is a program by itself, and how far on in the
program its forms are. -/
structure Input where
  text : List Char
  forms : List Node
  offset : Nat
  parse_eq : parseText (String.ofList (Text.trimBlanks text)) = .ok forms

namespace Input

/-- What is evaluated. -/
def source (x : Input) : String := String.ofList (Text.trimBlanks x.text)

/-- The forms in their places in the program. -/
def placed (x : Input) : List Node := x.forms.map (Node.shift x.offset)

/-- An input without forms is blank. -/
theorem source_eq_empty_iff (x : Input) : x.source = "" ↔ x.forms = [] := by
  have hsource : x.source = "" ↔ Text.trimBlanks x.text = [] := String.ofList_eq_empty_iff
  rw [hsource]
  constructor
  · intro h
    have hp := x.parse_eq
    rw [h] at hp
    exact Except.ok.inj (hp.symm.trans parseText_nil)
  · intro h
    have ht := parseText_eq_nil.1 (x.parse_eq.trans (congrArg Except.ok h))
    rw [tokenize, String.toList_ofList] at ht
    refine Text.trimBlanks_eq_nil fun c hc => Text.isBlank_of_isSeparator ?_
    exact Token.isSeparator_of_scanFrom ht c hc

/-- The same input in a text that stands further on. -/
def moved (n : Nat) (x : Input) : Input := { x with offset := x.offset + n }

theorem placed_moved (n : Nat) (x : Input) : (x.moved n).placed = x.placed.map (Node.shift n) := by
  rw [placed, placed, List.map_map]
  exact List.map_congr_left fun y _ => (Node.shift_shift x.offset n y).symm

end Input

/-- The lines that follow a pending text are read as these inputs, and nothing
is refused or left over. -/
inductive Reads : List Char → List (List Char) → List Input → Prop
  | done : Reads [] [] []
  | more {pending line : List Char} {lines : List (List Char)} {inputs : List Input}
    (h : readLine pending line = .pending (pending ++ line) none)
    (hr : Reads (pending ++ line) lines inputs) : Reads pending (line :: lines) inputs
  | input {pending line : List Char} {lines : List (List Char)} {x : Input} {inputs : List Input}
    (h : readLine pending line = .input (splitLineEnd x.text).1) (hx : x.text = pending ++ line)
    (hr : Reads [] lines inputs) : Reads pending (line :: lines) (x :: inputs)

namespace Reads

variable {pending : List Char} {lines : List (List Char)} {inputs : List Input}

/-- The inputs are pieces of the text, one after the other. -/
theorem flatMap_text (h : Reads pending lines inputs) :
    inputs.flatMap Input.text = pending ++ lines.flatten := by
  induction h with
  | done => rfl
  | more _ _ ih => rw [ih, List.flatten_cons, List.append_assoc]
  | input _ hx _ ih =>
    rw [List.flatMap_cons, ih, hx, List.flatten_cons, List.nil_append, List.append_assoc]

theorem moved (h : Reads pending lines inputs) (n : Nat) :
    Reads pending lines (inputs.map (Input.moved n)) := by
  induction h with
  | done => exact .done
  | more h _ ih => exact .more h ih
  | input h hx _ ih => exact .input h hx ih

end Reads

/-- Lines that are ready are an input, if a program begins with them. -/
theorem exists_input {cs rest : List Char} {forms : List Node}
    (hv : Verdict.ofChars (splitLineEnd cs).1 = .valid)
    (hlast : (splitLineEnd cs).2 = [] → rest = [])
    (hs : ∀ c ∈ cs, Text.isBlank c → isSeparator c)
    (h : parseText (String.ofList (cs ++ rest)) = .ok forms) :
    ∃ (x : Input) (ys : List Node) (n : Nat), x.text = cs ∧
      parseText (String.ofList rest) = .ok ys ∧ forms = x.placed ++ ys.map (Node.shift n) := by
  have hcs := splitLineEnd_append cs
  have hgap := @isSeparator_of_mem_lineEnd cs
  rw [← hcs, List.append_assoc] at h
  obtain ⟨xs, ys, n, hbody, hrest, rfl⟩ := exists_parseText_append hgap hv hlast h
  obtain ⟨zs, m, hz, rfl⟩ := exists_parseText_trimBlanks
    (fun c hc => hs c (hcs ▸ List.mem_append_left _ hc)) hbody
  rw [trimBlanks_splitLineEnd] at hz
  exact ⟨⟨cs, zs, m, hz⟩, ys, n, rfl, hrest, rfl⟩

/-- Lines that are a program together, after a pending text that it begins with,
are read as inputs whose forms are those of the program. -/
theorem exists_reads {pending : List Char} {lines : List (List Char)} {forms : List Node}
    (hw : Waiting pending) (hl : ∀ line ∈ lines.dropLast, line.getLast? = some '\n')
    (hx : ∀ line ∈ lines, ¬IsExit line)
    (hs : ∀ c ∈ pending ++ lines.flatten, Text.isBlank c → isSeparator c)
    (h : parseText (String.ofList (pending ++ lines.flatten)) = .ok forms) :
    ∃ inputs, Reads pending lines inputs ∧ inputs.flatMap Input.placed = forms ∧
      ∀ x ∈ inputs, ¬IsExit x.text := by
  have hwhole := Verdict.ofChars_eq_valid_of_parseText h
  induction lines generalizing pending forms with
  | nil =>
    rw [List.flatten_nil, List.append_nil] at h hwhole
    rcases hw with rfl | hw
    · cases h.symm.trans parseText_nil
      exact ⟨[], .done, rfl, nofun⟩
    · -- a program does not end where more lines are wanted
      rw [← splitLineEnd_append pending] at hwhole
      cases hw.symm.trans (Verdict.of_append_gap isSeparator_of_mem_lineEnd hwhole)
  | cons line lines ih =>
    obtain ⟨hline, hlines⟩ := List.forall_mem_cons.1 hx
    have hends : ∀ l ∈ lines.dropLast, l.getLast? = some '\n' := by
      intro l hm
      cases lines with
      | nil => cases hm
      | cons next lines => exact hl l (List.mem_cons_of_mem line hm)
    rw [List.flatten_cons, ← List.append_assoc] at h hs hwhole
    cases hv : Verdict.ofChars (splitLineEnd (pending ++ line)).1 with
    | valid =>
      have hlast : (splitLineEnd (pending ++ line)).2 = [] → lines.flatten = [] := by
        intro hnil
        cases lines with
        | nil => rfl
        | cons next lines =>
          refine absurd hnil (lineEnd_ne_nil ?_)
          rw [List.getLast?_append, hl line List.mem_cons_self]
          rfl
      obtain ⟨x, ys, n, htext, hrest, rfl⟩ :=
        exists_input hv hlast (fun c hc => hs c (List.mem_append_left _ hc)) h
      obtain ⟨inputs, hr, hforms, hexit⟩ := ih (.inl rfl) hends hlines
        (fun c hc => hs c (List.mem_append_right _ hc)) hrest
        (Verdict.ofChars_eq_valid_of_parseText hrest)
      refine ⟨x :: inputs.map (Input.moved n), ?_, ?_, ?_⟩
      · exact .input (htext ▸ readLine_of_valid hv) htext (hr.moved n)
      · rw [List.flatMap_cons, List.flatMap_map, ← hforms, List.map_flatMap]
        exact congrArg _ (List.flatMap_congr fun y _ => y.placed_moved n)
      · refine List.forall_mem_cons.2 ⟨htext ▸ not_isExit_append hw hline, ?_⟩
        exact List.forall_mem_map.2 hexit
    | incomplete =>
      obtain ⟨inputs, hr, hforms, hexit⟩ := ih (.inr hv) hends hlines hs h hwhole
      exact ⟨inputs, .more (readLine_of_incomplete hv) hr, hforms, hexit⟩
    | invalid c place =>
      rw [← splitLineEnd_append (pending ++ line), List.append_assoc] at hwhole
      exact absurd hv (Verdict.not_invalid_of_append hwhole c place)

/-- The lines of a program are read as inputs that are pieces of it. -/
theorem exists_reads_splitLines {program : String} {forms : List Node}
    (h : parseText program = .ok forms)
    (hs : ∀ c ∈ program.toList, Text.isBlank c → isSeparator c)
    (hx : ∀ line ∈ splitLines program.toList, ¬IsExit line) :
    ∃ inputs, Reads [] (splitLines program.toList) inputs ∧
      inputs.flatMap Input.text = program.toList ∧ inputs.flatMap Input.placed = forms ∧
      ∀ x ∈ inputs, ¬IsExit x.text := by
  have hflat := flatten_splitLines program.toList
  have hends := fun line => @getLast?_of_mem_splitLines program.toList line
  obtain ⟨inputs, hr, hforms, hexit⟩ := exists_reads (.inl rfl) hends hx
    (by rwa [List.nil_append, hflat]) (by rwa [List.nil_append, hflat, String.ofList_toList])
  refine ⟨inputs, hr, ?_, hforms, hexit⟩
  rw [hr.flatMap_text, List.nil_append, hflat]

end Prompt

end SmallLisp
