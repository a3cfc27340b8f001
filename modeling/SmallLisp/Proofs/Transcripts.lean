import SmallLisp.Proofs.Likeness.Evaluation
import SmallLisp.Proofs.Output
import SmallLisp.Proofs.Programs
import SmallLisp.Proofs.Readings

/-! A session with a program for its input, and the run of a file that holds it.
The session evaluates the same forms in the same order, if from other places, and
each input to a sink of its own. So it prints the same, cut into pieces, and the
values that it shows in between end with the value of the program. -/

namespace SmallLisp.Prompt

/-- What is shown for an input: what it printed, and its value. -/
structure Answer where
  printed : String
  value : Value

def Answer.shown (a : Answer) : String := a.printed ++ a.value.text ++ "\n"

/-- The inputs, evaluated one after the other in the global scope, succeed and are
answered like this. There is no answer to an input without forms. -/
inductive Answers (fuel : Nat) : State → List Input → List Answer → Prop
  | nil (s : State) : Answers fuel s [] []
  | skip {s : State} {x : Input} {inputs : List Input} {answers : List Answer} (hx : x.forms = [])
    (h : Answers fuel s inputs answers) : Answers fuel s (x :: inputs) answers
  | answer {s t : State} {x : Input} {v : Value} {inputs : List Input} {answers : List Answer}
    (hx : x.forms ≠ []) (hv : evaluate fuel 0 x.source (s.redirect none) = some (.ok v, t))
    (h : Answers fuel t inputs answers) :
    Answers fuel s (x :: inputs) (⟨t.sink.text, v⟩ :: answers)

/-! ### What a session shows -/

theorem Command.ofInput_eq {x : Input} (hx : ¬IsExit x.text) :
    ofInput (splitLineEnd x.text).1 = if x.forms = [] then skip else evaluate x.source := by
  rw [ofInput, trimBlanks_splitLineEnd]
  show (if x.source = "" then skip else
    if Text.equalsIgnoringCase x.source "exit" then exit else evaluate x.source) = _
  rw [if_neg (c := Text.equalsIgnoringCase x.source "exit") hx]
  exact if_congr x.source_eq_empty_iff rfl rfl

theorem Transcript.ofLines_of_reads {fuel : Nat} {pending : List Char} {lines : List (List Char)}
    {inputs : List Input} {answers : List Answer} {s : State} (hr : Reads pending lines inputs)
    (hx : ∀ x ∈ inputs, ¬IsExit x.text) (ha : Answers fuel s inputs answers) :
    ofLines fuel s pending lines =
      some ⟨String.join (answers.map Answer.shown) ++ farewell, [], []⟩ := by
  induction hr generalizing s answers with
  | done =>
    cases ha
    rfl
  | more h _ ih =>
    rw [ofLines, h]
    dsimp only
    rw [ih hx ha]
    exact congrArg (fun output => some (⟨output, [], []⟩ : Transcript)) String.empty_append
  | @input pending line lines x inputs h _ _ ih =>
    obtain ⟨hexit, hinputs⟩ := List.forall_mem_cons.1 hx
    rw [ofLines, h]
    dsimp only
    rw [Command.ofInput_eq hexit]
    cases ha with
    | skip hf ha =>
      rw [if_pos hf]
      exact ih hinputs ha
    | answer hf hv ha =>
      rw [if_neg hf]
      dsimp only
      rw [respond, hv, Option.map_some]
      dsimp only [Option.bind_eq_bind, Option.bind_some]
      rw [ih hinputs ha, List.map_cons, String.join_cons, String.append_assoc]
      rfl

/-! ### A whole run and its pieces -/

theorem Input.placed_alike (x : Input) :
    List.Forall₂ (Node.Alike .anySpans) x.placed x.forms := by
  refine List.forall₂_map_left_iff.2 (List.forall₂_same.2 fun y _ => ?_)
  exact (@Node.alike_mapSpans Likeness.anySpans.flip (fun _ => rfl) _ y fun _ _ => trivial).symm

/-- An input by itself does what its forms do in the whole, to an empty sink. -/
theorem exists_answer {fuel : Nat} {x : Input} (hx : x.forms ≠ []) {r t s : State}
    {w : Array UInt8} {values : List Value}
    (h : (Node.evalAll fuel 0 x.placed).outcome (r.writing w) = some (.ok values, t))
    (hs : (r.writing #[]).Alike .anySpans (s.writing #[])) :
    ∃ v u, evaluate fuel 0 x.source (s.redirect none) = some (.ok v, u) ∧
      t = t.writing (w ++ Text.encode u.sink.text) ∧
      (t.writing #[]).Alike .anySpans (u.writing #[]) ∧
      ∃ last, values.getLast? = some last ∧ last.Alike .anySpans v := by
  obtain ⟨text, hany⟩ := Node.appends_evalAll fuel 0 x.placed r w _ t h
  obtain ⟨q, u, ho, hq, hu⟩ := Node.evalAll_alike (Nat.le_refl fuel) 0 x.placed_alike _ _
    (hs.log_right (.program x.forms.length)) _ _ (hany #[])
  cases hq with
  | @ok _ us hvs =>
    rcases finalResult_of_evalAll ho hx with ⟨e, he⟩ | ⟨_, v, heq, hv, hfinal⟩
    · cases he
    cases heq
    have hsource : evaluate fuel 0 x.source (s.redirect none) = some (.ok v, u) := by
      rw [Input.source, evaluate_of_parse x.parse_eq, ← hfinal]
      exact congrArg (Option.map _) ho
    have htext : u.sink.text = text := by
      rw [← hu.sink_eq]
      show Text.decodeCut (#[] ++ Text.encode text) = text
      rw [Array.empty_append, Text.decodeCut_encode]
    have hw : t = t.writing (w ++ Text.encode text) :=
      (Prod.mk.inj (Option.some.inj (h.symm.trans (hany w)))).2
    have hlast := getLast?_rel hvs
    rw [hv] at hlast
    refine ⟨v, u, hsource, htext ▸ hw, ⟨hu.scopes, hu.closures_eq, rfl⟩, ?_⟩
    generalize values.getLast? = last at hlast
    cases hlast with
    | some hlast => exact ⟨_, rfl, hlast⟩

/-- The inputs, one after the other, do what all of their forms do in one run. -/
theorem exists_answers {fuel : Nat} {inputs : List Input} {values : List Value} {r t s : State}
    {w : Array UInt8}
    (h : (Node.evalAll fuel 0 (inputs.flatMap Input.placed)).outcome (r.writing w) =
      some (.ok values, t))
    (hs : (r.writing #[]).Alike .anySpans (s.writing #[])) :
    ∃ answers, Answers fuel s inputs answers ∧
      t.sink = ⟨w ++ Text.encode (String.join (answers.map Answer.printed)), none⟩ ∧
      Option.Rel (fun v a => v.Alike .anySpans a.value) values.getLast? answers.getLast? := by
  induction inputs generalizing values r s w with
  | nil =>
    cases h
    refine ⟨[], .nil s, ?_, .none⟩
    exact congrArg (Sink.mk · none) Array.append_empty.symm
  | cons x inputs ih =>
    rw [List.flatMap_cons] at h
    by_cases hx : x.forms = []
    · have hplaced : x.placed = [] := by rw [Input.placed, hx, List.map_nil]
      rw [hplaced, List.nil_append] at h
      obtain ⟨answers, ha, ht⟩ := ih h hs
      exact ⟨answers, .skip hx ha, ht⟩
    rw [Node.evalAll, List.mapM_append] at h
    rcases Run.outcome_bind_eq_some h with ⟨e, -, he⟩ | ⟨first, u, hfirst, hrest⟩
    · cases he
    rcases Run.outcome_bind_eq_some hrest with ⟨e, -, he⟩ | ⟨others, t', hothers, hpure⟩
    · cases he
    cases hpure
    obtain ⟨v, s', hv, hu, hs', last, hlast, hvalue⟩ := exists_answer hx hfirst hs
    rw [hu] at hothers
    obtain ⟨answers, ha, ht, hrel⟩ := ih hothers hs'
    refine ⟨⟨s'.sink.text, v⟩ :: answers, .answer hx hv ha, ?_, ?_⟩
    · rw [ht, List.map_cons, String.join_cons, Text.encode_append, Array.append_assoc]
    · rw [List.getLast?_append, List.getLast?_cons, hlast]
      generalize others.getLast? = o at hrel
      generalize answers.getLast? = a at hrel
      cases hrel with
      | none => exact .some hvalue
      | some hrel => exact .some hrel

/-! ### Programs as sessions -/

/-- A session with a program for its input and the run of a file that holds it
agree, if the program succeeds, has no blanks that do not separate tokens, and no
line that ends the session. The lines are read as inputs that are pieces of the
program and programs by themselves; their forms, in their places, are those of
the program. Each input that has forms succeeds, and is answered with what it
printed and its value. What is printed in all is what the run of the file prints,
and the last value is the value of the program, up to the spans in it. -/
theorem transcript_of_program {fuel : Nat} {program : String} {v : Value} {t : State}
    (h : evaluate fuel 0 program (.fresh none) = some (.ok v, t))
    (hs : ∀ c ∈ program.toList, Text.isBlank c → isSeparator c)
    (hx : ∀ line ∈ splitLines program.toList, ¬IsExit line)
    (environment : String → Option String) :
    ∃ inputs answers last,
      Reads [] (splitLines program.toList) inputs ∧
      inputs.flatMap Input.text = program.toList ∧
      parseText program = .ok (inputs.flatMap Input.placed) ∧
      Answers fuel (.fresh none) inputs answers ∧
      Transcript.ofText fuel environment program = some
        ⟨banner ++ (String.join (answers.map Answer.shown) ++ farewell),
          match Settings.read environment with
          | .ok _ => []
          | .error e => [e.message], []⟩ ∧
      FileRun.ofSource fuel program = some
        ⟨0, String.join (answers.map Answer.printed) ++ last.value.text ++ "\n", "", t.events⟩ ∧
      answers.getLast? = some last ∧ v.Alike .anySpans last.value := by
  cases hp : parseText program with
  | error e =>
    rw [evaluate, hp] at h
    cases h
  | ok forms =>
    obtain ⟨inputs, hr, htext, rfl, hexit⟩ := exists_reads_splitLines hp hs hx
    obtain ⟨values, ho, hv⟩ := exists_values_of_evaluate hp h
    -- the session starts from the same state, in which there are no spans yet
    have hfresh : (State.fresh none).Alike .anySpans (.fresh none) :=
      State.alike_self (fun _ => rfl) _ fun _ _ => trivial
    obtain ⟨answers, ha, hsink, hlast⟩ :=
      exists_answers (r := (State.fresh none).log (.program _)) (s := .fresh none) (w := #[]) ho
        (hfresh.log_left _)
    have hprinted : t.sink.text = String.join (answers.map Answer.printed) := by
      rw [hsink, Sink.text, Array.empty_append, Text.decodeCut_encode]
    rw [hv] at hlast
    generalize ha' : answers.getLast? = o at hlast
    cases hlast with
    | @some _ last hlast =>
      refine ⟨inputs, answers, last, hr, htext, rfl, ha, ?_, ?_, ha', hlast⟩
      · rw [Transcript.ofText, Transcript.ofLines_of_reads hr hexit ha]
        exact congrArg (fun errors => some (Transcript.mk _ errors [])) (List.append_nil _)
      · rw [FileRun.ofSource, h, ← hlast.text_eq id, ← hprinted]
        rfl

/-- A form over two lines, a blank line, and an input of two forms with a line
break in a string. -/
theorem transcript_of_program_lines :
    let program := "(fun f [x]\n  (print x))\n\n(f \"a\nb\") 1"
    ((evaluate 10 0 program (.fresh none)).map fun p => p.1.toOption.map Value.text) =
      some (some "1.0") ∧
    (∀ c ∈ program.toList, Text.isBlank c → isSeparator c) ∧
    (∀ line ∈ splitLines program.toList, ¬IsExit line) ∧
    ∃ (answers : List Answer) (last : Answer),
      (Transcript.ofText 10 (fun _ => none) program).map Transcript.output = some
        (banner ++ (String.join (answers.map Answer.shown) ++ farewell)) ∧
      (FileRun.ofSource 10 program).map FileRun.output = some
        (String.join (answers.map Answer.printed) ++ last.value.text ++ "\n") ∧
      answers.getLast? = some last := by
  intro program
  have he : ((evaluate 10 0 program (.fresh none)).map fun p => p.1.toOption.map Value.text) =
      some (some "1.0") := by decide +kernel
  have hblank : (program.toList.all fun c => !Text.isBlank c || isSeparator c) = true := by
    decide +kernel
  have hs : ∀ c ∈ program.toList, Text.isBlank c → isSeparator c := by
    simpa only [List.all_eq_true, Bool.or_eq_true, Bool.not_eq_true', ← Bool.not_eq_true,
      ← imp_iff_not_or] using hblank
  have hline : ((splitLines program.toList).all fun line => !Text.equalsIgnoringCase
      (String.ofList (Text.trimBlanks line)) "exit") = true := by decide +kernel
  have hx : ∀ line ∈ splitLines program.toList, ¬IsExit line := by
    simpa only [IsExit, List.all_eq_true, Bool.not_eq_true', ← Bool.not_eq_true] using hline
  obtain ⟨⟨r, t⟩, ho, hr⟩ := Option.map_eq_some_iff.1 he
  obtain ⟨v, hv, -⟩ := Option.map_eq_some_iff.1 hr
  cases eq_ok_of_toOption hv
  obtain ⟨_, answers, last, -, -, -, -, hshown, hfile, hlast, -⟩ :=
    transcript_of_program ho hs hx fun _ => none
  exact ⟨he, hs, hx, answers, last, by rw [hshown]; rfl, by rw [hfile]; rfl, hlast⟩

end SmallLisp.Prompt
