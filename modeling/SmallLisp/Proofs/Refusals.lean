import SmallLisp.Proofs.Continuations
import SmallLisp.Proofs.Marks
import SmallLisp.Proofs.Readings

/-! Sessions in which a text is refused. The text stays pending, without its line
end, and every text that is asked about later goes on from it, so the verdict on
it is the verdict on all of them. What such a session shows is therefore settled by
the inputs that came before: they are answered, and then it takes its leave. -/

namespace SmallLisp.Prompt

instance (cs : List Char) : Decidable (IsExit cs) := inferInstanceAs (Decidable (_ = true))

namespace Verdict

theorem isSome_complaint?_iff {v : Verdict} : v.complaint?.isSome ↔ v.IsInvalid := by
  cases v with
  | valid | incomplete => exact ⟨nofun, nofun⟩
  | invalid c place => exact ⟨fun _ => ⟨c, place, rfl⟩, fun _ => rfl⟩

/-! ### A refused text -/

variable {cs : List Char}

/-- A gap is refused by no scanner, also one that is in a string. -/
theorem after_gap_not_isInvalid {gap : List Char} (h : ∀ c ∈ gap, isSeparator c) (s : Scanner)
    (offset : Nat) : ¬(after s offset gap).IsInvalid := by
  induction gap generalizing s offset with
  | nil =>
    rw [after]
    split
    · exact not_isInvalid_valid
    · exact not_isInvalid_incomplete
  | cons c gap ih =>
    obtain ⟨hc, hgap⟩ := List.forall_mem_cons.1 h
    have hm : (s.step offset c).1.isMismatch = false := by
      obtain ⟨mode, stack⟩ := s
      cases mode with
      | escape | string => rfl
      | code =>
        rw [Scanner.step_plain _ _ (.of_pred hc rfl)]
        rfl
    rw [after_cons hm]
    exact ih hgap _ _

/-- A text that is refused is refused without the gap at its end. -/
theorem IsInvalid.of_append_gap {gap : List Char} (hg : ∀ c ∈ gap, isSeparator c)
    (h : (ofChars (cs ++ gap)).IsInvalid) : (ofChars cs).IsInvalid := by
  rcases ofChars_append cs with ⟨c, place, hall⟩ | ⟨s, hs⟩
  · refine ⟨c, place, ?_⟩
    rw [← hall [], List.append_nil]
  · rw [hs gap] at h
    exact absurd h (after_gap_not_isInvalid hg s _)

/-- Whatever line is added to a refused text, and whichever part of its end is cut
off, the verdict is the same. -/
theorem IsInvalid.add_line (h : (ofChars cs).IsInvalid) (line : List Char) :
    ofChars (splitLineEnd (cs ++ line)).1 = ofChars cs := by
  have hsplit := splitLineEnd_append (cs ++ line)
  have hwhole := h.append line
  rw [← hsplit] at hwhole
  have hcut : (ofChars (splitLineEnd (cs ++ line)).1).IsInvalid :=
    of_append_gap isSeparator_of_mem_lineEnd (hwhole ▸ h)
  rw [← hcut.append (splitLineEnd (cs ++ line)).2, hwhole]

end Verdict

/-! ### The course of a session -/

/-- The texts that a session asks about, one for each line that it reads. -/
def asked (pending : List Char) : List (List Char) → List (List Char)
  | [] => []
  | line :: lines =>
    (splitLineEnd (pending ++ line)).1 ::
      match readLine pending line with
      | .pending text _ => asked text lines
      | .input text => if IsExit text then [] else asked [] lines

/-- What a text is told when it is refused. -/
def complaint? (text : List Char) : Option String := (Verdict.ofChars text).complaint?

/-- The source that is evaluated once a text has been asked about. -/
def evaluated? (text : List Char) : Option String :=
  match Verdict.ofChars text, Command.ofInput text with
  | .valid, .evaluate source => some source
  | _, _ => none

section ReadLine

variable {pending line : List Char}

theorem readLine_of_invalid {c : Char} {place : Nat}
    (h : Verdict.ofChars (splitLineEnd (pending ++ line)).1 = .invalid c place) :
    readLine pending line = .pending (splitLineEnd (pending ++ line)).1
      (Verdict.invalid c place).complaint? := by
  rw [readLine]
  dsimp only
  rw [h]

/-- Lines that are not ready wait for more, with the complaint about them. -/
theorem exists_readLine_eq_pending
    (h : Verdict.ofChars (splitLineEnd (pending ++ line)).1 ≠ .valid) :
    ∃ text, readLine pending line =
      .pending text (complaint? (splitLineEnd (pending ++ line)).1) := by
  rw [complaint?]
  cases hv : Verdict.ofChars (splitLineEnd (pending ++ line)).1 with
  | valid => exact absurd hv h
  | incomplete => exact ⟨_, readLine_of_incomplete hv⟩
  | invalid c place => exact ⟨_, readLine_of_invalid hv⟩

end ReadLine

section Evaluated

variable {text : List Char}

theorem evaluated?_eq_some_iff {source : String} :
    evaluated? text = some source ↔ Verdict.ofChars text = .valid ∧
      source = String.ofList (Text.trimBlanks text) ∧ source ≠ "" ∧
      ¬Text.equalsIgnoringCase source "exit" := by
  constructor
  · intro h
    rw [evaluated?] at h
    split at h
    · next hv hc =>
      cases h
      rw [Command.ofInput] at hc
      split at hc
      · cases hc
      · next hne =>
        split at hc
        · cases hc
        · next hexit =>
          cases hc
          exact ⟨hv, rfl, hne, hexit⟩
    · cases h
  · rintro ⟨hv, rfl, hne, hexit⟩
    rw [evaluated?, hv, Command.ofInput, if_neg hne, if_neg hexit]

theorem Command.ofInput_eq_exit_iff : Command.ofInput text = .exit ↔ IsExit text := by
  rw [Command.ofInput, IsExit]
  split
  · next h => simp [h, Text.equalsIgnoringCase]
  · split
    · next h => simp [h]
    · next h => simp [h]

theorem evaluated?_of_ne_valid (h : Verdict.ofChars text ≠ .valid) : evaluated? text = none :=
  Option.eq_none_iff_forall_ne_some.2 fun _ he => h (evaluated?_eq_some_iff.1 he).1

theorem IsExit.ofChars_eq_valid (h : IsExit text) : Verdict.ofChars text = .valid := by
  rw [Verdict.ofChars, ← List.append_nil text]
  exact Verdict.after_plainText h.plain 0 []

end Evaluated

section Asked

variable {pending line : List Char} {lines : List (List Char)}

theorem asked_of_pending {text : List Char} {complaint : Option String}
    (h : readLine pending line = .pending text complaint) :
    asked pending (line :: lines) = (splitLineEnd (pending ++ line)).1 :: asked text lines := by
  rw [asked, h]

theorem asked_of_input {text : List Char} (h : readLine pending line = .input text) :
    asked pending (line :: lines) =
      (splitLineEnd (pending ++ line)).1 :: if IsExit text then [] else asked [] lines := by
  rw [asked, h]

/-- Once a text has been refused, every line that is left leads to one more
question, and the answer to it is the same. -/
theorem asked_of_isInvalid (h : (Verdict.ofChars pending).IsInvalid) :
    (asked pending lines).length = lines.length ∧
      ∀ u ∈ asked pending lines, Verdict.ofChars u = Verdict.ofChars pending := by
  induction lines generalizing pending with
  | nil => exact ⟨rfl, nofun⟩
  | cons line lines ih =>
    have hsame := h.add_line line
    obtain ⟨c, place, hc⟩ := id h
    obtain ⟨hlength, hall⟩ := ih (hsame ▸ h)
    rw [asked_of_pending (readLine_of_invalid (hsame.trans hc))]
    refine ⟨congrArg (· + 1) hlength, List.forall_mem_cons.2 ⟨hsame, fun u hu => ?_⟩⟩
    exact (hall u hu).trans hsame

/-- A session that has refused a text was not told to end before, reads all of its
lines, and does not change its mind. -/
theorem asked_eq_append {before after : List (List Char)} {t : List Char}
    (h : asked pending lines = before ++ t :: after) (ht : (Verdict.ofChars t).IsInvalid) :
    (∀ u ∈ before, ¬IsExit u) ∧ (asked pending lines).length = lines.length ∧
      ∀ u ∈ t :: after, Verdict.ofChars u = Verdict.ofChars t := by
  induction lines generalizing pending before with
  | nil => cases before <;> cases h
  | cons line lines ih =>
    cases before with
    | nil =>
      have hfirst := (List.cons.inj h).1
      obtain ⟨c, place, hc⟩ := id ht
      rw [asked_of_pending (readLine_of_invalid (hfirst ▸ hc))] at h ⊢
      obtain ⟨rfl, rfl⟩ := List.cons.inj h
      obtain ⟨hlength, hall⟩ := asked_of_isInvalid ht
      exact ⟨nofun, congrArg (· + 1) hlength, List.forall_mem_cons.2 ⟨rfl, hall⟩⟩
    | cons first before =>
      -- whatever comes of the line, the session goes on, or there would be no `t`
      suffices hnext : ¬IsExit first ∧ ∃ text,
          asked pending (line :: lines) = first :: asked text lines by
        obtain ⟨hexit, text, hnext⟩ := hnext
        rw [hnext] at h ⊢
        obtain ⟨hbefore, hlength, hall⟩ := ih (List.cons.inj h).2
        exact ⟨List.forall_mem_cons.2 ⟨hexit, hbefore⟩, congrArg (· + 1) hlength, hall⟩
      obtain rfl : (splitLineEnd (pending ++ line)).1 = first := (List.cons.inj h).1
      by_cases hv : Verdict.ofChars (splitLineEnd (pending ++ line)).1 = .valid
      · have hread := @asked_of_input _ _ lines _ (readLine_of_valid hv)
        by_cases hexit : IsExit (splitLineEnd (pending ++ line)).1
        · rw [hread, if_pos hexit] at h
          cases before <;> cases (List.cons.inj h).2
        · exact ⟨hexit, [], by rw [hread, if_neg hexit]⟩
      · obtain ⟨text, hread⟩ := exists_readLine_eq_pending hv
        exact ⟨mt IsExit.ofChars_eq_valid hv, text, asked_of_pending hread⟩

end Asked

/-! ### What a session shows -/

namespace Transcript

@[simp] theorem empty_append (t : Transcript) : empty ++ t = t := by
  show append empty t = t
  simp only [append, empty, String.empty_append, List.nil_append]

theorem append_assoc (t u v : Transcript) : t ++ u ++ v = t ++ (u ++ v) := by
  show append (append t u) v = append t (append u v)
  simp only [append, String.append_assoc, List.append_assoc]

/-- The answers to sources that are evaluated one after the other. -/
def answers (fuel : Nat) (s : State) : List String → Option Transcript
  | [] => some empty
  | source :: sources =>
    (respond fuel source s).bind fun p => (answers fuel p.2 sources).map (p.1 ++ ·)

/-- What becomes of a source that is evaluated: its result, and what it printed. -/
structure Reply where
  source : String
  result : Except Error Value
  printed : String

/-- What was printed, and the value if there is one. -/
def Reply.output (a : Reply) : String :=
  match a.result with
  | .ok v => a.printed ++ v.text ++ "\n"
  | .error _ => a.printed

/-- The first line of the report, if the evaluation has failed. -/
def Reply.report? (a : Reply) : Option String :=
  match a.result with
  | .ok _ => none
  | .error e => some (Report.ofError a.source e).headline

/-- The sources are evaluated one after the other in the global scope, each with a sink
of its own, also after one that has failed. -/
inductive Replies (fuel : Nat) : State → List String → List Reply → Prop
  | nil (s : State) : Replies fuel s [] []
  | reply {s t : State} {source : String} {r : Except Error Value} {sources : List String}
    {replies : List Reply} (hr : evaluate fuel 0 source (s.redirect none) = some (r, t))
    (h : Replies fuel t sources replies) :
    Replies fuel s (source :: sources) (⟨source, r, t.sink.text⟩ :: replies)

/-- What is shown for the evaluations of sources. -/
def ofReplies (replies : List Reply) : Transcript :=
  ⟨String.join (replies.map Reply.output), replies.filterMap Reply.report?, []⟩

theorem ofReplies_cons (source : String) (r : Except Error Value) (s : State)
    (replies : List Reply) :
    ofReplies (⟨source, r, s.sink.text⟩ :: replies) = ofResult source r s ++ ofReplies replies := by
  show _ = append _ _
  simp only [ofReplies, ofResult, append, List.map_cons, String.join_cons, List.filterMap_cons]
  cases r <;> rfl

/-- Answers are what the evaluations of the sources show. -/
theorem answers_eq_some_iff {fuel : Nat} {s : State} {sources : List String} {t : Transcript} :
    answers fuel s sources = some t ↔
      ∃ replies, Replies fuel s sources replies ∧ t = ofReplies replies := by
  induction sources generalizing s t with
  | nil =>
    constructor
    · intro h
      cases h
      exact ⟨[], .nil s, rfl⟩
    · rintro ⟨replies, h, rfl⟩
      cases h
      rfl
  | cons source sources ih =>
    constructor
    · intro h
      obtain ⟨⟨answer, u⟩, hr, h⟩ := Option.bind_eq_some_iff.1 h
      obtain ⟨rest, hrest, rfl⟩ := Option.map_eq_some_iff.1 h
      obtain ⟨⟨r, v⟩, heval, ho⟩ := Option.map_eq_some_iff.1 hr
      cases ho
      obtain ⟨replies, hreplies, rfl⟩ := ih.1 hrest
      exact ⟨_, .reply heval hreplies, (ofReplies_cons ..).symm⟩
    · rintro ⟨replies, h, rfl⟩
      cases h with
      | @reply _ u _ r _ replies hr h =>
        rw [answers, respond, hr, Option.map_some, Option.bind_some, ih.2 ⟨replies, h, rfl⟩,
          Option.map_some, ofReplies_cons]

theorem complaints_answers {fuel : Nat} {s : State} {sources : List String} {t : Transcript}
    (h : answers fuel s sources = some t) : t.complaints = [] := by
  obtain ⟨replies, -, rfl⟩ := answers_eq_some_iff.1 h
  rfl

def ofComplaint (complaint : Option String) : Transcript := ⟨"", [], complaint.toList⟩

/-- What a session shows that is no answer: it complains about the texts that it
refuses, and takes its leave unless it has been told to end. -/
def remarks (texts : List (List Char)) : Transcript :=
  ⟨if ∃ t ∈ texts, IsExit t then "" else farewell, [], texts.filterMap complaint?⟩

@[simp] theorem ofComplaint_none (t : Transcript) : ofComplaint none ++ t = t := empty_append t

theorem remarks_cons {text : List Char} (h : ¬IsExit text) (texts : List (List Char)) :
    remarks (text :: texts) = ofComplaint (complaint? text) ++ remarks texts := by
  show _ = append _ _
  simp only [remarks, append, ofComplaint, List.exists_mem_cons_iff, h, false_or,
    String.empty_append, List.nil_append]
  cases hc : complaint? text with
  | none => rw [List.filterMap_cons_none hc, Option.toList_none, List.nil_append]
  | some c => rw [List.filterMap_cons_some hc, Option.toList_some, List.singleton_append]

section OfLines

variable {fuel : Nat} {s : State} {pending line : List Char} {lines : List (List Char)}

theorem ofLines_of_pending {text : List Char} {complaint : Option String}
    (h : readLine pending line = .pending text complaint) :
    ofLines fuel s pending (line :: lines) =
      (ofLines fuel s text lines).map (ofComplaint complaint ++ ·) := by
  rw [ofLines, h, Option.map_eq_bind]
  rfl

theorem ofLines_of_exit {text : List Char} (h : readLine pending line = .input text)
    (hc : Command.ofInput text = .exit) :
    ofLines fuel s pending (line :: lines) = some empty := by
  rw [ofLines, h]
  dsimp only
  rw [hc]

theorem ofLines_of_skip {text : List Char} (h : readLine pending line = .input text)
    (hc : Command.ofInput text = .skip) :
    ofLines fuel s pending (line :: lines) = ofLines fuel s [] lines := by
  rw [ofLines, h]
  dsimp only
  rw [hc]

theorem ofLines_of_evaluate {text : List Char} {source : String}
    (h : readLine pending line = .input text) (hc : Command.ofInput text = .evaluate source) :
    ofLines fuel s pending (line :: lines) =
      (respond fuel source s).bind fun p => (ofLines fuel p.2 [] lines).map (p.1 ++ ·) := by
  rw [ofLines, h]
  dsimp only
  rw [hc]
  simp only [Option.map_eq_bind]
  rfl

/-- It makes no difference whether a complaint comes before the answers or after them. -/
theorem map_ofComplaint_answers (complaint : Option String) (sources : List String)
    (texts : List (List Char)) :
    ((answers fuel s sources).map (· ++ remarks texts)).map (ofComplaint complaint ++ ·) =
      (answers fuel s sources).map (· ++ (ofComplaint complaint ++ remarks texts)) := by
  cases h : answers fuel s sources with
  | none => rfl
  | some t =>
    refine congrArg some ?_
    show append _ (append t _) = append t (append _ _)
    simp only [append, ofComplaint, complaints_answers h, String.empty_append, List.nil_append]

/-- What a session shows are the answers to the sources that it evaluates, and remarks. -/
theorem ofLines_eq (fuel : Nat) (s : State) (pending : List Char) (lines : List (List Char)) :
    ofLines fuel s pending lines =
      (answers fuel s ((asked pending lines).filterMap evaluated?)).map
        (· ++ remarks (asked pending lines)) := by
  induction lines generalizing s pending with
  | nil => rfl
  | cons line lines ih =>
    by_cases hv : Verdict.ofChars (splitLineEnd (pending ++ line)).1 = .valid
    · have hcomplaint : complaint? (splitLineEnd (pending ++ line)).1 = none := by
        rw [complaint?, hv]
        rfl
      have hread := readLine_of_valid hv
      rw [asked_of_input hread]
      cases hc : Command.ofInput (splitLineEnd (pending ++ line)).1 with
      | exit =>
        have hexit := Command.ofInput_eq_exit_iff.1 hc
        have heval : evaluated? (splitLineEnd (pending ++ line)).1 = none := by
          rw [evaluated?, hv, hc]
        rw [ofLines_of_exit hread hc, if_pos hexit, List.filterMap_cons_none heval, remarks,
          List.filterMap_cons_none hcomplaint, if_pos ⟨_, List.mem_cons_self, hexit⟩]
        rfl
      | skip =>
        have hexit := mt Command.ofInput_eq_exit_iff.2 (by rw [hc]; exact nofun)
        have heval : evaluated? (splitLineEnd (pending ++ line)).1 = none := by
          rw [evaluated?, hv, hc]
        rw [ofLines_of_skip hread hc, if_neg hexit, List.filterMap_cons_none heval,
          remarks_cons hexit, hcomplaint, ofComplaint_none, ih]
      | evaluate source =>
        have hexit := mt Command.ofInput_eq_exit_iff.2 (by rw [hc]; exact nofun)
        have heval : evaluated? (splitLineEnd (pending ++ line)).1 = some source := by
          rw [evaluated?, hv, hc]
        rw [ofLines_of_evaluate hread hc, if_neg hexit, List.filterMap_cons_some heval,
          remarks_cons hexit, hcomplaint, ofComplaint_none, answers, Option.map_bind]
        refine congrArg _ (funext fun p => ?_)
        rw [ih, Function.comp_apply, Option.map_map, Option.map_map]
        exact congrArg (Option.map · _) (funext fun rest => (append_assoc _ _ _).symm)
    · obtain ⟨text, hread⟩ := exists_readLine_eq_pending hv
      rw [ofLines_of_pending hread, ih, map_ofComplaint_answers, asked_of_pending hread,
        List.filterMap_cons_none (evaluated?_of_ne_valid hv),
        remarks_cons (mt IsExit.ofChars_eq_valid hv)]

end OfLines

/-- What a session shows at the start: a banner, and what is wrong with the settings. -/
def opening (environment : String → Option String) : Transcript :=
  ⟨banner, match Settings.read environment with
    | .ok _ => []
    | .error e => [e.message], []⟩

theorem ofText_eq (fuel : Nat) (environment : String → Option String) (text : String) :
    let texts := asked [] (splitLines text.toList)
    ofText fuel environment text =
      (answers fuel (.fresh none) (texts.filterMap evaluated?)).map
        fun shown => opening environment ++ (shown ++ remarks texts) := by
  rw [ofText, ofLines_eq]
  exact (Option.map_eq_bind ..).symm.trans (Option.map_map ..)

section Refused

variable {texts before after : List (List Char)} {t : List Char}

/-- No source is evaluated once a text has been refused. -/
theorem filterMap_evaluated?_of_refused (ht : (Verdict.ofChars t).IsInvalid)
    (h : ∀ u ∈ t :: after, Verdict.ofChars u = Verdict.ofChars t) :
    (before ++ t :: after).filterMap evaluated? = before.filterMap evaluated? := by
  have hnone : ∀ u ∈ t :: after, evaluated? u = none := by
    intro u hu
    refine evaluated?_of_ne_valid fun hv => ?_
    rw [← h u hu, hv] at ht
    exact Verdict.not_isInvalid_valid ht
  rw [List.filterMap_append, List.filterMap_eq_nil_iff.2 hnone, List.append_nil]

/-- A session that has refused a text says farewell, and complains about every line
in the same way. -/
theorem ofLines_of_isInvalid (fuel : Nat) (s : State) (ht : (Verdict.ofChars t).IsInvalid)
    (lines : List (List Char)) :
    ∃ complaint, complaint? t = some complaint ∧
      ofLines fuel s t lines = some ⟨farewell, [], List.replicate lines.length complaint⟩ := by
  obtain ⟨complaint, hcomplaint⟩ :=
    Option.isSome_iff_exists.1 (Verdict.isSome_complaint?_iff.2 ht)
  refine ⟨complaint, hcomplaint, ?_⟩
  induction lines generalizing t with
  | nil => rfl
  | cons line lines ih =>
    have hsame := ht.add_line line
    obtain ⟨c, place, hc⟩ := id ht
    rw [ofLines_of_pending (readLine_of_invalid (hsame.trans hc)),
      ih (hsame ▸ ht) ((congrArg Verdict.complaint? hsame).trans hcomplaint), ← hc, hcomplaint]
    rfl

end Refused

/-- A session that refuses a text evaluates nothing from then on. It puts a question
for every line that is left and gets the same answer to all of them, and the one
thing that it still writes is its farewell. So the sources that a session evaluates
are those that were ready before the first refusal and are neither blank nor the
word that ends it, and its answers are what their evaluations print, return and
report. -/
theorem ofText_once_refused (fuel : Nat) (environment : String → Option String) (text : String) :
    let texts := asked [] (splitLines text.toList)
    let sources := (texts.takeWhile fun t => (complaint? t).isNone).filterMap evaluated?
    ofText fuel environment text = (answers fuel (.fresh none) sources).map
      (fun shown => opening environment ++ (shown ++ remarks texts)) ∧
    (∀ shown, answers fuel (.fresh none) sources = some shown ↔
      ∃ replies, Replies fuel (.fresh none) sources replies ∧ shown = ofReplies replies) ∧
    (∀ before t after, texts = before ++ t :: after → (Verdict.ofChars t).IsInvalid →
      (∀ u ∈ after, Verdict.ofChars u = Verdict.ofChars t) ∧
      texts.length = (splitLines text.toList).length ∧
      sources = before.filterMap evaluated? ∧ (remarks texts).output = farewell ∧
      ∀ s lines, ∃ complaint, complaint? t = some complaint ∧
        ofLines fuel s t lines = some ⟨farewell, [], List.replicate lines.length complaint⟩) ∧
    ∀ t source, evaluated? t = some source ↔ Verdict.ofChars t = .valid ∧
      source = String.ofList (Text.trimBlanks t) ∧ source ≠ "" ∧
      ¬Text.equalsIgnoringCase source "exit" := by
  intro texts sources
  have hall : texts.filterMap evaluated? = sources := by
    have hsplit : texts = texts.takeWhile (fun t => (complaint? t).isNone) ++
        texts.dropWhile fun t => (complaint? t).isNone := List.takeWhile_append_dropWhile.symm
    cases hd : texts.dropWhile fun t => (complaint? t).isNone with
    | nil =>
      rw [hd, List.append_nil] at hsplit
      exact congrArg _ hsplit
    | cons t after =>
      have hhead := List.head?_dropWhile_not (fun t => (complaint? t).isNone) texts
      rw [hd] at hhead
      have ht := Verdict.isSome_complaint?_iff.1 (Option.isNone_eq_false_iff.1 hhead)
      rw [hd] at hsplit
      conv_lhs => rw [hsplit]
      exact filterMap_evaluated?_of_refused ht (asked_eq_append hsplit ht).2.2
  refine ⟨hall ▸ ofText_eq fuel environment text, fun _ => answers_eq_some_iff,
    fun before t after h ht => ?_, fun t source => evaluated?_eq_some_iff⟩
  obtain ⟨hbefore, hlength, hsame⟩ := asked_eq_append h ht
  refine ⟨(List.forall_mem_cons.1 hsame).2, hlength, ?_, ?_,
    fun s lines => ofLines_of_isInvalid fuel s ht lines⟩
  · rw [← hall, h]
    exact filterMap_evaluated?_of_refused ht hsame
  · refine if_neg ?_
    rintro ⟨u, hu, hexit⟩
    rw [h] at hu
    rcases List.mem_append.1 hu with hu | hu
    · exact hbefore u hu hexit
    · rw [← hsame u hu, hexit.ofChars_eq_valid] at ht
      exact Verdict.not_isInvalid_valid ht

example : asked [] (splitLines "(print 1)\n]\n(print 2)\n".toList) =
    ["(print 1)".toList, "]".toList, "](print 2)".toList] := by
  decide +kernel

end Transcript

end SmallLisp.Prompt
