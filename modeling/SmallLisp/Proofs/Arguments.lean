import SmallLisp.Proofs.Results
import SmallLisp.Proofs.Truncation

/-! What primitives ask of their arguments. The number of them has to fit, and each has to be
of the type that is asked for at its position. A primitive that is given such arguments has
a value, and what it combines it combines from the left; given any other arguments it says
what is wrong, and if one of many arguments of one type is of another, which is the first.
Nothing is written before the arguments are known to fit. -/

namespace SmallLisp

namespace Primitive

/-! ### What is asked for -/

/-- The type of all arguments of a primitive that takes one of them or more. -/
def repeatedType? : Primitive → Option ValueType
  | add | sub | mul | div => some .number
  | and | or => some .boolean
  | print => some .string
  | not | eq | neq | car | cdr | cons => none

/-- Whether a primitive takes so many arguments. -/
def TakesCount (p : Primitive) (n : Nat) : Prop :=
  match p with
  | add | sub | mul | div | and | or | print => 1 ≤ n
  | not | car | cdr => n = 1
  | eq | neq | cons => n = 2

/-- Whether a primitive takes a value for the argument at a position, counted from one. -/
def TakesAt (p : Primitive) (position : Nat) (v : Value) : Prop :=
  match p with
  | add | sub | mul | div => v.type = .number
  | and | or | not => v.type = .boolean
  | print => v.type = .string
  | car | cdr => v.type = .list ∧ v ≠ .list []
  | cons => position = 1 → v.type = .list
  | eq | neq => True

/-- Whether a primitive takes the arguments. -/
def Takes (p : Primitive) (args : List Value) : Prop :=
  p.TakesCount args.length ∧ ∀ i v, args[i]? = some v → p.TakesAt (i + 1) v

/-- What two numbers are combined to. -/
def numberOperation? : Primitive → Option (Single → Single → Single)
  | add => some .add
  | sub => some .sub
  | mul => some .mul
  | div => some .div
  | _ => none

/-- What two truth values are combined to. -/
def booleanOperation? : Primitive → Option (Bool → Bool → Bool)
  | and => some .and
  | or => some .or
  | _ => none

/-- The values of primitives. -/
inductive Gives : Primitive → List Value → Value → Prop
  | numbers {p : Primitive} {f : Single → Single → Single} (h : p.numberOperation? = some f)
    (x : Single) (xs : List Single) :
    Gives p ((x :: xs).map .number) (.number (xs.foldl f x))
  | booleans {p : Primitive} {f : Bool → Bool → Bool} (h : p.booleanOperation? = some f)
    (b : Bool) (bs : List Bool) : Gives p ((b :: bs).map .boolean) (.boolean (bs.foldl f b))
  | not (b : Bool) : Gives not [.boolean b] (.boolean !b)
  | eq (v w : Value) : Gives eq [v, w] (.boolean (v.equals w))
  | neq (v w : Value) : Gives neq [v, w] (.boolean !v.equals w)
  | car (v : Value) (vs : List Value) : Gives car [.list (v :: vs)] v
  | cdr (v : Value) (vs : List Value) : Gives cdr [.list (v :: vs)] (.list vs)
  | cons (vs : List Value) (w : Value) : Gives cons [.list vs, w] (.list (vs ++ [w]))
  | print (part : String) (parts : List String) :
    Gives print ((part :: parts).map .string)
      (.string (String.ofList (spaced ((part :: parts).map String.toList))))

end Primitive

/-! ### Arguments of one type -/

/-- The values of a type are those that `wrap` makes, and `content?` reads them. -/
structure ValueType.Wraps {α : Type} (type : ValueType) (content? : Value → Option α)
    (wrap : α → Value) : Prop where
  content?_wrap (a : α) : content? (wrap a) = some a
  content?_eq_none {v : Value} (h : v.type ≠ type) : content? v = none
  type_eq_iff {v : Value} : v.type = type ↔ ∃ a, v = wrap a

theorem ValueType.wraps_number : number.Wraps Value.number? Value.number :=
  ⟨fun _ => rfl, fun {v} h => by cases v <;> simp_all [Value.type, Value.number?],
    fun {v} => by cases v <;> simp [Value.type]⟩

theorem ValueType.wraps_boolean : boolean.Wraps Value.boolean? Value.boolean :=
  ⟨fun _ => rfl, fun {v} h => by cases v <;> simp_all [Value.type, Value.boolean?],
    fun {v} => by cases v <;> simp [Value.type]⟩

theorem ValueType.wraps_string : string.Wraps Value.string? Value.string :=
  ⟨fun _ => rfl, fun {v} h => by cases v <;> simp_all [Value.type, Value.string?],
    fun {v} => by cases v <;> simp [Value.type]⟩

theorem Value.type_eq_list_iff {v : Value} : v.type = .list ↔ ∃ vs, v = .list vs := by
  cases v <;> simp [type]

section Wraps

variable {α : Type} {type : ValueType} {content? : Value → Option α} {wrap : α → Value}
  (hw : type.Wraps content? wrap)
include hw

theorem ValueType.Wraps.exists_map {args : List Value} (h : ∀ v ∈ args, v.type = type) :
    ∃ as : List α, args = as.map wrap := by
  induction args with
  | nil => exact ⟨[], rfl⟩
  | cons v args ih =>
    obtain ⟨hv, hargs⟩ := List.forall_mem_cons.1 h
    obtain ⟨a, rfl⟩ := hw.type_eq_iff.1 hv
    obtain ⟨as, rfl⟩ := ih hargs
    exact ⟨a :: as, rfl⟩

/-- Among arguments of a type there is a first one of another type, if there is any. -/
theorem ValueType.Wraps.exists_map_or_split (args : List Value) :
    (∃ as : List α, args = as.map wrap) ∨
      ∃ (as : List α) (v : Value) (after : List Value),
        args = as.map wrap ++ v :: after ∧ v.type ≠ type := by
  induction args with
  | nil => exact .inl ⟨[], rfl⟩
  | cons v args ih =>
    by_cases hv : v.type = type
    · obtain ⟨a, rfl⟩ := hw.type_eq_iff.1 hv
      rcases ih with ⟨as, rfl⟩ | ⟨as, w, after, rfl, hne⟩
      · exact .inl ⟨a :: as, rfl⟩
      · exact .inr ⟨a :: as, w, after, rfl, hne⟩
    · exact .inr ⟨[], v, args, rfl, hv⟩

namespace Primitive

variable (p : Primitive)

theorem contents_map (position : Nat) (as : List α) :
    contents p type content? position (as.map wrap) = .ok as := by
  induction as generalizing position with
  | nil => rfl
  | cons a as ih =>
    rw [List.map_cons, contents, hw.content?_wrap]
    dsimp only
    rw [ih]
    rfl

/-- The first argument of another type is the one that is named. -/
theorem contents_split (position : Nat) (as : List α) {v : Value} (hv : v.type ≠ type)
    (after : List Value) :
    contents p type content? position (as.map wrap ++ v :: after) =
      .error (.wrongType p type (position + as.length) v.type) := by
  induction as generalizing position with
  | nil =>
    rw [List.map_nil, List.nil_append, contents, hw.content?_eq_none hv]
    rfl
  | cons a as ih =>
    rw [List.map_cons, List.cons_append, contents, hw.content?_wrap]
    dsimp only
    rw [ih, List.length_cons, Nat.add_right_comm, Nat.add_assoc]
    rfl

theorem contents_eq_ok_iff {position : Nat} {args : List Value} {as : List α} :
    contents p type content? position args = .ok as ↔ args = as.map wrap := by
  constructor
  · intro h
    rcases hw.exists_map_or_split args with ⟨bs, rfl⟩ | ⟨bs, v, after, rfl, hv⟩
    · rw [contents_map hw] at h
      rw [Except.ok.inj h]
    · cases (contents_split hw p position bs hv after).symm.trans h
  · rintro rfl
    exact contents_map hw p position as

theorem combine_eq_ok_iff {f : α → α → α} {args : List Value} {b : α} :
    combine p type content? f args = .ok b ↔
      ∃ a as, args = (a :: as).map wrap ∧ b = as.foldl f a := by
  simp only [combine, bind_eq_ok, contents_eq_ok_iff hw]
  constructor
  · rintro ⟨as, rfl, h⟩
    cases as with
    | nil => cases h
    | cons a as => exact ⟨a, as, rfl, (Except.ok.inj h).symm⟩
  · rintro ⟨a, as, rfl, rfl⟩
    exact ⟨a :: as, rfl, rfl⟩

theorem combine_split {f : α → α → α} (as : List α) {v : Value} (hv : v.type ≠ type)
    (after : List Value) :
    combine p type content? f (as.map wrap ++ v :: after) =
      .error (.wrongType p type (as.length + 1) v.type) := by
  rw [combine, contents_split hw p 1 as hv after, Nat.add_comm]
  rfl

end Primitive

end Wraps

namespace Primitive

open ValueType (wraps_number wraps_boolean wraps_string)

/-! ### Values -/

section Values

variable {p : Primitive} {args : List Value} {v : Value}

theorem combineNumbers_eq_ok_iff {f : Single → Single → Single} :
    combineNumbers p f args = .ok v ↔
      ∃ x xs, args = (x :: xs).map .number ∧ v = .number (xs.foldl f x) := by
  simp only [combineNumbers, map_eq_ok, combine_eq_ok_iff wraps_number]
  constructor
  · rintro ⟨y, ⟨x, xs, rfl, rfl⟩, rfl⟩
    exact ⟨x, xs, rfl, rfl⟩
  · rintro ⟨x, xs, rfl, rfl⟩
    exact ⟨_, ⟨x, xs, rfl, rfl⟩, rfl⟩

theorem combineBooleans_eq_ok_iff {f : Bool → Bool → Bool} :
    combineBooleans p f args = .ok v ↔
      ∃ b bs, args = (b :: bs).map .boolean ∧ v = .boolean (bs.foldl f b) := by
  simp only [combineBooleans, map_eq_ok, combine_eq_ok_iff wraps_boolean]
  constructor
  · rintro ⟨c, ⟨b, bs, rfl, rfl⟩, rfl⟩
    exact ⟨b, bs, rfl, rfl⟩
  · rintro ⟨b, bs, rfl, rfl⟩
    exact ⟨_, ⟨b, bs, rfl, rfl⟩, rfl⟩

theorem printedLine_eq_ok_iff {line : String} :
    printedLine args = .ok line ↔ ∃ part parts, args = (part :: parts).map .string ∧
      line = String.ofList (spaced ((part :: parts).map String.toList)) := by
  simp only [printedLine, bind_eq_ok, contents_eq_ok_iff wraps_string]
  constructor
  · rintro ⟨parts, rfl, h⟩
    cases parts with
    | nil => cases h
    | cons part parts => exact ⟨part, parts, rfl, (Except.ok.inj h).symm⟩
  · rintro ⟨part, parts, rfl, rfl⟩
    exact ⟨part :: parts, rfl, rfl⟩

theorem splitList_eq_ok_iff {w : Value} {parts : Value × List Value} :
    splitList p w = .ok parts ↔ w = .list (parts.1 :: parts.2) := by
  cases w with
  | list vs => cases vs <;> simp [splitList, Prod.ext_iff]
  | string | number | boolean | function => simp [splitList]

theorem gives_of_result (h : p.result args = .ok v) : p.Gives args v := by
  cases p with
  | add | sub | mul | div =>
    obtain ⟨x, xs, rfl, rfl⟩ := combineNumbers_eq_ok_iff.1 h
    exact .numbers rfl x xs
  | and | or =>
    obtain ⟨b, bs, rfl, rfl⟩ := combineBooleans_eq_ok_iff.1 h
    exact .booleans rfl b bs
  | not =>
    simp only [result] at h
    split at h
    · exact Except.ok.inj h ▸ .not _
    · cases h
    · cases h
  | eq =>
    simp only [result] at h
    split at h
    · exact Except.ok.inj h ▸ .eq _ _
    · cases h
  | neq =>
    simp only [result] at h
    split at h
    · exact Except.ok.inj h ▸ .neq _ _
    · cases h
  | car =>
    simp only [result] at h
    split at h
    · obtain ⟨⟨first, rest⟩, hs, rfl⟩ := map_eq_ok.1 h
      exact splitList_eq_ok_iff.1 hs ▸ .car first rest
    · cases h
  | cdr =>
    simp only [result] at h
    split at h
    · obtain ⟨⟨first, rest⟩, hs, rfl⟩ := map_eq_ok.1 h
      exact splitList_eq_ok_iff.1 hs ▸ .cdr first rest
    · cases h
  | cons =>
    simp only [result] at h
    split at h
    · exact Except.ok.inj h ▸ .cons _ _
    · cases h
    · cases h
  | print =>
    obtain ⟨line, hl, rfl⟩ := map_eq_ok.1 h
    obtain ⟨part, parts, rfl, rfl⟩ := printedLine_eq_ok_iff.1 hl
    exact .print part parts

theorem result_of_gives (h : p.Gives args v) : p.result args = .ok v := by
  cases h with
  | @numbers p f hf x xs =>
    have hr : combineNumbers p f ((x :: xs).map .number) = .ok (.number (xs.foldl f x)) :=
      combineNumbers_eq_ok_iff.2 ⟨x, xs, rfl, rfl⟩
    cases p <;> cases hf <;> exact hr
  | @booleans p f hf b bs =>
    have hr : combineBooleans p f ((b :: bs).map .boolean) = .ok (.boolean (bs.foldl f b)) :=
      combineBooleans_eq_ok_iff.2 ⟨b, bs, rfl, rfl⟩
    cases p <;> cases hf <;> exact hr
  | not | eq | neq | car | cdr | cons => rfl
  | print part parts => exact map_eq_ok.2 ⟨_, printedLine_eq_ok_iff.2 ⟨part, parts, rfl, rfl⟩, rfl⟩

/-! ### Arguments that fit -/

theorem takes_of_gives (h : p.Gives args v) : p.Takes args := by
  constructor
  · cases h with
    | @numbers p f hf => cases p <;> cases hf <;> exact Nat.le_add_left 1 _
    | @booleans p f hf => cases p <;> cases hf <;> exact Nat.le_add_left 1 _
    | print => exact Nat.le_add_left 1 _
    | not | eq | neq | car | cdr | cons => rfl
  · intro i w hi
    have hmem := List.mem_of_getElem? hi
    cases h with
    | @numbers p f hf x xs =>
      obtain ⟨y, -, rfl⟩ := List.mem_map.1 hmem
      cases p <;> cases hf <;> rfl
    | @booleans p f hf b bs =>
      obtain ⟨c, -, rfl⟩ := List.mem_map.1 hmem
      cases p <;> cases hf <;> rfl
    | print part parts =>
      obtain ⟨s, -, rfl⟩ := List.mem_map.1 hmem
      rfl
    | not b =>
      cases List.mem_singleton.1 hmem
      rfl
    | car u us | cdr u us =>
      cases List.mem_singleton.1 hmem
      exact ⟨rfl, nofun⟩
    | cons us u =>
      intro hfirst
      obtain rfl : i = 0 := Nat.succ.inj hfirst
      cases hi
      rfl
    | eq | neq => trivial

/-- Arguments of one type, at least one of them. -/
theorem exists_gives_of_repeated {type : ValueType} (hp : p.repeatedType? = some type)
    (hne : args ≠ []) (h : ∀ v ∈ args, v.type = type) : ∃ v, p.Gives args v := by
  obtain ⟨w, ws, rfl⟩ := List.exists_cons_of_ne_nil hne
  cases p <;> cases hp
  case add | sub | mul | div =>
    obtain ⟨_ | ⟨x, xs⟩, hargs⟩ := wraps_number.exists_map h
    · cases hargs
    · exact hargs ▸ ⟨_, .numbers rfl x xs⟩
  case and | or =>
    obtain ⟨_ | ⟨b, bs⟩, hargs⟩ := wraps_boolean.exists_map h
    · cases hargs
    · exact hargs ▸ ⟨_, .booleans rfl b bs⟩
  case print =>
    obtain ⟨_ | ⟨part, parts⟩, hargs⟩ := wraps_string.exists_map h
    · cases hargs
    · exact hargs ▸ ⟨_, .print part parts⟩

theorem exists_gives_of_takes (h : p.Takes args) : ∃ v, p.Gives args v := by
  obtain ⟨hcount, hat⟩ := h
  cases p
  case add | sub | mul | div | and | or | print =>
    refine exists_gives_of_repeated rfl (List.ne_nil_of_length_pos hcount) fun w hw => ?_
    obtain ⟨i, hi⟩ := List.mem_iff_getElem?.1 hw
    exact hat i w hi
  case not =>
    obtain ⟨w, rfl⟩ := List.length_eq_one_iff.1 hcount
    obtain ⟨b, rfl⟩ := wraps_boolean.type_eq_iff.1 (hat 0 w rfl)
    exact ⟨_, .not b⟩
  case eq | neq =>
    obtain ⟨w, w', rfl⟩ := List.length_eq_two.1 hcount
    first | exact ⟨_, .eq w w'⟩ | exact ⟨_, .neq w w'⟩
  case car | cdr =>
    obtain ⟨w, rfl⟩ := List.length_eq_one_iff.1 hcount
    obtain ⟨htype, hne⟩ := hat 0 w rfl
    obtain ⟨vs, rfl⟩ := Value.type_eq_list_iff.1 htype
    obtain ⟨u, us, rfl⟩ := List.exists_cons_of_ne_nil fun hnil => hne (congrArg Value.list hnil)
    first | exact ⟨_, .car u us⟩ | exact ⟨_, .cdr u us⟩
  case cons =>
    obtain ⟨w, w', rfl⟩ := List.length_eq_two.1 hcount
    obtain ⟨vs, rfl⟩ := Value.type_eq_list_iff.1 (hat 0 w rfl rfl)
    exact ⟨_, .cons vs w'⟩

/-- The first of many arguments that is of another type is named. -/
theorem result_split {type : ValueType} (hp : p.repeatedType? = some type)
    {before after : List Value} (hbefore : ∀ w ∈ before, w.type = type) (hv : v.type ≠ type) :
    p.result (before ++ v :: after) = .error (.wrongType p type (before.length + 1) v.type) := by
  cases p <;> cases hp
  case add | sub | mul | div =>
    obtain ⟨xs, rfl⟩ := wraps_number.exists_map hbefore
    simp [result, combineNumbers, combine_split wraps_number _ xs hv]
  case and | or =>
    obtain ⟨bs, rfl⟩ := wraps_boolean.exists_map hbefore
    simp [result, combineBooleans, combine_split wraps_boolean _ bs hv]
  case print =>
    obtain ⟨parts, rfl⟩ := wraps_string.exists_map hbefore
    simp only [result, printedLine, contents_split wraps_string _ 1 parts hv, List.length_map,
      Nat.add_comm]
    rfl

end Values

/-! ### Calls -/

variable (p : Primitive) (args : List Value) (span : Span) {s : State}

theorem outcome_apply_error {fault : ArgumentError} (h : p.result args = .error fault) :
    (p.apply args span).outcome s = some (.error (.invalidArguments fault span), s) := by
  rw [apply, h]
  rfl

/-- What is written for a value: the line of `print`, and nothing else. -/
theorem outcome_apply_ok {v : Value} (h : p.result args = .ok v) (hs : s.sink.limit = none) :
    ∃ bytes, (p.apply args span).outcome s =
        some (.ok v, { s with sink := { s.sink with written := s.sink.written ++ bytes } }) ∧
      (p ≠ .print → bytes = #[]) ∧
      ∀ line, p = .print → v = .string line → bytes = Text.encode (line ++ "\n") := by
  rw [apply, h]
  dsimp only
  cases ho : p.output? v with
  | none =>
    refine ⟨#[], by rw [Array.append_empty]; rfl, fun _ => rfl, ?_⟩
    rintro line rfl rfl
    cases ho
  | some text =>
    obtain ⟨rfl, line, rfl, rfl⟩ := output?_eq_some ho
    refine ⟨Text.encode (line ++ "\n"), ?_, fun hne => absurd rfl hne, ?_⟩
    · have hfits : s.sink.fits (Text.encode (line ++ "\n")).size = true := by
        rw [Sink.fits, hs]
      dsimp only
      rw [Run.outcome_bind, Run.outcome_write, hfits, Sink.write, hs]
      rfl
    · rintro other - hother
      cases hother
      rfl

/-- A call of a primitive with a sink that never fails. Either the primitive takes its
arguments, and the call has the value of the primitive and writes nothing, or for `print` the
text of the value and the end of a line; or it does not take them, and the call fails with its
own span and changes nothing. If all arguments are to be of one type, what is said names the
first that is not. -/
theorem apply_all_or_nothing (hs : s.sink.limit = none) :
    (p.Takes args ∧ ∃ v bytes, p.Gives args v ∧
      (p.apply args span).outcome s =
        some (.ok v, { s with sink := { s.sink with written := s.sink.written ++ bytes } }) ∧
      (p ≠ .print → bytes = #[]) ∧
      ∀ line, p = .print → v = .string line → bytes = Text.encode (line ++ "\n")) ∨
    (¬p.Takes args ∧ ∃ fault,
      (p.apply args span).outcome s = some (.error (.invalidArguments fault span), s) ∧
      ∀ type before v after, p.repeatedType? = some type → args = before ++ v :: after →
        (∀ w ∈ before, w.type = type) → v.type ≠ type →
        fault.message = "Primitive '" ++ p.name ++ "' expects a " ++ type.name ++
          " for argument " ++ toString (before.length + 1) ++ ", got " ++ v.typeName) := by
  cases hr : p.result args with
  | ok v =>
    have hgives := gives_of_result hr
    obtain ⟨bytes, hout, hbytes⟩ := outcome_apply_ok p args span hr hs
    exact .inl ⟨takes_of_gives hgives, v, bytes, hgives, hout, hbytes⟩
  | error fault =>
    refine .inr ⟨fun htakes => ?_, fault, outcome_apply_error p args span hr, ?_⟩
    · obtain ⟨v, hgives⟩ := exists_gives_of_takes htakes
      cases hr.symm.trans (result_of_gives hgives)
    · rintro type before v after hp rfl hbefore hv
      cases hr.symm.trans (result_split hp hbefore hv)
      rfl

/-- The second argument is of another type, and the first, being false, does not make up for
that. -/
theorem apply_and_false_nan :
    (State.fresh none).sink.limit = none ∧ ∃ fault,
      (and.apply [.boolean false, .number .nan] ⟨0, 15⟩).outcome (State.fresh none) =
        some (.error (.invalidArguments fault ⟨0, 15⟩), State.fresh none) ∧
      fault.message = "Primitive 'and' expects a boolean for argument 2, got number" := by
  refine ⟨rfl, ?_⟩
  rcases apply_all_or_nothing and [.boolean false, .number .nan] ⟨0, 15⟩
      (s := State.fresh none) rfl with ⟨⟨-, htakes⟩, -⟩ | ⟨-, fault, hout, hmessage⟩
  · cases htakes 1 (.number .nan) rfl
  · refine ⟨fault, hout, ?_⟩
    rw [hmessage .boolean [.boolean false] (.number .nan) [] rfl rfl (by simp [Value.type]) nofun]
    decide

end Primitive

end SmallLisp
