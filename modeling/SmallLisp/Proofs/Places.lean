import SmallLisp.Report
import SmallLisp.Proofs.Constructs

/-! The places that reports show. A span counts bytes, but a report takes its ends
for indices of characters. It begins between two characters of the source, and that
place is shown exactly if all characters before it are one byte long and the span,
so understood, does not leave the text. Otherwise a later place is shown, or none. -/

namespace SmallLisp

namespace Text

/-! ### Places in a text -/

/-- On an earlier line, or further to the left on the same one. -/
def Position.Before (p q : Position) : Prop :=
  p.line < q.line ∨ (p.line = q.line ∧ p.column < q.column)

namespace Position

variable {p q r : Position}

theorem Before.trans (h : p.Before q) (k : q.Before r) : p.Before r := by
  unfold Before at *
  omega

theorem Before.ne (h : p.Before q) : p ≠ q := by
  rintro rfl
  unfold Before at h
  omega

theorem before_next (p : Position) (newLine : Bool) : p.Before (p.next newLine) := by
  cases newLine with
  | true => exact .inl (Nat.lt_succ_self _)
  | false => exact .inr ⟨rfl, Nat.lt_succ_self _⟩

end Position

theorem before_advance (p : Position) {cs : List Char} {count : Nat} (hpos : 0 < count)
    (hle : count ≤ cs.length) : p.Before (advance p cs count) := by
  induction cs generalizing p count with
  | nil => exact absurd (Nat.lt_of_lt_of_le hpos hle) (Nat.lt_irrefl 0)
  | cons c cs ih =>
    obtain ⟨count, rfl⟩ := Nat.exists_eq_succ_of_ne_zero (Nat.ne_of_gt hpos)
    rw [advance]
    rcases Nat.eq_zero_or_pos count with rfl | hcount
    · cases cs <;> exact p.before_next _
    · exact (p.before_next _).trans (ih _ hcount (Nat.le_of_succ_le_succ hle))

theorem advance_append (p : Position) (before after : List Char) (count : Nat) :
    advance p (before ++ after) (before.length + count) =
      advance (advance p (before ++ after) before.length) after count := by
  induction before generalizing p with
  | nil =>
    rw [List.nil_append, List.length_nil, Nat.zero_add]
    cases after <;> rfl
  | cons c before ih =>
    rw [List.cons_append, List.length_cons, Nat.add_right_comm, advance, advance]
    exact ih _

/-- The later of two characters has the later place. -/
theorem positionOf_before (before : List Char) {after : List Char} {count : Nat} (hpos : 0 < count)
    (hle : count ≤ after.length) :
    (positionOf (before ++ after) before.length).Before
      (positionOf (before ++ after) (before.length + count)) := by
  rw [positionOf, positionOf, advance_append]
  exact before_advance _ hpos hle

theorem length_le_byteLength (cs : List Char) : cs.length ≤ byteLength cs := by
  induction cs with
  | nil => exact Nat.le_refl 0
  | cons c cs ih =>
    have := c.utf8Size_pos
    rw [List.length_cons, byteLength_cons]
    omega

/-- A text has as many bytes as characters if none of these is longer than a byte. -/
theorem byteLength_eq_length_iff {cs : List Char} :
    byteLength cs = cs.length ↔ ∀ c ∈ cs, c.utf8Size = 1 := by
  induction cs with
  | nil => exact ⟨fun _ c hc => absurd hc List.not_mem_nil, fun _ => rfl⟩
  | cons c cs ih =>
    have hc := c.utf8Size_pos
    have hcs := length_le_byteLength cs
    rw [List.forall_mem_cons, ← ih, byteLength_cons, List.length_cons]
    omega

end Text

/-! ### Places of errors -/

/-- The span that a report of an error shows: the one to blame, or the end of the
source if there is none. -/
def Error.place (e : Error) (source : String) : Span :=
  e.span?.getD ⟨source.utf8ByteSize, source.utf8ByteSize⟩

namespace Report

theorem span_ofError (source : String) (e : Error) :
    (ofError source e).span = e.place source := by
  cases e with
  | lex e => rfl
  | parse e => cases e <;> rfl
  | eval e => cases e <;> rfl

/-- Where a report can show a place that is not the right one, it is a later one. -/
theorem position?_eq_or_before {r : Report} {source : String} {before after : List Char}
    (htext : source.toList = before ++ after) (hstart : Text.byteLength before = r.span.start)
    {q : Text.Position} (h : r.position? source = some q) :
    (q = Text.positionOf source.toList before.length ∧ Text.byteLength before = before.length) ∨
      (Text.positionOf source.toList before.length).Before q := by
  simp only [position?] at h
  split at h
  · cases h
  next hlen =>
  split at h
  · cases h
  · obtain ⟨count, hcount⟩ := Nat.exists_eq_add_of_le (Text.length_le_byteLength before)
    rw [htext] at hlen h ⊢
    rw [← hstart, hcount, List.length_append] at hlen
    rw [← hstart, hcount, Option.some.injEq] at h
    subst h
    rcases Nat.eq_zero_or_pos count with rfl | hpos
    · exact .inl ⟨rfl, hcount⟩
    · exact .inr (Text.positionOf_before before hpos (by omega))

/-- A report shows the right place exactly if the characters before it are one byte
long and the span, taken for one of characters, does not leave the text. -/
theorem position?_eq_iff {r : Report} {source : String} {before after : List Char}
    (htext : source.toList = before ++ after) (hstart : Text.byteLength before = r.span.start)
    (hle : r.span.start ≤ r.span.stop) :
    r.position? source = some (Text.positionOf source.toList before.length) ↔
      (∀ c ∈ before, c.utf8Size = 1) ∧ r.span.stop ≤ source.toList.length + 1 := by
  have hlength : source.toList.length = before.length + after.length := by
    rw [htext, List.length_append]
  rw [← Text.byteLength_eq_length_iff]
  constructor
  · intro h
    rcases position?_eq_or_before htext hstart h with ⟨-, hbytes⟩ | hbefore
    · refine ⟨hbytes, ?_⟩
      simp only [position?] at h
      split at h
      · cases h
      split at h
      · cases h
      · omega
    · exact absurd rfl hbefore.ne
  · rintro ⟨hbytes, hstop⟩
    simp only [position?]
    rw [if_neg (by omega), if_neg (by omega), ← hstart, hbytes]

end Report

/-- The place of an error that the evaluation of a source in a fresh scope ends with. -/
theorem Error.fits_place {source : String} {limit : Option Nat} {e : Error} {t : State}
    (h : Evaluates 0 source (.fresh limit) (.error e) t) :
    (e.place source).Fits source.toList := by
  cases hp : e.span? with
  | none =>
    have hend : Text.IsBoundary source.toList source.utf8ByteSize :=
      ⟨source.toList, [], (List.append_nil _).symm, Text.byteLength_toList source⟩
    rw [place, hp]
    exact ⟨hend, hend, Nat.le_refl _⟩
  | some p =>
    obtain ⟨fuel, heval⟩ := h
    rw [place, hp, Option.getD_some]
    have hknown : (State.fresh limit).scopes.Known fun forms => parseText source = .ok forms :=
      Scopes.known_fresh limit
    rcases evaluate_blames (fun _ hforms => hforms) hknown Nat.one_pos heval hp with
      ⟨hconstruct, -⟩ | ⟨f, rfl, forms, hforms, x, hx, hspan, -⟩
    · exact hconstruct.fits
    · cases hp
      exact hspan ▸ (construct_of_standsIn hforms hx).fits

/-- The place that is blamed when an evaluation in a fresh scope fails begins before
a character of the source or at its end. The report shows this place exactly if all
characters before it are one byte long and the end of the span is no more than one
past the number of characters; otherwise it shows a later one or none at all. -/
theorem Report.position?_ofError {source : String} {limit : Option Nat} {e : Error} {t : State}
    (h : Evaluates 0 source (.fresh limit) (.error e) t) :
    ∃ before after, source.toList = before ++ after ∧
      Text.byteLength before = (e.place source).start ∧
      ((ofError source e).position? source =
          some (Text.positionOf source.toList before.length) ↔
        (∀ c ∈ before, c.utf8Size = 1) ∧ (e.place source).stop ≤ source.toList.length + 1) ∧
      ∀ q, (ofError source e).position? source = some q →
        q = Text.positionOf source.toList before.length ∨
          (Text.positionOf source.toList before.length).Before q := by
  have hfits := Error.fits_place h
  obtain ⟨before, after, htext, hstart⟩ := hfits.start
  have hspan := span_ofError source e
  refine ⟨before, after, htext, hstart, ?_, fun q hq => ?_⟩
  · rw [← hspan] at hfits hstart ⊢
    exact position?_eq_iff htext hstart hfits.start_le
  · rw [← hspan] at hstart
    exact (position?_eq_or_before htext hstart hq).imp And.left id

/-- What is longer than one byte does no harm after the place to blame. -/
theorem Report.position?_ofError_unbound :
    let source := "(f \"é\")"
    ∃ e t, Evaluates 0 source (.fresh none) (.error e) t ∧
      e.place source = ⟨1, 2⟩ ∧
      (ofError source e).position? source = some ⟨1, 2⟩ := by
  intro source
  let blamed : Except Error Value → Option Span
    | .error e => some (e.place source)
    | .ok _ => none
  have hrun : (evaluate 3 0 source (.fresh none)).map (fun p => blamed p.1) =
      some (some ⟨1, 2⟩) := by decide +kernel
  obtain ⟨⟨r, t⟩, heval, hr⟩ := Option.map_eq_some_iff.1 hrun
  cases r with
  | ok v => cases hr
  | error e =>
    have hplace : e.place source = ⟨1, 2⟩ := Option.some.inj hr
    obtain ⟨before, after, htext, hstart, hiff, -⟩ := position?_ofError ⟨3, heval⟩
    rw [hplace] at hstart hiff
    have hsource : source.toList = ['('] ++ "f \"é\")".toList := by decide +kernel
    obtain ⟨rfl, -⟩ := append_inj_of_byteLength (htext.symm.trans hsource) hstart
    have hposition : Text.positionOf source.toList 1 = ⟨1, 2⟩ := by decide +kernel
    have hshown := hiff.2 ⟨List.forall_mem_singleton.2 rfl, by decide +kernel⟩
    exact ⟨e, t, ⟨3, heval⟩, hplace, hshown.trans (congrArg some hposition)⟩

/-- Two characters of two bytes before the place to blame, and the report shows none:
the character at byte 7, which is blamed, is the sixth of the line, and the text
has no more than six. -/
theorem Report.position?_ofError_none :
    let source := "\"éé\" x"
    let before := "\"éé\" ".toList
    ∃ e t, Evaluates 0 source (.fresh none) (.error e) t ∧
      source.toList = before ++ ['x'] ∧
      Text.byteLength before = (e.place source).start ∧
      Text.positionOf source.toList before.length = ⟨1, 6⟩ ∧
      (ofError source e).position? source = none := by
  intro source before
  let shown : Except Error Value → Option (Span × Option Text.Position)
    | .error e => some (e.place source, (ofError source e).position? source)
    | .ok _ => none
  have hrun : (evaluate 3 0 source (.fresh none)).map (fun p => shown p.1) =
      some (some (⟨7, 8⟩, none)) := by decide +kernel
  obtain ⟨⟨r, t⟩, heval, hr⟩ := Option.map_eq_some_iff.1 hrun
  cases r with
  | ok v => cases hr
  | error e =>
    obtain ⟨hplace, hposition⟩ := Prod.mk.inj (Option.some.inj hr)
    refine ⟨e, t, ⟨3, heval⟩, by decide +kernel, ?_, by decide +kernel, hposition⟩
    rw [hplace]
    decide +kernel

end SmallLisp
