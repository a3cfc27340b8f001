import SmallLisp.Prompt.Transcript
import SmallLisp.Proofs.Constructs

/-! What the reports of an interactive session mark. The report of an error is shown
against the input that was evaluated. The error has the span of a construct of this
input, unless it arose in the body of a closure that was bound before: then it has
the span of a construct of the earlier input that defined the closure, and what is
marked in the present one has nothing to do with it. -/

namespace SmallLisp

/-- The span lies within the source and is that of a construct of it. -/
structure Span.Marks (p : Span) (source : String) : Prop where
  start_le : p.start ≤ p.stop
  stop_le : p.stop ≤ source.utf8ByteSize
  construct : Construct source p

theorem Construct.marks {source : String} {p : Span} (h : Construct source p) : p.Marks source where
  start_le := h.fits.start_le
  stop_le := Text.byteLength_toList source ▸ h.fits.stop.le
  construct := h

/-- Some scope binds a value that the closure is in. -/
def Closure.BoundIn (c : Closure) (s : Scopes) : Prop :=
  ∃ id key v, (s.bindings id).find? key = some v ∧ c ∈ v.closures

namespace Prompt

/-- The states that a session is in when the inputs have been answered, the last
one first. -/
inductive Answered : List String → State → Prop
  | start : Answered [] (.fresh none)
  | input {inputs : List String} {s t : State} {fuel : Nat} {source : String}
    {answer : Transcript} (h : Answered inputs s)
    (hr : Transcript.respond fuel source s = some (answer, t)) : Answered (source :: inputs) t

/-- All that the scopes bind comes from the inputs, and there is a global scope. -/
theorem Answered.known {inputs : List String} {s : State} (h : Answered inputs s) :
    s.scopes.Known (ReadFrom inputs) ∧ 0 < s.scopes.next := by
  induction h with
  | start => exact ⟨Scopes.known_fresh none, Nat.one_pos⟩
  | @input inputs s t fuel source answer _ hr ih =>
    obtain ⟨hknown, hnext⟩ := ih
    obtain ⟨⟨r, u⟩, heval, hu⟩ := Option.map_eq_some_iff.1 hr
    obtain ⟨-, rfl⟩ := Prod.mk.inj hu
    have hmore : s.scopes.Known (ReadFrom (source :: inputs)) := by
      refine hknown.more ?_
      rintro forms ⟨origin, horigin, hp⟩
      exact ⟨origin, List.mem_cons_of_mem source horigin, hp⟩
    obtain ⟨hadvances, -⟩ := evaluate_known (s := s.redirect none)
      (fun forms hp => ⟨source, List.mem_cons_self, hp⟩) hmore hnext heval
    exact ⟨hadvances.known, Nat.lt_of_lt_of_le hnext hadvances.next_le⟩

/-- When an input fails at some place, either this place is a construct of the input
and an error of evaluation points at a tree of it, or the error points into the body
of a closure that was bound before: the body stands in an earlier input, and the
place is a construct of that one. -/
theorem Answered.error_marks {inputs : List String} {s : State} (hs : Answered inputs s)
    {fuel : Nat} {source : String} {e : Error} {t : State}
    (h : evaluate fuel 0 source (s.redirect none) = some (.error e, t)) {p : Span}
    (hp : e.span? = some p) :
    (p.Marks source ∧
      ∀ f, e = .eval f → ∃ forms, parseText source = .ok forms ∧ f.PointsInto forms) ∨
    ∃ (f : EvalError) (c : Closure), e = .eval f ∧ c.BoundIn s.scopes ∧ f.PointsInto [c.body] ∧
      ∃ origin ∈ inputs, ∃ forms, parseText origin = .ok forms ∧ c.body.StandsIn forms ∧
        p.Marks origin := by
  obtain ⟨hknown, hnext⟩ := hs.known
  -- the input counts as read, and so does the body of every closure that is bound
  let read (forms : List Node) : Prop :=
    parseText source = .ok forms ∨ ∃ c : Closure, c.BoundIn s.scopes ∧ forms = [c.body]
  have hbound : s.scopes.Known read := by
    intro id key v hv c hc
    exact ⟨(hknown id key v hv c hc).1, [c.body], .inr ⟨c, ⟨id, key, v, hv, hc⟩, rfl⟩,
      .form List.mem_cons_self⟩
  rcases evaluate_blames (s := s.redirect none) (fun _ hforms => .inl hforms) hbound
    hnext h hp with ⟨hconstruct, hne⟩ | ⟨f, rfl, forms, hforms, hf⟩
  · exact .inl ⟨hconstruct.marks, fun f hf => absurd hf (hne f)⟩
  obtain rfl : f.span = p := Option.some.inj hp
  obtain ⟨x, hx, hspan, -⟩ := id hf
  rcases hforms with hforms | ⟨c, hc, rfl⟩
  · refine .inl ⟨hspan ▸ (construct_of_standsIn hforms hx).marks, fun g hg => ?_⟩
    cases hg
    exact ⟨forms, hforms, hf⟩
  · obtain ⟨id, key, v, hv, hcv⟩ := id hc
    obtain ⟨-, forms, ⟨origin, horigin, hparse⟩, hbody⟩ := hknown id key v hv c hcv
    have hmarks := (construct_of_standsIn hparse (hx.trans hbody)).marks
    exact .inr ⟨f, c, rfl, hc, hf, origin, horigin, forms, hparse, hbody, hspan ▸ hmarks⟩

/-- A function is defined, with a name in its body that nothing binds, and is called
by the next input. -/
theorem exists_answered_call :
    ∃ s t, Answered ["(fun f [] y)"] s ∧ evaluate 4 0 "(f)" (s.redirect none) =
      some (.error (.eval (.unbound "y" ⟨10, 11⟩)), t) := by
  let unbound : Except Error Value → Option (String × Span)
    | .error (.eval (.unbound name span)) => some (name, span)
    | _ => none
  have hrun : (Transcript.respond 4 "(fun f [] y)" (.fresh none)).bind (fun p =>
      (evaluate 4 0 "(f)" (p.2.redirect none)).bind fun q => unbound q.1) =
      some ("y", ⟨10, 11⟩) := by decide +kernel
  obtain ⟨⟨answer, s⟩, hfirst, hrun⟩ := Option.bind_eq_some_iff.1 hrun
  obtain ⟨⟨r, t⟩, hsecond, hr⟩ := Option.bind_eq_some_iff.1 hrun
  refine ⟨s, t, .input .start hfirst, hsecond.trans ?_⟩
  dsimp only [unbound] at hr
  split at hr
  · cases hr
    rfl
  · cases hr

/-- The call fails at a place that is a construct of the definition. -/
theorem Answered.error_marks_definition :
    ∃ s t, Answered ["(fun f [] y)"] s ∧ evaluate 4 0 "(f)" (s.redirect none) =
        some (.error (.eval (.unbound "y" ⟨10, 11⟩)), t) ∧
      ∃ c : Closure, c.BoundIn s.scopes ∧ (EvalError.unbound "y" ⟨10, 11⟩).PointsInto [c.body] ∧
        (⟨10, 11⟩ : Span).Marks "(fun f [] y)" := by
  obtain ⟨s, t, hs, h⟩ := exists_answered_call
  refine ⟨s, t, hs, h, ?_⟩
  rcases hs.error_marks h rfl with
    ⟨hmarks, -⟩ | ⟨f, c, hf, hc, hpoints, origin, horigin, -, -, -, hmarks⟩
  · exact absurd hmarks.stop_le (by decide)
  · cases hf
    exact ⟨c, hc, hpoints, List.mem_singleton.1 horigin ▸ hmarks⟩

/-- The call has three bytes, and it fails at the eleventh. -/
theorem Answered.error_outside_call :
    ∃ s e t p, Answered ["(fun f [] y)"] s ∧
      evaluate 4 0 "(f)" (s.redirect none) = some (.error e, t) ∧ e.span? = some p ∧
      "(f)".utf8ByteSize < p.start := by
  obtain ⟨s, t, hs, h⟩ := exists_answered_call
  exact ⟨s, _, t, _, hs, h, rfl, by decide⟩

end Prompt

end SmallLisp
