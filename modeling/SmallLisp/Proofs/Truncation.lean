import SmallLisp.Proofs.Activations
import SmallLisp.Proofs.Programs

/-! Runs whose sink fails. A sink that takes only so many bytes changes nothing
until a line passes its limit. There the run ends, with an error at the call that
prints the line: no more is written, defined or evaluated, however deep that call
stands. What was written is what a sink without a limit would hold, cut off. -/

namespace SmallLisp

/-! ### Sinks -/

namespace Sink

/-- The sink with a limit that would have been written to instead. -/
def cutOff (s : Sink) (k : Nat) : Sink := ⟨s.written.take k, some k⟩

theorem written_write {s : Sink} (h : s.limit = none) (bytes : Array UInt8) :
    (s.write bytes).written = s.written ++ bytes := by
  rw [write, h]

theorem cutOff_of_le {s : Sink} {k : Nat} (h : s.written.size ≤ k) :
    s.cutOff k = ⟨s.written, some k⟩ := by
  rw [cutOff, Array.take, Array.extract_eq_self_of_le h]

/-- Cutting off commutes with writing. -/
theorem write_cutOff {s : Sink} (h : s.limit = none) (k : Nat) (bytes : Array UInt8) :
    (s.cutOff k).write bytes = (s.write bytes).cutOff k := by
  have htake : (s.written ++ bytes).take k =
      s.written.take k ++ bytes.take (k - s.written.size) := by
    rw [Array.take, Array.extract_append, Nat.zero_sub]
  have hrest : bytes.take (k - (s.written.take k).size) = bytes.take (k - s.written.size) := by
    rw [Array.size_extract]
    by_cases hk : s.written.size ≤ k
    · rw [Nat.min_eq_right hk, Nat.sub_zero]
    · rw [Nat.min_eq_left (Nat.le_of_not_le hk)]
      congr 1
      omega
  rw [cutOff, cutOff, write, written_write h, htake]
  dsimp only
  rw [hrest]

theorem fits_cutOff {s : Sink} {k : Nat} (h : s.written.size ≤ k) (count : Nat) :
    (s.cutOff k).fits count = decide (s.written.size + count ≤ k) := by
  rw [cutOff_of_le h, fits]

/-- More may have been written, and the limit is the same. -/
structure Extends (s t : Sink) : Prop where
  limit_eq : t.limit = s.limit
  written : ∃ bytes, t.written = s.written ++ bytes

namespace Extends

variable {s t u : Sink}

theorem refl (s : Sink) : s.Extends s := ⟨rfl, #[], (Array.append_empty).symm⟩

theorem trans (h : s.Extends t) (k : t.Extends u) : s.Extends u := by
  obtain ⟨as, ha⟩ := h.written
  obtain ⟨bs, hb⟩ := k.written
  exact ⟨k.limit_eq.trans h.limit_eq, as ++ bs, by rw [hb, ha, Array.append_assoc]⟩

theorem size_le (h : s.Extends t) : s.written.size ≤ t.written.size := by
  obtain ⟨bytes, hb⟩ := h.written
  rw [hb, Array.size_append]
  exact Nat.le_add_right ..

/-- What is cut off at a limit that was reached before does not change any more. -/
theorem take_eq (h : s.Extends t) {k : Nat} (hk : k ≤ s.written.size) :
    t.written.take k = s.written.take k := by
  obtain ⟨bytes, hb⟩ := h.written
  have hnone : bytes.extract (0 - s.written.size) (k - s.written.size) = #[] := by
    rw [Nat.sub_eq_zero_of_le hk, Array.extract_empty_of_stop_le_start (Nat.zero_le _)]
  rw [hb, Array.take, Array.extract_append, hnone, Array.append_empty]

end Extends

theorem extends_write {s : Sink} (h : s.limit = none) (bytes : Array UInt8) :
    s.Extends (s.write bytes) :=
  ⟨by rw [write, h], bytes, written_write h bytes⟩

end Sink

/-- The state of the same run with a sink that takes only `k` bytes. -/
def State.limited (s : State) (k : Nat) : State := { s with sink := s.sink.cutOff k }

/-! ### Printing -/

/-- A text about to be written: by the call with a span, in a state. -/
structure Printing where
  span : Span
  text : String
  state : State

namespace Printing

/-- The state once the text has been written. -/
def after (p : Printing) : State :=
  { p.state with sink := p.state.sink.write (Text.encode p.text) }

/-- With the text more than `k` bytes are written, but not without it. -/
structure Crosses (p : Printing) (k : Nat) : Prop where
  le : p.state.sink.written.size ≤ k
  lt : k < p.after.sink.written.size

end Printing

namespace Activation

open Node (eval evalHead)

/-- The evaluation of a call that prints a line comes to printing it. -/
inductive Prints : Activation → Printing → Prop
  | call {fuel : Nat} {scope : ScopeId} {head : Node} {args : List Node} {span : Span}
    {s t u : State} {vs : List Value} {line : String}
    (hf : (evalHead fuel scope head).outcome s = some (.ok (.primitive .print), t))
    (hv : (args.mapM (eval fuel scope)).outcome t = some (.ok vs, u))
    (hr : Primitive.print.result vs = .ok (.string line)) :
    Prints ⟨fuel + 1, scope, .call head args span, s⟩ ⟨span, line ++ "\n", u⟩

/-- The evaluation comes to printing, in itself or in one of those that it is made of. -/
def ComesTo (a : Activation) (p : Printing) : Prop :=
  ∃ b, Relation.ReflTransGen Starts a b ∧ b.Prints p

theorem Starts.comesTo {a b : Activation} (h : a.Starts b) {p : Printing} (hb : b.ComesTo p) :
    a.ComesTo p := by
  obtain ⟨c, hc, hp⟩ := hb
  exact ⟨c, .head h hc, hp⟩

end Activation

/-! ### Runs with and without a limit -/

namespace Run

variable {α β : Type} {k : Nat} {P : Printing → Prop} {s : State}

/-- From the state, and if its sink never fails, the run adds to what is written.
With a limit of `k` bytes it does the same as long as these are enough, and it
fails at the text that is too long, which is one of those described by `P`. -/
def Truncates (k : Nat) (P : Printing → Prop) (s : State) (x : Run α) : Prop :=
  s.sink.limit = none → ∀ r t, x.outcome s = some (r, t) →
    s.sink.Extends t.sink ∧
    (t.sink.written.size ≤ k → x.outcome (s.limited k) = some (r, t.limited k)) ∧
    (s.sink.written.size ≤ k → k < t.sink.written.size →
      ∃ p, P p ∧ p.Crosses k ∧ p.after.sink.Extends t.sink ∧
        x.outcome (s.limited k) = some (.error (.sinkFull p.span), p.after.limited k))

namespace Truncates

theorem mono {Q : Printing → Prop} (h : ∀ p, P p → Q p) {x : Run α} (hx : Truncates k P s x) :
    Truncates k Q s x := by
  intro hs r t ho
  obtain ⟨hext, hfits, hcross⟩ := hx hs r t ho
  refine ⟨hext, hfits, fun hle hlt => ?_⟩
  obtain ⟨p, hp, hrest⟩ := hcross hle hlt
  exact ⟨p, h p hp, hrest⟩

/-- Runs that do not touch the sink. -/
theorem of_outcome {x : Run α} {r : Except EvalError α} {t : State}
    (h : x.outcome s = some (r, t)) (ht : t.sink = s.sink)
    (hl : x.outcome (s.limited k) = some (r, t.limited k)) : Truncates k P s x := by
  intro _ q u ho
  rw [h] at ho
  cases ho
  refine ⟨ht ▸ .refl _, fun _ => hl, fun hle hlt => ?_⟩
  rw [ht] at hlt
  exact absurd hle (Nat.not_le_of_lt hlt)

theorem pure (a : α) : Truncates k P s (pure a : Run α) := .of_outcome rfl rfl rfl

theorem fail (e : EvalError) : Truncates k P s (fail e : Run α) := .of_outcome rfl rfl rfl

theorem outOfFuel : Truncates k P s (outOfFuel : Run α) := by
  intro _ r t ho
  cases ho

theorem log (e : Event) : Truncates k P s (log e) := .of_outcome rfl rfl rfl

theorem lookup (scope : ScopeId) (name : String) (span : Span) :
    Truncates k P s (lookup scope name span) :=
  .of_outcome (outcome_lookup ..) rfl (outcome_lookup ..)

theorem define (scope : ScopeId) (name : String) (v : Value) :
    Truncates k P s (define scope name v) := .of_outcome rfl rfl rfl

theorem makeClosure (name : String) (params : List String) (body : Node) (scope : ScopeId) :
    Truncates k P s (makeClosure name params body scope) := .of_outcome rfl rfl rfl

theorem enter (outer caller : Option ScopeId) (pairs : List (String × Value)) :
    Truncates k P s (enter outer caller pairs) := .of_outcome rfl rfl rfl

/-- Writing is where a limit is passed. -/
theorem write {text : String} {span : Span} (h : P ⟨span, text, s⟩) :
    Truncates k P s (write text span) := by
  intro hs r t ho
  have hfits (count : Nat) : s.sink.fits count = true := by rw [Sink.fits, hs]
  rw [outcome_write, hfits, if_pos rfl] at ho
  cases ho
  have hsize : (s.sink.write (Text.encode text)).written.size =
      s.sink.written.size + (Text.encode text).size := by
    rw [Sink.written_write hs, Array.size_append]
  have hlimited (hle : s.sink.written.size ≤ k) :
      (Run.write text span).outcome (s.limited k) =
        some (if s.sink.written.size + (Text.encode text).size ≤ k then .ok ()
            else .error (.sinkFull span),
          { s with sink := (s.sink.write (Text.encode text)).cutOff k }) := by
    rw [outcome_write, State.limited, Sink.fits_cutOff hle, Sink.write_cutOff hs]
    simp only [decide_eq_true_eq]
  refine ⟨Sink.extends_write hs _, fun hle => ?_, fun hle hlt => ?_⟩
  · rw [hsize] at hle
    rw [hlimited (Nat.le_trans (Nat.le_add_right ..) hle), if_pos hle]
    rfl
  · refine ⟨⟨span, text, s⟩, h, ⟨hle, hlt⟩, .refl _, ?_⟩
    rw [hsize] at hlt
    rw [hlimited hle, if_neg (Nat.not_le_of_lt hlt)]
    rfl

theorem bind {x : Run α} {f : α → Run β} (hx : Truncates k P s x)
    (hf : ∀ a t, x.outcome s = some (.ok a, t) → Truncates k P t (f a)) :
    Truncates k P s (x >>= f) := by
  intro hs r u ho
  rcases outcome_bind_eq_some ho with ⟨e, he, rfl⟩ | ⟨a, t, ha, hu⟩
  · obtain ⟨hext, hfits, hcross⟩ := hx hs _ u he
    refine ⟨hext, fun hle => ?_, fun hle hlt => ?_⟩
    · rw [outcome_bind, hfits hle]
    · obtain ⟨p, hp, hk, hafter, hout⟩ := hcross hle hlt
      exact ⟨p, hp, hk, hafter, by rw [outcome_bind, hout]⟩
  · obtain ⟨hst, hfits, hcross⟩ := hx hs _ t ha
    obtain ⟨htu, hfits', hcross'⟩ := hf a t ha (hst.limit_eq.trans hs) r u hu
    refine ⟨hst.trans htu, fun hle => ?_, fun hle hlt => ?_⟩
    · rw [outcome_bind, hfits (Nat.le_trans htu.size_le hle)]
      exact hfits' hle
    -- the limit is passed in the second run or already in the first
    · by_cases hmid : t.sink.written.size ≤ k
      · obtain ⟨p, hp, hk, hafter, hout⟩ := hcross' hmid hlt
        refine ⟨p, hp, hk, hafter, ?_⟩
        rw [outcome_bind, hfits hmid]
        exact hout
      · obtain ⟨p, hp, hk, hafter, hout⟩ := hcross hle (Nat.lt_of_not_le hmid)
        exact ⟨p, hp, hk, hafter.trans htu, by rw [outcome_bind, hout]⟩

/-- A sequence of runs, each from the state to which those before it lead. -/
theorem mapM {f : α → Run β} {as : List α}
    (h : ∀ before a after, as = before ++ a :: after → ∀ bs t,
      (before.mapM f).outcome s = some (.ok bs, t) → Truncates k P t (f a)) :
    Truncates k P s (as.mapM f) := by
  induction as generalizing s with
  | nil => exact pure []
  | cons a as ih =>
    rw [List.mapM_cons]
    refine bind (h [] a as rfl [] s rfl) fun b t ha => ?_
    refine bind (ih fun before c after hsplit bs u hbs => ?_) fun bs u _ => pure (b :: bs)
    refine h (a :: before) c after (congrArg (a :: ·) hsplit) (b :: bs) u ?_
    rw [List.mapM_cons, outcome_bind, ha]
    dsimp only
    rw [outcome_bind, hbs]
    rfl

/-- A scope that is filled, each value being computed in the state to which those before
it lead. -/
theorem fill {frame : ScopeId} {value : α → Run Value} {bs : List (String × α)}
    (h : ∀ before b after, bs = before ++ b :: after → ∀ t,
      (fill frame value before).outcome s = some (.ok (), t) → Truncates k P t (value b.2)) :
    Truncates k P s (fill frame value bs) := by
  induction bs generalizing s with
  | nil => exact pure ()
  | cons b bs ih =>
    rw [fill_cons]
    refine bind (h [] b bs rfl s rfl) fun v t hv => bind (define frame b.1 v) fun _ u hu => ?_
    cases hu
    refine ih fun before c after hsplit w hw => ?_
    refine h (b :: before) c after (congrArg (b :: ·) hsplit) w ?_
    rw [fill_cons, outcome_bind_of_ok hv, outcome_bind_of_ok (outcome_define ..)]
    exact hw

end Truncates

end Run

/-! ### Evaluation -/

open Run (Truncates)

variable {k : Nat} {P : Printing → Prop} {s : State}

theorem Primitive.output?_eq_some {p : Primitive} {v : Value} {text : String}
    (h : p.output? v = some text) :
    p = .print ∧ ∃ line, v = .string line ∧ text = line ++ "\n" := by
  unfold Primitive.output? at h
  split at h
  · next line =>
    cases h
    exact ⟨rfl, line, rfl, rfl⟩
  · cases h

theorem Primitive.truncates_apply {p : Primitive} {args : List Value} {span : Span}
    (h : ∀ line, p = .print → p.result args = .ok (.string line) → P ⟨span, line ++ "\n", s⟩) :
    Truncates k P s (p.apply args span) := by
  unfold Primitive.apply
  cases hr : p.result args with
  | error fault => exact .fail _
  | ok v =>
    dsimp only
    cases ho : p.output? v with
    | none => exact .pure v
    | some text =>
      obtain ⟨hp, line, rfl, rfl⟩ := Primitive.output?_eq_some ho
      exact .bind (.write (h line hp hr)) fun _ _ _ => .pure _

/-- Wherever an evaluation passes the limit of its sink, it has come to printing there. -/
theorem Node.truncates_eval (k fuel : Nat) (scope : ScopeId) (node : Node) (s : State) :
    Truncates k (Activation.ComesTo ⟨fuel, scope, node, s⟩) s (node.eval fuel scope) := by
  induction fuel generalizing scope node s with
  | zero => exact .outOfFuel
  | succ fuel ih =>
    -- a part, which the evaluation starts
    have part {a : Activation} {scope' : ScopeId} {x : Node} {t : State}
        (h : a.Starts ⟨fuel, scope', x, t⟩) : Truncates k a.ComesTo t (x.eval fuel scope') :=
      .mono (fun _ hp => h.comesTo hp) (ih scope' x t)
    cases node with
    | number x _ | string x _ | boolean x _ => exact .pure _
    | symbol name span => exact .lookup scope name span
    | list items span =>
      refine .bind (.mapM fun before x after hsplit vs t hv => ?_) fun vs t _ => .pure _
      subst hsplit
      exact part (.item hv)
    | call head args span =>
      rw [eval_call]
      refine .bind ?_ fun f t hf => .bind (.mapM fun before x after hsplit vs u hv => ?_)
        fun vs u hv => ?_
      · unfold evalHead
        split
        · exact .pure _
        · next hp =>
          refine .bind (part (.head hp)) fun v t _ => ?_
          cases v with
          | function f => exact .pure f
          | number _ | string _ | boolean _ | list _ => exact .fail _
      · subst hsplit
        exact part (.argument hf hv)
      · cases f with
        | primitive p =>
          refine Primitive.truncates_apply fun line hp hr => ?_
          subst hp
          exact ⟨_, .refl, .call hf hv hr⟩
        | closure c =>
          simp only [Function.applyWith]
          split
          · next hl =>
            refine .bind (.log _) fun _ w hw => .bind (.enter _ _ _) fun frame w' hw' => ?_
            cases hw
            cases hw'
            exact part (.closure hf hv hl)
          · exact .fail _
    | letIn bindings body span =>
      refine .bind (.log _) fun _ t ht => .bind (.enter _ _ _) fun frame u hu => ?_
      cases ht
      cases hu
      refine .bind (.fill fun before b after hsplit w hw => ?_) fun _ w hw => part (.body hw)
      subst hsplit
      exact part (.value hw)
    | conditional test yes no span =>
      rw [eval_conditional]
      refine .bind (.log _) fun _ t ht => ?_
      cases ht
      refine .bind (part .test) fun v t hv => ?_
      match v, no with
      | .boolean true, _ => exact part (.yes hv)
      | .boolean false, some no => exact part (.no hv)
      | .boolean false, none => exact .pure _
      | .number _, _ | .string _, _ | .function _, _ | .list _, _ => exact .fail _
    | function name params body span =>
      refine .bind (.log _) fun _ _ _ => .bind (.log _) fun _ _ _ => ?_
      refine .bind (.makeClosure name params body scope) fun c _ _ => ?_
      exact .bind (.define scope name _) fun _ _ _ => .pure _

/-! ### Programs -/

/-- The evaluation of forms comes to printing: in one of them, once those before it
have their values. -/
def Node.AllComeTo (fuel : Nat) (scope : ScopeId) (forms : List Node) (s : State) (p : Printing) :
    Prop :=
  ∃ before x after vs t, forms = before ++ x :: after ∧
    (evalAll fuel scope before).outcome s = some (.ok vs, t) ∧
    Activation.ComesTo ⟨fuel, scope, x, t⟩ p

theorem Node.truncates_evalAll (k fuel : Nat) (scope : ScopeId) (forms : List Node) (s : State) :
    Truncates k (AllComeTo fuel scope forms s) s (evalAll fuel scope forms) :=
  .mapM fun before x after hsplit vs t hv =>
    .mono (fun _ hp => ⟨before, x, after, vs, t, hsplit, hv, hp⟩) (truncates_eval k fuel scope x t)

theorem State.limited_redirect (s : State) (k : Nat) :
    (s.redirect none).limited k = s.redirect (some k) := by
  rw [limited, redirect, Sink.cutOff_of_le (Nat.zero_le k)]
  rfl

/-- A program that ends when its sink takes everything also ends when the sink
takes only `k` bytes, and has then written the first `k` bytes of what it would
have written. If that is all of it, nothing else is different. Otherwise the
program has failed at the call that prints the line which passes the limit, and
all scopes are as they were when the whole run came to printing that line. -/
theorem evaluate_limited {fuel : Nat} {scope : ScopeId} {source : String} {s t : State}
    {r : Except Error Value} (h : evaluate fuel scope source (s.redirect none) = some (r, t))
    (k : Nat) :
    ∃ r' t', evaluate fuel scope source (s.redirect (some k)) = some (r', t') ∧
      t'.sink.written = t.sink.written.take k ∧
      (t.sink.written.size ≤ k → r' = r ∧ t'.scopes = t.scopes) ∧
      (k < t.sink.written.size → ∃ forms p, parseText source = .ok forms ∧
        Node.AllComeTo fuel scope forms ((s.redirect none).log (.program forms.length)) p ∧
        p.Crosses k ∧ p.after.sink.Extends t.sink ∧
        r' = .error (.eval (.sinkFull p.span)) ∧ t'.scopes = p.state.scopes) := by
  cases hp : parseText source with
  | error e =>
    rw [evaluate, hp] at h
    cases h
    refine ⟨.error e, s.redirect (some k), by rw [evaluate, hp], ?_, fun _ => ⟨rfl, rfl⟩,
      fun hlt => absurd hlt (Nat.not_lt_zero k)⟩
    exact congrArg (fun u => u.sink.written) (s.limited_redirect k).symm
  | ok forms =>
    rw [evaluate_of_parse hp] at h
    obtain ⟨⟨q, u⟩, hrun, hq⟩ := Option.map_eq_some_iff.1 h
    cases hq
    obtain ⟨-, hfits, hcross⟩ := Node.truncates_evalAll k fuel scope forms _ rfl q u hrun
    have hlimited : (Node.evalAll fuel scope forms).outcome
        ((s.redirect (some k)).log (.program forms.length)) =
          (Node.evalAll fuel scope forms).outcome
            (((s.redirect none).log (.program forms.length)).limited k) := by
      rw [← State.limited_redirect]
      rfl
    simp only [evaluate_of_parse hp, hlimited]
    by_cases hle : u.sink.written.size ≤ k
    · rw [hfits hle]
      exact ⟨_, _, rfl, rfl, fun _ => ⟨rfl, rfl⟩, fun hlt => absurd hle (Nat.not_le_of_lt hlt)⟩
    · have hlt := Nat.lt_of_not_le hle
      obtain ⟨p, hcomes, hk, hafter, hout⟩ := hcross (Nat.zero_le k) hlt
      rw [hout]
      exact ⟨_, _, rfl, (hafter.take_eq (Nat.le_of_lt hk.lt)).symm, fun h => absurd h hle,
        fun _ => ⟨forms, p, rfl, hcomes, hk, hafter, rfl, rfl⟩⟩

/-- Of `"ab"` and `"cd"`, printed by calls of one function, four bytes are taken. The
call in the body of the function is to blame, and what follows is not defined. -/
theorem evaluate_limited_print :
    let source := "(fun f [x] (print x)) [(f \"ab\") (fun g [] true) (f \"cd\") (fun h [] true)]"
    let s := State.fresh none
    ∃ r t, evaluate 5 0 source (s.redirect none) = some (r, t) ∧
      t.sink.written = Text.encode "ab\ncd\n" ∧
      ∃ t', evaluate 5 0 source (s.redirect (some 4)) =
          some (.error (.eval (.sinkFull ⟨11, 20⟩)), t') ∧
        t'.sink.written = Text.encode "ab\nc" ∧ (t'.scopes.bindings 0).keys = ["g", "f"] := by
  intro source s
  have hfull : (evaluate 5 0 source (s.redirect none)).map (fun p => p.2.sink.written) =
      some (Text.encode "ab\ncd\n") := by decide +kernel
  obtain ⟨⟨r, t⟩, heval, hwritten⟩ := Option.map_eq_some_iff.1 hfull
  obtain ⟨r', t', hlimited, htake, -, hcross⟩ := evaluate_limited heval 4
  rw [show t.sink.written = Text.encode "ab\ncd\n" from hwritten] at htake hcross
  obtain ⟨forms, p, -, -, -, -, rfl, -⟩ := hcross (by decide +kernel)
  let blamed : Except Error Value → Option Span
    | .error e => e.span?
    | .ok _ => none
  have hends : (evaluate 5 0 source (s.redirect (some 4))).map (fun p =>
      (blamed p.1, (p.2.scopes.bindings 0).keys)) = some (some ⟨11, 20⟩, ["g", "f"]) := by
    decide +kernel
  rw [hlimited, Option.map_some, Option.some.injEq, Prod.mk.injEq] at hends
  obtain ⟨hspan, hkeys⟩ := hends
  have hspan : p.span = ⟨11, 20⟩ := Option.some.inj hspan
  rw [hspan] at hlimited
  exact ⟨r, t, heval, hwritten, t', hlimited, htake.trans (by decide +kernel), hkeys⟩

end SmallLisp
