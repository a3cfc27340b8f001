import SmallLisp.Proofs.Truncation

/-! What a run writes to a sink without a limit. It is text, it comes after what
was written before, and it does not depend on that: the run does the same from a
state in which something else has been written. So the pieces that a program
writes in several runs, each to a sink of its own, make up what it writes in one. -/

namespace SmallLisp

theorem Text.encode_append (a b : String) : encode (a ++ b) = encode a ++ encode b := by
  simp only [encode, String.toUTF8_eq_toByteArray, String.toByteArray_append, ByteArray.data_append]

theorem Text.decodeCut_encode (s : String) : decodeCut (encode s) = s := by
  rw [decodeCut, decode?_encode]
  rfl

/-- The same state with other bytes written, to a sink without a limit. -/
def State.writing (s : State) (w : Array UInt8) : State := { s with sink := ⟨w, none⟩ }

namespace Run

variable {α β : Type}

/-- From a sink without a limit, whatever it holds, the run writes the same text. -/
def Appends (x : Run α) : Prop :=
  ∀ (s : State) w r t, x.outcome (s.writing w) = some (r, t) →
    ∃ text, ∀ w', x.outcome (s.writing w') = some (r, t.writing (w' ++ Text.encode text))

namespace Appends

/-- Runs that do not touch the sink. -/
theorem of_outcome {x : Run α} {f : State → Except EvalError α × State}
    (h : ∀ s w, x.outcome (s.writing w) = some ((f s).1, (f s).2.writing w)) : Appends x := by
  intro s w r t ho
  rw [h] at ho
  cases ho
  refine ⟨"", fun w' => ?_⟩
  rw [h]
  exact congrArg (fun w => some ((f s).1, (f s).2.writing w)) Array.append_empty.symm

theorem pure (a : α) : Appends (pure a : Run α) :=
  @of_outcome _ _ (fun s => (.ok a, s)) fun _ _ => rfl

theorem fail (e : EvalError) : Appends (fail e : Run α) :=
  @of_outcome _ _ (fun s => (.error e, s)) fun _ _ => rfl

theorem outOfFuel : Appends (outOfFuel : Run α) := by
  intro s w r t ho
  cases ho

theorem log (e : Event) : Appends (log e) :=
  @of_outcome _ _ (fun s => (.ok (), s.log e)) fun _ _ => rfl

theorem lookup (scope : ScopeId) (name : String) (span : Span) :
    Appends (lookup scope name span) := by
  intro s w r t ho
  rw [outcome_lookup] at ho
  cases ho
  refine ⟨"", fun w' => ?_⟩
  rw [outcome_lookup]
  exact congrArg (fun w => some (_, s.writing w)) Array.append_empty.symm

theorem define (scope : ScopeId) (name : String) (v : Value) : Appends (define scope name v) :=
  @of_outcome _ _ (fun s => (.ok (), { s with scopes := s.scopes.define scope name v }))
    fun _ _ => rfl

theorem makeClosure (name : String) (params : List String) (body : Node) (scope : ScopeId) :
    Appends (makeClosure name params body scope) :=
  @of_outcome _ _ (fun s => (.ok ⟨s.closures, name, params, body, scope⟩,
    { s with closures := s.closures + 1 })) fun _ _ => rfl

theorem enter (outer caller : Option ScopeId) (pairs : List (String × Value)) :
    Appends (enter outer caller pairs) :=
  @of_outcome _ _ (fun s => (.ok s.scopes.next,
    { s with scopes := s.scopes.create ⟨outer, caller, .ofPairs pairs⟩ })) fun _ _ => rfl

theorem write (text : String) (span : Span) : Appends (write text span) := by
  intro s w r t ho
  rw [outcome_write] at ho
  cases ho
  refine ⟨text, fun w' => ?_⟩
  rw [outcome_write]
  rfl

theorem bind {x : Run α} {f : α → Run β} (hx : Appends x) (hf : ∀ a, Appends (f a)) :
    Appends (x >>= f) := by
  intro s w r u ho
  rcases outcome_bind_eq_some ho with ⟨e, he, rfl⟩ | ⟨a, t, ha, hu⟩
  · obtain ⟨text, h⟩ := hx s w _ u he
    exact ⟨text, fun w' => by rw [outcome_bind, h]⟩
  · obtain ⟨text, h⟩ := hx s w _ t ha
    -- the second run starts with what the first one wrote
    have ht : t = t.writing (w ++ Text.encode text) := by
      have heq := ha.symm.trans (h w)
      exact (Prod.mk.inj (Option.some.inj heq)).2
    rw [ht] at hu
    obtain ⟨more, hmore⟩ := hf a t _ r u hu
    refine ⟨text ++ more, fun w' => ?_⟩
    rw [outcome_bind, h]
    dsimp only
    rw [hmore, Text.encode_append, Array.append_assoc]

theorem mapM {f : α → Run β} {as : List α} (h : ∀ a ∈ as, Appends (f a)) :
    Appends (as.mapM f) := by
  induction as with
  | nil => exact pure []
  | cons a as ih =>
    rw [List.mapM_cons]
    refine bind (h a List.mem_cons_self) fun b => ?_
    exact bind (ih fun c hc => h c (List.mem_cons_of_mem a hc)) fun bs => pure (b :: bs)

theorem fill {value : α → Run Value} (h : ∀ a, Appends (value a)) (frame : ScopeId)
    (bs : List (String × α)) : Appends (fill frame value bs) := by
  induction bs with
  | nil => exact pure ()
  | cons b bs ih => exact bind (h b.2) fun v => bind (define frame b.1 v) fun _ => ih

end Appends

end Run

open Run (Appends)

theorem Primitive.appends_apply (p : Primitive) (args : List Value) (span : Span) :
    Appends (p.apply args span) := by
  unfold Primitive.apply
  cases p.result args with
  | error fault => exact .fail _
  | ok v =>
    dsimp only
    cases p.output? v with
    | none => exact .pure v
    | some text => exact .bind (.write text span) fun _ => .pure v

theorem Node.appends_eval (fuel : Nat) (scope : ScopeId) (node : Node) :
    Appends (node.eval fuel scope) := by
  induction fuel generalizing scope node with
  | zero => exact .outOfFuel
  | succ fuel ih =>
    cases node with
    | number | string | boolean => exact .pure _
    | symbol name span => exact .lookup scope name span
    | list items span => exact .bind (.mapM fun x _ => ih scope x) fun vs => .pure _
    | call head args span =>
      rw [eval_call]
      refine .bind ?_ fun f => .bind (.mapM fun x _ => ih scope x) fun vs => ?_
      · unfold evalHead
        split
        · exact .pure _
        · refine .bind (ih scope head) fun v => ?_
          cases v with
          | function f => exact .pure f
          | number | string | boolean | list => exact .fail _
      · cases f with
        | primitive p => exact p.appends_apply vs span
        | closure c =>
          simp only [Function.applyWith]
          split
          · exact .bind (.log _) fun _ => .bind (.enter _ _ _) fun frame => ih frame c.body
          · exact .fail _
    | letIn bindings body span =>
      refine .bind (.log _) fun _ => .bind (.enter _ _ _) fun frame => ?_
      exact .bind (.fill (ih scope) frame bindings) fun _ => ih frame body
    | conditional test yes no span =>
      rw [eval_conditional]
      refine .bind (.log _) fun _ => .bind (ih scope test) fun v => ?_
      cases v with
      | number | string | function | list => exact .fail _
      | boolean b =>
        cases b with
        | true => exact ih scope yes
        | false =>
          cases no with
          | none => exact .pure _
          | some no => exact ih scope no
    | function name params body span =>
      refine .bind (.log _) fun _ => .bind (.log _) fun _ => ?_
      exact .bind (.makeClosure name params body scope) fun c =>
        .bind (.define scope name _) fun _ => .pure _

theorem Node.appends_evalAll (fuel : Nat) (scope : ScopeId) (xs : List Node) :
    Appends (evalAll fuel scope xs) := .mapM fun x _ => x.appends_eval fuel scope

end SmallLisp
