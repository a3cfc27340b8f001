import SmallLisp.Eval.Run

/-! Induction over trees and values with one hypothesis for each part, whatever
kind of list it stands in, and the spans that occur in trees, values and states
and that may be replaced by others. -/

namespace SmallLisp

/-! ### Induction -/

theorem Node.induction {P : Node → Prop}
    (number : ∀ x s, P (.number x s)) (string : ∀ x s, P (.string x s))
    (boolean : ∀ b s, P (.boolean b s)) (symbol : ∀ name s, P (.symbol name s))
    (list : ∀ items s, (∀ x ∈ items, P x) → P (.list items s))
    (call : ∀ head args s, P head → (∀ x ∈ args, P x) → P (.call head args s))
    (letIn : ∀ bindings body s, (∀ b ∈ bindings, P b.2) → P body → P (.letIn bindings body s))
    (conditional : ∀ test yes no s, P test → P yes → (∀ x ∈ no, P x) →
      P (.conditional test yes no s))
    (function : ∀ name params body s, P body → P (.function name params body s)) (x : Node) :
    P x := by
  refine @Node.rec P (fun xs => ∀ x ∈ xs, P x) (fun bs => ∀ b ∈ bs, P b.2)
    (fun no => ∀ x ∈ no, P x) (fun b => P b.2) number string boolean symbol list call letIn
    conditional function ?_ ?_ ?_ ?_ ?_ ?_ ?_ x
  · exact fun x hx => absurd hx List.not_mem_nil
  · exact fun x xs hx hxs => List.forall_mem_cons.2 ⟨hx, hxs⟩
  · exact fun b hb => absurd hb List.not_mem_nil
  · exact fun b bs hb hbs => List.forall_mem_cons.2 ⟨hb, hbs⟩
  · exact fun x hx => absurd hx (Option.not_mem_none x)
  · exact fun x hx y hy => Option.some.inj hy ▸ hx
  · exact fun name x hx => hx

theorem Value.induction {P : Value → Prop} (string : ∀ s, P (.string s))
    (number : ∀ x, P (.number x)) (boolean : ∀ b, P (.boolean b))
    (function : ∀ f, P (.function f)) (list : ∀ items, (∀ v ∈ items, P v) → P (.list items))
    (v : Value) : P v := by
  refine @Value.rec P (fun vs => ∀ v ∈ vs, P v) string number boolean function list ?_ ?_ v
  · exact fun v hv => absurd hv List.not_mem_nil
  · exact fun v vs hv hvs => List.forall_mem_cons.2 ⟨hv, hvs⟩

/-! ### Spans -/

mutual

/-- Every span in a tree. -/
def Node.spans : Node → List Span
  | .number _ s | .string _ s | .boolean _ s | .symbol _ s => [s]
  | .list items s => s :: Node.spansAll items
  | .call head args s => s :: (head.spans ++ Node.spansAll args)
  | .letIn bindings body s => s :: (Node.spansBindings bindings ++ body.spans)
  | .conditional test yes no s => s :: (test.spans ++ (yes.spans ++ Node.spansOptional no))
  | .function _ _ body s => s :: body.spans

def Node.spansAll : List Node → List Span
  | [] => []
  | x :: xs => x.spans ++ Node.spansAll xs

def Node.spansBindings : List (String × Node) → List Span
  | [] => []
  | (_, x) :: bs => x.spans ++ Node.spansBindings bs

def Node.spansOptional : Option Node → List Span
  | none => []
  | some x => x.spans

end

namespace Node

theorem spans_subset_all {x : Node} {xs : List Node} (h : x ∈ xs) : x.spans ⊆ spansAll xs := by
  induction h with
  | head xs => exact List.subset_append_left _ _
  | tail y _ ih => exact fun p hp => List.mem_append_right _ (ih hp)

theorem spans_subset_bindings {b : String × Node} {bs : List (String × Node)} (h : b ∈ bs) :
    b.2.spans ⊆ spansBindings bs := by
  induction h with
  | head bs => exact List.subset_append_left _ _
  | tail c _ ih => exact fun p hp => List.mem_append_right _ (ih hp)

section MapSpans

variable (move : Span → Span)

mutual

/-- The same tree with other spans. -/
def mapSpans : Node → Node
  | number x s => .number x (move s)
  | string x s => .string x (move s)
  | boolean b s => .boolean b (move s)
  | symbol name s => .symbol name (move s)
  | list items s => .list (mapSpansAll items) (move s)
  | call head args s => .call head.mapSpans (mapSpansAll args) (move s)
  | letIn bindings body s => .letIn (mapSpansBindings bindings) body.mapSpans (move s)
  | conditional test yes no s =>
    .conditional test.mapSpans yes.mapSpans (mapSpansOptional no) (move s)
  | function name params body s => .function name params body.mapSpans (move s)

def mapSpansAll : List Node → List Node
  | [] => []
  | x :: xs => x.mapSpans :: mapSpansAll xs

def mapSpansBindings : List (String × Node) → List (String × Node)
  | [] => []
  | (name, x) :: bs => (name, x.mapSpans) :: mapSpansBindings bs

def mapSpansOptional : Option Node → Option Node
  | none => none
  | some x => some x.mapSpans

end

theorem mapSpansAll_eq_map (xs : List Node) : mapSpansAll move xs = xs.map (mapSpans move) := by
  induction xs with
  | nil => rfl
  | cons x xs ih => rw [mapSpansAll, ih, List.map_cons]

theorem mapSpansBindings_eq_map (bs : List (String × Node)) :
    mapSpansBindings move bs = bs.map (Prod.map id (mapSpans move)) := by
  induction bs with
  | nil => rfl
  | cons b bs ih => rw [mapSpansBindings, ih, List.map_cons, Prod.map, id]

end MapSpans

section

variable (first second : Span → Span)

mutual

theorem mapSpans_mapSpans :
    (x : Node) → (x.mapSpans first).mapSpans second = x.mapSpans (second ∘ first)
  | .number .. | .string .. | .boolean .. | .symbol .. => rfl
  | .list items _ => by
    simp only [mapSpans, mapSpansAll_mapSpansAll items, Function.comp_apply]
  | .call head args _ => by
    simp only [mapSpans, mapSpans_mapSpans head, mapSpansAll_mapSpansAll args, Function.comp_apply]
  | .letIn bindings body _ => by
    simp only [mapSpans, mapSpansBindings_mapSpansBindings bindings, mapSpans_mapSpans body,
      Function.comp_apply]
  | .conditional test yes none _ => by
    simp only [mapSpans, mapSpansOptional, mapSpans_mapSpans test, mapSpans_mapSpans yes,
      Function.comp_apply]
  | .conditional test yes (some no) _ => by
    simp only [mapSpans, mapSpansOptional, mapSpans_mapSpans test, mapSpans_mapSpans yes,
      mapSpans_mapSpans no, Function.comp_apply]
  | .function _ _ body _ => by
    simp only [mapSpans, mapSpans_mapSpans body, Function.comp_apply]

theorem mapSpansAll_mapSpansAll : (xs : List Node) →
    mapSpansAll second (mapSpansAll first xs) = mapSpansAll (second ∘ first) xs
  | [] => rfl
  | x :: xs => by
    simp only [mapSpansAll, mapSpans_mapSpans x, mapSpansAll_mapSpansAll xs]

theorem mapSpansBindings_mapSpansBindings : (bs : List (String × Node)) →
    mapSpansBindings second (mapSpansBindings first bs) = mapSpansBindings (second ∘ first) bs
  | [] => rfl
  | (_, x) :: bs => by
    simp only [mapSpansBindings, mapSpans_mapSpans x, mapSpansBindings_mapSpansBindings bs]

end

end

theorem mapSpans_id (x : Node) : x.mapSpans id = x := by
  have all {xs : List Node} (ih : ∀ x ∈ xs, x.mapSpans id = x) : mapSpansAll id xs = xs := by
    rw [mapSpansAll_eq_map, List.map_congr_left ih, List.map_id']
  induction x using Node.induction with
  | number | string | boolean | symbol => rfl
  | list items s ih => exact congrArg (list · s) (all ih)
  | call head args s ihf ih =>
    show call (head.mapSpans id) (mapSpansAll id args) s = _
    rw [ihf, all ih]
  | letIn bindings body s ih ihb =>
    have hb : mapSpansBindings id bindings = bindings := by
      have hm (b : String × Node) (h : b ∈ bindings) : Prod.map id (mapSpans id) b = b :=
        Prod.ext rfl (ih b h)
      rw [mapSpansBindings_eq_map, List.map_congr_left hm, List.map_id']
    show letIn (mapSpansBindings id bindings) (body.mapSpans id) s = _
    rw [hb, ihb]
  | conditional test yes no s iht ihy ihn =>
    have hn : mapSpansOptional id no = no := by
      cases no with
      | none => rfl
      | some x => exact congrArg some (ihn x rfl)
    show conditional (test.mapSpans id) (yes.mapSpans id) (mapSpansOptional id no) s = _
    rw [iht, ihy, hn]
  | function name params body s ih => exact congrArg (function name params · s) ih

end Node

mutual

/-- Every span in the bodies of the closures of a value. -/
def Value.spans : Value → List Span
  | .string _ | .number _ | .boolean _ | .function (.primitive _) => []
  | .function (.closure c) => c.body.spans
  | .list items => Value.spansAll items

def Value.spansAll : List Value → List Span
  | [] => []
  | v :: vs => v.spans ++ Value.spansAll vs

end

theorem Value.spans_subset_all {v : Value} {vs : List Value} (h : v ∈ vs) :
    v.spans ⊆ spansAll vs := by
  induction h with
  | head vs => exact List.subset_append_left _ _
  | tail w _ ih => exact fun p hp => List.mem_append_right _ (ih hp)

/-- The span occurs in a value that is bound in some scope. -/
def State.HasSpan (s : State) (p : Span) : Prop :=
  ∃ id key v, (s.scopes.bindings id).find? key = some v ∧ p ∈ v.spans

end SmallLisp
