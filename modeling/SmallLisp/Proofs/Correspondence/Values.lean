import SmallLisp.Eval.EvalError
import SmallLisp.Proofs.Simulation
import SmallLisp.Proofs.Trees

/-! Values that differ in nothing but their closures, which a relation pairs off.
Primitives cannot look into a closure, except that equality reads its name: for
arguments that are paired off they give values that are, or refuse both for the
same reason. -/

namespace SmallLisp

inductive Function.Rel (R : Closure → Closure → Prop) : Function → Function → Prop
  | primitive (p : Primitive) : Rel R (.primitive p) (.primitive p)
  | closure {c d : Closure} (h : R c d) : Rel R (.closure c) (.closure d)

/-- The same value, but for closures that `R` relates. -/
inductive Value.Rel (R : Closure → Closure → Prop) : Value → Value → Prop
  | string (s : String) : Rel R (.string s) (.string s)
  | number (x : Single) : Rel R (.number x) (.number x)
  | boolean (b : Bool) : Rel R (.boolean b) (.boolean b)
  | function {f g : Function} (h : f.Rel R g) : Rel R (.function f) (.function g)
  | list {vs ws : List Value} (h : List.Forall₂ (Rel R) vs ws) : Rel R (.list vs) (.list ws)

variable {R S : Closure → Closure → Prop}

namespace Function.Rel

variable {f g : Function} (h : f.Rel R g)
include h

theorem symm (hR : ∀ c d, R c d → S d c) : g.Rel S f := by
  cases h with
  | primitive p => exact .primitive p
  | closure h => exact .closure (hR _ _ h)

theorem eq (hR : ∀ c d, R c d → c = d) : f = g := by
  cases h with
  | primitive p => rfl
  | closure h => exact congrArg Function.closure (hR _ _ h)

theorem lowercase_eq (hR : ∀ c d, R c d → Text.lowercase c.name = Text.lowercase d.name) :
    Text.lowercase f.name = Text.lowercase g.name := by
  cases h with
  | primitive p => rfl
  | closure h => exact hR _ _ h

theorem chars_eq (hR : ∀ c d, R c d → (Function.closure c).chars = (Function.closure d).chars) :
    f.chars = g.chars := by
  cases h with
  | primitive p => rfl
  | closure h => exact hR _ _ h

end Function.Rel

namespace Value.Rel

section Observations

variable {v w : Value} (h : v.Rel R w)
include h

theorem type_eq : v.type = w.type := by cases h <;> rfl

theorem string?_eq : v.string? = w.string? := by cases h <;> rfl

theorem number?_eq : v.number? = w.number? := by cases h <;> rfl

theorem boolean?_eq : v.boolean? = w.boolean? := by cases h <;> rfl

end Observations

/-- What holds of two values that are paired off may be shown along their lists. -/
@[elab_as_elim]
theorem induction {P : Value → Value → Prop} (string : ∀ s, P (.string s) (.string s))
    (number : ∀ x, P (.number x) (.number x)) (boolean : ∀ b, P (.boolean b) (.boolean b))
    (function : ∀ f g, f.Rel R g → P (.function f) (.function g))
    (list : ∀ vs ws, List.Forall₂ P vs ws → P (.list vs) (.list ws))
    {v w : Value} (h : v.Rel R w) : P v w :=
  @Rel.rec R (fun v w _ => P v w) (fun vs ws _ => List.Forall₂ P vs ws) string number boolean
    (fun h => function _ _ h) (fun _ h => list _ _ h) .nil (fun _ _ h hs => .cons h hs) v w h

theorem symm (hR : ∀ c d, R c d → S d c) {v w : Value} (h : v.Rel R w) : w.Rel S v := by
  refine induction (P := fun v w => Rel S w v) .string .number .boolean (fun f g hf => ?_)
    (fun vs ws hv => ?_) h
  · exact .function (hf.symm hR)
  · exact .list hv.flip

theorem eq (hR : ∀ c d, R c d → c = d) {v w : Value} (h : v.Rel R w) : v = w := by
  refine induction (P := Eq) (fun _ => rfl) (fun _ => rfl) (fun _ => rfl) (fun f g hf => ?_)
    (fun vs ws hv => ?_) h
  · exact congrArg Value.function (hf.eq hR)
  · rw [List.forall₂_eq_eq_eq] at hv
    exact congrArg Value.list hv

theorem chars_eq (hR : ∀ c d, R c d → (Function.closure c).chars = (Function.closure d).chars)
    {v w : Value} (h : v.Rel R w) : v.chars = w.chars := by
  refine induction (P := fun v w => v.chars = w.chars) (fun _ => rfl) (fun _ => rfl)
    (fun _ => rfl) (fun f g hf => hf.chars_eq hR) (fun vs ws hv => ?_) h
  have hc : charsAll vs = charsAll ws := by
    rw [charsAll_eq_map, charsAll_eq_map, ← List.forall₂_eq_eq_eq, List.forall₂_map_left_iff,
      List.forall₂_map_right_iff]
    exact hv
  exact congrArg (fun cs => '[' :: (spaced cs ++ [']'])) hc

theorem text_eq (hR : ∀ c d, R c d → (Function.closure c).chars = (Function.closure d).chars)
    {v w : Value} (h : v.Rel R w) : v.text = w.text :=
  congrArg String.ofList (h.chars_eq hR)

theorem equalsAll_eq {vs ws xs ys : List Value}
    (hv : List.Forall₂ (fun v w => ∀ {x y : Value}, x.Rel R y → v.equals x = w.equals y) vs ws)
    (hx : List.Forall₂ (Rel R) xs ys) : equalsAll vs xs = equalsAll ws ys := by
  induction hv generalizing xs ys with
  | nil => cases hx <;> rfl
  | cons h _ ih =>
    cases hx with
    | nil => rfl
    | cons hxy hx => rw [equalsAll, equalsAll, h hxy, ih hx]

/-- Equality only reads the names of closures. -/
theorem equals_eq (hR : ∀ c d, R c d → Text.lowercase c.name = Text.lowercase d.name)
    {v w x y : Value} (h : v.Rel R w) (k : x.Rel R y) : v.equals x = w.equals y := by
  revert x y
  refine induction (P := fun v w => ∀ {x y : Value}, x.Rel R y → v.equals x = w.equals y)
    ?string ?number ?boolean ?function ?list h
  case string | number | boolean =>
    intro a x y hxy
    cases hxy <;> rfl
  case function =>
    intro f g hf x y hxy
    cases hxy with
    | function hg =>
      show (Text.lowercase _ == Text.lowercase _) = (Text.lowercase _ == Text.lowercase _)
      rw [hf.lowercase_eq hR, hg.lowercase_eq hR]
    | string | number | boolean | list => rfl
  case list =>
    intro vs ws hv x y hxy
    cases hxy with
    | list hx => exact equalsAll_eq hv hx
    | string | number | boolean | function => rfl

end Value.Rel

theorem Value.rel_refl (hR : ∀ c, R c c) (v : Value) : v.Rel R v := by
  induction v using Value.induction with
  | string s => exact .string s
  | number x => exact .number x
  | boolean b => exact .boolean b
  | function f =>
    cases f with
    | primitive p => exact .function (.primitive p)
    | closure c => exact .function (.closure (hR c))
  | list items ih => exact .list (List.forall₂_same.2 ih)

/-! ### Primitives -/

namespace Primitive

variable {vs ws : List Value} (hv : List.Forall₂ (Value.Rel R) vs ws)

section Contents

variable {α : Type} {content? : Value → Option α}
  (hc : ∀ {v w : Value}, v.Rel R w → content? v = content? w)
include hv hc

theorem contents_eq (p : Primitive) (type : ValueType) (position : Nat) :
    contents p type content? position vs = contents p type content? position ws := by
  induction hv generalizing position with
  | nil => rfl
  | cons h _ ih => rw [contents, contents, hc h, h.type_eq, ih]

theorem combine_eq (p : Primitive) (type : ValueType) (f : α → α → α) :
    combine p type content? f vs = combine p type content? f ws := by
  rw [combine, combine, contents_eq hv hc]

end Contents

include hv

theorem wrongCount_rel (p : Primitive) (expected : Nat) :
    ResultRel Eq (Value.Rel R) (.error (ArgumentError.wrongCount p expected vs.length))
      (.error (ArgumentError.wrongCount p expected ws.length)) :=
  .error (congrArg (ArgumentError.wrongCount p expected) hv.length_eq)

theorem combineNumbers_rel (p : Primitive) (f : Single → Single → Single) :
    ResultRel Eq (Value.Rel R) (combineNumbers p f vs) (combineNumbers p f ws) := by
  rw [combineNumbers, combineNumbers, combine_eq hv Value.Rel.number?_eq]
  exact (ResultRel.refl (fun _ => rfl) (fun _ => rfl) _).map fun _ _ h => h ▸ .number _

theorem combineBooleans_rel (p : Primitive) (f : Bool → Bool → Bool) :
    ResultRel Eq (Value.Rel R) (combineBooleans p f vs) (combineBooleans p f ws) := by
  rw [combineBooleans, combineBooleans, combine_eq hv Value.Rel.boolean?_eq]
  exact (ResultRel.refl (fun _ => rfl) (fun _ => rfl) _).map fun _ _ h => h ▸ .boolean _

omit hv in
theorem splitList_rel (p : Primitive) {v w : Value} (h : v.Rel R w) :
    ResultRel Eq (fun x y => x.1.Rel R y.1 ∧ List.Forall₂ (Value.Rel R) x.2 y.2)
      (splitList p v) (splitList p w) := by
  cases h with
  | list hv =>
    cases hv with
    | nil => exact .error rfl
    | cons h hs => exact .ok ⟨h, hs⟩
  | string | number | boolean | function => exact .error rfl

/-- A primitive gives values that are paired off for arguments that are, or
refuses both for the same reason. -/
theorem result_rel (hR : ∀ c d, R c d → Text.lowercase c.name = Text.lowercase d.name)
    (p : Primitive) : ResultRel Eq (Value.Rel R) (p.result vs) (p.result ws) := by
  cases p with
  | add | sub | mul | div => exact combineNumbers_rel hv _ _
  | and | or => exact combineBooleans_rel hv _ _
  | not =>
    match vs, ws, hv with
    | _, _, .nil => exact .error rfl
    | _, _, .cons h .nil =>
      cases h with
      | boolean b => exact .ok (.boolean !b)
      | string | number | function | list => exact .error rfl
    | _, _, .cons h (.cons k hs) =>
      have hc := wrongCount_rel (.cons h (.cons k hs)) not 1
      cases h <;> exact hc
  | eq =>
    match vs, ws, hv with
    | _, _, .cons h (.cons k .nil) =>
      exact .ok (h.equals_eq hR k ▸ .boolean _)
    | _, _, .nil => exact .error rfl
    | _, _, .cons _ .nil => exact .error rfl
    | _, _, .cons h (.cons k (.cons l hs)) =>
      exact wrongCount_rel (.cons h (.cons k (.cons l hs))) eq 2
  | neq =>
    match vs, ws, hv with
    | _, _, .cons h (.cons k .nil) =>
      exact .ok (h.equals_eq hR k ▸ .boolean _)
    | _, _, .nil => exact .error rfl
    | _, _, .cons _ .nil => exact .error rfl
    | _, _, .cons h (.cons k (.cons l hs)) =>
      exact wrongCount_rel (.cons h (.cons k (.cons l hs))) neq 2
  | car =>
    match vs, ws, hv with
    | _, _, .cons h .nil => exact (splitList_rel car h).map fun _ _ hp => hp.1
    | _, _, .nil => exact .error rfl
    | _, _, .cons h (.cons k hs) => exact wrongCount_rel (.cons h (.cons k hs)) car 1
  | cdr =>
    match vs, ws, hv with
    | _, _, .cons h .nil => exact (splitList_rel cdr h).map fun _ _ hp => .list hp.2
    | _, _, .nil => exact .error rfl
    | _, _, .cons h (.cons k hs) => exact wrongCount_rel (.cons h (.cons k hs)) cdr 1
  | cons =>
    match vs, ws, hv with
    | _, _, .cons h (.cons k .nil) =>
      cases h with
      | list hv => exact .ok (.list (List.rel_append hv (.cons k .nil)))
      | string | number | boolean | function => exact .error rfl
    | _, _, .nil => exact .error rfl
    | _, _, .cons h .nil => cases h <;> exact .error rfl
    | _, _, .cons h (.cons k (.cons l hs)) =>
      have hc := wrongCount_rel (.cons h (.cons k (.cons l hs))) cons 2
      cases h <;> exact hc
  | print =>
    have hl : printedLine vs = printedLine ws := by
      rw [printedLine, printedLine, contents_eq hv Value.Rel.string?_eq]
    show ResultRel _ _ (Value.string <$> printedLine vs) (Value.string <$> printedLine ws)
    rw [hl]
    exact (ResultRel.refl (fun _ => rfl) (fun _ => rfl) _).map fun _ _ h => h ▸ .string _

end Primitive

end SmallLisp
