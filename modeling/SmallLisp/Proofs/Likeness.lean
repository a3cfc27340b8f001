import SmallLisp.Eval
import SmallLisp.Proofs.Correspondence.Values

/-! Trees, values and states that are alike: they differ in nothing but their
spans and the spelling of their names. Likeness has an other side, it is kept
when spans are replaced by others that may stand for them, and what is alike but
for its spans is written the same. -/

namespace SmallLisp

/-- What two things that are alike may differ in: which spans may stand for each
other, and which names, if only in case. -/
structure Likeness where
  span : Span → Span → Prop
  name : String → String → Prop
  lowercase_eq {x y : String} : name x y → Text.lowercase x = Text.lowercase y

namespace Likeness

/-- No difference but in spans. -/
def ofSpans (S : Span → Span → Prop) : Likeness := ⟨S, Eq, congrArg Text.lowercase⟩

/-- No difference but in spans, and any difference in those. -/
def anySpans : Likeness := ofSpans fun _ _ => True

/-- The same differences, seen from the other side. -/
def flip (L : Likeness) : Likeness :=
  ⟨fun p q => L.span q p, fun x y => L.name y x, fun h => (L.lowercase_eq h).symm⟩

theorem flip_anySpans : anySpans.flip = anySpans := by
  simp only [anySpans, ofSpans, flip, eq_comm]

end Likeness

variable {L : Likeness}

/-! ### Trees -/

inductive Node.Alike (L : Likeness) : Node → Node → Prop
  | number (x : Single) {p q : Span} (hs : L.span p q) : Alike L (.number x p) (.number x q)
  | string (s : String) {p q : Span} (hs : L.span p q) : Alike L (.string s p) (.string s q)
  | boolean (b : Bool) {p q : Span} (hs : L.span p q) : Alike L (.boolean b p) (.boolean b q)
  | symbol {f g : String} {p q : Span} (hn : L.name f g) (hs : L.span p q) :
    Alike L (.symbol f p) (.symbol g q)
  | list {xs ys : List Node} {p q : Span} (hx : List.Forall₂ (Alike L) xs ys) (hs : L.span p q) :
    Alike L (.list xs p) (.list ys q)
  | call {f g : Node} {xs ys : List Node} {p q : Span} (hf : Alike L f g)
    (hx : List.Forall₂ (Alike L) xs ys) (hs : L.span p q) : Alike L (.call f xs p) (.call g ys q)
  | letIn {bs cs : List (String × Node)} {x y : Node} {p q : Span}
    (hn : List.Forall₂ L.name (bs.map (·.1)) (cs.map (·.1)))
    (hv : List.Forall₂ (Alike L) (bs.map (·.2)) (cs.map (·.2))) (hx : Alike L x y)
    (hs : L.span p q) : Alike L (.letIn bs x p) (.letIn cs y q)
  | conditional {a b x y : Node} {no no' : Option Node} {p q : Span} (ht : Alike L a b)
    (hx : Alike L x y) (hn : Option.Rel (Alike L) no no') (hs : L.span p q) :
    Alike L (.conditional a x no p) (.conditional b y no' q)
  | function {f g : String} {ps qs : List String} {x y : Node} {p q : Span} (hn : L.name f g)
    (hp : List.Forall₂ L.name ps qs) (hx : Alike L x y) (hs : L.span p q) :
    Alike L (.function f ps x p) (.function g qs y q)

theorem forall₂_symm_of_mem {α β : Type} {R : α → β → Prop} {R' : β → α → Prop} {as : List α}
    {bs : List β} (h : List.Forall₂ R as bs) (hs : ∀ a ∈ as, ∀ b, R a b → R' b a) :
    List.Forall₂ R' bs as := by
  have hand := (List.forall₂_and_left as bs).2 ⟨hs, h⟩
  exact List.Forall₂.flip (hand.imp fun a b hab => hab.1 b hab.2)

namespace Node

theorem Alike.span {x y : Node} (h : x.Alike L y) : L.span x.span y.span := by
  cases h <;> assumption

theorem Alike.primitive?_eq {x y : Node} (h : x.Alike L y) : x.primitive? = y.primitive? := by
  cases h with
  | symbol hn => exact congrArg Primitive.ofName? (L.lowercase_eq hn)
  | number | string | boolean | list | call | letIn | conditional | function => rfl

/-- What holds of two trees that are alike may be shown along their parts. -/
@[elab_as_elim]
theorem Alike.induction {P : Node → Node → Prop}
    (number : ∀ x p q, L.span p q → P (.number x p) (.number x q))
    (string : ∀ s p q, L.span p q → P (.string s p) (.string s q))
    (boolean : ∀ b p q, L.span p q → P (.boolean b p) (.boolean b q))
    (symbol : ∀ f g p q, L.name f g → L.span p q → P (.symbol f p) (.symbol g q))
    (list : ∀ xs ys p q, List.Forall₂ P xs ys → L.span p q → P (.list xs p) (.list ys q))
    (call : ∀ f g xs ys p q, P f g → List.Forall₂ P xs ys → L.span p q →
      P (.call f xs p) (.call g ys q))
    (letIn : ∀ bs cs x y p q, List.Forall₂ L.name (bs.map (·.1)) (cs.map (·.1)) →
      List.Forall₂ P (bs.map (·.2)) (cs.map (·.2)) → P x y → L.span p q →
      P (.letIn bs x p) (.letIn cs y q))
    (conditional : ∀ a b x y no no' p q, P a b → P x y → Option.Rel P no no' → L.span p q →
      P (.conditional a x no p) (.conditional b y no' q))
    (function : ∀ f g ps qs x y p q, L.name f g → List.Forall₂ L.name ps qs → P x y →
      L.span p q → P (.function f ps x p) (.function g qs y q)) {x y : Node}
    (h : x.Alike L y) : P x y :=
  @Alike.rec L (fun x y _ => P x y) (fun xs ys _ => List.Forall₂ P xs ys)
    (fun no no' _ => Option.Rel P no no') (fun x => number x _ _) (fun s => string s _ _)
    (fun b => boolean b _ _) (fun hn hs => symbol _ _ _ _ hn hs)
    (fun _ hs hx => list _ _ _ _ hx hs) (fun _ _ hs hf hx => call _ _ _ _ _ _ hf hx hs)
    (fun hn _ _ hs hv hx => letIn _ _ _ _ _ _ hn hv hx hs)
    (fun _ _ _ hs ht hx hn => conditional _ _ _ _ _ _ _ _ ht hx hn hs)
    (fun hn hp _ hs hx => function _ _ _ _ _ _ _ _ hn hp hx hs) .nil
    (fun _ _ h hs => .cons h hs) (fun _ h => .some h) .none x y h

theorem Alike.symm {x y : Node} (h : x.Alike L y) : y.Alike L.flip x := by
  refine induction (P := fun x y => y.Alike L.flip x) ?number ?string ?boolean ?symbol ?list ?call
    ?letIn ?conditional ?function h
  case number => exact fun x _ _ hs => .number x hs
  case string => exact fun s _ _ hs => .string s hs
  case boolean => exact fun b _ _ hs => .boolean b hs
  case symbol => exact fun _ _ _ _ hn hs => .symbol hn hs
  case list => exact fun _ _ _ _ hx hs => .list hx.flip hs
  case call => exact fun _ _ _ _ _ _ hf hx hs => .call hf hx.flip hs
  case letIn =>
    intro _ _ _ _ _ _ hn hv hx hs
    exact .letIn (List.Forall₂.flip (R := L.flip.name) hn) hv.flip hx hs
  case conditional =>
    intro _ _ _ _ _ _ _ _ ht hx hn hs
    refine .conditional ht hx ?_ hs
    cases hn with
    | none => exact .none
    | some hn => exact .some hn
  case function =>
    intro _ _ _ _ _ _ _ _ hn hp hx hs
    exact .function hn (List.Forall₂.flip (R := L.flip.name) hp) hx hs

/-- A tree is like itself with other spans if these may stand for its own. -/
theorem alike_mapSpans (hn : ∀ name, L.name name name) {move : Span → Span} (x : Node) :
    (∀ p ∈ x.spans, L.span p (move p)) → x.Alike L (x.mapSpans move) := by
  have names (fs : List String) : List.Forall₂ L.name fs fs :=
    List.forall₂_same.2 fun f _ => hn f
  have all {xs : List Node} (ih : ∀ x ∈ xs, (∀ p ∈ x.spans, L.span p (move p)) →
      x.Alike L (x.mapSpans move)) (h : ∀ p ∈ spansAll xs, L.span p (move p)) :
      List.Forall₂ (Alike L) xs (mapSpansAll move xs) := by
    rw [mapSpansAll_eq_map]
    refine List.forall₂_map_right_iff.2 (List.forall₂_same.2 fun x hx => ih x hx fun p hp => ?_)
    exact h p (spans_subset_all hx hp)
  induction x using Node.induction with
  | number x s => exact fun h => .number x (h s List.mem_cons_self)
  | string x s => exact fun h => .string x (h s List.mem_cons_self)
  | boolean b s => exact fun h => .boolean b (h s List.mem_cons_self)
  | symbol name s => exact fun h => .symbol (hn name) (h s List.mem_cons_self)
  | list items s ih =>
    intro h
    obtain ⟨hs, hi⟩ := List.forall_mem_cons.1 h
    exact .list (all ih hi) hs
  | call head args s ihf ih =>
    intro h
    obtain ⟨hs, hr⟩ := List.forall_mem_cons.1 h
    obtain ⟨hf, hi⟩ := List.forall_mem_append.1 hr
    exact .call (ihf hf) (all ih hi) hs
  | letIn bindings body s ih ihb =>
    intro h
    obtain ⟨hs, hr⟩ := List.forall_mem_cons.1 h
    obtain ⟨hb, hx⟩ := List.forall_mem_append.1 hr
    refine .letIn ?_ ?_ (ihb hx) hs
    · rw [mapSpansBindings_eq_map, List.map_map]
      exact names _
    · rw [mapSpansBindings_eq_map, List.map_map]
      refine List.forall₂_map_left_iff.2 (List.forall₂_map_right_iff.2 ?_)
      exact List.forall₂_same.2 fun b hm => ih b hm fun p hp => hb p (spans_subset_bindings hm hp)
  | conditional test yes no s iht ihy ihn =>
    intro h
    obtain ⟨hs, hr⟩ := List.forall_mem_cons.1 h
    obtain ⟨ht, hr⟩ := List.forall_mem_append.1 hr
    obtain ⟨hy, hno⟩ := List.forall_mem_append.1 hr
    refine .conditional (iht ht) (ihy hy) ?_ hs
    cases no with
    | none => exact .none
    | some x => exact .some (ihn x rfl hno)
  | function name params body s ih =>
    intro h
    obtain ⟨hs, hb⟩ := List.forall_mem_cons.1 h
    exact .function (hn name) (names params) (ih hb) hs

/-- A tree is like itself if its spans and all names may stand for themselves. -/
theorem alike_self (hn : ∀ name, L.name name name) (x : Node) (h : ∀ p ∈ x.spans, L.span p p) :
    x.Alike L x := by
  have hx := @alike_mapSpans L hn id x h
  rwa [mapSpans_id] at hx

end Node

/-! ### Values -/

inductive Function.Alike (L : Likeness) : Function → Function → Prop
  | primitive (p : Primitive) : Alike L (.primitive p) (.primitive p)
  | closure {c d : Closure} (hi : c.id = d.id) (hn : L.name c.name d.name)
    (hp : List.Forall₂ L.name c.params d.params) (hb : c.body.Alike L d.body)
    (hs : c.scope = d.scope) : Alike L (.closure c) (.closure d)

inductive Value.Alike (L : Likeness) : Value → Value → Prop
  | string (s : String) : Alike L (.string s) (.string s)
  | number (x : Single) : Alike L (.number x) (.number x)
  | boolean (b : Bool) : Alike L (.boolean b) (.boolean b)
  | function {f g : Function} (hf : f.Alike L g) : Alike L (.function f) (.function g)
  | list {vs ws : List Value} (hv : List.Forall₂ (Alike L) vs ws) : Alike L (.list vs) (.list ws)

theorem Function.Alike.symm {f g : Function} (h : f.Alike L g) : g.Alike L.flip f := by
  cases h with
  | primitive p => exact .primitive p
  | closure hi hn hp hb hs => exact .closure hi.symm hn (List.Forall₂.flip hp) hb.symm hs.symm

/-- Closures that are alike, as functions are. -/
def Likeness.closure (L : Likeness) (c d : Closure) : Prop :=
  (Function.closure c).Alike L (.closure d)

theorem Function.alike_iff_rel {f g : Function} : f.Alike L g ↔ f.Rel L.closure g := by
  constructor
  · intro h
    cases h with
    | primitive p => exact .primitive p
    | closure hi hn hp hb hs => exact .closure (.closure hi hn hp hb hs)
  · intro h
    cases h with
    | primitive p => exact .primitive p
    | closure h => exact h

namespace Value

/-- Values are alike if they differ in nothing but closures that are alike. -/
theorem alike_iff_rel {v w : Value} : v.Alike L w ↔ v.Rel L.closure w := by
  constructor
  · exact @Alike.rec L (fun v w _ => v.Rel L.closure w)
      (fun vs ws _ => List.Forall₂ (Rel L.closure) vs ws) .string .number .boolean
      (fun hf => .function (Function.alike_iff_rel.1 hf)) (fun _ hv => .list hv) .nil
      (fun _ _ h hs => .cons h hs) v w
  · exact Rel.induction (P := Alike L) .string .number .boolean
      (fun f g hf => .function (Function.alike_iff_rel.2 hf)) fun vs ws hv => .list hv

theorem alike_eq_rel : Value.Alike L = Value.Rel L.closure :=
  funext fun _ => funext fun _ => propext alike_iff_rel

theorem Alike.symm {v w : Value} (h : v.Alike L w) : w.Alike L.flip v :=
  alike_iff_rel.2 ((alike_iff_rel.1 h).symm fun _ _ hc => Function.Alike.symm hc)

theorem alike_self (hn : ∀ name, L.name name name) (v : Value) :
    (∀ p ∈ v.spans, L.span p p) → v.Alike L v := by
  induction v using Value.induction with
  | string s => exact fun _ => .string s
  | number x => exact fun _ => .number x
  | boolean b => exact fun _ => .boolean b
  | function f =>
    intro h
    cases f with
    | primitive p => exact .function (.primitive p)
    | closure c =>
      exact .function (.closure rfl (hn c.name) (List.forall₂_same.2 fun f _ => hn f)
        (Node.alike_self hn c.body h) rfl)
  | list items ih =>
    intro h
    exact .list (List.forall₂_same.2 fun v hv => ih v hv fun p hp => h p (spans_subset_all hv hp))

end Value

/-! ### Written forms -/

section Text

variable (hL : ∀ {f g : String}, L.name f g → f = g)
include hL

theorem names_eq {fs gs : List String} (h : List.Forall₂ L.name fs gs) : fs = gs := by
  induction h with
  | nil => rfl
  | cons hn _ ih => rw [hL hn, ih]

omit hL in
theorem Node.charsAll_eq {xs ys : List Node}
    (h : List.Forall₂ (fun x y => x.chars = y.chars) xs ys) : charsAll xs = charsAll ys := by
  rw [charsAll_eq_map, charsAll_eq_map, ← List.forall₂_eq_eq_eq, List.forall₂_map_left_iff,
    List.forall₂_map_right_iff]
  exact h

theorem Node.charsBindings_eq {bs cs : List (String × Node)}
    (hn : List.Forall₂ L.name (bs.map (·.1)) (cs.map (·.1)))
    (hv : List.Forall₂ (fun x y => x.chars = y.chars) (bs.map (·.2)) (cs.map (·.2))) :
    charsBindings bs = charsBindings cs := by
  induction bs generalizing cs with
  | nil =>
    cases cs with
    | nil => rfl
    | cons c cs => cases hn
  | cons b bs ih =>
    cases cs with
    | nil => cases hn
    | cons c cs =>
      cases hn with
      | cons hb hn =>
        cases hv with
        | cons hx hv =>
          have hname : b.1 = c.1 := hL hb
          have hvalue : b.2.chars = c.2.chars := hx
          rw [charsBindings, charsBindings, hname, hvalue, ih hn hv]

theorem Node.Alike.chars_eq {x y : Node} (h : x.Alike L y) : x.chars = y.chars := by
  refine induction (P := fun x y => x.chars = y.chars) ?number ?string ?boolean ?symbol ?list ?call
    ?letIn ?conditional ?function h
  case number | string | boolean => exact fun _ _ _ _ => rfl
  case symbol => exact fun _ _ _ _ hn _ => congrArg String.toList (hL hn)
  case list =>
    intro _ _ _ _ hx _
    exact congrArg (fun cs => '[' :: (spaced cs ++ [']'])) (charsAll_eq hx)
  case call =>
    intro _ _ _ _ _ _ hf hx _
    exact congrArg₂ (fun c cs => '(' :: (spaced (c :: cs) ++ [')'])) hf (charsAll_eq hx)
  case letIn =>
    intro _ _ _ _ _ _ hn hv hx _
    exact congrArg₂ (fun cs c => "(let (".toList ++ spaced cs ++ ") ".toList ++ c ++ [')'])
      (charsBindings_eq hL hn hv) hx
  case conditional =>
    intro a b x y no no' _ _ ht hx hn _
    have ho : charsOptional no = charsOptional no' := by
      cases hn with
      | none => rfl
      | some hn => exact congrArg (fun c => [c]) hn
    show "(if ".toList ++ spaced (a.chars :: x.chars :: charsOptional no) ++ [')'] =
      "(if ".toList ++ spaced (b.chars :: y.chars :: charsOptional no') ++ [')']
    rw [ht, hx, ho]
  case function =>
    intro f g ps qs _ _ _ _ hn hp hx _
    obtain rfl := hL hn
    obtain rfl := names_eq hL hp
    exact congrArg (fun c => "(fun ".toList ++ f.toList ++ " [".toList ++
      spaced (ps.map String.toList) ++ "] ".toList ++ c ++ [')']) hx

theorem Likeness.chars_eq_of_closure (c d : Closure) (h : L.closure c d) :
    (Function.closure c).chars = (Function.closure d).chars := by
  cases h with
  | closure hi hn hp hb hs =>
    show "(fun ".toList ++ c.name.toList ++ " [".toList ++ spaced (c.params.map String.toList) ++
        "] ".toList ++ c.body.chars ++ [')'] =
      "(fun ".toList ++ d.name.toList ++ " [".toList ++ spaced (d.params.map String.toList) ++
        "] ".toList ++ d.body.chars ++ [')']
    rw [hL hn, names_eq hL hp, hb.chars_eq hL]

theorem Value.Alike.text_eq {v w : Value} (h : v.Alike L w) : v.text = w.text :=
  (Value.alike_iff_rel.1 h).text_eq (L.chars_eq_of_closure hL)

end Text

end SmallLisp
