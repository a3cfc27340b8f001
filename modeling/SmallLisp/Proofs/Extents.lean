import SmallLisp.Proofs.Grammar.Parts
import SmallLisp.Proofs.RoundTrip
import SmallLisp.Proofs.Shift.Parsing
import SmallLisp.Proofs.Slices

/-! The stretches of source that trees are read from. The span of a tree reaches
from the first of its tokens to the last. Read by itself, the text at the span is
a program of one form, and the form is that tree with every span moved to the
front. The parts of a tree lie within it, one after the other. -/

namespace SmallLisp

open Token (scanFrom)

/-! ### Equality with a moved tree -/

namespace Node

mutual

/-- Moving the spans of a tree gives an equal one, unless there is a NaN in it. -/
theorem same_mapSpans (move : Span → Span) : (x : Node) →
    x.WellFormedWith (fun v => v.equals v) → x.same (x.mapSpans move)
  | .number x _, h => by
    rw [mapSpans, same]
    exact h
  | .string s _, _ => by simp [mapSpans, same]
  | .boolean b _, _ => by simp [mapSpans, same]
  | .symbol name _, _ => by simp [mapSpans, same]
  | .list items _, h => by
    rw [mapSpans, same]
    exact sameAll_mapSpans move items h
  | .call head args _, ⟨_, hh, ha⟩ => by
    rw [mapSpans, same, same_mapSpans move head hh, sameAll_mapSpans move args ha]
    rfl
  | .letIn bindings body _, ⟨hb, hx⟩ => by
    rw [mapSpans, same, same_mapSpans move body hx, sameBindings_mapSpans move bindings hb]
    rfl
  | .conditional test yes (some no) _, ⟨ht, hy, hn⟩ => by
    rw [mapSpans, same, mapSpansOptional, sameOptional, same_mapSpans move test ht,
      same_mapSpans move yes hy, same_mapSpans move no hn]
    rfl
  | .function name params body _, ⟨_, _, hx⟩ => by
    rw [mapSpans, same, same_mapSpans move body hx]
    simp

theorem sameAll_mapSpans (move : Span → Span) : (xs : List Node) →
    WellFormedAll (fun v => v.equals v) xs → sameAll xs (mapSpansAll move xs)
  | [], _ => by simp [mapSpansAll, sameAll]
  | x :: xs, ⟨hx, hxs⟩ => by
    rw [mapSpansAll, sameAll, same_mapSpans move x hx, sameAll_mapSpans move xs hxs]
    rfl

theorem sameBindings_mapSpans (move : Span → Span) : (bs : List (String × Node)) →
    WellFormedBindings (fun v => v.equals v) bs → sameBindings bs (mapSpansBindings move bs)
  | [], _ => by simp [mapSpansBindings, sameBindings]
  | (name, x) :: bs, ⟨_, hx, hbs⟩ => by
    rw [mapSpansBindings, sameBindings, same_mapSpans move x hx, sameBindings_mapSpans move bs hbs]
    simp

end

end Node

/-- No number that is read differs from itself. -/
theorem equals_self_of_parseText {source : String} {forms : List Node}
    (h : parseText source = .ok forms) :
    ∀ x ∈ forms, x.WellFormedWith fun v => v.equals v := by
  obtain ⟨ts, ht, hp⟩ := parseText_eq_ok.1 h
  obtain ⟨fs, rfl, rfl, hs⟩ := exists_forms_of_parse ht hp
  refine Node.wellFormedAll_iff.1 ((Form.wellFormedAll_iff fs hs).2 fun t ht hk x hx => ?_)
  cases x with
  | nan => exact absurd hx (Single.read?_ne_nan (any_isDigit_of_cut (hk ▸ hs t ht)))
  | signed => simp [Single.equals]

/-! ### From the first token to the last -/

namespace Form

theorem span_eq_merge (f : Form) : ∃ t u, f.tokens.head? = some t ∧ f.tokens.getLast? = some u ∧
    f.node.span = t.span.merge u.span := by
  cases f with
  | atom a =>
    refine ⟨a.token, a.token, rfl, rfl, ?_⟩
    rw [Span.merge, Nat.min_self, Nat.max_self]
    cases a <;> rfl
  | list p items =>
    refine ⟨p.opener.val, p.closer.val, rfl, ?_, rfl⟩
    rw [tokens, Brackets.around, ← List.cons_append, List.getLast?_concat]
  | round p c =>
    refine ⟨p.opener.val, p.closer.val, rfl, ?_, ?_⟩
    · rw [tokens, Brackets.around, ← List.cons_append, List.getLast?_concat]
    · cases c <;> rfl

/-- The tree of a form has the span of the stretch that its tokens are cut from. -/
theorem exists_extent (f : Form) {start : Nat} {cs : List Char} {us ws : List Token}
    (h : scanFrom start cs = .ok (us ++ (f.tokens ++ ws))) :
    ∃ before part after, cs = before ++ (part ++ after) ∧
      scanFrom (start + Text.byteLength before) part = .ok f.tokens ∧
      f.node.span = ⟨start + Text.byteLength before,
        start + Text.byteLength before + Text.byteLength part⟩ := by
  obtain ⟨t, u, ht, hu, hspan⟩ := f.span_eq_merge
  obtain ⟨before, part, after, hcs, hscan, hstart, hstop⟩ := Token.exists_slice h ht hu
  refine ⟨before, part, after, hcs, hscan, ?_⟩
  have hfirst := Token.bounds_of_scanFrom hscan (List.mem_of_head? ht)
  have hlast := Token.bounds_of_scanFrom hscan (List.mem_of_getLast? hu)
  rw [hspan, Span.merge, hstart, hstop, Nat.min_eq_left, Nat.max_eq_right]
  · exact hstop ▸ hfirst.2
  · exact hlast.1

theorem tokens_ne_nil (f : Form) : f.tokens ≠ [] := by
  obtain ⟨t, -, ht, -⟩ := f.span_eq_merge
  rintro h
  rw [h] at ht
  cases ht

theorem stop_le_start {f g : Form}
    (h : ∀ t ∈ f.tokens, ∀ u ∈ g.tokens, t.span.stop ≤ u.span.start) :
    f.node.span.stop ≤ g.node.span.start := by
  obtain ⟨t, t', ht, ht', hf⟩ := f.span_eq_merge
  obtain ⟨u, u', hu, hu', hg⟩ := g.span_eq_merge
  have hle (v : Token) (hv : v ∈ f.tokens) : v.span.stop ≤ g.node.span.start := by
    rw [hg]
    exact Nat.le_min.2 ⟨h v hv u (List.mem_of_head? hu), h v hv u' (List.mem_of_getLast? hu')⟩
  rw [hf]
  exact Nat.max_le.2 ⟨hle t (List.mem_of_head? ht), hle t' (List.mem_of_getLast? ht')⟩

end Form

/-- Forms whose tokens stand one after the other have trees that do. -/
theorem Laid.pairwise_span {fs : List Form} {ts : List Token} (h : Laid fs ts)
    (ht : ts.Pairwise fun t u => t.span.stop ≤ u.span.start) :
    (fs.map Form.node).Pairwise fun x y => x.span.stop ≤ y.span.start := by
  induction h with
  | nil => exact .nil
  | @cons gap f fs ts h ih =>
    obtain ⟨-, hrest, -⟩ := List.pairwise_append.1 ht
    obtain ⟨-, hts, hf⟩ := List.pairwise_append.1 hrest
    refine .cons (fun y hy => ?_) (ih hts)
    obtain ⟨g, hg, rfl⟩ := List.mem_map.1 hy
    obtain ⟨us, ws, rfl⟩ := h.exists_append hg
    exact Form.stop_le_start fun t hmem u hu => hf t hmem u (by simp [hu])

/-! ### Reading a stretch by itself -/

/-- A text that is cut into the tokens of a form is a program of that form. -/
theorem exists_parseText_of_scanFrom {start : Nat} {cs : List Char} {f : Form}
    (h : scanFrom (0 + start) cs = .ok f.tokens) :
    ∃ x, parseText (String.ofList cs) = .ok [x] ∧ x.shift start = f.node := by
  rw [Token.scanFrom_add, bimap_eq_ok] at h
  obtain ⟨ts, ht, hts⟩ := h
  have hp := parse_tokensAll [f]
  rw [Form.tokensAll, Form.tokensAll, List.append_nil, ← hts, parse, parseMany_shift,
    bimap_eq_ok] at hp
  obtain ⟨xs, hxs, hmap⟩ := hp
  obtain ⟨x, xs, rfl, hx, hnil⟩ := List.map_eq_cons_iff.1 hmap
  obtain rfl := List.map_eq_nil_iff.1 hnil
  refine ⟨x, parseText_eq_ok.2 ⟨ts, ?_, hxs⟩, hx⟩
  rw [tokenize, String.toList_ofList, ht]

/-- Every tree in a program is read from the text at its span: that is not empty, and
by itself a program of one form, an equal tree that has the same spans once they are
moved to where the text begins. The parts of a tree lie inside of it, one after the
other, and so do the forms of the program. -/
theorem spans_faithful {source : String} {forms : List Node} (h : parseText source = .ok forms) :
    (∀ x : Node, x.StandsIn forms →
      (∃ part, part ≠ [] ∧ x.span.Covers source.toList part ∧
        ∃ y, parseText (String.ofList part) = .ok [y] ∧ y.same x ∧ y.shift x.span.start = x) ∧
      (∀ y ∈ x.parts, x.span.start ≤ y.span.start ∧ y.span.stop ≤ x.span.stop) ∧
      x.parts.Pairwise fun y z => y.span.stop ≤ z.span.start) ∧
    forms.Pairwise fun x y => x.span.stop ≤ y.span.start := by
  obtain ⟨fs, ht, rfl⟩ := parseText_eq_ok_iff_forms.1 h
  have hordered := Token.pairwise_of_scanFrom ht
  constructor
  · intro x hx
    obtain ⟨f, rfl, us, ws, hf⟩ := Form.exists_of_standsIn hx
    rw [tokenize, hf] at ht
    obtain ⟨before, part, after, hcs, hscan, hspan⟩ := f.exists_extent ht
    refine ⟨⟨part, ?_, ⟨before, after, hcs, ?_⟩, ?_⟩, fun y hy => ?_, ?_⟩
    · rintro rfl
      rw [Token.scanFrom_nil] at hscan
      exact f.tokens_ne_nil (Except.ok.inj hscan).symm
    · rw [hspan, Nat.zero_add]
    · obtain ⟨y, hy, hshift⟩ := exists_parseText_of_scanFrom hscan
      have hself := equals_self_of_parseText hy y List.mem_cons_self
      refine ⟨y, hy, hshift ▸ Node.same_mapSpans _ y hself, ?_⟩
      rw [hspan, Nat.zero_add]
      exact hshift
    · rw [f.parts_node] at hy
      obtain ⟨g, hg, rfl⟩ := List.mem_map.1 hy
      obtain ⟨vs, zs, hg⟩ := f.laid_parts.exists_append hg
      rw [hg] at hscan
      obtain ⟨lead, inner, trail, hpart, -, hinner⟩ := g.exists_extent hscan
      rw [hspan, hinner, hpart, Text.byteLength_append, Text.byteLength_append]
      constructor <;> dsimp only <;> omega
    · rw [f.parts_node]
      exact f.laid_parts.pairwise_span (Token.pairwise_of_scanFrom hscan)
  · rw [Form.nodes_eq_map]
    exact (Laid.all fs).pairwise_span hordered

/-- The head of a call, read by itself. -/
theorem spans_faithful_head :
    ∃ x y z w, parseText "((f 1) [x])" = .ok [x] ∧ x.parts = [y, z] ∧ y.span = ⟨1, 6⟩ ∧
      parseText "(f 1)" = .ok [w] ∧ w.shift 1 = y := by
  have hp : (parseText "((f 1) [x])").toOption.map (·.map fun x => x.parts.map Node.span) =
      some [[⟨1, 6⟩, ⟨7, 10⟩]] := by decide +kernel
  obtain ⟨forms, hforms, hspans⟩ := Option.map_eq_some_iff.1 hp
  obtain ⟨x, xs, rfl, hx, hxs⟩ := List.map_eq_cons_iff.1 hspans
  obtain rfl := List.map_eq_nil_iff.1 hxs
  obtain ⟨y, ys, hparts, hy, hys⟩ := List.map_eq_cons_iff.1 hx
  obtain ⟨z, zs, rfl, -, hzs⟩ := List.map_eq_cons_iff.1 hys
  obtain rfl := List.map_eq_nil_iff.1 hzs
  have hparse := eq_ok_of_toOption hforms
  have hstands : y.StandsIn [x] := .part (.form List.mem_cons_self) (hparts ▸ List.mem_cons_self)
  obtain ⟨⟨part, -, hcovers, w, hw, -, hshift⟩, -⟩ := (spans_faithful hparse).1 y hstands
  have hpart : y.span.Covers "((f 1) [x])".toList "(f 1)".toList :=
    ⟨['('], " [x])".toList, by decide +kernel, hy.trans (by decide +kernel)⟩
  rw [hcovers.unique hpart, String.ofList_toList] at hw
  rw [hy] at hshift
  exact ⟨x, y, z, w, hparse, hparts, hy, hw, hshift⟩

end SmallLisp
