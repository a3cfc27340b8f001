import SmallLisp.Proofs.Grammar.Soundness
import SmallLisp.Proofs.Origin

/-! The parts of a derivation. The trees that a tree is made of come from
derivations that the derivation of the tree is made of, and the tokens of these
stand one after the other among its tokens. So every tree in a program comes from
tokens that stand together in those of the program. -/

namespace SmallLisp

/-- The derivations of the trees that a form in round brackets is made of. -/
def Content.parts : Content → List Form
  | .call head args => .atom (.symbol head) :: args
  | .apply p head args => .round p head :: args
  | .letIn _ _ bindings body => bindings.map Bound.value ++ [body]
  | .conditional _ test yes no => [test, yes, no]
  | .function _ _ _ body => [body]

/-- The derivations of the trees that the tree of a derivation is made of. -/
def Form.parts : Form → List Form
  | .atom _ => []
  | .list _ items => items
  | .round _ c => c.parts

theorem Form.map_bindingNodes (bs : List (Bound Form)) :
    (bindingNodes bs).map Prod.snd = (bs.map Bound.value).map node := by
  induction bs with
  | nil => rfl
  | cons b bs ih => exact congrArg (b.value.node :: ·) ih

theorem Form.parts_node (f : Form) : f.node.parts = f.parts.map node := by
  cases f with
  | atom a => cases a <;> rfl
  | list p items => exact nodes_eq_map items
  | round p c =>
    cases c with
    | call head args => exact congrArg (_ :: ·) (nodes_eq_map args)
    | apply q head args => exact congrArg (_ :: ·) (nodes_eq_map args)
    | letIn word q bindings body =>
      show (bindingNodes bindings).map Prod.snd ++ [body.node] = _
      rw [map_bindingNodes, parts, Content.parts, List.map_append, List.map_singleton]
    | conditional | function => rfl

/-! ### Tokens of parts -/

/-- The tokens of the forms stand among others, one form after the other. -/
inductive Laid : List Form → List Token → Prop
  | nil (ts : List Token) : Laid [] ts
  | cons (gap : List Token) (f : Form) {fs : List Form} {ts : List Token} (h : Laid fs ts) :
    Laid (f :: fs) (gap ++ (f.tokens ++ ts))

namespace Laid

variable {fs gs : List Form} {ts us : List Token}

theorem after (us : List Token) (h : Laid fs ts) : Laid fs (us ++ ts) := by
  cases h with
  | nil => exact .nil _
  | cons gap f h =>
    rw [← List.append_assoc]
    exact .cons _ f h

theorem append (h : Laid fs ts) (k : Laid gs us) : Laid (fs ++ gs) (ts ++ us) := by
  induction h with
  | nil ts => exact k.after ts
  | cons gap f _ ih =>
    rw [List.append_assoc, List.append_assoc]
    exact .cons gap f ih

theorem before (us : List Token) (h : Laid fs ts) : Laid fs (ts ++ us) := by
  have hl := h.append (.nil us)
  rwa [List.append_nil] at hl

theorem around {b : Bracket} (p : Brackets b) (h : Laid fs ts) : Laid fs (p.around ts) :=
  (h.before [p.closer.val]).after [p.opener.val]

theorem single (f : Form) : Laid [f] f.tokens := by
  have h := Laid.cons [] f (.nil [])
  rwa [List.append_nil] at h

theorem all (fs : List Form) : Laid fs (Form.tokensAll fs) := by
  induction fs with
  | nil => exact .nil []
  | cons f fs ih => exact (single f).append ih

theorem bindings (bs : List (Bound Form)) :
    Laid (bs.map Bound.value) (Form.bindingTokens bs) := by
  induction bs with
  | nil => exact .nil []
  | cons b bs ih =>
    obtain ⟨p, name, value⟩ := b
    exact (((single value).after [name.val]).around p).append ih

theorem exists_append (h : Laid fs ts) {f : Form} (hf : f ∈ fs) :
    ∃ us ws, ts = us ++ (f.tokens ++ ws) := by
  induction h with
  | nil => cases hf
  | cons gap g _ ih =>
    rcases List.mem_cons.1 hf with rfl | hf
    · exact ⟨gap, _, rfl⟩
    · obtain ⟨us, ws, rfl⟩ := ih hf
      exact ⟨gap ++ (g.tokens ++ us), ws, by simp⟩

end Laid

theorem Content.laid_parts (c : Content) : Laid c.parts c.tokens := by
  cases c with
  | call head args => exact (Laid.single (.atom (.symbol head))).append (.all args)
  | apply p head args => exact (Laid.single (.round p head)).append (.all args)
  | letIn word p bindings body =>
    exact ((((Laid.bindings bindings).around p).append (.single body)).after [word.val])
  | conditional word test yes no =>
    exact ((Laid.single test).append ((Laid.single yes).append (.single no))).after [word.val]
  | function word name params body =>
    exact ((Laid.single body).after (params.elim [] Params.tokens)).after [word.val, name.val]

theorem Form.laid_parts (f : Form) : Laid f.parts f.tokens := by
  cases f with
  | atom a => exact .nil _
  | list p items => exact (Laid.all items).around p
  | round p c => exact c.laid_parts.around p

/-- A tree in a program comes from tokens that stand together. -/
theorem Form.exists_of_standsIn {fs : List Form} {x : Node} (h : x.StandsIn (nodes fs)) :
    ∃ f : Form, f.node = x ∧ ∃ us ws, tokensAll fs = us ++ (f.tokens ++ ws) := by
  induction h with
  | form hx =>
    rw [nodes_eq_map] at hx
    obtain ⟨f, hf, rfl⟩ := List.mem_map.1 hx
    exact ⟨f, rfl, (Laid.all fs).exists_append hf⟩
  | part _ hy ih =>
    obtain ⟨f, rfl, us, ws, ht⟩ := ih
    rw [f.parts_node] at hy
    obtain ⟨g, hg, rfl⟩ := List.mem_map.1 hy
    obtain ⟨vs, zs, hz⟩ := f.laid_parts.exists_append hg
    exact ⟨g, rfl, us ++ vs, zs ++ ws, by rw [ht, hz]; simp⟩

end SmallLisp
