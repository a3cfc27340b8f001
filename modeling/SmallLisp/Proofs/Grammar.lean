import SmallLisp.Node.Parser

/-! The grammar of programs, as derivations. A derivation keeps every token that
it uses, so that it yields both a list of tokens and a tree. The head of a call
is an identifier or another form in round brackets; a parameter list stands in
brackets of either kind, and in round ones it has at least one name. Reading
from left to right a derivation is determined by its tokens, whatever follows
them: no list of tokens has two. -/

namespace SmallLisp

/-- A token of a given kind. -/
abbrev Terminal (kind : TokenKind) := { t : Token // t.kind = kind }

/-- A bracket and its partner. -/
structure Brackets (b : Bracket) where
  opener : Terminal (.opening b)
  closer : Terminal (.closing b)

namespace Brackets

variable {b : Bracket}

def span (p : Brackets b) : Span := p.opener.val.span.merge p.closer.val.span

/-- Tokens with the brackets round them. -/
def around (p : Brackets b) (ts : List Token) : List Token :=
  p.opener.val :: (ts ++ [p.closer.val])

end Brackets

/-- A form of a single token. The text of a number must be readable. -/
inductive Atom where
  | number (t : Terminal .number) (x : Single) (reads : Single.ofText? t.val.text = some x)
  | string (t : Terminal .string)
  | boolean (t : Terminal .boolean)
  | symbol (t : Terminal .identifier)

namespace Atom

def token : Atom → Token
  | number t _ _ => t.val
  | string t | boolean t | symbol t => t.val

def node : Atom → Node
  | number t x _ => .number x t.val.span
  | string t => .string (String.ofList (Text.Quoted.decode t.val.text.toList)) t.val.span
  | boolean t => .boolean (Text.equalsIgnoringCase t.val.text "true") t.val.span
  | symbol t => .symbol t.val.text t.val.span

end Atom

/-- The parameters of a function, in brackets of either kind. -/
inductive Params where
  | square (brackets : Brackets .square) (names : List (Terminal .identifier))
  | round (brackets : Brackets .round) (first : Terminal .identifier)
      (others : List (Terminal .identifier))

namespace Params

def names : Params → List (Terminal .identifier)
  | square _ names => names
  | round _ first others => first :: others

def tokens : Params → List Token
  | square p names => p.around (names.map Subtype.val)
  | round p first others => p.around (first.val :: others.map Subtype.val)

end Params

/-- A name and its value in round brackets. -/
structure Bound (α : Type) where
  brackets : Brackets .round
  name : Terminal .identifier
  value : α

mutual

/-- Derivations of a form. -/
inductive Form where
  | atom (a : Atom)
  | list (brackets : Brackets .square) (items : List Form)
  | round (brackets : Brackets .round) (content : Content)

/-- Derivations of what stands between the round brackets of a form. -/
inductive Content where
  | call (head : Terminal .identifier) (args : List Form)
  | apply (brackets : Brackets .round) (head : Content) (args : List Form)
  | letIn (word : Terminal (.keyword .letForm)) (brackets : Brackets .round)
      (bindings : List (Bound Form)) (body : Form)
  | conditional (word : Terminal (.keyword .ifForm)) (test yes no : Form)
  | function (word : Terminal (.keyword .funForm)) (name : Terminal .identifier)
      (params : Option Params) (body : Form)

end

/-! ### The tokens and the tree of a derivation -/

mutual

def Form.tokens : Form → List Token
  | .atom a => [a.token]
  | .list p items => p.around (Form.tokensAll items)
  | .round p c => p.around c.tokens

def Content.tokens : Content → List Token
  | .call head args => head.val :: Form.tokensAll args
  | .apply p head args => p.around head.tokens ++ Form.tokensAll args
  | .letIn word p bindings body =>
    word.val :: (p.around (Form.bindingTokens bindings) ++ body.tokens)
  | .conditional word test yes no => word.val :: (test.tokens ++ (yes.tokens ++ no.tokens))
  | .function word name params body =>
    word.val :: name.val :: (params.elim [] Params.tokens ++ body.tokens)

/-- The tokens of forms, one after the other. -/
def Form.tokensAll : List Form → List Token
  | [] => []
  | f :: fs => f.tokens ++ Form.tokensAll fs

def Form.bindingTokens : List (Bound Form) → List Token
  | [] => []
  | ⟨p, name, value⟩ :: bs => p.around (name.val :: value.tokens) ++ Form.bindingTokens bs

end

mutual

def Form.node : Form → Node
  | .atom a => a.node
  | .list p items => .list (Form.nodes items) p.span
  | .round p c => c.node p.span

/-- The tree of a form in round brackets that cover a given span. -/
def Content.node (span : Span) : Content → Node
  | .call head args => .call (.symbol head.val.text head.val.span) (Form.nodes args) span
  | .apply p head args => .call (head.node p.span) (Form.nodes args) span
  | .letIn _ _ bindings body => .letIn (Form.bindingNodes bindings) body.node span
  | .conditional _ test yes no => .conditional test.node yes.node (some no.node) span
  | .function _ name params body =>
    .function name.val.text ((params.elim [] Params.names).map (·.val.text)) body.node span

def Form.nodes : List Form → List Node
  | [] => []
  | f :: fs => f.node :: Form.nodes fs

def Form.bindingNodes : List (Bound Form) → List (String × Node)
  | [] => []
  | ⟨_, name, value⟩ :: bs => (name.val.text, value.node) :: Form.bindingNodes bs

end

theorem Form.tokensAll_eq_flatMap (fs : List Form) : tokensAll fs = fs.flatMap tokens := by
  induction fs with
  | nil => rfl
  | cons f fs ih => rw [tokensAll, ih, List.flatMap_cons]

theorem Form.nodes_eq_map (fs : List Form) : nodes fs = fs.map node := by
  induction fs with
  | nil => rfl
  | cons f fs ih => rw [nodes, ih, List.map_cons]

theorem Form.bindingTokens_eq_flatMap (bs : List (Bound Form)) :
    bindingTokens bs = bs.flatMap fun b => b.brackets.around (b.name.val :: b.value.tokens) := by
  induction bs with
  | nil => rfl
  | cons b bs ih => rw [bindingTokens, ih, List.flatMap_cons]

end SmallLisp
