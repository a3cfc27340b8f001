import SmallLisp.Error
import SmallLisp.Proofs.Trees
import SmallLisp.Proofs.Scanning

/-! A text that stands further on in a source. Its tokens, its trees and what is
wrong with it are the same, with every span moved by as many bytes. -/

namespace SmallLisp

/-- A function on values and one on errors, as a function on what may be either. -/
def bimap {ε α β : Type} (g : ε → ε) (f : α → β) : Except ε α → Except ε β
  | .ok a => .ok (f a)
  | .error e => .error (g e)

section Bimap

variable {ε α β γ δ : Type} {g : ε → ε}

theorem bimap_eq_ok {f : α → β} {x : Except ε α} {b : β} :
    bimap g f x = .ok b ↔ ∃ a, x = .ok a ∧ f a = b := by
  cases x with
  | ok a =>
    constructor
    · exact fun h => ⟨a, rfl, Except.ok.inj h⟩
    · rintro ⟨_, h, rfl⟩
      cases h
      rfl
  | error e => exact ⟨nofun, fun ⟨_, h, _⟩ => nomatch h⟩

theorem bimap_bind {f : α → β} {f' : γ → δ} {k : α → Except ε γ} {k' : β → Except ε δ}
    {x : Except ε α} (h : ∀ a, x = .ok a → k' (f a) = bimap g f' (k a)) :
    bimap g f x >>= k' = bimap g f' (x >>= k) := by
  cases x with
  | ok a => exact h a rfl
  | error e => rfl

theorem bimap_map {f : α → β} {f' : γ → δ} {k : α → γ} {k' : β → δ}
    (h : ∀ a, k' (f a) = f' (k a)) (x : Except ε α) :
    k' <$> bimap g f x = bimap g f' (k <$> x) := by
  cases x with
  | ok a => exact congrArg Except.ok (h a)
  | error e => rfl

end Bimap

variable (n : Nat)

/-! ### Moving spans -/

def Span.shift (s : Span) : Span := ⟨s.start + n, s.stop + n⟩

theorem Span.merge_shift (s t : Span) : (s.shift n).merge (t.shift n) = (s.merge t).shift n := by
  simp only [merge, shift, Nat.add_min_add_right, Nat.add_max_add_right]

def Token.shift (t : Token) : Token := { t with span := t.span.shift n }

namespace Node

/-- The tree of a text that stands further on. -/
def shift : Node → Node := mapSpans (Span.shift n)

theorem shift_shift (m n : Nat) (x : Node) : (x.shift m).shift n = x.shift (m + n) := by
  rw [shift, shift, shift, mapSpans_mapSpans]
  congr 1
  funext s
  simp only [Function.comp, Span.shift, Nat.add_assoc]

theorem shift_list (items : List Node) (s : Span) :
    (list items s).shift n = .list (items.map (shift n)) (s.shift n) :=
  congrArg (list · _) (mapSpansAll_eq_map _ items)

theorem shift_call (head : Node) (args : List Node) (s : Span) :
    (call head args s).shift n = .call (head.shift n) (args.map (shift n)) (s.shift n) :=
  congrArg (call _ · _) (mapSpansAll_eq_map _ args)

theorem shift_letIn (bindings : List (String × Node)) (body : Node) (s : Span) :
    (letIn bindings body s).shift n =
      .letIn (bindings.map (Prod.map id (shift n))) (body.shift n) (s.shift n) :=
  congrArg (letIn · _ _) (mapSpansBindings_eq_map _ bindings)

end Node

def FormFault.shift : FormFault → FormFault
  | functionName x => .functionName (x.shift n)
  | parameterList x => .parameterList (x.shift n)
  | parameterForm x => .parameterForm (x.shift n)
  | parameter x => .parameter (x.shift n)
  | partsOfIf found => .partsOfIf found
  | partsOfFunction found => .partsOfFunction found
  | emptyLet => .emptyLet
  | noValue name => .noValue name
  | partsOfBody found => .partsOfBody found

def ParseError.shift : ParseError → ParseError
  | unexpectedToken t e => .unexpectedToken (t.shift n) e
  | unexpectedEnd e => .unexpectedEnd e
  | unclosed t => .unclosed (t.shift n)
  | emptyExpression s => .emptyExpression (s.shift n)
  | malformed k f s => .malformed k (f.shift n) (s.shift n)

def LexError.shift (e : LexError) : LexError := ⟨e.span.shift n⟩

/-- An error in the syntax of a text that stands further on. -/
def Error.shift : Error → Error
  | lex e => .lex (e.shift n)
  | parse e => .parse (e.shift n)
  | eval e => .eval e

/-! ### Tokens of a text further on -/

theorem Token.startingAt_add (start : Nat) (kind : TokenKind) (cs : List Char) :
    startingAt (start + n) kind cs = (startingAt start kind cs).shift n := by
  simp only [startingAt, shift, Span.shift, Nat.add_right_comm]

theorem Token.scanFrom_add (start : Nat) (cs : List Char) :
    scanFrom (start + n) cs =
      bimap (LexError.shift n) (List.map (Token.shift n)) (scanFrom start cs) := by
  induction cs using scan_induction generalizing start with
  | nil => rw [scanFrom_nil, scanFrom_nil, bimap, List.map_nil]
  | separator c cs hc ih =>
    rw [scanFrom_separator hc, scanFrom_separator hc, Nat.add_right_comm, ih]
  | token text kind rest hcut ih =>
    rw [hcut.scanFrom_append, hcut.scanFrom_append, Nat.add_right_comm, ih, startingAt_add]
    exact bimap_map (fun ts => (List.map_cons ..).symm) _
  | unterminated cs body hu =>
    rw [scanFrom_unterminated hu, scanFrom_unterminated hu, Nat.add_right_comm]
    rfl

end SmallLisp
