import SmallLisp.Error
import SmallLisp.Proofs.Results

/-! One step of each parser. The parsers themselves match on what was cut off
together with the fact that it was, for the sake of their recursion; here they
are equal to plain sequences of smaller parsers. -/

namespace SmallLisp

theorem parseMany_cons (expected : Expected) (t : Token) (ts : List Token) :
    parseMany expected (t :: ts) = (do
      let (p, rest) ← Piece.take expected t ts
      return (← parsePiece p) :: (← parseMany expected rest)) := by
  rw [parseMany]
  split
  · next h => rw [h]; rfl
  · next h => dsimp only; rw [h]; rfl

/-! ### Forms -/

section Form

variable (span : Span) {t : Token} (ts : List Token)

theorem parseForm_letForm (h : t.kind = .keyword .letForm) :
    parseForm span (t :: ts) = parseLet span ts := by
  rw [parseForm, h]

theorem parseForm_ifForm (h : t.kind = .keyword .ifForm) :
    parseForm span (t :: ts) = parseMany .argument ts >>= conditionalOf span := by
  rw [parseForm, h]

theorem parseForm_funForm (h : t.kind = .keyword .funForm) :
    parseForm span (t :: ts) = parseMany .argument ts >>= functionOf span := by
  rw [parseForm, h]

theorem parseForm_head (h : t.kind = .identifier ∨ t.kind = .opening .round) :
    parseForm span (t :: ts) = (do
      let (p, rest) ← Piece.take .head t ts
      return .call (← parsePiece p) (← parseMany .argument rest) span) := by
  rw [parseForm]
  rcases h with h | h <;> rw [h] <;> dsimp only <;> split
  all_goals next h => rw [h]; rfl

/-- What cannot stand after an opening round bracket. -/
theorem parseForm_unexpected (hk : ∀ word, t.kind ≠ .keyword word) (hi : t.kind ≠ .identifier)
    (ho : t.kind ≠ .opening .round) :
    parseForm span (t :: ts) = .error (.unexpectedToken t .head) := by
  rw [parseForm]
  split
  · next h => exact absurd h (hk _)
  · next h => exact absurd h (hk _)
  · next h => exact absurd h (hk _)
  · next h => exact absurd h hi
  · next h => exact absurd h ho
  · rfl

end Form

/-! ### Let forms -/

/-- A let form, when everything after the keyword has been read. -/
def letOf (span : Span) (bindings : List (String × Node)) : List Node → Except ParseError Node
  | [body] => .ok (.letIn bindings body span)
  | bodies => .error (.malformed .letForm (.partsOfBody bodies.length) span)

/-- The cut at the bracket that closes a round one. -/
def cutRound (t : Token) (ts : List Token) : Except ParseError Enclosed :=
  match Enclosed.cut .round 0 ts with
  | some e => .ok e
  | none => .error (.unclosed t)

theorem cutRound_eq_ok {t : Token} {ts : List Token} {e : Enclosed} :
    cutRound t ts = .ok e ↔ Enclosed.cut .round 0 ts = some e := by
  unfold cutRound
  cases Enclosed.cut .round 0 ts <;> simp

section Let

variable {t : Token} (ts : List Token)

theorem parseLet_cons (span : Span) (h : t.kind = .opening .round) :
    parseLet span (t :: ts) = (do
      let e ← cutRound t ts
      letOf span (← parseBindings e.inside) (← parseMany .argument e.rest)) := by
  rw [parseLet, if_pos h, cutRound]
  split
  · next h => rw [h]; rfl
  · next h =>
    dsimp only
    rw [h]
    refine bind_congr fun bindings => bind_congr fun bodies => ?_
    rcases bodies with - | ⟨x, - | ⟨y, bodies⟩⟩ <;> rfl

theorem parseBindings_cons (h : t.kind = .opening .round) :
    parseBindings (t :: ts) = (do
      let e ← cutRound t ts
      return (← parseBinding (t.span.merge e.closer.span) e.inside) ::
        (← parseBindings e.rest)) := by
  rw [parseBindings, if_pos h, cutRound]
  split
  · next h => rw [h]; rfl
  · next h => dsimp only; rw [h]; rfl

/-- The name of a binding with its value, after which nothing may follow. -/
def bindingOf (name : String) (value : Node) : List Token → Except ParseError (String × Node)
  | [] => .ok (name, value)
  | extra :: _ => .error (.unexpectedToken extra .bindingEnd)

theorem parseBinding_cons (span : Span) (h : t.kind = .identifier) (u : Token) :
    parseBinding span (t :: u :: ts) = (do
      let (p, rest) ← Piece.take .bindingValue u ts
      bindingOf t.text (← parsePiece p) rest) := by
  rw [parseBinding, if_pos h]
  dsimp only
  split
  · next h => rw [h]; rfl
  · next p rest h =>
    rw [h]
    refine bind_congr fun value => ?_
    cases rest <;> rfl

end Let

/-! ### Texts -/

theorem parseText_eq_ok {source : String} {xs : List Node} :
    parseText source = .ok xs ↔ ∃ ts, tokenize source = .ok ts ∧ parse ts = .ok xs := by
  unfold parseText
  cases tokenize source with
  | error e => simp
  | ok ts =>
    have hm : (parse ts).mapError Error.parse = .ok xs ↔ parse ts = .ok xs := by
      cases parse ts with
      | error e => exact ⟨nofun, nofun⟩
      | ok ys =>
        exact ⟨fun h => congrArg _ (Except.ok.inj h), fun h => congrArg _ (Except.ok.inj h)⟩
    simp [hm]

end SmallLisp
