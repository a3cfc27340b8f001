import SmallLisp.Proofs.Correspondence.Values

/-! Scopes that have the same links and bind related values, under all keys that
count. Such keys are found alike from every scope, and what is bound or created
on both sides keeps the scopes related; under a key that does not count it may be
bound on one side alone. -/

namespace SmallLisp

section Options

variable {α β : Type} {R : α → β → Prop}

theorem optionRel_symm {R' : β → α → Prop} {a : Option α} {b : Option β} (h : Option.Rel R a b)
    (hs : ∀ x y, R x y → R' y x) : Option.Rel R' b a := by
  cases h with
  | none => exact .none
  | some h => exact .some (hs _ _ h)

theorem optionRel_orElse {a c : Option α} {b d : Option β} (h : Option.Rel R a b)
    (k : Option.Rel R c d) : Option.Rel R (a <|> c) (b <|> d) := by
  cases h with
  | none => exact k
  | some h => exact .some h

theorem optionRel_refl {R : α → α → Prop} (hR : ∀ a, R a a) (a : Option α) : Option.Rel R a a := by
  cases a with
  | none => exact .none
  | some a => exact .some (hR a)

theorem optionRel_map_eq {γ : Type} {a : Option α} {b : Option β} (h : Option.Rel R a b)
    {f : α → γ} {g : β → γ} (hfg : ∀ x y, R x y → f x = g y) : a.map f = b.map g := by
  cases h with
  | none => rfl
  | some h => exact congrArg some (hfg _ _ h)

theorem optionRel_some_left {x : Option α} {y : Option β} {a : α} (h : Option.Rel R x y)
    (hx : x = some a) : ∃ b, y = some b ∧ R a b := by
  subst hx
  cases h with
  | some h => exact ⟨_, rfl, h⟩

theorem optionRel_some_right {x : Option α} {y : Option β} {b : β} (h : Option.Rel R x y)
    (hy : y = some b) : ∃ a, x = some a ∧ R a b :=
  have hflip : Option.Rel (flip R) y x := optionRel_symm h fun _ _ h => h
  optionRel_some_left hflip hy

theorem optionRel_eq {a b : Option α} (h : Option.Rel Eq a b) : a = b := by
  cases h with
  | none => rfl
  | some h => exact congrArg some h

end Options

variable {K : String → Prop} {V : Value → Value → Prop}

/-- Related values, or none in both, under every key that counts. -/
def Bindings.RelOn (K : String → Prop) (V : Value → Value → Prop) (b c : Bindings) : Prop :=
  ∀ key, K key → Option.Rel V (b.find? key) (c.find? key)

structure Frame.RelOn (K : String → Prop) (V : Value → Value → Prop) (f g : Frame) : Prop where
  outer_eq : f.outer = g.outer
  caller_eq : f.caller = g.caller
  bindings : f.bindings.RelOn K V g.bindings

/-- The same scopes, with the same links and related bindings. -/
def Scopes.RelOn (K : String → Prop) (V : Value → Value → Prop) (s t : Scopes) : Prop :=
  ∀ id : ScopeId, Option.Rel (Frame.RelOn K V) s.frames[id]? t.frames[id]?

namespace Bindings

variable {b c : Bindings} {f g : String} {v w : Value}

theorem RelOn.define (h : b.RelOn K V c) (hn : Text.lowercase f = Text.lowercase g) (hv : V v w) :
    (b.define f v).RelOn K V (c.define g w) := by
  intro key hkey
  rw [Bindings.define, Bindings.define, ← hn]
  by_cases hk : key = Text.lowercase f
  · subst hk
    rw [find?_insert_self, find?_insert_self]
    exact .some hv
  · rw [find?_insert_of_ne _ _ hk, find?_insert_of_ne _ _ hk]
    exact h key hkey

theorem RelOn.define_left (h : b.RelOn K V c) (hf : ¬K (Text.lowercase f)) (v : Value) :
    (b.define f v).RelOn K V c := by
  intro key hkey
  have hne : key ≠ Text.lowercase f := by
    rintro rfl
    exact hf hkey
  rw [Bindings.define, find?_insert_of_ne _ _ hne]
  exact h key hkey

theorem relOn_empty : empty.RelOn K V empty := fun _ _ => .none

theorem RelOn.foldl_define {N : String → String → Prop}
    (hN : ∀ f g, N f g → Text.lowercase f = Text.lowercase g) {fs gs : List String}
    (hn : List.Forall₂ N fs gs) {vs ws : List Value} (hv : List.Forall₂ V vs ws)
    (h : b.RelOn K V c) :
    ((fs.zip vs).foldl (fun b p => b.define p.1 p.2) b).RelOn K V
      ((gs.zip ws).foldl (fun b p => b.define p.1 p.2) c) := by
  induction hn generalizing vs ws b c with
  | nil => exact h
  | cons hf _ ih =>
    cases hv with
    | nil => exact h
    | cons hv hvs => exact ih hvs (h.define (hN _ _ hf) hv)

end Bindings

namespace Scopes

variable {s t : Scopes}

namespace RelOn

theorem next_eq (h : s.RelOn K V t) : s.next = t.next := by
  have none_iff (id : ScopeId) : s.next ≤ id ↔ t.next ≤ id := by
    have hid := h id
    rw [next, next, ← Array.getElem?_eq_none_iff, ← Array.getElem?_eq_none_iff]
    generalize s.frames[id]? = a at hid ⊢
    generalize t.frames[id]? = b at hid ⊢
    cases hid <;> simp
  exact Nat.le_antisymm ((none_iff _).2 (Nat.le_refl _)) ((none_iff _).1 (Nat.le_refl _))

theorem bindings (h : s.RelOn K V t) (id : ScopeId) :
    (s.bindings id).RelOn K V (t.bindings id) := by
  have hid := h id
  rw [Scopes.bindings, Scopes.bindings]
  generalize s.frames[id]? = a at hid ⊢
  generalize t.frames[id]? = b at hid ⊢
  cases hid with
  | none => exact Bindings.relOn_empty
  | some hf => exact hf.bindings

theorem create (h : s.RelOn K V t) {f g : Frame} (hf : f.RelOn K V g) :
    (s.create f).RelOn K V (t.create g) := by
  intro id
  have hn : s.frames.size = t.frames.size := h.next_eq
  rw [Scopes.create, Scopes.create, Array.getElem?_push, Array.getElem?_push, hn]
  split
  · exact .some hf
  · exact h id

theorem define (h : s.RelOn K V t) (scope : ScopeId) {f g : String}
    (hn : Text.lowercase f = Text.lowercase g) {v w : Value} (hv : V v w) :
    (s.define scope f v).RelOn K V (t.define scope g w) := by
  intro id
  have hid := h id
  rw [Scopes.define, Scopes.define, Array.getElem?_modify, Array.getElem?_modify]
  split
  · generalize s.frames[id]? = a at hid ⊢
    generalize t.frames[id]? = b at hid ⊢
    cases hid with
    | none => exact .none
    | some hf => exact .some ⟨hf.outer_eq, hf.caller_eq, hf.bindings.define hn hv⟩
  · exact hid

/-- A binding that does not count may be made on one side alone. -/
theorem define_left (h : s.RelOn K V t) (scope : ScopeId) {f : String}
    (hf : ¬K (Text.lowercase f)) (v : Value) : (s.define scope f v).RelOn K V t := by
  intro id
  have hid := h id
  rw [Scopes.define, Array.getElem?_modify]
  split
  · generalize s.frames[id]? = a at hid ⊢
    generalize t.frames[id]? = b at hid ⊢
    cases hid with
    | none => exact .none
    | some hg => exact .some ⟨hg.outer_eq, hg.caller_eq, hg.bindings.define_left hf v⟩
  · exact hid

theorem find? (h : s.RelOn K V t) (id : ScopeId) {key : String} (hkey : K key) :
    Option.Rel V (s.find? id key) (t.find? id key) := by
  induction id using Nat.strongRecOn with
  | ind id ih =>
    have hid := h id
    have link (o : Option ScopeId) :
        Option.Rel V ((older id o).bind fun ⟨o, _⟩ => s.find? o key)
          ((older id o).bind fun ⟨o, _⟩ => t.find? o key) := by
      cases older id o with
      | none => exact .none
      | some o => exact ih o.1 o.2
    rw [Scopes.find?, Scopes.find?]
    generalize s.frames[id]? = a at hid ⊢
    generalize t.frames[id]? = b at hid ⊢
    cases hid with
    | none => exact .none
    | @some f g hf =>
      dsimp only
      rw [hf.outer_eq, hf.caller_eq]
      exact optionRel_orElse (hf.bindings key hkey)
        (optionRel_orElse (link g.outer) (link g.caller))

theorem resolve? (h : s.RelOn K V t)
    (hp : ∀ p : Primitive, V (.function (.primitive p)) (.function (.primitive p)))
    (id : ScopeId) {f g : String} (hn : Text.lowercase f = Text.lowercase g)
    (hkey : K (Text.lowercase f)) : Option.Rel V (s.resolve? id f) (t.resolve? id g) := by
  rw [Scopes.resolve?, Scopes.resolve?, ← hn]
  refine optionRel_orElse (h.find? id hkey) ?_
  cases Primitive.ofName? (Text.lowercase f) with
  | none => exact .none
  | some p => exact .some (hp p)

theorem symm {V' : Value → Value → Prop} (h : s.RelOn K V t) (hV : ∀ v w, V v w → V' w v) :
    t.RelOn K V' s := by
  intro id
  refine optionRel_symm (h id) fun f g hf => ⟨hf.outer_eq.symm, hf.caller_eq.symm, ?_⟩
  exact fun key hkey => optionRel_symm (hf.bindings key hkey) hV

end RelOn

/-- Scopes are related to themselves if the values that they bind are. -/
theorem relOn_self (s : Scopes)
    (h : ∀ id key v, K key → (s.bindings id).find? key = some v → V v v) : s.RelOn K V s := by
  intro id
  cases hf : s.frames[id]? with
  | none => exact .none
  | some f =>
    refine .some ⟨rfl, rfl, fun key hkey => ?_⟩
    cases hv : f.bindings.find? key with
    | none => exact .none
    | some v =>
      refine .some (h id key v hkey ?_)
      rw [bindings, hf]
      exact hv

end Scopes

end SmallLisp
