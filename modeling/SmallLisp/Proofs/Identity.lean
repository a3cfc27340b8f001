import SmallLisp.Proofs.Growth

/-! The strict comparison of values. It asks all that the equality of the language
asks, and of two closures that stand opposite each other that they are the same. A
closure and a primitive it still compares by name: a closure that is named after a
primitive is identical to it, and so two such closures can be identical to one value
and not to each other. Where no primitive stands between two closures, the comparison
is transitive. -/

namespace SmallLisp

theorem forall₂_iff_getElem? {α β : Type} {R : α → β → Prop} {as : List α} {bs : List β} :
    List.Forall₂ R as bs ↔ as.length = bs.length ∧
      ∀ (i : Nat) (a : α) (b : β), as[i]? = some a → bs[i]? = some b → R a b := by
  rw [List.forall₂_iff_get]
  refine and_congr_right fun _ => ⟨fun h i a b ha hb => ?_, fun h i hi hj => ?_⟩
  · obtain ⟨hi, rfl⟩ := List.getElem?_eq_some_iff.1 ha
    obtain ⟨hj, rfl⟩ := List.getElem?_eq_some_iff.1 hb
    exact h i hi hj
  · exact h i _ _ (List.getElem?_eq_getElem hi) (List.getElem?_eq_getElem hj)

theorem exists_getElem?_of_length_eq {α β : Type} {as : List α} {bs : List β} {i : Nat} {a : α}
    (hlen : as.length = bs.length) (ha : as[i]? = some a) : ∃ b, bs[i]? = some b :=
  ⟨_, List.getElem?_eq_getElem (hlen ▸ (List.getElem?_eq_some_iff.1 ha).1)⟩

/-! ### Equality -/

namespace Single

theorem equals_symm {x y : Single} (h : x.equals y) : y.equals x := by
  match x, y with
  | signed s a, signed t b =>
    simp only [equals, Bool.and_eq_true, Bool.or_eq_true, beq_iff_eq] at h ⊢
    obtain ⟨rfl, h⟩ := h
    exact ⟨rfl, h.imp_left Eq.symm⟩

theorem equals_trans {x y z : Single} (h : x.equals y) (k : y.equals z) : x.equals z := by
  match x, y, z with
  | signed s a, signed t b, signed u c =>
    simp only [equals, Bool.and_eq_true, Bool.or_eq_true, beq_iff_eq] at h k ⊢
    obtain ⟨rfl, rfl | h⟩ := h
    · exact k
    · exact ⟨k.1, .inr h⟩

end Single

namespace Value

/-- Two values are equal as this says for their types. -/
inductive Equal : Value → Value → Prop
  | string (s : String) : Equal (.string s) (.string s)
  | number {x y : Single} (h : x.equals y) : Equal (.number x) (.number y)
  | boolean (b : Bool) : Equal (.boolean b) (.boolean b)
  | function {f g : Function} (h : Text.lowercase f.name = Text.lowercase g.name) :
    Equal (.function f) (.function g)
  | list {vs ws : List Value} (hlen : vs.length = ws.length)
    (h : ∀ (i : Nat) (v w : Value), vs[i]? = some v → ws[i]? = some w → v.equals w) :
    Equal (.list vs) (.list ws)

theorem equalsAll_iff {vs ws : List Value} :
    equalsAll vs ws ↔ List.Forall₂ (fun v w => v.equals w) vs ws := by
  induction vs generalizing ws with
  | nil => cases ws <;> simp [equalsAll]
  | cons v vs ih => cases ws <;> simp [equalsAll, ih]

theorem identicalAll_iff {vs ws : List Value} :
    identicalAll vs ws ↔ List.Forall₂ (fun v w => v.identical w) vs ws := by
  induction vs generalizing ws with
  | nil => cases ws <;> simp [identicalAll]
  | cons v vs ih => cases ws <;> simp [identicalAll, ih]

theorem equals_iff {v w : Value} : v.equals w ↔ v.Equal w := by
  constructor
  · intro h
    unfold equals at h
    split at h
    · exact eq_of_beq h ▸ .string _
    · exact .number h
    · exact eq_of_beq h ▸ .boolean _
    · exact .function (eq_of_beq h)
    · obtain ⟨hlen, h⟩ := forall₂_iff_getElem?.1 (equalsAll_iff.1 h)
      exact .list hlen h
    · cases h
  · intro h
    cases h with
    | string s => exact beq_self_eq_true s
    | number h => exact h
    | boolean b => exact beq_self_eq_true b
    | function h => exact beq_iff_eq.2 h
    | list hlen h => exact equalsAll_iff.2 (forall₂_iff_getElem?.2 ⟨hlen, h⟩)

theorem equals_symm {v w : Value} (h : v.equals w) : w.equals v := by
  induction v using Value.induction generalizing w with
  | string _ | boolean _ =>
    cases equals_iff.1 h
    exact h
  | number x =>
    cases equals_iff.1 h with
    | number hxy => exact Single.equals_symm hxy
  | function f =>
    cases equals_iff.1 h with
    | function hname => exact equals_iff.2 (.function hname.symm)
  | list vs ih =>
    cases equals_iff.1 h with
    | list hlen hitems =>
      refine equals_iff.2 (.list hlen.symm fun i w v hw hv => ?_)
      exact ih v (List.mem_of_getElem? hv) (hitems i v w hv hw)

theorem equals_comm (v w : Value) : v.equals w = w.equals v :=
  Bool.eq_iff_iff.2 ⟨equals_symm, equals_symm⟩

theorem equals_trans {v w u : Value} (h : v.equals w) (k : w.equals u) : v.equals u := by
  induction v using Value.induction generalizing w u with
  | string _ | boolean _ =>
    cases equals_iff.1 h
    exact k
  | number x =>
    cases equals_iff.1 h with
    | number hxy =>
      cases equals_iff.1 k with
      | number hyz => exact Single.equals_trans hxy hyz
  | function f =>
    cases equals_iff.1 h with
    | function hfg =>
      cases equals_iff.1 k with
      | function hgk => exact equals_iff.2 (.function (hfg.trans hgk))
  | list vs ih =>
    cases equals_iff.1 h with
    | list hlen hvw =>
      cases equals_iff.1 k with
      | list klen hwu =>
        refine equals_iff.2 (.list (hlen.trans klen) fun i v u hv hu => ?_)
        obtain ⟨w, hw⟩ := exists_getElem?_of_length_eq hlen hv
        exact ih v (List.mem_of_getElem? hv) (hvw i v w hv hw) (hwu i w u hw hu)

/-! ### Parts of values -/

/-- The part of a value that stands at a place: the place is given by the indices of the
items that lead to it. -/
def part? : Value → List Nat → Option Value
  | v, [] => some v
  | list items, i :: place => items[i]?.bind (part? · place)
  | _, _ :: _ => none

theorem part?_nil (v : Value) : v.part? [] = some v := by cases v <;> rfl

theorem part?_cons {v x : Value} {i : Nat} {place : List Nat} :
    v.part? (i :: place) = some x ↔
      ∃ items item, v = list items ∧ items[i]? = some item ∧ item.part? place = some x := by
  cases v with
  | list items => simp [part?, Option.bind_eq_some_iff]
  | string _ | number _ | boolean _ | function _ => simp [part?]

theorem closures_part?_subset {v x : Value} {place : List Nat} (h : v.part? place = some x) :
    x.closures ⊆ v.closures := by
  induction place generalizing v with
  | nil =>
    rw [part?_nil] at h
    exact Option.some.inj h ▸ List.Subset.refl _
  | cons i place ih =>
    obtain ⟨items, item, rfl, hitem, hx⟩ := part?_cons.1 h
    exact fun c hc => mem_closuresAll.2 ⟨item, List.mem_of_getElem? hitem, ih hx hc⟩

theorem mem_closures_of_part? {v : Value} {place : List Nat} {c : Closure}
    (h : v.part? place = some (.function (.closure c))) : c ∈ v.closures :=
  closures_part?_subset h (List.mem_singleton_self c)

/-- What stands in a value has something equal opposite it in every equal value. -/
theorem exists_part?_of_equals {v w x : Value} {place : List Nat} (h : v.equals w)
    (hx : v.part? place = some x) : ∃ y, w.part? place = some y ∧ x.equals y := by
  induction place generalizing v w with
  | nil =>
    rw [part?_nil] at hx
    exact ⟨w, part?_nil w, Option.some.inj hx ▸ h⟩
  | cons i place ih =>
    obtain ⟨vs, v, rfl, hv, hx⟩ := part?_cons.1 hx
    cases equals_iff.1 h with
    | @list _ ws hlen hvw =>
      obtain ⟨w, hw⟩ := exists_getElem?_of_length_eq hlen hv
      obtain ⟨y, hy, hxy⟩ := ih (hvw i v w hv hw) hx
      exact ⟨y, part?_cons.2 ⟨ws, w, rfl, hw, hy⟩, hxy⟩

/-! ### Identity -/

/-- The closures at the same place in the two values are the same. -/
def SharesClosures (v w : Value) : Prop :=
  ∀ place c d, v.part? place = some (.function (.closure c)) →
    w.part? place = some (.function (.closure d)) → c = d

namespace SharesClosures

variable {v w : Value}

theorem symm (h : v.SharesClosures w) : w.SharesClosures v :=
  fun place c d hc hd => (h place d c hd hc).symm

theorem of_left (h : v.closures = []) : v.SharesClosures w :=
  fun _ _ _ hc _ => absurd (h ▸ mem_closures_of_part? hc) List.not_mem_nil

theorem of_right (h : w.closures = []) : v.SharesClosures w := (of_left h).symm

end SharesClosures

theorem sharesClosures_closure {c d : Closure} :
    (function (.closure c)).SharesClosures (function (.closure d)) ↔ c = d := by
  refine ⟨fun h => h [] c d rfl rfl, ?_⟩
  rintro rfl place f g hf hg
  cases hf.symm.trans hg
  rfl

theorem sharesClosures_list {vs ws : List Value} :
    (list vs).SharesClosures (list ws) ↔
      ∀ (i : Nat) (v w : Value), vs[i]? = some v → ws[i]? = some w → v.SharesClosures w := by
  constructor
  · intro h i v w hv hw place c d hc hd
    exact h (i :: place) c d (part?_cons.2 ⟨vs, v, rfl, hv, hc⟩) (part?_cons.2 ⟨ws, w, rfl, hw, hd⟩)
  · intro h place c d hc hd
    cases place with
    | nil => cases hc
    | cons i place =>
      obtain ⟨_, v, hvs, hv, hc⟩ := part?_cons.1 hc
      obtain ⟨_, w, hws, hw, hd⟩ := part?_cons.1 hd
      cases hvs
      cases hws
      exact h i v w hv hw place c d hc hd

/-- Values are identical exactly if they are equal and closures opposite each other are the
same, provided that their identities tell them apart. -/
theorem identical_iff {v w : Value}
    (hid : ∀ c ∈ v.closures, ∀ d ∈ w.closures, c.id = d.id → c = d) :
    v.identical w ↔ v.equals w ∧ v.SharesClosures w := by
  have hleaf {v w : Value} (hv : v.closures = []) (h : v.identical w = v.equals w) :
      v.identical w ↔ v.equals w ∧ v.SharesClosures w := by
    rw [h, and_iff_left (.of_left hv)]
  induction v using Value.induction generalizing w with
  | string _ | number _ | boolean _ => exact hleaf rfl (by cases w <;> rfl)
  | function f =>
    cases f with
    | primitive p => exact hleaf rfl (by cases w <;> rfl)
    | closure c =>
      cases w with
      | function g =>
        cases g with
        | primitive p => exact (and_iff_left (.of_right rfl)).symm
        | closure d =>
          rw [sharesClosures_closure, identical, beq_iff_eq]
          constructor
          · intro h
            obtain rfl := hid c (List.mem_singleton_self c) d (List.mem_singleton_self d) h
            exact ⟨equals_iff.2 (.function rfl), rfl⟩
          · rintro ⟨-, rfl⟩
            rfl
      | string _ | number _ | boolean _ | list _ => simp [identical, equals]
  | list vs ih =>
    cases w with
    | list ws =>
      have hitems (i : Nat) (v w : Value) (hv : vs[i]? = some v) (hw : ws[i]? = some w) :
          v.identical w ↔ v.equals w ∧ v.SharesClosures w := by
        have hv := List.mem_of_getElem? hv
        have hw := List.mem_of_getElem? hw
        refine ih v hv fun c hc d hd => ?_
        exact hid c (mem_closuresAll.2 ⟨v, hv, hc⟩) d (mem_closuresAll.2 ⟨w, hw, hd⟩)
      rw [identical, identicalAll_iff, equals, equalsAll_iff, sharesClosures_list,
        forall₂_iff_getElem?, forall₂_iff_getElem?]
      constructor
      · rintro ⟨hlen, h⟩
        exact ⟨⟨hlen, fun i v w hv hw => ((hitems i v w hv hw).1 (h i v w hv hw)).1⟩,
          fun i v w hv hw => ((hitems i v w hv hw).1 (h i v w hv hw)).2⟩
      · rintro ⟨⟨hlen, hequals⟩, hshares⟩
        exact ⟨hlen, fun i v w hv hw =>
          (hitems i v w hv hw).2 ⟨hequals i v w hv hw, hshares i v w hv hw⟩⟩
    | string _ | number _ | boolean _ | function _ => simp [identical, equals]

/-- Opposite a closure an identical value has the same closure, or else a primitive after
which the closure is named. -/
theorem opposite_closure {v w : Value} {place : List Nat} {c : Closure} (h : v.equals w)
    (hshares : v.SharesClosures w) (hc : v.part? place = some (.function (.closure c))) :
    w.part? place = some (.function (.closure c)) ∨
      ∃ p : Primitive, w.part? place = some (.function (.primitive p)) ∧
        Text.lowercase c.name = p.name := by
  obtain ⟨y, hy, hxy⟩ := exists_part?_of_equals h hc
  cases equals_iff.1 hxy with
  | @function _ g hname =>
    cases g with
    | closure d => exact .inl (hshares place c d hc hy ▸ hy)
    | primitive p => exact .inr ⟨p, hy, hname.trans p.lowercase_name⟩

end Value

/-- No two of the closures have the same identity. -/
def Closure.Identified (cs : List Closure) : Prop := ∀ c ∈ cs, ∀ d ∈ cs, c.id = d.id → c = d

/-- In every session the identities of closures tell them apart. -/
theorem Session.Reached.identified {sources : List String} {S : Session} {vs : List Value}
    (h : Reached sources S) (hvs : ∀ v ∈ vs, S.Has v) :
    Closure.Identified (Value.closuresAll vs) := by
  obtain ⟨made, -, hmade⟩ := h.exists_made
  have hplace (c : Closure) (hc : c ∈ Value.closuresAll vs) : made[c.id]? = some c := by
    obtain ⟨v, hv, hcv⟩ := Value.mem_closuresAll.1 hc
    exact hmade.values v (hvs v hv) c hcv
  intro c hc d hd hid
  exact Option.some.inj ((hplace c hc).symm.trans (hid ▸ hplace d hd))

namespace Closure.Identified

variable {vs : List Value} {a b c : Value} (h : Identified (Value.closuresAll vs))
include h

theorem identical_iff (ha : a ∈ vs) (hb : b ∈ vs) :
    a.identical b ↔ a.equals b ∧ a.SharesClosures b :=
  Value.identical_iff fun f hf g hg =>
    h f (Value.mem_closuresAll.2 ⟨a, ha, hf⟩) g (Value.mem_closuresAll.2 ⟨b, hb, hg⟩)

theorem identical_comm (ha : a ∈ vs) (hb : b ∈ vs) : a.identical b = b.identical a := by
  rw [Bool.eq_iff_iff, h.identical_iff ha hb, h.identical_iff hb ha, Value.equals_comm a b]
  exact and_congr_right fun _ => ⟨.symm, .symm⟩

/-- Identity carries over unless a primitive stands between two closures. -/
theorem identical_trans_iff (ha : a ∈ vs) (hb : b ∈ vs) (hc : c ∈ vs) (hab : a.identical b)
    (hbc : b.identical c) :
    a.identical c ↔ ∀ place f p g, a.part? place = some (.function (.closure f)) →
      b.part? place = some (.function (.primitive p)) →
      c.part? place = some (.function (.closure g)) → f = g := by
  obtain ⟨hequals, hshares⟩ := (h.identical_iff ha hb).1 hab
  obtain ⟨kequals, kshares⟩ := (h.identical_iff hb hc).1 hbc
  rw [h.identical_iff ha hc, and_iff_right (Value.equals_trans hequals kequals)]
  constructor
  · intro hac place f p g hf _ hg
    exact hac place f g hf hg
  · intro hsame place f g hf hg
    rcases Value.opposite_closure hequals hshares hf with hf' | ⟨p, hp, -⟩
    · exact kshares place f g hf' hg
    · exact hsame place f p g hf hp hg

end Closure.Identified

/-- Values are identical exactly if they are equal and closures that stand opposite each
other are the same. This is symmetric. What stands opposite a closure is then the same
closure or a primitive of its name, and identity carries over from two pairs of values
to a third exactly if on both sides of a primitive there are the same closures. -/
theorem Value.identical_up_to_primitives {a b c : Value}
    (h : Closure.Identified (closuresAll [a, b, c])) :
    (a.identical b ↔ a.equals b ∧ a.SharesClosures b) ∧
    a.identical b = b.identical a ∧
    (a.identical b → ∀ place f, a.part? place = some (.function (.closure f)) →
      b.part? place = some (.function (.closure f)) ∨
        ∃ p : Primitive, b.part? place = some (.function (.primitive p)) ∧
          Text.lowercase f.name = p.name) ∧
    (a.identical b → b.identical c →
      (a.identical c ↔ ∀ place f p g, a.part? place = some (.function (.closure f)) →
        b.part? place = some (.function (.primitive p)) →
        c.part? place = some (.function (.closure g)) → f = g)) := by
  have ha : a ∈ [a, b, c] := by simp
  have hb : b ∈ [a, b, c] := by simp
  have hc : c ∈ [a, b, c] := by simp
  refine ⟨h.identical_iff ha hb, h.identical_comm ha hb, fun hab place f hf => ?_,
    h.identical_trans_iff ha hb hc⟩
  obtain ⟨hequals, hshares⟩ := (h.identical_iff ha hb).1 hab
  exact opposite_closure hequals hshares hf

/-- The primitive stands in a list between two closures of its name. -/
theorem Value.identical_up_to_primitives_list :
    let c : Closure := ⟨0, "CAR", ["x"], .symbol "x" ⟨14, 15⟩, 0⟩
    let d : Closure := ⟨1, "car", ["x"], .symbol "x" ⟨14, 15⟩, 0⟩
    let v := list [.boolean true, .function (.closure c)]
    let w := list [.boolean true, .function (.primitive .car)]
    let u := list [.boolean true, .function (.closure d)]
    Closure.Identified (closuresAll [v, w, u]) ∧ v.identical w ∧ w.identical u ∧ w.identical v ∧
      ¬v.identical u := by
  intro c d v w u
  have hid : Closure.Identified (closuresAll [v, w, u]) := by
    simp [Closure.Identified, v, w, u, c, d, closuresAll, closures]
  have hvw : v.identical w := by decide +kernel
  have hwu : w.identical u := by decide +kernel
  obtain ⟨-, hsymm, -, htrans⟩ := identical_up_to_primitives hid
  refine ⟨hid, hvw, hwu, hsymm ▸ hvw, fun hvu => ?_⟩
  have hsame : c = d := (htrans hvw hwu).1 hvu [1] c .car d rfl rfl rfl
  exact absurd (congrArg Closure.id hsame) Nat.zero_ne_one

/-- Two values of a session are identical exactly if they are equal and have the same
closures opposite each other. -/
theorem Session.Reached.identical_iff {sources : List String} {S : Session} {v w : Value}
    (h : Reached sources S) (hv : S.Has v) (hw : S.Has w) :
    v.identical w ↔ v.equals w ∧ v.SharesClosures w := by
  have hvs : ∀ u ∈ [v, w], S.Has u := List.forall_mem_cons.2 ⟨hv, List.forall_mem_singleton.2 hw⟩
  exact (h.identified hvs).identical_iff (by simp) (by simp)

/-- Among the values of a session identity is transitive but for primitives that stand
between two closures. -/
theorem Session.Reached.identical_trans_iff {sources : List String} {S : Session}
    {v w u : Value} (h : Reached sources S) (hv : S.Has v) (hw : S.Has w) (hu : S.Has u)
    (hvw : v.identical w) (hwu : w.identical u) :
    v.identical u ↔ ∀ place f p g, v.part? place = some (.function (.closure f)) →
      w.part? place = some (.function (.primitive p)) →
      u.part? place = some (.function (.closure g)) → f = g := by
  have hvs : ∀ x ∈ [v, w, u], S.Has x :=
    List.forall_mem_cons.2 ⟨hv, List.forall_mem_cons.2 ⟨hw, List.forall_mem_singleton.2 hu⟩⟩
  exact (h.identified hvs).identical_trans_iff (by simp) (by simp) (by simp) hvw hwu

/-- Two functions that a program defines under the name of a primitive are identical to
the primitive, and not to each other. -/
theorem Session.Reached.identical_to_car :
    ∃ S f car g, Reached ["(fun car [] [])", "(fun car [x] x)", "car"] S ∧
      S.value "f" = .ok f ∧ S.value "primitive" = .ok car ∧ S.value "g" = .ok g ∧
      f.text = "(fun car [x] x)" ∧ car.text = "(fun car <primitive>)" ∧
      g.text = "(fun car [] [])" ∧ f.identical car ∧ car.identical g ∧ ¬f.identical g := by
  let after (name source : String) (S : Session) : Option Session :=
    (S.step 3 (.eval "g" source none (some name))).toOption.join.map (·.2)
  let probe (S : Session) : Option ((String × String × String) × Bool × Bool × Bool) :=
    (S.value "f").toOption.bind fun f =>
      (S.value "primitive").toOption.bind fun car =>
        (S.value "g").toOption.map fun g =>
          ((f.text, car.text, g.text), f.identical car, car.identical g, f.identical g)
  have hrun : (((after "primitive" "car" (Session.initial.createScope "g" none none)).bind
      (after "f" "(fun car [x] x)")).bind (after "g" "(fun car [] [])")).bind probe =
      some (("(fun car [x] x)", "(fun car <primitive>)", "(fun car [] [])"),
        true, true, false) := by
    decide +kernel
  have hafter {sources : List String} {name source : String} {S T : Session}
      (hS : Reached sources S) (h : after name source S = some T) :
      Reached (source :: sources) T := by
    obtain ⟨p, hstep, rfl⟩ := Option.map_eq_some_iff.1 h
    exact .step hS (eq_ok_of_toOption (Option.join_eq_some_iff.1 hstep))
  obtain ⟨S, hrun, hprobe⟩ := Option.bind_eq_some_iff.1 hrun
  obtain ⟨S₂, hrun, hg⟩ := Option.bind_eq_some_iff.1 hrun
  obtain ⟨S₁, hcar, hf⟩ := Option.bind_eq_some_iff.1 hrun
  have hS : Reached ["(fun car [] [])", "(fun car [x] x)", "car"] S :=
    hafter (hafter (hafter (@Reached.step [] Session.initial _ 0 (.global "g") .done .initial rfl)
      hcar) hf) hg
  obtain ⟨f, hf, hprobe⟩ := Option.bind_eq_some_iff.1 hprobe
  obtain ⟨car, hcar, hprobe⟩ := Option.bind_eq_some_iff.1 hprobe
  obtain ⟨g, hg, hprobe⟩ := Option.map_eq_some_iff.1 hprobe
  simp only [Prod.mk.injEq] at hprobe
  obtain ⟨⟨hftext, hcartext, hgtext⟩, hfcar, hcarg, hfg⟩ := hprobe
  exact ⟨S, f, car, g, hS, eq_ok_of_toOption hf, eq_ok_of_toOption hcar, eq_ok_of_toOption hg,
    hftext, hcartext, hgtext, hfcar, hcarg, Bool.eq_false_iff.1 hfg⟩

end SmallLisp
