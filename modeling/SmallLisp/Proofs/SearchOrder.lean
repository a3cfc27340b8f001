import SmallLisp.Proofs.Visibility

/-! The order in which scopes are searched. A search follows the links of a scope,
first to the scope around it and from there on, then to the scope of the call and
from there on; a scope that several links lead to is come to several times. Links
lead to scopes that were there when they were made, so that every search ends. A
name has the value that the first scope in this order binds it to, and it has one
exactly if it is listed. Hence a definition is seen from just those scopes whose
search comes to it before any other binding of the name. -/

namespace SmallLisp

namespace Bindings

theorem mem_keys {b : Bindings} {key : String} : key ∈ b.keys ↔ (b.find? key).isSome := by
  rw [keys, find?]
  induction b.entries with
  | nil => simp
  | cons entry entries ih =>
    rw [List.map_cons, List.mem_cons, ih, List.lookup_cons]
    by_cases hk : key = entry.1
    · simp [hk]
    · have hne : (key == entry.1) = false := beq_eq_false_iff_ne.2 hk
      simp [hk, hne]

end Bindings

theorem Primitive.lowercase_name (p : Primitive) : Text.lowercase p.name = p.name := by
  cases p <;> decide +kernel

namespace Scopes

variable {s t u : Scopes} {id : ScopeId} {key : String}

/-! ### Building scopes -/

/-- Scopes are created, with links to scopes that exist, and names are bound in them. -/
inductive Becomes (s : Scopes) : Scopes → Prop
  | refl : Becomes s s
  | create {t : Scopes} {f : Frame} (h : Becomes s t) (houter : ∀ o ∈ f.outer, o < t.next)
    (hcaller : ∀ o ∈ f.caller, o < t.next) : Becomes s (t.create f)
  | define {t : Scopes} (h : Becomes s t) (id : ScopeId) (name : String) (v : Value) :
    Becomes s (t.define id name v)

/-- Every link leads to a scope that was created earlier. -/
def Ordered (s : Scopes) : Prop :=
  ∀ id outer caller, s.links id = some (outer, caller) →
    ∀ o, outer = some o ∨ caller = some o → o < id

theorem links_create (s : Scopes) (f : Frame) (id : ScopeId) :
    (s.create f).links id = if id = s.next then some (f.outer, f.caller) else s.links id := by
  by_cases hid : id = s.next
  · rw [if_pos hid, hid, links, frames_create_self, Option.map_some]
  · have hne : id ≠ s.frames.size := hid
    rw [if_neg hid, links, create, Array.getElem?_push, if_neg hne, links]

theorem exists_links (h : id < s.next) : ∃ outer caller, s.links id = some (outer, caller) :=
  ⟨_, _, congrArg (Option.map _) (Array.getElem?_eq_getElem h)⟩

theorem ordered_empty : Ordered empty := fun _ _ _ h => nomatch h

namespace Becomes

theorem trans (h : s.Becomes t) (k : t.Becomes u) : s.Becomes u := by
  induction k with
  | refl => exact h
  | create _ houter hcaller ih => exact .create ih houter hcaller
  | define _ id name v ih => exact .define ih id name v

theorem next_le (h : s.Becomes t) : s.next ≤ t.next := by
  induction h with
  | refl => exact Nat.le_refl _
  | create _ _ _ ih =>
    rw [next_create]
    exact Nat.le_succ_of_le ih
  | define _ id name v ih => rwa [next_define]

/-- The links of a scope never change. -/
theorem links_eq (h : s.Becomes t) (hid : id < s.next) : t.links id = s.links id := by
  induction h with
  | refl => rfl
  | @create t f h _ _ ih =>
    rw [links_create, if_neg (Nat.ne_of_lt (Nat.lt_of_lt_of_le hid h.next_le)), ih]
  | define _ o name v ih => rw [links_define, ih]

theorem ordered (h : s.Becomes t) (hs : s.Ordered) : t.Ordered := by
  induction h with
  | refl => exact hs
  | @create t f _ houter hcaller ih =>
    intro id outer caller hlinks o ho
    rw [links_create] at hlinks
    split at hlinks
    · next hid =>
      cases hlinks
      exact hid ▸ ho.elim (houter o) (hcaller o)
    · exact ih id outer caller hlinks o ho
  | define _ o name v ih =>
    intro id outer caller hlinks
    exact ih id outer caller ((links_define _ o name v id).symm.trans hlinks)

end Becomes

/-! ### Searches -/

/-- The search that starts with a link comes to these scopes, in this order. -/
inductive Searches (s : Scopes) : Option ScopeId → List ScopeId → Prop
  | nowhere : Searches s none []
  | scope {id : ScopeId} {outer caller : Option ScopeId} {os cs : List ScopeId}
    (hlinks : s.links id = some (outer, caller)) (ho : Searches s outer os)
    (hc : Searches s caller cs) : Searches s (some id) (id :: (os ++ cs))

/-- The search for a key that starts with a link ends with this value or with none. It
goes no further than to the first scope that binds the key. -/
inductive Finds (s : Scopes) (key : String) : Option ScopeId → Option Value → Prop
  | nowhere : Finds s key none none
  | here {id : ScopeId} {v : Value} (hv : (s.bindings id).find? key = some v) :
    Finds s key (some id) (some v)
  | outer {id : ScopeId} {outer caller : Option ScopeId} {v : Value}
    (hlinks : s.links id = some (outer, caller)) (hn : (s.bindings id).find? key = none)
    (ho : Finds s key outer (some v)) : Finds s key (some id) (some v)
  | caller {id : ScopeId} {outer caller : Option ScopeId} {r : Option Value}
    (hlinks : s.links id = some (outer, caller)) (hn : (s.bindings id).find? key = none)
    (ho : Finds s key outer none) (hc : Finds s key caller r) : Finds s key (some id) r

/-- The first of the values that scopes bind a key to. -/
def firstBound (s : Scopes) (key : String) (order : List ScopeId) : Option Value :=
  order.findSome? fun o => (s.bindings o).find? key

theorem Searches.unique {link : Option ScopeId} {os ps : List ScopeId} (h : s.Searches link os)
    (k : s.Searches link ps) : os = ps := by
  induction h generalizing ps with
  | nowhere => cases k; rfl
  | scope hlinks _ _ iho ihc =>
    cases k with
    | scope hlinks' ko kc =>
      cases hlinks.symm.trans hlinks'
      rw [iho ko, ihc kc]

/-- The search for a key ends with the first binding of it in the order of the search. -/
theorem Searches.finds {link : Option ScopeId} {order : List ScopeId} (h : s.Searches link order)
    (key : String) : s.Finds key link (s.firstBound key order) := by
  induction h with
  | nowhere => exact .nowhere
  | @scope id outer caller os cs hlinks _ _ iho ihc =>
    rw [firstBound, List.findSome?_cons]
    cases hb : (s.bindings id).find? key with
    | some v => exact .here hb
    | none =>
      dsimp only
      rw [List.findSome?_append]
      rw [firstBound] at iho
      cases ho : os.findSome? fun o => (s.bindings o).find? key with
      | some v => exact .outer hlinks hb (ho ▸ iho)
      | none => exact .caller hlinks hb (ho ▸ iho) ihc

theorem Finds.unique {link : Option ScopeId} {r q : Option Value} (h : s.Finds key link r)
    (k : s.Finds key link q) : r = q := by
  induction h generalizing q with
  | nowhere => cases k; rfl
  | here hv =>
    cases k with
    | here hv' => exact hv.symm.trans hv'
    | outer _ hn => cases hv.symm.trans hn
    | caller _ hn => cases hv.symm.trans hn
  | outer hlinks hn _ iho =>
    cases k with
    | here hv => cases hn.symm.trans hv
    | outer hlinks' _ ko =>
      cases hlinks.symm.trans hlinks'
      exact iho ko
    | caller hlinks' _ ko =>
      cases hlinks.symm.trans hlinks'
      cases iho ko
  | caller hlinks hn _ _ iho ihc =>
    cases k with
    | here hv => cases hn.symm.trans hv
    | outer hlinks' _ ko =>
      cases hlinks.symm.trans hlinks'
      cases iho ko
    | caller hlinks' _ _ kc =>
      cases hlinks.symm.trans hlinks'
      exact ihc kc

/-- The scopes that are searched through a link of a scope. -/
def linkedOrder (s : Scopes) (id : ScopeId) (link : Option ScopeId) : List ScopeId :=
  (older id link).elim [] fun ⟨o, _⟩ => s.searchOrder o

theorem searchOrder_of_frame {f : Frame} (hf : s.frames[id]? = some f) :
    s.searchOrder id = id :: (s.linkedOrder id f.outer ++ s.linkedOrder id f.caller) := by
  rw [searchOrder, hf]
  rfl

theorem linkedOrder_of_lt {o : ScopeId} (h : o < id) :
    s.linkedOrder id (some o) = s.searchOrder o := by
  simp only [linkedOrder, older, Option.bind_some, dif_pos h, Option.elim_some]

theorem find?_eq_firstBound (s : Scopes) (id : ScopeId) (key : String) :
    s.find? id key = s.firstBound key (s.searchOrder id) := by
  induction id using Nat.strongRecOn with
  | ind id ih =>
    have hlinked (link : Option ScopeId) :
        s.linked? id link key = s.firstBound key (s.linkedOrder id link) := by
      unfold linked? linkedOrder
      cases older id link with
      | none => rfl
      | some o => exact ih o.1 o.2
    cases hf : s.frames[id]? with
    | none =>
      rw [find?, searchOrder, hf]
      rfl
    | some f =>
      rw [find?_of_frame hf, searchOrder_of_frame hf, hlinked, hlinked, firstBound, firstBound,
        ← List.findSome?_append, firstBound, List.findSome?_cons, bindings, hf]
      cases f.bindings.find? key <;> rfl

/-- Where links lead to earlier scopes the search of every scope ends, and no link is
left out of it. -/
theorem Ordered.searches (hs : s.Ordered) (h : id < s.next) :
    s.Searches (some id) (s.searchOrder id) := by
  induction id using Nat.strongRecOn with
  | ind id ih =>
    obtain ⟨outer, caller, hlinks⟩ := exists_links h
    obtain ⟨f, hf, rfl, rfl⟩ := exists_frame_of_links hlinks
    have through (link : Option ScopeId) (hlink : ∀ o, link = some o → o < id) :
        s.Searches link (s.linkedOrder id link) := by
      cases link with
      | none => exact .nowhere
      | some o =>
        have ho := hlink o rfl
        rw [linkedOrder_of_lt ho]
        exact ih o ho (Nat.lt_trans ho h)
    rw [searchOrder_of_frame hf]
    exact .scope hlinks (through _ fun o ho => hs id _ _ hlinks o (.inl ho))
      (through _ fun o ho => hs id _ _ hlinks o (.inr ho))

/-- All searches in the scopes end, because links lead to earlier scopes only. -/
structure Searchable (s : Scopes) : Prop where
  ordered : s.Ordered
  searches : ∀ id < s.next, s.Searches (some id) (s.searchOrder id)
  finds : ∀ id < s.next, ∀ key, s.Finds key (some id) (s.find? id key)

theorem Ordered.searchable (hs : s.Ordered) : s.Searchable where
  ordered := hs
  searches _ h := hs.searches h
  finds id h key := by
    rw [find?_eq_firstBound]
    exact (hs.searches h).finds key

/-! ### Names that are listed -/

theorem isSome_firstBound {order : List ScopeId} :
    (s.firstBound key order).isSome ↔ ∃ o ∈ order, key ∈ (s.bindings o).keys := by
  rw [firstBound, List.findSome?_isSome_iff]
  simp only [Bindings.mem_keys]

/-- The names that are listed are those that can be resolved. -/
theorem lowercase_mem_names {name : String} :
    Text.lowercase name ∈ s.names id ↔ (s.resolve? id name).isSome := by
  have hp (key : String) : key ∈ Primitive.all.map Primitive.name ↔
      (Primitive.ofName? key).isSome := by
    rw [Primitive.ofName?, List.find?_isSome, List.mem_map]
    simp only [beq_iff_eq]
  simp only [names, List.mem_eraseDups, List.mem_append, List.mem_flatMap, hp, resolve?,
    ← isSome_firstBound, ← find?_eq_firstBound, Option.orElse_eq_orElse, Option.orElse_eq_or,
    Option.isSome_or, Option.isSome_map, Bool.or_eq_true]

/-! ### Names that are defined -/

section Define

variable {f : ScopeId} (name : String) (v : Value)

theorem find?_bindings_define_of_ne (h : ¬(id = f ∧ key = Text.lowercase name)) :
    ((s.define f name v).bindings id).find? key = (s.bindings id).find? key := by
  by_cases hid : id = f
  · have hk : key ≠ Text.lowercase name := fun hk => h ⟨hid, hk⟩
    subst hid
    by_cases hlt : id < s.next
    · rw [bindings_define hlt, Bindings.define, Bindings.find?_insert_of_ne _ _ hk]
    · have hframe (t : Scopes) (ht : t.next = s.next) : t.frames[id]? = none :=
        Array.getElem?_eq_none (Nat.le_trans (Nat.le_of_eq ht) (Nat.le_of_not_lt hlt))
      rw [bindings, bindings, hframe _ (next_define s id name v), hframe s rfl]
  · rw [bindings, frames_define_of_ne hid, bindings]

end Define

theorem Searches.define {link : Option ScopeId} {order : List ScopeId}
    (h : s.Searches link order) (f : ScopeId) (name : String) (v : Value) :
    (s.define f name v).Searches link order := by
  induction h with
  | nowhere => exact .nowhere
  | scope hlinks _ _ iho ihc => exact .scope ((links_define ..).trans hlinks) iho ihc

/-- A search in this order comes to the scope, and to no other before that binds the key. -/
def ComesFirst (s : Scopes) (key : String) (f : ScopeId) (order : List ScopeId) : Prop :=
  ∃ before after, order = before ++ f :: after ∧ f ∉ before ∧
    ∀ o ∈ before, (s.bindings o).find? key = none

theorem comesFirst_cons {f o : ScopeId} {os : List ScopeId} :
    s.ComesFirst key f (o :: os) ↔
      o = f ∨ o ≠ f ∧ (s.bindings o).find? key = none ∧ s.ComesFirst key f os := by
  constructor
  · rintro ⟨before, after, hsplit, hnot, hnone⟩
    cases before with
    | nil => exact .inl (List.cons.inj hsplit).1
    | cons p before =>
      obtain ⟨rfl, rfl⟩ := List.cons.inj hsplit
      obtain ⟨hp, hnone⟩ := List.forall_mem_cons.1 hnone
      exact .inr ⟨Ne.symm (List.ne_of_not_mem_cons hnot), hp, before, after, rfl,
        List.not_mem_of_not_mem_cons hnot, hnone⟩
  · rintro (rfl | ⟨hne, ho, before, after, rfl, hnot, hnone⟩)
    · exact ⟨[], os, rfl, List.not_mem_nil, nofun⟩
    · exact ⟨o :: before, after, rfl, List.not_mem_cons_of_ne_of_not_mem (Ne.symm hne) hnot,
        List.forall_mem_cons.2 ⟨ho, hnone⟩⟩

/-- What is bound in the scope that comes first is what is found. -/
theorem firstBound_define_of_comesFirst {f : ScopeId} {name : String} {order : List ScopeId}
    (hf : f < s.next) (h : s.ComesFirst (Text.lowercase name) f order) (v : Value) :
    (s.define f name v).firstBound (Text.lowercase name) order = some v := by
  obtain ⟨before, after, rfl, hnot, hnone⟩ := h
  have hbefore : before.findSome? (fun o =>
      ((s.define f name v).bindings o).find? (Text.lowercase name)) = none := by
    refine List.findSome?_eq_none_iff.2 fun o ho => ?_
    have hne : ¬(o = f ∧ Text.lowercase name = Text.lowercase name) := by
      rintro ⟨rfl, -⟩
      exact hnot ho
    rw [find?_bindings_define_of_ne name v hne, hnone o ho]
  rw [firstBound, List.findSome?_append, hbefore, Option.none_or, List.findSome?_cons,
    find?_bindings_define_self name v hf]

/-- What is bound anywhere else changes nothing. -/
theorem firstBound_define_of_not {f : ScopeId} {name : String} {order : List ScopeId}
    (h : ¬(key = Text.lowercase name ∧ s.ComesFirst key f order)) (v : Value) :
    (s.define f name v).firstBound key order = s.firstBound key order := by
  induction order with
  | nil => rfl
  | cons o os ih =>
    by_cases hof : o = f ∧ key = Text.lowercase name
    · exact absurd ⟨hof.2, comesFirst_cons.2 (.inl hof.1)⟩ h
    rw [firstBound, List.findSome?_cons, find?_bindings_define_of_ne name v hof, firstBound,
      List.findSome?_cons]
    cases hb : (s.bindings o).find? key with
    | some w => rfl
    | none =>
      refine ih fun ⟨hk, hos⟩ => h ⟨hk, comesFirst_cons.2 (.inr ⟨?_, hb, hos⟩)⟩
      exact fun hfo => hof ⟨hfo, hk⟩

end Scopes

/-! ### Lookups -/

/-- What a name comes to if this is what the scopes bind it to. -/
def answer (name : String) (span : Span) (bound : Option Value) : Except EvalError Value :=
  match bound.or ((Primitive.ofName? (Text.lowercase name)).map (.function ∘ .primitive)) with
  | some v => .ok v
  | none => .error (.unbound name span)

section Lookup

variable {s : State} {scope : ScopeId} {name : String} {span : Span}

theorem Run.outcome_lookup_find? : (lookup scope name span).outcome s =
    some (answer name span (s.scopes.find? scope (Text.lowercase name)), s) := by
  rw [outcome_lookup, Scopes.resolve?, Option.orElse_eq_orElse, Option.orElse_eq_or]
  rfl

/-- A lookup succeeds exactly if the name is listed. -/
theorem Run.lookup_ok_iff : (∃ v, (lookup scope name span).outcome s = some (.ok v, s)) ↔
    Text.lowercase name ∈ s.scopes.names scope := by
  rw [outcome_lookup, Scopes.lowercase_mem_names]
  cases s.scopes.resolve? scope name <;> simp

/-- Seen from a scope, a name has the value that the first scope in the order of the
search binds it to, or is that of a primitive, or is not bound at all; and the names
that have a value are those that are listed. If a scope then binds some name, this is
what is found where the search comes to that scope before it comes to any other
binding of the name, and nothing else is found differently from any scope. -/
theorem lookup_along_search (hs : Scopes.empty.Becomes s.scopes) (hscope : scope < s.scopes.next) :
    ∃ order, s.scopes.Searches (some scope) order ∧
      (∀ name span, (Run.lookup scope name span).outcome s =
        some (answer name span (s.scopes.firstBound (Text.lowercase name) order), s)) ∧
      (∀ name span, (∃ v, (Run.lookup scope name span).outcome s = some (.ok v, s)) ↔
        Text.lowercase name ∈ s.scopes.names scope) ∧
      ∀ f < s.scopes.next, ∀ bound v, ∃ t, (Run.define f bound v).outcome s = some (.ok (), t) ∧
        ∀ name span,
          let seen := Text.lowercase name = Text.lowercase bound ∧
            s.scopes.ComesFirst (Text.lowercase name) f order
          (seen → (Run.lookup scope name span).outcome t = some (.ok v, t)) ∧
            (¬seen → ∃ r, (Run.lookup scope name span).outcome s = some (r, s) ∧
              (Run.lookup scope name span).outcome t = some (r, t)) := by
  have hsearch := (hs.ordered Scopes.ordered_empty).searches hscope
  refine ⟨_, hsearch, fun name span => ?_, fun name span => Run.lookup_ok_iff, ?_⟩
  · rw [Run.outcome_lookup_find?, Scopes.find?_eq_firstBound]
  intro f hf bound v
  refine ⟨_, Run.outcome_define f bound v s, fun name span => ?_⟩
  -- the links are the same, so the search after the definition goes the same way
  have hfind : (s.scopes.define f bound v).find? scope (Text.lowercase name) =
      (s.scopes.define f bound v).firstBound (Text.lowercase name)
        (s.scopes.searchOrder scope) := by
    have ht := (hs.define f bound v).ordered Scopes.ordered_empty
    have hlt : scope < (s.scopes.define f bound v).next := by rwa [Scopes.next_define]
    rw [Scopes.find?_eq_firstBound, (ht.searches hlt).unique (hsearch.define f bound v)]
  rw [Run.outcome_lookup_find?, Run.outcome_lookup_find?, hfind]
  refine ⟨fun hseen => ?_, fun hseen => ⟨_, rfl, ?_⟩⟩
  · obtain ⟨hname, hfirst⟩ := hseen
    rw [hname] at hfirst ⊢
    rw [Scopes.firstBound_define_of_comesFirst hf hfirst]
    rfl
  · rw [Scopes.firstBound_define_of_not hseen, Scopes.find?_eq_firstBound]

end Lookup

/-- A scope that two links lead to: `1` lies in `0`, and `2` is the scope of a call in `1`
of a function of `0`. What `1` binds is found from `2` unless `0` binds it. -/
theorem lookup_along_search_shared :
    let scopes := (((Scopes.empty.create ⟨none, none, .empty⟩).define 0 "x" (.boolean true)).create
      ⟨some 0, none, .empty⟩).create ⟨some 0, some 1, .empty⟩
    let s : State := { State.initial none with scopes := scopes }
    let find (name : String) (s : State) := (Run.lookup 2 name ⟨0, 1⟩).outcome s
    Scopes.empty.Becomes s.scopes ∧ 2 < s.scopes.next ∧
      s.scopes.Searches (some 2) [2, 0, 1, 0] ∧
      (∃ t, (Run.define 1 "Y" (.boolean false)).outcome s = some (.ok (), t) ∧
        find "y" s = some (.error (.unbound "y" ⟨0, 1⟩), s) ∧
        find "y" t = some (.ok (.boolean false), t)) ∧
      ∃ t, (Run.define 1 "X" (.boolean false)).outcome s = some (.ok (), t) ∧
        find "x" t = some (.ok (.boolean true), t) := by
  intro scopes s find
  have hs : Scopes.empty.Becomes s.scopes :=
    .create (.create (.define (.create .refl (by decide) (by decide)) 0 "x" _)
      (by decide) (by decide)) (by decide) (by decide)
  obtain ⟨order, hsearch, hfind, -, hdefine⟩ := lookup_along_search hs (show 2 < _ by decide)
  have horder : s.scopes.Searches (some 2) [2, 0, 1, 0] :=
    have zero : s.scopes.Searches (some 0) [0] := .scope rfl .nowhere .nowhere
    .scope rfl zero (.scope rfl zero .nowhere)
  obtain rfl := hsearch.unique horder
  obtain ⟨t, ht, hy⟩ := hdefine 1 (by decide) "Y" (.boolean false)
  obtain ⟨u, hu, hx⟩ := hdefine 1 (by decide) "X" (.boolean false)
  have hcovered : ¬s.scopes.ComesFirst "x" 1 [2, 0, 1, 0] := by
    rw [Scopes.comesFirst_cons, Scopes.comesFirst_cons]
    rintro (h | ⟨-, -, h | ⟨-, h, -⟩⟩) <;> cases h
  obtain ⟨r, hr, hru⟩ := (hx "x" ⟨0, 1⟩).2 fun hseen => hcovered hseen.2
  cases (hfind "x" ⟨0, 1⟩).symm.trans hr
  refine ⟨hs, by decide, horder, ⟨t, ht, hfind "y" ⟨0, 1⟩, (hy "y" ⟨0, 1⟩).1 ?_⟩, u, hu, hru⟩
  exact ⟨by decide, [2, 0], [0], rfl, by decide, by decide⟩

end SmallLisp
