import SmallLisp.Proofs.Bound

/-! Names that are found without the scope that a call was made from. A name that
a scope of a call binds, or that is found from the scope of the definition, is
found whatever the call site is. This is kept while a run adds scopes and
bindings, and the closures that it finds in this way are closed again: every name
in them is found from their own definition. -/

namespace SmallLisp

/-! ### Free names -/

namespace Node

mutual

/-- The names that a tree uses, in lowercase, without those that a let form or a
function in it binds and without the names of primitives at the heads of calls. -/
def free : Node → List String
  | number .. | string .. | boolean .. => []
  | symbol name _ => [Text.lowercase name]
  | list items _ => freeAll items
  | call head args _ => (if head.primitive?.isSome then [] else head.free) ++ freeAll args
  | letIn bindings body _ =>
    freeBindings bindings ++ body.free.filter (· ∉ bindings.map fun b => Text.lowercase b.1)
  | conditional test yes no _ => test.free ++ (yes.free ++ freeOptional no)
  | function _ params body _ => body.free.filter (· ∉ params.map Text.lowercase)

def freeAll : List Node → List String
  | [] => []
  | x :: xs => x.free ++ freeAll xs

def freeBindings : List (String × Node) → List String
  | [] => []
  | (_, x) :: bs => x.free ++ freeBindings bs

def freeOptional : Option Node → List String
  | none => []
  | some x => x.free

end

theorem free_subset_all {x : Node} {xs : List Node} (h : x ∈ xs) : x.free ⊆ freeAll xs := by
  induction h with
  | head xs => exact List.subset_append_left _ _
  | tail y _ ih => exact fun key hk => List.mem_append_right _ (ih hk)

theorem free_subset_bindings {b : String × Node} {bs : List (String × Node)} (h : b ∈ bs) :
    b.2.free ⊆ freeBindings bs := by
  induction h with
  | head bs => exact List.subset_append_left _ _
  | tail c _ ih => exact fun key hk => List.mem_append_right _ (ih hk)

end Node

/-- Every name that the body of the closure uses is a parameter or is found from
the scope of the definition. -/
def Closure.IsClosed (s : Scopes) (c : Closure) : Prop :=
  ∀ key ∈ c.body.free, key ∈ c.params.map Text.lowercase ∨ (s.find? c.scope key).isSome

theorem Bindings.isSome_find?_ofPairs {names : List String} {vs : List Value} {key : String}
    (hlength : vs.length = names.length) (h : key ∈ names.map Text.lowercase) :
    ((ofPairs (names.zip vs)).find? key).isSome := by
  have keep {b : Bindings} (pairs : List (String × Value)) (hb : (b.find? key).isSome) :
      ((pairs.foldl (fun b p => b.define p.1 p.2) b).find? key).isSome := by
    induction pairs generalizing b with
    | nil => exact hb
    | cons p pairs ih => exact ih (isSome_find?_define hb p.1 p.2)
  have bind (b : Bindings) :
      (((names.zip vs).foldl (fun b p => b.define p.1 p.2) b).find? key).isSome := by
    induction names generalizing vs b with
    | nil => cases h
    | cons name names ih =>
      cases vs with
      | nil => cases hlength
      | cons v vs =>
        rcases List.mem_cons.1 h with rfl | h
        · refine keep _ (b := b.define name v) ?_
          rw [define, find?_insert_self]
          rfl
        · exact ih (Nat.succ.inj hlength) h _
  exact bind empty

namespace Scopes

variable {s t : Scopes}

/-- What is found depends on the scope and on older ones only. -/
theorem find?_congr {id : ScopeId} (h : ∀ o ≤ id, t.frames[o]? = s.frames[o]?) (key : String) :
    t.find? id key = s.find? id key := by
  induction id using Nat.strongRecOn with
  | ind id ih =>
    have hlinked (link : Option ScopeId) : t.linked? id link key = s.linked? id link key := by
      refine Option.bind_congr fun ⟨o, ho⟩ _ => ih o ho fun p hp => ?_
      exact h p (Nat.le_trans hp (Nat.le_of_lt ho))
    cases hf : s.frames[id]? with
    | none => rw [find?, find?, h id (Nat.le_refl id), hf]
    | some f =>
      rw [find?_of_frame ((h id (Nat.le_refl id)).trans hf), find?_of_frame hf, hlinked, hlinked]

theorem exists_frame_of_links {id : ScopeId} {link : Option ScopeId × Option ScopeId}
    (h : s.links id = some link) :
    ∃ f, s.frames[id]? = some f ∧ f.outer = link.1 ∧ f.caller = link.2 := by
  obtain ⟨f, hf, rfl⟩ := Option.map_eq_some_iff.1 h
  exact ⟨f, hf, rfl, rfl⟩

theorem find?_of_bound {id : ScopeId} {key : String} {v : Value}
    (h : (s.bindings id).find? key = some v) : s.find? id key = some v := by
  cases hf : s.frames[id]? with
  | none =>
    rw [bindings, hf] at h
    cases h
  | some f =>
    rw [bindings, hf] at h
    rw [find?_of_frame hf, h, Option.some_or]

theorem find?_of_outer {id o : ScopeId} {caller : Option ScopeId} {key : String}
    (hlink : s.links id = some (some o, caller)) (hlt : o < id) (h : (s.find? o key).isSome) :
    s.find? id key = ((s.bindings id).find? key).or (s.find? o key) := by
  obtain ⟨f, hf, ho, -⟩ := exists_frame_of_links hlink
  obtain ⟨v, hv⟩ := Option.isSome_iff_exists.1 h
  rw [find?_of_frame hf, ho, linked?_of_lt hlt, bindings, hf, hv, Option.some_or]

theorem lt_next_of_isSome {id : ScopeId} {key : String} (h : (s.find? id key).isSome) :
    id < s.next := by
  refine Nat.lt_of_not_le fun hle => ?_
  rw [find?, Array.getElem?_eq_none hle] at h
  cases h

theorem lt_next_of_bound {id : ScopeId} {key : String} (h : ((s.bindings id).find? key).isSome) :
    id < s.next := by
  obtain ⟨v, hv⟩ := Option.isSome_iff_exists.1 h
  exact lt_next_of_isSome (Option.isSome_of_eq_some (find?_of_bound hv))

theorem lt_next_of_links {id : ScopeId} {link : Option ScopeId × Option ScopeId}
    (h : s.links id = some link) : id < s.next := by
  obtain ⟨f, hf, -⟩ := exists_frame_of_links h
  exact (Array.getElem?_eq_some_iff.1 hf).1

theorem frames_create_self (s : Scopes) (f : Frame) : (s.create f).frames[s.next]? = some f := by
  rw [create, next, Array.getElem?_push_size]

/-! ### Another call site -/

/-- The same scopes but for the call site of one of them. -/
def setCaller (s : Scopes) (id site : ScopeId) : Scopes :=
  ⟨s.frames.modify id fun f => { f with caller := some site }⟩

variable {id site : ScopeId}

theorem next_setCaller : (s.setCaller id site).next = s.next := Array.size_modify

theorem frames_setCaller_of_ne {o : ScopeId} (h : o ≠ id) :
    (s.setCaller id site).frames[o]? = s.frames[o]? := by
  rw [setCaller, Array.getElem?_modify, if_neg (Ne.symm h)]

theorem bindings_setCaller (o : ScopeId) : (s.setCaller id site).bindings o = s.bindings o := by
  by_cases ho : o = id
  · subst ho
    have hf : (s.setCaller o site).frames[o]? =
        s.frames[o]?.map fun f => { f with caller := some site } := by
      rw [setCaller, Array.getElem?_modify, if_pos rfl]
    rw [bindings, bindings, hf]
    cases s.frames[o]? <;> rfl
  · rw [bindings, bindings, frames_setCaller_of_ne ho]

theorem links_setCaller (id site : ScopeId) {o : ScopeId} {outer caller : Option ScopeId}
    (h : s.links o = some (outer, caller)) :
    ∃ caller', (s.setCaller id site).links o = some (outer, caller') := by
  obtain ⟨f, hf, ho, -⟩ := exists_frame_of_links h
  rw [links, setCaller, Array.getElem?_modify, hf]
  split
  · exact ⟨some site, by rw [Option.map_some, Option.map_some, ho]⟩
  · exact ⟨f.caller, by rw [Option.map_some, ho]⟩

theorem setCaller_of_le (h : s.next ≤ id) : s.setCaller id site = s := by
  refine congrArg Scopes.mk (Array.ext_getElem? fun o => ?_)
  rw [Array.getElem?_modify]
  split
  · next ho =>
    subst ho
    rw [Array.getElem?_eq_none h]
    rfl
  · rfl

theorem setCaller_create (h : id < s.next) (f : Frame) :
    (s.create f).setCaller id site = (s.setCaller id site).create f := by
  refine congrArg Scopes.mk (Array.ext_getElem? fun o => ?_)
  simp only [create, setCaller, Array.getElem?_modify, Array.getElem?_push, Array.size_modify]
  by_cases ho : o = s.frames.size
  · have hne : id ≠ o := fun he => Nat.ne_of_lt h (he.trans ho)
    rw [if_pos ho, if_pos ho, if_neg hne]
  · rw [if_neg ho, if_neg ho]

/-- The newest scope, made with another call site. -/
theorem setCaller_create_self (f : Frame) :
    (s.create f).setCaller s.next site = s.create { f with caller := some site } := by
  refine congrArg Scopes.mk (Array.ext_getElem? fun o => ?_)
  simp only [create, next, Array.getElem?_modify, Array.getElem?_push]
  by_cases ho : o = s.frames.size
  · rw [if_pos ho, if_pos ho, if_pos ho.symm]
    rfl
  · rw [if_neg ho, if_neg ho, if_neg fun he => ho he.symm]

theorem setCaller_define (scope : ScopeId) (name : String) (v : Value) :
    (s.define scope name v).setCaller id site = (s.setCaller id site).define scope name v := by
  refine congrArg Scopes.mk (Array.ext_getElem? fun o => ?_)
  simp only [define, setCaller, Array.getElem?_modify]
  split <;> split <;> cases s.frames[o]? <;> rfl

end Scopes

/-! ### The region of a run -/

/-- The scopes that a run can come to: all those from some number on, which it
makes itself, and some of the earlier ones. -/
structure Region where
  start : ScopeId
  earlier : ScopeId → Prop

namespace Region

variable (A : Region)

def Has (id : ScopeId) : Prop := A.start ≤ id ∨ A.earlier id

/-- The key can be found from the scope without the call sites of the scopes that
the run has made. -/
inductive Sees (s : Scopes) (key : String) : ScopeId → Prop
  | earlier {id : ScopeId} : id < A.start → (s.find? id key).isSome → Sees s key id
  | own {id : ScopeId} : ((s.bindings id).find? key).isSome → Sees s key id
  | outer {id o : ScopeId} {caller : Option ScopeId} :
    s.links id = some (some o, caller) → o < id → Sees s key o → Sees s key id

/-- The closures in the value belong to scopes of the region, from which all names
that are not parameters can be found. -/
def Closed (s : Scopes) (v : Value) : Prop :=
  ∀ c ∈ v.closures, A.Has c.scope ∧
    ∀ key ∈ c.body.free, key ∈ c.params.map Text.lowercase ∨ A.Sees s key c.scope

/-- The scopes of the region bind closed values and lead nowhere else. -/
structure Safe (s : Scopes) : Prop where
  bound : ∀ id, A.Has id → ∀ key v, (s.bindings id).find? key = some v → A.Closed s v
  outer : ∀ id, A.Has id → ∀ o caller, s.links id = some (some o, caller) → A.Has o
  caller : ∀ id < A.start, A.Has id → ∀ outer o, s.links id = some (outer, some o) → A.Has o

/-- Scopes and bindings have been added, bindings only to scopes that the run has made. -/
structure Grows (s t : Scopes) : Prop where
  next_le : s.next ≤ t.next
  earlier : ∀ id < A.start, t.frames[id]? = s.frames[id]?
  links : ∀ id link, s.links id = some link → t.links id = some link
  bound : ∀ id key, ((s.bindings id).find? key).isSome → ((t.bindings id).find? key).isSome

variable {A} {s t u : Scopes}

theorem Grows.refl (s : Scopes) : A.Grows s s :=
  ⟨Nat.le_refl _, fun _ _ => rfl, fun _ _ h => h, fun _ _ h => h⟩

theorem Grows.trans (h : A.Grows s t) (k : A.Grows t u) : A.Grows s u where
  next_le := Nat.le_trans h.next_le k.next_le
  earlier id hid := (k.earlier id hid).trans (h.earlier id hid)
  links id link hl := k.links id link (h.links id link hl)
  bound id key hb := k.bound id key (h.bound id key hb)

theorem Grows.create (hstart : A.start ≤ s.next) (f : Frame) : A.Grows s (s.create f) where
  next_le := Nat.le_trans (Nat.le_succ _) (Nat.le_of_eq (Scopes.next_create s f).symm)
  earlier id hid := Scopes.frames_create_of_lt (Nat.lt_of_lt_of_le hid hstart) f
  links id link hl := by
    rwa [Scopes.links, Scopes.frames_create_of_lt (Scopes.lt_next_of_links hl)]
  bound id key hb := by
    rwa [Scopes.bindings, Scopes.frames_create_of_lt (Scopes.lt_next_of_bound hb)]

theorem Grows.define {scope : ScopeId} (hscope : A.start ≤ scope) (name : String) (v : Value) :
    A.Grows s (s.define scope name v) where
  next_le := Nat.le_of_eq (Scopes.next_define s scope name v).symm
  earlier id hid := Scopes.frames_define_of_ne (Nat.ne_of_lt (Nat.lt_of_lt_of_le hid hscope)) name v
  links id link hl := (Scopes.links_define s scope name v id).trans hl
  bound id key hb := by
    by_cases hid : id = scope
    · subst hid
      rw [Scopes.bindings_define (Scopes.lt_next_of_bound hb)]
      exact Bindings.isSome_find?_define hb name v
    · rwa [Scopes.bindings, Scopes.frames_define_of_ne hid]

namespace Sees

variable {key : String} {id : ScopeId}

theorem grow (h : A.Sees s key id) (hst : A.Grows s t) : A.Sees t key id := by
  induction h with
  | earlier hlt h =>
    refine .earlier hlt ?_
    rwa [Scopes.find?_congr fun o ho => hst.earlier o (Nat.lt_of_le_of_lt ho hlt)]
  | own h => exact .own (hst.bound _ key h)
  | outer hlink hlt _ ih => exact .outer (hst.links _ _ hlink) hlt ih

theorem isSome (h : A.Sees s key id) : (s.find? id key).isSome := by
  induction h with
  | earlier _ h => exact h
  | own h =>
    obtain ⟨v, hv⟩ := Option.isSome_iff_exists.1 h
    exact Option.isSome_of_eq_some (Scopes.find?_of_bound hv)
  | outer hlink hlt _ ih =>
    rw [Scopes.find?_of_outer hlink hlt ih, Option.isSome_or, ih, Bool.or_true]

/-- The same value is found with any call site of the first scope that the run has made. -/
theorem find?_setCaller (h : A.Sees s key id) (site : ScopeId) :
    (s.setCaller A.start site).find? id key = s.find? id key := by
  induction h with
  | earlier hlt _ =>
    refine Scopes.find?_congr (fun o ho => ?_) key
    exact Scopes.frames_setCaller_of_ne (Nat.ne_of_lt (Nat.lt_of_le_of_lt ho hlt))
  | @own id h =>
    obtain ⟨v, hv⟩ := Option.isSome_iff_exists.1 h
    rw [Scopes.find?_of_bound hv]
    exact Scopes.find?_of_bound (by rw [Scopes.bindings_setCaller, hv])
  | @outer id o caller hlink hlt hsees ih =>
    obtain ⟨caller', hlink'⟩ := Scopes.links_setCaller A.start site hlink
    have hsome := hsees.isSome
    rw [Scopes.find?_of_outer hlink hlt hsome,
      Scopes.find?_of_outer hlink' hlt (by rw [ih]; exact hsome), ih, Scopes.bindings_setCaller]

end Sees

theorem Closed.grow {v : Value} (h : A.Closed s v) (hst : A.Grows s t) : A.Closed t v := by
  intro c hc
  obtain ⟨hhas, hfree⟩ := h c hc
  exact ⟨hhas, fun key hkey => (hfree key hkey).imp_right fun hsees => hsees.grow hst⟩

theorem closed_list {vs : List Value} (h : ∀ v ∈ vs, A.Closed s v) : A.Closed s (.list vs) := by
  intro c hc
  obtain ⟨v, hv, hcv⟩ := Value.mem_closuresAll.1 hc
  exact h v hv c hcv

theorem closed_result {p : Primitive} {args : List Value} {v : Value} (h : p.result args = .ok v)
    (hargs : ∀ a ∈ args, A.Closed s a) : A.Closed s v := by
  intro c hc
  obtain ⟨a, ha, hca⟩ := Value.mem_closuresAll.1 (Primitive.mem_closures_of_result h hc)
  exact hargs a ha c hca

namespace Safe

/-- What is found from an early scope of the region is bound in the region. -/
theorem closed_of_find? (hs : A.Safe s) {id : ScopeId} (hid : A.Has id) (hlt : id < A.start)
    {key : String} {v : Value} (h : s.find? id key = some v) : A.Closed s v := by
  induction id using Nat.strongRecOn with
  | ind id ih =>
    obtain hbound | ⟨outer, caller, o, hlinks, ho, rfl | rfl, hfind⟩ :=
      Scopes.bound_or_linked_of_find? h
    · exact hs.bound id hid key v hbound
    · exact ih o ho (hs.outer id hid o _ hlinks) (Nat.lt_trans ho hlt) hfind
    · exact ih o ho (hs.caller id hlt hid _ o hlinks) (Nat.lt_trans ho hlt) hfind

theorem closed_of_sees (hs : A.Safe s) {key : String} {id : ScopeId} (h : A.Sees s key id)
    (hid : A.Has id) {v : Value} (hv : s.find? id key = some v) : A.Closed s v := by
  induction h with
  | earlier hlt _ => exact hs.closed_of_find? hid hlt hv
  | @own id h =>
    obtain ⟨w, hw⟩ := Option.isSome_iff_exists.1 h
    rw [Scopes.find?_of_bound hw] at hv
    exact hs.bound id hid key v (Option.some.inj hv ▸ hw)
  | @outer id o caller hlink hlt hsees ih =>
    rw [Scopes.find?_of_outer hlink hlt hsees.isSome, Option.or_eq_some_iff] at hv
    rcases hv with hv | ⟨-, hv⟩
    · exact hs.bound id hid key v hv
    · exact ih (hs.outer id hid o caller hlink) hv

theorem create (hs : A.Safe s) (hstart : A.start ≤ s.next) {f : Frame}
    (houter : ∀ o, f.outer = some o → A.Has o)
    (hf : ∀ key v, f.bindings.find? key = some v → A.Closed s v) : A.Safe (s.create f) := by
  have hgrows := Grows.create hstart f
  have hlinks {id : ScopeId} {link : Option ScopeId × Option ScopeId}
      (h : (s.create f).links id = some link) :
      s.links id = some link ∨ id = s.next ∧ link = (f.outer, f.caller) := by
    rw [Scopes.links, Scopes.create, Array.getElem?_push] at h
    split at h
    · next hid => exact .inr ⟨hid, (Option.some.inj h).symm⟩
    · exact .inl h
  refine ⟨fun id hid key v hv => ?_, fun id hid o caller h => ?_, fun id hlt hid outer o h => ?_⟩
  · rcases Scopes.find?_bindings_create hv with ⟨-, hv⟩ | hv
    · exact (hf key v hv).grow hgrows
    · exact (hs.bound id hid key v hv).grow hgrows
  · rcases hlinks h with h | ⟨-, h⟩
    · exact hs.outer id hid o caller h
    · exact houter o (congrArg Prod.fst h).symm
  · rcases hlinks h with h | ⟨rfl, -⟩
    · exact hs.caller id hlt hid outer o h
    · exact absurd hlt (Nat.not_lt_of_le hstart)

theorem define (hs : A.Safe s) {scope : ScopeId} (hscope : A.start ≤ scope) {v : Value}
    (hv : A.Closed s v) (name : String) : A.Safe (s.define scope name v) := by
  have hgrows : A.Grows s (s.define scope name v) := .define hscope name v
  refine ⟨fun id hid key w hw => ?_, fun id hid o caller h => ?_, fun id hlt hid outer o h => ?_⟩
  · rcases Scopes.find?_bindings_define hw with ⟨-, -, rfl⟩ | hw
    · exact hv.grow hgrows
    · exact (hs.bound id hid key w hw).grow hgrows
  · exact hs.outer id hid o caller ((Scopes.links_define s scope name v id).symm.trans h)
  · exact hs.caller id hlt hid outer o ((Scopes.links_define s scope name v id).symm.trans h)

end Safe

end Region

end SmallLisp
