import SmallLisp.Proofs.Isolation
import SmallLisp.Proofs.Results
import SmallLisp.Proofs.Trees

/-! Where values come from. A value that a scope binds after an operation was
bound before or is one that the operation binds; a value that is found from a
scope is bound in one that its links lead to; and a primitive makes no closures,
so those in its value are in its arguments. -/

namespace SmallLisp

/-! ### Closures in values -/

mutual

/-- Every closure in a value, at any depth of its lists. -/
def Value.closures : Value → List Closure
  | .string _ | .number _ | .boolean _ | .function (.primitive _) => []
  | .function (.closure c) => [c]
  | .list items => Value.closuresAll items

def Value.closuresAll : List Value → List Closure
  | [] => []
  | v :: vs => v.closures ++ Value.closuresAll vs

end

theorem Value.mem_closuresAll {c : Closure} {vs : List Value} :
    c ∈ closuresAll vs ↔ ∃ v ∈ vs, c ∈ v.closures := by
  induction vs with
  | nil => simp [closuresAll]
  | cons v vs ih => simp [closuresAll, ih]

/-! ### Values that are bound -/

theorem mem_of_lookup {α : Type} {entries : List (String × α)} {name : String} {a : α}
    (h : entries.lookup name = some a) : (name, a) ∈ entries := by
  obtain ⟨before, after, rfl, -⟩ := List.lookup_eq_some_iff.1 h
  exact List.mem_append_right _ List.mem_cons_self

namespace Bindings

theorem eq_or_of_find?_define {b : Bindings} {name key : String} {v w : Value}
    (h : (b.define name v).find? key = some w) :
    (key = Text.lowercase name ∧ w = v) ∨ b.find? key = some w := by
  rw [define] at h
  by_cases hk : key = Text.lowercase name
  · subst hk
    rw [find?_insert_self] at h
    exact .inl ⟨rfl, (Option.some.inj h).symm⟩
  · rw [find?_insert_of_ne _ _ hk] at h
    exact .inr h

theorem isSome_find?_define {b : Bindings} {key : String} (h : (b.find? key).isSome) (name : String)
    (v : Value) : ((b.define name v).find? key).isSome := by
  rw [define]
  by_cases hk : key = Text.lowercase name
  · rw [hk, find?_insert_self]
    rfl
  · rwa [find?_insert_of_ne _ _ hk]

theorem exists_pair_of_find?_foldl_define {pairs : List (String × Value)} {b : Bindings}
    {key : String} {w : Value}
    (h : (pairs.foldl (fun b p => b.define p.1 p.2) b).find? key = some w) :
    (∃ p ∈ pairs, key = Text.lowercase p.1 ∧ w = p.2) ∨ b.find? key = some w := by
  induction pairs generalizing b with
  | nil => exact .inr h
  | cons p pairs ih =>
    rcases ih h with ⟨q, hq, hw⟩ | hw
    · exact .inl ⟨q, List.mem_cons_of_mem _ hq, hw⟩
    · exact (eq_or_of_find?_define hw).imp_left fun hp => ⟨p, List.mem_cons_self, hp⟩

/-- What pairs of names and values bind are the values, under the names. -/
theorem mem_of_find?_ofPairs {names : List String} {vs : List Value} {key : String} {w : Value}
    (h : (ofPairs (names.zip vs)).find? key = some w) :
    w ∈ vs ∧ ∃ name ∈ names, key = Text.lowercase name := by
  rcases exists_pair_of_find?_foldl_define h with ⟨p, hp, hkey, rfl⟩ | hw
  · have hmem := List.of_mem_zip hp
    exact ⟨hmem.2, p.1, hmem.1, hkey⟩
  · cases hw

end Bindings

namespace Scopes

theorem find?_bindings_create {s : Scopes} {f : Frame} {id : ScopeId} {key : String} {w : Value}
    (h : ((s.create f).bindings id).find? key = some w) :
    (id = s.next ∧ f.bindings.find? key = some w) ∨ (s.bindings id).find? key = some w := by
  by_cases hid : id = s.frames.size
  · have hf : (s.create f).frames[id]? = some f := by
      rw [create, Array.getElem?_push, if_pos hid]
    rw [bindings, hf] at h
    exact .inl ⟨hid, h⟩
  · have hf : (s.create f).frames[id]? = s.frames[id]? := by
      rw [create, Array.getElem?_push, if_neg hid]
    rw [bindings, hf] at h
    exact .inr h

theorem find?_bindings_define {s : Scopes} {scope id : ScopeId} {name key : String} {v w : Value}
    (h : ((s.define scope name v).bindings id).find? key = some w) :
    (id = scope ∧ key = Text.lowercase name ∧ w = v) ∨ (s.bindings id).find? key = some w := by
  by_cases hid : id = scope
  · subst hid
    by_cases hlt : id < s.next
    · rw [bindings_define hlt] at h
      exact (Bindings.eq_or_of_find?_define h).imp_left fun hw => ⟨rfl, hw⟩
    · have hnone : (s.define id name v).frames[id]? = none := by
        refine Array.getElem?_eq_none ?_
        exact Nat.le_trans (Nat.le_of_eq (next_define s id name v)) (Nat.le_of_not_lt hlt)
      rw [bindings, hnone] at h
      cases h
  · rw [bindings, frames_define_of_ne hid] at h
    exact .inr h

theorem exists_entry_of_bound {s : Scopes} {id : ScopeId} {key : String} {v : Value}
    (h : (s.bindings id).find? key = some v) :
    ∃ f ∈ s.frames, ∃ entry ∈ f.bindings.entries, entry.2 = v := by
  rw [bindings] at h
  split at h
  · next f hf => exact ⟨f, Array.mem_of_getElem? hf, (key, v), mem_of_lookup h, rfl⟩
  · cases h

/-- The value of a key as seen through a link of a scope. -/
def linked? (s : Scopes) (id : ScopeId) (link : Option ScopeId) (key : String) : Option Value :=
  (older id link).bind fun ⟨o, _⟩ => s.find? o key

theorem find?_of_frame {s : Scopes} {id : ScopeId} {f : Frame} (hf : s.frames[id]? = some f)
    (key : String) :
    s.find? id key = (f.bindings.find? key).or
      ((s.linked? id f.outer key).or (s.linked? id f.caller key)) := by
  rw [find?, hf]
  simp only [Option.orElse_eq_orElse, Option.orElse_eq_or]
  rfl

theorem linked?_of_lt {s : Scopes} {id o : ScopeId} (h : o < id) (key : String) :
    s.linked? id (some o) key = s.find? o key := by
  simp only [linked?, older, Option.bind_some, dif_pos h]

theorem linked?_eq_some {s : Scopes} {id : ScopeId} {link : Option ScopeId} {key : String}
    {v : Value} (h : s.linked? id link key = some v) :
    ∃ o < id, link = some o ∧ s.find? o key = some v := by
  obtain ⟨⟨o, ho⟩, hlink, hfind⟩ := Option.bind_eq_some_iff.1 h
  obtain ⟨o', rfl, hif⟩ := Option.bind_eq_some_iff.1 hlink
  split at hif
  · cases hif
    exact ⟨o, ho, rfl, hfind⟩
  · cases hif

/-- A value that is found from a scope is bound there or found through one of its links. -/
theorem bound_or_linked_of_find? {s : Scopes} {id : ScopeId} {key : String} {v : Value}
    (h : s.find? id key = some v) :
    (s.bindings id).find? key = some v ∨ ∃ outer caller o, s.links id = some (outer, caller) ∧
      o < id ∧ (outer = some o ∨ caller = some o) ∧ s.find? o key = some v := by
  cases hf : s.frames[id]? with
  | none =>
    rw [find?, hf] at h
    cases h
  | some f =>
    have hlinks : s.links id = some (f.outer, f.caller) := by rw [links, hf, Option.map_some]
    rw [find?_of_frame hf, Option.or_eq_some_iff, Option.or_eq_some_iff] at h
    rcases h with h | ⟨-, h | ⟨-, h⟩⟩
    · exact .inl (by rw [bindings, hf]; exact h)
    · obtain ⟨o, ho, hlink, hfind⟩ := linked?_eq_some h
      exact .inr ⟨_, _, o, hlinks, ho, .inl hlink, hfind⟩
    · obtain ⟨o, ho, hlink, hfind⟩ := linked?_eq_some h
      exact .inr ⟨_, _, o, hlinks, ho, .inr hlink, hfind⟩

/-- What can be found is bound somewhere. -/
theorem exists_bound_of_find? {s : Scopes} {id : ScopeId} {key : String} {v : Value}
    (h : s.find? id key = some v) : ∃ o, (s.bindings o).find? key = some v := by
  induction id using Nat.strongRecOn with
  | ind id ih =>
    obtain hbound | ⟨_, _, o, -, ho, -, hfind⟩ := bound_or_linked_of_find? h
    · exact ⟨id, hbound⟩
    · exact ih o ho hfind

end Scopes

/-! ### Values that primitives give -/

namespace Primitive

theorem mem_closures_of_splitList {p : Primitive} {v w : Value} {vs : List Value}
    (h : p.splitList v = .ok (w, vs)) {c : Closure} (hc : c ∈ w.closures ++ Value.closuresAll vs) :
    c ∈ v.closures := by
  unfold splitList at h
  split at h
  · cases h
    exact hc
  · cases h
  · cases h

theorem mem_closures_of_result {p : Primitive} {args : List Value} {v : Value}
    (h : p.result args = .ok v) {c : Closure} (hc : c ∈ v.closures) :
    c ∈ Value.closuresAll args := by
  have nomap {α : Type} {f : α → Value} (hf : ∀ a, (f a).closures = []) {x : Except ArgumentError α}
      (h : f <$> x = .ok v) : False := by
    obtain ⟨a, -, rfl⟩ := map_eq_ok.1 h
    rw [hf] at hc
    exact List.not_mem_nil hc
  cases p with
  | add | sub | mul | div => exact (nomap (fun _ => rfl) h).elim
  | and | or => exact (nomap (fun _ => rfl) h).elim
  | print => exact (nomap (fun _ => rfl) h).elim
  | not | eq | neq =>
    simp only [result] at h
    split at h
    all_goals cases h
    exact absurd hc List.not_mem_nil
  | car =>
    simp only [result] at h
    split at h
    · obtain ⟨⟨w, vs⟩, hs, rfl⟩ := map_eq_ok.1 h
      simpa [Value.closuresAll] using mem_closures_of_splitList hs (List.mem_append_left _ hc)
    · cases h
  | cdr =>
    simp only [result] at h
    split at h
    · obtain ⟨⟨w, vs⟩, hs, rfl⟩ := map_eq_ok.1 h
      simpa [Value.closuresAll] using mem_closures_of_splitList hs (List.mem_append_right _ hc)
    · cases h
  | cons =>
    simp only [result] at h
    split at h
    · cases h
      obtain ⟨u, hu, hcu⟩ := Value.mem_closuresAll.1 hc
      rcases List.mem_append.1 hu with hu | hu
      · exact List.mem_append_left _ (Value.mem_closuresAll.2 ⟨u, hu, hcu⟩)
      · obtain rfl := List.mem_singleton.1 hu
        simp [Value.closuresAll, hcu]
    · cases h
    · cases h

end Primitive

end SmallLisp
