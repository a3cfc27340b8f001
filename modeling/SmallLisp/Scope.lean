import SmallLisp.Value

/-! Scopes. A scope binds names, up to case, and has at most two links to older
scopes: the scope around it and, for the scope of a call, the one that the call
was made from. A name is sought in a scope itself, then all the way through the
scope around it, and only then through the scope of the call. Primitives are
found from everywhere, after all scopes. -/

namespace SmallLisp

/-- The bindings of one scope, under lowercase names, each of which occurs once. -/
structure Bindings where
  entries : List (String × Value)

namespace Bindings

def empty : Bindings := ⟨[]⟩

def find? (b : Bindings) (key : String) : Option Value := b.entries.lookup key

/-- Binds a key, in the place of an older binding of it. -/
def insert (b : Bindings) (key : String) (v : Value) : Bindings :=
  ⟨(key, v) :: b.entries.filter (·.1 != key)⟩

theorem find?_insert_self (b : Bindings) (key : String) (v : Value) :
    (b.insert key v).find? key = some v := by
  simp [find?, insert]

theorem find?_insert_of_ne (b : Bindings) {key key' : String} (v : Value) (h : key' ≠ key) :
    (b.insert key v).find? key' = b.find? key' := by
  have hb : (key' == key) = false := by simp [h]
  simp only [find?, insert, List.lookup_cons, hb]
  induction b.entries with
  | nil => rfl
  | cons e es ih =>
    obtain ⟨k, w⟩ := e
    by_cases hk : k = key
    · simp [hk, List.lookup_cons, hb, ih]
    · simp [hk, List.lookup_cons, ih]

def keys (b : Bindings) : List String := b.entries.map (·.1)

/-- Binds a name, whatever its case. -/
def define (b : Bindings) (name : String) (v : Value) : Bindings :=
  b.insert (Text.lowercase name) v

/-- Binds several names one after the other. -/
def ofPairs (pairs : List (String × Value)) : Bindings :=
  pairs.foldl (fun b p => b.define p.1 p.2) empty

end Bindings

structure Frame where
  outer : Option ScopeId
  caller : Option ScopeId
  bindings : Bindings

/-- All scopes of a run, in order of creation. -/
structure Scopes where
  frames : Array Frame

namespace Scopes

def empty : Scopes := ⟨#[]⟩

/-- The number that the next scope will have. -/
def next (s : Scopes) : ScopeId := s.frames.size

def create (s : Scopes) (f : Frame) : Scopes := ⟨s.frames.push f⟩

/-- Binds a name in a scope, and in no other. -/
def define (s : Scopes) (id : ScopeId) (name : String) (v : Value) : Scopes :=
  ⟨s.frames.modify id fun f => { f with bindings := f.bindings.define name v }⟩

/-- What a scope itself binds. -/
def bindings (s : Scopes) (id : ScopeId) : Bindings :=
  match s.frames[id]? with
  | some f => f.bindings
  | none => .empty

/-- The scope that a link leads to. Links lead to older scopes, and a search
follows no other. -/
def older (id : ScopeId) (link : Option ScopeId) : Option { o : ScopeId // o < id } :=
  link.bind fun o => if h : o < id then some ⟨o, h⟩ else none

/-- The value of a key as seen from a scope. -/
def find? (s : Scopes) (id : ScopeId) (key : String) : Option Value :=
  match s.frames[id]? with
  | none => none
  | some f =>
    f.bindings.find? key
      <|> ((older id f.outer).bind fun ⟨o, _⟩ => s.find? o key)
      <|> ((older id f.caller).bind fun ⟨c, _⟩ => s.find? c key)
termination_by id

/-- The scopes in which a name is sought, in order. -/
def searchOrder (s : Scopes) (id : ScopeId) : List ScopeId :=
  match s.frames[id]? with
  | none => []
  | some f =>
    id :: (((older id f.outer).elim [] fun ⟨o, _⟩ => s.searchOrder o)
      ++ ((older id f.caller).elim [] fun ⟨c, _⟩ => s.searchOrder c))
termination_by id

/-- The value of a name as seen from a scope. -/
def resolve? (s : Scopes) (id : ScopeId) (name : String) : Option Value :=
  let key := Text.lowercase name
  s.find? id key <|> (Primitive.ofName? key).map (.function ∘ .primitive)

/-- Every name that can be resolved from a scope, in lowercase. -/
def names (s : Scopes) (id : ScopeId) : List String :=
  ((s.searchOrder id).flatMap (fun o => (s.bindings o).keys) ++
    Primitive.all.map Primitive.name).eraseDups

end Scopes

end SmallLisp
