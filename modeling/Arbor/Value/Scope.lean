/-
  Scopes of a running program.

  A scope holds the values of definitions, by the nodes that define them, and
  has the scope in which it was created as its parent.  Scopes are only ever
  created, so they are numbered, and a parent has a smaller number than its
  children: looking a definition up ends.

  * `Scopes.create`, `Scopes.define` and `Scopes.lookup` are the operations;
  * `own?_define` is the law of definition.
-/
import Arbor.Table
import Arbor.Value.Basic

namespace Arbor

/-- The values of definitions in one scope. -/
structure Scope where
  /-- The values of this scope alone. -/
  bindings : Table NodeId Value
  /-- The scope around this one. -/
  parent : Option ScopeId
deriving Inhabited

/-- All scopes that were created, in order. -/
structure Scopes where
  /-- The scopes by their numbers. -/
  all : Array Scope
deriving Inhabited

namespace Scopes

/-- No scopes. -/
def empty : Scopes := ⟨#[]⟩

/-- The number of scopes. -/
def size (s : Scopes) : Nat := s.all.size

/-- The scope with a number. -/
def get? (s : Scopes) (id : ScopeId) : Option Scope := s.all[id.index]?

/-- Adds a scope. -/
def add (s : Scopes) (scope : Scope) : ScopeId × Scopes := (⟨s.all.size⟩, ⟨s.all.push scope⟩)

/-- Creates a scope without values. -/
def create (s : Scopes) (parent : Option ScopeId) : ScopeId × Scopes := s.add ⟨.empty, parent⟩

/-- Binds the value of a definition in a scope. -/
def define (s : Scopes) (id : ScopeId) (definition : NodeId) (v : Value) : Scopes :=
  ⟨s.all.modify id.index fun scope =>
    { scope with bindings := scope.bindings.insert definition v }⟩

/-- The value that a scope itself binds to a definition. -/
def own? (s : Scopes) (id : ScopeId) (definition : NodeId) : Option Value :=
  (s.get? id).bind (·.bindings.get? definition)

/-- The value of a definition in a scope or the nearest one around it. -/
def lookup (s : Scopes) (id : ScopeId) (definition : NodeId) : Option Value :=
  match s.get? id with
  | none => none
  | some scope =>
    match scope.bindings.get? definition, scope.parent with
    | some v, _ => some v
    | none, some parent =>
      if _h : parent.index < id.index then s.lookup parent definition else none
    | none, none => none
termination_by id.index

/-! ## Laws -/

/-- Defining changes one binding of one scope. -/
theorem own?_define (s : Scopes) {id : ScopeId} (h : id.index < s.size) (d : NodeId) (v : Value)
    (id' : ScopeId) (d' : NodeId) :
    (s.define id d v).own? id' d' = if id = id' ∧ d = d' then some v else s.own? id' d' := by
  have h' : id.index < s.all.size := h
  simp only [own?, get?, define, Array.getElem?_modify]
  by_cases hs : id = id'
  · subst hs
    simp only [if_true, Array.getElem?_eq_getElem h', Option.map_some, Option.bind_some,
      Table.get?_insert, true_and]
  · have hne : id.index ≠ id'.index := fun e => hs (by cases id; cases id'; simp_all)
    simp [hs, hne]

end Scopes

end Arbor
