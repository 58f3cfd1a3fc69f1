/-
  What the definitions of names and the closures of values refer to.

  A name that resolves to a function stands for a function node, and one that
  resolves to a structure for a structure node, provided that only structures are
  shared as structures and that the basis has functions for methods (`Grounded`).
  A value is sound if its closures refer to such nodes and if it holds no exception;
  sound values are all that a machine ever keeps.

  Main statements: `Grounded.resolve` and `Grounded.member`, what names and members
  stand for; `Scopes.Sound.lookup`, scopes that hold sound values give sound values.
-/
import Arbor.Machine.Call

namespace Arbor

/-! ## Nodes of a kind -/

namespace Program

variable (p : Program)

/-- The node is a function, with or without a body. -/
def IsFunction (id : NodeId) : Prop :=
  ∃ ns vs is output body, p.node? id = some (.functionDefinition ns vs is output body)

/-- The node is a structure. -/
def IsStructure (id : NodeId) : Prop :=
  ∃ ns fs vs is body, p.node? id = some (.structureDefinition ns fs vs is body)

/-- What the surroundings of a program promise: no node is below itself, only
    structures are shared as structures, and the methods of the basis are functions. -/
structure Grounded : Prop where
  acyclic : p.arena.Acyclic
  structures : ∀ s, p.shares = some s → ∀ d ∈ s.structures, p.IsStructure d
  methods : ∀ q n f, p.basis.function? q n = some f → p.IsFunction f

end Program

/-- The definition refers to a node of its kind. -/
def Definition.Sound (p : Program) : Definition → Prop
  | .function f => p.IsFunction f
  | .structureDef d => p.IsStructure d
  | _ => True

/-! ## Names and members -/

/-- What is found under a key is an entry. -/
theorem Table.mem_of_find? {κ α : Type} [DecidableEq κ] {k : κ} {a : α} :
    ∀ {l : List (κ × α)}, Table.find? k l = some a → (k, a) ∈ l
  | [], h => by cases h
  | (k', b) :: l, h => by
    unfold Table.find? at h
    split at h
    · next e => subst e; cases h; exact List.mem_cons_self
    · exact List.mem_cons_of_mem _ (Table.mem_of_find? h)

/-- A shared structure is listed among the shared structures. -/
theorem Shares.mem_structures {s : Shares} {n : Name} {d : NodeId}
    (h : s.get? n = some (.structureDef d)) : d ∈ s.structures :=
  List.mem_filterMap.2 ⟨_, Table.mem_of_find? h, rfl⟩

namespace Program

variable {p : Program}

theorem sound_of_classify {id : NodeId} {d : Definition} (h : p.classify id = some d) :
    d.Sound p := by
  unfold classify at h
  split at h
  · cases h; exact trivial
  · next ns vs is o b hn => cases h; exact ⟨ns, vs, is, o, b, hn⟩
  · next ns fs vs is b hn => cases h; exact ⟨ns, fs, vs, is, b, hn⟩
  · cases h; exact trivial
  · cases h

theorem sound_of_definitionNamed {n : Name} {id : NodeId} {d : Definition}
    (h : p.definitionNamed n id = some d) : d.Sound p := by
  unfold definitionNamed at h
  split at h
  · next d' hd =>
    split at h
    · cases h; exact sound_of_classify hd
    · cases h
  · cases h

theorem sound_of_firstNamed {n : Name} {lists : List NodeRange} {d : Definition}
    (h : p.firstNamed n lists = some d) : d.Sound p := by
  rw [firstNamed_eq] at h
  obtain ⟨id, -, hid⟩ := List.exists_of_findSome?_eq_some h
  exact sound_of_definitionNamed hid

theorem sound_of_visibleInBlock {statements : NodeRange} {child : NodeId} {n : Name}
    {d : Definition} (h : p.visibleInBlock statements child n = some d) : d.Sound p := by
  rw [visibleInBlock_eq] at h
  split at h
  · cases h
  · split at h
    · next hd =>
      cases h
      obtain ⟨id, -, hid⟩ := List.exists_of_findSome?_eq_some hd
      exact sound_of_definitionNamed hid
    · split at h
      · exact sound_of_definitionNamed h
      · cases h

namespace Grounded

variable (hp : p.Grounded)
include hp

theorem borrowed {n : Name} {d : Definition} (h : p.borrowed n = some d) : d.Sound p := by
  unfold Program.borrowed share? at h
  split at h
  · next id hid =>
    cases h
    obtain ⟨s, hs, hget⟩ := Option.bind_eq_some_iff.1 hid
    exact hp.structures s hs id (Shares.mem_structures hget)
  · cases h; exact trivial
  · cases h

theorem definitionInScope {scope child : NodeId} {n : Name} {d : Definition}
    (h : p.definitionInScope scope child n = some d) : d.Sound p := by
  unfold Program.definitionInScope at h
  split at h
  · exact sound_of_visibleInBlock h
  · exact sound_of_firstNamed h
  · exact sound_of_firstNamed h
  · split at h
    · exact hp.borrowed h
    · cases h
  · cases h

theorem resolveAlong {n : Name} {d : Definition} : ∀ {child : NodeId} {above : List NodeId},
    p.resolveAlong n child above = some d → d.Sound p
  | _, [], h => by cases h
  | child, scope :: above, h => by
    unfold Program.resolveAlong at h
    split at h
    · next hd => cases h; exact hp.definitionInScope hd
    · exact resolveAlong h

/-- A name stands for a node of the kind that it says. -/
theorem resolve {n : Name} {user : NodeId} {d : Definition} (h : p.resolve n user = some d) :
    d.Sound p :=
  hp.resolveAlong h

omit hp in
/-- A member is a node of the kind that it says. -/
theorem member {id : NodeId} {n : Name} {d : Definition} (h : p.member id n = some d) :
    d.Sound p := by
  unfold Program.member at h
  split at h
  · next hd => cases h; exact sound_of_firstNamed hd
  · obtain ⟨i, -, hi⟩ := List.exists_of_findSome?_eq_some h
    exact sound_of_firstNamed hi

end Grounded

end Program

/-! ## Values -/

namespace Value

/-- The value holds no exception, and its closures refer to functions and
    structures. -/
def Sound (p : Program) : Value → Prop
  | bool _ | number _ | text _ => True
  | function d _ => p.IsFunction d
  | method d _ receiver => p.IsFunction d ∧ receiver.Sound p
  | definition d _ => p.IsStructure d
  | instanceOf _ _ => True
  | exception _ => False

/-- The value is sound, or an exception that is not about a missing value. -/
def Fine (p : Program) : Value → Prop
  | exception e => e.kind ≠ .empty
  | v => v.Sound p

variable {p : Program}

theorem Sound.fine {v : Value} (h : v.Sound p) : v.Fine p := by
  cases v with
  | exception e => exact absurd h id
  | _ => exact h

/-- A sound value is no exception. -/
theorem Sound.exception?_eq_none {v : Value} (h : v.Sound p) : v.exception? = none := by
  cases v with
  | exception e => exact absurd h id
  | _ => rfl

theorem sound_functionOf {d : NodeId} {closure : Option ScopeId} {this : Option Value}
    (hd : p.IsFunction d) (ht : ∀ v, this = some v → v.Sound p) :
    (functionOf d closure this).Sound p := by
  cases this with
  | none => exact hd
  | some v => exact ⟨hd, ht v rfl⟩

end Value

namespace Scopes

/-! ### What all bound values have in common -/

section
variable {P : Value → Prop} {s : Scopes} {id : ScopeId} {d : NodeId} {v : Value}

/-- Every value that is bound in a scope has a property. -/
def All (P : Value → Prop) (s : Scopes) : Prop :=
  ∀ id d v, s.own? id d = some v → P v

theorem all_empty : All P .empty := by
  intro id d v h
  simp [own?, get?, empty] at h

theorem own?_add (s : Scopes) (scope : Scope) (id : ScopeId) (d : NodeId) :
    (s.add scope).2.own? id d =
      if id.index = s.size then scope.bindings.get? d else s.own? id d := by
  have hget : (s.add scope).2.get? id = if id.index = s.size then some scope else s.get? id :=
    Array.getElem?_push
  rw [own?, hget]
  split
  · rfl
  · rfl

theorem All.add (h : s.All P) {scope : Scope}
    (hs : ∀ d v, scope.bindings.get? d = some v → P v) : (s.add scope).2.All P := by
  intro id d v hv
  rw [own?_add] at hv
  split at hv
  · exact hs d v hv
  · exact h id d v hv

/-- Defining in a scope that does not exist changes nothing. -/
theorem define_of_le (h : s.size ≤ id.index) (d : NodeId) (v : Value) : s.define id d v = s := by
  cases s with
  | mk all =>
    simp only [define, mk.injEq]
    exact Array.ext_getElem? fun i => by
      rw [Array.getElem?_modify]
      split
      · next hi =>
        have : all.size ≤ i := by simpa [size, ← hi] using h
        rw [Array.getElem?_eq_none this]; rfl
      · rfl

theorem All.define (h : s.All P) (hv : P v) : (s.define id d v).All P := by
  by_cases hid : id.index < s.size
  · intro id' d' w hw
    rw [own?_define s hid] at hw
    split at hw
    · cases hw; exact hv
    · exact h id' d' w hw
  · rwa [define_of_le (Nat.le_of_not_lt hid)]

/-- What all bound values have in common, the values that are found have too. -/
theorem All.lookup (h : s.All P) (hv : s.lookup id d = some v) : P v := by
  fun_induction Scopes.lookup s id d with
  | case1 => cases hv
  | case2 id scope hs w hw =>
    exact h id d v (by rw [own?, hs]; exact hw.trans hv)
  | case3 id scope hs hn parent hp hlt ih => exact ih hv
  | case4 => cases hv
  | case5 => cases hv

end

/-! ### Sound scopes -/

variable {p : Program}

/-- Every value that is bound in a scope is sound. -/
def Sound (p : Program) (s : Scopes) : Prop :=
  ∀ id d v, s.own? id d = some v → v.Sound p

theorem sound_empty : Sound p .empty := all_empty

theorem Sound.add {s : Scopes} (h : s.Sound p) {scope : Scope}
    (hs : ∀ d v, scope.bindings.get? d = some v → v.Sound p) : (s.add scope).2.Sound p :=
  All.add h hs

theorem Sound.define {s : Scopes} (h : s.Sound p) {id : ScopeId} {d : NodeId} {v : Value}
    (hv : v.Sound p) : (s.define id d v).Sound p :=
  All.define h hv

/-- Scopes that hold sound values give sound values. -/
theorem Sound.lookup {s : Scopes} (h : s.Sound p) {id : ScopeId} {d : NodeId} {v : Value}
    (hv : s.lookup id d = some v) : v.Sound p :=
  All.lookup h hv

end Scopes

end Arbor
