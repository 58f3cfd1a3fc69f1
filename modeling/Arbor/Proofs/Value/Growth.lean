/-
  Growing scopes.

  Evaluation only adds scopes and bindings: a scope keeps the scope around it, and a
  definition that is bound in it stays bound (`Grows`).  What can be looked up can then
  always be looked up.

  Main statements: `Grows.lookup`, and `own?_of_lookup`, a value that is found is bound in
  one of the scopes that go from parent to parent.
-/
import Arbor.Proofs.Value.Sound

namespace Arbor.Scopes

variable {s s' s'' : Scopes}

theorem get?_add (s : Scopes) (scope : Scope) (id : ScopeId) :
    (s.add scope).2.get? id = if id.index = s.size then some scope else s.get? id :=
  Array.getElem?_push

theorem get?_define (s : Scopes) (id : ScopeId) (d : NodeId) (v : Value) (id' : ScopeId) :
    (s.define id d v).get? id' =
      if id = id' then (s.get? id').map fun scope => { scope with bindings := scope.bindings.insert d v }
      else s.get? id' := by
  show (s.all.modify _ _)[id'.index]? = _
  rw [Array.getElem?_modify]
  by_cases h : id = id'
  · subst h
    simp [get?]
  · have hne : id.index ≠ id'.index := fun e => h (by cases id; cases id'; cases e; rfl)
    simp [get?, h, hne]

theorem get?_eq_none_iff {id : ScopeId} : s.get? id = none ↔ s.size ≤ id.index :=
  Array.getElem?_eq_none_iff

theorem size_add (s : Scopes) (scope : Scope) : (s.add scope).2.size = s.size + 1 :=
  Array.size_push ..

theorem size_define (s : Scopes) (id : ScopeId) (d : NodeId) (v : Value) :
    (s.define id d v).size = s.size :=
  Array.size_modify ..

/-- Every scope stays, with its parent and with values for what it binds. -/
structure Grows (s s' : Scopes) : Prop where
  size : s.size ≤ s'.size
  scope : ∀ id scope, s.get? id = some scope → ∃ scope', s'.get? id = some scope' ∧
    scope'.parent = scope.parent ∧
    ∀ d, (scope.bindings.get? d).isSome → (scope'.bindings.get? d).isSome

theorem Grows.refl (s : Scopes) : s.Grows s :=
  ⟨Nat.le_refl _, fun _ scope h => ⟨scope, h, rfl, fun _ hd => hd⟩⟩

theorem Grows.trans (h : s.Grows s') (h' : s'.Grows s'') : s.Grows s'' := by
  refine ⟨Nat.le_trans h.size h'.size, fun id scope hs => ?_⟩
  obtain ⟨scope', hs', hp, hb⟩ := h.scope id scope hs
  obtain ⟨scope'', hs'', hp', hb'⟩ := h'.scope id scope' hs'
  exact ⟨scope'', hs'', hp'.trans hp, fun d hd => hb' d (hb d hd)⟩

theorem grows_add (s : Scopes) (scope : Scope) : s.Grows (s.add scope).2 := by
  refine ⟨by rw [size_add]; exact Nat.le_succ _, fun id old h => ?_⟩
  refine ⟨old, ?_, rfl, fun _ hd => hd⟩
  rw [get?_add, if_neg]
  · exact h
  · rintro he
    rw [get?_eq_none_iff.2 (Nat.le_of_eq he.symm)] at h
    cases h

theorem grows_define (s : Scopes) (id : ScopeId) (d : NodeId) (v : Value) :
    s.Grows (s.define id d v) := by
  refine ⟨Nat.le_of_eq (size_define s id d v).symm, fun id' scope h => ?_⟩
  rw [get?_define, h]
  split
  · refine ⟨_, rfl, rfl, fun d' hd => ?_⟩
    rw [Table.get?_insert]
    split
    · rfl
    · exact hd
  · exact ⟨scope, rfl, rfl, fun _ hd => hd⟩

/-- What can be looked up can be looked up ever after. -/
theorem Grows.lookup (h : s.Grows s') {id : ScopeId} {d : NodeId}
    (hd : (s.lookup id d).isSome) : (s'.lookup id d).isSome := by
  fun_induction Scopes.lookup s id d with
  | case1 => cases hd
  | case2 id scope hs v hv =>
    obtain ⟨scope', hs', -, hb⟩ := h.scope id scope hs
    obtain ⟨w, hw⟩ := Option.isSome_iff_exists.1 (hb d (by rw [hv]; rfl))
    rw [Scopes.lookup, hs']
    simp only [hw]
    rfl
  | case3 id scope hs parent hp hn hlt ih =>
    obtain ⟨scope', hs', hp', -⟩ := h.scope id scope hs
    rw [Scopes.lookup, hs']
    cases hw : scope'.bindings.get? d with
    | some w => simp only [hw]; rfl
    | none =>
      simp only [hw, hp', hp, hlt, dif_pos]
      exact ih hd
  | case4 => cases hd
  | case5 => cases hd

/-- A value that is found is bound in a scope that is reached from parent to parent: what
    holds of the first scope and passes on to parents holds of that one. -/
theorem own?_of_lookup {P : ScopeId → Prop}
    (hP : ∀ id scope parent, P id → s.get? id = some scope → scope.parent = some parent → P parent)
    {id : ScopeId} {d : NodeId} {v : Value} (hid : P id) (h : s.lookup id d = some v) :
    ∃ id', P id' ∧ s.own? id' d = some v := by
  fun_induction Scopes.lookup s id d with
  | case1 => cases h
  | case2 id scope hs w hw => exact ⟨id, hid, by rw [own?, hs]; exact hw.trans h⟩
  | case3 id scope hs parent hp hn hlt ih => exact ih (hP id scope parent hid hs hp) h
  | case4 => cases h
  | case5 => cases h

/-- What a scope binds itself is found in it. -/
theorem lookup_of_own? {id : ScopeId} {d : NodeId} {v : Value} (h : s.own? id d = some v) :
    s.lookup id d = some v := by
  unfold own? at h
  obtain ⟨scope, hs, hv⟩ := Option.bind_eq_some_iff.1 h
  rw [lookup, hs]
  simp only [hv]

/-- What is found in the parent of a scope is found in the scope, or else something bound
    in the scope itself. -/
theorem lookup_of_parent {id parent : ScopeId} {scope : Scope} {d : NodeId}
    (hs : s.get? id = some scope) (hp : scope.parent = some parent) (hlt : parent.index < id.index)
    (h : (s.lookup parent d).isSome) : (s.lookup id d).isSome := by
  rw [lookup, hs]
  cases hv : scope.bindings.get? d with
  | some v => simp only [hv]; rfl
  | none => simpa only [hv, hp, hlt, dif_pos] using h

end Arbor.Scopes
