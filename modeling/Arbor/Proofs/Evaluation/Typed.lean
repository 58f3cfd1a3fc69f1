/-
  Values of types, and scopes that hold them.

  A value conforms to a type if it is of one of the members of the type.  The scopes from
  `base` on are typed if what they bind conforms to the types of the definitions, and if
  the scopes of closures hold all that the functions can name (`Covers`), except the
  functions that these are in.

  * `Value.Conforms`, `Value.Anchored` and `Scopes.Typed`: values and scopes with types;
  * `Safe`: an evaluation that keeps scopes typed, and gives a value of which `Q` holds or
    stops with a division by zero or for want of room.
-/
import Arbor.Proofs.Evaluation.Basic
import Arbor.Proofs.Typing.Fragment
import Arbor.Proofs.Value.Growth

namespace Arbor

/-! ## Values of types -/

namespace Value

/-- The function that the value is, if it is one. -/
def function? : Value → Option NodeId
  | function d _ | method d _ _ => some d
  | _ => none

/-- The value is of a primitive type, or is the function. -/
def Fits (v : Value) : Ty → Prop
  | .primitive q => v.primitive? = some q
  | .function f => v.function? = some f
  | _ => False

/-- The value is of the type: of one of the members, if it is a union. -/
def Conforms (v : Value) (t : Ty) : Prop := ∃ a ∈ t.parts, v.Fits a

variable {v : Value} {t u : Ty} {q : Primitive}

theorem conforms_primitive : v.Conforms (.primitive q) ↔ v.primitive? = some q := by
  simp [Conforms, Ty.parts, Fits]

theorem conforms_function {f : NodeId} : v.Conforms (.function f) ↔ v.function? = some f := by
  simp [Conforms, Ty.parts, Fits]

theorem Conforms.within (h : v.Conforms t) (ht : t.Within q) : v.primitive? = some q := by
  obtain ⟨a, ha, hv⟩ := h
  rw [ht a ha] at hv
  exact hv

theorem Conforms.join_left {C : NodeId → Prop} (ht : t.Known C) (hu : u.Known C)
    (h : v.Conforms t) : v.Conforms (t.join u) := by
  obtain ⟨a, ha, hv⟩ := h
  exact ⟨a, (Ty.mem_parts_join ht hu).2 (.inl ha), hv⟩

theorem Conforms.join_right {C : NodeId → Prop} (ht : t.Known C) (hu : u.Known C)
    (h : v.Conforms u) : v.Conforms (t.join u) := by
  obtain ⟨a, ha, hv⟩ := h
  exact ⟨a, (Ty.mem_parts_join ht hu).2 (.inr ha), hv⟩

end Value

/-! ## Scopes of types -/

/-- The definition is found from the scope, unless it is a function that the node is or is
    in. -/
def Scopes.Holds (p : Program) (s : Scopes) (scope : ScopeId) (id : NodeId) : Definition → Prop
  | .bind b => (s.lookup scope b).isSome
  | .function f => f ∉ id :: p.tree.ancestors id → (s.lookup scope f).isSome
  | _ => True

/-- All that the node can name is found from the scope. -/
def Scopes.Covers (p : Program) (s : Scopes) (scope : ScopeId) (id : NodeId) : Prop :=
  ∀ n d, p.resolve n id = some d → s.Holds p scope id d

/-- The value is primitive, a method of a primitive value, or a function in a scope that
    holds what it can name. -/
def Value.Anchored (p : Program) (base : Nat) (s : Scopes) : Value → Prop
  | bool _ | number _ | text _ => True
  | method f closure receiver =>
    closure = none ∧ ∃ q n, receiver.primitive? = some q ∧ p.basis.function? q n = some f
  | function f closure =>
    p.IsClosure f ∧ p.Expression f ∧ f ∈ p.tree.nodes ∧ ∃ c : ScopeId, closure = some c ∧
      base ≤ c.index ∧ c.index < s.size ∧ s.Covers p c f
  | _ => False

/-- The scopes from `base` on bind values of the types of the definitions, and are inside
    each other. -/
structure Scopes.Typed (p : Program) (base : Nat) (s : Scopes) : Prop where
  size : base ≤ s.size
  values : ∀ id d v, base ≤ id.index → s.own? id d = some v →
    v.Anchored p base s ∧ ∃ t, p.HasType d t ∧ v.Conforms t
  parents : ∀ id scope parent, base ≤ id.index → s.get? id = some scope →
    scope.parent = some parent → base ≤ parent.index

variable {p : Program} {base : Nat} {s s' : Scopes}

theorem Scopes.Holds.grows {scope : ScopeId} {id : NodeId} {d : Definition}
    (h : s.Holds p scope id d) (hs : s.Grows s') : s'.Holds p scope id d := by
  cases d with
  | bind b => exact hs.lookup h
  | function f => exact fun hf => hs.lookup (h hf)
  | _ => exact trivial

theorem Scopes.Covers.grows {scope : ScopeId} {id : NodeId} (h : s.Covers p scope id)
    (hs : s.Grows s') : s'.Covers p scope id :=
  fun n d hd => (h n d hd).grows hs

/-- What a child can name is found if what it can name by its parent is. -/
theorem Scopes.Covers.child (hp : p.TreeShaped) {scope : ScopeId} {x c : NodeId}
    (h : s.Covers p scope x) (hx : x ∈ p.tree.nodes) (hc : c ∈ p.arena.children x)
    (hd : ∀ n d, p.definitionInScope x c n = some d → s.Holds p scope c d) :
    s.Covers p scope c := by
  intro n d hr
  rw [hp.resolve_child hx hc] at hr
  rcases Option.or_eq_some_iff.1 hr with hr | ⟨-, hr⟩
  · exact hd n d hr
  · have hholds := h n d hr
    cases d with
    | function f =>
      intro hf
      rw [hp.ancestors_child hx hc] at hf
      exact hholds fun hmem => hf (List.mem_cons_of_mem _ hmem)
    | _ => exact hholds

theorem Value.Anchored.grows {v : Value} (h : v.Anchored p base s) (hs : s.Grows s') :
    v.Anchored p base s' := by
  cases v with
  | function f closure =>
    obtain ⟨hf, he, hn, c, hc, hb, hlt, hcovers⟩ := h
    exact ⟨hf, he, hn, c, hc, hb, Nat.lt_of_lt_of_le hlt hs.size, hcovers.grows hs⟩
  | _ => exact h

theorem Value.anchored_of_primitive? {v : Value} {q : Primitive} (h : v.primitive? = some q) :
    v.Anchored p base s := by
  cases v with
  | bool | number | text => exact trivial
  | _ => cases h

/-- An anchored value is no exception. -/
theorem Value.Anchored.give {v : Value} (h : v.Anchored p base s) : Eval.give v = pure v := by
  cases v with
  | exception e => exact h.elim
  | _ => rfl

namespace Scopes.Typed

variable (h : s.Typed p base)
include h

/-- A value that is found is of the type of the definition. -/
theorem lookup {id : ScopeId} {d : NodeId} {v : Value} {t : Ty} (hid : base ≤ id.index)
    (hv : s.lookup id d = some v) (ht : p.HasType d t) :
    v.Conforms t ∧ v.Anchored p base s := by
  obtain ⟨id', hid', hown⟩ := own?_of_lookup (P := fun id => base ≤ id.index)
    (fun id scope parent hid hs hp => h.parents id scope parent hid hs hp) hid hv
  obtain ⟨ha, u, hu, hc⟩ := h.values id' d v hid' hown
  rw [ht.unique hu]
  exact ⟨hc, ha⟩

theorem define {id : ScopeId} {d : NodeId} {v : Value} {t : Ty} (ha : v.Anchored p base s)
    (ht : p.HasType d t) (hc : v.Conforms t) : (s.define id d v).Typed p base := by
  have hgrows := grows_define s id d v
  by_cases hid : id.index < s.size
  · refine ⟨Nat.le_trans h.size hgrows.size, fun id' d' w hb hw => ?_,
      fun id' scope parent hb hs hp => ?_⟩
    · rw [own?_define s hid] at hw
      split at hw
      · next e =>
        obtain ⟨rfl, rfl⟩ := e
        cases hw
        exact ⟨ha.grows hgrows, t, ht, hc⟩
      · obtain ⟨hw, hu⟩ := h.values id' d' w hb hw
        exact ⟨hw.grows hgrows, hu⟩
    · rw [get?_define] at hs
      split at hs
      · obtain ⟨old, hold, rfl⟩ := Option.map_eq_some_iff.1 hs
        exact h.parents id' old parent hb hold hp
      · exact h.parents id' scope parent hb hs hp
  · rw [define_of_le (Nat.le_of_not_lt hid)]
    exact h

theorem add {scope : Scope} (hp : ∀ parent, scope.parent = some parent → base ≤ parent.index)
    (hs : ∀ d v, scope.bindings.get? d = some v →
      v.Anchored p base s ∧ ∃ t, p.HasType d t ∧ v.Conforms t) :
    (s.add scope).2.Typed p base := by
  have hgrows := grows_add s scope
  refine ⟨Nat.le_trans h.size hgrows.size, fun id d v hb hv => ?_,
    fun id scope' parent hb hs' hparent => ?_⟩
  · rw [own?_add] at hv
    split at hv
    · obtain ⟨ha, ht⟩ := hs d v hv
      exact ⟨ha.grows hgrows, ht⟩
    · obtain ⟨ha, ht⟩ := h.values id d v hb hv
      exact ⟨ha.grows hgrows, ht⟩
  · rw [get?_add] at hs'
    split at hs'
    · cases hs'
      exact hp parent hparent
    · exact h.parents id scope' parent hb hs' hparent

end Scopes.Typed

/-- Scopes are typed from where there are none. -/
theorem Scopes.typed_size (p : Program) (s : Scopes) : s.Typed p s.size := by
  refine ⟨Nat.le_refl _, fun id d v hb hv => ?_, fun id scope parent hb hs => ?_⟩
  · rw [own?, get?_eq_none_iff.2 hb] at hv
    cases hv
  · rw [get?_eq_none_iff.2 hb] at hs
    cases hs

/-! ## Safe evaluations -/

/-- The evaluation keeps scopes typed, and gives a value of which `Q` holds, or divides by
    zero or runs out of room. -/
def Safe (p : Program) (base : Nat) {α : Type} (x : Eval α) (s : Scopes)
    (Q : α → Scopes → Prop) : Prop :=
  s.Grows (x.on s).2 ∧ (x.on s).2.Typed p base ∧
    match (x.on s).1 with
    | .ok a => Q a (x.on s).2
    | .error (.raised e) => e.kind = .divisionByZero ∨ e.kind = .full
    | .error (.bodiless _) => False

section
variable {α β : Type} {Q Q' : α → Scopes → Prop} {R : β → Scopes → Prop}

theorem safe_pure {a : α} (hs : s.Typed p base) (h : Q a s) : Safe p base (pure a) s Q :=
  ⟨.refl s, hs, h⟩

theorem safe_raise {e : Exception} (hs : s.Typed p base)
    (h : e.kind = .divisionByZero ∨ e.kind = .full) : Safe p base (Eval.raise e) s Q :=
  ⟨.refl s, hs, h⟩

theorem safe_get (hs : s.Typed p base) :
    Safe p base (get : Eval Scopes) s fun a s' => a = s ∧ s' = s :=
  ⟨.refl s, hs, rfl, rfl⟩

theorem safe_give {v : Value} {Q : Value → Scopes → Prop} (hs : s.Typed p base)
    (hv : v.Anchored p base s) (h : Q v s) : Safe p base (Eval.give v) s Q := by
  rw [hv.give]
  exact safe_pure hs h

theorem Safe.mono {x : Eval α} (hx : Safe p base x s Q)
    (h : ∀ a s', s.Grows s' → Q a s' → Q' a s') : Safe p base x s Q' := by
  obtain ⟨hgrows, htyped, hres⟩ := hx
  refine ⟨hgrows, htyped, ?_⟩
  split
  · next a ha => rw [ha] at hres; exact h a _ hgrows hres
  · next e he => rw [he] at hres; exact hres
  · next c hc => rw [hc] at hres; exact hres

theorem Safe.bind {x : Eval α} {f : α → Eval β} (hx : Safe p base x s Q)
    (hf : ∀ a s', s.Grows s' → s'.Typed p base → Q a s' → Safe p base (f a) s' R) :
    Safe p base (x >>= f) s R := by
  obtain ⟨hgrows, htyped, hres⟩ := hx
  unfold Safe
  rw [Eval.on_bind]
  rcases hr : x.on s with ⟨(e | c) | a, s'⟩
  · rw [hr] at hgrows htyped hres
    exact ⟨hgrows, htyped, hres⟩
  · rw [hr] at hres
    exact hres.elim
  · rw [hr] at hgrows htyped hres
    obtain ⟨hgrows', htyped', hres'⟩ := hf a s' hgrows htyped hres
    exact ⟨hgrows.trans hgrows', htyped', hres'⟩

/-- Evaluations in order are safe if each is, given what those before it leave behind. -/
theorem safe_inOrder {f : NodeId → Eval Value} {P : NodeId → Value → Scopes → Prop}
    {D : NodeId → Scopes → Prop}
    (hP : ∀ id v s s', Scopes.Grows s s' → P id v s → P id v s')
    (hD : ∀ id s s', Scopes.Grows s s' → D id s → D id s') {ids : List NodeId} :
    ∀ (s : Scopes) (before : List NodeId), s.Typed p base → (∀ c ∈ before, D c s) →
      (∀ (k : Nat) id, ids[k]? = some id → ∀ s' : Scopes, s.Grows s' → s'.Typed p base →
        (∀ c ∈ before ++ ids.take k, D c s') →
        Safe p base (f id) s' fun v s'' => P id v s'' ∧ D id s'') →
      Safe p base (Eval.inOrder f ids) s fun vs s' => List.Forall₂ (fun id v => P id v s') ids vs := by
  induction ids with
  | nil => intro s before hs _ _; exact safe_pure hs .nil
  | cons id ids ih =>
    intro s before hs hbefore h
    have hfirst := h 0 id rfl s (.refl s) hs (by simpa using hbefore)
    refine hfirst.bind fun v s₁ hg₁ ht₁ hv => ?_
    have hrest := ih s₁ (before ++ [id]) ht₁ ?_ ?_
    · refine hrest.bind fun vs s₂ hg₂ ht₂ hvs => safe_pure ht₂ ?_
      exact .cons (hP id v s₁ s₂ hg₂ hv.1) hvs
    · intro c hc
      rcases List.mem_append.1 hc with hc | hc
      · exact hD c s s₁ hg₁ (hbefore c hc)
      · rw [List.mem_singleton.1 hc]
        exact hv.2
    · intro k c hk s' hg hs' hD'
      refine h (k + 1) c hk s' (hg₁.trans hg) hs' fun b hb => hD' b ?_
      simpa using hb

end

end Arbor
