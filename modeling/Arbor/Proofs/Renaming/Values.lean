/-
  Values of renamed programs.

  Values are the same but for the definitions that they name; scopes keep their numbers, and
  bind related values to related definitions.

  Main statements: `Scopes.Renamed.lookup`, what is looked up in scopes, and
  `describe_value_eq`, that related values are described in the same words.
-/
import Arbor.Proofs.Renaming.Basic
import Arbor.Proofs.Value.Growth
import Arbor.Value.Describe
import Arbor.Value.Native

namespace Arbor

open List (Forall₂)
open Relator (BiUnique)

section
variable (R : NodeId → NodeId → Prop)

/-- The same went wrong at related nodes. -/
structure Exception.Renamed (e e' : Exception) : Prop where
  kind : e.kind = e'.kind
  node : R e.node e'.node

/-- The values are the same, of related definitions. -/
inductive Value.Renamed : Value → Value → Prop
  | bool (b : Bool) : Value.Renamed (.bool b) (.bool b)
  | number (x : Float) : Value.Renamed (.number x) (.number x)
  | text (s : String) : Value.Renamed (.text s) (.text s)
  | function {d e : NodeId} (c : Option ScopeId) : R d e →
      Value.Renamed (.function d c) (.function e c)
  | method {d e : NodeId} (c : Option ScopeId) {v w : Value} : R d e → Value.Renamed v w →
      Value.Renamed (.method d c v) (.method e c w)
  | definition {d e : NodeId} (c : Option ScopeId) : R d e →
      Value.Renamed (.definition d c) (.definition e c)
  | instanceOf {d e : NodeId} (s : ScopeId) : R d e →
      Value.Renamed (.instanceOf d s) (.instanceOf e s)
  | exception {e e' : Exception} : e.Renamed R e' → Value.Renamed (.exception e) (.exception e')

/-- Related keys have related values in the tables. -/
def NodeMap.Renamed {α β : Type} (S : α → β → Prop) (m : NodeMap α) (m' : NodeMap β) : Prop :=
  ∀ x y, R x y → Option.Rel S (m.get? x) (m'.get? y)

/-- The scopes bind related values to related definitions, inside the same scope. -/
structure Scope.Renamed (s s' : Scope) : Prop where
  bindings : ∀ x y, R x y → Option.Rel (Value.Renamed R) (s.bindings.get? x) (s'.bindings.get? y)
  parent : s.parent = s'.parent

/-- There are as many scopes, and those with the same number are renamed. -/
structure Scopes.Renamed (s s' : Scopes) : Prop where
  size : s.size = s'.size
  get? : ∀ id, Option.Rel (Scope.Renamed R) (s.get? id) (s'.get? id)

end

section
variable {R : NodeId → NodeId → Prop}

namespace Value

theorem Renamed.exception? {v w : Value} (h : v.Renamed R w) :
    Option.Rel (Exception.Renamed R) v.exception? w.exception? := by
  cases h with
  | exception he => exact .some he
  | _ => exact .none

theorem Renamed.primitive?_eq {v w : Value} (h : v.Renamed R w) : v.primitive? = w.primitive? := by
  cases h <;> rfl

theorem renamed_functionOf {d e : NodeId} (hd : R d e) (c : Option ScopeId) {o o' : Option Value}
    (ho : Option.Rel (Value.Renamed R) o o') :
    (functionOf d c o).Renamed R (functionOf e c o') := by
  rcases ho with hv | _
  · exact .method c hd hv
  · exact .function c hd

end Value

/-! ## Operations -/

namespace NativeOp

/-- The same result, or the same failure. -/
abbrev RenamedResult (R : NodeId → NodeId → Prop) :
    Except ExceptionKind Value → Except ExceptionKind Value → Prop :=
  Except.Rel Eq (Value.Renamed R)

theorem renamed_onNumbers {v v' w w' : Value} (hv : v.Renamed R v') (hw : w.Renamed R w')
    {f : Float → Float → Except ExceptionKind Value} (hf : ∀ a b, RenamedResult R (f a b) (f a b)) :
    RenamedResult R (onNumbers v w f) (onNumbers v' w' f) := by
  cases hv <;> cases hw <;> first | exact hf _ _ | exact .error rfl

theorem renamed_onBooleans {v v' w w' : Value} (hv : v.Renamed R v') (hw : w.Renamed R w')
    (f : Bool → Bool → Bool) : RenamedResult R (onBooleans v w f) (onBooleans v' w' f) := by
  cases hv <;> cases hw <;> first | exact .ok (.bool _) | exact .error rfl

theorem renamed_onTexts {v v' w w' : Value} (hv : v.Renamed R v') (hw : w.Renamed R w')
    {f : String → String → Value} (hf : ∀ a b, (f a b).Renamed R (f a b)) :
    RenamedResult R (onTexts v w f) (onTexts v' w' f) := by
  cases hv <;> cases hw <;> first | exact .ok (hf _ _) | exact .error rfl

/-- An operation gives the same on related values. -/
theorem renamed_apply (op : NativeOp) {v v' w w' : Value} (hv : v.Renamed R v')
    (hw : w.Renamed R w') : RenamedResult R (op.apply v w) (op.apply v' w') := by
  cases op with
  | numberDivide =>
    refine renamed_onNumbers hv hw fun a b => ?_
    unfold divide
    split
    · exact .error rfl
    · exact .ok (.number _)
  | numberAdd | numberSubtract | numberMultiply =>
    exact renamed_onNumbers hv hw fun a b => .ok (.number _)
  | numberLess | numberGreater | numberEqual =>
    exact renamed_onNumbers hv hw fun a b => .ok (.bool _)
  | booleanAnd | booleanOr | booleanEqual => exact renamed_onBooleans hv hw _
  | textConcatenate => exact renamed_onTexts hv hw fun a b => .text _
  | textEqual => exact renamed_onTexts hv hw fun a b => .bool _

end NativeOp

/-! ## Scopes -/

theorem NodeMap.Renamed.insert {α β : Type} {S : α → β → Prop} {m : NodeMap α} {m' : NodeMap β}
    (hR : BiUnique R) (h : m.Renamed R S m') {x y : NodeId} (hx : R x y) {a : α} {b : β}
    (hab : S a b) : (m.insert x a).Renamed R S (m'.insert y b) := by
  intro z w hz
  have heq : x = z ↔ y = w := Relator.rel_eq hR hx hz
  rw [NodeMap.get?_insert, NodeMap.get?_insert]
  by_cases he : x = z
  · rw [if_pos he, if_pos (heq.1 he)]
    exact .some hab
  · rw [if_neg he, if_neg fun he' => he (heq.2 he')]
    exact h z w hz

theorem Scope.Renamed.insert {s s' : Scope} (hR : BiUnique R) (h : s.Renamed R s') {x y : NodeId}
    (hx : R x y) {v w : Value} (hv : v.Renamed R w) :
    Scope.Renamed R { s with bindings := s.bindings.insert x v }
      { s' with bindings := s'.bindings.insert y w } := by
  refine ⟨fun z u hz => ?_, h.parent⟩
  have heq : x = z ↔ y = u := Relator.rel_eq hR hx hz
  rw [Table.get?_insert, Table.get?_insert]
  by_cases he : x = z
  · rw [if_pos he, if_pos (heq.1 he)]
    exact .some hv
  · rw [if_neg he, if_neg fun he' => he (heq.2 he')]
    exact h.bindings z u hz

namespace Scopes

variable {s s' : Scopes}

theorem renamed_empty : Scopes.empty.Renamed R Scopes.empty := ⟨rfl, fun _ => .none⟩

theorem Renamed.add (h : s.Renamed R s') {scope scope' : Scope} (hs : scope.Renamed R scope') :
    (s.add scope).1 = (s'.add scope').1 ∧ (s.add scope).2.Renamed R (s'.add scope').2 := by
  refine ⟨congrArg ScopeId.mk h.size, ?_, fun id => ?_⟩
  · rw [size_add, size_add, h.size]
  · rw [get?_add, get?_add, h.size]
    split
    · exact .some hs
    · exact h.get? id

theorem Renamed.define (hR : BiUnique R) (h : s.Renamed R s') (id : ScopeId) {x y : NodeId}
    (hx : R x y) {v w : Value} (hv : v.Renamed R w) :
    (s.define id x v).Renamed R (s'.define id y w) := by
  refine ⟨?_, fun id' => ?_⟩
  · rw [size_define, size_define, h.size]
  · rw [get?_define, get?_define]
    split
    · exact (h.get? id').map fun _ _ hs => hs.insert hR hx hv
    · exact h.get? id'

/-- Related definitions have related values in scopes with the same number. -/
theorem Renamed.lookup (h : s.Renamed R s') (id : ScopeId) {x y : NodeId} (hx : R x y) :
    Option.Rel (Value.Renamed R) (s.lookup id x) (s'.lookup id y) := by
  induction hn : id.index using Nat.strongRecOn generalizing id with
  | _ n ih =>
    subst hn
    have hs := h.get? id
    unfold Scopes.lookup
    revert hs
    generalize s.get? id = o, s'.get? id = o'
    rintro (hs | _)
    · have hv := hs.bindings x y hx
      dsimp only
      rw [hs.parent]
      revert hv
      generalize Table.get? _ x = o, Table.get? _ y = o'
      rintro (hv | _)
      · exact .some hv
      · generalize Scope.parent _ = above
        cases above with
        | none => exact .none
        | some parent =>
          dsimp only
          split
          · exact ih _ ‹_› _ rfl
          · exact .none
    · exact .none

end Scopes

end

/-! ## Values in words -/

namespace Program.Renamed

variable {R : NodeId → NodeId → Prop} {p q : Program} (h : p.Renamed R q)
include h

theorem describe_exception_eq {e e' : Exception} (he : e.Renamed R e') :
    e.describe p = e'.describe q := by
  unfold Exception.describe Exception.code
  rw [he.kind]
  simp only [h.textOf_eq]

theorem describeWithin_eq {s s' : Scopes} (hs : s.Renamed R s') (depth : Nat) {v w : Value}
    (hv : v.Renamed R w) : v.describeWithin p s depth = w.describeWithin q s' depth := by
  induction depth generalizing v w with
  | zero =>
    cases hv with
    | function _ hd | method _ hd | definition _ hd | instanceOf _ hd =>
      simp only [Value.describeWithin, h.nameText_eq hd]
    | exception he => simp only [Value.describeWithin, h.describe_exception_eq he]
    | _ => simp only [Value.describeWithin]
  | succ depth ih =>
    cases hv with
    | function _ hd | method _ hd | definition _ hd =>
      simp only [Value.describeWithin, h.nameText_eq hd]
    | instanceOf scope hd =>
      simp only [Value.describeWithin, h.nameText_eq hd]
      congr 3
      refine List.forall₂_eq_eq_eq ▸ List.rel_map (fun i j hi => ?_) (h.renamed_inputs hd)
      have hv := ((hs.lookup scope hi).map (T := Eq) fun _ _ => ih).eq
      rw [h.nameText_eq hi, hv]
    | exception he => simp only [Value.describeWithin, h.describe_exception_eq he]
    | _ => simp only [Value.describeWithin]

/-- **Related values are described in the same words.** -/
theorem describe_value_eq {s s' : Scopes} (hs : s.Renamed R s') {v w : Value}
    (hv : v.Renamed R w) : v.describe p s = w.describe q s' := by
  unfold Value.describe
  rw [hs.size]
  exact h.describeWithin_eq hs _ hv

end Program.Renamed

end Arbor
