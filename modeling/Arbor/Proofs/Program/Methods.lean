/-
  The primitive methods of programs over the basis.

  A primitive method is a function with one typed input, a declared output and a native
  body, whose operation takes a receiver and an input of the types that are declared and
  gives a value of the declared type, unless it divides by zero.

  Main statements: `OverBasis.method`, the nodes of a method, and `NativeOp.apply_typed`.
-/
import Arbor.Proofs.Program.Basis

namespace Arbor

/-! ## Operations and their types -/

/-- The type node of a primitive type. -/
def Primitive.node : Primitive → Node
  | boolean => .booleanType
  | number => .numberType
  | text => .textType

namespace NativeOp

/-- The type of the receiver of an operation. -/
def receiver : NativeOp → Primitive
  | numberAdd | numberSubtract | numberMultiply | numberDivide | numberLess | numberGreater
  | numberEqual => .number
  | booleanAnd | booleanOr | booleanEqual => .boolean
  | textConcatenate | textEqual => .text

/-- The type of the value of an operation. -/
def output : NativeOp → Primitive
  | numberAdd | numberSubtract | numberMultiply | numberDivide => .number
  | textConcatenate => .text
  | _ => .boolean

variable {v w : Value}

theorem onNumbers_typed {f : Float → Float → Except ExceptionKind Value}
    (hv : v.primitive? = some .number) (hw : w.primitive? = some .number) :
    ∃ a b, onNumbers v w f = f a b := by
  cases v <;> cases hv
  cases w <;> cases hw
  exact ⟨_, _, rfl⟩

theorem onBooleans_typed {f : Bool → Bool → Bool}
    (hv : v.primitive? = some .boolean) (hw : w.primitive? = some .boolean) :
    ∃ a b, onBooleans v w f = .ok (.bool (f a b)) := by
  cases v <;> cases hv
  cases w <;> cases hw
  exact ⟨_, _, rfl⟩

theorem onTexts_typed {f : String → String → Value}
    (hv : v.primitive? = some .text) (hw : w.primitive? = some .text) :
    ∃ a b, onTexts v w f = .ok (f a b) := by
  cases v <;> cases hv
  cases w <;> cases hw
  exact ⟨_, _, rfl⟩

/-- An operation on a receiver and an input of its type gives a value of the declared
    type, or it divides by zero. -/
theorem apply_typed (op : NativeOp) (hv : v.primitive? = some op.receiver)
    (hw : w.primitive? = some op.receiver) :
    op.apply v w = .error .divisionByZero ∨
      ∃ u, op.apply v w = .ok u ∧ u.primitive? = some op.output := by
  cases op with
  | numberDivide =>
    obtain ⟨a, b, h⟩ := onNumbers_typed (f := divide) hv hw
    simp only [apply, h, divide]
    split
    · exact .inl rfl
    · exact .inr ⟨_, rfl, rfl⟩
  | numberAdd | numberSubtract | numberMultiply | numberLess | numberGreater | numberEqual =>
    obtain ⟨a, b, h⟩ := onNumbers_typed hv hw
    exact .inr ⟨_, h, rfl⟩
  | booleanAnd | booleanOr | booleanEqual =>
    obtain ⟨a, b, h⟩ := onBooleans_typed hv hw
    exact .inr ⟨_, h, rfl⟩
  | textConcatenate | textEqual =>
    obtain ⟨a, b, h⟩ := onTexts_typed hv hw
    exact .inr ⟨_, h, rfl⟩

end NativeOp

/-! ## The nodes of a method -/

/-- The nodes of a primitive method of the type `q` by the name `n`. -/
structure Program.Method (p : Program) (q : Primitive) (n : Name) (f : NodeId) (op : NativeOp)
    (input body : NodeId) : Prop where
  function : ∃ ns vs is out, p.node? f = some (.functionDefinition ns vs is (some out) (some body)) ∧
    p.arena.list vs = [] ∧ p.arena.list is = [input] ∧ p.node? out = some op.output.node
  input : ∃ ns ty, p.node? input = some (.bind ns (some ty) none) ∧
    p.node? ty = some op.receiver.node
  body : p.node? body = some (.native op)
  receiver : op.receiver = q
  /-- Only booleans have the operators that may skip an operand. -/
  shortCircuit : n.isShortCircuit = true → op.receiver = .boolean ∧ op.output = .boolean

/-- Whether an arena has the nodes of a method. -/
def Arena.hasMethod (a : Arena) (q : Primitive) (n : Name) (f : NodeId) : Bool :=
  match a.node? f with
  | some (.functionDefinition _ vs is (some out) (some body)) =>
    match a.node? body, a.list is with
    | some (.native op), [input] =>
      match a.node? input with
      | some (.bind _ (some ty) none) =>
        vs.len == 0 && a.node? out == some op.output.node && a.node? ty == some op.receiver.node &&
          op.receiver == q &&
          (!n.isShortCircuit || (op.receiver == .boolean && op.output == .boolean))
      | _ => false
    | _, _ => false
  | _ => false

theorem Arena.list_eq_nil_of_len {a : Arena} {r : NodeRange} (h : r.len = 0) : a.list r = [] := by
  unfold list
  split
  · simp [h]
  · rfl

/-- A list that has ids is all in storage. -/
theorem Arena.hasList_of_ne_nil {a : Arena} {r : NodeRange} (h : a.list r ≠ []) :
    r.start + r.len ≤ a.lists.size := by
  unfold list at h
  split at h
  · assumption
  · exact absurd rfl h

/-- The methods of the basis have the nodes of methods. -/
theorem Basis.hasMethod_withBasis : ∀ e ∈ Forest.withBasis.1.functions,
    Forest.withBasis.2.arena.hasMethod e.1.1 e.1.2 e.2 = true := by
  decide +kernel

/-- The nodes of a method are kept when an arena grows. -/
theorem Arena.Extends.method {a : Arena} {p : Program} (h : a.Extends p.arena) {q : Primitive}
    {n : Name} {f : NodeId} (hm : a.hasMethod q n f = true) :
    ∃ op input body, p.Method q n f op input body := by
  unfold hasMethod at hm
  split at hm
  · next ns vs is out body hf =>
    split at hm
    · next op input hbody his =>
      split at hm
      · next ns' ty hinput =>
        simp only [Bool.and_eq_true, beq_iff_eq, Bool.or_eq_true, Bool.not_eq_true'] at hm
        obtain ⟨⟨⟨⟨hvs, hout⟩, hty⟩, hq⟩, hshort⟩ := hm
        have hlist : p.arena.list is = [input] := by
          rw [h.list is (hasList_of_ne_nil (by simp [his])), his]
        refine ⟨op, input, body, ?_, ?_, h.node? _ _ hbody, hq, ?_⟩
        · exact ⟨ns, vs, is, out, h.node? _ _ hf, list_eq_nil_of_len hvs, hlist, h.node? _ _ hout⟩
        · exact ⟨ns', ty, h.node? _ _ hinput, h.node? _ _ hty⟩
        · intro hs
          rcases hshort with hs' | hb
          · rw [hs'] at hs
            cases hs
          · exact hb
      · cases hm
    · cases hm
  · cases hm

/-- **The nodes of a method** of a program over the basis. -/
theorem Program.OverBasis.method {p : Program} (hb : p.OverBasis) {q : Primitive} {n : Name}
    {f : NodeId} (hf : p.basis.function? q n = some f) :
    ∃ op input body, p.Method q n f op input body := by
  rw [hb.basis] at hf
  have hm := Basis.hasMethod_withBasis ((q, n), f) (Basis.mem_functions hf)
  exact hb.arena.method hm

end Arbor
