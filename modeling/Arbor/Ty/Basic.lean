/-
  Static types.

  * `Primitive` are the types that the basis defines methods on, `Ty` the types
    of expressions;
  * `Ty.union` is the type that covers two types; it lists each member once, and
    a union that is put into it gives its members;
  * the equality of types compares the members of unions in order.
-/
import Arbor.Node.Id

namespace Arbor

/-- The types that the basis defines methods on. -/
inductive Primitive where
  | boolean
  | number
  | text
deriving DecidableEq, Repr

/-- The name of a primitive type. -/
def Primitive.name : Primitive → String
  | boolean => "boolean"
  | number => "number"
  | text => "text"

/-- The static type of an expression. -/
inductive Ty where
  /-- A primitive type. -/
  | primitive (p : Primitive)
  /-- The instances of a structure, with its type arguments in the order in
      which the structure declares its type variables. -/
  | instanceOf (definition : NodeId) (args : List Ty)
  /-- A structure itself, which creates instances. -/
  | definition (definition : NodeId)
  /-- A function. -/
  | function (definition : NodeId)
  /-- A type variable that has not been given a type. -/
  | typeVar (variable_ : NodeId)
  /-- Either of several types; it has no members of its own. -/
  | union (members : List Ty)
  /-- The type of what never gives a value. -/
  | never
  /-- A type that could not be determined. -/
  | unknown
deriving Repr, Inhabited

namespace Ty

/-! ## Equality -/

mutual

/-- Whether two types are the same. -/
def beq : Ty → Ty → Bool
  | primitive p, primitive q => p == q
  | instanceOf d as, instanceOf e bs => d == e && beqList as bs
  | definition d, definition e => d == e
  | function d, function e => d == e
  | typeVar v, typeVar w => v == w
  | union as, union bs => beqList as bs
  | never, never => true
  | unknown, unknown => true
  | _, _ => false

/-- Whether two lists hold the same types in the same order. -/
def beqList : List Ty → List Ty → Bool
  | [], [] => true
  | a :: as, b :: bs => beq a b && beqList as bs
  | _, _ => false

end

mutual

theorem eq_of_beq : ∀ {a b : Ty}, beq a b = true → a = b
  | primitive p, b, h => by cases b <;> simp_all [beq]
  | instanceOf d as, b, h => by
    cases b <;> simp only [beq, Bool.and_eq_true, beq_iff_eq, Bool.false_eq_true] at h
    obtain ⟨rfl, h⟩ := h
    rw [eq_of_beqList h]
  | definition d, b, h => by cases b <;> simp_all [beq]
  | function d, b, h => by cases b <;> simp_all [beq]
  | typeVar v, b, h => by cases b <;> simp_all [beq]
  | union as, b, h => by
    cases b <;> simp only [beq, Bool.false_eq_true] at h
    rw [eq_of_beqList h]
  | never, b, h => by cases b <;> simp_all [beq]
  | unknown, b, h => by cases b <;> simp_all [beq]

theorem eq_of_beqList : ∀ {as bs : List Ty}, beqList as bs = true → as = bs
  | [], bs, h => by cases bs <;> simp_all [beqList]
  | a :: as, bs, h => by
    cases bs <;> simp only [beqList, Bool.and_eq_true, Bool.false_eq_true] at h
    rw [eq_of_beq h.1, eq_of_beqList h.2]

end

mutual

theorem beq_self : ∀ a : Ty, beq a a = true
  | primitive p => by simp [beq]
  | instanceOf d as => by simp [beq, beqList_self as]
  | definition d => by simp [beq]
  | function d => by simp [beq]
  | typeVar v => by simp [beq]
  | union as => by simp [beq, beqList_self as]
  | never => rfl
  | unknown => rfl

theorem beqList_self : ∀ as : List Ty, beqList as as = true
  | [] => rfl
  | a :: as => by simp [beqList, beq_self a, beqList_self as]

end

instance : DecidableEq Ty := fun a b =>
  if h : beq a b = true then .isTrue (eq_of_beq h)
  else .isFalse fun e => h (e ▸ beq_self a)

/-! ## Operations -/

/-- The instances of a structure without type arguments. -/
def instances (d : NodeId) : Ty := instanceOf d []

/-- The primitive type that the type is, if it is one. -/
def primitive? : Ty → Option Primitive
  | primitive p => some p
  | _ => none

/-- The members that a type brings into a union. -/
def parts : Ty → List Ty
  | union members => members
  | t => [t]

/-- Appends the types that are not listed yet. -/
def addNew (members : List Ty) (new : List Ty) : List Ty :=
  new.foldl (fun ms t => if t ∈ ms then ms else ms ++ [t]) members

/-- The type that covers two types. -/
def cover (a b : Ty) : Ty :=
  match addNew (addNew [] a.parts) b.parts with
  | [t] => t
  | members => union members

/-- The type of a choice between branches of two types. -/
def join (yes no : Ty) : Ty :=
  if yes = no then yes
  else match yes, no with
    | never, t => t
    | t, never => t
    | unknown, _ => unknown
    | _, unknown => unknown
    | _, _ => cover yes no

end Ty

end Arbor
