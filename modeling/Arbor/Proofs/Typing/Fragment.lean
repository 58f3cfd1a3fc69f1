/-
  The fragment of primitive values and closures.

  Its programs borrow nothing and have neither structures nor type variables: they are made
  of literals, names, named values, blocks, choices, operators, methods, calls, and functions
  with inputs of primitive types that do not name themselves.

  * `Expression` are its expressions, `InFragment` its programs;
  * `Placed`: the node is in the program and around it are no structures, and all that it
    can name has a type, except the functions that it is in.

  Main statement: `Placed.child`, what a child can name.
-/
import Arbor.Proofs.Program.Shape
import Arbor.Proofs.Typing.Rules

namespace Arbor.Program

variable (p : Program)

/-! ## Expressions -/

/-- The node is a primitive type. -/
def IsPrimitiveType (id : NodeId) : Prop := ∃ q : Primitive, p.node? id = some q.node

/-- The node is an input of a primitive type, without a default or with a literal one. -/
def IsInput (id : NodeId) : Prop :=
  ∃ ns type value, p.node? id = some (.bind ns (some type) value) ∧ p.IsPrimitiveType type ∧
    ∀ v, value = some v → (p.literal? v).isSome

/-- The expressions of the fragment. -/
inductive Expression : NodeId → Prop
  | boolean {id b} (h : p.node? id = some (.booleanLiteral b)) : Expression id
  | number {id bits} (h : p.node? id = some (.numberLiteral bits)) : Expression id
  | text {id s} (h : p.node? id = some (.textLiteral s)) : Expression id
  | reference {id n} (h : p.node? id = some (.reference n))
      (hself : ∀ f, p.resolve n id = some (.function f) → f ∉ p.tree.ancestors id) :
      Expression id
  | property {id receiver n} (h : p.node? id = some (.propertyReference receiver n))
      (hr : Expression receiver) : Expression id
  | operation {id left op right} (h : p.node? id = some (.binaryOperation left op right))
      (hl : Expression left) (hr : Expression right) : Expression id
  | conditional {id condition yes no} (h : p.node? id = some (.conditional condition yes no))
      (hc : Expression condition) (hy : Expression yes) (hn : Expression no) : Expression id
  | evaluate {id function is} (h : p.node? id = some (.evaluate function is))
      (hf : Expression function) (his : ∀ a ∈ p.arena.list is, Expression a) : Expression id
  | block {id ss} (h : p.node? id = some (.block ss)) (hne : p.arena.list ss ≠ [])
      (hss : ∀ s ∈ p.arena.list ss, Expression s) : Expression id
  | bind {id ns type value} (h : p.node? id = some (.bind ns type (some value)))
      (ht : ∀ t, type = some t → p.IsPrimitiveType t) (hv : Expression value) : Expression id
  | function {id ns vs is body}
      (h : p.node? id = some (.functionDefinition ns vs is none (some body)))
      (hvs : p.arena.list vs = []) (his : ∀ i ∈ p.arena.list is, p.IsInput i)
      (hb : Expression body) : Expression id

/-- The program borrows nothing, and its block is an expression of the fragment. -/
def InFragment : Prop :=
  ∃ borrows main, p.node? p.root = some (.program borrows main) ∧ p.arena.list borrows = [] ∧
    p.Expression main

/-! ## Places -/

/-- The definition has a type, unless it is a function that the node is or is in. -/
def Typed (id : NodeId) : Definition → Prop
  | .bind b => ∃ t, p.HasType b t
  | .function f => f ∉ id :: p.tree.ancestors id → p.HasType f (.function f)
  | _ => False

/-- The node is in the program and in no structure, and what it can name has a type. -/
structure Placed (id : NodeId) : Prop where
  mem : id ∈ p.tree.nodes
  outside : p.enclosingStructure id = none
  typed : ∀ n d, p.resolve n id = some d → p.Typed id d

variable {p}

/-- A child is placed if what it can name by its parent has a type. -/
theorem Placed.child (hp : p.TreeShaped) {x c : NodeId} (hx : p.Placed x)
    (hc : c ∈ p.arena.children x) (hs : (p.node? x).any Node.isStructureDefinition = false)
    (hd : ∀ n d, p.definitionInScope x c n = some d → p.Typed c d) : p.Placed c := by
  have hancestors := hp.ancestors_child hx.mem hc
  refine ⟨hp.child_mem hx.mem hc, ?_, fun n d h => ?_⟩
  · have houtside := hx.outside
    unfold enclosingStructure at houtside ⊢
    rw [hancestors, List.find?_cons, hs]
    exact houtside
  · rw [hp.resolve_child hx.mem hc] at h
    rcases Option.or_eq_some_iff.1 h with h | ⟨-, h⟩
    · exact hd n d h
    · have ht := hx.typed n d h
      cases d with
      | function f =>
        intro hf
        rw [hancestors] at hf
        exact ht fun hmem => hf (List.mem_cons_of_mem _ hmem)
      | _ => exact ht

/-- A child that its parent shows nothing is placed. -/
theorem Placed.plain (hp : p.TreeShaped) {x c : NodeId} (hx : p.Placed x)
    (hc : c ∈ p.arena.children x) (hs : (p.node? x).any Node.isStructureDefinition = false)
    (hd : ∀ n, p.definitionInScope x c n = none) : p.Placed c :=
  hx.child hp hc hs fun n d h => by rw [hd n] at h; cases h

/-- The root of a tree-shaped program is placed, and the block of one that borrows nothing. -/
theorem placed_main (hp : p.TreeShaped) {borrows : NodeRange} {main : NodeId}
    (hroot : p.node? p.root = some (.program borrows main)) (hb : p.arena.list borrows = []) :
    p.Placed main := by
  have hplaced : p.Placed p.root := by
    refine ⟨hp.root_mem, ?_, fun n d h => ?_⟩
    · unfold enclosingStructure
      rw [hp.ancestors_root]
      rfl
    · rw [hp.resolve_root] at h
      cases h
  refine hplaced.plain hp ?_ ?_ fun n => ?_
  · rw [Arena.children_eq hroot]
    simp
  · rw [hroot]
    rfl
  · unfold definitionInScope
    rw [hroot]
    simp [borrowsName, hb]

/-- What a node with a type defines has a type. -/
theorem typed_of_named {x id : NodeId} {n : Name} {d : Definition} {t : Ty}
    (ht : p.HasType id t) (h : p.definitionNamed n id = some d) : p.Typed x d := by
  have hc := classify_of_definitionNamed h
  have hrule := hasType_iff.1 ht
  unfold Rule at hrule
  unfold classify at hc
  split at hc
  · cases hc
    exact ⟨t, ht⟩
  · next ns vs is output body hn =>
    cases hc
    rw [hn] at hrule
    cases output with
    | none =>
      cases body with
      | none => exact hrule.elim
      | some body =>
        obtain ⟨rfl, -⟩ := hrule
        exact fun _ => ht
    | some output => exact hrule.elim
  · next hn => rw [hn] at hrule; exact hrule.elim
  · next hn => rw [hn] at hrule; exact hrule.elim
  · cases hc

end Arbor.Program
