/-
  Programs over the basis.

  The basis is allocated before everything else, and an arena only grows: what was
  read in it once is read ever after (`Arena.Extends`).  A program whose arena has grown
  from that of the basis (`OverBasis`) therefore keeps the methods of the basis.

  Main statement: `OverBasis.grounded`, such a program is grounded if no node is below
  itself and only structures are shared as structures.
-/
import Arbor.Proofs.Program.Shape
import Arbor.Proofs.Value.Sound

namespace Arbor

/-! ## Growing arenas -/

namespace Arena

/-- Every node and every child list of one arena is in the other. -/
structure Extends (a b : Arena) : Prop where
  node? : ∀ id n, a.node? id = some n → b.node? id = some n
  list : ∀ r, r.start + r.len ≤ a.lists.size → b.list r = a.list r
  size : a.lists.size ≤ b.lists.size

theorem Extends.refl (a : Arena) : a.Extends a := ⟨fun _ _ h => h, fun _ _ => rfl, Nat.le_refl _⟩

theorem Extends.trans {a b c : Arena} (hab : a.Extends b) (hbc : b.Extends c) : a.Extends c where
  node? id n h := hbc.node? id n (hab.node? id n h)
  list r h := (hbc.list r (Nat.le_trans h hab.size)).trans (hab.list r h)
  size := Nat.le_trans hab.size hbc.size

theorem extends_alloc (a : Arena) (n : Node) : a.Extends (a.alloc n).2 :=
  ⟨fun _ _ h => node?_alloc_of_some h n, fun _ _ => rfl, Nat.le_refl _⟩

theorem extends_allocList (a : Arena) (ids : List NodeId) : a.Extends (a.allocList ids).2 where
  node? _ _ h := h
  list _ h := list_allocList_of_le h ids
  size := by simp [allocList]

/-- An arena whose nodes and lists come first in another is extended by it. -/
theorem extends_of_isPrefix {a b : Arena} (hn : a.nodes.toList <+: b.nodes.toList)
    (hl : a.lists.toList <+: b.lists.toList) : a.Extends b := by
  have hsize : a.lists.size ≤ b.lists.size := by simpa using hl.length_le
  refine ⟨fun id n h => ?_, fun r hr => ?_, hsize⟩
  · unfold node? at h ⊢
    rw [← Array.getElem?_toList] at h ⊢
    obtain ⟨more, hmore⟩ := hn
    rw [← hmore, List.getElem?_append_left (List.getElem?_eq_some_iff.1 h).1]
    exact h
  · unfold list
    rw [if_pos hr, if_pos (Nat.le_trans hr hsize)]
    obtain ⟨more, hmore⟩ := hl
    simp only [Array.toList_extract, List.extract_eq_take_drop, Nat.add_sub_cancel_left, ← hmore]
    rw [List.drop_append_of_le_length, List.take_append_of_le_length]
    · rw [List.length_drop, Array.length_toList]
      omega
    · rw [Array.length_toList]
      omega

/-- An arena in which children come before their parents, found by looking at each
    node. -/
theorem acyclic_of_all {a : Arena}
    (h : (List.range a.size).all fun i => (a.children ⟨i⟩).all fun c => c.raw < i) :
    a.Acyclic := by
  refine acyclic_of_lt fun id c hc => ?_
  have hid := List.all_eq_true.1 h id.raw (List.mem_range.2 (lt_size_of_mem_children hc))
  exact of_decide_eq_true (List.all_eq_true.1 hid c hc)

end Arena

/-! ## Programs over the basis -/

/-- The arena of the program has grown from that of the basis. -/
structure Program.OverBasis (p : Program) : Prop where
  basis : p.basis = Forest.withBasis.1
  arena : Forest.withBasis.2.arena.Extends p.arena

/-- The program that is built over the basis, with shares. -/
def Program.built (nodes : Build NodeId) (shares : Option Shares) : Program :=
  let built : NodeId × Forest :=
    match nodes.run Forest.withBasis.2 with
    | .ok r => r
    | .error _ => (default, Forest.withBasis.2)
  .ofRoot built.2 Forest.withBasis.1 shares built.1

@[simp] theorem Program.basis_built (nodes : Build NodeId) (shares : Option Shares) :
    (Program.built nodes shares).basis = Forest.withBasis.1 := by
  generalize h : Forest.withBasis = w
  unfold built ofRoot
  rw [h]

/-- The version that is built is read from its root. -/
theorem Program.tree_built (nodes : Build NodeId) (shares : Option Shares) :
    ∃ detached, (Program.built nodes shares).tree =
      .ofRoots (Program.built nodes shares).arena (Program.built nodes shares).root detached :=
  ⟨_, rfl⟩

/-- A version whose nodes were each added after its children, and whose root was added
    last, is tree-shaped if no node comes twice. -/
theorem Program.treeShaped_built {nodes : Build NodeId} {shares : Option Shares}
    (hall : ((List.range (Program.built nodes shares).arena.size).all fun i =>
        ((Program.built nodes shares).arena.children ⟨i⟩).all fun c => c.raw < i) ∧
      (Program.built nodes shares).tree.nodes.Nodup ∧
      (Program.built nodes shares).arena.size = (Program.built nodes shares).root.raw + 1) :
    (Program.built nodes shares).TreeShaped := by
  obtain ⟨hacyclic, hnodup, hsize⟩ := hall
  refine ⟨Arena.acyclic_of_all hacyclic, Program.tree_built _ _, hnodup, ?_⟩
  obtain ⟨detached, htree⟩ := Program.tree_built nodes shares
  generalize Program.built nodes shares = p at *
  cases hparent : p.tree.parent? p.root with
  | none => rfl
  | some q =>
    rw [htree] at hparent
    have hmem := Tree.mem_children_of_parent? hparent
    have hlt := Arena.lt_size_of_mem_children hmem
    have hq := List.all_eq_true.1 (List.all_eq_true.1 hacyclic q.raw (List.mem_range.2 hlt)) _ hmem
    have hq : p.root.raw < q.raw := of_decide_eq_true hq
    omega

@[simp] theorem Program.shares_built (nodes : Build NodeId) (shares : Option Shares) :
    (Program.built nodes shares).shares = shares := rfl

namespace Basis

/-- What the basis has for a method is one of its functions. -/
theorem mem_functions {b : Basis} {q : Primitive} {n : Name} {f : NodeId}
    (h : b.function? q n = some f) : ((q, n), f) ∈ b.functions := by
  obtain ⟨before, after, hl, -⟩ := List.lookup_eq_some_iff.1 h
  rw [hl]
  simp

/-- The functions that the basis allocates have bodies. -/
theorem implemented_withBasis :
    ∀ e ∈ Forest.withBasis.1.functions,
      (Forest.withBasis.2.arena.node? e.2).any Node.isImplementedFunction = true := by
  decide +kernel

end Basis

/-- **Programs over the basis are grounded**, whatever else they hold. -/
theorem Program.OverBasis.grounded {p : Program} (hb : p.OverBasis) (ha : p.arena.Acyclic)
    (hs : ∀ s, p.shares = some s → ∀ d ∈ s.structures, p.IsStructure d) : p.Grounded := by
  refine ⟨ha, hs, fun q n f hf => ?_⟩
  rw [hb.basis] at hf
  have himpl := Basis.implemented_withBasis _ (Basis.mem_functions hf)
  cases hn : Forest.withBasis.2.arena.node? f with
  | none => rw [hn] at himpl; cases himpl
  | some node =>
    rw [hn] at himpl
    have hp : p.node? f = some node := hb.arena.node? f node hn
    cases node with
    | functionDefinition ns vs is output body => exact ⟨ns, vs, is, output, body, hp⟩
    | _ => cases himpl

end Arbor
