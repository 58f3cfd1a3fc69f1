/-
  One version of a program as a tree.

  Nodes do not know their parents.  A `Tree` is computed from a root: it lists
  the nodes below the root in pre-order, and gives each of them the first node
  of that order that has it as a child.  Detached trees (shared definitions, the
  basis) get parents in the same way, but are not listed, and never change the
  parents of the program's own nodes.

  * `Tree.parent?`, `Tree.ancestors`, `Tree.depth` and `Tree.contains` answer
    upward questions;
  * `Tree.mem_children_of_parent?` says that a parent has the node as a child,
    and `Tree.ancestors_ofRoots` that the ancestors in an acyclic arena are the
    whole chain of parents.
-/
import Arbor.Arena.Descent
import Arbor.Node.Map

namespace Arbor

/-- One version of a program, read from its root. -/
structure Tree where
  /-- The root of the version. -/
  root : NodeId
  /-- The nodes below the root in pre-order. -/
  nodes : List NodeId
  /-- The parents of the nodes below the root and below the detached roots. -/
  parents : NodeMap NodeId
  /-- The greatest length of a chain of parents. -/
  bound : Nat

namespace Tree

/-- Makes a node the parent of those of its children that have none. -/
def adopt (a : Arena) (parents : NodeMap NodeId) (id : NodeId) : NodeMap NodeId :=
  (a.children id).foldl (fun m c => if m.contains c then m else m.insert c id) parents

/-- Adds the parents of everything below a root. -/
def adoptBelow (a : Arena) (parents : NodeMap NodeId) (root : NodeId) : NodeMap NodeId :=
  (a.preorder root).foldl (adopt a) parents

/-- Reads the tree below `root`, with parents for the trees below `detached`. -/
def ofRoots (a : Arena) (root : NodeId) (detached : List NodeId) : Tree where
  root := root
  nodes := a.preorder root
  parents := detached.foldl (adoptBelow a) (adoptBelow a .empty root)
  bound := a.size

/-- The parent of a node; roots and unknown nodes have none. -/
def parent? (t : Tree) (id : NodeId) : Option NodeId := t.parents.get? id

/-- The first `n` nodes of the chain of parents from a node upwards. -/
def chain (t : Tree) : Nat → NodeId → List NodeId
  | 0, _ => []
  | n + 1, id =>
    match t.parent? id with
    | none => []
    | some p => p :: t.chain n p

/-- The ancestors of a node, nearest first. -/
def ancestors (t : Tree) (id : NodeId) : List NodeId := t.chain t.bound id

/-- The number of ancestors of a node. -/
def depth (t : Tree) (id : NodeId) : Nat := (t.ancestors id).length

/-- Whether the node belongs to the program. -/
def contains (t : Tree) (id : NodeId) : Bool :=
  id == t.root || (t.ancestors id).any (· == t.root)

/-! ## Parents and children -/

variable {a : Arena}

/-- Every parent in a map has the node as a child. -/
def Parental (a : Arena) (parents : NodeMap NodeId) : Prop :=
  ∀ c p, parents.get? c = some p → c ∈ a.children p

theorem parental_empty : Parental a .empty := by
  intro c p h
  simp at h

theorem Parental.adopt {m : NodeMap NodeId} (h : Parental a m) (id : NodeId) :
    Parental a (adopt a m id) := by
  refine List.foldlRecOn (a.children id) _ h fun m hm c hc => ?_
  split
  · exact hm
  · intro d p hp
    rw [NodeMap.get?_insert] at hp
    split at hp
    · next e => subst e; cases hp; exact hc
    · exact hm d p hp

theorem Parental.adoptBelow {m : NodeMap NodeId} (h : Parental a m) (root : NodeId) :
    Parental a (adoptBelow a m root) :=
  List.foldlRecOn (a.preorder root) (Tree.adopt a) h fun _ hm id _ => hm.adopt id

/-- A parent has the node as a child. -/
theorem mem_children_of_parent? {root : NodeId} {detached : List NodeId} {c p : NodeId}
    (h : (ofRoots a root detached).parent? c = some p) : c ∈ a.children p :=
  List.foldlRecOn (motive := Parental a) detached (Tree.adoptBelow a)
    (parental_empty.adoptBelow root) (fun _ hm id _ => hm.adoptBelow id) c p h

/-! ## Ancestors -/

/-- Two lengths give the same chain if the rank, which rises from a node to its
    parent up to `top`, leaves room for no longer one. -/
theorem chain_congr {t : Tree} {rank : NodeId → Nat} {top : Nat}
    (h : ∀ c p, t.parent? c = some p → rank c < rank p ∧ rank p ≤ top) {m n : Nat} {id : NodeId}
    (hm : top ≤ rank id + m) (hn : top ≤ rank id + n) : t.chain m id = t.chain n id := by
  induction m generalizing n id with
  | zero =>
    cases n with
    | zero => rfl
    | succ n =>
      unfold chain
      split
      · rfl
      · next p hp => have := h id p hp; omega
  | succ m ih =>
    cases n with
    | zero =>
      unfold chain
      split
      · rfl
      · next p hp => have := h id p hp; omega
    | succ n =>
      unfold chain
      split
      · rfl
      · next p hp => have := h id p hp; rw [ih (n := n)] <;> omega

/-- The ancestors of a node in an acyclic arena are its parent and the ancestors
    of its parent. -/
theorem ancestors_ofRoots (h : a.Acyclic) (root : NodeId) (detached : List NodeId) (id : NodeId) :
    (ofRoots a root detached).ancestors id =
      match (ofRoots a root detached).parent? id with
      | none => []
      | some p => p :: (ofRoots a root detached).ancestors p := by
  obtain ⟨rank, hrank, hle⟩ := h.exists_rank_le
  let t := ofRoots a root detached
  have up : ∀ c p, t.parent? c = some p → rank c < rank p ∧ rank p ≤ a.size :=
    fun c p hp => ⟨hrank p c (mem_children_of_parent? hp), hle p⟩
  show t.chain a.size id = match t.parent? id with
    | none => []
    | some p => p :: t.chain a.size p
  rw [chain_congr up (n := a.size + 1) (by omega) (by omega)]
  rfl

end Tree

end Arbor
