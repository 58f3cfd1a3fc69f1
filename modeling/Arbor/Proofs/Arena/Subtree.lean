/-
  The tree that a node stands for.

  Followed through its slots, a node stands for a finite tree: its kind and its data (names,
  operators, literals), and in each slot the trees of its children.

  * `Subtree` is such a tree, and `Branch` what one of its slots holds; `Subtree.shape` forgets
    the ids of the nodes;
  * `Subtree.subst`: the tree with another tree, or none, in the place of a node;
  * `Arena.Spells a x t`: in `a` the node `x` stands for the tree `t`.

  Main statements: `exists_spells` and `Spells.unique`, in an arena that holds what it refers
  to, and in which no node is below itself, every node stands for one tree; `Spells.mono`, it
  does so ever after.
-/
import Arbor.Proofs.Arena.Failure
import Arbor.Proofs.Arena.Parents

namespace Arbor

/-! ## Trees -/

/-- What one slot of a tree holds. -/
inductive Branch (τ : Type) where
  | one (t : τ)
  | optional (t : Option τ)
  | list (ts : List τ)
deriving DecidableEq, Repr

/-- A finite tree of nodes: the id of a node, its kind and data, and what its slots hold. -/
inductive Subtree where
  | node (id : NodeId) (data : Node) (slots : List (Branch Subtree))
deriving Repr

namespace Branch

variable {τ σ ρ : Type}

/-- The slot with something else in the place of every tree. -/
def map (f : τ → σ) : Branch τ → Branch σ
  | .one t => .one (f t)
  | .optional t => .optional (t.map f)
  | .list ts => .list (ts.map f)

@[simp] theorem map_map (f : τ → σ) (g : σ → ρ) (b : Branch τ) :
    (b.map f).map g = b.map (g ∘ f) := by
  cases b <;> simp [map]

end Branch

namespace Subtree

variable {τ : Type}

/-- The node at the root of the tree. -/
def id : Subtree → NodeId
  | .node id _ _ => id

mutual

/-- Puts the tree together again from below. -/
def fold (f : NodeId → Node → List (Branch τ) → τ) : Subtree → τ
  | .node id data slots => f id data (foldSlots f slots)

/-- Folds what the slots hold. -/
def foldSlots (f : NodeId → Node → List (Branch τ) → τ) :
    List (Branch Subtree) → List (Branch τ)
  | [] => []
  | b :: bs => foldSlot f b :: foldSlots f bs

/-- Folds what one slot holds. -/
def foldSlot (f : NodeId → Node → List (Branch τ) → τ) : Branch Subtree → Branch τ
  | .one t => .one (fold f t)
  | .optional none => .optional none
  | .optional (some t) => .optional (some (fold f t))
  | .list ts => .list (foldItems f ts)

/-- Folds the items of a child list. -/
def foldItems (f : NodeId → Node → List (Branch τ) → τ) : List Subtree → List τ
  | [] => []
  | t :: ts => fold f t :: foldItems f ts

end

section
variable (f : NodeId → Node → List (Branch τ) → τ)

theorem foldItems_eq (ts : List Subtree) : foldItems f ts = ts.map (fold f) := by
  induction ts with
  | nil => rfl
  | cons t ts ih => rw [foldItems, ih, List.map_cons]

theorem foldSlot_eq (b : Branch Subtree) : foldSlot f b = b.map (fold f) := by
  cases b with
  | one t => rfl
  | optional t => cases t <;> rfl
  | list ts => rw [foldSlot, foldItems_eq, Branch.map]

theorem foldSlots_eq (bs : List (Branch Subtree)) :
    foldSlots f bs = bs.map (Branch.map (fold f)) := by
  induction bs with
  | nil => rfl
  | cons b bs ih => rw [foldSlots, ih, foldSlot_eq, List.map_cons]

@[simp] theorem fold_node (id : NodeId) (data : Node) (slots : List (Branch Subtree)) :
    fold f (.node id data slots) = f id data (slots.map (Branch.map (fold f))) := by
  rw [fold, foldSlots_eq]

end

/-- The tree without the ids of its nodes. -/
def shape : Subtree → Subtree := fold fun _ data slots => .node .invalid data slots

@[simp] theorem shape_node (id : NodeId) (data : Node) (slots : List (Branch Subtree)) :
    (node id data slots).shape = node .invalid data (slots.map (Branch.map shape)) :=
  fold_node ..

end Subtree

/-! ## Substitution -/

section
variable (target : NodeId) (r : Option Subtree)

/-- Another tree in the place of the trees of `target` in a slot.  If there is none, `target`
    is dropped from a child list or cleared from a slot that may be empty; a slot that must be
    filled stays as it is. -/
def Branch.plant : Branch Subtree → Branch Subtree
  | .one t => .one (if t.id = target then r.getD t else t)
  | .optional t => .optional (t.bind fun t => if t.id = target then r else some t)
  | .list ts => .list (ts.flatMap fun t => if t.id = target then r.toList else [t])

/-- The tree in which every occurrence of `target` below its root is replaced by `r`. -/
def Subtree.subst : Subtree → Subtree :=
  Subtree.fold fun id data slots => .node id data (slots.map (Branch.plant target r))

@[simp] theorem Subtree.subst_node (id : NodeId) (data : Node) (slots : List (Branch Subtree)) :
    (node id data slots).subst target r =
      node id data (slots.map fun b => (b.map (subst target r)).plant target r) := by
  rw [subst, fold_node, List.map_map]
  rfl

/-- The root of the tree stays. -/
@[simp] theorem Subtree.id_subst (t : Subtree) : (t.subst target r).id = t.id := by
  cases t
  rw [subst_node]
  rfl

end

/-! ## Kinds and data -/

/-- The slot without its contents. -/
def Child.cleared : Child → Child
  | .one _ => .one .invalid
  | .optional _ => .optional none
  | .list _ => .list .empty

/-- The kind and the data of a node, without its children. -/
def Node.data (n : Node) : Node := n.withSlots (n.slots.map Child.cleared)

/-- Both slots hold children in the same way. -/
inductive Child.Similar : Child → Child → Prop
  | one (c d : NodeId) : Similar (.one c) (.one d)
  | optional (c d : Option NodeId) : Similar (.optional c) (.optional d)
  | list (r s : NodeRange) : Similar (.list r) (.list s)

theorem Child.Similar.refl : (c : Child) → c.Similar c
  | .one _ => .one ..
  | .optional _ => .optional ..
  | .list _ => .list ..

/-- Similar contents are put into the slots, and change neither kind nor data. -/
theorem Node.slots_data_withSlots {n : Node} {cs : List Child}
    (h : List.Forall₂ Child.Similar n.slots cs) :
    (n.withSlots cs).slots = cs ∧ (n.withSlots cs).data = n.data := by
  cases n <;> simp only [slots, fields, List.map_cons, List.map_nil] at h
  all_goals
    repeat' rcases h with _ | ⟨⟨⟩, h⟩
    all_goals exact ⟨rfl, rfl⟩

/-! ## What nodes stand for -/

namespace Arena

variable {a b : Arena} {x : NodeId} {t u : Subtree}

/-- What a slot holds, when `g` is what each node stands for. -/
def branch {τ : Type} (a : Arena) (g : NodeId → τ) : Child → Branch τ
  | .one c => .one (g c)
  | .optional c => .optional (c.map g)
  | .list r => .list ((a.list r).map g)

/-- A child list is all in storage. -/
def Stores (a : Arena) (s : Child) : Prop := ∀ r, s = .list r → r.start + r.len ≤ a.lists.size

/-- The child lists of all nodes are in storage. -/
def Stored (a : Arena) : Prop := ∀ id n, a.node? id = some n → ∀ s ∈ n.slots, a.Stores s

/-- The node stands for the tree. -/
inductive Spells (a : Arena) : NodeId → Subtree → Prop
  | node {id : NodeId} {n : Node} (g : NodeId → Subtree) : a.node? id = some n →
      (∀ s ∈ n.slots, a.Stores s) → (∀ c ∈ a.childrenOf n, Spells a c (g c)) →
      Spells a id (.node id n.data (n.slots.map (a.branch g)))

section
variable {τ σ : Type} {f g : NodeId → τ} {s : Child}

theorem map_branch (h : τ → σ) : (a.branch g s).map h = a.branch (h ∘ g) s := by
  cases s <;> simp [branch, Branch.map]

theorem branch_congr (h : ∀ c ∈ a.ofSlot s, f c = g c) : a.branch f s = a.branch g s := by
  cases s with
  | one c => rw [branch, branch, h c (List.mem_singleton_self c)]
  | optional c =>
    cases c with
    | none => rfl
    | some c => rw [branch, branch, Option.map_some, Option.map_some, h c (by simp [ofSlot])]
  | list r => exact congrArg Branch.list (List.map_congr_left h)

theorem Extends.stores (hab : a.Extends b) (h : a.Stores s) : b.Stores s :=
  fun r hr => Nat.le_trans (h r hr) hab.size

theorem Extends.ofSlot_eq (hab : a.Extends b) (h : a.Stores s) : b.ofSlot s = a.ofSlot s := by
  cases s with
  | one c => rfl
  | optional c => rfl
  | list r => exact hab.list r (h r rfl)

theorem Extends.childrenOf_eq {n : Node} (hab : a.Extends b) (h : ∀ s ∈ n.slots, a.Stores s) :
    b.childrenOf n = a.childrenOf n := by
  rw [Arena.childrenOf, Arena.childrenOf, List.flatMap_def, List.flatMap_def,
    List.map_congr_left fun s hs => hab.ofSlot_eq (h s hs)]

theorem Extends.branch_eq (hab : a.Extends b) (h : a.Stores s) : b.branch g s = a.branch g s := by
  cases s with
  | one c => rfl
  | optional c => rfl
  | list r => rw [branch, branch, hab.list r (h r rfl)]

end

theorem mem_childrenOf {n : Node} {s : Child} {c : NodeId} (hs : s ∈ n.slots)
    (hc : c ∈ a.ofSlot s) : c ∈ a.childrenOf n :=
  List.mem_flatMap.2 ⟨s, hs, hc⟩

theorem Spells.id_eq (h : a.Spells x t) : t.id = x := by
  cases h
  rfl

theorem Spells.knows (h : a.Spells x t) : a.Knows x := by
  cases h with
  | node g hn => exact knows_iff.2 ⟨_, hn⟩

/-- A node stands for one tree only. -/
theorem Spells.unique (h : a.Spells x t) (h' : a.Spells x u) : t = u := by
  induction h generalizing u with
  | @node id n g hn _ _ ih =>
    cases h' with
    | @node _ m g' hm _ hc =>
      obtain rfl : n = m := Option.some.inj (hn.symm.trans hm)
      congr 1
      refine List.map_congr_left fun s hs => branch_congr fun c hmem => ?_
      have hchild := mem_childrenOf hs hmem
      exact ih c hchild (hc c hchild)

/-- A node stands for the same tree ever after. -/
theorem Spells.mono (h : a.Spells x t) (hab : a.Extends b) : b.Spells x t := by
  induction h with
  | @node id n g hn hstored _ ih =>
    have hslots : n.slots.map (a.branch g) = n.slots.map (b.branch g) :=
      List.map_congr_left fun s hs => (hab.branch_eq (hstored s hs)).symm
    rw [hslots]
    refine .node g (hab.node? id n hn) (fun s hs => hab.stores (hstored s hs)) fun c hc => ?_
    rw [hab.childrenOf_eq hstored] at hc
    exact ih c hc

/-- A node stands for a tree if its children do. -/
theorem exists_spells_of_children {n : Node} (hn : a.node? x = some n)
    (hstored : ∀ s ∈ n.slots, a.Stores s) (hc : ∀ c ∈ a.childrenOf n, ∃ t, a.Spells c t) :
    ∃ g : NodeId → Subtree, (∀ c ∈ a.childrenOf n, a.Spells c (g c)) ∧
      a.Spells x (.node x n.data (n.slots.map (a.branch g))) := by
  classical
  have hg : ∀ c, ∃ t, c ∈ a.childrenOf n → a.Spells c t := by
    intro c
    by_cases hmem : c ∈ a.childrenOf n
    · obtain ⟨t, ht⟩ := hc c hmem
      exact ⟨t, fun _ => ht⟩
    · exact ⟨.node x n [], fun h => absurd h hmem⟩
  choose g hg using hg
  exact ⟨g, hg, .node g hn hstored hg⟩

/-- **Every node stands for a tree**, if what the arena refers to is in it and no node is below
    itself. -/
theorem exists_spells (hclosed : a.Closed) (hstored : a.Stored) (hac : a.Acyclic)
    (hx : a.Knows x) : ∃ t, a.Spells x t := by
  obtain ⟨rank, hrank⟩ := hac
  induction hk : rank x using Nat.strongRecOn generalizing x with
  | _ k ih =>
    subst hk
    obtain ⟨n, hn⟩ := knows_iff.1 hx
    have hchildren : ∀ c ∈ a.childrenOf n, ∃ t, a.Spells c t := by
      intro c hc
      rw [← children_eq hn] at hc
      obtain ⟨m, hm⟩ := Option.isSome_iff_exists.1 (hclosed x c hc)
      exact ih (rank c) (hrank x c hc) (knows_iff.2 ⟨m, hm⟩) rfl
    obtain ⟨g, -, hg⟩ := exists_spells_of_children hn (hstored x n hn) hchildren
    exact ⟨_, hg⟩

/-! ## Where a node does not occur -/

/-- Where `target` is not in a slot, nothing is put in its place. -/
theorem plant_branch {g : NodeId → Subtree} {s : Child} {target : NodeId} {r : Option Subtree}
    (h : ∀ c ∈ a.ofSlot s, (g c).id ≠ target) :
    (a.branch g s).plant target r = a.branch g s := by
  cases s with
  | one c => rw [branch, Branch.plant, if_neg (h c (List.mem_singleton_self c))]
  | optional c =>
    cases c with
    | none => rfl
    | some c =>
      rw [branch, Option.map_some, Branch.plant, Option.bind_some, if_neg (h c (by simp [ofSlot]))]
  | list r =>
    rw [branch, Branch.plant, List.flatMap_map, List.map_eq_flatMap]
    exact congrArg Branch.list (List.flatMap_congr fun c hc => if_neg (h c hc))

/-- A tree in which `target` does not occur stays as it is. -/
theorem Spells.subst_eq {target : NodeId} {r : Option Subtree} (h : a.Spells x t)
    (hx : ∀ c ∈ a.children x, ¬a.Reaches c target) : t.subst target r = t := by
  induction h with
  | @node id n g hn hstored hc ih =>
    rw [children_eq hn] at hx
    rw [Subtree.subst_node, List.map_map]
    congr 1
    refine List.map_congr_left fun s hs => ?_
    have hsame : (a.branch g s).map (Subtree.subst target r) = a.branch g s := by
      rw [map_branch]
      refine branch_congr fun c hmem => ?_
      have hchild := mem_childrenOf hs hmem
      refine ih c hchild fun d hd hreach => hx c hchild ?_
      exact ((reaches_self a c).child hd).trans hreach
    rw [Function.comp_apply, hsame]
    refine plant_branch fun c hmem heq => ?_
    have hchild := mem_childrenOf hs hmem
    rw [(hc c hchild).id_eq] at heq
    subst heq
    exact hx c hchild (reaches_self a c)

end Arena

end Arbor
