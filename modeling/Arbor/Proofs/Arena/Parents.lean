/-
  Parents and ancestors in one version.

  A node may be the child of several nodes, and of the same node several times, so what is
  below a root is a directed graph without cycles.  Read from the root it unfolds into a
  finite tree in which a node stands once for each path to it.

  * `Arena.Path a x n y`: `n` children after each other lead from `x` down to `y`, and
    `Arena.Reaches` leaves the length open;
  * `Unfolding` and `Arena.Unfolds`: the tree into which a node unfolds;
  * `Tree.Walks`: the walk with a stack that lists the nodes and gives them parents;
  * `Tree.Upward`: what the upward questions are answered by.

  Main statements: `Tree.walks_iff`, the walk ends with the pre-order; `Tree.upward_ofRoots`,
  the parent of a node is the first node of the version that has it as a child, whatever
  detached trees are read with it, and so all ancestors are found.
-/
import Arbor.Proofs.Program.Shape
import Mathlib.Data.List.Chain
import Mathlib.Data.List.Forall2

namespace Arbor

namespace Arena

/-! ## Paths -/

/-- A path of `n` steps from a node down to a child. -/
inductive Path (a : Arena) (x : NodeId) : Nat → NodeId → Prop
  | here : Path a x 0 x
  | child {n : Nat} {y c : NodeId} : Path a x n y → c ∈ a.children y → Path a x (n + 1) c

/-- The node is `root`, or it is below. -/
def Reaches (a : Arena) (root x : NodeId) : Prop := ∃ n, a.Path root n x

section
variable {a : Arena} {root x y c : NodeId}

theorem reaches_self (a : Arena) (root : NodeId) : a.Reaches root root := ⟨0, .here⟩

theorem Reaches.child (h : a.Reaches root y) (hc : c ∈ a.children y) : a.Reaches root c := by
  obtain ⟨n, hn⟩ := h
  exact ⟨n + 1, hn.child hc⟩

theorem Reaches.trans (h : a.Reaches root x) (h' : a.Reaches x y) : a.Reaches root y := by
  obtain ⟨n, hn⟩ := h'
  induction hn with
  | here => exact h
  | child _ hc ih => exact ih.child hc

/-- The nodes of the pre-order are those that a path leads to. -/
theorem mem_preorder_iff (h : a.Acyclic) : x ∈ a.preorder root ↔ a.Reaches root x := by
  constructor
  · obtain ⟨rank, hrank⟩ := h
    induction hn : rank root using Nat.strongRecOn generalizing root with
    | _ n ih =>
      subst hn
      intro hx
      rw [preorder_eq ⟨rank, hrank⟩] at hx
      rcases List.mem_cons.1 hx with rfl | hx
      · exact reaches_self a x
      · obtain ⟨c, hc, hx⟩ := List.mem_flatMap.1 hx
        exact ((reaches_self a root).child hc).trans (ih (rank c) (hrank root c hc) rfl hx)
  · rintro ⟨n, hn⟩
    induction hn with
    | here => exact mem_preorder_self h root
    | child _ hc ih => exact mem_preorder_child h ih hc

/-- On the way down the rank falls. -/
theorem Path.rank_le {rank : NodeId → Nat} (hrank : ∀ id, ∀ c ∈ a.children id, rank c < rank id)
    {n : Nat} (h : a.Path x n y) : rank y + n ≤ rank x := by
  induction h with
  | here => exact Nat.le_refl _
  | child _ hc ih =>
    have := hrank _ _ hc
    omega

/-- A node that is reached, apart from the root, is a child of a node that is reached. -/
theorem Reaches.exists_parent (h : a.Reaches root x) (hne : x ≠ root) :
    ∃ y, a.Reaches root y ∧ x ∈ a.children y := by
  obtain ⟨n, hn⟩ := h
  cases hn with
  | here => exact absurd rfl hne
  | child hy hc => exact ⟨_, ⟨_, hy⟩, hc⟩

end

end Arena

/-! ## Unfoldings -/

/-- A finite tree of nodes. -/
inductive Unfolding where
  | node (id : NodeId) (below : List Unfolding)

namespace Unfolding

mutual

/-- The nodes of the tree, each before those below it. -/
def preorder : Unfolding → List NodeId
  | node id below => id :: preorderAll below

/-- The nodes of several trees one after another. -/
def preorderAll : List Unfolding → List NodeId
  | [] => []
  | t :: ts => t.preorder ++ preorderAll ts

end

end Unfolding

namespace Arena

/-- The node unfolds into the tree: itself over the trees of its children in their order. -/
inductive Unfolds (a : Arena) : NodeId → Unfolding → Prop
  | node {id : NodeId} {below : List Unfolding} :
      List.Forall₂ (Unfolds a) (a.children id) below → Unfolds a id (.node id below)

section
variable {a : Arena} {id : NodeId} {t u : Unfolding}

/-- In an acyclic arena every node unfolds into a finite tree. -/
theorem exists_unfolds (h : a.Acyclic) (id : NodeId) : ∃ t, a.Unfolds id t := by
  obtain ⟨rank, hrank⟩ := h
  induction hn : rank id using Nat.strongRecOn generalizing id with
  | _ n ih =>
    subst hn
    have below : ∃ ts, List.Forall₂ a.Unfolds (a.children id) ts := by
      have hchildren := hrank id
      generalize a.children id = cs at hchildren
      induction cs with
      | nil => exact ⟨[], .nil⟩
      | cons c cs ihs =>
        obtain ⟨t, ht⟩ := ih (rank c) (hchildren c List.mem_cons_self) c rfl
        obtain ⟨ts, hts⟩ := ihs fun d hd => hchildren d (List.mem_cons_of_mem _ hd)
        exact ⟨t :: ts, .cons ht hts⟩
    obtain ⟨ts, hts⟩ := below
    exact ⟨.node id ts, .node hts⟩

/-- The nodes of the tree are the pre-order, and there is one tree only. -/
theorem Unfolds.preorder_eq (h : a.Acyclic) (ht : a.Unfolds id t) :
    t.preorder = a.preorder id ∧ ∀ u, a.Unfolds id u → u = t := by
  obtain ⟨rank, hrank⟩ := h
  induction hn : rank id using Nat.strongRecOn generalizing id t with
  | _ n ih =>
    subst hn
    cases ht with
    | @node _ ts hts =>
      have hchildren := hrank id
      have below : Unfolding.preorderAll ts = (a.children id).flatMap a.preorder ∧
          ∀ us, List.Forall₂ a.Unfolds (a.children id) us → us = ts := by
        generalize a.children id = cs at hchildren hts
        induction hts with
        | nil => exact ⟨rfl, fun us hus => by cases hus; rfl⟩
        | @cons c t cs ts ht _ ihs =>
          obtain ⟨hfirst, hfirst'⟩ := ih (rank c) (hchildren c List.mem_cons_self) ht rfl
          obtain ⟨hrest, hrest'⟩ := ihs fun d hd => hchildren d (List.mem_cons_of_mem _ hd)
          refine ⟨?_, fun us hus => ?_⟩
          · rw [Unfolding.preorderAll, hfirst, hrest, List.flatMap_cons]
          · cases hus with
            | cons hu hus => rw [hfirst' _ hu, hrest' _ hus]
      refine ⟨?_, fun u hu => ?_⟩
      · rw [Unfolding.preorder, below.1, Arena.preorder_eq ⟨rank, hrank⟩]
      · cases hu with
        | node hus => rw [below.2 _ hus]

end

end Arena

/-! ## Walks with a stack -/

namespace Tree

variable {a : Arena} {root : NodeId} {detached : List NodeId} {x y c : NodeId}

/-- A walk takes the top of a stack of nodes, lists it, makes it a parent and puts its
    children in its place, until the stack is empty. -/
inductive Walks (a : Arena) :
    List NodeId → NodeMap NodeId → List NodeId → NodeMap NodeId → Prop
  | done {m : NodeMap NodeId} : Walks a [] m [] m
  | turn {id : NodeId} {pending order : List NodeId} {m m' : NodeMap NodeId} :
      Walks a (a.children id ++ pending) (adopt a m id) order m' →
        Walks a (id :: pending) m (id :: order) m'

theorem Walks.unique {pending order order' : List NodeId} {m m₁ m₂ : NodeMap NodeId}
    (h : Walks a pending m order m₁) (h' : Walks a pending m order' m₂) :
    order = order' ∧ m₁ = m₂ := by
  induction h generalizing order' m₂ with
  | done => cases h'; exact ⟨rfl, rfl⟩
  | turn _ ih =>
    cases h' with
    | turn h' =>
      obtain ⟨rfl, rfl⟩ := ih h'
      exact ⟨rfl, rfl⟩

/-- A walk is over with a node when it has listed what is below. -/
theorem walks_below (h : a.Acyclic) {id : NodeId} {pending order : List NodeId}
    {m m' : NodeMap NodeId} (hrest : Walks a pending (adoptBelow a m id) order m') :
    Walks a (id :: pending) m (a.preorder id ++ order) m' := by
  obtain ⟨rank, hrank⟩ := h
  induction hn : rank id using Nat.strongRecOn generalizing id pending order m with
  | _ n ih =>
    subst hn
    have hchildren := hrank id
    rw [adoptBelow, Arena.preorder_eq ⟨rank, hrank⟩, List.foldl_cons] at hrest
    rw [Arena.preorder_eq ⟨rank, hrank⟩, List.cons_append]
    refine .turn ?_
    generalize adopt a m id = m at hrest
    generalize a.children id = cs at hchildren hrest
    induction cs generalizing m with
    | nil => exact hrest
    | cons c cs ihs =>
      rw [List.flatMap_cons, List.foldl_append] at hrest
      rw [List.flatMap_cons, List.append_assoc]
      exact ih (rank c) (hchildren c List.mem_cons_self)
        (ihs _ (fun d hd => hchildren d (List.mem_cons_of_mem _ hd)) hrest) rfl

/-- **The walk ends**, with the pre-order of its root and the parents that it gives. -/
theorem walks_iff (h : a.Acyclic) {m m' : NodeMap NodeId} {order : List NodeId} :
    Walks a [root] m order m' ↔ order = a.preorder root ∧ m' = adoptBelow a m root := by
  have hwalk : Walks a [root] m (a.preorder root ++ []) (adoptBelow a m root) :=
    walks_below h .done
  rw [List.append_nil] at hwalk
  constructor
  · exact fun h' => h'.unique hwalk
  · rintro ⟨rfl, rfl⟩
    exact hwalk

/-! ## Upward questions -/

/-- What a tree with the root, read from an arena together with detached trees, says about
    the nodes. -/
structure Upward (t : Tree) (a : Arena) (root : NodeId) (detached : List NodeId) : Prop where
  /-- The nodes are those of the tree into which the root unfolds, as a walk lists them. -/
  nodes : (∃ u, a.Unfolds root u ∧ (∀ v, a.Unfolds root v → v = u) ∧ t.nodes = u.preorder) ∧
    ∃ m, Walks a [root] .empty t.nodes m
  /-- The tree contains what the root reaches. -/
  contains : ∀ x, t.contains x = true ↔ a.Reaches root x
  /-- The parent of a node is the first that has it as a child. -/
  parent : ∀ x, a.Reaches root x → x ≠ root → ∃ before q after,
    t.nodes = before ++ q :: after ∧ x ∈ a.children q ∧ (∀ y ∈ before, x ∉ a.children y) ∧
      t.parent? x = some q ∧ (ofRoots a root []).parent? x = some q
  /-- The ancestors are the whole chain of parents. -/
  chain : ∀ x, t.ancestors x = match t.parent? x with
    | none => []
    | some q => q :: t.ancestors q
  /-- No node comes twice among a node and its ancestors. -/
  finite : ∀ x, (x :: t.ancestors x).Nodup
  /-- If children were allocated before their parents, the ids rise. -/
  rising : (∀ id, ∀ c ∈ a.children id, c.raw < id.raw) →
    ∀ x, (x :: t.ancestors x).Pairwise fun y z => y.raw < z.raw
  /-- The root is above everything that it reaches. -/
  top : ∀ x, a.Reaches root x → x ≠ root → root ∈ t.ancestors x
  /-- In a tree around which there is nothing, parents and children are inverse. -/
  inverse : t.nodes.Nodup → (∀ d ∈ detached, a.Reaches d root → d = root) →
    t.parent? root = none ∧
      ∀ q x, a.Reaches root q → a.Reaches root x → (t.parent? x = some q ↔ x ∈ a.children q)
  /-- In such a tree the depth of a node is the length of the path to it. -/
  depth : t.nodes.Nodup → (∀ d ∈ detached, a.Reaches d root → d = root) →
    ∀ n x, a.Path root n x → t.depth x = n

/-- The first node of the version that has a node as a child. -/
theorem exists_first (h : a.Acyclic) (hx : a.Reaches root x) (hne : x ≠ root) :
    ∃ q, (a.preorder root).find? (fun id => x ∈ a.children id) = some q := by
  obtain ⟨y, hy, hc⟩ := hx.exists_parent hne
  exact Option.isSome_iff_exists.1 <|
    List.find?_isSome.2 ⟨y, (Arena.mem_preorder_iff h).2 hy, by simpa using hc⟩

/-- A parent is reached from the root, or from a detached root. -/
theorem reaches_of_parent? (h : a.Acyclic)
    (hp : (ofRoots a root detached).parent? x = some y) : ∃ d ∈ root :: detached, a.Reaches d y := by
  rw [parent?_ofRoots_eq] at hp
  obtain ⟨d, hd, hy⟩ := List.mem_flatMap.1 (List.mem_of_find?_eq_some hp)
  exact ⟨d, hd, (Arena.mem_preorder_iff h).1 hy⟩

/-- A node with nothing around it has no parent. -/
theorem parent?_root (h : a.Acyclic) (htop : ∀ d ∈ detached, a.Reaches d root → d = root) :
    (ofRoots a root detached).parent? root = none := by
  cases hp : (ofRoots a root detached).parent? root with
  | none => rfl
  | some q =>
    -- The parent would be below the root itself.
    have hc := mem_children_of_parent? hp
    obtain ⟨d, hd, hq⟩ := reaches_of_parent? h hp
    have hroot : d = root := by
      rcases List.mem_cons.1 hd with rfl | hd
      · rfl
      · exact htop d hd (hq.child hc)
    subst hroot
    obtain ⟨rank, hrank⟩ := h
    obtain ⟨n, hn⟩ := hq
    have := hn.rank_le hrank
    have := hrank q d hc
    omega

/-- Along the ancestors every rank rises that falls from parent to child. -/
theorem rank_lt_ancestors {t : Tree} {rank : NodeId → Nat}
    (hup : ∀ c p, t.parent? c = some p → rank c < rank p) (x : NodeId) :
    (x :: t.ancestors x).Pairwise fun y z => rank y < rank z := by
  have hchain (n : Nat) (x : NodeId) :
      (x :: t.chain n x).IsChain fun y z => rank y < rank z := by
    induction n generalizing x with
    | zero => exact .singleton x
    | succ n ih =>
      rw [Tree.chain]
      split
      · exact .singleton x
      · next q hq => exact .cons_cons (hup x q hq) (ih q)
  have : IsTrans NodeId fun y z => rank y < rank z := ⟨fun _ _ _ => Nat.lt_trans⟩
  exact List.isChain_iff_pairwise.1 (hchain t.bound x)

/-- The ancestors of what is reached lead up to the root. -/
theorem root_mem_ancestors (h : a.Acyclic) (hx : a.Reaches root x) (hne : x ≠ root) :
    root ∈ (ofRoots a root detached).ancestors x := by
  -- Induction on the number of ancestors: the parent has one less.
  induction hn : ((ofRoots a root detached).ancestors x).length generalizing x with
  | zero =>
    obtain ⟨q, hq⟩ := exists_first h hx hne
    rw [ancestors_ofRoots h, parent?_ofRoots hq] at hn
    cases hn
  | succ n ih =>
    obtain ⟨q, hq⟩ := exists_first h hx hne
    rw [ancestors_ofRoots h, parent?_ofRoots hq] at hn ⊢
    by_cases hroot : q = root
    · rw [hroot]
      exact List.mem_cons_self
    · have hreach : a.Reaches root q := (Arena.mem_preorder_iff h).1 (List.mem_of_find?_eq_some hq)
      exact List.mem_cons_of_mem _ (ih hreach hroot (Nat.succ.inj hn))

/-- Whoever has the root among its ancestors is below it. -/
theorem reaches_of_mem_ancestors (h : a.Acyclic)
    (hx : y ∈ (ofRoots a root detached).ancestors x) : a.Reaches y x := by
  induction hn : ((ofRoots a root detached).ancestors x).length generalizing x with
  | zero =>
    rw [List.length_eq_zero_iff.1 hn] at hx
    cases hx
  | succ n ih =>
    rw [ancestors_ofRoots h] at hx hn
    split at hx
    · cases hx
    · next q hq =>
      rw [hq] at hn
      have hc := mem_children_of_parent? hq
      rcases List.mem_cons.1 hx with rfl | hx
      · exact (Arena.reaches_self a _).child hc
      · exact (ih hx (Nat.succ.inj hn)).child hc

theorem contains_iff (h : a.Acyclic) :
    (ofRoots a root detached).contains x = true ↔ a.Reaches root x := by
  have hroot : (ofRoots a root detached).root = root := rfl
  simp only [contains, hroot, Bool.or_eq_true, List.any_eq_true, beq_iff_eq]
  constructor
  · rintro (rfl | ⟨q, hq, rfl⟩)
    · exact Arena.reaches_self a x
    · exact reaches_of_mem_ancestors h hq
  · intro hx
    by_cases hne : x = root
    · exact .inl hne
    · exact .inr ⟨root, root_mem_ancestors h hx hne, rfl⟩

/-- In a tree around which there is nothing, a child has its node as parent. -/
theorem parent?_of_mem_children (h : a.Acyclic) (honce : (a.preorder root).Nodup)
    (hy : a.Reaches root y) (hc : c ∈ a.children y) :
    (ofRoots a root detached).parent? c = some y := by
  refine parent?_ofRoots ?_
  rw [← Arena.mem_preorder_iff h] at hy
  obtain ⟨q, hq⟩ := Option.isSome_iff_exists.1 <|
    List.find?_isSome (p := fun id => decide (c ∈ a.children id)) |>.2 ⟨y, hy, by simpa using hc⟩
  have hcq : c ∈ a.children q := by simpa using List.find?_some hq
  rw [hq, Arena.eq_of_mem_children h honce (List.mem_of_find?_eq_some hq) hy hcq hc]

/-- **Upward questions are answered from the version alone**: in an acyclic arena, whatever
    is shared and whatever is detached, a tree says about parents, ancestors and membership
    what the children of the nodes say. -/
theorem upward_ofRoots (h : a.Acyclic) (root : NodeId) (detached : List NodeId) :
    (ofRoots a root detached).Upward a root detached where
  nodes := by
    obtain ⟨u, hu⟩ := Arena.exists_unfolds h root
    obtain ⟨hpre, hone⟩ := hu.preorder_eq h
    exact ⟨⟨u, hu, hone, hpre.symm⟩, _, (walks_iff h).2 ⟨rfl, rfl⟩⟩
  contains _ := contains_iff h
  parent x hx hne := by
    obtain ⟨q, hq⟩ := exists_first h hx hne
    obtain ⟨hxq, before, after, hsplit, hbefore⟩ := List.find?_eq_some_iff_append.1 hq
    exact ⟨before, q, after, hsplit, by simpa using hxq, by simpa using hbefore,
      parent?_ofRoots hq, parent?_ofRoots hq⟩
  chain := ancestors_ofRoots h root detached
  finite x := by
    obtain ⟨rank, hrank⟩ := h
    have hup : ∀ c p, (ofRoots a root detached).parent? c = some p → rank c < rank p :=
      fun c p hp => hrank p c (mem_children_of_parent? hp)
    exact (rank_lt_ancestors hup x).imp fun {y z} hlt he => by
      rw [he] at hlt
      exact Nat.lt_irrefl _ hlt
  rising hlower x :=
    rank_lt_ancestors (fun c p hp => hlower p c (mem_children_of_parent? hp)) x
  top _ hx hne := root_mem_ancestors h hx hne
  inverse honce htop :=
    ⟨parent?_root h htop, fun q x hq _ =>
      ⟨mem_children_of_parent?, fun hc => parent?_of_mem_children h honce hq hc⟩⟩
  depth honce htop n x hn := by
    induction hn with
    | here => rw [depth, ancestors_ofRoots h, parent?_root h htop]; rfl
    | @child n y c hy hc ih =>
      rw [depth, ancestors_ofRoots h, parent?_of_mem_children h honce ⟨n, hy⟩ hc]
      exact congrArg (· + 1) ih

/-! ## Two arenas -/

/-- A block over a literal and a block, which shares the literal. -/
def sharing : Arena :=
  ⟨#[.booleanLiteral true, .block ⟨0, 1⟩, .block ⟨1, 2⟩], #[⟨0⟩, ⟨0⟩, ⟨1⟩]⟩

/-- The shared literal belongs to the outer block, also if the inner one is detached. -/
theorem upward_sharing :
    sharing.Acyclic ∧ (ofRoots sharing ⟨2⟩ [⟨1⟩]).Upward sharing ⟨2⟩ [⟨1⟩] ∧
      (ofRoots sharing ⟨2⟩ [⟨1⟩]).parent? ⟨0⟩ = some ⟨2⟩ := by
  have hacyclic : sharing.Acyclic := Arena.acyclic_of_lt fun id => by
    rcases id with ⟨_ | _ | _ | n⟩
    · decide
    · decide
    · decide
    · simp [Arena.children, Arena.node?, sharing]
  exact ⟨hacyclic, upward_ofRoots hacyclic ⟨2⟩ [⟨1⟩], by decide⟩

/-- Two blocks around a literal, allocated from the outside to the inside. -/
def outermostFirst : Arena :=
  ⟨#[.block ⟨0, 1⟩, .block ⟨1, 1⟩, .booleanLiteral true], #[⟨1⟩, ⟨2⟩]⟩

/-- Where parents were allocated before their children, the ids of ancestors fall. -/
theorem falling_outermostFirst :
    outermostFirst.Closed ∧ outermostFirst.Acyclic ∧
      ¬((ofRoots outermostFirst ⟨0⟩ []).ancestors ⟨2⟩).Pairwise fun y z => y.raw < z.raw := by
  refine ⟨fun id => ?_, ⟨fun id => 2 - id.raw, fun id => ?_⟩, by decide⟩
  · rcases id with ⟨_ | _ | _ | n⟩
    · decide
    · decide
    · decide
    · simp [Arena.children, Arena.node?, outermostFirst]
  · rcases id with ⟨_ | _ | _ | n⟩
    · decide
    · decide
    · decide
    · simp [Arena.children, Arena.node?, outermostFirst]

end Tree

end Arbor
