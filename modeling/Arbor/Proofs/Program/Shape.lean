/-
  Tree-shaped programs.

  In a tree-shaped program each node is reached from the root on one path.  The nodes are
  then the root and the children of the nodes, each of them once (`preorder_perm`), so the
  parent of a child is the node that has it, and a name that the child uses is looked for
  in its parent first and then where the parent would look for it.

  Main statements: `TreeShaped.parent?_child` and `TreeShaped.resolve_child`.
-/
import Arbor.Program.Resolution
import Mathlib.Data.List.Nodup
import Mathlib.Data.List.Pairwise
import Mathlib.Data.List.Perm.Basic

namespace Arbor

/-- The nodes below several nodes, in pre-order. -/
abbrev Arena.preorders (a : Arena) (xs : List NodeId) : List NodeId := xs.flatMap a.preorder

/-! ## Parents -/

namespace Tree

variable {a : Arena}

theorem get?_adopt (m : NodeMap NodeId) (id c : NodeId) :
    (adopt a m id).get? c = (m.get? c).or (if c ∈ a.children id then some id else none) := by
  unfold adopt
  induction a.children id generalizing m with
  | nil => simp
  | cons d ds ih =>
    rw [List.foldl_cons, ih]
    by_cases hd : c = d
    · subst hd
      cases hm : m.get? c with
      | none => simp [NodeMap.contains, hm]
      | some q => simp [NodeMap.contains, hm]
    · split
      · simp [hd]
      · simp [hd, Ne.symm hd]

/-- A node keeps the first parent that it is given. -/
theorem get?_foldl_adopt (ids : List NodeId) (m : NodeMap NodeId) (c : NodeId) :
    (ids.foldl (adopt a) m).get? c = (m.get? c).or (ids.find? fun id => c ∈ a.children id) := by
  induction ids generalizing m with
  | nil => simp
  | cons id ids ih =>
    rw [List.foldl_cons, ih, get?_adopt, Option.or_assoc, List.find?_cons]
    by_cases hc : c ∈ a.children id
    · simp [hc]
    · simp [hc]

/-- The parent of a node is the first node that has it as a child. -/
theorem parent?_ofRoots_eq {root : NodeId} {detached : List NodeId} (c : NodeId) :
    (ofRoots a root detached).parent? c =
      (a.preorders (root :: detached)).find? fun id => c ∈ a.children id := by
  have below (ids : List NodeId) (m : NodeMap NodeId) : (ids.foldl (adoptBelow a) m).get? c =
      (m.get? c).or ((a.preorders ids).find? fun id => c ∈ a.children id) := by
    induction ids generalizing m with
    | nil => simp
    | cons id ids ih =>
      dsimp only [Arena.preorders]
      rw [List.foldl_cons, ih, adoptBelow, get?_foldl_adopt, List.flatMap_cons, List.find?_append,
        Option.or_assoc]
  exact (below (root :: detached) .empty).trans (by rw [NodeMap.get?_empty, Option.none_or])

/-- Detached trees do not change a parent. -/
theorem parent?_ofRoots {root : NodeId} {detached : List NodeId} {c x : NodeId}
    (h : (a.preorder root).find? (fun id => c ∈ a.children id) = some x) :
    (ofRoots a root detached).parent? c = some x := by
  rw [parent?_ofRoots_eq, Arena.preorders, List.flatMap_cons, List.find?_append, h, Option.some_or]

end Tree

/-! ## Nodes and children -/

namespace Arena

variable {a : Arena}

/-- What is below a root is the root and the children of what is below it. -/
theorem preorder_perm (h : a.Acyclic) (root : NodeId) :
    (a.preorder root).Perm (root :: (a.preorder root).flatMap a.children) := by
  obtain ⟨rank, hrank⟩ := h
  -- Induction on the rank, which falls from the root to its children.
  induction hn : rank root using Nat.strongRecOn generalizing root with
  | _ n ih =>
    subst hn
    have below : ((a.children root).flatMap a.preorder).Perm
        (a.children root ++ ((a.children root).flatMap a.preorder).flatMap a.children) := by
      have hchildren : ((a.children root).flatMap a.preorder).Perm
          ((a.children root).flatMap fun c => [c] ++ (a.preorder c).flatMap a.children) :=
        List.Perm.flatMap_left _ fun c hc => ih (rank c) (hrank root c hc) c rfl
      refine hchildren.trans ((List.flatMap_append_perm _ _ _).symm.trans ?_)
      rw [List.flatMap_singleton', List.flatMap_assoc]
    rw [preorder_eq ⟨rank, hrank⟩]
    refine List.Perm.cons _ ?_
    rw [List.flatMap_cons]
    exact below

theorem mem_preorder_self (h : a.Acyclic) (root : NodeId) : root ∈ a.preorder root := by
  rw [preorder_eq h]
  exact List.mem_cons_self

theorem mem_preorder_child (h : a.Acyclic) {root x c : NodeId} (hx : x ∈ a.preorder root)
    (hc : c ∈ a.children x) : c ∈ a.preorder root :=
  (preorder_perm h root).mem_iff.2 (List.mem_cons_of_mem _ (List.mem_flatMap.2 ⟨x, hx, hc⟩))

/-- If no node comes twice in a pre-order, none is a child twice. -/
theorem nodup_flatMap_children (h : a.Acyclic) {root : NodeId} (honce : (a.preorder root).Nodup) :
    ((a.preorder root).flatMap a.children).Nodup :=
  (List.nodup_cons.1 ((preorder_perm h root).nodup_iff.1 honce)).2

/-- If no node comes twice in a pre-order, no two nodes of it have a child in common. -/
theorem eq_of_mem_children (h : a.Acyclic) {root x y c : NodeId}
    (honce : (a.preorder root).Nodup) (hx : x ∈ a.preorder root) (hy : y ∈ a.preorder root)
    (hcx : c ∈ a.children x) (hcy : c ∈ a.children y) : x = y := by
  by_contra hne
  have hpair := (List.nodup_flatMap.1 (nodup_flatMap_children h honce)).2
  have : Std.Symm (Function.onFun List.Disjoint a.children) :=
    ⟨fun _ _ => List.disjoint_symm⟩
  exact hpair.forall hx hy hne hcx hcy

end Arena

namespace Program

/-! ## What names stand for -/

section
variable {p : Program} {n : Name} {d : Definition}

/-- What a list shows by a name is a definition in the list. -/
theorem named_of_firstNamed {lists : List NodeRange} (h : p.firstNamed n lists = some d) :
    ∃ id ∈ lists.flatMap p.arena.list, p.definitionNamed n id = some d := by
  rw [firstNamed_eq] at h
  exact List.exists_of_findSome?_eq_some h

/-- What a block shows to a child is a definition before the child, or the child itself
    if that is a function or structure. -/
theorem named_of_visibleInBlock {statements : NodeRange} {child : NodeId}
    (h : p.visibleInBlock statements child n = some d) :
    (∃ k id, (p.arena.list statements)[k]? = some child ∧ id ∈ (p.arena.list statements).take k ∧
      p.definitionNamed n id = some d) ∨
    p.namesItself child = true ∧ p.definitionNamed n child = some d := by
  rw [visibleInBlock_eq] at h
  split at h
  · cases h
  · next k hk =>
    have hchild : (p.arena.list statements)[k]? = some child := by
      obtain ⟨hlt, heq, -⟩ := List.idxOf?_eq_some_iff.1 hk
      rw [List.getElem?_eq_getElem hlt, heq]
    split at h
    · next d' hd =>
      cases h
      obtain ⟨id, hid, hn⟩ := List.exists_of_findSome?_eq_some hd
      exact .inl ⟨k, id, hchild, List.mem_reverse.1 hid, hn⟩
    · split at h
      · next hself => exact .inr ⟨hself, h⟩
      · cases h

theorem classify_of_definitionNamed {id : NodeId} (h : p.definitionNamed n id = some d) :
    p.classify id = some d := by
  unfold definitionNamed at h
  split at h
  · next hd =>
    split at h
    · cases h
      exact hd
    · cases h
  · cases h

/-- A node that defines a named value is one. -/
theorem bind_of_classify {id b : NodeId} (h : p.classify id = some (.bind b)) :
    id = b ∧ ∃ ns type value, p.node? b = some (.bind ns type value) := by
  unfold classify at h
  split at h
  · next ns type value hn => cases h; exact ⟨rfl, ns, type, value, hn⟩
  all_goals cases h

theorem function_of_classify {id f : NodeId} (h : p.classify id = some (.function f)) :
    id = f ∧ ∃ ns vs is output body, p.node? f = some (.functionDefinition ns vs is output body) := by
  unfold classify at h
  split at h
  · cases h
  · next ns vs is output body hn => cases h; exact ⟨rfl, ns, vs, is, output, body, hn⟩
  all_goals cases h

/-- What a name stands for is a definition with the name, or it is borrowed. -/
theorem named_of_resolve {x : NodeId} (h : p.resolve n x = some d) :
    (∃ id, p.definitionNamed n id = some d) ∨ p.borrowed n = some d := by
  unfold resolve at h
  generalize p.tree.ancestors x = above at h
  induction above generalizing x with
  | nil => cases h
  | cons scope above ih =>
    unfold resolveAlong at h
    split at h
    · next d' hd =>
      cases h
      unfold definitionInScope at hd
      split at hd
      · rcases named_of_visibleInBlock hd with ⟨_, id, -, -, hid⟩ | ⟨-, hid⟩
        · exact .inl ⟨id, hid⟩
        · exact .inl ⟨x, hid⟩
      · obtain ⟨id, -, hid⟩ := named_of_firstNamed hd
        exact .inl ⟨id, hid⟩
      · obtain ⟨id, -, hid⟩ := named_of_firstNamed hd
        exact .inl ⟨id, hid⟩
      · split at hd
        · exact .inr hd
        · cases hd
      · cases hd
    · exact ih h

/-- A name that stands for a named value stands for the node of one. -/
theorem bind_of_resolve {x b : NodeId} (h : p.resolve n x = some (.bind b)) :
    ∃ ns type value, p.node? b = some (.bind ns type value) := by
  rcases named_of_resolve h with ⟨id, hid⟩ | hb
  · exact (bind_of_classify (classify_of_definitionNamed hid)).2
  · unfold borrowed at hb
    split at hb
    all_goals cases hb

/-- A name that stands for a function stands for the node of one. -/
theorem function_of_resolve {x f : NodeId} (h : p.resolve n x = some (.function f)) :
    ∃ ns vs is output body, p.node? f = some (.functionDefinition ns vs is output body) := by
  rcases named_of_resolve h with ⟨id, hid⟩ | hb
  · exact (function_of_classify (classify_of_definitionNamed hid)).2
  · unfold borrowed at hb
    split at hb
    all_goals cases hb

end

/-! ## Tree-shaped programs -/

/-- Each node of the program is reached from the root on one path, and nothing is around
    the root. -/
structure TreeShaped (p : Program) : Prop where
  acyclic : p.arena.Acyclic
  tree : ∃ detached, p.tree = .ofRoots p.arena p.root detached
  once : p.tree.nodes.Nodup
  top : p.tree.parent? p.root = none

namespace TreeShaped

variable {p : Program} (h : p.TreeShaped)
include h

theorem nodes_eq : p.tree.nodes = p.arena.preorder p.root := by
  obtain ⟨detached, ht⟩ := h.tree
  rw [ht]
  rfl

theorem root_mem : p.root ∈ p.tree.nodes := by
  rw [h.nodes_eq]
  exact Arena.mem_preorder_self h.acyclic p.root

theorem child_mem {x c : NodeId} (hx : x ∈ p.tree.nodes) (hc : c ∈ p.arena.children x) :
    c ∈ p.tree.nodes := by
  rw [h.nodes_eq] at hx ⊢
  exact Arena.mem_preorder_child h.acyclic hx hc

theorem nodup_flatMap_children : (p.tree.nodes.flatMap p.arena.children).Nodup := by
  have honce := h.once
  rw [h.nodes_eq] at honce ⊢
  exact Arena.nodup_flatMap_children h.acyclic honce

theorem nodup_children {x : NodeId} (hx : x ∈ p.tree.nodes) : (p.arena.children x).Nodup :=
  (List.nodup_flatMap.1 h.nodup_flatMap_children).1 x hx

/-- Two nodes of the program have no child in common. -/
theorem eq_of_mem_children {x y c : NodeId} (hx : x ∈ p.tree.nodes) (hy : y ∈ p.tree.nodes)
    (hcx : c ∈ p.arena.children x) (hcy : c ∈ p.arena.children y) : x = y := by
  have honce := h.once
  rw [h.nodes_eq] at honce hx hy
  exact Arena.eq_of_mem_children h.acyclic honce hx hy hcx hcy

/-- The parent of a child is the node that has it. -/
theorem parent?_child {x c : NodeId} (hx : x ∈ p.tree.nodes) (hc : c ∈ p.arena.children x) :
    p.tree.parent? c = some x := by
  obtain ⟨detached, ht⟩ := h.tree
  rw [ht]
  refine Tree.parent?_ofRoots ?_
  rw [← h.nodes_eq]
  have hsome : (p.tree.nodes.find? fun id => c ∈ p.arena.children id).isSome :=
    List.find?_isSome.2 ⟨x, hx, by simpa using hc⟩
  obtain ⟨y, hy⟩ := Option.isSome_iff_exists.1 hsome
  have hcy : c ∈ p.arena.children y := by simpa using List.find?_some hy
  rw [hy, h.eq_of_mem_children (List.mem_of_find?_eq_some hy) hx hcy hc]

theorem ancestors_eq (x : NodeId) :
    p.tree.ancestors x =
      match p.tree.parent? x with
      | none => []
      | some q => q :: p.tree.ancestors q := by
  obtain ⟨detached, ht⟩ := h.tree
  rw [ht]
  exact Tree.ancestors_ofRoots h.acyclic p.root detached x

theorem ancestors_root : p.tree.ancestors p.root = [] := by
  rw [h.ancestors_eq, h.top]

theorem ancestors_child {x c : NodeId} (hx : x ∈ p.tree.nodes) (hc : c ∈ p.arena.children x) :
    p.tree.ancestors c = x :: p.tree.ancestors x := by
  rw [h.ancestors_eq, h.parent?_child hx hc]

/-! ## Names -/

theorem resolve_root (n : Name) : p.resolve n p.root = none := by
  rw [resolve, h.ancestors_root]
  rfl

/-- A name that a child uses is looked for in its parent first. -/
theorem resolve_child {x c : NodeId} (hx : x ∈ p.tree.nodes) (hc : c ∈ p.arena.children x)
    (n : Name) :
    p.resolve n c = (p.definitionInScope x c n).or (p.resolve n x) := by
  rw [resolve, h.ancestors_child hx hc, resolveAlong]
  cases p.definitionInScope x c n with
  | none => rfl
  | some d => rfl

end TreeShaped

end Program

end Arbor
