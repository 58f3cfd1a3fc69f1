/-
  What code has still to come to.

  Code comes to the nodes that its starts are above, and to those that it finishes (`Ahead`).
  The code after that of a node is clear of the node (`Clear`) if it comes to nothing below it.
  Since a program is a tree, what follows the code of a child is clear of the child: the own
  steps of its parent, the codes of its siblings, and what follows the parent.

  Main statements: `ahead_compile` and `Separate.clear_child`.
-/
import Arbor.Proofs.Program.Needs
import Arbor.Proofs.Step.Balance

namespace Arbor

namespace Arena

variable {a : Arena} {root x y z c d : NodeId}

theorem preorder_sublist (ha : a.Acyclic) (hx : x ∈ a.preorder root) :
    (a.preorder x).Sublist (a.preorder root) := by
  refine preorder_induct ha (P := fun x => (a.preorder x).Sublist (a.preorder root)) (.refl _)
    (fun x _ h c hc => .trans ?_ h) x hx
  rw [preorder_eq ha x, List.flatMap_def]
  exact (List.sublist_flatten_of_mem (List.mem_map_of_mem hc)).cons _

/-- What is below one child of a node is not below another, if no node comes twice. -/
theorem disjoint_children (ha : a.Acyclic) (honce : (a.preorder root).Nodup)
    (hx : x ∈ a.preorder root) (hc : c ∈ a.children x) (hd : d ∈ a.children x) (hne : c ≠ d)
    (hz : z ∈ a.preorder c) : z ∉ a.preorder d := by
  have hnodup := (preorder_sublist ha hx).nodup honce
  rw [preorder_eq ha, List.nodup_cons] at hnodup
  have : Std.Symm (Function.onFun List.Disjoint a.preorder) := ⟨fun _ _ => List.disjoint_symm⟩
  exact (List.nodup_flatMap.1 hnodup.2).2.forall hc hd hne hz

/-- A node is not below its children. -/
theorem not_mem_preorder_child (ha : a.Acyclic) (hc : c ∈ a.children x) : x ∉ a.preorder c := by
  obtain ⟨rank, hrank⟩ := ha
  exact fun hx => Nat.not_lt.2 (rank_le_of_mem_preorder hrank hx) (hrank x c hc)

end Arena

namespace Program

variable {p : Program} {code code' : List Step} {x z c : NodeId} {s : Step}

/-! ## What is ahead -/

/-- Running the code may come to the node: the code starts at the node or above it, or it
    finishes the node. -/
def Ahead (p : Program) (code : List Step) (x : NodeId) : Prop :=
  ∃ s ∈ code, s.kind = .finish ∧ x = s.node ∨
    (s.kind = .start ∨ s.kind = .startFinish) ∧ x ∈ p.arena.preorder s.node

theorem Ahead.mono (h : p.Ahead code x) (hc : ∀ s ∈ code, s ∈ code') : p.Ahead code' x :=
  let ⟨s, hs, hx⟩ := h
  ⟨s, hc s hs, hx⟩

/-- A step that finishes a node comes to it. -/
theorem ahead_finishes (hp : p.arena.Acyclic) (hs : s.finishes = true) (hc : s ∈ code) :
    p.Ahead code s.node := by
  refine ⟨s, hc, ?_⟩
  unfold Step.finishes at hs
  split at hs
  · next hk => exact .inl ⟨hk, rfl⟩
  · next hk => exact .inr ⟨.inr hk, Arena.mem_preorder_self hp s.node⟩
  · cases hs

/-- The code of a node begins with a start of the node. -/
theorem compile_head (hp : p.arena.Acyclic) (x : NodeId) :
    ∃ s ∈ p.compile x, s.node = x ∧ (s.kind = .start ∨ s.kind = .startFinish) := by
  rw [compile_eq hp]
  unfold Arena.compileNode
  split
  case h_8 => exact ⟨_, List.mem_singleton_self _, rfl, .inr rfl⟩
  all_goals exact ⟨⟨x, .start⟩, by simp, rfl, .inl rfl⟩

/-- The code of a node comes to all that is below the node. -/
theorem ahead_compile (hp : p.arena.Acyclic) (hz : z ∈ p.arena.preorder x) :
    p.Ahead (p.compile x ++ code) z :=
  let ⟨s, hs, hx, hk⟩ := compile_head hp x
  ⟨s, List.mem_append_left _ hs, .inr ⟨hk, hx ▸ hz⟩⟩

theorem mem_preorder_of_mem_compile (hp : p.arena.Acyclic) (hs : s ∈ p.compile x) :
    s.node ∈ p.arena.preorder x := by
  obtain ⟨rank, hrank⟩ := hp
  have hp : p.arena.Acyclic := ⟨rank, hrank⟩
  refine compile_induct (P := fun x s => s.node ∈ p.arena.preorder x) hrank
    (fun x s hx _ => hx ▸ Arena.mem_preorder_self hp s.node) (fun x c hc s hs => ?_) hs
  exact Arena.mem_preorder_trans hp
    (Arena.mem_preorder_child hp (Arena.mem_preorder_self hp x) hc) hs

/-! ## Code that is clear of a node -/

/-- The code comes to nothing that is below the node. -/
def Clear (p : Program) (code : List Step) (x : NodeId) : Prop :=
  ∀ z ∈ p.arena.preorder x, ¬p.Ahead code z

theorem Clear.self (hp : p.arena.Acyclic) (h : p.Clear code x) : ¬p.Ahead code x :=
  h x (Arena.mem_preorder_self hp x)

theorem clear_nil (x : NodeId) : p.Clear [] x := by
  rintro z - ⟨s, hs, -⟩
  cases hs

/-- A step that follows the code of a child `c` of the node `x`: it is an own step of `x` that
    starts nothing, or a step of a sibling, or one of the code after `x`. -/
def Follows (p : Program) (x c : NodeId) (code : List Step) (s : Step) : Prop :=
  s ∈ code ∨ (s.node = x ∧ s.kind ≠ .start ∧ s.kind ≠ .startFinish) ∨
    ∃ d ∈ p.arena.children x, d ≠ c ∧ s ∈ p.compile d

section
variable {d : NodeId}

theorem follows_after : ∀ s ∈ code, p.Follows x c code s := fun _ => .inl

theorem follows_own (hs : s.node = x) (hstart : s.kind ≠ .start)
    (hstartFinish : s.kind ≠ .startFinish) (h : ∀ s ∈ code', p.Follows x c code s) :
    ∀ s' ∈ s :: code', p.Follows x c code s' :=
  List.forall_mem_cons.2 ⟨.inr (.inl ⟨hs, hstart, hstartFinish⟩), h⟩

theorem follows_sibling (hd : d ∈ p.arena.children x) (hne : d ≠ c)
    (h : ∀ s ∈ code', p.Follows x c code s) : ∀ s ∈ p.compile d ++ code', p.Follows x c code s :=
  List.forall_mem_append.2 ⟨fun _ hs => .inr (.inr ⟨d, hd, hne, hs⟩), h⟩

end

/-- **What follows the code of a child is clear of the child.** -/
theorem Separate.clear_child (hp : p.Separate) (hx : x ∈ p.tree.nodes)
    (hc : c ∈ p.arena.children x) (h : p.Clear code x) (hcode : ∀ s ∈ code', p.Follows x c code s) :
    p.Clear code' c := by
  have ha := hp.acyclic
  have below {z d : NodeId} (hd : d ∈ p.arena.children x) (hz : z ∈ p.arena.preorder d) :
      z ∈ p.arena.preorder x :=
    Arena.mem_preorder_trans ha (Arena.mem_preorder_child ha (Arena.mem_preorder_self ha x) hd) hz
  rintro z hz ⟨s, hs, hk⟩
  rcases hcode s hs with hs | ⟨hs, hstart, hstartFinish⟩ | ⟨d, hd, hne, hs⟩
  · exact h z (below hc hz) ⟨s, hs, hk⟩
  · rcases hk with ⟨-, rfl⟩ | ⟨hk | hk, -⟩
    · exact Arena.not_mem_preorder_child ha hc (hs ▸ hz)
    · exact hstart hk
    · exact hstartFinish hk
  · have hin : z ∈ p.arena.preorder d := by
      have hnode := mem_preorder_of_mem_compile ha hs
      rcases hk with ⟨-, rfl⟩ | ⟨-, hz⟩
      · exact hnode
      · exact Arena.mem_preorder_trans ha hnode hz
    have honce := hp.tree.once
    rw [hp.tree.nodes_eq] at honce hx
    exact Arena.disjoint_children ha honce hx hc hd (Ne.symm hne) hz hin

end Program

end Arbor
