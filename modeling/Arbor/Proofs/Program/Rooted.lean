/-
  What runs is below a root.

  The nodes of a program, of its registered structures and of the basis are below roots
  (`Rooted`), and so is whatever their code names: names are looked for above a node, and
  what is found there is below a root too.  If the program and each registered structure
  is a tree (`Wooded`), a structure has its inputs apart from the code of its body.

  * `Inherited P`: the property `P` goes down from a node and along the names that are used
    there;
  * `Body` lists the steps that a frame may have: those of the program or of a definition.

  Main statements: `Wooded.rooted_resolve` and `Wooded.rooted_body`, what is named and what
  is run is below a root; `Wooded.not_mem_inputs`, the body of a structure binds none of its inputs.
-/
import Arbor.Proofs.Step.Ahead

namespace Arbor

/-! ## The basis -/

theorem structures_withBasis : ∀ x ∈ Forest.withBasis.2.arena.preorders Forest.withBasis.1.roots,
    (Forest.withBasis.2.arena.node? x).any Node.isStructureDefinition = false := by
  decide +kernel

/-- No structure is in the basis, whatever was added to it. -/
theorem Arena.Extends.not_isStructureDefinition {a : Arena}
    (h : Forest.withBasis.2.arena.Extends a) (ha : a.Acyclic) {x : NodeId}
    (hx : x ∈ a.preorders Forest.withBasis.1.roots) :
    (a.node? x).any Node.isStructureDefinition = false := by
  obtain ⟨hx, hn⟩ := h.node?_basis ha hx
  rw [hn]
  exact structures_withBasis x hx

namespace Program

variable (p : Program)

/-! ## Down and along names -/

/-- A property of nodes that goes to the children of a node, and to what is named there. -/
structure Inherited (P : NodeId → Prop) : Prop where
  child : ∀ x c, P x → c ∈ p.arena.children x → P c
  name : ∀ x n e z, P x → p.resolve n x = some e → e.node? = some z → P z

namespace Inherited

variable {p} {P : NodeId → Prop} {x z d : NodeId} {n : Name} {s : Step} (h : p.Inherited P)
include h

theorem meets (hx : P x) (hz : p.Meets x z) : P z := by
  induction hz with
  | self => exact hx
  | child _ hc ih => exact h.child _ _ ih hc
  | name _ _ hd hz _ ih => exact h.name _ _ _ _ ih hd hz

/-- The property goes to the members of a structure. -/
theorem member {e : Definition} (hx : P x) (he : p.member x n = some e) (hz : e.node? = some z) :
    P z :=
  h.meets hx (meets_member he hz)

variable (ha : p.arena.Acyclic)
include ha

/-- The property goes to the nodes of the steps of a node. -/
theorem compile (hx : P x) (hs : s ∈ p.compile x) : P s.node := by
  obtain ⟨rank, hrank⟩ := ha
  revert hx
  exact compile_induct (P := fun x s => P x → P s.node) hrank (fun _ _ hx _ hP => hx ▸ hP)
    (fun x c hc _ ih hx => ih (h.child x c hx hc)) hs

/-- The property goes to the nodes of the steps of a body. -/
theorem compileBody (hd : P d) (hs : s ∈ p.compileBody d) : P s.node := by
  unfold Program.compileBody at hs
  split at hs
  · next ns vs is output body hn =>
    refine h.compile ha (h.child d body hd ?_) hs
    rw [Arena.children_eq hn, Arena.childrenOf_functionDefinition]
    simp
  · rw [List.mem_append, List.mem_append, List.mem_singleton, List.mem_singleton] at hs
    rcases hs with (rfl | hs) | rfl
    · exact hd
    · obtain ⟨c, hc, hs⟩ := List.mem_flatMap.1 hs
      obtain ⟨body, hbody, -, hc⟩ := mem_statements hc
      exact h.compile ha (h.child body c (h.child d body hd hbody) hc) hs
    · exact hd
  · cases hs

end Inherited

/-! ## Below roots -/

/-- The program and each registered structure is a tree, and they stand over the basis. -/
structure Wooded : Prop where
  tree : p.TreeShaped
  basis : p.OverBasis
  detached : p.tree = .ofRoots p.arena p.root p.detached
  once : ∀ d ∈ p.registered, (p.arena.preorder d).Nodup

/-- The node is below the root of the program or below that of a tree beside it. -/
def Rooted (x : NodeId) : Prop := x ∈ p.arena.preorders (p.root :: p.detached)

/-- The steps of the program, or of a definition that is below a root. -/
inductive Body : Option NodeId → List Step → Prop
  | program : Body none (p.compile p.root)
  | definition {d : NodeId} : p.Rooted d → Body (some d) (p.compileBody d)

variable {p} {x z d : NodeId} {n : Name} {s : Step}

/-- What a name stands for is below a node above the user of the name, or registered. -/
theorem above_of_resolve (ha : p.arena.Acyclic)
    (htree : p.tree = .ofRoots p.arena p.root p.detached) {e : Definition}
    (h : p.resolve n x = some e) (hz : e.node? = some z) :
    (∃ y, p.Rooted y ∧ x ∈ p.arena.preorder y ∧ z ∈ p.arena.preorder y) ∨ z ∈ p.registered := by
  unfold resolve at h
  -- Upwards from the user, what is above an ancestor is above the user.
  generalize hl : p.tree.ancestors x = above at h
  induction above generalizing x with
  | nil => cases h
  | cons q above ih =>
    rw [htree, Tree.ancestors_ofRoots ha] at hl
    split at hl
    · cases hl
    next q' hq =>
    obtain ⟨rfl, rfl⟩ := List.cons.inj hl
    have hc : x ∈ p.arena.children q' := Tree.mem_children_of_parent? hq
    have hx : x ∈ p.arena.preorder q' :=
      Arena.mem_preorder_child ha (Arena.mem_preorder_self ha q') hc
    unfold resolveAlong at h
    split at h
    · next hscope =>
      cases h
      refine (below_of_definitionInScope ha hc hscope hz).imp_left fun hz => ⟨q', ?_, hx, hz⟩
      rw [Tree.parent?_ofRoots_eq] at hq
      exact List.mem_of_find?_eq_some hq
    · refine (ih (by rw [htree]) h).imp_left ?_
      rintro ⟨y, hy, hq', hz⟩
      exact ⟨y, hy, Arena.mem_preorder_trans ha hq' hx, hz⟩

/-- A program whose registered structures are trees apart from it. -/
theorem Separate.wooded (h : p.Separate) : p.Wooded := ⟨h.tree, h.basis, h.detached, h.once⟩

namespace Wooded

variable (hp : p.Wooded)
include hp

theorem acyclic : p.arena.Acyclic := hp.tree.acyclic

theorem rooted_root {top : NodeId} (htop : top ∈ p.root :: p.detached) : p.Rooted top :=
  List.mem_flatMap.2 ⟨top, htop, Arena.mem_preorder_self hp.acyclic top⟩

theorem rooted_below (hx : p.Rooted x) (hz : z ∈ p.arena.preorder x) : p.Rooted z := by
  obtain ⟨top, htop, hx⟩ := List.mem_flatMap.1 hx
  exact List.mem_flatMap.2 ⟨top, htop, Arena.mem_preorder_trans hp.acyclic hx hz⟩

theorem rooted_child (hx : p.Rooted x) (hz : z ∈ p.arena.children x) : p.Rooted z :=
  hp.rooted_below hx
    (Arena.mem_preorder_child hp.acyclic (Arena.mem_preorder_self hp.acyclic x) hz)

theorem rooted_registered (hd : d ∈ p.registered) : p.Rooted d :=
  hp.rooted_root (List.mem_cons_of_mem _ (List.mem_append_right _ hd))

theorem rooted_method {q : Primitive} (hd : p.basis.function? q n = some d) : p.Rooted d := by
  refine hp.rooted_root (List.mem_cons_of_mem _ (List.mem_append_left _ ?_))
  exact List.mem_map.2 ⟨_, Basis.mem_functions hd, rfl⟩

/-- **What a name stands for is below a root**, wherever the name is used. -/
theorem rooted_resolve {e : Definition} (h : p.resolve n x = some e) (hz : e.node? = some z) :
    p.Rooted z := by
  obtain ⟨y, hy, -, hz⟩ | hz := above_of_resolve hp.acyclic hp.detached h hz
  · exact hp.rooted_below hy hz
  · exact hp.rooted_registered hz

theorem inherited_rooted : p.Inherited p.Rooted where
  child _ _ := hp.rooted_child
  name _ _ _ _ _ := hp.rooted_resolve

/-! ## Bodies -/

/-- A structure is in a tree. -/
theorem exists_once (hd : p.Rooted d) (hs : p.IsStructure d) :
    ∃ top, (p.arena.preorder top).Nodup ∧ d ∈ p.arena.preorder top := by
  obtain ⟨top, htop, hd⟩ := List.mem_flatMap.1 hd
  rcases List.mem_cons.1 htop with rfl | htop
  · exact ⟨_, hp.tree.nodes_eq ▸ hp.tree.once, hd⟩
  · rcases List.mem_append.1 htop with htop | htop
    · obtain ⟨ns, fs, vs, is, body, hn⟩ := hs
      have hmem : d ∈ p.arena.preorders p.basis.roots := List.mem_flatMap.2 ⟨top, htop, hd⟩
      rw [hp.basis.basis] at hmem
      have hnone := hp.basis.arena.not_isStructureDefinition hp.acyclic hmem
      rw [show p.arena.node? d = _ from hn] at hnone
      cases hnone
    · exact ⟨top, hp.once top htop, hd⟩

/-- The steps of a body come from nodes below a root. -/
theorem rooted_body {o : Option NodeId} {steps : List Step} (h : p.Body o steps) (hs : s ∈ steps) :
    p.Rooted s.node := by
  cases h with
  | program => exact hp.inherited_rooted.compile hp.acyclic (hp.rooted_root List.mem_cons_self) hs
  | definition hd => exact hp.inherited_rooted.compileBody hp.acyclic hd hs

/-- Only the body of a structure ends with the finish of a structure, and of that one. -/
theorem eq_of_finish {o : Option NodeId} {steps : List Step} (h : p.Body o steps) (hs : s ∈ steps)
    (hk : s.kind = .finish) (hn : p.IsStructure s.node) : o = some s.node := by
  obtain ⟨rank, hrank⟩ := hp.acyclic
  cases h with
  | program => exact absurd hn (not_isStructure_of_finish hrank hs hk)
  | @definition d hd =>
    unfold compileBody at hs
    split at hs
    · exact absurd hn (not_isStructure_of_finish hrank hs hk)
    · rw [List.mem_append, List.mem_append, List.mem_singleton, List.mem_singleton] at hs
      rcases hs with (rfl | hs) | rfl
      · rfl
      · obtain ⟨c, -, hs⟩ := List.mem_flatMap.1 hs
        exact absurd hn (not_isStructure_of_finish hrank hs hk)
      · rfl
    · cases hs

/-- **The body of a structure comes to none of its inputs.** -/
theorem not_mem_inputs {steps : List Step} (h : p.Body (some d) steps) (hd : p.IsStructure d)
    (hs : s ∈ steps) : s.node ∉ p.inputs d := by
  intro hin
  have hchild := inputs_subset_children hin
  have hself : s.node ≠ d := by
    intro e
    rw [e] at hchild
    exact Arena.not_mem_preorder_child hp.acyclic hchild (Arena.mem_preorder_self hp.acyclic d)
  cases h with
  | definition hrooted =>
    obtain ⟨ns, fs, vs, is, body, hn⟩ := hd
    simp only [compileBody, hn, List.mem_append, List.mem_singleton] at hs
    rcases hs with (rfl | hs) | rfl
    · exact hself rfl
    · obtain ⟨c, hc, hs⟩ := List.mem_flatMap.1 hs
      obtain ⟨block, hblock, -, hc⟩ := mem_statements hc
      have hbelow := mem_preorder_of_mem_compile hp.acyclic hs
      by_cases hne : s.node = block
      · exact Arena.not_mem_preorder_child hp.acyclic hc (hne ▸ hbelow)
      · obtain ⟨top, honce, htop⟩ := hp.exists_once hrooted ⟨ns, fs, vs, is, body, hn⟩
        refine Arena.disjoint_children hp.acyclic honce htop hchild hblock hne
          (Arena.mem_preorder_self hp.acyclic _) ?_
        exact Arena.mem_preorder_trans hp.acyclic
          (Arena.mem_preorder_child hp.acyclic (Arena.mem_preorder_self hp.acyclic block) hc) hbelow
    · exact hself rfl

end Wooded

end Program

end Arbor
