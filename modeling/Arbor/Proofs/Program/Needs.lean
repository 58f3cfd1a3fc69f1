/-
  What evaluating code needs.

  Evaluating a node runs the code below it, and the code of the functions and structures that
  are named there (`Meets`); it needs these and the named values that are named there
  (`Needs`).  In a program beside which the registered structures stand as trees of their own
  (`Separate`), all of them are nodes of the program or of a registered structure (`Known`),
  and what a registered structure needs is in one.

  * `Outer` nodes are evaluated by the program itself, outside all functions and structures;
    `before` lists the statements that were evaluated before such a node in the blocks around
    it;
  * `Inner` nodes are evaluated but are no inputs of structures.

  Main statements: `Separate.known_needs`, and `Separate.needs_outer`: an outer node needs what
  is below it, what the definitions before it need, and what registered structures need.
-/
import Arbor.Proofs.Program.Nesting
import Arbor.Proofs.Renaming.Borrowing
import Arbor.Proofs.Renaming.Failure
import Arbor.Proofs.Typing.Streams

namespace Arbor

/-! ## Below a node -/

/-- What holds of a node and passes on to children holds of everything below the node. -/
theorem Arena.preorder_induct {a : Arena} (ha : a.Acyclic) {top : NodeId} {P : NodeId → Prop}
    (self : P top) (child : ∀ x ∈ a.preorder top, P x → ∀ c ∈ a.children x, P c) :
    ∀ x ∈ a.preorder top, P x := by
  obtain ⟨rank, hrank⟩ := ha
  have ha : a.Acyclic := ⟨rank, hrank⟩
  have below (n : Nat) : ∀ y ∈ a.preorder top, rank y = n → P y → ∀ x ∈ a.preorder y, P x := by
    induction n using Nat.strongRecOn with
    | _ n ih =>
      rintro y hy rfl hP x hx
      rw [preorder_eq ha, List.mem_cons] at hx
      rcases hx with rfl | hx
      · exact hP
      · obtain ⟨c, hc, hx⟩ := List.mem_flatMap.1 hx
        exact ih _ (hrank y c hc) c (mem_preorder_child ha hy hc) rfl (child y hy hP c hc) x hx
  exact below _ top (mem_preorder_self ha top) rfl self

namespace Program

variable (p : Program)

/-! ## What is needed -/

/-- The code that evaluating a node may run: what is below the node, and the functions and
    structures that are named there. -/
inductive Meets (x : NodeId) : NodeId → Prop
  | self : Meets x x
  | child {y c : NodeId} : Meets x y → c ∈ p.arena.children y → Meets x c
  | name {y z : NodeId} {n : Name} {d : Definition} : Meets x y →
      p.node? y = some (.reference n) → p.resolve n y = some d → d.node? = some z →
      (∀ b, d ≠ .bind b) → Meets x z

/-- What evaluating a node may need: the code that it may run, and the named values that are
    named there. -/
inductive Needs (x z : NodeId) : Prop
  | meets : p.Meets x z → Needs x z
  | bind {y : NodeId} {n : Name} : p.Meets x y → p.node? y = some (.reference n) →
      p.resolve n y = some (.bind z) → Needs x z

/-- Evaluating the node may run the use of a stream. -/
def MeetsStream (x : NodeId) : Prop := ∃ y, p.Meets x y ∧ p.UsesStream y

variable {p} {x y z : NodeId}

theorem Meets.trans (h : p.Meets x y) (h' : p.Meets y z) : p.Meets x z := by
  induction h' with
  | self => exact h
  | child _ hc ih => exact ih.child hc
  | name _ hn hd hz hb ih => exact ih.name hn hd hz hb

theorem Meets.needs (h : p.Meets x y) (h' : p.Needs y z) : p.Needs x z := by
  cases h' with
  | meets h' => exact .meets (h.trans h')
  | bind h' hn hd => exact .bind (h.trans h') hn hd

theorem Meets.stream (h : p.Meets x y) (h' : p.MeetsStream y) : p.MeetsStream x :=
  let ⟨z, hz, hu⟩ := h'
  ⟨z, h.trans hz, hu⟩

/-- What is named below a node is needed. -/
theorem Meets.needs_name {n : Name} {d : Definition} (h : p.Meets x y)
    (hn : p.node? y = some (.reference n)) (hd : p.resolve n y = some d) (hz : d.node? = some z) :
    p.Needs x z := by
  by_cases hb : ∃ b, d = .bind b
  · obtain ⟨b, rfl⟩ := hb
    cases hz
    exact .bind h hn hd
  · exact .meets (h.name hn hd hz fun b e => hb ⟨b, e⟩)

theorem needs_self (x : NodeId) : p.Needs x x := .meets .self

theorem meets_child {c : NodeId} (hc : c ∈ p.arena.children x) : p.Meets x c := .child .self hc

theorem meets_preorder (ha : p.arena.Acyclic) (hz : z ∈ p.arena.preorder x) : p.Meets x z :=
  Arena.preorder_induct ha (P := p.Meets x) .self (fun _ _ hy _ hc => hy.child hc) z hz

/-! ### Steady code -/

theorem Steady.meets (hx : p.Steady x) (h : p.Meets x y) : p.Steady y := by
  induction h with
  | self => exact hx
  | child _ hc ih => exact ih.leadsTo (.child hc)
  | name _ hn hd hz _ ih => exact ih.leadsTo (.name hn hd hz)

theorem Steady.not_meetsStream (hx : p.Steady x) : ¬p.MeetsStream x := by
  rintro ⟨y, hy, hu⟩
  exact (hx.meets hy).not_usesStream hu

/-! ### Members -/

/-- What holds of a structure and passes on to the structures that it declares to implement
    holds of all that it implements. -/
theorem interfaces_induct {P : NodeId → Prop}
    (step : ∀ y, P y → ∀ i ∈ p.directInterfaces y, P i) (hx : P x) :
    ∀ i ∈ p.interfaces x, P i := by
  have search (links : Nat) : ∀ (found : List NodeId) (y : NodeId), (∀ f ∈ found, P f) → P y →
      ∀ i ∈ p.searchInterfaces links found y, P i := by
    induction links with
    | zero => exact fun found y hfound _ => hfound
    | succ links ih =>
      intro found y hfound hy
      unfold searchInterfaces
      refine List.foldlRecOn (motive := fun found => ∀ i ∈ found, P i) _ _ hfound
        fun found hfound i hi => ?_
      have hPi := step y hy i hi
      split
      · exact hfound
      · refine ih _ i (fun f hf => ?_) hPi
        rcases List.mem_append.1 hf with hf | hf
        · exact hfound f hf
        · rw [List.mem_singleton.1 hf]
          exact hPi
  intro i hi
  refine search maxInterfaceDepth [x] x (fun f hf => ?_) hx i (List.mem_of_mem_drop hi)
  rw [List.mem_singleton.1 hf]
  exact hx

theorem meets_interface {i : NodeId} (h : i ∈ p.interfaces x) : p.Meets x i := by
  refine interfaces_induct (P := p.Meets x) (fun y hy i hi => ?_) .self i h
  unfold directInterfaces at hi
  obtain ⟨⟨r, d⟩, hr, hd⟩ := List.mem_filterMap.1 hi
  have hd : d = some (.structureDef i) := by
    split at hd
    · next heq => cases heq; cases hd; rfl
    · cases hd
  subst hd
  unfold declaredInterfaces at hr
  split at hr
  · next ns fs vs is body hn =>
    obtain ⟨r', hr', hrd⟩ := List.mem_map.1 hr
    split at hrd
    · next n href =>
      obtain ⟨rfl, hresolve⟩ := Prod.mk.inj hrd
      have hchild : r' ∈ p.arena.children y := by
        rw [Arena.children_eq hn, Arena.childrenOf_structureDefinition]
        simp [hr']
      exact (hy.child hchild).name href hresolve rfl nofun
    · cases hrd
  · cases hr

/-- The statements of a structure are the children of its block. -/
theorem mem_statements (h : y ∈ p.statements x) :
    ∃ body ∈ p.arena.children x, ¬p.IsStructure body ∧ y ∈ p.arena.children body := by
  unfold statements statementList at h
  split at h
  · next ns fs vs is body hn =>
    split at h
    · next ss hb =>
      refine ⟨body, ?_, ?_, ?_⟩
      · rw [Arena.children_eq hn, Arena.childrenOf_structureDefinition]
        simp
      · rintro ⟨_, _, _, _, _, hb'⟩
        rw [hb] at hb'
        cases hb'
      · rw [Arena.children_eq hb, Arena.childrenOf_block]
        exact h
    · simp [Arena.list, NodeRange.empty] at h
  · simp [Arena.list, NodeRange.empty] at h

/-- The inputs and the statements of a structure are below it. -/
theorem meets_ownMember {n : Name} {d : Definition} (h : p.ownMember n x = some d)
    (hz : d.node? = some z) : p.Meets x z := by
  obtain ⟨y, hy, hd⟩ := named_of_firstNamed h
  have hyz : y = z := by
    have hclass := classify_of_definitionNamed hd
    unfold classify at hclass
    split at hclass <;> cases hclass <;> cases hz <;> rfl
  subst hyz
  rw [List.flatMap_cons, List.flatMap_cons, List.flatMap_nil, List.append_nil,
    List.mem_append] at hy
  rcases hy with hy | hy
  · exact meets_child (inputs_subset_children hy)
  · obtain ⟨body, hbody, -, hy⟩ := mem_statements hy
    exact (meets_child hbody).child hy

/-- The members of a structure are met in its code. -/
theorem meets_member {n : Name} {d : Definition} (h : p.member x n = some d)
    (hz : d.node? = some z) : p.Meets x z := by
  unfold member at h
  split at h
  · next hown =>
    cases h
    exact meets_ownMember hown hz
  · obtain ⟨i, hi, hd⟩ := List.exists_of_findSome?_eq_some h
    exact (meets_interface hi).trans (meets_ownMember hd hz)

/-! ## Programs beside registered structures -/

variable (p)

/-- The program is a tree over the basis, and each registered structure stands beside it as a
    tree of its own. -/
structure Separate : Prop where
  tree : p.TreeShaped
  basis : p.OverBasis
  detached : p.tree = .ofRoots p.arena p.root p.detached
  structures : ∀ d ∈ p.registered, p.IsStructure d
  once : ∀ d ∈ p.registered, (p.arena.preorder d).Nodup
  program : ∀ d ∈ p.registered, ∀ z ∈ p.arena.preorder d, z ∉ p.tree.nodes
  pairwise : ∀ d ∈ p.registered, ∀ e ∈ p.registered, ∀ z ∈ p.arena.preorder d,
    z ∈ p.arena.preorder e → d = e

/-- The node is in a registered structure. -/
def Outside (x : NodeId) : Prop := ∃ d ∈ p.registered, x ∈ p.arena.preorder d

/-- The node is in the program or in a registered structure. -/
def Known (x : NodeId) : Prop := x ∈ p.tree.nodes ∨ p.Outside x

/-- What a name that stands for a definition needs: the definition itself, and all that the
    code of a function or structure needs. -/
def Brings (x z : NodeId) : Prop :=
  ∃ d, p.classify x = some d ∧ (z = x ∨ (∀ b, d ≠ .bind b) ∧ p.Needs x z)

/-- The node is an input of a structure. -/
def OfStructure (x : NodeId) : Prop := ∃ d, p.Known d ∧ p.IsStructure d ∧ x ∈ p.inputs d

/-- The node is evaluated where it stands, being no input of a structure. -/
structure Inner (x : NodeId) : Prop where
  known : p.Known x
  free : ¬p.OfStructure x

/-- The node is evaluated by the program itself, being outside all functions and
    structures. -/
inductive Outer : NodeId → Prop
  | root : Outer p.root
  | child {x c : NodeId} : Outer x → ¬p.IsFunction x → ¬p.IsStructure x →
      c ∈ p.arena.children x → Outer c

/-- The statements of a block before one of them. -/
def statementsBefore (block statement : NodeId) : List NodeId :=
  match p.node? block with
  | some (.block ss) => (p.arena.list ss).takeWhile (· != statement)
  | _ => []

/-- The statements before a node in the blocks among its ancestors, the outermost block
    first. -/
def beforeAlong : NodeId → List NodeId → List NodeId
  | _, [] => []
  | child, scope :: above => beforeAlong scope above ++ p.statementsBefore scope child

/-- The statements that are evaluated before a node in the blocks around it. -/
def before (x : NodeId) : List NodeId := p.beforeAlong x (p.tree.ancestors x)

variable {p}

theorem Outside.child (ha : p.arena.Acyclic) {c : NodeId} (hx : p.Outside x)
    (hc : c ∈ p.arena.children x) : p.Outside c :=
  let ⟨d, hd, hx⟩ := hx
  ⟨d, hd, Arena.mem_preorder_child ha hx hc⟩

/-- A definition that a name stands for is what its node defines. -/
theorem node_of_definitionNamed {n : Name} {d : Definition} (h : p.definitionNamed n y = some d)
    (hz : d.node? = some z) : y = z := by
  have hclass := classify_of_definitionNamed h
  unfold classify at hclass
  split at hclass <;> cases hclass <;> cases hz <;> rfl

/-- What is borrowed is registered. -/
theorem registered_of_borrowed {n : Name} {d : Definition} (h : p.borrowed n = some d)
    (hz : d.node? = some z) : z ∈ p.registered := by
  unfold borrowed at h
  split at h
  · next hshare =>
    cases h
    cases hz
    exact mem_registered (offer?_structureDef.2 hshare)
  · cases h
    cases hz
  · cases h

/-- What a node makes visible to a child is below the node, or it is registered. -/
theorem below_of_definitionInScope (ha : p.arena.Acyclic) {c : NodeId} {n : Name} {d : Definition}
    (hc : c ∈ p.arena.children x) (h : p.definitionInScope x c n = some d)
    (hz : d.node? = some z) : z ∈ p.arena.preorder x ∨ z ∈ p.registered := by
  have child {y : NodeId} (hy : y ∈ p.arena.children x) : y ∈ p.arena.preorder x :=
    Arena.mem_preorder_child ha (Arena.mem_preorder_self ha x) hy
  have named {y : NodeId} (hy : y ∈ p.arena.preorder x) (hd : p.definitionNamed n y = some d) :
      z ∈ p.arena.preorder x := node_of_definitionNamed hd hz ▸ hy
  unfold definitionInScope at h
  split at h
  · next ss hn =>
    have hchildren : p.arena.children x = p.arena.list ss := by
      rw [Arena.children_eq hn, Arena.childrenOf_block]
    rcases named_of_visibleInBlock h with ⟨k, y, -, hy, hd⟩ | ⟨-, hd⟩
    · exact .inl (named (child (hchildren ▸ List.mem_of_mem_take hy)) hd)
    · exact .inl (named (child hc) hd)
  · next ns vs is output body hn =>
    obtain ⟨y, hy, hd⟩ := named_of_firstNamed h
    refine .inl (named (child ?_) hd)
    rw [Arena.children_eq hn, Arena.childrenOf_functionDefinition]
    simp only [List.flatMap_cons, List.flatMap_nil, List.append_nil, List.mem_append] at hy
    rcases hy with hy | hy <;> simp [hy]
  · next ns fs vs is body hn =>
    obtain ⟨y, hy, hd⟩ := named_of_firstNamed h
    simp only [List.flatMap_cons, List.flatMap_nil, List.append_nil, List.mem_append] at hy
    have hlists : y ∈ p.arena.children x ∨ y ∈ p.statements x := by
      rw [Arena.children_eq hn, Arena.childrenOf_structureDefinition]
      rcases hy with hy | hy | hy
      · simp [hy]
      · simp [hy]
      · exact .inr hy
    rcases hlists with hy | hy
    · exact .inl (named (child hy) hd)
    · obtain ⟨body, hbody, -, hy⟩ := mem_statements hy
      exact .inl (named (Arena.mem_preorder_child ha (child hbody) hy) hd)
  · split at h
    · exact .inr (registered_of_borrowed h hz)
    · cases h
  · cases h

theorem Outer.mem (ht : p.TreeShaped) (h : p.Outer x) : x ∈ p.tree.nodes := by
  induction h with
  | root => exact ht.root_mem
  | child _ _ _ hc ih => exact ht.child_mem ih hc

/-- The statements before a child are those before its parent, and those of the parent. -/
theorem before_child (ht : p.TreeShaped) {c : NodeId} (hx : x ∈ p.tree.nodes)
    (hc : c ∈ p.arena.children x) : p.before c = p.before x ++ p.statementsBefore x c := by
  rw [before, ht.ancestors_child hx hc]
  rfl

theorem before_root (ht : p.TreeShaped) : p.before p.root = [] := by
  rw [before, ht.ancestors_root]
  rfl

theorem statementsBefore_eq {ss : NodeRange} {c : NodeId} {before after : List NodeId}
    (hn : p.node? x = some (.block ss)) (hss : p.arena.list ss = before ++ c :: after)
    (hc : c ∉ before) : p.statementsBefore x c = before := by
  unfold statementsBefore
  rw [hn]
  dsimp only
  rw [hss, List.takeWhile_append_of_pos fun y hy => ?_]
  · simp
  · simp only [bne_iff_ne]
    exact fun e => hc (e ▸ hy)

theorem statementsBefore_of_not_block {c : NodeId} (hn : ∀ ss, p.node? x ≠ some (.block ss)) :
    p.statementsBefore x c = [] := by
  unfold statementsBefore
  split
  · next ss hn' => exact absurd hn' (hn ss)
  · rfl

/-- The statements before a child of a node that is no block are those before the node. -/
theorem before_part (ht : p.TreeShaped) {c : NodeId} (hx : x ∈ p.tree.nodes)
    (hc : c ∈ p.arena.children x) (hn : ∀ ss, p.node? x ≠ some (.block ss)) :
    p.before c = p.before x := by
  rw [before_child ht hx hc, statementsBefore_of_not_block hn, List.append_nil]

namespace Separate

variable (h : p.Separate)
include h

theorem acyclic : p.arena.Acyclic := h.tree.acyclic

theorem grounded : p.Grounded :=
  h.basis.grounded h.acyclic fun s hs d hd =>
    h.structures d (by rw [registered, hs]; exact hd)

theorem outside_self {d : NodeId} (hd : d ∈ p.registered) : p.Outside d :=
  ⟨d, hd, Arena.mem_preorder_self h.acyclic d⟩

theorem outside_not_mem (hx : p.Outside x) : x ∉ p.tree.nodes :=
  let ⟨d, hd, hx⟩ := hx
  h.program d hd x hx

theorem nodes_below (hx : x ∈ p.tree.nodes) (hy : y ∈ p.arena.preorder x) : y ∈ p.tree.nodes := by
  rw [h.tree.nodes_eq] at hx ⊢
  exact Arena.mem_preorder_trans h.acyclic hx hy

/-- The basis uses no names. -/
theorem quiet (hx : x ∈ p.arena.preorders p.basis.roots) : (p.node? x).all Node.isQuiet = true := by
  rw [h.basis.basis] at hx
  exact h.basis.arena.quiet h.acyclic hx

/-! ### Names -/

/-- What is named in a registered structure is in one. -/
theorem outside_name {n : Name} {d : Definition} (hx : p.Outside x)
    (hn : p.node? x = some (.reference n)) (hd : p.resolve n x = some d)
    (hz : d.node? = some z) : p.Outside z := by
  obtain ⟨top, htop, hx⟩ := hx
  have hb : x ∉ p.arena.preorders p.basis.roots := by
    intro hb
    have := h.quiet hb
    rw [hn] at this
    cases this
  clear hn
  unfold resolve at hd
  -- Upwards from the node, all ancestors are in the same registered structure.
  generalize hl : p.tree.ancestors x = l at hd
  induction l generalizing x with
  | nil => cases hd
  | cons q l ih =>
    rw [h.tree.ancestors_eq] at hl
    split at hl
    · cases hl
    next q' hq =>
    obtain ⟨rfl, rfl⟩ := List.cons.inj hl
    have hc : x ∈ p.arena.children q' := by
      rw [h.detached] at hq
      exact Tree.mem_children_of_parent? hq
    have below {e : NodeId} (he : q' ∈ p.arena.preorder e) : x ∈ p.arena.preorder e :=
      Arena.mem_preorder_child h.acyclic he hc
    have hqb : q' ∉ p.arena.preorders p.basis.roots := by
      intro hqb
      obtain ⟨r, hr, hqr⟩ := List.mem_flatMap.1 hqb
      exact hb (List.mem_flatMap.2 ⟨r, hr, below hqr⟩)
    have hqtop : q' ∈ p.arena.preorder top := by
      rw [h.detached, Tree.parent?_ofRoots_eq] at hq
      obtain ⟨e, he, hqe⟩ := List.mem_flatMap.1 (List.mem_of_find?_eq_some hq)
      rcases List.mem_cons.1 he with rfl | he
      · refine absurd ?_ (h.program top htop x hx)
        rw [h.tree.nodes_eq]
        exact below hqe
      · rcases List.mem_append.1 he with he | he
        · exact absurd (List.mem_flatMap.2 ⟨e, he, hqe⟩) hqb
        · rwa [← h.pairwise e he top htop x (below hqe) hx]
    unfold resolveAlong at hd
    split at hd
    · next hscope =>
      cases hd
      rcases below_of_definitionInScope h.acyclic hc hscope hz with hz | hz
      · exact ⟨top, htop, Arena.mem_preorder_trans h.acyclic hqtop hz⟩
      · exact h.outside_self hz
    · exact ih hqtop hqb rfl hd

/-- What is named below a node of the program is below the node too, or in a registered
    structure, or it is what the name stands for at the node. -/
theorem below_name {n : Name} {d : Definition} (hx : x ∈ p.tree.nodes)
    (hy : y ∈ p.arena.preorder x) (hd : p.resolve n y = some d) (hz : d.node? = some z) :
    z ∈ p.arena.preorder x ∨ p.Outside z ∨ p.resolve n x = some d := by
  refine Arena.preorder_induct h.acyclic (P := fun y => p.resolve n y = some d → _) ?_ ?_ y hy hd
  · exact fun hd => .inr (.inr hd)
  · intro y hy ih c hc hd
    rw [h.tree.resolve_child (h.nodes_below hx hy) hc] at hd
    rcases Option.or_eq_some_iff.1 hd with hd | ⟨-, hd⟩
    · rcases below_of_definitionInScope h.acyclic hc hd hz with hz | hz
      · exact .inl (Arena.mem_preorder_trans h.acyclic hy hz)
      · exact .inr (.inl (h.outside_self hz))
    · exact ih hd

theorem known_child {c : NodeId} (hx : p.Known x) (hc : c ∈ p.arena.children x) : p.Known c :=
  hx.imp (h.tree.child_mem · hc) (·.child h.acyclic hc)

theorem known_name {n : Name} {d : Definition} (hx : p.Known x)
    (hn : p.node? x = some (.reference n)) (hd : p.resolve n x = some d)
    (hz : d.node? = some z) : p.Known z := by
  rcases hx with hx | hx
  · rw [h.tree.nodes_eq] at hx
    rcases h.below_name h.tree.root_mem hx hd hz with hz | hz | hd
    · exact .inl (by rwa [h.tree.nodes_eq])
    · exact .inr hz
    · rw [h.tree.resolve_root] at hd
      cases hd
  · exact .inr (h.outside_name hx hn hd hz)

theorem outside_meets (hx : p.Outside x) (hz : p.Meets x z) : p.Outside z := by
  induction hz with
  | self => exact hx
  | child _ hc ih => exact ih.child h.acyclic hc
  | name _ hn hd hz _ ih => exact h.outside_name ih hn hd hz

/-- What a registered structure needs is in one. -/
theorem outside_needs (hx : p.Outside x) (hz : p.Needs x z) : p.Outside z := by
  cases hz with
  | meets hz => exact h.outside_meets hx hz
  | bind hy hn hd => exact h.outside_name (h.outside_meets hx hy) hn hd rfl

theorem known_meets (hx : p.Known x) (hz : p.Meets x z) : p.Known z := by
  induction hz with
  | self => exact hx
  | child _ hc ih => exact h.known_child ih hc
  | name _ hn hd hz _ ih => exact h.known_name ih hn hd hz

/-- **What code needs is known.** -/
theorem known_needs (hx : p.Known x) (hz : p.Needs x z) : p.Known z := by
  cases hz with
  | meets hz => exact h.known_meets hx hz
  | bind hy hn hd => exact h.known_name (h.known_meets hx hy) hn hd rfl

/-- What a name stands for is what its node defines. -/
theorem classify_of_resolve {n : Name} {d : Definition} (hd : p.resolve n x = some d)
    (hz : d.node? = some z) : p.classify z = some d := by
  rcases named_of_resolve hd with ⟨y, hy⟩ | hb
  · rw [← node_of_definitionNamed hy hz]
    exact classify_of_definitionNamed hy
  · unfold borrowed at hb
    split at hb
    · next hshare =>
      cases hb
      cases hz
      obtain ⟨ns, fs, vs, is, body, hn⟩ :=
        h.structures _ (mem_registered (offer?_structureDef.2 hshare))
      unfold classify
      rw [hn]
    · cases hb
      cases hz
    · cases hb

/-! ### Children -/

/-- Two known nodes have no child in common. -/
theorem eq_of_children {c : NodeId} (hx : p.Known x) (hy : p.Known y)
    (hcx : c ∈ p.arena.children x) (hcy : c ∈ p.arena.children y) : x = y := by
  rcases hx with hx | hx <;> rcases hy with hy | hy
  · exact h.tree.eq_of_mem_children hx hy hcx hcy
  · exact absurd (h.tree.child_mem hx hcx) (h.outside_not_mem (hy.child h.acyclic hcy))
  · exact absurd (h.tree.child_mem hy hcy) (h.outside_not_mem (hx.child h.acyclic hcx))
  · obtain ⟨d, hd, hx⟩ := hx
    obtain ⟨e, he, hy⟩ := hy
    obtain rfl := h.pairwise d hd e he c (Arena.mem_preorder_child h.acyclic hx hcx)
      (Arena.mem_preorder_child h.acyclic hy hcy)
    have hnodup := h.once d hd
    rw [(Arena.preorder_perm h.acyclic d).nodup_iff, List.nodup_cons] at hnodup
    have hpair := (List.nodup_flatMap.1 hnodup.2).2
    have : Std.Symm (Function.onFun List.Disjoint p.arena.children) :=
      ⟨fun _ _ => List.disjoint_symm⟩
    by_contra hne
    exact hpair.forall hx hy hne hcx hcy

/-- The children of a node that is no structure are evaluated where they stand. -/
theorem inner_child {c : NodeId} (hx : p.Known x) (hs : ¬p.IsStructure x)
    (hc : c ∈ p.arena.children x) : p.Inner c := by
  refine ⟨h.known_child hx hc, ?_⟩
  rintro ⟨d, hd, hds, hin⟩
  rw [h.eq_of_children hx hd hc (inputs_subset_children hin)] at hs
  exact hs hds

/-- The statements of a structure are evaluated where they stand. -/
theorem inner_statement {s : NodeId} (hx : p.Known x) (hs : s ∈ p.statements x) : p.Inner s := by
  obtain ⟨body, hbody, hnot, hs⟩ := mem_statements hs
  exact h.inner_child (h.known_child hx hbody) hnot hs

theorem inner_root : p.Inner p.root := by
  refine ⟨.inl h.tree.root_mem, ?_⟩
  rintro ⟨d, hd | hd, -, hin⟩
  · have := h.tree.parent?_child hd (inputs_subset_children hin)
    rw [h.tree.top] at this
    cases this
  · exact h.outside_not_mem (hd.child h.acyclic (inputs_subset_children hin)) h.tree.root_mem

/-- What the program evaluates itself is evaluated where it stands. -/
theorem inner_outer (hx : p.Outer x) : p.Inner x := by
  cases hx with
  | root => exact h.inner_root
  | child hx _ hs hc => exact h.inner_child (.inl (hx.mem h.tree)) hs hc

/-! ### What outer nodes need -/

/-- A name that an outer node uses stands for a statement before it, for the node itself, or
    for a registered structure. -/
theorem outer_name (hx : p.Outer x) {n : Name} {d : Definition} (hd : p.resolve n x = some d)
    (hz : d.node? = some z) :
    z ∈ p.before x ∨ p.Outside z ∨ z = x ∧ p.namesItself x = true := by
  induction hx with
  | root =>
    rw [h.tree.resolve_root] at hd
    cases hd
  | @child x c hx hf hs hc ih =>
    have hmem := hx.mem h.tree
    rw [h.tree.resolve_child hmem hc] at hd
    rw [before_child h.tree hmem hc]
    rcases Option.or_eq_some_iff.1 hd with hscope | ⟨-, hd⟩
    · unfold definitionInScope at hscope
      split at hscope
      · next ss hn =>
        have hchildren : p.arena.children x = p.arena.list ss := by
          rw [Arena.children_eq hn, Arena.childrenOf_block]
        rcases named_of_visibleInBlock hscope with ⟨k, y, hk, hy, hd⟩ | ⟨hself, hd⟩
        · obtain rfl := node_of_definitionNamed hd hz
          have hss : p.arena.list ss =
              (p.arena.list ss).take k ++ c :: (p.arena.list ss).drop (k + 1) := by
            obtain ⟨hlt, heq⟩ := List.getElem?_eq_some_iff.1 hk
            rw [← heq, ← List.drop_eq_getElem_cons hlt, List.take_append_drop]
          have hnodup := h.tree.nodup_children hmem
          rw [hchildren, hss] at hnodup
          have hc : c ∉ (p.arena.list ss).take k := fun hc =>
            (List.nodup_append.1 hnodup).2.2 c hc c List.mem_cons_self rfl
          rw [statementsBefore_eq hn hss hc]
          exact .inl (List.mem_append_right _ hy)
        · exact .inr (.inr ⟨(node_of_definitionNamed hd hz).symm, hself⟩)
      · next ns vs is output body hn => exact absurd ⟨ns, vs, is, output, body, hn⟩ hf
      · next ns fs vs is body hn => exact absurd ⟨ns, fs, vs, is, body, hn⟩ hs
      · split at hscope
        · exact .inr (.inl (h.outside_self (registered_of_borrowed hscope hz)))
        · cases hscope
      · cases hscope
    · rcases ih hd with hz | hz | ⟨-, hself⟩
      · exact .inl (List.mem_append_left _ hz)
      · exact .inr (.inl hz)
      · exfalso
        unfold namesItself at hself
        split at hself
        · next ns vs is output body hn => exact hf ⟨ns, vs, is, output, body, hn⟩
        · next ns fs vs is body hn => exact hs ⟨ns, fs, vs, is, body, hn⟩
        · cases hself

/-- A name that is used below an outer node stands for something below the node, for a
    statement before it, or for a registered structure. -/
theorem outer_below_name (hx : p.Outer x) (hy : y ∈ p.arena.preorder x) {n : Name}
    {d : Definition} (hd : p.resolve n y = some d) (hz : d.node? = some z) :
    z ∈ p.arena.preorder x ∨ p.Outside z ∨ z ∈ p.before x := by
  rcases h.below_name (hx.mem h.tree) hy hd hz with hz | hz | hd
  · exact .inl hz
  · exact .inr (.inl hz)
  · rcases h.outer_name hx hd hz with hz | hz | ⟨rfl, -⟩
    · exact .inr (.inr hz)
    · exact .inr (.inl hz)
    · exact .inl (Arena.mem_preorder_self h.acyclic z)

theorem meets_outer (hx : p.Outer x) (hz : p.Meets x z) :
    z ∈ p.arena.preorder x ∨ p.Outside z ∨
      ∃ y ∈ p.before x, p.Needs x y ∧
        ∃ d, p.classify y = some d ∧ (∀ b, d ≠ .bind b) ∧ p.Meets y z := by
  induction hz with
  | self => exact .inl (Arena.mem_preorder_self h.acyclic x)
  | child _ hc ih =>
    rcases ih with hy | hy | ⟨w, hw, hxw, d, hd, hb, hy⟩
    · exact .inl (Arena.mem_preorder_child h.acyclic hy hc)
    · exact .inr (.inl (hy.child h.acyclic hc))
    · exact .inr (.inr ⟨w, hw, hxw, d, hd, hb, hy.child hc⟩)
  | @name y z n d hxy hn hd hz hnb ih =>
    rcases ih with hy | hy | ⟨w, hw, hxw, e, he, hb, hy⟩
    · rcases h.outer_below_name hx hy hd hz with hz' | hz' | hz'
      · exact .inl hz'
      · exact .inr (.inl hz')
      · exact .inr (.inr ⟨z, hz', .meets (hxy.name hn hd hz hnb), d,
          h.classify_of_resolve hd hz, hnb, .self⟩)
    · exact .inr (.inl (h.outside_name hy hn hd hz))
    · exact .inr (.inr ⟨w, hw, hxw, e, he, hb, hy.name hn hd hz hnb⟩)

/-- **What outer nodes need.**  An outer node needs what is below it, what the definitions
    before it need that it needs, and what registered structures need. -/
theorem needs_outer (hx : p.Outer x) (hz : p.Needs x z) :
    z ∈ p.arena.preorder x ∨ p.Outside z ∨ ∃ y ∈ p.before x, p.Needs x y ∧ p.Brings y z := by
  cases hz with
  | meets hz =>
    rcases h.meets_outer hx hz with hz | hz | ⟨y, hy, hxy, d, hd, hb, hz⟩
    · exact .inl hz
    · exact .inr (.inl hz)
    · exact .inr (.inr ⟨y, hy, hxy, d, hd, .inr ⟨hb, .meets hz⟩⟩)
  | @bind y n hxy hn hd =>
    rcases h.meets_outer hx hxy with hy | hy | ⟨w, hw, hxw, d, hdw, hb, hy⟩
    · rcases h.outer_below_name hx hy hd rfl with hz | hz | hz
      · exact .inl hz
      · exact .inr (.inl hz)
      · exact .inr (.inr ⟨z, hz, .bind hxy hn hd, .bind z, h.classify_of_resolve hd rfl,
          .inl rfl⟩)
    · exact .inr (.inl (h.outside_name hy hn hd rfl))
    · exact .inr (.inr ⟨w, hw, hxw, d, hdw, .inr ⟨hb, .bind hy hn hd⟩⟩)

end Separate

end Program

end Arbor
