/-
  Programs in growing arenas.

  What is added to an arena is out of reach for a program that was there before: it has the
  same nodes below the same nodes, and everything that is read off it is the same.  So it is
  its own renaming (`Arena.Same`), and what is renamed so is equal.

  Main statements: `Program.Grown.renamed`, and the lemmas `eq_of_renamed`.
-/
import Arbor.Proofs.Renaming.Conflicts
import Arbor.Proofs.Renaming.Places
import Arbor.Proofs.Renaming.Runs

namespace Arbor

open List (Forall₂)
open Relator (BiUnique)

/-- The nodes are the same one, which is in the arena. -/
def Arena.Same (a : Arena) (x y : NodeId) : Prop := x = y ∧ a.Knows x

namespace Arena

variable {a b : Arena}

theorem biUnique_same (a : Arena) : BiUnique a.Same :=
  ⟨fun _ _ _ hx hy => hx.1.trans hy.1.symm, fun _ _ _ hx hy => hx.1.symm.trans hy.1⟩

theorem forall₂_same {ids : List NodeId} (h : ∀ x ∈ ids, a.Knows x) : Forall₂ a.Same ids ids :=
  List.forall₂_same.2 fun x hx => ⟨rfl, h x hx⟩

/-- A node is its own renaming while the arena grows. -/
theorem Complete.renamed_same (h : a.Complete) (hab : a.Extends b) {id : NodeId} {n : Node}
    (hn : a.node? id = some n) : n.Renamed a.Same a b n := by
  refine Node.renamed_of_bare rfl (List.forall₂_same.2 fun c hc => ?_)
  have hfits := h.fits id n hn c hc
  refine Child.renamed_of_shape ?_ ?_
  · cases c <;> rfl
  · rw [hab.ofSlot hfits]
    exact forall₂_same fun x hx => h.knows_of_ofSlot hfits hx

end Arena

/-! ## The program before and after -/

namespace Tree

section
variable {a : Arena} {t : Tree} {root x z : NodeId} {detached : List NodeId}

theorem ancestors_of_parent?_eq_none (h : a.Acyclic) (ht : t = .ofRoots a root detached)
    (hx : t.parent? x = none) : t.ancestors x = [] := by
  subst ht
  rw [ancestors_ofRoots h, hx]

theorem ancestors_of_parent?_eq_some (h : a.Acyclic) (ht : t = .ofRoots a root detached)
    (hx : t.parent? x = some z) : t.ancestors x = z :: t.ancestors z := by
  subst ht
  rw [ancestors_ofRoots h, hx]

end

end Tree

namespace Program

/-- The program `q` is `p`, read from an arena that has grown. -/
structure Grown (p q : Program) : Prop where
  complete : p.arena.Complete
  acyclic : p.arena.Acyclic
  acyclic' : q.arena.Acyclic
  extends_ : p.arena.Extends q.arena
  tree : p.tree = .ofRoots p.arena p.root p.detached
  tree' : q.tree = .ofRoots q.arena p.root p.detached
  interner : q.interner = p.interner
  basis : q.basis = p.basis
  shares : q.shares = p.shares
  root : p.arena.Knows p.root
  known : ∀ r ∈ p.references, p.arena.Knows r

namespace Grown

variable {p q : Program} (h : p.Grown q)
include h

theorem nodes_eq : q.tree.nodes = p.tree.nodes := by
  rw [h.tree, h.tree']
  exact h.complete.preorder_eq h.acyclic h.acyclic' h.extends_ h.root

theorem knows_of_mem_nodes {x : NodeId} (hx : x ∈ p.tree.nodes) : p.arena.Knows x := by
  rw [h.tree] at hx
  exact h.complete.knows_of_mem_preorder h.acyclic h.root hx

/-- Every node stands below the same node. -/
theorem parent?_eq (x : NodeId) : q.tree.parent? x = p.tree.parent? x := by
  have hroots : ∀ r ∈ p.root :: p.detached, p.arena.Knows r :=
    List.forall_mem_cons.2 ⟨h.root, fun d hd => h.known d (mem_references_of_mem_detached hd)⟩
  rw [h.tree, h.tree', Tree.parent?_ofRoots_eq, Tree.parent?_ofRoots_eq,
    h.complete.preorders_eq h.acyclic h.acyclic' h.extends_ hroots]
  refine List.find?_congr fun z hz => ?_
  rw [h.complete.children_eq h.extends_ (h.complete.knows_of_mem_preorders h.acyclic hroots hz)]

/-- Every node stands below the same nodes. -/
theorem same_ancestors (x : NodeId) :
    Forall₂ p.arena.Same (p.tree.ancestors x) (q.tree.ancestors x) := by
  generalize hl : p.tree.ancestors x = l
  induction l generalizing x with
  | nil =>
    cases hz : p.tree.parent? x with
    | none =>
      rw [Tree.ancestors_of_parent?_eq_none h.acyclic' h.tree' ((h.parent?_eq x).trans hz)]
      exact .nil
    | some z =>
      rw [Tree.ancestors_of_parent?_eq_some h.acyclic h.tree hz] at hl
      cases hl
  | cons z l ih =>
    cases hz : p.tree.parent? x with
    | none =>
      rw [Tree.ancestors_of_parent?_eq_none h.acyclic h.tree hz] at hl
      cases hl
    | some w =>
      rw [Tree.ancestors_of_parent?_eq_some h.acyclic h.tree hz] at hl
      rw [Tree.ancestors_of_parent?_eq_some h.acyclic' h.tree' ((h.parent?_eq x).trans hz)]
      cases hl
      have hchild : x ∈ p.arena.children z := by
        rw [h.tree] at hz
        exact Tree.mem_children_of_parent? hz
      exact .cons ⟨rfl, Arena.lt_size_of_mem_children hchild⟩ (ih z rfl)

/-- **A program is its own renaming** while the arena grows. -/
theorem renamed : p.Renamed p.arena.Same q where
  unique := p.arena.biUnique_same
  uniqueStream := biUnique_sameStream h.shares
  node := by
    rintro x y ⟨rfl, hx⟩
    obtain ⟨n, hn⟩ := Arena.knows_iff.1 hx
    exact ⟨n, n, hn, h.extends_.node? x n hn, h.complete.renamed_same h.extends_ hn⟩
  ancestors := by
    rintro x y ⟨rfl, -⟩ -
    exact h.same_ancestors x
  nodes := by
    rw [h.nodes_eq]
    exact Arena.forall₂_same fun x hx => h.knows_of_mem_nodes hx
  root := by
    refine ⟨?_, h.root⟩
    show p.root = q.tree.root
    rw [h.tree']
    rfl
  interner := h.interner
  method := renamed_method_of_basis
    (fun r hr => ⟨rfl, h.known r (List.mem_append_left _ hr)⟩) h.basis
  share _ _ := renamed_share_of_references (fun r hr => ⟨rfl, h.known r hr⟩) h.shares _
  stream := renamed_stream_of_references (fun r hr => ⟨rfl, h.known r hr⟩) h.shares
  acyclic := h.acyclic
  acyclic' := h.acyclic'

end Grown

end Program

/-! ## Renamed to itself -/

theorem eq_of_forall₂ {α : Type} {S : α → α → Prop} (hS : ∀ {x y}, S x y → x = y)
    {xs ys : List α} (h : Forall₂ S xs ys) : xs = ys :=
  List.forall₂_eq_eq_eq ▸ h.imp fun _ _ => hS

section
variable {R : NodeId → NodeId → Prop}

namespace Ty

mutual

theorem eq_of_renamed (hR : ∀ {x y}, R x y → x = y) : ∀ {t u : Ty}, t.Renamed R u → t = u
  | _, _, .primitive _ => rfl
  | .instanceOf _ _, _, .instanceOf hd hts => by rw [hR hd, all_eq_of_renamed hR hts]
  | _, _, .definition hd => by rw [hR hd]
  | _, _, .function hf => by rw [hR hf]
  | _, _, .typeVar hv => by rw [hR hv]
  | .union _, _, .union hts => by rw [all_eq_of_renamed hR hts]
  | _, _, .never => rfl
  | _, _, .unknown => rfl
termination_by t => sizeOf t

theorem all_eq_of_renamed (hR : ∀ {x y}, R x y → x = y) :
    ∀ {ts us : List Ty}, Forall₂ (Ty.Renamed R) ts us → ts = us
  | [], _, .nil => rfl
  | _ :: _, _, .cons h hs => by rw [eq_of_renamed hR h, all_eq_of_renamed hR hs]
termination_by ts => sizeOf ts

end

end Ty

variable (hR : ∀ {x y}, R x y → x = y)
include hR

theorem ConflictKind.eq_of_renamed {k k' : ConflictKind} (h : k.Renamed R k') : k = k' := by
  have type {t u : Ty} (htu : t.Renamed R u) : t = u := Ty.eq_of_renamed hR htu
  cases h with
  | notAFunction n ht => rw [type ht]
  | unexpectedInputs hf => rw [hR hf]
  | missingInput hf hi => rw [hR hf, hR hi]
  | incompatibleInput hi ht hu => rw [hR hi, type ht, type hu]
  | unimplemented hi hf => rw [hR hi, hR hf]
  | incompatibleBind ht hu => rw [type ht, type hu]
  | expectedBooleanCondition ht => rw [type ht]
  | notInstantiable hd => rw [hR hd]
  | _ => rfl

theorem Conflict.eq_of_renamed {c c' : Conflict} (h : c.Renamed R c') : c = c' := by
  obtain ⟨k, ps, ss⟩ := c
  obtain ⟨k', ps', ss'⟩ := c'
  have hk : k = k' := ConflictKind.eq_of_renamed hR h.kind
  have hps : ps = ps' := eq_of_forall₂ hR h.primary
  have hss : ss = ss' := eq_of_forall₂ hR h.secondary
  rw [hk, hps, hss]

theorem Step.eq_of_renamed {s s' : Step} (h : s.Renamed R s') : s = s' := by
  obtain ⟨x, k⟩ := s
  obtain ⟨y, k'⟩ := s'
  have hx : x = y := hR h.node
  have hk : k = k' := h.kind
  rw [hx, hk]

theorem Value.eq_of_renamed {v w : Value} (h : v.Renamed R w) : v = w := by
  induction h with
  | function c hd => rw [hR hd]
  | method c hd _ ih => rw [hR hd, ih]
  | definition c hd => rw [hR hd]
  | instanceOf s hd => rw [hR hd]
  | @exception e e' he =>
    obtain ⟨k, x⟩ := e
    obtain ⟨k', y⟩ := e'
    have hk : k = k' := he.kind
    have hx : x = y := hR he.node
    rw [hk, hx]
  | _ => rfl

theorem Outcome.eq_of_renamed {o o' : Outcome} (h : o.Renamed R o') : o = o' := by
  cases h with
  | executed hs => rw [Step.eq_of_renamed hR hs]
  | unwound hx => rw [hR hx]
  | completed hv => rw [Value.eq_of_renamed hR hv]

theorem EvalError.eq_of_renamed {e e' : EvalError} (h : e.Renamed R e') : e = e' := by
  cases h with
  | valueStackUnderflow hx => rw [hR hx]
  | jumpOutOfBounds target len hx => rw [hR hx]
  | _ => rfl

end

end Arbor
