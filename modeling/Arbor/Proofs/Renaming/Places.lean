/-
  Places: the renaming that an edit leaves behind.

  A copy in the place of a node of a program gives a program with the same places.  The
  renaming takes each place of the old program to the same place of the new one, and
  everything outside the programs to itself.

  * `Program.SamePlace` is the renaming, and `Program.references` is what the surroundings of
    a program refer to;
  * `Program.Copied` says that a program is another with a copy in it.

  Main statement: `Program.Copied.renamed`, that the renaming relates the programs.
-/
import Arbor.Proofs.Arena.Parents
import Arbor.Proofs.Arena.Replacement
import Arbor.Proofs.Renaming.Basic
import Mathlib.Data.List.Find

namespace Arbor

open List (Forall₂)
open Relator (BiUnique)

/-! ## Pairs of places -/

namespace Arena

/-- The pairs of nodes in the same places below two nodes. -/
def places (a : Arena) (x y : NodeId) : List (NodeId × NodeId) := (a.preorder x).zip (a.preorder y)

section
variable {a : Arena}

theorem zip_flatMap {α β γ δ : Type} {S : α → β → Prop} {f : α → List γ} {g : β → List δ}
    {xs : List α} {ys : List β} (h : Forall₂ S xs ys)
    (hfg : ∀ x y, S x y → (f x).length = (g y).length) :
    (xs.flatMap f).zip (ys.flatMap g) = (xs.zip ys).flatMap fun u => (f u.1).zip (g u.2) := by
  induction h with
  | nil => rfl
  | cons hxy _ ih =>
    rw [List.flatMap_cons, List.flatMap_cons, List.zip_append (hfg _ _ hxy), ih, List.zip_cons_cons,
      List.flatMap_cons]

variable (h : a.Acyclic)
include h

/-- The places below equal nodes are their own and those below their children. -/
theorem places_eq {x y : NodeId} (hxy : a.structurallyEqual x y = true) :
    a.places x y =
      (x, y) :: ((a.children x).zip (a.children y)).flatMap fun u => a.places u.1 u.2 := by
  rw [places, preorder_eq h, preorder_eq h y, List.zip_cons_cons,
    zip_flatMap (equal_children h hxy) fun _ _ => length_preorder_of_equal h]
  rfl

/-- What holds of two equal nodes, and of two children if it holds of their parents, holds of
    the nodes in the same places. -/
theorem places_induction {P : NodeId → NodeId → Prop} {x y : NodeId}
    (hxy : a.structurallyEqual x y = true) (hroot : P x y)
    (hchild : ∀ u v, a.structurallyEqual u v = true → P u v →
      ∀ w ∈ (a.children u).zip (a.children v), P w.1 w.2)
    {u : NodeId × NodeId} (hu : u ∈ a.places x y) : P u.1 u.2 := by
  obtain ⟨rank, hrank⟩ := h
  induction hn : rank x using Nat.strongRecOn generalizing x y with
  | _ n ih =>
    subst hn
    rw [places_eq ⟨rank, hrank⟩ hxy, List.mem_cons] at hu
    rcases hu with rfl | hu
    · exact hroot
    · obtain ⟨w, hw, hu⟩ := List.mem_flatMap.1 hu
      have hequal := (List.forall₂_iff_zip.1 (equal_children ⟨rank, hrank⟩ hxy)).2 hw
      have hlt := hrank x w.1 (List.of_mem_zip (a := w.1) (b := w.2) hw).1
      exact ih _ hlt hequal (hchild x y hxy hroot w hw) hu rfl

theorem mem_places_self {x y : NodeId} (hxy : a.structurallyEqual x y = true) :
    (x, y) ∈ a.places x y := by
  rw [places_eq h hxy]
  exact List.mem_cons_self

theorem equal_of_mem_places {x y : NodeId} (hxy : a.structurallyEqual x y = true)
    {u : NodeId × NodeId} (hu : u ∈ a.places x y) : a.structurallyEqual u.1 u.2 = true := by
  refine places_induction h (P := fun u v => a.structurallyEqual u v = true) hxy hxy ?_ hu
  intro u v huv _ w hw
  exact (List.forall₂_iff_zip.1 (equal_children h huv)).2 hw

/-- The children of nodes in the same places are in the same places. -/
theorem mem_places_child {x y : NodeId} (hxy : a.structurallyEqual x y = true)
    {u : NodeId × NodeId} (hu : u ∈ a.places x y) {w : NodeId × NodeId}
    (hw : w ∈ (a.children u.1).zip (a.children u.2)) : w ∈ a.places x y := by
  obtain ⟨rank, hrank⟩ := h
  induction hn : rank x using Nat.strongRecOn generalizing x y with
  | _ n ih =>
    subst hn
    rw [places_eq ⟨rank, hrank⟩ hxy] at hu ⊢
    refine List.mem_cons_of_mem _ ?_
    rcases List.mem_cons.1 hu with rfl | hu
    · have hequal := (List.forall₂_iff_zip.1 (equal_children ⟨rank, hrank⟩ hxy)).2 hw
      exact List.mem_flatMap.2 ⟨w, hw, mem_places_self ⟨rank, hrank⟩ hequal⟩
    · obtain ⟨v, hv, hu⟩ := List.mem_flatMap.1 hu
      have hequal := (List.forall₂_iff_zip.1 (equal_children ⟨rank, hrank⟩ hxy)).2 hv
      have hlt := hrank x v.1 (List.of_mem_zip (a := v.1) (b := v.2) hv).1
      exact List.mem_flatMap.2 ⟨v, hv, ih _ hlt hequal hu rfl⟩

end

end Arena

/-! ## Nodes of the same shape -/

section
variable (R : NodeId → NodeId → Prop) (a b : Arena)

/-- The slots hold related children in the same way. -/
inductive Child.Renamed : Child → Child → Prop
  | one {c d : NodeId} : R c d → Child.Renamed (.one c) (.one d)
  | optional {c d : Option NodeId} : Option.Rel R c d → Child.Renamed (.optional c) (.optional d)
  | list {r s : NodeRange} : r.Renamed R a b s → Child.Renamed (.list r) (.list s)

end

section
variable {R : NodeId → NodeId → Prop} {a b : Arena}

theorem Child.renamed_of_shape {c d : Child} (hshape : c.sameShape d = true)
    (h : Forall₂ R (a.ofSlot c) (b.ofSlot d)) : c.Renamed R a b d := by
  cases c <;> cases d <;> try cases hshape
  case one => exact .one (List.forall₂_cons.1 h).1
  case optional c d =>
    rcases c with _ | c <;> rcases d with _ | d <;> cases h
    · exact .optional .none
    · exact .optional (.some ‹_›)
  case list => exact .list h

theorem Node.withSlots_bare (n : Node) : n.bare.withSlots n.slots = n := by
  cases n <;> rfl

/-- Nodes of the same kind and data, with slots that are renamed, are renamed. -/
theorem Node.renamed_of_bare {n m : Node} (hbare : n.bare = m.bare)
    (h : Forall₂ (Child.Renamed R a b) n.slots m.slots) : n.Renamed R a b m := by
  rw [← m.withSlots_bare, ← hbare]
  generalize m.slots = ds at h
  -- Each slot of the one node says what the other node has in its slot.
  cases n with
  | program =>
    rcases h with _ | ⟨(_ | _ | ⟨h₁⟩), _ | ⟨⟨h₂⟩, ⟨⟩⟩⟩
    exact .program h₁ h₂
  | block =>
    rcases h with _ | ⟨(_ | _ | ⟨h₁⟩), ⟨⟩⟩
    exact .block h₁
  | bind =>
    rcases h with _ | ⟨⟨h₁⟩, _ | ⟨(_ | ⟨h₂⟩ | _), _ | ⟨(_ | ⟨h₃⟩ | _), ⟨⟩⟩⟩⟩
    exact .bind h₁ h₂ h₃
  | names =>
    rcases h with _ | ⟨(_ | _ | ⟨h₁⟩), ⟨⟩⟩
    exact .names h₁
  | propertyReference =>
    rcases h with _ | ⟨⟨h₁⟩, ⟨⟩⟩
    exact .propertyReference _ h₁
  | binaryOperation =>
    rcases h with _ | ⟨⟨h₁⟩, _ | ⟨⟨h₂⟩, ⟨⟩⟩⟩
    exact .binaryOperation _ h₁ h₂
  | conditional =>
    rcases h with _ | ⟨⟨h₁⟩, _ | ⟨⟨h₂⟩, _ | ⟨⟨h₃⟩, ⟨⟩⟩⟩⟩
    exact .conditional h₁ h₂ h₃
  | evaluate =>
    rcases h with _ | ⟨⟨h₁⟩, _ | ⟨(_ | _ | ⟨h₂⟩), ⟨⟩⟩⟩
    exact .evaluate h₁ h₂
  | functionDefinition =>
    rcases h with _ | ⟨⟨h₁⟩, _ | ⟨(_ | _ | ⟨h₂⟩), _ | ⟨(_ | _ | ⟨h₃⟩), h⟩⟩⟩
    rcases h with _ | ⟨(_ | ⟨h₄⟩ | _), _ | ⟨(_ | ⟨h₅⟩ | _), ⟨⟩⟩⟩
    exact .functionDefinition h₁ h₂ h₃ h₄ h₅
  | structureDefinition =>
    rcases h with _ | ⟨⟨h₁⟩, _ | ⟨(_ | _ | ⟨h₂⟩), _ | ⟨(_ | _ | ⟨h₃⟩), h⟩⟩⟩
    rcases h with _ | ⟨(_ | _ | ⟨h₄⟩), _ | ⟨(_ | ⟨h₅⟩ | _), ⟨⟩⟩⟩
    exact .structureDefinition h₁ h₂ h₃ h₄ h₅
  | typeVariable =>
    rcases h with _ | ⟨⟨h₁⟩, ⟨⟩⟩
    exact .typeVariable h₁
  | nameType =>
    rcases h with _ | ⟨(_ | _ | ⟨h₁⟩), ⟨⟩⟩
    exact .nameType _ h₁
  | _ =>
    cases h
    constructor

end

/-! ## Equal nodes -/

namespace Arena

section
variable {a b : Arena}

theorem shape_of_pairChildren {cs ds : List Child} {pairs : List (NodeId × NodeId)}
    (h : a.pairChildren cs ds = some pairs) :
    Forall₂ (fun c d => c.sameShape d = true ∧ (a.ofSlot c).length = (a.ofSlot d).length)
      cs ds := by
  induction cs generalizing ds pairs with
  | nil =>
    cases ds with
    | nil => exact .nil
    | cons d ds => cases h
  | cons c cs ih =>
    cases ds with
    | nil => cases h
    | cons d ds =>
      unfold pairChildren at h
      split at h
      · next hcd =>
        obtain ⟨rest, hrest, -⟩ := Option.map_eq_some_iff.1 h
        obtain ⟨hshape, hlength⟩ := Bool.and_eq_true_iff.1 hcd
        exact .cons ⟨hshape, beq_iff_eq.1 hlength⟩ (ih hrest)
      · cases h

/-- Equal nodes have the same kind and data, and as many children in each slot. -/
theorem shape_of_equal (h : a.Acyclic) {x y : NodeId} {n : Node}
    (hxy : a.structurallyEqual x y = true) (hn : a.node? x = some n) :
    ∃ m, a.node? y = some m ∧ n.bare = m.bare ∧
      Forall₂ (fun c d => c.sameShape d = true ∧ (a.ofSlot c).length = (a.ofSlot d).length)
        n.slots m.slots := by
  rw [structurallyEqual_eq h, Bool.or_eq_true, beq_iff_eq, hn] at hxy
  rcases hxy with rfl | hxy
  · refine ⟨n, hn, rfl, List.forall₂_same.2 fun c _ => ⟨?_, rfl⟩⟩
    cases c <;> rfl
  · split at hxy
    · next hl hm =>
      cases hl
      refine ⟨_, hm, ?_⟩
      split at hxy
      · next pairs hpairs =>
        unfold matchNodes at hpairs
        split at hpairs
        · next hbare => exact ⟨hbare, shape_of_pairChildren hpairs⟩
        · cases hpairs
      · cases hxy
    · cases hxy

/-- What is equal to a node of the arena is one. -/
theorem knows_of_equal (h : a.Acyclic) {x y : NodeId} (hx : a.Knows x)
    (hxy : a.structurallyEqual x y = true) : a.Knows y := by
  obtain ⟨n, hn⟩ := knows_iff.1 hx
  obtain ⟨m, hm, -⟩ := shape_of_equal h hxy hn
  exact knows_iff.2 ⟨m, hm⟩

variable {R : NodeId → NodeId → Prop}

theorem renamed_slots {cs ds : List Child} (hab : a.Extends b) (hfits : ∀ c ∈ cs, a.Fits c)
    (hshape : Forall₂ (fun c d => c.sameShape d = true ∧
      (b.ofSlot c).length = (b.ofSlot d).length) cs ds)
    (hR : Forall₂ R (cs.flatMap b.ofSlot) (ds.flatMap b.ofSlot)) :
    Forall₂ (Child.Renamed R a b) cs ds := by
  induction hshape with
  | nil => exact .nil
  | cons hcd _ ih =>
    rw [List.forall_mem_cons] at hfits
    obtain ⟨hslot, hslots⟩ := forall₂_of_append hcd.2 hR
    rw [hab.ofSlot hfits.1] at hslot
    exact .cons (Child.renamed_of_shape hcd.1 hslot) (ih hfits.2 hslots)

/-- Equal nodes are renamed if their children are related. -/
theorem renamed_of_equal (ha : a.Complete) (hab : a.Extends b) (hbc : b.Acyclic) {x y : NodeId}
    (hxy : b.structurallyEqual x y = true) (hx : a.Knows x)
    (hR : ∀ w ∈ (b.children x).zip (b.children y), R w.1 w.2) :
    ∃ n m, a.node? x = some n ∧ b.node? y = some m ∧ n.Renamed R a b m := by
  obtain ⟨n, hn⟩ := knows_iff.1 hx
  obtain ⟨m, hm, hbare, hshape⟩ := shape_of_equal hbc hxy (hab.node? x n hn)
  have hchildren : Forall₂ R (b.children x) (b.children y) :=
    List.forall₂_iff_zip.2 ⟨(equal_children hbc hxy).length_eq, fun hw => hR _ hw⟩
  rw [children_eq (hab.node? x n hn), children_eq hm] at hchildren
  exact ⟨n, m, hn, hm,
    Node.renamed_of_bare hbare (renamed_slots hab (ha.fits x n hn) hshape hchildren)⟩

/-! ## Below and above -/

theorem rank_le_of_mem_preorder {rank : NodeId → Nat}
    (hrank : ∀ id, ∀ c ∈ a.children id, rank c < rank id) {root z : NodeId}
    (hz : z ∈ a.preorder root) : rank z ≤ rank root := by
  induction hn : rank root using Nat.strongRecOn generalizing root with
  | _ n ih =>
    subst hn
    rw [preorder_eq ⟨rank, hrank⟩, List.mem_cons] at hz
    rcases hz with rfl | hz
    · exact Nat.le_refl _
    · obtain ⟨c, hc, hz⟩ := List.mem_flatMap.1 hz
      have hlt := hrank root c hc
      exact Nat.le_trans (ih _ hlt hz rfl) (Nat.le_of_lt hlt)

/-- What is below a node that is below another is below the other. -/
theorem mem_preorder_trans (h : a.Acyclic) {x y z : NodeId} (hy : y ∈ a.preorder x)
    (hz : z ∈ a.preorder y) : z ∈ a.preorder x := by
  obtain ⟨rank, hrank⟩ := h
  induction hn : rank y using Nat.strongRecOn generalizing y with
  | _ n ih =>
    subst hn
    rw [preorder_eq ⟨rank, hrank⟩, List.mem_cons] at hz
    rcases hz with rfl | hz
    · exact hy
    · obtain ⟨c, hc, hz⟩ := List.mem_flatMap.1 hz
      exact ih _ (hrank y c hc) (mem_preorder_child ⟨rank, hrank⟩ hy hc) hz rfl

/-- What has another node below it is a node of the arena. -/
theorem knows_of_mem_preorder (h : a.Acyclic) {root z : NodeId} (hz : z ∈ a.preorder root)
    (hne : z ≠ root) : a.Knows root := by
  rw [preorder_eq h, List.mem_cons] at hz
  obtain ⟨c, hc, -⟩ := List.mem_flatMap.1 (hz.resolve_left hne)
  exact lt_size_of_mem_children hc

/-- No node below another has it as a child. -/
theorem not_mem_children_below (h : a.Acyclic) {x z : NodeId} (hz : z ∈ a.preorder x) :
    x ∉ a.children z := by
  obtain ⟨rank, hrank⟩ := h
  intro hx
  exact Nat.lt_irrefl _ (Nat.lt_of_lt_of_le (hrank z x hx) (rank_le_of_mem_preorder hrank hz))

end

end Arena

namespace Tree

variable {a : Arena} {root : NodeId} {detached : List NodeId}

/-- The parent of a node outside the program is in a detached tree. -/
theorem parent?_detached (h : a.Acyclic) {c : NodeId} (hc : c ∉ a.preorder root) :
    (ofRoots a root detached).parent? c =
      (a.preorders detached).find? fun id => c ∈ a.children id := by
  have hnone : (a.preorder root).find? (fun id => c ∈ a.children id) = none :=
    List.find?_eq_none.2 fun z hz hchild =>
      hc (Arena.mem_preorder_child h hz (by simpa using hchild))
  rw [parent?_ofRoots_eq]
  dsimp only [Arena.preorders]
  rw [List.flatMap_cons, List.find?_append, hnone, Option.none_or]

end Tree

/-! ## References -/

namespace Ty

mutual

/-- The nodes that a type refers to. -/
def nodes : Ty → List NodeId
  | primitive _ | never | unknown => []
  | instanceOf d args => d :: nodesOfAll args
  | definition d | function d | typeVar d => [d]
  | union members => nodesOfAll members

/-- The nodes that several types refer to. -/
def nodesOfAll : List Ty → List NodeId
  | [] => []
  | t :: ts => t.nodes ++ nodesOfAll ts

end

variable {R : NodeId → NodeId → Prop}

mutual

/-- A type is its own renaming if its nodes are. -/
theorem renamed_self : (t : Ty) → (∀ x ∈ t.nodes, R x x) → t.Renamed R t
  | .primitive q, _ => .primitive q
  | .instanceOf d args, h =>
    .instanceOf (h d List.mem_cons_self)
      (renamed_self_of_all args fun x hx => h x (List.mem_cons_of_mem _ hx))
  | .definition d, h => .definition (h d List.mem_cons_self)
  | .function d, h => .function (h d List.mem_cons_self)
  | .typeVar v, h => .typeVar (h v List.mem_cons_self)
  | .union members, h => .union (renamed_self_of_all members h)
  | .never, _ => .never
  | .unknown, _ => .unknown

theorem renamed_self_of_all :
    (ts : List Ty) → (∀ x ∈ nodesOfAll ts, R x x) → Forall₂ (Ty.Renamed R) ts ts
  | [], _ => .nil
  | t :: ts, h =>
    .cons (renamed_self t fun x hx => h x (List.mem_append_left _ hx))
      (renamed_self_of_all ts fun x hx => h x (List.mem_append_right _ hx))

end

end Ty

/-- The nodes that the shares refer to. -/
def Shares.references (s : Shares) : List NodeId :=
  s.structures ++ s.streams.flatMap fun info => info.type.nodes

namespace Program

/-- The roots of the trees that are detached from a program. -/
def detached (p : Program) : List NodeId := p.basis.roots ++ p.shares.elim [] Shares.structures

/-- The nodes that the surroundings of a program refer to. -/
def references (p : Program) : List NodeId := p.basis.roots ++ p.shares.elim [] Shares.references

theorem mem_references_of_mem_detached {p : Program} {d : NodeId} (hd : d ∈ p.detached) : d ∈ p.references := by
  rcases List.mem_append.1 hd with hd | hd
  · exact List.mem_append_left _ hd
  · refine List.mem_append_right _ ?_
    revert hd
    cases p.shares with
    | none => exact id
    | some shares => exact List.mem_append_left _

section
variable {R : NodeId → NodeId → Prop} {p q : Program}

/-- The methods of primitive values are renamed to themselves, if what the basis refers to
    is. -/
theorem renamed_method_of_basis (h : ∀ r ∈ p.basis.roots, R r r) (hbasis : q.basis = p.basis)
    (k : Primitive) (n : Name) :
    Option.Rel R (p.basis.function? k n) (q.basis.function? k n) := by
  rw [hbasis]
  cases hf : p.basis.function? k n with
  | none => exact .none
  | some f =>
    obtain ⟨before, after, hfunctions, -⟩ := List.lookup_eq_some_iff.1 hf
    refine .some (h f (List.mem_map.2 ⟨((k, n), f), ?_, rfl⟩))
    rw [hfunctions]
    exact List.mem_append_right _ List.mem_cons_self

/-- The same shares give the same streams. -/
theorem eq_of_sameStream (hshares : q.shares = p.shares) {s s' : StreamId}
    (hs : p.SameStream R q s s') : s = s' := by
  obtain ⟨x, y, n, -, -, hp, hq⟩ := hs
  rw [streamNamed?, hshares, ← streamNamed?, hp] at hq
  exact Option.some.inj hq

theorem biUnique_sameStream (hshares : q.shares = p.shares) : BiUnique (p.SameStream R q) :=
  ⟨fun _ _ _ hs ht => (eq_of_sameStream hshares hs).trans (eq_of_sameStream hshares ht).symm,
    fun _ _ _ hs ht => (eq_of_sameStream hshares hs).symm.trans (eq_of_sameStream hshares ht)⟩

section
variable (h : ∀ r ∈ p.references, R r r)
include h

theorem renamed_share_of_references (hshares : q.shares = p.shares) (n : Name) :
    Option.Rel (Share.Renamed R) (p.share? n) (q.share? n) := by
  rw [share?, share?, hshares]
  cases hs : p.shares with
  | none => exact .none
  | some shares =>
    rw [Option.bind_some]
    cases hd : shares.get? n with
    | none => exact .none
    | some share =>
      cases share with
      | stream s => exact .some (.stream s s)
      | structureDef d =>
        refine .some (.structureDef (h d (List.mem_append_right _ ?_)))
        rw [hs]
        exact List.mem_append_left _ (Shares.mem_structures hd)

theorem renamed_stream_of_references (hshares : q.shares = p.shares) {s s' : StreamId}
    (hs : p.SameStream R q s s') :
    Option.Rel (Ty.Renamed R) (p.streamType? s) (q.streamType? s') := by
  obtain rfl := eq_of_sameStream hshares hs
  rw [streamType?, streamType?, hshares]
  cases hs : p.shares with
  | none => exact .none
  | some shares =>
    rw [Option.bind_some]
    cases hi : shares.stream? s with
    | none => exact .none
    | some info =>
      refine .some (info.type.renamed_self fun x hx => h x ?_)
      refine List.mem_append_right _ ?_
      rw [hs]
      exact List.mem_append_right _
        (List.mem_flatMap.2 ⟨info, List.mem_of_getElem? hi, hx⟩)

end

end

/-- What is below the nodes that the surroundings of a program refer to. -/
def surroundings (p : Program) : List NodeId := p.arena.preorders p.references

/-- The places of one program are renamed to the same places of the other, and nothing around
    them is renamed. -/
inductive SamePlace (p q : Program) : NodeId → NodeId → Prop
  | inside {x y : NodeId} : (x, y) ∈ p.tree.nodes.zip q.tree.nodes → SamePlace p q x y
  | outside {x : NodeId} : x ∈ p.surroundings → x ∉ p.tree.nodes → SamePlace p q x x

/-- The program `q` is `p` with a copy in the place of a node, and neither that node nor the
    copy are among what the surroundings refer to. -/
structure Edited (p q : Program) (original copy : NodeId) : Prop where
  copyOf : p.arena.CopyOf original copy
  grown : p.arena.Grown q.arena
  becomes : p.arena.Becomes original copy p.arena q.arena [p.root] [q.root]
  new : ¬p.arena.Knows q.root
  tree : p.tree = .ofRoots p.arena p.root p.detached
  tree' : q.tree = .ofRoots q.arena q.root p.detached
  interner : q.interner = p.interner
  basis : q.basis = p.basis
  shares : q.shares = p.shares
  once : p.tree.nodes.Nodup
  below : original ∈ p.tree.nodes
  apart : ∀ z ∈ p.tree.nodes, z ∉ p.arena.preorder copy
  known : ∀ r ∈ p.references, p.arena.Knows r
  untouched : ∀ z ∈ p.surroundings, z ∉ p.arena.preorder original ∧ z ∉ p.arena.preorder copy

namespace Edited

variable {p q : Program} {original copy : NodeId} (h : p.Edited q original copy)
include h

theorem acyclic : p.arena.Acyclic := h.copyOf.acyclic

theorem acyclic' : q.arena.Acyclic := h.grown.acyclic h.copyOf.complete h.acyclic

theorem nodes_eq : p.tree.nodes = p.arena.preorder p.root := by
  rw [h.tree]
  rfl

theorem nodes_eq' : q.tree.nodes = q.arena.preorder q.root := by
  rw [h.tree']
  rfl

theorem equal : q.arena.structurallyEqual p.root q.root = true :=
  (List.forall₂_cons.1 h.becomes.equal).1

/-- The nodes of the old program are the same in the new arena. -/
theorem nodes_eq_new : p.tree.nodes = q.arena.preorder p.root := by
  rw [h.nodes_eq, h.copyOf.complete.preorder_eq h.acyclic h.acyclic' h.grown.extends_
    (h.becomes.known _ List.mem_cons_self)]

theorem zip_eq : p.tree.nodes.zip q.tree.nodes = q.arena.places p.root q.root := by
  rw [h.nodes_eq_new, h.nodes_eq', Arena.places]

theorem length_eq : p.tree.nodes.length = q.tree.nodes.length := by
  rw [h.nodes_eq_new, h.nodes_eq', Arena.length_preorder_of_equal h.acyclic' h.equal]

theorem once' : q.tree.nodes.Nodup := by
  have honce := h.becomes.once
  simp only [Arena.preorders, List.flatMap_singleton, ← h.nodes_eq, ← h.nodes_eq'] at honce
  exact honce h.once h.apart

/-! ## Inside and outside -/

theorem knows_of_mem_nodes {z : NodeId} (hz : z ∈ p.tree.nodes) : p.arena.Knows z := by
  rw [h.nodes_eq] at hz
  exact h.copyOf.complete.knows_of_mem_preorder h.acyclic
    (h.becomes.known _ List.mem_cons_self) hz

theorem knows_of_mem_surroundings {z : NodeId} (hz : z ∈ p.surroundings) : p.arena.Knows z :=
  h.copyOf.complete.knows_of_mem_preorders h.acyclic h.known hz

theorem mem_surroundings_child {x c : NodeId} (hx : x ∈ p.surroundings)
    (hc : c ∈ p.arena.children x) : c ∈ p.surroundings := by
  obtain ⟨r, hr, hx⟩ := List.mem_flatMap.1 hx
  exact List.mem_flatMap.2 ⟨r, hr, Arena.mem_preorder_child h.acyclic hx hc⟩

omit h in
theorem mem_surroundings_of_detached {d z : NodeId} (hd : d ∈ p.detached)
    (hz : z ∈ p.arena.preorder d) : z ∈ p.surroundings :=
  List.mem_flatMap.2 ⟨d, mem_references_of_mem_detached hd, hz⟩

/-- What the surroundings and the new program share was in the old program. -/
theorem mem_nodes_of_mem_nodes' {z : NodeId} (hz : z ∈ p.surroundings) (hz' : z ∈ q.tree.nodes) :
    z ∈ p.tree.nodes := by
  have hnodes := h.becomes.nodes z (by simpa [← h.nodes_eq'] using hz')
  rcases hnodes with hnew | hold | ⟨hcopy, -⟩
  · exact absurd (h.knows_of_mem_surroundings hz) hnew
  · simpa [← h.nodes_eq] using hold
  · exact absurd hcopy (h.untouched z hz).2

/-- What the surroundings and the old program share stays in its place. -/
theorem eq_of_mem_zip {x y : NodeId} (hxy : (x, y) ∈ p.tree.nodes.zip q.tree.nodes)
    (hx : x ∈ p.surroundings) : x = y := by
  have hkept := h.becomes.kept (x, y) (by simpa [← h.nodes_eq, ← h.nodes_eq'] using hxy)
  rcases hkept with heq | habove | hbelow
  · exact heq
  · obtain ⟨r, hr, hx⟩ := List.mem_flatMap.1 hx
    have htarget := List.mem_flatMap.2 ⟨r, hr, Arena.mem_preorder_trans h.acyclic hx habove⟩
    exact absurd (Arena.mem_preorder_self h.acyclic original) (h.untouched original htarget).1
  · exact absurd hbelow (h.untouched x hx).1

/-- Nothing around the programs is renamed. -/
theorem samePlace_self {x : NodeId} (hx : x ∈ p.surroundings) : p.SamePlace q x x := by
  by_cases hmem : x ∈ p.tree.nodes
  · obtain ⟨i, hi, rfl⟩ := List.mem_iff_getElem.1 hmem
    have hi' : i < q.tree.nodes.length := h.length_eq ▸ hi
    have hzip : (p.tree.nodes[i], q.tree.nodes[i]) ∈ p.tree.nodes.zip q.tree.nodes := by
      refine List.mem_iff_getElem.2 ⟨i, by rw [List.length_zip]; omega, ?_⟩
      rw [List.getElem_zip]
    rw [← h.eq_of_mem_zip hzip hx] at hzip
    exact .inside hzip
  · exact .outside hx hmem

/-- Each place is renamed to one place, and no two to the same. -/
theorem biUnique : BiUnique (p.SamePlace q) := by
  have hfst : ((p.tree.nodes.zip q.tree.nodes).map Prod.fst).Nodup := by
    rw [List.map_fst_zip (Nat.le_of_eq h.length_eq)]
    exact h.once
  have hsnd : ((p.tree.nodes.zip q.tree.nodes).map Prod.snd).Nodup := by
    rw [List.map_snd_zip (Nat.le_of_eq h.length_eq.symm)]
    exact h.once'
  constructor
  · rintro x y z (hxz | ⟨hx, hnx⟩) (hyz | ⟨hy, hny⟩)
    · exact congrArg Prod.fst (List.inj_on_of_nodup_map hsnd hxz hyz rfl)
    · exact absurd (h.mem_nodes_of_mem_nodes' hy (List.of_mem_zip hxz).2) hny
    · exact absurd (h.mem_nodes_of_mem_nodes' hx (List.of_mem_zip hyz).2) hnx
    · rfl
  · rintro x y z (hxy | ⟨hx, hnx⟩) (hxz | ⟨_, hny⟩)
    · exact congrArg Prod.snd (List.inj_on_of_nodup_map hfst hxy hxz rfl)
    · exact absurd (List.of_mem_zip hxy).1 hny
    · exact absurd (List.of_mem_zip hxz).1 hnx
    · rfl

/-! ## Nodes -/

/-- Renamed nodes have the same kind and data, and renamed children. -/
theorem renamed_node {x y : NodeId} (hxy : p.SamePlace q x y) :
    ∃ n m, p.node? x = some n ∧ q.node? y = some m ∧
      n.Renamed (p.SamePlace q) p.arena q.arena m := by
  have complete := h.copyOf.complete
  have hacyclic := h.acyclic'
  rcases hxy with hxy | ⟨hx, -⟩
  · have hknown := h.knows_of_mem_nodes (List.of_mem_zip hxy).1
    have hplace := h.zip_eq ▸ hxy
    have hequal := Arena.equal_of_mem_places hacyclic h.equal hplace
    refine Arena.renamed_of_equal complete h.grown.extends_ hacyclic hequal hknown fun w hw => ?_
    refine .inside ?_
    rw [h.zip_eq]
    exact Arena.mem_places_child hacyclic h.equal hplace hw
  · have hknown := h.knows_of_mem_surroundings hx
    have hequal := Arena.structurallyEqual_self hacyclic x
    refine Arena.renamed_of_equal complete h.grown.extends_ hacyclic hequal hknown fun w hw => ?_
    have heq : w.1 = w.2 := List.forall₂_zip (List.forall₂_same.2 fun _ _ => rfl) hw
    have hchild := (List.of_mem_zip (a := w.1) (b := w.2) hw).1
    rw [complete.children_eq h.grown.extends_ hknown] at hchild
    rw [← heq]
    exact h.samePlace_self (h.mem_surroundings_child hx hchild)

/-! ## Ancestors -/

/-- The surroundings do not reach the root. -/
theorem treeShaped : p.TreeShaped where
  acyclic := h.acyclic
  tree := ⟨_, h.tree⟩
  once := h.once
  top := by
    rw [h.tree]
    refine Tree.parent?_root h.acyclic fun d hd hreaches => ?_
    exfalso
    have hroot := (Arena.mem_preorder_iff h.acyclic).2 hreaches
    have hbelow := h.below
    rw [h.nodes_eq] at hbelow
    have hmem := mem_surroundings_of_detached hd (Arena.mem_preorder_trans h.acyclic hroot hbelow)
    exact (h.untouched original hmem).1 (Arena.mem_preorder_self h.acyclic original)

theorem preorder_detached {d : NodeId} (hd : d ∈ p.detached) :
    q.arena.preorder d = p.arena.preorder d :=
  h.copyOf.complete.preorder_eq h.acyclic h.acyclic' h.grown.extends_
    (h.known d (mem_references_of_mem_detached hd))

theorem treeShaped' : q.TreeShaped where
  acyclic := h.acyclic'
  tree := ⟨_, h.tree'⟩
  once := h.once'
  top := by
    rw [h.tree']
    refine Tree.parent?_root h.acyclic' fun d hd hreaches => absurd ?_ h.new
    have hroot := (Arena.mem_preorder_iff h.acyclic').2 hreaches
    rw [h.preorder_detached hd] at hroot
    exact h.knows_of_mem_surroundings (mem_surroundings_of_detached hd hroot)

theorem preorders_detached : q.arena.preorders p.detached = p.arena.preorders p.detached := by
  dsimp only [Arena.preorders]
  rw [List.flatMap_def, List.flatMap_def, List.map_congr_left fun d hd => h.preorder_detached hd]

/-- What is outside the programs has the same parent around both of them. -/
theorem parent?_outside {x : NodeId} (hx : x ∈ p.surroundings) (hnx : x ∉ p.tree.nodes) :
    q.tree.parent? x = p.tree.parent? x := by
  have hnx' : x ∉ q.tree.nodes := fun hx' => hnx (h.mem_nodes_of_mem_nodes' hx hx')
  rw [h.nodes_eq] at hnx
  rw [h.nodes_eq'] at hnx'
  rw [h.tree, h.tree', Tree.parent?_detached h.acyclic hnx, Tree.parent?_detached h.acyclic' hnx',
    h.preorders_detached]
  refine List.find?_congr fun z hz => ?_
  obtain ⟨d, hd, hz⟩ := List.mem_flatMap.1 hz
  have hknown := h.knows_of_mem_surroundings (mem_surroundings_of_detached hd hz)
  rw [h.copyOf.complete.children_eq h.grown.extends_ hknown]

/-- The parent of what is outside the program is outside too. -/
theorem parent_mem_surroundings {x z : NodeId} (hnx : x ∉ p.tree.nodes)
    (hz : p.tree.parent? x = some z) : z ∈ p.surroundings ∧ z ∉ p.tree.nodes := by
  have hnx' := hnx
  rw [h.nodes_eq] at hnx'
  rw [h.tree, Tree.parent?_detached h.acyclic hnx'] at hz
  have hchild : x ∈ p.arena.children z := by simpa using List.find?_some hz
  obtain ⟨d, hd, hzd⟩ := List.mem_flatMap.1 (List.mem_of_find?_eq_some hz)
  exact ⟨mem_surroundings_of_detached hd hzd, fun hz => hnx (h.treeShaped.child_mem hz hchild)⟩

/-- Renamed nodes stand below renamed nodes. -/
theorem renamed_ancestors {x y : NodeId} (hxy : p.SamePlace q x y) :
    Forall₂ (p.SamePlace q) (p.tree.ancestors x) (q.tree.ancestors y) := by
  rcases hxy with hxy | ⟨hx, hnx⟩
  · -- From the roots down: a child stands below its parent and what that stands below.
    have hplaces := h.zip_eq ▸ hxy
    refine (Arena.places_induction h.acyclic' h.equal (P := fun x y =>
      (x, y) ∈ p.tree.nodes.zip q.tree.nodes ∧
        Forall₂ (p.SamePlace q) (p.tree.ancestors x) (q.tree.ancestors y)) ⟨?_, ?_⟩ ?_ hplaces).2
    · rw [h.zip_eq]
      exact Arena.mem_places_self h.acyclic' h.equal
    · rw [h.treeShaped.ancestors_root, h.treeShaped'.ancestors_root]
      exact .nil
    · rintro u v - ⟨huv, ih⟩ w hw
      obtain ⟨hu, hv⟩ := List.of_mem_zip huv
      obtain ⟨hc, hd⟩ := List.of_mem_zip (a := w.1) (b := w.2) hw
      refine ⟨?_, ?_⟩
      · rw [h.zip_eq] at huv ⊢
        exact Arena.mem_places_child h.acyclic' h.equal huv hw
      · have hc' : w.1 ∈ p.arena.children u := by
          rwa [h.copyOf.complete.children_eq h.grown.extends_ (h.knows_of_mem_nodes hu)] at hc
        rw [h.treeShaped.ancestors_child hu hc', h.treeShaped'.ancestors_child hv hd]
        exact .cons (.inside huv) ih
  · -- From the node up: both have the same parent.
    generalize hl : p.tree.ancestors x = l
    induction l generalizing x with
    | nil =>
      rw [h.treeShaped.ancestors_eq] at hl
      rw [h.treeShaped'.ancestors_eq, h.parent?_outside hx hnx]
      split at hl
      · exact .nil
      · cases hl
    | cons z l ih =>
      rw [h.treeShaped.ancestors_eq] at hl
      rw [h.treeShaped'.ancestors_eq, h.parent?_outside hx hnx]
      split at hl
      · cases hl
      · next hz =>
        cases hl
        obtain ⟨hzs, hnz⟩ := h.parent_mem_surroundings hnx hz
        exact .cons (.outside hzs hnz) (ih hzs hnz rfl)

/-! ## Surroundings -/

theorem samePlace_reference {r : NodeId} (hr : r ∈ p.references) : p.SamePlace q r r :=
  h.samePlace_self (List.mem_flatMap.2 ⟨r, hr, Arena.mem_preorder_self h.acyclic r⟩)

theorem renamed_method (k : Primitive) (n : Name) :
    Option.Rel (p.SamePlace q) (p.basis.function? k n) (q.basis.function? k n) :=
  renamed_method_of_basis (fun _ hr => h.samePlace_reference (List.mem_append_left _ hr)) h.basis k n

theorem renamed_share (n : Name) :
    Option.Rel (Share.Renamed (p.SamePlace q)) (p.share? n) (q.share? n) :=
  renamed_share_of_references (fun _ => h.samePlace_reference) h.shares n

theorem renamed_stream {s s' : StreamId} (hs : p.SameStream (p.SamePlace q) q s s') :
    Option.Rel (Ty.Renamed (p.SamePlace q)) (p.streamType? s) (q.streamType? s') :=
  renamed_stream_of_references (fun _ => h.samePlace_reference) h.shares hs

/-- **The program with a copy in it is the program renamed**, place by place. -/
theorem renamed : p.Renamed (p.SamePlace q) q where
  unique := h.biUnique
  uniqueStream := biUnique_sameStream h.shares
  node := h.renamed_node
  ancestors hxy _ := h.renamed_ancestors hxy
  nodes := List.forall₂_iff_zip.2 ⟨h.length_eq, .inside⟩
  root := by
    refine .inside ?_
    rw [h.zip_eq]
    exact Arena.mem_places_self h.acyclic' h.equal
  interner := h.interner
  method := h.renamed_method
  share _ _ := h.renamed_share _
  stream := h.renamed_stream
  acyclic := h.acyclic
  acyclic' := h.acyclic'

end Edited

end Program

end Arbor
