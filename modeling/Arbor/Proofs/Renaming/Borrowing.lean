/-
  Programs that borrow the same.

  A program sees its own nodes, the structures that it borrows, what the types of the streams
  that it borrows name, and what these borrow in turn.  The parents of all nodes are kept in one
  table, also those of the structures that nobody borrows, but no look-up from a node that the
  program sees gets to these: two programs that borrow the same are renamed to each other,
  every node to itself and each stream to the one of the same name.

  * `Program.Observes` are the nodes that a program sees, and `Program.Borrows` the names that
    it borrows;
  * `Program.SameBorrows` says that two programs differ in nothing that they borrow.

  Main statement: `Program.SameBorrows.renamed`.
-/
import Arbor.Proofs.Renaming.Growth

namespace Arbor

open List (Forall₂)
open Relator (BiUnique)

/-! ## What a program sees -/

/-- What is shared under a name, whatever the number of a stream. -/
inductive Offer where
  /-- A structure. -/
  | structureDef (definition : NodeId)
  /-- A stream, by the type of its values. -/
  | stream (type : Option Ty)
deriving DecidableEq

namespace Program

variable (p : Program)

/-- What is shared under a name. -/
def offer? (n : Name) : Option Offer :=
  (p.share? n).map fun
    | .structureDef d => .structureDef d
    | .stream s => .stream (p.streamType? s)

/-- The structures that are registered, whether they are borrowed or not. -/
def registered : List NodeId := p.shares.elim [] Shares.structures

/-- The nodes that a program sees: what is below its root, below the structures that are
    borrowed below a node that it sees, and below what the types of the streams name that are
    borrowed there. -/
inductive Observes : NodeId → Prop
  | root : Observes p.root
  | child {x c : NodeId} : Observes x → c ∈ p.arena.children x → Observes c
  | structureDef {x d : NodeId} {n : Name} : Observes x → p.node? x = some (.borrow n) →
      p.offer? n = some (.structureDef d) → Observes d
  | stream {x d : NodeId} {n : Name} {t : Ty} : Observes x → p.node? x = some (.borrow n) →
      p.offer? n = some (.stream (some t)) → d ∈ t.nodes → Observes d

/-- A node that the program sees borrows the name. -/
def Borrows (n : Name) : Prop := ∃ x, p.Observes x ∧ p.node? x = some (.borrow n)

/-- The registered structures have no node in common with the program or with each other, nor
    do those that are not borrowed with what the types of the borrowed streams name. -/
structure Apart : Prop where
  program : ∀ d ∈ p.registered, ∀ z ∈ p.arena.preorder d, z ∉ p.arena.preorder p.root
  pairwise : ∀ d ∈ p.registered, ∀ e ∈ p.registered, ∀ z ∈ p.arena.preorder d,
    z ∈ p.arena.preorder e → d = e
  types : ∀ n t, p.Borrows n → p.offer? n = some (.stream (some t)) → ∀ x ∈ t.nodes,
    ∀ z ∈ p.arena.preorder x, ∀ d ∈ p.registered, z ∈ p.arena.preorder d →
      ∃ m, p.Borrows m ∧ p.offer? m = some (.structureDef d)

variable {p} {n : Name}

theorem streamNamed?_eq_some {s : StreamId} :
    p.streamNamed? n = some s ↔ p.share? n = some (.stream s) := by
  rw [Renamed.streamNamed?_eq_share]
  cases p.share? n with
  | none => simp
  | some share => cases share <;> simp

theorem offer?_structureDef {d : NodeId} :
    p.offer? n = some (.structureDef d) ↔ p.share? n = some (.structureDef d) := by
  unfold offer?
  cases p.share? n with
  | none => simp
  | some share => cases share <;> simp

theorem offer?_stream {t : Option Ty} :
    p.offer? n = some (.stream t) ↔ ∃ s, p.streamNamed? n = some s ∧ p.streamType? s = t := by
  simp only [streamNamed?_eq_some]
  unfold offer?
  cases p.share? n with
  | none => simp
  | some share => cases share <;> simp

/-- What is offered as a structure is registered. -/
theorem mem_registered {d : NodeId} (h : p.offer? n = some (.structureDef d)) :
    d ∈ p.registered := by
  rw [offer?_structureDef, share?, Option.bind_eq_some_iff] at h
  obtain ⟨shares, hshares, hd⟩ := h
  rw [registered, hshares]
  exact Shares.mem_structures hd

theorem Observes.mem_preorder (ha : p.arena.Acyclic) {x z : NodeId} (hx : p.Observes x)
    (hz : z ∈ p.arena.preorder x) : p.Observes z := by
  obtain ⟨rank, hrank⟩ := ha
  induction hn : rank x using Nat.strongRecOn generalizing x with
  | _ n ih =>
    subst hn
    rw [Arena.preorder_eq ⟨rank, hrank⟩, List.mem_cons] at hz
    rcases hz with rfl | hz
    · exact hx
    · obtain ⟨c, hc, hz⟩ := List.mem_flatMap.1 hz
      exact ih _ (hrank x c hc) (hx.child hc) hz rfl

/-- A registered structure that the program sees a part of is borrowed. -/
theorem Apart.borrowed (h : p.Apart) (ha : p.arena.Acyclic) {x : NodeId} (hx : p.Observes x)
    {d : NodeId} (hd : d ∈ p.registered) {z : NodeId} (hzx : z ∈ p.arena.preorder x)
    (hzd : z ∈ p.arena.preorder d) :
    ∃ n, p.Borrows n ∧ p.offer? n = some (.structureDef d) := by
  induction hx generalizing z with
  | root => exact absurd hzx (h.program d hd z hzd)
  | child _ hc ih =>
    refine ih (Arena.mem_preorder_trans ha ?_ hzx) hzd
    exact Arena.mem_preorder_child ha (Arena.mem_preorder_self ha _) hc
  | @structureDef x e n hx hn he =>
    obtain rfl := h.pairwise e (mem_registered he) d hd z hzx hzd
    exact ⟨n, ⟨x, hx, hn⟩, he⟩
  | stream hx hn ht hy => exact h.types _ _ ⟨_, hx, hn⟩ ht _ hy z hzx d hd hzd

end Program

/-! ## Two programs that borrow the same -/

namespace Program

/-- The programs are read from the same nodes, differ in nothing that they borrow, and the
    basis uses no names. -/
structure SameBorrows (p q : Program) : Prop where
  complete : p.arena.Complete
  acyclic : p.arena.Acyclic
  arena : q.arena = p.arena
  interner : q.interner = p.interner
  basis : q.basis = p.basis
  tree : p.tree = .ofRoots p.arena p.root (p.basis.roots ++ p.registered)
  tree' : q.tree = .ofRoots p.arena p.root (p.basis.roots ++ q.registered)
  root : p.arena.Knows p.root
  known : ∀ r ∈ p.references, p.arena.Knows r
  quiet : ∀ x ∈ p.arena.preorders p.basis.roots,
    ¬p.LooksUp x ∧ ∀ n, p.node? x ≠ some (.borrow n)
  named : ∀ n m s, p.streamNamed? n = some s → p.streamNamed? m = some s → n = m
  named' : ∀ n m s, q.streamNamed? n = some s → q.streamNamed? m = some s → n = m
  agree : ∀ n, p.Borrows n → q.offer? n = p.offer? n
  apart : p.Apart
  apart' : q.Apart

/-- The nodes are the same one, which the program sees or the basis has. -/
def Observed (p : Program) (x y : NodeId) : Prop :=
  x = y ∧ (p.Observes x ∨ x ∈ p.arena.preorders p.basis.roots)

namespace SameBorrows

variable {p q : Program} (h : p.SameBorrows q)
include h

theorem node?_eq (x : NodeId) : q.node? x = p.node? x := by
  rw [node?, node?, h.arena]

theorem root_eq : q.root = p.root := by
  unfold Program.root
  rw [h.tree']
  rfl

/-- What one of the programs sees the other sees. -/
theorem observes_iff {x : NodeId} : q.Observes x ↔ p.Observes x := by
  constructor
  · intro hx
    induction hx with
    | root => exact h.root_eq ▸ .root
    | child _ hc ih => exact ih.child (h.arena ▸ hc)
    | structureDef _ hn hd ih =>
      rw [h.node?_eq] at hn
      exact ih.structureDef hn (h.agree _ ⟨_, ih, hn⟩ ▸ hd)
    | stream _ hn ht hd ih =>
      rw [h.node?_eq] at hn
      exact ih.stream hn (h.agree _ ⟨_, ih, hn⟩ ▸ ht) hd
  · intro hx
    induction hx with
    | root => exact h.root_eq ▸ .root
    | child _ hc ih => exact ih.child (h.arena.symm ▸ hc)
    | structureDef hx hn hd ih =>
      rw [← h.agree _ ⟨_, hx, hn⟩] at hd
      exact ih.structureDef (h.node?_eq _ ▸ hn) hd
    | stream hx hn ht hd ih =>
      rw [← h.agree _ ⟨_, hx, hn⟩] at ht
      exact ih.stream (h.node?_eq _ ▸ hn) ht hd

theorem borrows_iff {n : Name} : q.Borrows n ↔ p.Borrows n := by
  simp only [Borrows, h.observes_iff, h.node?_eq]

theorem knows_of_observes {x : NodeId} (hx : p.Observes x) : p.arena.Knows x := by
  have shared {r : NodeId} (hr : r ∈ p.shares.elim [] Shares.references) : p.arena.Knows r :=
    h.known r (List.mem_append_right _ hr)
  induction hx with
  | root => exact h.root
  | child _ hc _ =>
    exact h.complete.knows_child hc
  | structureDef _ _ hd _ =>
    refine h.known _ (mem_references_of_mem_detached (List.mem_append_right _ ?_))
    exact mem_registered hd
  | @stream x d n t _ _ ht hd _ =>
    obtain ⟨s, -, ht⟩ := offer?_stream.1 ht
    refine shared ?_
    obtain ⟨info, hinfo, rfl⟩ := Option.map_eq_some_iff.1 ht
    obtain ⟨shares, hshares, hinfo⟩ := Option.bind_eq_some_iff.1 hinfo
    rw [hshares]
    exact List.mem_append_right _
      (List.mem_flatMap.2 ⟨info, List.mem_of_getElem? hinfo, hd⟩)

/-! ### Parents -/

omit h in
/-- Of several trees, only the one matters that has what is looked for. -/
theorem find?_preorders {a : Arena} {f : NodeId → Bool} {d : NodeId} {ds : List NodeId}
    (hd : d ∈ ds) (honly : ∀ e ∈ ds, ∀ z ∈ a.preorder e, f z = true → e = d) :
    (a.preorders ds).find? f = (a.preorder d).find? f := by
  induction ds with
  | nil => cases hd
  | cons e ds ih =>
    rw [List.forall_mem_cons] at honly
    unfold Arena.preorders at ih ⊢
    rw [List.flatMap_cons, List.find?_append]
    cases he : (a.preorder e).find? f with
    | some z =>
      obtain rfl := honly.1 z (List.mem_of_find?_eq_some he) (List.find?_some he)
      exact he.symm
    | none =>
      rw [Option.none_or]
      rcases List.mem_cons.1 hd with rfl | hd
      · rw [he, List.find?_eq_none]
        intro z hz hfz
        obtain ⟨e, he', hz⟩ := List.mem_flatMap.1 hz
        obtain rfl := honly.2 e he' z hz hfz
        exact absurd hfz (List.find?_eq_none.1 he z hz)
      · exact ih hd honly.2

/-- The structures that have a node of the program are registered with both. -/
theorem mem_registered_iff {x d : NodeId} (hx : p.Observes x) (hd : x ∈ p.arena.preorder d) :
    d ∈ q.registered ↔ d ∈ p.registered := by
  have self := Arena.mem_preorder_self h.acyclic x
  constructor
  · intro hmem
    have hd' : x ∈ q.arena.preorder d := h.arena.symm ▸ hd
    obtain ⟨n, hn, hoffer⟩ := h.apart'.borrowed (h.arena.symm ▸ h.acyclic)
      (h.observes_iff.2 hx) hmem (h.arena.symm ▸ self) hd'
    exact mem_registered (h.agree n (h.borrows_iff.1 hn) ▸ hoffer)
  · intro hmem
    obtain ⟨n, hn, hoffer⟩ := h.apart.borrowed h.acyclic hx hmem self hd
    exact mem_registered ((h.agree n hn).trans hoffer)

/-- Among the registered structures, a node has the same parent. -/
theorem find?_registered {x : NodeId} (hx : p.Observes x) :
    ((p.arena.preorders q.registered).find? fun id => x ∈ p.arena.children id) =
      (p.arena.preorders p.registered).find? fun id => x ∈ p.arena.children id := by
  have below {d z : NodeId} (hz : z ∈ p.arena.preorder d)
      (hc : decide (x ∈ p.arena.children z) = true) : x ∈ p.arena.preorder d :=
    Arena.mem_preorder_child h.acyclic hz (of_decide_eq_true hc)
  by_cases hd : ∃ d ∈ p.registered, x ∈ p.arena.preorder d
  · obtain ⟨d, hd, hxd⟩ := hd
    have hd' := (h.mem_registered_iff hx hxd).2 hd
    rw [find?_preorders hd' fun e he z hz hc => ?_, find?_preorders hd fun e he z hz hc => ?_]
    · exact h.apart.pairwise e he d hd x (below hz hc) hxd
    · exact h.apart'.pairwise e he d hd' x (h.arena.symm ▸ below hz hc) (h.arena.symm ▸ hxd)
  · have outside {ds : List NodeId} (hds : ∀ d ∈ ds, x ∈ p.arena.preorder d → d ∈ p.registered) :
        ((p.arena.preorders ds).find? fun id => x ∈ p.arena.children id) = none := by
      refine List.find?_eq_none.2 fun z hz hc => hd ?_
      obtain ⟨d, hmem, hz⟩ := List.mem_flatMap.1 hz
      exact ⟨d, hds d hmem (below hz hc), below hz hc⟩
    rw [outside fun d hmem hxd => (h.mem_registered_iff hx hxd).1 hmem,
      outside fun d hmem _ => hmem]

/-- A node that the program sees, and that is not of the basis, has the same parent in both
    programs. -/
theorem parent?_eq {x : NodeId} (hx : p.Observes x) : q.tree.parent? x = p.tree.parent? x := by
  have split (ds : List NodeId) : p.arena.preorders (p.root :: (p.basis.roots ++ ds)) =
      p.arena.preorder p.root ++ p.arena.preorders p.basis.roots ++ p.arena.preorders ds := by
    simp [Arena.preorders, List.flatMap_append]
  rw [h.tree, h.tree', Tree.parent?_ofRoots_eq, Tree.parent?_ofRoots_eq, split, split]
  simp only [List.find?_append, h.find?_registered hx]

/-- The parent is one that the program sees and is not of the basis either. -/
theorem observes_parent {x z : NodeId} (hx : p.Observes x)
    (hb : x ∉ p.arena.preorders p.basis.roots) (hz : p.tree.parent? x = some z) :
    p.Observes z ∧ z ∉ p.arena.preorders p.basis.roots := by
  have hchild : x ∈ p.arena.children z := by
    rw [h.tree] at hz
    exact Tree.mem_children_of_parent? hz
  have hzb : z ∉ p.arena.preorders p.basis.roots := by
    intro hmem
    obtain ⟨r, hr, hmem⟩ := List.mem_flatMap.1 hmem
    exact hb (List.mem_flatMap.2 ⟨r, hr, Arena.mem_preorder_child h.acyclic hmem hchild⟩)
  refine ⟨?_, hzb⟩
  rw [h.tree, Tree.parent?_ofRoots_eq] at hz
  obtain ⟨d, hd, hzd⟩ := List.mem_flatMap.1 (List.mem_of_find?_eq_some hz)
  rcases List.mem_cons.1 hd with rfl | hd
  · exact Observes.root.mem_preorder h.acyclic hzd
  · rcases List.mem_append.1 hd with hd | hd
    · exact absurd (List.mem_flatMap.2 ⟨d, hd, hzd⟩) hzb
    · have hxd := Arena.mem_preorder_child h.acyclic hzd hchild
      obtain ⟨n, ⟨y, hy, hn⟩, hoffer⟩ :=
        h.apart.borrowed h.acyclic hx hd (Arena.mem_preorder_self h.acyclic x) hxd
      exact (hy.structureDef hn hoffer).mem_preorder h.acyclic hzd

/-- Where a name is used, the same nodes are around it. -/
theorem observed_ancestors {x : NodeId} (hx : p.Observes x)
    (hb : x ∉ p.arena.preorders p.basis.roots) :
    Forall₂ p.Observed (p.tree.ancestors x) (q.tree.ancestors x) := by
  generalize hl : p.tree.ancestors x = l
  induction l generalizing x with
  | nil =>
    cases hz : p.tree.parent? x with
    | none =>
      rw [Tree.ancestors_of_parent?_eq_none h.acyclic h.tree' ((h.parent?_eq hx).trans hz)]
      exact .nil
    | some z =>
      rw [Tree.ancestors_of_parent?_eq_some h.acyclic h.tree hz] at hl
      cases hl
  | cons z l ih =>
    cases hz : p.tree.parent? x with
    | none =>
      rw [Tree.ancestors_of_parent?_eq_none h.acyclic h.tree hz] at hl
      cases hl
    | some w =>
      rw [Tree.ancestors_of_parent?_eq_some h.acyclic h.tree hz] at hl
      rw [Tree.ancestors_of_parent?_eq_some h.acyclic h.tree' ((h.parent?_eq hx).trans hz)]
      cases hl
      obtain ⟨hz, hzb⟩ := h.observes_parent hx hb hz
      exact .cons ⟨rfl, .inl hz⟩ (ih hz hzb rfl)

/-! ### The renaming -/

theorem observed_child {x c : NodeId} (hx : p.Observed x x) (hc : c ∈ p.arena.children x) :
    p.Observed c c := by
  refine ⟨rfl, hx.2.imp (·.child hc) fun hx => ?_⟩
  obtain ⟨r, hr, hx⟩ := List.mem_flatMap.1 hx
  exact List.mem_flatMap.2 ⟨r, hr, Arena.mem_preorder_child h.acyclic hx hc⟩

theorem knows_of_observed {x : NodeId} (hx : p.Observed x x) : p.arena.Knows x := by
  refine hx.2.elim h.knows_of_observes fun hx => ?_
  exact h.complete.knows_of_mem_preorders h.acyclic
    (fun r hr => h.known r (List.mem_append_left _ hr)) hx

/-- Each node is renamed to itself. -/
theorem observed_node {x : NodeId} (hx : p.Observed x x) :
    ∃ n m, p.node? x = some n ∧ q.node? x = some m ∧
      n.Renamed p.Observed p.arena q.arena m := by
  rw [h.node?_eq, h.arena]
  refine Arena.renamed_of_equal h.complete (.refl _) h.acyclic
    (Arena.structurallyEqual_self h.acyclic x) (h.knows_of_observed hx) fun w hw => ?_
  have heq : w.1 = w.2 := List.forall₂_zip (List.forall₂_same.2 fun _ _ => rfl) hw
  rw [← heq]
  exact h.observed_child hx (List.of_mem_zip (a := w.1) (b := w.2) hw).1

/-- A borrowing node is one that the program sees. -/
theorem borrows_of_observed {x y : NodeId} {n : Name} (hx : p.Observed x y)
    (hn : p.node? x = some (.borrow n)) : p.Borrows n :=
  ⟨x, hx.2.resolve_right fun hx => (h.quiet x hx).2 n hn, hn⟩

theorem observed_share {n : Name} (hn : p.Borrows n) :
    Option.Rel (Share.Renamed p.Observed) (p.share? n) (q.share? n) := by
  have hagree := h.agree n hn
  obtain ⟨x, hx, hn⟩ := hn
  have hstructure {d : NodeId} (hd : p.share? n = some (.structureDef d)) : p.Observed d d :=
    ⟨rfl, .inl (hx.structureDef hn (offer?_structureDef.2 hd))⟩
  unfold offer? at hagree
  revert hagree hstructure
  generalize p.share? n = o, q.share? n = o'
  intro hagree hstructure
  rcases o with - | d | s <;> rcases o' with - | d' | s' <;>
    simp only [Option.map_none, Option.map_some, reduceCtorEq, Option.some.injEq,
      Offer.structureDef.injEq] at hagree
  · exact .none
  · subst hagree
    exact .some (.structureDef (hstructure rfl))
  · exact .some (.stream s s')

/-- Streams of the same name have the same type. -/
theorem observed_stream {s s' : StreamId} (hs : p.SameStream p.Observed q s s') :
    Option.Rel (Ty.Renamed p.Observed) (p.streamType? s) (q.streamType? s') := by
  obtain ⟨x, y, n, hx, hn, hs, hs'⟩ := hs
  have hborrows := h.borrows_of_observed hx hn
  have heq : q.streamType? s' = p.streamType? s := by
    have hoffer := offer?_stream.2 ⟨s, hs, rfl⟩
    obtain ⟨s'', hs'', ht⟩ := offer?_stream.1 ((h.agree n hborrows).trans hoffer)
    rw [← ht, Option.some.inj (hs'.symm.trans hs'')]
  rw [heq]
  cases ht : p.streamType? s with
  | none => exact .none
  | some t =>
    refine .some (t.renamed_self fun d hd => ⟨rfl, .inl ?_⟩)
    obtain ⟨y, hy, hn⟩ := hborrows
    exact hy.stream hn (offer?_stream.2 ⟨s, hs, ht⟩) hd

/-- **A program that borrows the same is the program renamed**, each node to itself. -/
theorem renamed : p.Renamed p.Observed q where
  unique := ⟨fun _ _ _ hx hy => hx.1.trans hy.1.symm, fun _ _ _ hx hy => hx.1.symm.trans hy.1⟩
  uniqueStream := by
    constructor
    · rintro s₁ s₂ s' ⟨_, _, n, -, -, hs₁, hs'⟩ ⟨_, _, m, -, -, hs₂, hs''⟩
      rw [h.named' n m s' hs' hs''] at hs₁
      exact Option.some.inj (hs₁.symm.trans hs₂)
    · rintro s s₁ s₂ ⟨_, _, n, -, -, hs, hs₁⟩ ⟨_, _, m, -, -, hs', hs₂⟩
      rw [h.named n m s hs hs'] at hs₁
      exact Option.some.inj (hs₁.symm.trans hs₂)
  node := by
    rintro x y hxy
    obtain rfl := hxy.1
    exact h.observed_node hxy
  ancestors := by
    rintro x y ⟨rfl, hx⟩ hlooks
    have hb : x ∉ p.arena.preorders p.basis.roots := fun hb => (h.quiet x hb).1 hlooks
    exact h.observed_ancestors (hx.resolve_right hb) hb
  nodes := by
    have hnodes : p.tree.nodes = p.arena.preorder p.root := by
      rw [h.tree]
      rfl
    have hnodes' : q.tree.nodes = p.arena.preorder p.root := by
      rw [h.tree']
      rfl
    rw [hnodes, hnodes']
    exact List.forall₂_same.2 fun x hx => ⟨rfl, .inl (Observes.root.mem_preorder h.acyclic hx)⟩
  root := ⟨h.root_eq.symm, .inl .root⟩
  interner := h.interner
  method := renamed_method_of_basis
    (fun r hr => ⟨rfl, .inr (List.mem_flatMap.2 ⟨r, hr, Arena.mem_preorder_self h.acyclic r⟩)⟩)
    h.basis
  share hx hn := h.observed_share (h.borrows_of_observed hx hn)
  stream := h.observed_stream
  acyclic := h.acyclic
  acyclic' := h.arena.symm ▸ h.acyclic

end SameBorrows

end Program

end Arbor
