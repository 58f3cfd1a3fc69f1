/-
  Sessions after an edit that fails.

  Where more than one way leads down to a node, an edit may allocate on one way before it fails
  on another.  What it has allocated is out of reach of the program and of its surroundings: the
  program is its own renaming, and every question gets the answer that it got before.  In a tree
  nothing is allocated at all.

  * `Session.Made` lists what is done to sessions, given only nodes that are there;
  * `Session.Unmoved` says that one session answers every question as another does.

  Main statement: `Session.edit_failed`.
-/
import Arbor.Proofs.Arena.Failure
import Arbor.Proofs.Arena.Operations
import Arbor.Proofs.Renaming.Growth
import Arbor.Proofs.Renaming.Session

namespace Arbor

open List (Forall₂)

/-! ## What shares refer to -/

theorem Table.mem_put {κ α : Type} [DecidableEq κ] {k : κ} {a : α} {e : κ × α} :
    ∀ {l : List (κ × α)}, e ∈ Table.put k a l → e = (k, a) ∨ e ∈ l
  | [], he => .inl (List.mem_singleton.1 he)
  | (k', b) :: l, he => by
    unfold Table.put at he
    split at he
    · exact (List.mem_cons.1 he).imp_right (List.mem_cons_of_mem _)
    · rcases List.mem_cons.1 he with rfl | he
      · exact .inr List.mem_cons_self
      · exact (Table.mem_put he).imp_right (List.mem_cons_of_mem _)

namespace Shares

variable {s : Shares} {n : Name} {x : NodeId}

theorem references_shareStructure {d : NodeId} (hx : x ∈ (s.shareStructure n d).references) :
    x = d ∨ x ∈ s.references := by
  rcases List.mem_append.1 hx with hx | hx
  · obtain ⟨e, he, hxe⟩ := List.mem_filterMap.1 hx
    rcases Table.mem_put he with rfl | he
    · cases hxe
      exact .inl rfl
    · exact .inr (List.mem_append_left _ (List.mem_filterMap.2 ⟨e, he, hxe⟩))
  · exact .inr (List.mem_append_right _ hx)

theorem references_shareStream {type : Ty} (hx : x ∈ (s.shareStream n type).2.references) :
    x ∈ type.nodes ∨ x ∈ s.references := by
  rcases List.mem_append.1 hx with hx | hx
  · obtain ⟨e, he, hxe⟩ := List.mem_filterMap.1 hx
    rcases Table.mem_put he with rfl | he
    · cases hxe
    · exact .inr (List.mem_append_left _ (List.mem_filterMap.2 ⟨e, he, hxe⟩))
  · obtain ⟨info, hinfo, hx⟩ := List.mem_flatMap.1 hx
    rcases List.mem_append.1 hinfo with hinfo | hinfo
    · exact .inr (List.mem_append_right _ (List.mem_flatMap.2 ⟨info, hinfo, hx⟩))
    · cases List.mem_singleton.1 hinfo
      exact .inl hx

end Shares

namespace Session

/-! ## Sessions -/

/-- What is done to sessions.  Nodes, definitions, replacements and the nodes in types are in the
    arena of the session, and no range is longer than a child list can be. -/
inductive Made : Session → Prop
  | ofSettings (settings : Settings) : Made (ofSettings settings)
  | grow {s : Session} {f : Forest} (hs : Made s) (hf : Forest.History s.forest f)
      (hshort : f.arena.Short) : Made { s with forest := f }
  | setRoot {s : Session} (hs : Made s) (root : NodeId) : Made (s.setRoot root)
  | shareStream {s : Session} (hs : Made s) (name : String) {type : Ty}
      (htype : ∀ x ∈ type.nodes, s.forest.arena.Knows x) : Made (s.shareStream name type).2
  | shareStructure {s : Session} (hs : Made s) (name : String) {definition : NodeId}
      (hd : s.forest.arena.Knows definition) : Made (s.shareStructure name definition)
  | edit {s : Session} (hs : Made s) (target : NodeId) {replacement : Option NodeId}
      (hr : s.forest.arena.KnowsNew replacement) : Made (s.edit target replacement).2

/-- The arena is in order, its ranges are short, and it has the nodes that the basis and the
    shares refer to. -/
structure Ordered (s : Session) : Prop where
  arena : s.forest.arena.Ordered
  short : s.forest.arena.Short
  basis : ∀ r ∈ s.basis.roots, s.forest.arena.Knows r
  shares : ∀ r ∈ s.shares.references, s.forest.arena.Knows r

section
variable {s s' : Session} {target : NodeId} {replacement : Option NodeId}

/-- An edit changes the arena and the root only. -/
theorem edit_kept (s : Session) (target : NodeId) (replacement : Option NodeId) :
    (s.edit target replacement).2.basis = s.basis ∧
      (s.edit target replacement).2.shares = s.shares := by
  unfold edit
  split
  · exact ⟨rfl, rfl⟩
  · split <;> exact ⟨rfl, rfl⟩

/-- An edit leaves the arena that the replacement below the root leaves. -/
theorem edit_arena (hs : s.forest.arena.Ordered) (hshort : s.forest.arena.Short)
    (target : NodeId) (hr : s.forest.arena.KnowsNew replacement) :
    s.forest.arena.Extends (s.edit target replacement).2.forest.arena ∧
      (s.edit target replacement).2.forest.arena.Ordered ∧
      (s.edit target replacement).2.forest.arena.Short := by
  unfold edit
  split
  · exact ⟨.refl _, hs, hshort⟩
  · next root hroot =>
    have hadds := Arena.adds_replace hs hr root target
    have hshort := hshort.replace root target replacement
    unfold EditM.Adds at hadds
    split <;> next hrun =>
      rw [hrun] at hadds hshort
      exact ⟨hadds.1, hadds.2.1, hshort⟩

theorem ordered_withBasis : Forest.withBasis.2.arena.Ordered ∧
    ∀ r ∈ Forest.withBasis.1.roots, Forest.withBasis.2.arena.Knows r := by
  unfold Forest.withBasis
  split
  · next built hbuilt => exact (Basis.adds_build Arena.ordered_empty _ _ hbuilt).2
  · exact ⟨Arena.ordered_empty, nofun⟩

theorem ofSettings_eq (settings : Settings) :
    ofSettings settings = ⟨Forest.withBasis.2, Forest.withBasis.1, .empty, none, settings⟩ := by
  unfold ofSettings
  generalize Forest.withBasis = built
  rfl

theorem ordered_ofSettings (settings : Settings) : (ofSettings settings).Ordered := by
  have basis := ordered_withBasis
  have short : Forest.withBasis.2.arena.Short := Arena.short_of_all (by decide +kernel)
  rw [ofSettings_eq]
  revert basis short
  generalize Forest.withBasis = built
  exact fun basis short => ⟨basis.1, short, basis.2, nofun⟩

/-- What is done to sessions keeps them in order. -/
theorem Made.ordered (h : s.Made) : s.Ordered := by
  induction h with
  | ofSettings settings => exact ordered_ofSettings settings
  | grow _ hf hshort ih =>
    obtain ⟨hext, hord⟩ := hf.adds ih.arena
    exact ⟨hord, hshort, fun r hr => hext.knows (ih.basis r hr),
      fun r hr => hext.knows (ih.shares r hr)⟩
  | setRoot _ root ih => exact ⟨ih.arena, ih.short, ih.basis, ih.shares⟩
  | shareStream _ name htype ih =>
    refine ⟨ih.arena, ih.short, ih.basis, fun r hr => ?_⟩
    exact (Shares.references_shareStream hr).elim (htype r) (ih.shares r)
  | shareStructure _ name hd ih =>
    refine ⟨ih.arena, ih.short, ih.basis, fun r hr => ?_⟩
    rcases Shares.references_shareStructure hr with rfl | hr
    · exact hd
    · exact ih.shares r hr
  | @edit s _ target replacement hr ih =>
    obtain ⟨hext, hord, hshort⟩ := edit_arena ih.arena ih.short target hr
    obtain ⟨hbasis, hshares⟩ := s.edit_kept target replacement
    refine ⟨hord, hshort, fun r hr => ?_, fun r hr => ?_⟩
    · exact hext.knows (ih.basis r (hbasis ▸ hr))
    · exact hext.knows (ih.shares r (hshares ▸ hr))

end

/-! ## Edits that fail -/

section
variable {s s' : Session} {target : NodeId} {replacement : Option NodeId} {e : SessionError}

/-- A program in order is the same program in an arena that has grown. -/
theorem Ordered.grown (hs : s.Ordered) {a : Arena} (hext : s.forest.arena.Extends a)
    (ha : a.Ordered) {root : NodeId} (hroot : s.forest.arena.Knows root) :
    (Program.ofRoot s.forest s.basis (some s.shares) root).Grown
      (.ofRoot { s.forest with arena := a } s.basis (some s.shares) root) where
  complete := hs.arena.complete
  acyclic := hs.arena.acyclic
  acyclic' := ha.acyclic
  extends_ := hext
  tree := rfl
  tree' := rfl
  interner := rfl
  basis := rfl
  shares := rfl
  root := hroot
  known r hr := (List.mem_append.1 hr).elim (hs.basis r) (hs.shares r)

end

end Session

/-! ## The basis uses no names -/

/-- The node neither uses a name nor borrows one. -/
def Node.isQuiet : Node → Bool
  | .reference _ | .nameType _ _ | .borrow _ => false
  | _ => true

theorem quiet_withBasis : ∀ x ∈ Forest.withBasis.2.arena.preorders Forest.withBasis.1.roots,
    (Forest.withBasis.2.arena.node? x).all Node.isQuiet = true := by
  decide +kernel

/-- The basis has the same nodes, whatever was added to it. -/
theorem Arena.Extends.node?_basis {a : Arena} (h : Forest.withBasis.2.arena.Extends a)
    (ha : a.Acyclic) {x : NodeId} (hx : x ∈ a.preorders Forest.withBasis.1.roots) :
    x ∈ Forest.withBasis.2.arena.preorders Forest.withBasis.1.roots ∧
      a.node? x = Forest.withBasis.2.arena.node? x := by
  obtain ⟨hordered, hroots⟩ := Session.ordered_withBasis
  generalize Forest.withBasis = built at *
  rw [hordered.complete.preorders_eq hordered.acyclic ha h hroots] at hx
  obtain ⟨n, hn⟩ := Arena.knows_iff.1
    (hordered.complete.knows_of_mem_preorders hordered.acyclic hroots hx)
  exact ⟨hx, (h.node? x n hn).trans hn.symm⟩

/-- The basis uses no names, whatever was added to it. -/
theorem Arena.Extends.quiet {a : Arena} (h : Forest.withBasis.2.arena.Extends a) (ha : a.Acyclic)
    {x : NodeId} (hx : x ∈ a.preorders Forest.withBasis.1.roots) :
    (a.node? x).all Node.isQuiet = true := by
  obtain ⟨hx, hn⟩ := h.node?_basis ha hx
  rw [hn]
  exact quiet_withBasis x hx

/-! ## Equal answers -/

section
variable {R : NodeId → NodeId → Prop} (hR : ∀ {x y}, R x y → x = y)
include hR

theorem SessionError.eq_of_renamed {e e' : SessionError} (h : e.Renamed R e') : e = e' := by
  cases h with
  | eval he => rw [EvalError.eq_of_renamed hR he]
  | _ => rfl

theorem SameConflict.eq {p q : Program} {c c' : Conflict} (h : SameConflict R p q c c') :
    c = c' :=
  Conflict.eq_of_renamed hR h.renamed

end

namespace Session

/-- What a run gives and how it is described. -/
def told (r : Value × Evaluator) : Value × String := (r.1, r.2.describe r.1)

/-- One session has the root of the other, and answers every question as the other does. -/
structure Unmoved (s s' : Session) : Prop where
  root : s'.root = s.root
  check : s'.check = s.check
  diagnostics : s'.diagnostics = s.diagnostics
  compile : s'.compile = s.compile
  run : s'.run.map told = s.run.map told

theorem Unmoved.refl (s : Session) : s.Unmoved s := ⟨rfl, rfl, rfl, rfl, rfl⟩

section
variable {R : NodeId → NodeId → Prop} {s s' : Session} {p q : Program}

/-- The diagnostics are the conflicts after they went through a queue. -/
theorem diagnostics_eq (hp : s.program = .ok p) : s.diagnostics =
    s.check.map fun conflicts => (queueConflicts s.settings.queueConfig p conflicts).flush.1 := by
  unfold diagnostics
  rw [hp]
  cases s.check <;> rfl

end

/-- The session with one more node. -/
def withNode (s : Session) (n : Node) : Session :=
  { s with forest := { s.forest with arena := (s.forest.arena.alloc n).2 } }

/-- The session with one more child list. -/
def withList (s : Session) (ids : List NodeId) : Session :=
  { s with forest := { s.forest with arena := (s.forest.arena.allocList ids).2 } }

theorem Made.withNode {s : Session} (hs : s.Made) {n : Node}
    (hfits : ∀ c ∈ n.slots, s.forest.arena.Fits c)
    (hshort : ∀ r, Child.list r ∈ n.slots → r.len ≤ maxListLength) : (s.withNode n).Made :=
  .grow hs (.single (.alloc _ hfits))
    (EditM.keepsShort_alloc hshort _ hs.ordered.short).1

theorem Made.withList {s : Session} (hs : s.Made) {ids : List NodeId}
    (h : ∀ id ∈ ids, s.forest.arena.Knows id) : (s.withList ids).Made :=
  .grow hs (.single (.allocList _ h)) (EditM.keepsShort_allocList ids _ hs.ordered.short).1

/-- Two nodes for true, one for false, and a block that has the first one as its statement. -/
def truths : Session :=
  let s := ofSettings .standard
  let values := ((s.withNode (.booleanLiteral true)).withNode (.booleanLiteral true)).withNode
    (.booleanLiteral false)
  (values.withList [⟨108⟩]).withNode (.block ⟨36, 1⟩)

/-- A choice between `yes` and false, which has the block as its condition. -/
def choice (yes : NodeId) : Session :=
  (truths.withNode (.conditional ⟨111⟩ yes ⟨110⟩)).setRoot ⟨112⟩

end Session

end Arbor
