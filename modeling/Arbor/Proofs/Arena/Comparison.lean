/-
  Structural equality compares trees.

  Two nodes are structurally equal exactly if they stand for the same tree but for the ids of its
  nodes: the same kinds and data, the same optional children present, and child lists of the same
  lengths and orders.  Where the nodes lie, and which of them are shared, shows nowhere.

  * `exists_rank_of_spells`: a comparison of nodes that stand for trees goes down no further than
    there are nodes;
  * `matchNodes_iff`: one turn of the comparison, as an equation of kinds, data and slots;
  * `Arena.ComparesTrees`: what structural equality is in an arena, and what edits do to it.

  Main statements: `structurallyEqual_iff_shape`, which asks nothing of the arena;
  `Spells.shape_subst`, an equal tree may be planted anywhere; `comparesTrees_of_acyclic`.
-/
import Arbor.Proofs.Arena.Substitution

namespace Arbor

open List (Forall₂)

/-- Lists are related alike if their items are. -/
theorem forall₂_congr_mem {α β : Type} {R S : α → β → Prop} {xs : List α} {ys : List β}
    (h : ∀ x ∈ xs, ∀ y ∈ ys, R x y ↔ S x y) : Forall₂ R xs ys ↔ Forall₂ S xs ys := by
  rw [List.forall₂_iff_zip, List.forall₂_iff_zip]
  refine and_congr_right fun _ => forall₂_congr fun x y => ?_
  refine forall_congr' fun hxy => ?_
  exact h x (List.of_mem_zip hxy).1 y (List.of_mem_zip hxy).2

/-! ## Kinds and data -/

/-- The slot with nothing left of its children but whether an optional one is there. -/
def Child.blank : Child → Child
  | .one _ => .one .invalid
  | .optional c => .optional (c.map fun _ => .invalid)
  | .list _ => .list .empty

theorem Node.data_bare (n : Node) : n.bare.data = n.data := by
  cases n <;> rfl

theorem Node.withSlots_data (n : Node) : n.data.withSlots (n.slots.map Child.blank) = n.bare := by
  cases n <;> rfl

/-- Besides kind and data a bare node tells which of its optional children are there. -/
theorem Node.bare_eq_iff {m n : Node} :
    m.bare = n.bare ↔ m.data = n.data ∧ m.slots.map Child.blank = n.slots.map Child.blank := by
  constructor
  · intro h
    have hslots (k : Node) : k.bare.slots = k.slots.map Child.blank := by cases k <;> rfl
    refine ⟨?_, ?_⟩
    · rw [← m.data_bare, h, n.data_bare]
    · rw [← hslots, h, hslots]
  · rintro ⟨hdata, hslots⟩
    rw [← m.withSlots_data, hdata, hslots, n.withSlots_data]

namespace Arena

/-! ## One turn of the comparison -/

section
variable {a : Arena} {τ : Type} {f g : NodeId → τ}

/-- Two slots hold the same exactly if they hold as many children in the same way, and the same in
    each place. -/
theorem branch_eq_iff {s r : Child} :
    a.branch f s = a.branch g r ↔
      s.sameShape r = true ∧ Forall₂ (fun c d => f c = g d) (a.ofSlot s) (a.ofSlot r) := by
  have hmap {cs ds : List NodeId} :
      cs.map f = ds.map g ↔ Forall₂ (fun c d => f c = g d) cs ds := by
    rw [← List.forall₂_eq_eq_eq, List.forall₂_map_left_iff, List.forall₂_map_right_iff]
  cases s with
  | one c => cases r <;> simp [branch, Child.sameShape, ofSlot]
  | optional c =>
    cases r with
    | optional d => cases c <;> cases d <;> simp [branch, Child.sameShape, ofSlot]
    | _ => simp [branch, Child.sameShape]
  | list s => cases r <;> simp [branch, Child.sameShape, ofSlot, hmap]

theorem blank_eq_of_branch_eq {s r : Child} (h : a.branch f s = a.branch g r) :
    s.blank = r.blank := by
  cases s with
  | one c => cases r <;> simp_all [branch, Child.blank]
  | optional c =>
    cases r with
    | optional d => cases c <;> cases d <;> simp_all [branch, Child.blank]
    | _ => cases h
  | list s => cases r <;> simp_all [branch, Child.blank]

/-- Children are paired up exactly if the slots hold as many of them in the same ways. -/
theorem pairChildren_iff {E : NodeId × NodeId → Prop} {ls rs : List Child} :
    (∃ pairs, a.pairChildren ls rs = some pairs ∧ ∀ q ∈ pairs, E q) ↔
      Forall₂ (fun l r => l.sameShape r = true ∧
        Forall₂ (fun c d => E (c, d)) (a.ofSlot l) (a.ofSlot r)) ls rs := by
  induction ls generalizing rs with
  | nil => cases rs <;> simp [pairChildren]
  | cons l ls ih =>
    cases rs with
    | nil => simp [pairChildren]
    | cons r rs =>
      rw [List.forall₂_cons, ← ih, List.forall₂_iff_zip, pairChildren]
      by_cases hshape : (l.sameShape r && (a.ofSlot l).length == (a.ofSlot r).length) = true
      · rw [if_pos hshape]
        rw [Bool.and_eq_true, beq_iff_eq] at hshape
        constructor
        · rintro ⟨pairs, hpairs, hE⟩
          obtain ⟨rest, hrest, rfl⟩ := Option.map_eq_some_iff.1 hpairs
          rw [List.forall_mem_append] at hE
          exact ⟨⟨hshape.1, hshape.2, fun hcd => hE.1 _ hcd⟩, rest, hrest, hE.2⟩
        · rintro ⟨⟨-, -, hslot⟩, rest, hrest, hE⟩
          refine ⟨_, Option.map_eq_some_iff.2 ⟨rest, hrest, rfl⟩, List.forall_mem_append.2 ⟨?_, hE⟩⟩
          exact fun q hq => hslot (a := q.1) (b := q.2) hq
      · rw [if_neg hshape]
        have hnone : ¬∃ pairs, (none : Option (List (NodeId × NodeId))) = some pairs ∧
            ∀ q ∈ pairs, E q := by
          rintro ⟨pairs, hpairs, -⟩
          cases hpairs
        refine iff_of_false hnone fun h => hshape ?_
        rw [Bool.and_eq_true, beq_iff_eq]
        exact ⟨h.1.1, h.1.2.1⟩

/-- **One turn of the comparison.**  If the comparison of children is an equation, so is that of
    two nodes: their kinds and data are the same, and so is what their slots hold. -/
theorem matchNodes_iff {equal : NodeId × NodeId → Bool} {m n : Node}
    (h : ∀ c ∈ a.childrenOf m, ∀ d ∈ a.childrenOf n, equal (c, d) = true ↔ f c = g d) :
    (match a.matchNodes m n with
      | some pairs => pairs.reverse.all equal
      | none => false) = true ↔
      m.data = n.data ∧ m.slots.map (a.branch f) = n.slots.map (a.branch g) := by
  have hslots : Forall₂ (fun l r => a.branch f l = a.branch g r) m.slots n.slots ↔
      m.slots.map (a.branch f) = n.slots.map (a.branch g) := by
    rw [← List.forall₂_eq_eq_eq, List.forall₂_map_left_iff, List.forall₂_map_right_iff]
  have hpairs : (∃ pairs, a.pairChildren m.slots n.slots = some pairs ∧
      ∀ q ∈ pairs, equal q = true) ↔ Forall₂ (fun l r => a.branch f l = a.branch g r)
        m.slots n.slots := by
    rw [pairChildren_iff]
    refine forall₂_congr_mem fun l hl r hr => ?_
    rw [branch_eq_iff]
    refine and_congr_right fun _ => forall₂_congr_mem fun c hc d hd => ?_
    exact h c (mem_childrenOf hl hc) d (mem_childrenOf hr hd)
  rw [← hslots]
  unfold matchNodes
  by_cases hbare : m.bare = n.bare
  · rw [if_pos hbare, and_iff_right (Node.bare_eq_iff.1 hbare).1, ← hpairs]
    cases a.pairChildren m.slots n.slots with
    | none => simp
    | some pairs => simp only [List.all_reverse, List.all_eq_true, Option.some.injEq, exists_eq_left']
  · rw [if_neg hbare]
    refine iff_of_false nofun fun hboth => hbare (Node.bare_eq_iff.2 ⟨hboth.1, ?_⟩)
    exact map_eq_of_forall₂ hboth.2 fun l _ r hlr => blank_eq_of_branch_eq hlr

end

/-! ## The whole comparison -/

section
variable {a b : Arena} {x y c : NodeId} {t u : Subtree}

/-- A node that stands for a tree is not below itself. -/
theorem Spells.not_reaches_of_child (h : a.Spells x t) (hc : c ∈ a.children x) :
    ¬a.Reaches c x := by
  induction h generalizing c with
  | @node x n g hn _ _ ih =>
    intro hreach
    have hchild := hc
    rw [children_eq hn] at hchild
    rcases reaches_iff.1 hreach with heq | ⟨d, hd, hd'⟩
    · subst heq
      exact ih c hchild hc (reaches_self a c)
    · exact ih c hchild hd (hd'.child hc)

/-- Among the nodes that stand for trees a rank falls from parent to child, and it is no greater
    than the number of nodes: a node is ranked by how many there are at or below it. -/
theorem exists_rank_of_spells (a : Arena) : ∃ rank : NodeId → Nat,
    (∀ x t, a.Spells x t → ∀ c ∈ a.children x, rank c < rank x) ∧ ∀ x, rank x ≤ a.size := by
  classical
  refine ⟨fun x => (List.range a.size).countP fun i => a.Reaches x ⟨i⟩, fun x t hx c hc => ?_,
    fun x => ?_⟩
  · refine countP_lt_countP (List.mem_range.2 (lt_size_of_mem_children hc)) ?_ ?_ fun i hi => ?_
    · exact decide_eq_false (hx.not_reaches_of_child hc)
    · exact decide_eq_true (reaches_self a x)
    · exact decide_eq_true (((reaches_self a x).child hc).trans (of_decide_eq_true hi))
  · have hle := List.countP_le_length (p := fun i => decide (a.Reaches x ⟨i⟩))
      (l := List.range a.size)
    rwa [List.length_range] at hle

/-- Deep enough, the comparison of nodes that stand for trees compares the trees. -/
theorem unroll_equalNodes_iff {rank : NodeId → Nat}
    (hrank : ∀ x t, a.Spells x t → ∀ c ∈ a.children x, rank c < rank x) {depth : Nat}
    (hx : a.Spells x t) (hy : a.Spells y u) (hdepth : rank x < depth) :
    unroll true a.equalNodes depth (x, y) = true ↔ t.shape = u.shape := by
  induction depth generalizing x y t u with
  | zero => exact absurd hdepth (Nat.not_lt_zero _)
  | succ depth ih =>
    have hbelow := hrank x t hx
    rw [unroll, equalNodes, Bool.or_eq_true, beq_iff_eq]
    by_cases hxy : x = y
    · subst hxy
      rw [hx.unique hy]
      simp
    · rw [or_iff_right hxy]
      cases hx with
      | @node _ n g hn hstored hchildren =>
        cases hy with
        | @node _ m g' hm hstored' hchildren' =>
          have hturn := matchNodes_iff (a := a) (f := Subtree.shape ∘ g)
            (g := Subtree.shape ∘ g') (m := n) (n := m) fun c hc d hd => by
              refine ih (hchildren c hc) (hchildren' d hd) ?_
              have := hbelow c (by rwa [children_eq hn])
              omega
          rw [hn, hm, Subtree.shape_node, Subtree.shape_node]
          simp only [List.map_map, Function.comp_def, map_branch, Subtree.node.injEq, true_and]
          exact hturn

/-- **Structural equality compares trees**, wherever two nodes stand for some. -/
theorem structurallyEqual_iff_shape (hx : a.Spells x t) (hy : a.Spells y u) :
    a.structurallyEqual x y = true ↔ t.shape = u.shape := by
  obtain ⟨rank, hrank, hle⟩ := a.exists_rank_of_spells
  refine unroll_equalNodes_iff hrank hx hy ?_
  exact Nat.lt_of_lt_of_le (Nat.lt_succ_of_le (hle x)) (Nat.le_mul_of_pos_left _ (Nat.succ_pos _))

/-! ## Equal trees in each other's places -/

/-- The copy of a node stands for the same tree but for its own id. -/
theorem Spells.sprouts_copy {n : Node} (hx : a.Spells x t) (hn : a.node? x = some n) :
    (a.alloc n).2.Sprouts (a.alloc n).1 t := by
  cases hx with
  | @node _ m g hm hstored hchildren =>
    obtain rfl : n = m := Option.some.inj (hn.symm.trans hm)
    have hsprouts {ys : List NodeId} (hys : ∀ y ∈ ys, y ∈ a.childrenOf n) :
        Forall₂ a.Sprouts ys (ys.map g) := by
      rw [List.forall₂_map_right_iff, List.forall₂_same]
      exact fun y hy => ⟨g y, hchildren y (hys y hy), rfl⟩
    refine sprouts_alloc x (List.forall₂_map_right_iff.2 (List.forall₂_same.2 fun s hs => ?_))
    have hslot := hsprouts fun y hy => mem_childrenOf hs hy
    refine ⟨hstored s hs, ?_⟩
    cases s with
    | one y => exact .one (List.forall₂_cons.1 hslot).1
    | optional y =>
      refine .optional ?_
      rw [Option.toList_map]
      exact hslot
    | list r => exact .list hslot

/-- What is planted in a slot shows nowhere if it has the shape of what was there. -/
theorem shape_plant_branch {target : NodeId} {r : Subtree} {f g : NodeId → Subtree} {s : Child}
    (h : ∀ d ∈ a.ofSlot s, (if (f d).id = target then r else f d).shape = (g d).shape) :
    ((a.branch f s).plant target (some r)).map Subtree.shape = (a.branch g s).map Subtree.shape := by
  cases s with
  | one d => exact congrArg Branch.one (h d (List.mem_singleton_self d))
  | optional d =>
    cases d with
    | none => rfl
    | some d =>
      have hd := h d (by simp [ofSlot])
      by_cases heq : (f d).id = target <;> simp_all [branch, Branch.plant, Branch.map]
  | list range =>
    have hitem (d : NodeId) : (if (f d).id = target then (some r).toList else [f d]) =
        [if (f d).id = target then r else f d] := by
      split <;> rfl
    simp only [branch, Branch.plant, Branch.map, List.flatMap_map, hitem, List.map_map]
    rw [← List.map_eq_flatMap, List.map_map]
    exact congrArg Branch.list (List.map_congr_left h)

/-- **An equal tree may be planted** in the place of a node, wherever it occurs. -/
theorem Spells.shape_subst {target : NodeId} {s r : Subtree} (hx : a.Spells x t)
    (htarget : a.Spells target s) (hshape : r.shape = s.shape) :
    (t.subst target (some r)).shape = t.shape := by
  induction hx with
  | @node id n g hn hstored hchildren ih =>
    rw [Subtree.subst_node, Subtree.shape_node, Subtree.shape_node, List.map_map, List.map_map,
      List.map_map]
    congr 1
    refine List.map_congr_left fun slot hslot => ?_
    rw [Function.comp_apply, Function.comp_apply, map_branch]
    refine shape_plant_branch fun d hd => ?_
    have hmem := mem_childrenOf hslot hd
    have hid : ((Subtree.subst target (some r) ∘ g) d).id = d := by
      rw [Function.comp_apply, Subtree.id_subst, (hchildren d hmem).id_eq]
    rw [hid]
    split
    · next heq =>
      subst heq
      rw [hshape, (hchildren d hmem).unique htarget]
    · exact ih d hmem

end

/-! ## What structural equality is -/

/-- Structural equality compares the trees that nodes stand for, and edits respect it. -/
structure ComparesTrees (a : Arena) : Prop where
  /-- Every node stands for one tree. -/
  tree : ∀ x, a.Knows x → ∃! t, a.Spells x t
  /-- Two nodes are equal exactly if their trees are the same but for the ids in them. -/
  equal : ∀ x y t u, a.Spells x t → a.Spells y u →
    (a.structurallyEqual x y = true ↔ t.shape = u.shape)
  equivalence : Equivalence fun x y : {x // a.Knows x} => a.structurallyEqual x y = true
  /-- A node and its copy are equal. -/
  copy : ∀ x, a.Knows x → ∃ y b, (cloneNode x).run.run a = (.ok y, b) ∧
    b.structurallyEqual x y = true
  /-- An equal node in the place of another one, wherever that occurs, leaves an equal root. -/
  replaced : ∀ root target new, a.Knows root → a.Knows new → a.Reaches root target →
    a.structurallyEqual target new = true →
    ∃ root' b, (replace root target (some new)).run.run a = (.ok root', b) ∧
      b.structurallyEqual root root' = true

section
variable {a : Arena} {x root target new : NodeId}

/-- A node is equal to one that stands for the same tree but for ids, also after edits. -/
theorem Spells.equal_of_sprouts {b : Arena} {y : NodeId} {t u : Subtree} (hx : a.Spells x t)
    (hab : a.Extends b) (hy : b.Sprouts y u) (hshape : u.shape = t.shape) :
    b.structurallyEqual x y = true := by
  obtain ⟨v, hv, hvu⟩ := hy
  rw [structurallyEqual_iff_shape (hx.mono hab) hv, hvu, hshape]

theorem reaches_knows (hclosed : a.Closed) (hroot : a.Knows root) (h : a.Reaches root x) :
    a.Knows x := by
  obtain ⟨n, hn⟩ := h
  cases hn with
  | here => exact hroot
  | child _ hc => exact knows_iff.2 (Option.isSome_iff_exists.1 (hclosed _ _ hc))

/-- **Structural equality is equality of trees** in every closed arena in which no node is below
    itself. -/
theorem comparesTrees_of_acyclic (hclosed : a.Closed) (hstored : a.Stored) (hshort : a.Short)
    (hac : a.Acyclic) : a.ComparesTrees where
  tree x hx := by
    obtain ⟨t, ht⟩ := exists_spells hclosed hstored hac hx
    exact ⟨t, ht, fun u hu => hu.unique ht⟩
  equal x y t u hx hy := structurallyEqual_iff_shape hx hy
  equivalence := by
    have htree (x : {x // a.Knows x}) := exists_spells hclosed hstored hac x.2
    refine ⟨fun x => structurallyEqual_self hac x, fun {x y} hxy => ?_, fun {x y z} hxy hyz => ?_⟩
    · obtain ⟨t, ht⟩ := htree x
      obtain ⟨u, hu⟩ := htree y
      rw [structurallyEqual_iff_shape ht hu] at hxy
      rw [structurallyEqual_iff_shape hu ht, hxy]
    · obtain ⟨t, ht⟩ := htree x
      obtain ⟨u, hu⟩ := htree y
      obtain ⟨v, hv⟩ := htree z
      rw [structurallyEqual_iff_shape ht hu] at hxy
      rw [structurallyEqual_iff_shape hu hv] at hyz
      rw [structurallyEqual_iff_shape ht hv, hxy, hyz]
  copy x hx := by
    obtain ⟨n, hn⟩ := knows_iff.1 hx
    obtain ⟨t, ht⟩ := exists_spells hclosed hstored hac hx
    refine ⟨(a.alloc n).1, (a.alloc n).2, ?_, ?_⟩
    · unfold cloneNode
      rw [EditM.run_get, hn]
      rfl
    · exact ht.equal_of_sprouts (extends_alloc a n) (ht.sprouts_copy hn) rfl
  replaced root target new hroot hnew hreach hequal := by
    have htarget := reaches_knows hclosed hroot hreach
    obtain ⟨g, hg⟩ := exists_trees hclosed hstored hac
    have hshape := (structurallyEqual_iff_shape (hg target htarget) (hg new hnew)).1 hequal
    have hknown : ∀ x, some new = some x → a.Knows x := by
      rintro x ⟨⟩
      exact hnew
    by_cases heq : target = root
    · subst heq
      exact ⟨new, a, run_replace_root hroot, hequal⟩
    · rcases replace_outcome hg hac hshort hroot hknown heq with ⟨hnot, -⟩ | ⟨hnone, -⟩ |
        ⟨-, -, root', hrun, hsprouts⟩
      · exact absurd hreach hnot
      · cases hnone
      · have hext := (replace_comes hg hac hshort hroot hknown heq).extends_
        refine ⟨root', _, Prod.ext hrun rfl, ?_⟩
        refine (hg root hroot).equal_of_sprouts hext hsprouts ?_
        exact (hg root hroot).shape_subst (hg target htarget) hshape.symm

/-- Two blocks of two literals each: one literal twice, and two that are equal. -/
def twins : Arena :=
  ⟨#[.booleanLiteral true, .block ⟨0, 2⟩, .booleanLiteral true, .block ⟨2, 2⟩, .block ⟨4, 1⟩],
    #[⟨0⟩, ⟨0⟩, ⟨0⟩, ⟨2⟩, ⟨1⟩]⟩

/-- The block that shares its literal is equal to the one that does not. -/
theorem comparesTrees_twins :
    (twins.Closed ∧ twins.Stored ∧ twins.Short ∧ twins.Acyclic) ∧ twins.ComparesTrees ∧
      twins.structurallyEqual ⟨1⟩ ⟨3⟩ = true := by
  have hcomplete : twins.Complete := complete_of_all (by decide) (by decide)
  obtain ⟨hclosed, hstored⟩ := hcomplete.closed_stored
  have hshort : twins.Short := short_of_all (by decide)
  have hacyclic : twins.Acyclic := acyclic_of_all (by decide)
  exact ⟨⟨hclosed, hstored, hshort, hacyclic⟩,
    comparesTrees_of_acyclic hclosed hstored hshort hacyclic, by decide⟩

end

end Arena

end Arbor
