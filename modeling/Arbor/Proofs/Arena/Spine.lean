/-
  The way from a root down to a node, and its rebuilding.

  * `Spot`: a place in a node, by slot and item; `Arena.At a x way z`: the way leads from `x`
    down to `z`;
  * `Arena.Swaps`: the contents of a slot in which one item has become something else;
  * `Arena.Rises`: what is at the end of a way is replaced, and the nodes on the way are copied
    from there upwards, each with one slot changed.

  Main statements: `Rises.size`, `Rises.copies` and `Rises.lists`, what is allocated;
  `Rises.places`, where everything is afterwards.
-/
import Arbor.Proofs.Arena.Substitution

namespace Arbor

/-- Lists that are put together without repetition have nothing in common. -/
theorem disjoint_of_nodup_flatMap {α β : Type} {f : α → List β} {xs : List α} {i j : Nat} {x y : α}
    (h : (xs.flatMap f).Nodup) (hi : xs[i]? = some x) (hj : xs[j]? = some y) (hne : i ≠ j) :
    List.Disjoint (f x) (f y) := by
  have hpairs := List.pairwise_iff_getElem.1 (List.nodup_flatMap.1 h).2
  obtain ⟨hi', rfl⟩ := List.getElem?_eq_some_iff.1 hi
  obtain ⟨hj', rfl⟩ := List.getElem?_eq_some_iff.1 hj
  rcases Nat.lt_or_gt_of_ne hne with hlt | hlt
  · exact hpairs i j hi' hj' hlt
  · exact fun z hz hz' => hpairs j i hj' hi' hlt hz' hz

/-- A place in a node: the number of a slot, and of an item in that slot. -/
structure Spot where
  slot : Nat
  item : Nat
deriving DecidableEq, Repr

namespace Arena

/-! ## Ways down -/

/-- The way leads from a node down to another. -/
inductive At (a : Arena) : NodeId → List Spot → NodeId → Prop
  | here (x : NodeId) : At a x [] x
  | down {x c z : NodeId} {n : Node} {s : Child} {q : Spot} {way : List Spot} :
      a.node? x = some n → n.slots[q.slot]? = some s → (a.ofSlot s)[q.item]? = some c →
      At a c way z → At a x (q :: way) z

section
variable {a b : Arena} {x y z c : NodeId} {n : Node} {s : Child} {q : Spot} {way ways : List Spot}

theorem mem_children_of_spot (hn : a.node? x = some n) (hs : n.slots[q.slot]? = some s)
    (hc : (a.ofSlot s)[q.item]? = some c) : c ∈ a.children x := by
  rw [children_eq hn]
  exact mem_childrenOf (List.mem_of_getElem? hs) (List.mem_of_getElem? hc)

theorem exists_spot_of_mem_children (hc : c ∈ a.children x) : ∃ n s, ∃ q : Spot,
    a.node? x = some n ∧ n.slots[q.slot]? = some s ∧ (a.ofSlot s)[q.item]? = some c := by
  unfold children at hc
  split at hc
  · next n hn =>
    obtain ⟨s, hs, hc⟩ := List.mem_flatMap.1 hc
    obtain ⟨i, hi⟩ := List.getElem?_of_mem hs
    obtain ⟨j, hj⟩ := List.getElem?_of_mem hc
    exact ⟨n, s, ⟨i, j⟩, hn, hi, hj⟩
  · cases hc

theorem At.append (h : a.At x way y) (h' : a.At y ways z) : a.At x (way ++ ways) z := by
  induction h with
  | here => exact h'
  | down hn hs hc _ ih => exact .down hn hs hc (ih h')

theorem At.reaches (h : a.At x way z) : a.Reaches x z := by
  induction h with
  | here => exact reaches_self a _
  | down hn hs hc _ ih => exact ((reaches_self a _).child (mem_children_of_spot hn hs hc)).trans ih

/-- The way goes on below the child at its first place. -/
theorem At.tail (h : a.At x (q :: way) z) (hn : a.node? x = some n)
    (hs : n.slots[q.slot]? = some s) (hc : (a.ofSlot s)[q.item]? = some c) : a.At c way z := by
  cases h with
  | down hn' hs' hc' h =>
    rw [hn] at hn'
    cases hn'
    rw [hs] at hs'
    cases hs'
    rw [hc] at hc'
    cases hc'
    exact h

/-- Every path is along a way of its length. -/
theorem Path.exists_at {k : Nat} (h : a.Path x k z) : ∃ way, way.length = k ∧ a.At x way z := by
  induction h with
  | here => exact ⟨[], rfl, .here x⟩
  | child _ hc ih =>
    obtain ⟨way, hlength, hway⟩ := ih
    obtain ⟨n, s, q, hn, hs, hc⟩ := exists_spot_of_mem_children hc
    refine ⟨way ++ [q], by simp [hlength], hway.append (.down hn hs hc (.here _))⟩

/-! ### Arenas that hold what they refer to -/

theorem knows_of_mem_children (hclosed : a.Closed) (hc : c ∈ a.children x) : a.Knows c :=
  knows_iff.2 (Option.isSome_iff_exists.1 (hclosed x c hc))

/-- The slots of a node that was there are read as before. -/
theorem Extends.ofSlot_of_stored (hab : a.Extends b) (hstored : a.Stored) (hn : a.node? x = some n)
    (hs : n.slots[q.slot]? = some s) : b.ofSlot s = a.ofSlot s :=
  hab.ofSlot_eq (hstored x n hn s (List.mem_of_getElem? hs))

/-- From a node that was there, the ways lead where they led before. -/
theorem At.of_extends (hclosed : a.Closed) (hstored : a.Stored) (hab : a.Extends b)
    (hx : a.Knows x) (h : b.At x way z) : a.At x way z := by
  induction h with
  | here => exact .here _
  | @down x c z m s q way hm hs hc _ ih =>
    obtain ⟨n, hn⟩ := knows_iff.1 hx
    obtain rfl : n = m := Option.some.inj ((hab.node? x n hn).symm.trans hm)
    rw [hab.ofSlot_of_stored hstored hn hs] at hc
    exact .down hn hs hc (ih (knows_of_mem_children hclosed (mem_children_of_spot hn hs hc)))

/-! ### Trees -/

/-- In a tree, nothing is below two children that are in different places. -/
theorem disjoint_of_spots {q' : Spot} {s' : Child} {c' : NodeId} (hac : a.Acyclic)
    (honce : (a.preorder x).Nodup) (hn : a.node? x = some n) (hs : n.slots[q.slot]? = some s)
    (hc : (a.ofSlot s)[q.item]? = some c) (hs' : n.slots[q'.slot]? = some s')
    (hc' : (a.ofSlot s')[q'.item]? = some c') (hne : q ≠ q') :
    List.Disjoint (a.preorder c) (a.preorder c') := by
  rw [preorder_eq hac, children_eq hn, childrenOf, List.flatMap_assoc] at honce
  have honce := (List.nodup_cons.1 honce).2
  by_cases hslot : q.slot = q'.slot
  · -- two items of one child list
    rw [← hslot, hs] at hs'
    cases hs'
    have hitem : q.item ≠ q'.item := fun hitem => hne (by
      cases q
      cases q'
      simp_all)
    exact disjoint_of_nodup_flatMap ((List.nodup_flatMap.1 honce).1 s (List.mem_of_getElem? hs))
      hc hc' hitem
  · intro z hz hz'
    refine disjoint_of_nodup_flatMap honce hs hs' hslot
      (List.mem_flatMap.2 ⟨c, List.mem_of_getElem? hc, hz⟩)
      (List.mem_flatMap.2 ⟨c', List.mem_of_getElem? hc', hz'⟩)

/-- The part of a tree below a child is a tree. -/
theorem nodup_preorder_child (hac : a.Acyclic) (honce : (a.preorder x).Nodup)
    (hc : c ∈ a.children x) : (a.preorder c).Nodup := by
  rw [preorder_eq hac] at honce
  exact (List.nodup_flatMap.1 (List.nodup_cons.1 honce).2).1 c hc

/-- What is below another child than the one on the way neither leads to the end of the way nor
    is below it. -/
theorem apart_of_spots {q' : Spot} {s' : Child} {c' target u : NodeId} (hac : a.Acyclic)
    (honce : (a.preorder x).Nodup) (hn : a.node? x = some n) (hs : n.slots[q.slot]? = some s)
    (hc : (a.ofSlot s)[q.item]? = some c) (hs' : n.slots[q'.slot]? = some s')
    (hc' : (a.ofSlot s')[q'.item]? = some c') (hne : q ≠ q') (ht : a.Reaches c target)
    (hu : a.Reaches c' u) : ¬a.Reaches u target ∧ ¬a.Reaches target u := by
  have hdisjoint := disjoint_of_spots hac honce hn hs hc hs' hc' hne
  constructor
  · intro h
    exact hdisjoint ((mem_preorder_iff hac).2 ht) ((mem_preorder_iff hac).2 (hu.trans h))
  · intro h
    exact hdisjoint ((mem_preorder_iff hac).2 (ht.trans h)) ((mem_preorder_iff hac).2 hu)

end

/-! ## Slots with one item changed -/

/-- The list in which the item at a place has become another, or nothing. -/
def swapped (xs : List NodeId) (j : Nat) (w : Option NodeId) : List NodeId :=
  xs.take j ++ w.toList ++ xs.drop (j + 1)

/-- What a slot has in the list storage. -/
def listed (a : Arena) : Child → List NodeId
  | .list r => a.list r
  | _ => []

/-- The contents of a slot, as `a` has it, in which the item at place `j` has become `w`: a
    child list is allocated anew. -/
inductive Swaps (a : Arena) (j : Nat) (w : Option NodeId) (c : Arena) : Child → Child → Arena → Prop
  | one {z y : NodeId} : w = some y → Swaps a j w c (.one z) (.one y) c
  | optional (z : NodeId) : Swaps a j w c (.optional (some z)) (.optional w) c
  | list {range new : NodeRange} :
      (c.allocList (swapped (a.list range) j w)).1 = .ok new →
      Swaps a j w c (.list range) (.list new) (c.allocList (swapped (a.list range) j w)).2

/-- The contents of a slot with an item changed, as a later arena has them. -/
structure Swapped (a d : Arena) (j : Nat) (w : Option NodeId) (s s' : Child) : Prop where
  similar : s.Similar s'
  stores : d.Stores s'
  /-- One item has changed. -/
  items : d.ofSlot s' = swapped (a.ofSlot s) j w
  /-- A child list is a new one. -/
  fresh : ∀ new, s' = .list new → a.lists.size ≤ new.start

section
variable {a c d e : Arena} {j : Nat} {w : Option NodeId} {s s' : Child} {z : NodeId}

theorem Swaps.extends_ (h : a.Swaps j w c s s' d) : c.Extends d ∧ d.size = c.size ∧
    d.lists.toList = c.lists.toList ++ d.listed s' := by
  cases h with
  | one hw => exact ⟨.refl c, rfl, by simp [listed]⟩
  | optional z => exact ⟨.refl c, rfl, by simp [listed]⟩
  | list hnew =>
    refine ⟨extends_allocList c _, rfl, ?_⟩
    rw [listed, list_allocList hnew]
    simp [allocList]

theorem Swaps.swapped (h : a.Swaps j w c s s' d) (hac : a.Extends c)
    (hz : (a.ofSlot s)[j]? = some z) : a.Swapped d j w s s' := by
  cases h with
  | one hw =>
    have hj : j = 0 := by simpa [ofSlot] using (List.getElem?_eq_some_iff.1 hz).1
    subst hj hw
    exact ⟨.one .., by simp [Stores], rfl, by simp⟩
  | optional z =>
    have hj : j = 0 := by simpa [ofSlot] using (List.getElem?_eq_some_iff.1 hz).1
    subst hj
    exact ⟨.optional .., by simp [Stores], by simp [ofSlot, Arena.swapped], by simp⟩
  | @list range new hnew =>
    have hfits := fits_allocList hnew
    refine ⟨.list .., fun r hr => by cases hr; exact hfits, list_allocList hnew, fun r hr => ?_⟩
    cases hr
    unfold allocList at hnew
    split at hnew
    · cases hnew
      exact hac.size
    · cases hnew

theorem Swapped.mono (h : a.Swapped d j w s s') (hde : d.Extends e) : a.Swapped e j w s s' :=
  ⟨h.similar, hde.stores h.stores, (hde.ofSlot_eq h.stores).trans h.items, h.fresh⟩

end

end Arena

/-- Similar contents in one slot. -/
theorem forall₂_similar_set {ss : List Child} {i : Nat} {s s' : Child} (hs : ss[i]? = some s)
    (h : s.Similar s') : List.Forall₂ Child.Similar ss (ss.set i s') := by
  induction ss generalizing i with
  | nil => simp at hs
  | cons t ss ih =>
    cases i with
    | zero =>
      cases hs
      exact .cons h (List.forall₂_same.2 fun s _ => .refl s)
    | succ i => exact .cons (.refl t) (ih hs)

namespace Arena

/-! ## Rising from the end of a way -/

/-- What is at the end of the way from `x` becomes `r`, and the nodes on the way are copied from
    there upwards, beginning in `c` and ending in `d`; `w` is what `x` becomes. -/
inductive Rises (a : Arena) (r : Option NodeId) :
    NodeId → List Spot → Option NodeId → Arena → Arena → Prop
  | here (z : NodeId) (c : Arena) : Rises a r z [] r c c
  | down {x z : NodeId} {n : Node} {s s' : Child} {q : Spot} {way : List Spot} {w : Option NodeId}
      {c d e : Arena} : a.node? x = some n → n.slots[q.slot]? = some s →
      (a.ofSlot s)[q.item]? = some z → Rises a r z way w c d → a.Swaps q.item w d s s' e →
      Rises a r x (q :: way) (some (e.alloc (n.withSlots (n.slots.set q.slot s'))).1) c
        (e.alloc (n.withSlots (n.slots.set q.slot s'))).2

/-- What the child on the way becomes: the replacement, or the copy that was allocated last. -/
def becomes (r : Option NodeId) (first : Nat) : List Spot → Option NodeId
  | [] => r
  | _ :: back => some ⟨first + back.length⟩

section
variable {a c d : Arena} {r w : Option NodeId} {x : NodeId} {way : List Spot}

/-- One node is allocated for each node on the way. -/
theorem Rises.size (h : a.Rises r x way w c d) : c.Extends d ∧ d.size = c.size + way.length ∧
    w = becomes r c.size way := by
  induction h with
  | here z c => exact ⟨.refl c, rfl, rfl⟩
  | @down x z n s s' q way w c d e _ _ _ _ hswaps ih =>
    obtain ⟨hcd, hsize, -⟩ := ih
    obtain ⟨hde, hsize', -⟩ := hswaps.extends_
    refine ⟨hcd.trans (hde.trans (extends_alloc e _)), ?_, ?_⟩
    · rw [size_alloc, hsize', hsize, List.length_cons, Nat.add_assoc]
    · show (some ⟨e.size⟩ : Option NodeId) = _
      rw [hsize', hsize, becomes]

/-- `copy` is a copy of the node `u` in which the child at the spot has become `w`, and `written`
    is in the list storage for it. -/
def Copied (a d : Arena) (u : NodeId) (q : Spot) (w : Option NodeId) (copy : NodeId)
    (written : List NodeId) : Prop :=
  ∃ n s s', a.node? u = some n ∧ n.slots[q.slot]? = some s ∧
    d.node? copy = some (n.withSlots (n.slots.set q.slot s')) ∧ a.Swapped d q.item w s s' ∧
    written = d.listed s'

theorem Copied.mono {e : Arena} {u copy : NodeId} {q : Spot} {l : List NodeId}
    (h : a.Copied d u q w copy l) (hde : d.Extends e) : a.Copied e u q w copy l := by
  obtain ⟨n, s, s', hn, hs, hcopy, hswapped, rfl⟩ := h
  refine ⟨n, s, s', hn, hs, hde.node? _ _ hcopy, hswapped.mono hde, ?_⟩
  cases s' with
  | one | optional => rfl
  | list r => exact (hde.list r (hswapped.stores r rfl)).symm

/-- The copies of the nodes on the way, from the last to the first, and what is written to the
    list storage for each. -/
theorem Rises.copies (h : a.Rises r x way w c d) (hac : a.Extends c) :
    ∃ ls : List (List NodeId), ls.length = way.length ∧
      d.lists.toList = c.lists.toList ++ ls.flatten ∧
      ∀ front q back u, way = front ++ q :: back → a.At x front u →
        ∃ l, ls[back.length]? = some l ∧
          a.Copied d u q (becomes r c.size back) ⟨c.size + back.length⟩ l := by
  induction h with
  | here z c => exact ⟨[], rfl, by simp, by simp⟩
  | @down x z n s s' q way w c d e hn hs hz hrises hswaps ih =>
    obtain ⟨ls, hlength, hlists, hcopied⟩ := ih hac
    obtain ⟨hcd, hsize, rfl⟩ := hrises.size
    obtain ⟨hde, hsize', hlists'⟩ := hswaps.extends_
    have hlast := extends_alloc e (n.withSlots (n.slots.set q.slot s'))
    have hswapped := hswaps.swapped (hac.trans hcd) hz
    refine ⟨ls ++ [e.listed s'], by simp [hlength], ?_, ?_⟩
    · show e.lists.toList = _
      rw [hlists', hlists]
      simp
    · intro front q' back u hway hu
      cases front with
      | nil =>
        obtain ⟨rfl, rfl⟩ := List.cons.inj hway
        cases hu
        refine ⟨e.listed s', by simp [← hlength], n, s, s', hn, hs, ?_, hswapped.mono hlast, ?_⟩
        · rw [← hsize, ← hsize']
          exact node?_alloc e _
        · cases s' <;> rfl
      | cons q₀ front =>
        obtain ⟨rfl, rfl⟩ := List.cons.inj hway
        obtain ⟨l, hl, hcopy⟩ := hcopied front q' back u rfl (hu.tail hn hs hz)
        exact ⟨l, by rw [List.getElem?_append_left (List.getElem?_eq_some_iff.1 hl).1, hl],
          hcopy.mono (hde.trans hlast)⟩

/-! ## Where everything is afterwards -/

/-- Where a place was before the end of the way was removed: the later items of its child list
    have moved up. -/
def before : List Spot → List Spot → List Spot
  | [q], q' :: ps =>
    (if q'.slot = q.slot ∧ q.item ≤ q'.item then ⟨q'.slot, q'.item + 1⟩ else q') :: ps
  | q :: way, q' :: ps => q' :: if q' = q then before way ps else ps
  | _, ps => ps

/-- A node of the tree after `target`, at the end of the way from `x`, was replaced by `r`, or
    removed: a copy, numbered from `first`, of a node on the way; a node of the replacement; or a
    node of the old tree, which was in the same place and has nothing to do with the target. -/
inductive Lands (a : Arena) (target : NodeId) (r : Option NodeId) (x : NodeId) (way : List Spot)
    (first : Nat) : List Spot → NodeId → Prop
  | copy {front back : List Spot} {q : Spot} : way = front ++ q :: back →
      Lands a target r x way first front ⟨first + back.length⟩
  | below {new u : NodeId} {ps : List Spot} : r = some new → a.At new ps u →
      Lands a target r x way first (way ++ ps) u
  | kept {u : NodeId} {ps : List Spot} :
      a.At x (if r = none then before way ps else ps) u → ¬a.Reaches u target →
      ¬a.Reaches target u → Lands a target r x way first ps u

/-- An item of the changed list is what the item at `j` has become, or another item, which has
    moved up if it came after a removed one. -/
theorem of_getElem?_swapped {xs : List NodeId} {j m : Nat} {y : NodeId} (hj : j < xs.length)
    (h : (swapped xs j w)[m]? = some y) : m = j ∧ w = some y ∨
      ∃ m', m' ≠ j ∧ xs[m']? = some y ∧ m' = if w = none ∧ j ≤ m then m + 1 else m := by
  have htake : (xs.take j).length = j := by simp; omega
  unfold swapped at h
  by_cases hlt : m < j
  · rw [List.append_assoc, List.getElem?_append_left (by omega), List.getElem?_take_of_lt hlt] at h
    exact .inr ⟨m, Nat.ne_of_lt hlt, h, by rw [if_neg (by omega)]⟩
  · rw [List.append_assoc, List.getElem?_append_right (by omega), htake] at h
    cases w with
    | none =>
      rw [Option.toList_none, List.nil_append, List.getElem?_drop] at h
      refine .inr ⟨m + 1, by omega, ?_, by rw [if_pos ⟨rfl, by omega⟩]⟩
      rw [← h]
      congr 1
      omega
    | some z =>
      rw [Option.toList_some, List.singleton_append] at h
      by_cases heq : m = j
      · subst heq
        rw [Nat.sub_self] at h
        exact .inl ⟨rfl, h⟩
      · obtain ⟨k, rfl⟩ : ∃ k, m = j + 1 + k := ⟨m - (j + 1), by omega⟩
        have hk : j + 1 + k - j = k + 1 := by omega
        rw [hk, List.getElem?_cons_succ, List.getElem?_drop] at h
        exact .inr ⟨j + 1 + k, heq, h, by simp⟩

variable {target : NodeId} {first : Nat} {ps : List Spot} {u : NodeId}

/-- Places in other slots stay. -/
theorem before_of_slot_ne {q q' : Spot} (h : q'.slot ≠ q.slot) :
    before (q :: way) (q' :: ps) = q' :: ps := by
  have hne : q' ≠ q := fun heq => h (congrArg Spot.slot heq)
  cases way with
  | nil => rw [before, if_neg fun hcond => h hcond.1]
  | cons q₂ way => rw [before, if_neg hne]; simp

/-- Where another item of the child list on the way was. -/
theorem old_eq {q q' : Spot} {m : Nat} (hw : w = becomes r first way) (hslot : q'.slot = q.slot)
    (hm : m = if w = none ∧ q.item ≤ q'.item then q'.item + 1 else q'.item) (hne : m ≠ q.item) :
    (if r = none then before (q :: way) (q' :: ps) else q' :: ps) = ⟨q.slot, m⟩ :: ps := by
  have hsame : q' = ⟨q.slot, q'.item⟩ := by rw [← hslot]
  cases way with
  | nil =>
    rw [show w = r from hw] at hm
    by_cases hr : r = none
    · rw [if_pos hr, before, hm]
      by_cases hle : q.item ≤ q'.item
      · rw [if_pos ⟨hslot, hle⟩, if_pos ⟨hr, hle⟩, hslot]
      · rw [if_neg fun h => hle h.2, if_neg fun h => hle h.2, ← hsame]
    · rw [if_neg hr, hm, if_neg fun h => hr h.1, ← hsame]
  | cons q₂ way =>
    rw [hw, becomes, if_neg (by simp)] at hm
    have hne' : q' ≠ q := fun heq => hne (by rw [hm, heq])
    rw [before, if_neg hne', ite_self, hm, ← hsame]
    simp

/-- What lands below the child on the way lands there below the node. -/
theorem Lands.down {z : NodeId} {n : Node} {s : Child} {q : Spot} (hn : a.node? x = some n)
    (hs : n.slots[q.slot]? = some s) (hz : (a.ofSlot s)[q.item]? = some z)
    (hway : a.At z way target) (h : a.Lands target r z way first ps u) :
    a.Lands target r x (q :: way) first (q :: ps) u := by
  cases h with
  | copy hfront =>
    rw [hfront]
    exact .copy (List.cons_append ..).symm
  | below hr hu => exact .below hr hu
  | kept hu hno hno' =>
    cases way with
    | nil =>
      -- then the child is the target itself
      cases hway
      have hbefore : before [] ps = ps := by cases ps <;> rfl
      rw [hbefore, ite_self] at hu
      exact absurd hu.reaches hno'
    | cons q₂ way =>
      refine .kept ?_ hno hno'
      rw [before, if_pos rfl, ← apply_ite (List.cons q)]
      · exact .down hn hs hz hu
      · simp

/-- What is below another child stays. -/
theorem Lands.other {z c : NodeId} {n : Node} {s s' : Child} {q q' : Spot} (old : Spot)
    (hac : a.Acyclic) (honce : (a.preorder x).Nodup) (hn : a.node? x = some n)
    (hs : n.slots[q.slot]? = some s) (hz : (a.ofSlot s)[q.item]? = some z)
    (hway : a.At z way target) (hs' : n.slots[old.slot]? = some s')
    (hc : (a.ofSlot s')[old.item]? = some c) (hne : old ≠ q)
    (hold : (if r = none then before (q :: way) (q' :: ps) else q' :: ps) = old :: ps)
    (hu : a.At c ps u) : a.Lands target r x (q :: way) first (q' :: ps) u := by
  obtain ⟨hno, hno'⟩ := apart_of_spots hac honce hn hs hz hs' hc hne.symm hway.reaches hu.reaches
  refine .kept ?_ hno hno'
  rw [hold]
  exact .down hn hs' hc hu

/-- **Where everything is afterwards**, in whatever the arena has grown to. -/
theorem Rises.places (hclosed : a.Closed) (hstored : a.Stored) (hac : a.Acyclic)
    (hr : ∀ new, r = some new → a.Knows new) (h : a.Rises r x way w c d) (hext : a.Extends c)
    (honce : (a.preorder x).Nodup) (hway : a.At x way target) {f : Arena} (hdf : d.Extends f)
    {y : NodeId} (hy : w = some y) (hu : f.At y ps u) : a.Lands target r x way c.size ps u := by
  induction h generalizing ps y with
  | here z c =>
    exact .below hy (hu.of_extends hclosed hstored (hext.trans hdf) (hr y hy))
  | @down x z n s s' q way w c d e hn hs hz hrises hswaps ih =>
    obtain ⟨hcd, hsize, hw⟩ := hrises.size
    obtain ⟨hde, hsize', -⟩ := hswaps.extends_
    have hlast := extends_alloc e (n.withSlots (n.slots.set q.slot s'))
    have haf := hext.trans (hcd.trans (hde.trans (hlast.trans hdf)))
    have hswapped := (hswaps.swapped (hext.trans hcd) hz).mono (hlast.trans hdf)
    cases hy
    have hcopy := hdf.node? _ _ (node?_alloc e (n.withSlots (n.slots.set q.slot s')))
    have hz' := mem_children_of_spot hn hs hz
    have hbelow := hway.tail hn hs hz
    cases hu with
    | here =>
      have hid : (e.alloc (n.withSlots (n.slots.set q.slot s'))).1 = ⟨c.size + way.length⟩ := by
        rw [← hsize, ← hsize']
        rfl
      rw [hid]
      exact .copy (List.nil_append _).symm
    | @down _ y _ m t q' ps hm ht hy hu =>
      rw [hcopy] at hm
      cases hm
      rw [(Node.slots_data_withSlots (forall₂_similar_set hs hswapped.similar)).1] at ht
      by_cases hslot : q'.slot = q.slot
      · rw [hslot, List.getElem?_set_self (List.getElem?_eq_some_iff.1 hs).1] at ht
        cases ht
        rw [hswapped.items] at hy
        rcases of_getElem?_swapped (List.getElem?_eq_some_iff.1 hz).1 hy with
          ⟨hitem, hitem'⟩ | ⟨m, hne, hold, hm⟩
        · obtain rfl : q' = q := by
            cases q
            cases q'
            simp_all
          exact (ih hext (nodup_preorder_child hac honce hz') hbelow (hde.trans (hlast.trans hdf))
            hitem' hu).down hn hs hz hbelow
        · have hne' : (⟨q.slot, m⟩ : Spot) ≠ q := fun heq => hne (congrArg Spot.item heq)
          refine .other ⟨q.slot, m⟩ hac honce hn hs hz hbelow hs hold hne' (old_eq hw hslot hm hne)
            (hu.of_extends hclosed hstored haf ?_)
          exact knows_of_mem_children hclosed (mem_children_of_spot (q := ⟨q.slot, m⟩) hn hs hold)
      · rw [List.getElem?_set_ne (Ne.symm hslot)] at ht
        rw [haf.ofSlot_of_stored hstored hn ht] at hy
        refine .other q' hac honce hn hs hz hbelow ht hy (fun heq => hslot (congrArg Spot.slot heq))
          ?_ (hu.of_extends hclosed hstored haf ?_)
        · rw [before_of_slot_ne hslot, ite_self]
        · exact knows_of_mem_children hclosed (mem_children_of_spot hn ht hy)

end

end Arena

end Arbor
