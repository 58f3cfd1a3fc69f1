/-
  An edit of a tree copies the ancestors, and nothing else.

  A node of a tree is in one place, and the edit that replaces it finds it there: everywhere
  else it is idle, and on the way back up it copies one ancestor after another.

  Main statement: `replace_renews`, what an edit of a tree that succeeds leaves.
-/
import Arbor.Proofs.Arena.Spine

namespace Arbor

namespace EditM

variable {α β : Type} {c : Arena} {x : EditM α} {f : β → EditM α} {P : Arena → α → Prop}
  {Q : Arena → List α → Prop}

theorem Idle.yields {y : α} (h : x.Idle c y) (hP : P c y) : x.Yields c P := by
  intro z d hr
  rw [h] at hr
  cases hr
  exact hP

theorem Yields.mono {P' : Arena → α → Prop} (h : x.Yields c P) (hP : ∀ d y, P d y → P' d y) :
    x.Yields c P' :=
  fun y d hr => hP d y (h y d hr)

/-- All edits but one are idle. -/
theorem yields_mapM_split {xs ys : List β} {z : β} (us vs : List α)
    (hxs : (xs.mapM f).Idle c us) (hz : (f z).Yields c P)
    (hys : ∀ y d, P d y → (ys.mapM f).Idle d vs) (hQ : ∀ y d, P d y → Q d (us ++ y :: vs)) :
    ((xs ++ z :: ys).mapM f).Yields c Q := by
  rw [List.mapM_append, List.mapM_cons]
  refine (hxs.yields (P := fun d us' => d = c ∧ us' = us) ⟨rfl, rfl⟩).bind fun us' d hd => ?_
  obtain ⟨rfl, rfl⟩ := hd
  refine Yields.bind (P := fun d vs' => Q d (us' ++ vs')) ?_ fun vs' d hd => yields_pure hd
  refine hz.bind fun y d hy => ?_
  have hback := (hys y d hy).yields (P := fun e vs' => P e y ∧ vs' = vs) ⟨hy, rfl⟩
  refine hback.bind fun vs' e he => ?_
  obtain ⟨he, rfl⟩ := he
  exact yields_pure (hQ y e he)

end EditM

/-- A list is what comes before an item, the item and what comes after. -/
theorem eq_take_append_cons_drop {α : Type} {xs : List α} {j : Nat} {x : α} (h : xs[j]? = some x) :
    xs = xs.take j ++ x :: xs.drop (j + 1) := by
  obtain ⟨hj, rfl⟩ := List.getElem?_eq_some_iff.1 h
  rw [List.getElem_cons_drop, List.take_append_drop]

/-- What is in front of an item, or behind it, is in another place. -/
theorem exists_index_ne {α : Type} {xs : List α} {j : Nat} {y : α}
    (h : y ∈ xs.take j ∨ y ∈ xs.drop (j + 1)) : ∃ i, i ≠ j ∧ xs[i]? = some y := by
  rcases h with h | h
  · obtain ⟨i, hi⟩ := List.getElem?_of_mem h
    have hlt := (List.getElem?_eq_some_iff.1 hi).1
    rw [List.length_take] at hlt
    rw [List.getElem?_take_of_lt (by omega)] at hi
    exact ⟨i, by omega, hi⟩
  · obtain ⟨i, hi⟩ := List.getElem?_of_mem h
    rw [List.getElem?_drop] at hi
    exact ⟨j + 1 + i, by omega, hi⟩

namespace Arena

section
variable {a c : Arena} {target x z : NodeId} {r : Option NodeId}

/-! ## Where the target is not -/

theorem Extends.children_of_stored (hab : a.Extends c) (hstored : a.Stored) (hx : a.Knows x) :
    c.children x = a.children x := by
  obtain ⟨n, hn⟩ := knows_iff.1 hx
  rw [children_eq hn, children_eq (hab.node? x n hn), hab.childrenOf_eq (hstored x n hn)]

/-- Where the target is not, a descent is idle, however deep it goes. -/
theorem idle_unroll (hclosed : a.Closed) (hstored : a.Stored) (hac : a.Acyclic)
    (hext : a.Extends c) (hx : a.Knows x) (hfree : a.Free target (a.children x)) (depth : Nat) :
    (unroll (pure none) (rebuildNode target r) depth x).Idle c none := by
  induction depth generalizing x with
  | zero => rfl
  | succ depth ih =>
    have hchildren := hext.children_of_stored hstored hx
    refine idle_rebuildNode (fun y hy => ?_) fun y hy => ?_
    · rw [hchildren] at hy
      exact hfree.ne hac hy
    · rw [hchildren] at hy
      exact ih (knows_of_mem_children hclosed hy) (hfree.children hac hy)

/-! ## Where the target is -/

/-- What becomes of the child on the way: it is the target, or it is rebuilt. -/
def Turns (target : NodeId) (r : Option NodeId) (f : NodeId → EditM (Option NodeId)) (c : Arena)
    (z : NodeId) (P : Arena → Option NodeId → Prop) : Prop :=
  z = target ∧ P c r ∨ z ≠ target ∧ (f z).Yields c fun d w => w.isSome = true ∧ P d w

/-- In any arena that has grown from `a`, the node is not the target and is not rebuilt. -/
def Bypassed (a : Arena) (target : NodeId) (f : NodeId → EditM (Option NodeId)) (y : NodeId) :
    Prop :=
  y ≠ target ∧ ∀ d, a.Extends d → (f y).Idle d none

variable {f : NodeId → EditM (Option NodeId)} {P : Arena → Option NodeId → Prop}

theorem Turns.yields_item (h : Turns target r f c z P) :
    (rebuildItem target r f z).Yields c fun d q => ∃ w : Option NodeId, P d w ∧
      q = (w.toList, true) := by
  unfold rebuildItem
  rcases h with ⟨rfl, hP⟩ | ⟨hne, hyields⟩
  · rw [if_pos rfl]
    exact EditM.yields_pure ⟨r, hP, rfl⟩
  · rw [if_neg hne]
    refine hyields.bind fun w d hw => ?_
    obtain ⟨hsome, hP⟩ := hw
    obtain ⟨y, rfl⟩ := Option.isSome_iff_exists.1 hsome
    exact EditM.yields_pure ⟨some y, hP, rfl⟩

/-- Items that are bypassed stay. -/
theorem idle_items {xs : List NodeId} (hxs : ∀ y ∈ xs, a.Bypassed target f y)
    (hext : a.Extends c) :
    (xs.mapM (rebuildItem target r f)).Idle c (xs.map fun y => ([y], false)) :=
  EditM.idle_mapM fun y hy => idle_rebuildItem (hxs y hy).1 ((hxs y hy).2 c hext)

theorem yields_items {front back : List NodeId} (hext : a.Extends c)
    (hP : ∀ d w, P d w → a.Extends d) (hturns : Turns target r f c z P)
    (hfront : ∀ y ∈ front, a.Bypassed target f y) (hback : ∀ y ∈ back, a.Bypassed target f y) :
    ((front ++ z :: back).mapM (rebuildItem target r f)).Yields c fun d qs =>
      ∃ w : Option NodeId, P d w ∧ qs.any (·.2) = true ∧
        qs.flatMap (·.1) = front ++ w.toList ++ back := by
  refine EditM.yields_mapM_split _ (back.map fun y => ([y], false)) (idle_items hfront hext)
    hturns.yields_item (fun q d hq => ?_) fun q d hq => ?_
  · obtain ⟨w, hw, -⟩ := hq
    exact idle_items hback (hP d w hw)
  · obtain ⟨w, hw, rfl⟩ := hq
    refine ⟨w, hw, by simp, ?_⟩
    simp [List.flatMap_map, List.flatMap_singleton']

/-- The slot on the way is rebuilt, if it is rebuilt, in one place. -/
theorem yields_slot {kind field : String} {s : Child} {j : Nat} (hs : a.Stores s)
    (hext : a.Extends c) (hP : ∀ d w, P d w → a.Extends d) (hz : (a.ofSlot s)[j]? = some z)
    (hturns : Turns target r f c z P)
    (hothers : ∀ i y, i ≠ j → (a.ofSlot s)[i]? = some y → a.Bypassed target f y) :
    (rebuildSlot target r f kind (field, s)).Yields c fun e o =>
      ∃ d w s', P d w ∧ a.Swaps j w d s s' e ∧ o = some s' := by
  cases s with
  | one y =>
    have hj : j = 0 := by simpa [ofSlot] using (List.getElem?_eq_some_iff.1 hz).1
    subst hj
    cases hz
    simp only [rebuildSlot]
    rcases hturns with ⟨rfl, hP⟩ | ⟨hne, hyields⟩
    · rw [if_pos rfl]
      cases r with
      | none => exact EditM.yields_throw _
      | some new => exact EditM.yields_pure ⟨c, some new, _, hP, .one rfl, rfl⟩
    · rw [if_neg hne]
      refine hyields.bind fun w d hw => ?_
      obtain ⟨hsome, hP⟩ := hw
      obtain ⟨y, rfl⟩ := Option.isSome_iff_exists.1 hsome
      exact EditM.yields_pure ⟨d, some y, _, hP, .one rfl, rfl⟩
  | optional y =>
    cases y with
    | none => simp [ofSlot] at hz
    | some y =>
      have hj : j = 0 := by simpa [ofSlot] using (List.getElem?_eq_some_iff.1 hz).1
      subst hj
      cases hz
      simp only [rebuildSlot]
      rcases hturns with ⟨rfl, hP⟩ | ⟨hne, hyields⟩
      · rw [if_pos rfl]
        exact EditM.yields_pure ⟨c, r, _, hP, .optional z, rfl⟩
      · rw [if_neg hne]
        refine hyields.bind fun w d hw => ?_
        obtain ⟨hsome, hP⟩ := hw
        obtain ⟨y, rfl⟩ := Option.isSome_iff_exists.1 hsome
        exact EditM.yields_pure ⟨d, some y, _, hP, .optional z, rfl⟩
  | list range =>
    simp only [rebuildSlot]
    refine EditM.yields_get ?_
    rw [hext.list range (hs range rfl)]
    have hsplit : a.list range = (a.list range).take j ++ z :: (a.list range).drop (j + 1) :=
      eq_take_append_cons_drop hz
    have hrest {y : NodeId} (hy : y ∈ (a.list range).take j ∨ y ∈ (a.list range).drop (j + 1)) :
        a.Bypassed target f y := by
      obtain ⟨i, hne, hi⟩ := exists_index_ne hy
      exact hothers i y hne hi
    have hitems := yields_items hext hP hturns (fun y hy => hrest (.inl hy))
      fun y hy => hrest (.inr hy)
    rw [← hsplit] at hitems
    refine hitems.bind fun qs d hqs => ?_
    obtain ⟨w, hw, hany, hids⟩ := hqs
    rw [if_pos hany, hids]
    refine (EditM.yields_allocList (P := fun e new => a.Swaps j w d (.list range) (.list new) e)
      fun new hnew => .list hnew).bind fun new e hswaps => ?_
    exact EditM.yields_pure ⟨d, w, _, hw, hswaps, rfl⟩

/-! ### Nodes on the way -/

omit target x z r f P in
theorem zipWith_getD_none {β : Type} {ss : List Child} {fs : List β} (h : ss.length = fs.length) :
    List.zipWith (fun old change => change.getD old) ss (fs.map fun _ => none) = ss := by
  induction ss generalizing fs with
  | nil => rfl
  | cons s ss ih =>
    cases fs with
    | nil => cases h
    | cons f fs => rw [List.map_cons, List.zipWith_cons_cons, ih (Nat.succ.inj h)]; rfl

/-- One slot changes. -/
theorem update_split {n : Node} {i : Nat} {field : String} {s s' : Child}
    (h : n.fields[i]? = some (field, s)) :
    n.update ((n.fields.take i).map (fun _ => none) ++
      some s' :: (n.fields.drop (i + 1)).map fun _ => none) =
        n.withSlots (n.slots.set i s') := by
  have hslot : n.slots[i]? = some s := by rw [Node.slots, List.getElem?_map, h]; rfl
  have hlt := (List.getElem?_eq_some_iff.1 hslot).1
  have hlength : n.slots.length = n.fields.length := List.length_map ..
  rw [Node.update]
  congr 1
  rw [List.set_eq_take_append_cons_drop, if_pos hlt]
  nth_rewrite 1 [eq_take_append_cons_drop hslot]
  rw [List.zipWith_append (by simp [hlength]), List.zipWith_cons_cons,
    zipWith_getD_none (by simp [hlength]), zipWith_getD_none (by simp [hlength])]
  rfl

/-- The node on the way is copied, if it is copied, with one slot changed. -/
theorem yields_node {n : Node} {s : Child} {q : Spot} (hstored : a.Stored) (hext : a.Extends c)
    (hP : ∀ d w, P d w → a.Extends d) (hn : a.node? x = some n) (hs : n.slots[q.slot]? = some s)
    (hz : (a.ofSlot s)[q.item]? = some z) (hturns : Turns target r f c z P)
    (hothers : ∀ (q' : Spot) s' y, q' ≠ q → n.slots[q'.slot]? = some s' →
      (a.ofSlot s')[q'.item]? = some y → a.Bypassed target f y) :
    (rebuildNode target r f x).Yields c fun e o => ∃ d w s' e', P d w ∧
      a.Swaps q.item w d s s' e' ∧
        o = some (e'.alloc (n.withSlots (n.slots.set q.slot s'))).1 ∧
        e = (e'.alloc (n.withSlots (n.slots.set q.slot s'))).2 := by
  obtain ⟨field, hfield⟩ : ∃ field, n.fields[q.slot]? = some (field, s) := by
    rw [Node.slots, List.getElem?_map] at hs
    obtain ⟨⟨field, s'⟩, hq, rfl⟩ := Option.map_eq_some_iff.1 hs
    exact ⟨field, hq⟩
  unfold rebuildNode
  refine EditM.yields_get ?_
  rw [hext.node? x n hn]
  -- the slots before and behind are idle
  have hidle {d : Arena} (had : a.Extends d) {fs : List (String × Child)}
      (hfs : ∀ g ∈ fs, g ∈ n.fields.take q.slot ∨ g ∈ n.fields.drop (q.slot + 1)) :
      (fs.mapM (rebuildSlot target r f n.kindName)).Idle d (fs.map fun _ => none) := by
    refine EditM.idle_mapM fun g hg => ?_
    obtain ⟨i, hne, hi⟩ := exists_index_ne (hfs g hg)
    have hslot : n.slots[i]? = some g.2 := by rw [Node.slots, List.getElem?_map, hi]; rfl
    have hbypassed : ∀ y ∈ a.ofSlot g.2, a.Bypassed target f y := by
      intro y hy
      obtain ⟨j, hj⟩ := List.getElem?_of_mem hy
      exact hothers ⟨i, j⟩ g.2 y (fun heq => hne (congrArg Spot.slot heq)) hslot hj
    have hsame : d.ofSlot g.2 = a.ofSlot g.2 :=
      had.ofSlot_eq (hstored x n hn g.2 (List.mem_of_getElem? hslot))
    refine idle_rebuildSlot _ g (fun y hy => ?_) fun y hy => ?_
    · exact (hbypassed y (hsame ▸ hy)).1
    · exact (hbypassed y (hsame ▸ hy)).2 d had
  have hslots : (n.fields.mapM (rebuildSlot target r f n.kindName)).Yields c fun e os =>
      ∃ d w s', P d w ∧ a.Swaps q.item w d s s' e ∧
        os = (n.fields.take q.slot).map (fun _ => none) ++
          some s' :: (n.fields.drop (q.slot + 1)).map fun _ => none := by
    have hsplit := eq_take_append_cons_drop hfield
    have hmid : (rebuildSlot target r f n.kindName (field, s)).Yields c fun e o =>
        ∃ d w s', P d w ∧ a.Swaps q.item w d s s' e ∧ o = some s' :=
      yields_slot (hstored x n hn s (List.mem_of_getElem? hs)) hext hP hz hturns
        fun i y hne hi => hothers ⟨q.slot, i⟩ s y (fun heq => hne (congrArg Spot.item heq)) hs hi
    nth_rewrite 1 [hsplit]
    refine EditM.yields_mapM_split _ ((n.fields.drop (q.slot + 1)).map fun _ => none)
      (hidle hext fun g hg => .inl hg) hmid (fun o e ho => ?_) fun o e ho => ?_
    · obtain ⟨d, w, s', hw, hswaps, -⟩ := ho
      exact hidle ((hP d w hw).trans hswaps.extends_.1) fun g hg => .inr hg
    · obtain ⟨d, w, s', hw, hswaps, rfl⟩ := ho
      exact ⟨d, w, s', hw, hswaps, rfl⟩
  refine hslots.bind fun os e hos => ?_
  obtain ⟨d, w, s', hw, hswaps, rfl⟩ := hos
  rw [if_neg (by simp), update_split hfield]
  have halloc := EditM.yields_alloc (a := e) (n := n.withSlots (n.slots.set q.slot s'))
    (P := fun e₁ y => y = (e.alloc (n.withSlots (n.slots.set q.slot s'))).1 ∧
      e₁ = (e.alloc (n.withSlots (n.slots.set q.slot s'))).2) ⟨rfl, rfl⟩
  exact halloc.bind fun y e₁ hy =>
    EditM.yields_pure ⟨d, w, s', e, hw, hswaps, congrArg some hy.1, hy.2⟩

/-! ## The whole way -/

/-- The start of a way of at least one step is not its end. -/
theorem At.ne {q : Spot} {way : List Spot} (hac : a.Acyclic) (h : a.At x (q :: way) z) :
    x ≠ z := by
  cases h with
  | down hn hs hc h =>
    rintro rfl
    exact hac.not_reaches_of_child (mem_children_of_spot hn hs hc) h.reaches

/-- Off the way nothing is done. -/
theorem bypassed_of_spots {n : Node} {s s' : Child} {q q' : Spot} {y : NodeId}
    (hclosed : a.Closed) (hstored : a.Stored) (hac : a.Acyclic) (honce : (a.preorder x).Nodup)
    (hn : a.node? x = some n) (hs : n.slots[q.slot]? = some s)
    (hz : (a.ofSlot s)[q.item]? = some z) (ht : a.Reaches z target)
    (hs' : n.slots[q'.slot]? = some s') (hy : (a.ofSlot s')[q'.item]? = some y) (hne : q ≠ q')
    (depth : Nat) :
    a.Bypassed target (unroll (pure none) (rebuildNode target r) depth) y := by
  have hdisjoint := disjoint_of_spots hac honce hn hs hz hs' hy hne
  have hmem := (mem_preorder_iff hac).2 ht
  refine ⟨?_, fun d had => ?_⟩
  · rintro rfl
    exact hdisjoint hmem (mem_preorder_self hac y)
  · refine idle_unroll hclosed hstored hac had ?_ (fun w hw hw' => hdisjoint hmem ?_) depth
    · exact knows_of_mem_children hclosed (mem_children_of_spot hn hs' hy)
    · rw [preorder_eq hac]
      exact List.mem_cons_of_mem _ (List.mem_flatMap.2 ⟨w, hw, hw'⟩)

/-- **Rebuilding a tree rises** from the end of the way, if it succeeds. -/
theorem yields_unroll {rank : NodeId → Nat} (hrank : ∀ id, ∀ c ∈ a.children id, rank c < rank id)
    (hclosed : a.Closed) (hstored : a.Stored) {way : List Spot} {q : Spot} {depth : Nat}
    (hext : a.Extends c) (honce : (a.preorder x).Nodup) (hway : a.At x (q :: way) target)
    (hdepth : rank x < depth) :
    (unroll (pure none) (rebuildNode target r) depth x).Yields c fun d o =>
      a.Rises r x (q :: way) o c d := by
  have hac : a.Acyclic := ⟨rank, hrank⟩
  induction way generalizing x q depth c with
  | nil =>
    obtain ⟨depth, rfl⟩ : ∃ k, depth = k + 1 := ⟨depth - 1, by omega⟩
    cases hway with
    | @down _ z _ n s _ _ hn hs hz h =>
      cases h
      have hturns : Turns target r (unroll (pure none) (rebuildNode target r) depth) c target
          fun d w => c = d ∧ r = w := .inl ⟨rfl, rfl, rfl⟩
      refine (yields_node hstored hext (fun d w hw => by rw [← hw.1]; exact hext) hn hs hz hturns
        fun q' s' y hne hs' hy => bypassed_of_spots hclosed hstored hac honce hn hs hz
          (reaches_self a target) hs' hy hne.symm depth).mono fun e o he => ?_
      obtain ⟨d, w, s', e', ⟨rfl, rfl⟩, hswaps, rfl, rfl⟩ := he
      exact .down hn hs hz (.here target c) hswaps
  | cons q₂ way ih =>
    obtain ⟨depth, rfl⟩ : ∃ k, depth = k + 1 := ⟨depth - 1, by omega⟩
    cases hway with
    | @down _ z _ n s _ _ hn hs hz h =>
      have hchild := mem_children_of_spot hn hs hz
      have hlt := hrank x z hchild
      have hbelow := ih hext (nodup_preorder_child hac honce hchild) h
        (Nat.lt_of_lt_of_le hlt (Nat.le_of_lt_succ hdepth))
      have hturns : Turns target r (unroll (pure none) (rebuildNode target r) depth) c z
          fun d w => a.Rises r z (q₂ :: way) w c d :=
        .inr ⟨h.ne hac, hbelow.mono fun d w hw => ⟨by rw [hw.size.2.2]; rfl, hw⟩⟩
      refine (yields_node hstored hext (fun d w hw => hext.trans hw.size.1) hn hs hz hturns
        fun q' s' y hne hs' hy => bypassed_of_spots hclosed hstored hac honce hn hs hz
          h.reaches hs' hy hne.symm depth).mono fun e o he => ?_
      obtain ⟨d, w, s', e', hw, hswaps, rfl, rfl⟩ := he
      exact .down hn hs hz hw hswaps

end

/-! ## Edits of trees -/

section
variable {a d : Arena} {root target new : NodeId} {r : Option NodeId} {way : List Spot}

/-- What an edit that replaced `target`, at the end of the way from `root`, by `r` leaves. -/
structure Renews (a : Arena) (root target : NodeId) (r : Option NodeId) (way : List Spot)
    (new : NodeId) (d : Arena) : Prop where
  /-- Everything that was there is read as before. -/
  grows : a.Extends d
  /-- There is one more node for each ancestor. -/
  size : d.size = a.size + way.length
  /-- The last is the new root. -/
  last : new.raw + 1 = d.size
  /-- The nodes are copies of the ancestors, from the parent of the target outwards, each with
      the copy before it, or the replacement, in the place of the child on the way; and `ls`
      says what was written to the list storage for each. -/
  copies : ∃ ls : List (List NodeId), ls.length = way.length ∧
    d.lists.toList = a.lists.toList ++ ls.flatten ∧
    ∀ front q back u, way = front ++ q :: back → a.At root front u →
      ∃ l, ls[back.length]? = some l ∧
        a.Copied d u q (becomes r a.size back) ⟨a.size + back.length⟩ l
  /-- A copy differs from the ancestor in just the slot on the way.  Only the copy of the parent
      may be equal to it, if the target was put in its own place. -/
  differs : ∀ front q back u, way = front ++ q :: back → a.At root front u →
    ∃ n m, a.node? u = some n ∧ d.node? ⟨a.size + back.length⟩ = some m ∧ m.data = n.data ∧
      (∀ i, i ≠ q.slot → m.slots[i]? = n.slots[i]?) ∧
      (m.slots[q.slot]? ≠ n.slots[q.slot]? ∨ back = [] ∧ r = some target ∧ m = n)
  /-- Everything else in the new tree was in the same place of the old one, apart from the later
      items of a child list from which the target was removed. -/
  places : ∀ ps u, d.At new ps u → a.Lands target r root way a.size ps u
  /-- Neither the target, nor what is above or below it, is in the new tree, but where the
      replacement is. -/
  gone : ∀ ps u, d.At new ps u → a.Knows u → a.Reaches u target ∨ a.Reaches target u →
    ∃ y ps', r = some y ∧ ps = way ++ ps' ∧ a.At y ps' u

theorem yields_replace (hclosed : a.Closed) (hstored : a.Stored) (hac : a.Acyclic)
    (hroot : a.Knows root) (honce : (a.preorder root).Nodup) {q : Spot}
    (hway : a.At root (q :: way) target) :
    (replace root target r).Yields a fun d new => a.Rises r root (q :: way) (some new) a d := by
  obtain ⟨n, hn⟩ := knows_iff.1 hroot
  obtain ⟨rank, hrank, hle⟩ := hac.exists_rank_le
  refine EditM.yields_get ?_
  rw [hn, if_neg (by simp), if_neg (hway.ne hac).symm]
  have hrebuild : (rebuild target r root).Yields a fun d o => a.Rises r root (q :: way) o a d :=
    EditM.yields_get <| yields_unroll hrank hclosed hstored (.refl a) honce hway
      (Nat.lt_succ_of_le (hle root))
  refine hrebuild.bind fun o d ho => ?_
  cases o with
  | none => exact absurd ho.size.2.2 (by simp [becomes])
  | some new => exact EditM.yields_pure ho

/-- The rest of a way leads on from where its start leads. -/
theorem At.rest {x y z : NodeId} {front back : List Spot} (h : a.At x (front ++ back) z)
    (hy : a.At x front y) : a.At y back z := by
  induction hy with
  | here => exact h
  | down hn hs hc _ ih => exact ih (h.tail hn hs hc)

/-- A slot in which an item is changed stays the same only if the item is put in its own
    place. -/
theorem Swapped.eq_of_same {s : Child} {j : Nat} {w : Option NodeId} {z : NodeId}
    (h : a.Swapped d j w s s) (hs : a.Stores s) (hz : (a.ofSlot s)[j]? = some z) : w = some z := by
  have hitems := h.items
  cases s with
  | one y =>
    have hj : j = 0 := by simpa [ofSlot] using (List.getElem?_eq_some_iff.1 hz).1
    subst hj
    cases hz
    cases w <;> simp_all [ofSlot, swapped]
  | optional y =>
    cases y with
    | none => simp [ofSlot] at hz
    | some y =>
      have hj : j = 0 := by simpa [ofSlot] using (List.getElem?_eq_some_iff.1 hz).1
      subst hj
      cases hz
      cases w <;> simp_all [ofSlot, swapped]
  | list range =>
    -- the new child list is behind the old one
    have hfresh := h.fresh range rfl
    have hstored := hs range rfl
    have hlength := (List.getElem?_eq_some_iff.1 hz).1
    have hle := a.length_list_le range
    rw [ofSlot] at hlength
    omega

/-- A copy differs from its node in the changed slot, or the child was put in its own place. -/
theorem Copied.differs {u copy z : NodeId} {q : Spot} {w : Option NodeId} {l : List NodeId}
    (h : a.Copied d u q w copy l) (hstored : a.Stored) (hz : a.At u [q] z) :
    ∃ n m, a.node? u = some n ∧ d.node? copy = some m ∧ m.data = n.data ∧
      (∀ i, i ≠ q.slot → m.slots[i]? = n.slots[i]?) ∧
      (m.slots[q.slot]? ≠ n.slots[q.slot]? ∨ w = some z ∧ m = n) := by
  obtain ⟨n, s, s', hn, hs, hcopy, hswapped, -⟩ := h
  obtain ⟨hslots, hdata⟩ :=
    Node.slots_data_withSlots (forall₂_similar_set hs hswapped.similar)
  refine ⟨n, _, hn, hcopy, hdata, fun i hi => ?_, ?_⟩
  · rw [hslots, List.getElem?_set_ne (Ne.symm hi)]
  · rw [hslots, List.getElem?_set_self (List.getElem?_eq_some_iff.1 hs).1, hs]
    by_cases hsame : s' = s
    · subst hsame
      have hitem : (a.ofSlot s')[q.item]? = some z := by
        cases hz with
        | down hn' hs' hc h =>
          rw [hn] at hn'
          cases hn'
          rw [hs] at hs'
          cases hs'
          cases h
          exact hc
      right
      refine ⟨hswapped.eq_of_same (hstored u n hn s' (List.mem_of_getElem? hs)) hitem, ?_⟩
      obtain ⟨hlt, rfl⟩ := List.getElem?_eq_some_iff.1 hs
      rw [List.set_getElem_self, Node.withSlots_slots]
    · exact .inl fun heq => hsame (Option.some.inj heq)

/-- **An edit of a tree copies the ancestors** of the node that it replaces, and nothing
    else. -/
theorem replace_renews (hclosed : a.Closed) (hstored : a.Stored) (hac : a.Acyclic)
    (hroot : a.Knows root) (honce : (a.preorder root).Nodup)
    (hr : ∀ new, r = some new → a.Knows new) {k : Nat} (hk : 1 ≤ k) (hpath : a.Path root k target)
    (hrun : (replace root target r).run.run a = (.ok new, d)) :
    ∃ way, way.length = k ∧ a.At root way target ∧ a.Renews root target r way new d := by
  obtain ⟨way, rfl, hway⟩ := hpath.exists_at
  have hrises : a.Rises r root way (some new) a d := by
    cases way with
    | nil => cases hk
    | cons q way => exact yields_replace hclosed hstored hac hroot honce hway new d hrun
  obtain ⟨hgrows, hsize, hlast⟩ := hrises.size
  have hplaces : ∀ ps u, d.At new ps u → a.Lands target r root way a.size ps u := fun ps u hu =>
    hrises.places hclosed hstored hac hr (.refl a) honce hway (.refl d) rfl hu
  obtain ⟨ls, hlength, hlists, hcopies⟩ := hrises.copies (.refl a)
  refine ⟨way, rfl, hway, hgrows, hsize, ?_, ⟨ls, hlength, hlists, hcopies⟩, ?_, hplaces, ?_⟩
  · cases way with
    | nil => cases hk
    | cons q way =>
      obtain rfl := Option.some.inj hlast
      rw [hsize, List.length_cons, Nat.add_assoc]
  · rintro front q back u rfl hu
    obtain ⟨l, -, hcopied⟩ := hcopies front q back u rfl hu
    have hrest := hway.rest hu
    cases hrest with
    | @down _ z _ _ _ _ _ hn hs hz hback =>
      have hknown := knows_of_mem_children hclosed (mem_children_of_spot hn hs hz)
      obtain ⟨n, m, hn, hm, hdata, hothers, hdiffers⟩ :=
        hcopied.differs hstored (.down hn hs hz (.here z))
      refine ⟨n, m, hn, hm, hdata, hothers, hdiffers.imp id fun hsame => ?_⟩
      obtain ⟨hw, rfl⟩ := hsame
      cases back with
      | nil =>
        cases hback
        exact ⟨rfl, hw, rfl⟩
      | cons q₂ back =>
        -- a new node was not there before
        obtain rfl := Option.some.inj hw
        exact absurd hknown (by simp [Knows])
  · intro ps u hu hknown hrelated
    cases hplaces ps u hu with
    | copy => exact absurd hknown (by simp [Knows])
    | below hr hu => exact ⟨_, _, hr, rfl, hu⟩
    | kept hu hno hno' => exact absurd hrelated (by simp [hno, hno'])

/-- A block of a block of two literals. -/
def nestedBlocks : Arena :=
  ⟨#[.booleanLiteral true, .booleanLiteral false, .block ⟨0, 2⟩, .block ⟨2, 1⟩], #[⟨0⟩, ⟨1⟩, ⟨2⟩]⟩

/-- A literal is removed from the inner block: both blocks are copied. -/
theorem replace_renews_nestedBlocks :
    ∃ way, way.length = 2 ∧ nestedBlocks.At ⟨3⟩ way ⟨0⟩ ∧
      nestedBlocks.Renews ⟨3⟩ ⟨0⟩ none way ⟨5⟩
        ((replace ⟨3⟩ ⟨0⟩ none).run.run nestedBlocks).2 := by
  have hcomplete : nestedBlocks.Complete := complete_of_all (by decide) (by decide)
  obtain ⟨hclosed, hstored⟩ := hcomplete.closed_stored
  have hacyclic : nestedBlocks.Acyclic := acyclic_of_lt fun id => by
    rcases id with ⟨_ | _ | _ | _ | n⟩
    · decide
    · decide
    · decide
    · decide
    · simp [children, node?, nestedBlocks]
  have hinner : nestedBlocks.Path ⟨3⟩ 1 ⟨2⟩ := Path.here.child (by decide)
  have hpath : nestedBlocks.Path ⟨3⟩ 2 ⟨0⟩ := hinner.child (by decide)
  have hrun : ((replace ⟨3⟩ ⟨0⟩ none).run.run nestedBlocks).1 = .ok ⟨5⟩ := by decide
  exact replace_renews hclosed hstored hacyclic (by decide) (by decide) (by decide) (by decide)
    hpath (Prod.ext hrun rfl)

/-- A name bound to a literal. -/
def boundLiteral : Arena :=
  ⟨#[.booleanLiteral true, .aliasName ⟨11⟩ none, .names ⟨0, 1⟩, .bind ⟨2⟩ none (some ⟨0⟩)], #[⟨1⟩]⟩

/-- Two ways in which a new tree is not as said of all others.  If the literal is put in its own
    place, the copy of its parent differs in no slot; and if an item is removed from a child
    list, the next one is in another place than before. -/
theorem replace_itself_or_removed :
    ((boundLiteral.preorder ⟨3⟩).Nodup ∧ boundLiteral.Path ⟨3⟩ 1 ⟨0⟩ ∧
      ((replace ⟨3⟩ ⟨0⟩ (some ⟨0⟩)).run.run boundLiteral).1 = .ok ⟨4⟩ ∧
      ¬∃ n m, ∃ i : Nat, boundLiteral.node? ⟨3⟩ = some n ∧
        ((replace ⟨3⟩ ⟨0⟩ (some ⟨0⟩)).run.run boundLiteral).2.node? ⟨4⟩ = some m ∧
        m.slots[i]? ≠ n.slots[i]?) ∧
    (nestedBlocks.preorder ⟨2⟩).Nodup ∧ nestedBlocks.Path ⟨2⟩ 1 ⟨0⟩ ∧
      ((replace ⟨2⟩ ⟨0⟩ none).run.run nestedBlocks).1 = .ok ⟨4⟩ ∧
      nestedBlocks.At ⟨2⟩ [⟨0, 1⟩] ⟨1⟩ ∧
      ((replace ⟨2⟩ ⟨0⟩ none).run.run nestedBlocks).2.At ⟨4⟩ [⟨0, 0⟩] ⟨1⟩ ∧
      ¬nestedBlocks.At ⟨2⟩ [⟨0, 0⟩] ⟨1⟩ := by
  refine ⟨⟨by decide, Path.here.child (by decide), by decide, ?_⟩, by decide,
    Path.here.child (by decide), by decide, ?_, ?_, ?_⟩
  · rintro ⟨n, m, i, hn, hm, hne⟩
    have hsame : ((replace ⟨3⟩ ⟨0⟩ (some ⟨0⟩)).run.run boundLiteral).2.node? ⟨4⟩ =
        boundLiteral.node? ⟨3⟩ := by decide
    rw [hm, hn] at hsame
    cases hsame
    exact hne rfl
  · exact .down (n := .block ⟨0, 2⟩) (s := .list ⟨0, 2⟩) rfl rfl rfl (.here _)
  · exact .down (n := .block ⟨3, 1⟩) (s := .list ⟨3, 1⟩) (by decide) rfl (by decide) (.here _)
  · intro h
    have hzero : nestedBlocks.At ⟨0⟩ [] ⟨1⟩ :=
      h.tail (n := .block ⟨0, 2⟩) (s := .list ⟨0, 2⟩) rfl rfl rfl
    cases hzero

end

end Arena

end Arbor
