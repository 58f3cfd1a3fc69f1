/-
  Replacing a node by a copy of it.

  What an edit leaves behind has grown from the arena that it was given: everything that was
  there is read as before, and what is new comes after its children (`Grown`).

  * `Complete`: an arena holds what its nodes refer to;
  * `Becomes c d xs ys`: rebuilding the nodes `xs` in `c` gave the nodes `ys` of `d`, which
    are structurally equal to `xs`, and are below each other no more than `xs` were.

  Main statement: `becomes_replace`, what a program becomes when a copy is put in the place
  of one of its nodes.
-/
import Arbor.Proofs.Arena.Rebuild
import Arbor.Arena.Equality
import Arbor.Proofs.Program.Shape

namespace Arbor

open List (Forall₂)

/-- Lists that are related are so part by part. -/
theorem forall₂_of_append {α β : Type} {E : α → β → Prop} {xs xs' : List α} {ys ys' : List β}
    (hlength : xs.length = ys.length) (h : Forall₂ E (xs ++ xs') (ys ++ ys')) :
    Forall₂ E xs ys ∧ Forall₂ E xs' ys' := by
  induction xs generalizing ys with
  | nil =>
    cases ys with
    | nil => exact ⟨.nil, h⟩
    | cons y ys => cases hlength
  | cons x xs ih =>
    cases ys with
    | nil => cases hlength
    | cons y ys =>
      obtain ⟨hxy, h⟩ := List.forall₂_cons.1 h
      obtain ⟨hxs, hxs'⟩ := ih (Nat.succ.inj hlength) h
      exact ⟨.cons hxy hxs, hxs'⟩

/-! ## Slots of changed nodes -/

/-- Both slots hold a child, or a child that may be missing and is in both or neither, or a
    child list. -/
inductive Child.Alike : Child → Child → Prop
  | one (c d : NodeId) : Alike (.one c) (.one d)
  | none : Alike (.optional none) (.optional none)
  | some (c d : NodeId) : Alike (.optional (some c)) (.optional (some d))
  | list (r s : NodeRange) : Alike (.list r) (.list s)

theorem Child.Alike.refl : (c : Child) → c.Alike c
  | .one _ => .one ..
  | .optional (Option.none) => .none
  | .optional (Option.some _) => .some ..
  | .list _ => .list ..

namespace Node

/-- New contents that are alike are put into the slots, and change nothing else. -/
theorem slots_withSlots {n : Node} {cs : List Child} (h : Forall₂ Child.Alike n.slots cs) :
    (n.withSlots cs).slots = cs ∧ (n.withSlots cs).bare = n.bare := by
  cases n <;> simp only [slots, fields, List.map_cons, List.map_nil] at h
  all_goals
    repeat' rcases h with _ | ⟨⟨⟩, h⟩
    all_goals exact ⟨rfl, rfl⟩

end Node

/-! ## Complete arenas -/

namespace Arena

/-- What the nodes of an arena refer to is in it: every listed id is that of a node, and the
    contents of every slot are there. -/
structure Complete (a : Arena) : Prop where
  listed : ∀ id ∈ a.lists, a.Knows id
  fits : ∀ id n, a.node? id = some n → ∀ c ∈ n.slots, a.Fits c

instance (a : Arena) : (c : Child) → Decidable (a.Fits c)
  | .one id => inferInstanceAs (Decidable (a.Knows id))
  | .optional none => .isTrue nofun
  | .optional (some id) => decidable_of_iff (a.Knows id) (by simp [Fits])
  | .list r => inferInstanceAs (Decidable (r.start + r.len ≤ a.lists.size))

/-- A complete arena, found by looking at each listed id and each slot. -/
theorem complete_of_all {a : Arena} (hlisted : ∀ id ∈ a.lists.toList, a.Knows id)
    (hfits : ∀ n ∈ a.nodes.toList, ∀ c ∈ n.slots, a.Fits c) : a.Complete where
  listed id hid := hlisted id hid.val
  fits _ n hn := hfits n (Array.mem_of_getElem? hn).val

theorem Ordered.complete {a : Arena} (h : a.Ordered) : a.Complete := ⟨h.listed, h.fits⟩

theorem snd_mem_of_pairChildren {a : Arena} {ls rs : List Child} {pairs : List (NodeId × NodeId)}
    (h : a.pairChildren ls rs = some pairs) {q : NodeId × NodeId} (hq : q ∈ pairs) :
    q.2 ∈ rs.flatMap a.ofSlot := by
  induction ls generalizing rs pairs with
  | nil => cases rs <;> simp_all [pairChildren]
  | cons l ls ih =>
    cases rs with
    | nil => simp [pairChildren] at h
    | cons r rs =>
      unfold pairChildren at h
      split at h
      · obtain ⟨rest, hrest, rfl⟩ := Option.map_eq_some_iff.1 h
        rw [List.flatMap_cons, List.mem_append]
        rcases List.mem_append.1 hq with hq | hq
        · exact .inl (List.of_mem_zip (a := q.1) (b := q.2) hq).2
        · exact .inr (ih hrest hq)
      · cases h

theorem snd_mem_of_matchNodes {a : Arena} {m n : Node} {pairs : List (NodeId × NodeId)}
    (h : a.matchNodes m n = some pairs) {q : NodeId × NodeId} (hq : q ∈ pairs) :
    q.2 ∈ a.childrenOf n := by
  unfold matchNodes at h
  split at h
  · exact snd_mem_of_pairChildren h hq
  · cases h

section
variable {a b : Arena} (h : a.Complete)
include h

theorem Complete.knows_of_ofSlot {c : Child} (hc : a.Fits c) {x : NodeId} (hx : x ∈ a.ofSlot c) :
    a.Knows x := by
  cases c with
  | one id => rw [List.mem_singleton.1 hx]; exact hc
  | optional id => exact hc x (Option.mem_toList.1 hx)
  | list r => exact h.listed x (mem_lists_of_mem_list hx)

theorem Complete.knows_child {id c : NodeId} (hc : c ∈ a.children id) : a.Knows c := by
  unfold children at hc
  split at hc
  · next n hn =>
    obtain ⟨slot, hslot, hc⟩ := List.mem_flatMap.1 hc
    exact h.knows_of_ofSlot (h.fits id n hn slot hslot) hc
  · cases hc

/-- What is below a node of the arena is in it. -/
theorem Complete.knows_of_mem_preorder (hac : a.Acyclic) {root id : NodeId} (hr : a.Knows root)
    (hid : id ∈ a.preorder root) : a.Knows id := by
  obtain ⟨rank, hrank⟩ := hac
  induction hn : rank root using Nat.strongRecOn generalizing root with
  | _ n ih =>
    subst hn
    rw [preorder_eq ⟨rank, hrank⟩] at hid
    rcases List.mem_cons.1 hid with rfl | hid
    · exact hr
    · obtain ⟨c, hc, hid⟩ := List.mem_flatMap.1 hid
      exact ih (rank c) (hrank root c hc) (h.knows_child hc) hid rfl

/-- The children of a node stay the same while the arena grows. -/
theorem Complete.children_eq (hab : a.Extends b) {id : NodeId} (hid : a.Knows id) :
    b.children id = a.children id := by
  obtain ⟨n, hn⟩ := knows_iff.1 hid
  rw [Arena.children_eq hn, Arena.children_eq (hab.node? id n hn), hab.childrenOf (h.fits id n hn)]

theorem Complete.preorder_eq (hac : a.Acyclic) (hbc : b.Acyclic) (hab : a.Extends b) {id : NodeId}
    (hid : a.Knows id) : b.preorder id = a.preorder id := by
  obtain ⟨rank, hrank⟩ := hac
  induction hn : rank id using Nat.strongRecOn generalizing id with
  | _ n ih =>
    subst hn
    rw [Arena.preorder_eq hbc, Arena.preorder_eq ⟨rank, hrank⟩, h.children_eq hab hid,
      List.flatMap_def, List.flatMap_def]
    congr 2
    exact List.map_congr_left fun c hc => ih (rank c) (hrank id c hc) (h.knows_child hc) rfl

omit h in
theorem Extends.pairChildren_eq (hab : a.Extends b) {cs ds : List Child}
    (hcs : ∀ c ∈ cs, a.Fits c) (hds : ∀ d ∈ ds, a.Fits d) :
    b.pairChildren cs ds = a.pairChildren cs ds := by
  induction cs generalizing ds with
  | nil => cases ds <;> rfl
  | cons c cs ih =>
    cases ds with
    | nil => rfl
    | cons d ds =>
      rw [List.forall_mem_cons] at hcs hds
      rw [pairChildren, pairChildren, hab.ofSlot hcs.1, hab.ofSlot hds.1, ih hcs.2 hds.2]

/-- The nodes of an arena stay structurally equal, or different, while the arena grows. -/
theorem Complete.structurallyEqual_eq (hac : a.Acyclic) (hbc : b.Acyclic) (hab : a.Extends b)
    {l r : NodeId} (hl : a.Knows l) (hr : a.Knows r) :
    b.structurallyEqual l r = a.structurallyEqual l r := by
  obtain ⟨rank, hrank⟩ := hac
  induction hk : rank l using Nat.strongRecOn generalizing l r with
  | _ k ih =>
    subst hk
    obtain ⟨n, hn⟩ := knows_iff.1 hl
    obtain ⟨m, hm⟩ := knows_iff.1 hr
    rw [Arena.structurallyEqual_eq hbc, Arena.structurallyEqual_eq ⟨rank, hrank⟩, hn, hm,
      hab.node? l n hn, hab.node? r m hm]
    have hmatch : b.matchNodes n m = a.matchNodes n m := by
      unfold matchNodes
      rw [hab.pairChildren_eq (h.fits l n hn) (h.fits r m hm)]
    dsimp only
    rw [hmatch]
    cases hp : a.matchNodes n m with
    | none => rfl
    | some pairs =>
      have below : ∀ c ∈ pairs, b.structurallyEqual c.1 c.2 = a.structurallyEqual c.1 c.2 := by
        intro c hc
        have hfst := fst_mem_of_matchNodes hp hc
        rw [← Arena.children_eq hn] at hfst
        have hsnd := snd_mem_of_matchNodes hp hc
        rw [← Arena.children_eq hm] at hsnd
        exact ih _ (hrank l c.1 hfst) (h.knows_child hfst) (h.knows_child hsnd) rfl
      have hall : (pairs.all fun c => b.structurallyEqual c.1 c.2) =
          pairs.all fun c => a.structurallyEqual c.1 c.2 := by
        rw [Bool.eq_iff_iff, List.all_eq_true, List.all_eq_true]
        exact forall₂_congr fun c hc => by rw [below c hc]
      dsimp only
      rw [hall]

end

/-! ## Grown arenas -/

/-- The arena has grown from a complete one, and what is new in it comes after its
    children. -/
structure Grown (a b : Arena) : Prop where
  extends_ : a.Extends b
  complete : b.Complete
  lower : ∀ id, ¬a.Knows id → ∀ c ∈ b.children id, c.raw < id.raw

section
variable {a b c : Arena}

theorem Extends.size_le (h : a.Extends b) : a.size ≤ b.size := by
  by_contra hlt
  have hb : b.Knows ⟨b.size⟩ := h.knows (Nat.lt_of_not_le hlt)
  exact Nat.lt_irrefl _ hb

theorem Grown.refl (h : a.Complete) : a.Grown a where
  extends_ := .refl a
  complete := h
  lower _ hid _ hc := absurd (lt_size_of_mem_children hc) hid

/-- New nodes are ranked above all that were there, by their ids. -/
theorem Grown.acyclic (h : a.Grown b) (ha : a.Complete) (hac : a.Acyclic) : b.Acyclic := by
  obtain ⟨rank, hrank, hle⟩ := hac.exists_rank_le
  refine ⟨fun id => if a.Knows id then rank id else a.size + 1 + id.raw, ?_⟩
  intro id c hc
  dsimp only
  by_cases hid : a.Knows id
  · rw [ha.children_eq h.extends_ hid] at hc
    rw [if_pos hid, if_pos (ha.knows_child hc)]
    exact hrank id c hc
  · have hlt := h.lower id hid c hc
    rw [if_neg hid]
    split
    · have := hle c
      omega
    · omega

theorem Grown.alloc (h : a.Grown b) {n : Node} (hn : ∀ s ∈ n.slots, b.Fits s) :
    a.Grown (b.alloc n).2 := by
  have hx := extends_alloc b n
  refine ⟨h.extends_.trans hx, ⟨fun id hid => hx.knows (h.complete.listed id hid), ?_⟩, ?_⟩
  · intro id m hm s hs
    rcases node?_of_alloc hm with ⟨-, rfl⟩ | hm
    · exact hx.fits (hn s hs)
    · exact hx.fits (h.complete.fits id m hm s hs)
  · intro id hid c hc
    obtain ⟨m, hm⟩ := knows_iff.1 (lt_size_of_mem_children hc : (b.alloc n).2.Knows id)
    rw [Arena.children_eq hm] at hc
    rcases node?_of_alloc hm with ⟨rfl, rfl⟩ | hm
    · rw [hx.childrenOf hn] at hc
      obtain ⟨slot, hslot, hc⟩ := List.mem_flatMap.1 hc
      exact h.complete.knows_of_ofSlot (hn slot hslot) hc
    · rw [hx.childrenOf (h.complete.fits id m hm), ← Arena.children_eq hm] at hc
      exact h.lower id hid c hc

theorem Grown.allocList (h : a.Grown b) {ids : List NodeId} (hids : ∀ id ∈ ids, b.Knows id) :
    a.Grown (b.allocList ids).2 := by
  have hx := extends_allocList b ids
  refine ⟨h.extends_.trans hx, ⟨fun id hid => ?_, fun id m hm s hs => ?_⟩, fun id hid c hc => ?_⟩
  · rcases Array.mem_append.1 hid with hid | hid
    · exact hx.knows (h.complete.listed id hid)
    · exact hx.knows (hids id (List.mem_toArray.1 hid))
  · exact hx.fits (h.complete.fits id m hm s hs)
  · have hknown : b.Knows id := (lt_size_of_mem_children hc : (b.allocList ids).2.Knows id)
    rw [h.complete.children_eq hx hknown] at hc
    exact h.lower id hid c hc

end

end Arena

/-! ## Edits that succeed -/

namespace EditM

variable {α β : Type} {a : Arena} {P Q : Arena → α → Prop} {S : Arena → β → Prop}

/-- If the edit succeeds on an arena, what it leaves and gives is as said. -/
def Yields (x : EditM α) (a : Arena) (P : Arena → α → Prop) : Prop :=
  ∀ y b, x.run.run a = (.ok y, b) → P b y

theorem yields_pure {y : α} (h : P a y) : (pure y : EditM α).Yields a P :=
  fun _ _ hr => by cases hr; exact h

theorem yields_throw (e : EditError) : (throw e : EditM α).Yields a P :=
  fun _ _ hr => by cases hr

theorem yields_get {f : Arena → EditM α} (h : (f a).Yields a P) :
    ((get : EditM Arena) >>= f).Yields a P := h

theorem Yields.bind {x : EditM α} {f : α → EditM β} (hx : x.Yields a P)
    (hf : ∀ y b, P b y → (f y).Yields b S) : (x >>= f).Yields a S := by
  intro z c hr
  rw [run_bind] at hr
  split at hr
  · next y b hxr => exact hf y b (hx y b hxr) z c hr
  · cases hr

theorem yields_alloc {n : Node} {P : Arena → NodeId → Prop} (h : P (a.alloc n).2 (a.alloc n).1) :
    (EditM.alloc n).Yields a P :=
  fun _ _ hr => by cases hr; exact h

theorem yields_allocList {ids : List NodeId} {P : Arena → NodeRange → Prop}
    (h : ∀ r, (a.allocList ids).1 = .ok r → P (a.allocList ids).2 r) :
    (EditM.allocList ids).Yields a P := by
  intro r b hr
  have hr : a.allocList ids = (.ok r, b) := hr
  have hP := h r (by rw [hr])
  rw [hr] at hP
  exact hP

end EditM

namespace Arena

/-! ## What nodes become -/

variable (a : Arena) (target copy : NodeId) in
/-- Rebuilding the nodes `xs` of `a`, begun in `c` and ended in `d`, gave the nodes `ys`. -/
structure Becomes (c d : Arena) (xs ys : List NodeId) : Prop where
  known : ∀ x ∈ xs, a.Knows x
  new : ∀ y ∈ ys, d.Knows y
  equal : Forall₂ (fun x y => d.structurallyEqual x y = true) xs ys
  nodes : ∀ z ∈ d.preorders ys, ¬c.Knows z ∨ z ∈ a.preorders xs ∨
    z ∈ a.preorder copy ∧ target ∈ a.preorders xs
  once : (a.preorders xs).Nodup → (∀ z ∈ a.preorders xs, z ∉ a.preorder copy) →
    (d.preorders ys).Nodup
  kept : ∀ u ∈ (a.preorders xs).zip (d.preorders ys),
    u.1 = u.2 ∨ target ∈ a.preorder u.1 ∨ u.1 ∈ a.preorder target

section
variable {a c d e : Arena} {target copy : NodeId} {xs ys xs' ys' : List NodeId}

theorem structurallyEqual_self (hac : a.Acyclic) (x : NodeId) :
    a.structurallyEqual x x = true := by
  rw [structurallyEqual_eq hac]
  simp

theorem forall₂_of_pairChildren {E : NodeId → NodeId → Prop} {cs ds : List Child}
    {pairs : List (NodeId × NodeId)} (h : a.pairChildren cs ds = some pairs)
    (hE : ∀ u ∈ pairs, E u.1 u.2) : Forall₂ E (cs.flatMap a.ofSlot) (ds.flatMap a.ofSlot) := by
  induction cs generalizing ds pairs with
  | nil =>
    cases ds with
    | nil => exact .nil
    | cons d ds => cases h
  | cons c cs ih =>
    cases ds with
    | nil => cases h
    | cons d ds =>
      unfold pairChildren at h
      split at h
      · next hcd =>
        obtain ⟨rest, hrest, rfl⟩ := Option.map_eq_some_iff.1 h
        rw [List.forall_mem_append] at hE
        refine List.rel_append (List.forall₂_iff_zip.2 ⟨?_, fun hu => hE.1 _ hu⟩) (ih hrest hE.2)
        exact beq_iff_eq.1 (Bool.and_eq_true_iff.1 hcd).2
      · cases h

/-- Structurally equal nodes have structurally equal children. -/
theorem equal_children (hac : a.Acyclic) {x y : NodeId} (h : a.structurallyEqual x y = true) :
    Forall₂ (fun c d => a.structurallyEqual c d = true) (a.children x) (a.children y) := by
  rw [structurallyEqual_eq hac, Bool.or_eq_true, beq_iff_eq] at h
  rcases h with rfl | h
  · exact List.forall₂_same.2 fun c _ => structurallyEqual_self hac c
  · split at h
    · next n m hn hm =>
      split at h
      · next pairs hpairs =>
        rw [children_eq hn, children_eq hm]
        unfold matchNodes at hpairs
        split at hpairs
        · exact forall₂_of_pairChildren hpairs fun u hu => List.all_eq_true.1 h u hu
        · cases hpairs
      · cases h
    · cases h

/-- Structurally equal nodes have as many nodes below them. -/
theorem length_preorder_of_equal (hac : a.Acyclic) {x y : NodeId}
    (h : a.structurallyEqual x y = true) : (a.preorder x).length = (a.preorder y).length := by
  obtain ⟨rank, hrank⟩ := hac
  induction hn : rank x using Nat.strongRecOn generalizing x y with
  | _ n ih =>
    subst hn
    have hac : a.Acyclic := ⟨rank, hrank⟩
    have hlengths : Forall₂ Eq ((a.children x).map fun c => (a.preorder c).length)
        ((a.children y).map fun c => (a.preorder c).length) := by
      refine List.rel_map ?_ ((List.forall₂_and_left _ _).2 ⟨hrank x, equal_children hac h⟩)
      exact fun c d ⟨hlt, hcd⟩ => ih _ hlt hcd rfl
    rw [List.forall₂_eq_eq_eq] at hlengths
    rw [preorder_eq hac, preorder_eq hac, List.length_cons, List.length_cons, List.length_flatMap,
      List.length_flatMap, hlengths]

theorem length_preorders_of_equal (hac : a.Acyclic)
    (h : Forall₂ (fun x y => a.structurallyEqual x y = true) xs ys) :
    (a.preorders xs).length = (a.preorders ys).length := by
  induction h with
  | nil => rfl
  | cons hxy _ ih =>
    rw [preorders, List.flatMap_cons, List.length_append, length_preorder_of_equal hac hxy]
    rw [preorders, List.flatMap_cons, List.length_append, ← preorders, ← preorders, ih]

variable (ha : a.Complete) (hac : a.Acyclic)
include ha hac

theorem Complete.preorders_eq (hdc : d.Acyclic) (had : a.Extends d) (hxs : ∀ x ∈ xs, a.Knows x) :
    d.preorders xs = a.preorders xs := by
  rw [preorders, preorders, List.flatMap_def, List.flatMap_def]
  congr 1
  exact List.map_congr_left fun x hx => ha.preorder_eq hac hdc had (hxs x hx)

theorem Complete.knows_of_mem_preorders (hxs : ∀ x ∈ xs, a.Knows x) {z : NodeId}
    (hz : z ∈ a.preorders xs) : a.Knows z := by
  obtain ⟨x, hx, hz⟩ := List.mem_flatMap.1 hz
  exact ha.knows_of_mem_preorder hac (hxs x hx) hz

theorem Becomes.length_eq (h : Becomes a target copy c d xs ys) (hd : a.Grown d) :
    (a.preorders xs).length = (d.preorders ys).length := by
  have hdc := hd.acyclic ha hac
  rw [← ha.preorders_eq hac hdc hd.extends_ h.known, length_preorders_of_equal hdc h.equal]

/-- Nothing need become of nodes. -/
theorem becomes_same (hd : a.Grown d) (hxs : ∀ x ∈ xs, a.Knows x) :
    Becomes a target copy c d xs xs := by
  have hpre := ha.preorders_eq hac (hd.acyclic ha hac) hd.extends_ hxs
  refine ⟨hxs, fun x hx => hd.extends_.knows (hxs x hx), ?_, ?_, ?_, ?_⟩
  · exact List.forall₂_same.2 fun x _ => structurallyEqual_self (hd.acyclic ha hac) x
  · rw [hpre]
    exact fun z hz => .inr (.inl hz)
  · rw [hpre]
    exact fun hnodup _ => hnodup
  · rw [hpre]
    exact fun u hu => .inl (List.forall₂_zip (List.forall₂_same.2 fun _ _ => rfl) hu)

/-- The copy takes the place of the node. -/
theorem becomes_copy (hd : a.Grown d) (ht : a.Knows target) (hc : a.Knows copy)
    (hequal : a.structurallyEqual target copy = true) (honce : (a.preorder copy).Nodup) :
    Becomes a target copy c d [target] [copy] := by
  have hdc := hd.acyclic ha hac
  have hpre := ha.preorder_eq hac hdc hd.extends_ hc
  refine ⟨by simpa using ht, by simpa using hd.extends_.knows hc, ?_, ?_, ?_, ?_⟩
  · refine .cons ?_ .nil
    rw [ha.structurallyEqual_eq hac hdc hd.extends_ ht hc]
    exact hequal
  · intro z hz
    rw [preorders, List.flatMap_singleton, hpre] at hz
    exact .inr (.inr ⟨hz, by simpa using mem_preorder_self hac target⟩)
  · intro _ _
    rw [preorders, List.flatMap_singleton, hpre]
    exact honce
  · rintro ⟨u, v⟩ hu
    rw [preorders, List.flatMap_singleton] at hu
    exact .inr (.inr (List.of_mem_zip hu).1)

/-- What nodes became stays so while the arena grows. -/
theorem Becomes.mono (h : Becomes a target copy c d xs ys) (hd : a.Grown d) (he : a.Grown e)
    (hde : d.Extends e) : Becomes a target copy c e xs ys := by
  have hdc := hd.acyclic ha hac
  have hec := he.acyclic ha hac
  have hpre := hd.complete.preorders_eq hdc hec hde h.new
  refine ⟨h.known, fun y hy => hde.knows (h.new y hy), ?_, ?_, ?_, ?_⟩
  · obtain ⟨hlength, hequal⟩ := List.forall₂_iff_zip.1 h.equal
    refine List.forall₂_iff_zip.2 ⟨hlength, fun {x y} hxy => ?_⟩
    obtain ⟨hx, hy⟩ := List.of_mem_zip hxy
    have hx := hd.extends_.knows (h.known x hx)
    rw [hd.complete.structurallyEqual_eq hdc hec hde hx (h.new y hy)]
    exact hequal hxy
  · rw [hpre]
    exact h.nodes
  · rw [hpre]
    exact h.once
  · rw [hpre]
    exact h.kept

/-- Nodes are rebuilt one after another. -/
theorem Becomes.append (h : Becomes a target copy c d xs ys)
    (h' : Becomes a target copy d e xs' ys') (hcopy : a.Knows copy) (hc : a.Extends c) (hcd : c.Extends d) (hd : a.Grown d) (he : a.Grown e)
    (hde : d.Extends e) : Becomes a target copy c e (xs ++ xs') (ys ++ ys') := by
  have hlength := (h.mono ha hac hd he hde).length_eq ha hac he
  have h₁ := h.mono ha hac hd he hde
  have hae : a.Extends e := he.extends_
  have hpre {us vs : List NodeId} {b : Arena} :
      b.preorders (us ++ vs) = b.preorders us ++ b.preorders vs := List.flatMap_append
  refine ⟨?_, ?_, List.rel_append h₁.equal h'.equal, ?_, ?_, ?_⟩
  · exact List.forall_mem_append.2 ⟨h.known, h'.known⟩
  · exact List.forall_mem_append.2 ⟨h₁.new, h'.new⟩
  · simp only [hpre, List.mem_append]
    rintro z (hz | hz)
    · rcases h₁.nodes z hz with hz | hz | ⟨hz, ht⟩
      · exact .inl hz
      · exact .inr (.inl (.inl hz))
      · exact .inr (.inr ⟨hz, .inl ht⟩)
    · rcases h'.nodes z hz with hz | hz | ⟨hz, ht⟩
      · exact .inl fun hknown => hz (hcd.knows hknown)
      · exact .inr (.inl (.inr hz))
      · exact .inr (.inr ⟨hz, .inr ht⟩)
  · simp only [hpre, List.nodup_append', List.mem_append]
    rintro ⟨hxs, hxs', hdisjoint⟩ hapart
    refine ⟨h₁.once hxs fun z hz => hapart z (.inl hz),
      h'.once hxs' fun z hz => hapart z (.inr hz), fun z hz hz' => ?_⟩
    have hdz : d.Knows z := by
      rw [hd.complete.preorders_eq (hd.acyclic ha hac) (he.acyclic ha hac) hde h.new] at hz
      exact hd.complete.knows_of_mem_preorders (hd.acyclic ha hac) h.new hz
    have hcopied (hz : z ∈ a.preorder copy) : c.Knows z :=
      hc.knows (ha.knows_of_mem_preorder hac hcopy hz)
    rcases h'.nodes z hz' with hz' | hz' | ⟨hz', ht'⟩
    · exact hz' hdz
    · rcases h₁.nodes z hz with hz | hz | ⟨hz, -⟩
      · exact hz (hc.knows (ha.knows_of_mem_preorders hac h'.known hz'))
      · exact hdisjoint hz hz'
      · exact hapart z (.inr hz') hz
    · rcases h₁.nodes z hz with hz | hz | ⟨-, ht⟩
      · exact hz (hcopied hz')
      · exact hapart z (.inl hz) hz'
      · exact hdisjoint ht ht'
  · rw [hpre, hpre, List.zip_append hlength]
    exact List.forall_mem_append.2 ⟨h₁.kept, h'.kept⟩

end

/-! ## Copies of changed nodes -/

/-- The contents of the slots are alike, and as many. -/
structure SlotAlike (a d : Arena) (s t : Child) : Prop where
  alike : s.Alike t
  length_eq : (a.ofSlot s).length = (d.ofSlot t).length

theorem pairChildren_of_alike {d : Arena} {E : NodeId → NodeId → Prop} {cs ds : List Child}
    (h : Forall₂ (SlotAlike d d) cs ds)
    (hE : Forall₂ E (cs.flatMap d.ofSlot) (ds.flatMap d.ofSlot)) :
    ∃ pairs, d.pairChildren cs ds = some pairs ∧ ∀ u ∈ pairs, E u.1 u.2 := by
  induction h with
  | nil => exact ⟨[], rfl, nofun⟩
  | @cons s t cs ds hst _ ih =>
    rw [List.flatMap_cons, List.flatMap_cons] at hE
    obtain ⟨hslot, hslots⟩ := forall₂_of_append hst.length_eq hE
    obtain ⟨pairs, hpairs, hall⟩ := ih hslots
    have hshape : s.sameShape t = true := by cases hst.alike <;> rfl
    refine ⟨(d.ofSlot s).zip (d.ofSlot t) ++ pairs, ?_, ?_⟩
    · rw [pairChildren, hshape, hst.length_eq, beq_self_eq_true, Bool.and_self, if_pos rfl, hpairs]
      rfl
    · rw [List.forall_mem_append]
      exact ⟨fun u hu => (List.forall₂_iff_zip.1 hslot).2 hu, hall⟩

/-- The nodes that an edit is asked to put in each other's place. -/
structure CopyOf (a : Arena) (target copy : NodeId) : Prop where
  complete : a.Complete
  acyclic : a.Acyclic
  old : a.Knows target
  new : a.Knows copy
  equal : a.structurallyEqual target copy = true
  once : (a.preorder copy).Nodup

section
variable {a c d : Arena} {target copy x : NodeId} (h : a.CopyOf target copy)
include h

/-- A node with new contents takes the place of a node when they do. -/
theorem CopyOf.becomes_node {n m : Node} (hn : a.node? x = some n) (hcd : c.Extends d)
    (hd : a.Grown d) (hslots : Forall₂ (SlotAlike a d) n.slots m.slots)
    (hbare : m.bare = n.bare) (hfits : ∀ s ∈ m.slots, d.Fits s)
    (hchildren : Becomes a target copy c d (a.children x) (m.slots.flatMap d.ofSlot))
    (ht : target ∈ a.preorders (a.children x)) :
    Becomes a target copy c (d.alloc m).2 [x] [(d.alloc m).1] ∧ ¬c.Knows (d.alloc m).1 := by
  have hx : a.Knows x := knows_iff.2 ⟨n, hn⟩
  have he := hd.alloc hfits
  have hde := extends_alloc d m
  have hdc := hd.acyclic h.complete h.acyclic
  have hec := he.acyclic h.complete h.acyclic
  have hnew : ¬d.Knows (d.alloc m).1 := Nat.lt_irrefl _
  have hchildren' := hchildren.mono h.complete h.acyclic hd he hde
  have hslot {s : Child} (hs : s ∈ m.slots) : (d.alloc m).2.ofSlot s = d.ofSlot s :=
    hde.ofSlot (hfits s hs)
  have hy : (d.alloc m).2.children (d.alloc m).1 = m.slots.flatMap d.ofSlot := by
    rw [Arena.children_eq (node?_alloc d m), Arena.childrenOf, List.flatMap_def, List.flatMap_def,
      List.map_congr_left fun s hs => hslot hs]
  have hpre : (d.alloc m).2.preorders [(d.alloc m).1] =
      (d.alloc m).1 :: (d.alloc m).2.preorders (m.slots.flatMap d.ofSlot) := by
    rw [preorders, List.flatMap_singleton, Arena.preorder_eq hec, hy]
  have hpre' : a.preorders [x] = x :: a.preorders (a.children x) := by
    rw [preorders, List.flatMap_singleton, Arena.preorder_eq h.acyclic]
  have hbelow : target ∈ a.preorder x := by
    rw [Arena.preorder_eq h.acyclic]
    exact List.mem_cons_of_mem _ ht
  refine ⟨⟨by simpa using hx, by simpa using knows_alloc d m, .cons ?_ .nil, ?_, ?_, ?_⟩,
    fun hknown => hnew (hcd.knows hknown)⟩
  · -- The new node has the data of the old one, and children that are equal to its children.
    have hx' := he.extends_.node? x n hn
    have halike : Forall₂ (SlotAlike (d.alloc m).2 (d.alloc m).2) n.slots m.slots := by
      obtain ⟨hlength, hall⟩ := List.forall₂_iff_zip.1 hslots
      refine List.forall₂_iff_zip.2 ⟨hlength, fun {s t} hst => ?_⟩
      obtain ⟨hs, ht⟩ := List.of_mem_zip hst
      refine ⟨(hall hst).alike, ?_⟩
      rw [hslot ht, he.extends_.ofSlot (h.complete.fits x n hn s hs)]
      exact (hall hst).length_eq
    have hequal := hchildren'.equal
    rw [← h.complete.children_eq he.extends_ hx, Arena.children_eq hx', ← hy,
      Arena.children_eq (node?_alloc d m)] at hequal
    obtain ⟨pairs, hpairs, hall⟩ := pairChildren_of_alike halike hequal
    have hmatch : (d.alloc m).2.matchNodes n m = some pairs := by
      rw [matchNodes, if_pos hbare.symm, hpairs]
    rw [structurallyEqual_eq hec, hx', node?_alloc]
    dsimp only
    rw [hmatch]
    dsimp only
    rw [List.all_eq_true.2 hall, Bool.or_true]
  · rw [hpre, hpre']
    rintro z hz
    rcases List.mem_cons.1 hz with rfl | hz
    · exact .inl fun hknown => hnew (hcd.knows hknown)
    · rcases hchildren'.nodes z hz with hz | hz | ⟨hz, hzt⟩
      · exact .inl hz
      · exact .inr (.inl (List.mem_cons_of_mem _ hz))
      · exact .inr (.inr ⟨hz, List.mem_cons_of_mem _ hzt⟩)
  · rw [hpre, hpre']
    intro hnodup hapart
    refine List.nodup_cons.2 ⟨fun hy => hnew ?_, ?_⟩
    · rw [hd.complete.preorders_eq hdc hec hde hchildren.new] at hy
      exact hd.complete.knows_of_mem_preorders hdc hchildren.new hy
    · exact hchildren'.once (List.nodup_cons.1 hnodup).2 fun z hz =>
        hapart z (List.mem_cons_of_mem _ hz)
  · rw [hpre, hpre', List.zip_cons_cons]
    exact List.forall_mem_cons.2 ⟨.inr (.inl hbelow), hchildren'.kept⟩

/-! ## Rebuilding -/

/-- What an edit gives, if it succeeds, in an arena that grew from that of the old node. -/
abbrev Grows (a c : Arena) {α : Type} (P : Arena → α → Prop) (d : Arena) (y : α) : Prop :=
  a.Grown d ∧ c.Extends d ∧ P d y

variable (a target copy) in
/-- A rebuilding of `x` gives nothing, or what `x` becomes when `target` below it is
    replaced. -/
def Rebuilds (f : NodeId → EditM (Option NodeId)) (x : NodeId) : Prop :=
  ∀ c, a.Grown c → (f x).Yields c (Grows a c fun d o => ∀ y, o = some y →
    Becomes a target copy c d [x] [y] ∧ ¬c.Knows y ∧ target ∈ a.preorder x)

variable {f : NodeId → EditM (Option NodeId)}

theorem CopyOf.yields_rebuildItem (hc : a.Grown c) (hx : a.Knows x)
    (hf : Rebuilds a target copy f x) :
    (rebuildItem target (some copy) f x).Yields c (Grows a c fun d r =>
      Becomes a target copy c d [x] r.1 ∧ (r.2 = true → target ∈ a.preorder x)) := by
  unfold rebuildItem
  by_cases heq : x = target
  · subst heq
    rw [if_pos rfl]
    refine EditM.yields_pure ⟨hc, .refl c, ?_, fun _ => mem_preorder_self h.acyclic x⟩
    exact becomes_copy h.complete h.acyclic hc h.old h.new h.equal h.once
  · rw [if_neg heq]
    refine (hf c hc).bind fun o d ⟨hd, hcd, hnew⟩ => ?_
    cases o with
    | some y =>
      obtain ⟨hy, -, ht⟩ := hnew y rfl
      exact EditM.yields_pure ⟨hd, hcd, hy, fun _ => ht⟩
    | none =>
      refine EditM.yields_pure ⟨hd, hcd, ?_, nofun⟩
      exact becomes_same h.complete h.acyclic hd (by simpa using hx)

theorem CopyOf.yields_items (hc : a.Grown c) {xs : List NodeId} (hxs : ∀ x ∈ xs, a.Knows x)
    (hf : ∀ x ∈ xs, Rebuilds a target copy f x) :
    (xs.mapM (rebuildItem target (some copy) f)).Yields c (Grows a c fun d rs =>
      Becomes a target copy c d xs (rs.flatMap (·.1)) ∧
        (rs.any (·.2) = true → target ∈ a.preorders xs)) := by
  induction xs generalizing c with
  | nil =>
    refine EditM.yields_pure ⟨hc, .refl c, ?_, nofun⟩
    exact becomes_same h.complete h.acyclic hc nofun
  | cons x xs ih =>
    rw [List.forall_mem_cons] at hxs hf
    rw [List.mapM_cons]
    refine (h.yields_rebuildItem hc hxs.1 hf.1).bind fun r d ⟨hd, hcd, hr, hchanged⟩ => ?_
    refine (ih hd hxs.2 hf.2).bind fun rs e ⟨he, hde, hrs, hchanged'⟩ => ?_
    refine EditM.yields_pure ⟨he, hcd.trans hde, ?_, ?_⟩
    · exact hr.append h.complete h.acyclic hrs h.new hc.extends_ hcd hd he hde
    · rw [List.any_cons, Bool.or_eq_true, preorders, List.flatMap_cons, List.mem_append]
      exact Or.imp hchanged hchanged'

/-- The new contents of a slot fit, are alike and hold what the children become. -/
theorem CopyOf.yields_rebuildSlot (hc : a.Grown c) (kind field : String) {slot : Child}
    (hs : a.Fits slot) (hf : ∀ x ∈ a.ofSlot slot, Rebuilds a target copy f x) :
    (rebuildSlot target (some copy) f kind (field, slot)).Yields c (Grows a c fun d o =>
      ∀ new, o = some new → slot.Alike new ∧ d.Fits new ∧
        Becomes a target copy c d (a.ofSlot slot) (d.ofSlot new) ∧
          target ∈ a.preorders (a.ofSlot slot)) := by
  have hself {x : NodeId} (ht : target ∈ a.preorder x) : target ∈ a.preorders [x] := by
    simpa using ht
  have hcopy := becomes_copy (c := c) h.complete h.acyclic hc h.old h.new h.equal h.once
  cases slot with
  | one x =>
    simp only [rebuildSlot]
    by_cases heq : x = target
    · subst heq
      rw [if_pos rfl]
      refine EditM.yields_pure ⟨hc, .refl c, fun new hnew => ?_⟩
      cases hnew
      exact ⟨.one .., hc.extends_.knows h.new, hcopy, hself (mem_preorder_self h.acyclic x)⟩
    · rw [if_neg heq]
      refine (hf x (List.mem_singleton_self x) c hc).bind fun o d hyields => ?_
      obtain ⟨hd, hcd, hnew⟩ := hyields
      refine EditM.yields_pure ⟨hd, hcd, fun new hmap => ?_⟩
      obtain ⟨y, rfl, rfl⟩ := Option.map_eq_some_iff.1 hmap
      obtain ⟨hy, -, ht⟩ := hnew y rfl
      exact ⟨.one .., hy.new y (List.mem_singleton_self y), hy, hself ht⟩
  | optional x =>
    cases x with
    | none => exact EditM.yields_pure ⟨hc, .refl c, (by simp)⟩
    | some x =>
      simp only [rebuildSlot]
      by_cases heq : x = target
      · subst heq
        rw [if_pos rfl]
        refine EditM.yields_pure ⟨hc, .refl c, fun new hnew => ?_⟩
        cases hnew
        refine ⟨.some .., fun id hid => ?_, hcopy, hself (mem_preorder_self h.acyclic x)⟩
        cases hid
        exact hc.extends_.knows h.new
      · rw [if_neg heq]
        refine (hf x (List.mem_singleton_self x) c hc).bind fun o d hyields => ?_
        obtain ⟨hd, hcd, hnew⟩ := hyields
        refine EditM.yields_pure ⟨hd, hcd, fun new hmap => ?_⟩
        obtain ⟨y, rfl, rfl⟩ := Option.map_eq_some_iff.1 hmap
        obtain ⟨hy, -, ht⟩ := hnew y rfl
        refine ⟨.some .., fun id hid => ?_, hy, hself ht⟩
        cases hid
        exact hy.new y (List.mem_singleton_self y)
  | list r =>
    simp only [rebuildSlot]
    refine EditM.yields_get ?_
    rw [hc.extends_.list r hs]
    have hxs : ∀ x ∈ a.list r, a.Knows x := fun x hx => h.complete.knows_of_ofSlot hs hx
    refine (h.yields_items hc hxs hf).bind fun rs d hyields => ?_
    obtain ⟨hd, hcd, hrs, hchanged⟩ := hyields
    by_cases hany : rs.any (·.2) = true
    · rw [if_pos hany]
      refine (EditM.yields_allocList (P := Grows a c fun e s => e.Fits (.list s) ∧
        Becomes a target copy c e (a.list r) (e.list s)) fun s hok => ?_).bind
        fun s e hyields => ?_
      · have he := hd.allocList hrs.new
        have hde := extends_allocList d (rs.flatMap (·.1))
        refine ⟨he, hcd.trans hde, fits_allocList hok, ?_⟩
        rw [list_allocList hok]
        exact hrs.mono h.complete h.acyclic hd he hde
      · obtain ⟨he, hce, hfits, hbecomes⟩ := hyields
        refine EditM.yields_pure ⟨he, hce, fun new hnew => ?_⟩
        cases hnew
        exact ⟨.list .., hfits, hbecomes, hchanged hany⟩
    · rw [if_neg hany]
      exact EditM.yields_pure ⟨hd, hcd, (by simp)⟩

/-- What a slot holds after a change fits, is alike and holds what the children become. -/
theorem CopyOf.yields_slot (hc : a.Grown c) (kind field : String) {slot : Child}
    (hs : a.Fits slot) (hf : ∀ x ∈ a.ofSlot slot, Rebuilds a target copy f x) :
    (rebuildSlot target (some copy) f kind (field, slot)).Yields c (Grows a c fun d o =>
      SlotAlike a d slot (o.getD slot) ∧ d.Fits (o.getD slot) ∧
        Becomes a target copy c d (a.ofSlot slot) (d.ofSlot (o.getD slot)) ∧
          (o.isNone = false → target ∈ a.preorders (a.ofSlot slot))) := by
  intro o d hr
  obtain ⟨hd, hcd, hnew⟩ := h.yields_rebuildSlot hc kind field hs hf o d hr
  refine ⟨hd, hcd, ?_⟩
  cases o with
  | none =>
    have hslot := hd.extends_.ofSlot hs
    have hxs : ∀ x ∈ a.ofSlot slot, a.Knows x := fun x hx => h.complete.knows_of_ofSlot hs hx
    refine ⟨⟨.refl slot, ?_⟩, hd.extends_.fits hs, ?_, nofun⟩
    · exact congrArg List.length hslot.symm
    · rw [Option.getD_none, hslot]
      exact becomes_same h.complete h.acyclic hd hxs
  | some new =>
    obtain ⟨halike, hfits, hbecomes, ht⟩ := hnew new rfl
    exact ⟨⟨halike, hbecomes.equal.length_eq⟩, hfits, hbecomes, fun _ => ht⟩

/-- The contents of slots after changes. -/
abbrev updated (slots : List Child) (changes : List (Option Child)) : List Child :=
  List.zipWith (fun old change => change.getD old) slots changes

theorem CopyOf.yields_slots (hc : a.Grown c) (kind : String) {fields : List (String × Child)}
    (hs : ∀ q ∈ fields, a.Fits q.2)
    (hf : ∀ q ∈ fields, ∀ x ∈ a.ofSlot q.2, Rebuilds a target copy f x) :
    (fields.mapM (rebuildSlot target (some copy) f kind)).Yields c (Grows a c fun d os =>
      let slots := fields.map Prod.snd
      Forall₂ (SlotAlike a d) slots (updated slots os) ∧ (∀ s ∈ updated slots os, d.Fits s) ∧
        Becomes a target copy c d (slots.flatMap a.ofSlot) ((updated slots os).flatMap d.ofSlot) ∧
          (os.all Option.isNone = false → target ∈ a.preorders (slots.flatMap a.ofSlot))) := by
  induction fields generalizing c with
  | nil =>
    refine EditM.yields_pure ⟨hc, .refl c, .nil, nofun, ?_, nofun⟩
    exact becomes_same h.complete h.acyclic hc nofun
  | cons q fields ih =>
    obtain ⟨field, slot⟩ := q
    rw [List.forall_mem_cons] at hs hf
    rw [List.mapM_cons]
    refine (h.yields_slot hc kind field hs.1 hf.1).bind
      fun o d ⟨hd, hcd, halike, hfits, hslot, hchanged⟩ => ?_
    refine (ih hd hs.2 hf.2).bind
      fun os e ⟨he, hde, halikes, hfit, hslots, hchanged'⟩ => ?_
    have hofSlot := hde.ofSlot hfits
    refine EditM.yields_pure ⟨he, hcd.trans hde, .cons ?_ halikes, ?_, ?_, ?_⟩
    · refine ⟨halike.alike, ?_⟩
      rw [hofSlot]
      exact halike.length_eq
    · exact List.forall_mem_cons.2 ⟨hde.fits hfits, hfit⟩
    · dsimp only [updated]
      rw [List.map_cons, List.zipWith_cons_cons, List.flatMap_cons, List.flatMap_cons, hofSlot]
      exact hslot.append h.complete h.acyclic hslots h.new hc.extends_ hcd hd he hde
    · rw [List.all_cons, List.map_cons, List.flatMap_cons, preorders, List.flatMap_append,
        List.mem_append, Bool.and_eq_false_iff]
      exact Or.imp hchanged hchanged'

/-- A node is rebuilt when its children are. -/
theorem CopyOf.rebuilds_node (hx : a.Knows x)
    (hf : ∀ y ∈ a.children x, Rebuilds a target copy f y) :
    Rebuilds a target copy (rebuildNode target (some copy) f) x := by
  intro c hc
  obtain ⟨n, hn⟩ := knows_iff.1 hx
  unfold rebuildNode
  refine EditM.yields_get ?_
  rw [hc.extends_.node? x n hn]
  have hfits : ∀ q ∈ n.fields, a.Fits q.2 :=
    fun q hq => h.complete.fits x n hn q.2 (List.mem_map_of_mem hq)
  have hfields : ∀ q ∈ n.fields, ∀ y ∈ a.ofSlot q.2, Rebuilds a target copy f y := by
    intro q hq y hy
    refine hf y ?_
    rw [children_eq hn]
    exact List.mem_flatMap.2 ⟨q.2, List.mem_map_of_mem hq, hy⟩
  refine (h.yields_slots hc n.kindName hfits hfields).bind
    fun os d ⟨hd, hcd, halike, hfit, hslots, hchanged⟩ => ?_
  by_cases hnone : os.all Option.isNone = true
  · rw [if_pos hnone]
    exact EditM.yields_pure ⟨hd, hcd, nofun⟩
  · rw [if_neg hnone]
    obtain ⟨heq, hbare⟩ := n.slots_withSlots (halike.imp fun _ _ hs => hs.alike)
    change (n.update os).slots = updated n.slots os at heq
    have ht := hchanged (Bool.eq_false_iff.2 hnone)
    change target ∈ a.preorders (a.childrenOf n) at ht
    rw [← children_eq hn] at ht
    have hx' : target ∈ a.preorder x := by
      rw [Arena.preorder_eq h.acyclic]
      exact List.mem_cons_of_mem _ ht
    obtain ⟨hbecomes, hnew⟩ := h.becomes_node (m := n.update os) hn hcd hd (heq ▸ halike) hbare
      (heq ▸ hfit) (by rw [children_eq hn, heq]; exact hslots) ht
    refine (EditM.yields_alloc (P := Grows a c fun e y =>
      Becomes a target copy c e [x] [y] ∧ ¬c.Knows y)
      ⟨hd.alloc (heq ▸ hfit), hcd.trans (extends_alloc d _), hbecomes, hnew⟩).bind
        fun y e ⟨he, hce, hy⟩ => EditM.yields_pure ⟨he, hce, fun z hz => ?_⟩
    cases hz
    exact ⟨hy.1, hy.2, hx'⟩

theorem CopyOf.rebuilds_unroll {rank : NodeId → Nat}
    (hrank : ∀ id, ∀ y ∈ a.children id, rank y < rank id) {depth : Nat} (hx : a.Knows x)
    (hlt : rank x < depth) :
    Rebuilds a target copy (unroll (pure none) (rebuildNode target (some copy)) depth) x := by
  induction depth generalizing x with
  | zero => omega
  | succ depth ih =>
    refine h.rebuilds_node hx fun y hy => ih (h.complete.knows_child hy) ?_
    have := hrank x y hy
    omega

/-- A rebuilding descends deep enough, however much the arena has grown. -/
theorem CopyOf.rebuilds_rebuild (hx : a.Knows x) :
    Rebuilds a target copy (rebuild target (some copy)) x := by
  intro c hc y b hr
  rw [run_rebuild] at hr
  obtain ⟨rank, hrank, hle⟩ := h.acyclic.exists_rank_le
  have := hc.extends_.size_le
  have := hle x
  exact h.rebuilds_unroll hrank hx (by omega) c hc y b hr

/-- **What a program becomes when a copy takes the place of one of its nodes**: a structurally
    equal one, whose root is new. -/
theorem CopyOf.becomes_replace {root new : NodeId} {b : Arena} (hroot : a.Knows root)
    (hne : target ≠ root) (hr : (replace root target (some copy)).run.run a = (.ok new, b)) :
    a.Grown b ∧ Becomes a target copy a b [root] [new] ∧ ¬a.Knows new ∧
      target ∈ a.preorder root := by
  obtain ⟨n, hn⟩ := knows_iff.1 hroot
  have hyields : (replace root target (some copy)).Yields a (fun b y => a.Grown b ∧
      Becomes a target copy a b [root] [y] ∧ ¬a.Knows y ∧ target ∈ a.preorder root) := by
    unfold replace
    refine EditM.yields_get ?_
    rw [hn, Option.isNone_some, if_neg Bool.false_ne_true]
    dsimp only
    rw [if_neg hne]
    refine (h.rebuilds_rebuild hroot a (.refl h.complete)).bind fun o b ⟨hb, _, hnew⟩ => ?_
    cases o with
    | none => exact EditM.yields_throw _
    | some y => exact EditM.yields_pure ⟨hb, hnew y rfl⟩
  exact hyields new b hr

end

end Arena

end Arbor
