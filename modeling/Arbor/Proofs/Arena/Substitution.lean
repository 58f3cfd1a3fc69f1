/-
  Replacing is substituting.

  An edit is given a root, a node below it and what comes in the place of that node.  The tree
  that the new root stands for is that of the old one with every occurrence of the node
  replaced, dropped from its child list or cleared from its slot, however nodes are shared.

  * `EditM.Comes`: an edit adds to the arena, and what it gives, or why it fails, is as said;
  * `Arena.Requires`: some node below the root cannot do without the target;
  * `ItemBecomes`, `SlotBecomes` and `NodeBecomes`: what rebuilding an item of a child list, a
    slot and a node gives.

  Main statement: `replace_substitutes`.
-/
import Arbor.Proofs.Arena.Subtree

namespace Arbor

open List (Forall₂)

/-- What is made of related items, two by two, is related to them. -/
theorem forall₂_zipWith {α β γ : Type} {R : α → β → Prop} {S : α → γ → Prop} {f : α → β → γ}
    (h : ∀ x y, R x y → S x (f x y)) {xs : List α} {ys : List β} (hxy : Forall₂ R xs ys) :
    Forall₂ S xs (List.zipWith f xs ys) := by
  induction hxy with
  | nil => exact .nil
  | cons hx _ ih => exact .cons (h _ _ hx) ih

/-- Every item of a list is related to one of the list across. -/
theorem exists_of_forall₂ {α β : Type} {R : α → β → Prop} {xs : List α} {ys : List β}
    (h : Forall₂ R xs ys) : ∀ x ∈ xs, ∃ y, R x y := by
  induction h with
  | nil => simp
  | cons hx _ ih => exact List.forall_mem_cons.2 ⟨⟨_, hx⟩, ih⟩

/-- Lists are mapped to the same if related items are. -/
theorem map_eq_of_forall₂ {α β γ : Type} {R : α → β → Prop} {f : α → γ} {g : β → γ} {xs : List α}
    {ys : List β} (h : Forall₂ R xs ys) (hfg : ∀ x ∈ xs, ∀ y, R x y → f x = g y) :
    xs.map f = ys.map g := by
  induction h with
  | nil => rfl
  | cons hx _ ih =>
    rw [List.forall_mem_cons] at hfg
    rw [List.map_cons, List.map_cons, hfg.1 _ hx, ih hfg.2]

/-! ## Edits that may fail -/

namespace EditM

variable {α β : Type} {c d : Arena} {P : Arena → α → Prop} {Q : Arena → β → Prop}
  {E : EditError → Prop} {x : EditM α}

/-- Run on the arena, the edit only adds to it; what it gives, or why it fails, is as said. -/
structure Comes (x : EditM α) (c : Arena) (P : Arena → α → Prop) (E : EditError → Prop) : Prop where
  extends_ : c.Extends (x.run.run c).2
  ok : ∀ y, (x.run.run c).1 = .ok y → P (x.run.run c).2 y
  error : ∀ e, (x.run.run c).1 = .error e → E e

theorem comes_pure {y : α} (h : P c y) : (pure y : EditM α).Comes c P E :=
  ⟨.refl c, fun _ hy => by cases hy; exact h, fun _ he => by cases he⟩

theorem comes_throw {e : EditError} (h : E e) : (throw e : EditM α).Comes c P E :=
  ⟨.refl c, fun _ hy => (by cases hy), fun _ he => by cases he; exact h⟩

theorem run_get (f : Arena → EditM α) (a : Arena) :
    ((get : EditM Arena) >>= f).run.run a = (f a).run.run a := rfl

theorem comes_get {f : Arena → EditM α} (h : (f c).Comes c P E) :
    ((get : EditM Arena) >>= f).Comes c P E := ⟨h.extends_, h.ok, h.error⟩

theorem Comes.bind {f : α → EditM β} (hx : x.Comes c P E)
    (hf : ∀ y d, c.Extends d → P d y → (f y).Comes d Q E) : (x >>= f).Comes c Q E := by
  obtain ⟨hext, hok, herror⟩ := hx
  rcases hr : x.run.run c with ⟨e | y, d⟩
  · rw [hr] at hext herror
    refine ⟨?_, fun z hz => ?_, fun e' he => ?_⟩
    · rw [run_bind, hr]
      exact hext
    · rw [run_bind, hr] at hz
      cases hz
    · rw [run_bind, hr] at he
      cases he
      exact herror e rfl
  · rw [hr] at hext hok
    obtain ⟨hext', hok', herror'⟩ := hf y d hext (hok y rfl)
    refine ⟨?_, fun z hz => ?_, fun e' he => ?_⟩
    · rw [run_bind, hr]
      exact hext.trans hext'
    · rw [run_bind, hr] at hz ⊢
      exact hok' z hz
    · rw [run_bind, hr] at he
      exact herror' e' he

/-- An edit for each item of a list, when what is said stays true while the arena grows. -/
theorem comes_mapM {R : Arena → β → α → Prop} {f : β → EditM α} {items : List β}
    (hR : ∀ {d e : Arena} {z y}, d.Extends e → R d z y → R e z y)
    (hf : ∀ z ∈ items, ∀ d, c.Extends d → (f z).Comes d (fun e y => R e z y) E) :
    (items.mapM f).Comes c (fun d ys => Forall₂ (R d) items ys) E := by
  induction items generalizing c with
  | nil => exact comes_pure .nil
  | cons z items ih =>
    rw [List.mapM_cons]
    refine (hf z List.mem_cons_self c (.refl c)).bind fun y d hcd hy => ?_
    have hrest := ih fun w hw e hde => hf w (List.mem_cons_of_mem _ hw) e (hcd.trans hde)
    refine hrest.bind fun ys e hde hys => comes_pure (.cons (hR hde hy) hys)

theorem comes_alloc {n : Node} {P : Arena → NodeId → Prop} (h : P (c.alloc n).2 (c.alloc n).1) :
    (EditM.alloc n).Comes c P E :=
  ⟨Arena.extends_alloc c n, fun _ hy => by cases hy; exact h, fun _ he => by cases he⟩

/-- A child list that is short enough is allocated. -/
theorem comes_allocList {ids : List NodeId} {P : Arena → NodeRange → Prop}
    (hshort : ids.length ≤ maxListLength)
    (h : ∀ r, (c.allocList ids).1 = .ok r → P (c.allocList ids).2 r) :
    (EditM.allocList ids).Comes c P E := by
  obtain ⟨r, hr⟩ := (c.allocList_isOk_iff ids).2 hshort
  refine ⟨Arena.extends_allocList c ids, h, fun e he => ?_⟩
  change (c.allocList ids).1 = .error e at he
  rw [hr] at he
  cases he

end EditM

namespace Arena

/-! ## Where the target occurs -/

section
variable {a : Arena} {root target x c : NodeId}

/-- Some node at or below `root` has `target` in a slot that must be filled, and removing it
    there is the error. -/
def Requires (a : Arena) (root target : NodeId) (e : EditError) : Prop :=
  ∃ y n field, a.Reaches root y ∧ a.node? y = some n ∧ (field, .one target) ∈ n.fields ∧
    e = .requiredSlot n.kindName field

theorem reaches_iff : a.Reaches x target ↔ x = target ∨ ∃ c ∈ a.children x, a.Reaches c target := by
  constructor
  · rintro ⟨n, hn⟩
    induction hn with
    | here => exact .inl rfl
    | @child n y z _ hz ih =>
      right
      rcases ih with rfl | ⟨c, hc, hy⟩
      · exact ⟨z, hz, reaches_self a z⟩
      · exact ⟨c, hc, hy.child hz⟩
  · rintro (rfl | ⟨c, hc, h⟩)
    · exact reaches_self a x
    · exact ((reaches_self a x).child hc).trans h

theorem mem_children_of_field {n : Node} {field : String} (hn : a.node? x = some n)
    (hfield : (field, .one c) ∈ n.fields) : c ∈ a.children x := by
  rw [children_eq hn]
  exact mem_childrenOf (List.mem_map_of_mem hfield) (List.mem_singleton_self c)

theorem Requires.exists_child {e : EditError} (h : a.Requires root target e) :
    ∃ c ∈ a.children root, a.Reaches c target := by
  obtain ⟨y, n, field, hreach, hn, hfield, -⟩ := h
  have hchild := mem_children_of_field hn hfield
  rcases reaches_iff.1 hreach with rfl | ⟨c, hc, hy⟩
  · exact ⟨target, hchild, reaches_self a target⟩
  · exact ⟨c, hc, hy.child hchild⟩

theorem Requires.reaches {e : EditError} (h : a.Requires root target e) : a.Reaches root target :=
  reaches_iff.2 (.inr h.exists_child)

/-- No node is below itself. -/
theorem Acyclic.not_reaches_of_child (hac : a.Acyclic) (hc : c ∈ a.children x) :
    ¬a.Reaches c x := by
  obtain ⟨rank, hrank⟩ := hac
  rintro ⟨n, hn⟩
  have hle := hn.rank_le hrank
  have hlt := hrank x c hc
  omega

/-- The slots of a node, and what is below, tell whether it is required there. -/
theorem requires_iff {n : Node} {e : EditError} (hn : a.node? x = some n) :
    a.Requires x target e ↔
      (∃ field, (field, .one target) ∈ n.fields ∧ e = .requiredSlot n.kindName field) ∨
        ∃ c ∈ a.children x, a.Requires c target e := by
  constructor
  · rintro ⟨y, m, field, hreach, hm, hfield, rfl⟩
    rcases reaches_iff.1 hreach with rfl | ⟨c, hc, hy⟩
    · obtain rfl : n = m := Option.some.inj (hn.symm.trans hm)
      exact .inl ⟨field, hfield, rfl⟩
    · exact .inr ⟨c, hc, y, m, field, hy, hm, hfield, rfl⟩
  · rintro (⟨field, hfield, rfl⟩ | ⟨c, hc, y, m, field, hy, hm, hfield, rfl⟩)
    · exact ⟨x, n, field, reaches_self a x, hn, hfield, rfl⟩
    · exact ⟨y, m, field, ((reaches_self a x).child hc).trans hy, hm, hfield, rfl⟩

end

/-! ## What is rebuilt -/

/-- The node stands for a tree that is the same but for the ids of its nodes. -/
def Sprouts (d : Arena) (y : NodeId) (t : Subtree) : Prop := ∃ u, d.Spells y u ∧ u.shape = t.shape

/-- The slot holds nodes that stand for the trees. -/
inductive Holds (d : Arena) : Child → Branch Subtree → Prop
  | one {y : NodeId} {t : Subtree} : d.Sprouts y t → Holds d (.one y) (.one t)
  | optional {y : Option NodeId} {t : Option Subtree} :
      Forall₂ d.Sprouts y.toList t.toList → Holds d (.optional y) (.optional t)
  | list {r : NodeRange} {ts : List Subtree} :
      Forall₂ d.Sprouts (d.list r) ts → Holds d (.list r) (.list ts)

theorem Sprouts.mono {d e : Arena} {y : NodeId} {t : Subtree} (h : d.Sprouts y t)
    (hde : d.Extends e) : e.Sprouts y t := by
  obtain ⟨u, hu, hshape⟩ := h
  exact ⟨u, hu.mono hde, hshape⟩

theorem Holds.mono {d e : Arena} {s : Child} {b : Branch Subtree} (h : d.Holds s b)
    (hs : d.Stores s) (hde : d.Extends e) : e.Holds s b := by
  cases h with
  | one h => exact .one (h.mono hde)
  | optional h => exact .optional (h.imp fun _ _ h => h.mono hde)
  | list h =>
    refine .list ?_
    rw [hde.list _ (hs _ rfl)]
    exact h.imp fun _ _ h => h.mono hde

theorem sprouts_shape {d : Arena} {g : NodeId → Subtree} {ys : List NodeId} {ts : List Subtree}
    (h : Forall₂ d.Sprouts ys ts) (hg : ∀ y ∈ ys, d.Spells y (g y)) :
    ys.map (Subtree.shape ∘ g) = ts.map Subtree.shape := by
  refine map_eq_of_forall₂ h fun y hy t hsprouts => ?_
  obtain ⟨u, hu, hshape⟩ := hsprouts
  rw [Function.comp_apply, (hg y hy).unique hu, hshape]

/-- What a slot holds has the shape of the trees. -/
theorem Holds.shape_eq {d : Arena} {g : NodeId → Subtree} {s : Child} {b : Branch Subtree}
    (h : d.Holds s b) (hg : ∀ y ∈ d.ofSlot s, d.Spells y (g y)) :
    (d.branch g s).map Subtree.shape = b.map Subtree.shape := by
  rw [map_branch]
  cases h with
  | one h =>
    have hshape := sprouts_shape (.cons h .nil) hg
    exact congrArg Branch.one (List.cons.inj hshape).1
  | @optional y t h =>
    have hshape := sprouts_shape h hg
    rw [branch, Branch.map]
    congr 1
    cases y <;> cases t <;> simp_all
  | list h => exact congrArg Branch.list (sprouts_shape h hg)

theorem Holds.exists_spells {d : Arena} {s : Child} {b : Branch Subtree} (h : d.Holds s b) :
    ∀ y ∈ d.ofSlot s, ∃ t, d.Spells y t := by
  have hall {ys : List NodeId} {ts : List Subtree} (h : Forall₂ d.Sprouts ys ts) :
      ∀ y ∈ ys, ∃ t, d.Spells y t := by
    intro y hy
    obtain ⟨t, u, hu, -⟩ := exists_of_forall₂ h y hy
    exact ⟨u, hu⟩
  cases h with
  | one h => exact hall (.cons h .nil)
  | optional h => exact hall h
  | list h => exact hall h

/-! ## Rebuilding -/

section
variable (a : Arena) (target : NodeId) (r : Option NodeId) (g : NodeId → Subtree)

/-- The tree that `g` has for a node, with the replacement in it. -/
abbrev Replaced (x : NodeId) : Subtree := (g x).subst target (r.map g)

/-- What an item of a child list becomes. -/
structure ItemBecomes (d : Arena) (x : NodeId) (q : List NodeId × Bool) : Prop where
  sprouts : Forall₂ d.Sprouts q.1 (if x = target then (r.map g).toList else [Replaced target r g x])
  changed : q.2 = true ↔ a.Reaches x target
  free : r = none → ∀ e, ¬a.Requires x target e

/-- What a slot becomes, which keeps its contents if nothing is given. -/
structure SlotBecomes (d : Arena) (s : Child) (o : Option Child) : Prop where
  similar : s.Similar (o.getD s)
  stores : d.Stores (o.getD s)
  holds : d.Holds (o.getD s) ((a.branch (Replaced target r g) s).plant target (r.map g))
  changed : o.isSome = true ↔ ∃ c ∈ a.ofSlot s, a.Reaches c target
  free : r = none → s ≠ .one target ∧ ∀ c ∈ a.ofSlot s, ∀ e, ¬a.Requires c target e

/-- What a node becomes, if the target is below it. -/
structure NodeBecomes (d : Arena) (x : NodeId) (o : Option NodeId) : Prop where
  sprouts : ∀ y, o = some y → d.Sprouts y (Replaced target r g x)
  changed : o.isSome = true ↔ ∃ c ∈ a.children x, a.Reaches c target
  free : r = none → ∀ e, ¬a.Requires x target e

variable {a target r g}

theorem ItemBecomes.mono {d e : Arena} {x : NodeId} {q : List NodeId × Bool}
    (h : ItemBecomes a target r g d x q) (hde : d.Extends e) : ItemBecomes a target r g e x q :=
  ⟨h.sprouts.imp fun _ _ hy => hy.mono hde, h.changed, h.free⟩

theorem SlotBecomes.mono {d e : Arena} {s : Child} {o : Option Child}
    (h : SlotBecomes a target r g d s o) (hde : d.Extends e) : SlotBecomes a target r g e s o :=
  ⟨h.similar, hde.stores h.stores, h.holds.mono h.stores hde, h.changed, h.free⟩

/-- An item gives no more than one. -/
theorem ItemBecomes.length_le {d : Arena} {x : NodeId} {q : List NodeId × Bool}
    (h : ItemBecomes a target r g d x q) : q.1.length ≤ 1 := by
  rw [h.sprouts.length_eq]
  split
  · cases r <;> simp
  · exact Nat.le_refl 1

theorem ItemBecomes.flatMap {d : Arena} {xs : List NodeId} {qs : List (List NodeId × Bool)}
    (h : Forall₂ (ItemBecomes a target r g d) xs qs) :
    Forall₂ d.Sprouts (qs.flatMap (·.1)) (xs.flatMap fun x =>
        if x = target then (r.map g).toList else [Replaced target r g x]) ∧
      (qs.flatMap (·.1)).length ≤ xs.length ∧
      (qs.any (·.2) = true ↔ ∃ x ∈ xs, a.Reaches x target) ∧
      (r = none → ∀ x ∈ xs, ∀ e, ¬a.Requires x target e) := by
  induction h with
  | nil => simp
  | @cons x q xs qs hx _ ih =>
    obtain ⟨hsprouts, hlength, hchanged, hfree⟩ := ih
    have hone := hx.length_le
    refine ⟨?_, ?_, ?_, fun hr => List.forall_mem_cons.2 ⟨hx.free hr, hfree hr⟩⟩
    · rw [List.flatMap_cons, List.flatMap_cons]
      exact List.rel_append hx.sprouts hsprouts
    · rw [List.flatMap_cons, List.length_append, List.length_cons]
      omega
    · rw [List.any_cons, Bool.or_eq_true, hx.changed, hchanged, List.exists_mem_cons_iff]

/-- No slot changes if the target is in none. -/
theorem SlotBecomes.all_isNone {d : Arena} {ss : List Child} {os : List (Option Child)}
    (h : Forall₂ (SlotBecomes a target r g d) ss os) :
    (os.all Option.isNone = true ↔ ∀ y ∈ ss.flatMap a.ofSlot, ¬a.Reaches y target) ∧
      (r = none → .one target ∉ ss ∧ ∀ y ∈ ss.flatMap a.ofSlot, ∀ e, ¬a.Requires y target e) := by
  induction h with
  | nil => simp
  | @cons s o ss os hs _ ih =>
    obtain ⟨hall, hfree⟩ := ih
    rw [List.flatMap_cons, List.forall_mem_append, List.forall_mem_append]
    refine ⟨?_, fun hr => ?_⟩
    · have hnone : o.isNone = true ↔ ∀ y ∈ a.ofSlot s, ¬a.Reaches y target := by
        rw [← not_iff_not, ← Option.not_isSome, Bool.not_eq_true', Bool.not_eq_false, hs.changed]
        simp
      rw [List.all_cons, Bool.and_eq_true, hnone, hall]
    · obtain ⟨hne, hslot⟩ := hs.free hr
      obtain ⟨hnot, hslots⟩ := hfree hr
      exact ⟨by simpa using ⟨Ne.symm hne, hnot⟩, hslot, hslots⟩

end

section
variable {a c : Arena} {target x : NodeId} {r : Option NodeId} {g : NodeId → Subtree}
variable {f : NodeId → EditM (Option NodeId)} {E : EditError → Prop}
variable (hac : a.Acyclic) (hg : ∀ x, a.Knows x → a.Spells x (g x))
variable (hr : ∀ new, r = some new → a.Knows new) (hc : a.Extends c)

include hg in
/-- The tree of a node is made of those of its children. -/
theorem tree_eq {n : Node} (hn : a.node? x = some n) :
    g x = .node x n.data (n.slots.map (a.branch g)) ∧ (∀ s ∈ n.slots, a.Stores s) ∧
      ∀ y ∈ a.children x, a.Knows y := by
  have hx := hg x (knows_iff.2 ⟨n, hn⟩)
  generalize g x = t at hx
  cases hx with
  | @node _ m g' hm hstored hchildren =>
    obtain rfl : n = m := Option.some.inj (hn.symm.trans hm)
    refine ⟨?_, hstored, fun y hy => ?_⟩
    · congr 1
      refine List.map_congr_left fun s hs => branch_congr fun y hy => ?_
      have hy := hchildren y (mem_childrenOf hs hy)
      exact hy.unique (hg y hy.knows)
    · rw [children_eq hn] at hy
      exact (hchildren y hy).knows

include hg in
theorem replaced_eq (hx : a.Knows x) (h : ∀ y ∈ a.children x, ¬a.Reaches y target) :
    Replaced target r g x = g x := (hg x hx).subst_eq h

include hac hg hr hc in
theorem rebuildItem_becomes (hx : a.Knows x)
    (hf : (f x).Comes c (fun d o => NodeBecomes a target r g d x o) E) :
    (rebuildItem target r f x).Comes c (fun d q => ItemBecomes a target r g d x q) E := by
  unfold rebuildItem
  by_cases heq : x = target
  · subst heq
    rw [if_pos rfl]
    refine EditM.comes_pure ⟨?_, by simp [reaches_self], fun _ e he => ?_⟩
    · rw [if_pos rfl]
      cases r with
      | none => exact .nil
      | some new => exact .cons ⟨_, (hg new (hr new rfl)).mono hc, rfl⟩ .nil
    · obtain ⟨y, hy, hreach⟩ := he.exists_child
      exact hac.not_reaches_of_child hy hreach
  · rw [if_neg heq]
    refine hf.bind fun o d hcd ho => ?_
    have hchanged := ho.changed
    cases o with
    | some y =>
      refine EditM.comes_pure ⟨?_, ?_, ho.free⟩
      · rw [if_neg heq]
        exact .cons (ho.sprouts y rfl) .nil
      · simpa [reaches_iff (x := x), heq] using hchanged
    | none =>
      have hnot : ∀ y ∈ a.children x, ¬a.Reaches y target := by simpa using hchanged
      refine EditM.comes_pure ⟨?_, ?_, ho.free⟩
      · rw [if_neg heq, replaced_eq hg hx hnot]
        exact .cons ⟨_, (hg x hx).mono (hc.trans hcd), rfl⟩ .nil
      · simpa [reaches_iff (x := x), heq] using hnot

include hg hc in
/-- A slot stays as it is if the target is not there. -/
theorem slotBecomes_none {s : Child} (hs : a.Stores s) (hknown : ∀ y ∈ a.ofSlot s, a.Knows y)
    (hnot : ∀ y ∈ a.ofSlot s, ¬a.Reaches y target)
    (hfree : r = none → ∀ y ∈ a.ofSlot s, ∀ e, ¬a.Requires y target e) :
    SlotBecomes a target r g c s none := by
  have hbranch : a.branch (Replaced target r g) s = a.branch g s :=
    branch_congr fun y hy => replaced_eq hg (hknown y hy) fun z hz hreach =>
      hnot y hy (((reaches_self a y).child hz).trans hreach)
  have hplant : (a.branch g s).plant target (r.map g) = a.branch g s :=
    plant_branch fun y hy heq => hnot y hy (by
      rw [(hg y (hknown y hy)).id_eq] at heq
      rw [heq]
      exact reaches_self a target)
  refine ⟨.refl s, hc.stores hs, ?_, by simpa using hnot, fun hr => ⟨?_, hfree hr⟩⟩
  · rw [hbranch, hplant, Option.getD_none]
    have hsprouts (ys : List NodeId) (hys : ∀ y ∈ ys, a.Knows y) :
        Forall₂ c.Sprouts ys (ys.map g) := by
      rw [List.forall₂_map_right_iff, List.forall₂_same]
      exact fun y hy => ⟨_, (hg y (hys y hy)).mono hc, rfl⟩
    cases s with
    | one y => exact .one ⟨_, (hg y (hknown y (List.mem_singleton_self y))).mono hc, rfl⟩
    | optional y =>
      refine .optional ?_
      rw [Option.toList_map]
      exact hsprouts _ hknown
    | list range =>
      refine .list ?_
      rw [hc.list range (hs range rfl)]
      exact hsprouts _ hknown
  · rintro rfl
    exact hnot target (List.mem_singleton_self target) (reaches_self a target)

include hac hg hr hc in
theorem rebuildItems_become {xs : List NodeId} (hxs : ∀ x ∈ xs, a.Knows x)
    (hf : ∀ x ∈ xs, ∀ d, a.Extends d →
      (f x).Comes d (fun e o => NodeBecomes a target r g e x o) E) :
    (xs.mapM (rebuildItem target r f)).Comes c
      (fun d qs => Forall₂ (ItemBecomes a target r g d) xs qs) E :=
  EditM.comes_mapM (fun hde h => h.mono hde) fun x hx d hcd =>
    rebuildItem_becomes hac hg hr (hc.trans hcd) (hxs x hx) (hf x hx d (hc.trans hcd))

/-- Another node than the target is rebuilt if it reaches the target. -/
theorem NodeBecomes.isSome_iff {d : Arena} {o : Option NodeId}
    (h : NodeBecomes a target r g d x o) (hne : x ≠ target) :
    o.isSome = true ↔ a.Reaches x target := by
  rw [h.changed, reaches_iff (x := x)]
  simp [hne]

include hg in
theorem id_replaced (hx : a.Knows x) : (Replaced target r g x).id = x := by
  rw [Subtree.id_subst, (hg x hx).id_eq]

include hac in
theorem not_requires_self {e : EditError} : ¬a.Requires target target e := by
  intro h
  obtain ⟨y, hy, hreach⟩ := h.exists_child
  exact hac.not_reaches_of_child hy hreach

include hg hr hc in
/-- A slot of one node is rebuilt, unless the target would be removed from it. -/
theorem rebuildOne_becomes {kind field : String} (hx : a.Knows x)
    (hE : r = none → x = target → E (.requiredSlot kind field))
    (hf : (f x).Comes c (fun d o => NodeBecomes a target r g d x o) E) :
    (rebuildSlot target r f kind (field, .one x)).Comes c
      (fun d o => SlotBecomes a target r g d (.one x) o) E := by
  have hid : (Replaced target r g x).id = x := id_replaced hg hx
  have hknown : ∀ y ∈ a.ofSlot (.one x), a.Knows y := by simpa [ofSlot] using hx
  simp only [rebuildSlot]
  by_cases heq : x = target
  · rw [if_pos heq]
    cases r with
    | none => exact EditM.comes_throw (hE rfl heq)
    | some new =>
      refine EditM.comes_pure ⟨.one .., by simp [Stores], ?_, ?_, by simp⟩
      · rw [branch, Branch.plant, if_pos (hid.trans heq)]
        exact .one ⟨_, (hg new (hr new rfl)).mono hc, rfl⟩
      · simp [ofSlot, heq, reaches_self]
  · rw [if_neg heq]
    refine hf.bind fun o d hcd ho => EditM.comes_pure ?_
    have hchanged := ho.isSome_iff heq
    cases o with
    | none =>
      refine slotBecomes_none hg (hc.trans hcd) (by simp [Stores]) hknown ?_ ?_
      · simpa [ofSlot] using hchanged
      · simpa [ofSlot] using ho.free
    | some y =>
      refine ⟨.one .., by simp [Stores], ?_, by simpa [ofSlot] using hchanged,
        fun hr => ⟨by simpa using heq, by simpa [ofSlot] using ho.free hr⟩⟩
      rw [branch, Branch.plant, if_neg (by rwa [hid])]
      exact .one (ho.sprouts y rfl)

include hac hg hr hc in
/-- A slot that may be empty is rebuilt, or cleared. -/
theorem rebuildOptional_becomes {kind field : String} (hx : a.Knows x)
    (hf : (f x).Comes c (fun d o => NodeBecomes a target r g d x o) E) :
    (rebuildSlot target r f kind (field, .optional (some x))).Comes c
      (fun d o => SlotBecomes a target r g d (.optional (some x)) o) E := by
  have hid : (Replaced target r g x).id = x := id_replaced hg hx
  have hknown : ∀ y ∈ a.ofSlot (.optional (some x)), a.Knows y := by simpa [ofSlot] using hx
  have hplant : (a.branch (Replaced target r g) (.optional (some x))).plant target (r.map g) =
      .optional (if x = target then r.map g else some (Replaced target r g x)) := by
    show Branch.optional (if (Replaced target r g x).id = target then r.map g
      else some (Replaced target r g x)) = _
    rw [hid]
  simp only [rebuildSlot]
  by_cases heq : x = target
  · rw [if_pos heq]
    refine EditM.comes_pure ⟨.optional .., by simp [Stores], ?_, ?_, fun _ => ⟨by simp, ?_⟩⟩
    · rw [hplant, if_pos heq]
      refine .optional ?_
      cases r with
      | none => exact .nil
      | some new => exact .cons ⟨_, (hg new (hr new rfl)).mono hc, rfl⟩ .nil
    · simp [ofSlot, heq, reaches_self]
    · simpa [ofSlot, heq] using fun e => not_requires_self hac
  · rw [if_neg heq]
    refine hf.bind fun o d hcd ho => EditM.comes_pure ?_
    have hchanged := ho.isSome_iff heq
    cases o with
    | none =>
      refine slotBecomes_none hg (hc.trans hcd) (by simp [Stores]) hknown ?_ ?_
      · simpa [ofSlot] using hchanged
      · simpa [ofSlot] using ho.free
    | some y =>
      refine ⟨.optional .., by simp [Stores], ?_, by simpa [ofSlot] using hchanged,
        fun hr => ⟨by simp, by simpa [ofSlot] using ho.free hr⟩⟩
      rw [hplant, if_neg heq]
      exact .optional (.cons (ho.sprouts y rfl) .nil)

include hac hg hr hc in
/-- A child list is rebuilt, and a new one is never too long. -/
theorem rebuildList_becomes {kind field : String} {range : NodeRange}
    (hs : a.Stores (.list range)) (hknown : ∀ y ∈ a.list range, a.Knows y)
    (hshort : (a.list range).length ≤ maxListLength)
    (hf : ∀ y ∈ a.list range, ∀ d, a.Extends d →
      (f y).Comes d (fun e o => NodeBecomes a target r g e y o) E) :
    (rebuildSlot target r f kind (field, .list range)).Comes c
      (fun d o => SlotBecomes a target r g d (.list range) o) E := by
  simp only [rebuildSlot]
  refine EditM.comes_get ?_
  rw [hc.list range (hs range rfl)]
  refine (rebuildItems_become hac hg hr hc hknown hf).bind fun qs d hcd hqs => ?_
  obtain ⟨hsprouts, hlength, hchanged, hfree⟩ := ItemBecomes.flatMap hqs
  by_cases hany : qs.any (·.2) = true
  · rw [if_pos hany]
    refine (EditM.comes_allocList (P := fun e new => e.Stores (.list new) ∧
      e.list new = qs.flatMap (·.1)) (Nat.le_trans hlength hshort) fun new hnew => ?_).bind
      fun new e hde hnew => EditM.comes_pure ?_
    · refine ⟨fun range' heq => ?_, list_allocList hnew⟩
      cases heq
      exact fits_allocList hnew
    · obtain ⟨hstores, hlist⟩ := hnew
      refine ⟨.list .., hstores, ?_, by simpa [ofSlot, hany] using hchanged,
        fun hr => ⟨by simp, hfree hr⟩⟩
      have hplant : (a.branch (Replaced target r g) (.list range)).plant target (r.map g) =
          .list ((a.list range).flatMap fun y => if y = target then (r.map g).toList
            else [Replaced target r g y]) := by
        rw [branch, Branch.plant, List.flatMap_map]
        refine congrArg Branch.list (List.flatMap_congr fun y hy => ?_)
        rw [id_replaced hg (hknown y hy)]
      rw [hplant]
      refine .list ?_
      rw [hlist]
      exact hsprouts.imp fun _ _ h => h.mono hde
  · rw [if_neg hany]
    refine EditM.comes_pure (slotBecomes_none hg (hc.trans hcd) hs hknown ?_ hfree)
    intro y hy hreach
    exact hany (hchanged.2 ⟨y, hy, hreach⟩)

include hac hg hr hc in
/-- A slot is rebuilt, or it must be filled and the target would be removed from it. -/
theorem rebuildSlot_becomes {kind field : String} {s : Child} (hs : a.Stores s)
    (hknown : ∀ y ∈ a.ofSlot s, a.Knows y) (hshort : (a.ofSlot s).length ≤ maxListLength)
    (hE : r = none → s = .one target → E (.requiredSlot kind field))
    (hf : ∀ y ∈ a.ofSlot s, ∀ d, a.Extends d →
      (f y).Comes d (fun e o => NodeBecomes a target r g e y o) E) :
    (rebuildSlot target r f kind (field, s)).Comes c
      (fun d o => SlotBecomes a target r g d s o) E := by
  cases s with
  | one y =>
    have hmem : y ∈ a.ofSlot (.one y) := List.mem_singleton_self y
    exact rebuildOne_becomes hg hr hc (hknown y hmem)
      (fun hr heq => hE hr (congrArg Child.one heq)) (hf y hmem c hc)
  | optional y =>
    cases y with
    | none =>
      have hnone : ∀ y, y ∉ a.ofSlot (.optional none) := by simp [ofSlot]
      exact EditM.comes_pure (slotBecomes_none hg hc hs hknown
        (fun y hy => absurd hy (hnone y)) (fun _ y hy => absurd hy (hnone y)))
    | some y =>
      have hmem : y ∈ a.ofSlot (.optional (some y)) := List.mem_singleton_self y
      exact rebuildOptional_becomes hac hg hr hc (hknown y hmem) (hf y hmem c hc)
  | list range => exact rebuildList_becomes hac hg hr hc hs hknown hshort hf

omit hac hg hr hc in
/-- A new node stands for a tree that is made of those of its slots. -/
theorem sprouts_alloc {m : Node} {bs : List (Branch Subtree)} (id : NodeId)
    (h : Forall₂ (fun s b => c.Stores s ∧ c.Holds s b) m.slots bs) :
    (c.alloc m).2.Sprouts (c.alloc m).1 (.node id m.data bs) := by
  have hcd := extends_alloc c m
  have hstored : ∀ s ∈ m.slots, (c.alloc m).2.Stores s := by
    intro s hs
    obtain ⟨b, hstores, -⟩ := exists_of_forall₂ h s hs
    exact hcd.stores hstores
  have hchildren : ∀ y ∈ (c.alloc m).2.childrenOf m, ∃ t, (c.alloc m).2.Spells y t := by
    intro y hy
    obtain ⟨s, hs, hy⟩ := List.mem_flatMap.1 hy
    obtain ⟨b, hstores, hheld⟩ := exists_of_forall₂ h s hs
    exact (hheld.mono hstores hcd).exists_spells y hy
  obtain ⟨g, hg, hspells⟩ := exists_spells_of_children (node?_alloc c m) hstored hchildren
  refine ⟨_, hspells, ?_⟩
  rw [Subtree.shape_node, Subtree.shape_node, List.map_map]
  congr 1
  refine map_eq_of_forall₂ h fun s hs b hb => ?_
  exact (hb.2.mono hb.1 hcd).shape_eq fun y hy => hg y (mem_childrenOf hs hy)

include hg in
/-- The copy of a node with what its slots become stands for the tree of the node in which the
    target is replaced. -/
theorem sprouts_update {n : Node} {os : List (Option Child)} (hn : a.node? x = some n)
    (hos : Forall₂ (SlotBecomes a target r g c) n.slots os) :
    (c.alloc (n.update os)).2.Sprouts (c.alloc (n.update os)).1 (Replaced target r g x) := by
  obtain ⟨hslots, hdata⟩ := Node.slots_data_withSlots (forall₂_zipWith (fun _ _ h => h.similar) hos)
  have hholds : Forall₂ (fun s new => c.Stores new ∧
      c.Holds new ((a.branch (Replaced target r g) s).plant target (r.map g))) n.slots
      (List.zipWith (fun old change => change.getD old) n.slots os) :=
    forall₂_zipWith (fun _ _ h => ⟨h.stores, h.holds⟩) hos
  rw [← Node.update] at hslots hdata
  rw [← hslots] at hholds
  have htree : Replaced target r g x = .node x (n.update os).data
      (n.slots.map fun s => (a.branch (Replaced target r g) s).plant target (r.map g)) := by
    rw [Replaced, (tree_eq hg hn).1, Subtree.subst_node, hdata, List.map_map]
    congr 1
    refine List.map_congr_left fun s _ => ?_
    rw [Function.comp_apply, map_branch]
    rfl
  rw [htree]
  exact sprouts_alloc x ((List.forall₂_map_right_iff).2 hholds.flip)

include hac hg hr hc in
/-- A node is rebuilt if its children are. -/
theorem rebuildNode_becomes (hshort : a.Short) (hx : a.Knows x)
    (hE : r = none → ∀ e, a.Requires x target e → E e)
    (hf : ∀ y ∈ a.children x, ∀ d, a.Extends d →
      (f y).Comes d (fun e o => NodeBecomes a target r g e y o) E) :
    (rebuildNode target r f x).Comes c (fun d o => NodeBecomes a target r g d x o) E := by
  obtain ⟨n, hn⟩ := knows_iff.1 hx
  obtain ⟨-, hstored, hknown⟩ := tree_eq hg hn
  have hmem {s : Child} {y : NodeId} (hs : s ∈ n.slots) (hy : y ∈ a.ofSlot s) :
      y ∈ a.children x := by
    rw [children_eq hn]
    exact mem_childrenOf hs hy
  unfold rebuildNode
  refine EditM.comes_get ?_
  rw [hc.node? x n hn]
  have hslots : (n.fields.mapM (rebuildSlot target r f n.kindName)).Comes c
      (fun d os => Forall₂ (fun q => SlotBecomes a target r g d q.2) n.fields os) E := by
    refine EditM.comes_mapM (fun hde h => h.mono hde) ?_
    rintro ⟨field, s⟩ hq d hcd
    have hs : s ∈ n.slots := List.mem_map_of_mem hq
    refine rebuildSlot_becomes hac hg hr (hc.trans hcd) (hstored s hs)
      (fun y hy => hknown y (hmem hs hy)) (hshort.length_ofSlot_le hn hs) (fun hr heq => ?_)
      fun y hy => hf y (hmem hs hy)
    subst heq
    exact hE hr _ ((requires_iff hn).2 (.inl ⟨field, hq, rfl⟩))
  refine hslots.bind fun os d hcd hos => ?_
  have hos : Forall₂ (SlotBecomes a target r g d) n.slots os := List.forall₂_map_left_iff.2 hos
  obtain ⟨hchanged, hrequired⟩ := SlotBecomes.all_isNone hos
  rw [← childrenOf, ← children_eq hn] at hchanged hrequired
  have hfree : r = none → ∀ e, ¬a.Requires x target e := by
    intro hr e he
    obtain ⟨hnot, hbelow⟩ := hrequired hr
    rcases (requires_iff hn).1 he with ⟨field, hfield, -⟩ | ⟨y, hy, he⟩
    · exact hnot (List.mem_map_of_mem hfield)
    · exact hbelow y hy e he
  by_cases hall : os.all Option.isNone = true
  · rw [if_pos hall]
    exact EditM.comes_pure ⟨by simp, by simpa using hchanged.1 hall, hfree⟩
  · rw [if_neg hall]
    refine (EditM.comes_alloc (P := fun e y => e.Sprouts y (Replaced target r g x))
      (sprouts_update hg hn hos)).bind fun y e _ hy => EditM.comes_pure ?_
    refine ⟨fun z hz => by cases hz; exact hy, ?_, hfree⟩
    rw [hchanged] at hall
    simpa using hall

variable {rank : NodeId → Nat}

include hg hr in
/-- Rebuilding descends deep enough: the rank of a node bounds how far. -/
theorem unroll_becomes (hrank : ∀ id, ∀ c ∈ a.children id, rank c < rank id) (hshort : a.Short)
    (hE : r = none → ∀ e, a.Requires x target e → E e) {depth : Nat} (hx : a.Knows x)
    (hdepth : rank x < depth) (hc : a.Extends c) :
    (unroll (pure none) (rebuildNode target r) depth x).Comes c
      (fun d o => NodeBecomes a target r g d x o) E := by
  induction depth generalizing x c with
  | zero => omega
  | succ depth ih =>
    obtain ⟨n, hn⟩ := knows_iff.1 hx
    refine rebuildNode_becomes ⟨rank, hrank⟩ hg hr hc hshort hx hE fun y hy d had => ?_
    have hlt := hrank x y hy
    refine ih (fun hr e he => hE hr e ?_) ((tree_eq hg hn).2.2 y hy) (by omega) had
    exact (requires_iff hn).2 (.inr ⟨y, hy, he⟩)

end

/-! ## Replacing -/

section
variable {a : Arena} {root target : NodeId} {r : Option NodeId}

/-- The root is replaced without an edit. -/
theorem run_replace_root (hroot : a.Knows root) :
    (replace root root r).run.run a = (r.elim (.error .removeRoot) .ok, a) := by
  obtain ⟨n, hn⟩ := knows_iff.1 hroot
  have hknown : (a.node? root).isNone = false := by rw [hn]; rfl
  unfold replace
  rw [EditM.run_get, hknown, if_neg Bool.false_ne_true, if_pos rfl]
  cases r <;> rfl

/-- Below the root, an edit puts the replacement in its place, or says why it does not. -/
theorem replace_comes {g : NodeId → Subtree} (hg : ∀ x, a.Knows x → a.Spells x (g x))
    (hac : a.Acyclic) (hshort : a.Short) (hroot : a.Knows root)
    (hr : ∀ new, r = some new → a.Knows new) (hne : target ≠ root) :
    (replace root target r).Comes a
      (fun d new => d.Sprouts new (Replaced target r g root) ∧ a.Reaches root target ∧
        (r = none → ∀ e, ¬a.Requires root target e))
      fun e => e = .notFound root target ∧ ¬a.Reaches root target ∨
        r = none ∧ a.Requires root target e := by
  obtain ⟨n, hn⟩ := knows_iff.1 hroot
  obtain ⟨rank, hrank, hle⟩ := hac.exists_rank_le
  have hrebuild : (rebuild target r root).Comes a (fun d o => NodeBecomes a target r g d root o)
      fun e => e = .notFound root target ∧ ¬a.Reaches root target ∨
        r = none ∧ a.Requires root target e :=
    EditM.comes_get <| unroll_becomes hg hr hrank hshort (fun hr e he => .inr ⟨hr, he⟩) hroot
      (Nat.lt_succ_of_le (hle root)) (.refl a)
  refine EditM.comes_get ?_
  rw [hn, if_neg (by simp), if_neg hne]
  refine hrebuild.bind fun o d _ ho => ?_
  have hchanged := ho.isSome_iff hne.symm
  cases o with
  | none => exact EditM.comes_throw (.inl ⟨rfl, by simpa using hchanged⟩)
  | some new =>
    exact EditM.comes_pure ⟨ho.sprouts new rfl, by simpa using hchanged, ho.free⟩

/-- One of three things comes of it. -/
theorem replace_outcome {g : NodeId → Subtree} (hg : ∀ x, a.Knows x → a.Spells x (g x))
    (hac : a.Acyclic) (hshort : a.Short) (hroot : a.Knows root)
    (hr : ∀ new, r = some new → a.Knows new) (hne : target ≠ root) :
    (¬a.Reaches root target ∧
      ((replace root target r).run.run a).1 = .error (.notFound root target)) ∨
    (r = none ∧ ∃ kind field, a.Requires root target (.requiredSlot kind field) ∧
      ((replace root target r).run.run a).1 = .error (.requiredSlot kind field)) ∨
    (a.Reaches root target ∧ (r = none → ∀ e, ¬a.Requires root target e) ∧
      ∃ new, ((replace root target r).run.run a).1 = .ok new ∧
        ((replace root target r).run.run a).2.Sprouts new (Replaced target r g root)) := by
  obtain ⟨-, hok, herror⟩ := replace_comes hg hac hshort hroot hr hne
  cases hrun : ((replace root target r).run.run a).1 with
  | error e =>
    rcases herror e hrun with ⟨rfl, hnot⟩ | ⟨hnone, hrequires⟩
    · exact .inl ⟨hnot, rfl⟩
    · have hslot := hrequires
      obtain ⟨y, n, field, -, -, -, rfl⟩ := hslot
      exact .inr (.inl ⟨hnone, _, _, hrequires, rfl⟩)
  | ok new =>
    obtain ⟨hsprouts, hreach, hfree⟩ := hok new hrun
    exact .inr (.inr ⟨hreach, hfree, new, rfl, hsprouts⟩)

/-- Every node of such an arena has its tree. -/
theorem exists_trees (hclosed : a.Closed) (hstored : a.Stored) (hac : a.Acyclic) :
    ∃ g : NodeId → Subtree, ∀ x, a.Knows x → a.Spells x (g x) := by
  have htrees : ∀ x, ∃ t, a.Knows x → a.Spells x t := by
    intro x
    by_cases hx : a.Knows x
    · obtain ⟨t, ht⟩ := exists_spells hclosed hstored hac hx
      exact ⟨t, fun _ => ht⟩
    · exact ⟨.node x .booleanType [], fun h => absurd h hx⟩
  choose g hg using htrees
  exact ⟨g, hg⟩

/-- A complete arena holds what it refers to. -/
theorem Complete.closed_stored (h : a.Complete) : a.Closed ∧ a.Stored := by
  refine ⟨fun id c hc => ?_, fun id n hn s hs range heq => ?_⟩
  · obtain ⟨m, hm⟩ := knows_iff.1 (h.knows_child hc)
    rw [hm]
    rfl
  · have hfits := h.fits id n hn s hs
    rw [heq] at hfits
    exact hfits

end

end Arena

end Arbor
