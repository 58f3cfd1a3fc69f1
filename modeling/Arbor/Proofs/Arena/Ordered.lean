/-
  Arenas in order.

  What a node refers to is in the arena before the node is: its children, and the place of
  its child lists.  Allocation keeps this order if it is given nodes and lists that are
  there already, and everything that was there stays as it was.

  * `Knows` and `Fits` say that a node and the contents of a slot are in the arena;
  * `Ordered` says that every node comes after its children;
  * `EditM.Adds` and `Build.Adds`: an edit, and a part of a building, only adds to an arena
    in order, and says something about what it gives.

  Main statements: `Ordered.alloc` and `Ordered.allocList`; `EditM.Adds.bind` and
  `Build.Adds.bind`, by which longer edits and buildings are put together.
-/
import Arbor.Proofs.Program.Basis
import Arbor.Arena.Edit

namespace Arbor

namespace Arena

variable {a b : Arena}

/-! ## What is in an arena -/

/-- The node is in the arena. -/
def Knows (a : Arena) (id : NodeId) : Prop := id.raw < a.size

instance (id : NodeId) : Decidable (a.Knows id) := inferInstanceAs (Decidable (id.raw < a.size))

/-- What a slot holds is in the arena: the children, or the place of the child list. -/
def Fits (a : Arena) : Child → Prop
  | .one id => a.Knows id
  | .optional id => ∀ c, id = some c → a.Knows c
  | .list r => r.start + r.len ≤ a.lists.size

/-- Every listed id is that of a node, and every node comes after its children. -/
structure Ordered (a : Arena) : Prop where
  listed : ∀ id ∈ a.lists, a.Knows id
  fits : ∀ id n, a.node? id = some n → ∀ c ∈ n.slots, a.Fits c
  lower : ∀ id n, a.node? id = some n → ∀ c ∈ a.childrenOf n, c.raw < id.raw

theorem knows_iff {id : NodeId} : a.Knows id ↔ ∃ n, a.node? id = some n := by
  constructor
  · intro h
    exact ⟨_, Array.getElem?_eq_getElem h⟩
  · rintro ⟨n, hn⟩
    exact (Array.getElem?_eq_some_iff.1 hn).1

theorem ordered_empty : Ordered .empty where
  listed := by simp [empty]
  fits := by simp [empty, node?]
  lower := by simp [empty, node?]

/-- The ids of a child list are listed. -/
theorem mem_lists_of_mem_list {r : NodeRange} {id : NodeId} (h : id ∈ a.list r) : id ∈ a.lists := by
  unfold list at h
  split at h
  · rw [Array.toList_extract, List.extract_eq_take_drop] at h
    exact Array.mem_toList_iff.1 (List.mem_of_mem_drop (List.mem_of_mem_take h))
  · cases h

theorem Ordered.knows_of_ofSlot (h : a.Ordered) {c : Child} (hc : a.Fits c) {x : NodeId}
    (hx : x ∈ a.ofSlot c) : a.Knows x := by
  cases c with
  | one id => rw [List.mem_singleton.1 hx]; exact hc
  | optional id => exact hc x (Option.mem_toList.1 hx)
  | list r => exact h.listed x (mem_lists_of_mem_list hx)

/-- The children of every node are in the arena. -/
theorem Ordered.closed (h : a.Ordered) : a.Closed := by
  intro id c hc
  unfold children at hc
  split at hc
  · next n hn =>
    obtain ⟨slot, hslot, hc⟩ := List.mem_flatMap.1 hc
    obtain ⟨m, hm⟩ := knows_iff.1 (h.knows_of_ofSlot (h.fits id n hn slot hslot) hc)
    rw [hm]
    rfl
  · cases hc

theorem Ordered.lt (h : a.Ordered) {id c : NodeId} (hc : c ∈ a.children id) : c.raw < id.raw := by
  unfold children at hc
  split at hc
  · next n hn => exact h.lower id n hn c hc
  · cases hc

/-- No node of an arena in order is below itself. -/
theorem Ordered.acyclic (h : a.Ordered) : a.Acyclic := acyclic_of_lt fun _ _ hc => h.lt hc

/-! ## Growing arenas -/

theorem Extends.knows (h : a.Extends b) {id : NodeId} (hid : a.Knows id) : b.Knows id := by
  obtain ⟨n, hn⟩ := knows_iff.1 hid
  exact knows_iff.2 ⟨n, h.node? id n hn⟩

theorem Extends.fits (h : a.Extends b) {c : Child} (hc : a.Fits c) : b.Fits c := by
  cases c with
  | one id => exact h.knows hc
  | optional id => exact fun c hid => h.knows (hc c hid)
  | list r => exact Nat.le_trans hc h.size

theorem Extends.ofSlot (h : a.Extends b) {c : Child} (hc : a.Fits c) : b.ofSlot c = a.ofSlot c := by
  cases c with
  | one id => rfl
  | optional id => rfl
  | list r => exact h.list r hc

/-- The children of a node stay the same. -/
theorem Extends.childrenOf (h : a.Extends b) {n : Node} (hn : ∀ c ∈ n.slots, a.Fits c) :
    b.childrenOf n = a.childrenOf n := by
  unfold Arena.childrenOf
  rw [List.flatMap_def, List.flatMap_def, List.map_congr_left fun c hc => h.ofSlot (hn c hc)]

/-! ## Allocation -/

theorem size_alloc (a : Arena) (n : Node) : (a.alloc n).2.size = a.size + 1 := Array.size_push ..

theorem knows_alloc (a : Arena) (n : Node) : (a.alloc n).2.Knows (a.alloc n).1 :=
  knows_iff.2 ⟨n, node?_alloc a n⟩

/-- A node of an arena after an allocation is the new one, or was there before. -/
theorem node?_of_alloc {n m : Node} {id : NodeId} (h : (a.alloc n).2.node? id = some m) :
    id = (a.alloc n).1 ∧ m = n ∨ a.node? id = some m := by
  have hpush : (a.nodes.push n)[id.raw]? = some m := h
  rw [Array.getElem?_push] at hpush
  split at hpush
  · next hid =>
    cases hpush
    exact .inl ⟨by cases id; cases hid; rfl, rfl⟩
  · exact .inr hpush

/-- A node whose slots fit comes after its children. -/
theorem Ordered.alloc (h : a.Ordered) {n : Node} (hn : ∀ c ∈ n.slots, a.Fits c) :
    (a.alloc n).2.Ordered := by
  have hx := extends_alloc a n
  refine ⟨fun id hid => hx.knows (h.listed id hid), fun id m hm c hc => ?_, fun id m hm c hc => ?_⟩
  · rcases node?_of_alloc hm with ⟨-, rfl⟩ | hm
    · exact hx.fits (hn c hc)
    · exact hx.fits (h.fits id m hm c hc)
  · rcases node?_of_alloc hm with ⟨rfl, rfl⟩ | hm
    · rw [hx.childrenOf hn] at hc
      obtain ⟨slot, hslot, hc⟩ := List.mem_flatMap.1 hc
      exact h.knows_of_ofSlot (hn slot hslot) hc
    · rw [hx.childrenOf (h.fits id m hm)] at hc
      exact h.lower id m hm c hc

theorem fits_allocList {ids : List NodeId} {r : NodeRange} (h : (a.allocList ids).1 = .ok r) :
    (a.allocList ids).2.Fits (.list r) := by
  unfold allocList at h ⊢
  split at h
  · cases h
    simp [Fits]
  · cases h

/-- A list of nodes that are there can be allocated, even if it is refused. -/
theorem Ordered.allocList (h : a.Ordered) {ids : List NodeId} (hids : ∀ id ∈ ids, a.Knows id) :
    (a.allocList ids).2.Ordered := by
  have hx := extends_allocList a ids
  refine ⟨fun id hid => ?_, fun id m hm c hc => hx.fits (h.fits id m hm c hc),
    fun id m hm c hc => ?_⟩
  · rcases Array.mem_append.1 hid with hid | hid
    · exact hx.knows (h.listed id hid)
    · exact hx.knows (hids id (List.mem_toArray.1 hid))
  · rw [hx.childrenOf (h.fits id m hm)] at hc
    exact h.lower id m hm c hc

end Arena

/-! ## Edits and buildings -/

variable {α β : Type}

/-- Run on an arena in order, the edit only adds to it, whether it fails or not, and what it
    gives is as said. -/
def EditM.Adds (x : EditM α) (a : Arena) (P : Arena → α → Prop) : Prop :=
  a.Extends (x.run.run a).2 ∧ (x.run.run a).2.Ordered ∧
    ∀ y, (x.run.run a).1 = .ok y → P (x.run.run a).2 y

/-- Run on a forest in order, the part of a building only adds to it if it does not fail, and
    what it gives is as said. -/
def Build.Adds (x : Build α) (f : Forest) (P : Arena → α → Prop) : Prop :=
  ∀ y g, x.run f = .ok (y, g) → f.arena.Extends g.arena ∧ g.arena.Ordered ∧ P g.arena y

namespace EditM

variable {a : Arena} {P : Arena → α → Prop} {Q : Arena → β → Prop} {x : EditM α} {f : α → EditM β}

theorem adds_pure (ha : a.Ordered) {y : α} (hy : P a y) : (pure y : EditM α).Adds a P :=
  ⟨.refl a, ha, fun _ h => by cases h; exact hy⟩

theorem adds_throw (ha : a.Ordered) (e : EditError) : (throw e : EditM α).Adds a P :=
  ⟨.refl a, ha, fun _ h => by cases h⟩

theorem run_bind (x : EditM α) (f : α → EditM β) (a : Arena) :
    (x >>= f).run.run a =
      match x.run.run a with
      | (.ok y, b) => (f y).run.run b
      | (.error e, b) => (.error e, b) := by
  simp only [bind, ExceptT.bind, ExceptT.mk, ExceptT.run, StateT.bind, StateT.run]
  rcases x a with ⟨e | y, b⟩ <;> rfl

/-- **Edits one after another**: the second begins with what the first has added. -/
theorem Adds.bind (hx : x.Adds a P)
    (hf : ∀ y b, a.Extends b → b.Ordered → P b y → (f y).Adds b Q) : (x >>= f).Adds a Q := by
  obtain ⟨hext, hord, hP⟩ := hx
  unfold Adds
  rw [run_bind]
  rcases hr : x.run.run a with ⟨e | y, b⟩
  · rw [hr] at hext hord
    exact ⟨hext, hord, fun _ h => by cases h⟩
  · rw [hr] at hext hord hP
    obtain ⟨hext', hord', hQ⟩ := hf y b hext hord (hP y rfl)
    exact ⟨hext.trans hext', hord', hQ⟩

/-- What comes after an error is not done. -/
theorem adds_throw_bind (ha : a.Ordered) (e : EditError) (f : α → EditM β) :
    ((throw e : EditM α) >>= f).Adds a Q :=
  ⟨.refl a, ha, fun _ h => by cases h⟩

/-- An edit may look at the arena as it is. -/
theorem adds_get {g : Arena → EditM α} (h : (g a).Adds a P) : ((get : EditM Arena) >>= g).Adds a P := h

theorem adds_alloc (ha : a.Ordered) {n : Node} (hn : ∀ c ∈ n.slots, a.Fits c) :
    (EditM.alloc n).Adds a fun b id => b.Knows id :=
  ⟨Arena.extends_alloc a n, ha.alloc hn, fun _ h => by cases h; exact Arena.knows_alloc a n⟩

theorem adds_allocList (ha : a.Ordered) {ids : List NodeId} (hids : ∀ id ∈ ids, a.Knows id) :
    (EditM.allocList ids).Adds a fun b r => b.Fits (.list r) :=
  ⟨Arena.extends_allocList a ids, ha.allocList hids, fun _ h => Arena.fits_allocList h⟩

/-- An edit for each item of a list, when what is said stays true while the arena grows. -/
theorem adds_mapM {R : Arena → α → Prop} {g : β → EditM α} {items : List β}
    (hR : ∀ {b c : Arena} {y}, b.Extends c → R b y → R c y) (ha : a.Ordered)
    (hg : ∀ z ∈ items, ∀ b, a.Extends b → b.Ordered → (g z).Adds b R) :
    (items.mapM g).Adds a fun b ys => ∀ y ∈ ys, R b y := by
  induction items generalizing a with
  | nil => exact adds_pure ha nofun
  | cons z items ih =>
    rw [List.mapM_cons]
    refine (hg z List.mem_cons_self a (.refl a) ha).bind fun y b hab hb hy => ?_
    have rest := ih hb fun z hz c hbc hc => hg z (List.mem_cons_of_mem _ hz) c (hab.trans hbc) hc
    refine rest.bind fun ys c hbc hc hys => adds_pure hc fun w hw => ?_
    rcases List.mem_cons.1 hw with rfl | hw
    · exact hR hbc hy
    · exact hys w hw

end EditM

namespace Build

variable {f : Forest} {P : Arena → α → Prop} {Q : Arena → β → Prop} {x : Build α} {k : α → Build β}

theorem adds_pure (hf : f.arena.Ordered) {y : α} (hy : P f.arena y) :
    (pure y : Build α).Adds f P :=
  fun _ _ h => by cases h; exact ⟨.refl _, hf, hy⟩

/-- **Parts of a building one after another**: the second begins with what the first has
    added. -/
theorem Adds.bind (hx : x.Adds f P)
    (hk : ∀ y g, f.arena.Extends g.arena → g.arena.Ordered → P g.arena y → (k y).Adds g Q) :
    (x >>= k).Adds f Q := by
  intro z h hr
  have hrun : (x >>= k).run f = x.run f >>= fun (y, g) => (k y).run g := rfl
  rw [hrun] at hr
  cases hx' : x.run f with
  | error e => rw [hx'] at hr; cases hr
  | ok r =>
    obtain ⟨y, g⟩ := r
    rw [hx'] at hr
    obtain ⟨hext, hord, hP⟩ := hx y g hx'
    obtain ⟨hext', hord', hQ⟩ := hk y g hext hord hP z h hr
    exact ⟨hext.trans hext', hord', hQ⟩

theorem adds_name (hf : f.arena.Ordered) (s : String) : (Build.name s).Adds f fun _ _ => True :=
  fun _ _ h => by cases h; exact ⟨.refl _, hf, trivial⟩

theorem adds_add (hf : f.arena.Ordered) {n : Node} (hn : ∀ c ∈ n.slots, f.arena.Fits c) :
    (Build.add n).Adds f fun a id => a.Knows id :=
  fun _ _ h => by
    cases h
    exact ⟨Arena.extends_alloc _ n, hf.alloc hn, Arena.knows_alloc _ n⟩

theorem adds_list (hf : f.arena.Ordered) {ids : List NodeId} (hids : ∀ id ∈ ids, f.arena.Knows id) :
    (Build.list ids).Adds f fun a r => a.Fits (.list r) := by
  intro r g h
  have hrun : (Build.list ids).run f = Build.list ids f := rfl
  rw [hrun, Build.list] at h
  split at h
  · next r' a hr =>
    cases h
    have ha : (f.arena.allocList ids).2 = a := by rw [hr]
    subst ha
    exact ⟨Arena.extends_allocList _ ids, hf.allocList hids, Arena.fits_allocList (by rw [hr])⟩
  · cases h

/-- A part of a building for each item of a list, when what is said stays true while the
    arena grows. -/
theorem adds_mapM {R : Arena → α → Prop} {g : β → Build α} {items : List β}
    (hR : ∀ {b c : Arena} {y}, b.Extends c → R b y → R c y) (hf : f.arena.Ordered)
    (hg : ∀ z ∈ items, ∀ f', f.arena.Extends f'.arena → f'.arena.Ordered → (g z).Adds f' R) :
    (items.mapM g).Adds f fun a ys => ∀ y ∈ ys, R a y := by
  induction items generalizing f with
  | nil => exact adds_pure hf nofun
  | cons z items ih =>
    rw [List.mapM_cons]
    refine (hg z List.mem_cons_self f (.refl _) hf).bind fun y f₁ hext hf₁ hy => ?_
    have rest := ih hf₁ fun z hz f₂ hext' hf₂ =>
      hg z (List.mem_cons_of_mem _ hz) f₂ (hext.trans hext') hf₂
    refine rest.bind fun ys f₂ hext' hf₂ hys => adds_pure hf₂ fun w hw => ?_
    rcases List.mem_cons.1 hw with rfl | hw
    · exact hR hext' hy
    · exact hys w hw

end Build

end Arbor
