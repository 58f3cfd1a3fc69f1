/-
  Edits of arenas in order.

  An edit that is given nodes of the arena only adds to it, and leaves it in order, however
  far it comes before it fails.  A rebuilding descends as deep as there are nodes, which is
  deeper than any node lies, although the arena grows while it goes on: two depths above
  the id of a node do the same (`alike_unroll`).

  Main statements: `adds_cloneNode`, `adds_replace` and `adds_withField`; `rebuild_eq`, the
  recursion that a rebuilding follows.
-/
import Arbor.Proofs.Arena.Ordered

namespace Arbor

namespace Node

/-- What a node holds after new contents were put in its slots is new or was there. -/
theorem mem_slots_withSlots {n : Node} {cs : List Child} {c : Child}
    (h : c ∈ (n.withSlots cs).slots) : c ∈ cs ∨ c ∈ n.slots := by
  unfold withSlots at h
  split at h
  case h_13 => exact .inr h
  all_goals exact .inl h

theorem mem_slots_of_setField {n m : Node} {field : String} {child c : Child}
    (h : n.setField field child = .ok m) (hc : c ∈ m.slots) : c = child ∨ c ∈ n.slots := by
  unfold setField at h
  split at h
  · cases h
  · split at h
    · split at h
      · cases h
        rcases mem_slots_withSlots hc with hc | hc
        · exact (List.mem_or_eq_of_mem_set hc).symm
        · exact .inr hc
      · cases h
    · cases h

theorem mem_slots_update {n : Node} {changes : List (Option Child)} {c : Child}
    (h : c ∈ (n.update changes).slots) : some c ∈ changes ∨ c ∈ n.slots := by
  rcases mem_slots_withSlots h with h | h
  · obtain ⟨i, hi, rfl⟩ := List.mem_iff_getElem.1 h
    rw [List.length_zipWith] at hi
    rw [List.getElem_zipWith]
    cases hch : changes[i] with
    | none => exact .inr (List.getElem_mem _)
    | some new => exact .inl (hch ▸ List.getElem_mem _)
  · exact .inr h

end Node

namespace EditM

variable {α β : Type}

/-- Run on an arena in order, two edits do the same, and only add to it. -/
def Alike (x y : EditM α) (a : Arena) (P : Arena → α → Prop) : Prop :=
  x.run.run a = y.run.run a ∧ x.Adds a P

variable {a : Arena} {P : Arena → α → Prop} {Q : Arena → β → Prop} {x y : EditM α}

theorem Adds.alike (h : x.Adds a P) : x.Alike x a P := ⟨rfl, h⟩

theorem alike_get {f g : Arena → EditM α} (h : (f a).Alike (g a) a P) :
    ((get : EditM Arena) >>= f).Alike ((get : EditM Arena) >>= g) a P := h

theorem Alike.bind {f g : α → EditM β} (h : x.Alike y a P)
    (hfg : ∀ z b, a.Extends b → b.Ordered → P b z → (f z).Alike (g z) b Q) :
    (x >>= f).Alike (y >>= g) a Q := by
  obtain ⟨hxy, hx⟩ := h
  refine ⟨?_, hx.bind fun z b hab hb hz => (hfg z b hab hb hz).2⟩
  rw [run_bind, run_bind, ← hxy]
  obtain ⟨hext, hord, hP⟩ := hx
  rcases hr : x.run.run a with ⟨e | z, b⟩
  · rfl
  · rw [hr] at hext hord hP
    exact (hfg z b hext hord (hP z rfl)).1

theorem alike_mapM {R : Arena → α → Prop} {f g : β → EditM α} {items : List β}
    (hR : ∀ {b c : Arena} {y}, b.Extends c → R b y → R c y) (ha : a.Ordered)
    (hfg : ∀ z ∈ items, ∀ b, a.Extends b → b.Ordered → (f z).Alike (g z) b R) :
    (items.mapM f).Alike (items.mapM g) a fun b ys => ∀ y ∈ ys, R b y := by
  refine ⟨?_, adds_mapM hR ha fun z hz b hab hb => (hfg z hz b hab hb).2⟩
  induction items generalizing a with
  | nil => rfl
  | cons z items ih =>
    obtain ⟨hxy, hext, hord, -⟩ := hfg z List.mem_cons_self a (.refl a) ha
    rw [List.mapM_cons, List.mapM_cons, run_bind, run_bind, ← hxy]
    rcases hr : (f z).run.run a with ⟨e | y, b⟩
    · rfl
    · rw [hr] at hext hord
      have rest := ih hord fun w hw c hbc hc => hfg w (List.mem_cons_of_mem _ hw) c (hext.trans hbc) hc
      show ((items.mapM f >>= fun ys => pure (y :: ys)).run.run b) =
        ((items.mapM g >>= fun ys => pure (y :: ys)).run.run b)
      rw [run_bind, run_bind, rest]

end EditM

namespace Arena

/-! ## Rebuilding -/

section
variable {a : Arena} {target : NodeId} {replacement : Option NodeId}
variable {f g : NodeId → EditM (Option NodeId)}

/-- What a rebuilding gives is a node of the arena. -/
def KnowsNew (b : Arena) (o : Option NodeId) : Prop := ∀ new, o = some new → b.Knows new

/-- One descent does the same as another on every arena in order that has grown from `a`, and
    only adds to it. -/
def AlikeAt (a : Arena) (f g : NodeId → EditM (Option NodeId)) (c : NodeId) : Prop :=
  ∀ b, a.Extends b → b.Ordered → (f c).Alike (g c) b KnowsNew

theorem AlikeAt.mono {b : Arena} {c : NodeId} (h : AlikeAt a f g c) (hab : a.Extends b) :
    AlikeAt b f g c :=
  fun d hbd hd => h d (hab.trans hbd) hd

variable (target) in
theorem alike_rebuildItem (ha : a.Ordered) (hr : a.KnowsNew replacement) {item : NodeId}
    (hi : a.Knows item) (hfg : AlikeAt a f g item) :
    (rebuildItem target replacement f item).Alike (rebuildItem target replacement g item) a
      fun b r => ∀ id ∈ r.1, b.Knows id := by
  unfold rebuildItem
  split
  · exact (EditM.adds_pure ha fun id hid => hr id (Option.mem_toList.1 hid)).alike
  · refine (hfg a (.refl a) ha).bind fun o b hab hb ho => ?_
    cases o with
    | none => exact (EditM.adds_pure hb fun id hid => List.mem_singleton.1 hid ▸ hab.knows hi).alike
    | some new =>
      exact (EditM.adds_pure hb fun id hid => List.mem_singleton.1 hid ▸ ho new rfl).alike

/-- The slot that is rebuilt fits if it did before. -/
theorem alike_rebuildSlot (ha : a.Ordered) (hr : a.KnowsNew replacement) (kind : String)
    {field : String} {slot : Child} (hs : a.Fits slot)
    (hfg : ∀ c ∈ a.ofSlot slot, AlikeAt a f g c) :
    (rebuildSlot target replacement f kind (field, slot)).Alike
      (rebuildSlot target replacement g kind (field, slot)) a
      fun b o => ∀ new, o = some new → b.Fits new := by
  cases slot with
  | one c =>
    simp only [rebuildSlot]
    split
    · cases replacement with
      | none => exact (EditM.adds_throw ha _).alike
      | some new => exact (EditM.adds_pure ha fun _ h => by cases h; exact hr new rfl).alike
    · refine (hfg c (List.mem_singleton.2 rfl) a (.refl a) ha).bind fun o b _ hb ho => ?_
      refine (EditM.adds_pure hb fun new h => ?_).alike
      obtain ⟨n, hn, rfl⟩ := Option.map_eq_some_iff.1 h
      exact ho n hn
  | optional c =>
    cases c with
    | none => exact (EditM.adds_pure ha nofun).alike
    | some c =>
      simp only [rebuildSlot]
      split
      · exact (EditM.adds_pure ha fun _ h => by cases h; exact hr).alike
      · refine (hfg c (List.mem_singleton.2 rfl) a (.refl a) ha).bind fun o b _ hb ho => ?_
        refine (EditM.adds_pure hb fun new h => ?_).alike
        obtain ⟨n, hn, rfl⟩ := Option.map_eq_some_iff.1 h
        intro id hid
        cases hid
        exact ho n hn
  | list r =>
    simp only [rebuildSlot]
    refine EditM.alike_get ?_
    have items := EditM.alike_mapM (R := fun b (q : List NodeId × Bool) => ∀ id ∈ q.1, b.Knows id)
      (fun hbc hq id hid => hbc.knows (hq id hid)) ha
      fun c hc b hab hb => alike_rebuildItem target hb
        (fun new hnew => hab.knows (hr new hnew))
        (hab.knows (ha.listed c (mem_lists_of_mem_list hc))) ((hfg c hc).mono hab)
    refine items.bind fun qs b _ hb hqs => ?_
    split
    · refine ((EditM.adds_allocList hb fun id hid => ?_).alike).bind fun r c _ hc hfits =>
        (EditM.adds_pure hc fun new h => by cases h; exact hfits).alike
      obtain ⟨q, hq, hid⟩ := List.mem_flatMap.1 hid
      exact hqs q hq id hid
    · exact (EditM.adds_pure hb nofun).alike

/-- The copy of a node is a node of the arena. -/
theorem alike_rebuildNode (ha : a.Ordered) (hr : a.KnowsNew replacement) {id : NodeId}
    (hfg : ∀ c ∈ a.children id, AlikeAt a f g c) :
    (rebuildNode target replacement f id).Alike (rebuildNode target replacement g id) a
      KnowsNew := by
  unfold rebuildNode
  refine EditM.alike_get ?_
  split
  · exact (EditM.adds_pure ha nofun).alike
  · next n hn =>
    have slots : ∀ q ∈ n.fields, ∀ b, a.Extends b → b.Ordered →
        (rebuildSlot target replacement f n.kindName q).Alike
          (rebuildSlot target replacement g n.kindName q) b
          fun b o => ∀ new, o = some new → b.Fits new := by
      rintro ⟨field, slot⟩ hq b hab hb
      have hslot : slot ∈ n.slots := List.mem_map_of_mem hq
      have hfits := ha.fits id n hn slot hslot
      refine alike_rebuildSlot hb (fun new hnew => hab.knows (hr new hnew)) _ (hab.fits hfits)
        fun c hc => (hfg c ?_).mono hab
      rw [hab.ofSlot hfits] at hc
      rw [children_eq hn]
      exact List.mem_flatMap.2 ⟨slot, hslot, hc⟩
    refine (EditM.alike_mapM (fun hbc ho new hnew => hbc.fits (ho new hnew)) ha slots).bind
      fun os b hab hb hos => ?_
    split
    · exact (EditM.adds_pure hb nofun).alike
    · refine (EditM.adds_alloc hb fun c hc => ?_).alike.bind fun new d _ hd hnew =>
        (EditM.adds_pure hd fun _ h => by cases h; exact hnew).alike
      rcases Node.mem_slots_update hc with hc | hc
      · exact hos _ hc c rfl
      · exact hab.fits (ha.fits id n hn c hc)

variable (target) in
/-- **Two depths above the id of a node do the same**, since the nodes below it have lower
    ids, and keep them while the arena grows. -/
theorem alike_unroll (ha : a.Ordered) (hr : a.KnowsNew replacement) {d e : Nat} {id : NodeId}
    (hd : id.raw < d) (he : id.raw < e) :
    (unroll (pure none) (rebuildNode target replacement) d id).Alike
      (unroll (pure none) (rebuildNode target replacement) e id) a KnowsNew := by
  induction d generalizing e id a with
  | zero => omega
  | succ d ih =>
    obtain ⟨e, rfl⟩ : ∃ k, e = k + 1 := ⟨e - 1, by omega⟩
    refine alike_rebuildNode ha hr fun c hc b hab hb => ?_
    have := ha.lt hc
    exact ih hb (fun new hnew => hab.knows (hr new hnew)) (by omega) (by omega)

theorem run_rebuild (a : Arena) (id : NodeId) :
    (rebuild target replacement id).run.run a =
      (unroll (pure none) (rebuildNode target replacement) (a.size + 1) id).run.run a := rfl

/-- A rebuilding only adds to the arena, and follows its own recursion. -/
theorem alike_rebuild (ha : a.Ordered) (hr : a.KnowsNew replacement) (id : NodeId) :
    (rebuild target replacement id).Alike
      (rebuildNode target replacement (rebuild target replacement) id) a KnowsNew := by
  unfold EditM.Alike EditM.Adds
  rw [run_rebuild]
  refine alike_rebuildNode ha hr fun c hc b hab hb => ?_
  have hca := Nat.lt_trans (ha.lt hc) (lt_size_of_mem_children hc)
  have hcb : c.raw < b.size := hab.knows hca
  have deep := alike_unroll target hb (fun new hnew => hab.knows (hr new hnew)) hca
    (Nat.lt_succ_of_lt hcb)
  exact ⟨deep.1.trans (run_rebuild b c).symm, deep.2⟩

theorem adds_rebuild (ha : a.Ordered) (hr : a.KnowsNew replacement) (id : NodeId) :
    (rebuild target replacement id).Adds a KnowsNew := (alike_rebuild ha hr id).2

theorem adds_cloneNode (ha : a.Ordered) (id : NodeId) :
    (cloneNode id).Adds a fun b new => b.Knows new := by
  refine EditM.adds_get ?_
  split
  · exact EditM.adds_throw ha _
  · next n hn => exact EditM.adds_alloc ha (ha.fits id n hn)

theorem adds_replace (ha : a.Ordered) (hr : a.KnowsNew replacement) (root target : NodeId) :
    (replace root target replacement).Adds a fun b new => b.Knows new := by
  refine EditM.adds_get ?_
  by_cases hroot : (a.node? root).isNone = true
  · rw [if_pos hroot]
    exact EditM.adds_throw_bind ha ..
  · rw [if_neg hroot]
    by_cases htop : target = root
    · rw [if_pos htop]
      cases replacement with
      | none => exact EditM.adds_throw_bind ha ..
      | some new => exact EditM.adds_pure ha (hr new rfl)
    · rw [if_neg htop]
      refine (adds_rebuild ha hr root).bind fun o b _ hb ho => ?_
      cases o with
      | none => exact EditM.adds_throw hb _
      | some new => exact EditM.adds_pure hb (ho new rfl)

theorem adds_withField (ha : a.Ordered) (id : NodeId) (field : String) {child : Child}
    (hc : a.Fits child) : (withField id field child).Adds a fun b new => b.Knows new := by
  refine EditM.adds_get ?_
  split
  · exact EditM.adds_throw ha _
  · next n hn =>
    split
    · next m hm =>
      refine EditM.adds_alloc ha fun c hmem => ?_
      rcases Node.mem_slots_of_setField hm hmem with rfl | hmem
      · exact hc
      · exact ha.fits id n hn c hmem
    · exact EditM.adds_throw ha _

end

end Arena

end Arbor
